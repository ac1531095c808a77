import Mathlib.Algebra.Order.Field.Rat
import Mathlib.Tactic.Common

/-! Floating-point numbers as the rationals they are: what an integer is rounded to in double
precision, and what the bits of a number stand for. The sign of a zero is not kept. -/
namespace Nemclass.Binary64

/-- The nearest number of 53 significant bits, of two the even one. -/
def roundNat (n : ℕ) : ℕ :=
  let unit := 2 ^ (n.log2 - 52)
  let q := n / unit
  let r := n % unit
  if 2 * r < unit ∨ 2 * r = unit ∧ q % 2 = 0 then q * unit else (q + 1) * unit

def roundInt (v : ℤ) : ℤ := v.sign * roundNat v.natAbs

/-- What has 53 bits is not rounded. -/
theorem roundNat_of_lt {n : ℕ} (h : n < 2 ^ 53) : roundNat n = n := by
  have hlog : n.log2 - 52 = 0 := by
    by_cases hn : n = 0
    · subst hn
      decide
    · have hlt := (Nat.log2_lt hn).mpr h
      omega
  unfold roundNat
  rw [hlog]
  dsimp only
  rw [if_pos (by omega)]
  omega

theorem roundInt_of_lt {v : ℤ} (h : v.natAbs < 2 ^ 53) : roundInt v = v := by
  rw [roundInt, roundNat_of_lt h, Int.sign_mul_natAbs]

structure Format where
  exponentBits : ℕ
  fractionBits : ℕ
deriving DecidableEq, Repr

def single : Format := ⟨8, 23⟩

def double : Format := ⟨11, 52⟩

/-- The number that the bits stand for, unless they are an infinity or no number. -/
def Format.decode (f : Format) (bits : ℕ) : Option ℚ :=
  let fraction := bits % 2 ^ f.fractionBits
  let exponent := bits / 2 ^ f.fractionBits % 2 ^ f.exponentBits
  if exponent = 2 ^ f.exponentBits - 1 then none
  else
    let bias : ℤ := 2 ^ (f.exponentBits - 1) - 1
    -- without the leading bit, the least exponent stands twice
    let significand := if exponent = 0 then fraction else 2 ^ f.fractionBits + fraction
    let magnitude : ℚ := significand * 2 ^ ((max exponent 1 : ℤ) - bias - f.fractionBits)
    let negative := bits / 2 ^ (f.fractionBits + f.exponentBits) % 2 = 1
    some (if negative then -magnitude else magnitude)

variable {f : Format}

theorem Format.decode_zero (hexponent : 0 < f.exponentBits) : f.decode 0 = some 0 := by
  have hone : 1 < 2 ^ f.exponentBits := Nat.one_lt_two_pow (by omega)
  unfold Format.decode
  dsimp only
  rw [Nat.zero_div, Nat.zero_mod, if_neg (by omega)]
  simp

/-- The least number above zero. -/
theorem Format.decode_one (hexponent : 0 < f.exponentBits) (hfraction : 0 < f.fractionBits) :
    ∃ q, f.decode 1 = some q ∧ q ≠ 0 := by
  have hone : 1 < 2 ^ f.exponentBits := Nat.one_lt_two_pow (by omega)
  have hunit : 1 < 2 ^ f.fractionBits := Nat.one_lt_two_pow (by omega)
  have hsign : 1 < 2 ^ (f.fractionBits + f.exponentBits) := Nat.one_lt_two_pow (by omega)
  unfold Format.decode
  dsimp only
  rw [Nat.div_eq_of_lt hunit, Nat.mod_eq_of_lt hunit, Nat.zero_mod, if_neg (by omega),
    Nat.div_eq_of_lt hsign, if_neg (by decide), if_pos rfl]
  exact ⟨_, rfl, mul_ne_zero (by decide) (zpow_ne_zero _ (by decide))⟩

end Nemclass.Binary64
