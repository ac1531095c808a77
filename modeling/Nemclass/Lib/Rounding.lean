import Mathlib.Data.Int.Log
import Mathlib.Data.Rat.Floor
import Mathlib.Tactic.FieldSimp
import Mathlib.Tactic.Ring
import Nemclass.Lib.Binary64

/-! Rationals rounded to the numbers of a binary format, to nearest and of two to the even one; what
is too large becomes an infinity. A number of the format keeps its value. -/
namespace Nemclass.Binary64

def nearestEven (x : ℚ) : ℤ :=
  let q := ⌊x⌋
  let r := x - q
  if r < 1 / 2 ∨ r = 1 / 2 ∧ q % 2 = 0 then q else q + 1

@[simp] theorem nearestEven_natCast (n : ℕ) : nearestEven n = n := by
  simp [nearestEven]

namespace Format

variable (f : Format)

def bias : ℤ := 2 ^ (f.exponentBits - 1) - 1

/-- The exponent to which a magnitude is rounded. -/
def exponent (m : ℚ) : ℤ := if m = 0 then 1 - f.bias else max (Int.log 2 m) (1 - f.bias)

/-- The bits of a magnitude, below those of an infinity or no more than these. -/
def encodeMagnitude (m : ℚ) : ℕ :=
  let e := f.exponent m
  min ((e - (1 - f.bias)).toNat * 2 ^ f.fractionBits +
      (nearestEven (m / 2 ^ (e - f.fractionBits))).toNat)
    ((2 ^ f.exponentBits - 1) * 2 ^ f.fractionBits)

/-- The bits of the nearest number. -/
def encode (q : ℚ) : ℕ :=
  if q < 0 then 2 ^ (f.fractionBits + f.exponentBits) + f.encodeMagnitude (-q)
  else f.encodeMagnitude q

/-- The significand under an exponent field. -/
def significand (e fraction : ℕ) : ℕ := if e = 0 then fraction else 2 ^ f.fractionBits + fraction

def magnitude (e fraction : ℕ) : ℚ :=
  f.significand e fraction * 2 ^ ((max e 1 : ℤ) - f.bias - f.fractionBits)

variable {f} {e fraction : ℕ}

theorem magnitude_nonneg : 0 ≤ f.magnitude e fraction :=
  mul_nonneg (Nat.cast_nonneg _) (zpow_nonneg (by norm_num) _)

/-- The bits of a number, part by part. -/
theorem decode_parts {bits : ℕ} : f.decode bits =
    if bits / 2 ^ f.fractionBits % 2 ^ f.exponentBits = 2 ^ f.exponentBits - 1 then none
    else
      let m := f.magnitude (bits / 2 ^ f.fractionBits % 2 ^ f.exponentBits)
        (bits % 2 ^ f.fractionBits)
      some (if bits / 2 ^ (f.fractionBits + f.exponentBits) % 2 = 1 then -m else m) := rfl

theorem decode_bits (he : e < 2 ^ f.exponentBits - 1) (hfraction : fraction < 2 ^ f.fractionBits)
    {s : ℕ} (hs : s < 2) :
    f.decode (s * 2 ^ (f.fractionBits + f.exponentBits) + (e * 2 ^ f.fractionBits + fraction)) =
      some (if s = 1 then -f.magnitude e fraction else f.magnitude e fraction) := by
  have hunit : 0 < 2 ^ f.fractionBits := Nat.two_pow_pos _
  have hbits : s * 2 ^ (f.fractionBits + f.exponentBits) + (e * 2 ^ f.fractionBits + fraction) =
      (s * 2 ^ f.exponentBits + e) * 2 ^ f.fractionBits + fraction := by
    rw [pow_add]
    ring
  have hlt : e < 2 ^ f.exponentBits := Nat.lt_of_lt_of_le he (Nat.sub_le _ _)
  have hlow : ((s * 2 ^ f.exponentBits + e) * 2 ^ f.fractionBits + fraction) / 2 ^ f.fractionBits =
      s * 2 ^ f.exponentBits + e := by
    rw [Nat.add_comm, Nat.add_mul_div_right _ _ hunit, Nat.div_eq_of_lt hfraction, Nat.zero_add]
  have hhigh : (s * 2 ^ f.exponentBits + e) / 2 ^ f.exponentBits = s := by
    rw [Nat.add_comm, Nat.add_mul_div_right _ _ (Nat.two_pow_pos _), Nat.div_eq_of_lt hlt,
      Nat.zero_add]
  rw [hbits, decode_parts, pow_add, ← Nat.div_div_eq_div_mul, hlow, hhigh, Nat.mul_add_mod',
    Nat.mul_add_mod', Nat.mod_eq_of_lt hlt, Nat.mod_eq_of_lt hfraction, Nat.mod_eq_of_lt hs,
    if_neg (Nat.ne_of_lt he)]

theorem significand_lt (hfraction : fraction < 2 ^ f.fractionBits) :
    f.significand e fraction < 2 ^ (f.fractionBits + 1) := by
  rw [significand, pow_succ]
  split <;> omega

theorem magnitude_lt {n : ℕ} (h : f.significand e fraction < 2 ^ n) :
    f.magnitude e fraction < 2 ^ (n + ((max e 1 : ℤ) - f.bias - f.fractionBits)) := by
  rw [zpow_add₀ two_ne_zero, zpow_natCast]
  exact mul_lt_mul_of_pos_right (by exact_mod_cast h) (zpow_pos two_pos _)

theorem le_magnitude {n : ℕ} (h : 2 ^ n ≤ f.significand e fraction) :
    2 ^ (n + ((max e 1 : ℤ) - f.bias - f.fractionBits)) ≤ f.magnitude e fraction := by
  rw [zpow_add₀ two_ne_zero, zpow_natCast]
  exact mul_le_mul_of_nonneg_right (by exact_mod_cast h) (zpow_nonneg zero_le_two _)

/-- The exponent of a number is the one that its field stands for. -/
theorem exponent_magnitude (hfraction : fraction < 2 ^ f.fractionBits) :
    f.exponent (f.magnitude e fraction) = (max e 1 : ℤ) - f.bias := by
  rcases Nat.eq_zero_or_pos e with rfl | hpos
  · -- without the leading bit the logarithm is below the least exponent
    have hlt := magnitude_lt (f := f) (e := 0) (n := f.fractionBits) hfraction
    rw [exponent]
    split
    · rfl
    · next hm =>
      have hm' : 0 < f.magnitude 0 fraction := lt_of_le_of_ne magnitude_nonneg (Ne.symm hm)
      have hlog := (Int.lt_zpow_iff_log_lt one_lt_two hm').mp hlt
      push_cast at hlog ⊢
      omega
  · have hsignificand : f.significand e fraction = 2 ^ f.fractionBits + fraction :=
      if_neg (Nat.ne_of_gt hpos)
    have hle := @le_magnitude f e fraction f.fractionBits
      (by omega)
    have hlt := magnitude_lt (significand_lt (e := e) hfraction)
    have hm : 0 < f.magnitude e fraction := lt_of_lt_of_le (zpow_pos two_pos _) hle
    have hlower := (Int.zpow_le_iff_le_log one_lt_two hm).mp hle
    have hupper := (Int.lt_zpow_iff_log_lt one_lt_two hm).mp hlt
    rw [exponent, if_neg (ne_of_gt hm)]
    push_cast at hlower hupper ⊢
    omega

theorem encodeMagnitude_magnitude (he : e < 2 ^ f.exponentBits - 1)
    (hfraction : fraction < 2 ^ f.fractionBits) :
    f.encodeMagnitude (f.magnitude e fraction) = e * 2 ^ f.fractionBits + fraction := by
  have hround : nearestEven (f.magnitude e fraction /
      2 ^ ((max e 1 : ℤ) - f.bias - f.fractionBits)) = f.significand e fraction := by
    rw [magnitude, mul_div_cancel_right₀ _ (zpow_ne_zero _ two_ne_zero), nearestEven_natCast]
  have hbelow : e * 2 ^ f.fractionBits + fraction ≤ (2 ^ f.exponentBits - 1) * 2 ^ f.fractionBits := by
    calc e * 2 ^ f.fractionBits + fraction
        ≤ (e + 1) * 2 ^ f.fractionBits := by
          rw [Nat.succ_mul]
          omega
      _ ≤ (2 ^ f.exponentBits - 1) * 2 ^ f.fractionBits := Nat.mul_le_mul_right _ he
  have hsum : ((max e 1 : ℤ) - f.bias - (1 - f.bias)).toNat * 2 ^ f.fractionBits +
      (f.significand e fraction : ℤ).toNat = e * 2 ^ f.fractionBits + fraction := by
    rw [Int.toNat_natCast]
    rcases Nat.eq_zero_or_pos e with rfl | hpos
    · simp [significand]
    · rw [significand, if_neg (Nat.ne_of_gt hpos),
        show ((max e 1 : ℤ) - f.bias - (1 - f.bias)).toNat = e - 1 by omega]
      obtain ⟨e, rfl⟩ := Nat.exists_eq_add_of_lt hpos
      simp only [Nat.zero_add, Nat.add_sub_cancel]
      ring
  unfold encodeMagnitude
  dsimp only
  rw [exponent_magnitude hfraction, hround, hsum, min_eq_left hbelow]

theorem encodeMagnitude_lt (m : ℚ) :
    f.encodeMagnitude m < 2 ^ (f.fractionBits + f.exponentBits) := by
  have hle : f.encodeMagnitude m ≤ (2 ^ f.exponentBits - 1) * 2 ^ f.fractionBits := min_le_right _ _
  have hlt : (2 ^ f.exponentBits - 1) * 2 ^ f.fractionBits < 2 ^ f.exponentBits * 2 ^ f.fractionBits :=
    Nat.mul_lt_mul_of_pos_right (Nat.sub_one_lt (Nat.two_pow_pos _).ne') (Nat.two_pow_pos _)
  rw [← pow_add, Nat.add_comm] at hlt
  exact Nat.lt_of_le_of_lt hle hlt

theorem encode_lt (q : ℚ) : f.encode q < 2 ^ (f.fractionBits + f.exponentBits + 1) := by
  have hlt := encodeMagnitude_lt (f := f) q
  have hneg := encodeMagnitude_lt (f := f) (-q)
  rw [encode, pow_succ]
  split <;> omega

/-- What bits stand for is encoded as bits that stand for it. -/
theorem decode_encode {bits : ℕ} {q : ℚ} (h : f.decode bits = some q) :
    f.decode (f.encode q) = some q := by
  rw [decode_parts] at h
  by_cases hfinite : bits / 2 ^ f.fractionBits % 2 ^ f.exponentBits = 2 ^ f.exponentBits - 1
  · rw [if_pos hfinite] at h
    cases h
  rw [if_neg hfinite] at h
  generalize hexp : bits / 2 ^ f.fractionBits % 2 ^ f.exponentBits = e at h hfinite
  have he : e < 2 ^ f.exponentBits - 1 := by
    have hlt := Nat.mod_lt (bits / 2 ^ f.fractionBits) (Nat.two_pow_pos f.exponentBits)
    omega
  generalize hfrac : bits % 2 ^ f.fractionBits = fraction at h
  have hfraction : fraction < 2 ^ f.fractionBits := hfrac ▸ Nat.mod_lt _ (Nat.two_pow_pos _)
  have hmagnitude := encodeMagnitude_magnitude he hfraction
  have hpositive : f.decode (f.encodeMagnitude (f.magnitude e fraction)) =
      some (f.magnitude e fraction) := by
    rw [hmagnitude]
    simpa using decode_bits he hfraction (s := 0) (by norm_num)
  have hnegative : f.decode (2 ^ (f.fractionBits + f.exponentBits) +
      f.encodeMagnitude (f.magnitude e fraction)) = some (-f.magnitude e fraction) := by
    rw [hmagnitude]
    simpa using decode_bits he hfraction (s := 1) (by norm_num)
  have hnonneg := @magnitude_nonneg f e fraction
  dsimp only at h
  rw [encode]
  split at h <;> cases h
  · rcases hnonneg.eq_or_lt with hzero | hpos
    · rw [← hzero, neg_zero, if_neg (lt_irrefl 0), hzero, hpositive]
    · rw [if_pos (neg_lt_zero.mpr hpos), neg_neg, hnegative]
  · rw [if_neg (not_lt_of_ge hnonneg), hpositive]

end Format

end Nemclass.Binary64
