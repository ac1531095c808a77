import Mathlib.Algebra.Ring.Nat
import Mathlib.Data.Nat.Basic

/-! Class identifiers and their text. The text format belongs to a library, so it
is a parameter of which only the round trip is used; the hyphenated form is the
one that the library writes. -/
namespace Nemclass.Model

structure Uuid where
  bits : BitVec 128
deriving DecidableEq, Repr

namespace Uuid

def nil : Uuid := ⟨0⟩

end Uuid

/-- How identifiers are written and read back. -/
class UuidText where
  toString : Uuid → String
  parse : String → Option Uuid
  parse_toString : ∀ u, parse (toString u) = some u

namespace Uuid
variable [text : UuidText]

def toString (u : Uuid) : String := text.toString u

def parse (s : String) : Option Uuid := text.parse s

@[simp] theorem parse_toString (u : Uuid) : parse u.toString = some u := text.parse_toString u

/-- Comparing texts is comparing identifiers. -/
theorem toString_inj {u v : Uuid} : u.toString = v.toString ↔ u = v := by
  refine ⟨fun h => ?_, congrArg toString⟩
  have hparse := congrArg parse h
  rwa [parse_toString, parse_toString, Option.some_inj] at hparse

end Uuid

section Hyphenated

/-- The last `k` hexadecimal digits. -/
def hexDigits : ℕ → ℕ → List Char
  | 0, _ => []
  | k + 1, n => hexDigits k (n / 16) ++ [(n % 16).digitChar]

def hexDigitValue (c : Char) : ℕ :=
  if c.isDigit then c.toNat - '0'.toNat else c.toNat - 'a'.toNat + 10

/-- The value of the hexadecimal digits in a text, hyphens ignored. -/
def hexValue (s : List Char) : ℕ :=
  (s.filter (· ≠ '-')).foldl (fun acc c => acc * 16 + hexDigitValue c) 0

/-- Groups of 8, 4, 4, 4 and 12 digits. -/
def hyphenate (ds : List Char) : List Char :=
  ds.take 8 ++ '-' :: ((ds.drop 8).take 4 ++ '-' :: ((ds.drop 12).take 4 ++
    '-' :: ((ds.drop 16).take 4 ++ '-' :: ds.drop 20)))

theorem digitChar_hex : ∀ d < 16, d.digitChar ≠ '-' ∧ hexDigitValue d.digitChar = d := by decide

theorem hexDigits_ne (k n : ℕ) : ∀ c ∈ hexDigits k n, c ≠ '-' := by
  induction k generalizing n with
  | zero => simp [hexDigits]
  | succ k ih =>
    intro c hc
    rcases List.mem_append.mp hc with hc | hc
    · exact ih (n / 16) c hc
    · rw [List.mem_singleton.mp hc]
      exact (digitChar_hex _ (Nat.mod_lt n (by decide))).1

theorem filter_hyphenate {ds : List Char} (h : ∀ c ∈ ds, c ≠ '-') :
    (hyphenate ds).filter (· ≠ '-') = ds := by
  have hkeep (xs : List Char) (hxs : ∀ c ∈ xs, c ∈ ds) : xs.filter (· ≠ '-') = xs :=
    List.filter_eq_self.mpr fun c hc => by simpa using h c (hxs c hc)
  have hsplit : ds.take 8 ++ ((ds.drop 8).take 4 ++ ((ds.drop 12).take 4 ++
      ((ds.drop 16).take 4 ++ ds.drop 20))) = ds := by
    rw [show ds.drop 20 = (ds.drop 16).drop 4 by rw [List.drop_drop], List.take_append_drop,
      show ds.drop 16 = (ds.drop 12).drop 4 by rw [List.drop_drop], List.take_append_drop,
      show ds.drop 12 = (ds.drop 8).drop 4 by rw [List.drop_drop], List.take_append_drop,
      List.take_append_drop]
  have hdrop (k : ℕ) : ∀ c ∈ ds.drop k, c ∈ ds := fun c hc => List.mem_of_mem_drop hc
  have htake (k l : ℕ) : ∀ c ∈ (ds.drop k).take l, c ∈ ds :=
    fun c hc => hdrop k c (List.mem_of_mem_take hc)
  simp only [hyphenate, List.filter_append, List.filter_cons, ne_eq, not_true_eq_false,
    decide_false, Bool.false_eq_true, if_false]
  have h0 := hkeep _ fun c hc => List.mem_of_mem_take (i := 8) hc
  have h1 := hkeep _ (htake 8 4)
  have h2 := hkeep _ (htake 12 4)
  have h3 := hkeep _ (htake 16 4)
  have h4 := hkeep _ (hdrop 20)
  simp only [ne_eq] at h0 h1 h2 h3 h4
  rw [h0, h1, h2, h3, h4, hsplit]

theorem foldl_hexDigits (k n : ℕ) :
    (hexDigits k n).foldl (fun acc c => acc * 16 + hexDigitValue c) 0 = n % 16 ^ k := by
  induction k generalizing n with
  | zero => simp [hexDigits, Nat.mod_one]
  | succ k ih =>
    rw [hexDigits, List.foldl_append, ih, List.foldl_cons, List.foldl_nil,
      (digitChar_hex _ (Nat.mod_lt n (by decide))).2, Nat.pow_succ, Nat.mul_comm (16 ^ k) 16,
      Nat.mod_mul]
    omega

/-- The text that the library writes. -/
def hyphenated (u : Uuid) : String := String.ofList (hyphenate (hexDigits 32 u.bits.toNat))

/-- Reads back what `hyphenated` writes, and nothing else. -/
def parseHyphenated (s : String) : Option Uuid :=
  let u : Uuid := ⟨BitVec.ofNat 128 (hexValue s.toList)⟩
  if hyphenated u = s then some u else none

theorem hexValue_hyphenated (u : Uuid) : hexValue (hyphenated u).toList = u.bits.toNat := by
  rw [hexValue, hyphenated, String.toList_ofList, filter_hyphenate (hexDigits_ne 32 _),
    foldl_hexDigits]
  exact Nat.mod_eq_of_lt (by simpa using u.bits.isLt)

@[reducible] def hyphenatedText : UuidText where
  toString := hyphenated
  parse := parseHyphenated
  parse_toString u := by
    have hread : (⟨BitVec.ofNat 128 (hexValue (hyphenated u).toList)⟩ : Uuid) = u := by
      rw [hexValue_hyphenated, BitVec.ofNat_toNat, BitVec.setWidth_eq]
    simp only [parseHyphenated, hread, if_true]

end Hyphenated

end Nemclass.Model
