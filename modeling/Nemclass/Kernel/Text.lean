import Mathlib.Algebra.Ring.Nat
import Mathlib.Data.List.DropRight

/-! The kernel's string functions, on byte strings without a zero byte. A character is a
byte; `0x20` is the blank, `0x09` the tab, `0x0A` the newline. -/
namespace Nemclass.Kernel

/-- A buffer as a C string, which ends before its first zero byte. -/
def cstr (buf : List UInt8) : List UInt8 := buf.takeWhile (· ≠ 0)

/-- `isspace`: control whitespace, the blank and the no-break space. -/
def isSpace (c : UInt8) : Bool := (9 ≤ c && c ≤ 13) || c == 0x20 || c == 0xA0

def skipSpaces (s : List UInt8) : List UInt8 := s.dropWhile isSpace

/-- The string without the whitespace around it. -/
def strim (s : List UInt8) : List UInt8 := skipSpaces (s.rdropWhile isSpace)

def isBlank (c : UInt8) : Bool := c == 0x20 || c == 0x09

/-- What is before and behind the first blank or tab: `strpbrk(s, " \\t")`, overwritten. -/
def splitBlank (s : List UInt8) : Option (List UInt8 × List UInt8) :=
  match s.dropWhile (!isBlank ·) with
  | [] => none
  | _ :: rest => some (s.takeWhile (!isBlank ·), rest)

/-- The value of a digit, in whatever base; no other character has one below 16. -/
def digitValue (c : UInt8) : ℕ :=
  if 0x30 ≤ c ∧ c ≤ 0x39 then c.toNat - 0x30
  else if 0x61 ≤ c ∧ c ≤ 0x66 then c.toNat - 0x61 + 10
  else if 0x41 ≤ c ∧ c ≤ 0x46 then c.toNat - 0x41 + 10
  else 255

def digitsValue (base : ℕ) (digits : List UInt8) : ℕ :=
  digits.foldl (fun res c => res * base + digitValue c) 0

/-- `_parse_integer_fixup_radix` for base 0: what is left to parse, and its base. -/
def fixupRadix (s : List UInt8) : ℕ × List UInt8 :=
  match s with
  | 0x30 :: x :: d :: rest =>
    if (x = 0x78 ∨ x = 0x58) ∧ digitValue d < 16 then (16, d :: rest) else (8, s)
  | 0x30 :: _ => (8, s)
  | _ => (10, s)

/-- The number that a text says in the syntax of `kstrtoul` with base 0, however large. -/
def parseNumber (s : List UInt8) : Option ℕ :=
  let unsigned := match s with
    | 0x2B :: s => s
    | s => s
  let (base, s) := fixupRadix unsigned
  let digits := s.takeWhile (digitValue · < base)
  let rest := s.dropWhile (digitValue · < base)
  if digits ≠ [] ∧ (rest = [] ∨ rest = [0x0A]) then some (digitsValue base digits) else none

/-- `kstrtoul(s, 0, &num)`, which fails where the number does not fit. -/
def kstrtoul (s : List UInt8) : Option ℕ := (parseNumber s).filter (· < 2 ^ 64)

theorem parseNumber_nil : parseNumber [] = none := rfl

theorem head_skipSpaces (s : List UInt8) : ∀ c ∈ (skipSpaces s).head?, isSpace c = false := by
  intro c hc
  have h := List.head?_dropWhile_not isSpace s
  rw [skipSpaces] at hc
  rw [Option.mem_def.mp hc] at h
  exact h

/-- A text that begins with a visible character is not shortened at its front. -/
theorem skipSpaces_append {lead rest : List UInt8} (hlead : ∀ c ∈ lead, isSpace c = true)
    (hrest : ∀ c ∈ rest.head?, isSpace c = false) : skipSpaces (lead ++ rest) = rest := by
  rw [skipSpaces, List.dropWhile_append_of_pos hlead]
  cases rest with
  | nil => rfl
  | cons c rest => rw [List.dropWhile_cons_of_neg (by simp [hrest c rfl])]

/-- Trimming takes away what is around the first and the last visible character. -/
theorem strim_append {lead body trail : List UInt8} (hlead : ∀ c ∈ lead, isSpace c = true)
    (htrail : ∀ c ∈ trail, isSpace c = true) (hhead : ∀ c ∈ body.head?, isSpace c = false)
    (hlast : ∀ c ∈ body.getLast?, isSpace c = false) (hne : body ≠ []) :
    strim (lead ++ body ++ trail) = body := by
  have hback : (lead ++ body ++ trail).rdropWhile isSpace = lead ++ body := by
    obtain ⟨init, c, rfl⟩ := (List.eq_nil_or_concat body).resolve_left hne
    have hc : isSpace c = false := hlast c (by simp)
    rw [List.rdropWhile, List.reverse_append,
      List.dropWhile_append_of_pos fun d hd => htrail d (List.mem_reverse.mp hd)]
    simp [hc]
  rw [strim, hback, skipSpaces_append hlead hhead]

theorem exists_strim (s : List UInt8) : ∃ lead trail, s = lead ++ strim s ++ trail ∧
    (∀ c ∈ lead, isSpace c = true) ∧ ∀ c ∈ trail, isSpace c = true := by
  refine ⟨(s.rdropWhile isSpace).takeWhile isSpace, s.rtakeWhile isSpace, ?_,
    fun c hc => List.mem_takeWhile_imp hc, fun c hc => List.mem_rtakeWhile_imp hc⟩
  rw [strim, skipSpaces, List.takeWhile_append_dropWhile, List.rdropWhile_append_rtakeWhile]

theorem last_strim (s : List UInt8) : ∀ c ∈ (strim s).getLast?, isSpace c = false := by
  intro c hc
  have hsuffix : strim s <:+ s.rdropWhile isSpace := List.dropWhile_suffix _
  obtain ⟨lead, hlead⟩ := hsuffix
  have hlast : (s.rdropWhile isSpace).getLast? = some c := by
    rw [← hlead, List.getLast?_append, Option.mem_def.mp hc]
    rfl
  have hne : s.rdropWhile isSpace ≠ [] := by
    intro hnil
    rw [hnil] at hlast
    cases hlast
  have hnot := List.rdropWhile_last_not isSpace s hne
  rw [List.getLast?_eq_some_getLast hne, Option.some.injEq] at hlast
  simpa [hlast] using hnot

end Nemclass.Kernel
