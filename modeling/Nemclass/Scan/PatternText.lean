import Mathlib.Data.List.Forall2
import Nemclass.Scan.Pattern

/-! Patterns as text: hexadecimal bytes with `?` for a nibble that may be anything.
A signature is written as two-character bytes with a space between them, and
reads back as the pattern it stands for. -/
namespace Nemclass.Scan

/-- The characters with the Unicode property `White_Space`. -/
def isWhitespace (c : Char) : Bool :=
  let n := c.toNat
  (9 ≤ n && n ≤ 13) || n == 0x20 || n == 0x85 || n == 0xA0 || n == 0x1680 ||
    (0x2000 ≤ n && n ≤ 0x200A) || n == 0x2028 || n == 0x2029 || n == 0x202F || n == 0x205F ||
    n == 0x3000

/-- A nibble: a value below 16, or anything. -/
inductive Nibble where
  | value (v : UInt8)
  | wildcard
deriving DecidableEq

/-- `char::to_digit(16)`. -/
def toHexDigit (c : Char) : Option UInt8 :=
  if '0' ≤ c ∧ c ≤ '9' then some (c.toNat - 48).toUInt8
  else if 'a' ≤ c ∧ c ≤ 'f' then some (c.toNat - 87).toUInt8
  else if 'A' ≤ c ∧ c ≤ 'F' then some (c.toNat - 55).toUInt8
  else none

def parseNibble (c : Char) : Option Nibble :=
  if c = '?' then some .wildcard else (toHexDigit c).map .value

/-- The nibbles' values and masks together. -/
def nibblesToByte (hi lo : Nibble) : PatternByte :=
  let (highValue, highMask) := match hi with
    | .value v => (v <<< 4, (0xF0 : UInt8))
    | .wildcard => (0, 0)
  let (lowValue, lowMask) := match lo with
    | .value v => (v, (0x0F : UInt8))
    | .wildcard => (0, 0)
  ⟨highValue ||| lowValue, highMask ||| lowMask⟩

/-- What is wrong with a pattern's text. -/
structure PatternError where
  why : String
deriving DecidableEq

def PatternError.text (e : PatternError) : String := "invalid byte pattern: " ++ e.why

def unexpected (c : Char) : PatternError := ⟨s!"unexpected character '{c}'"⟩

namespace BytePattern

/-- The loop over the characters. A nibble before whitespace or the end is a half byte. -/
def parseBytes : List Char → Except PatternError (List PatternByte)
  | [] => .ok []
  | c :: cs =>
    if isWhitespace c then parseBytes cs
    else match parseNibble c with
      | none => .error (unexpected c)
      | some hi =>
        match cs with
        | [] => .ok [nibblesToByte hi .wildcard]
        | d :: ds =>
          if isWhitespace d then (parseBytes (d :: ds)).map (nibblesToByte hi .wildcard :: ·)
          else match parseNibble d with
            | none => .error (unexpected d)
            | some lo => (parseBytes ds).map (nibblesToByte hi lo :: ·)

theorem parseBytes_cons (c : Char) (cs : List Char) : parseBytes (c :: cs) =
    if isWhitespace c then parseBytes cs
    else match parseNibble c with
      | none => .error (unexpected c)
      | some hi =>
        match cs with
        | [] => .ok [nibblesToByte hi .wildcard]
        | d :: ds =>
          if isWhitespace d then (parseBytes (d :: ds)).map (nibblesToByte hi .wildcard :: ·)
          else match parseNibble d with
            | none => .error (unexpected d)
            | some lo => (parseBytes ds).map (nibblesToByte hi lo :: ·) := by
  delta parseBytes
  cases cs with
  | nil => rfl
  | cons d ds => rfl

section Steps

variable {c d : Char} {hi lo : Nibble} {cs : List Char}

theorem parseBytes_space (hc : isWhitespace c = true) : parseBytes (c :: cs) = parseBytes cs := by
  rw [parseBytes_cons, if_pos hc]

theorem parseBytes_unexpected (hc : isWhitespace c = false) (hnone : parseNibble c = none) :
    parseBytes (c :: cs) = .error (unexpected c) := by
  rw [parseBytes_cons]
  simp only [hc, hnone]
  rfl

/-- A nibble before whitespace or the end. -/
theorem parseBytes_half (hc : isWhitespace c = false) (hhi : parseNibble c = some hi)
    (hstop : ∀ d ∈ cs.head?, isWhitespace d = true) :
    parseBytes (c :: cs) = (parseBytes cs).map (nibblesToByte hi .wildcard :: ·) := by
  rw [parseBytes_cons]
  simp only [hc, hhi]
  cases cs with
  | nil => rfl
  | cons d ds =>
    simp only [hstop d rfl]
    rfl

theorem parseBytes_pair (hc : isWhitespace c = false) (hd : isWhitespace d = false)
    (hhi : parseNibble c = some hi) (hlo : parseNibble d = some lo) :
    parseBytes (c :: d :: cs) = (parseBytes cs).map (nibblesToByte hi lo :: ·) := by
  rw [parseBytes_cons]
  simp only [hc, hd, hhi, hlo]
  rfl

theorem parseBytes_unexpected_low (hc : isWhitespace c = false) (hd : isWhitespace d = false)
    (hhi : parseNibble c = some hi) (hnone : parseNibble d = none) :
    parseBytes (c :: d :: cs) = .error (unexpected d) := by
  rw [parseBytes_cons]
  simp only [hc, hd, hhi, hnone]
  rfl

end Steps

def parse (input : String) : Except PatternError BytePattern := do
  let bytes ← parseBytes input.toList
  if bytes.isEmpty then .error ⟨"pattern is empty"⟩ else .ok ⟨bytes⟩

end BytePattern

/-! ## Signatures -/

/-- An upper-case hexadecimal digit. -/
def upperDigit (d : ℕ) : Char := Char.ofNat (if d < 10 then 48 + d else 55 + d)

/-- Two digits, padded with a zero. -/
def upperHex (b : UInt8) : String :=
  String.ofList [upperDigit (b.toNat / 16), upperDigit (b.toNat % 16)]

def formatSignature (bytes : List UInt8) : String := " ".intercalate (bytes.map upperHex)

def formatMasked (bytes : List UInt8) (mask : List Bool) : String :=
  " ".intercalate ((bytes.zip mask).map fun (b, m) => if m then "??" else upperHex b)

/-! ## Reading a signature back -/

/-- A two-character text that reads as one byte of a pattern. -/
structure Spells (text : String) (b : PatternByte) : Prop where
  reads : ∃ c d hi lo, text.toList = [c, d] ∧ isWhitespace c = false ∧ isWhitespace d = false ∧
    parseNibble c = some hi ∧ parseNibble d = some lo ∧ nibblesToByte hi lo = b

theorem Spells.parseBytes_append {text : String} {b : PatternByte} (h : Spells text b)
    (cs : List Char) :
    BytePattern.parseBytes (text.toList ++ cs) = (BytePattern.parseBytes cs).map (b :: ·) := by
  obtain ⟨c, d, hi, lo, htext, hc, hd, hhi, hlo, rfl⟩ := h.reads
  rw [htext, List.cons_append, List.singleton_append, BytePattern.parseBytes_pair hc hd hhi hlo]

theorem parseBytes_intercalate {texts : List String} {bytes : List PatternByte}
    (h : List.Forall₂ Spells texts bytes) :
    BytePattern.parseBytes (" ".intercalate texts).toList = .ok bytes := by
  induction h with
  | nil => rfl
  | @cons text b texts bytes hb hrest ih =>
    cases texts with
    | nil =>
      cases hrest
      rw [String.intercalate_singleton, ← List.append_nil text.toList, hb.parseBytes_append]
      rfl
    | cons next texts =>
      rw [String.intercalate_cons_cons, String.toList_append, String.toList_append,
        List.append_assoc, hb.parseBytes_append]
      have hspace (cs : List Char) :
          BytePattern.parseBytes (" ".toList ++ cs) = BytePattern.parseBytes cs := by
        rw [show " ".toList = [' '] from rfl, List.singleton_append,
          BytePattern.parseBytes_space rfl]
      rw [hspace, ih]
      rfl

theorem parse_intercalate {texts : List String} {bytes : List PatternByte}
    (h : List.Forall₂ Spells texts bytes) (hne : bytes ≠ []) :
    BytePattern.parse (" ".intercalate texts) = .ok ⟨bytes⟩ := by
  rw [BytePattern.parse, parseBytes_intercalate h]
  exact if_neg (by rwa [List.isEmpty_iff])

theorem toHexDigit_spec {c : Char} {d : UInt8} (h : toHexDigit c = some d) :
    c.toNat < 128 ∧ isWhitespace c = false ∧ c ≠ '?' ∧ d.toNat < 16 := by
  have hlt : c.toNat < 128 := by
    unfold toHexDigit at h
    simp only [Char.le_def, UInt32.le_iff_toNat_le] at h
    split_ifs at h with h₀ h₁ h₂
    · exact Nat.lt_of_le_of_lt h₀.2 (by decide)
    · exact Nat.lt_of_le_of_lt h₁.2 (by decide)
    · exact Nat.lt_of_le_of_lt h₂.2 (by decide)
  have hall : ∀ n < 128, ∀ d ∈ toHexDigit (Char.ofNat n), isWhitespace (Char.ofNat n) = false ∧
      Char.ofNat n ≠ '?' ∧ d.toNat < 16 := by decide +kernel
  rw [← Char.ofNat_toNat c] at h ⊢
  exact ⟨by simpa using hlt, hall _ hlt d h⟩

theorem upperDigit_reads : ∀ d < 16, isWhitespace (upperDigit d) = false ∧
    parseNibble (upperDigit d) = some (.value d.toUInt8) := by decide

theorem nibblesToByte_values : ∀ hi < 16, ∀ lo < 16,
    nibblesToByte (.value hi.toUInt8) (.value lo.toUInt8) = .exact (hi * 16 + lo).toUInt8 := by
  decide

theorem spells_upperHex (b : UInt8) : Spells (upperHex b) (.exact b) := by
  have hb := b.toNat_lt
  obtain ⟨hc, hhi⟩ := upperDigit_reads (b.toNat / 16) (by omega)
  obtain ⟨hd, hlo⟩ := upperDigit_reads (b.toNat % 16) (by omega)
  refine ⟨_, _, _, _, String.toList_ofList, hc, hd, hhi, hlo, ?_⟩
  rw [nibblesToByte_values _ (by omega) _ (by omega), Nat.div_add_mod']
  simp

theorem spells_wildcard : Spells "??" .wildcard :=
  ⟨'?', '?', .wildcard, .wildcard, rfl, rfl, rfl, rfl, rfl, rfl⟩

theorem parse_formatSignature {bytes : List UInt8} (h : bytes ≠ []) :
    BytePattern.parse (formatSignature bytes) = .ok (.fromBytes bytes) := by
  have hspells : List.Forall₂ Spells (bytes.map upperHex) (bytes.map .exact) := by
    rw [List.forall₂_map_left_iff, List.forall₂_map_right_iff]
    exact List.forall₂_same.mpr fun b _ => spells_upperHex b
  exact parse_intercalate hspells (by simpa using h)

/-- The bytes of a masked run. -/
def maskedBytes (bytes : List UInt8) (mask : List Bool) : List PatternByte :=
  (bytes.zip mask).map fun (b, m) => if m then .wildcard else .exact b

theorem parse_formatMasked {bytes : List UInt8} {mask : List Bool}
    (h : maskedBytes bytes mask ≠ []) :
    BytePattern.parse (formatMasked bytes mask) = .ok ⟨maskedBytes bytes mask⟩ := by
  refine parse_intercalate ?_ h
  rw [maskedBytes, List.forall₂_map_left_iff, List.forall₂_map_right_iff]
  refine List.forall₂_same.mpr fun pair _ => ?_
  obtain ⟨b, m⟩ := pair
  cases m with
  | true => exact spells_wildcard
  | false => exact spells_upperHex b

end Nemclass.Scan
