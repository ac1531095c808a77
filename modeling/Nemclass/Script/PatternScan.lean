import Nemclass.Lib.Outcome
import Nemclass.Lib.Utf8
import Nemclass.Lib.Words
import Nemclass.Scan.PatternMatch
import Nemclass.Scan.PatternText

/-! The pattern search that scripts call. It reads a pattern word by word, the scanner
character by character; every pattern that it accepts means the same to both. -/
namespace Nemclass.Script
open Scan Outcome Words

inductive PatternError where
  | empty
  | badToken (tok : String)
deriving DecidableEq

def PatternError.text : PatternError → String
  | empty => "empty pattern"
  | badToken tok => s!"malformed pattern token: '{tok}'"

inductive PatByte where
  | byte (expected : UInt8)
  | any
  | nibble (value mask : UInt8)
deriving DecidableEq

/-- `str::split_whitespace`: the pieces between whitespace that are not empty. -/
def splitWhitespace (cs : List Char) : List (List Char) :=
  (cs.splitOnP isWhitespace).filter (!·.isEmpty)

/-- `(b as char).to_digit(16)` -/
def byteDigit (b : UInt8) : Option UInt8 := toHexDigit (Char.ofNat b.toNat)

def parseToken (tok : List Char) : Except PatternError PatByte :=
  if tok = ['?'] ∨ tok = ['?', '?'] then .ok .any
  else
    match Utf8.encode tok with
    | [b₀, b₁] =>
      match byteDigit b₀, byteDigit b₁, b₀ == '?'.toUInt8, b₁ == '?'.toUInt8 with
      | some h, some l, _, _ => .ok (.byte (h <<< 4 ||| l))
      | some h, none, _, true => .ok (.nibble (h <<< 4) 0xF0)
      | none, some l, true, _ => .ok (.nibble l 0x0F)
      | _, _, _, _ => .error (.badToken (String.ofList tok))
    | _ => .error (.badToken (String.ofList tok))

def parsePatternChecked (pattern : String) : Except PatternError (List PatByte) := do
  let out ← (splitWhitespace pattern.toList).mapM parseToken
  if out.isEmpty then .error .empty else .ok out

def patMatches (p : PatByte) (b : UInt8) : Bool :=
  match p with
  | .byte expected => b == expected
  | .any => true
  | .nibble value mask => (b &&& mask) == value

def tryFindPattern (haystack : List UInt8) (pattern : String) : Except PatternError (List ℕ) := do
  let pat ← parsePatternChecked pattern
  if haystack.length < pat.length then .ok []
  else
    let last := haystack.length - pat.length
    .ok ((List.range (last + 1)).filter fun start =>
      (((haystack.drop start).take pat.length).zip pat).all fun pair => patMatches pair.2 pair.1)

theorem splitWhitespace_eq (cs : List Char) : splitWhitespace cs = words isWhitespace cs := rfl

section Tokens

theorem nibblesToByte_high (h : UInt8) :
    nibblesToByte (.value h) .wildcard = ⟨h <<< 4, 0xF0⟩ := by
  simp [nibblesToByte]

theorem nibblesToByte_low (l : UInt8) : nibblesToByte .wildcard (.value l) = ⟨l, 0x0F⟩ := by
  simp [nibblesToByte]

theorem nibble_masked {d : UInt8} (hd : d.toNat < 16) :
    d <<< 4 &&& (0xF0 : UInt8) = d <<< 4 ∧ d &&& (0x0F : UInt8) = d := by
  have hall : ∀ n < 16, UInt8.ofNat n <<< 4 &&& (0xF0 : UInt8) = UInt8.ofNat n <<< 4 ∧
      UInt8.ofNat n &&& (0x0F : UInt8) = UInt8.ofNat n := by decide
  simpa using hall d.toNat hd

/-- The scanner's byte for an element. -/
def PatByte.scanned : PatByte → PatternByte
  | byte expected => .exact expected
  | any => .wildcard
  | nibble value mask => ⟨value, mask⟩

/-- The scanner reads the token as one byte, which matches what the token matches. -/
structure Stands (tok : List Char) (p : PatByte) : Prop where
  reads : tok = ['?'] ∧ p.scanned = .wildcard ∨ Spells (String.ofList tok) p.scanned
  agrees : ∀ x, patMatches p x = p.scanned.matches x

theorem stands_byte {c d : Char} {h l : UInt8} (hc : toHexDigit c = some h)
    (hd : toHexDigit d = some l) : Stands [c, d] (.byte (h <<< 4 ||| l)) := by
  obtain ⟨-, hcw, hcq, -⟩ := toHexDigit_spec hc
  obtain ⟨-, hdw, hdq, -⟩ := toHexDigit_spec hd
  refine ⟨.inr ⟨c, d, .value h, .value l, String.toList_ofList, hcw, hdw, ?_, ?_, rfl⟩, fun x => ?_⟩
  · rw [parseNibble, if_neg hcq, hc, Option.map_some]
  · rw [parseNibble, if_neg hdq, hd, Option.map_some]
  · rw [patMatches, PatByte.scanned, Bool.eq_iff_iff, beq_iff_eq, matches_exact]

theorem stands_high {c : Char} {h : UInt8} (hc : toHexDigit c = some h) :
    Stands [c, '?'] (.nibble (h <<< 4) 0xF0) := by
  obtain ⟨-, hcw, hcq, hlt⟩ := toHexDigit_spec hc
  refine ⟨.inr ⟨c, '?', .value h, .wildcard, String.toList_ofList, hcw, rfl, ?_, rfl,
    nibblesToByte_high h⟩, fun x => ?_⟩
  · rw [parseNibble, if_neg hcq, hc, Option.map_some]
  · rw [patMatches, PatByte.scanned, PatternByte.matches, (nibble_masked hlt).1]

theorem stands_low {d : Char} {l : UInt8} (hd : toHexDigit d = some l) :
    Stands ['?', d] (.nibble l 0x0F) := by
  obtain ⟨-, hdw, hdq, hlt⟩ := toHexDigit_spec hd
  refine ⟨.inr ⟨'?', d, .wildcard, .value l, String.toList_ofList, rfl, hdw, rfl, ?_,
    nibblesToByte_low l⟩, fun x => ?_⟩
  · rw [parseNibble, if_neg hdq, hd, Option.map_some]
  · rw [patMatches, PatByte.scanned, PatternByte.matches, (nibble_masked hlt).2]

theorem byteDigit_lt {b d : UInt8} (h : byteDigit b = some d) : b.toNat < 128 := by
  have hall : ∀ n < 256, ∀ d ∈ toHexDigit (Char.ofNat n), n < 128 := by decide +kernel
  exact hall _ b.toNat_lt d h

/-- Two bytes below 128 are two characters. -/
theorem eq_of_encode {tok : List Char} {b₀ b₁ : UInt8} (htok : Utf8.encode tok = [b₀, b₁])
    (h₀ : b₀.toNat < 128) (h₁ : b₁.toNat < 128) :
    tok = [Char.ofNat b₀.toNat, Char.ofNat b₁.toNat] := by
  have hall : ∀ n < 128, String.utf8EncodeChar (Char.ofNat n) = [UInt8.ofNat n] := by
    decide +kernel
  refine Utf8.encode_injective (htok.trans ?_)
  rw [Utf8.encode_cons, Utf8.encode_cons, hall _ h₀, hall _ h₁, UInt8.ofNat_toNat,
    UInt8.ofNat_toNat]
  rfl

theorem parseToken_stands {tok : List Char} {p : PatByte} (h : parseToken tok = .ok p) :
    Stands tok p := by
  have hmark : ('?'.toUInt8).toNat < 128 := by decide
  unfold parseToken at h
  split at h
  · rename_i hwild
    cases h
    refine ⟨?_, fun x => (matches_wildcard x).symm⟩
    rcases hwild with rfl | rfl
    · exact .inl ⟨rfl, rfl⟩
    · exact .inr spells_wildcard
  · split at h
    · rename_i b₀ b₁ htok
      split at h
      · rename_i high low hhigh hlow
        cases h
        rw [eq_of_encode htok (byteDigit_lt hhigh) (byteDigit_lt hlow)]
        exact stands_byte hhigh hlow
      · rename_i high hhigh hlow hmark₁
        cases h
        rw [beq_iff_eq] at hmark₁
        subst hmark₁
        rw [eq_of_encode htok (byteDigit_lt hhigh) hmark]
        exact stands_high hhigh
      · rename_i low hhigh hlow hmark₀
        cases h
        rw [beq_iff_eq] at hmark₀
        subst hmark₀
        rw [eq_of_encode htok hmark (byteDigit_lt hlow)]
        exact stands_low hlow
      · cases h
    · cases h

end Tokens

section Patterns

/-- The scanner reads an accepted word as one byte, and goes on behind it. -/
theorem Stands.parseBytes_append {tok rest : List Char} {p : PatByte} (h : Stands tok p)
    (hrest : ∀ c ∈ rest.head?, isWhitespace c = true) :
    BytePattern.parseBytes (tok ++ rest) =
      (BytePattern.parseBytes rest).map (p.scanned :: ·) := by
  rcases h.reads with ⟨rfl, hwild⟩ | hspells
  · rw [hwild, List.singleton_append, BytePattern.parseBytes_half rfl rfl hrest]
    rfl
  · simpa using hspells.parseBytes_append rest

/-- The two parsers go through a text in step, a word at a time. -/
theorem parseBytes_words {cs : List Char} {pat : List PatByte}
    (h : List.Forall₂ Stands (splitWhitespace cs) pat) :
    BytePattern.parseBytes cs = .ok (pat.map PatByte.scanned) := by
  rw [splitWhitespace_eq] at h
  induction cs using word_induction isWhitespace generalizing pat with
  | nil =>
    cases h
    rfl
  | space c cs hc ih =>
    rw [words_cons hc] at h
    rw [BytePattern.parseBytes_space hc]
    exact ih h
  | word w rest hne hw hrest ih =>
    rw [words_append hne hw hrest] at h
    cases h with
    | cons hp hps =>
      rw [hp.parseBytes_append hrest, ih hps]
      rfl

theorem agrees_of_stands {words : List (List Char)} {pat : List PatByte}
    (h : List.Forall₂ Stands words pat) : ∀ p ∈ pat, ∀ x, patMatches p x = p.scanned.matches x := by
  induction h with
  | nil => exact List.forall_mem_nil _
  | cons hp _ ih => exact List.forall_mem_cons.mpr ⟨hp.agrees, ih⟩

/-- What is accepted is accepted by the scanner, and its elements match the same bytes. -/
theorem parsePatternChecked_spec {pattern : String} {pat : List PatByte}
    (h : parsePatternChecked pattern = .ok pat) :
    BytePattern.parse pattern = .ok ⟨pat.map PatByte.scanned⟩ ∧
      ∀ p ∈ pat, ∀ x, patMatches p x = p.scanned.matches x := by
  obtain ⟨out, hout, h⟩ := bind_eq_ok.mp h
  split at h
  · cases h
  · rename_i hne
    cases h
    have hstands : List.Forall₂ Stands (splitWhitespace pattern.toList) pat :=
      (forall₂_of_mapM hout).imp fun _ _ => parseToken_stands
    refine ⟨?_, agrees_of_stands hstands⟩
    rw [BytePattern.parse, parseBytes_words hstands]
    exact if_neg (by simpa using hne)

/-- Over one window both give the same answer. -/
theorem all_zip_scanned {pat : List PatByte}
    (h : ∀ p ∈ pat, ∀ x, patMatches p x = p.scanned.matches x) (window : List UInt8) :
    ((window.zip pat).all fun pair => patMatches pair.2 pair.1) =
      ((pat.map PatByte.scanned).zip window).all fun pair => pair.1.matches pair.2 := by
  induction pat generalizing window with
  | nil => rw [List.zip_nil_right]; rfl
  | cons p pat ih =>
    rw [List.forall_mem_cons] at h
    cases window with
    | nil => rfl
    | cons x window =>
      rw [List.zip_cons_cons, List.all_cons, ih h.2, h.1, List.map_cons, List.zip_cons_cons,
        List.all_cons]

/-- A pattern that scripts accept is a pattern to the scanner, which matches it exactly at the
offsets that scripts get. -/
theorem tryFindPattern_agrees {haystack : List UInt8} {pattern : String} {offsets : List ℕ}
    (h : tryFindPattern haystack pattern = .ok offsets) :
    ∃ p, BytePattern.parse pattern = .ok p ∧ offsets.Pairwise (· < ·) ∧
      ∀ i, i ∈ offsets ↔ p.matchesAt haystack i = true := by
  obtain ⟨pat, hpat, h⟩ := bind_eq_ok.mp h
  obtain ⟨hparse, hagrees⟩ := parsePatternChecked_spec hpat
  refine ⟨_, hparse, ?_⟩
  have hlen : (BytePattern.mk (pat.map PatByte.scanned)).len = pat.length := List.length_map _
  split at h
  · rename_i hlong
    cases h
    refine ⟨.nil, fun i => iff_of_false List.not_mem_nil fun hmatch => ?_⟩
    have hfits := (matchesAt_iff.mp hmatch).1
    omega
  · rename_i hfits
    cases h
    refine ⟨List.pairwise_lt_range.filter _, fun i => ?_⟩
    rw [List.mem_filter, List.mem_range, all_zip_scanned hagrees, BytePattern.matchesAt, hlen]
    by_cases hi : i + pat.length ≤ haystack.length
    · rw [slice_of_le hi]
      exact and_iff_right (by omega)
    · rw [slice, if_neg hi]
      exact iff_of_false (fun hmem => hi (by omega)) Bool.false_ne_true

theorem tryFindPattern_agrees_nibbles :
    tryFindPattern [0x48, 0x8B, 0x05, 0x48, 0x8B, 0x15] " 48 8? ?5" = .ok [0, 3] ∧
      ∃ p, BytePattern.parse " 48 8? ?5" = .ok p ∧ [0, 3].Pairwise (· < ·) ∧
        ∀ i, i ∈ [0, 3] ↔ p.matchesAt [0x48, 0x8B, 0x05, 0x48, 0x8B, 0x15] i = true :=
  have h : tryFindPattern [0x48, 0x8B, 0x05, 0x48, 0x8B, 0x15] " 48 8? ?5" = .ok [0, 3] := by
    decide +kernel
  ⟨h, tryFindPattern_agrees h⟩

end Patterns

end Nemclass.Script
