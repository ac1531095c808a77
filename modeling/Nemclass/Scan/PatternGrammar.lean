import Mathlib.Algebra.Ring.Parity
import Mathlib.Data.List.Induction
import Nemclass.Lib.Outcome
import Nemclass.Lib.Words
import Nemclass.Scan.PatternText

/-! The grammar of patterns, and what the parser makes of it: a text with a half byte,
one digit before whitespace or the end, has no place in the grammar and is read all the
same, as a byte with anything for its other nibble. -/
namespace Nemclass.Scan
open Words Outcome BytePattern

/-- What a character writes: a digit of either case, or a nibble that may be anything. -/
inductive Writes : Char → Option ℕ → Prop
  | anything : Writes '?' none
  | digit {n : ℕ} : n < 16 → Writes (Nat.digitChar n) (some n)
  | upper {n : ℕ} : n < 16 → Writes (upperDigit n) (some n)

/-- The byte of two nibbles. Its mask has the digits of those that are written. -/
def byteOf (hi lo : Option ℕ) : PatternByte where
  value := (16 * hi.getD 0 + lo.getD 0).toUInt8
  mask := (if hi.isSome then 0xF0 else 0) + if lo.isSome then 0x0F else 0

/-- Bytes in tokens of two characters, with whitespace anywhere between tokens. A character may
be `alone` before whitespace or the end. -/
inductive Tokens (alone : Char → Prop) : List Char → List PatternByte → Prop
  | nil : Tokens alone [] []
  | space {c cs bytes} : isWhitespace c = true → Tokens alone cs bytes →
      Tokens alone (c :: cs) bytes
  | pair {c d hi lo cs bytes} : Writes c hi → Writes d lo → Tokens alone cs bytes →
      Tokens alone (c :: d :: cs) (byteOf hi lo :: bytes)
  | lone {c hi cs bytes} : alone c → Writes c hi → (∀ d ∈ cs.head?, isWhitespace d = true) →
      Tokens alone cs bytes → Tokens alone (c :: cs) (byteOf hi none :: bytes)

/-- The texts of patterns: some tokens, of which only `?` is alone. -/
structure Documented (text : String) (p : BytePattern) : Prop where
  nonempty : p.bytes ≠ []
  tokens : Tokens (· = '?') text.toList p.bytes

/-- The text is read if it is a pattern's, as that pattern, and else rejected. -/
structure ParsesAsDocumented (text : String) : Prop where
  accepts (p : BytePattern) : parse text = .ok p ↔ Documented text p
  rejects : (∀ p, ¬ Documented text p) → ∃ e : PatternError, parse text = .error e

/-- Nothing but nibbles and whitespace, with a word of odd length that ends in a digit. -/
structure HasHalfByte (text : List Char) : Prop where
  nibbles : ∀ c ∈ text, isWhitespace c = false → ∃ v, Writes c v
  half : ∃ w ∈ words isWhitespace text, Odd w.length ∧ w.getLast? ≠ some '?'

/-- What the parser makes of a text. Any nibble may be alone, and an error names a character that
is out of place. -/
inductive Reading (cs : List Char) : Except PatternError (List PatternByte) → Prop
  | tokens {bytes} : Tokens (fun _ => True) cs bytes → Reading cs (.ok bytes)
  | outOfPlace {c} : c ∈ cs → isWhitespace c = false → (∀ v, ¬ Writes c v) →
      Reading cs (.error (unexpected c))

/-! ## Nibbles -/

def nibbleOf : Option ℕ → Nibble
  | none => .wildcard
  | some n => .value n.toUInt8

section Nibbles

variable {c : Char} {v : Option ℕ}

theorem Writes.lt (h : Writes c v) : ∀ n ∈ v, n < 16 := by
  cases h with
  | anything => simp
  | digit hn => simpa using hn
  | upper hn => simpa using hn

theorem Writes.parseNibble_eq (h : Writes c v) : parseNibble c = some (nibbleOf v) := by
  have hdigit : ∀ n < 16, parseNibble (Nat.digitChar n) = some (.value n.toUInt8) := by decide
  cases h with
  | anything => rfl
  | digit hn => exact hdigit _ hn
  | upper hn => exact (upperDigit_reads _ hn).2

theorem Writes.not_whitespace (h : Writes c v) : isWhitespace c = false := by
  have hdigit : ∀ n < 16, isWhitespace (Nat.digitChar n) = false := by decide
  cases h with
  | anything => rfl
  | digit hn => exact hdigit _ hn
  | upper hn => exact (upperDigit_reads _ hn).1

theorem exists_writes {nib : Nibble} (h : parseNibble c = some nib) :
    ∃ v, Writes c v ∧ nibbleOf v = nib := by
  have hall : ∀ n < 128, ∀ d ∈ toHexDigit (Char.ofNat n), ∃ m < 16, m.toUInt8 = d ∧
      (Char.ofNat n = Nat.digitChar m ∨ Char.ofNat n = upperDigit m) := by decide +kernel
  unfold parseNibble at h
  split at h
  · rename_i hmark
    cases h
    exact ⟨none, hmark ▸ .anything, rfl⟩
  · obtain ⟨d, hd, rfl⟩ := Option.map_eq_some_iff.mp h
    have hlt := (toHexDigit_spec hd).1
    obtain ⟨m, hm, rfl, hc⟩ := hall c.toNat hlt d (by rwa [Char.ofNat_toNat])
    rw [Char.ofNat_toNat] at hc
    refine ⟨some m, ?_, rfl⟩
    obtain rfl | rfl := hc
    · exact .digit hm
    · exact .upper hm

theorem nibblesToByte_nibbleOf {hi lo : Option ℕ} (hhi : ∀ n ∈ hi, n < 16)
    (hlo : ∀ n ∈ lo, n < 16) : nibblesToByte (nibbleOf hi) (nibbleOf lo) = byteOf hi lo := by
  have hboth : ∀ m < 16, ∀ n < 16,
      nibblesToByte (nibbleOf (some m)) (nibbleOf (some n)) = byteOf (some m) (some n) := by decide
  have hhigh : ∀ m < 16,
      nibblesToByte (nibbleOf (some m)) (nibbleOf none) = byteOf (some m) none := by decide
  have hlow : ∀ n < 16,
      nibblesToByte (nibbleOf none) (nibbleOf (some n)) = byteOf none (some n) := by decide
  cases hi with
  | none =>
    cases lo with
    | none => rfl
    | some n => exact hlow n (hlo n rfl)
  | some m =>
    cases lo with
    | none => exact hhigh m (hhi m rfl)
    | some n => exact hboth m (hhi m rfl) n (hlo n rfl)

theorem nibblesToByte_wildcard (h : ∀ n ∈ v, n < 16) :
    nibblesToByte (nibbleOf v) .wildcard = byteOf v none := by
  have hnone : ∀ n ∈ (none : Option ℕ), n < 16 := by simp
  exact nibblesToByte_nibbleOf h hnone

end Nibbles

/-! ## What is read -/

section Readings

variable {alone : Char → Prop} {cs : List Char} {bytes : List PatternByte}

theorem Tokens.parseBytes_eq (h : Tokens alone cs bytes) : parseBytes cs = .ok bytes := by
  induction h with
  | nil => rfl
  | space hc _ ih => rw [parseBytes_space hc, ih]
  | pair hc hd _ ih =>
    rw [parseBytes_pair hc.not_whitespace hd.not_whitespace hc.parseNibble_eq hd.parseNibble_eq, ih,
      nibblesToByte_nibbleOf hc.lt hd.lt]
    rfl
  | lone _ hc hstop _ ih =>
    rw [parseBytes_half hc.not_whitespace hc.parseNibble_eq hstop, ih,
      nibblesToByte_wildcard hc.lt]
    rfl

theorem Reading.map {cs' : List Char} {b : PatternByte}
    {read : Except PatternError (List PatternByte)} (h : Reading cs read)
    (hmem : ∀ c ∈ cs, c ∈ cs')
    (htokens : ∀ bytes, Tokens (fun _ => True) cs bytes →
      Tokens (fun _ => True) cs' (b :: bytes)) :
    Reading cs' (read.map (b :: ·)) := by
  cases h with
  | tokens h => exact .tokens (htokens _ h)
  | outOfPlace hc hspace hnone => exact .outOfPlace (hmem _ hc) hspace hnone

theorem Reading.half {c : Char} {nib : Nibble} (hc : isWhitespace c = false)
    (hnib : parseNibble c = some nib) (hstop : ∀ d ∈ cs.head?, isWhitespace d = true)
    (h : Reading cs (parseBytes cs)) : Reading (c :: cs) (parseBytes (c :: cs)) := by
  obtain ⟨hi, hwrites, rfl⟩ := exists_writes hnib
  rw [parseBytes_half hc hnib hstop, nibblesToByte_wildcard hwrites.lt]
  exact h.map (fun d hd => List.mem_cons_of_mem c hd)
    fun bytes h => .lone trivial hwrites hstop h

theorem parseBytes_spec (cs : List Char) : Reading cs (parseBytes cs) := by
  have hnot {c : Char} (hnone : parseNibble c = none) (v : Option ℕ) : ¬ Writes c v := by
    intro hwrites
    rw [hwrites.parseNibble_eq] at hnone
    cases hnone
  induction cs using parseBytes.induct with
  | case1 => exact .tokens .nil
  | case2 c cs hc ih =>
    rw [parseBytes_space hc]
    generalize parseBytes cs = read at ih ⊢
    cases ih with
    | tokens h => exact .tokens (.space hc h)
    | outOfPlace hd hspace hnone => exact .outOfPlace (List.mem_cons_of_mem c hd) hspace hnone
  | case3 c cs hc hnone =>
    rw [Bool.not_eq_true] at hc
    rw [parseBytes_unexpected hc hnone]
    exact .outOfPlace List.mem_cons_self hc (hnot hnone)
  | case4 c hc nib hnib => exact .half (by simpa using hc) hnib (by simp) (.tokens .nil)
  | case5 c hc nib hnib d ds hd ih =>
    exact .half (by simpa using hc) hnib (by simpa using hd) ih
  | case6 c hc nib hnib d ds hd hnone =>
    rw [Bool.not_eq_true] at hc hd
    rw [parseBytes_unexpected_low hc hd hnib hnone]
    exact .outOfPlace (by simp) hd (hnot hnone)
  | case7 c hc nib hnib d ds hd nib' hnib' ih =>
    rw [Bool.not_eq_true] at hc hd
    obtain ⟨hi, hwrites, rfl⟩ := exists_writes hnib
    obtain ⟨lo, hwrites', rfl⟩ := exists_writes hnib'
    rw [parseBytes_pair hc hd hnib hnib', nibblesToByte_nibbleOf hwrites.lt hwrites'.lt]
    exact ih.map (fun e he => List.mem_cons_of_mem c (List.mem_cons_of_mem d he))
      fun bytes h => .pair hwrites hwrites' h

theorem tokens_of_parseBytes (h : parseBytes cs = .ok bytes) :
    Tokens (fun _ => True) cs bytes := by
  have hread := parseBytes_spec cs
  rw [h] at hread
  cases hread with
  | tokens htokens => exact htokens

theorem parse_eq_ok {text : String} {p : BytePattern} :
    parse text = .ok p ↔ p.bytes ≠ [] ∧ Tokens (fun _ => True) text.toList p.bytes := by
  obtain ⟨bytes⟩ := p
  rw [BytePattern.parse, bind_eq_ok]
  constructor
  · rintro ⟨found, hfound, h⟩
    split at h
    · cases h
    · rename_i hne
      cases h
      exact ⟨by simpa using hne, tokens_of_parseBytes hfound⟩
  · rintro ⟨hne, htokens⟩
    exact ⟨bytes, htokens.parseBytes_eq, if_neg (by simpa using hne)⟩

/-- Behind an error of the loop is a character that is out of place. -/
theorem parseBytes_eq_error {e : PatternError} (h : parseBytes cs = .error e) :
    ∃ c ∈ cs, isWhitespace c = false ∧ (∀ v, ¬ Writes c v) ∧ e = unexpected c := by
  have hread := parseBytes_spec cs
  rw [h] at hread
  cases hread with
  | outOfPlace hc hspace hnone => exact ⟨_, hc, hspace, hnone, rfl⟩

/-- A text of no bytes is blank, whatever may be alone. -/
theorem Tokens.blank (h : Tokens alone cs []) (other : Char → Prop) : Tokens other cs [] := by
  generalize hbytes : ([] : List PatternByte) = bytes at h
  induction h with
  | nil => exact .nil
  | space hc _ ih => exact .space hc (ih hbytes)
  | pair => cases hbytes
  | lone => cases hbytes

/-- An error names a character that is out of place, or the text is blank. -/
theorem parse_eq_error {text : String} {e : PatternError} (h : parse text = .error e) :
    (∃ c ∈ text.toList, isWhitespace c = false ∧ (∀ v, ¬ Writes c v) ∧ e = unexpected c) ∨
      Tokens (· = '?') text.toList [] ∧ e = ⟨"pattern is empty"⟩ := by
  rw [BytePattern.parse] at h
  cases hfound : parseBytes text.toList with
  | error e' =>
    rw [hfound] at h
    cases h
    exact .inl (parseBytes_eq_error hfound)
  | ok bytes =>
    rw [hfound] at h
    have hempty : bytes.isEmpty = true := by
      by_contra hne
      cases (if_neg hne).symm.trans h
    rw [List.isEmpty_iff] at hempty
    subst hempty
    cases h
    exact .inr ⟨(tokens_of_parseBytes hfound).blank _, rfl⟩

end Readings

/-! ## Word by word -/

section Words

variable {alone : Char → Prop} {cs : List Char}

/-- A word of nibbles, in which only what may be alone is left over. -/
structure Legible (alone : Char → Prop) (w : List Char) : Prop where
  nibbles : ∀ c ∈ w, ∃ v, Writes c v
  leftover : Odd w.length → ∃ c ∈ w.getLast?, alone c

theorem exists_tokens_space {c : Char} (hc : isWhitespace c = true) :
    (∃ bytes, Tokens alone (c :: cs) bytes) ↔ ∃ bytes, Tokens alone cs bytes := by
  constructor
  · rintro ⟨bytes, h⟩
    cases h with
    | space _ h => exact ⟨_, h⟩
    | pair hwrites => rw [hwrites.not_whitespace] at hc; cases hc
    | lone _ hwrites => rw [hwrites.not_whitespace] at hc; cases hc
  · rintro ⟨bytes, h⟩
    exact ⟨bytes, .space hc h⟩

theorem legible_nil : Legible alone [] :=
  ⟨List.forall_mem_nil _, fun hodd => absurd hodd (by decide)⟩

theorem legible_singleton {c : Char} : Legible alone [c] ↔ (∃ v, Writes c v) ∧ alone c := by
  constructor
  · intro h
    obtain ⟨_, ⟨⟩, halone⟩ := h.leftover odd_one
    exact ⟨h.nibbles c List.mem_cons_self, halone⟩
  · rintro ⟨hwrites, halone⟩
    exact ⟨by simpa using hwrites, fun _ => ⟨c, rfl, halone⟩⟩

theorem legible_cons_cons {c d : Char} {w : List Char} : Legible alone (c :: d :: w) ↔
    (∃ v, Writes c v) ∧ (∃ v, Writes d v) ∧ Legible alone w := by
  have hparity : Odd (c :: d :: w).length ↔ Odd w.length := by
    rw [Nat.odd_iff, Nat.odd_iff, List.length_cons, List.length_cons]
    omega
  have hlast (hodd : Odd w.length) : (c :: d :: w).getLast? = w.getLast? := by
    cases w with
    | nil => exact absurd hodd (by decide)
    | cons e w => rw [List.getLast?_cons_cons, List.getLast?_cons_cons]
  constructor
  · intro h
    refine ⟨h.nibbles c (by simp), h.nibbles d (by simp), fun e he => h.nibbles e (by simp [he]),
      fun hodd => ?_⟩
    rw [← hlast hodd]
    exact h.leftover (hparity.mpr hodd)
  · rintro ⟨hc, hd, h⟩
    refine ⟨by simpa using ⟨hc, hd, h.nibbles⟩, fun hodd => ?_⟩
    rw [hlast (hparity.mp hodd)]
    exact h.leftover (hparity.mp hodd)

/-- Tokens do not reach past the end of a word. -/
theorem exists_tokens_append {w rest : List Char} (hw : ∀ c ∈ w, isWhitespace c = false)
    (hrest : ∀ c ∈ rest.head?, isWhitespace c = true) :
    (∃ bytes, Tokens alone (w ++ rest) bytes) ↔
      Legible alone w ∧ ∃ bytes, Tokens alone rest bytes := by
  induction w using List.twoStepInduction with
  | nil => exact (and_iff_right legible_nil).symm
  | singleton c =>
    have hc := hw c List.mem_cons_self
    rw [List.singleton_append, legible_singleton]
    constructor
    · rintro ⟨bytes, h⟩
      cases h with
      | space hspace => rw [hc] at hspace; cases hspace
      | pair _ hd => exact absurd (hrest _ rfl) (by simp [hd.not_whitespace])
      | lone halone hwrites _ h => exact ⟨⟨⟨_, hwrites⟩, halone⟩, _, h⟩
    · rintro ⟨⟨⟨v, hwrites⟩, halone⟩, bytes, h⟩
      exact ⟨_, .lone halone hwrites hrest h⟩
  | cons_cons c d w ih =>
    obtain ⟨hc, hd, hw⟩ : isWhitespace c = false ∧ isWhitespace d = false ∧
        ∀ e ∈ w, isWhitespace e = false := by simpa using hw
    rw [legible_cons_cons, and_assoc, and_assoc, ← ih hw]
    constructor
    · rintro ⟨bytes, h⟩
      cases h with
      | space hspace => rw [hc] at hspace; cases hspace
      | pair hwrites hwrites' h => exact ⟨⟨_, hwrites⟩, ⟨_, hwrites'⟩, _, h⟩
      | lone _ _ hstop => exact absurd (hstop d rfl) (by simp [hd])
    · rintro ⟨⟨hi, hwrites⟩, ⟨lo, hwrites'⟩, bytes, h⟩
      exact ⟨_, .pair hwrites hwrites' h⟩

theorem exists_tokens_words (cs : List Char) :
    (∃ bytes, Tokens alone cs bytes) ↔ ∀ w ∈ words isWhitespace cs, Legible alone w := by
  induction cs using word_induction isWhitespace with
  | nil => exact iff_of_true ⟨[], .nil⟩ (List.forall_mem_nil _)
  | space c cs hc ih => rw [exists_tokens_space hc, ih, words_cons hc]
  | word w rest hne hw hrest ih =>
    rw [exists_tokens_append hw hrest, ih, words_append hne hw hrest, List.forall_mem_cons]

theorem exists_tokens_iff : (∃ bytes, Tokens alone cs bytes) ↔
    (∀ c ∈ cs, isWhitespace c = false → ∃ v, Writes c v) ∧
      ∀ w ∈ words isWhitespace cs, Odd w.length → ∃ c ∈ w.getLast?, alone c := by
  rw [exists_tokens_words, ← forall_mem_words]
  constructor
  · exact fun h => ⟨fun w hw => (h w hw).nibbles, fun w hw => (h w hw).leftover⟩
  · exact fun ⟨hnibbles, hleftover⟩ w hw => ⟨hnibbles w hw, hleftover w hw⟩

/-- The parser reads nibbles however they stand. -/
theorem exists_read_iff : (∃ bytes, Tokens (fun _ => True) cs bytes) ↔
    ∀ c ∈ cs, isWhitespace c = false → ∃ v, Writes c v := by
  refine exists_tokens_iff.trans (and_iff_left fun w _ hodd => ?_)
  have hne : w ≠ [] := by
    rintro rfl
    exact absurd hodd (by decide)
  exact ⟨w.getLast hne, List.getLast?_eq_getLast_of_ne_nil hne, trivial⟩

theorem exists_documented_iff : (∃ bytes, Tokens (· = '?') cs bytes) ↔
    (∃ bytes, Tokens (fun _ => True) cs bytes) ∧ ¬ HasHalfByte cs := by
  rw [exists_tokens_iff, exists_read_iff]
  refine and_congr_right fun hnibbles => ⟨fun hmarks hhalf => ?_, fun hhalf w hw hodd => ?_⟩
  · obtain ⟨w, hw, hodd, hlast⟩ := hhalf.half
    obtain ⟨c, hc, rfl⟩ := hmarks w hw hodd
    exact hlast hc
  · exact ⟨'?', of_not_not fun hlast => hhalf ⟨hnibbles, w, hw, hodd, hlast⟩, rfl⟩

end Words

/-! ## Half bytes -/

/-- What is documented is read; what is read is documented but for a half byte. -/
theorem parse_documented {text : String} {p : BytePattern} (h : Documented text p) :
    parse text = .ok p :=
  parse_eq_ok.mpr ⟨h.nonempty, tokens_of_parseBytes h.tokens.parseBytes_eq⟩

/-- The parser keeps to the grammar of patterns exactly on the texts without a half byte: all
that have a character out of place, or no word of odd length that ends in a digit. -/
theorem parse_documented_iff (text : String) :
    ParsesAsDocumented text ↔ ¬ HasHalfByte text.toList := by
  constructor
  · intro h hhalf
    obtain ⟨bytes, hread⟩ := exists_read_iff.mpr hhalf.nibbles
    have hmarked : ∃ bytes, Tokens (· = '?') text.toList bytes := by
      by_cases hempty : bytes = []
      · subst hempty
        exact ⟨[], hread.blank _⟩
      · have hparse : parse text = .ok ⟨bytes⟩ := parse_eq_ok.mpr ⟨hempty, hread⟩
        exact ⟨bytes, ((h.accepts _).mp hparse).tokens⟩
    exact (exists_documented_iff.mp hmarked).2 hhalf
  · intro hhalf
    have haccepts (p : BytePattern) : parse text = .ok p ↔ Documented text p := by
      refine ⟨fun h => ?_, parse_documented⟩
      obtain ⟨hne, hread⟩ := parse_eq_ok.mp h
      obtain ⟨bytes, hmarked⟩ := exists_documented_iff.mpr ⟨⟨_, hread⟩, hhalf⟩
      have hsame := hmarked.parseBytes_eq.symm.trans hread.parseBytes_eq
      cases hsame
      exact ⟨hne, hmarked⟩
    refine ⟨haccepts, fun hnone => ?_⟩
    cases hparse : parse text with
    | error e => exact ⟨e, rfl⟩
    | ok p => exact (hnone p ((haccepts p).mp hparse)).elim

/-- The last byte of this pattern is half of one, and sixteen bytes match it. -/
theorem halfByte_accepted : parse "48 8" = .ok ⟨[.exact 0x48, ⟨0x80, 0xF0⟩]⟩ ∧
    ¬ ParsesAsDocumented "48 8" := by
  have hparse : parse "48 8" = .ok ⟨[.exact 0x48, ⟨0x80, 0xF0⟩]⟩ := rfl
  refine ⟨hparse, fun h => ?_⟩
  have hmarked := ((h.accepts _).mp hparse).tokens
  obtain ⟨_, ⟨⟩, hlast⟩ := (exists_tokens_iff.mp ⟨_, hmarked⟩).2 ['8'] (by decide) (by decide)
  exact absurd hlast (by decide)

end Nemclass.Scan
