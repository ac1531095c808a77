import Mathlib.Data.List.TakeWhile
import Nemclass.Address.Tokenizer

/-! What the lexer makes of a text piece by piece: a piece that spells one token is
that token, followed by the tokens of what comes after. -/
namespace Nemclass.Address
open OperatorChain Outcome
namespace Tokenizer

/-- The tokens of some bytes, wherever they stand in a text. -/
def Lexes (bs : List UInt8) (toks : List Token) : Prop := ∀ size, tokenizeFrom size bs = .ok toks

section Lexes
variable {bs rest tail : List UInt8} {ch : UInt8} {tok : Token} {toks : List Token}

theorem Lexes.nil : Lexes [] [] := by
  intro size
  rw [tokenizeFrom]
  rfl

theorem Lexes.space (hws : isWhitespace ch) (h : Lexes bs toks) : Lexes (ch :: bs) toks := by
  intro size
  have hskip : skipWhitespace (ch :: bs) = skipWhitespace bs := List.dropWhile_cons_of_pos hws
  rw [← h size, tokenizeFrom.eq_def, tokenizeFrom.eq_def size bs, hskip]

/-- The loop reads one token and goes on behind it. -/
theorem tokenizeFrom_eq_ok {size : ℕ} (hskip : skipWhitespace bs = ch :: tail) :
    tokenizeFrom size bs = .ok toks ↔ ∃ tok rest toks',
      Yields (readToken (size - (ch :: tail).length) ch tail) tok rest ∧
        tokenizeFrom size rest = .ok toks' ∧ tok :: toks' = toks := by
  rw [tokenizeFrom]
  split
  · rename_i hnil
    cases hskip.symm.trans hnil
  · rename_i ch' tail' hcons
    cases hskip.symm.trans hcons
    constructor
    · intro h
      obtain ⟨⟨tok, rest⟩, hread, h⟩ := bind_eq_ok.mp h
      obtain ⟨toks', hnext, hout⟩ := bind_eq_ok.mp h
      exact ⟨tok, rest.1, toks', ⟨rest.2, hread⟩, hnext, Except.ok.inj hout⟩
    · rintro ⟨tok, rest, toks', ⟨hlt, hread⟩, hnext, rfl⟩
      exact bind_eq_ok.mpr ⟨_, hread, bind_eq_ok.mpr ⟨_, hnext, rfl⟩⟩

theorem skipWhitespace_cons (hws : isWhitespace ch = false) :
    skipWhitespace (ch :: tail) = ch :: tail := List.dropWhile_cons_of_neg (by simp [hws])

theorem Lexes.cons (hws : isWhitespace ch = false)
    (hread : ∀ start, Yields (readToken start ch tail) tok rest) (h : Lexes rest toks) :
    Lexes (ch :: tail) (tok :: toks) := fun size =>
  (tokenizeFrom_eq_ok (skipWhitespace_cons hws)).mpr ⟨tok, rest, toks, hread _, h size, rfl⟩

theorem Lexes.plus (h : Lexes bs toks) : Lexes ('+'.toUInt8 :: bs) (.plus :: toks) :=
  .cons (by decide) (fun _ => ⟨Nat.lt_succ_self _, rfl⟩) h

theorem Lexes.openBracket (h : Lexes bs toks) :
    Lexes ('['.toUInt8 :: bs) (.openBracket :: toks) :=
  .cons (by decide) (fun _ => ⟨Nat.lt_succ_self _, rfl⟩) h

theorem Lexes.closeBracket (h : Lexes bs toks) :
    Lexes (']'.toUInt8 :: bs) (.closeBracket :: toks) :=
  .cons (by decide) (fun _ => ⟨Nat.lt_succ_self _, rfl⟩) h

theorem takeWhile_cut {p : UInt8 → Bool} (hall : ∀ b ∈ bs, p b = true) (hstop : p ch = false) :
    (bs ++ ch :: rest).takeWhile p = bs := by
  rw [List.takeWhile_append_of_pos hall, List.takeWhile_cons_of_neg (by simp [hstop]),
    List.append_nil]

theorem dropWhile_cut {p : UInt8 → Bool} (hall : ∀ b ∈ bs, p b = true) (hstop : p ch = false) :
    (bs ++ ch :: rest).dropWhile p = ch :: rest := by
  rw [List.dropWhile_append_of_pos hall, List.dropWhile_cons_of_neg (by simp [hstop])]

theorem yields_readDelimited {close : Char} {unclosed : ParseFailure}
    (hname : close.toUInt8 ∉ bs) :
    Yields (readDelimited close unclosed (ch :: (bs ++ close.toUInt8 :: rest)))
      (.identifier (fromUtf8 bs)) rest := by
  have hall : ∀ b ∈ bs, (b != close.toUInt8) = true := by
    intro b hb
    simp only [bne_iff_ne]
    rintro rfl
    exact hname hb
  have hstop : (close.toUInt8 != close.toUInt8) = false := by simp
  refine ⟨by simp only [List.length_cons, List.length_append]; omega, ?_⟩
  unfold readDelimited
  split
  · rename_i hnil
    rw [List.tail_cons, dropWhile_cut hall hstop] at hnil
    cases hnil
  · rename_i rest' hcons
    rw [List.tail_cons, dropWhile_cut hall hstop] at hcons
    cases hcons
    simp only [List.tail_cons, takeWhile_cut hall hstop]

theorem yields_angle {name : String} (hname : '>' ∉ name.toList) (start : ℕ) :
    Yields (readToken start '<'.toUInt8 (Utf8.bytes name ++ '>'.toUInt8 :: bs))
      (.identifier name) bs := by
  have hbytes : '>'.toUInt8 ∉ Utf8.bytes name := fun hmem =>
    hname (Utf8.mem_encode_ascii (by decide) hmem)
  have hread : Yields (readAngleIdentifier ('<'.toUInt8 :: (Utf8.bytes name ++ '>'.toUInt8 :: bs)))
      (.identifier (fromUtf8 (Utf8.bytes name))) bs := yields_readDelimited hbytes
  rw [fromUtf8, Utf8.decode_bytes, Option.getD_some] at hread
  exact hread

/-- A name in angle brackets. -/
theorem Lexes.angle {name : String} (hname : '>' ∉ name.toList) (h : Lexes bs toks) :
    Lexes ('<'.toUInt8 :: (Utf8.bytes name ++ '>'.toUInt8 :: bs)) (.identifier name :: toks) :=
  .cons (by decide) (yields_angle hname) h

end Lexes

section Numbers

/-- The lower-case hexadecimal digits of a number, as bytes. -/
def hexBytes (n : ℕ) : List UInt8 := Utf8.encode (Nat.toDigits 16 n)

theorem encode_digitChar : ∀ d < 16, Utf8.encode [d.digitChar] = [UInt8.ofNat d.digitChar.toNat] ∧
    isHexDigit (UInt8.ofNat d.digitChar.toNat) = true ∧
    digitValue (UInt8.ofNat d.digitChar.toNat) = d := by decide

theorem hexBytes_lt {n : ℕ} (h : n < 16) : hexBytes n = [UInt8.ofNat n.digitChar.toNat] := by
  rw [hexBytes, Nat.toDigits_of_lt_base h, (encode_digitChar n h).1]

theorem hexBytes_ge {n : ℕ} (h : 16 ≤ n) :
    hexBytes n = hexBytes (n / 16) ++ [UInt8.ofNat (n % 16).digitChar.toNat] := by
  rw [hexBytes, Nat.toDigits_of_base_le (by decide) h, Utf8.encode_append,
    (encode_digitChar (n % 16) (Nat.mod_lt n (by decide))).1, hexBytes]

theorem isHexDigit_of_mem_hexBytes {n : ℕ} : ∀ b ∈ hexBytes n, isHexDigit b = true := by
  induction n using Nat.strong_induction_on with
  | h n ih =>
    by_cases hn : n < 16
    · rw [hexBytes_lt hn]
      simpa using (encode_digitChar n hn).2.1
    · rw [hexBytes_ge (by omega)]
      intro b hb
      rcases List.mem_append.mp hb with hb | hb
      · exact ih (n / 16) (by omega) b hb
      · rw [List.mem_singleton.mp hb]
        exact (encode_digitChar (n % 16) (by omega)).2.1

theorem digitsValue_append (radix : ℕ) (ds : List UInt8) (d : UInt8) :
    digitsValue radix (ds ++ [d]) = digitsValue radix ds * radix + digitValue d := by
  simp [digitsValue]

theorem digitsValue_hexBytes (n : ℕ) : digitsValue 16 (hexBytes n) = n := by
  induction n using Nat.strong_induction_on with
  | h n ih =>
    by_cases hn : n < 16
    · rw [hexBytes_lt hn]
      simpa [digitsValue] using (encode_digitChar n hn).2.2
    · rw [hexBytes_ge (by omega), digitsValue_append, ih (n / 16) (by omega),
        (encode_digitChar (n % 16) (by omega)).2.2]
      omega

theorem hexBytes_ne_nil (n : ℕ) : hexBytes n ≠ [] := by
  by_cases hn : n < 16
  · simp [hexBytes_lt hn]
  · simp [hexBytes_ge (show 16 ≤ n by omega)]

theorem fromStrRadix_hexBytes {n : ℕ} (h : n < 2 ^ 63) :
    fromStrRadix 16 (hexBytes n) = some (Int64.ofNat n) := by
  rw [fromStrRadix, digitsValue_hexBytes, if_pos ⟨hexBytes_ne_nil n, h⟩]

/-- No hexadecimal digit at the head, so that a literal before it ends there. -/
def EndsHex (bs : List UInt8) : Prop := ∀ b ∈ bs.head?, isHexDigit b = false

theorem digits_cut {digit : UInt8 → Bool} {ds bs : List UInt8} (hds : ∀ b ∈ ds, digit b = true)
    (hbs : ∀ b ∈ bs.head?, digit b = false) :
    (ds ++ bs).takeWhile digit = ds ∧ (ds ++ bs).dropWhile digit = bs := by
  cases bs with
  | nil =>
    rw [List.append_nil]
    exact ⟨List.takeWhile_eq_self_iff.mpr hds, List.dropWhile_eq_nil_iff.mpr hds⟩
  | cons b bs => exact ⟨takeWhile_cut hds (hbs b rfl), dropWhile_cut hds (hbs b rfl)⟩

theorem yields_readDigits {radix : ℕ} {digit : UInt8 → Bool} {invalid : ParseFailure}
    {ds bs : List UInt8} {n : Int64} (hds : ∀ b ∈ ds, digit b = true)
    (hbs : ∀ b ∈ bs.head?, digit b = false) (hn : fromStrRadix radix ds = some n) :
    Yields (readDigits radix digit invalid (ds ++ bs)) (.number n) bs := by
  have hcut := digits_cut hds hbs
  unfold readDigits
  split
  · rename_i value hv
    rw [hcut.1, hn] at hv
    cases hv
    exact yields_ok.mpr ⟨rfl, hcut.2⟩
  · rename_i hv
    rw [hcut.1, hn] at hv
    cases hv

/-- A literal that starts with `0x` is its digits. -/
theorem readToken_hex {start : ℕ} {bs rest : List UInt8} {tok : Token} :
    Yields (readToken start '0'.toUInt8 ('x'.toUInt8 :: bs)) tok rest ↔
      Yields (readDigits 16 isHexDigit (.invalidHex start) bs) tok rest := by
  change Yields (readNumber start ('0'.toUInt8 :: 'x'.toUInt8 :: bs)) tok rest ↔ _
  rw [readNumber, if_pos ⟨rfl, .inl rfl⟩, yields_past, yields_past]

theorem yields_hex {n : ℕ} (hn : n < 2 ^ 63) {bs : List UInt8} (hbs : EndsHex bs) (start : ℕ) :
    Yields (readToken start '0'.toUInt8 ('x'.toUInt8 :: (hexBytes n ++ bs)))
      (.number (Int64.ofNat n)) bs :=
  readToken_hex.mpr
    (yields_readDigits isHexDigit_of_mem_hexBytes hbs (fromStrRadix_hexBytes hn))

/-- A hexadecimal literal. -/
theorem Lexes.hex {n : ℕ} (hn : n < 2 ^ 63) {bs : List UInt8} {toks : List Token}
    (hbs : EndsHex bs) (h : Lexes bs toks) :
    Lexes ('0'.toUInt8 :: 'x'.toUInt8 :: (hexBytes n ++ bs)) (.number (Int64.ofNat n) :: toks) :=
  .cons (by decide) (yields_hex hn hbs) h

/-- The literal `1`, before anything that is not a digit and not an `x`. -/
theorem Lexes.one {bs : List UInt8} {toks : List Token} (hbs : ∀ b ∈ bs.head?, isDigit b = false)
    (h : Lexes bs toks) : Lexes ('1'.toUInt8 :: bs) (.number 1 :: toks) := by
  refine .cons (by decide) (fun start => ?_) h
  have hread : Yields (readDigits 10 isDigit (.invalidDecimal start) (['1'.toUInt8] ++ bs))
      (.number 1) bs := yields_readDigits (List.forall_mem_singleton.mpr rfl) hbs (by decide)
  change Yields (readNumber start ('1'.toUInt8 :: bs)) _ _
  cases bs with
  | nil => exact hread
  | cons b bs =>
    rw [readNumber, if_neg fun h => absurd h.1 (by decide)]
    exact hread

end Numbers

section Rejects

theorem mem_dropWhile {p : UInt8 → Bool} {b : UInt8} {bs : List UInt8} (hb : b ∈ bs)
    (hp : p b = false) : b ∈ bs.dropWhile p := by
  rw [← List.takeWhile_append_dropWhile (p := p) (l := bs)] at hb
  rcases List.mem_append.mp hb with hb | hb
  · have hpos := List.mem_takeWhile_imp hb
    simp [hp] at hpos
  · exact hb

/-- A suffix that keeps every `>`. -/
structure Keeps (bs rest : List UInt8) : Prop where
  suffix : rest <:+ bs
  mem : '>'.toUInt8 ∈ bs → '>'.toUInt8 ∈ rest

theorem keeps_dropWhile {p : UInt8 → Bool} (hp : p '>'.toUInt8 = false) (bs : List UInt8) :
    Keeps bs (bs.dropWhile p) :=
  ⟨List.dropWhile_suffix p, fun h => mem_dropWhile h hp⟩

theorem Keeps.cons {b : UInt8} {bs rest : List UInt8} (h : Keeps bs rest)
    (hb : b ≠ '>'.toUInt8) : Keeps (b :: bs) rest :=
  ⟨h.suffix.trans (List.suffix_cons b bs), fun hmem =>
    h.mem ((List.mem_cons.mp hmem).resolve_left hb.symm)⟩

theorem Keeps.refl (bs : List UInt8) : Keeps bs bs := ⟨List.suffix_rfl, id⟩

theorem keeps_of_readDigits {radix : ℕ} {digit : UInt8 → Bool} {invalid : ParseFailure}
    {bs rest : List UInt8} {tok : Token} (hdigit : digit '>'.toUInt8 = false)
    (h : Yields (readDigits radix digit invalid bs) tok rest) : Keeps bs rest := by
  unfold readDigits at h
  split at h
  · obtain ⟨-, rfl⟩ := yields_ok.mp h
    exact keeps_dropWhile hdigit bs
  · exact absurd h not_yields_error

theorem keeps_of_readNumber {start : ℕ} {bs rest : List UInt8} {tok : Token}
    (h : Yields (readNumber start bs) tok rest) : Keeps bs rest := by
  unfold readNumber at h
  split at h
  · split at h
    · rename_i hhex
      have hx := hhex.2
      rw [yields_past, yields_past] at h
      have hdigits := keeps_of_readDigits (by decide) h
      refine (hdigits.cons ?_).cons ?_
      · rcases hx with rfl | rfl <;> decide
      · rw [hhex.1]
        decide
    · exact keeps_of_readDigits (by decide) h
  · exact keeps_of_readDigits (by decide) h

theorem ofUInt8_eq {b : UInt8} {c : Char} (h : Char.ofUInt8 b = c) : b = c.toUInt8 := by
  subst h
  exact (UInt8.toUInt8_toUInt32 b).symm

/-- No token but an identifier reads past a `>`. -/
theorem keeps_of_readToken {start : ℕ} {ch : UInt8} {tail rest : List UInt8} {tok : Token}
    (hangle : ch ≠ '<'.toUInt8) (hquote : ch ≠ '"'.toUInt8)
    (h : Yields (readToken start ch tail) tok rest) : Keeps (ch :: tail) rest := by
  unfold readToken at h
  simp only at h
  split at h
  case h_10 hch => exact absurd (ofUInt8_eq hch) hangle
  case h_11 hch => exact absurd (ofUInt8_eq hch) hquote
  case h_12 =>
    split at h
    · exact keeps_of_readNumber h
    · exact absurd h not_yields_error
  all_goals
    rename_i hch
    obtain ⟨-, rfl⟩ := yields_ok.mp h
    refine (Keeps.refl tail).cons ?_
    rw [ofUInt8_eq hch]
    decide

/-- Bytes with a `>` that no identifier encloses are rejected. -/
theorem tokenizeFrom_ne_ok {bs : List UInt8} (hmem : '>'.toUInt8 ∈ bs)
    (hangle : '<'.toUInt8 ∉ bs) (hquote : '"'.toUInt8 ∉ bs) (size : ℕ) (toks : List Token) :
    tokenizeFrom size bs ≠ .ok toks := by
  induction hlen : bs.length using Nat.strong_induction_on generalizing bs toks with
  | h n ih =>
    have hskip := keeps_dropWhile (p := isWhitespace) (by decide) bs
    cases hbs : bs.dropWhile isWhitespace with
    | nil =>
      have hmem' := hskip.mem hmem
      rw [hbs] at hmem'
      cases hmem'
    | cons ch tail =>
      rw [hbs] at hskip
      intro hok
      obtain ⟨tok, rest, toks', hread, hnext, -⟩ := (tokenizeFrom_eq_ok hbs).mp hok
      have hne : ∀ b ∉ bs, ch ≠ b := fun b hb heq =>
        hb (hskip.suffix.mem (heq ▸ List.mem_cons_self))
      have hkeeps := keeps_of_readToken (hne _ hangle) (hne _ hquote) hread
      have hsuffix := hkeeps.suffix.trans hskip.suffix
      exact ih rest.length (hlen ▸ Nat.lt_of_lt_of_le hread.1 hskip.suffix.length_le)
        (hkeeps.mem (hskip.mem hmem)) (fun h => hangle (hsuffix.mem h))
        (fun h => hquote (hsuffix.mem h)) toks' rfl hnext

end Rejects

section Refuses

/-- No tokens can be made of the bytes, wherever they stand in a text. -/
def Refuses (bs : List UInt8) : Prop := ∀ size toks, tokenizeFrom size bs ≠ .ok toks

variable {bs rest tail : List UInt8} {ch : UInt8} {tok : Token}

theorem Refuses.space (hws : isWhitespace ch) (h : Refuses bs) : Refuses (ch :: bs) := by
  intro size toks hok
  have hskip : skipWhitespace (ch :: bs) = skipWhitespace bs := List.dropWhile_cons_of_pos hws
  refine h size toks ?_
  rw [← hok, tokenizeFrom.eq_def, tokenizeFrom.eq_def size (ch :: bs), hskip]

/-- A token that is read leads to what is refused behind it. -/
theorem Refuses.cons (hws : isWhitespace ch = false)
    (hread : ∀ start, Yields (readToken start ch tail) tok rest) (h : Refuses rest) :
    Refuses (ch :: tail) := by
  intro size toks hok
  obtain ⟨tok', rest', toks', ⟨hlt', hread'⟩, hnext, -⟩ :=
    (tokenizeFrom_eq_ok (skipWhitespace_cons hws)).mp hok
  obtain ⟨hlt, hread⟩ := hread (size - (ch :: tail).length)
  have hsame := Except.ok.inj (hread.symm.trans hread')
  have hrest : rest = rest' := congrArg (fun out => out.2.1) hsame
  subst hrest
  exact h size toks' hnext

theorem Refuses.plus (h : Refuses bs) : Refuses ('+'.toUInt8 :: bs) :=
  .cons (by decide) (fun _ => ⟨Nat.lt_succ_self _, rfl⟩) h

theorem Refuses.openBracket (h : Refuses bs) : Refuses ('['.toUInt8 :: bs) :=
  .cons (by decide) (fun _ => ⟨Nat.lt_succ_self _, rfl⟩) h

theorem Refuses.closeBracket (h : Refuses bs) : Refuses (']'.toUInt8 :: bs) :=
  .cons (by decide) (fun _ => ⟨Nat.lt_succ_self _, rfl⟩) h

/-- A literal that does not fit a signed word. -/
theorem refuses_hex {n : ℕ} (hn : 2 ^ 63 ≤ n) (hbs : EndsHex bs) :
    Refuses ('0'.toUInt8 :: 'x'.toUInt8 :: (hexBytes n ++ bs)) := by
  intro size toks hok
  obtain ⟨tok, rest, toks', hread, -, -⟩ :=
    (tokenizeFrom_eq_ok (skipWhitespace_cons (by decide))).mp hok
  have hlarge : fromStrRadix 16 (hexBytes n) = none := by
    rw [fromStrRadix, digitsValue_hexBytes]
    exact if_neg fun h => absurd h.2 (by omega)
  rw [readToken_hex] at hread
  unfold readDigits at hread
  split at hread
  · rename_i hv
    rw [(digits_cut isHexDigit_of_mem_hexBytes hbs).1, hlarge] at hv
    cases hv
  · exact not_yields_error hread

theorem Refuses.hex (n : ℕ) (hbs : EndsHex bs) (h : Refuses bs) :
    Refuses ('0'.toUInt8 :: 'x'.toUInt8 :: (hexBytes n ++ bs)) := by
  by_cases hn : n < 2 ^ 63
  · exact .cons (by decide) (yields_hex hn hbs) h
  · exact refuses_hex (Nat.not_lt.mp hn) hbs

end Refuses

end Tokenizer

end Nemclass.Address
