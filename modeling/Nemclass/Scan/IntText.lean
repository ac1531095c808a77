import Mathlib.Data.Nat.Digits.Lemmas
import Nemclass.Scan.NeedleText

/-! Integers of a fixed width as text and as bytes: how the standard library reads and prints
them. What is printed is read back, and the bytes of an integer are those it was read from. -/
namespace Nemclass.Scan
open Numerals

/-- `std::num::IntErrorKind` -/
inductive IntErrorKind where
  | empty
  | invalidDigit
  | posOverflow
  | negOverflow
deriving DecidableEq, Repr

def IntErrorKind.text : IntErrorKind → String
  | .empty => "cannot parse integer from empty string"
  | .invalidDigit => "invalid digit found in string"
  | .posOverflow => "number too large to fit in target type"
  | .negOverflow => "number too small to fit in target type"

/-- One digit after another; a character that is none comes before an overflow. -/
def readDigits (radix limit : ℕ) (overflow : IntErrorKind) :
    ℕ → List Char → Except IntErrorKind ℕ
  | acc, [] => .ok acc
  | acc, c :: cs =>
    match toDigit radix c with
    | none => .error .invalidDigit
    | some d =>
      if acc * radix < limit ∧ acc * radix + d < limit then
        readDigits radix limit overflow (acc * radix + d) cs
      else .error overflow

/-- `from_str_radix` of an integer type of `width` bytes; `parse` is that of radix 10. -/
def fromStrRadix (signed : Bool) (width radix : ℕ) (src : List Char) : Except IntErrorKind ℤ :=
  let top := if signed then 2 ^ (8 * width - 1) else 2 ^ (8 * width)
  if src = [] then .error .empty
  else if src = ['+'] ∨ src = ['-'] then .error .invalidDigit
  else if src.head? = some '+' then
    (readDigits radix top .posOverflow 0 src.tail).map fun n : ℕ => (n : ℤ)
  else if src.head? = some '-' ∧ signed then
    (readDigits radix (top + 1) .negOverflow 0 src.tail).map fun n : ℕ => -(n : ℤ)
  else (readDigits radix top .posOverflow 0 src).map fun n : ℕ => (n : ℤ)

/-- `to_string` -/
def display (v : ℤ) : List Char :=
  if v < 0 then '-' :: Nat.toDigits 10 v.natAbs else Nat.toDigits 10 v.natAbs

/-- `{:0wX}` -/
def upperHexPadded (w n : ℕ) : List Char :=
  let digits := (Nat.toDigits 16 n).map Char.toUpper
  List.replicate (w - digits.length) '0' ++ digits

/-- `to_le_bytes`, in two's complement. -/
def toLeBytes : ℕ → ℤ → List UInt8
  | 0, _ => []
  | width + 1, v => UInt8.ofNat (v % 256).toNat :: toLeBytes width (v / 256)

/-- `from_le_bytes` -/
def fromLeBytes (signed : Bool) (bytes : List UInt8) : ℤ :=
  if signed ∧ 2 ^ (8 * bytes.length - 1) ≤ leBytes bytes then
    leBytes bytes - 2 ^ (8 * bytes.length)
  else leBytes bytes

/-- An integer, as digits after at most one sign. -/
inductive Reads (signed : Bool) (radix : ℕ) : List Char → ℤ → Prop
  | positive {cs m} : Numeral radix cs m → Reads signed radix cs m
  | negative {digits m} : signed = true → digits ≠ [] →
      Denotes (toDigit radix) radix digits m → Reads signed radix ('-' :: digits) (-m)

section Reading

variable {signed : Bool} {width radix limit : ℕ} {src : List Char}

theorem readDigits_eq_ok {overflow : IntErrorKind} {acc n : ℕ} :
    readDigits radix limit overflow acc src = .ok n ↔
      src.foldlM (push (toDigit radix) radix limit) acc = some n := by
  induction src generalizing acc with
  | nil => simp [readDigits]
  | cons c cs ih =>
    rw [List.foldlM_cons, push, readDigits]
    cases toDigit radix c with
    | none => simp
    | some d =>
      dsimp only [Option.bind_eq_bind, Option.bind_some]
      split
      · rw [ih]
        rfl
      · simp

theorem readDigits_zero_eq_ok {overflow : IntErrorKind} {n : ℕ} (hradix : 0 < radix)
    (hlimit : 0 < limit) :
    readDigits radix limit overflow 0 src = .ok n ↔
      Denotes (toDigit radix) radix src n ∧ n < limit := by
  rw [readDigits_eq_ok]
  exact read_eq_some hradix hlimit

theorem not_denotes_sign {sign : Char} (h : sign = '+' ∨ sign = '-') {digits : List Char} {n : ℕ} :
    ¬ Denotes (toDigit radix) radix (sign :: digits) n := by
  intro hdenotes
  have hsome := hdenotes.isSome_digit sign List.mem_cons_self
  obtain rfl | rfl := h <;> cases hsome

theorem numeral_plus {cs : List Char} {m : ℕ} :
    Numeral radix ('+' :: cs) m ↔ cs ≠ [] ∧ Denotes (toDigit radix) radix cs m := by
  constructor
  · rintro ⟨digits, hne, rfl | hcs, hdenotes⟩
    · exact (not_denotes_sign (.inl rfl) hdenotes).elim
    · cases hcs
      exact ⟨hne, hdenotes⟩
  · rintro ⟨hne, hdenotes⟩
    exact ⟨cs, hne, .inr rfl, hdenotes⟩

theorem numeral_plain {cs : List Char} {m : ℕ} (hne : cs ≠ []) (hplus : cs.head? ≠ some '+') :
    Numeral radix cs m ↔ Denotes (toDigit radix) radix cs m := by
  constructor
  · rintro ⟨digits, -, rfl | rfl, hdenotes⟩
    · exact hdenotes
    · exact (hplus rfl).elim
  · intro hdenotes
    exact ⟨cs, hne, .inl rfl, hdenotes⟩

theorem inRange_natCast {n : ℕ} : InRange signed width n ↔
    n < if signed then 2 ^ (8 * width - 1) else 2 ^ (8 * width) := by
  unfold InRange
  cases signed with
  | true =>
    simp only [if_true]
    constructor
    · rintro ⟨-, hlt⟩
      exact_mod_cast hlt
    · intro hlt
      have hpos : (0 : ℤ) ≤ 2 ^ (8 * width - 1) := by positivity
      exact ⟨by omega, by exact_mod_cast hlt⟩
  | false =>
    simp only [Bool.false_eq_true, if_false]
    constructor
    · rintro ⟨-, hlt⟩
      exact_mod_cast hlt
    · intro hlt
      exact ⟨Int.natCast_nonneg n, by exact_mod_cast hlt⟩

theorem inRange_neg {n : ℕ} : InRange true width (-(n : ℤ)) ↔ n < 2 ^ (8 * width - 1) + 1 := by
  have hcast : ((2 ^ (8 * width - 1) : ℕ) : ℤ) = 2 ^ (8 * width - 1) := by norm_num
  have hpos : 0 < 2 ^ (8 * width - 1) := Nat.pow_pos (by decide)
  simp only [InRange, if_true]
  omega

theorem reads_plain (hne : src ≠ []) (hplus : src.head? ≠ some '+')
    (hminus : ¬ (src.head? = some '-' ∧ signed = true)) {v : ℤ} :
    Reads signed radix src v ↔ ∃ n : ℕ, Denotes (toDigit radix) radix src n ∧ (n : ℤ) = v := by
  constructor
  · rintro (h | ⟨hsigned, -⟩)
    · exact ⟨_, (numeral_plain hne hplus).mp h, rfl⟩
    · exact (hminus ⟨rfl, hsigned⟩).elim
  · rintro ⟨n, h, rfl⟩
    exact .positive ((numeral_plain hne hplus).mpr h)

theorem reads_plus {cs : List Char} {v : ℤ} : Reads signed radix ('+' :: cs) v ↔
    cs ≠ [] ∧ ∃ n : ℕ, Denotes (toDigit radix) radix cs n ∧ (n : ℤ) = v := by
  constructor
  · rintro (h | -)
    obtain ⟨hne, hdenotes⟩ := numeral_plus.mp h
    exact ⟨hne, _, hdenotes, rfl⟩
  · rintro ⟨hne, n, h, rfl⟩
    exact .positive (numeral_plus.mpr ⟨hne, h⟩)

theorem reads_minus {cs : List Char} {v : ℤ} : Reads true radix ('-' :: cs) v ↔
    cs ≠ [] ∧ ∃ n : ℕ, Denotes (toDigit radix) radix cs n ∧ -(n : ℤ) = v := by
  constructor
  · rintro (h | ⟨-, hne, h⟩)
    · exact (not_denotes_sign (.inr rfl) ((numeral_plain (by simp) (by simp)).mp h)).elim
    · exact ⟨hne, _, h, rfl⟩
  · rintro ⟨hne, n, h, rfl⟩
    exact .negative rfl hne h

/-- A value read by digits below a limit and taken for an integer. -/
theorem readDigits_map_eq_ok {overflow : IntErrorKind} (hradix : 0 < radix) (hlimit : 0 < limit)
    {f : ℕ → ℤ} {v : ℤ} (hrange : ∀ n, f n = v → (n < limit ↔ InRange signed width v)) :
    (readDigits radix limit overflow 0 src).map f = .ok v ↔
      (∃ n, Denotes (toDigit radix) radix src n ∧ f n = v) ∧ InRange signed width v := by
  rw [Outcome.map_eq_ok, ← exists_and_right]
  refine exists_congr fun n => ?_
  rw [readDigits_zero_eq_ok hradix hlimit, and_assoc, and_assoc]
  refine and_congr_right fun _ => ?_
  rw [and_comm]
  exact and_congr_right fun hv => hrange n hv

/-- The parser reads exactly the integers of the type. -/
theorem fromStrRadix_eq_ok (hradix : 0 < radix) {v : ℤ} :
    fromStrRadix signed width radix src = .ok v ↔
      Reads signed radix src v ∧ InRange signed width v := by
  have htop : 0 < if signed then 2 ^ (8 * width - 1) else 2 ^ (8 * width) := by
    split <;> exact Nat.pow_pos (by decide)
  have hcast (n : ℕ) (hv : (n : ℤ) = v) : (n < if signed then 2 ^ (8 * width - 1)
      else 2 ^ (8 * width)) ↔ InRange signed width v := hv ▸ inRange_natCast.symm
  unfold fromStrRadix
  dsimp only
  by_cases hnil : src = []
  · subst hnil
    rw [if_pos rfl]
    refine iff_of_false (by simp) ?_
    rintro ⟨⟨⟨digits, hne, rfl | hcs, -⟩⟩, -⟩
    · exact hne rfl
    · cases hcs
  rw [if_neg hnil]
  by_cases hsign : src = ['+'] ∨ src = ['-']
  · rw [if_pos hsign]
    refine iff_of_false (by simp) ?_
    rintro ⟨hreads, -⟩
    obtain rfl | rfl := hsign
    · exact (reads_plus.mp hreads).1 rfl
    · cases hreads with
      | positive h =>
        exact not_denotes_sign (.inr rfl) ((numeral_plain (by simp) (by simp)).mp h)
      | negative _ hne => exact hne rfl
  rw [if_neg hsign]
  obtain ⟨c, cs, rfl⟩ := List.exists_cons_of_ne_nil hnil
  simp only [List.head?_cons, List.tail_cons, Option.some_inj]
  by_cases hplus : c = '+'
  · subst hplus
    have hne : cs ≠ [] := fun h => hsign (.inl (by rw [h]))
    rw [if_pos rfl, readDigits_map_eq_ok hradix htop hcast, reads_plus]
    simp only [hne, ne_eq, not_false_eq_true, true_and]
  rw [if_neg hplus]
  by_cases hminus : c = '-' ∧ signed = true
  · obtain ⟨rfl, rfl⟩ := hminus
    have hne : cs ≠ [] := fun h => hsign (.inr (by rw [h]))
    rw [if_pos ⟨rfl, rfl⟩, if_pos rfl, readDigits_map_eq_ok hradix (Nat.succ_pos _)
      fun n hv => hv ▸ inRange_neg.symm, reads_minus]
    simp only [hne, ne_eq, not_false_eq_true, true_and]
  · rw [if_neg hminus, readDigits_map_eq_ok hradix htop hcast,
      reads_plain hnil (by simpa using hplus) (by simpa using hminus)]

/-- A text that reads as an integer has nothing to trim. -/
theorem Reads.trim_eq {v : ℤ} (h : Reads signed radix src v) : trim src = src := by
  refine trim_of_visible fun c hc => ?_
  have hdigits {digits : List Char} {m : ℕ} (hm : Denotes (toDigit radix) radix digits m) :
      ∀ c ∈ digits, isWhitespace c = false :=
    fun c hc => isWhitespace_of_bounds (digit_bounds (hm.isSome_digit c hc))
  cases h with
  | positive h =>
    obtain rfl | hbounds := h.bounds c hc
    · rfl
    · exact isWhitespace_of_bounds hbounds
  | negative _ _ h =>
    obtain rfl | hmem := List.mem_cons.mp hc
    · rfl
    · exact hdigits h c hmem

end Reading

/-! ## Prefixes and radices -/

section Radices

variable {signed : Bool} {radix : ℕ} {cs : List Char} {v : ℤ}

/-- The digits of a text and its sign, whatever the radix. -/
theorem reads_split (signed : Bool) (cs : List Char) : ∃ (body : List Char) (f : ℕ → ℤ),
    (∀ n, (f n).natAbs = n) ∧ ∀ radix v, Reads signed radix cs v ↔
      body ≠ [] ∧ ∃ n, Denotes (toDigit radix) radix body n ∧ f n = v := by
  by_cases hplus : cs.head? = some '+'
  · obtain ⟨body, rfl⟩ := List.head?_eq_some_iff.mp hplus
    exact ⟨body, fun n => n, Int.natAbs_natCast, fun _ _ => reads_plus⟩
  by_cases hminus : cs.head? = some '-' ∧ signed = true
  · obtain ⟨hminus, rfl⟩ := hminus
    obtain ⟨body, rfl⟩ := List.head?_eq_some_iff.mp hminus
    exact ⟨body, fun n => -n, by simp, fun _ _ => reads_minus⟩
  refine ⟨cs, fun n => n, Int.natAbs_natCast, fun radix v => ?_⟩
  by_cases hnil : cs = []
  · subst hnil
    refine iff_of_false ?_ (fun h => h.1 rfl)
    rintro ⟨digits, hne, rfl | hcs, -⟩
    · exact hne rfl
    · cases hcs
  · rw [reads_plain hnil hplus hminus]
    exact ⟨fun h => ⟨hnil, h⟩, And.right⟩

theorem toDigit_ten (c : Char) (d : ℕ) :
    toDigit 10 c = some d ↔ toDigit 16 c = some d ∧ d < 10 := by
  simp only [toDigit, Option.filter_eq_some_iff, decide_eq_true_eq]
  constructor
  · rintro ⟨hd, hlt⟩
    exact ⟨⟨hd, by omega⟩, hlt⟩
  · rintro ⟨⟨hd, -⟩, hlt⟩
    exact ⟨hd, hlt⟩

/-- A text that reads the same in decimal and in hexadecimal has one digit. -/
theorem Reads.natAbs_lt_of_both (h : Reads signed 10 cs v) (h' : Reads signed 16 cs v) :
    v.natAbs < 10 := by
  obtain ⟨body, f, hf, hreads⟩ := reads_split signed cs
  obtain ⟨-, n, hn, rfl⟩ := (hreads 10 v).mp h
  obtain ⟨-, m, hm, heq⟩ := (hreads 16 _).mp h'
  have hsame : m = n := by rw [← hf m, heq, hf]
  subst hsame
  rw [hf]
  exact hn.lt_of_both toDigit_ten (by decide) (by decide) hm

theorem reads_ten_iff (hlt : v.natAbs < 10) : Reads signed 10 cs v ↔ Reads signed 16 cs v := by
  obtain ⟨body, f, hf, hreads⟩ := reads_split signed cs
  rw [hreads, hreads]
  refine and_congr_right fun _ => exists_congr fun n => and_congr_left fun hv => ?_
  have hn : n < 10 := by rwa [← hv, hf] at hlt
  exact denotes_iff_of_lt toDigit_ten (by decide) (by decide) hn

/-- No integer begins like a hexadecimal prefix. -/
theorem Reads.not_prefix (hradix : radix ≤ 16) {x : Char} (hx : x = 'x' ∨ x = 'X')
    (h : Reads signed radix ('0' :: x :: cs) v) : False := by
  have hnone : toDigit radix x = none := by
    rw [toDigit, Option.filter_eq_none_iff]
    obtain rfl | rfl := hx
    · rintro d ⟨⟩
      simpa using hradix.trans (by decide)
    · rintro d ⟨⟩
      simpa using hradix.trans (by decide)
  obtain ⟨n, hn, -⟩ := (reads_plain (by simp) (by simp) (by simp)).mp h
  have hsome := hn.isSome_digit x (by simp)
  rw [hnone] at hsome
  cases hsome

end Radices

section Printing

variable {radix : ℕ}

theorem denotes_concat {cs : List Char} {c : Char} {n d : ℕ}
    (h : Denotes (toDigit radix) radix cs n) (hc : toDigit radix c = some d) :
    Denotes (toDigit radix) radix (cs ++ [c]) (n * radix + d) := by
  obtain ⟨ds, hds, rfl⟩ := h
  refine ⟨ds ++ [d], by simp [List.mapM_append, hds, hc], ?_⟩
  rw [List.reverse_append, List.reverse_singleton, List.singleton_append, Nat.ofDigits_cons]
  ring

theorem toDigit_digitChar : ∀ d < 16, ∀ radix ≤ 16, d < radix →
    toDigit radix d.digitChar = some d ∧ toDigit radix d.digitChar.toUpper = some d := by
  decide +kernel

/-- The digits of a number denote it, in either case. -/
theorem denotes_toDigits (hradix : 1 < radix) (hle : radix ≤ 16) (n : ℕ) :
    Denotes (toDigit radix) radix (Nat.toDigits radix n) n ∧
      Denotes (toDigit radix) radix ((Nat.toDigits radix n).map Char.toUpper) n := by
  induction n using Nat.strong_induction_on with
  | _ n ih =>
    by_cases hlt : n < radix
    · obtain ⟨hlower, hupper⟩ := toDigit_digitChar n (by omega) radix hle hlt
      rw [Nat.toDigits_of_lt_base hlt]
      exact ⟨⟨[n], by simp [hlower], by simp⟩, ⟨[n], by simp [hupper], by simp⟩⟩
    · obtain ⟨hlower, hupper⟩ := ih (n / radix) (Nat.div_lt_self (by omega) hradix)
      obtain ⟨hlast, hlastUpper⟩ :=
        toDigit_digitChar (n % radix) ((Nat.mod_lt n (by omega)).trans_le hle) radix hle
          (Nat.mod_lt n (by omega))
      rw [Nat.toDigits_of_base_le hradix (Nat.not_lt.mp hlt), List.map_append]
      have hlower' := denotes_concat hlower hlast
      have hupper' := denotes_concat hupper hlastUpper
      rw [Nat.div_add_mod' n radix] at hlower' hupper'
      exact ⟨hlower', hupper'⟩

/-- Zeros in front change nothing. -/
theorem denotes_padded {cs : List Char} {n : ℕ} (hradix : 0 < radix) (k : ℕ)
    (h : Denotes (toDigit radix) radix cs n) :
    Denotes (toDigit radix) radix (List.replicate k '0' ++ cs) n := by
  have hzero : toDigit radix '0' = some 0 := by simp [toDigit, hradix]
  induction k with
  | zero => exact h
  | succ k ih =>
    obtain ⟨ds, hds, hn⟩ := ih
    refine ⟨0 :: ds, ?_, ?_⟩
    · rw [List.replicate_succ, List.cons_append, List.mapM_cons, hzero, hds]
      rfl
    · rw [List.reverse_cons, Nat.ofDigits_append, Nat.ofDigits_singleton, Nat.mul_zero,
        Nat.add_zero]
      exact hn

theorem toDigits_ne_nil (n : ℕ) : Nat.toDigits radix n ≠ [] :=
  List.ne_nil_of_length_pos Nat.length_toDigits_pos

/-- A printed integer reads as itself. -/
theorem reads_display {signed : Bool} {v : ℤ} (h : 0 ≤ v ∨ signed = true) :
    Reads signed 10 (display v) v := by
  have hdigits := (denotes_toDigits (by decide) (by decide : 10 ≤ 16) v.natAbs).1
  unfold display
  split
  · rename_i hneg
    have hv : -((v.natAbs : ℕ) : ℤ) = v := by omega
    have hreads : Reads signed 10 ('-' :: Nat.toDigits 10 v.natAbs) (-(v.natAbs : ℤ)) :=
      .negative (h.resolve_left (by omega)) (toDigits_ne_nil _) hdigits
    rwa [hv] at hreads
  · rename_i hpos
    have hv : ((v.natAbs : ℕ) : ℤ) = v := by omega
    have hreads : Reads signed 10 (Nat.toDigits 10 v.natAbs) (v.natAbs : ℤ) :=
      .positive ⟨_, toDigits_ne_nil _, .inl rfl, hdigits⟩
    rwa [hv] at hreads

theorem reads_upperHexPadded (signed : Bool) (w n : ℕ) :
    Reads signed 16 (upperHexPadded w n) n := by
  have hdigits := (denotes_toDigits (by decide) (le_refl 16) n).2
  refine .positive ⟨_, ?_, .inl rfl, denotes_padded (by decide) _ hdigits⟩
  intro hnil
  rw [upperHexPadded, List.append_eq_nil_iff, List.map_eq_nil_iff] at hnil
  exact toDigits_ne_nil n hnil.2

end Printing

section Bytes

variable {signed : Bool}

@[simp] theorem length_toLeBytes (width : ℕ) (v : ℤ) : (toLeBytes width v).length = width := by
  induction width generalizing v with
  | zero => rfl
  | succ width ih => rw [toLeBytes, List.length_cons, ih]

/-- Only the value modulo the range is kept. -/
theorem toLeBytes_congr {width : ℕ} {v u : ℤ} (h : v ≡ u [ZMOD 256 ^ width]) :
    toLeBytes width v = toLeBytes width u := by
  induction width generalizing v u with
  | zero => rfl
  | succ width ih =>
    obtain ⟨k, rfl⟩ := Int.modEq_iff_add_fac.mp h
    have hsplit : v + 256 ^ (width + 1) * k = v + 256 * (256 ^ width * k) := by ring
    rw [toLeBytes, toLeBytes, hsplit, Int.add_mul_emod_self_left,
      Int.add_mul_ediv_left _ _ (by decide),
      ih (Int.modEq_iff_add_fac.mpr ⟨k, rfl⟩ :
        v / 256 ≡ v / 256 + 256 ^ width * k [ZMOD 256 ^ width])]

theorem toLeBytes_leBytes (bytes : List UInt8) :
    toLeBytes bytes.length (leBytes bytes) = bytes := by
  induction bytes with
  | nil => rfl
  | cons b bytes ih =>
    have hb := b.toNat_lt
    rw [List.length_cons, toLeBytes, leBytes]
    have hmod : ((b.toNat + 256 * leBytes bytes : ℕ) : ℤ) % 256 = b.toNat := by omega
    have hdiv : ((b.toNat + 256 * leBytes bytes : ℕ) : ℤ) / 256 = leBytes bytes := by omega
    rw [hmod, hdiv, ih, Int.toNat_natCast, UInt8.ofNat_toNat]

/-- The bytes tell the integers of a range apart. -/
theorem modEq_of_toLeBytes_eq {width : ℕ} {v u : ℤ} (h : toLeBytes width v = toLeBytes width u) :
    v ≡ u [ZMOD 256 ^ width] := by
  induction width generalizing v u with
  | zero => exact Int.modEq_one
  | succ width ih =>
    rw [toLeBytes, toLeBytes, List.cons.injEq] at h
    obtain ⟨hhead, htail⟩ := h
    have hlow : v % 256 = u % 256 := by
      have hnat := congrArg UInt8.toNat hhead
      rw [UInt8.toNat_ofNat', UInt8.toNat_ofNat'] at hnat
      omega
    obtain ⟨k, hk⟩ := Int.modEq_iff_add_fac.mp (ih htail)
    refine Int.modEq_iff_add_fac.mpr ⟨k, ?_⟩
    calc u = 256 * (u / 256) + u % 256 := (Int.mul_ediv_add_emod u 256).symm
      _ = 256 * (v / 256 + 256 ^ width * k) + v % 256 := by rw [hk, hlow]
      _ = 256 * (v / 256) + v % 256 + 256 ^ (width + 1) * k := by ring
      _ = v + 256 ^ (width + 1) * k := by rw [Int.mul_ediv_add_emod]

theorem two_pow_eight_mul (n : ℕ) : (2 : ℤ) ^ (8 * n) = 256 ^ n := by
  rw [pow_mul]
  norm_num

/-- The bytes of an integer are those that it was read from. -/
theorem toLeBytes_fromLeBytes (signed : Bool) (bytes : List UInt8) :
    toLeBytes bytes.length (fromLeBytes signed bytes) = bytes := by
  conv_rhs => rw [← toLeBytes_leBytes bytes]
  refine toLeBytes_congr ?_
  unfold fromLeBytes
  split
  · rw [two_pow_eight_mul]
    exact Int.modEq_iff_add_fac.mpr ⟨1, by ring⟩
  · rfl

theorem two_pow_half {width : ℕ} (hpos : 0 < width) :
    (2 : ℤ) ^ (8 * width) = 2 * 2 ^ (8 * width - 1) := by
  rw [← pow_succ']
  congr 1
  omega

theorem eq_of_toLeBytes_eq {width : ℕ} (hpos : 0 < width) {v u : ℤ}
    (hv : InRange signed width v) (hu : InRange signed width u)
    (h : toLeBytes width v = toLeBytes width u) : v = u := by
  have hmod := modEq_of_toLeBytes_eq h
  rw [← two_pow_eight_mul] at hmod
  have hhalf := two_pow_half hpos
  have hdvd := Int.modEq_iff_dvd.mp hmod
  have hsmall : |u - v| < 2 ^ (8 * width) := by
    rw [abs_lt]
    unfold InRange at hv hu
    cases signed with
    | true =>
      simp only [if_true] at hv hu
      omega
    | false =>
      simp only [Bool.false_eq_true, if_false] at hv hu
      omega
  have hzero := Int.eq_zero_of_abs_lt_dvd hdvd hsmall
  omega

theorem inRange_fromLeBytes (signed : Bool) {bytes : List UInt8} (hne : bytes ≠ []) :
    InRange signed bytes.length (fromLeBytes signed bytes) := by
  have hlt : (leBytes bytes : ℤ) < 2 ^ (8 * bytes.length) := by
    rw [two_pow_eight_mul]
    exact_mod_cast leBytes_lt bytes
  have hhalf := two_pow_half (List.length_pos_iff.mpr hne)
  have hcast : ((2 ^ (8 * bytes.length - 1) : ℕ) : ℤ) = 2 ^ (8 * bytes.length - 1) := by norm_num
  unfold fromLeBytes InRange
  cases signed with
  | true =>
    simp only [true_and, if_true]
    split
    · omega
    · omega
  | false =>
    simp only [Bool.false_eq_true, false_and, if_false]
    omega

end Bytes

end Nemclass.Scan
