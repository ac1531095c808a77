import Mathlib.Data.List.DropRight
import Nemclass.Lib.Numerals
import Nemclass.Lib.Outcome
import Nemclass.Lib.Utf8
import Nemclass.Scan.PatternText
import Nemclass.Scan.ValueType

/-! Needles as text. A signed integer is read as an unsigned number of 128 bits, taken for a
signed one, negated after a minus sign, and narrowed to the type. It is what the text says
unless the magnitude gets into the half of the 128 bits that is negative as a signed number. -/
namespace Nemclass.Scan
open Numerals Outcome

inductive NeedleParseError where
  | integer
  | float
  | pattern (e : PatternError)
deriving DecidableEq

def NeedleParseError.text : NeedleParseError → String
  | .integer => "invalid integer needle"
  | .float => "invalid float needle"
  | .pattern e => e.text

/-- Why there is no needle: an error that was returned, or an arithmetic overflow. -/
inductive NeedleFailure where
  | error (e : NeedleParseError)
  | overflow
deriving DecidableEq

/-- `str::trim`. -/
def trim (s : List Char) : List Char := (s.dropWhile isWhitespace).rdropWhile isWhitespace

/-- `char::to_digit`. -/
def toDigit (radix : ℕ) (c : Char) : Option ℕ :=
  let value :=
    if '0' ≤ c ∧ c ≤ '9' then some (c.toNat - 48)
    else if 'a' ≤ c ∧ c ≤ 'z' then some (c.toNat - 87)
    else if 'A' ≤ c ∧ c ≤ 'Z' then some (c.toNat - 55)
    else none
  value.filter (· < radix)

/-- `u128::from_str_radix`, which takes a leading plus sign and no minus sign. -/
def u128FromStrRadix (radix : ℕ) (src : List Char) : Option ℕ :=
  if src = [] ∨ src = ['+'] ∨ src = ['-'] then none
  else read (toDigit radix) radix (2 ^ 128) ((src.dropPrefix? ['+']).getD src)

def parseU128Radix (s : List Char) : Except NeedleParseError ℕ :=
  let s := trim s
  let n := match (s.dropPrefix? ['0', 'x']).or (s.dropPrefix? ['0', 'X']) with
    | some hex => u128FromStrRadix 16 hex
    | none => u128FromStrRadix 10 s
  n.elim (.error .integer) .ok

/-- `as i128`, of an unsigned number of 128 bits. -/
def asI128 (n : ℕ) : ℤ := if n < 2 ^ 127 then n else n - 2 ^ 128

/-- Negation of an `i128`; the least one has none. -/
def negI128 (n : ℤ) : Except NeedleFailure ℤ := if n = -2 ^ 127 then .error .overflow else .ok (-n)

def parseI128Radix (s : List Char) : Except NeedleFailure ℤ := do
  let (neg, body) := match s.dropPrefix? ['-'] with
    | some rest => (true, rest)
    | none => (false, s)
  let mag := asI128 (← (parseU128Radix body).mapError .error)
  if neg then negI128 mag else pure mag

/-- The integers of a type of `width` bytes. -/
def InRange (signed : Bool) (width : ℕ) (v : ℤ) : Prop :=
  if signed then -2 ^ (8 * width - 1) ≤ v ∧ v < 2 ^ (8 * width - 1) else 0 ≤ v ∧ v < 2 ^ (8 * width)

instance (signed : Bool) (width : ℕ) (v : ℤ) : Decidable (InRange signed width v) := by
  unfold InRange
  infer_instance

/-- `T::try_from`. -/
def tryFrom (signed : Bool) (width : ℕ) (v : ℤ) : Except NeedleFailure ℤ :=
  if InRange signed width v then .ok v else .error (.error .integer)

def parseInt (width : ℕ) (s : List Char) : Except NeedleFailure ℤ := do
  let v ← parseI128Radix s
  tryFrom true width v

def parseUint (width : ℕ) (s : List Char) : Except NeedleFailure ℤ := do
  let v ← (parseU128Radix s).mapError .error
  tryFrom false width v

theorem BytePattern.len_pos_of_parse {input : String} {p : BytePattern}
    (h : BytePattern.parse input = .ok p) : 0 < p.len := by
  obtain ⟨bytes, -, h⟩ := bind_eq_ok.mp h
  split at h
  · cases h
  · cases h
    exact List.length_pos_iff.mpr fun hnil => by simp_all

/-- `str::encode_utf16`, of one character. -/
def encodeUtf16 (c : Char) : List UInt16 :=
  if c.toNat < 0x10000 then [c.toNat.toUInt16]
  else [(0xD800 + (c.toNat - 0x10000) / 0x400).toUInt16,
    (0xDC00 + (c.toNat - 0x10000) % 0x400).toUInt16]

/-- An integer type of `width` bytes. -/
structure ScanValueType.IsInteger (ty : ScanValueType) (width : ℕ) : Prop where
  notFloat : ty.isFloat = false
  fixedWidth : ty.fixedWidth = some width

def Needle.int {ty : ScanValueType} {width : ℕ} (h : ty.IsInteger width) (upper : Option ℤ)
    (tolerance : Float) (v : ℤ) : Needle :=
  ⟨ty, .I v width upper, tolerance, ⟨h.notFloat, h.fixedWidth⟩⟩

section Parse

/- The float syntax of the standard library: a value of the width, widened to a double. -/
variable (parseFloat : ℕ → List Char → Option Float)

def ScanValueType.parseNeedle (ty : ScanValueType) (input : String) :
    Except NeedleFailure Needle :=
  let s := trim input.toList
  let tol := defaultFloatTolerance
  match ty with
  | .i8 => (parseInt 1 s).map (Needle.int (.mk rfl rfl : IsInteger .i8 1) none tol)
  | .i16 => (parseInt 2 s).map (Needle.int (.mk rfl rfl : IsInteger .i16 2) none tol)
  | .i32 => (parseInt 4 s).map (Needle.int (.mk rfl rfl : IsInteger .i32 4) none tol)
  | .i64 => (parseInt 8 s).map (Needle.int (.mk rfl rfl : IsInteger .i64 8) none tol)
  | .u8 => (parseUint 1 s).map (Needle.int (.mk rfl rfl : IsInteger .u8 1) none tol)
  | .u16 => (parseUint 2 s).map (Needle.int (.mk rfl rfl : IsInteger .u16 2) none tol)
  | .u32 => (parseUint 4 s).map (Needle.int (.mk rfl rfl : IsInteger .u32 4) none tol)
  | .u64 => (parseUint 8 s).map (Needle.int (.mk rfl rfl : IsInteger .u64 8) none tol)
  | .f32 =>
    (parseFloat 4 s).elim (.error (.error .float)) fun v =>
      .ok ⟨.f32, .F v 4 none, tol, ⟨rfl, rfl⟩⟩
  | .f64 =>
    (parseFloat 8 s).elim (.error (.error .float)) fun v =>
      .ok ⟨.f64, .F v 8 none, tol, ⟨rfl, rfl⟩⟩
  | .bytes =>
    match h : BytePattern.parse input with
    | .error e => .error (.error (.pattern e))
    | .ok p => .ok ⟨.bytes, .Bytes p, tol, ⟨rfl, BytePattern.len_pos_of_parse h⟩⟩
  | .stringUtf8 => .ok ⟨.stringUtf8, .Str (Utf8.bytes input), tol, rfl⟩
  | .stringUtf16 =>
    let units := input.toList.flatMap encodeUtf16
    .ok ⟨.stringUtf16, .Str (units.flatMap fun (u : UInt16) => [u.toUInt8, (u >>> 8).toUInt8]), tol, rfl⟩

/-- The exclusive upper bound of a range, read as the needle's own type. -/
def Needle.withUpperBound (n : Needle) (input : String) : Except NeedleFailure Needle := do
  let upper ← n.ty.parseNeedle parseFloat input
  match n, upper.value with
  | ⟨ty, .I v width _, tol, fits⟩, .I hi _ _ => pure ⟨ty, .I v width (some hi), tol, fits⟩
  | ⟨ty, .F v width _, tol, fits⟩, .F hi _ _ => pure ⟨ty, .F v width (some hi), tol, fits⟩
  | n, _ => pure n

end Parse

/-! ## What a text says -/

/-- At least one digit, after at most one plus sign. -/
def Numeral (radix : ℕ) (cs : List Char) (m : ℕ) : Prop :=
  ∃ digits, digits ≠ [] ∧ (cs = digits ∨ cs = '+' :: digits) ∧
    Denotes (toDigit radix) radix digits m

/-- A number without a sign, decimal or hexadecimal, of any size. -/
inductive Magnitude : List Char → ℕ → Prop
  | decimal {cs m} : Numeral 10 cs m → Magnitude cs m
  | hexadecimal {x cs m} : x = 'x' ∨ x = 'X' → Numeral 16 cs m → Magnitude ('0' :: x :: cs) m

/-- A magnitude, after a minus sign perhaps when the type is signed. -/
inductive Says (signed : Bool) : List Char → ℤ → Prop
  | positive {cs m} : Magnitude cs m → Says signed cs m
  | negative {cs m} : signed = true → Magnitude cs m → Says signed ('-' :: cs) (-m)

/-! ## Characters -/

theorem digit_bounds {radix : ℕ} {c : Char} (h : (toDigit radix c).isSome) :
    48 ≤ c.toNat ∧ c.toNat ≤ 122 := by
  have hnat (a b : Char) : a ≤ b ↔ a.toNat ≤ b.toNat := Iff.rfl
  simp only [toDigit, hnat] at h
  split at h
  · rename_i hdigit
    exact ⟨hdigit.1, hdigit.2.trans (by decide)⟩
  · split at h
    · rename_i hlower
      exact ⟨le_trans (by decide) hlower.1, hlower.2⟩
    · split at h
      · rename_i hupper
        exact ⟨le_trans (by decide) hupper.1, hupper.2.trans (by decide)⟩
      · cases h

theorem isWhitespace_of_bounds {c : Char} (h : 48 ≤ c.toNat ∧ c.toNat ≤ 122) :
    isWhitespace c = false := by
  simp only [isWhitespace, Bool.or_eq_false_iff, Bool.and_eq_false_iff, decide_eq_false_iff_not,
    beq_eq_false_iff_ne]
  omega

theorem toDigit_plus (radix : ℕ) : toDigit radix '+' = none := rfl

theorem toDigit_minus (radix : ℕ) : toDigit radix '-' = none := rfl

theorem trim_of_visible {s : List Char} (h : ∀ c ∈ s, isWhitespace c = false) : trim s = s := by
  have hfront : s.dropWhile isWhitespace = s := by
    rw [List.dropWhile_eq_self_iff]
    intro hl
    rw [h _ (List.getElem_mem hl)]
    exact Bool.false_ne_true
  rw [trim, hfront, List.rdropWhile_eq_self_iff]
  intro hl
  rw [h _ (List.getLast_mem hl)]
  exact Bool.false_ne_true

theorem trim_trim (s : List Char) : trim (trim s) = trim s := by
  have hfront : (trim s).dropWhile isWhitespace = trim s := by
    rw [List.dropWhile_eq_self_iff]
    intro hl
    have hpre : trim s <+: s.dropWhile isWhitespace := List.rdropWhile_prefix _ _
    rw [hpre.getElem]
    exact List.dropWhile_get_zero_not _ _ (hl.trans_le hpre.length_le)
  rw [trim, hfront]
  exact List.rdropWhile_idempotent _ _

/-! ## Reading a magnitude -/

theorem Numeral.bounds {radix : ℕ} {cs : List Char} {m : ℕ} (h : Numeral radix cs m) :
    ∀ c ∈ cs, c = '+' ∨ 48 ≤ c.toNat ∧ c.toNat ≤ 122 := by
  obtain ⟨digits, -, hcs, hdigits⟩ := h
  have hall : ∀ c ∈ digits, c = '+' ∨ 48 ≤ c.toNat ∧ c.toNat ≤ 122 :=
    fun c hc => .inr (digit_bounds (hdigits.isSome_digit c hc))
  obtain rfl | rfl := hcs
  · exact hall
  · exact List.forall_mem_cons.mpr ⟨.inl rfl, hall⟩

theorem Magnitude.bounds {cs : List Char} {m : ℕ} (h : Magnitude cs m) :
    ∀ c ∈ cs, c = '+' ∨ 48 ≤ c.toNat ∧ c.toNat ≤ 122 := by
  cases h with
  | decimal h => exact h.bounds
  | hexadecimal hx h =>
    refine List.forall_mem_cons.mpr ⟨.inr (by decide), List.forall_mem_cons.mpr ⟨?_, h.bounds⟩⟩
    obtain rfl | rfl := hx <;> exact .inr (by decide)

theorem Magnitude.trim_eq {cs : List Char} {m : ℕ} (h : Magnitude cs m) : trim cs = cs := by
  refine trim_of_visible fun c hc => ?_
  obtain rfl | hbounds := h.bounds c hc
  · rfl
  · exact isWhitespace_of_bounds hbounds

theorem Magnitude.not_minus {cs : List Char} {m : ℕ} (h : Magnitude ('-' :: cs) m) : False := by
  obtain heq | ⟨hle, -⟩ := h.bounds '-' List.mem_cons_self
  · cases heq
  · exact absurd hle (by decide)

theorem dropPrefix?_eq_some {s p rest : List Char} :
    s.dropPrefix? p = some rest ↔ s = p ++ rest := by
  rw [List.dropPrefix?_eq_some_iff]
  simp

theorem u128FromStrRadix_eq_some {radix : ℕ} (hradix : 0 < radix) {src : List Char} {m : ℕ} :
    u128FromStrRadix radix src = some m ↔ Numeral radix src m ∧ m < 2 ^ 128 := by
  rw [u128FromStrRadix, Option.ite_none_left_eq_some, read_eq_some hradix (by decide),
    ← and_assoc]
  refine and_congr_left fun _ => ?_
  constructor
  · rintro ⟨hsome, hread⟩
    cases hplus : src.dropPrefix? ['+'] with
    | none =>
      rw [hplus] at hread
      exact ⟨src, fun hnil => hsome (.inl hnil), .inl rfl, hread⟩
    | some digits =>
      rw [hplus] at hread
      rw [dropPrefix?_eq_some] at hplus
      subst hplus
      exact ⟨digits, fun hnil => hsome (.inr (.inl (by rw [hnil]; rfl))), .inr rfl, hread⟩
  · rintro ⟨digits, hne, rfl | rfl, hread⟩
    · have hdigit := hread.isSome_digit
      have hplus : src.dropPrefix? ['+'] = none := by
        rw [Option.eq_none_iff_forall_ne_some]
        intro rest hrest
        rw [dropPrefix?_eq_some.mp hrest] at hdigit
        exact absurd (hdigit '+' List.mem_cons_self) (by rw [toDigit_plus]; decide)
      rw [hplus]
      refine ⟨?_, hread⟩
      rintro (rfl | rfl | rfl)
      · exact hne rfl
      · exact absurd (hdigit '+' List.mem_cons_self) (by rw [toDigit_plus]; decide)
      · exact absurd (hdigit '-' List.mem_cons_self) (by rw [toDigit_minus]; decide)
    · have hplus : ('+' :: digits).dropPrefix? ['+'] = some digits := dropPrefix?_eq_some.mpr rfl
      rw [hplus]
      exact ⟨by simpa using hne, hread⟩

/-- Neither letter of the hexadecimal prefix is a decimal digit. -/
theorem Numeral.not_prefix {x : Char} (hx : x = 'x' ∨ x = 'X') {cs : List Char} {m : ℕ}
    (h : Numeral 10 ('0' :: x :: cs) m) : False := by
  obtain ⟨digits, -, hcs, hdigits⟩ := h
  have hmem : x ∈ digits := by
    obtain rfl | hcs := hcs
    · exact List.mem_cons_of_mem _ List.mem_cons_self
    · cases hcs
  have hsome := hdigits.isSome_digit x hmem
  obtain rfl | rfl := hx <;> exact absurd hsome (by decide)

theorem hexPrefix_eq_some {s hex : List Char} :
    (s.dropPrefix? ['0', 'x']).or (s.dropPrefix? ['0', 'X']) = some hex ↔
      ∃ x, (x = 'x' ∨ x = 'X') ∧ s = '0' :: x :: hex := by
  have hlower : s.dropPrefix? ['0', 'x'] = some hex ↔ s = '0' :: 'x' :: hex := dropPrefix?_eq_some
  have hupper : s.dropPrefix? ['0', 'X'] = some hex ↔ s = '0' :: 'X' :: hex := dropPrefix?_eq_some
  rw [Option.or_eq_some_iff, hlower, hupper]
  constructor
  · rintro (h | ⟨-, h⟩)
    · exact ⟨'x', .inl rfl, h⟩
    · exact ⟨'X', .inr rfl, h⟩
  · rintro ⟨x, rfl | rfl, rfl⟩
    · exact .inl rfl
    · exact .inr ⟨rfl, rfl⟩

/-- A text a reader finds no prefix on spells in decimal what it spells. -/
theorem magnitude_iff_of_hexPrefix_none {s : List Char} {m : ℕ}
    (hhex : (s.dropPrefix? ['0', 'x']).or (s.dropPrefix? ['0', 'X']) = none) :
    Magnitude s m ↔ Numeral 10 s m := by
  refine ⟨fun h => ?_, .decimal⟩
  cases h with
  | decimal h => exact h
  | hexadecimal hx h =>
    rw [hexPrefix_eq_some.mpr ⟨_, hx, rfl⟩] at hhex
    cases hhex

/-- A text a reader strips of a prefix spells in hexadecimal, since no numeral has one. -/
theorem magnitude_iff_of_hexPrefix_some {s hex : List Char} {m : ℕ}
    (hhex : (s.dropPrefix? ['0', 'x']).or (s.dropPrefix? ['0', 'X']) = some hex) :
    Magnitude s m ↔ Numeral 16 hex m := by
  obtain ⟨x, hx, rfl⟩ := hexPrefix_eq_some.mp hhex
  refine ⟨fun h => ?_, .hexadecimal hx⟩
  cases h with
  | decimal h => exact (h.not_prefix hx).elim
  | hexadecimal _ h => exact h

theorem parseU128Radix_eq_ok {s : List Char} {m : ℕ} :
    parseU128Radix s = .ok m ↔ Magnitude (trim s) m ∧ m < 2 ^ 128 := by
  have helim (n : Option ℕ) :
      n.elim (.error NeedleParseError.integer) Except.ok = .ok m ↔ n = some m := by
    cases n <;> simp
  rw [parseU128Radix, helim]
  cases hhex : ((trim s).dropPrefix? ['0', 'x']).or ((trim s).dropPrefix? ['0', 'X']) with
  | none => rw [u128FromStrRadix_eq_some (by decide), magnitude_iff_of_hexPrefix_none hhex]
  | some hex => rw [u128FromStrRadix_eq_some (by decide), magnitude_iff_of_hexPrefix_some hhex]

/-! ## Reading an integer -/

section Steps
variable {signed : Bool} {width : ℕ} {s : List Char} {v n : ℤ}

theorem tryFrom_eq_ok : tryFrom signed width n = .ok v ↔ n = v ∧ InRange signed width v := by
  rw [tryFrom]
  split
  · rename_i hrange
    rw [Except.ok.injEq]
    exact ⟨fun h => ⟨h, h ▸ hrange⟩, And.left⟩
  · rename_i hrange
    simp only [reduceCtorEq, false_iff, not_and]
    exact fun h => h ▸ hrange

theorem tryFrom_ne_overflow : tryFrom signed width n ≠ .error .overflow := by
  rw [tryFrom]
  split <;> simp

theorem negI128_eq_ok : negI128 n = .ok v ↔ n ≠ -2 ^ 127 ∧ -n = v := by
  rw [negI128]
  split
  · rename_i hleast
    simp only [reduceCtorEq, false_iff, not_and]
    exact fun hne => absurd hleast hne
  · rename_i hne
    rw [Except.ok.injEq]
    exact ⟨fun hv => ⟨hne, hv⟩, And.right⟩

theorem negI128_eq_overflow : negI128 n = .error .overflow ↔ n = -2 ^ 127 := by
  rw [negI128]
  split
  · rename_i hleast
    exact iff_of_true rfl hleast
  · rename_i hne
    exact iff_of_false (by simp) hne

/-- Only a later step overflows. -/
theorem bind_eq_overflow {β : Type} {x : Except NeedleParseError ℕ} {f : ℕ → Except NeedleFailure β} :
    x.mapError .error >>= f = .error .overflow ↔ ∃ m, x = .ok m ∧ f m = .error .overflow := by
  cases x <;> simp [Except.mapError, bind, Except.bind]

theorem asI128_of_lt {m : ℕ} (h : m < 2 ^ 127) : asI128 m = m := if_pos h

theorem asI128_of_le {m : ℕ} (h : 2 ^ 127 ≤ m) : asI128 m = m - 2 ^ 128 := if_neg (not_lt.mpr h)

/-- Narrowing overflows nowhere, so overflow is from the steps before it. -/
theorem bind_tryFrom_eq_overflow {x : Except NeedleFailure ℤ} :
    x >>= tryFrom signed width = .error .overflow ↔ x = .error .overflow := by
  cases x with
  | error e => simp [bind, Except.bind]
  | ok n => simpa [bind, Except.bind] using tryFrom_ne_overflow

theorem parseUint_eq_ok : parseUint width s = .ok v ↔
    ∃ m : ℕ, (Magnitude (trim s) m ∧ m < 2 ^ 128) ∧ (m : ℤ) = v ∧ InRange false width v := by
  simp only [parseUint, bind_eq_ok, mapError_eq_ok, parseU128Radix_eq_ok, tryFrom_eq_ok]

theorem parseUint_ne_overflow : parseUint width s ≠ .error .overflow := by
  rw [parseUint, Ne, bind_eq_overflow]
  rintro ⟨m, -, h⟩
  exact tryFrom_ne_overflow h

theorem parseI128Radix_minus (body : List Char) : parseI128Radix ('-' :: body) =
    (parseU128Radix body).mapError .error >>= fun m => negI128 (asI128 m) := by
  have hminus : ('-' :: body).dropPrefix? ['-'] = some body := dropPrefix?_eq_some.mpr rfl
  rw [parseI128Radix, hminus]
  rfl

theorem parseI128Radix_plain (h : ∀ body, s ≠ '-' :: body) : parseI128Radix s =
    (parseU128Radix s).mapError .error >>= fun m => .ok (asI128 m) := by
  have hplain : s.dropPrefix? ['-'] = none := by
    rw [Option.eq_none_iff_forall_ne_some]
    intro rest hrest
    exact h rest (dropPrefix?_eq_some.mp hrest)
  rw [parseI128Radix, hplain]
  rfl

theorem parseInt_minus_eq_ok {body : List Char} : parseInt width ('-' :: body) = .ok v ↔
    ∃ m : ℕ, (Magnitude (trim body) m ∧ m < 2 ^ 128) ∧
      (asI128 m ≠ -2 ^ 127 ∧ -asI128 m = v) ∧ InRange true width v := by
  simp only [parseInt, parseI128Radix_minus, bind_eq_ok, mapError_eq_ok, parseU128Radix_eq_ok,
    negI128_eq_ok, tryFrom_eq_ok]
  constructor
  · rintro ⟨n, ⟨m, hm, hneg⟩, rfl, hrange⟩
    exact ⟨m, hm, hneg, hrange⟩
  · rintro ⟨m, hm, hneg, hrange⟩
    exact ⟨v, ⟨m, hm, hneg⟩, rfl, hrange⟩

theorem parseInt_minus_eq_overflow {body : List Char} :
    parseInt width ('-' :: body) = .error .overflow ↔
      ∃ m : ℕ, (Magnitude (trim body) m ∧ m < 2 ^ 128) ∧ asI128 m = -2 ^ 127 := by
  simp only [parseInt, bind_tryFrom_eq_overflow, parseI128Radix_minus, bind_eq_overflow,
    negI128_eq_overflow, parseU128Radix_eq_ok]

theorem parseInt_plain_eq_ok (h : ∀ body, s ≠ '-' :: body) : parseInt width s = .ok v ↔
    ∃ m : ℕ, (Magnitude (trim s) m ∧ m < 2 ^ 128) ∧ asI128 m = v ∧ InRange true width v := by
  simp only [parseInt, parseI128Radix_plain h, bind_eq_ok, mapError_eq_ok, parseU128Radix_eq_ok,
    tryFrom_eq_ok, Except.ok.injEq]
  constructor
  · rintro ⟨n, ⟨m, hm, rfl⟩, rfl, hrange⟩
    exact ⟨m, hm, rfl, hrange⟩
  · rintro ⟨m, hm, rfl, hrange⟩
    exact ⟨asI128 m, ⟨m, hm, rfl⟩, rfl, hrange⟩

theorem parseInt_plain_ne_overflow (h : ∀ body, s ≠ '-' :: body) :
    parseInt width s ≠ .error .overflow := by
  rw [parseInt, Ne, bind_tryFrom_eq_overflow, parseI128Radix_plain h, bind_eq_overflow]
  rintro ⟨m, -, ⟨⟩⟩

end Steps

end Nemclass.Scan
