import Nemclass.Scan.NeedleText

/-! Integer needles mean their text, unless the magnitude gets to where 128 signed bits wrap
around to values of the type, or stands off from its minus sign. -/
namespace Nemclass.Scan
open Outcome

/-- A result is what the text says: no overflow, and a value just when the text says one that
the type holds. -/
structure Faithful (signed : Bool) (width : ℕ) (s : List Char) (result : Except NeedleFailure ℤ) :
    Prop where
  defined : result ≠ .error .overflow
  eq_ok_iff v : result = .ok v ↔ Says signed s v ∧ InRange signed width v

/-- The magnitude keeps away from where 128 signed bits wrap around to values of the type, and
follows the minus sign at once if the type holds its negation. -/
structure ClearOfWrap (width : ℕ) (s : List Char) : Prop where
  plain {m} : Magnitude s m → m < 2 ^ 128 → (m : ℤ) < 2 ^ 128 - 2 ^ (8 * width - 1)
  minus {body m} : s = '-' :: body → Magnitude (trim body) m → m < 2 ^ 128 →
    m ≠ 2 ^ 127 ∧ (m : ℤ) ≤ 2 ^ 128 - 2 ^ (8 * width - 1)
  unspaced {body m} : s = '-' :: body → Magnitude (trim body) m → (m : ℤ) ≤ 2 ^ (8 * width - 1) →
    trim body = body

theorem says_unsigned {s : List Char} {v : ℤ} :
    Says false s v ↔ ∃ m : ℕ, Magnitude s m ∧ (m : ℤ) = v := by
  constructor
  · rintro (h | ⟨hsigned, -⟩)
    · exact ⟨_, h, rfl⟩
    · cases hsigned
  · rintro ⟨m, h, rfl⟩
    exact .positive h

theorem says_minus {body : List Char} {v : ℤ} :
    Says true ('-' :: body) v ↔ ∃ m : ℕ, Magnitude body m ∧ -(m : ℤ) = v := by
  constructor
  · rintro (h | ⟨-, h⟩)
    · exact h.not_minus.elim
    · exact ⟨_, h, rfl⟩
  · rintro ⟨m, h, rfl⟩
    exact .negative rfl h

theorem says_plain {s : List Char} (hs : ∀ body, s ≠ '-' :: body) {v : ℤ} :
    Says true s v ↔ ∃ m : ℕ, Magnitude s m ∧ (m : ℤ) = v := by
  constructor
  · rintro (h | h)
    · exact ⟨_, h, rfl⟩
    · exact absurd rfl (hs _)
  · rintro ⟨m, h, rfl⟩
    exact .positive h

/-- An unsigned integer is always read faithfully. -/
theorem parseUint_faithful {width : ℕ} (hwidth : width ≤ 8) {s : List Char} (hs : trim s = s) :
    Faithful false width s (parseUint width s) where
  defined := parseUint_ne_overflow
  eq_ok_iff v := by
    rw [parseUint_eq_ok, says_unsigned, hs, ← exists_and_right]
    refine exists_congr fun m => ?_
    constructor
    · rintro ⟨⟨hm, -⟩, hv, hrange⟩
      exact ⟨⟨hm, hv⟩, hrange⟩
    · rintro ⟨⟨hm, hv⟩, hrange⟩
      have hpow : (2 : ℤ) ^ (8 * width) ≤ 2 ^ 64 := pow_le_pow_right₀ (by decide) (by omega)
      have hlt : v < 2 ^ (8 * width) := hrange.2
      exact ⟨⟨hm, by omega⟩, hv, hrange⟩

section Signed
variable {width : ℕ}

/-- Half the range of a type is far from half the range of 128 bits. -/
theorem half_bounds (hwidth : width ≤ 8) :
    1 ≤ (2 : ℤ) ^ (8 * width - 1) ∧ (2 : ℤ) ^ (8 * width - 1) ≤ 2 ^ 63 :=
  ⟨one_le_pow₀ (by decide), pow_le_pow_right₀ (by decide) (by omega)⟩

theorem faithful_plain (hwidth : width ≤ 8) {s : List Char} (hs : trim s = s)
    (hplain : ∀ body, s ≠ '-' :: body) :
    Faithful true width s (parseInt width s) ↔
      ∀ m, Magnitude s m → m < 2 ^ 128 → (m : ℤ) < 2 ^ 128 - 2 ^ (8 * width - 1) := by
  obtain ⟨hone, hhalf⟩ := half_bounds hwidth
  have hrange (v : ℤ) : InRange true width v ↔
    -2 ^ (8 * width - 1) ≤ v ∧ v < 2 ^ (8 * width - 1) := Iff.rfl
  constructor
  · intro h m hm hlt
    by_contra hge
    have hwrap : asI128 m = m - 2 ^ 128 := asI128_of_le (by omega)
    have hok : parseInt width s = .ok (m - 2 ^ 128) := by
      rw [parseInt_plain_eq_ok hplain, hs]
      refine ⟨m, ⟨hm, hlt⟩, hwrap, (hrange _).mpr ?_⟩
      omega
    obtain ⟨n, -, hn⟩ := (says_plain hplain).mp ((h.eq_ok_iff _).mp hok).1
    omega
  · intro h
    refine ⟨parseInt_plain_ne_overflow hplain, fun v => ?_⟩
    rw [parseInt_plain_eq_ok hplain, says_plain hplain, hs, ← exists_and_right]
    refine exists_congr fun m => ?_
    rw [hrange]
    constructor
    · rintro ⟨⟨hm, hlt⟩, hv, hin⟩
      have hclear := h m hm hlt
      have hsmall : m < 2 ^ 127 := by
        by_contra hge
        rw [asI128_of_le (by omega)] at hv
        omega
      exact ⟨⟨hm, by rwa [asI128_of_lt hsmall] at hv⟩, hin⟩
    · rintro ⟨⟨hm, hv⟩, hin⟩
      exact ⟨⟨hm, by omega⟩, by rwa [asI128_of_lt (by omega)], hin⟩

theorem faithful_minus (hwidth : width ≤ 8) (body : List Char) :
    Faithful true width ('-' :: body) (parseInt width ('-' :: body)) ↔
      ∀ m, Magnitude (trim body) m → m < 2 ^ 128 →
        (m ≠ 2 ^ 127 ∧ (m : ℤ) ≤ 2 ^ 128 - 2 ^ (8 * width - 1)) ∧
          ((m : ℤ) ≤ 2 ^ (8 * width - 1) → trim body = body) := by
  obtain ⟨hone, hhalf⟩ := half_bounds hwidth
  have hrange (v : ℤ) : InRange true width v ↔
    -2 ^ (8 * width - 1) ≤ v ∧ v < 2 ^ (8 * width - 1) := Iff.rfl
  constructor
  · intro h m hm hlt
    refine ⟨⟨?_, ?_⟩, fun hle => ?_⟩
    · rintro rfl
      exact h.defined (parseInt_minus_eq_overflow.mpr ⟨_, ⟨hm, hlt⟩, asI128_of_le le_rfl⟩)
    · -- the negated magnitude would wrap around to a positive number of the type
      by_contra hgt
      have hwrap : asI128 m = m - 2 ^ 128 := asI128_of_le (by omega)
      have hok : parseInt width ('-' :: body) = .ok (2 ^ 128 - m) := by
        refine parseInt_minus_eq_ok.mpr ⟨m, ⟨hm, hlt⟩, ?_, (hrange _).mpr (by omega)⟩
        rw [hwrap]
        omega
      obtain ⟨n, -, hn⟩ := says_minus.mp ((h.eq_ok_iff _).mp hok).1
      omega
    · have hsmall : asI128 m = m := asI128_of_lt (by omega)
      have hok : parseInt width ('-' :: body) = .ok (-m) := by
        refine parseInt_minus_eq_ok.mpr ⟨m, ⟨hm, hlt⟩, ?_, (hrange _).mpr (by omega)⟩
        rw [hsmall]
        omega
      obtain ⟨n, hbody, -⟩ := says_minus.mp ((h.eq_ok_iff _).mp hok).1
      exact hbody.trim_eq
  · intro h
    refine ⟨fun hover => ?_, fun v => ?_⟩
    · obtain ⟨m, ⟨hm, hlt⟩, hleast⟩ := parseInt_minus_eq_overflow.mp hover
      obtain ⟨⟨hne, -⟩, -⟩ := h m hm hlt
      unfold asI128 at hleast
      split at hleast <;> omega
    · rw [parseInt_minus_eq_ok, says_minus, ← exists_and_right]
      refine exists_congr fun m => ?_
      rw [hrange]
      constructor
      · rintro ⟨⟨hm, hlt⟩, ⟨-, hv⟩, hin⟩
        obtain ⟨⟨-, hclear⟩, hspaced⟩ := h m hm hlt
        have hsmall : m < 2 ^ 127 := by
          by_contra hge
          rw [asI128_of_le (by omega)] at hv
          omega
        rw [asI128_of_lt hsmall] at hv
        rw [hspaced (by omega)] at hm
        exact ⟨⟨hm, hv⟩, hin⟩
      · rintro ⟨⟨hm, hv⟩, hin⟩
        rw [asI128_of_lt (by omega), hm.trim_eq]
        exact ⟨⟨hm, by omega⟩, ⟨by omega, hv⟩, hin⟩

theorem parseInt_faithful_iff (hwidth : width ≤ 8) {s : List Char} (hs : trim s = s) :
    Faithful true width s (parseInt width s) ↔ ClearOfWrap width s := by
  obtain ⟨-, hhalf⟩ := half_bounds hwidth
  by_cases hplain : ∀ body, s ≠ '-' :: body
  · rw [faithful_plain hwidth hs hplain]
    refine ⟨fun h => ⟨h _, ?_, ?_⟩, fun h m => h.plain⟩
    · exact fun heq => absurd heq (hplain _)
    · exact fun heq => absurd heq (hplain _)
  · push Not at hplain
    obtain ⟨body, rfl⟩ := hplain
    rw [faithful_minus hwidth]
    constructor
    · intro h
      refine ⟨fun hm => hm.not_minus.elim, ?_, ?_⟩
      · rintro _ m ⟨⟩ hm hlt
        exact (h m hm hlt).1
      · rintro _ m ⟨⟩ hm hle
        exact (h m hm (by omega)).2 hle
    · exact fun h m hm hlt => ⟨h.minus rfl hm hlt, h.unspaced rfl hm⟩

end Signed

/-! ## Needles -/

section Needles
variable (parseFloat : ℕ → List Char → Option Float) {ty : ScanValueType} {width : ℕ}
  (h : ty.IsInteger width) (input : String)

/-- A needle of an integer type, and a range's upper bound, is the integer its text says. -/
structure MeansText : Prop where
  parse_defined : ty.parseNeedle parseFloat input ≠ .error .overflow
  parse_eq_ok_iff n : ty.parseNeedle parseFloat input = .ok n ↔
    ∃ v, (Says ty.isSigned (trim input.toList) v ∧ InRange ty.isSigned width v) ∧
      Needle.int h none defaultFloatTolerance v = n
  bound_defined upper tol needle :
    (Needle.int h upper tol needle).withUpperBound parseFloat input ≠ .error .overflow
  bound_eq_ok_iff upper tol needle n :
    (Needle.int h upper tol needle).withUpperBound parseFloat input = .ok n ↔
      ∃ v, (Says ty.isSigned (trim input.toList) v ∧ InRange ty.isSigned width v) ∧
        .int h (some v) tol needle = n

/-- The integer of a type, before it is made a needle. -/
def parseInteger (signed : Bool) (width : ℕ) (s : List Char) : Except NeedleFailure ℤ :=
  if signed then parseInt width s else parseUint width s

theorem Needle.int_inj {upper : Option ℤ} {tol : Float} {v u : ℤ} :
    Needle.int h upper tol v = .int h upper tol u ↔ v = u := by
  refine ⟨fun heq => ?_, congrArg _⟩
  have hvalue : NeedleValue.I v width upper = .I u width upper := congrArg Needle.value heq
  cases hvalue
  rfl

theorem parseNeedle_eq : ty.parseNeedle parseFloat input =
    (parseInteger ty.isSigned width (trim input.toList)).map
      (Needle.int h none defaultFloatTolerance) := by
  obtain ⟨hfloat, hwidth⟩ := h
  cases ty <;> cases hwidth <;> first | rfl | cases hfloat

theorem withUpperBound_eq (upper : Option ℤ) (tol : Float) (needle : ℤ) :
    (Needle.int h upper tol needle).withUpperBound parseFloat input =
      (parseInteger ty.isSigned width (trim input.toList)).map
        fun v => .int h (some v) tol needle := by
  rw [Needle.withUpperBound, show (Needle.int h upper tol needle).ty = ty from rfl,
    parseNeedle_eq parseFloat h]
  cases parseInteger ty.isSigned width (trim input.toList) <;> rfl

theorem meansText_iff_faithful : MeansText parseFloat h input ↔
    Faithful ty.isSigned width (trim input.toList)
      (parseInteger ty.isSigned width (trim input.toList)) := by
  constructor
  · intro hmeans
    have hparse := parseNeedle_eq parseFloat h input
    refine ⟨fun hover => hmeans.parse_defined ?_, fun v => ?_⟩
    · rw [hparse, map_eq_error, hover]
    · have hv := hmeans.parse_eq_ok_iff (Needle.int h none defaultFloatTolerance v)
      simpa only [hparse, map_eq_ok, Needle.int_inj, exists_eq_right] using hv
  · intro hread
    refine ⟨?_, fun n => ?_, fun upper tol needle => ?_, fun upper tol needle n => ?_⟩
    · rw [parseNeedle_eq parseFloat h, Ne, map_eq_error]
      exact hread.defined
    · simp only [parseNeedle_eq parseFloat h, map_eq_ok, hread.eq_ok_iff]
    · rw [withUpperBound_eq, Ne, map_eq_error]
      exact hread.defined
    · simp only [withUpperBound_eq, map_eq_ok, hread.eq_ok_iff]

theorem meansText_iff :
    MeansText parseFloat h input ↔
      (ty.isSigned = true → ClearOfWrap width (trim input.toList)) := by
  have hwidth : width ≤ 8 := by
    obtain ⟨-, hwidth⟩ := h
    cases ty <;> cases hwidth <;> decide
  have htrim := trim_trim input.toList
  rw [meansText_iff_faithful, parseInteger]
  cases hsigned : ty.isSigned with
  | false => exact iff_of_true (parseUint_faithful hwidth htrim) (fun h => by cases h)
  | true =>
    rw [if_pos rfl, parseInt_faithful_iff hwidth htrim]
    exact ⟨fun hclear _ => hclear, fun hclear => hclear rfl⟩

end Needles

/-- The least number of 64 bits is read. -/
theorem meansText_least : MeansText (fun _ _ => none)
    (.mk rfl rfl : ScanValueType.i64.IsInteger 8) " -0x8000000000000000 " := by
  refine (meansText_iff _ _ _).mpr fun _ => ?_
  have htrim : trim " -0x8000000000000000 ".toList = '-' :: "0x8000000000000000".toList := rfl
  have hread : parseU128Radix "0x8000000000000000".toList = .ok (2 ^ 63) := rfl
  rw [htrim]
  refine ⟨fun hm => hm.not_minus.elim, ?_, ?_⟩
  · rintro _ m ⟨⟩ hm hlt
    have heq := parseU128Radix_eq_ok.mpr ⟨hm, hlt⟩
    rw [hread] at heq
    cases heq
    decide
  · rintro _ m ⟨⟩ - -
    rfl

theorem isInteger_i8 : ScanValueType.i8.IsInteger 1 := ⟨rfl, rfl⟩

/-- The greatest number of 128 bits is read as minus one. -/
theorem parseNeedle_wraps :
    ScanValueType.i8.parseNeedle (fun _ _ => none) "340282366920938463463374607431768211455" =
        .ok (.int isInteger_i8 none defaultFloatTolerance (-1)) ∧
      ¬ MeansText (fun _ _ => none) isInteger_i8 "340282366920938463463374607431768211455" := by
  have hparse : ScanValueType.i8.parseNeedle (fun _ _ => none)
      "340282366920938463463374607431768211455" =
      .ok (.int isInteger_i8 none defaultFloatTolerance (-1)) := rfl
  refine ⟨hparse, fun hmeans => ?_⟩
  obtain ⟨v, ⟨hsaid, hrange⟩, hv⟩ := (hmeans.parse_eq_ok_iff _).mp hparse
  obtain rfl := (Needle.int_inj _).mp hv
  obtain ⟨m, -, hm⟩ := (says_plain (by rintro body ⟨⟩)).mp hsaid
  omega

end Nemclass.Scan
