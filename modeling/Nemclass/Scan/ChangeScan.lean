import Nemclass.Scan.NextScan

/-! Next scans that ask only how a value changed. For a type of fixed width the comparison
is the same with a needle and without one, so the passes are. A type without a width gives
a pass without a needle nothing to step by, and its needles match none of these
comparisons. -/
namespace Nemclass.Scan

/-- The comparisons that need a previous value and no needle. -/
def ScanCompareType.isChange (compare : ScanCompareType) : Bool :=
  compare.needsPrevious && !compare.needsNeedle

variable {compare : ScanCompareType}

theorem ScanCompareType.isChange_cases (h : compare.isChange = true) :
    compare = .increased ∨ compare = .decreased ∨ compare = .changed ∨ compare = .unchanged := by
  cases compare <;> first | decide | cases h

/-- None of them looks at the needle or its bound. -/
theorem compareInt_change (h : compare.isChange = true) (cur needle : ℤ) (upper prev : Option ℤ) :
    compareInt compare cur needle upper prev = compareInt compare cur 0 none prev := by
  rcases ScanCompareType.isChange_cases h with rfl | rfl | rfl | rfl <;> rfl

theorem compareFloat_change (h : compare.isChange = true) (cur needle : Float)
    (upper prev : Option Float) (tol : Float) :
    compareFloat compare cur needle upper prev tol = compareFloat compare cur 0.0 none prev tol := by
  rcases ScanCompareType.isChange_cases h with rfl | rfl | rfl | rfl <;> rfl

/-- Without a previous value none of them matches. -/
theorem compareInt_change_none (h : compare.isChange = true) (cur needle : ℤ) (upper : Option ℤ) :
    compareInt compare cur needle upper none = false := by
  rcases ScanCompareType.isChange_cases h with rfl | rfl | rfl | rfl <;> rfl

theorem compareFloat_change_none (h : compare.isChange = true) (cur needle : Float)
    (upper : Option Float) (tol : Float) : compareFloat compare cur needle upper none tol = false := by
  rcases ScanCompareType.isChange_cases h with rfl | rfl | rfl | rfl <;> rfl

theorem readInt_eq_none {data : List UInt8} {width : ℕ} {signed : Bool} :
    readInt data 0 width signed = none ↔ data.length < width := by
  simp [readInt, slice]

theorem readFloat_eq_none {data : List UInt8} {width : ℕ} (h : width = 4 ∨ width = 8) :
    readFloat data 0 width = none ↔ data.length < width := by
  rcases Nat.lt_or_ge data.length width with hlen | hlen
  · simp [readFloat, slice, Nat.not_le.mpr hlen, hlen]
  · have hwhole : slice data 0 width = some (data.take width) := slice_eq_some.mpr ⟨by omega, rfl⟩
    rcases h with rfl | rfl
    · simp [readFloat, hwhole, hlen]
    · simp [readFloat, hwhole, hlen]

/-- With a needle of a fixed width and the default tolerance, a change is compared as without. -/
theorem Needle.compareNext_change (n : Needle) (h : compare.isChange = true)
    (hwidth : n.ty.fixedWidth ≠ none) (htol : n.tolerance = defaultFloatTolerance)
    (fresh captured : List UInt8) :
    n.compareNext fresh 0 compare captured = n.ty.compareChange compare fresh captured := by
  obtain ⟨ty, value, tolerance, fits⟩ := n
  dsimp only at hwidth htol ⊢
  subst htol
  cases value with
  | I needle width upper =>
    obtain ⟨hint, hfixed⟩ := fits
    have hshort (data : List UInt8) : readInt data 0 width ty.isSigned = none ↔
        data.length < width := readInt_eq_none
    simp only [compareNext, Needle.compare, ScanValueType.compareChange, hfixed, hint,
      Option.bind_some, Bool.false_eq_true, if_false, ← hshort]
    cases hfresh : readInt fresh 0 width ty.isSigned with
    | none => simp
    | some c =>
      cases hcaptured : readInt captured 0 width ty.isSigned with
      | none => simpa using compareInt_change_none h c needle upper
      | some q => simpa using compareInt_change h c needle upper (some q)
  | F needle width upper =>
    obtain ⟨hfloat, hfixed⟩ := fits
    have hshort (data : List UInt8) : readFloat data 0 width = none ↔ data.length < width := by
      refine readFloat_eq_none ?_
      cases ty <;> simp_all [ScanValueType.isFloat, ScanValueType.fixedWidth]
    simp only [compareNext, Needle.compare, ScanValueType.compareChange, hfixed, hfloat,
      Option.bind_some, if_true, ← hshort]
    cases hfresh : readFloat fresh 0 width with
    | none => simp
    | some c =>
      cases hcaptured : readFloat captured 0 width with
      | none => simpa using compareFloat_change_none h c needle upper _
      | some q => simpa using compareFloat_change h c needle upper (some q) _
  | Bytes pattern =>
    obtain ⟨rfl, _⟩ := fits
    exact absurd rfl hwidth
  | Str needle =>
    cases ty <;> first | exact absurd rfl hwidth | cases fits

/-- A pattern or a text matches no change. -/
theorem Needle.compareNext_change_variable (n : Needle) (h : compare.isChange = true)
    (hwidth : n.ty.fixedWidth = none) (fresh captured : List UInt8) :
    n.compareNext fresh 0 compare captured = false := by
  obtain ⟨ty, value, tolerance, fits⟩ := n
  dsimp only at hwidth
  cases value with
  | I needle width upper => simp [fits.2] at hwidth
  | F needle width upper => simp [fits.2] at hwidth
  | Bytes pattern => rcases ScanCompareType.isChange_cases h with rfl | rfl | rfl | rfl <;> rfl
  | Str needle =>
    simp only [compareNext, Needle.compare]
    split
    · rfl
    · rcases ScanCompareType.isChange_cases h with rfl | rfl | rfl | rfl <;> rfl

namespace NextPass
variable {σ : Type}

/-- A pass depends on its needle only through what it compares. -/
theorem refine_needle (p : NextPass σ) (needle : Option Needle)
    (hmatched : ∀ fresh captured, { p with needle }.matched fresh captured = p.matched fresh captured)
    (i : ℕ) (rows : List ScanResult) (r : Refine σ) :
    { p with needle }.refine i rows r = p.refine i rows r := by
  have htick (i : ℕ) (r : Refine σ) : { p with needle }.tick i r = p.tick i r := rfl
  have hone (prev : ScanResult) (r : Refine σ) :
      { p with needle }.refineOne prev r = p.refineOne prev r := by
    unfold refineOne
    dsimp only
    rcases p.target.read r.world prev.address p.stride with ⟨_ | buf, world⟩
    · rfl
    · simp only [hmatched]
  induction rows generalizing i r with
  | nil => rfl
  | cons prev rest ih => simp only [refine, htick, hone, ih]

/-- A pass that matches nothing adds no row. -/
theorem kept_of_unmatched {p : NextPass σ} (h : ∀ fresh captured, p.matched fresh captured = false)
    (prev : ScanResult) (answer : Except Error (List UInt8)) : p.kept prev answer = none := by
  simp [kept, h]

end NextPass

namespace Scanner
variable {σ : Type} (s : Scanner) (target : ScanTarget σ) (observer : ScanObserver σ)

/-- A change-relative comparison needs no needle, and takes one of the scanner's type. -/
theorem validateNeedle_change (h : compare.isChange = true) {needle : Option Needle}
    (hty : ∀ n, needle = some n → n.valueType = s.valueType) :
    s.validateNeedle compare needle = .ok () := by
  cases needle with
  | none =>
    have hneedle : compare.needsNeedle = false := by
      simp only [ScanCompareType.isChange, Bool.and_eq_true, Bool.not_eq_true'] at h
      exact h.2
    simp [validateNeedle, hneedle]
  | some n => simp [validateNeedle, hty n rfl]

/-- A next scan with a needle of another type does not succeed. -/
theorem valueType_of_nextScanWith {target : ScanTarget σ} {observer : ScanObserver σ} {n : Needle}
    {world world' : σ} {s' : Scanner}
    (h : s.nextScanWith target observer compare (some n) world = (.ok (), s', world')) :
    n.valueType = s.valueType := by
  by_contra hne
  have hcheck : ∃ e, s.checkNext compare (some n) = .error e := by
    unfold checkNext
    split
    · exact ⟨_, rfl⟩
    · split
      · exact ⟨_, rfl⟩
      · simp [validateNeedle, hne]
  obtain ⟨e, hcheck⟩ := hcheck
  simp [nextScanWith, hcheck] at h

/-- Which results a change-relative next scan keeps. -/
structure KeepsChanges (compare : ScanCompareType) (world : σ) : Prop where
  /-- Over a type of fixed width, those that changed as asked between the captured value and the one
  read now. -/
  kept : ∀ width, s.valueType.fixedWidth = some width → ∀ s' world',
    s.nextScanWith target observer compare none world = (.ok (), s', world') →
      s'.results.rows = (s.results.rows.zip
        (s.rereads target observer compare none world)).filterMap fun read =>
          (wholeValue width read.2).bind fun fresh =>
            if s.valueType.compareChange compare fresh read.1.current then
              some ⟨read.1.address, fresh, fixed read.1.current width⟩
            else none
  /-- A needle of the type and the default tolerance makes no difference. -/
  needle : ∀ width, s.valueType.fixedWidth = some width → ∀ n : Needle,
    n.valueType = s.valueType → n.tolerance = defaultFloatTolerance →
      s.nextScanWith target observer compare (some n) world =
        s.nextScanWith target observer compare none world
  /-- Over a type of variable width a scan without a needle is refused. -/
  refused : s.valueType.fixedWidth = none → s.hasScanned = true →
    s.nextScanWith target observer compare none world =
      (.error (.error (.noStride s.valueType)), s, world)
  /-- And one with a needle keeps nothing. -/
  unmatched : s.valueType.fixedWidth = none → ∀ (n : Needle) s' world',
    s.nextScanWith target observer compare (some n) world = (.ok (), s', world') →
      s'.results.rows = []

theorem nextScanWith_change (compare : ScanCompareType) (hchange : compare.isChange = true)
    (world : σ) : s.KeepsChanges target observer compare world := by
  refine ⟨fun width hwidth s' world' h => ?_, fun width hwidth n hty htol => ?_,
    fun hwidth hscanned => ?_, fun hwidth n s' world' h => ?_⟩
  · have hrows := ((s.nextScanWith_refines target observer compare none world).1 s' world' h).2.2.1
    have hstride : s.stride none = width := by simp [stride, hwidth]
    rw [hrows]
    simp only [NextPass.kept, NextPass.matched, nextPass, hstride]
  · have hstride : s.stride (some n) = s.stride none := by
      have hfixed : n.valueType.fixedWidth = some width := by rw [hty, hwidth]
      simp [stride, hwidth, n.stride_of_fixedWidth hfixed]
    have hcheck : s.checkNext compare (some n) = s.checkNext compare none := by
      simp only [checkNext, hstride]
      rw [s.validateNeedle_change hchange (by simpa using hty),
        s.validateNeedle_change hchange (by simp)]
    have hpass : s.nextPass target observer compare (some n) =
        { s.nextPass target observer compare none with needle := some n } := by
      simp only [nextPass, hstride]
    have hmatched (fresh captured : List UInt8) :
        { s.nextPass target observer compare none with needle := some n }.matched fresh captured =
          (s.nextPass target observer compare none).matched fresh captured := by
      have hsame := n.compareNext_change hchange (by
        show n.valueType.fixedWidth ≠ none
        simp [hty, hwidth]) htol fresh captured
      exact hsame.trans (congrArg (fun ty => ScanValueType.compareChange ty compare fresh captured) hty)
    simp only [nextScanWith, hcheck, hpass, hstride, NextPass.refine_needle _ _ hmatched]
  · have hbaseline : compare.isBaseline = false := by
      rcases ScanCompareType.isChange_cases hchange with rfl | rfl | rfl | rfl <;> rfl
    have hstride : s.stride none = 0 := by simp [stride, hwidth]
    simp [nextScanWith, checkNext, hscanned, hbaseline, s.validateNeedle_change hchange, hstride]
  · have hrows := ((s.nextScanWith_refines target observer compare (some n) world).1 s' world' h).2.2.1
    have hty := s.valueType_of_nextScanWith h
    have hnone (fresh captured : List UInt8) :
        (s.nextPass target observer compare (some n)).matched fresh captured = false :=
      n.compareNext_change_variable hchange (by show n.valueType.fixedWidth = none; rw [hty, hwidth])
        fresh captured
    rw [hrows]
    simp only [NextPass.kept_of_unmatched hnone, List.filterMap_none]

/-- After a scan for a byte of text that has since become another. -/
theorem nextScanWith_change_text :
    let needle : Needle := ⟨.stringUtf8, .Str [65], defaultFloatTolerance, rfl⟩
    let s := ((new .stringUtf8).firstScan ((MockTarget.new 0x1000 [65]).target Unit) .exact
      (some needle) ()).2.1
    s.KeepsChanges ((MockTarget.new 0x1000 [66]).target Unit) (noObserver Unit) .changed () :=
  nextScanWith_change _ _ _ .changed rfl ()

/-- The text has changed, and a next scan without a needle does not say so: it is refused. -/
theorem nextScan_refuses_text :
    let needle : Needle := ⟨.stringUtf8, .Str [65], defaultFloatTolerance, rfl⟩
    let s := ((new .stringUtf8).firstScan ((MockTarget.new 0x1000 [65]).target Unit) .exact
      (some needle) ()).2.1
    s.results.rows = [⟨0x1000, [65], [65]⟩] ∧
      s.valueType.compareChange .changed [66] [65] = true ∧
      (s.nextScan ((MockTarget.new 0x1000 [66]).target Unit) .changed none ()).1 =
        .error (.error (.noStride .stringUtf8)) := by
  decide +kernel

end Scanner

end Nemclass.Scan
