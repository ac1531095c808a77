import Nemclass.Scan.Scanner

/-! Runs of a scan session: any sequence of its calls, each with a target, an
observer and a world of its own. What a failed call may have changed: a failed
next scan nothing, a failed first scan only what it assigns before its walk. -/
namespace Nemclass.Scan

/-- One call of a session; the scans carry the target as it is when they are made. -/
inductive Call (σ : Type) where
  | firstScan (target : ScanTarget σ) (observer : ScanObserver σ) (compare : ScanCompareType)
      (needle : Option Needle) (world : σ)
  | nextScan (target : ScanTarget σ) (observer : ScanObserver σ) (compare : ScanCompareType)
      (needle : Option Needle) (world : σ)
  | undo
  | setValueType (ty : ScanValueType)
  | setRegionFilter (f : RegionFilter)
  | setAlignment (alignment : ℕ)

/-- The observables of a session. -/
structure Observables where
  results : ScanResults
  canUndo : Bool
  hasScanned : Bool
  lastScanStats : ScanStats
  resultsTruncated : Bool
  scannedRegionCount : ℕ
deriving DecidableEq

namespace Scanner

def observables (s : Scanner) : Observables where
  results := s.results
  canUndo := s.canUndo
  hasScanned := s.hasScanned
  lastScanStats := s.lastStats
  resultsTruncated := s.truncated
  scannedRegionCount := s.scannedRegions

/-- Entering a walk shows in the two fields it assigns. -/
theorem observables_enterWalk (s : Scanner) (regions : List Region) :
    (s.enterWalk regions).observables = s.observables ↔
      regions.length = s.scannedRegions ∧ s.truncated = false := by
  have hrest : (s.enterWalk regions).observables =
      { s.observables with resultsTruncated := false, scannedRegionCount := regions.length } := rfl
  rw [hrest]
  constructor
  · intro h
    have htruncated := congrArg Observables.resultsTruncated h
    have hcount := congrArg Observables.scannedRegionCount h
    exact ⟨hcount, htruncated.symm⟩
  · rintro ⟨hcount, htruncated⟩
    simp only [observables, hcount, htruncated]

variable {σ : Type}

/-- A failed first scan left the session alone, or entered its walk. -/
theorem firstScanWith_fails (s s' : Scanner) {target : ScanTarget σ} {observer : ScanObserver σ}
    {compare : ScanCompareType} {needle : Option Needle} {world world' : σ} {f : Failure}
    (h : s.firstScanWith target observer compare needle world = (.error f, s', world')) :
    (s' = s ∧ ((∃ e, s.checkFirst compare needle = .error e) ∨
        ∃ e, (target.regions world).1 = .error e)) ∨
      ∃ all, s.checkFirst compare needle = .ok () ∧ (target.regions world).1 = .ok all ∧
        s' = s.enterWalk (s.regionFilter.apply all) := by
  unfold firstScanWith at h
  cases hcheck : s.checkFirst compare needle with
  | error e =>
    simp only [hcheck, Prod.mk.injEq] at h
    exact .inl ⟨h.2.1.symm, .inl ⟨e, rfl⟩⟩
  | ok =>
    cases hregions : target.regions world with
    | mk answer world₁ =>
      cases answer with
      | error e =>
        simp only [hcheck, hregions, Prod.mk.injEq] at h
        exact .inl ⟨h.2.1.symm, .inr ⟨e, rfl⟩⟩
      | ok all =>
        refine .inr ⟨all, rfl, rfl, ?_⟩
        simp only [hcheck, hregions] at h
        split at h
        · simp only [Prod.mk.injEq] at h
          exact h.2.1.symm
        · split at h
          · simp only [Prod.mk.injEq] at h
            exact h.2.1.symm
          · simp at h

/-- A failed next scan leaves the session alone. -/
theorem nextScanWith_fails (s s' : Scanner) {target : ScanTarget σ} {observer : ScanObserver σ}
    {compare : ScanCompareType} {needle : Option Needle} {world world' : σ} {f : Failure}
    (h : s.nextScanWith target observer compare needle world = (.error f, s', world')) :
    s' = s := by
  unfold nextScanWith at h
  split at h
  · simp only [Prod.mk.injEq] at h
    exact h.2.1.symm
  · dsimp only at h
    split at h
    · simp only [Prod.mk.injEq] at h
      exact h.2.1.symm
    · split at h
      · simp only [Prod.mk.injEq] at h
        exact h.2.1.symm
      · simp at h

end Scanner

namespace Call
variable {σ : Type}

/-- The verdict of a call and the session it leaves; only the scans can fail. -/
def run (s : Scanner) : Call σ → Except Failure Unit × Scanner
  | firstScan target observer compare needle world =>
    let (verdict, s', _) := s.firstScanWith target observer compare needle world
    (verdict, s')
  | nextScan target observer compare needle world =>
    let (verdict, s', _) := s.nextScanWith target observer compare needle world
    (verdict, s')
  | undo => (.ok (), s.undo.2)
  | setValueType ty => (.ok (), (s.setValueType ty).2)
  | setRegionFilter f => (.ok (), s.setRegionFilter f)
  | setAlignment alignment => (.ok (), s.setAlignment alignment)

/-- The call returns an error. -/
def Fails (s : Scanner) (c : Call σ) : Prop := ∃ e, (c.run s).1 = .error (.error e)

/-- A failure of the call cannot show: it is decided before the walk is entered, or the walk's two
assignments change nothing. -/
def Harmless (s : Scanner) : Call σ → Prop
  | firstScan target _ compare needle world =>
    (∃ e, s.checkFirst compare needle = .error e) ∨
      match (target.regions world).1 with
      | .error _ => True
      | .ok all => (s.regionFilter.apply all).length = s.scannedRegions ∧ s.truncated = false
  | _ => True

/-- The sessions a run of calls goes through, each with the call made in it. -/
def steps (s : Scanner) : List (Call σ) → List (Scanner × Call σ)
  | [] => []
  | c :: cs => (s, c) :: steps (c.run s).2 cs

theorem observables_of_fails {s : Scanner} {c : Call σ} (h : c.Fails s) :
    (c.run s).2.observables = s.observables ↔ c.Harmless s := by
  obtain ⟨e, he⟩ := h
  cases c with
  | firstScan target observer compare needle world =>
    have hrun : s.firstScanWith target observer compare needle world =
        (.error (.error e), (s.firstScanWith target observer compare needle world).2) :=
      Prod.ext he rfl
    rcases s.firstScanWith_fails _ hrun with ⟨hs, hcause⟩ | ⟨all, hcheck, hregions, hs⟩
    · have hkept : ((firstScan target observer compare needle world).run s).2 = s := hs
      rw [hkept]
      refine iff_of_true rfl ?_
      rcases hcause with ⟨e, he⟩ | ⟨e, he⟩
      · exact .inl ⟨e, he⟩
      · exact .inr (by rw [he]; trivial)
    · have hentered : ((firstScan target observer compare needle world).run s).2 =
          s.enterWalk (s.regionFilter.apply all) := hs
      rw [hentered, s.observables_enterWalk]
      simp [Harmless, hcheck, hregions]
  | nextScan target observer compare needle world =>
    have hrun : s.nextScanWith target observer compare needle world =
        (.error (.error e), (s.nextScanWith target observer compare needle world).2) :=
      Prod.ext he rfl
    have hkept : ((nextScan target observer compare needle world).run s).2 = s :=
      s.nextScanWith_fails _ hrun
    rw [hkept]
    exact iff_of_true rfl trivial
  | undo | setValueType | setRegionFilter | setAlignment => simp [run] at he

/-- In every run, the failed calls that leave the observables alone are the harmless ones. -/
theorem failedCalls_keep_observables (ty : ScanValueType) (limit : ℕ) (calls : List (Call σ)) :
    ∀ made ∈ steps ((Scanner.new ty).withResultLimit limit) calls, made.2.Fails made.1 →
      ((made.2.run made.1).2.observables = made.1.observables ↔ made.2.Harmless made.1) := by
  intro made _ hfails
  exact observables_of_fails hfails

/-- A first scan of a two-byte target. -/
def liveScan : Call Unit :=
  .firstScan ((MockTarget.new 0x1000 [7, 7]).target Unit) (noObserver Unit) .unknown none ()

/-- The same scan when the process dies after its regions were listed. -/
def deadScan : Call Unit :=
  .firstScan
    { regions := fun world => (.ok [⟨0x1000, 2⟩], world)
      read := fun world _ _ => (.error .processDied, world) }
    (noObserver Unit) .unknown none ()

/-- The results stay a cut-off prefix, and are no longer reported as one. -/
theorem deadScan_changes_observables :
    let s := (liveScan.run ((Scanner.new .u8).withResultLimit 1)).2
    let s' := (deadScan.run s).2
    (deadScan.run s).1 = .error (.error (.target .processDied)) ∧
      s.observables.resultsTruncated = true ∧ s'.observables.resultsTruncated = false ∧
      s'.observables.results = s.observables.results ∧ s'.observables ≠ s.observables := by
  decide +kernel

theorem failedCalls_keep_observables_deadScan :
    let s := (liveScan.run ((Scanner.new .u8).withResultLimit 1)).2
    (deadScan.run s).2.observables = s.observables ↔ deadScan.Harmless s :=
  failedCalls_keep_observables .u8 1 [liveScan, deadScan] (_, deadScan)
    (List.mem_cons_of_mem _ List.mem_cons_self) ⟨.target .processDied, by decide +kernel⟩

end Call

end Nemclass.Scan
