import Nemclass.Scan.History
import Nemclass.Ui.ScannerPanel

/-! Runs of the scanner panel. The panel shows the session that its scanner is in, as long as the
job in flight is left alone and sessions end under a compare that a first scan has as well. -/
namespace Nemclass.Ui
open Scan

namespace ScanTask
variable {σ : Type}

/-- What a worker may send for a task. -/
def Answers (task : ScanTask) : ScanOutcome → Prop
  | .fatal => False
  | .done scanner (.ok snapshot) =>
    scanner.valueType = task.valueType ∧ snapshot = scanner.results.rows
  | .done scanner (.error _) =>
    match task with
    | .first valueType .. => scanner.valueType = valueType ∧ scanner.hasScanned = false
    | .next before .. => scanner = before

theorem outcome_eq_some {verdict : Except Failure Unit} {scanner : Scanner} {world : σ}
    {o : ScanOutcome} (h : outcome (verdict, scanner, world) = some o) :
    verdict = .ok () ∧ o = .done scanner (.ok scanner.results.rows) ∨
      ∃ e, verdict = .error (.error e) ∧ o = .done scanner (.error e) := by
  match verdict with
  | .ok () => exact .inl ⟨rfl, (Option.some.inj h).symm⟩
  | .error (.error e) => exact .inr ⟨e, rfl, (Option.some.inj h).symm⟩
  | .error .overflow => cases h

theorem run_answers {task : ScanTask} {target : ScanTarget σ} {observer : ScanObserver σ}
    {world : σ} {o : ScanOutcome} (h : task.run target observer world = some o) :
    task.Answers o := by
  cases task with
  | first valueType regionFilter alignment compare needle =>
    rw [run] at h
    generalize hfresh :
      ((Scanner.new valueType).setRegionFilter regionFilter).setAlignment alignment = fresh at h
    have htype : fresh.valueType = valueType := by rw [← hfresh]; rfl
    have hscanned : fresh.hasScanned = false := by rw [← hfresh]; rfl
    rcases hscan : fresh.firstScanWith target observer compare needle world with ⟨verdict, s, w⟩
    rw [hscan] at h
    rcases outcome_eq_some h with ⟨rfl, rfl⟩ | ⟨e, rfl, rfl⟩
    · obtain ⟨all, total, truncated, walk, -, -, -, -, rfl⟩ := Scanner.firstScanWith_ok hscan
      exact ⟨htype, rfl⟩
    · rcases fresh.firstScanWith_fails s hscan with ⟨rfl, -⟩ | ⟨all, -, -, rfl⟩
      · exact ⟨htype, hscanned⟩
      · exact ⟨htype, hscanned⟩
  | next before compare needle =>
    rw [run] at h
    rcases hscan : before.nextScanWith target observer compare needle world with ⟨verdict, s, w⟩
    rw [hscan] at h
    rcases outcome_eq_some h with ⟨rfl, rfl⟩ | ⟨e, rfl, rfl⟩
    · obtain ⟨r, -, -, rfl⟩ := Scanner.nextScanWith_ok hscan
      exact ⟨rfl, rfl⟩
    · exact before.nextScanWith_fails s hscan

end ScanTask

namespace ScannerPanel
variable {σ : Type}

/-- The panel's type is that of the scanner, and its rows are the scanner's. -/
def Shows (p : ScannerPanel) (scanner : Scanner) : Prop :=
  p.valueType = scanner.valueType ∧ p.resultSnapshot = scanner.results.rows

/-- While no job is in flight, the panel shows the session of the scanner that it holds. -/
def InStep (p : ScannerPanel) : Prop := p.scanning = false → ∀ scanner ∈ p.scanner, p.Shows scanner

/-- The selected compare is one that the combo offers. -/
def Offered (p : ScannerPanel) : Prop := p.compare ∈ availableCompares p.hasScan

/-- The job in flight still belongs to the session that the panel shows. -/
structure JobFits (p : ScannerPanel) (job : ScanJob) : Prop where
  number : job.id < p.started
  valueType : p.valueType = job.task.valueType
  next : ∀ scanner compare needle, job.task = .next scanner compare needle →
    p.scanner = none ∧ p.Shows scanner
  sent : ∀ o, job.rx = .sent o → job.task.Answers o

structure Sound (p : ScannerPanel) : Prop where
  session : ∀ scanner ∈ p.scanner, p.Shows scanner
  offered : p.Offered
  job : ∀ job ∈ p.scanJob, p.JobFits job

/-- A job in flight is left alone: its value type stays, and no session is begun. A next scan starts
and a process is detached under a compare that a first scan has as well. -/
def Orderly (p : ScannerPanel) : Event σ → Prop
  | .chooseValueType valueType => ∀ job ∈ p.scanJob, job.task.valueType = valueType
  | .newScan => p.scanning = false
  | .nextScan typed =>
    (p.compare.needsNeedle → (p.parseNeedle typed).isSome) → p.compare ∈ firstScanCompares
  | .detach => p.compare ∈ firstScanCompares
  | _ => True

variable {p : ScannerPanel}

theorem new_sound : ({} : ScannerPanel).Sound where
  session _ h := nomatch h
  offered := .head _
  job _ h := nomatch h

/-- A job that was just started fits when its task does. -/
theorem Sound.spawn (h : p.Sound) {task : ScanTask} (htype : p.valueType = task.valueType)
    (hnext : ∀ scanner compare needle, task = .next scanner compare needle →
      p.scanner = none ∧ p.Shows scanner) : (p.spawn task).Sound where
  session := h.session
  offered := h.offered
  job job hjob := by
    obtain rfl := Option.some.inj hjob
    exact ⟨Nat.lt_succ_self _, htype, hnext, (fun _ ho => nomatch ho)⟩

theorem Sound.doFirstScan (h : p.Sound) (typed : Option Needle) (filter : Option RegionFilter) :
    (p.doFirstScan typed filter).Sound := by
  unfold ScannerPanel.doFirstScan
  split
  · exact h
  · split
    · exact h
    · cases filter with
      | none => exact h
      | some regionFilter => exact h.spawn rfl fun _ _ _ ht => nomatch ht

theorem Sound.doNextScan (h : p.Sound) (typed : Option Needle) (hfirst :
      (p.compare.needsNeedle → (p.parseNeedle typed).isSome) → p.compare ∈ firstScanCompares) :
    (p.doNextScan typed).Sound := by
  unfold ScannerPanel.doNextScan
  split
  · exact h
  · split
    · exact h
    · rename_i hneedle
      cases hscanner : p.scanner with
      | none => exact h
      | some scanner =>
        have hshows := h.session scanner hscanner
        have hoffered : p.compare ∈ firstScanCompares := hfirst fun hneeds => by
          rw [Option.isSome_iff_ne_none]
          exact fun hnone => hneedle ⟨hneeds, by rw [hnone]; rfl⟩
        have hmoved : ({ p with scanner := none } : ScannerPanel).Sound := by
          refine ⟨(fun _ hs => nomatch hs), hoffered, fun job hjob => ?_⟩
          have hfits := h.job job hjob
          exact ⟨hfits.number, hfits.valueType, fun s c n ht => ⟨rfl, (hfits.next s c n ht).2⟩,
            hfits.sent⟩
        refine hmoved.spawn hshows.1 fun s c n ht => ?_
        cases ht
        exact ⟨rfl, hshows⟩

/-- While the panel holds a scanner, the job in flight is no next scan, so it fits whatever the
results are. -/
theorem Sound.withResults (h : p.Sound) {scanner undone : Scanner} (hscanner : p.scanner = some scanner)
    {rows : List ScanResult} (htype : undone.valueType = scanner.valueType)
    (hrows : rows = undone.results.rows) :
    ({ p with scanner := some undone, resultSnapshot := rows } : ScannerPanel).Sound := by
  have hoffered := h.offered
  unfold Offered hasScan at hoffered
  rw [hscanner] at hoffered
  refine ⟨fun s hs => ?_, hoffered, fun job hmem => ?_⟩
  · cases hs
    exact ⟨(h.session scanner hscanner).1.trans htype.symm, hrows⟩
  · have hfits := h.job job hmem
    refine ⟨hfits.number, hfits.valueType, fun s c n ht => ?_, hfits.sent⟩
    exact nomatch hscanner.symm.trans (hfits.next s c n ht).1

theorem Sound.doUndo (h : p.Sound) : p.doUndo.Sound := by
  unfold ScannerPanel.doUndo
  cases hscanner : p.scanner with
  | none => exact h
  | some scanner =>
    have hshows := h.session scanner hscanner
    dsimp only
    by_cases hundo : scanner.canUndo
    · rw [Scanner.undo, if_pos hundo]
      exact h.withResults hscanner rfl rfl
    · rw [Scanner.undo, if_neg hundo]
      exact h.withResults hscanner rfl hshows.2

theorem newScan_sound (hidle : p.scanning = false) : p.newScan.Sound where
  session _ hs := nomatch hs
  offered := snapCompare_mem p.compare false
  job job hjob := by
    have hsome : p.scanJob = some job := hjob
    rw [scanning, hsome] at hidle
    cases hidle

theorem onDetach_sound (hfirst : p.compare ∈ firstScanCompares) : p.onDetach.Sound :=
  ⟨(fun _ hs => nomatch hs), hfirst, (fun _ hjob => nomatch hjob)⟩

/-- A worker's answer ends the job and brings its session back. -/
theorem receive_sound {job : ScanJob} (hfits : p.JobFits job) (hidle : p.scanJob = none)
    {o : ScanOutcome} (ho : job.task.Answers o) : (p.receive o).Sound := by
  have hjobs : ∀ job ∈ p.scanJob, False := by
    rw [hidle]
    exact fun _ hjob => nomatch hjob
  match o with
  | .fatal => exact ho.elim
  | .done scanner (.ok snapshot) =>
    refine ⟨fun s hs => ?_, snapCompare_mem p.compare true, fun job hjob => (hjobs job hjob).elim⟩
    cases hs
    exact ⟨hfits.valueType.trans ho.1.symm, ho.2⟩
  | .done scanner (.error e) =>
    have hdropped : ({ p with
        scanner := none
        resultSnapshot := []
        compare := snapCompare (snapCompare p.compare true) false } : ScannerPanel).Sound :=
      ⟨(fun _ hs => nomatch hs), snapCompare_mem _ false, fun job hjob => (hjobs job hjob).elim⟩
    show (if scanner.hasScanned then _ else _ : ScannerPanel).Sound
    cases htask : job.task with
    | first valueType regionFilter alignment compare needle =>
      rw [htask] at ho
      rw [if_neg (by rw [ho.2]; decide)]
      exact hdropped
    | next before compare needle =>
      rw [htask] at ho
      obtain rfl : scanner = before := ho
      split
      · refine ⟨fun s hs => ?_, snapCompare_mem p.compare true, fun job hjob => (hjobs job hjob).elim⟩
        cases hs
        exact (hfits.next _ _ _ htask).2
      · exact hdropped

theorem Sound.poll (h : p.Sound) : p.poll.2.Sound := by
  have hnone : ({ p with scanJob := none } : ScannerPanel).Sound :=
    ⟨h.session, h.offered, (fun _ hjob => nomatch hjob)⟩
  unfold ScannerPanel.poll ScannerPanel.pollJob
  cases hjob : p.scanJob with
  | none => exact h
  | some job =>
    have hfits := h.job job hjob
    dsimp only
    cases hrx : job.rx with
    | empty => exact h
    | disconnected => exact hnone
    | sent o =>
      have hkept : ({ p with scanJob := none } : ScannerPanel).JobFits job :=
        ⟨hfits.number, hfits.valueType, hfits.next, hfits.sent⟩
      exact receive_sound hkept rfl (hfits.sent o hrx)

theorem Sound.work (h : p.Sound) (target : ScanTarget σ) (observer : ScanObserver σ) (world : σ) :
    (p.work target observer world).Sound := by
  refine ⟨h.session, h.offered, fun job hjob => ?_⟩
  obtain ⟨before, hbefore, rfl⟩ := Option.map_eq_some_iff.mp hjob
  have hfits := h.job before hbefore
  split
  · refine ⟨hfits.number, hfits.valueType, hfits.next, fun o ho => ?_⟩
    cases hrun : before.task.run target observer world with
    | none =>
      rw [hrun] at ho
      cases ho
    | some o' =>
      rw [hrun] at ho
      cases ho
      exact ScanTask.run_answers hrun
  · exact ⟨hfits.number, hfits.valueType, hfits.next, hfits.sent⟩

theorem Sound.cancel (h : p.Sound) : p.cancel.Sound := by
  refine ⟨h.session, h.offered, fun job hjob => ?_⟩
  obtain ⟨before, hbefore, rfl⟩ := Option.map_eq_some_iff.mp hjob
  have hfits := h.job before hbefore
  exact ⟨hfits.number, hfits.valueType, hfits.next, hfits.sent⟩

/-- With no scanner and no other job, the type is free to choose. -/
theorem Sound.chooseValueType (h : p.Sound) (hidle : ¬ p.hasScan) {valueType : ScanValueType}
    (hjob : ∀ job ∈ p.scanJob, job.task.valueType = valueType) :
    ({ p with valueType } : ScannerPanel).Sound := by
  have hnone : p.scanner = none := by
    cases hscanner : p.scanner with
    | none => rfl
    | some scanner => exact absurd (by rw [hasScan, hscanner]; rfl) hidle
  refine ⟨fun s hs => ?_, h.offered, fun job hmem => ?_⟩
  · exact nomatch hnone.symm.trans hs
  · have hfits := h.job job hmem
    have htype := hjob job hmem
    refine ⟨hfits.number, htype.symm, fun s c n ht => ⟨hnone, ?_, (hfits.next s c n ht).2.2⟩,
      hfits.sent⟩
    rw [ht] at htype
    exact htype.symm

theorem Sound.step (h : p.Sound) {e : Event σ} (henabled : p.Enabled e) (horderly : p.Orderly e) :
    (p.step e).2.Sound := by
  cases e with
  | «show» | chooseFastScan => exact ⟨h.session, h.offered, fun job hjob =>
      have hfits := h.job job hjob
      ⟨hfits.number, hfits.valueType, hfits.next, hfits.sent⟩⟩
  | chooseCompare compare => exact ⟨h.session, henabled.2, fun job hjob =>
      have hfits := h.job job hjob
      ⟨hfits.number, hfits.valueType, hfits.next, hfits.sent⟩⟩
  | chooseValueType valueType => exact h.chooseValueType henabled.2 horderly
  | firstScan typed filter => exact h.doFirstScan typed filter
  | nextScan typed => exact h.doNextScan typed horderly
  | stop => exact h.cancel
  | undo => exact h.doUndo
  | newScan => exact newScan_sound horderly
  | detach => exact onDetach_sound horderly
  | poll => exact h.poll
  | work target observer world => exact h.work target observer world

/-- The job in flight is none of the first `k`. -/
def Since (k : ℕ) (p : ScannerPanel) : Prop := k ≤ p.started ∧ ∀ job ∈ p.scanJob, k ≤ job.id

theorem Since.spawn {k : ℕ} (h : Since k p) (task : ScanTask) : Since k (p.spawn task) := by
  refine ⟨Nat.le_succ_of_le h.1, fun job hjob => ?_⟩
  obtain rfl := Option.some.inj hjob
  exact h.1

theorem receive_scanJob (o : ScanOutcome) :
    (p.receive o).scanJob = p.scanJob ∧ (p.receive o).started = p.started := by
  unfold receive
  split
  · exact ⟨rfl, rfl⟩
  · dsimp only
    split
    · exact ⟨rfl, rfl⟩
    · split <;> exact ⟨rfl, rfl⟩

/-- Jobs are numbered in order, so a job in flight stays a later one. -/
theorem Since.step {k : ℕ} (h : Since k p) (e : Event σ) : Since k (p.step e).2 := by
  have hnone (q : ScannerPanel) (hjob : q.scanJob = none) (hstarted : q.started = p.started) :
      Since k q := ⟨hstarted ▸ h.1, fun job hmem => by rw [hjob] at hmem; cases hmem⟩
  cases e with
  | «show» | chooseValueType | chooseCompare | chooseFastScan | newScan => exact h
  | firstScan typed filter =>
    show Since k (p.doFirstScan typed filter)
    unfold ScannerPanel.doFirstScan
    split
    · exact h
    · split
      · exact h
      · cases filter with
        | none => exact h
        | some regionFilter => exact h.spawn _
  | nextScan typed =>
    show Since k (p.doNextScan typed)
    unfold ScannerPanel.doNextScan
    split
    · exact h
    · split
      · exact h
      · cases p.scanner with
        | none => exact h
        | some scanner => exact Since.spawn (p := { p with scanner := none }) h _
  | undo =>
    show Since k p.doUndo
    unfold ScannerPanel.doUndo
    split
    · exact h
    · split <;> exact h
  | detach => exact hnone p.onDetach rfl rfl
  | poll =>
    show Since k p.poll.2
    unfold ScannerPanel.poll ScannerPanel.pollJob
    cases hjob : p.scanJob with
    | none => exact h
    | some job =>
      dsimp only
      cases job.rx with
      | empty => exact h
      | disconnected => exact hnone _ rfl rfl
      | sent o =>
        obtain ⟨hsame, hstarted⟩ := receive_scanJob (p := { p with scanJob := none }) o
        exact hnone _ hsame hstarted
  | stop | work =>
    refine ⟨h.1, fun job hjob => ?_⟩
    obtain ⟨before, hbefore, rfl⟩ := Option.map_eq_some_iff.mp hjob
    have hid := h.2 before hbefore
    first
      | exact hid
      | split <;> exact hid

/-- A poll brings back the job in flight. -/
theorem Since.poll_id {k id : ℕ} (h : Since k p) (hid : p.poll.1 = some id) : k ≤ id := by
  unfold ScannerPanel.poll ScannerPanel.pollJob at hid
  cases hjob : p.scanJob with
  | none =>
    rw [hjob] at hid
    cases hid
  | some job =>
    rw [hjob] at hid
    dsimp only at hid
    cases hrx : job.rx with
    | sent o =>
      rw [hrx] at hid
      cases hid
      exact h.2 job hjob
    | empty | disconnected =>
      rw [hrx] at hid
      cases hid

/-- New Scan and detaching end a session. -/
def Event.EndsSession : Event σ → Prop
  | .newScan | .detach => True
  | _ => False

/-- The next poll brings back one of the first `k` jobs, and a session or results with it. -/
def Revives (p : ScannerPanel) (k : ℕ) : Prop :=
  ∃ id < k, p.poll.1 = some id ∧
    ¬ (p.poll.2.scanner = p.scanner ∧ p.poll.2.resultSnapshot = p.resultSnapshot)

/-- In every run of orderly events the panel stays in step with its session, the selected compare
is one of those offered, and no job that was started before brings an ended session back. -/
theorem panel_in_step {events : List (Event σ)}
    (h : Trace.Along (fun p e => p.Enabled e ∧ p.Orderly e) step {} events) :
    (∀ earlier later, events = earlier ++ later →
      (Trace.final step {} earlier).InStep ∧ (Trace.final step {} earlier).Offered) ∧
    ∀ earlier e middle later, events = earlier ++ e :: (middle ++ .poll :: later) → e.EndsSession →
      ¬ (Trace.final step {} (earlier ++ e :: middle)).Revives
        (Trace.final step {} earlier).started := by
  have hsound {earlier : List (Event σ)}
      (hrun : Trace.Along (fun p e => p.Enabled e ∧ p.Orderly e) step {} earlier) :
      (Trace.final step {} earlier).Sound :=
    hrun.keeps new_sound fun p e hp hgood => hp.step hgood.1 hgood.2
  constructor
  · rintro earlier later rfl
    have hp := hsound ((Trace.along_append earlier later).mp h).1
    exact ⟨fun _ => hp.session, hp.offered⟩
  · rintro earlier e middle later rfl hends
    obtain ⟨-, hgood, -⟩ := (Trace.along_append earlier _).mp h
    set p := Trace.final step {} earlier
    have hended : Since p.started (p.step e).2 := by
      cases e with
      | newScan =>
        have hidle : p.scanJob = none := by
          have := hgood.2
          rwa [Orderly, scanning, Option.isSome_eq_false_iff, Option.isNone_iff_eq_none] at this
        exact ⟨le_refl _, fun job hjob => nomatch hidle.symm.trans hjob⟩
      | detach => exact ⟨le_refl _, fun job hjob => nomatch hjob⟩
      | _ => cases hends
    rintro ⟨id, hlt, hid, -⟩
    rw [Trace.final_append, Trace.final_cons] at hid
    have hsince : Since p.started (Trace.final step (p.step e).2 middle) :=
      Trace.final_keeps hended (fun q e hq => hq.step e) middle
    have hle := hsince.poll_id hid
    omega

section Runs

def sevens : ScanTarget Unit := (MockTarget.new 0x1000 [7, 7, 7, 7]).target Unit

/-- A first scan for an unknown value, on an attached process. -/
def scanStarted : List (Event Unit) :=
  [.show true, .chooseCompare .unknown, .firstScan none (some {})]

def scanEnded : List (Event Unit) := scanStarted ++ [.work sevens (noObserver Unit) (), .poll]

def typeChanged : List (Event Unit) :=
  scanStarted ++ [.chooseValueType .u8, .work sevens (noObserver Unit) (), .poll]

def scanAbandoned : List (Event Unit) :=
  scanStarted ++ [.newScan, .work sevens (noObserver Unit) ()]

theorem scanStarted_enabled : Trace.Along Enabled step {} scanStarted :=
  ⟨trivial, ⟨rfl, by decide⟩, ⟨rfl, by decide⟩, trivial⟩

theorem scanEnded_enabled : Trace.Along Enabled step {} scanEnded :=
  (Trace.along_append scanStarted _).mpr
    ⟨scanStarted_enabled, ⟨rfl, fun _ => noObserver_neverStops Unit⟩, trivial, trivial⟩

theorem panel_in_step_scanEnded :
    (∀ earlier later, scanEnded = earlier ++ later →
      (Trace.final step {} earlier).InStep ∧ (Trace.final step {} earlier).Offered) ∧
    ∀ earlier e middle later, scanEnded = earlier ++ e :: (middle ++ .poll :: later) →
      e.EndsSession → ¬ (Trace.final step {} (earlier ++ e :: middle)).Revives
        (Trace.final step {} earlier).started :=
  panel_in_step ⟨⟨trivial, trivial⟩, ⟨⟨rfl, by decide⟩, trivial⟩, ⟨⟨rfl, by decide⟩, trivial⟩,
    ⟨⟨rfl, fun _ => noObserver_neverStops Unit⟩, trivial⟩, ⟨trivial, trivial⟩, trivial⟩

/-- Enabled all the while: the value type changes under a scan, `Changed` stays selected while a
next scan is in flight and after detaching, and a scan brings back the session that New Scan ended. -/
theorem enabled_breaks_panel :
    (Trace.Along Enabled step {} typeChanged ∧ ¬ (Trace.final step {} typeChanged).InStep) ∧
    (Trace.Along Enabled step {} (scanEnded ++ [.nextScan none]) ∧
      ¬ (Trace.final step {} (scanEnded ++ [.nextScan none])).Offered) ∧
    (Trace.Along Enabled step {} (scanEnded ++ [.detach]) ∧
      ¬ (Trace.final step {} (scanEnded ++ [.detach])).Offered) ∧
    (Trace.Along Enabled step {} (scanAbandoned ++ [.poll]) ∧
      (Trace.final step {} scanAbandoned).Revives (Trace.final step {} scanStarted).started) := by
  refine ⟨⟨?_, ?_⟩, ⟨?_, ?_⟩, ⟨?_, ?_⟩, ⟨?_, ?_⟩⟩
  · exact (Trace.along_append scanStarted _).mpr ⟨scanStarted_enabled, ⟨rfl, by decide⟩,
      ⟨rfl, fun _ => noObserver_neverStops Unit⟩, trivial, trivial⟩
  · intro h
    have hidle : (Trace.final step {} typeChanged).scanning = false := by decide +kernel
    have htype : (Trace.final step {} typeChanged).scanner.map Scanner.valueType = some .i32 := by
      decide +kernel
    obtain ⟨scanner, hscanner, hi32⟩ := Option.map_eq_some_iff.mp htype
    have hshown : (Trace.final step {} typeChanged).valueType = .u8 := by decide +kernel
    have hsame := (h hidle scanner hscanner).1
    rw [hi32, hshown] at hsame
    cases hsame
  · exact (Trace.along_append scanEnded _).mpr
      ⟨scanEnded_enabled, ⟨by decide +kernel, by decide +kernel, by decide +kernel⟩, trivial⟩
  · unfold Offered
    decide +kernel
  · exact (Trace.along_append scanEnded _).mpr ⟨scanEnded_enabled, trivial, trivial⟩
  · unfold Offered
    decide +kernel
  · exact (Trace.along_append scanStarted _).mpr ⟨scanStarted_enabled, rfl,
      ⟨rfl, fun _ => noObserver_neverStops Unit⟩, trivial, trivial⟩
  · have hscanner : (Trace.final step {} scanAbandoned).poll.2.scanner.isSome = true := by
      decide +kernel
    refine ⟨0, by decide +kernel, by decide +kernel, fun hsame => ?_⟩
    have hnone : (Trace.final step {} scanAbandoned).scanner = none := rfl
    rw [hsame.1, hnone] at hscanner
    cases hscanner

end Runs

end ScannerPanel

end Nemclass.Ui
