import Nemclass.Scan.NeedleText
import Nemclass.Scan.PathFormula
import Nemclass.Scan.RefineExact
import Nemclass.Scan.SpiderSlots
import Nemclass.Ui.PathRow
import Nemclass.Ui.ScannerPanel

/-! The spider panel's refinement. A refinement takes the rows out of the panel and along to its
worker. They come back with an outcome that is no error; an outcome that is one has dropped them.
The live readings of the table are left out. -/
namespace Nemclass.Ui
open Scan Address

structure HitRow where
  hit : SpiderHit
  formula : String
deriving DecidableEq

/-- A hit with its formula, anchored in the first module that contains its root. -/
def hitRow (modules : List ModuleInfoWithName) (hit : SpiderHit) : HitRow where
  hit := hit
  formula :=
    match owner modules hit.path.root with
    | some m => hit.path.toFormulaAtModule m.name m.base
    | none => hit.path.toFormulaRaw

/-- The observer of a job: Stop is seen from the given count of work on, if at all. -/
def stopObserver (σ : Type) (stop : Option ℕ) : ScanObserver σ :=
  ⟨fun world progress => (stop.all (progress.done < ·), world)⟩

/-- What the status line says. -/
inductive SpiderStatus where
  | noProcess
  | refineValue (e : NeedleParseError)
  | refining
  | stopping
  | noHits (nodes : ℕ)
  | refined (kept before : ℕ)
  | searchFailed (e : ScanError)
  | refineFailed (e : ScanError)
deriving DecidableEq

/-- What a worker takes along. -/
structure RefineTask where
  rows : List HitRow
  valueType : ScanValueType
  compare : ScanCompareType
  needle : Option Needle
  modules : List ModuleInfoWithName

abbrev SearchOutcome := Except ScanError (List HitRow × Bool × ℕ)

abbrev RefineOutcome := Except ScanError (List HitRow × ℕ)

/-- The worker's end of a refinement, with the default configuration. -/
def RefineTask.run {σ : Type} (task : RefineTask) (target : ScanTarget σ)
    (observer : ScanObserver σ) (world : σ) : RefineOutcome :=
  match spiderRefineWith target (task.rows.map HitRow.hit) {} task.valueType task.compare
      task.needle observer world with
  | (.error e, _, _) => .error e
  | (.ok (), hits, _) => .ok (hits.map (hitRow task.modules), task.rows.length)

structure RefineJob where
  task : RefineTask
  rx : Channel RefineOutcome

structure SpiderPanel where
  valueType : ScanValueType := .i32
  refineCompare : ScanCompareType := .changed
  refineText : String := ""
  rows : List HitRow := []
  truncated : Bool := false
  nodesVisited : ℕ := 0
  modulesSnapshot : List ModuleInfoWithName := []
  process : Bool := false
  scanJob : Option (Channel SearchOutcome) := none
  refineJob : Option RefineJob := none
  statusMsg : Option SpiderStatus := none

namespace SpiderPanel
variable {σ : Type} (p : SpiderPanel)

def isBusy : Bool := p.scanJob.isSome || p.refineJob.isSome

section Refine

/- The float syntax of the standard library: a value of the width, widened to a double. -/
variable (parseFloat : ℕ → List Char → Option Float)

/-- The needle that the refinement's text stands for, where the compare takes one. -/
def refineNeedle : Except NeedleFailure (Option Needle) :=
  if p.refineCompare.needsNeedle then
    (p.valueType.parseNeedle parseFloat (String.ofList (trim p.refineText.toList))).map some
  else .ok none

/-- Starts a refinement; nothing when reading its text overflows. -/
def runRefine : Option SpiderPanel :=
  if p.isBusy then some p
  else if ¬ p.process then some { p with statusMsg := some .noProcess }
  else
    match p.refineNeedle parseFloat with
    | .error .overflow => none
    | .error (.error e) => some { p with statusMsg := some (.refineValue e) }
    | .ok needle =>
      let task : RefineTask := ⟨p.rows, p.valueType, p.refineCompare, needle, p.modulesSnapshot⟩
      some { p with rows := [], statusMsg := some .refining, refineJob := some ⟨task, .empty⟩ }

end Refine

/-- The worker of a refinement comes to its end, having seen Stop from a count of hits on. -/
def work (target : ScanTarget σ) (stop : Option ℕ) (world : σ) : SpiderPanel :=
  { p with
    refineJob := p.refineJob.map fun job =>
      match job.rx with
      | .empty => { job with rx := .sent (job.task.run target (stopObserver σ stop) world) }
      | _ => job }

def pollScan : SpiderPanel :=
  match p.scanJob with
  | some (.sent (.ok (rows, truncated, nodes))) =>
    { p with
      rows
      truncated
      nodesVisited := nodes
      statusMsg := if rows.isEmpty then some (.noHits nodes) else none
      scanJob := none }
  | some (.sent (.error e)) => { p with statusMsg := some (.searchFailed e), scanJob := none }
  | some .disconnected => { p with scanJob := none }
  | some .empty | none => p

def pollRefine : SpiderPanel :=
  match p.refineJob with
  | some ⟨_, .sent (.ok (rows, before))⟩ =>
    { p with
      rows
      statusMsg := some (.refined rows.length before)
      refineJob := none }
  | some ⟨_, .sent (.error e)⟩ => { p with statusMsg := some (.refineFailed e), refineJob := none }
  | some ⟨_, .disconnected⟩ => { p with refineJob := none }
  | some ⟨_, .empty⟩ | none => p

/-- Drains what the jobs have sent. -/
def poll : SpiderPanel := p.pollScan.pollRefine

/-- What may happen to the panel while a worker runs. Stop changes the status line; from when on the
worker sees it is part of what the worker does. -/
inductive Meanwhile where
  | «show» (attached : Bool)
  | stop
  | poll

def meanwhile (p : SpiderPanel) : Meanwhile → SpiderPanel
  | .show attached => { p with process := attached }
  | .stop => { p with statusMsg := some .stopping }
  | .poll => p.poll

/-- A refinement from its start until its outcome is drained. -/
def refine (parseFloat : ℕ → List Char → Option Float) (between : List Meanwhile)
    (target : ScanTarget σ) (stop : Option ℕ) (world : σ) : Option SpiderPanel :=
  (p.runRefine parseFloat).map fun started =>
    ((between.foldl meanwhile started).work target stop world).poll

/-- A panel whose rows are with the worker of the given task. -/
structure Awaits (task : RefineTask) : Prop where
  rows : p.rows = []
  scanJob : p.scanJob = none
  refineJob : p.refineJob = some ⟨task, .empty⟩

variable {p}

theorem Awaits.meanwhile {task : RefineTask} (h : p.Awaits task) (e : Meanwhile) :
    (p.meanwhile e).Awaits task := by
  cases e with
  | «show» attached => exact ⟨h.rows, h.scanJob, h.refineJob⟩
  | stop => exact ⟨h.rows, h.scanJob, h.refineJob⟩
  | poll =>
    have hscan : p.pollScan = p := by
      unfold pollScan
      rw [h.scanJob]
    have hpoll : p.poll = p := by
      unfold poll pollRefine
      rw [hscan, h.refineJob]
    show p.poll.Awaits task
    rw [hpoll]
    exact h

theorem Awaits.run {task : RefineTask} (h : p.Awaits task) (between : List Meanwhile) :
    (between.foldl SpiderPanel.meanwhile p).Awaits task := by
  induction between generalizing p with
  | nil => exact h
  | cons e between ih => exact ih (h.meanwhile e)

/-- The rows that are there when the outcome of a refinement has been drained. -/
def drained (outcome : RefineOutcome) : List HitRow :=
  match outcome with
  | .ok (rows, _) => rows
  | .error _ => []

theorem Awaits.drain {task : RefineTask} (h : p.Awaits task) (target : ScanTarget σ)
    (stop : Option ℕ) (world : σ) : (p.work target stop world).poll.rows =
      drained (task.run target (stopObserver σ stop) world) := by
  have hjob : (p.work target stop world).refineJob =
      some ⟨task, .sent (task.run target (stopObserver σ stop) world)⟩ := by
    unfold work
    rw [h.refineJob]
    rfl
  have hscan : (p.work target stop world).pollScan = p.work target stop world := by
    unfold pollScan
    rw [show (p.work target stop world).scanJob = none from h.scanJob]
  unfold poll pollRefine
  rw [hscan, hjob]
  generalize task.run target (stopObserver σ stop) world = outcome
  cases outcome with
  | error e => exact h.rows
  | ok found => rfl

theorem runRefine_awaits {parseFloat : ℕ → List Char → Option Float} {needle : Option Needle}
    (hidle : p.isBusy = false) (hprocess : p.process = true)
    (hneedle : p.refineNeedle parseFloat = .ok needle) :
    ∃ started, p.runRefine parseFloat = some started ∧ started.Awaits
      ⟨p.rows, p.valueType, p.refineCompare, needle, p.modulesSnapshot⟩ := by
  let task : RefineTask := ⟨p.rows, p.valueType, p.refineCompare, needle, p.modulesSnapshot⟩
  have hstarts : p.runRefine parseFloat = some
      { p with rows := [], statusMsg := some .refining, refineJob := some ⟨task, .empty⟩ } := by
    unfold runRefine
    rw [if_neg (by rw [hidle]; exact Bool.false_ne_true), if_neg (not_not.mpr hprocess), hneedle]
  have hscan : p.scanJob = none := by
    rw [← Option.not_isSome_iff_eq_none, (Bool.or_eq_false_iff.mp hidle).1]
    exact Bool.false_ne_true
  exact ⟨_, hstarts, rfl, hscan, rfl⟩

section Stop
variable {pass : SpiderRefine σ} {stop : Option ℕ}

theorem tick_stopObserver (hobserver : pass.observer = stopObserver σ stop) (done kept : ℕ)
    (world : σ) : pass.tick done kept world =
      (decide (64 ∣ done → ∀ m ∈ stop, done < m), world) := by
  unfold SpiderRefine.tick
  rw [hobserver, show SpiderRefine.hitInterval = 64 from rfl]
  by_cases hdvd : 64 ∣ done
  · rw [if_pos (Nat.mod_eq_zero_of_dvd hdvd)]
    cases stop with
    | none => simp [stopObserver]
    | some m => simp [stopObserver, hdvd]
  · rw [if_neg (fun h => hdvd (Nat.dvd_of_mod_eq_zero h))]
    simp [hdvd]

/-- A pass over the hits is stopped exactly when Stop is seen at one of its ticks. -/
theorem verdicts_stopped_iff (hobserver : pass.observer = stopObserver σ stop) (done kept : ℕ)
    (hits : List SpiderHit) (world : σ) : (pass.verdicts done kept hits world).1 = none ↔
      ∃ d, done < d ∧ d ≤ done + hits.length ∧ 64 ∣ d ∧ ∃ m ∈ stop, m ≤ d := by
  induction hits generalizing done kept world with
  | nil =>
    refine iff_of_false (Option.some_ne_none _) ?_
    rintro ⟨d, hlo, hhi, -⟩
    exact absurd hhi (Nat.not_le.mpr hlo)
  | cons hit hits ih =>
    rw [SpiderRefine.verdicts, tick_stopObserver hobserver]
    by_cases hgoes : 64 ∣ done + 1 → ∀ m ∈ stop, done + 1 < m
    · rw [decide_eq_true hgoes]
      dsimp only
      have hrest := ih (done + 1) (if (pass.verdict hit world).1.isSome then kept + 1 else kept)
        (pass.verdict hit world).2
      generalize pass.verdicts (done + 1) _ hits _ = r at hrest ⊢
      obtain ⟨found, world'⟩ := r
      have hlater : (∃ d, done + 1 < d ∧ d ≤ done + 1 + hits.length ∧ 64 ∣ d ∧ ∃ m ∈ stop, m ≤ d) ↔
          ∃ d, done < d ∧ d ≤ done + (hit :: hits).length ∧ 64 ∣ d ∧ ∃ m ∈ stop, m ≤ d := by
        refine exists_congr fun d => ?_
        rw [List.length_cons]
        constructor
        · rintro ⟨hlo, hhi, h⟩
          exact ⟨by omega, by omega, h⟩
        · rintro ⟨hlo, hhi, hdvd, m, hm, hle⟩
          refine ⟨?_, by omega, hdvd, m, hm, hle⟩
          by_contra hnext
          obtain rfl : d = done + 1 := by omega
          exact absurd (hgoes hdvd m hm) (Nat.not_lt.mpr hle)
      rw [← hlater, ← hrest]
      cases found with
      | none => exact iff_of_true rfl rfl
      | some found => exact iff_of_false (Option.some_ne_none _) (Option.some_ne_none _)
    · rw [decide_eq_false hgoes]
      refine iff_of_true rfl ?_
      push Not at hgoes
      obtain ⟨hdvd, m, hm, hle⟩ := hgoes
      exact ⟨done + 1, Nat.lt_succ_self _, by rw [List.length_cons]; omega, hdvd, m, hm, hle⟩

end Stop

/-- A refinement succeeds exactly when its checks pass and Stop is not seen at any of its ticks. -/
theorem spiderRefineWith_ok_iff {target : ScanTarget σ} {hits : List SpiderHit}
    {cfg : SpiderConfig} {valueType : ScanValueType} {compare : ScanCompareType}
    {needle : Option Needle} {stop : Option ℕ} {world : σ} :
    (spiderRefineWith target hits cfg valueType compare needle (stopObserver σ stop) world).1 =
        .ok () ↔
      (∃ stride, checkRefine valueType compare needle = .ok stride) ∧
        ∀ d, 0 < d → d ≤ hits.length → 64 ∣ d → ∀ m ∈ stop, d < m := by
  unfold spiderRefineWith
  cases hcheck : checkRefine valueType compare needle with
  | error e =>
    refine iff_of_false nofun ?_
    rintro ⟨⟨stride, h⟩, -⟩
    cases h
  | ok stride =>
    dsimp only
    have hstops : ((⟨target, stopObserver σ stop, cfg.clamped.pointerSize, valueType, compare,
        needle, stride, hits.length⟩ : SpiderRefine σ).verdicts 0 0 hits world).1 = none ↔ _ :=
      verdicts_stopped_iff rfl 0 0 hits world
    rw [and_iff_right ⟨stride, rfl⟩]
    generalize SpiderRefine.verdicts _ 0 0 hits world = r at hstops ⊢
    obtain ⟨found, world'⟩ := r
    cases found with
    | none =>
      refine iff_of_false nofun fun hall => ?_
      obtain ⟨d, hpos, hle, hdvd, m, hm, hseen⟩ := hstops.mp rfl
      exact absurd (hall d hpos (by omega) hdvd m hm) (Nat.not_lt.mpr hseen)
    | some found =>
      refine iff_of_true rfl fun d hpos hle hdvd m hm => ?_
      by_contra hseen
      exact absurd (hstops.mpr ⟨d, hpos, by omega, hdvd, m, hm, Nat.not_lt.mp hseen⟩) nofun

variable (p)

/-- The engine's checks pass, and Stop is not seen at any of its ticks: there is one at every 64th
hit. -/
def RefineCompletes (needle : Option Needle) (stop : Option ℕ) : Prop :=
  (∃ stride, checkRefine p.valueType p.refineCompare needle = .ok stride) ∧
    ∀ d, 0 < d → d ≤ p.rows.length → 64 ∣ d → ∀ m ∈ stop, d < m

/-- What a refinement should leave: the rows as they were if it failed or was cancelled, and the
rows of the hits that the engine kept if not. -/
def KeepsRows (needle : Option Needle) (target : ScanTarget σ) (stop : Option ℕ) (world : σ)
    (after : SpiderPanel) : Prop :=
  match spiderRefineWith target (p.rows.map HitRow.hit) {} p.valueType p.refineCompare needle
      (stopObserver σ stop) world with
  | (.error _, _, _) => after.rows = p.rows
  | (.ok (), hits, _) => after.rows = hits.map (hitRow p.modulesSnapshot)

variable {p}

/-- A refinement that was started leaves the panel's rows as it should exactly when there were none
or it completes: with an outcome that is an error the rows are gone. -/
theorem refine_keepsRows_iff {parseFloat : ℕ → List Char → Option Float} {needle : Option Needle}
    (hidle : p.isBusy = false) (hprocess : p.process = true)
    (hneedle : p.refineNeedle parseFloat = .ok needle) (between : List Meanwhile)
    (target : ScanTarget σ) (stop : Option ℕ) (world : σ) :
    ∃ after, p.refine parseFloat between target stop world = some after ∧
      (p.KeepsRows needle target stop world after ↔ p.rows = [] ∨ p.RefineCompletes needle stop) := by
  obtain ⟨started, hstarts, hawaits⟩ := runRefine_awaits hidle hprocess hneedle
  refine ⟨_, by rw [refine, hstarts, Option.map_some], ?_⟩
  have hrows := (hawaits.run between).drain target stop world
  have hcompletes : (spiderRefineWith target (p.rows.map HitRow.hit) {} p.valueType p.refineCompare
      needle (stopObserver σ stop) world).1 = .ok () ↔ p.RefineCompletes needle stop := by
    rw [spiderRefineWith_ok_iff, List.length_map]
    rfl
  rw [KeepsRows, hrows, ← hcompletes, RefineTask.run]
  dsimp only
  generalize spiderRefineWith target (p.rows.map HitRow.hit) {} p.valueType p.refineCompare needle
    (stopObserver σ stop) world = r
  obtain ⟨result, hits, world'⟩ := r
  cases result with
  | error e =>
    refine ⟨fun h => .inl h.symm, fun h => ?_⟩
    rcases h with hnil | hok
    · exact hnil.symm
    · cases hok
  | ok _ => exact iff_of_true rfl (.inr rfl)

/-- A panel with one row, attached to a process. -/
def oneRow (valueType : ScanValueType) : SpiderPanel :=
  { valueType, process := true, rows := [hitRow [] ⟨⟨0x1000, [], 0x10⟩, [0x61], [0x61]⟩] }

theorem refine_keepsRows_numbers : ∃ after : SpiderPanel,
    (oneRow .u8).refine (fun _ _ => none) [.stop, .poll] (openTarget fun _ => 0x62) (some 1) () =
      some after ∧
    (oneRow .u8).KeepsRows none (openTarget fun _ => 0x62) (some 1) () after := by
  have hneedle : (oneRow .u8).refineNeedle (fun _ _ => none) = .ok none := rfl
  obtain ⟨after, hrefine, hiff⟩ := refine_keepsRows_iff rfl rfl hneedle [.stop, .poll]
    (openTarget fun _ => 0x62) (some 1) ()
  refine ⟨after, hrefine, hiff.mpr (.inr ⟨⟨1, rfl⟩, fun d hpos hle hdvd => ?_⟩)⟩
  have hone : d ≤ 1 := hle
  omega

/-- Texts have no width of their own, so that refining them by a change is refused: the row is
gone. -/
theorem refine_loses_texts : ∃ after : SpiderPanel,
    (oneRow .stringUtf8).refine (fun _ _ => none) [] (openTarget fun _ => 0x62) none () =
      some after ∧
    after.statusMsg = some (.refineFailed (.noStride .stringUtf8)) ∧ after.rows = [] ∧
    ¬ (oneRow .stringUtf8).KeepsRows none (openTarget fun _ => 0x62) none () after :=
  ⟨_, rfl, rfl, rfl, nofun⟩

end SpiderPanel

end Nemclass.Ui
