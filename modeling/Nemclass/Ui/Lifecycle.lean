import Nemclass.Lib.Trace
import Nemclass.Model.Uuid
import Nemclass.Ui.ScannerPanel

/-! Attaching to a process and asking scripts for the address of a class. Workers enumerate, open and
resolve while the user goes on; what they send is taken in by a later frame, which may find the
selection changed. -/
namespace Nemclass.Ui
open Trace Model

/-- `BackgroundJob`, with what the worker of the job in flight has taken along. -/
structure BackgroundJob (ρ α : Type) where
  rx : Option (ρ × Channel α)

namespace BackgroundJob
variable {ρ α : Type} (j : BackgroundJob ρ α)

def idle : BackgroundJob ρ α := ⟨none⟩

def isRunning : Bool := j.rx.isSome

def spawn (request : ρ) : BackgroundJob ρ α := ⟨some (request, .empty)⟩

/-- What is done, if anything. -/
def poll : Option (ρ × α) × BackgroundJob ρ α :=
  match j.rx with
  | some (request, .sent value) => (some (request, value), idle)
  | some (_, .disconnected) => (none, idle)
  | _ => (none, j)

/-- The worker comes to its end; when it panics it sends nothing. -/
def finish (value : Option α) : BackgroundJob ρ α :=
  match j.rx with
  | some (request, .empty) => ⟨some (request, value.elim .disconnected .sent)⟩
  | _ => j

end BackgroundJob

structure ProcessEntry where
  id : ℕ
  name : String
deriving DecidableEq, Repr

/-- `entry.id as libc::pid_t` -/
def ProcessEntry.pid (entry : ProcessEntry) : ℤ :=
  if entry.id < 2147483648 then entry.id else entry.id - 4294967296

/-- By name regardless of ASCII case, then by id. -/
def ProcessEntry.le (a b : ProcessEntry) : Bool :=
  let x := a.name.toList.map Char.toLower
  let y := b.name.toList.map Char.toLower
  if x = y then a.id ≤ b.id else x < y

structure ClassAddressQuery where
  pid : ℤ
  class_ : Uuid
deriving DecidableEq

/-- The lifecycle events that attaching and detaching publish. -/
inductive LifecycleEvent where
  | onAttach (pid : ℤ) (name : Option String)
  | onDetach
deriving DecidableEq, Repr

/-- What of the application attaching, detaching and resolving read and write. -/
structure NemclassApp where
  selectedBackend : String
  processList : List ProcessEntry
  processListStatus : String
  selectedProcessIdx : Option ℕ
  process : Option ℤ
  attachedName : Option String
  lastError : Option String
  statusMsg : Option String
  enumerateJob : BackgroundJob String (Except String (List ProcessEntry))
  attachJob : BackgroundJob (ℤ × String) (Except String Unit)
  resolveJob : BackgroundJob ClassAddressQuery (Option ℕ)
  selectedClass : Option Uuid
  classBase : Option ℕ
  scriptResolvedBase : Option ℕ

namespace NemclassApp
variable (s : NemclassApp)

def clearMemoryState : NemclassApp := { s with classBase := none, scriptResolvedBase := none }

/-- `do_refresh`; there may be no runtime. -/
def doRefresh (backends : List String) (runtime : Bool) : NemclassApp :=
  if s.enumerateJob.isRunning then s
  else if s.selectedBackend ∉ backends then
    { s with processListStatus := s!"Backend '{s.selectedBackend}' not found." }
  else if !runtime then s
  else
    { s with
      processListStatus := "Enumerating…"
      enumerateJob := .spawn s.selectedBackend }

def ingestEnumerate (result : Except String (List ProcessEntry)) : NemclassApp :=
  match result with
  | .ok list =>
    { s with
      processListStatus := s!"{list.length} processes"
      processList := list
      selectedProcessIdx := none }
  | .error e => { s with processListStatus := s!"Error: {e}", processList := [] }

/-- What `do_attach` and `do_detach` do with the process that is attached. -/
def teardown : List LifecycleEvent × NemclassApp :=
  if s.process.isSome then
    ([.onDetach], { s with process := none, attachedName := none }.clearMemoryState)
  else ([], s)

def displayName (pid : ℤ) (name : String) : String := if name = "" then s!"pid:{pid}" else name

def doAttach (backends : List String) (runtime : Bool) : List LifecycleEvent × NemclassApp :=
  if s.attachJob.isRunning then ([], s)
  else
    match s.selectedProcessIdx with
    | none => ([], { s with lastError := some "No process selected." })
    | some idx =>
      match s.processList[idx]? with
      | none => ([], { s with lastError := some "Selection out of range." })
      | some entry =>
        let (events, s) := s.teardown
        if s.selectedBackend ∉ backends then
          (events, { s with lastError := some s!"Backend '{s.selectedBackend}' not found." })
        else if !runtime then (events, s)
        else
          (events, { s with
            lastError := none
            statusMsg := some s!"Attaching to {displayName entry.pid entry.name}…"
            attachJob := .spawn (entry.pid, entry.name) })

def ingestAttach (request : ℤ × String) (result : Except String Unit) :
    List LifecycleEvent × NemclassApp :=
  match result with
  | .ok () =>
    ([.onAttach request.1 (some request.2)], { s with
      statusMsg := none
      attachedName := some (displayName request.1 request.2)
      process := some request.1
      lastError := none })
  | .error e => ([], { s with statusMsg := none, lastError := some e })

def doDetach : List LifecycleEvent × NemclassApp :=
  if s.process.isSome then (s.teardown.1, { s.teardown.2 with lastError := none })
  else ([], s)

def ingestResolve (uuid : Uuid) (resolved : Option ℕ) : NemclassApp :=
  let s := { s with statusMsg := none }
  if s.selectedClass ≠ some uuid then s
  else
    match resolved with
    | some addr => { s with scriptResolvedBase := some addr, classBase := some addr }
    | none => { s with lastError := some "No script resolver returned an address." }

/-- `do_resolve_class_address`; the engine may be live, and there may be no runtime. -/
def doResolveClassAddress (live runtime : Bool) : NemclassApp :=
  match s.selectedClass, s.process with
  | some uuid, some pid =>
    if s.resolveJob.isRunning then s
    else if live then
      if !runtime then s
      else
        { s with
          statusMsg := some "Resolving class address…"
          resolveJob := .spawn ⟨pid, uuid⟩ }
    else s.ingestResolve uuid none
  | _, _ => s

def pollEnumerate : NemclassApp :=
  match s.enumerateJob.poll with
  | (some (backend, result), job) =>
    let s := { s with enumerateJob := job }
    if backend = s.selectedBackend then s.ingestEnumerate result else s
  | (none, job) => { s with enumerateJob := job }

def pollAttach : List LifecycleEvent × NemclassApp :=
  match s.attachJob.poll with
  | (some (request, result), job) => { s with attachJob := job }.ingestAttach request result
  | (none, job) => ([], { s with attachJob := job })

def pollResolve : NemclassApp :=
  match s.resolveJob.poll with
  | (some (query, resolved), job) => { s with resolveJob := job }.ingestResolve query.class_ resolved
  | (none, job) => { s with resolveJob := job }

/-- `poll_background_jobs` -/
def pollBackgroundJobs : List LifecycleEvent × NemclassApp :=
  let (events, s) := s.pollEnumerate.pollAttach
  (events, s.pollResolve)

/-- The base that `take_snapshot` decides on, given what the formula of the class resolves to. -/
def snapshotBase (formula : Option ℕ) : NemclassApp :=
  if s.selectedClass.isNone then s
  else if s.process.isNone then { s with classBase := none }
  else { s with classBase := s.scriptResolvedBase.or formula }

/-- `follow_pointer`, to a class of the project. -/
def followPointer (addr : ℕ) (uuid : Uuid) : NemclassApp :=
  { s with selectedClass := some uuid, scriptResolvedBase := some addr, classBase := some addr }

end NemclassApp

/-- What the user does, what the workers come to, and what frames do. Wherever another class or
project is selected, the memory state is cleared. -/
inductive AppInput where
  | selectBackend (name : String)
  | clickProcess (idx : ℕ)
  | refresh (runtime : Bool)
  | attach (runtime : Bool)
  | detach
  | selectClass (uuid : Option Uuid)
  | followPointer (addr : ℕ) (uuid : Uuid)
  | editFormula
  | tryResolve (live runtime : Bool)
  | enumerated (result : Option (Except String (List ProcessEntry)))
  | opened (result : Option (Except String Unit))
  | answered (result : Option (Option ℕ))
  | poll
  | snapshot (formula : Option ℕ)

/-- One input, and the lifecycle events that are published. -/
def appStep (backends : List String) (s : NemclassApp) : AppInput → List LifecycleEvent × NemclassApp
  | .selectBackend name => ([], { s with selectedBackend := name })
  | .clickProcess idx => ([], { s with selectedProcessIdx := some idx })
  | .refresh runtime => ([], s.doRefresh backends runtime)
  | .attach runtime => s.doAttach backends runtime
  | .detach => s.doDetach
  | .selectClass uuid => ([], { s with selectedClass := uuid }.clearMemoryState)
  | .followPointer addr uuid => ([], s.followPointer addr uuid)
  | .editFormula => ([], { s with classBase := none, scriptResolvedBase := none })
  | .tryResolve live runtime => ([], s.doResolveClassAddress live runtime)
  | .enumerated result =>
    let result := result.map fun r => r.map fun list => list.mergeSort ProcessEntry.le
    ([], { s with enumerateJob := s.enumerateJob.finish result })
  | .opened result =>
    let result := result.map fun r => r.mapError fun e => s!"Attach failed: {e}"
    ([], { s with attachJob := s.attachJob.finish result })
  | .answered result => ([], { s with resolveJob := s.resolveJob.finish result })
  | .poll => s.pollBackgroundJobs
  | .snapshot formula => ([], s.snapshotBase formula)

/-! ## What one input does -/

/-- The buttons with which a process comes and goes. -/
def AppInput.reattaches : AppInput → Bool
  | .attach _ | .detach => true
  | _ => false

section Steps

variable {backends : List String} {s : NemclassApp}

/-- What an input does to the process that is attached. -/
inductive AttachStep (s : NemclassApp) : AppInput → List LifecycleEvent → NemclassApp → Prop
  | same {i s'} (hprocess : s'.process = s.process) (hjob : s'.attachJob = s.attachJob) :
      AttachStep s i [] s'
  | torn {i s'} (hi : i.reattaches = true) (hsome : s.process.isSome)
      (hprocess : s'.process = none) (hjob : s'.attachJob = s.attachJob) :
      AttachStep s i [.onDetach] s'
  | spawned {events s'} (idx : ℕ) (entry : ProcessEntry) (hidle : s.attachJob.rx = none)
      (hidx : s.selectedProcessIdx = some idx) (hentry : s.processList[idx]? = some entry)
      (hevents : events = s.teardown.1) (hprocess : s'.process = none)
      (hjob : s'.attachJob.rx = some ((entry.pid, entry.name), .empty)) :
      AttachStep s (.attach true) events s'
  | ended {i s'} (request : ℤ × String) (channel : Channel (Except String Unit))
      (hrx : s.attachJob.rx = some (request, .empty)) (hprocess : s'.process = s.process)
      (hjob : s'.attachJob.rx = some (request, channel)) : AttachStep s i [] s'
  | ingested {s'} (request : ℤ × String)
      (hrx : s.attachJob.rx = some (request, .sent (.ok ())))
      (hprocess : s'.process = some request.1) (hjob : s'.attachJob.rx = none) :
      AttachStep s .poll [.onAttach request.1 (some request.2)] s'
  | failed {s'} (hprocess : s'.process = s.process) (hjob : s'.attachJob.rx = none) :
      AttachStep s .poll [] s'

theorem teardown_cases (s : NemclassApp) :
    (s.process.isSome ∧ s.teardown.1 = [.onDetach] ∨ s.process = none ∧ s.teardown.1 = []) ∧
      s.teardown.2.process = none ∧ s.teardown.2.attachJob = s.attachJob := by
  rw [NemclassApp.teardown]
  split_ifs with hsome
  · exact ⟨.inl ⟨hsome, rfl⟩, rfl, rfl⟩
  · have hnone : s.process = none := Option.not_isSome_iff_eq_none.mp hsome
    exact ⟨.inr ⟨hnone, rfl⟩, hnone, rfl⟩

theorem doAttach_step (runtime : Bool) :
    AttachStep s (.attach runtime) (s.doAttach backends runtime).1
      (s.doAttach backends runtime).2 := by
  obtain ⟨hevents, hprocess, hjob⟩ := teardown_cases s
  have hrefused {s' : NemclassApp} (hp : s'.process = none) (hj : s'.attachJob = s.attachJob) :
      AttachStep s (.attach runtime) s.teardown.1 s' := by
    rcases hevents with ⟨hsome, heq⟩ | ⟨hnone, heq⟩
    · exact heq ▸ .torn rfl hsome hp hj
    · exact heq ▸ .same (hp.trans hnone.symm) hj
  rw [NemclassApp.doAttach]
  by_cases hrunning : s.attachJob.isRunning
  · rw [if_pos hrunning]
    exact .same rfl rfl
  rw [if_neg hrunning]
  cases hidx : s.selectedProcessIdx with
  | none => exact .same rfl rfl
  | some idx =>
    dsimp only
    cases hentry : s.processList[idx]? with
    | none => exact .same rfl rfl
    | some entry =>
      dsimp only
      by_cases hbackend : s.teardown.2.selectedBackend ∉ backends
      · rw [if_pos hbackend]
        exact hrefused hprocess hjob
      rw [if_neg hbackend]
      cases runtime with
      | false => exact hrefused hprocess hjob
      | true =>
        have hidle : s.attachJob.rx = none := by
          rwa [BackgroundJob.isRunning, Option.not_isSome_iff_eq_none] at hrunning
        exact .spawned idx entry hidle hidx hentry rfl hprocess rfl

theorem pollEnumerate_keeps (s : NemclassApp) : s.pollEnumerate.process = s.process ∧
    s.pollEnumerate.attachJob = s.attachJob ∧ s.pollEnumerate.resolveJob = s.resolveJob ∧
    s.pollEnumerate.selectedClass = s.selectedClass ∧
    s.pollEnumerate.scriptResolvedBase = s.scriptResolvedBase := by
  rw [NemclassApp.pollEnumerate]
  split
  · dsimp only
    split_ifs
    · unfold NemclassApp.ingestEnumerate
      split <;> exact ⟨rfl, rfl, rfl, rfl, rfl⟩
    · exact ⟨rfl, rfl, rfl, rfl, rfl⟩
  · exact ⟨rfl, rfl, rfl, rfl, rfl⟩

theorem pollAttach_keeps (s : NemclassApp) : s.pollAttach.2.processList = s.processList ∧
    s.pollAttach.2.selectedProcessIdx = s.selectedProcessIdx ∧
    s.pollAttach.2.resolveJob = s.resolveJob ∧ s.pollAttach.2.selectedClass = s.selectedClass ∧
    s.pollAttach.2.scriptResolvedBase = s.scriptResolvedBase := by
  rw [NemclassApp.pollAttach]
  split
  · unfold NemclassApp.ingestAttach
    split <;> exact ⟨rfl, rfl, rfl, rfl, rfl⟩
  · exact ⟨rfl, rfl, rfl, rfl, rfl⟩

theorem ingestResolve_keeps (s : NemclassApp) (uuid : Uuid) (resolved : Option ℕ) :
    (s.ingestResolve uuid resolved).process = s.process ∧
    (s.ingestResolve uuid resolved).attachJob = s.attachJob ∧
    (s.ingestResolve uuid resolved).processList = s.processList ∧
    (s.ingestResolve uuid resolved).selectedProcessIdx = s.selectedProcessIdx ∧
    (s.ingestResolve uuid resolved).selectedClass = s.selectedClass ∧
    (s.ingestResolve uuid resolved).resolveJob = s.resolveJob := by
  unfold NemclassApp.ingestResolve
  dsimp only
  split_ifs
  · exact ⟨rfl, rfl, rfl, rfl, rfl, rfl⟩
  · split <;> exact ⟨rfl, rfl, rfl, rfl, rfl, rfl⟩

theorem pollResolve_keeps (s : NemclassApp) : s.pollResolve.process = s.process ∧
    s.pollResolve.attachJob = s.attachJob ∧ s.pollResolve.processList = s.processList ∧
    s.pollResolve.selectedProcessIdx = s.selectedProcessIdx ∧
    s.pollResolve.selectedClass = s.selectedClass := by
  rw [NemclassApp.pollResolve]
  split
  · rename_i query resolved job _
    obtain ⟨hprocess, hjob, hlist, hidx, hclass, -⟩ :=
      ingestResolve_keeps { s with resolveJob := job } query.class_ resolved
    exact ⟨hprocess, hjob, hlist, hidx, hclass⟩
  · exact ⟨rfl, rfl, rfl, rfl, rfl⟩

theorem pollAttach_step (s : NemclassApp) :
    AttachStep s .poll s.pollAttach.1 s.pollAttach.2 := by
  rw [NemclassApp.pollAttach, BackgroundJob.poll]
  cases hrx : s.attachJob.rx with
  | none => exact .same rfl rfl
  | some job =>
    obtain ⟨request, channel⟩ := job
    cases channel with
    | empty => exact .same rfl rfl
    | disconnected => exact .failed rfl rfl
    | sent result =>
      cases result with
      | error e => exact .failed rfl rfl
      | ok opened => exact .ingested request hrx rfl rfl

theorem pollBackgroundJobs_attach (s : NemclassApp) :
    AttachStep s .poll s.pollBackgroundJobs.1 s.pollBackgroundJobs.2 := by
  obtain ⟨hprocess, hjob, -⟩ := pollEnumerate_keeps s
  obtain ⟨hprocess', hjob', -⟩ := pollResolve_keeps s.pollEnumerate.pollAttach.2
  rw [NemclassApp.pollBackgroundJobs]
  dsimp only
  have hstep := pollAttach_step s.pollEnumerate
  generalize s.pollEnumerate.pollAttach = r at hstep hprocess' hjob' ⊢
  obtain ⟨events, s'⟩ := r
  dsimp only at hstep hprocess' hjob' ⊢
  cases hstep with
  | same hp hj => exact .same (hprocess'.trans (hp.trans hprocess)) (hjob'.trans (hj.trans hjob))
  | torn hi hsome hp hj => cases hi
  | ended request channel hrx hp hj =>
    exact .ended request channel ((congrArg BackgroundJob.rx hjob).symm.trans hrx) (hprocess'.trans (hp.trans hprocess))
      (hjob' ▸ hj)
  | ingested request hrx hp hj =>
    exact .ingested request ((congrArg BackgroundJob.rx hjob).symm.trans hrx) (hprocess'.trans hp) (hjob' ▸ hj)
  | failed hp hj => exact .failed (hprocess'.trans (hp.trans hprocess)) (hjob' ▸ hj)

theorem BackgroundJob.finish_rx {ρ α : Type} (j : BackgroundJob ρ α) (value : Option α) :
    j.finish value = j ∨ ∃ request, j.rx = some (request, .empty) ∧
      (j.finish value).rx = some (request, value.elim .disconnected .sent) := by
  unfold BackgroundJob.finish
  split
  · rename_i request hrx
    exact .inr ⟨request, hrx, rfl⟩
  · exact .inl rfl

theorem doResolve_keeps (s : NemclassApp) (live runtime : Bool) :
    (s.doResolveClassAddress live runtime).process = s.process ∧
    (s.doResolveClassAddress live runtime).attachJob = s.attachJob ∧
    (s.doResolveClassAddress live runtime).processList = s.processList ∧
    (s.doResolveClassAddress live runtime).selectedProcessIdx = s.selectedProcessIdx ∧
    (s.doResolveClassAddress live runtime).selectedClass = s.selectedClass := by
  unfold NemclassApp.doResolveClassAddress
  split
  · rename_i uuid pid _ _
    split_ifs
    · exact ⟨rfl, rfl, rfl, rfl, rfl⟩
    · exact ⟨rfl, rfl, rfl, rfl, rfl⟩
    · exact ⟨rfl, rfl, rfl, rfl, rfl⟩
    · obtain ⟨hprocess, hjob, hlist, hidx, hclass, -⟩ := ingestResolve_keeps s uuid none
      exact ⟨hprocess, hjob, hlist, hidx, hclass⟩
  · exact ⟨rfl, rfl, rfl, rfl, rfl⟩

theorem appStep_attach (s : NemclassApp) (i : AppInput) :
    AttachStep s i (appStep backends s i).1 (appStep backends s i).2 := by
  cases i with
  | attach runtime => exact doAttach_step runtime
  | poll => exact pollBackgroundJobs_attach s
  | detach =>
    obtain ⟨hevents, hprocess, hjob⟩ := teardown_cases s
    rw [appStep, NemclassApp.doDetach]
    split_ifs with hsome
    · rw [(hevents.resolve_right fun h => by rw [h.1] at hsome; cases hsome).2]
      exact .torn rfl hsome hprocess hjob
    · exact .same rfl rfl
  | opened result =>
    rw [appStep]
    rcases s.attachJob.finish_rx (result.map fun r => r.mapError fun e => s!"Attach failed: {e}")
      with hsame | ⟨request, hrx, hjob⟩
    · exact .same rfl hsame
    · exact .ended request _ hrx rfl hjob
  | refresh runtime =>
    rw [appStep, NemclassApp.doRefresh]
    split_ifs <;> exact .same rfl rfl
  | tryResolve live runtime =>
    obtain ⟨hprocess, hjob, -⟩ := doResolve_keeps s live runtime
    exact .same hprocess hjob
  | snapshot formula =>
    rw [appStep, NemclassApp.snapshotBase]
    split_ifs <;> exact .same rfl rfl
  | selectBackend name => exact .same rfl rfl
  | clickProcess idx => exact .same rfl rfl
  | selectClass uuid => exact .same rfl rfl
  | followPointer addr uuid => exact .same rfl rfl
  | editFormula => exact .same rfl rfl
  | enumerated result => exact .same rfl rfl
  | answered result => exact .same rfl rfl

/-- What an input does to the list of processes and the row that is selected in it. -/
inductive ListStep (s : NemclassApp) : AppInput → NemclassApp → Prop
  | same {i s'} (hlist : s'.processList = s.processList)
      (hidx : s'.selectedProcessIdx = s.selectedProcessIdx) : ListStep s i s'
  | clicked {s'} (idx : ℕ) (hlist : s'.processList = s.processList)
      (hidx : s'.selectedProcessIdx = some idx) : ListStep s (.clickProcess idx) s'
  | replaced {i s'} (hidx : s'.selectedProcessIdx = none) : ListStep s i s'
  | cleared {i s'} (hlist : s'.processList = []) : ListStep s i s'

theorem pollEnumerate_list (s : NemclassApp) : ListStep s .poll s.pollEnumerate := by
  rw [NemclassApp.pollEnumerate]
  split
  · dsimp only
    split_ifs
    · unfold NemclassApp.ingestEnumerate
      split
      · exact .replaced rfl
      · exact .cleared rfl
    · exact .same rfl rfl
  · exact .same rfl rfl

theorem teardown_keeps (s : NemclassApp) : s.teardown.2.processList = s.processList ∧
    s.teardown.2.selectedProcessIdx = s.selectedProcessIdx ∧
    s.teardown.2.resolveJob = s.resolveJob ∧ s.teardown.2.selectedClass = s.selectedClass ∧
    (s.teardown.2.scriptResolvedBase = s.scriptResolvedBase ∨
      s.teardown.2.scriptResolvedBase = none) := by
  rw [NemclassApp.teardown]
  split_ifs
  · exact ⟨rfl, rfl, rfl, rfl, .inr rfl⟩
  · exact ⟨rfl, rfl, rfl, rfl, .inl rfl⟩

/-- Besides the teardown, pressing attach changes messages and the job. -/
theorem doAttach_state (backends : List String) (s : NemclassApp) (runtime : Bool) :
    ∃ t, (t = s ∨ t = s.teardown.2) ∧ ∃ lastError statusMsg job,
      (s.doAttach backends runtime).2 =
        { t with lastError := lastError, statusMsg := statusMsg, attachJob := job } := by
  rw [NemclassApp.doAttach]
  by_cases hrunning : s.attachJob.isRunning
  · rw [if_pos hrunning]
    exact ⟨s, .inl rfl, s.lastError, s.statusMsg, s.attachJob, rfl⟩
  rw [if_neg hrunning]
  split
  · exact ⟨s, .inl rfl, _, s.statusMsg, s.attachJob, rfl⟩
  · split
    · exact ⟨s, .inl rfl, _, s.statusMsg, s.attachJob, rfl⟩
    · refine ⟨s.teardown.2, .inr rfl, ?_⟩
      dsimp only
      split_ifs
      · exact ⟨s.teardown.2.lastError, s.teardown.2.statusMsg, s.teardown.2.attachJob, rfl⟩
      · exact ⟨none, _, _, rfl⟩
      · exact ⟨_, s.teardown.2.statusMsg, s.teardown.2.attachJob, rfl⟩

variable (backends) in
theorem appStep_list (s : NemclassApp) (i : AppInput) :
    ListStep s i (appStep backends s i).2 := by
  obtain ⟨hlist, hidx, -⟩ := teardown_keeps s
  cases i with
  | poll =>
    obtain ⟨hlist, hidx, -⟩ := pollAttach_keeps s.pollEnumerate
    obtain ⟨-, -, hlist', hidx', -⟩ := pollResolve_keeps s.pollEnumerate.pollAttach.2
    have hl := hlist'.trans hlist
    have hi := hidx'.trans hidx
    cases pollEnumerate_list s with
    | same hl' hi' => exact .same (hl.trans hl') (hi.trans hi')
    | replaced hi' => exact .replaced (hi.trans hi')
    | cleared hl' => exact .cleared (hl.trans hl')
  | clickProcess idx => exact .clicked idx rfl rfl
  | attach runtime =>
    obtain ⟨t, ht, lastError, statusMsg, job, heq⟩ := doAttach_state backends s runtime
    rw [appStep, heq]
    rcases ht with rfl | rfl
    · exact .same rfl rfl
    · exact .same hlist hidx
  | detach =>
    rw [appStep, NemclassApp.doDetach]
    split_ifs
    · exact .same hlist hidx
    · exact .same rfl rfl
  | refresh runtime =>
    rw [appStep, NemclassApp.doRefresh]
    split_ifs <;> exact .same rfl rfl
  | tryResolve live runtime =>
    obtain ⟨-, -, hlist, hidx, -⟩ := doResolve_keeps s live runtime
    exact .same hlist hidx
  | snapshot formula =>
    rw [appStep, NemclassApp.snapshotBase]
    split_ifs <;> exact .same rfl rfl
  | selectBackend name => exact .same rfl rfl
  | selectClass uuid => exact .same rfl rfl
  | followPointer addr uuid => exact .same rfl rfl
  | editFormula => exact .same rfl rfl
  | enumerated result => exact .same rfl rfl
  | opened result => exact .same rfl rfl
  | answered result => exact .same rfl rfl

end Steps

/-! ## Runs -/

/-- Nothing is attached, asked for or on its way. -/
structure NemclassApp.Fresh (s : NemclassApp) : Prop where
  process : s.process = none
  selectedProcessIdx : s.selectedProcessIdx = none
  attachJob : s.attachJob.rx = none
  resolveJob : s.resolveJob.rx = none
  scriptResolvedBase : s.scriptResolvedBase = none

def LifecycleEvent.isAttach : LifecycleEvent → Bool
  | .onAttach _ _ => true
  | .onDetach => false

def AppInput.isClick : AppInput → Bool
  | .clickProcess _ => true
  | _ => false

def AppInput.isAttach : AppInput → Bool
  | .attach _ => true
  | _ => false

/-- Attaches and detaches alternate, and leave this process attached. -/
inductive Alternates : List LifecycleEvent → Option ℤ → Prop
  | nil : Alternates [] none
  | attach {es : List LifecycleEvent} (pid : ℤ) (name : Option String) (h : Alternates es none) :
      Alternates (es ++ [.onAttach pid name]) (some pid)
  | detach {es : List LifecycleEvent} {pid : ℤ} (h : Alternates es (some pid)) :
      Alternates (es ++ [.onDetach]) none

section Runs

variable (backends : List String) (start : NemclassApp)

/-- The application after these inputs. -/
def after (inputs : List AppInput) : NemclassApp := final (appStep backends) start inputs

/-- What they published. -/
def emitted (inputs : List AppInput) : List LifecycleEvent :=
  (trace (appStep backends) start inputs).flatMap (·.2)

/-- This is what the row held that was clicked last, when it was clicked. -/
def Clicked (inputs : List AppInput) (entry : ProcessEntry) : Prop :=
  ∃ before idx later, inputs = before ++ .clickProcess idx :: later ∧
    (∀ x ∈ later, x.isClick = false) ∧ (after backends start before).processList[idx]? = some entry

/-- The button was pressed for it. -/
def Requested (inputs : List AppInput) (request : ℤ × String) : Prop :=
  ∃ before later entry, inputs = before ++ .attach true :: later ∧
    Clicked backends start before entry ∧ request = (entry.pid, entry.name)

variable {backends start}

theorem after_concat (inputs : List AppInput) (i : AppInput) :
    after backends start (inputs ++ [i]) = (appStep backends (after backends start inputs) i).2 :=
  final_concat inputs i

theorem emitted_concat (inputs : List AppInput) (i : AppInput) :
    emitted backends start (inputs ++ [i]) =
      emitted backends start inputs ++ (appStep backends (after backends start inputs) i).1 := by
  rw [emitted, trace_concat, List.flatMap_append, List.flatMap_singleton]
  rfl

theorem Clicked.concat {inputs : List AppInput} {entry : ProcessEntry}
    (h : Clicked backends start inputs entry) {i : AppInput} (hi : i.isClick = false) :
    Clicked backends start (inputs ++ [i]) entry := by
  obtain ⟨before, idx, later, rfl, hlater, hentry⟩ := h
  refine ⟨before, idx, later ++ [i], by rw [List.append_assoc, List.cons_append], ?_, hentry⟩
  intro x hx
  rcases List.mem_append.mp hx with hx | hx
  · exact hlater x hx
  · rw [List.mem_singleton.mp hx]
    exact hi

theorem Requested.concat {inputs : List AppInput} {request : ℤ × String}
    (h : Requested backends start inputs request) (i : AppInput) :
    Requested backends start (inputs ++ [i]) request := by
  obtain ⟨before, later, entry, rfl, hclicked, heq⟩ := h
  exact ⟨before, later ++ [i], entry, by rw [List.append_assoc, List.cons_append], hclicked, heq⟩

/-- The row that is selected, where there is one, is the one that was clicked. -/
theorem clicked_of_selected (hstart : start.Fresh) (inputs : List AppInput) {idx : ℕ}
    {entry : ProcessEntry} (hidx : (after backends start inputs).selectedProcessIdx = some idx)
    (hentry : (after backends start inputs).processList[idx]? = some entry) :
    Clicked backends start inputs entry := by
  induction inputs using List.reverseRecOn generalizing idx with
  | nil =>
    rw [show (after backends start []).selectedProcessIdx = none from hstart.selectedProcessIdx]
      at hidx
    cases hidx
  | append_singleton inputs i ih =>
    rw [after_concat] at hidx hentry
    have hstep := appStep_list backends (after backends start inputs) i
    by_cases hclick : i.isClick
    · cases i with
      | clickProcess j => exact ⟨inputs, idx, [], by cases hidx; rfl, by simp, hentry⟩
      | _ => cases hclick
    · rw [Bool.not_eq_true] at hclick
      cases hstep with
      | same hlist hsel => exact (ih (hsel ▸ hidx) (hlist ▸ hentry)).concat hclick
      | clicked j hlist hsel => cases hclick
      | replaced hsel => rw [hsel] at hidx; cases hidx
      | cleared hlist => rw [hlist] at hentry; cases hentry

theorem Alternates.torn {es : List LifecycleEvent} {p : Option ℤ} (h : Alternates es p) {t : ℤ}
    (hp : p = some t) : Alternates (es ++ [.onDetach]) none := by
  subst hp
  exact h.detach

/-- What holds of attaching throughout a run. While a worker opens a process none is attached; what
it opens was asked for, and there is at most one attach for a press of the button. -/
structure Attaching (R : ℤ × String → Prop) (presses : ℕ) (es : List LifecycleEvent)
    (s : NemclassApp) : Prop where
  alternates : Alternates es s.process
  pending : ∀ r, s.attachJob.rx = some r → s.process = none ∧ R r.1
  attached : ∀ pid name, .onAttach pid name ∈ es → ∃ r, R r ∧ pid = r.1 ∧ name = some r.2
  count : es.countP LifecycleEvent.isAttach + (if s.attachJob.rx.isSome then 1 else 0) ≤ presses

/-- Nothing is published, and the job is as before or gone, or its worker has ended. -/
theorem Attaching.quiet {R R' : ℤ × String → Prop} {n n' : ℕ} {es : List LifecycleEvent}
    {s s' : NemclassApp} (h : Attaching R n es s) (hR : ∀ r, R r → R' r) (hn : n ≤ n')
    (hprocess : s'.process = s.process)
    (hjob : ∀ r, s'.attachJob.rx = some r → ∃ r', s.attachJob.rx = some r' ∧ r'.1 = r.1) :
    Attaching R' n' es s' where
  alternates := hprocess ▸ h.alternates
  pending r hr := by
    obtain ⟨r', hr', heq⟩ := hjob r hr
    obtain ⟨hnone, hrequest⟩ := h.pending r' hr'
    exact ⟨hprocess.trans hnone, heq ▸ hR _ hrequest⟩
  attached pid name hmem := by
    obtain ⟨r, hr, heq⟩ := h.attached pid name hmem
    exact ⟨r, hR r hr, heq⟩
  count := by
    have hcount := h.count
    by_cases hsome : s'.attachJob.rx.isSome
    · obtain ⟨r, hr⟩ := Option.isSome_iff_exists.mp hsome
      obtain ⟨r', hr', -⟩ := hjob r hr
      rw [hr', Option.isSome_some, if_pos rfl] at hcount
      rw [if_pos hsome]
      omega
    · rw [if_neg hsome]
      omega

theorem Attaching.step {R R' : ℤ × String → Prop} {n : ℕ} {es es' : List LifecycleEvent}
    {s s' : NemclassApp} {i : AppInput} (h : Attaching R n es s) (hstep : AttachStep s i es' s')
    (hR : ∀ r, R r → R' r)
    (hnew : ∀ idx entry, i = .attach true → s.selectedProcessIdx = some idx →
      s.processList[idx]? = some entry → R' (entry.pid, entry.name)) :
    Attaching R' (n + if i.isAttach then 1 else 0) (es ++ es') s' := by
  have hn : n ≤ n + if i.isAttach then 1 else 0 := Nat.le_add_right n _
  cases hstep with
  | same hprocess hjob =>
    rw [List.append_nil]
    exact h.quiet hR hn hprocess fun r hr => ⟨r, hjob ▸ hr, rfl⟩
  | ended request channel hrx hprocess hjob =>
    rw [List.append_nil]
    exact h.quiet hR hn hprocess fun r hr => ⟨_, hrx, by rw [hjob] at hr; cases hr; rfl⟩
  | failed hprocess hjob =>
    rw [List.append_nil]
    exact h.quiet hR hn hprocess fun r hr => by rw [hjob] at hr; cases hr
  | torn hi hsome hprocess hjob =>
    obtain ⟨pid, hpid⟩ := Option.isSome_iff_exists.mp hsome
    -- a job in flight would mean that nothing was attached
    have hidle : s.attachJob.rx = none := by
      by_contra hrx
      obtain ⟨r, hr⟩ := Option.ne_none_iff_exists'.mp hrx
      rw [(h.pending r hr).1] at hpid
      cases hpid
    have hrx : s'.attachJob.rx = none := by rw [hjob, hidle]
    refine ⟨hprocess ▸ h.alternates.torn hpid, fun r hr => ?_, fun p name hmem => ?_, ?_⟩
    · rw [hrx] at hr
      cases hr
    · rcases List.mem_append.mp hmem with hmem | hmem
      · obtain ⟨r, hr, heq⟩ := h.attached p name hmem
        exact ⟨r, hR r hr, heq⟩
      · cases List.mem_singleton.mp hmem
    · have hcount := h.count
      rw [hidle, Option.isSome_none] at hcount
      rw [hrx, Option.isSome_none, List.countP_append, List.countP_singleton]
      simp only [LifecycleEvent.isAttach, Bool.false_eq_true, if_false] at hcount ⊢
      omega
  | spawned idx entry hidle hidx hentry hevents hprocess hjob =>
    have hcount := h.count
    rw [hidle, Option.isSome_none] at hcount
    have hquiet : es'.countP LifecycleEvent.isAttach = 0 ∧ Alternates (es ++ es') s'.process := by
      rcases (teardown_cases s).1 with ⟨hsome, hes⟩ | ⟨hnone, hes⟩
      · obtain ⟨pid, hpid⟩ := Option.isSome_iff_exists.mp hsome
        rw [hevents, hes, hprocess]
        exact ⟨rfl, h.alternates.torn hpid⟩
      · rw [hevents, hes, hprocess, List.append_nil]
        exact ⟨rfl, hnone ▸ h.alternates⟩
    refine ⟨hquiet.2, fun r hr => ?_, fun p name hmem => ?_, ?_⟩
    · rw [hjob] at hr
      cases hr
      exact ⟨hprocess, hnew idx entry rfl hidx hentry⟩
    · rcases List.mem_append.mp hmem with hmem | hmem
      · obtain ⟨r, hr, heq⟩ := h.attached p name hmem
        exact ⟨r, hR r hr, heq⟩
      · have hpos := List.countP_pos_iff (p := LifecycleEvent.isAttach).mpr ⟨_, hmem, rfl⟩
        omega
    · rw [hjob, Option.isSome_some, List.countP_append, hquiet.1]
      simp only [AppInput.isAttach, if_true, Bool.false_eq_true, if_false] at hcount ⊢
      omega
  | ingested request hrx hprocess hjob =>
    obtain ⟨hnone, hrequest⟩ := h.pending _ hrx
    have hcount := h.count
    rw [hrx, Option.isSome_some, if_pos rfl] at hcount
    refine ⟨?_, fun r hr => ?_, fun p name hmem => ?_, ?_⟩
    · rw [hprocess]
      exact .attach _ _ (hnone ▸ h.alternates)
    · rw [hjob] at hr
      cases hr
    · rcases List.mem_append.mp hmem with hmem | hmem
      · obtain ⟨r, hr, heq⟩ := h.attached p name hmem
        exact ⟨r, hR r hr, heq⟩
      · cases List.mem_singleton.mp hmem
        exact ⟨request, hR request hrequest, rfl, rfl⟩
    · rw [hjob, Option.isSome_none, List.countP_append, List.countP_singleton]
      simp only [LifecycleEvent.isAttach, if_true, Bool.false_eq_true, if_false]
      omega

theorem attaching (hstart : start.Fresh) (inputs : List AppInput) :
    Attaching (Requested backends start inputs) (inputs.countP AppInput.isAttach)
      (emitted backends start inputs) (after backends start inputs) := by
  induction inputs using List.reverseRecOn with
  | nil =>
    have hrx : (after backends start []).attachJob.rx = none := hstart.attachJob
    have hprocess : (after backends start []).process = none := hstart.process
    refine ⟨hprocess ▸ .nil, fun r hr => ?_, fun pid name hmem => ?_, ?_⟩
    · rw [hrx] at hr
      cases hr
    · cases hmem
    · rw [hrx]
      exact Nat.le_refl 0
  | append_singleton inputs i ih =>
    rw [after_concat, emitted_concat, List.countP_append, List.countP_singleton]
    refine ih.step (appStep_attach _ i) (fun r hr => hr.concat i) ?_
    rintro idx entry rfl hidx hentry
    exact ⟨inputs, [], entry, rfl, clicked_of_selected hstart inputs hidx hentry, rfl⟩

/-- In every run of what the user does, workers come to and frames take in, attaches and detaches
are published in turn and leave attached what the last of them says. What gets attached is the
process of the row that was clicked last before the button was pressed, as the list showed it then,
however the list was refreshed meanwhile; and the button attaches once for a press at most. -/
theorem attach_lifecycle (hstart : start.Fresh) (inputs : List AppInput) :
    Alternates (emitted backends start inputs) (after backends start inputs).process ∧
    (∀ pid name, .onAttach pid name ∈ emitted backends start inputs →
      ∃ r, Requested backends start inputs r ∧ pid = r.1 ∧ name = some r.2) ∧
    (emitted backends start inputs).countP LifecycleEvent.isAttach ≤
      inputs.countP AppInput.isAttach := by
  have h : Attaching _ _ (emitted backends start inputs) (after backends start inputs) :=
    attaching hstart inputs
  exact ⟨h.alternates, h.attached, Nat.le_of_add_right_le h.count⟩

theorem attach_lifecycle_refreshed :
    let start : NemclassApp :=
      ⟨"linux", [⟨7, "game"⟩], "", none, none, none, none, none, .idle, .idle, .idle, none, none, none⟩
    let inputs : List AppInput :=
      [.clickProcess 0, .refresh true, .attach true, .enumerated (some (.error "busy")),
        .opened (some (.ok ())), .poll]
    Alternates [.onAttach 7 (some "game")] (some 7) ∧
      ∃ r, Requested ["linux"] start inputs r ∧ 7 = r.1 ∧ some "game" = some r.2 := by
  intro start inputs
  have hfresh : start.Fresh := ⟨rfl, rfl, rfl, rfl, rfl⟩
  have h := @attach_lifecycle ["linux"] start hfresh inputs
  have hemitted : emitted ["linux"] start inputs = [.onAttach 7 (some "game")] := by decide
  have hprocess : (after ["linux"] start inputs).process = some 7 := by decide
  rw [hemitted] at h
  exact ⟨hprocess ▸ h.1, h.2.1 7 (some "game") List.mem_cons_self⟩

/-! ## The base that a script resolves -/

/-- What an input does to the resolved base and the class it is for. -/
inductive BaseStep (s : NemclassApp) : AppInput → NemclassApp → Prop
  | same {i s'} (hclass : s'.selectedClass = s.selectedClass)
      (hbase : s'.scriptResolvedBase = s.scriptResolvedBase) : BaseStep s i s'
  | cleared {i s'} (hbase : s'.scriptResolvedBase = none) : BaseStep s i s'
  | followed {s'} (addr : ℕ) (uuid : Uuid) (hclass : s'.selectedClass = some uuid)
      (hbase : s'.scriptResolvedBase = some addr) : BaseStep s (.followPointer addr uuid) s'
  | answered {s'} (query : ClassAddressQuery) (addr : ℕ)
      (hrx : s.resolveJob.rx = some (query, .sent (some addr)))
      (hclass : s'.selectedClass = some query.class_)
      (hbase : s'.scriptResolvedBase = some addr) : BaseStep s .poll s'

/-- What an input does to the job that resolves. -/
inductive ResolveStep (s : NemclassApp) : AppInput → NemclassApp → Prop
  | same {i s'} (hjob : s'.resolveJob = s.resolveJob) : ResolveStep s i s'
  | asked {s'} (pid : ℤ) (uuid : Uuid) (hprocess : s.process = some pid)
      (hclass : s.selectedClass = some uuid)
      (hjob : s'.resolveJob.rx = some (⟨pid, uuid⟩, .empty)) : ResolveStep s (.tryResolve true true) s'
  | ended {s'} (result : Option (Option ℕ)) (query : ClassAddressQuery)
      (hrx : s.resolveJob.rx = some (query, .empty))
      (hjob : s'.resolveJob.rx = some (query, result.elim .disconnected .sent)) :
      ResolveStep s (.answered result) s'
  | gone {i s'} (hjob : s'.resolveJob.rx = none) : ResolveStep s i s'

theorem pollResolve_base (s : NemclassApp) : BaseStep s .poll s.pollResolve := by
  rw [NemclassApp.pollResolve, BackgroundJob.poll]
  cases hrx : s.resolveJob.rx with
  | none => exact .same rfl rfl
  | some job =>
    obtain ⟨query, channel⟩ := job
    cases channel with
    | empty => exact .same rfl rfl
    | disconnected => exact .same rfl rfl
    | sent resolved =>
      unfold NemclassApp.ingestResolve
      dsimp only
      split_ifs with hother
      · exact .same rfl rfl
      · cases resolved with
        | none => exact .same rfl rfl
        | some addr => exact .answered query addr hrx (not_not.mp hother) rfl

variable (backends) in
theorem appStep_base (s : NemclassApp) (i : AppInput) :
    BaseStep s i (appStep backends s i).2 := by
  obtain ⟨-, -, -, hclass, hbase⟩ := teardown_keeps s
  have htorn {i : AppInput} {s' : NemclassApp} (hc : s'.selectedClass = s.teardown.2.selectedClass)
      (hb : s'.scriptResolvedBase = s.teardown.2.scriptResolvedBase) : BaseStep s i s' := by
    rcases hbase with hsame | hnone
    · exact .same (hc.trans hclass) (hb.trans hsame)
    · exact .cleared (hb.trans hnone)
  cases i with
  | attach runtime =>
    obtain ⟨t, ht, lastError, statusMsg, job, heq⟩ := doAttach_state backends s runtime
    rw [appStep, heq]
    rcases ht with rfl | rfl
    · exact .same rfl rfl
    · exact htorn rfl rfl
  | detach =>
    rw [appStep, NemclassApp.doDetach]
    split_ifs
    · exact htorn rfl rfl
    · exact .same rfl rfl
  | poll =>
    obtain ⟨-, -, hjob, hclass, hbase⟩ := pollEnumerate_keeps s
    obtain ⟨-, -, hjob', hclass', hbase'⟩ := pollAttach_keeps s.pollEnumerate
    have hc := hclass'.trans hclass
    have hb := hbase'.trans hbase
    have hj := congrArg BackgroundJob.rx (hjob'.trans hjob)
    change BaseStep s .poll s.pollEnumerate.pollAttach.2.pollResolve
    have hstep := pollResolve_base s.pollEnumerate.pollAttach.2
    generalize s.pollEnumerate.pollAttach.2.pollResolve = s' at hstep
    cases hstep with
    | same hc' hb' => exact .same (hc'.trans hc) (hb'.trans hb)
    | cleared hb' => exact .cleared hb'
    | answered query addr hrx hc' hb' => exact .answered query addr (hj.symm.trans hrx) hc' hb'
  | tryResolve live runtime =>
    obtain ⟨-, -, -, -, hclass⟩ := doResolve_keeps s live runtime
    refine .same hclass ?_
    rw [appStep]
    unfold NemclassApp.doResolveClassAddress
    split
    · dsimp only
      split_ifs
      · rfl
      · rfl
      · rfl
      · unfold NemclassApp.ingestResolve
        dsimp only
        split_ifs <;> rfl
    · rfl
  | refresh runtime =>
    rw [appStep, NemclassApp.doRefresh]
    split_ifs <;> exact .same rfl rfl
  | snapshot formula =>
    rw [appStep, NemclassApp.snapshotBase]
    split_ifs <;> exact .same rfl rfl
  | selectClass uuid => exact .cleared rfl
  | editFormula => exact .cleared rfl
  | followPointer addr uuid => exact .followed addr uuid rfl rfl
  | selectBackend name => exact .same rfl rfl
  | clickProcess idx => exact .same rfl rfl
  | enumerated result => exact .same rfl rfl
  | opened result => exact .same rfl rfl
  | answered result => exact .same rfl rfl

theorem pollResolve_job (s : NemclassApp) :
    s.pollResolve.resolveJob = s.resolveJob ∨ s.pollResolve.resolveJob.rx = none := by
  rw [NemclassApp.pollResolve, BackgroundJob.poll]
  cases hrx : s.resolveJob.rx with
  | none => exact .inl rfl
  | some job =>
    obtain ⟨query, channel⟩ := job
    cases channel with
    | empty => exact .inl rfl
    | disconnected => exact .inr rfl
    | sent resolved =>
      obtain ⟨-, -, -, -, -, hjob⟩ :=
        ingestResolve_keeps { s with resolveJob := .idle } query.class_ resolved
      exact .inr (congrArg BackgroundJob.rx hjob)

theorem doResolve_job (s : NemclassApp) (live runtime : Bool) :
    ResolveStep s (.tryResolve live runtime) (s.doResolveClassAddress live runtime) := by
  unfold NemclassApp.doResolveClassAddress
  split
  · rename_i uuid pid hclass hprocess
    by_cases hrunning : s.resolveJob.isRunning
    · rw [if_pos hrunning]
      exact .same rfl
    rw [if_neg hrunning]
    cases live with
    | false =>
      obtain ⟨-, -, -, -, -, hjob⟩ := ingestResolve_keeps s uuid none
      exact .same hjob
    | true =>
      cases runtime with
      | false => exact .same rfl
      | true => exact .asked pid uuid hprocess hclass rfl
  · exact .same rfl

variable (backends) in
theorem appStep_resolve (s : NemclassApp) (i : AppInput) :
    ResolveStep s i (appStep backends s i).2 := by
  obtain ⟨-, -, hjob, -⟩ := teardown_keeps s
  cases i with
  | attach runtime =>
    obtain ⟨t, ht, lastError, statusMsg, job, heq⟩ := doAttach_state backends s runtime
    rw [appStep, heq]
    rcases ht with rfl | rfl
    · exact .same rfl
    · exact .same hjob
  | detach =>
    rw [appStep, NemclassApp.doDetach]
    split_ifs
    · exact .same hjob
    · exact .same rfl
  | poll =>
    obtain ⟨-, -, hjob, -⟩ := pollEnumerate_keeps s
    obtain ⟨-, -, hjob', -⟩ := pollAttach_keeps s.pollEnumerate
    rcases pollResolve_job s.pollEnumerate.pollAttach.2 with hsame | hnone
    · exact .same (hsame.trans (hjob'.trans hjob))
    · exact .gone hnone
  | tryResolve live runtime => exact doResolve_job s live runtime
  | answered result =>
    rw [appStep]
    rcases s.resolveJob.finish_rx result with hsame | ⟨query, hrx, hended⟩
    · exact .same hsame
    · exact .ended result query hrx hended
  | refresh runtime =>
    rw [appStep, NemclassApp.doRefresh]
    split_ifs <;> exact .same rfl
  | snapshot formula =>
    rw [appStep, NemclassApp.snapshotBase]
    split_ifs <;> exact .same rfl
  | selectBackend name => exact .same rfl
  | clickProcess idx => exact .same rfl
  | selectClass uuid => exact .same rfl
  | followPointer addr uuid => exact .same rfl
  | editFormula => exact .same rfl
  | enumerated result => exact .same rfl
  | opened result => exact .same rfl

/-- Scripts were asked for the class of the query while it was selected, with its process attached,
which still is unless one of the buttons was pressed since. -/
def Asked (backends : List String) (start : NemclassApp) (inputs : List AppInput)
    (query : ClassAddressQuery) : Prop :=
  ∃ before later, inputs = before ++ .tryResolve true true :: later ∧
    (after backends start before).process = some query.pid ∧
    (after backends start before).selectedClass = some query.class_ ∧
    ((∀ x ∈ later, x.reattaches = false) →
      (after backends start inputs).process = some query.pid ∧
        (after backends start inputs).attachJob.rx = none)

/-- The worker that asked came to this answer. -/
def Answered (backends : List String) (start : NemclassApp) (inputs : List AppInput)
    (query : ClassAddressQuery) (answer : Option ℕ) : Prop :=
  ∃ before later, inputs = before ++ .answered (some answer) :: later ∧
    (after backends start before).resolveJob.rx = some (query, .empty)

/-- Without the buttons, a process stays attached. -/
theorem AttachStep.stays {s s' : NemclassApp} {i : AppInput} {events : List LifecycleEvent}
    (h : AttachStep s i events s') (hi : i.reattaches = false) {pid : ℤ}
    (hprocess : s.process = some pid) (hidle : s.attachJob.rx = none) :
    s'.process = some pid ∧ s'.attachJob.rx = none := by
  cases h with
  | same hp hj => exact ⟨hp.trans hprocess, hj ▸ hidle⟩
  | torn hbutton hsome hp hj => rw [hbutton] at hi; cases hi
  | spawned idx entry hrx hidx hentry hevents hp hj => cases hi
  | ended request channel hrx hp hj => rw [hidle] at hrx; cases hrx
  | ingested request hrx hp hj => rw [hidle] at hrx; cases hrx
  | failed hp hj => exact ⟨hp.trans hprocess, hj⟩

theorem Asked.concat {inputs : List AppInput} {query : ClassAddressQuery}
    (h : Asked backends start inputs query) (i : AppInput) :
    Asked backends start (inputs ++ [i]) query := by
  obtain ⟨before, later, hinputs, hprocess, hclass, hstays⟩ := h
  refine ⟨before, later ++ [i], ?_, hprocess, hclass, fun hlater => ?_⟩
  · rw [hinputs, List.append_assoc, List.cons_append]
  · obtain ⟨hearlier, hi⟩ := List.forall_mem_append.mp hlater
    obtain ⟨hsame, hidle⟩ := hstays hearlier
    rw [after_concat]
    exact (appStep_attach _ i).stays (hi i List.mem_cons_self) hsame hidle

theorem Answered.concat {inputs : List AppInput} {query : ClassAddressQuery} {answer : Option ℕ}
    (h : Answered backends start inputs query answer) (i : AppInput) :
    Answered backends start (inputs ++ [i]) query answer := by
  obtain ⟨before, later, rfl, hrx⟩ := h
  exact ⟨before, later ++ [i], by rw [List.append_assoc, List.cons_append], hrx⟩

/-- What holds of resolving throughout a run. -/
structure Resolving (backends : List String) (start : NemclassApp) (inputs : List AppInput) :
    Prop where
  asked : ∀ r, (after backends start inputs).resolveJob.rx = some r →
    Asked backends start inputs r.1
  answered : ∀ query answer,
    (after backends start inputs).resolveJob.rx = some (query, .sent answer) →
      Answered backends start inputs query answer
  base : ∀ addr, (after backends start inputs).scriptResolvedBase = some addr →
    ∃ uuid, (after backends start inputs).selectedClass = some uuid ∧
      (.followPointer addr uuid ∈ inputs ∨
        ∃ pid, Asked backends start inputs ⟨pid, uuid⟩ ∧
          Answered backends start inputs ⟨pid, uuid⟩ (some addr))

theorem resolving (hstart : start.Fresh) (inputs : List AppInput) :
    Resolving backends start inputs := by
  induction inputs using List.reverseRecOn with
  | nil =>
    have hrx : (after backends start []).resolveJob.rx = none := hstart.resolveJob
    have hbase : (after backends start []).scriptResolvedBase = none := hstart.scriptResolvedBase
    refine ⟨fun r hr => ?_, fun query answer hr => ?_, fun addr haddr => ?_⟩
    · rw [hrx] at hr
      cases hr
    · rw [hrx] at hr
      cases hr
    · rw [hbase] at haddr
      cases haddr
  | append_singleton inputs i ih =>
    have hkeep (addr : ℕ) (uuid : Uuid) (h : .followPointer addr uuid ∈ inputs ∨
        ∃ pid, Asked backends start inputs ⟨pid, uuid⟩ ∧
          Answered backends start inputs ⟨pid, uuid⟩ (some addr)) :
        .followPointer addr uuid ∈ inputs ++ [i] ∨
          ∃ pid, Asked backends start (inputs ++ [i]) ⟨pid, uuid⟩ ∧
            Answered backends start (inputs ++ [i]) ⟨pid, uuid⟩ (some addr) :=
      h.imp (List.mem_append_left [i]) fun ⟨pid, hasked, hanswered⟩ =>
        ⟨pid, hasked.concat i, hanswered.concat i⟩
    have hattach : Attaching _ _ _ (after backends start inputs) := attaching hstart inputs
    constructor
    · intro r hr
      rw [after_concat] at hr
      cases appStep_resolve backends (after backends start inputs) i with
      | same hjob => exact (ih.asked r (hjob ▸ hr)).concat i
      | ended result query hrx hjob =>
        rw [hjob] at hr
        cases hr
        exact (ih.asked _ hrx).concat _
      | gone hjob => rw [hjob] at hr; cases hr
      | asked pid uuid hprocess hclass hjob =>
        rw [hjob] at hr
        cases hr
        obtain ⟨hsame, hidle, -⟩ := doResolve_keeps (after backends start inputs) true true
        refine ⟨inputs, [], rfl, hprocess, hclass, fun _ => ?_⟩
        rw [after_concat]
        refine ⟨hsame.trans hprocess, (congrArg BackgroundJob.rx hidle).trans ?_⟩
        -- a job in flight would mean that nothing was attached
        by_contra hrx
        obtain ⟨request, hrequest⟩ := Option.ne_none_iff_exists'.mp hrx
        rw [(hattach.pending request hrequest).1] at hprocess
        cases hprocess
    · intro query answer hr
      rw [after_concat] at hr
      cases appStep_resolve backends (after backends start inputs) i with
      | same hjob => exact (ih.answered query answer (hjob ▸ hr)).concat i
      | gone hjob => rw [hjob] at hr; cases hr
      | asked pid uuid hprocess hclass hjob => rw [hjob] at hr; cases hr
      | ended result query' hrx hjob =>
        rw [hjob] at hr
        cases result with
        | none => cases hr
        | some value =>
          cases hr
          exact ⟨inputs, [], rfl, hrx⟩
    · intro addr haddr
      rw [after_concat] at haddr ⊢
      cases appStep_base backends (after backends start inputs) i with
      | same hclass hbase =>
        obtain ⟨uuid, huuid, h⟩ := ih.base addr (hbase ▸ haddr)
        exact ⟨uuid, hclass.trans huuid, hkeep addr uuid h⟩
      | cleared hbase => rw [hbase] at haddr; cases haddr
      | followed addr' uuid hclass hbase =>
        rw [hbase] at haddr
        cases haddr
        exact ⟨uuid, hclass, .inl (List.mem_append_right inputs List.mem_cons_self)⟩
      | answered query addr' hrx hclass hbase =>
        rw [hbase] at haddr
        cases haddr
        exact ⟨query.class_, hclass, hkeep addr query.class_
          (.inr ⟨query.pid, ih.asked _ hrx, ih.answered query (some addr) hrx⟩)⟩

/-- A base that a script resolved is the selected class's, at any time of every run: a pointer to
that class was followed there, or scripts were asked for that class while it was selected, and
answered so. The process that they were asked about is still attached if neither button was pressed
since; an answer is not dropped because another process has come meanwhile. -/
theorem resolved_base (hstart : start.Fresh) (inputs : List AppInput) {addr : ℕ}
    (haddr : (after backends start inputs).scriptResolvedBase = some addr) :
    ∃ uuid, (after backends start inputs).selectedClass = some uuid ∧
      (.followPointer addr uuid ∈ inputs ∨
        ∃ pid, Asked backends start inputs ⟨pid, uuid⟩ ∧
          Answered backends start inputs ⟨pid, uuid⟩ (some addr)) :=
  (resolving hstart inputs).base addr haddr

theorem resolved_base_late :
    let start : NemclassApp :=
      ⟨"linux", [⟨7, "game"⟩, ⟨8, "tool"⟩], "", none, none, none, none, none, .idle, .idle, .idle,
        some Uuid.nil, none, none⟩
    let inputs : List AppInput :=
      [.clickProcess 0, .attach true, .opened (some (.ok ())), .poll, .tryResolve true true,
        .clickProcess 1, .attach true, .opened (some (.ok ())), .answered (some (some 64)), .poll]
    (after ["linux"] start inputs).process = some 8 ∧
      ∃ pid, Asked ["linux"] start inputs ⟨pid, Uuid.nil⟩ ∧
        Answered ["linux"] start inputs ⟨pid, Uuid.nil⟩ (some 64) := by
  intro start inputs
  refine ⟨by decide, ?_⟩
  have hfresh : start.Fresh := ⟨rfl, rfl, rfl, rfl, rfl⟩
  have hbase : (after ["linux"] start inputs).scriptResolvedBase = some 64 := by decide
  obtain ⟨uuid, huuid, hfollowed | h⟩ := resolved_base hfresh inputs hbase
  · simp [inputs] at hfollowed
  · cases huuid
    exact h

end Runs

end Nemclass.Ui
