import Nemclass.Lib.Trace
import Nemclass.Scan.Session

/-! The scanner panel. A scan runs on a worker, which takes the session's scanner along and sends
it back with the results; meanwhile the panel holds no scanner, or the one of the session before.
The text fields come as the needle and the filter that they parse to. The status line is left out. -/
namespace Nemclass.Ui
open Scan

/-- The compares of a first scan. -/
def firstScanCompares : List ScanCompareType :=
  [.exact, .notEqual, .greaterThan, .lessThan, .between, .unknown]

def nextScanCompares : List ScanCompareType :=
  [.exact, .notEqual, .greaterThan, .lessThan, .between, .increased, .increasedBy, .decreased,
    .decreasedBy, .changed, .unchanged]

/-- The compares the combo offers, given whether a scan session is active. -/
def availableCompares (hasScan : Bool) : List ScanCompareType :=
  if hasScan then nextScanCompares else firstScanCompares

def snapCompare (compare : ScanCompareType) (hasScan : Bool) : ScanCompareType :=
  if compare ∈ availableCompares hasScan then compare
  else if hasScan then .changed else .exact

theorem snapCompare_mem (compare : ScanCompareType) (hasScan : Bool) :
    snapCompare compare hasScan ∈ availableCompares hasScan := by
  unfold snapCompare
  split
  · assumption
  · cases hasScan <;> decide

/-- What a worker runs. -/
inductive ScanTask where
  | first (valueType : ScanValueType) (regionFilter : RegionFilter) (alignment : ℕ)
      (compare : ScanCompareType) (needle : Option Needle)
  | next (scanner : Scanner) (compare : ScanCompareType) (needle : Option Needle)

/-- The worker hands the scanner back with a copy of its results or with the error of the scan. -/
inductive ScanOutcome where
  | fatal
  | done (scanner : Scanner) (scanResult : Except ScanError (List ScanResult))

namespace ScanTask
variable {σ : Type}

def valueType : ScanTask → ScanValueType
  | first valueType .. => valueType
  | next scanner .. => scanner.valueType

/-- An overflow ends the worker before it sends anything. -/
def outcome : Except Failure Unit × Scanner × σ → Option ScanOutcome
  | (.ok (), scanner, _) => some (.done scanner (.ok scanner.results.rows))
  | (.error (.error e), scanner, _) => some (.done scanner (.error e))
  | (.error .overflow, _, _) => none

def run (target : ScanTarget σ) (observer : ScanObserver σ) (world : σ) :
    ScanTask → Option ScanOutcome
  | first valueType regionFilter alignment compare needle =>
    let scanner := ((Scanner.new valueType).setRegionFilter regionFilter).setAlignment alignment
    outcome (scanner.firstScanWith target observer compare needle world)
  | next scanner compare needle =>
    outcome (scanner.nextScanWith target observer compare needle world)

end ScanTask

/-- What the panel's end of the channel to a worker would find. -/
inductive Channel (α : Type) where
  | empty
  | sent (value : α)
  | disconnected

/-- The job in flight. `id` counts the jobs that were started before; the code does not keep it. -/
structure ScanJob where
  id : ℕ
  task : ScanTask
  rx : Channel ScanOutcome
  cancelled : Bool

/-- `started` counts the jobs; the code does not keep it. -/
structure ScannerPanel where
  valueType : ScanValueType := .i32
  compare : ScanCompareType := .exact
  fastScan : Bool := true
  scanner : Option Scanner := none
  scanJob : Option ScanJob := none
  resultSnapshot : List ScanResult := []
  process : Bool := false
  started : ℕ := 0

namespace ScannerPanel
variable {σ : Type} (p : ScannerPanel)

/-- What one poll of the job gives; the outcome comes with the job's number. -/
inductive JobPoll where
  | idle
  | running
  | done (id : ℕ) (outcome : ScanOutcome)

def pollJob : JobPoll × ScannerPanel :=
  match p.scanJob with
  | none => (.idle, p)
  | some job =>
    match job.rx with
    | .sent value => (.done job.id value, { p with scanJob := none })
    | .empty => (.running, p)
    | .disconnected => (.idle, { p with scanJob := none })

def receive : ScanOutcome → ScannerPanel
  | .fatal => p
  | .done scanner scanResult =>
    let p := { p with scanner := some scanner, compare := snapCompare p.compare true }
    match scanResult with
    | .ok snapshot => { p with resultSnapshot := snapshot }
    | .error _ =>
      -- A first scan that failed leaves a scanner that has never scanned.
      if scanner.hasScanned then p
      else
        { p with
          scanner := none
          resultSnapshot := []
          compare := snapCompare p.compare false }

/-- Moves a finished scan back onto the panel, and says which job that was. -/
def poll : Option ℕ × ScannerPanel :=
  match p.pollJob with
  | (.done id outcome, p) => (some id, p.receive outcome)
  | (_, p) => (none, p)

def onDetach : ScannerPanel :=
  { p with scanner := none, scanJob := none, process := false, resultSnapshot := [] }

def hasScan : Bool := p.scanner.isSome

def scanning : Bool := p.scanJob.isSome

def canUndo : Bool := p.scanner.any Scanner.canUndo

def spawn (task : ScanTask) : ScannerPanel :=
  { p with scanJob := some ⟨p.started, task, .empty, false⟩, started := p.started + 1 }

/-- The typed needle counts where the compare takes one. -/
def parseNeedle (typed : Option Needle) : Option Needle :=
  if p.compare.needsNeedle then typed else none

def doFirstScan (typed : Option Needle) (filter : Option RegionFilter) : ScannerPanel :=
  if ¬ p.process ∨ p.scanning then p
  else if p.compare.needsNeedle ∧ (p.parseNeedle typed).isNone then p
  else
    match filter with
    | none => p
    | some regionFilter =>
      p.spawn (.first p.valueType regionFilter (if p.fastScan then 0 else 1) p.compare
        (p.parseNeedle typed))

def doNextScan (typed : Option Needle) : ScannerPanel :=
  if p.scanning then p
  else if p.compare.needsNeedle ∧ (p.parseNeedle typed).isNone then p
  else
    match p.scanner with
    | none => p
    | some scanner =>
      { p with scanner := none }.spawn (.next scanner p.compare (p.parseNeedle typed))

def cancel : ScannerPanel :=
  { p with scanJob := p.scanJob.map fun job => { job with cancelled := true } }

def doUndo : ScannerPanel :=
  match p.scanner with
  | none => p
  | some scanner =>
    match scanner.undo with
    | (true, scanner) =>
      { p with scanner := some scanner, resultSnapshot := scanner.results.rows }
    | (false, scanner) => { p with scanner := some scanner }

def newScan : ScannerPanel :=
  { p with scanner := none, resultSnapshot := [], compare := snapCompare p.compare false }

/-- The worker comes to its end, against whatever memory it found. -/
def work (target : ScanTarget σ) (observer : ScanObserver σ) (world : σ) : ScannerPanel :=
  { p with
    scanJob := p.scanJob.map fun job =>
      match job.rx with
      | .empty =>
        { job with rx := ((job.task.run target observer world).map .sent).getD .disconnected }
      | _ => job }

/-- What happens to the panel: its controls are used, a frame is drawn or polled, the process is
detached, the worker ends. -/
inductive Event (σ : Type) where
  | «show» (attached : Bool)
  | chooseValueType (valueType : ScanValueType)
  | chooseCompare (compare : ScanCompareType)
  | chooseFastScan (fastScan : Bool)
  | firstScan (typed : Option Needle) (filter : Option RegionFilter)
  | nextScan (typed : Option Needle)
  | stop
  | undo
  | newScan
  | detach
  | poll
  | work (target : ScanTarget σ) (observer : ScanObserver σ) (world : σ)

/-- What the panel enables. A worker stops early only where Stop was pressed. -/
def Enabled : Event σ → Prop
  | .show _ | .detach | .poll => True
  | .chooseValueType _ | .chooseFastScan _ => p.process ∧ ¬ p.hasScan
  | .chooseCompare compare => p.process ∧ compare ∈ availableCompares p.hasScan
  | .firstScan _ _ => p.process ∧ ¬ p.scanning
  | .nextScan _ => p.process ∧ p.hasScan ∧ ¬ p.scanning
  | .stop => p.process ∧ p.scanning
  | .undo => p.process ∧ p.canUndo
  | .newScan => p.process
  | .work _ observer _ => p.scanning ∧ (¬ p.scanJob.any ScanJob.cancelled → observer.NeverStops)

/-- One event, with the job whose outcome it brings back. -/
def step : Event σ → Option ℕ × ScannerPanel
  | .show attached => (none, { p with process := attached })
  | .chooseValueType valueType => (none, { p with valueType })
  | .chooseCompare compare => (none, { p with compare })
  | .chooseFastScan fastScan => (none, { p with fastScan })
  | .firstScan typed filter => (none, p.doFirstScan typed filter)
  | .nextScan typed => (none, p.doNextScan typed)
  | .stop => (none, p.cancel)
  | .undo => (none, p.doUndo)
  | .newScan => (none, p.newScan)
  | .detach => (none, p.onDetach)
  | .poll => p.poll
  | .work target observer world => (none, p.work target observer world)

end ScannerPanel

end Nemclass.Ui
