import Nemclass.Scan.Sieve
import Nemclass.Ui.Lifecycle
import Nemclass.Ui.StructReads

/-! The scan session of scripts, `scan.first`, `scan.next` and what reads its results. It belongs to
the process that is attached when it begins, and goes on reading that one. Detaching and loading a
project drop it, attaching does not. -/
namespace Nemclass.Ui.ScanSession
open Usize Trace Scan MappedPrefix Process Outcome

/-- `ScanCompareType::from_tag` -/
def compareFromTag (tag : String) : Option ScanCompareType :=
  match String.ofList ((trim tag.toList).map Char.toLower) with
  | "exact" | "eq" | "equal" => some .exact
  | "notequal" | "ne" => some .notEqual
  | "greater" | "gt" | "greaterthan" => some .greaterThan
  | "less" | "lt" | "lessthan" => some .lessThan
  | "between" => some .between
  | "unknown" => some .unknown
  | "increased" | "inc" => some .increased
  | "increasedby" => some .increasedBy
  | "decreased" | "dec" => some .decreased
  | "decreasedby" => some .decreasedBy
  | "changed" => some .changed
  | "unchanged" => some .unchanged
  | _ => none

def asTag : ScanValueType → String
  | .i8 => "i8"
  | .i16 => "i16"
  | .i32 => "i32"
  | .i64 => "i64"
  | .u8 => "u8"
  | .u16 => "u16"
  | .u32 => "u32"
  | .u64 => "u64"
  | .f32 => "f32"
  | .f64 => "f64"
  | .bytes => "bytes"
  | .stringUtf8 => "string_utf8"
  | .stringUtf16 => "string_utf16"

/-- The printing of values, strings, comparisons and errors, which only texts of errors contain. -/
structure Texts where
  printJson : Value → String
  debugStr : String → String
  debugCompare : ScanCompareType → String
  debugNeedleError : NeedleParseError → String
  targetError : Error → String

def Texts.scanError (t : Texts) : ScanError → String
  | .needsFirstScan => "no scan session yet — run a first scan"
  | .compareNeedsPrevious c =>
    t.debugCompare c ++ " compares against the previous scan's value, so it needs a next scan"
  | .compareIsFirstScanOnly c =>
    t.debugCompare c ++ " is a first-scan baseline only — narrow with Changed/Increased/Decreased " ++
      "or an exact value instead"
  | .missingNeedle c => t.debugCompare c ++ " needs a value"
  | .needleTypeMismatch needle scanner =>
    "value is a " ++ asTag needle ++ " but this scan session searches for " ++ asTag scanner ++
      " — press New Scan to change the type"
  | .noStride ty => asTag ty ++ " has no fixed width, so it needs an explicit value to scan for"
  | .targetUnreadable e =>
    "no result address could be read (" ++ t.targetError e ++ ") — has the process exited?"
  | .target e => t.targetError e
  | .cancelled => "scan stopped"

def Texts.failure (t : Texts) (call : String) : Failure → HostFailure
  | .error e => .error (call ++ t.scanError e)
  | .overflow => .overflow

/-- A process as the calls find it, and whether it can be opened by its id. -/
structure LiveProcess extends Snapshot where
  opens : Except String Unit

/-- What of the application the calls and the attaching read and write. -/
structure ScriptedApp where
  app : NemclassApp
  scriptScanner : Option (ℤ × Scanner)

inductive ScanCall where
  | first
  | next
  | results
  | resultsWithValues
  | reset

/-- What the user and the workers do, a project that is loaded, and a call of a script, with the
processes as they are. -/
inductive ScriptInput where
  | ui (i : AppInput)
  | replaceProject (first : Option Model.Uuid)
  | call (c : ScanCall) (args : Value) (processes : ℤ → LiveProcess)

section Calls

variable (t : Texts) (parseFloat : ℕ → List Char → Option Float) (backends : List String)

def parseScanNeedle (vt : ScanValueType) (value : Option Value) (compare : ScanCompareType) :
    Except HostFailure (Option Needle) :=
  if !compare.needsNeedle then .ok none
  else do
    let raw ← orFail value ("compare " ++ t.debugCompare compare ++ " needs a value")
    let text := asStr t.printJson raw
    match vt.parseNeedle parseFloat text with
    | .ok needle => .ok (some needle)
    | .error (.error e) =>
      .error (.error ("bad value " ++ t.debugStr text ++ " for type " ++ asTag vt ++ ": " ++
        t.debugNeedleError e))
    | .error .overflow => .error .overflow

def firstArgs (args : Value) :
    Except HostFailure (ScanValueType × ScanCompareType × Option Needle) := do
  let ty := asStr t.printJson (← arg args 0)
  let vt ← orFail (fromTag ty) ("scan.first: unknown type " ++ t.debugStr ty)
  let compare ← match optArg args 2 with
    | some v =>
      let tag := asStr t.printJson v
      orFail (compareFromTag tag) ("scan.first: unknown compare " ++ t.debugStr tag)
    | none => .ok .exact
  if compare.needsPrevious then
    .error (.error ("scan.first: compare " ++ t.debugCompare compare ++
      " needs a previous scan; use it in scan.next"))
  else
    let needle ← parseScanNeedle t parseFloat vt (optArg args 1) compare
    .ok (vt, compare, needle)

/-- The comparison of `scan.next`, which is read before the session is looked for. -/
def nextCompare (args : Value) : Except HostFailure ScanCompareType := do
  let tag := asStr t.printJson (← arg args 0)
  let compare ← orFail (compareFromTag tag) ("scan.next: unknown compare " ++ t.debugStr tag)
  if compare.isBaseline then
    .error (.error ("scan.next: " ++ t.debugStr tag ++ " is a first-scan baseline — pass it to " ++
      "scan.first, then narrow with \"changed\"/\"increased\"/\"decreased\" or a value"))
  else .ok compare

def nextArgs (vt : ScanValueType) (args : Value) :
    Except HostFailure (ScanCompareType × Option Needle) := do
  let compare ← nextCompare t args
  let needle ← parseScanNeedle t parseFloat vt (optArg args 1) compare
  .ok (compare, needle)

/-- How many results are asked for. -/
def resultsMax (args : Value) : Except HostFailure ℕ :=
  match optArg args 0 with
  | some v => (asF64 t.printJson v).map fun f => min (asUsize f) 100000
  | none => .ok 1000

/-- `n as f64` -/
def count (n : ℕ) : Value := .ofF64 (some (Binary64.roundNat n))

/-- `scan.first` -/
def scanSessionFirst (processes : ℤ → LiveProcess) (args : Value) (s : ScriptedApp) :
    Except HostFailure Value × ScriptedApp :=
  match firstArgs t parseFloat args with
  | .error e => (.error e, s)
  | .ok (vt, compare, needle) =>
    match s.app.process with
    | none => (.error (.error "not attached"), s)
    | some pid =>
      match (processes pid).opens with
      | .error e => (.error (.error ("ProcessTarget: " ++ e)), s)
      | .ok () =>
        match (Scanner.new vt).firstScan (processes pid).target compare needle () with
        | (.error f, _, _) => (.error (t.failure "scan.first: " f), s)
        | (.ok (), scanner, _) =>
          (.ok (count scanner.results.len), { s with scriptScanner := some (pid, scanner) })

/-- `scan.next` -/
def scanSessionNext (processes : ℤ → LiveProcess) (args : Value) (s : ScriptedApp) :
    Except HostFailure Value × ScriptedApp :=
  match nextCompare t args with
  | .error e => (.error e, s)
  | .ok compare =>
    match s.scriptScanner with
    | none =>
      (.error (.error "scan.next: no active scan session — call scan.first first"), s)
    | some (pid, scanner) =>
      match parseScanNeedle t parseFloat scanner.valueType (optArg args 1) compare with
      | .error e => (.error e, s)
      | .ok needle =>
        match scanner.nextScan (processes pid).target compare needle () with
        | (.error f, scanner, _) =>
          (.error (t.failure "scan.next: " f), { s with scriptScanner := some (pid, scanner) })
        | (.ok (), scanner, _) =>
          (.ok (count scanner.results.len), { s with scriptScanner := some (pid, scanner) })

/-- `scan.results` -/
def scanSessionResults (args : Value) (s : ScriptedApp) : Except HostFailure Value := do
  let max ← resultsMax t args
  let (_, scanner) ← orFail s.scriptScanner "scan.results: no active scan session"
  .ok (.array ((scanner.results.rows.take max).map fun r => count r.address))

/-- What is at an address now. -/
def liveValue (p : LiveProcess) (vt : ScanValueType) (a : ℕ) : Value :=
  let width := vt.fixedWidth.getD 0
  if 0 < width then
    match p.read a width with
    | .ok buf => if width ≤ buf.val.length then bytesToJsonNum vt buf.val else .null
    | .error _ => .null
  else .null

/-- `scan.resultsWithValues` -/
def scanSessionValues (processes : ℤ → LiveProcess) (args : Value) (s : ScriptedApp) :
    Except HostFailure Value := do
  let max ← resultsMax t args
  let (pid, scanner) ← orFail s.scriptScanner "scan.resultsWithValues: no active scan session"
  .ok (.array ((scanner.results.rows.take max).map fun r =>
    .object [("address", count r.address),
      ("value", liveValue (processes pid) scanner.valueType r.address),
      ("previous", bytesToJsonNum scanner.valueType r.previous)]))

/-- `scan.reset` -/
def scanSessionReset (s : ScriptedApp) : Except HostFailure Value × ScriptedApp :=
  (.ok (.bool s.scriptScanner.isSome), { s with scriptScanner := none })

def handle (processes : ℤ → LiveProcess) (args : Value) (s : ScriptedApp) :
    ScanCall → Except HostFailure Value × ScriptedApp
  | .first => scanSessionFirst t parseFloat processes args s
  | .next => scanSessionNext t parseFloat processes args s
  | .results => (scanSessionResults t args s, s)
  | .resultsWithValues => (scanSessionValues t processes args s, s)
  | .reset => scanSessionReset s

/-- Whether `do_detach` gets to drop the session. -/
def detaches (app : NemclassApp) : AppInput → Bool
  | .detach => app.process.isSome
  | _ => false

/-- One input, and the answer to a call. -/
def step (s : ScriptedApp) : ScriptInput → Option (Except HostFailure Value) × ScriptedApp
  | .ui i =>
    (none, ⟨(appStep backends s.app i).2, if detaches s.app i then none else s.scriptScanner⟩)
  | .replaceProject first =>
    (none, ⟨{ s.app with selectedClass := first }.clearMemoryState, none⟩)
  | .call c args processes =>
    let (answer, s) := handle t parseFloat processes args s c
    (some answer, s)

end Calls

/-! ## What one input does -/

section Steps

variable {t : Texts} {parseFloat : ℕ → List Char → Option Float} {backends : List String}
  {s : ScriptedApp}

/-- The scan that an answered `scan.next` was. -/
def refinement (t : Texts) (parseFloat : ℕ → List Char → Option Float) (vt : ScanValueType)
    (pid : ℤ) : ScriptInput × Option (Except HostFailure Value) → Option Round
  | (.call .next args processes, some (.ok _)) =>
    (nextArgs t parseFloat vt args).toOption.map fun r => ⟨r.1, r.2, (processes pid).mem⟩
  | _ => none

/-- What an input does to the session. -/
inductive SessionStep (t : Texts) (parseFloat : ℕ → List Char → Option Float) (s : ScriptedApp) :
    ScriptInput → Option (Except HostFailure Value) → ScriptedApp → Prop
  | same {i o s'} (hscanner : s'.scriptScanner = s.scriptScanner)
      (hquiet : ∀ vt pid, refinement t parseFloat vt pid (i, o) = none) :
      SessionStep t parseFloat s i o s'
  | dropped {i o s'} (hscanner : s'.scriptScanner = none) : SessionStep t parseFloat s i o s'
  | began {args processes o s'} (pid : ℤ) (vt : ScanValueType) (compare : ScanCompareType)
      (needle : Option Needle) (scanner : Scanner) (world : Unit)
      (hprocess : s.app.process = some pid) (happ : s'.app = s.app)
      (hargs : firstArgs t parseFloat args = .ok (vt, compare, needle))
      (hscan : (Scanner.new vt).firstScan (processes pid).target compare needle () =
        (.ok (), scanner, world))
      (hscanner : s'.scriptScanner = some (pid, scanner)) :
      SessionStep t parseFloat s (.call .first args processes) o s'
  | refined {args o s'} {processes : ℤ → LiveProcess} (pid : ℤ) (scanner scanner' : Scanner)
      (compare : ScanCompareType) (needle : Option Needle) (world : Unit)
      (hbefore : s.scriptScanner = some (pid, scanner))
      (hround : refinement t parseFloat scanner.valueType pid (.call .next args processes, o) =
        some ⟨compare, needle, (processes pid).mem⟩)
      (hscan : scanner.nextScan (processes pid).target compare needle () = (.ok (), scanner', world))
      (hscanner : s'.scriptScanner = some (pid, scanner')) :
      SessionStep t parseFloat s (.call .next args processes) o s'

/-- A call leaves the attaching alone. -/
theorem handle_app (processes : ℤ → LiveProcess) (args : Value) (c : ScanCall) :
    (handle t parseFloat processes args s c).2.app = s.app := by
  cases c with
  | first =>
    change (scanSessionFirst t parseFloat processes args s).2.app = s.app
    unfold scanSessionFirst
    repeat' split
    all_goals rfl
  | next =>
    change (scanSessionNext t parseFloat processes args s).2.app = s.app
    unfold scanSessionNext
    repeat' split
    all_goals rfl
  | results => rfl
  | resultsWithValues => rfl
  | reset => rfl

theorem first_step (processes : ℤ → LiveProcess) (args : Value) :
    SessionStep t parseFloat s (.call .first args processes)
      (some (scanSessionFirst t parseFloat processes args s).1)
      (scanSessionFirst t parseFloat processes args s).2 := by
  unfold scanSessionFirst
  split
  · exact .same rfl fun _ _ => rfl
  · next vt compare needle hargs =>
    split
    · exact .same rfl fun _ _ => rfl
    · next pid hprocess =>
      split
      · exact .same rfl fun _ _ => rfl
      · split
        · exact .same rfl fun _ _ => rfl
        · next scanner world hscan =>
          exact .began pid vt compare needle scanner world hprocess rfl hargs hscan rfl

theorem next_step (processes : ℤ → LiveProcess) (args : Value) :
    SessionStep t parseFloat s (.call .next args processes)
      (some (scanSessionNext t parseFloat processes args s).1)
      (scanSessionNext t parseFloat processes args s).2 := by
  unfold scanSessionNext
  split
  · exact .same rfl fun _ _ => rfl
  · next compare hcompare =>
    split
    · exact .same rfl fun _ _ => rfl
    · next pid scanner hbefore =>
      split
      · exact .same rfl fun _ _ => rfl
      · next needle hneedle =>
        split
        · next f scanner' world hscan =>
          have hsame : scanner' = scanner := scanner.nextScanWith_fails scanner' hscan
          exact .same (hsame ▸ hbefore.symm) fun _ _ => rfl
        · next scanner' world hscan =>
          have hargs : nextArgs t parseFloat scanner.valueType args = .ok (compare, needle) :=
            bind_eq_ok.mpr ⟨compare, hcompare, bind_eq_ok.mpr ⟨needle, hneedle, rfl⟩⟩
          refine .refined pid scanner scanner' compare needle world hbefore ?_ hscan rfl
          rw [refinement, hargs]
          rfl

theorem step_session (t : Texts) (parseFloat : ℕ → List Char → Option Float)
    (backends : List String) (s : ScriptedApp) (i : ScriptInput) : SessionStep t parseFloat s i
    (step t parseFloat backends s i).1 (step t parseFloat backends s i).2 := by
  cases i with
  | ui i =>
    by_cases hdetaches : detaches s.app i = true
    · exact .dropped (if_pos hdetaches)
    · exact .same (if_neg hdetaches) fun _ _ => rfl
  | replaceProject first => exact .dropped rfl
  | call c args processes =>
    cases c with
    | first => exact first_step processes args
    | next => exact next_step processes args
    | results => exact .same rfl fun _ _ => rfl
    | resultsWithValues => exact .same rfl fun _ _ => rfl
    | reset => exact .dropped rfl

end Steps

/-! ## Runs -/

section Runs

variable (t : Texts) (parseFloat : ℕ → List Char → Option Float) (backends : List String)
  (start : ScriptedApp)

/-- The application after these inputs. -/
def after (inputs : List ScriptInput) : ScriptedApp :=
  final (step t parseFloat backends) start inputs

/-- The scans that the calls after a `scan.first` were answered. -/
def scans (vt : ScanValueType) (pid : ℤ) (earlier : List ScriptInput) (args : Value)
    (processes : ℤ → LiveProcess) (later : List ScriptInput) : List Round :=
  (trace (step t parseFloat backends)
    (after t parseFloat backends start (earlier ++ [.call .first args processes])) later).filterMap
      (refinement t parseFloat vt pid)

/-- A session that a call of `scan.first` began, with the process that was attached then. -/
structure Began (earlier : List ScriptInput) (args : Value) (processes : ℤ → LiveProcess)
    (later : List ScriptInput) (pid : ℤ) (v : Sieve) : Prop where
  attached : (after t parseFloat backends start earlier).app.process = some pid
  asked : firstArgs t parseFloat args = .ok (v.valueType, v.first.compare, v.first.needle)
  regions : (processes pid).regions = .ok v.regions
  mem : v.first.mem = (processes pid).mem
  later : v.later = scans t parseFloat backends start v.valueType pid earlier args processes later

variable {t parseFloat backends start} {earlier later : List ScriptInput} {args : Value}
  {processes : ℤ → LiveProcess} {pid : ℤ} {v : Sieve} {i : ScriptInput}
  {o : Option (Except HostFailure Value)} {s' : ScriptedApp} {inputs : List ScriptInput}

theorem scans_concat (vt : ScanValueType) (pid : ℤ) (hi : step t parseFloat backends
      (after t parseFloat backends start (earlier ++ .call .first args processes :: later)) i =
        (o, s')) :
    scans t parseFloat backends start vt pid earlier args processes (later ++ [i]) =
      scans t parseFloat backends start vt pid earlier args processes later ++
        (refinement t parseFloat vt pid (i, o)).toList := by
  have hstate : final (step t parseFloat backends) (after t parseFloat backends start
      (earlier ++ [.call .first args processes])) later =
      after t parseFloat backends start (earlier ++ .call .first args processes :: later) := by
    rw [after, after, ← final_append, List.append_assoc, List.singleton_append]
  rw [scans, trace_concat, List.filterMap_append, hstate, hi]
  cases hround : refinement t parseFloat vt pid (i, o) with
  | none => rw [List.filterMap_cons_none hround]; rfl
  | some q => rw [List.filterMap_cons_some hround]; rfl

/-- A session that an input leaves alone. -/
theorem Began.quiet (h : Began t parseFloat backends start earlier args processes later pid v)
    (hi : step t parseFloat backends
      (after t parseFloat backends start (earlier ++ .call .first args processes :: later)) i =
        (o, s')) (hquiet : refinement t parseFloat v.valueType pid (i, o) = none) :
    Began t parseFloat backends start earlier args processes (later ++ [i]) pid v where
  attached := h.attached
  asked := h.asked
  regions := h.regions
  mem := h.mem
  later := by rw [scans_concat v.valueType pid hi, hquiet, h.later, Option.toList_none, List.append_nil]

/-- A session that a further scan was made in. -/
theorem Began.next (h : Began t parseFloat backends start earlier args processes later pid v)
    (hi : step t parseFloat backends
      (after t parseFloat backends start (earlier ++ .call .first args processes :: later)) i =
        (o, s')) {q : Round} (hround : refinement t parseFloat v.valueType pid (i, o) = some q) :
    Began t parseFloat backends start earlier args processes (later ++ [i]) pid (v.next q) where
  attached := h.attached
  asked := h.asked
  regions := h.regions
  mem := h.mem
  later := by
    have hvalue : (v.next q).valueType = v.valueType := rfl
    rw [hvalue, scans_concat v.valueType pid hi, hround, Option.toList_some, ← h.later]
    rfl

/-- A session holds what remains of its scans. -/
theorem sifting (hstart : start.scriptScanner = none) (inputs : List ScriptInput) {pid : ℤ}
    {scanner : Scanner}
    (h : (after t parseFloat backends start inputs).scriptScanner = some (pid, scanner)) :
    ∃ earlier args processes later v, inputs = earlier ++ .call .first args processes :: later ∧
      Began t parseFloat backends start earlier args processes later pid v ∧ Sifts scanner v := by
  induction inputs using List.reverseRecOn generalizing scanner with
  | nil =>
    rw [show (after t parseFloat backends start []).scriptScanner = none from hstart] at h
    cases h
  | append_singleton inputs i ih =>
    have hstep := step_session t parseFloat backends (after t parseFloat backends start inputs) i
    rw [after, final_concat, ← after] at h
    generalize hi : step t parseFloat backends (after t parseFloat backends start inputs) i = r
      at hstep h
    obtain ⟨o, s'⟩ := r
    dsimp only at hstep h
    cases hstep with
    | dropped hscanner =>
      rw [hscanner] at h
      cases h
    | same hscanner hquiet =>
      obtain ⟨earlier, args, processes, later, v, rfl, hbegan, hsifts⟩ := ih (hscanner ▸ h)
      exact ⟨earlier, args, processes, later ++ [i], v, by simp, hbegan.quiet hi (hquiet _ _),
        hsifts⟩
    | @began args processes _ _ pid' vt compare needle scanner' world hprocess happ hargs hscan
        hscanner =>
      rw [hscanner] at h
      cases h
      obtain ⟨all, -, -, -, -, hall, -⟩ := Scanner.firstScanWith_ok hscan
      have hregions : (processes pid).regions = .ok all := congrArg Prod.fst hall
      exact ⟨inputs, args, processes, [], ⟨vt, all, ⟨compare, needle, (processes pid).mem⟩, []⟩,
        rfl, ⟨hprocess, hargs, hregions, rfl, rfl⟩, sifts_first hregions hscan⟩
    | refined pid' scanner' scanner'' compare needle world hbefore hround hscan hscanner =>
      rw [hscanner] at h
      cases h
      obtain ⟨earlier, args, processes, later, v, rfl, hbegan, hsifts⟩ := ih hbefore
      rw [hsifts.valueType] at hround
      exact ⟨earlier, args, processes, _, _, by simp, hbegan.next hi hround,
        sifts_next hsifts hscan⟩

/-- The number at an address, if all of it is mapped. -/
def mappedValue (mem : Cells) (vt : ScanValueType) (a : ℕ) : Value :=
  match vt.fixedWidth.bind fun width => wholeRead mem a width with
  | some bytes => bytesToJsonNum vt bytes
  | none => .null

theorem liveValue_eq (p : LiveProcess) (vt : ScanValueType) (a : ℕ) :
    liveValue p vt a = mappedValue p.mem vt a := by
  cases hwidth : vt.fixedWidth with
  | none => rw [liveValue, mappedValue, hwidth]; rfl
  | some width =>
    rw [liveValue, mappedValue, hwidth, Option.bind_some, ← p.whole a width]
    dsimp only [Option.getD_some]
    rw [if_pos (ScanValueType.fixedWidth_pos hwidth)]
    cases p.read a width with
    | error e => rfl
    | ok buf =>
      have hmap : (Except.ok buf : Except Error _).map Subtype.val = .ok buf.val := rfl
      rw [hmap, wholeValue]
      by_cases hlen : width ≤ buf.val.length
      · rw [if_pos hlen]
        exact if_pos hlen
      · rw [if_neg hlen]
        exact if_neg hlen

/-- A session holds exactly what its scans leave: of the addresses that its `scan.first` found in the
process that was attached then, those that every answered `scan.next` since has kept, in that same
process; and this is what scripts get to see of it. -/
theorem session_sieve (hstart : start.scriptScanner = none) (inputs : List ScriptInput) {pid : ℤ}
    {scanner : Scanner}
    (h : (after t parseFloat backends start inputs).scriptScanner = some (pid, scanner)) :
    ∃ earlier args processes later v, inputs = earlier ++ .call .first args processes :: later ∧
      Began t parseFloat backends start earlier args processes later pid v ∧
      scanner.results.rows = v.addresses.map v.row ∧
      ∀ args' max, resultsMax t args' = .ok max →
        scanSessionResults t args' (after t parseFloat backends start inputs) =
          .ok (.array ((v.addresses.take max).map count)) ∧
        ∀ now : ℤ → LiveProcess,
          scanSessionValues t now args' (after t parseFloat backends start inputs) =
            .ok (.array ((v.addresses.take max).map fun a => .object [("address", count a),
              ("value", mappedValue (now pid).mem v.valueType a),
              ("previous", bytesToJsonNum v.valueType (v.row a).previous)])) := by
  obtain ⟨earlier, args, processes, later, v, hsplit, hbegan, hsifts⟩ := sifting hstart inputs h
  refine ⟨earlier, args, processes, later, v, hsplit, hbegan, hsifts.rows, fun args' max hmax =>
    ⟨?_, fun now => ?_⟩⟩
  · rw [scanSessionResults, hmax, h]
    dsimp only [bind, Except.bind, orFail, Option.elim]
    rw [hsifts.rows, ← List.map_take, List.map_map]
    rfl
  · rw [scanSessionValues, hmax, h]
    dsimp only [bind, Except.bind, orFail, Option.elim]
    rw [hsifts.rows, ← List.map_take, List.map_map, hsifts.valueType]
    simp only [Function.comp_def, Sieve.row, liveValue_eq]

/-- These bytes at an address, and nothing else. -/
def samplingMem (base : ℕ) (bytes : List UInt8) : Cells := fun a =>
  if base ≤ a then bytes[a - base]? else none

section Sampling

variable (base : ℕ) (bytes : List UInt8)

theorem length_sampled (addr len : ℕ) :
    (mappedPrefix (samplingMem base bytes) addr len).length ≤ len :=
  length_mappedPrefix_le _ addr len

theorem sampling_ascending (all : List Region)
    (hall : (.ok [⟨base, bytes.length⟩] : Except Scan.Error (List Region)) = .ok all) :
    Ascending all := by
  cases hall
  exact List.pairwise_singleton _ _

theorem sampling_below (h : base + bytes.length + 8 ≤ usizeMax) (all : List Region)
    (hall : (.ok [⟨base, bytes.length⟩] : Except Scan.Error (List Region)) = .ok all) :
    ∀ r ∈ all, r.stop + 8 ≤ usizeMax := by
  cases hall
  intro r hr
  rw [List.mem_singleton.mp hr, Region.stop, saturatingAdd]
  dsimp only
  omega

theorem sampling_mapped (all : List Region)
    (hall : (.ok [⟨base, bytes.length⟩] : Except Scan.Error (List Region)) = .ok all) :
    ∀ r ∈ all, ∀ a, r.base ≤ a → a < r.stop → (samplingMem base bytes a).isSome := by
  cases hall
  intro r hr a hbase hstop
  rw [List.mem_singleton.mp hr] at hbase hstop
  dsimp only at hbase
  have hle : a < base + bytes.length := Nat.lt_of_lt_of_le hstop (Nat.min_le_left _ _)
  rw [samplingMem, if_pos hbase, isSome_getElem?]
  omega

theorem sampling_whole (addr len : ℕ) :
    wholeValue len (.ok (mappedPrefix (samplingMem base bytes) addr len)) =
      wholeRead (samplingMem base bytes) addr len := by
  have hiff := Nat.le_antisymm_iff.trans (and_iff_right (length_sampled base bytes addr len))
  rw [wholeRead, if_congr hiff rfl rfl]
  rfl

end Sampling

/-- A process with these bytes. -/
def samplingProcess (base : ℕ) (bytes : List UInt8) (h : base + bytes.length + 8 ≤ usizeMax) :
    LiveProcess where
  regions := .ok [⟨base, bytes.length⟩]
  mem := samplingMem base bytes
  read addr len :=
    .ok ⟨mappedPrefix (samplingMem base bytes) addr len, length_sampled base bytes addr len⟩
  ascending := sampling_ascending base bytes
  below := sampling_below base bytes h
  mapped := sampling_mapped base bytes
  whole := sampling_whole base bytes
  opens := .ok ()

/-- An attached process, and another one in the list. -/
def sampleStart : ScriptedApp where
  app :=
    { selectedBackend := "linux-native", processList := [⟨9, "other"⟩], processListStatus := ""
      selectedProcessIdx := some 0, process := some 7, attachedName := none, lastError := none
      statusMsg := none, enumerateJob := .idle, attachJob := .idle, resolveJob := .idle
      selectedClass := none, classBase := none, scriptResolvedBase := none }
  scriptScanner := none

def sampleTexts : Texts := ⟨fun _ => "", id, fun _ => "", fun _ => "", fun _ => ""⟩

def beforeBytes (_ : ℤ) : LiveProcess := samplingProcess 4096 [7, 7, 9, 0] (by decide)

def afterBytes (_ : ℤ) : LiveProcess := samplingProcess 4096 [7, 8, 9, 1] (by decide)

/-- Every byte, and of these the ones that changed. -/
def sampleCalls : List ScriptInput :=
  [.call .first (.array [.string "u8", .null, .string "unknown"]) beforeBytes,
    .call .next (.array [.string "changed"]) afterBytes]

theorem session_sieve_changed : ∃ scanner, (after sampleTexts (fun _ _ => none) [] sampleStart
      sampleCalls).scriptScanner = some (7, scanner) ∧
    ∃ v : Sieve, scanner.results.rows = v.addresses.map v.row := by
  have hsome : ((after sampleTexts (fun _ _ => none) [] sampleStart
      sampleCalls).scriptScanner.map Prod.fst) = some 7 := by decide +kernel
  obtain ⟨⟨pid, scanner⟩, h, rfl⟩ := Option.map_eq_some_iff.mp hsome
  obtain ⟨-, -, -, -, v, -, -, hrows, -⟩ := session_sieve rfl sampleCalls h
  exact ⟨scanner, h, v, hrows⟩

/-- An attach was begun while the session's process was attached, and the session has gone on. -/
def Outlives (t : Texts) (parseFloat : ℕ → List Char → Option Float) (backends : List String)
    (start : ScriptedApp) (inputs : List ScriptInput) (pid : ℤ) : Prop :=
  ∃ earlier runtime later, inputs = earlier ++ .ui (.attach runtime) :: later ∧
    (after t parseFloat backends start earlier).app.process = some pid ∧
    ∀ more, more <+: later → ∃ scanner, (after t parseFloat backends start
      (earlier ++ .ui (.attach runtime) :: more)).scriptScanner = some (pid, scanner)

/-- What holds of the attaching in every run. -/
structure Belongs (t : Texts) (parseFloat : ℕ → List Char → Option Float) (backends : List String)
    (start : ScriptedApp) (inputs : List ScriptInput) (s : ScriptedApp) : Prop where
  pending : ∀ r, s.app.attachJob.rx = some r → s.app.process = none
  session : ∀ pid scanner, s.scriptScanner = some (pid, scanner) →
    s.app.process = some pid ∨ Outlives t parseFloat backends start inputs pid

theorem Outlives.concat (h : Outlives t parseFloat backends start inputs pid)
    (hscanner : ∃ scanner,
      (after t parseFloat backends start (inputs ++ [i])).scriptScanner = some (pid, scanner)) :
    Outlives t parseFloat backends start (inputs ++ [i]) pid := by
  obtain ⟨earlier, runtime, later, rfl, hprocess, hgoes⟩ := h
  refine ⟨earlier, runtime, later ++ [i], by simp, hprocess, fun more hmore => ?_⟩
  rcases List.prefix_concat_iff.mp hmore with rfl | hprefix
  · simpa using hscanner
  · exact hgoes more hprefix

/-- An attach that is begun takes the process away from a session, if it had it. -/
theorem Outlives.began {runtime : Bool} {scanner : Scanner}
    (hprocess : (after t parseFloat backends start inputs).app.process = some pid)
    (hscanner : (after t parseFloat backends start (inputs ++ [.ui (.attach runtime)])).scriptScanner =
      some (pid, scanner)) :
    Outlives t parseFloat backends start (inputs ++ [.ui (.attach runtime)]) pid := by
  refine ⟨inputs, runtime, [], rfl, hprocess, fun more hmore => ?_⟩
  rw [List.prefix_nil.mp hmore]
  exact ⟨scanner, hscanner⟩

theorem after_concat (inputs : List ScriptInput) (i : ScriptInput) :
    after t parseFloat backends start (inputs ++ [i]) =
      (step t parseFloat backends (after t parseFloat backends start inputs) i).2 :=
  final_concat inputs i

theorem Belongs.ui (h : Belongs t parseFloat backends start inputs
      (after t parseFloat backends start inputs)) (u : AppInput) :
    Belongs t parseFloat backends start (inputs ++ [.ui u])
      (after t parseFloat backends start (inputs ++ [.ui u])) := by
  have hstep : AttachStep _ u _ _ :=
    @appStep_attach backends (after t parseFloat backends start inputs).app u
  have happ : (after t parseFloat backends start (inputs ++ [.ui u])).app =
      (appStep backends (after t parseFloat backends start inputs).app u).2 := by
    rw [after_concat]
    rfl
  rw [← happ] at hstep
  generalize (appStep backends (after t parseFloat backends start inputs).app u).1 = events at hstep
  constructor
  · intro r hr
    cases hstep with
    | same hprocess hjob => exact hprocess.trans (h.pending r (hjob ▸ hr))
    | torn hi hsome hprocess hjob => exact hprocess
    | spawned idx entry hidle hidx hentry hevents hprocess hjob => exact hprocess
    | ended request channel hrx hprocess hjob => exact hprocess.trans (h.pending _ hrx)
    | ingested request hrx hprocess hjob =>
      rw [hjob] at hr
      cases hr
    | failed hprocess hjob =>
      rw [hjob] at hr
      cases hr
  · intro pid scanner hscanner
    have hsame : detaches (after t parseFloat backends start inputs).app u = false ∧
        (after t parseFloat backends start inputs).scriptScanner = some (pid, scanner) := by
      rw [after_concat] at hscanner
      cases hdetaches : detaches (after t parseFloat backends start inputs).app u with
      | true =>
        rw [show (step t parseFloat backends (after t parseFloat backends start inputs)
          (.ui u)).2.scriptScanner = none from if_pos hdetaches] at hscanner
        cases hscanner
      | false =>
        rw [show (step t parseFloat backends (after t parseFloat backends start inputs)
          (.ui u)).2.scriptScanner = _ from if_neg (by rw [hdetaches]; exact Bool.false_ne_true)]
          at hscanner
        exact ⟨rfl, hscanner⟩
    rcases h.session pid scanner hsame.2 with hprocess | houtlives
    · cases hstep with
      | same hkept hjob => exact .inl (hkept.trans hprocess)
      | torn hi hsome hkept hjob =>
        cases u with
        | attach runtime => exact .inr (.began hprocess hscanner)
        | detach =>
          have hdetaches : (after t parseFloat backends start inputs).app.process.isSome = false :=
            hsame.1
          rw [hsome] at hdetaches
          cases hdetaches
        | _ => cases hi
      | spawned idx entry hidle hidx hentry hevents hkept hjob =>
        exact .inr (.began hprocess hscanner)
      | ended request channel hrx hkept hjob => exact .inl (hkept.trans hprocess)
      | ingested request hrx hkept hjob =>
        rw [h.pending _ hrx] at hprocess
        cases hprocess
      | failed hkept hjob => exact .inl (hkept.trans hprocess)
    · exact .inr (houtlives.concat ⟨scanner, hscanner⟩)

theorem Belongs.call (h : Belongs t parseFloat backends start inputs
      (after t parseFloat backends start inputs)) (c : ScanCall) (args : Value)
    (processes : ℤ → LiveProcess) :
    Belongs t parseFloat backends start (inputs ++ [.call c args processes])
      (after t parseFloat backends start (inputs ++ [.call c args processes])) := by
  have happ : (after t parseFloat backends start (inputs ++ [.call c args processes])).app =
      (after t parseFloat backends start inputs).app := by
    rw [after_concat]
    exact handle_app processes args c
  refine ⟨fun r hr => ?_, fun pid scanner hscanner => ?_⟩
  · rw [happ] at hr ⊢
    exact h.pending r hr
  · have hkept {scanner' : Scanner} (hbefore :
        (after t parseFloat backends start inputs).scriptScanner = some (pid, scanner')) :
        (after t parseFloat backends start (inputs ++ [.call c args processes])).app.process =
          some pid ∨ Outlives t parseFloat backends start (inputs ++ [.call c args processes]) pid := by
      rw [happ]
      exact (h.session pid scanner' hbefore).imp_right (·.concat ⟨scanner, hscanner⟩)
    have hstep := step_session t parseFloat backends (after t parseFloat backends start inputs)
      (.call c args processes)
    rw [← after_concat] at hstep
    cases hstep with
    | same hsame hquiet => exact hkept (hsame ▸ hscanner)
    | dropped hnone =>
      rw [hnone] at hscanner
      cases hscanner
    | began pid' vt compare needle scanner' world hprocess happ' hargs hscan hsome =>
      rw [hsome] at hscanner
      cases hscanner
      exact .inl (happ.symm ▸ hprocess)
    | refined pid' scanner' scanner'' compare needle world hbefore hround hscan hsome =>
      rw [hsome] at hscanner
      cases hscanner
      exact hkept hbefore

/-- A session goes on with the process that was attached when it began; that one is attached still,
unless an attach was begun since, while it was. -/
theorem session_outlives (hjob : start.app.attachJob.rx = none)
    (hstart : start.scriptScanner = none) (inputs : List ScriptInput) {pid : ℤ} {scanner : Scanner}
    (h : (after t parseFloat backends start inputs).scriptScanner = some (pid, scanner)) :
    (after t parseFloat backends start inputs).app.process = some pid ∨
      Outlives t parseFloat backends start inputs pid := by
  have hbelongs : Belongs t parseFloat backends start inputs
      (after t parseFloat backends start inputs) := by
    clear h
    induction inputs using List.reverseRecOn with
    | nil =>
      refine ⟨fun r hr => ?_, fun pid scanner hscanner => ?_⟩
      · rw [show (after t parseFloat backends start []).app.attachJob.rx = none from hjob] at hr
        cases hr
      · rw [show (after t parseFloat backends start []).scriptScanner = none from hstart] at hscanner
        cases hscanner
    | append_singleton inputs i ih =>
      cases i with
      | ui u => exact ih.ui u
      | replaceProject first =>
        rw [after_concat]
        refine ⟨fun r hr => ih.pending r hr, fun pid scanner hscanner => ?_⟩
        cases hscanner
      | call c args processes => exact ih.call c args processes
  exact hbelongs.session pid scanner h

theorem session_outlives_attach : Outlives sampleTexts (fun _ _ => none) ["linux-native"] sampleStart
    (sampleCalls.take 1 ++ [.ui (.attach true)]) 7 := by
  have hsome : ((after sampleTexts (fun _ _ => none) ["linux-native"] sampleStart
      (sampleCalls.take 1 ++ [.ui (.attach true)])).scriptScanner.map Prod.fst) = some 7 := by
    decide +kernel
  obtain ⟨⟨pid, scanner⟩, h, rfl⟩ := Option.map_eq_some_iff.mp hsome
  refine (session_outlives rfl rfl _ h).resolve_left ?_
  decide +kernel

end Runs

end Nemclass.Ui.ScanSession
