import Nemclass.Address.Interpreter
import Nemclass.Lib.Trace
import Nemclass.Process.Backends
import Nemclass.Scan.FreezeSet
import Nemclass.Ui.CheatTable
import Nemclass.Ui.StructReads

/-! Values that are kept frozen from frame to frame: those of the cheat table and those that scripts
have frozen. Neither keeps bytes; every tick derives what it writes anew. -/
namespace Nemclass.Ui
open MappedPrefix Scan Address

/-- What of a `CheatEntry` the ticks use. -/
structure CheatEntry where
  address : String
  valueType : String
  frozen : Bool
  frozenValue : String
deriving DecidableEq

/-- The freezes of `mem.freeze`: address, type and the value's text. -/
abbrev ScriptFreezes := List (ℕ × ScanValueType × String)

/-- What the ticks read and write: the freezes with the instants of the ticks, in milliseconds, the
modules of the attached process, and its memory. -/
structure Freezer where
  scriptFreezes : ScriptFreezes
  lastScriptFreeze : Option ℕ
  table : List CheatEntry
  lastFreeze : Option ℕ
  process : Option (List ModuleInfoWithName)
  mem : Cells

/-- `FREEZE_INTERVAL` and `INTERVAL` -/
def freezeInterval : ℕ := 200

/-- Whether a tick applies, by the instant of the one before. -/
def due (last : Option ℕ) (now : ℕ) : Bool := last.all fun t => freezeInterval ≤ now - t

def parseAddrText (s : String) : Option ℕ :=
  let t := trim s.toList
  let hex := ((t.dropPrefix? ['0', 'x']).or (t.dropPrefix? ['0', 'X'])).getD t
  ((fromStrRadix false 8 16 hex).toOption).map Int.toNat

section Ticks

/- Texts of errors, the float syntax of the standard library, and the printing of a float. -/
variable (printJson : Value → String) (debugStr : String → String) (readError : ℕ → String)
  (parseFloat : ℕ → List Char → Option (List UInt8)) (formatFloat : ℕ → List UInt8 → String)

/-- `ProcessReader` over the memory of the process. -/
def processReader (mem : Cells) : MemoryReader := fun addr =>
  match Process.wholeRead mem addr 8 with
  | some bytes => .ok (leBytes bytes)
  | none => .error (.resolveError (readError addr))

def resolveEntryAddr (entry : CheatEntry) (process : Option (List ModuleInfoWithName))
    (mem : Cells) : Option ℕ :=
  (parseAddrText entry.address).or do
    let modules ← process
    (resolveFormula entry.address (resolveModule modules) (processReader readError mem)).toOption

def readEntryBytes (process : Option (List ModuleInfoWithName)) (mem : Cells) (entry : CheatEntry)
    (vt : Option ScanValueType) : Option (List UInt8) := do
  let _ ← process
  let addr ← resolveEntryAddr readError entry process mem
  let width ← (← vt).fixedWidth
  Process.wholeRead mem addr width

def readEntryValue (process : Option (List ModuleInfoWithName)) (mem : Cells) (entry : CheatEntry)
    (vt : Option ScanValueType) : String :=
  match readEntryBytes readError process mem entry vt, vt with
  | some bytes, some vt => formatValueBytes formatFloat bytes vt
  | _, _ => if entry.frozenValue ≠ "" then entry.frozenValue else "–"

/-- `CheatTablePanel::toggle_freeze_all` -/
def toggleFreezeAll (s : Freezer) : Freezer :=
  let targetFrozen := !(!s.table.isEmpty && s.table.all (·.frozen))
  { s with table := s.table.map fun entry =>
      { entry with
        frozen := targetFrozen
        frozenValue :=
          if targetFrozen then
            readEntryValue readError formatFloat s.process s.mem entry (fromTag entry.valueType)
          else "" } }

/-- What a row of the table pins. -/
def rowPin (process : Option (List ModuleInfoWithName)) (mem : Cells) (entry : CheatEntry) :
    Option (ℕ × List UInt8) :=
  if !entry.frozen then none
  else do
    let addr ← resolveEntryAddr readError entry process mem
    let vt ← fromTag entry.valueType
    let bytes ← valueTextToBytes parseFloat vt entry.frozenValue
    some (addr, bytes)

/-- What a freeze of a script pins. -/
def scriptPin (f : ℕ × ScanValueType × String) : Option (ℕ × List UInt8) :=
  (valueTextToBytes parseFloat f.2.1 f.2.2).map (f.1, ·)

/-- A set of these values, each set after the ones before. -/
def freezeSet (pins : List (ℕ × List UInt8)) : FreezeSet :=
  pins.foldl (fun set p => set.set p.1 p.2) FreezeSet.new

/-- Writes the set if it has an entry and the target can be attached to. -/
def applySet (T : WriteTarget) (attach : Bool) (set : FreezeSet) (s : Freezer) : Freezer :=
  if set.entries.isEmpty then s
  else if s.process.isSome && attach then { s with mem := (set.apply T s.mem).2 }
  else s

/-- `CheatTablePanel::tick_freeze` -/
def tickFreeze (T : WriteTarget) (now : ℕ) (attach : Bool) (s : Freezer) : Freezer :=
  if !due s.lastFreeze now then s
  else
    applySet T attach (freezeSet (s.table.filterMap (rowPin readError parseFloat s.process s.mem)))
      { s with lastFreeze := some now }

/-- `tick_script_freezes` -/
def tickScriptFreezes (T : WriteTarget) (now : ℕ) (attach : Bool) (s : Freezer) : Freezer :=
  if s.scriptFreezes.isEmpty then s
  else if !due s.lastScriptFreeze now then s
  else
    applySet T attach (freezeSet (s.scriptFreezes.filterMap (scriptPin parseFloat)))
      { s with lastScriptFreeze := some now }

/-- The arguments of `mem.freeze`. -/
def freezeArgs (args : Value) : Except HostFailure (ℕ × ScanValueType × String) := do
  let addr ← asAddr printJson debugStr (← arg args 0)
  let ty := asStr printJson (← arg args 1)
  let vt ← orFail (fromTag ty) ("mem.freeze: unknown type " ++ debugStr ty)
  let value := asStr printJson (← arg args 2)
  if (valueTextToBytes parseFloat vt value).isNone then
    .error (.error ("mem.freeze: value " ++ debugStr value ++ " not valid for type " ++ ty))
  else .ok (addr, vt, value)

/-- `mem.freeze` -/
def memFreeze (args : Value) (s : Freezer) : Except HostFailure Value × Freezer :=
  match freezeArgs printJson debugStr parseFloat args with
  | .error e => (.error e, s)
  | .ok (addr, vt, value) =>
    (.ok (.bool true), { s with scriptFreezes := Records.insert s.scriptFreezes addr (vt, value) })

/-- `mem.unfreeze` -/
def memUnfreeze (args : Value) (s : Freezer) : Except HostFailure Value × Freezer :=
  match arg args 0 >>= asAddr printJson debugStr with
  | .error e => (.error e, s)
  | .ok addr =>
    let left := s.scriptFreezes.filter (·.1 ≠ addr)
    (.ok (.bool (left.length != s.scriptFreezes.length)), { s with scriptFreezes := left })

/-- What happens to the freezes: calls of scripts, another project, edits of the table, the target
coming, running on and going (`release` is what another attach begins with), and frames, whose ticks
may fail to attach to it. -/
inductive FreezeEvent where
  | freeze (args : Value)
  | unfreeze (args : Value)
  | replaceProject
  | edit (table : List CheatEntry)
  | toggleAll
  | attach (modules : List ModuleInfoWithName)
  | release
  | detach
  | run (mem : Cells)
  | frame (now : ℕ) (attach : Bool)

/-- The reply of a call, and `null` where nothing is asked. -/
def freezeStep (T : WriteTarget) (s : Freezer) : FreezeEvent → Except HostFailure Value × Freezer
  | .freeze args => memFreeze printJson debugStr parseFloat args s
  | .unfreeze args => memUnfreeze printJson debugStr args s
  | .replaceProject => (.ok .null, { s with scriptFreezes := [] })
  | .edit table => (.ok .null, { s with table := table })
  | .toggleAll => (.ok .null, toggleFreezeAll readError formatFloat s)
  | .attach modules => (.ok .null, { s with process := some modules })
  | .release => (.ok .null, { s with process := none })
  | .detach => (.ok .null, { s with process := none, lastFreeze := none })
  | .run mem => (.ok .null, { s with mem := mem })
  | .frame now attach =>
    (.ok .null, tickScriptFreezes parseFloat T now attach
      (tickFreeze readError parseFloat T now attach s))

/-- The freezer after these events. -/
def Freezer.after (T : WriteTarget) (s : Freezer) (events : List FreezeEvent) : Freezer :=
  Trace.final (freezeStep printJson debugStr readError parseFloat formatFloat T) s events

/-- The bytes that scripts hold at addresses. -/
abbrev Pins := ℕ → Option (List UInt8)

/-- What a script's calls, by their arguments, change of it. -/
def Pins.note (p : Pins) : FreezeEvent → Pins
  | .freeze args =>
    match freezeArgs printJson debugStr parseFloat args with
    | .ok (addr, vt, value) => Function.update p addr (valueTextToBytes parseFloat vt value)
    | .error _ => p
  | .unfreeze args =>
    match arg args 0 >>= asAddr printJson debugStr with
    | .ok addr => Function.update p addr none
    | .error _ => p
  | .replaceProject => fun _ => none
  | _ => p

/-- The bytes that are held after these events. -/
def pinsOf (events : List FreezeEvent) : Pins :=
  events.foldl (Pins.note printJson debugStr parseFloat) fun _ => none

end Ticks

/-! ## The set of a tick -/

section Sets

variable {pins : List (ℕ × List UInt8)}

theorem freezeSet_concat (pins : List (ℕ × List UInt8)) (p : ℕ × List UInt8) :
    freezeSet (pins ++ [p]) = (freezeSet pins).set p.1 p.2 := by
  rw [freezeSet, List.foldl_append]
  rfl

theorem freezeSet_entries (pins : List (ℕ × List UInt8)) :
    (freezeSet pins).entries = Records.insertAll Prod.fst Prod.snd [] pins := by
  induction pins using List.reverseRecOn with
  | nil => rfl
  | append_singleton pins p ih =>
    rw [freezeSet_concat, FreezeSet.entries_set, ih, Records.insertAll, Records.insertAll,
      List.foldl_append]
    rfl

/-- Nothing else is pinned. -/
theorem mem_of_mem_freezeSet {e : ℕ × List UInt8} (h : e ∈ (freezeSet pins).entries) :
    e ∈ pins := by
  induction pins using List.reverseRecOn with
  | nil => cases h
  | append_singleton pins p ih =>
    rw [freezeSet_concat, FreezeSet.entries_set] at h
    rcases Records.mem_insert h with rfl | h
    · exact List.mem_append_right pins List.mem_cons_self
    · exact List.mem_append_left [p] (ih h)

/-- The last value that is set at an address is pinned there. -/
theorem mem_freezeSet_of_last {p : ℕ × List UInt8} (h : Records.Last Prod.fst pins p) :
    p ∈ (freezeSet pins).entries := by
  have hlookup := Records.lookup_insertAll_of_last Prod.snd h []
  rw [← freezeSet_entries] at hlookup
  exact Records.mem_of_lookup hlookup

end Sets

section Freezes

variable {printJson : Value → String} {debugStr : String → String} {readError : ℕ → String}
  {parseFloat : ℕ → List Char → Option (List UInt8)} {formatFloat : ℕ → List UInt8 → String}
  {T : WriteTarget}

/-- The freezes are these bytes: one for an address, each with a text that can be read. -/
structure Holds (parseFloat : ℕ → List Char → Option (List UInt8)) (freezes : ScriptFreezes)
    (p : Pins) : Prop where
  nodup : (freezes.map Prod.fst).Nodup
  valid : ∀ f ∈ freezes, (scriptPin parseFloat f).isSome
  lookup : ∀ addr, p addr =
    (freezes.lookup addr).bind fun v => valueTextToBytes parseFloat v.1 v.2

theorem Holds.nil : Holds parseFloat [] fun _ => none where
  nodup := List.nodup_nil
  valid f hf := by cases hf
  lookup _ := rfl

theorem Holds.insert {freezes : ScriptFreezes} {p : Pins} (h : Holds parseFloat freezes p)
    (addr : ℕ) {vt : ScanValueType} {value : String}
    (hvalue : (valueTextToBytes parseFloat vt value).isSome) :
    Holds parseFloat (Records.insert freezes addr (vt, value))
      (Function.update p addr (valueTextToBytes parseFloat vt value)) where
  nodup := Records.nodup_insert h.nodup addr (vt, value)
  valid f hf := by
    rcases Records.mem_insert hf with rfl | hf
    · rw [scriptPin, Option.isSome_map]
      exact hvalue
    · exact h.valid f hf
  lookup a := by
    rw [Records.lookup_insert]
    by_cases ha : a = addr
    · rw [ha, Function.update_self, if_pos rfl, Option.bind_some]
    · rw [Function.update_of_ne ha, if_neg ha, h.lookup a]

theorem Holds.without {freezes : ScriptFreezes} {p : Pins} (h : Holds parseFloat freezes p)
    (addr : ℕ) : Holds parseFloat (freezes.filter (·.1 ≠ addr)) (Function.update p addr none) where
  nodup := h.nodup.sublist (List.filter_sublist.map Prod.fst)
  valid f hf := h.valid f (List.mem_of_mem_filter hf)
  lookup a := by
    rw [Records.lookup_without]
    by_cases ha : a = addr
    · rw [ha, Function.update_self, if_pos rfl, Option.bind_none]
    · rw [Function.update_of_ne ha, if_neg ha, h.lookup a]

/-- The arguments of a freeze are good only with a value that can be read. -/
theorem isSome_of_freezeArgs {args : Value} {addr : ℕ} {vt : ScanValueType} {value : String}
    (h : freezeArgs printJson debugStr parseFloat args = .ok (addr, vt, value)) :
    (valueTextToBytes parseFloat vt value).isSome := by
  rw [freezeArgs] at h
  obtain ⟨a0, -, h⟩ := Outcome.bind_eq_ok.mp h
  obtain ⟨a, -, h⟩ := Outcome.bind_eq_ok.mp h
  obtain ⟨a1, -, h⟩ := Outcome.bind_eq_ok.mp h
  obtain ⟨vt', -, h⟩ := Outcome.bind_eq_ok.mp h
  obtain ⟨a2, -, h⟩ := Outcome.bind_eq_ok.mp h
  dsimp only at h
  split_ifs at h with hnone
  cases h
  rwa [Bool.not_eq_true, Option.isNone_eq_false_iff] at hnone

theorem scriptFreezes_applySet (attach : Bool) (set : FreezeSet) (s : Freezer) :
    (applySet T attach set s).scriptFreezes = s.scriptFreezes := by
  rw [applySet]
  split_ifs <;> rfl

theorem scriptFreezes_tickFreeze (now : ℕ) (attach : Bool) (s : Freezer) :
    (tickFreeze readError parseFloat T now attach s).scriptFreezes = s.scriptFreezes := by
  rw [tickFreeze]
  split_ifs
  · rfl
  · exact scriptFreezes_applySet attach _ _

theorem scriptFreezes_tickScriptFreezes (now : ℕ) (attach : Bool) (s : Freezer) :
    (tickScriptFreezes parseFloat T now attach s).scriptFreezes = s.scriptFreezes := by
  rw [tickScriptFreezes]
  split_ifs
  · rfl
  · rfl
  · exact scriptFreezes_applySet attach _ _

/-- What an event does to the freezes. -/
theorem Holds.step {s : Freezer} {p : Pins} (h : Holds parseFloat s.scriptFreezes p)
    (event : FreezeEvent) :
    Holds parseFloat (freezeStep printJson debugStr readError parseFloat formatFloat T s
      event).2.scriptFreezes (p.note printJson debugStr parseFloat event) := by
  cases event with
  | freeze args =>
    rw [freezeStep, memFreeze, Pins.note]
    cases hargs : freezeArgs printJson debugStr parseFloat args with
    | error e => exact h
    | ok v =>
      obtain ⟨addr, vt, value⟩ := v
      exact h.insert addr (isSome_of_freezeArgs hargs)
  | unfreeze args =>
    rw [freezeStep, memUnfreeze, Pins.note]
    cases arg args 0 >>= asAddr printJson debugStr with
    | error e => exact h
    | ok addr => exact h.without addr
  | replaceProject => exact .nil
  | frame now attach =>
    rw [freezeStep, scriptFreezes_tickScriptFreezes, scriptFreezes_tickFreeze]
    exact h
  | edit table => exact h
  | toggleAll => exact h
  | attach modules => exact h
  | release => exact h
  | detach => exact h
  | run mem => exact h

/-- What every run of events leaves of the freezes. -/
theorem Holds.after {s : Freezer} (hs : s.scriptFreezes = []) (events : List FreezeEvent) :
    Holds parseFloat (s.after printJson debugStr readError parseFloat formatFloat T
      events).scriptFreezes (pinsOf printJson debugStr parseFloat events) := by
  induction events using List.reverseRecOn with
  | nil =>
    rw [Freezer.after, Trace.final, List.foldl_nil, hs]
    exact .nil
  | append_singleton events event ih =>
    rw [Freezer.after, Trace.final_concat, pinsOf, List.foldl_append]
    exact ih.step event

/-- The set of the tick is that of the bytes that are held. -/
theorem Holds.entries {freezes : ScriptFreezes} {p : Pins} (h : Holds parseFloat freezes p)
    (e : ℕ × List UInt8) :
    e ∈ (freezeSet (freezes.filterMap (scriptPin parseFloat))).entries ↔ p e.1 = some e.2 := by
  have hkeys : (freezes.filterMap (scriptPin parseFloat)).map Prod.fst =
      freezes.map Prod.fst := by
    have hvalid := h.valid
    clear h
    induction freezes with
    | nil => rfl
    | cons f freezes ih =>
      obtain ⟨hf, hrest⟩ := List.forall_mem_cons.mp hvalid
      obtain ⟨e, he⟩ := Option.isSome_iff_exists.mp hf
      rw [List.filterMap_cons_some he, List.map_cons, List.map_cons, ih hrest]
      rw [scriptPin, Option.map_eq_some_iff] at he
      obtain ⟨bytes, -, rfl⟩ := he
      rfl
  rw [freezeSet_entries, Records.insertAll_of_nodup (hkeys ▸ h.nodup), List.mem_filterMap,
    h.lookup e.1]
  constructor
  · rintro ⟨⟨addr, vt, value⟩, hf, he⟩
    rw [scriptPin, Option.map_eq_some_iff] at he
    obtain ⟨bytes, hbytes, rfl⟩ := he
    rw [(Records.mem_iff_lookup h.nodup).mp hf]
    exact hbytes
  · intro he
    obtain ⟨v, hv, hbytes⟩ := Option.bind_eq_some_iff.mp he
    exact ⟨(e.1, v), Records.mem_of_lookup hv, by rw [scriptPin, hbytes]; rfl⟩

/-! ## What a tick writes -/

theorem applySet_pinned (hT : T.Stores) {s : Freezer} (hsome : s.process.isSome)
    (set : FreezeSet) : Pinned set.entries s.mem (applySet T true set s).mem := by
  rw [applySet]
  split_ifs with hempty hattach
  · rw [List.isEmpty_iff.mp hempty]
    exact .nil s.mem
  · exact (apply_pinned hT set s.mem).1
  · simp [hsome] at hattach

theorem applySet_absent {s : Freezer} (hnone : s.process = none) (attach : Bool)
    (set : FreezeSet) : (applySet T attach set s).mem = s.mem := by
  rw [applySet, hnone]
  split_ifs with hempty hattach
  · rfl
  · cases hattach
  · rfl

/-- The rows of the table that pin something. -/
def rowPins (readError : ℕ → String) (parseFloat : ℕ → List Char → Option (List UInt8))
    (s : Freezer) : List (ℕ × List UInt8) :=
  s.table.filterMap (rowPin readError parseFloat s.process s.mem)

theorem tickFreeze_keeps (hT : T.Stores) (now : ℕ) (s : Freezer) :
    (tickFreeze readError parseFloat T now true s).process = s.process ∧
      (tickFreeze readError parseFloat T now true s).lastScriptFreeze = s.lastScriptFreeze ∧
      (∀ a, ((tickFreeze readError parseFloat T now true s).mem a).isSome = (s.mem a).isSome) ∧
      ∀ a, (∀ e ∈ rowPins readError parseFloat s, covers a e = none) →
        (tickFreeze readError parseFloat T now true s).mem a = s.mem a := by
  rw [tickFreeze]
  split_ifs with hdue
  · exact ⟨rfl, rfl, fun _ => rfl, fun _ _ => rfl⟩
  · refine ⟨?_, ?_, ?_⟩
    · rw [applySet]
      split_ifs <;> rfl
    · rw [applySet]
      split_ifs <;> rfl
    · cases hprocess : s.process with
      | none => exact ⟨fun a => by rw [applySet_absent rfl], fun a _ => by rw [applySet_absent rfl]⟩
      | some modules =>
        rw [← hprocess]
        have hpinned := applySet_pinned hT (s := { s with lastFreeze := some now })
          (hprocess ▸ rfl)
          (freezeSet (s.table.filterMap (rowPin readError parseFloat s.process s.mem)))
        exact ⟨hpinned.mapping, fun a ha => hpinned.frame a fun e he =>
          ha e (mem_of_mem_freezeSet he)⟩

theorem tickScriptFreezes_pinned (hT : T.Stores) {s : Freezer} (hsome : s.process.isSome) {now : ℕ}
    (hdue : due s.lastScriptFreeze now = true) :
    Pinned (freezeSet (s.scriptFreezes.filterMap (scriptPin parseFloat))).entries s.mem
      (tickScriptFreezes parseFloat T now true s).mem := by
  rw [tickScriptFreezes, hdue]
  split_ifs with hempty hlate
  · rw [List.isEmpty_iff.mp hempty]
    exact .nil s.mem
  · cases hlate
  · exact applySet_pinned hT (s := { s with lastScriptFreeze := some now }) hsome _

theorem tickScriptFreezes_idle {s : Freezer} {now : ℕ}
    (h : s.process = none ∨ due s.lastScriptFreeze now = false) :
    (tickScriptFreezes parseFloat T now true s).mem = s.mem := by
  rw [tickScriptFreezes]
  split_ifs with hempty hlate
  · rfl
  · rfl
  · rcases h with hnone | hearly
    · exact applySet_absent (s := { s with lastScriptFreeze := some now }) hnone true _
    · rw [hearly] at hlate
      exact absurd rfl hlate

/-- Whether `mem.unfreeze` finds something to take away. -/
theorem Holds.unfreeze {freezes : ScriptFreezes} {p : Pins} (h : Holds parseFloat freezes p)
    (addr : ℕ) :
    ((freezes.filter (·.1 ≠ addr)).length != freezes.length) = (p addr).isSome := by
  have hkeys : (p addr).isSome ↔ ∃ f ∈ freezes, f.1 = addr := by
    rw [h.lookup addr]
    constructor
    · intro hsome
      obtain ⟨bytes, hbytes⟩ := Option.isSome_iff_exists.mp hsome
      obtain ⟨v, hv, -⟩ := Option.bind_eq_some_iff.mp hbytes
      exact ⟨_, Records.mem_of_lookup hv, rfl⟩
    · rintro ⟨⟨a, v⟩, hf, rfl⟩
      have hvalid := h.valid _ hf
      rw [scriptPin, Option.isSome_map] at hvalid
      rw [(Records.mem_iff_lookup h.nodup).mp hf]
      exact hvalid
  rw [Bool.eq_iff_iff, bne_iff_ne, hkeys, Ne, List.length_filter_eq_length_iff, not_forall]
  simp

/-- In every run of calls, edits and frames, and whatever the target does, the bytes that scripts
hold are those of the accepted freezes that nothing took back, and `mem.unfreeze` answers by them.
The frame of a tick that is due leaves each of them in memory where it is mapped and apart from the
others, and touches no byte besides them and the table's; without a process or before its time a
tick writes nothing. -/
theorem script_freezes_hold (hT : T.Stores) {start : Freezer} (hstart : start.scriptFreezes = [])
    (events : List FreezeEvent) (now : ℕ) :
    let s := start.after printJson debugStr readError parseFloat formatFloat T events
    let p := pinsOf printJson debugStr parseFloat events
    let mid := tickFreeze readError parseFloat T now true s
    let out := tickScriptFreezes parseFloat T now true mid
    (∀ args addr, arg args 0 >>= asAddr printJson debugStr = .ok addr →
      (memUnfreeze printJson debugStr args s).1 = .ok (.bool (p addr).isSome)) ∧
    (∀ a, (∀ addr b, p addr = some b → covers a (addr, b) = none) →
      (∀ e ∈ rowPins readError parseFloat s, covers a e = none) → out.mem a = s.mem a) ∧
    ((s.process = none ∨ due s.lastScriptFreeze now = false) → out.mem = mid.mem) ∧
    (s.process.isSome → due s.lastScriptFreeze now = true →
      ∀ addr b, p addr = some b → FullyMapped s.mem (addr, b) →
        (∀ addr' b', p addr' = some b' → addr' ≠ addr →
          addr' + b'.length ≤ addr ∨ addr + b.length ≤ addr') →
        mappedPrefix out.mem addr b.length = b) := by
  intro s p mid out
  have hholds : Holds parseFloat s.scriptFreezes p := .after hstart events
  obtain ⟨hprocess, hlast, hmapping, hrows⟩ : mid.process = s.process ∧
    mid.lastScriptFreeze = s.lastScriptFreeze ∧ _ := tickFreeze_keeps hT now s
  have hfreezes : mid.scriptFreezes = s.scriptFreezes := scriptFreezes_tickFreeze now true s
  have hentries (e : ℕ × List UInt8) : e ∈ (freezeSet (mid.scriptFreezes.filterMap
      (scriptPin parseFloat))).entries ↔ p e.1 = some e.2 := by
    rw [hfreezes]
    exact hholds.entries e
  refine ⟨fun args addr haddr => ?_, fun a hscripts htable => ?_, fun hidle => ?_,
    fun hsome hdue addr b hb hmapped hothers => ?_⟩
  · rw [memUnfreeze, haddr]
    dsimp only
    rw [hholds.unfreeze addr]
  · rw [← hrows a htable]
    by_cases hwrites : mid.process.isSome ∧ due mid.lastScriptFreeze now = true
    · exact (tickScriptFreezes_pinned hT hwrites.1 hwrites.2).frame a fun e he =>
        hscripts e.1 e.2 ((hentries e).mp he)
    · refine congrFun (tickScriptFreezes_idle ?_) a
      rw [not_and_or, Bool.not_eq_true, Option.isSome_eq_false_iff, Option.isNone_iff_eq_none,
        Bool.not_eq_true] at hwrites
      exact hwrites
  · exact tickScriptFreezes_idle (hprocess ▸ hlast ▸ hidle)
  · have hpinned : Pinned (freezeSet (mid.scriptFreezes.filterMap (scriptPin parseFloat))).entries
        mid.mem out.mem := tickScriptFreezes_pinned hT (hprocess ▸ hsome) (hlast ▸ hdue)
    refine hpinned.apart ((hentries (addr, b)).mpr hb)
      ((FullyMapped.congr hmapping (addr, b)).mpr hmapped)
      (fun e' he' hne => hothers e'.1 e'.2 ((hentries e').mp he') hne) fun e' he' heq => ?_
    have hsame := (hentries e').mp he'
    rw [heq, hb, Option.some.injEq] at hsame
    exact Prod.ext heq hsame.symm

theorem script_freezes_hold_word :
    let events : List FreezeEvent :=
      [.attach [], .run fun a => if a < 5 then some 0 else none,
        .freeze (.array [.number (.posInt 1), .string "u8", .string "7"]),
        .freeze (.array [.number (.posInt 2), .string "u16", .string "258"]),
        .unfreeze (.array [.number (.posInt 1)])]
    let s := Freezer.after (fun _ => "") id (fun _ => "") (fun _ _ => none) (fun _ _ => "")
      storing ⟨[], none, [], none, none, fun _ => none⟩ events
    mappedPrefix (tickScriptFreezes (fun _ _ => none) storing 0 true
      (tickFreeze (fun _ => "") (fun _ _ => none) storing 0 true s)).mem 2 2 = [2, 1] := by
  intro events s
  have hbyte : freezeArgs (fun _ => "") id (fun _ _ => none)
      (.array [.number (.posInt 1), .string "u8", .string "7"]) = .ok (1, .u8, "7") := by
    decide +kernel
  have hword : freezeArgs (fun _ => "") id (fun _ _ => none)
      (.array [.number (.posInt 2), .string "u16", .string "258"]) = .ok (2, .u16, "258") := by
    decide +kernel
  have haddr : (arg (.array [.number (.posInt 1)]) 0 >>= asAddr (fun _ => "") id) = .ok 1 := by
    decide +kernel
  have htext : valueTextToBytes (fun _ _ => none) .u16 "258" = some [2, 1] := by decide +kernel
  have hpins (addr : ℕ) : pinsOf (fun _ => "") id (fun _ _ => none) events addr =
      if addr = 2 then some [2, 1] else none := by
    simp only [pinsOf, events, List.foldl_cons, List.foldl_nil, Pins.note, hbyte, hword, haddr,
      htext, Function.update_apply]
    split_ifs <;> first | rfl | omega
  have hstart : (⟨[], none, [], none, none, fun _ => none⟩ : Freezer).scriptFreezes = [] := rfl
  refine (script_freezes_hold storing_stores hstart events 0).2.2.2 rfl rfl 2 [2, 1]
    ((hpins 2).trans rfl) rfl fun addr' b' h hne => ?_
  rw [hpins, if_neg hne] at h
  cases h

/-! ## Freezing the table as it is -/

/-- A row that a freeze of all has read. -/
structure WasRead (readError : ℕ → String) (s : Freezer) (entry : CheatEntry) (addr : ℕ)
    (bytes : List UInt8) : Prop where
  address : resolveEntryAddr readError entry s.process s.mem = some addr
  bytes : readEntryBytes readError s.process s.mem entry (fromTag entry.valueType) = some bytes

/-- No row is of a float type. -/
def NoFloats (table : List CheatEntry) : Prop :=
  ∀ entry ∈ table, ∀ vt, fromTag entry.valueType = some vt → vt.isFloat = false

variable (parseFloat formatFloat) in
theorem WasRead.value {s : Freezer} {entry : CheatEntry} {addr : ℕ} {bytes : List UInt8}
    (h : WasRead readError s entry addr bytes)
    (hfloat : ∀ vt, fromTag entry.valueType = some vt → vt.isFloat = false) :
    ∃ vt, fromTag entry.valueType = some vt ∧ mappedPrefix s.mem addr bytes.length = bytes ∧
      valueTextToBytes parseFloat vt (readEntryValue readError formatFloat s.process s.mem entry
        (fromTag entry.valueType)) = some bytes := by
  have hread := h.bytes
  rw [readEntryBytes] at hread
  obtain ⟨modules, -, hread⟩ := Option.bind_eq_some_iff.mp hread
  obtain ⟨addr', haddr, hread⟩ := Option.bind_eq_some_iff.mp hread
  obtain ⟨vt, hvt, hread⟩ := Option.bind_eq_some_iff.mp hread
  obtain ⟨width, hwidth, hread⟩ := Option.bind_eq_some_iff.mp hread
  rw [h.address] at haddr
  cases haddr
  rw [Process.wholeRead] at hread
  split_ifs at hread with hwhole
  cases hread
  refine ⟨vt, hvt, by rw [hwhole], ?_⟩
  have hbytes := h.bytes
  rw [hvt] at hbytes
  simp only [readEntryValue, hvt, hbytes]
  exact valueTextToBytes_formatValueBytes parseFloat formatFloat ⟨hfloat vt hvt, hwidth⟩ hwhole

/-- All rows frozen as they were read. -/
theorem rowPins_toggle {s : Freezer} (hany : ∃ e ∈ s.table, e.frozen = false)
    (hfloats : NoFloats s.table) {read : CheatEntry → ℕ × List UInt8}
    (hread : ∀ e ∈ s.table, WasRead readError s e (read e).1 (read e).2) {mem : Cells}
    (hstay : ∀ e ∈ s.table, resolveEntryAddr readError e s.process mem =
      resolveEntryAddr readError e s.process s.mem) :
    rowPins readError parseFloat { toggleFreezeAll readError formatFloat s with mem := mem } =
      s.table.map read := by
  have hfrozen : (!(!s.table.isEmpty && s.table.all (·.frozen))) = true := by
    obtain ⟨e, he, hf⟩ := hany
    rw [Bool.not_eq_true', Bool.and_eq_false_iff]
    refine .inr (Bool.eq_false_iff.mpr fun hall => ?_)
    rw [List.all_eq_true.mp hall e he] at hf
    cases hf
  rw [rowPins, toggleFreezeAll, hfrozen]
  dsimp only
  rw [List.filterMap_map]
  refine List.filterMap_eq_map_iff_forall_eq_some.mpr fun e he => ?_
  obtain ⟨vt, hvt, -, hvalue⟩ := (hread e he).value parseFloat formatFloat (hfloats e he)
  have haddr (frozen : Bool) (value : String) : resolveEntryAddr readError
      { e with frozen := frozen, frozenValue := value } s.process mem = some (read e).1 :=
    (hstay e he).trans (hread e he).address
  rw [hvt] at hvalue
  simp [rowPin, haddr, hvt, hvalue]

/-- Freezing all rows where one is not frozen yet, none is of a float type and all can be read:
whatever the target stores then, as long as the rows stay where they are, the next tick that is due
brings back what they held, also where rows overlap, and leaves the rest as the target has it. Of
several rows at one address the last counts. -/
theorem freezeAll_restores (hT : T.Stores) {s : Freezer} (hsome : s.process.isSome)
    (hany : ∃ e ∈ s.table, e.frozen = false) (hfloats : NoFloats s.table)
    {read : CheatEntry → ℕ × List UInt8}
    (hread : ∀ e ∈ s.table, WasRead readError s e (read e).1 (read e).2) {mem : Cells}
    (hstay : ∀ e ∈ s.table, resolveEntryAddr readError e s.process mem =
      resolveEntryAddr readError e s.process s.mem)
    (hmapped : ∀ e ∈ s.table, FullyMapped mem (read e)) {now : ℕ}
    (hdue : due s.lastFreeze now = true) :
    let out := tickFreeze readError parseFloat T now true
      { toggleFreezeAll readError formatFloat s with mem := mem }
    (∀ before e after, s.table = before ++ e :: after → (∀ g ∈ after, (read g).1 ≠ (read e).1) →
      mappedPrefix out.mem (read e).1 (read e).2.length = (read e).2) ∧
    ∀ a, (∀ e ∈ s.table, covers a (read e) = none) → out.mem a = mem a := by
  intro out
  have hpins : rowPins readError parseFloat
      { toggleFreezeAll readError formatFloat s with mem := mem } = s.table.map read :=
    rowPins_toggle hany hfloats hread hstay
  have hpinned : Pinned (freezeSet (s.table.map read)).entries mem out.mem := by
    rw [← hpins]
    have hset := applySet_pinned hT (s := { toggleFreezeAll readError formatFloat s with
      mem := mem, lastFreeze := some now }) hsome
      (freezeSet (rowPins readError parseFloat
        { toggleFreezeAll readError formatFloat s with mem := mem }))
    have hout : out = applySet T true (freezeSet (rowPins readError parseFloat
        { toggleFreezeAll readError formatFloat s with mem := mem }))
        { toggleFreezeAll readError formatFloat s with mem := mem, lastFreeze := some now } := by
      change tickFreeze _ _ _ _ _ _ = _
      rw [tickFreeze, show due (toggleFreezeAll readError formatFloat s).lastFreeze now = true
        from hdue]
      rfl
    rw [hout]
    exact hset
  have hrow : ∀ e ∈ (freezeSet (s.table.map read)).entries, ∃ row ∈ s.table, read row = e :=
    fun e he => List.mem_map.mp (mem_of_mem_freezeSet he)
  have hwas : ∀ row ∈ s.table, mappedPrefix s.mem (read row).1 (read row).2.length =
      (read row).2 := fun row hmem =>
    ((hread row hmem).value parseFloat formatFloat (hfloats row hmem)).choose_spec.2.1
  -- every value that is pinned is the one that was there
  have hback : ∀ e ∈ (freezeSet (s.table.map read)).entries, ∀ a, (covers a e).isSome →
      out.mem a = s.mem a := fun e he a hcover => by
    cases hlast : lastCover (freezeSet (s.table.map read)).entries a with
    | none => rw [lastCover_eq_none.mp hlast e he] at hcover; cases hcover
    | some v =>
      obtain ⟨e', he', hv⟩ := exists_of_lastCover hlast
      obtain ⟨row, hmem, rfl⟩ := hrow e' he'
      rw [hpinned.last a v hlast fun e'' he'' _ => ?_, get_of_covers (hwas row hmem) hv]
      obtain ⟨row', hmem', rfl⟩ := hrow e'' he''
      exact hmapped row' hmem'
  constructor
  · intro before e after htable hafter
    have hmem : e ∈ s.table := htable ▸ List.mem_append_right before List.mem_cons_self
    have hentry : read e ∈ (freezeSet (s.table.map read)).entries := by
      refine mem_freezeSet_of_last ⟨before.map read, after.map read, ?_, fun g hg => ?_⟩
      · rw [htable, List.map_append, List.map_cons]
      · obtain ⟨row, hrow, rfl⟩ := List.mem_map.mp hg
        exact hafter row hrow
    have hsame : mappedPrefix out.mem (read e).1 (read e).2.length =
        mappedPrefix s.mem (read e).1 (read e).2.length := mappedPrefix_congr fun k hk =>
      hback _ hentry _ (isSome_covers.mpr ⟨Nat.le_add_right _ k, by omega⟩)
    exact hsame.trans (hwas e hmem)
  · intro a ha
    refine hpinned.frame a fun e he => ?_
    obtain ⟨row, hmem, rfl⟩ := hrow e he
    exact ha row hmem

theorem freezeAll_restores_word :
    let row : CheatEntry := ⟨"0x2", "u16", false, ""⟩
    let held : Cells := fun a => if a < 5 then some (UInt8.ofNat a) else none
    let stored : Cells := fun a => if a < 5 then some 0 else none
    let s : Freezer := ⟨[], none, [row], none, some [], held⟩
    mappedPrefix (tickFreeze (fun _ => "") (fun _ _ => none) storing 0 true
      { toggleFreezeAll (fun _ => "") (fun _ _ => "") s with mem := stored }).mem 2 2 = [2, 3] := by
  intro row held stored s
  have haddr (mem : Cells) : resolveEntryAddr (fun _ => "") row (some []) mem = some 2 := by
    have htext : parseAddrText row.address = some 2 := by decide +kernel
    rw [resolveEntryAddr, htext]
    rfl
  have htag : fromTag row.valueType = some .u16 := by decide +kernel
  have hread : WasRead (fun _ => "") s row 2 [2, 3] := ⟨haddr held, by
    rw [htag, readEntryBytes, haddr held]
    rfl⟩
  have hfloats : NoFloats s.table := by
    rintro e he vt hvt
    rw [List.mem_singleton.mp he, htag] at hvt
    cases hvt
    rfl
  have hreads : ∀ e ∈ s.table, WasRead (fun _ => "") s e 2 [2, 3] := fun e he => by
    rw [List.mem_singleton.mp he]
    exact hread
  have hstay : ∀ e ∈ s.table, resolveEntryAddr (fun _ => "") e s.process stored =
      resolveEntryAddr (fun _ => "") e s.process s.mem := fun e he => by
    rw [List.mem_singleton.mp he]
    exact (haddr stored).trans (haddr held).symm
  have hmapped : ∀ e ∈ s.table, FullyMapped stored ((fun _ => (2, [2, 3])) e) := fun _ _ => rfl
  have hdue : due s.lastFreeze 0 = true := rfl
  refine (freezeAll_restores storing_stores rfl ⟨row, List.mem_singleton_self row, rfl⟩ hfloats
    hreads hstay hmapped hdue).1 [] row [] rfl ?_
  rintro g hg
  cases hg

end Freezes

end Nemclass.Ui
