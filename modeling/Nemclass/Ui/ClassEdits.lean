import Nemclass.Lib.Trace
import Nemclass.Model.AutoDissect
import Nemclass.Model.ClassStore
import Nemclass.Ui.NodeEdits
import Nemclass.Ui.RowIds
import Nemclass.Ui.StructReads

/-! The class model as users and scripts edit it. What the picker chose waits in a queue until the
class view is drawn, while classes come and go. -/
namespace Nemclass.Ui.ClassEdits
open Usize Model Trace Address Scan

/-! ## New classes -/

def numbered (stem : String) (n : ℕ) : String := stem ++ toString n

theorem numbered_injective (stem : String) : Function.Injective (numbered stem) := fun i j h => by
  have hlist := congrArg String.toList h
  rw [numbered, numbered, String.toList_append, String.toList_append, List.append_cancel_left_eq,
    toList_toString, toList_toString] at hlist
  exact toDigits_inj hlist

theorem exists_free (stem : String) (names : List String) :
    ∃ n, numbered stem (n + 1) ∉ names := by
  have hinj : Function.Injective fun n => numbered stem (n + 1) := fun i j h =>
    Nat.succ_injective (numbered_injective stem h)
  obtain ⟨name, ⟨n, rfl⟩, hfree⟩ :=
    (Set.infinite_range_of_injective hinj).exists_notMem_finset names.toFinset
  exact ⟨n, fun h => hfree (List.mem_toFinset.mpr h)⟩

/-- The first number from 1 on whose name is not taken. -/
def freeName (stem : String) (names : List String) : String :=
  numbered stem (Nat.find (exists_free stem names) + 1)

def classNames (p : Project) : List String := p.classesInOrder.map ClassNode.name

def blankClass (fresh : Uuid) (p : Project) : ClassNode :=
  ⟨fresh, freeName "Class" (classNames p), "", "", [.simple .hex64 "field_0" ""]⟩

/-! ## The state -/

structure AddBytesState where
  owner : Uuid
  path : List ℕ
  countText : String
  insert : Bool

/-- The definitions come from a dissection; the summary of their types is left aside. -/
structure AutoDissectPreview where
  defs : List NodeDef
  targetClass : Uuid
  dissected : ∃ buf classify, defs = Dissect.dissectBuffer buf classify

/-- What of the application the edits of classes read and write. -/
structure NemclassApp where
  project : Project
  selectedClass : Option Uuid
  pendingNodeEdits : List NodeEditOp
  classPicker : Option PickerPurpose
  addBytesDialog : Option AddBytesState
  classRename : Option (Uuid × String)
  dissectPreview : Option AutoDissectPreview

/-- An edit that a row of the class view queues. -/
def NodeEditOp.FromRow : NodeEditOp → Prop
  | changeType .. | delete .. | setName .. | setComment .. => True
  | _ => False

/-- An edit of the toolbar. -/
def NodeEditOp.FromToolbar : NodeEditOp → Prop
  | changeType .. | deleteRange .. | appendBytes .. | addBytes .. | insertBytes .. => True
  | _ => False

theorem NodeEditOp.FromRow.target_eq {op : NodeEditOp} (h : op.FromRow) : op.target = none := by
  cases op with
  | setPtrTarget | setInstance => exact h.elim
  | _ => rfl

theorem NodeEditOp.FromToolbar.target_eq {op : NodeEditOp} (h : op.FromToolbar) :
    op.target = none := by
  cases op with
  | setPtrTarget | setInstance => exact h.elim
  | _ => rfl

theorem not_listRefers_hex (name comment : String) (u : Uuid) :
    ¬ ListRefers u [.simple .hex64 name comment] := by
  rintro ⟨n, hmem, hu⟩
  rw [List.mem_singleton.mp hmem] at hu
  exact not_references_simple hu

/-- The calls of scripts that edit classes, as read off their values. -/
inductive Call where
  | create (fresh : Uuid) (name : Option String)
  | declareClass (fresh : Uuid) (name addressFormula : String)
  | fromPointer (fresh : Uuid) (name : Option String) (formula : String)
  | setFormula (key formula : String)
  | addNode (fresh : Uuid) (key ty : String) (name comment : Option String)
  | addNodeAt (fresh : Uuid) (args : Except String AddNodeArgs)
  | setPointerTarget (key : String) (path : List ℕ) (targetKey : String)
  | removeNode (key : String) (path : List ℕ)
  | setNodeName (key : String) (path : List ℕ) (text : String)
  | setNodeComment (key : String) (path : List ℕ) (text : String)
  | dissect (key : String) (size : ℕ) (process : Option Dissect.ReadBuf)
      (maps : Option (List Analysis.ModuleSection)) (draws : ℕ)

/-- The type of the field that a call constructs. -/
def Call.constructs : Call → Option String
  | addNode _ _ ty _ _ => some ty
  | addNodeAt _ (.ok args) => some args.ty
  | _ => none

inductive Reply where
  | unit
  | bool (b : Bool)
  | uuid (u : Uuid)
  | count (n : ℕ)

/-- What users, scripts and the frames do. Projects are loaded with every class under its own
identifier. -/
inductive Input where
  | addClass (fresh : Uuid)
  | createClass (fresh : Uuid) (name formula : String)
  | clickClass (uuid : Uuid)
  | deleteClass (uuid : Uuid)
  | startRename (uuid : Uuid)
  | typeName (text : String)
  | confirmRename
  | cancelRename
  | editFormula (text : String)
  | openPicker (purpose : PickerPurpose)
  | pick (uuid : Uuid)
  | cancelPicker
  | queue (op : NodeEditOp) (h : op.FromRow)
  | openAddBytes (owner : Uuid) (path : List ℕ) (insert : Bool)
  | typeCount (text : String)
  | confirmAddBytes
  | cancelAddBytes
  | toolbar (fresh : Uuid) (op : NodeEditOp) (h : op.FromToolbar)
  | drawClassView (fresh : Uuid)
  | followPointer (target : Option Uuid)
  | addHexField (name comment : String)
  | setClassAddress (formula : String)
  | runAutoDissect (process : Option Dissect.ReadBuf) (maps : Option (List Analysis.ModuleSection))
      (base len : ℕ)
  | acceptAutoDissect (draws : ℕ)
  | discardAutoDissect
  | replaceProject (p : Project) (h : Keyed p)
  | selectClass (uuid : Uuid)
  | call (c : Call)

/-- What a step comes to: a call has a reply, unless it panics. -/
inductive Outcome where
  | done
  | panicked
  | replied (r : Except String Reply)

section Walked

/-- `classes.setPointerTarget`, `classes.setNodeName` and `classes.setNodeComment` on a node. -/
def editWalked (p : Project) (uuid : Uuid) (path : List ℕ) (f : Node → Bool × Node) :
    Option (Except String Reply × Project) := do
  let c ← p.getClass uuid
  match walkNodeMut f c.children path with
  | some (reply, children) => some (.ok (.bool reply), editChildren p uuid children)
  | none => some (.ok (.bool false), p)

/-- What a walk to a node refers to, the class does or the change of the node. -/
theorem edits_editWalked {p p' : Project} {uuid : Uuid} {path : List ℕ} {f : Node → Bool × Node}
    {r : Except String Reply} {Q : Uuid → Prop}
    (hf : ∀ n u, (f n).2.References u → n.References u ∨ Q u)
    (h : editWalked p uuid path f = some (r, p')) : Edits p p' Q := by
  obtain ⟨c, hc, h⟩ := Option.bind_eq_some_iff.mp h
  split at h
  · next reply children hwalk =>
    cases h
    refine edits_editChildren fun d hd u hu => ?_
    obtain rfl := Option.some.inj (hc.symm.trans hd)
    have hedit := congrArg (Option.map Prod.snd) hwalk
    rw [walkNodeMut_eq] at hedit
    exact editAt_refers hf hedit hu
  · cases h
    exact .refl p Q

theorem isSome_editWalked {p : Project} {uuid : Uuid} (h : (p.getClass uuid).isSome)
    (path : List ℕ) (f : Node → Bool × Node) : (editWalked p uuid path f).isSome := by
  obtain ⟨c, hc⟩ := Option.isSome_iff_exists.mp h
  simp only [editWalked, hc, Option.bind_eq_bind, Option.bind_some]
  split <;> rfl

end Walked

/-! ## The steps -/

section Steps

variable [UuidLibrary]

/- The printing of a string in quotes, texts of errors, and what an address formula comes to in the
process. -/
variable (debugStr : String → String) (errorText : ModelError → String)
  (readError : Error → String) (resolveBase : String → Except String ℕ)

def errorOf {ε α : Type} : Except ε α → Option ε
  | .error e => some e
  | .ok _ => none

def classesDissect (p : Project) (key : String) (size : ℕ) (process : Option Dissect.ReadBuf)
    (maps : Option (List Analysis.ModuleSection)) (draws : ℕ) :
    Option (Except String Reply × Project) :=
  match findClassUuid p key with
  | none => some (.ok (.bool false), p)
  | some uuid => do
    let c ← p.getClass uuid
    match process with
    | none => some (.error "not attached", p)
    | some read =>
      match resolveBase c.addressFormula with
      | .error e => some (.error ("resolve base: " ++ e), p)
      | .ok base =>
        match ← Dissect.autoDissect read maps base (min size maxScriptRead) with
        | .error e => some (.error (readError e), p)
        | .ok defs =>
          match (Project.readNodes defs).run draws with
          | .error e => some (.error ("node: " ++ errorText e), p)
          | .ok (nodes, _) => some (.ok (.count defs.length), editChildren p uuid nodes)

/-- A call on the project; none where it panics. -/
def handle (p : Project) : Call → Option (Except String Reply × Project)
  | .create fresh name =>
    let name := name.getD (freeName "Class " (classNames p))
    some (.ok (.uuid fresh), p.addClass ⟨fresh, name, "", "", []⟩)
  | .declareClass fresh name addressFormula =>
    match (p.classesInOrder.find? fun c => c.name == name).map ClassNode.uuid with
    | some uuid =>
      some (.ok .unit, p.updateClass uuid fun c => { c with addressFormula := addressFormula })
    | none => some (.ok .unit, p.addClass ⟨fresh, name, "", addressFormula, []⟩)
  | .fromPointer fresh name formula =>
    let name := name.getD (freeName "Class " (classNames p))
    some (.ok (.uuid fresh), p.addClass ⟨fresh, name, "", formula, []⟩)
  | .setFormula key formula =>
    match if (trim formula.toList).isEmpty then none else errorOf (Address.parse formula) with
    | some e =>
      some (.error ("invalid address formula " ++ debugStr formula ++ ": " ++ errorText e), p)
    | none =>
      match findClassUuid p key with
      | none => some (.ok (.bool false), p)
      | some uuid => do
        let _ ← p.getClass uuid
        some (.ok (.bool true), p.updateClass uuid fun c => { c with addressFormula := formula })
  | .addNode fresh key ty name comment =>
    match findClassUuid p key with
    | none => some (.ok (.bool false), p)
    | some uuid =>
      match construct fresh ty with
      | none => some (.error ("unknown node type: " ++ ty), p)
      | some node => do
        let node := name.elim node fun name => node.setName name
        let node := comment.elim node fun comment => node.setComment comment
        let c ← p.getClass uuid
        some (.ok (.bool true), editChildren p uuid (c.children ++ [node]))
  | .addNodeAt fresh args => do
    let (r, p) ← addNodeAt p fresh args
    some (r.map .bool, p)
  | .setPointerTarget key path targetKey =>
    match findClassUuid p key with
    | none => some (.ok (.bool false), p)
    | some uuid =>
      match findClassUuid p targetKey with
      | none => some (.ok (.bool false), p)
      | some target => editWalked p uuid path (setPointerTarget target)
  | .removeNode key path =>
    match findClassUuid p key with
    | none => some (.ok (.bool false), p)
    | some uuid => do
      let c ← p.getClass uuid
      match removeNode c.children path with
      | some children => some (.ok (.bool true), editChildren p uuid children)
      | none => some (.ok (.bool false), p)
  | .setNodeName key path text =>
    match findClassUuid p key with
    | none => some (.ok (.bool false), p)
    | some uuid => editWalked p uuid path fun n => (true, n.setName text)
  | .setNodeComment key path text =>
    match findClassUuid p key with
    | none => some (.ok (.bool false), p)
    | some uuid => editWalked p uuid path fun n => (true, n.setComment text)
  | .dissect key size process maps draws =>
    classesDissect errorText readError resolveBase p key size process maps draws

namespace NemclassApp

variable (s : NemclassApp)

/-- The class that is added comes to be selected. -/
def addSelected (c : ClassNode) : NemclassApp :=
  { s with project := s.project.addClass c, selectedClass := some c.uuid }

def firstClass (p : Project) : Option Uuid := p.classesInOrder.head?.map ClassNode.uuid

def deleteClass (uuid : Uuid) : NemclassApp :=
  match s.project.removeClass uuid with
  | (.ok _, project) =>
    { s with
      project := project
      selectedClass := if s.selectedClass = some uuid then firstClass project else s.selectedClass }
  | (.error _, project) => { s with project := project }

def confirmRename : NemclassApp :=
  match s.classRename with
  | none => s
  | some (uuid, name) =>
    let name := String.ofList (trim name.toList)
    if name.isEmpty then { s with classRename := none }
    else
      { s with
        classRename := none
        project := s.project.updateClass uuid fun c => { c with name := name } }

/-- A class of the list in the picker is clicked. -/
def pick (uuid : Uuid) : NemclassApp :=
  match s.classPicker with
  | none => s
  | some purpose =>
    if (s.project.getClass uuid).isNone then s
    else if wouldCycle s.project ⟨purpose, uuid⟩ then { s with classPicker := none }
    else
      let op := match purpose with
        | .setPtrTarget owner path => NodeEditOp.setPtrTarget owner path (some uuid)
        | .setInstance owner path | .changeToInstance owner path => .setInstance owner path uuid
      { s with classPicker := none, pendingNodeEdits := s.pendingNodeEdits ++ [op] }

def confirmAddBytes : NemclassApp :=
  match s.addBytesDialog with
  | none => s
  | some state =>
    let count := ((fromStrRadix false 8 10 (trim state.countText.toList)).toOption.map
      Int.toNat).getD 0
    if 0 < count then
      let op := if state.insert then NodeEditOp.insertBytes state.owner state.path count
        else .addBytes state.owner state.path count
      { s with addBytesDialog := none, pendingNodeEdits := s.pendingNodeEdits ++ [op] }
    else { s with addBytesDialog := none }

/-- The end of `show_class_view`; without a selected class it is not reached. -/
def drawClassView (fresh : Uuid) : NemclassApp :=
  if s.selectedClass.isNone then s
  else
    { s with
      project := s.pendingNodeEdits.foldl (applyNodeEdit fresh) s.project
      pendingNodeEdits := [] }

/-- The class that rows of other panels go to. -/
def addTarget : Option Uuid := s.selectedClass.or (firstClass s.project)

def runAutoDissect (process : Option Dissect.ReadBuf)
    (maps : Option (List Analysis.ModuleSection)) (base len : ℕ) : Option NemclassApp :=
  match s.selectedClass, process with
  | some uuid, some read =>
    match h : Dissect.autoDissect read maps base len with
    | none => none
    | some (.error _) => some s
    | some (.ok defs) =>
      some { s with dissectPreview := some ⟨defs, uuid, Dissect.autoDissect_dissected h⟩ }
  | _, _ => some s

def acceptAutoDissect (draws : ℕ) : NemclassApp :=
  match s.dissectPreview with
  | none => s
  | some preview =>
    match (Project.readNodes preview.defs).run draws with
    | .error _ => { s with dissectPreview := none }
    | .ok (nodes, _) =>
      { s with
        dissectPreview := none
        project := editChildren s.project preview.targetClass nodes }

end NemclassApp

def appStep (s : NemclassApp) : Input → Outcome × NemclassApp
  | .addClass fresh => (.done, s.addSelected (blankClass fresh s.project))
  | .createClass fresh name formula =>
    let c := blankClass fresh s.project
    (.done, s.addSelected { c with
      name := if name.isEmpty then c.name else name, addressFormula := formula })
  | .clickClass uuid | .selectClass uuid =>
    (.done, if (s.project.getClass uuid).isSome then { s with selectedClass := some uuid } else s)
  | .deleteClass uuid => (.done, s.deleteClass uuid)
  | .startRename uuid =>
    (.done, { s with classRename := some (uuid, ((s.project.getClass uuid).map (·.name)).getD "") })
  | .typeName text => (.done, { s with classRename := s.classRename.map fun r => (r.1, text) })
  | .confirmRename => (.done, s.confirmRename)
  | .cancelRename => (.done, { s with classRename := none })
  | .editFormula text =>
    (.done, s.selectedClass.elim s fun uuid => { s with
      project := s.project.updateClass uuid fun c => { c with addressFormula := text } })
  | .openPicker purpose => (.done, { s with classPicker := some purpose })
  | .pick uuid => (.done, s.pick uuid)
  | .cancelPicker => (.done, { s with classPicker := none })
  | .queue op _ => (.done, { s with pendingNodeEdits := s.pendingNodeEdits ++ [op] })
  | .openAddBytes owner path insert =>
    (.done, { s with addBytesDialog := some ⟨owner, path, "8", insert⟩ })
  | .typeCount text =>
    (.done, { s with addBytesDialog := s.addBytesDialog.map fun d => { d with countText := text } })
  | .confirmAddBytes => (.done, s.confirmAddBytes)
  | .cancelAddBytes => (.done, { s with addBytesDialog := none })
  | .toolbar fresh op _ =>
    (.done, if s.selectedClass.isNone then s
      else { s with project := applyNodeEdit fresh s.project op })
  | .drawClassView fresh => (.done, s.drawClassView fresh)
  | .followPointer target =>
    (.done, match target with
      | some uuid =>
        if (s.project.getClass uuid).isSome then { s with selectedClass := some uuid } else s
      | none => s)
  | .addHexField name comment =>
    (.done, s.addTarget.elim s fun uuid => { s with
      project := s.project.updateClass uuid fun c => { c with
        children := c.children ++ [.simple .hex64 name comment] } })
  | .setClassAddress formula =>
    (.done, s.addTarget.elim s fun uuid => { s with
      project := s.project.updateClass uuid fun c => { c with addressFormula := formula } })
  | .runAutoDissect process maps base len =>
    match s.runAutoDissect process maps base len with
    | some s' => (.done, s')
    | none => (.panicked, s)
  | .acceptAutoDissect draws => (.done, s.acceptAutoDissect draws)
  | .discardAutoDissect => (.done, { s with dissectPreview := none })
  | .replaceProject p _ =>
    (.done, { s with project := p, selectedClass := NemclassApp.firstClass p })
  | .call c =>
    match handle debugStr errorText readError resolveBase s.project c with
    | some (r, p) => (.replied r, { s with project := p })
    | none => (.panicked, s)

/-! ## What a step does to the references -/

/-- An edit that refers to the class waits in the queue. -/
def NemclassApp.Waits (s : NemclassApp) (u : Uuid) : Prop :=
  ∃ op ∈ s.pendingNodeEdits, op.target = some u

/-- The placeholder that a script gets by constructing an embed. -/
def Input.Places : Input → Uuid → Prop
  | call c, u => c.constructs = some "ClassInstance" ∧ u = Uuid.nil
  | _, _ => False

/-- What becomes of the classes and the references in a step: they are edited, a class that nothing
else refers to goes, or another project takes their place. -/
inductive EditStep (s : NemclassApp) : Input → NemclassApp → Prop
  | edited {i : Input} {s' : NemclassApp}
      (hedits : Edits s.project s'.project fun u =>
        (s.project.getClass u).isSome ∨ s.Waits u ∨ i.Places u)
      (hwaits : ∀ u, s'.Waits u → (s.project.getClass u).isSome ∨ s.Waits u)
      (hselected : ∀ u, s'.selectedClass = some u →
        (s'.project.getClass u).isSome ∨ s.selectedClass = some u) : EditStep s i s'
  | deleted {s' : NemclassApp} {uuid : Uuid} {c : ClassNode}
      (hremove : s.project.removeClass uuid = (.ok c, s'.project))
      (hpending : s'.pendingNodeEdits = s.pendingNodeEdits)
      (hselected : s'.selectedClass =
        if s.selectedClass = some uuid then NemclassApp.firstClass s'.project
        else s.selectedClass) : EditStep s (.deleteClass uuid) s'
  | replaced {p : Project} {h : Keyed p} {s' : NemclassApp} (hproject : s'.project = p)
      (hpending : s'.pendingNodeEdits = s.pendingNodeEdits)
      (hselected : s'.selectedClass = NemclassApp.firstClass p) : EditStep s (.replaceProject p h) s'

/-- A step on the project alone. -/
theorem EditStep.of_edits {s : NemclassApp} {i : Input} {s' : NemclassApp} {Q : Uuid → Prop}
    (hedits : Edits s.project s'.project Q)
    (hQ : ∀ u, Q u → (s.project.getClass u).isSome ∨ s.Waits u ∨ i.Places u)
    (hpending : s'.pendingNodeEdits = s.pendingNodeEdits)
    (hselected : s'.selectedClass = s.selectedClass) : EditStep s i s' :=
  .edited (hedits.mono hQ) (fun _ ⟨op, hop, h⟩ => .inr ⟨op, hpending ▸ hop, h⟩)
    fun _ hu => .inr (hselected ▸ hu)

theorem EditStep.of_same {s : NemclassApp} {i : Input} {s' : NemclassApp}
    (hproject : s'.project = s.project) (hpending : s'.pendingNodeEdits = s.pendingNodeEdits)
    (hselected : s'.selectedClass = s.selectedClass) : EditStep s i s' :=
  .of_edits (hproject ▸ .refl s.project fun _ => False) (fun _ => False.elim) hpending hselected

/-- A class that is there gets selected. -/
theorem EditStep.of_selected {s : NemclassApp} {i : Input} {s' : NemclassApp} {uuid : Uuid}
    (hproject : s'.project = s.project) (hpending : s'.pendingNodeEdits = s.pendingNodeEdits)
    (hselected : s'.selectedClass = some uuid) (huuid : (s.project.getClass uuid).isSome) :
    EditStep s i s' :=
  .edited (hproject ▸ .refl s.project _) (fun _ ⟨op, hop, h⟩ => .inr ⟨op, hpending ▸ hop, h⟩)
    fun u hu => .inl (by rw [hselected] at hu; cases hu; exact hproject ▸ huuid)

/-- An edit that refers to nothing, or to a class that is there, joins the queue. -/
theorem EditStep.of_queued {s : NemclassApp} {i : Input} {s' : NemclassApp} {op : NodeEditOp}
    (hproject : s'.project = s.project)
    (hpending : s'.pendingNodeEdits = s.pendingNodeEdits ++ [op])
    (hselected : s'.selectedClass = s.selectedClass)
    (hop : ∀ u, op.target = some u → (s.project.getClass u).isSome) : EditStep s i s' := by
  refine .edited (hproject ▸ .refl s.project _) ?_ fun _ hu => .inr (hselected ▸ hu)
  rintro u ⟨op', hmem, h⟩
  rw [hpending] at hmem
  rcases List.mem_append.mp hmem with hmem | hmem
  · exact .inr ⟨op', hmem, h⟩
  · rw [List.mem_singleton.mp hmem] at h
    exact .inl (hop u h)

/-- Dissected fields refer to no class. -/
theorem not_listRefers_dissected {buf : Model.ByteSlice} {classify : UInt64 → PointerClass}
    {draws k : ℕ} {nodes : List Node}
    (h : (Project.readNodes (Dissect.dissectBuffer buf classify)).run draws = .ok (nodes, k))
    (u : Uuid) : ¬ ListRefers u nodes := by
  rw [Dissect.readNodes_dissectBuffer] at h
  cases h
  rintro ⟨n, hmem, hu⟩
  obtain ⟨offset, -, rfl⟩ := List.mem_map.mp hmem
  rw [Dissect.slotNode] at hu
  split at hu
  · next run _ =>
    rw [Dissect.textNode] at hu
    split at hu
    all_goals
      rcases (references_iff _).mp hu with htarget | ⟨_, hchild, _⟩
      · cases htarget
      · cases hchild
  · rcases Dissect.wordNode_cases classify (Dissect.fieldName offset) (Dissect.wordAt buf.bytes offset)
      with ⟨methodCount, hnode⟩ | ⟨kind, -, hnode⟩ | hnode
    · rw [hnode] at hu
      rcases (references_iff _).mp hu with htarget | ⟨child, hchild, hu⟩
      · cases htarget
      · obtain ⟨i, -, rfl⟩ := List.mem_map.mp hchild
        exact not_references_simple hu
    · rw [hnode] at hu
      exact not_references_simple hu
    · rw [hnode, references_pointer] at hu
      cases hu

theorem findClassUuid_isSome {p : Project} (hp : Keyed p) {key : String} {uuid : Uuid}
    (h : findClassUuid p key = some uuid) : (p.getClass uuid).isSome := by
  rw [findClassUuid] at h
  split at h
  · next found hfound =>
    cases h
    exact (Option.filter_eq_some_iff.mp hfound).2
  · obtain ⟨c, hc, rfl⟩ := Option.map_eq_some_iff.mp h
    obtain ⟨v, hv⟩ := Project.mem_classesInOrder.mp (List.mem_of_find?_eq_some hc)
    rw [hp v c hv, hv, Option.isSome_some]

variable {debugStr : String → String} {errorText : ModelError → String}
  {readError : Error → String} {resolveBase : String → Except String ℕ}

theorem edits_classesDissect {p p' : Project} {key : String} {size : ℕ}
    {process : Option Dissect.ReadBuf} {maps : Option (List Analysis.ModuleSection)} {draws : ℕ}
    {r : Except String Reply} (Q : Uuid → Prop)
    (h : classesDissect errorText readError resolveBase p key size process maps draws =
      some (r, p')) : Edits p p' Q := by
  rw [classesDissect] at h
  split at h
  · cases h
    exact .refl p Q
  next uuid huuid =>
    obtain ⟨c, hc, h⟩ := Option.bind_eq_some_iff.mp h
    split at h
    · cases h
      exact .refl p Q
    split at h
    · cases h
      exact .refl p Q
    obtain ⟨outcome, hdissect, h⟩ := Option.bind_eq_some_iff.mp h
    split at h
    · cases h
      exact .refl p Q
    next defs =>
      obtain ⟨buf, classify, rfl⟩ := Dissect.autoDissect_dissected hdissect
      split at h
      · cases h
        exact .refl p Q
      next nodes k hnodes =>
        cases h
        exact edits_editChildren fun d hd u hu => absurd hu (not_listRefers_dissected hnodes u)

theorem edits_addNodeAt {p p' : Project} {fresh : Uuid} {args : Except String AddNodeArgs}
    {r : Except String Bool} {Q : Uuid → Prop}
    (hQ : ∀ a, args = .ok a → a.ty = "ClassInstance" → Q Uuid.nil)
    (h : addNodeAt p fresh args = some (r, p')) : Edits p p' Q := by
  cases args with
  | error e =>
    cases h
    exact .refl p Q
  | ok args =>
    cases hfind : findClassUuid p args.key with
    | none =>
      rw [addNodeAt, hfind] at h
      cases h
      exact .refl p Q
    | some uuid =>
      cases hnode : construct fresh args.ty with
      | none =>
        simp only [addNodeAt, hfind, hnode] at h
        cases h
        exact .refl p Q
      | some node =>
        cases hget : p.getClass uuid with
        | none =>
          simp only [addNodeAt, hfind, hnode, hget] at h
          cases h
        | some c =>
          obtain ⟨-, hplace⟩ | ⟨-, e, herror⟩ := addNodeAt_eq hfind hnode hget
          · obtain ⟨-, rfl⟩ := Prod.mk.inj (Option.some.inj (hplace.symm.trans h))
            refine edits_updateClass (fun d hd => ?_) fun d u hd hu => ?_
            · obtain rfl := Option.some.inj (hget.symm.trans hd)
              rfl
            obtain rfl := Option.some.inj (hget.symm.trans hd)
            rcases listRefers_append.mp hu with hu | ⟨n, hmem, hu⟩
            · rcases listRefers_append.mp hu with hu | ⟨n, hmem, hu⟩
              · exact .inl (hu.of_subset (fieldsBelow_begins _ 0 c.children).subset)
              · rcases isHex_hexFill hmem with rfl | rfl | rfl | rfl
                all_goals exact absurd hu not_references_simple
            · rcases List.mem_cons.mp hmem with rfl | hmem
              · obtain ⟨hty, rfl⟩ := construct_references hnode
                  ((references_named args.name args.comment).mp hu)
                exact .inr (hQ args rfl hty)
              · exact .inl ⟨n, List.drop_subset _ _ hmem, hu⟩
          · obtain ⟨-, rfl⟩ := Prod.mk.inj (Option.some.inj (herror.symm.trans h))
            exact .refl p Q

/-- A call leaves the classes where they are, and refers to those that are there. -/
theorem edits_handle {p p' : Project} (hp : Keyed p) {c : Call} {r : Except String Reply}
    (h : handle debugStr errorText readError resolveBase p c = some (r, p')) :
    Edits p p' fun u =>
      (p.getClass u).isSome ∨ c.constructs = some "ClassInstance" ∧ u = Uuid.nil := by
  cases c with
  | create fresh name | fromPointer fresh name formula =>
    cases h
    exact edits_addClass (fun _ => not_listRefers_nil) _
  | declareClass fresh name addressFormula =>
    rw [handle] at h
    split at h
    · cases h
      exact edits_updateClass (fun _ _ => rfl) fun c u _ => .inl
    · cases h
      exact edits_addClass (fun _ => not_listRefers_nil) _
  | setFormula key formula =>
    rw [handle] at h
    split at h
    · cases h
      exact .refl p _
    split at h
    · cases h
      exact .refl p _
    obtain ⟨c, -, h⟩ := Option.bind_eq_some_iff.mp h
    cases h
    exact edits_updateClass (fun _ _ => rfl) fun c u _ => .inl
  | addNode fresh key ty name comment =>
    rw [handle] at h
    split at h
    · cases h
      exact .refl p _
    split at h
    · cases h
      exact .refl p _
    next node hnode =>
      obtain ⟨c, hc, h⟩ := Option.bind_eq_some_iff.mp h
      cases h
      refine edits_editChildren fun d hd u hu => ?_
      obtain rfl := Option.some.inj (hc.symm.trans hd)
      rcases listRefers_append.mp hu with hu | ⟨n, hmem, hu⟩
      · exact .inl hu
      · rw [List.mem_singleton.mp hmem] at hu
        obtain ⟨rfl, rfl⟩ := construct_references hnode ((references_named name comment).mp hu)
        exact .inr (.inr ⟨rfl, rfl⟩)
  | addNodeAt fresh args =>
    obtain ⟨⟨r', p''⟩, hadd, h⟩ := Option.bind_eq_some_iff.mp h
    cases h
    refine edits_addNodeAt (fun a ha hty => .inr ⟨?_, rfl⟩) hadd
    rw [ha, Call.constructs, hty]
  | setPointerTarget key path targetKey =>
    rw [handle] at h
    split at h
    · cases h
      exact .refl p _
    split at h
    · cases h
      exact .refl p _
    next target htarget =>
      refine edits_editWalked (fun n u hu => ?_) h
      rcases references_setPointerTarget hu with rfl | hu
      · exact .inr (.inl (findClassUuid_isSome hp htarget))
      · exact .inl hu
  | removeNode key path =>
    rw [handle] at h
    split at h
    · cases h
      exact .refl p _
    next uuid _ =>
      obtain ⟨c, hc, h⟩ := Option.bind_eq_some_iff.mp h
      split at h
      · next children hremove =>
        cases h
        refine edits_editChildren fun d hd u hu => .inl ?_
        obtain rfl := Option.some.inj (hc.symm.trans hd)
        rw [removeNode_eq] at hremove
        have hnone := editParentVec_refers (Q := False)
          (fun vec idx hu => .inl (hu.of_subset List.eraseIdx_subset)) hremove hu
        exact hnone.resolve_right id
      · cases h
        exact .refl p _
  | setNodeName key path text =>
    rw [handle] at h
    split at h
    · cases h
      exact .refl p _
    · exact edits_editWalked (fun n u hu => .inl ((references_setName n text).mp hu)) h
  | setNodeComment key path text =>
    rw [handle] at h
    split at h
    · cases h
      exact .refl p _
    · exact edits_editWalked (fun n u hu => .inl ((references_setComment n text).mp hu)) h
  | dissect key size process maps draws => exact edits_classesDissect _ h

/-- Where every class stands under its identifier no call panics. -/
theorem isSome_handle {p : Project} (hp : Keyed p) (c : Call) :
    (handle debugStr errorText readError resolveBase p c).isSome := by
  have hfind {key : String} {uuid : Uuid} (h : findClassUuid p key = some uuid) :
      ∃ c, p.getClass uuid = some c := Option.isSome_iff_exists.mp (findClassUuid_isSome hp h)
  cases c with
  | create | fromPointer => rfl
  | declareClass => rw [handle]; split <;> rfl
  | setFormula key formula =>
    rw [handle]
    split
    · rfl
    split
    · rfl
    next uuid huuid =>
      obtain ⟨c, hc⟩ := hfind huuid
      rw [hc]
      rfl
  | addNode fresh key ty name comment =>
    rw [handle]
    split
    · rfl
    next uuid huuid =>
      split
      · rfl
      obtain ⟨c, hc⟩ := hfind huuid
      rw [hc]
      rfl
  | addNodeAt fresh args =>
    have hadd : (addNodeAt p fresh args).isSome := by
      cases args with
      | error e => rfl
      | ok args =>
        rw [addNodeAt]
        dsimp only
        split
        · rfl
        next uuid huuid =>
          split
          · rfl
          obtain ⟨c, hc⟩ := hfind huuid
          simp only [hc, Option.bind_eq_bind, Option.bind_some]
          split <;> rfl
    obtain ⟨x, hx⟩ := Option.isSome_iff_exists.mp hadd
    rw [handle, hx]
    rfl
  | setPointerTarget key path targetKey =>
    rw [handle]
    split
    · rfl
    next uuid huuid =>
      split
      · rfl
      exact isSome_editWalked (findClassUuid_isSome hp huuid) path _
  | removeNode key path =>
    rw [handle]
    split
    · rfl
    next uuid huuid =>
      obtain ⟨c, hc⟩ := hfind huuid
      rw [hc]
      simp only [Option.bind_eq_bind, Option.bind_some]
      split <;> rfl
  | setNodeName key path text | setNodeComment key path text =>
    rw [handle]
    split
    · rfl
    next uuid huuid => exact isSome_editWalked (findClassUuid_isSome hp huuid) path _
  | dissect key size process maps draws =>
    rw [handle, classesDissect]
    split
    · rfl
    next uuid huuid =>
      obtain ⟨c, hc⟩ := hfind huuid
      simp only [hc, Option.bind_eq_bind, Option.bind_some]
      split
      · rfl
      next read =>
        split
        · rfl
        next base _ =>
          have hlen : min size maxScriptRead < 2 ^ 63 :=
            (Nat.min_le_right size maxScriptRead).trans_lt (by decide)
          obtain ⟨outcome, hdissect⟩ :=
            Option.isSome_iff_exists.mp (Dissect.isSome_autoDissect read maps base hlen)
          rw [hdissect, Option.bind_some]
          split
          · rfl
          split <;> rfl

/-- An input does one of three things to classes and references. -/
theorem appStep_edits {s : NemclassApp} (hp : Keyed s.project) (i : Input) :
    EditStep s i (appStep debugStr errorText readError resolveBase s i).2 := by
  have hnone {op : NodeEditOp} (h : op.target = none) (u : Uuid) :
      op.target = some u → (s.project.getClass u).isSome := fun hu => by rw [h] at hu; cases hu
  have hadd {i : Input} (c : ClassNode) (hc : ∀ u, ¬ ListRefers u c.children) :
      EditStep s i (s.addSelected c) := by
    refine .edited (edits_addClass hc _) (fun _ => .inr) fun u hu => .inl ?_
    cases hu
    change ((s.project.addClass c).getClass c.uuid).isSome
    rw [Project.getClass_addClass, if_pos rfl]
    rfl
  have hselect {i : Input} (uuid : Uuid) : EditStep s i
      (if (s.project.getClass uuid).isSome then { s with selectedClass := some uuid } else s) := by
    split_ifs with h
    · exact .of_selected rfl rfl rfl h
    · exact .of_same rfl rfl rfl
  have hupdate {i : Input} {s' : NemclassApp} (owner : Uuid) (f : ClassNode → ClassNode)
      (hproject : s'.project = s.project.updateClass owner f)
      (hpending : s'.pendingNodeEdits = s.pendingNodeEdits)
      (hselected : s'.selectedClass = s.selectedClass) (huuid : ∀ c, (f c).uuid = c.uuid)
      (hrefers : ∀ c u, ListRefers u (f c).children → ListRefers u c.children) :
      EditStep s i s' := by
    refine .of_edits (Q := fun _ => False) ?_ (fun _ => False.elim) hpending hselected
    rw [hproject]
    exact edits_updateClass (fun c _ => huuid c) fun c u _ hu => .inl (hrefers c u hu)
  cases i with
  | addClass fresh => exact hadd _ (not_listRefers_hex "field_0" "")
  | createClass fresh name formula => exact hadd _ (not_listRefers_hex "field_0" "")
  | clickClass uuid | selectClass uuid => exact hselect uuid
  | deleteClass uuid =>
    rw [appStep]
    dsimp only
    unfold NemclassApp.deleteClass
    split
    · next c project h => exact .deleted h rfl rfl
    · next e project h =>
      have hsame := Project.removeClass_error (congrArg Prod.fst h)
      rw [h] at hsame
      exact .of_same hsame rfl rfl
  | startRename | typeName | cancelRename | openPicker | cancelPicker | openAddBytes | typeCount
  | cancelAddBytes | discardAutoDissect => exact .of_same rfl rfl rfl
  | confirmRename =>
    rw [appStep]
    dsimp only
    unfold NemclassApp.confirmRename
    split
    · exact .of_same rfl rfl rfl
    · dsimp only
      split_ifs
      · exact .of_same rfl rfl rfl
      · exact hupdate _ _ rfl rfl rfl (fun _ => rfl) fun _ _ => id
  | editFormula text =>
    rw [appStep]
    cases h : s.selectedClass with
    | none => exact .of_same rfl rfl rfl
    | some uuid => exact hupdate uuid _ rfl rfl h.symm (fun _ => rfl) fun _ _ => id
  | pick uuid =>
    rw [appStep]
    dsimp only
    unfold NemclassApp.pick
    split
    · exact .of_same rfl rfl rfl
    next purpose _ =>
      split_ifs with hthere hcycle
      · exact .of_same rfl rfl rfl
      · exact .of_same rfl rfl rfl
      · rw [Option.isNone_iff_eq_none, ← Ne, Option.ne_none_iff_isSome] at hthere
        refine .of_queued rfl rfl rfl fun u hu => ?_
        cases purpose <;> cases hu <;> exact hthere
  | queue op h => exact .of_queued rfl rfl rfl (hnone h.target_eq)
  | confirmAddBytes =>
    rw [appStep]
    dsimp only
    unfold NemclassApp.confirmAddBytes
    split
    · exact .of_same rfl rfl rfl
    next state _ =>
      dsimp only
      split_ifs
      · exact .of_queued rfl rfl rfl (hnone rfl)
      · exact .of_queued rfl rfl rfl (hnone rfl)
      · exact .of_same rfl rfl rfl
  | toolbar fresh op h =>
    rw [appStep]
    dsimp only
    split_ifs
    · exact .of_same rfl rfl rfl
    · exact .of_edits (edits_applyNodeEdit fresh op) (fun u hu => .inl (hnone h.target_eq u hu))
        rfl rfl
  | drawClassView fresh =>
    rw [appStep]
    dsimp only
    unfold NemclassApp.drawClassView
    split_ifs
    · exact .of_same rfl rfl rfl
    · refine .edited ((edits_foldl fresh s.pendingNodeEdits).mono fun u hu => .inr (.inl hu)) ?_
        fun u hu => .inr hu
      rintro u ⟨op, hmem, -⟩
      cases hmem
  | followPointer target =>
    unfold appStep
    cases target with
    | none => exact .of_same rfl rfl rfl
    | some uuid => exact hselect uuid
  | addHexField name comment =>
    rw [appStep]
    cases s.addTarget with
    | none => exact .of_same rfl rfl rfl
    | some uuid =>
      refine hupdate uuid _ rfl rfl rfl (fun _ => rfl) fun c u hu => ?_
      exact (listRefers_append.mp hu).resolve_right (not_listRefers_hex name comment u)
  | setClassAddress formula =>
    rw [appStep]
    cases s.addTarget with
    | none => exact .of_same rfl rfl rfl
    | some uuid => exact hupdate uuid _ rfl rfl rfl (fun _ => rfl) fun _ _ => id
  | runAutoDissect process maps base len =>
    unfold appStep
    dsimp only
    cases h : s.runAutoDissect process maps base len with
    | none => exact .of_same rfl rfl rfl
    | some s' =>
      unfold NemclassApp.runAutoDissect at h
      split at h
      · split at h
        · cases h
        · cases h
          exact .of_same rfl rfl rfl
        · cases h
          exact .of_same rfl rfl rfl
      · cases h
        exact .of_same rfl rfl rfl
  | acceptAutoDissect draws =>
    rw [appStep]
    dsimp only
    unfold NemclassApp.acceptAutoDissect
    split
    · exact .of_same rfl rfl rfl
    next preview _ =>
      split
      · exact .of_same rfl rfl rfl
      next nodes k hnodes =>
        obtain ⟨buf, classify, hdefs⟩ := preview.dissected
        rw [hdefs] at hnodes
        refine .of_edits (Q := fun _ => False) ?_ (fun _ => False.elim) rfl rfl
        exact edits_editChildren fun c hc u hu => absurd hu (not_listRefers_dissected hnodes u)
  | replaceProject p h => exact .replaced rfl rfl rfl
  | call c =>
    unfold appStep
    dsimp only
    split
    · next r p h =>
      refine .of_edits (edits_handle hp h) (fun u hu => ?_) rfl rfl
      exact hu.imp_right .inr
    · exact .of_same rfl rfl rfl

/-! ## Runs -/

variable (debugStr errorText readError resolveBase) (start : NemclassApp)

/-- The application after these inputs. -/
def after (inputs : List Input) : NemclassApp :=
  final (appStep debugStr errorText readError resolveBase) start inputs

/-- A class went away while an edit that refers to it waited. -/
def Lost (inputs : List Input) (u : Uuid) : Prop :=
  ∃ before i later, inputs = before ++ i :: later ∧
    (after debugStr errorText readError resolveBase start before).Waits u ∧
    ((after debugStr errorText readError resolveBase start before).project.getClass u).isSome ∧
    (after debugStr errorText readError resolveBase start (before ++ [i])).project.getClass u = none

/-- Where a reference that leads nowhere comes from: a project had it when it was loaded, a script
constructed the placeholder, or its class went while the edit waited. -/
inductive Origin (inputs : List Input) (u : Uuid) : Prop
  | started (h : Dangling start.project u)
  | loaded {p : Project} {hp : Keyed p} (hmem : .replaceProject p hp ∈ inputs) (h : Dangling p u)
  | placed {i : Input} (hmem : i ∈ inputs) (h : i.Places u)
  | lost (h : Lost debugStr errorText readError resolveBase start inputs u)

variable {debugStr errorText readError resolveBase start}

/-- An application that shows a project. -/
structure NemclassApp.Opened (s : NemclassApp) : Prop where
  keyed : Keyed s.project
  pendingNodeEdits : s.pendingNodeEdits = []
  selectedClass : s.selectedClass = NemclassApp.firstClass s.project

/-- What a run keeps, whatever counts as an origin. -/
structure Kept (O : Uuid → Prop) (s : NemclassApp) : Prop where
  keyed : Keyed s.project
  refers : ∀ u, Refers s.project u → (s.project.getClass u).isSome ∨ O u
  waits : ∀ u, s.Waits u → (s.project.getClass u).isSome ∨ O u
  selected : ∀ u, s.selectedClass = some u → (s.project.getClass u).isSome

omit [UuidLibrary] in
theorem isSome_firstClass {p : Project} (hp : Keyed p) {u : Uuid}
    (h : NemclassApp.firstClass p = some u) : (p.getClass u).isSome := by
  obtain ⟨c, hc, rfl⟩ := Option.map_eq_some_iff.mp h
  obtain ⟨v, hv⟩ := Project.mem_classesInOrder.mp (List.mem_of_mem_head? hc)
  rw [hp v c hv, hv, Option.isSome_some]

theorem Kept.step {O O' : Uuid → Prop} {s s' : NemclassApp} {i : Input} (h : Kept O s)
    (hstep : EditStep s i s') (hkept : ∀ u, O u → O' u) (hplaces : ∀ u, i.Places u → O' u)
    (hloaded : ∀ p hp u, i = .replaceProject p hp → Dangling p u → O' u)
    (hlost : ∀ u, s.Waits u → (s.project.getClass u).isSome → s'.project.getClass u = none →
      O' u) : Kept O' s' := by
  have hnone {u : Uuid} (hu : ¬ (s'.project.getClass u).isSome) : s'.project.getClass u = none :=
    Option.not_isSome_iff_eq_none.mp hu
  cases hstep with
  | edited hedits hwaits hselected =>
    have hold {u : Uuid} (hu : (s.project.getClass u).isSome ∨ O u) :
        (s'.project.getClass u).isSome ∨ O' u := hu.imp (hedits.classes u) (hkept u)
    refine ⟨hedits.keyed h.keyed, fun u hu => ?_, fun u hu => ?_, fun u hu => ?_⟩
    · rcases hedits.refers u hu with hu | hu | hu | hu
      · exact hold (h.refers u hu)
      · exact .inl (hedits.classes u hu)
      · exact hold (h.waits u hu)
      · exact .inr (hplaces u hu)
    · exact (hwaits u hu).elim (fun hu => .inl (hedits.classes u hu)) fun hu => hold (h.waits u hu)
    · exact (hselected u hu).elim id fun hu => hedits.classes u (h.selected u hu)
  | @deleted _ uuid c hremove hpending hselected =>
    have hok : (s.project.removeClass uuid).1 = .ok c := congrArg Prod.fst hremove
    have hproject : (s.project.removeClass uuid).2 = s'.project := congrArg Prod.snd hremove
    obtain ⟨-, hfree, herase⟩ := Project.removeClass_ok hok
    rw [hproject] at herase
    have hget (v : Uuid) : s'.project.getClass v = if v = uuid then none else s.project.getClass v :=
      by rw [herase]; rfl
    have hkeyed : Keyed s'.project := fun v d hd => by
      rw [hget] at hd
      split at hd
      · cases hd
      · exact h.keyed v d hd
    have hthere {u : Uuid} (hne : u ≠ uuid) (hu : (s.project.getClass u).isSome) :
        (s'.project.getClass u).isSome := by rwa [hget, if_neg hne]
    refine ⟨hkeyed, fun u hu => ?_, fun u hu => ?_, fun u hu => ?_⟩
    · obtain ⟨v, d, hd, n, hn, hrefers⟩ := hu
      have hne : u ≠ uuid := by
        rintro rfl
        rw [herase] at hd
        exact Project.not_references_erase hfree hd hn hrefers
      rw [hget] at hd
      split at hd
      · cases hd
      · exact (h.refers u ⟨v, d, hd, n, hn, hrefers⟩).imp (hthere hne) (hkept u)
    · obtain ⟨op, hop, htarget⟩ := hu
      have hold : s.Waits u := ⟨op, hpending ▸ hop, htarget⟩
      rcases h.waits u hold with hsome | hu
      · by_cases hsome' : (s'.project.getClass u).isSome
        · exact .inl hsome'
        · exact .inr (hlost u hold hsome (hnone hsome'))
      · exact .inr (hkept u hu)
    · rw [hselected] at hu
      split at hu
      · exact isSome_firstClass hkeyed hu
      · next hne =>
        refine hthere (fun heq => hne ?_) (h.selected u hu)
        rw [hu, heq]
  | @replaced p hp _ hproject hpending hselected =>
    refine ⟨hproject ▸ hp, fun u hu => ?_, fun u hu => ?_, fun u hu => ?_⟩
    · by_cases hsome : (s'.project.getClass u).isSome
      · exact .inl hsome
      · exact .inr (hloaded p hp u rfl ⟨hproject ▸ hu, hproject ▸ hnone hsome⟩)
    · obtain ⟨op, hop, htarget⟩ := hu
      have hold : s.Waits u := ⟨op, hpending ▸ hop, htarget⟩
      rcases h.waits u hold with hsome | hu
      · by_cases hsome' : (s'.project.getClass u).isSome
        · exact .inl hsome'
        · exact .inr (hlost u hold hsome (hnone hsome'))
      · exact .inr (hkept u hu)
    · rw [hselected] at hu
      rw [hproject]
      exact isSome_firstClass hp hu

theorem after_concat (inputs : List Input) (i : Input) :
    after debugStr errorText readError resolveBase start (inputs ++ [i]) =
      (appStep debugStr errorText readError resolveBase
        (after debugStr errorText readError resolveBase start inputs) i).2 :=
  final_concat inputs i

theorem Origin.concat {inputs : List Input} {u : Uuid}
    (h : Origin debugStr errorText readError resolveBase start inputs u) (i : Input) :
    Origin debugStr errorText readError resolveBase start (inputs ++ [i]) u := by
  cases h with
  | started h => exact .started h
  | loaded hmem h => exact .loaded (List.mem_append_left [i] hmem) h
  | placed hmem h => exact .placed (List.mem_append_left [i] hmem) h
  | lost h =>
    obtain ⟨before, j, later, rfl, hlost⟩ := h
    exact .lost ⟨before, j, later ++ [i], by simp, hlost⟩

theorem kept (hstart : start.Opened) (inputs : List Input) :
    Kept (Origin debugStr errorText readError resolveBase start inputs)
      (after debugStr errorText readError resolveBase start inputs) := by
  induction inputs using List.reverseRecOn with
  | nil =>
    refine ⟨hstart.keyed, fun u hu => ?_, fun u hu => ?_, fun u hu => ?_⟩
    · by_cases hsome : (start.project.getClass u).isSome
      · exact .inl hsome
      · exact .inr (.started ⟨hu, Option.not_isSome_iff_eq_none.mp hsome⟩)
    · obtain ⟨op, hop, -⟩ := hu
      change op ∈ start.pendingNodeEdits at hop
      rw [hstart.pendingNodeEdits] at hop
      cases hop
    · exact isSome_firstClass hstart.keyed (hstart.selectedClass ▸ hu)
  | append_singleton inputs i ih =>
    have hi : i ∈ inputs ++ [i] := List.mem_append_right inputs List.mem_cons_self
    have hlater : after debugStr errorText readError resolveBase start (inputs ++ [i]) = _ :=
      after_concat inputs i
    rw [hlater]
    refine ih.step (appStep_edits ih.keyed i) (fun u hu => hu.concat i)
      (fun u hu => .placed hi hu) ?_ fun u hwaits hsome hgone => ?_
    · rintro p hp u rfl h
      exact .loaded hi h
    · exact .lost ⟨inputs, i, [], rfl, hwaits, hsome, hlater ▸ hgone⟩

/-- In every run of edits by users and scripts, also with edits that wait while classes come and
go, a field that refers to a class which is not there has an origin: some project was loaded with
that reference, a script constructed the placeholder of an embed, or the class was deleted or its
project replaced while the edit that refers to it waited in the queue. -/
theorem dangling_origin (hstart : start.Opened) (inputs : List Input) {u : Uuid}
    (h : Dangling (after debugStr errorText readError resolveBase start inputs).project u) :
    Origin debugStr errorText readError resolveBase start inputs u := by
  refine ((kept hstart inputs).refers u h.1).resolve_left ?_
  rw [h.2]
  exact Bool.false_ne_true

omit [UuidLibrary] in
theorem dangling_origin_deleted :
    let start : NemclassApp :=
      ⟨((Project.new "game").addClass ⟨⟨1⟩, "Player", "", "", [.simple .hex64 "slot" ""]⟩).addClass
        ⟨⟨2⟩, "Weapon", "", "", []⟩, some ⟨1⟩, [], none, none, none, none⟩
    let inputs : List Input :=
      [.openPicker (.setInstance ⟨1⟩ [0]), .pick ⟨2⟩, .deleteClass ⟨2⟩, .drawClassView ⟨3⟩]
    @Origin hyphenatedLibrary id (fun _ => "") (fun _ => "") (fun _ => .ok 0) start inputs ⟨2⟩ := by
  intro start inputs
  have hkeyed : Keyed start.project :=
    Keyed.addClass (Keyed.addClass (fun _ _ h => by cases h) _) _
  refine @dangling_origin hyphenatedLibrary _ _ _ _ _ ⟨hkeyed, rfl, rfl⟩ inputs _ ⟨?_, rfl⟩
  exact ⟨⟨1⟩, _, rfl, _, List.mem_singleton_self _, references_classInstance.mpr rfl⟩

/-- Whatever came before, a call of a script is answered, and the selected class is one of the
project. Only a dissection of more bytes than an allocation can have panics. -/
theorem calls_answered (hstart : start.Opened) (inputs : List Input) :
    let s := after debugStr errorText readError resolveBase start inputs
    (∀ u, s.selectedClass = some u → (s.project.getClass u).isSome) ∧
      ∀ i, (appStep debugStr errorText readError resolveBase s i).1 = .panicked →
        ∃ process maps base len, i = .runAutoDissect process maps base len ∧ 2 ^ 63 ≤ len := by
  intro s
  have hkept : Kept _ s := kept hstart inputs
  refine ⟨hkept.selected, fun i hi => ?_⟩
  cases i with
  | call c =>
    have hsome : (handle debugStr errorText readError resolveBase s.project c).isSome :=
      isSome_handle hkept.keyed c
    obtain ⟨⟨r, p⟩, hr⟩ := Option.isSome_iff_exists.mp hsome
    unfold appStep at hi
    dsimp only at hi
    rw [hr] at hi
    cases hi
  | runAutoDissect process maps base len =>
    refine ⟨process, maps, base, len, rfl, Nat.le_of_not_lt fun hlen => ?_⟩
    have hsome : (s.runAutoDissect process maps base len).isSome := by
      unfold NemclassApp.runAutoDissect
      split
      next read _ =>
        split
        · next hnone =>
          have hdissect := Dissect.isSome_autoDissect read maps base hlen
          rw [hnone] at hdissect
          cases hdissect
        · rfl
        · rfl
      rfl
    obtain ⟨s', hs'⟩ := Option.isSome_iff_exists.mp hsome
    unfold appStep at hi
    dsimp only at hi
    rw [hs'] at hi
    cases hi
  | followPointer target => cases target <;> cases hi
  | _ => cases hi

omit [UuidLibrary] in
theorem calls_answered_first :
    let start : NemclassApp := ⟨Project.new "game", none, [], none, none, none, none⟩
    ((@after hyphenatedLibrary id (fun _ => "") (fun _ => "") (fun _ => .ok 0) start
      [.addClass ⟨1⟩]).project.getClass ⟨1⟩).isSome := by
  intro start
  have hkeyed : Keyed start.project := fun _ _ h => by cases h
  exact (@calls_answered hyphenatedLibrary id (fun _ => "") (fun _ => "") (fun _ => .ok 0) start
    ⟨hkeyed, rfl, rfl⟩ [.addClass ⟨1⟩]).1 ⟨1⟩ rfl

/-- A choice that is applied before anything else happens is a selection of the class picker. -/
theorem pick_draw {s : NemclassApp} {purpose : PickerPurpose} {uuid : Uuid} (fresh : Uuid)
    (hpicker : s.classPicker = some purpose) (hthere : (s.project.getClass uuid).isSome)
    (hpending : s.pendingNodeEdits = []) (hselected : s.selectedClass.isSome) :
    ((s.pick uuid).drawClassView fresh).project = (select s.project ⟨purpose, uuid⟩).2 := by
  have hsome : (s.project.getClass uuid).isNone = false := by
    rwa [Option.isNone_eq_false_iff]
  have hview : s.selectedClass.isNone = false := by
    rwa [Option.isNone_eq_false_iff]
  unfold NemclassApp.pick select
  simp only [hpicker, hsome, Bool.false_eq_true, if_false]
  split_ifs with hcycle
  · unfold NemclassApp.drawClassView
    simp only [hview, hpending, Bool.false_eq_true, if_false, List.foldl_nil]
  · unfold NemclassApp.drawClassView
    simp only [hview, hpending, Bool.false_eq_true, if_false, List.nil_append, List.foldl_cons,
      List.foldl_nil]
    cases purpose with
    | setPtrTarget owner path => exact (applyNodeEdit_picker fresh s.project path).1 (some uuid)
    | setInstance owner path | changeToInstance owner path =>
      exact (applyNodeEdit_picker fresh s.project path).2 uuid

end Steps

end Nemclass.Ui.ClassEdits
