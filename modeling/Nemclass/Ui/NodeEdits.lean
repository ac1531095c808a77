import Nemclass.Ui.AddNodeAt
import Nemclass.Ui.ClassPicker

/-! The structural edits of a class, as the class view and as scripts make them: which child list a
path leads to, what is done there, and which classes the edited project refers to. -/
namespace Nemclass.Ui.ClassEdits
open Usize Model

/-- The types that the menus and the toolbar change a field to. -/
def menuTypes : List String :=
  ["Hex8", "Hex16", "Hex32", "Hex64", "Int8", "Int16", "Int32", "Int64", "UInt8", "UInt16",
    "UInt32", "UInt64", "Float", "Double", "Bool", "Pointer", "StrPtr"] ++
  vectorShapes.map (·.1) ++ matrixShapes.map (·.1)

/-- A type that a menu names. -/
abbrev MenuTag := {tag : String // tag ∈ menuTypes}

inductive NodeEditOp where
  | changeType (owner : Uuid) (path : List ℕ) (newTag : MenuTag)
  | delete (owner : Uuid) (path : List ℕ)
  | deleteRange (owner : Uuid) (path : List ℕ) (count : ℕ)
  | appendBytes (owner : Uuid) (count : ℕ)
  | addBytes (owner : Uuid) (path : List ℕ) (count : ℕ)
  | insertBytes (owner : Uuid) (path : List ℕ) (count : ℕ)
  | setName (owner : Uuid) (path : List ℕ) (name : String)
  | setComment (owner : Uuid) (path : List ℕ) (comment : String)
  | setPtrTarget (owner : Uuid) (path : List ℕ) (target : Option Uuid)
  | setInstance (owner : Uuid) (path : List ℕ) (target : Uuid)

/-- The class that an edit makes its field refer to. -/
def NodeEditOp.target : NodeEditOp → Option Uuid
  | setPtrTarget _ _ target => target
  | setInstance _ _ target => some target
  | _ => none

/-- `hex_fill` of the class view. -/
def hexFill (count : ℕ) : List Node :=
  List.replicate (count / 8) (.simple .hex64 "" "") ++
  (List.replicate (count % 8 / 4) (.simple .hex32 "" "") ++
  (List.replicate (count % 8 % 4 / 2) (.simple .hex16 "" "") ++
  List.replicate (count % 8 % 4 % 2) (.simple .hex8 "" "")))

/-- `vec.insert(at + j, node)` for each node of the fill. -/
def insertFrom (i : ℕ) : List Node → List Node → List Node
  | [], vec => vec
  | node :: fill, vec => insertFrom (i + 1) fill (vec.insertIdx i node)

/-- `resolve_parent_vec_mut`, and what is done to the child list with the last index: none where the
path leads to no node. -/
def editParentVec (f : List Node → ℕ → List Node) : List ℕ → List Node → Option (List Node)
  | [], _ => none
  | [last], vec => if last < vec.length then some (f vec last) else none
  | idx :: rest, vec => do
    let node ← vec[idx]?
    let inner ← node.childrenMut
    let inner ← editParentVec f rest inner
    some (vec.set idx (node.setChildren inner))

def editParent (p : Project) (owner : Uuid) (path : List ℕ) (f : List Node → ℕ → List Node) :
    Project :=
  p.updateClass owner fun c => { c with children := (editParentVec f path c.children).getD c.children }

def editChildren (p : Project) (uuid : Uuid) (children : List Node) : Project :=
  p.updateClass uuid fun c => { c with children := children }

/-- `fresh` is the identifier that a constructed class gets. -/
def applyNodeEdit (fresh : Uuid) (project : Project) : NodeEditOp → Project
  | .changeType owner path newTag => editParent project owner path fun vec idx =>
    (construct fresh newTag.val).elim vec fun new =>
      vec.modify idx fun old => (new.setName old.name).setComment old.comment
  | .delete owner path => editParent project owner path fun vec idx => vec.eraseIdx idx
  | .deleteRange owner path count => editParent project owner path fun vec idx =>
    let stop := min (saturatingAdd idx count) vec.length
    vec.take idx ++ vec.drop stop
  | .appendBytes owner count =>
    project.updateClass owner fun c => { c with children := c.children ++ hexFill count }
  | .addBytes owner path count => editParent project owner path fun vec idx =>
    insertFrom (idx + 1) (hexFill count) vec
  | .insertBytes owner path count => editParent project owner path fun vec idx =>
    insertFrom idx (hexFill count) vec
  | .setName owner path name => editParent project owner path fun vec idx =>
    vec.modify idx (·.setName name)
  | .setComment owner path comment => editParent project owner path fun vec idx =>
    vec.modify idx (·.setComment comment)
  | .setPtrTarget owner path target => editParent project owner path fun vec idx =>
    vec.modify idx fun old => .pointer old.name old.comment target
  | .setInstance owner path target => editParent project owner path fun vec idx =>
    vec.modify idx fun old => .classInstance old.name old.comment target

/-! ## The edits of scripts -/

/-- `walk_node_mut`, and what is done to the node with its reply. -/
def walkNodeMut (f : Node → Bool × Node) : List Node → List ℕ → Option (Bool × List Node)
  | _, [] => none
  | children, first :: rest => do
    let node ← children[first]?
    if rest.isEmpty then some ((f node).1, children.set first (f node).2)
    else
      let kids ← node.childrenMut
      let (reply, kids) ← walkNodeMut f kids rest
      some (reply, children.set first (node.setChildren kids))

/-- `remove_node`: none where nothing is removed. -/
def removeNode : List Node → List ℕ → Option (List Node)
  | _, [] => none
  | children, [idx] => if idx < children.length then some (children.eraseIdx idx) else none
  | children, idx :: rest => do
    let node ← children[idx]?
    let kids ← node.childrenMut
    let kids ← removeNode kids rest
    some (children.set idx (node.setChildren kids))

/-- Only a pointer has a target to be set. -/
def setPointerTarget (target : Uuid) : Node → Bool × Node
  | .pointer name comment _ => (true, .pointer name comment (some target))
  | n => (false, n)

section Scripts

theorem hexFill_eq (fresh : Uuid) (count : ℕ) : hexFill count = Ui.hexFill fresh count := by
  have hstep {tag : String} {size gap : ℕ} {n : Node} {rest : List (String × ℕ)}
      (hn : construct fresh tag = some n) :
      fillWith (construct fresh) gap ((tag, size) :: rest) =
        List.replicate (gap / size) n ++ fillWith (construct fresh) (gap % size) rest := by
    rw [fillWith]
    split
    · next hlt => rw [Nat.div_eq_of_lt hlt, Nat.mod_eq_of_lt hlt, List.replicate_zero, List.nil_append]
    · rw [hn]
  rw [Ui.hexFill, hexTags, hstep rfl, hstep rfl, hstep rfl, hstep rfl, fillWith, Nat.div_one,
    List.append_nil]
  rfl

/-- Replacing a node where a path ends is an edit of the list it stands in. -/
theorem editParentVec_modify (f : Node → Node) (path : List ℕ) (vec : List Node) :
    editParentVec (fun vec idx => vec.modify idx f) path vec = editAt f path vec := by
  fun_induction editAt f path vec with
  | case1 => rfl
  | case2 last vec =>
    rw [editParentVec]
    by_cases hlast : last < vec.length
    · rw [if_pos hlast, List.getElem?_eq_getElem hlast, List.modify_eq_set_getElem?,
        List.getElem?_eq_getElem hlast]
      rfl
    · rw [if_neg hlast, List.getElem?_eq_none (Nat.le_of_not_lt hlast)]
      rfl
  | case3 idx rest vec hrest ih =>
    rw [editParentVec]
    · simp only [ih]
    · exact hrest

/-- A script finds the node that the class view finds. -/
theorem walkNodeMut_eq (f : Node → Bool × Node) (path : List ℕ) (children : List Node) :
    (walkNodeMut f children path).map Prod.snd = editAt (fun n => (f n).2) path children := by
  fun_induction editAt (fun n => (f n).2) path children with
  | case1 => rfl
  | case2 last vec => cases h : vec[last]? <;> simp [walkNodeMut, h]
  | case3 idx rest vec hrest ih =>
    cases rest with
    | nil => exact absurd rfl hrest
    | cons next rest =>
      rw [walkNodeMut]
      simp only [List.isEmpty_cons, Bool.false_eq_true, if_false, ← ih]
      cases vec[idx]? with
      | none => rfl
      | some node =>
        cases hkids : node.childrenMut with
        | none => simp only [Option.bind_eq_bind, Option.bind_some, hkids, Option.bind_none,
          Option.map_none]
        | some kids =>
          simp only [Option.bind_eq_bind, Option.bind_some, hkids]
          cases walkNodeMut f kids (next :: rest) <;> rfl

theorem removeNode_eq (path : List ℕ) (children : List Node) :
    removeNode children path = editParentVec (fun vec idx => vec.eraseIdx idx) path children := by
  fun_induction removeNode children path with
  | case1 => rfl
  | case2 children idx h => rw [editParentVec, if_pos h]
  | case3 children idx h => rw [editParentVec, if_neg h]
  | case4 children idx rest hrest ih =>
    rw [editParentVec]
    · simp only [ih]
    · exact hrest

end Scripts

/-! ## What an edit refers to -/

/-- Some node of the list refers to the class. -/
def ListRefers (u : Uuid) (ns : List Node) : Prop := ∃ n ∈ ns, n.References u

section References

variable {u : Uuid}

theorem references_iff (n : Node) :
    n.References u ↔ n.target = some u ∨ ListRefers u n.children := by
  constructor
  · intro h
    cases h with
    | here h => exact .inl h
    | inVTable hmem h | inClass hmem h => exact .inr ⟨_, hmem, h⟩
  · rintro (h | ⟨child, hmem, h⟩)
    · exact .here h
    · cases n with
      | vTable => exact .inVTable hmem h
      | cls => exact .inClass hmem h
      | _ => cases hmem

theorem references_congr {n m : Node} (htarget : m.target = n.target)
    (hchildren : m.children = n.children) : m.References u ↔ n.References u := by
  rw [references_iff, references_iff, htarget, hchildren]

@[simp] theorem references_setName (n : Node) (name : String) :
    (n.setName name).References u ↔ n.References u :=
  references_congr (by cases n <;> rfl) (by cases n <;> rfl)

@[simp] theorem references_setComment (n : Node) (comment : String) :
    (n.setComment comment).References u ↔ n.References u :=
  references_congr (by cases n <;> rfl) (by cases n <;> rfl)

/-- The node that a call adds, under its name and comment. -/
theorem references_named {node : Node} {u : Uuid} (name comment : Option String) :
    (let node := name.elim node fun name => node.setName name
     comment.elim node fun comment => node.setComment comment).References u ↔ node.References u := by
  cases name <;> cases comment <;> simp

@[simp] theorem references_pointer {name comment : String} {target : Option Uuid} :
    (Node.pointer name comment target).References u ↔ target = some u := by
  rw [references_iff]
  exact or_iff_left fun ⟨_, hmem, _⟩ => absurd hmem List.not_mem_nil

@[simp] theorem references_classInstance {name comment : String} {target : Uuid} :
    (Node.classInstance name comment target).References u ↔ target = u := by
  rw [references_iff]
  refine (or_iff_left fun ⟨_, hmem, _⟩ => absurd hmem List.not_mem_nil).trans ?_
  exact Option.some_inj

@[simp] theorem not_references_simple {kind : SimpleKind} {name comment : String} :
    ¬ (Node.simple kind name comment).References u := by
  rw [references_iff]
  rintro (h | ⟨_, hmem, _⟩)
  · cases h
  · cases hmem

/-- A setting of the target refers to it, and keeps the rest as it was. -/
theorem references_setPointerTarget {target : Uuid} {n : Node}
    (h : (setPointerTarget target n).2.References u) : u = target ∨ n.References u := by
  cases n with
  | pointer name comment old =>
    rw [setPointerTarget, references_pointer, Option.some_inj] at h
    exact .inl h.symm
  | _ => exact .inr h

/-- Of the nodes that are constructed, one kind refers to a class: an embedding of none. -/
theorem construct_references {fresh : Uuid} {tag : String} {n : Node}
    (h : construct fresh tag = some n) (hu : n.References u) :
    tag = "ClassInstance" ∧ u = Uuid.nil := by
  have hall : ∀ e ∈ constructors fresh, e.2.children = [] ∧
      (e.2.target = none ∨ e.1 = "ClassInstance" ∧ e.2.target = some Uuid.nil) := by
    simp [constructors, Node.children, Node.childrenMut, Node.target]
  obtain ⟨before, later, heq, -⟩ := List.lookup_eq_some_iff.mp h
  obtain ⟨hchildren, htarget⟩ := hall (tag, n) (heq ▸ List.mem_append_right before List.mem_cons_self)
  dsimp only at hchildren htarget
  rw [references_iff, hchildren] at hu
  obtain hu | ⟨_, hmem, _⟩ := hu
  · rw [hu] at htarget
    obtain hnone | ⟨rfl, hnil⟩ := htarget
    · cases hnone
    · exact ⟨rfl, Option.some.inj hnil⟩
  · cases hmem

theorem construct_menu_references {fresh : Uuid} {tag : MenuTag} {n : Node}
    (h : construct fresh tag.val = some n) : ¬ n.References u := fun hu =>
  absurd ((construct_references h hu).1 ▸ tag.property) (by decide)

theorem not_listRefers_nil : ¬ ListRefers u [] := fun ⟨_, hmem, _⟩ => absurd hmem List.not_mem_nil

theorem listRefers_append {ns ms : List Node} :
    ListRefers u (ns ++ ms) ↔ ListRefers u ns ∨ ListRefers u ms := by
  simp only [ListRefers, List.mem_append, or_and_right, exists_or]

theorem ListRefers.of_subset {ns ms : List Node} (h : ListRefers u ns) (hsub : ns ⊆ ms) :
    ListRefers u ms :=
  let ⟨n, hmem, hu⟩ := h
  ⟨n, hsub hmem, hu⟩

theorem not_listRefers_hexFill (count : ℕ) : ¬ ListRefers u (hexFill count) := by
  rintro ⟨n, hmem, hu⟩
  rw [hexFill_eq Uuid.nil] at hmem
  rcases isHex_hexFill hmem with rfl | rfl | rfl | rfl
  all_goals exact not_references_simple hu

theorem mem_insertFrom {i : ℕ} {fill vec : List Node} {n : Node}
    (h : n ∈ insertFrom i fill vec) : n ∈ fill ∨ n ∈ vec := by
  induction fill generalizing i vec with
  | nil => exact .inr h
  | cons node fill ih =>
    rcases ih h with h | h
    · exact .inl (List.mem_cons_of_mem node h)
    · by_cases hi : i ≤ vec.length
      · rcases (List.mem_insertIdx hi).mp h with rfl | h
        · exact .inl List.mem_cons_self
        · exact .inr h
      · rw [List.insertIdx_of_length_lt (Nat.lt_of_not_le hi)] at h
        exact .inr h

theorem listRefers_insertFrom {i count : ℕ} {vec : List Node}
    (h : ListRefers u (insertFrom i (hexFill count) vec)) : ListRefers u vec := by
  obtain ⟨n, hmem, hu⟩ := h
  rcases mem_insertFrom hmem with hfill | hvec
  · exact absurd ⟨n, hfill, hu⟩ (not_listRefers_hexFill count)
  · exact ⟨n, hvec, hu⟩

theorem listRefers_modify {f : Node → Node} {idx : ℕ} {vec : List Node}
    (h : ListRefers u (vec.modify idx f)) : ListRefers u vec ∨ ∃ n ∈ vec, (f n).References u := by
  obtain ⟨n, hmem, hu⟩ := h
  obtain ⟨i, hi⟩ := List.mem_iff_getElem?.mp hmem
  rw [List.getElem?_modify] at hi
  obtain ⟨old, hold, rfl⟩ := Option.map_eq_some_iff.mp hi
  have hvec := List.mem_of_getElem? hold
  split_ifs at hu
  · exact .inr ⟨old, hvec, hu⟩
  · exact .inl ⟨old, hvec, hu⟩

/-- What an edit of one list refers to, the whole tree does. -/
theorem editParentVec_refers {f : List Node → ℕ → List Node} {Q : Prop}
    (hf : ∀ vec idx, ListRefers u (f vec idx) → ListRefers u vec ∨ Q) {path : List ℕ}
    {vec vec' : List Node} (h : editParentVec f path vec = some vec') (hu : ListRefers u vec') :
    ListRefers u vec ∨ Q := by
  fun_induction editParentVec f path vec generalizing vec' with
  | case1 => cases h
  | case2 last vec hlt =>
    cases h
    exact hf vec last hu
  | case3 => cases h
  | case4 idx rest vec hrest ih =>
    obtain ⟨node, hnode, h⟩ := Option.bind_eq_some_iff.mp h
    obtain ⟨inner, hinner, h⟩ := Option.bind_eq_some_iff.mp h
    obtain ⟨inner', hedit, h⟩ := Option.bind_eq_some_iff.mp h
    cases h
    obtain ⟨n, hmem, hu⟩ := hu
    rcases List.mem_or_eq_of_mem_set hmem with hmem | rfl
    · exact .inl ⟨n, hmem, hu⟩
    · have hkept : (node.setChildren inner').target = none := by
        cases node with
        | vTable | cls => rfl
        | _ => cases hinner
      have hold : ListRefers u inner → ListRefers u vec := fun h =>
        ⟨node, List.mem_of_getElem? hnode, (references_iff node).mpr (.inr (by
          rw [Node.children, hinner]
          exact h))⟩
      rw [references_iff, hkept, Node.children, Node.childrenMut_setChildren hinner] at hu
      obtain hu | hu := hu
      · cases hu
      · exact (ih inner hedit hu).imp_left hold

end References

/-! ## The project -/

/-- Some class of the project refers to the class. -/
def Refers (p : Project) (u : Uuid) : Prop :=
  ∃ v c, p.getClass v = some c ∧ ListRefers u c.children

/-- A reference to a class that is not there. -/
def Dangling (p : Project) (u : Uuid) : Prop := Refers p u ∧ p.getClass u = none

/-- Every class stands under its own identifier. -/
def Keyed (p : Project) : Prop := ∀ u c, p.getClass u = some c → c.uuid = u

section Projects

variable {p : Project} {u owner : Uuid} {f : ClassNode → ClassNode}

theorem getClass_updateClass (v : Uuid) :
    (p.updateClass owner f).getClass v = if v = owner then (p.getClass v).map f else p.getClass v :=
  rfl

@[simp] theorem isSome_updateClass (v : Uuid) :
    ((p.updateClass owner f).getClass v).isSome = (p.getClass v).isSome := by
  rw [getClass_updateClass]
  split
  · exact Option.isSome_map
  · rfl

theorem Keyed.updateClass (h : Keyed p)
    (hf : ∀ c, p.getClass owner = some c → (f c).uuid = c.uuid) :
    Keyed (p.updateClass owner f) := by
  intro v c hc
  rw [getClass_updateClass] at hc
  split at hc
  · next hv =>
    subst hv
    obtain ⟨d, hd, rfl⟩ := Option.map_eq_some_iff.mp hc
    rw [hf d hd]
    exact h v d hd
  · exact h v c hc

theorem Keyed.addClass (h : Keyed p) (c : ClassNode) : Keyed (p.addClass c) := by
  intro v d hd
  rw [Project.getClass_addClass] at hd
  split at hd
  · next hv =>
    cases hd
    exact hv.symm
  · exact h v d hd

theorem refers_updateClass {Q : Prop}
    (hf : ∀ c, p.getClass owner = some c → ListRefers u (f c).children →
      ListRefers u c.children ∨ Q)
    (h : Refers (p.updateClass owner f) u) : Refers p u ∨ Q := by
  obtain ⟨v, c, hc, hu⟩ := h
  rw [getClass_updateClass] at hc
  split at hc
  · next hv =>
    subst hv
    obtain ⟨d, hd, rfl⟩ := Option.map_eq_some_iff.mp hc
    exact (hf d hd hu).imp_left fun h => ⟨v, d, hd, h⟩
  · exact .inl ⟨v, c, hc, hu⟩

theorem refers_addClass {c : ClassNode} (h : Refers (p.addClass c) u) :
    Refers p u ∨ ListRefers u c.children := by
  obtain ⟨v, d, hd, hu⟩ := h
  rw [Project.getClass_addClass] at hd
  split at hd
  · cases hd
    exact .inr hu
  · exact .inl ⟨v, d, hd, hu⟩

/-- Classes are changed or added; what they refer to was referred to before, or is named. -/
structure Edits (p p' : Project) (Q : Uuid → Prop) : Prop where
  classes : ∀ v, (p.getClass v).isSome → (p'.getClass v).isSome
  keyed : Keyed p → Keyed p'
  refers : ∀ u, Refers p' u → Refers p u ∨ Q u

theorem Edits.refl (p : Project) (Q : Uuid → Prop) : Edits p p Q :=
  ⟨fun _ => id, id, fun _ => .inl⟩

theorem Edits.trans {p' p'' : Project} {Q Q' : Uuid → Prop} (h : Edits p p' Q)
    (h' : Edits p' p'' Q') : Edits p p'' fun u => Q u ∨ Q' u where
  classes v hv := h'.classes v (h.classes v hv)
  keyed hp := h'.keyed (h.keyed hp)
  refers u hu := (h'.refers u hu).elim (fun hu => (h.refers u hu).imp_right .inl) fun hu =>
    .inr (.inr hu)

theorem Edits.mono {p' : Project} {Q Q' : Uuid → Prop} (h : Edits p p' Q) (hQ : ∀ u, Q u → Q' u) :
    Edits p p' Q' := ⟨h.classes, h.keyed, fun u hu => (h.refers u hu).imp_right (hQ u)⟩

theorem edits_addClass {c : ClassNode} (hc : ∀ u, ¬ ListRefers u c.children) (Q : Uuid → Prop) :
    Edits p (p.addClass c) Q where
  classes v hv := by
    rw [Project.getClass_addClass]
    split
    · rfl
    · exact hv
  keyed h := h.addClass c
  refers u hu := (refers_addClass hu).imp_right fun h => absurd h (hc u)

theorem edits_updateClass {Q : Uuid → Prop}
    (huuid : ∀ c, p.getClass owner = some c → (f c).uuid = c.uuid)
    (hf : ∀ c u, p.getClass owner = some c → ListRefers u (f c).children →
      ListRefers u c.children ∨ Q u) :
    Edits p (p.updateClass owner f) Q where
  classes v hv := (isSome_updateClass v).trans hv
  keyed h := h.updateClass huuid
  refers u := refers_updateClass fun c hc => hf c u hc

theorem edits_editParent {g : List Node → ℕ → List Node} {Q : Uuid → Prop} (path : List ℕ)
    (hg : ∀ vec idx u, ListRefers u (g vec idx) → ListRefers u vec ∨ Q u) :
    Edits p (editParent p owner path g) Q := by
  refine edits_updateClass (fun _ _ => rfl) fun c u _ hu => ?_
  dsimp only at hu
  cases hedit : editParentVec g path c.children with
  | none => exact .inl (by rwa [hedit, Option.getD_none] at hu)
  | some vec' =>
    rw [hedit, Option.getD_some] at hu
    exact editParentVec_refers (fun vec idx => hg vec idx u) hedit hu

/-- An edit that puts another node in a field's place. -/
theorem edits_modify {g : Node → Node} {Q : Uuid → Prop} (path : List ℕ)
    (hg : ∀ n u, (g n).References u → n.References u ∨ Q u) :
    Edits p (editParent p owner path fun vec idx => vec.modify idx g) Q := by
  refine edits_editParent path fun vec idx u hu => ?_
  rcases listRefers_modify hu with h | ⟨n, hmem, h⟩
  · exact .inl h
  · exact (hg n u h).imp_left fun h => ⟨n, hmem, h⟩

/-- An edit refers to nothing new, its own target apart. -/
theorem edits_applyNodeEdit (fresh : Uuid) (op : NodeEditOp) :
    Edits p (applyNodeEdit fresh p op) fun u => op.target = some u := by
  cases op with
  | changeType owner path newTag =>
    refine edits_editParent path fun vec idx u hu => .inl ?_
    cases hnew : construct fresh newTag.val with
    | none => rwa [hnew] at hu
    | some new =>
      rw [hnew] at hu
      rcases listRefers_modify hu with h | ⟨n, -, h⟩
      · exact h
      · rw [references_setComment, references_setName] at h
        exact absurd h (construct_menu_references hnew)
  | delete owner path =>
    exact edits_editParent path fun vec idx u hu => .inl (hu.of_subset (List.eraseIdx_subset))
  | deleteRange owner path count =>
    refine edits_editParent path fun vec idx u hu => .inl ?_
    rcases listRefers_append.mp hu with h | h
    · exact h.of_subset (List.take_subset idx vec)
    · exact h.of_subset (List.drop_subset _ vec)
  | appendBytes owner count =>
    refine edits_updateClass (fun _ _ => rfl) fun c u _ hu => .inl ?_
    rcases listRefers_append.mp hu with h | h
    · exact h
    · exact absurd h (not_listRefers_hexFill count)
  | addBytes owner path count | insertBytes owner path count =>
    exact edits_editParent path fun vec idx u hu => .inl (listRefers_insertFrom hu)
  | setName owner path name =>
    exact edits_modify path fun n u h => .inl ((references_setName n name).mp h)
  | setComment owner path comment =>
    exact edits_modify path fun n u h => .inl ((references_setComment n comment).mp h)
  | setPtrTarget owner path target =>
    exact edits_modify path fun n u h => .inr (references_pointer.mp h)
  | setInstance owner path target =>
    exact edits_modify path fun n u h => .inr (congrArg some (references_classInstance.mp h))

/-- The queue is applied in turn. -/
theorem edits_foldl (fresh : Uuid) (ops : List NodeEditOp) :
    Edits p (ops.foldl (applyNodeEdit fresh) p) fun u => ∃ op ∈ ops, op.target = some u := by
  induction ops generalizing p with
  | nil => exact .refl p _
  | cons op ops ih =>
    refine ((edits_applyNodeEdit fresh op).trans ih).mono fun u => ?_
    rintro (h | ⟨op', hmem, h⟩)
    · exact ⟨op, List.mem_cons_self, h⟩
    · exact ⟨op', List.mem_cons_of_mem op hmem, h⟩

/-- What the class picker's edits do to a project. -/
theorem applyNodeEdit_picker (fresh : Uuid) (p : Project) (path : List ℕ) :
    (∀ target, applyNodeEdit fresh p (.setPtrTarget owner path target) =
      Ui.applyNodeEdit p (.setPtrTarget owner path target)) ∧
    ∀ target, applyNodeEdit fresh p (.setInstance owner path target) =
      Ui.applyNodeEdit p (.setInstance owner path target) := by
  constructor
  · intro target
    simp only [applyNodeEdit, editParent, editParentVec_modify]
    rfl
  · intro target
    simp only [applyNodeEdit, editParent, editParentVec_modify]
    rfl

/-- The children of a class are replaced. -/
theorem edits_editChildren {p : Project} {uuid : Uuid} {children : List Node} {Q : Uuid → Prop}
    (h : ∀ c, p.getClass uuid = some c → ∀ u, ListRefers u children →
      ListRefers u c.children ∨ Q u) : Edits p (editChildren p uuid children) Q :=
  edits_updateClass (fun _ _ => rfl) fun c u hc hu => h c hc u hu

/-- What an edit of a node refers to, the edited list does. -/
theorem editAt_refers {f : Node → Node} {Q : Uuid → Prop}
    (hf : ∀ n u, (f n).References u → n.References u ∨ Q u) {path : List ℕ} {vec vec' : List Node}
    (h : editAt f path vec = some vec') {u : Uuid} (hu : ListRefers u vec') :
    ListRefers u vec ∨ Q u := by
  rw [← editParentVec_modify] at h
  refine editParentVec_refers (fun vec idx hu => ?_) h hu
  rcases listRefers_modify hu with hu | ⟨n, hmem, hu⟩
  · exact .inl hu
  · exact (hf n u hu).imp_left fun hu => ⟨n, hmem, hu⟩

end Projects

end Nemclass.Ui.ClassEdits
