import Nemclass.Lib.Expansion
import Nemclass.Model.Project

/-! The size of a class once its embedded classes are resolved. The recursion
follows embeds through a class graph that may have cycles; the visited set is
shared by all calls and holds the classes being sized. -/
namespace Nemclass.Codegen
open Usize Model

/-- A size and the visited set that the call leaves; nothing on the stack is forgotten. -/
structure Sized (before : Finset Uuid) where
  size : ℕ
  visited : Finset Uuid
  grows : before ⊆ visited

namespace Sized
variable {before : Finset Uuid}

def keep (size : ℕ) : Sized before := ⟨size, before, Finset.Subset.refl before⟩

def andThen (r : Sized before) (r' : Sized r.visited) : Sized before :=
  ⟨r'.size, r'.visited, r.grows.trans r'.grows⟩

/-- Takes an identifier that was not there before off the stack again. -/
def pop {uuid : Uuid} (h : uuid ∉ before) (r : Sized (insert uuid before)) : Sized before :=
  ⟨r.size, r.visited.erase uuid, by
    rw [Finset.subset_erase]
    exact ⟨(Finset.subset_insert uuid before).trans r.grows, h⟩⟩

theorem pop_keep {uuid : Uuid} (h : uuid ∉ before) (size : ℕ) :
    pop h (.keep size) = .keep size := by
  simp only [pop, keep, Finset.erase_insert h]

end Sized

section Resolve
variable (project : Project)

/-- The number of classes not being sized. -/
def unvisited (visited : Finset Uuid) : ℕ := (project.classOrder.toFinset \ visited).card

theorem unvisited_le {visited visited' : Finset Uuid} (h : visited ⊆ visited') :
    unvisited project visited' ≤ unvisited project visited :=
  Finset.card_le_card (Finset.sdiff_subset_sdiff (Finset.Subset.refl _) h)

theorem unvisited_insert_lt {visited : Finset Uuid} {uuid : Uuid} {target : ClassNode}
    (hget : project.getClass uuid = some target) (hseen : uuid ∉ visited) :
    unvisited project (insert uuid visited) < unvisited project visited := by
  apply Finset.card_lt_card
  rw [Finset.sdiff_insert]
  apply Finset.erase_ssubset
  rw [Finset.mem_sdiff, List.mem_toFinset]
  exact ⟨Project.mem_classOrder hget, hseen⟩

variable [UuidText]

/-- The `class_uuid` attribute, when it is there and reads as an identifier. -/
def classUuidAttr (d : NodeDef) : Option Uuid := do
  let value ← d.attr "class_uuid"
  let s ← value.asStr
  Uuid.parse s

mutual

/-- What one node contributes. -/
def resolvedNodeSize (visited : Finset Uuid) (node : Node) : Sized visited :=
  let d := node.toNodeDef
  if d.typeTag = "ClassInstance" then
    match classUuidAttr d with
    | some uuid =>
      if hseen : uuid ∈ visited then .keep 0
      else
        match _hget : project.getClass uuid with
        | some target => .pop hseen (addResolvedSizes (insert uuid visited) 0 target.children)
        | none => .keep 0
    | none => .keep 0
  else .keep node.memorySize
termination_by (unvisited project visited, 0)
decreasing_by exact .left _ _ (unvisited_insert_lt project _hget hseen)

/-- The saturating fold over a child list. -/
def addResolvedSizes (visited : Finset Uuid) (acc : ℕ) : List Node → Sized visited
  | [] => .keep acc
  | n :: ns =>
    let r := resolvedNodeSize visited n
    r.andThen (addResolvedSizes r.visited (saturatingAdd acc r.size) ns)
termination_by ns => (unvisited project visited, ns.length + 1)
decreasing_by
  · exact .right _ (Nat.succ_pos _)
  · rcases Nat.lt_or_eq_of_le (unvisited_le project r.grows) with hlt | heq
    · exact .left _ _ hlt
    · rw [heq]
      exact .right _ (Nat.lt_succ_self _)

end

def resolvedClassSize (visited : Finset Uuid) (c : ClassNode) : Sized visited :=
  addResolvedSizes project visited 0 c.children

end Resolve

section Node

/-- The class that a node embeds. -/
def embeds : Node → Option Uuid
  | .classInstance _ _ classUuid => some classUuid
  | _ => none

/-- A node that embeds no class brings no fields. -/
theorem embeds_bind_plain {project : Project} {n : Node} (h : embeds n = none) :
    (embeds n).bind project.getClass = none := by
  rw [h, Option.bind_none]

theorem embeds_bind_missing {project : Project} {n : Node} {uuid : Uuid} (h : embeds n = some uuid)
    (hget : project.getClass uuid = none) : (embeds n).bind project.getClass = none := by
  rw [h, Option.bind_some, hget]

theorem simple_typeTag_ne (kind : SimpleKind) : kind.typeTag ≠ "ClassInstance" := by
  cases kind <;> simp [SimpleKind.typeTag]

theorem vectorTag_ne (size : VectorSize) (width : FloatWidth) :
    vectorTag size.components width ≠ "ClassInstance" := by
  cases size <;> cases width <;> simp [vectorTag, vectorShapes, VectorSize.components]

theorem matrixTag_ne (size : MatrixSize) (width : FloatWidth) :
    matrixTag size.rows size.cols width ≠ "ClassInstance" := by
  cases size <;> cases width <;> simp [matrixTag, matrixShapes, MatrixSize.rows, MatrixSize.cols]

variable [UuidText] (project : Project) (visited : Finset Uuid)

theorem classUuidAttr_classInstance (name comment : String) (uuid : Uuid) :
    classUuidAttr (Node.classInstance name comment uuid).toNodeDef = some uuid := by
  simp [classUuidAttr, Node.toNodeDef, NodeDef.attr, Node.attrs, TomlValue.asStr]

/-- A node that embeds no class contributes its own size. -/
theorem resolvedNodeSize_plain {n : Node} (h : embeds n = none) :
    resolvedNodeSize project visited n = .keep n.memorySize := by
  rw [resolvedNodeSize]
  cases n with
  | simple kind => exact if_neg (simple_typeTag_ne kind)
  | vector _ _ size width => exact if_neg (vectorTag_ne size width)
  | matrix _ _ size width => exact if_neg (matrixTag_ne size width)
  | classInstance => simp [embeds] at h
  | malformedInstance name comment =>
    have hattr : classUuidAttr (Node.malformedInstance name comment).toNodeDef = none := rfl
    simp only [hattr, Node.memorySize, ite_self]
  | pointer | array | utf8Text | utf16Text | vTable | function | cls =>
    exact if_neg (by simp [Node.toNodeDef, Node.typeTag])

omit [UuidText] in
/-- An embedded class has no size of its own. -/
theorem memorySize_embeds {n : Node} {uuid : Uuid} (h : embeds n = some uuid) : n.memorySize = 0 := by
  cases n with
  | classInstance => rw [Node.memorySize]
  | _ => cases h

theorem embeds_eq_some {n : Node} {uuid : Uuid} (h : embeds n = some uuid) :
    n.toNodeDef.typeTag = "ClassInstance" ∧ classUuidAttr n.toNodeDef = some uuid ∧
      n.memorySize = 0 := by
  cases n with
  | classInstance name comment classUuid =>
    rw [embeds, Option.some.injEq] at h
    subst h
    exact ⟨rfl, classUuidAttr_classInstance name comment classUuid, by rw [Node.memorySize]⟩
  | _ => simp [embeds] at h

section Embed
variable {project visited} {n : Node} {uuid : Uuid} (h : embeds n = some uuid)
include h

theorem resolvedNodeSize_visited (hseen : uuid ∈ visited) :
    resolvedNodeSize project visited n = .keep 0 := by
  obtain ⟨htag, hattr, _⟩ := embeds_eq_some h
  rw [resolvedNodeSize]
  simp only [htag, hattr, if_true, dif_pos hseen]

theorem resolvedNodeSize_missing (hseen : uuid ∉ visited) (hget : project.getClass uuid = none) :
    resolvedNodeSize project visited n = .keep 0 := by
  obtain ⟨htag, hattr, _⟩ := embeds_eq_some h
  rw [resolvedNodeSize]
  simp only [htag, hattr, if_true, dif_neg hseen]
  split
  · simp_all
  · rfl

theorem resolvedNodeSize_target (hseen : uuid ∉ visited) {target : ClassNode}
    (hget : project.getClass uuid = some target) :
    resolvedNodeSize project visited n =
      .pop hseen (addResolvedSizes project (insert uuid visited) 0 target.children) := by
  obtain ⟨htag, hattr, _⟩ := embeds_eq_some h
  rw [resolvedNodeSize]
  simp only [htag, hattr, if_true, dif_neg hseen]
  split
  · rename_i target' hget'
    rw [hget, Option.some.injEq] at hget'
    rw [hget']
  · simp_all

end Embed

end Node

section Expansion
open Expand
variable (project : Project)

/-- The classes as items, their embeds as references. -/
def store : Store Uuid ClassNode Node where
  get := project.getClass
  keys := project.classOrder.toFinset
  mem_keys _ _ h := List.mem_toFinset.mpr (Project.mem_classOrder h)
  parts := ClassNode.children
  ref := embeds

/-- The exact number of bytes in the expansion of a child list. -/
def exactSize (visited : Finset Uuid) (ns : List Node) : ℕ :=
  (((store project).expand visited ns).leaves.map Node.memorySize).sum

/-- The exact size of each child, embeds expanded. -/
def exactSizes (ns : List Node) : List ℕ := ((store project).expand ∅ ns).weights Node.memorySize

theorem exactSizes_sum (ns : List Node) : (exactSizes project ns).sum = exactSize project ∅ ns :=
  Expansion.weights_sum Node.memorySize _

variable [UuidText]

theorem addResolvedSizes_cons {project : Project} {visited : Finset Uuid} {n : Node} {size : ℕ}
    (h : resolvedNodeSize project visited n = .keep size) (acc : ℕ) (ns : List Node) :
    addResolvedSizes project visited acc (n :: ns) =
      addResolvedSizes project visited (saturatingAdd acc size) ns := by
  rw [addResolvedSizes, h]
  rfl

/-- Sizing leaves the visited set as it was and clamps the exact size. -/
theorem addResolvedSizes_eq (visited : Finset Uuid) (ns : List Node) {acc : ℕ}
    (hacc : acc ≤ usizeMax) : addResolvedSizes project visited acc ns =
      .keep (min (acc + exactSize project visited ns) usizeMax) := by
  unfold exactSize
  fun_induction (store project).expand visited ns generalizing acc with
  | case1 visited =>
    rw [addResolvedSizes, Expansion.leaves, List.map_nil, List.sum_nil, Nat.add_zero,
      Nat.min_eq_left hacc]
  | case2 visited n ns href ih =>
    rw [addResolvedSizes_cons (resolvedNodeSize_plain project visited href),
      ih (saturatingAdd_le _ _), saturatingAdd_add, Expansion.leaves, List.map_cons, List.sum_cons]
  | case3 visited n ns uuid href hseen ih =>
    rw [addResolvedSizes_cons (resolvedNodeSize_visited href hseen), ih (saturatingAdd_le _ _),
      saturatingAdd_add, Expansion.leaves, Nat.zero_add]
  | case4 visited n ns uuid href hseen hget ih =>
    have hsize := (embeds_eq_some href).2.2
    rw [addResolvedSizes_cons (resolvedNodeSize_missing href hseen hget), ih (saturatingAdd_le _ _),
      saturatingAdd_add, Expansion.leaves, List.map_cons, List.sum_cons, hsize]
  | case5 visited n ns uuid href hseen target hget ihparts ih =>
    have hparts : addResolvedSizes project (insert uuid visited) 0 target.children = _ :=
      ihparts (Nat.zero_le _)
    have htarget := resolvedNodeSize_target href hseen hget
    rw [hparts, Sized.pop_keep, Nat.zero_add] at htarget
    rw [addResolvedSizes_cons htarget, ih (saturatingAdd_le _ _), Expansion.leaves, List.map_append,
      List.sum_append, saturatingAdd_min, saturatingAdd_add]

theorem resolvedNodeSize_eq (visited : Finset Uuid) (n : Node) :
    resolvedNodeSize project visited n = .keep (min (exactSize project visited [n]) usizeMax) := by
  have hsize := n.memorySize_le
  unfold exactSize
  cases href : embeds n with
  | none =>
    rw [resolvedNodeSize_plain project visited href, Store.expand_plain [] href, Store.expand_nil]
    simp [Expansion.leaves, hsize]
  | some uuid =>
    by_cases hseen : uuid ∈ visited
    · rw [resolvedNodeSize_visited href hseen, Store.expand_cut [] href hseen, Store.expand_nil]
      simp [Expansion.leaves]
    · cases hget : project.getClass uuid with
      | none =>
        rw [resolvedNodeSize_missing href hseen hget, Store.expand_unresolved [] href hseen hget,
          Store.expand_nil]
        simp [Expansion.leaves, (embeds_eq_some href).2.2]
      | some target =>
        rw [resolvedNodeSize_target href hseen hget, addResolvedSizes_eq _ _ _ (Nat.zero_le _),
          Sized.pop_keep, Store.expand_item [] href hseen hget, Store.expand_nil]
        simp [Expansion.leaves, exactSize, store]

theorem resolvedClassSize_eq (visited : Finset Uuid) (c : ClassNode) :
    resolvedClassSize project visited c =
      .keep (min (exactSize project visited c.children) usizeMax) := by
  rw [resolvedClassSize, addResolvedSizes_eq project visited c.children (Nat.zero_le _),
    Nat.zero_add]

theorem resolvedNodeSize_visited_eq (visited : Finset Uuid) (n : Node) :
    (resolvedNodeSize project visited n).visited = visited := by rw [resolvedNodeSize_eq]; rfl

theorem resolvedClassSize_visited_eq (visited : Finset Uuid) (c : ClassNode) :
    (resolvedClassSize project visited c).visited = visited := by rw [resolvedClassSize_eq]; rfl

/-- The size a child contributes to its class. -/
def contributedSize (n : Node) : ℕ := (resolvedNodeSize project ∅ n).size

theorem contributedSize_plain {n : Node} (h : embeds n = none) :
    contributedSize project n = n.memorySize := by
  rw [contributedSize, resolvedNodeSize_plain project ∅ h]
  rfl

theorem contributedSize_eq (n : Node) :
    contributedSize project n = min (exactSize project ∅ [n]) usizeMax := by
  rw [contributedSize, resolvedNodeSize_eq]
  rfl

theorem contributedSizes_eq (ns : List Node) :
    ns.map (contributedSize project) = (exactSizes project ns).map (min · usizeMax) := by
  induction ns with
  | nil => rw [exactSizes, Store.expand_nil]; rfl
  | cons n ns ih =>
    rw [exactSizes, Store.weights_cons, List.map_cons, List.map_cons, contributedSize_eq, ih]
    rfl

omit [UuidText] in
/-- What embeds add to the sizes that the fields have on their own. -/
theorem sum_embeds {w : Node → ℕ} (h : ∀ n, embeds n = none → w n = n.memorySize)
    (ns : List Node) : (ns.map w).sum = (ns.map Node.memorySize).sum +
      ((ns.filter fun n => (embeds n).isSome).map w).sum := by
  induction ns with
  | nil => rfl
  | cons n ns ih =>
    rw [List.map_cons, List.sum_cons, List.map_cons, List.sum_cons, ih]
    cases href : embeds n with
    | none =>
      rw [List.filter_cons_of_neg (by simp [href]), h n href]
      omega
    | some uuid =>
      rw [List.filter_cons_of_pos (by simp [href]), List.map_cons, List.sum_cons,
        memorySize_embeds href]
      omega

theorem addResolvedSizes_fold (acc : ℕ) (ns : List Node) :
    (addResolvedSizes project ∅ acc ns).size =
      saturatingFold acc (ns.map (contributedSize project)) := by
  induction ns generalizing acc with
  | nil => rw [addResolvedSizes]; rfl
  | cons n ns ih =>
    rw [addResolvedSizes_cons (resolvedNodeSize_eq project ∅ n), ih, List.map_cons,
      saturatingFold_cons, contributedSize_eq]

end Expansion

end Nemclass.Codegen

namespace Nemclass.Model.Project
open Codegen

/-- The span of a class as the project reports it: 0 when the class is not there. -/
def resolvedClassSize [UuidText] (p : Project) (uuid : Uuid) : ℕ :=
  match p.getClass uuid with
  | none => 0
  | some c => (Codegen.resolvedClassSize p {uuid} c).size

end Nemclass.Model.Project
