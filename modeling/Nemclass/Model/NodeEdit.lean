import Nemclass.Model.Project

/-! Editing one node of a class: the node is found by the indices on the way to it, and replaced
where it stands. A way that leads nowhere changes nothing. -/
namespace Nemclass.Model

namespace Node

/-- The child list of a node that has one. -/
def childrenMut : Node → Option (List Node)
  | vTable _ _ children | cls _ _ _ _ children => some children
  | _ => none

def children (n : Node) : List Node := n.childrenMut.getD []

def setChildren (children : List Node) : Node → Node
  | vTable name comment _ => vTable name comment children
  | cls uuid name comment addressFormula _ => cls uuid name comment addressFormula children
  | n => n

theorem childrenMut_setChildren {n : Node} {old : List Node} (h : n.childrenMut = some old)
    (children : List Node) : (n.setChildren children).childrenMut = some children := by
  cases n with
  | vTable | cls => rfl
  | _ => cases h

/-- A node that embeds the class, itself or below. -/
inductive Embeds (u : Uuid) : Node → Prop
  | here {name comment : String} : Embeds u (classInstance name comment u)
  | inside {n child : Node} {children : List Node} : n.childrenMut = some children →
      child ∈ children → Embeds u child → Embeds u n

/-- A node with children embeds what they embed. -/
theorem embeds_iff_of_children {n : Node} {children : List Node}
    (h : n.childrenMut = some children) (u : Uuid) :
    n.Embeds u ↔ ∃ child ∈ children, child.Embeds u := by
  constructor
  · intro hembeds
    cases hembeds with
    | here => cases h
    | inside hchildren hmem hembeds =>
      obtain rfl := Option.some.inj (h.symm.trans hchildren)
      exact ⟨_, hmem, hembeds⟩
  · rintro ⟨child, hmem, hembeds⟩
    exact .inside h hmem hembeds

theorem embeds_classInstance_iff {name comment : String} {u v : Uuid} :
    (classInstance name comment v).Embeds u ↔ u = v := by
  constructor
  · intro h
    cases h with
    | here => rfl
    | inside h => cases h
  · rintro rfl
    exact .here

theorem not_embeds_pointer {name comment : String} {target : Option Uuid} (u : Uuid) :
    ¬ (pointer name comment target).Embeds u := by
  intro h
  cases h with
  | inside h => cases h

end Node

/-- The node that a path leads to. -/
def nodeAt : List ℕ → List Node → Option Node
  | [], _ => none
  | [last], vec => vec[last]?
  | idx :: rest, vec => do
    let node ← vec[idx]?
    let inner ← node.childrenMut
    nodeAt rest inner

/-- The child list with the node at the path replaced. -/
def editAt (f : Node → Node) : List ℕ → List Node → Option (List Node)
  | [], _ => none
  | [last], vec => do
    let node ← vec[last]?
    some (vec.set last (f node))
  | idx :: rest, vec => do
    let node ← vec[idx]?
    let inner ← node.childrenMut
    let inner ← editAt f rest inner
    some (vec.set idx (node.setChildren inner))

/-- The list embeds the class somewhere. -/
def ListEmbeds (u : Uuid) (ns : List Node) : Prop := ∃ n ∈ ns, n.Embeds u

section Edit
variable {f : Node → Node} {path : List ℕ} {vec vec' : List Node} {u : Uuid}

theorem editAt_isSome (f : Node → Node) (path : List ℕ) (vec : List Node) :
    (editAt f path vec).isSome = (nodeAt path vec).isSome := by
  fun_induction nodeAt path vec with
  | case1 => rfl
  | case2 last vec => cases h : vec[last]? <;> simp [editAt, h]
  | case3 idx rest vec hrest ih =>
    rw [editAt]
    · cases hnode : vec[idx]? with
      | none => rfl
      | some node =>
        cases hinner : node.childrenMut with
        | none => simp [hinner]
        | some inner =>
          have h := ih inner
          cases hedit : editAt f rest inner <;> simp_all
    · exact hrest

/-- Replacing an element embeds at most what the list and the new element embed. -/
theorem listEmbeds_set {i : ℕ} {n : Node} (h : ListEmbeds u (vec.set i n)) :
    ListEmbeds u vec ∨ n.Embeds u := by
  obtain ⟨m, hm, hembeds⟩ := h
  rcases List.mem_or_eq_of_mem_set hm with hm | rfl
  · exact .inl ⟨m, hm, hembeds⟩
  · exact .inr hembeds

theorem listEmbeds_set_of_embeds {i : ℕ} {n node : Node} (hnode : vec[i]? = some node)
    (h : n.Embeds u) : ListEmbeds u (vec.set i n) := by
  obtain ⟨hlt, -⟩ := List.getElem?_eq_some_iff.mp hnode
  exact ⟨n, List.mem_set hlt n, h⟩

/-- An edit embeds at most what was embedded and what the new node embeds. -/
theorem editAt_embeds (h : editAt f path vec = some vec') (hembeds : ListEmbeds u vec') :
    ListEmbeds u vec ∨ ∃ n, (f n).Embeds u := by
  fun_induction editAt f path vec generalizing vec' with
  | case1 => cases h
  | case2 last vec =>
    obtain ⟨node, -, h⟩ := Option.bind_eq_some_iff.mp h
    cases h
    exact (listEmbeds_set hembeds).imp_right fun h => ⟨node, h⟩
  | case3 idx rest vec hrest ih =>
    obtain ⟨node, hnode, h⟩ := Option.bind_eq_some_iff.mp h
    obtain ⟨inner, hinner, h⟩ := Option.bind_eq_some_iff.mp h
    obtain ⟨inner', hedit, h⟩ := Option.bind_eq_some_iff.mp h
    cases h
    rcases listEmbeds_set hembeds with hold | hnew
    · exact .inl hold
    · rw [Node.embeds_iff_of_children (Node.childrenMut_setChildren hinner inner')] at hnew
      rcases ih inner hedit hnew with hold | hnew
      · exact .inl ⟨node, List.mem_of_getElem? hnode,
          (Node.embeds_iff_of_children hinner u).mpr hold⟩
      · exact .inr hnew

/-- What the new node embeds, the edited list embeds. -/
theorem editAt_embeds_new (h : editAt f path vec = some vec') (hf : ∀ n, (f n).Embeds u) :
    ListEmbeds u vec' := by
  fun_induction editAt f path vec generalizing vec' with
  | case1 => cases h
  | case2 last vec =>
    obtain ⟨node, hnode, h⟩ := Option.bind_eq_some_iff.mp h
    cases h
    exact listEmbeds_set_of_embeds hnode (hf node)
  | case3 idx rest vec hrest ih =>
    obtain ⟨node, hnode, h⟩ := Option.bind_eq_some_iff.mp h
    obtain ⟨inner, hinner, h⟩ := Option.bind_eq_some_iff.mp h
    obtain ⟨inner', hedit, h⟩ := Option.bind_eq_some_iff.mp h
    cases h
    refine listEmbeds_set_of_embeds hnode ?_
    rw [Node.embeds_iff_of_children (Node.childrenMut_setChildren hinner inner')]
    exact ih inner hedit

end Edit

namespace Project

/-- A class that is there is changed where it stands. -/
def updateClass (p : Project) (u : Uuid) (f : ClassNode → ClassNode) : Project :=
  { p with
    classes := fun v => if v = u then (p.classes v).map f else p.classes v
    mem_order := fun v => by
      split
      · rw [Option.isSome_map]
        exact p.mem_order v
      · exact p.mem_order v }

def editNode (p : Project) (owner : Uuid) (path : List ℕ) (f : Node → Node) : Project :=
  p.updateClass owner fun c => { c with children := (editAt f path c.children).getD c.children }

/-- The node at a path inside a class. -/
def getNode (p : Project) (owner : Uuid) (path : List ℕ) : Option Node := do
  let c ← p.getClass owner
  nodeAt path c.children

/-- Class `a` embeds class `b`, at any depth of its node tree. -/
def EmbedsClass (p : Project) (a b : Uuid) : Prop :=
  ∃ c, p.getClass a = some c ∧ ListEmbeds b c.children

variable {p : Project} {owner : Uuid} {path : List ℕ} {f : Node → Node}

theorem editNode_elsewhere {a : Uuid} (ha : a ≠ owner) (b : Uuid) :
    (p.editNode owner path f).EmbedsClass a b ↔ p.EmbedsClass a b := by
  have hget : (p.editNode owner path f).getClass a = p.getClass a := if_neg ha
  rw [EmbedsClass, hget, EmbedsClass]

theorem editNode_owner (b : Uuid) : (p.editNode owner path f).EmbedsClass owner b ↔
    ∃ c, p.getClass owner = some c ∧
      ListEmbeds b ((editAt f path c.children).getD c.children) := by
  have hget : (p.editNode owner path f).getClass owner = (p.getClass owner).map fun c =>
      { c with children := (editAt f path c.children).getD c.children } := if_pos rfl
  rw [EmbedsClass, hget]
  cases p.getClass owner <;> simp

/-- A path that leads nowhere leaves the embeds as they were. -/
theorem editNode_missing (h : p.getNode owner path = none) (a b : Uuid) :
    (p.editNode owner path f).EmbedsClass a b ↔ p.EmbedsClass a b := by
  by_cases ha : a = owner
  · subst ha
    rw [editNode_owner]
    refine exists_congr fun c => and_congr_right fun hc => ?_
    have hnone : nodeAt path c.children = none := by
      rwa [getNode, hc] at h
    have hedit : editAt f path c.children = none := by
      rw [← Option.not_isSome_iff_eq_none, editAt_isSome, hnone]
      simp
    rw [hedit, Option.getD_none]
  · exact editNode_elsewhere ha b

/-- An edit adds at most what the new node embeds. -/
theorem editNode_embeds {a b : Uuid} (h : (p.editNode owner path f).EmbedsClass a b) :
    p.EmbedsClass a b ∨ a = owner ∧ ∃ n, (f n).Embeds b := by
  by_cases ha : a = owner
  · subst ha
    obtain ⟨c, hc, hembeds⟩ := (editNode_owner b).mp h
    cases hedit : editAt f path c.children with
    | none =>
      rw [hedit, Option.getD_none] at hembeds
      exact .inl ⟨c, hc, hembeds⟩
    | some children =>
      rw [hedit, Option.getD_some] at hembeds
      exact (editAt_embeds hedit hembeds).imp (⟨c, hc, ·⟩) (⟨rfl, ·⟩)
  · exact .inl ((editNode_elsewhere ha b).mp h)

theorem editNode_embeds_new {b : Uuid} (h : (p.getNode owner path).isSome)
    (hf : ∀ n, (f n).Embeds b) : (p.editNode owner path f).EmbedsClass owner b := by
  obtain ⟨n, hn⟩ := Option.isSome_iff_exists.mp h
  obtain ⟨c, hc, hnode⟩ := Option.bind_eq_some_iff.mp hn
  have hedit : (editAt f path c.children).isSome := by rw [editAt_isSome, hnode, Option.isSome_some]
  obtain ⟨children, hedit⟩ := Option.isSome_iff_exists.mp hedit
  refine (editNode_owner b).mpr ⟨c, hc, ?_⟩
  rw [hedit, Option.getD_some]
  exact editAt_embeds_new hedit hf

end Project

end Nemclass.Model
