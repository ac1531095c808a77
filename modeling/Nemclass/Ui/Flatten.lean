import Mathlib.Logic.Relation
import Nemclass.Codegen.Fields
import Nemclass.Model.NodeEdit

/-! The rows of the class view. One walk lists the children of the viewed class, of the classes
embedded in it and of those that its expanded pointers lead to. A class that is open on the way
to a row is not opened again below it, and an embed of it counts as empty there. -/
namespace Nemclass.Ui
open Usize Model Codegen Relation

/-- One row. `within` holds the address and the offset that the row's child list was walked from;
the code does not keep it. -/
structure NodeSnapshot where
  address : ℕ
  offset : ℕ
  depth : ℕ
  idPath : String
  hasChildren : Bool
  typeTag : String
  name : String
  comment : String
  memorySize : ℕ
  pointerTarget : Option Uuid
  ownerClass : Uuid
  localPath : List ℕ
  within : ℕ × ℕ

/-- What all calls of one walk share; an expanded pointer's buffer comes with its address. -/
structure View where
  project : Project
  collapsed : Finset String
  expandedPtrs : Finset String
  derefBufs : String → Option (ℕ × List UInt8)

/-- What one call is given. -/
structure Call where
  children : List Node
  baseAddr : ℕ
  baseOffset : ℕ
  depth : ℕ
  parentId : String
  ownerClass : Uuid
  parentPath : List ℕ
  visited : Finset Uuid
  depthBudget : ℕ

/-- The call for a viewed class. -/
def viewCall (uuid : Uuid) (c : ClassNode) (addr depthBudget : ℕ) : Call where
  children := c.children
  baseAddr := addr
  baseOffset := 0
  depth := 0
  parentId := ""
  ownerClass := uuid
  parentPath := []
  visited := ∅
  depthBudget := depthBudget

namespace Call

def idPath (c : Call) (i : ℕ) : String :=
  if c.parentId.isEmpty then toString i else c.parentId ++ "." ++ toString i

/-- The call for a node's own children, at the node's offset. -/
def nested (c : Call) (i cur : ℕ) (n : Node) : Call where
  children := n.children
  baseAddr := c.baseAddr
  baseOffset := cur
  depth := c.depth + 1
  parentId := c.idPath i
  ownerClass := c.ownerClass
  parentPath := c.parentPath ++ [i]
  visited := c.visited
  depthBudget := c.depthBudget - 1

/-- The call for a class opened below a node. -/
def opened (c : Call) (i addr offset : ℕ) (uuid : Uuid) (target : ClassNode) : Call where
  children := target.children
  baseAddr := addr
  baseOffset := offset
  depth := c.depth + 1
  parentId := c.idPath i
  ownerClass := uuid
  parentPath := []
  visited := insert uuid c.visited
  depthBudget := c.depthBudget - 1

end Call

section Walk
variable (v : View)

def pointerTargetClass : Node → Option Uuid
  | .pointer _ _ target => target
  | _ => none

/-- A pointer's target is opened where the pointer is expanded and has been read. -/
def dereferenced (c : Call) (i : ℕ) (n : Node) : Option Call := do
  let uuid ← pointerTargetClass n
  if c.idPath i ∈ v.expandedPtrs ∧ uuid ∉ c.visited ∧ 0 < c.depthBudget then
    let (addr, _) ← v.derefBufs (c.idPath i)
    let target ← v.project.getClass uuid
    some (c.opened i addr 0 uuid target)
  else none

theorem dereferenced_eq_some {c c' : Call} {i : ℕ} {n : Node} :
    dereferenced v c i n = some c' ↔ ∃ uuid target addr buf, pointerTargetClass n = some uuid ∧
      (c.idPath i ∈ v.expandedPtrs ∧ uuid ∉ c.visited ∧ 0 < c.depthBudget) ∧
        v.derefBufs (c.idPath i) = some (addr, buf) ∧ v.project.getClass uuid = some target ∧
          c.opened i addr 0 uuid target = c' := by
  simp only [dereferenced, Option.bind_eq_bind, Option.bind_eq_some_iff,
    Option.ite_none_right_eq_some, Option.some.injEq]
  constructor
  · rintro ⟨uuid, huuid, hgates, ⟨addr, buf⟩, hbuf, target, hget, rfl⟩
    exact ⟨uuid, target, addr, buf, huuid, hgates, hbuf, hget, rfl⟩
  · rintro ⟨uuid, target, addr, buf, huuid, hgates, hbuf, hget, rfl⟩
    exact ⟨uuid, huuid, hgates, (addr, buf), hbuf, target, hget, rfl⟩

theorem dereferenced_budget {c c' : Call} {i : ℕ} {n : Node}
    (h : dereferenced v c i n = some c') : c'.depthBudget < c.depthBudget := by
  obtain ⟨uuid, target, addr, buf, -, ⟨-, -, hpos⟩, -, -, rfl⟩ := (dereferenced_eq_some v).mp h
  exact Nat.sub_lt hpos one_pos

theorem sizeOf_children_lt (n : Node) (ns : List Node) : sizeOf n.children < sizeOf (n :: ns) := by
  cases n <;> simp [Node.children, Node.childrenMut] <;> omega

variable [UuidText]

def classInstanceTarget (n : Node) : Option Uuid :=
  if n.typeTag ≠ "ClassInstance" then none else classUuidAttr n.toNodeDef

/-- The size by which the walk advances. -/
def viewSize (visited : Finset Uuid) (n : Node) : ℕ :=
  if n.typeTag = "ClassInstance" then
    match classInstanceTarget n with
    | some uuid =>
      match v.project.getClass uuid with
      | some target =>
        if uuid ∈ visited then 0 else (resolvedClassSize v.project ∅ target).size
      | none => 0
    | none => 0
  else n.memorySize

def snapshot (c : Call) (i cur : ℕ) (n : Node) : NodeSnapshot where
  address := wrappingAdd c.baseAddr cur
  offset := cur
  depth := c.depth
  idPath := c.idPath i
  hasChildren := !n.children.isEmpty || (classInstanceTarget n).isSome ||
    (pointerTargetClass n).isSome
  typeTag := n.typeTag
  name := n.name
  comment := n.comment
  memorySize := viewSize v c.visited n
  pointerTarget := pointerTargetClass n
  ownerClass := c.ownerClass
  localPath := c.parentPath ++ [i]
  within := (c.baseAddr, c.baseOffset)

/-- An embedded class is opened unless its row is collapsed. -/
def inlined (c : Call) (i cur : ℕ) (n : Node) : Option Call := do
  let uuid ← classInstanceTarget n
  if c.idPath i ∉ v.collapsed ∧ uuid ∉ c.visited ∧ 0 < c.depthBudget then
    let target ← v.project.getClass uuid
    some (c.opened i c.baseAddr cur uuid target)
  else none

theorem inlined_eq_some {c c' : Call} {i cur : ℕ} {n : Node} :
    inlined v c i cur n = some c' ↔ ∃ uuid target, classInstanceTarget n = some uuid ∧
      (c.idPath i ∉ v.collapsed ∧ uuid ∉ c.visited ∧ 0 < c.depthBudget) ∧
        v.project.getClass uuid = some target ∧
          c.opened i c.baseAddr cur uuid target = c' := by
  simp only [inlined, Option.bind_eq_bind, Option.bind_eq_some_iff, Option.ite_none_right_eq_some,
    Option.some.injEq]
  grind

theorem inlined_budget {c c' : Call} {i cur : ℕ} {n : Node} (h : inlined v c i cur n = some c') :
    c'.depthBudget < c.depthBudget := by
  obtain ⟨uuid, target, -, ⟨-, -, hpos⟩, -, rfl⟩ := (inlined_eq_some v).mp h
  exact Nat.sub_lt hpos one_pos

/-- The rest of a child list, from its `i`-th child on, at offset `cur`. -/
def flattenFrom (c : Call) (i cur : ℕ) : List Node → List NodeSnapshot
  | [] => []
  | n :: ns =>
    let static :=
      if n.children.isEmpty then [] else flattenFrom (c.nested i cur n) 0 cur n.children
    let inline :=
      match _hinline : inlined v c i cur n with
      | some c' => flattenFrom c' 0 c'.baseOffset c'.children
      | none => []
    let deref :=
      match _hderef : dereferenced v c i n with
      | some c' => flattenFrom c' 0 c'.baseOffset c'.children
      | none => []
    snapshot v c i cur n :: (static ++ inline ++ deref ++
      flattenFrom c (i + 1) (wrappingAdd cur (viewSize v c.visited n)) ns)
termination_by ns => (c.depthBudget, sizeOf ns)
decreasing_by
  · rcases Nat.lt_or_eq_of_le (Nat.sub_le c.depthBudget 1) with hlt | heq
    · exact .left _ _ hlt
    · rw [Call.nested, heq]
      exact .right _ (sizeOf_children_lt n ns)
  · exact .left _ _ (inlined_budget v _hinline)
  · exact .left _ _ (dereferenced_budget v _hderef)
  · exact .right _ (by simp)

def flattenNodes (c : Call) : List NodeSnapshot := flattenFrom v c 0 c.baseOffset c.children

end Walk

end Nemclass.Ui
