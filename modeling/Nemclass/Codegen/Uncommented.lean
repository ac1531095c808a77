import Nemclass.Codegen.Fields

/-! Projects without their comments. Two projects differ only in comments when they
agree without them; sizes, offsets and kinds are then the same, so the fields that
the generators see differ only in comments too. -/
namespace Nemclass.Model

mutual

/-- The node with the comments removed, its own and those below it. -/
def Node.uncommented : Node → Node
  | .simple kind name _ => .simple kind name ""
  | .pointer name _ target => .pointer name "" target
  | .classInstance name _ classUuid => .classInstance name "" classUuid
  | .malformedInstance name _ => .malformedInstance name ""
  | .array name _ count elementSize => .array name "" count elementSize
  | .utf8Text name _ length => .utf8Text name "" length
  | .utf16Text name _ length => .utf16Text name "" length
  | .vector name _ size width => .vector name "" size width
  | .matrix name _ size width => .matrix name "" size width
  | .vTable name _ children => .vTable name "" (uncommentedNodes children)
  | .function name _ signature => .function name "" signature
  | .cls uuid name _ addressFormula children =>
    .cls uuid name "" addressFormula (uncommentedNodes children)

def uncommentedNodes : List Node → List Node
  | [] => []
  | n :: ns => n.uncommented :: uncommentedNodes ns

end

def ClassNode.uncommented (c : ClassNode) : ClassNode :=
  { c with comment := "", children := uncommentedNodes c.children }

/-- The project with every comment removed. -/
def Project.uncommented (p : Project) : Project :=
  { p with
    classes := fun u => (p.classes u).map ClassNode.uncommented
    mem_order := fun u => by rw [p.mem_order, Option.isSome_map] }

theorem uncommentedNodes_eq_map (ns : List Node) :
    uncommentedNodes ns = ns.map Node.uncommented := by
  induction ns with
  | nil => rfl
  | cons n ns ih => rw [uncommentedNodes, ih, List.map_cons]

namespace Node

theorem typeTag_uncommented (n : Node) : n.uncommented.typeTag = n.typeTag := by cases n <;> rfl

theorem name_uncommented (n : Node) : n.uncommented.name = n.name := by cases n <;> rfl

theorem comment_uncommented (n : Node) : n.uncommented.comment = "" := by cases n <;> rfl

theorem attrs_uncommented [UuidText] (n : Node) : n.uncommented.attrs = n.attrs := by
  cases n with
  | pointer name comment target => cases target <;> rfl
  | _ => rfl

mutual

theorem memorySize_uncommented : ∀ n : Node, n.uncommented.memorySize = n.memorySize
  | .simple .. | .pointer .. | .classInstance .. | .malformedInstance .. | .array ..
  | .utf8Text .. | .utf16Text .. | .vector .. | .matrix .. | .vTable .. | .function .. => by
    simp only [uncommented, memorySize]
  | .cls _ _ _ _ children => by
    simp only [uncommented, memorySize, addMemorySizes_uncommented 0 children]

theorem addMemorySizes_uncommented (acc : ℕ) : ∀ ns : List Node,
    addMemorySizes acc (uncommentedNodes ns) = addMemorySizes acc ns
  | [] => rfl
  | n :: ns => by
    rw [uncommentedNodes, addMemorySizes, memorySize_uncommented n,
      addMemorySizes_uncommented _ ns, addMemorySizes]

end

end Node

namespace Project
variable (p : Project)

theorem getClass_uncommented (u : Uuid) :
    p.uncommented.getClass u = (p.getClass u).map ClassNode.uncommented := rfl

theorem classesInOrder_uncommented :
    p.uncommented.classesInOrder = p.classesInOrder.map ClassNode.uncommented := by
  simp only [classesInOrder, List.map_filterMap]
  rfl

end Project

end Nemclass.Model

namespace Nemclass.Codegen
open Usize Model Expand

theorem embeds_uncommented (n : Node) : embeds n.uncommented = embeds n := by cases n <;> rfl

variable (project : Project)

/-- Comments do not count in sizes, here or in embedded classes. -/
theorem exactSize_uncommented (visited : Finset Uuid) (ns : List Node) :
    exactSize project.uncommented visited (ns.map Node.uncommented) =
      exactSize project visited ns := by
  unfold exactSize
  fun_induction (store project).expand visited ns with
  | case1 visited => rw [List.map_nil, Store.expand_nil]
  | case2 visited n ns href ih =>
    rw [List.map_cons, Store.expand_plain _ ((embeds_uncommented n).trans href),
      Expansion.leaves, Expansion.leaves, List.map_cons, List.map_cons, List.sum_cons,
      List.sum_cons, ih, n.memorySize_uncommented]
  | case3 visited n ns uuid href hseen ih =>
    rw [List.map_cons, Store.expand_cut _ ((embeds_uncommented n).trans href) hseen,
      Expansion.leaves, Expansion.leaves, ih]
  | case4 visited n ns uuid href hseen hget ih =>
    have hget' : (store project.uncommented).get uuid = none := by
      show (project.getClass uuid).map ClassNode.uncommented = none
      rw [show project.getClass uuid = none from hget, Option.map_none]
    rw [List.map_cons, Store.expand_unresolved _ ((embeds_uncommented n).trans href) hseen hget',
      Expansion.leaves, Expansion.leaves, List.map_cons, List.map_cons, List.sum_cons,
      List.sum_cons, ih, n.memorySize_uncommented]
  | case5 visited n ns uuid href hseen target hget ihparts ih =>
    have hget' : (store project.uncommented).get uuid = some target.uncommented := by
      show (project.getClass uuid).map ClassNode.uncommented = _
      rw [show project.getClass uuid = some target from hget, Option.map_some]
    have hparts : (store project.uncommented).parts target.uncommented =
        ((store project).parts target).map Node.uncommented := uncommentedNodes_eq_map _
    rw [List.map_cons, Store.expand_item _ ((embeds_uncommented n).trans href) hseen hget', hparts,
      Expansion.leaves, Expansion.leaves, List.map_append, List.map_append, List.sum_append,
      List.sum_append, ihparts, ih]

section Fields
variable [UuidText]

theorem contributedSize_uncommented (n : Node) :
    contributedSize project.uncommented n.uncommented = contributedSize project n := by
  have hsize := exactSize_uncommented project ∅ [n]
  rw [contributedSize_eq, contributedSize_eq, ← hsize]
  rfl

theorem resolvedClassSize_uncommented (c : ClassNode) :
    (resolvedClassSize project.uncommented ∅ c.uncommented).size =
      (resolvedClassSize project ∅ c).size := by
  have hsize := exactSize_uncommented project ∅ c.children
  rw [resolvedClassSize_eq, resolvedClassSize_eq, ← hsize, ← uncommentedNodes_eq_map]
  rfl

variable [UnicodeTables]

theorem pointerTarget_uncommented (d : NodeDef) :
    pointerTarget project.uncommented d = pointerTarget project d := by
  have hname (u : Uuid) :
      ((project.uncommented.getClass u).bind fun c => some (sanitizeIdent c.name)) =
        (project.getClass u).bind fun c => some (sanitizeIdent c.name) := by
    rw [Project.getClass_uncommented, Option.bind_map]
    rfl
  simp only [pointerTarget, Option.bind_eq_bind, Option.pure_def, hname]

theorem instanceKind_uncommented (uuid : Option Uuid) :
    instanceKind project.uncommented uuid = instanceKind project uuid := by
  cases uuid with
  | none => rfl
  | some uuid =>
    rw [instanceKind, instanceKind, Project.getClass_uncommented]
    cases project.getClass uuid <;> rfl

/-- The kind of a field and its note depend on the type tag and the attributes. -/
theorem fieldKind_uncommented (n : Node) (contributedSize : ℕ) :
    fieldKind project.uncommented n.uncommented.toNodeDef contributedSize =
      fieldKind project n.toNodeDef contributedSize := by
  have hdef : n.uncommented.toNodeDef = { n.toNodeDef with comment := "" } := by
    simp only [Node.toNodeDef, n.typeTag_uncommented, n.name_uncommented, n.comment_uncommented,
      n.attrs_uncommented]
  rw [hdef]
  simp only [fieldKind, pointerTarget_uncommented, instanceKind_uncommented]
  rfl

def FieldInfo.uncommented (f : FieldInfo) : FieldInfo := { f with comment := "" }

theorem fieldInfo_uncommented (n : Node) (offset contributedSize : ℕ) :
    (fieldInfo project.uncommented n.uncommented offset contributedSize).uncommented =
      (fieldInfo project n offset contributedSize).uncommented := by
  simp only [fieldInfo, FieldInfo.uncommented, fieldKind_uncommented, n.name_uncommented]

theorem resolveFieldsFrom_uncommented (offset : ℕ) (ns : List Node) :
    (resolveFieldsFrom project.uncommented offset ∅ (ns.map Node.uncommented)).map
        FieldInfo.uncommented =
      (resolveFieldsFrom project offset ∅ ns).map FieldInfo.uncommented := by
  induction ns generalizing offset with
  | nil => rfl
  | cons n ns ih =>
    rw [List.map_cons, resolveFieldsFrom_cons, resolveFieldsFrom_cons, List.map_cons,
      List.map_cons, contributedSize_uncommented, fieldInfo_uncommented, ih]

/-- Without comments, the fields are those of the project without comments. -/
theorem resolveFields_uncommented (c : ClassNode) :
    (resolveFields project.uncommented c.uncommented).map FieldInfo.uncommented =
      (resolveFields project c).map FieldInfo.uncommented := by
  have hfields := resolveFieldsFrom_uncommented project 0 c.children
  rw [← uncommentedNodes_eq_map] at hfields
  exact hfields

end Fields

end Nemclass.Codegen
