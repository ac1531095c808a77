import Nemclass.Lib.Outcome
import Nemclass.Model.Error
import Nemclass.Model.Node

/-! The node registry: how each tag is read back from its definition. The public
entry bounds the depth of a definition once, with an explicit stack, and the
recursion below it does not count. -/
namespace Nemclass.Model

/-- What the registry needs of the identifier library besides the round trip: the text of an
identifier is not empty, malformed text is reported, and identifiers can be drawn at random. -/
class UuidLibrary extends UuidText where
  toString_ne : ∀ u, toString u ≠ ""
  parseError : String → String
  newV4 : ℕ → Uuid

/-- A computation that may draw random identifiers; the state counts the draws. -/
abbrev Draws := StateT ℕ (Except ModelError)

/-- What ran before the end of a successful run. -/
theorem run_bind_ok {α β : Type} {m : Draws α} {f : α → Draws β} {s : ℕ} {y : β × ℕ}
    (h : (m >>= f).run s = .ok y) : ∃ x, m.run s = .ok x ∧ (f x.1).run x.2 = .ok y := by
  change (m.run s >>= fun x => (f x.1).run x.2) = _ at h
  exact Outcome.bind_eq_ok.mp h

def maxNodeDepth : ℕ := 128

namespace NodeDef

mutual

/-- The number of nodes on the longest way down. -/
def height : NodeDef → ℕ
  | ⟨_, _, _, _, nodes⟩ => heights nodes + 1

def heights : List NodeDef → ℕ
  | [] => 0
  | d :: ds => max d.height (heights ds)

end

mutual

/-- The number of nodes. -/
def count : NodeDef → ℕ
  | ⟨_, _, _, _, nodes⟩ => counts nodes + 1

def counts : List NodeDef → ℕ
  | [] => 0
  | d :: ds => d.count + counts ds

end

theorem height_eq (d : NodeDef) : d.height = heights d.nodes + 1 := by
  cases d
  rw [height]

theorem count_eq (d : NodeDef) : d.count = counts d.nodes + 1 := by
  cases d
  rw [count]

theorem heights_le_iff {ds : List NodeDef} {k : ℕ} :
    heights ds ≤ k ↔ ∀ d ∈ ds, d.height ≤ k := by
  induction ds with
  | nil => simp [heights]
  | cons d ds ih => rw [heights, Nat.max_le, ih, List.forall_mem_cons]

theorem counts_eq (ds : List NodeDef) : counts ds = (ds.map fun d => d.count).sum := by
  induction ds with
  | nil => rw [counts, List.map_nil, List.sum_nil]
  | cons d ds ih => rw [counts, ih, List.map_cons, List.sum_cons]

/-- The children as they are pushed, the last one on top. -/
def pushed (d : NodeDef) (depth : ℕ) : List (NodeDef × ℕ) :=
  (d.nodes.map fun child => (child, depth)).reverse

/-- The definitions still to be looked at, each with its depth. -/
def checkStack : List (NodeDef × ℕ) → Except ModelError Unit
  | [] => .ok ()
  | (d, depth) :: stack =>
    if maxNodeDepth < depth then .error (.maxDepthExceeded maxNodeDepth)
    else checkStack (d.pushed (depth + 1) ++ stack)
termination_by stack => (stack.map fun x => x.1.count).sum
decreasing_by
  simp only [pushed, List.map_append, List.map_reverse, List.map_map, List.sum_append,
    List.sum_reverse, List.map_cons, List.sum_cons, Function.comp_def, count_eq d, counts_eq]
  omega

def checkNodeDepth (d : NodeDef) : Except ModelError Unit := checkStack [(d, 1)]

theorem checkStack_eq (stack : List (NodeDef × ℕ)) :
    checkStack stack =
      if ∀ x ∈ stack, x.2 + x.1.height ≤ maxNodeDepth + 1 then .ok ()
      else .error (.maxDepthExceeded maxNodeDepth) := by
  fun_induction checkStack stack with
  | case1 => simp
  | case2 d depth stack h =>
    rw [if_neg]
    intro hall
    have hd := hall (d, depth) List.mem_cons_self
    simp only [height_eq] at hd
    omega
  | case3 d depth stack h ih =>
    rw [ih]
    congr 1
    simp only [pushed, List.forall_mem_append, List.mem_reverse, List.forall_mem_map,
      List.forall_mem_cons]
    refine propext (and_congr_left fun _ => ?_)
    have hlist : heights d.nodes ≤ maxNodeDepth - depth ↔ _ := heights_le_iff
    rw [height_eq]
    constructor
    · intro hall
      have := hlist.mpr fun c hc => by have := hall c hc; omega
      omega
    · intro hd c hc
      have := hlist.mp (by omega) c hc
      omega

theorem checkNodeDepth_eq (d : NodeDef) :
    d.checkNodeDepth = if d.height ≤ maxNodeDepth then .ok ()
      else .error (.maxDepthExceeded maxNodeDepth) := by
  rw [checkNodeDepth, checkStack_eq]
  congr 1
  simp only [List.forall_mem_singleton]
  exact propext ⟨fun h => by omega, fun h => by omega⟩

end NodeDef

section Registry
variable [library : UuidLibrary]

/-- How a tag is read back: a leaf from its own definition, a container with its children. -/
inductive Decoder where
  | leaf (de : NodeDef → Node)
  | vTable
  | cls

namespace Decoder

def simple (kind : SimpleKind) : Decoder := leaf fun d => .simple kind d.name d.comment

def vector (size : VectorSize) (width : FloatWidth) : Decoder :=
  leaf fun d => .vector d.name d.comment size width

def matrix (size : MatrixSize) (width : FloatWidth) : Decoder :=
  leaf fun d => .matrix d.name d.comment size width

/-- An integer attribute as a machine word. -/
def wordAttr (d : NodeDef) (key : String) (default : UInt64) : UInt64 :=
  (((d.attr key).bind TomlValue.asInteger).map Int64.toUInt64).getD default

def stringAttr (d : NodeDef) (key : String) (default : String) : String :=
  ((d.attr key).bind TomlValue.asStr).getD default

def pointer : Decoder := leaf fun d =>
  .pointer d.name d.comment (((d.attr "target_class_uuid").bind TomlValue.asStr).bind Uuid.parse)

def classInstance : Decoder := leaf fun d =>
  .classInstance d.name d.comment ((Uuid.parse (stringAttr d "class_uuid" "")).getD Uuid.nil)

def array : Decoder := leaf fun d =>
  .array d.name d.comment (wordAttr d "count" 0) (wordAttr d "element_size" 1)

def utf8Text : Decoder := leaf fun d => .utf8Text d.name d.comment (wordAttr d "length" 64)

def utf16Text : Decoder := leaf fun d => .utf16Text d.name d.comment (wordAttr d "length" 64)

def function : Decoder := leaf fun d =>
  .function d.name d.comment (stringAttr d "signature" "void Func()")

end Decoder

/-- `register_builtins`, in the source's order. -/
def builtins : List (String × Decoder) :=
  [("Int8", .simple .int8), ("Int16", .simple .int16), ("Int32", .simple .int32),
   ("Int64", .simple .int64), ("UInt8", .simple .uint8), ("UInt16", .simple .uint16),
   ("UInt32", .simple .uint32), ("UInt64", .simple .uint64), ("Float", .simple .float),
   ("Double", .simple .double), ("Bool", .simple .bool), ("Hex8", .simple .hex8),
   ("Hex16", .simple .hex16), ("Hex32", .simple .hex32), ("Hex64", .simple .hex64),
   ("Pointer", .pointer), ("ClassInstance", .classInstance), ("Array", .array),
   ("Utf8Text", .utf8Text), ("Utf16Text", .utf16Text), ("StrPtr", .simple .strPtr),
   ("Vector2", .vector .two .f32), ("Vector3", .vector .three .f32),
   ("Vector4", .vector .four .f32), ("Vector2d", .vector .two .f64),
   ("Vector3d", .vector .three .f64), ("Vector4d", .vector .four .f64),
   ("Matrix3x3", .matrix .m3x3 .f32), ("Matrix3x4", .matrix .m3x4 .f32),
   ("Matrix4x4", .matrix .m4x4 .f32), ("Matrix3x3d", .matrix .m3x3 .f64),
   ("Matrix3x4d", .matrix .m3x4 .f64), ("Matrix4x4d", .matrix .m4x4 .f64),
   ("VTable", .vTable), ("VMethod", .simple .vMethod), ("Function", .function),
   ("FunctionPtr", .simple .functionPtr), ("Class", .cls)]

/-- The identifier of a class: fresh where none is written, an error where it is malformed. -/
def classUuid (s : String) : Draws Uuid :=
  if s.isEmpty then do
    let drawn ← get
    set (drawn + 1)
    pure (library.newV4 drawn)
  else
    match Uuid.parse s with
    | some uuid => pure uuid
    | none =>
      throw (.deserializeError s!"bad class node uuid '{s}': {library.parseError s}")

mutual

/-- Recursive core, the depth already bounded. -/
def deserializeNodeInner : NodeDef → Draws Node
  | ⟨typeTag, name, comment, attrs, nodes⟩ =>
    match builtins.lookup typeTag with
    | some (.leaf de) => pure (de ⟨typeTag, name, comment, attrs, nodes⟩)
    | some .vTable => do
      let children ← deserializeNodes nodes
      pure (.vTable name comment children)
    | some .cls => do
      let d : NodeDef := ⟨typeTag, name, comment, attrs, nodes⟩
      let uuid ← classUuid (Decoder.stringAttr d "uuid" "")
      let children ← deserializeNodes nodes
      pure (.cls uuid name comment (Decoder.stringAttr d "address_formula" "") children)
    | none => throw (.unknownNodeType typeTag)

def deserializeNodes : List NodeDef → Draws (List Node)
  | [] => pure []
  | d :: ds => do
    let n ← deserializeNodeInner d
    let ns ← deserializeNodes ds
    pure (n :: ns)

end

def deserializeNode (d : NodeDef) : Draws Node := do
  StateT.lift d.checkNodeDepth
  deserializeNodeInner d

mutual

/-- A node's definition with those of its children. -/
def serializeNodeRecursive : Node → NodeDef
  | .vTable name comment children =>
    { (Node.vTable name comment children).toNodeDef with nodes := serializeNodes children }
  | .cls uuid name comment addressFormula children =>
    { (Node.cls uuid name comment addressFormula children).toNodeDef with
      nodes := serializeNodes children }
  | n => n.toNodeDef

def serializeNodes : List Node → List NodeDef
  | [] => []
  | n :: ns => serializeNodeRecursive n :: serializeNodes ns

end

end Registry

namespace Node

mutual

/-- No node of the tree is the malformed embed: the registry builds none, and reads none. -/
def BuiltIn : Node → Prop
  | malformedInstance .. => False
  | vTable _ _ children | cls _ _ _ _ children => AllBuiltIn children
  | _ => True

def AllBuiltIn : List Node → Prop
  | [] => True
  | n :: ns => n.BuiltIn ∧ AllBuiltIn ns

end

mutual

def height : Node → ℕ
  | vTable _ _ children | cls _ _ _ _ children => heights children + 1
  | _ => 1

def heights : List Node → ℕ
  | [] => 0
  | n :: ns => max n.height (heights ns)

end

theorem heights_le_iff {ns : List Node} {k : ℕ} : heights ns ≤ k ↔ ∀ n ∈ ns, n.height ≤ k := by
  induction ns with
  | nil => simp [heights]
  | cons n ns ih => rw [heights, Nat.max_le, ih, List.forall_mem_cons]

theorem allBuiltIn_iff {ns : List Node} : AllBuiltIn ns ↔ ∀ n ∈ ns, n.BuiltIn := by
  induction ns with
  | nil => simp [AllBuiltIn]
  | cons n ns ih => rw [AllBuiltIn, ih, List.forall_mem_cons]

end Node

end Nemclass.Model
