import Nemclass.Lib.Usize
import Nemclass.Model.Uuid

/-! Field nodes: their attributes, their sizes, and the definitions they are
written as. Counts and lengths come from project files, so they are arbitrary
machine words, and sizes saturate. -/
namespace Nemclass.Model
open Usize

/-- Attribute values; `other` stands for the kinds that no node reads. -/
inductive TomlValue where
  | string (s : String)
  | integer (i : Int64)
  | other
deriving DecidableEq

namespace TomlValue

def asStr : TomlValue → Option String
  | string s => some s
  | _ => none

def asInteger : TomlValue → Option Int64
  | integer i => some i
  | _ => none

end TomlValue

/-- A node as it is written; `attrs` is a map. -/
structure NodeDef where
  typeTag : String
  name : String
  comment : String
  attrs : List (String × TomlValue)
  nodes : List NodeDef

def NodeDef.attr (d : NodeDef) (key : String) : Option TomlValue := d.attrs.lookup key

inductive FloatWidth where
  | f32
  | f64
deriving DecidableEq, Repr

namespace FloatWidth

def size : FloatWidth → ℕ
  | f32 => 4
  | f64 => 8

def rustTy : FloatWidth → String
  | f32 => "f32"
  | f64 => "f64"

def cTy : FloatWidth → String
  | f32 => "float"
  | f64 => "double"

end FloatWidth

/-- Every vector tag with its `(components, width)` shape. -/
def vectorShapes : List (String × ℕ × FloatWidth) :=
  [("Vector2", 2, .f32), ("Vector3", 3, .f32), ("Vector4", 4, .f32),
   ("Vector2d", 2, .f64), ("Vector3d", 3, .f64), ("Vector4d", 4, .f64)]

/-- Every matrix tag with its `(rows, cols, width)` shape. -/
def matrixShapes : List (String × ℕ × ℕ × FloatWidth) :=
  [("Matrix3x3", 3, 3, .f32), ("Matrix3x4", 3, 4, .f32), ("Matrix4x4", 4, 4, .f32),
   ("Matrix3x3d", 3, 3, .f64), ("Matrix3x4d", 3, 4, .f64), ("Matrix4x4d", 4, 4, .f64)]

def vectorShape (tag : String) : Option (ℕ × FloatWidth) :=
  (vectorShapes.find? fun s => s.1 == tag).map Prod.snd

def matrixShape (tag : String) : Option (ℕ × ℕ × FloatWidth) :=
  (matrixShapes.find? fun s => s.1 == tag).map Prod.snd

def vectorTag (components : ℕ) (width : FloatWidth) : String :=
  ((vectorShapes.find? fun s => s.2.1 == components && s.2.2 == width).map Prod.fst).getD
    (match width with | .f32 => "Vector3" | .f64 => "Vector3d")

def matrixTag (rows cols : ℕ) (width : FloatWidth) : String :=
  ((matrixShapes.find? fun s => s.2.1 == rows && s.2.2.1 == cols && s.2.2.2 == width).map
    Prod.fst).getD (match width with | .f32 => "Matrix4x4" | .f64 => "Matrix4x4d")

/-- The component counts that `VectorNode::new` clamps to. -/
inductive VectorSize where
  | two
  | three
  | four
deriving DecidableEq, Repr

def VectorSize.components : VectorSize → ℕ
  | two => 2
  | three => 3
  | four => 4

/-- The shapes that `MatrixNode::new` falls back to. -/
inductive MatrixSize where
  | m3x3
  | m3x4
  | m4x4
deriving DecidableEq, Repr

namespace MatrixSize

def rows : MatrixSize → ℕ
  | m3x3 | m3x4 => 3
  | m4x4 => 4

def cols : MatrixSize → ℕ
  | m3x3 => 3
  | m3x4 | m4x4 => 4

end MatrixSize

/-- Leaf nodes without attributes. -/
inductive SimpleKind where
  | int8 | int16 | int32 | int64
  | uint8 | uint16 | uint32 | uint64
  | float | double | bool
  | hex8 | hex16 | hex32 | hex64
  | strPtr | vMethod | functionPtr
deriving DecidableEq, Repr

namespace SimpleKind

def typeTag : SimpleKind → String
  | int8 => "Int8"
  | int16 => "Int16"
  | int32 => "Int32"
  | int64 => "Int64"
  | uint8 => "UInt8"
  | uint16 => "UInt16"
  | uint32 => "UInt32"
  | uint64 => "UInt64"
  | float => "Float"
  | double => "Double"
  | bool => "Bool"
  | hex8 => "Hex8"
  | hex16 => "Hex16"
  | hex32 => "Hex32"
  | hex64 => "Hex64"
  | strPtr => "StrPtr"
  | vMethod => "VMethod"
  | functionPtr => "FunctionPtr"

def size : SimpleKind → ℕ
  | int8 | uint8 | bool | hex8 => 1
  | int16 | uint16 | hex16 => 2
  | int32 | uint32 | float | hex32 => 4
  | int64 | uint64 | double | hex64 | strPtr | vMethod | functionPtr => 8

end SimpleKind

/-- The node types. `malformedInstance` is an embed without a class identifier: no built-in node
is written so, but the trait admits one and the generators handle it. -/
inductive Node where
  | simple (kind : SimpleKind) (name comment : String)
  | pointer (name comment : String) (targetClassUuid : Option Uuid)
  | classInstance (name comment : String) (classUuid : Uuid)
  | malformedInstance (name comment : String)
  | array (name comment : String) (count elementSize : UInt64)
  | utf8Text (name comment : String) (length : UInt64)
  | utf16Text (name comment : String) (length : UInt64)
  | vector (name comment : String) (size : VectorSize) (width : FloatWidth)
  | matrix (name comment : String) (size : MatrixSize) (width : FloatWidth)
  | vTable (name comment : String) (children : List Node)
  | function (name comment signature : String)
  | cls (uuid : Uuid) (name comment addressFormula : String) (children : List Node)

namespace Node

/-- The nodes that have children. -/
def IsContainer : Node → Prop
  | vTable .. | cls .. => True
  | _ => False

def typeTag : Node → String
  | simple kind _ _ => kind.typeTag
  | pointer .. => "Pointer"
  | classInstance .. | malformedInstance .. => "ClassInstance"
  | array .. => "Array"
  | utf8Text .. => "Utf8Text"
  | utf16Text .. => "Utf16Text"
  | vector _ _ size width => vectorTag size.components width
  | matrix _ _ size width => matrixTag size.rows size.cols width
  | vTable .. => "VTable"
  | function .. => "Function"
  | cls .. => "Class"

def name : Node → String
  | simple _ name _ | pointer name _ _ | classInstance name _ _ | malformedInstance name _
  | array name _ _ _ | utf8Text name _ _ | utf16Text name _ _ | vector name _ _ _
  | matrix name _ _ _ | vTable name _ _ | function name _ _ | cls _ name _ _ _ => name

def comment : Node → String
  | simple _ _ comment | pointer _ comment _ | classInstance _ comment _ | malformedInstance _ comment
  | array _ comment _ _ | utf8Text _ comment _ | utf16Text _ comment _ | vector _ comment _ _
  | matrix _ comment _ _ | vTable _ comment _ | function _ comment _ | cls _ _ comment _ _ => comment

mutual

/-- The size in bytes; an embedded class counts as 0 here, its size needs the project. -/
def memorySize : Node → ℕ
  | simple kind _ _ => kind.size
  | pointer .. | vTable .. | function .. => 8
  | classInstance .. | malformedInstance .. => 0
  | array _ _ count elementSize => saturatingMul count.toNat elementSize.toNat
  | utf8Text _ _ length | utf16Text _ _ length => length.toNat
  | vector _ _ size width => size.components * width.size
  | matrix _ _ size width => size.rows * size.cols * width.size
  | cls _ _ _ _ children => addMemorySizes 0 children

/-- The saturating fold over a child list. -/
def addMemorySizes (acc : ℕ) : List Node → ℕ
  | [] => acc
  | n :: ns => addMemorySizes (saturatingAdd acc n.memorySize) ns

end

theorem addMemorySizes_eq (acc : ℕ) (ns : List Node) :
    addMemorySizes acc ns = saturatingFold acc (ns.map memorySize) := by
  induction ns generalizing acc with
  | nil => rw [addMemorySizes, List.map_nil, saturatingFold_nil]
  | cons n ns ih => rw [addMemorySizes, ih, List.map_cons, saturatingFold_cons]

theorem memorySize_le (n : Node) : n.memorySize ≤ usizeMax := by
  cases n with
  | simple kind name comment =>
    rw [memorySize]
    cases kind <;> decide
  | pointer | vTable | function | classInstance | malformedInstance =>
    rw [memorySize]
    decide
  | array _ _ count elementSize =>
    rw [memorySize]
    exact Nat.min_le_right _ _
  | utf8Text _ _ length | utf16Text _ _ length =>
    rw [memorySize]
    exact Nat.le_pred_of_lt length.toNat_lt
  | vector _ _ size width =>
    rw [memorySize]
    cases size <;> cases width <;> decide
  | matrix _ _ size width =>
    rw [memorySize]
    cases size <;> cases width <;> decide
  | cls _ _ _ _ children =>
    rw [memorySize, addMemorySizes_eq, saturatingFold_zero]
    exact Nat.min_le_right _ _

section Def
variable [UuidText]

/-- The attributes of a node. -/
def attrs : Node → List (String × TomlValue)
  | pointer _ _ (some uuid) => [("target_class_uuid", .string uuid.toString)]
  | classInstance _ _ classUuid => [("class_uuid", .string classUuid.toString)]
  | array _ _ count elementSize =>
    [("count", .integer count.toInt64), ("element_size", .integer elementSize.toInt64)]
  | utf8Text _ _ length | utf16Text _ _ length => [("length", .integer length.toInt64)]
  | function _ _ signature => [("signature", .string signature)]
  | cls uuid _ _ addressFormula _ =>
    [("uuid", .string uuid.toString), ("address_formula", .string addressFormula)]
  | _ => []

/-- A node's own definition; its children are written separately. -/
def toNodeDef (n : Node) : NodeDef := ⟨n.typeTag, n.name, n.comment, n.attrs, []⟩

end Def

end Node

end Nemclass.Model
