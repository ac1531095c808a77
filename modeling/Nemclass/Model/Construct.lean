import Nemclass.Model.Node

/-! New nodes: what the registry builds for a tag, and the name and comment put on it. -/
namespace Nemclass.Model

namespace Node

def setName (name : String) : Node → Node
  | simple kind _ comment => simple kind name comment
  | pointer _ comment target => pointer name comment target
  | classInstance _ comment classUuid => classInstance name comment classUuid
  | malformedInstance _ comment => malformedInstance name comment
  | array _ comment count elementSize => array name comment count elementSize
  | utf8Text _ comment length => utf8Text name comment length
  | utf16Text _ comment length => utf16Text name comment length
  | vector _ comment size width => vector name comment size width
  | matrix _ comment size width => matrix name comment size width
  | vTable _ comment children => vTable name comment children
  | function _ comment signature => function name comment signature
  | cls uuid _ comment addressFormula children => cls uuid name comment addressFormula children

def setComment (comment : String) : Node → Node
  | simple kind name _ => simple kind name comment
  | pointer name _ target => pointer name comment target
  | classInstance name _ classUuid => classInstance name comment classUuid
  | malformedInstance name _ => malformedInstance name comment
  | array name _ count elementSize => array name comment count elementSize
  | utf8Text name _ length => utf8Text name comment length
  | utf16Text name _ length => utf16Text name comment length
  | vector name _ size width => vector name comment size width
  | matrix name _ size width => matrix name comment size width
  | vTable name _ children => vTable name comment children
  | function name _ signature => function name comment signature
  | cls uuid name _ addressFormula children => cls uuid name comment addressFormula children

end Node

/-- The nodes without a name that `register_builtins` constructs, a class under a fresh
identifier. -/
def constructors (fresh : Uuid) : List (String × Node) :=
  [("Int8", .simple .int8 "" ""), ("Int16", .simple .int16 "" ""),
   ("Int32", .simple .int32 "" ""), ("Int64", .simple .int64 "" ""),
   ("UInt8", .simple .uint8 "" ""), ("UInt16", .simple .uint16 "" ""),
   ("UInt32", .simple .uint32 "" ""), ("UInt64", .simple .uint64 "" ""),
   ("Float", .simple .float "" ""), ("Double", .simple .double "" ""),
   ("Bool", .simple .bool "" ""), ("Hex8", .simple .hex8 "" ""),
   ("Hex16", .simple .hex16 "" ""), ("Hex32", .simple .hex32 "" ""),
   ("Hex64", .simple .hex64 "" ""), ("Pointer", .pointer "" "" none),
   ("ClassInstance", .classInstance "" "" Uuid.nil), ("Array", .array "" "" 0 1),
   ("Utf8Text", .utf8Text "" "" 64), ("Utf16Text", .utf16Text "" "" 64),
   ("StrPtr", .simple .strPtr "" ""), ("Vector2", .vector "" "" .two .f32),
   ("Vector3", .vector "" "" .three .f32), ("Vector4", .vector "" "" .four .f32),
   ("Vector2d", .vector "" "" .two .f64), ("Vector3d", .vector "" "" .three .f64),
   ("Vector4d", .vector "" "" .four .f64), ("Matrix3x3", .matrix "" "" .m3x3 .f32),
   ("Matrix3x4", .matrix "" "" .m3x4 .f32), ("Matrix4x4", .matrix "" "" .m4x4 .f32),
   ("Matrix3x3d", .matrix "" "" .m3x3 .f64), ("Matrix3x4d", .matrix "" "" .m3x4 .f64),
   ("Matrix4x4d", .matrix "" "" .m4x4 .f64), ("VTable", .vTable "" "" []),
   ("VMethod", .simple .vMethod "" ""), ("Function", .function "" "" "void Func()"),
   ("FunctionPtr", .simple .functionPtr "" ""), ("Class", .cls fresh "" "" "" [])]

def construct (fresh : Uuid) (tag : String) : Option Node := (constructors fresh).lookup tag

/-- A node is built under the tag that it is asked for by. -/
theorem construct_typeTag {fresh : Uuid} {tag : String} {n : Node}
    (h : construct fresh tag = some n) : n.typeTag = tag := by
  have htags : ∀ e ∈ constructors fresh, e.2.typeTag = e.1 := List.map_inj_left.mp rfl
  obtain ⟨l₁, l₂, heq, -⟩ := List.lookup_eq_some_iff.mp h
  exact htags (tag, n) (heq ▸ List.mem_append_right l₁ List.mem_cons_self)

end Nemclass.Model
