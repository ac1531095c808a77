import Nemclass.Codegen.Fields

/-! The C++ generator. The output is a preamble, the enums, and for each class in
order a head, a line for each field and an end that asserts the size. -/
namespace Nemclass.Codegen
open Model

/-- The types fields are declared with. -/
inductive CppType where
  | prim (p : PrimKind)
  | uint8
  | pointer (target : Option String)
  | named (name : String)
  | char
  | wchar
  | float (width : FloatWidth)
deriving DecidableEq, Repr

def cppPrimType : PrimKind → String
  | .int8 => "int8_t"
  | .int16 => "int16_t"
  | .int32 => "int32_t"
  | .int64 => "int64_t"
  | .uint8 => "uint8_t"
  | .uint16 => "uint16_t"
  | .uint32 => "uint32_t"
  | .uint64 => "uint64_t"
  | .float => "float"
  | .double => "double"
  | .bool => "bool"

def CppType.text : CppType → String
  | prim p => cppPrimType p
  | uint8 => "uint8_t"
  | pointer none => "void*"
  | pointer (some target) => target ++ "*"
  | named name => name
  | char => "char"
  | wchar => "wchar_t"
  | float width => width.cTy

structure CppField where
  type : CppType
  name : String
  dims : List ℕ
  offset : ℕ
  comment : String
deriving DecidableEq, Repr

/-- The declared type and array bounds of a field. -/
def cppDeclarator : FieldKind → CppType × List ℕ
  | .primitive p => (.prim p, [])
  | .rawBytes n => (.uint8, [n])
  | .pointer target => (.pointer target, [])
  | .classInstance name => (.named name, [])
  | .array count => (.uint8, [count])
  | .utf8Text length => (.char, [length])
  -- an odd byte length rounds up to whole characters
  | .utf16Text length => (.wchar, [(length + 1) / 2])
  | .vector components width => (.float width, [components])
  | .matrix rows cols width => (.float width, [rows, cols])

def cppField (f : FieldInfo) : CppField :=
  let (type, dims) := cppDeclarator f.kind
  ⟨type, f.name, dims, f.offset, f.comment⟩

def CppField.text (f : CppField) : String :=
  "    " ++ f.type.text ++ " " ++ f.name ++
    String.join (f.dims.map fun n => "[" ++ toString n ++ "]") ++
    "; //0x" ++ hexUpper 4 f.offset ++ spaced f.comment ++ "\n"

structure CppClass where
  name : String
  comment : String
  fields : List CppField
  totalSize : ℕ
deriving DecidableEq, Repr

/-- The pieces of the output, in order. -/
inductive CppItem where
  | classHead (name comment : String)
  | field (f : CppField)
  | classEnd (name : String) (totalSize : ℕ)
deriving DecidableEq, Repr

def CppItem.text : CppItem → String
  | classHead name comment =>
    "class " ++ name ++ (if comment.isEmpty then "" else " // " ++ comment) ++ "\n\x7b\npublic:\n"
  | field f => f.text
  | classEnd name totalSize =>
    "\x7d; //Size: 0x" ++ hexUpper 4 totalSize ++ "\n" ++
      "static_assert(sizeof(" ++ name ++ ") == 0x" ++ hexUpper 1 totalSize ++ ");\n\n"

def CppClass.items (c : CppClass) : List CppItem :=
  .classHead c.name c.comment :: (c.fields.map .field ++ [.classEnd c.name c.totalSize])

def cppIntTypeForSize (size : UInt8) : String :=
  if size = 1 then "int8_t" else if size = 2 then "int16_t" else if size = 8 then "int64_t"
  else "int32_t"

/-- The enumerators, all but the last one followed by a comma. -/
def cppEnumValues : List (String × String) → String
  | [] => ""
  | [(name, value)] => "    " ++ name ++ " = " ++ value ++ "\n"
  | (name, value) :: rest => "    " ++ name ++ " = " ++ value ++ ",\n" ++ cppEnumValues rest

section Generate
variable [UuidText] [UnicodeTables] (project : Project)

def cppEnum (e : EnumDescription) : String :=
  "enum class " ++ sanitizeIdent e.name ++ " : " ++ cppIntTypeForSize e.size ++ "\n\x7b\n" ++
    cppEnumValues (e.values.map fun v => (sanitizeIdent v.1, toString v.2.toInt)) ++ "\x7d;\n\n"

def cppClass (c : ClassNode) : CppClass where
  name := sanitizeIdent c.name
  comment := c.comment
  fields := (resolveFields project c).map cppField
  totalSize := (resolvedClassSize project ∅ c).size

def cppItems : List CppItem := project.classesInOrder.flatMap fun c => (cppClass project c).items

def cppGenerate : String :=
  "// Generated by nemclass-rs\n#pragma once\n#include <cstdint>\n#include <cassert>\n\n" ++
    String.join (project.enums.map cppEnum) ++ "#pragma pack(push, 1)\n\n" ++
    String.join ((cppItems project).map CppItem.text) ++ "#pragma pack(pop)\n"

end Generate

end Nemclass.Codegen
