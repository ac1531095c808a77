import Nemclass.Codegen.Cpp
import Nemclass.Codegen.Rust

/-! The C# generator. Each class becomes a struct with explicit field offsets; what
is not one value is a fixed buffer of bytes or floats. The size is not asserted. -/
namespace Nemclass.Codegen
open Model

def csharpPrimType : PrimKind → String
  | .int8 => "sbyte"
  | .int16 => "short"
  | .int32 => "int"
  | .int64 => "long"
  | .uint8 => "byte"
  | .uint16 => "ushort"
  | .uint32 => "uint"
  | .uint64 => "ulong"
  | .float => "float"
  | .double => "double"
  | .bool => "bool"

def csharpIntTypeForSize (size : UInt8) : String :=
  if size = 1 then "sbyte" else if size = 2 then "short" else if size = 8 then "long" else "int"

def csharpFloatType : FloatWidth → String
  | .f32 => "float"
  | .f64 => "double"

/-- The modifiers and the type of a field. -/
def csharpType : FieldKind → String
  | .primitive p => "readonly " ++ csharpPrimType p
  | .rawBytes _ | .array _ | .utf16Text _ => "unsafe fixed byte"
  | .pointer _ => "readonly IntPtr"
  | .classInstance name => name
  | .utf8Text _ => "readonly string"
  | .vector _ width | .matrix _ _ width => "unsafe fixed " ++ csharpFloatType width

/-- The length of a fixed buffer; a matrix is flattened. -/
def csharpLength : FieldKind → Option ℕ
  | .rawBytes n | .array n => some n
  -- an odd byte length is kept even; unchecked, the largest one wraps to 0
  | .utf16Text length => some ((length + 1) / 2 * 2 % 2 ^ 64)
  | .vector components _ => some components
  | .matrix rows cols _ => some (rows * cols)
  | .primitive _ | .pointer _ | .classInstance _ | .utf8Text _ => none

/-- The length that a string is marshalled with. -/
def csharpMarshal : FieldKind → Option ℕ
  | .utf8Text length => some length
  | _ => none

/-- The generator's own comment, behind that of the field. -/
def csharpRemark : FieldKind → String
  | .utf16Text _ => " // UTF-16 LE"
  | .matrix rows cols _ => " // " ++ toString rows ++ "x" ++ toString cols ++ " row-major"
  | _ => ""

structure CSharpField where
  marshal : Option ℕ
  offset : ℕ
  type : String
  name : String
  length : Option ℕ
  comment : String
  remark : String
deriving DecidableEq, Repr

def csharpField (f : FieldInfo) : CSharpField :=
  ⟨csharpMarshal f.kind, f.offset, csharpType f.kind, f.name, csharpLength f.kind, f.comment,
    csharpRemark f.kind⟩

/-- The attributes and the declaration, up to the semicolon. -/
def CSharpField.declaration (f : CSharpField) : String :=
  (match f.marshal with
    | some n => "    [MarshalAs(UnmanagedType.ByValTStr, SizeConst = " ++ toString n ++ ")]\n"
    | none => "") ++
  "    [FieldOffset(0x" ++ hexUpper 1 f.offset ++ ")]\n    public " ++ f.type ++ " " ++ f.name ++
    (match f.length with
      | some n => "[" ++ toString n ++ "]"
      | none => "") ++ ";"

def CSharpField.text (f : CSharpField) : String :=
  f.declaration ++ (if f.comment.isEmpty then "" else " //" ++ f.comment) ++ f.remark ++ "\n"

structure CSharpStruct where
  name : String
  comment : String
  fields : List CSharpField
deriving DecidableEq, Repr

def CSharpStruct.text (s : CSharpStruct) : String :=
  "[StructLayout(LayoutKind.Explicit, CharSet = CharSet.Ansi)]\npublic struct " ++ s.name ++
    (if s.comment.isEmpty then "" else " // " ++ s.comment) ++ "\n\x7b\n" ++
    String.join (s.fields.map CSharpField.text) ++ "\x7d\n\n"

section Generate
variable [UuidText] [UnicodeTables] (project : Project)

def csharpEnum (e : EnumDescription) : String :=
  "public enum " ++ sanitizeIdent e.name ++ " : " ++ csharpIntTypeForSize e.size ++ "\n\x7b\n" ++
    cppEnumValues (e.values.map fun v => (sanitizeIdent v.1, toString v.2.toInt)) ++ "\x7d\n\n"

def csharpStruct (c : ClassNode) : CSharpStruct where
  name := sanitizeIdent c.name
  comment := c.comment
  fields := (resolveFields project c).map csharpField

def csharpGenerate : String :=
  let out := "// Generated by nemclass-rs\n" ++
    "// Warning: The C# code generator doesn't support all node types!\n\n" ++
    "using System.Runtime.InteropServices;\n\n" ++
    String.join (project.enums.map csharpEnum) ++
    String.join (project.classesInOrder.map fun c => (csharpStruct project c).text)
  String.ofList (trimBlankLines out.toList)

end Generate

end Nemclass.Codegen
