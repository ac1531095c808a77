import Nemclass.Codegen.Fields

/-! The Rust generator. Each class becomes a `repr(C)` struct followed by a
constant assertion of its size. -/
namespace Nemclass.Codegen
open Model

/-- The types fields are declared with. -/
inductive RustType where
  | prim (p : PrimKind)
  | u8
  | u16
  | float (width : FloatWidth)
  | usize
  | mutPtr (target : String)
  | named (name : String)
  | array (elem : RustType) (n : ℕ)
deriving DecidableEq, Repr

def rustPrimType : PrimKind → String
  | .int8 => "i8"
  | .int16 => "i16"
  | .int32 => "i32"
  | .int64 => "i64"
  | .uint8 => "u8"
  | .uint16 => "u16"
  | .uint32 => "u32"
  | .uint64 => "u64"
  | .float => "f32"
  | .double => "f64"
  | .bool => "bool"

def RustType.text : RustType → String
  | prim p => rustPrimType p
  | u8 => "u8"
  | u16 => "u16"
  | float width => width.rustTy
  | usize => "usize"
  | mutPtr target => "*mut " ++ target
  | named name => name
  | array elem n => "[" ++ elem.text ++ "; " ++ toString n ++ "]"

structure RustField where
  name : String
  type : RustType
  offset : ℕ
  comment : String
deriving DecidableEq, Repr

def rustFieldType : FieldKind → RustType
  | .primitive p => .prim p
  | .rawBytes n => .array .u8 n
  | .pointer (some target) => .mutPtr target
  | .pointer none => .usize
  | .classInstance name => .named name
  | .array count => .array .u8 count
  | .utf8Text length => .array .u8 length
  -- an odd byte length rounds up to whole code units
  | .utf16Text length => .array .u16 ((length + 1) / 2)
  | .vector components width => .array (.float width) components
  -- the outer array indexes rows
  | .matrix rows cols width => .array (.array (.float width) cols) rows

def rustField (f : FieldInfo) : RustField := ⟨f.name, rustFieldType f.kind, f.offset, f.comment⟩

def RustField.text (f : RustField) : String :=
  "    pub " ++ f.name ++ ": " ++ f.type.text ++ ", // 0x" ++ hexUpper 4 f.offset ++
    spaced f.comment ++ "\n"

structure RustStruct where
  name : String
  comment : String
  fields : List RustField
  totalSize : ℕ
deriving DecidableEq, Repr

def RustStruct.text (s : RustStruct) : String :=
  "#[repr(C)]\npub struct " ++ s.name ++ (if s.comment.isEmpty then "" else " // " ++ s.comment) ++
    " \x7b\n" ++ String.join (s.fields.map RustField.text) ++ "\x7d\n\n" ++
    "const _: () = assert!(std::mem::size_of::<" ++ s.name ++ ">() == 0x" ++ hexUpper 1 s.totalSize ++
    ");\n\n"

def rustIntTypeForSize (size : UInt8) : String :=
  if size = 1 then "i8" else if size = 2 then "i16" else if size = 8 then "i64" else "i32"

/-- Drops newlines while the output ends in a blank line. -/
def trimBlankLines (out : List Char) : List Char :=
  let rec go : List Char → List Char
    | '\n' :: '\n' :: rest => go ('\n' :: rest)
    | rest => rest
  (go out.reverse).reverse

section Generate
variable [UuidText] [UnicodeTables] (project : Project)

/-- A flag set becomes a newtype with constants, any other enum stays one. -/
def rustEnum (e : EnumDescription) : String :=
  let name := sanitizeIdent e.name
  let repr := rustIntTypeForSize e.size
  let derives := "#[derive(Debug, Clone, Copy, PartialEq, Eq)]\n"
  if e.useFlags then
    derives ++ "pub struct " ++ name ++ "(pub " ++ repr ++ ");\n\nimpl " ++ name ++ " \x7b\n" ++
      String.join (e.values.map fun v =>
        "    pub const " ++ sanitizeIdent v.1 ++ ": " ++ repr ++ " = " ++ toString v.2.toInt ++ ";\n") ++
      "\x7d\n\n"
  else
    derives ++ "#[repr(" ++ repr ++ ")]\npub enum " ++ name ++ " \x7b\n" ++
      String.join (e.values.map fun v =>
        "    " ++ sanitizeIdent v.1 ++ " = " ++ toString v.2.toInt ++ ",\n") ++ "\x7d\n\n"

def rustStruct (c : ClassNode) : RustStruct where
  name := sanitizeIdent c.name
  comment := c.comment
  fields := (resolveFields project c).map rustField
  totalSize := (resolvedClassSize project ∅ c).size

def rustGenerate : String :=
  let out := "// Generated by nemclass-rs\n#![allow(non_camel_case_types, dead_code)]\n\n" ++
    String.join (project.enums.map rustEnum) ++
    String.join (project.classesInOrder.map fun c => (rustStruct project c).text)
  String.ofList (trimBlankLines out.toList)

end Generate

end Nemclass.Codegen
