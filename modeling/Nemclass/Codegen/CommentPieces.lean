import Nemclass.Lib.CommentSlots
import Nemclass.Codegen.CSharp
import Nemclass.Codegen.Uncommented

/-! The generated sources as pieces with comments spliced in: a start, for each class
a head, a piece for each field and an end, and what closes the source. -/
namespace Nemclass.Codegen
open Model LineComments

inductive Language where
  | cpp
  | csharp
  | rust
deriving DecidableEq, Repr

section Pieces

def CppField.piece (f : CppField) : Piece :=
  .spliced
    ⟨("    " ++ f.type.text ++ " " ++ f.name ++
        String.join (f.dims.map fun n => "[" ++ toString n ++ "]") ++ ";").toList ++
      ' ' :: '/' :: '/' :: ("0x" ++ hexUpper 4 f.offset).toList, [' '], ['\n']⟩
    f.comment.toList

def RustField.piece (f : RustField) : Piece :=
  .spliced
    ⟨("    pub " ++ f.name ++ ": " ++ f.type.text ++ ",").toList ++
      ' ' :: '/' :: '/' :: (" 0x" ++ hexUpper 4 f.offset).toList, [' '], ['\n']⟩
    f.comment.toList

def CSharpField.piece (f : CSharpField) : Piece :=
  .spliced ⟨f.declaration.toList, [' ', '/', '/'], f.remark.toList ++ ['\n']⟩ f.comment.toList

def fieldPiece : Language → FieldInfo → Piece
  | .cpp, f => (cppField f).piece
  | .csharp, f => (csharpField f).piece
  | .rust, f => (rustField f).piece

/-- The head of a class up to its comment. -/
def headStart : Language → String → String
  | .cpp, name => "class " ++ name
  | .csharp, name =>
    "[StructLayout(LayoutKind.Explicit, CharSet = CharSet.Ansi)]\npublic struct " ++ name
  | .rust, name => "#[repr(C)]\npub struct " ++ name

/-- The head of a class behind its comment; in Rust that is on the same line. -/
def headEnd : Language → String
  | .cpp => "\n\x7b\npublic:\n"
  | .csharp => "\n\x7b\n"
  | .rust => " \x7b\n"

def headSlot (language : Language) (name : String) : Slot :=
  ⟨(headStart language name).toList, " // ".toList, (headEnd language).toList⟩

def classEnd : Language → String → ℕ → String
  | .cpp, name, size => (CppItem.classEnd name size).text
  | .csharp, _, _ => "\x7d\n\n"
  | .rust, name, size =>
    "\x7d\n\n" ++ ("const _: () = assert!(std::mem::size_of::<" ++ (name ++ (">() == 0x" ++
      (hexUpper 1 size ++ ");\n\n"))))

def sourceEnd : Language → List Piece
  | .cpp => [.fixed "#pragma pack(pop)\n".toList]
  | .csharp | .rust => []

section Project
variable [UuidText] [UnicodeTables] (language : Language) (project : Project)

def generate : String :=
  match language with
  | .cpp => cppGenerate project
  | .csharp => csharpGenerate project
  | .rust => rustGenerate project

def cppStart : String :=
  "// Generated by nemclass-rs\n#pragma once\n#include <cstdint>\n#include <cassert>\n\n" ++
    String.join (project.enums.map cppEnum) ++ "#pragma pack(push, 1)\n\n"

def csharpStart : String :=
  "// Generated by nemclass-rs\n" ++
    "// Warning: The C# code generator doesn't support all node types!\n\n" ++
    "using System.Runtime.InteropServices;\n\n" ++ String.join (project.enums.map csharpEnum)

def rustStart : String :=
  "// Generated by nemclass-rs\n#![allow(non_camel_case_types, dead_code)]\n\n" ++
    String.join (project.enums.map rustEnum)

/-- The preamble and the enums. -/
def sourceStart : String :=
  match language with
  | .cpp => cppStart project
  | .csharp => csharpStart project
  | .rust => rustStart project

def classPieces (c : ClassNode) : List Piece :=
  .spliced (headSlot language (sanitizeIdent c.name)) c.comment.toList ::
    ((resolveFields project c).map (fieldPiece language) ++
      [.fixed (classEnd language (sanitizeIdent c.name)
        (resolvedClassSize project ∅ c).size).toList])

def sourcePieces : List Piece :=
  .fixed (sourceStart language project).toList ::
    (project.classesInOrder.flatMap (classPieces language project) ++ sourceEnd language)

end Project

theorem fill_toList (before opener after comment : String) :
    Slot.fill ⟨before.toList, opener.toList, after.toList⟩ comment.toList =
      (before ++ (if comment.isEmpty then "" else opener ++ comment) ++ after).toList := by
  by_cases h : comment = ""
  · simp [h, Slot.fill]
  · have hne : comment.toList ≠ [] := by simpa using h
    have hempty : comment.isEmpty = false := by simpa using h
    simp [Slot.fill_of_ne hne, hempty]

theorem CppField.piece_text (f : CppField) : f.piece.text = f.text.toList := by
  have hfill := fill_toList ("    " ++ f.type.text ++ " " ++ f.name ++
    String.join (f.dims.map fun n => "[" ++ toString n ++ "]") ++ "; //0x" ++ hexUpper 4 f.offset)
    " " "\n" f.comment
  rw [CppField.text, spaced, ← hfill]
  simp [piece, Piece.text]

theorem RustField.piece_text (f : RustField) : f.piece.text = f.text.toList := by
  have hfill := fill_toList ("    pub " ++ f.name ++ ": " ++ f.type.text ++ ", // 0x" ++
    hexUpper 4 f.offset) " " "\n" f.comment
  rw [RustField.text, spaced, ← hfill]
  simp [piece, Piece.text]

theorem CSharpField.piece_text (f : CSharpField) : f.piece.text = f.text.toList := by
  have hfill := fill_toList f.declaration " //" (f.remark ++ "\n") f.comment
  rw [String.append_assoc] at hfill
  simpa [piece, Piece.text, CSharpField.text, String.append_assoc] using hfill

def fieldText : Language → FieldInfo → String
  | .cpp, f => (cppField f).text
  | .csharp, f => (csharpField f).text
  | .rust, f => (rustField f).text

theorem fieldPiece_text (language : Language) (f : FieldInfo) :
    (fieldPiece language f).text = (fieldText language f).toList := by
  cases language with
  | cpp => exact (cppField f).piece_text
  | csharp => exact (csharpField f).piece_text
  | rust => exact (rustField f).piece_text

section Project
variable [UuidText] [UnicodeTables] (language : Language) (project : Project)

/-- What a generator writes for a class. -/
def classText (c : ClassNode) : String :=
  headStart language (sanitizeIdent c.name) ++
      (if c.comment.isEmpty then "" else " // " ++ c.comment) ++ headEnd language ++
    String.join ((resolveFields project c).map (fieldText language)) ++
    classEnd language (sanitizeIdent c.name) (resolvedClassSize project ∅ c).size

theorem classPieces_text (c : ClassNode) :
    piecesText (classPieces language project c) = (classText language project c).toList := by
  have hhead : (Piece.spliced (headSlot language (sanitizeIdent c.name))
      c.comment.toList).text = _ :=
    fill_toList (headStart language (sanitizeIdent c.name)) " // " (headEnd language) c.comment
  simp only [piecesText, classPieces, List.flatMap_cons, hhead, List.flatMap_append,
    List.flatMap_map, fieldPiece_text, List.flatMap_nil, Piece.text_fixed, classText,
    String.toList_append, String.toList_join, List.append_assoc, List.append_nil]

theorem cppClass_text (c : ClassNode) :
    (cppClass project c).items.flatMap (fun item => item.text.toList) =
      (classText .cpp project c).toList := by
  have hfields : (((resolveFields project c).map cppField).map CppItem.field).flatMap
      (fun item => item.text.toList) =
        (String.join ((resolveFields project c).map (fieldText .cpp))).toList := by
    simp only [List.flatMap_map, String.toList_join]
    exact rfl
  rw [CppClass.items, List.flatMap_cons, List.flatMap_append, List.flatMap_singleton, classText,
    String.toList_append, String.toList_append, List.append_assoc, ← hfields]
  exact rfl

theorem csharpStruct_text (c : ClassNode) :
    (csharpStruct project c).text = classText .csharp project c := by
  have hfields : ((resolveFields project c).map csharpField).map CSharpField.text =
      (resolveFields project c).map (fieldText .csharp) := List.map_map
  rw [classText, ← hfields]
  exact rfl

theorem rustStruct_text (c : ClassNode) :
    (rustStruct project c).text = classText .rust project c := by
  have hfields : ((resolveFields project c).map rustField).map RustField.text =
      (resolveFields project c).map (fieldText .rust) := List.map_map
  rw [classText, ← hfields, classEnd, ← String.append_assoc, ← String.append_assoc,
    ← String.append_assoc, ← String.append_assoc, ← String.append_assoc]
  exact rfl

/-- A source, without the blank lines at its end. -/
theorem sourcePieces_text : piecesText (sourcePieces language project) =
    (sourceStart language project ++
      String.join (project.classesInOrder.map (classText language project))).toList ++
    piecesText (sourceEnd language) := by
  have hclasses : (fun c => (classPieces language project c).flatMap Piece.text) =
      fun c => (classText language project c).toList := funext (classPieces_text language project)
  simp only [piecesText, sourcePieces, List.flatMap_cons, List.flatMap_append, List.flatMap_assoc,
    hclasses, Piece.text_fixed, String.toList_append, String.toList_join, List.flatMap_map,
    List.append_assoc]

theorem cppGenerate_toList :
    (cppGenerate project).toList = piecesText (sourcePieces .cpp project) := by
  have hitems : (String.join ((cppItems project).map CppItem.text)).toList =
      (String.join (project.classesInOrder.map (classText .cpp project))).toList := by
    simp only [String.toList_join, cppItems, List.flatMap_map, List.flatMap_assoc, cppClass_text]
  rw [sourcePieces_text, String.toList_append, ← hitems, ← String.toList_append]
  exact String.toList_append

theorem csharpGenerate_toList : (csharpGenerate project).toList =
    trimBlankLines (piecesText (sourcePieces .csharp project)) := by
  have hclasses : (fun c => (csharpStruct project c).text) = classText .csharp project :=
    funext (csharpStruct_text project)
  rw [csharpGenerate, String.toList_ofList, hclasses, sourcePieces_text]
  exact congrArg trimBlankLines (List.append_nil _).symm

theorem rustGenerate_toList : (rustGenerate project).toList =
    trimBlankLines (piecesText (sourcePieces .rust project)) := by
  have hclasses : (fun c => (rustStruct project c).text) = classText .rust project :=
    funext (rustStruct_text project)
  rw [rustGenerate, String.toList_ofList, hclasses, sourcePieces_text]
  exact congrArg trimBlankLines (List.append_nil _).symm

end Project

end Pieces

end Nemclass.Codegen
