import Mathlib.Data.Nat.Basic

/-! Text shared by the code generators: identifiers and numbers. -/
namespace Nemclass.Codegen

/-- Which characters are letters or numbers; on ASCII this is as usual. -/
class UnicodeTables where
  isAlphanumeric : Char → Bool
  isAlphanumeric_ascii : ∀ c : Char, c.toNat < 128 → isAlphanumeric c = c.isAlphanum

/-- Replaces what may not stand in an identifier. -/
def sanitizeIdent [tables : UnicodeTables] (name : String) : String :=
  if name.isEmpty then "_unnamed"
  else
    let out := name.toList.map fun c => if tables.isAlphanumeric c || c == '_' then c else '_'
    String.ofList (if out.head?.any Char.isDigit then '_' :: out else out)

/-- Upper-case hexadecimal, padded with zeros to a width. -/
def hexUpper (width n : ℕ) : String :=
  let ds := (Nat.toDigits 16 n).map Char.toUpper
  String.ofList (List.replicate (width - ds.length) '0' ++ ds)

/-- A comment set off by a blank, when there is one. -/
def spaced (comment : String) : String := if comment.isEmpty then "" else " " ++ comment

end Nemclass.Codegen
