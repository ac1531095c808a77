import Nemclass.Kernel.EnumRegions
import Nemclass.Lib.FirstSeen
import Nemclass.Lib.Utf8
import Nemclass.Scan.IntText

/-! The `/proc` maps parsers: each line of the text as a section, and the mappings of
one file together as a module. The pathname is what a line has from its first slash on. -/
namespace Nemclass.Process
open Scan Kernel FirstSeen

section Text

/-- A carriage return in front of a newline belongs to the line end. -/
def stripReturn (line : List Char) : List Char :=
  if line.getLast? = some '\r' then line.dropLast else line

/-- `str::lines`, behind the characters of the line that has begun. -/
def linesFrom (line : List Char) : List Char → List (List Char)
  | [] => if line = [] then [] else [line]
  | c :: cs =>
    if c = '\n' then stripReturn line :: linesFrom [] cs else linesFrom (line ++ [c]) cs

def lines (text : List Char) : List (List Char) := linesFrom [] text

/-- `str::split_whitespace` -/
def splitWhitespace (s : List Char) : List (List Char) :=
  (s.splitOnP isWhitespace).filter (!·.isEmpty)

/-- `str::split_once` -/
def splitOnce (c : Char) (s : List Char) : Option (List Char × List Char) :=
  if c ∈ s then some (s.takeWhile (· ≠ c), (s.dropWhile (· ≠ c)).tail) else none

/-- `str::trim_end` -/
def trimEnd (s : List Char) : List Char := s.rdropWhile isWhitespace

/-- `usize::from_str_radix`, in base 16. -/
def hexUsize (s : List Char) : Option ℕ := (fromStrRadix false 8 16 s).toOption.map Int.toNat

/-- The text up to a byte; slicing inside of a character panics. -/
def sliceTo : ℕ → List Char → Option (List Char)
  | 0, _ => some []
  | _ + 1, [] => none
  | n + 1, c :: cs =>
    if c.utf8Size ≤ n + 1 then (sliceTo (n + 1 - c.utf8Size) cs).map (c :: ·) else none
termination_by structural _ s => s

end Text

/-- `Protection::parse` -/
def parseProtection (s : List Char) : UInt8 :=
  let b := Utf8.encode s
  (if b[0]? = some 0x72 then protR else 0) ||| (if b[1]? = some 0x77 then protW else 0) |||
    (if b[2]? = some 0x78 then protX else 0)

def protWrite (prot : UInt8) : Bool := prot &&& protW = protW

inductive SectionType where
  | image
  | mapped
  /-- `Private` -/
  | privateMemory
  | unknown
deriving DecidableEq, Repr

structure Section where
  base : ℕ
  size : ℕ
  prot : UInt8
  kind : SectionType
  module : Option (List Char)
deriving DecidableEq, Repr

structure RawModule where
  name : List Char
  base : ℕ
  stop : ℕ
deriving DecidableEq, Repr

/-- The column of the address range. -/
def addressRange (field : Option (List Char)) : Option (ℕ × ℕ) := do
  let (start, stop) ← field.bind (splitOnce '-')
  pure (← hexUsize start, ← hexUsize stop)

/-- A trailing `(deleted)` and the blanks in front of it. -/
def stripDeleted (path : List Char) : List Char :=
  (path.dropSuffix? "(deleted)".toList).elim path trimEnd

/-- What is behind the last slash, when there is something. -/
def fileName (path : List Char) : Option (List Char) :=
  some (path.rtakeWhile (· ≠ '/')) |>.filter (!·.isEmpty)

/-- What is kept of a file's mappings. -/
structure Acc where
  name : List Char
  imageBase : Option ℕ
  lowest : ℕ
  stop : ℕ

structure FileMapping where
  path : List Char
  name : List Char
  start : ℕ
  stop : ℕ
  offset : ℕ

def FileMapping.acc (m : FileMapping) : Acc := ⟨m.name, none, m.start, m.stop⟩

def FileMapping.extend (m : FileMapping) (a : Acc) : Acc where
  name := a.name
  imageBase := if m.offset = 0 ∧ a.imageBase = none then some m.start else a.imageBase
  lowest := min a.lowest m.start
  stop := max a.stop m.stop

def Acc.rawModule (a : Acc) : RawModule := ⟨a.name, a.imageBase.getD a.lowest, a.stop⟩

/-- One line of the loop; lines without a file give nothing. -/
def fileMapping (line : List Char) : Option FileMapping := do
  let rest := line.dropWhile (· ≠ '/')
  guard (rest ≠ [])
  let path := stripDeleted (trimEnd rest)
  let name ← fileName path
  let fields := splitWhitespace (line.takeWhile (· ≠ '/'))
  let (start, stop) ← addressRange fields[0]?
  pure ⟨path, name, start, stop, (fields[2]?.bind hexUsize).getD 0⟩

/-- The entries of the paths, and the paths in the order in which they were first seen. -/
def mergeLine (acc : Table (List Char) Acc) (line : List Char) : Table (List Char) Acc :=
  match fileMapping line with
  | some m => acc.put m.path m.acc m.extend
  | none => acc

def parseMapsModules (maps : List Char) : List RawModule :=
  ((lines maps).foldl mergeLine .empty).values.map Acc.rawModule

/-- One line of the loop; `none` where the slice panics, nothing without a range. -/
def mappingSection (line : List Char) : Option (Option Section) :=
  let path := line.dropWhile (· ≠ '/')
  let fields := splitWhitespace (line.takeWhile (· ≠ '/'))
  match addressRange fields[0]? with
  | none => some none
  | some (start, stop) => do
    let perms := fields[1]?.getD "----".toList
    let prot := parseProtection (← sliceTo (min (Utf8.encode perms).length 3) perms)
    let shared := (Utf8.encode perms)[3]? = some 0x73
    let (kind, module) :=
      if shared then (SectionType.mapped, none)
      else if path ≠ [] then (.image, fileName (stripDeleted (trimEnd path)))
      else (.privateMemory, none)
    let prot := if ¬shared ∧ kind = .image ∧ protWrite prot then prot ||| protCow else prot
    pure (some ⟨start, stop - start, prot, kind, module⟩)

def parseMapsSections (maps : List Char) : Option (List Section) :=
  ((lines maps).mapM mappingSection).map List.reduceOption

end Nemclass.Process
