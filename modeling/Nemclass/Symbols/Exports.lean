import Nemclass.Lib.Guarded
import Nemclass.Lib.Utf8
import Nemclass.Scan.Target
import Nemclass.Scan.ValueType

/-! The exported symbols of a mapped image, PE or ELF. Every structure of the image is
read from a reader that may answer anything, whatever it answered before.

Addresses are added by `add`, which checks the sum. All other arithmetic of the parsers
is on machine words and not checked there: an operation that leaves the range of a
`usize` ends the run with `overflow` here. -/
namespace Nemclass.Symbols
open Scan Usize Guarded

structure Symbol where
  name : String
  address : ℕ
deriving DecidableEq

inductive Fault where
  | error (e : Error)
  | overflow
deriving DecidableEq

/-- `symbols::Read`: how many bytes a read gives, and which, is up to the reader. -/
abbrev Reader (σ : Type) := σ → (addr len : ℕ) → Except Error (Transfer len) × σ

abbrev Parser (σ : Type) := Program σ Fault

def fail {σ α : Type} (e : Error) : Parser σ α := throw (.error e)

/-- An unchecked sum or product, which has to fit a word. -/
def noOverflow {σ : Type} (n : ℕ) : Parser σ Unit := if n ≤ usizeMax then pure () else throw .overflow

/-- An unchecked difference, which must not be negative. -/
def noUnderflow {σ : Type} (a b : ℕ) : Parser σ Unit := if b ≤ a then pure () else throw .overflow

/-- The checked sum of a base and an offset. -/
def add {σ : Type} (base offset : ℕ) : Parser σ ℕ :=
  match checkedAdd base offset with
  | some sum => pure sum
  | none => fail .invalidAddress

section Reading
variable {σ : Type} (read : Reader σ)

def fetch (addr len : ℕ) : Parser σ (Transfer len) := ExceptT.mk fun s =>
  match read s addr len with
  | (.ok bytes, s) => (.ok bytes, s)
  | (.error e, s) => (.error (.error e), s)

def readExact (addr len : ℕ) : Parser σ (Transfer len) := do
  let buf ← fetch read addr len
  if buf.val.length = len then pure buf else fail (.partialTransfer len buf.val.length)

/-- A little-endian number of `width` bytes. -/
def readUint (width addr : ℕ) : Parser σ ℕ := do
  let bytes ← readExact read addr width
  pure (leBytes bytes.val)

def readU16 (addr : ℕ) : Parser σ ℕ := readUint read 2 addr

def readU32 (addr : ℕ) : Parser σ ℕ := readUint read 4 addr

def readU64 (addr : ℕ) : Parser σ ℕ := readUint read 8 addr

def fromUtf8 (out : List UInt8) : Parser σ String :=
  match Utf8.decode out with
  | some text => pure text
  | none => fail .invalidString

def maxName : ℕ := 4096

def nameChunk : ℕ := 64

/-- The text at `addr` up to its first zero byte, of which `out` has been read. -/
def readCstr (addr offset : ℕ) (out : List UInt8) : Parser σ String :=
  if out.length < maxName then do
    noUnderflow maxName out.length
    let start ← add addr offset
    let got ← fetch read start (min nameChunk (maxName - out.length))
    if _hempty : got.val = [] then fromUtf8 out
    else if 0 ∈ got.val then fromUtf8 (out ++ got.val.takeWhile (· ≠ 0))
    else do
      noOverflow (offset + got.val.length)
      readCstr addr (offset + got.val.length) (out ++ got.val)
  else fromUtf8 out
termination_by maxName - out.length
decreasing_by
  have := List.length_pos_iff.mpr _hempty
  rw [List.length_append]
  omega

end Reading

section Pe
variable {σ : Type} (read : Reader σ) (moduleBase : ℕ)

def imageDirectoryEntryExport : ℕ := 0
def dataDirectoryOffsetPe32 : ℕ := 96
def dataDirectoryOffsetPe64 : ℕ := 112

/-- Where the data directories are, in a PE32+ and in a PE32 image. -/
def dataDirectoryOffset (magic : ℕ) : Parser σ ℕ :=
  if magic = 0x20b then pure dataDirectoryOffsetPe64
  else if magic = 0x10b then pure dataDirectoryOffsetPe32
  else fail .invalidString

/-- `IMAGE_EXPORT_DIRECTORY`: how many entries its arrays have, and where they are. -/
structure ExportDirectory where
  rva : ℕ
  stop : ℕ
  numberOfFunctions : ℕ
  numberOfNames : ℕ
  functions : ℕ
  names : ℕ
  ordinals : ℕ
deriving DecidableEq

/-- The headers down to the export directory; many images have none. -/
def peExportDirectory : Parser σ (Option ExportDirectory) := do
  let mz ← readExact read moduleBase 2
  if mz.val ≠ [0x4D, 0x5A] then fail .invalidString
  else do
    let e_lfanew ← readU32 read (← add moduleBase 0x3C)
    let nt ← add moduleBase e_lfanew
    let peSig ← readExact read nt 4
    if peSig.val ≠ [0x50, 0x45, 0, 0] then fail .invalidString
    else do
      let opt ← add nt (4 + 20)
      let magic ← readU16 read opt
      let ddOffset ← dataDirectoryOffset magic
      noOverflow (ddOffset + imageDirectoryEntryExport * 8)
      let exportEntry ← add opt (ddOffset + imageDirectoryEntryExport * 8)
      let exportRva ← readU32 read exportEntry
      let exportSize ← readU32 read (← add exportEntry 4)
      if exportRva = 0 ∨ exportSize = 0 then pure none
      else do
        let exportDir ← add moduleBase exportRva
        let numberOfFunctions ← readU32 read (← add exportDir 0x14)
        let numberOfNames ← readU32 read (← add exportDir 0x18)
        let functionsRva ← readU32 read (← add exportDir 0x1C)
        let namesRva ← readU32 read (← add exportDir 0x20)
        let ordinalsRva ← readU32 read (← add exportDir 0x24)
        let functions ← add moduleBase functionsRva
        let names ← add moduleBase namesRva
        let ordinals ← add moduleBase ordinalsRva
        let forwarderEnd ← add exportRva exportSize
        pure (some ⟨exportRva, forwarderEnd, numberOfFunctions, numberOfNames, functions, names,
          ordinals⟩)

/-- The named export `i`, unless its slot is unused or names another library's symbol. -/
def peExport (dir : ExportDirectory) (i : ℕ) (out : List Symbol) : Parser σ (List Symbol × Bool) := do
  noOverflow (i * 4)
  let nameRva ← readU32 read (← add dir.names (i * 4))
  let name ← readCstr read (← add moduleBase nameRva) 0 []
  noOverflow (i * 2)
  let ordinal ← readU16 read (← add dir.ordinals (i * 2))
  if dir.numberOfFunctions ≤ ordinal then fail .invalidAddress
  else do
    noOverflow (ordinal * 4)
    let funcRva ← readU32 read (← add dir.functions (ordinal * 4))
    if dir.rva ≤ funcRva ∧ funcRva < dir.stop ∨ funcRva = 0 then pure (out, true)
    else do
      let address ← add moduleBase funcRva
      pure (out ++ [⟨name, address⟩], true)

def peExports : Parser σ (List Symbol) := do
  match ← peExportDirectory read moduleBase with
  | none => pure []
  | some dir => loop (peExport read moduleBase dir) dir.numberOfNames 0 []

end Pe

section Elf
variable {σ : Type} (read : Reader σ) (moduleBase : ℕ)

def ptDynamic : ℕ := 2
def dtNull : ℕ := 0
def dtHash : ℕ := 4
def dtStrtab : ℕ := 5
def dtSymtab : ℕ := 6
def dtGnuHash : ℕ := 0x6ffffef5
def stbGlobal : ℕ := 1
def stbWeak : ℕ := 2
def shnUndef : ℕ := 0

/-- The dynamic array's entries that the symbol table is found by, as the array has them. -/
structure DynamicTags where
  symtab : Option ℕ
  strtab : Option ℕ
  hash : Option ℕ
  gnuHash : Option ℕ

/-- Where the symbols and their names are, and the tables that tell how many there are. -/
structure DynamicTables where
  symtab : ℕ
  strtab : ℕ
  hash : Option ℕ
  gnuHash : Option ℕ

/-- Program header `i`: whether it is the dynamic segment, and where that is. -/
def elfProgramHeader (phdrTable e_phentsize i : ℕ) (dynVaddr : Option ℕ) :
    Parser σ (Option ℕ × Bool) := do
  noOverflow (i * e_phentsize)
  let ph ← add phdrTable (i * e_phentsize)
  let p_type ← readU32 read ph
  if p_type = ptDynamic then do
    let vaddr ← readU64 read (← add ph 16)
    pure (some vaddr, false)
  else pure (dynVaddr, true)

/-- Entry `i` of the dynamic array. -/
def elfDynamicEntry (dynamic i : ℕ) (tags : DynamicTags) : Parser σ (DynamicTags × Bool) := do
  noOverflow (i * 16)
  let ent ← add dynamic (i * 16)
  let tag ← readU64 read ent
  let val ← readU64 read (← add ent 8)
  if tag = dtNull then pure (tags, false)
  else if tag = dtSymtab then pure ({ tags with symtab := some val }, true)
  else if tag = dtStrtab then pure ({ tags with strtab := some val }, true)
  else if tag = dtHash then pure ({ tags with hash := some val }, true)
  else if tag = dtGnuHash then pure ({ tags with gnuHash := some val }, true)
  else pure (tags, true)

/-- The headers and the dynamic array; a static object has none. -/
def elfDynamicTables : Parser σ (Option DynamicTables) := do
  let ident ← readExact read moduleBase 16
  if ident.val.take 4 ≠ [0x7F, 0x45, 0x4C, 0x46] then fail .invalidString
  else if ident.val[4]? ≠ some 2 ∨ ident.val[5]? ≠ some 1 then fail .invalidString
  else do
    let e_phoff ← readU64 read (← add moduleBase 0x20)
    let e_phentsize ← readU16 read (← add moduleBase 0x36)
    let e_phnum ← readU16 read (← add moduleBase 0x38)
    if e_phoff = 0 ∨ e_phentsize < 56 then fail .invalidString
    else do
      let phdrTable ← add moduleBase e_phoff
      match ← loop (elfProgramHeader read phdrTable e_phentsize) e_phnum 0 none with
      | none => pure none
      | some dynVaddr => do
        let dynamic ← add moduleBase dynVaddr
        let tags ← loop (elfDynamicEntry read dynamic) 4096 0 ⟨none, none, none, none⟩
        match tags.symtab, tags.strtab with
        | some symtab, some strtab => do
          let symtab ← add moduleBase symtab
          let strtab ← add moduleBase strtab
          pure (some ⟨symtab, strtab, tags.hash, tags.gnuHash⟩)
        | _, _ => pure none

/-- The chain of the last bucket, from a symbol on to the chain's end. -/
def gnuHashChain (chains symoffset lastSymbol : ℕ) : Parser σ ℕ := do
  noUnderflow lastSymbol symoffset
  noOverflow ((lastSymbol - symoffset) * 4)
  let word ← readU32 read (← add chains ((lastSymbol - symoffset) * 4))
  if word % 2 = 1 then pure lastSymbol
  else do
    noOverflow (lastSymbol + 1)
    noOverflow (symoffset + 1000000)
    if _hbound : symoffset + 1000000 < lastSymbol + 1 then pure (lastSymbol + 1)
    else gnuHashChain chains symoffset (lastSymbol + 1)
termination_by symoffset + 1000000 - lastSymbol

def gnuHashBucket (buckets i lastSymbol : ℕ) : Parser σ (ℕ × Bool) := do
  noOverflow (i * 4)
  let bucket ← readU32 read (← add buckets (i * 4))
  pure (max lastSymbol bucket, true)

/-- How many symbols the hash table reaches. -/
def gnuHashSymbolCount (gnuHash : ℕ) : Parser σ ℕ := do
  let nbuckets ← readU32 read gnuHash
  let symoffset ← readU32 read (← add gnuHash 4)
  let bloomSize ← readU32 read (← add gnuHash 8)
  if nbuckets = 0 then pure symoffset
  else do
    noOverflow (16 + bloomSize * 8)
    let buckets ← add gnuHash (16 + bloomSize * 8)
    noOverflow (nbuckets * 4)
    let chains ← add buckets (nbuckets * 4)
    let lastSymbol ← loop (gnuHashBucket read buckets) nbuckets 0 0
    if lastSymbol < symoffset then pure symoffset
    else do
      let lastSymbol ← gnuHashChain read chains symoffset lastSymbol
      noOverflow (lastSymbol + 1)
      pure (lastSymbol + 1)

/-- How many symbols there are; without a hash table this is not known. -/
def elfSymbolCount (tables : DynamicTables) : Parser σ (Option ℕ) := do
  match tables.hash, tables.gnuHash with
  | some hash, _ => do
    noOverflow (hash + 4)
    let count ← readU32 read (← add moduleBase (hash + 4))
    pure (some count)
  | none, some gnuHash => do
    let count ← gnuHashSymbolCount read (← add moduleBase gnuHash)
    pure (some count)
  | none, none => pure none

/-- Symbol `i` of the table, where it is exported, defined and named. -/
def elfSymbol (tables : DynamicTables) (i : ℕ) (out : List Symbol) :
    Parser σ (List Symbol × Bool) := do
  noOverflow (i * 24)
  let sym ← add tables.symtab (i * 24)
  let st_name ← readU32 read sym
  let st_info ← readUint read 1 (← add sym 4)
  let st_shndx ← readU16 read (← add sym 6)
  let st_value ← readU64 read (← add sym 8)
  let bind := st_info / 16
  if ¬ (bind = stbGlobal ∨ bind = stbWeak) ∨ st_shndx = shnUndef ∨ st_value = 0 ∨ st_name = 0 then
    pure (out, true)
  else do
    let name ← readCstr read (← add tables.strtab st_name) 0 []
    if name = "" then pure (out, true)
    else do
      let address ← add moduleBase st_value
      pure (out ++ [⟨name, address⟩], true)

/-- The symbols that the tables name. -/
def elfSymbols (tables : DynamicTables) : Parser σ (List Symbol) := do
  match ← elfSymbolCount read moduleBase tables with
  | none => pure []
  | some count => loop (elfSymbol read moduleBase tables) count 0 []

def elfExports : Parser σ (List Symbol) := do
  match ← elfDynamicTables read moduleBase with
  | none => pure []
  | some tables => elfSymbols read moduleBase tables

end Elf

end Nemclass.Symbols
