import Nemclass.Symbols.ExportsOverflow
import Nemclass.Symbols.Image

/-! A well-formed ELF image in memory, as its format has it: headers, the dynamic array, the symbol
table, each a structure over the bytes at its address. Link-time addresses are moved by the load
bias, the difference between where the image is and its lowest loaded segment. The parser moves
them by where the image is. -/
namespace Nemclass.Symbols
open Scan Usize Guarded

/-- The object types that have dynamic symbols. -/
inductive ElfType where
  | exec
  | dyn
deriving DecidableEq

/-- `e_type`. -/
def ElfType.code : ElfType → ℕ
  | exec => 2
  | dyn => 3

def ptLoad : ℕ := 1

structure Segment where
  p_type : ℕ
  p_vaddr : ℕ
deriving DecidableEq

structure DynamicEntry where
  tag : ℕ
  val : ℕ
deriving DecidableEq

structure SymbolEntry where
  st_name : ℕ
  st_info : ℕ
  st_shndx : ℕ
  st_value : ℕ
deriving DecidableEq

/-- The headers of an image at `base`: a dynamic object's lowest segment is at 0, an executable's is
where the image is. -/
structure ElfHeaders (img : Image) (base : ℕ) where
  ident : List UInt8
  type : ElfType
  phoff : ℕ
  phentsize : ℕ
  phnum : ℕ
  segment : ℕ → Segment
  lowest : ℕ
  dynamic : ℕ
  ident_read : img.bytes base 16 = some ident
  magic : ident.take 4 = [0x7F, 0x45, 0x4C, 0x46]
  class64 : ident[4]? = some 2
  little : ident[5]? = some 1
  type_read : img.uint 2 (base + 0x10) = some type.code
  phoff_read : img.uint 8 (base + 0x20) = some phoff
  phentsize_read : img.uint 2 (base + 0x36) = some phentsize
  phnum_read : img.uint 2 (base + 0x38) = some phnum
  phoff_pos : 0 < phoff
  phentsize_ge : 56 ≤ phentsize
  type_at : ∀ i < phnum, img.uint 4 (base + phoff + i * phentsize) = some (segment i).p_type
  vaddr_at : ∀ i < phnum, img.uint 8 (base + phoff + i * phentsize + 16) = some (segment i).p_vaddr
  lowest_least : IsLeast {vaddr | ∃ i < phnum, (segment i).p_type = ptLoad ∧
    (segment i).p_vaddr = vaddr} lowest
  mapped : lowest = match type with
    | .exec => base
    | .dyn => 0
  dynamic_lt : dynamic < phnum
  dynamic_type : ∀ i < phnum, (segment i).p_type = ptDynamic ↔ i = dynamic

/-- Between link-time addresses and those in memory. -/
def ElfHeaders.bias {img : Image} {base : ℕ} (headers : ElfHeaders img base) : ℕ :=
  base - headers.lowest

def ElfHeaders.dynamicVaddr {img : Image} {base : ℕ} (headers : ElfHeaders img base) : ℕ :=
  (headers.segment headers.dynamic).p_vaddr

/-- The dynamic array at an address: one symbol table, one string table and one hash table, then the
end. -/
structure DynamicArray (img : Image) (addr : ℕ) where
  entry : ℕ → DynamicEntry
  stop : ℕ
  symtabAt : ℕ
  strtabAt : ℕ
  hashAt : ℕ
  tag_at : ∀ i ≤ stop, img.uint 8 (addr + i * 16) = some (entry i).tag
  val_at : ∀ i ≤ stop, img.uint 8 (addr + i * 16 + 8) = some (entry i).val
  stop_iff : ∀ i ≤ stop, (entry i).tag = dtNull ↔ i = stop
  symtab_iff : ∀ i < stop, (entry i).tag = dtSymtab ↔ i = symtabAt
  strtab_iff : ∀ i < stop, (entry i).tag = dtStrtab ↔ i = strtabAt
  hash_iff : ∀ i < stop, (entry i).tag = dtHash ↔ i = hashAt
  symtab_lt : symtabAt < stop
  strtab_lt : strtabAt < stop
  hash_lt : hashAt < stop

namespace DynamicArray
variable {img : Image} {addr : ℕ} (array : DynamicArray img addr)

def symtab : ℕ := (array.entry array.symtabAt).val

def strtab : ℕ := (array.entry array.strtabAt).val

def hash : ℕ := (array.entry array.hashAt).val

end DynamicArray

/-- An exported symbol is bound globally or weakly, defined, and has a value. -/
def SymbolEntry.Exported (sym : SymbolEntry) : Prop :=
  (sym.st_info / 16 = stbGlobal ∨ sym.st_info / 16 = stbWeak) ∧ sym.st_shndx ≠ shnUndef ∧
    sym.st_value ≠ 0

instance (sym : SymbolEntry) : Decidable sym.Exported :=
  inferInstanceAs (Decidable ((_ ∨ _) ∧ _ ∧ _))

/-- The symbol table of as many symbols as the hash table has chain entries, with the exported
symbols' names in the string table. -/
structure SymbolTable (img : Image) (bias symtab strtab hash : ℕ) where
  nchain : ℕ
  symbol : ℕ → SymbolEntry
  name : ℕ → String
  symtab_le : symtab ≤ usizeMax
  nchain_read : img.uint 4 (hash + 4) = some nchain
  name_at : ∀ i < nchain, img.uint 4 (symtab + i * 24) = some (symbol i).st_name
  info_at : ∀ i < nchain, img.uint 1 (symtab + i * 24 + 4) = some (symbol i).st_info
  shndx_at : ∀ i < nchain, img.uint 2 (symtab + i * 24 + 6) = some (symbol i).st_shndx
  value_at : ∀ i < nchain, img.uint 8 (symtab + i * 24 + 8) = some (symbol i).st_value
  empty_name : img.Text strtab []
  text : ∀ i < nchain, (symbol i).Exported →
    img.Text (strtab + (symbol i).st_name) (Utf8.bytes (name i))
  length_le : ∀ i < nchain, (symbol i).Exported → (Utf8.bytes (name i)).length ≤ 4096
  placed : ∀ i < nchain, (symbol i).Exported → bias + (symbol i).st_value ≤ usizeMax

/-- A well-formed image: its tables are where the headers say, moved by the bias. -/
structure ElfImage (img : Image) (base : ℕ) where
  headers : ElfHeaders img base
  array : DynamicArray img (headers.bias + headers.dynamicVaddr)
  table : SymbolTable img headers.bias (headers.bias + array.symtab) (headers.bias + array.strtab)
    (headers.bias + array.hash)

namespace SymbolTable
variable {img : Image} {bias symtab strtab hash : ℕ} (table : SymbolTable img bias symtab strtab hash)

/-- Symbol `i` where it is exported and named, at its address in memory. -/
def listed (i : ℕ) : Option Symbol :=
  if (table.symbol i).Exported ∧ table.name i ≠ "" then
    some ⟨table.name i, bias + (table.symbol i).st_value⟩
  else none

/-- The exported symbols, in the table's order. -/
def exports : List Symbol := (List.range table.nchain).filterMap table.listed

end SymbolTable

variable {σ : Type} {img : Image} {base : ℕ}

/-- The scan of the program headers ends at the dynamic segment. -/
theorem ElfHeaders.computes_segments (headers : ElfHeaders img base) :
    Computes (loop (elfProgramHeader (img.reader σ) (base + headers.phoff) headers.phentsize)
      headers.phnum 0 none) (some (some headers.dynamicVaddr)) := by
  have hskip (i : ℕ) (hi : i < headers.dynamic) : Computes (elfProgramHeader (img.reader σ)
      (base + headers.phoff) headers.phentsize i none) (some (none, true)) := by
    have hlt := hi.trans headers.dynamic_lt
    have hother : (headers.segment i).p_type ≠ ptDynamic := fun h =>
      hi.ne ((headers.dynamic_type i hlt).mp h)
    refine computes_entryAt img (by decide) (headers.type_at i hlt) ?_
    rw [if_neg hother]
    exact .pure _
  have hlast : Computes (elfProgramHeader (img.reader σ) (base + headers.phoff) headers.phentsize
      headers.dynamic none) (some (some headers.dynamicVaddr, false)) := by
    have hlt := headers.dynamic_lt
    refine computes_entryAt img (by decide) (headers.type_at _ hlt) ?_
    rw [if_pos ((headers.dynamic_type _ hlt).mpr rfl)]
    exact computes_knownAt img (by decide) (headers.vaddr_at _ hlt) (.pure _)
  refine Computes.loop_rounds (t := fun _ => none) hskip headers.dynamic_lt.le ?_
  rw [show headers.phnum - headers.dynamic = (headers.phnum - headers.dynamic - 1) + 1 by
    have := headers.dynamic_lt; omega, loop]
  exact hlast.bind (g := fun _ => some _) fun r hr => by
    cases hr
    exact .pure _

/-- The headers lead to the dynamic array, as the parser places it. -/
theorem ElfHeaders.computes_tables (headers : ElfHeaders img base) {v : Option (Option DynamicTables)}
    (h : Computes (do
      let dynamic ← add base headers.dynamicVaddr
      let tags ← loop (elfDynamicEntry (img.reader σ) dynamic) 4096 0 ⟨none, none, none, none⟩
      match tags.symtab, tags.strtab with
      | some symtab, some strtab => do
        let symtab ← add base symtab
        let strtab ← add base strtab
        pure (some ⟨symtab, strtab, tags.hash, tags.gnuHash⟩)
      | _, _ => pure none) v) :
    Computes (elfDynamicTables (img.reader σ) base) v := by
  unfold elfDynamicTables
  refine computes_exact img (by decide) headers.ident_read fun ident hident => ?_
  rw [hident, if_neg (not_not.mpr headers.magic), if_neg (by simp [headers.class64, headers.little])]
  refine computes_knownAt img (by decide) headers.phoff_read ?_
  refine computes_knownAt img (by decide) headers.phentsize_read ?_
  refine computes_knownAt img (by decide) headers.phnum_read ?_
  rw [if_neg (by have := headers.phoff_pos; have := headers.phentsize_ge; omega)]
  have hread := le_of_uint img (by decide) (headers.type_at _ headers.dynamic_lt)
  refine computes_add_of_le ((Nat.le_add_right _ _).trans hread) ?_
  refine headers.computes_segments.bind (g := fun _ => v) fun found hfound => ?_
  cases hfound
  exact h

/-- The tags with an entry noted. -/
def DynamicTags.note (t : DynamicTags) (e : DynamicEntry) : DynamicTags :=
  if e.tag = dtSymtab then { t with symtab := some e.val }
  else if e.tag = dtStrtab then { t with strtab := some e.val }
  else if e.tag = dtHash then { t with hash := some e.val }
  else if e.tag = dtGnuHash then { t with gnuHash := some e.val }
  else t

section Note
variable (t : DynamicTags) (e : DynamicEntry)

theorem DynamicTags.note_symtab :
    (t.note e).symtab = if e.tag = dtSymtab then some e.val else t.symtab := by
  unfold note
  split_ifs <;> rfl

theorem DynamicTags.note_strtab :
    (t.note e).strtab = if e.tag = dtStrtab then some e.val else t.strtab := by
  unfold note
  by_cases hsymtab : e.tag = dtSymtab
  · rw [if_pos hsymtab, hsymtab, if_neg (by decide)]
  · rw [if_neg hsymtab]
    split_ifs <;> rfl

theorem DynamicTags.note_hash : (t.note e).hash = if e.tag = dtHash then some e.val else t.hash := by
  unfold note
  by_cases hsymtab : e.tag = dtSymtab
  · rw [if_pos hsymtab, hsymtab, if_neg (by decide)]
  by_cases hstrtab : e.tag = dtStrtab
  · rw [if_neg hsymtab, if_pos hstrtab, hstrtab, if_neg (by decide)]
  · rw [if_neg hsymtab, if_neg hstrtab]
    split_ifs <;> rfl

theorem DynamicTags.note_gnuHash :
    (t.note e).gnuHash = if e.tag = dtGnuHash then some e.val else t.gnuHash := by
  unfold note
  by_cases hsymtab : e.tag = dtSymtab
  · rw [if_pos hsymtab, hsymtab, if_neg (by decide)]
  by_cases hstrtab : e.tag = dtStrtab
  · rw [if_neg hsymtab, if_pos hstrtab, hstrtab, if_neg (by decide)]
  by_cases hhash : e.tag = dtHash
  · rw [if_neg hsymtab, if_neg hstrtab, if_pos hhash, hhash, if_neg (by decide)]
  · rw [if_neg hsymtab, if_neg hstrtab, if_neg hhash]
    split_ifs <;> rfl

end Note

/-- The entries of a dynamic array, whatever its tags: up to the first null tag. -/
structure DynamicEntries (img : Image) (addr : ℕ) where
  entry : ℕ → DynamicEntry
  stop : ℕ
  tag_at : ∀ i ≤ stop, img.uint 8 (addr + i * 16) = some (entry i).tag
  val_at : ∀ i ≤ stop, img.uint 8 (addr + i * 16 + 8) = some (entry i).val
  stop_iff : ∀ i ≤ stop, (entry i).tag = dtNull ↔ i = stop

/-- What the first entries have. -/
def tagsOf (entry : ℕ → DynamicEntry) : ℕ → DynamicTags
  | 0 => ⟨none, none, none, none⟩
  | n + 1 => (tagsOf entry n).note (entry n)

/-- A tag that one entry has is noted from there on. -/
theorem tagsOf_get {entry : ℕ → DynamicEntry} {get : DynamicTags → Option ℕ} {tag place stop : ℕ}
    (hinit : get ⟨none, none, none, none⟩ = none)
    (hnote : ∀ t e, get (t.note e) = if e.tag = tag then some e.val else get t)
    (hplace : ∀ i < stop, (entry i).tag = tag ↔ i = place) {n : ℕ} (hn : n ≤ stop) :
    get (tagsOf entry n) = if place < n then some (entry place).val else none := by
  induction n with
  | zero => exact hinit
  | succ n ih =>
    rw [tagsOf, hnote, ih (Nat.le_of_succ_le hn)]
    by_cases hlast : n = place
    · rw [if_pos ((hplace n hn).mpr hlast), if_pos (by omega), hlast]
    · rw [if_neg fun htag => hlast ((hplace n hn).mp htag)]
      exact if_congr (by omega) rfl rfl

namespace DynamicEntries
variable {addr : ℕ} (entries : DynamicEntries img addr)

theorem computes_entry {i : ℕ} (hi : i ≤ entries.stop) (t : DynamicTags) :
    Computes (elfDynamicEntry (img.reader σ) addr i t)
      (some (if i = entries.stop then (t, false) else (t.note (entries.entry i), true))) := by
  refine computes_entryAt img (by decide) (entries.tag_at i hi) ?_
  refine computes_knownAt img (by decide) (entries.val_at i hi) ?_
  by_cases hstop : i = entries.stop
  · rw [if_pos ((entries.stop_iff i hi).mpr hstop), if_pos hstop]
    exact .pure _
  · rw [if_neg fun h => hstop ((entries.stop_iff i hi).mp h), if_neg hstop]
    unfold DynamicTags.note
    split_ifs <;> exact .pure _

/-- The parser notes the entries before the end, and no more than 4096 of them. -/
theorem computes_tags : Computes (loop (elfDynamicEntry (img.reader σ) addr) 4096 0
    ⟨none, none, none, none⟩) (some (tagsOf entries.entry (min entries.stop 4096))) := by
  have hround (i : ℕ) (hi : i < min entries.stop 4096) : Computes (elfDynamicEntry (img.reader σ) addr
      i (tagsOf entries.entry i)) (some (tagsOf entries.entry (i + 1), true)) := by
    have hstop := lt_of_lt_of_le hi (min_le_left _ _)
    have hentry := entries.computes_entry (σ := σ) hstop.le (tagsOf entries.entry i)
    rwa [if_neg hstop.ne] at hentry
  refine Computes.loop_rounds hround (min_le_right _ _) ?_
  by_cases hcap : entries.stop < 4096
  · rw [min_eq_left hcap.le, show 4096 - entries.stop = (4096 - entries.stop - 1) + 1 by omega, loop]
    have hentry := entries.computes_entry (σ := σ) le_rfl (tagsOf entries.entry entries.stop)
    rw [if_pos rfl] at hentry
    refine hentry.bind (g := fun _ => some _) fun r hr => ?_
    cases hr
    exact .pure _
  · rw [min_eq_right (Nat.le_of_not_lt hcap)]
    exact .pure _

end DynamicEntries

namespace DynamicArray
variable {addr : ℕ} (array : DynamicArray img addr)

/-- What the first entries have. -/
def tags : ℕ → DynamicTags
  | 0 => ⟨none, none, none, none⟩
  | n + 1 => (tags n).note (array.entry n)

theorem tags_eq (n : ℕ) : array.tags n = tagsOf array.entry n := by
  induction n with
  | zero => rfl
  | succ n ih => rw [tags, tagsOf, ih]

/-- The tags that the parser comes to. -/
def found : DynamicTags := array.tags (min array.stop 4096)

theorem found_symtab :
    array.found.symtab = if array.symtabAt < 4096 then some array.symtab else none := by
  rw [found, tags_eq, tagsOf_get rfl DynamicTags.note_symtab array.symtab_iff (min_le_left _ _)]
  exact if_congr (by have := array.symtab_lt; omega) rfl rfl

theorem found_strtab :
    array.found.strtab = if array.strtabAt < 4096 then some array.strtab else none := by
  rw [found, tags_eq, tagsOf_get rfl DynamicTags.note_strtab array.strtab_iff (min_le_left _ _)]
  exact if_congr (by have := array.strtab_lt; omega) rfl rfl

theorem found_hash : array.found.hash = if array.hashAt < 4096 then some array.hash else none := by
  rw [found, tags_eq, tagsOf_get rfl DynamicTags.note_hash array.hash_iff (min_le_left _ _)]
  exact if_congr (by have := array.hash_lt; omega) rfl rfl

def entries : DynamicEntries img addr :=
  ⟨array.entry, array.stop, array.tag_at, array.val_at, array.stop_iff⟩

theorem computes_tags : Computes (loop (elfDynamicEntry (img.reader σ) addr) 4096 0
    ⟨none, none, none, none⟩) (some array.found) := by
  rw [found, tags_eq]
  exact array.entries.computes_tags

end DynamicArray

theorem computes_unreadable_loop (img : Image) {addr : ℕ} (hnone : img.uint 8 addr = none)
    {t : DynamicTags} : Computes (loop (elfDynamicEntry (img.reader σ) addr) 4096 0 t) none := by
  have hentry : Computes (elfDynamicEntry (img.reader σ) addr 0 t) none := by
    refine (computes_noOverflow (by decide)).bind (g := fun _ => none) fun _ _ => ?_
    refine computes_add (fun _ => rfl) fun _ => computes_unreadable img (by decide) ?_
    rwa [Nat.zero_mul, Nat.add_zero]
  have hloop (count : ℕ) : Computes (loop (elfDynamicEntry (img.reader σ) addr) (count + 1) 0 t) none :=
    hentry.bind_none
  exact hloop 4095

/-- Where nothing is at the place that the parser takes for the dynamic array's, it fails. -/
theorem ElfHeaders.exports_error (headers : ElfHeaders img base) (s : σ)
    (hnone : img.uint 8 (base + headers.dynamicVaddr) = none) :
    ∃ e, (outcome (elfExports (img.reader σ) base) s).1 = .error (.error e) := by
  have htables : Computes (elfDynamicTables (img.reader σ) base) none :=
    headers.computes_tables (computes_add (fun _ => rfl) fun _ =>
      (computes_unreadable_loop img hnone).bind_none)
  have hexports : Computes (elfExports (img.reader σ) base) none := htables.bind_none
  obtain ⟨fault, hfault⟩ := hexports.error rfl s
  cases fault with
  | error e => exact ⟨e, hfault⟩
  | overflow =>
    have hrange : HashInRange (img.reader σ) base s := fun tables s' htables' => by
      obtain ⟨e, he⟩ := htables.error rfl s
      rw [htables'] at he
      cases he
    exact absurd hfault ((elfExports_ne_overflow_iff (img.reader σ) base s).mpr hrange)

/-- The tables are where the dynamic array's entries say, moved by where the image is. -/
theorem ElfHeaders.computes_placed (headers : ElfHeaders img base) {bias : ℕ} (hbias : base = bias)
    {tags : DynamicTags} (hdynamic : bias + headers.dynamicVaddr ≤ usizeMax)
    (htags : Computes (loop (elfDynamicEntry (img.reader σ) (bias + headers.dynamicVaddr)) 4096 0
      ⟨none, none, none, none⟩) (some tags))
    (hsymtab : ∀ symtab, tags.symtab = some symtab → bias + symtab ≤ usizeMax)
    (hstrtab : ∀ strtab, tags.strtab = some strtab → bias + strtab ≤ usizeMax) :
    Computes (elfDynamicTables (img.reader σ) base) (some (match tags.symtab, tags.strtab with
      | some symtab, some strtab => some ⟨bias + symtab, bias + strtab, tags.hash, tags.gnuHash⟩
      | _, _ => none)) := by
  subst hbias
  refine headers.computes_tables (computes_add_of_le hdynamic ?_)
  refine htags.bind (g := fun _ => some _) fun found hfound => ?_
  cases hfound
  split
  · next symtab strtab hsymtabTag hstrtabTag =>
    refine computes_add_of_le (hsymtab symtab hsymtabTag) ?_
    exact computes_add_of_le (hstrtab strtab hstrtabTag) (.pure _)
  · exact .pure _

namespace SymbolTable
variable {bias symtab strtab hash : ℕ} (table : SymbolTable img bias symtab strtab hash)

/-- The empty name is at the string table's first byte. -/
theorem listed_of_name {i : ℕ} (hi : i < table.nchain) (hexported : (table.symbol i).Exported)
    (hzero : (table.symbol i).st_name = 0) : table.listed i = none := by
  have htext := table.text i hi hexported
  rw [hzero, Nat.add_zero] at htext
  have hname : table.name i = "" := by
    have hbytes : Utf8.bytes (table.name i) = Utf8.bytes "" := htext.unique table.empty_name
    exact Option.some.inj ((Utf8.decode_bytes _).symm.trans (hbytes ▸ Utf8.decode_bytes ""))
  rw [listed, if_neg fun h => h.2 hname]

/-- A symbol of the table adds what it lists. -/
theorem computes_symbol {tables : DynamicTables} (hsymtab : tables.symtab = symtab)
    (hstrtab : tables.strtab = strtab) {i : ℕ} (hi : i < table.nchain) (out : List Symbol) :
    Computes (elfSymbol (img.reader σ) bias tables i out)
      (some (out ++ (table.listed i).toList, true)) := by
  subst hsymtab hstrtab
  refine computes_entryAt img (by decide) (table.name_at i hi) ?_
  refine computes_knownAt img (by decide) (table.info_at i hi) ?_
  refine computes_knownAt img (by decide) (table.shndx_at i hi) ?_
  refine computes_knownAt img (by decide) (table.value_at i hi) ?_
  dsimp only
  by_cases hexported : (table.symbol i).Exported
  · by_cases hzero : (table.symbol i).st_name = 0
    · rw [if_pos (.inr (.inr (.inr hzero))), table.listed_of_name hi hexported hzero]
      simpa using Computes.pure (out, true)
    · have htext := table.text i hi hexported
      have hcond : ¬ (¬ ((table.symbol i).st_info / 16 = stbGlobal ∨
          (table.symbol i).st_info / 16 = stbWeak) ∨ (table.symbol i).st_shndx = shnUndef ∨
            (table.symbol i).st_value = 0 ∨ (table.symbol i).st_name = 0) := by
        have := hexported
        unfold SymbolEntry.Exported at this
        tauto
      rw [if_neg hcond]
      refine computes_add_of_le htext.le_usizeMax ?_
      have hread := computes_name (σ := σ) img (tables.strtab + (table.symbol i).st_name)
      have hshort : (Utf8.bytes (table.name i)).length ≤ maxName := table.length_le i hi hexported
      rw [htext.name hshort] at hread
      refine hread.bind (g := fun _ => some _) fun name hname => ?_
      cases hname
      by_cases hempty : table.name i = ""
      · rw [if_pos hempty, listed, if_neg fun h => h.2 hempty]
        simpa using Computes.pure (out, true)
      · rw [if_neg hempty, listed, if_pos ⟨hexported, hempty⟩]
        exact computes_add_of_le (table.placed i hi hexported) (.pure _)
  · have hcond : ¬ ((table.symbol i).st_info / 16 = stbGlobal ∨
        (table.symbol i).st_info / 16 = stbWeak) ∨ (table.symbol i).st_shndx = shnUndef ∨
          (table.symbol i).st_value = 0 ∨ (table.symbol i).st_name = 0 := by
      unfold SymbolEntry.Exported at hexported
      tauto
    rw [if_pos hcond, listed, if_neg fun h => hexported h.1]
    simpa using Computes.pure (out, true)

/-- The parser lists the exports of the table. -/
theorem computes_symbols {tables : DynamicTables} {hashVaddr : ℕ} (hsymtab : tables.symtab = symtab)
    (hstrtab : tables.strtab = strtab) (hhash : tables.hash = some hashVaddr)
    (hplace : hash = bias + hashVaddr) :
    Computes (elfSymbols (img.reader σ) bias tables) (some table.exports) := by
  subst hplace
  have hread := table.nchain_read
  rw [Nat.add_assoc] at hread
  have hcount : Computes (elfSymbolCount (img.reader σ) bias tables) (some (some table.nchain)) := by
    unfold elfSymbolCount
    rw [hhash]
    have hmax := le_of_uint img (by decide) hread
    refine (computes_noOverflow (by omega)).bind (g := fun _ => some _) fun _ _ => ?_
    exact computes_knownAt img (by decide) hread (.pure _)
  have hrounds (i : ℕ) (hi : i < table.nchain) : Computes (elfSymbol (img.reader σ) bias tables i
      ((List.range i).filterMap table.listed))
      (some ((List.range (i + 1)).filterMap table.listed, true)) := by
    have hsymbol := table.computes_symbol (σ := σ) hsymtab hstrtab hi
      ((List.range i).filterMap table.listed)
    have hlast : [i].filterMap table.listed = (table.listed i).toList := by
      cases hlisted : table.listed i with
      | none => rw [List.filterMap_cons_none hlisted, List.filterMap_nil, Option.toList_none]
      | some sym => rw [List.filterMap_cons_some hlisted, List.filterMap_nil, Option.toList_some]
    rwa [List.range_succ, List.filterMap_append, hlast]
  refine hcount.bind (g := fun _ => some table.exports) fun count hcount => ?_
  cases hcount
  refine Computes.loop_rounds hrounds le_rfl ?_
  rw [Nat.sub_self]
  exact .pure _

end SymbolTable

namespace ElfImage
variable (image : ElfImage img base)

/-- The exported symbols of an image. -/
def exports : List Symbol := image.table.exports

theorem eq_bias (hlowest : image.headers.lowest = 0) : base = image.headers.bias := by
  rw [ElfHeaders.bias, hlowest, Nat.sub_zero]

/-- An image with its lowest segment at 0 has its tables where the parser looks for them. -/
theorem computes_tables (hlowest : image.headers.lowest = 0) :
    Computes (elfDynamicTables (img.reader σ) base)
      (some (if image.array.symtabAt < 4096 ∧ image.array.strtabAt < 4096 then
        some ⟨image.headers.bias + image.array.symtab, image.headers.bias + image.array.strtab,
          image.array.found.hash, image.array.found.gnuHash⟩ else none)) := by
  have hdynamic := le_of_uint img (by decide) (image.array.tag_at 0 (Nat.zero_le _))
  rw [Nat.zero_mul, Nat.add_zero] at hdynamic
  have hplaced := image.headers.computes_placed (image.eq_bias hlowest) hdynamic
    (image.array.computes_tags (σ := σ)) (fun symtab hsymtab => ?_) fun strtab hstrtab => ?_
  · rw [image.array.found_symtab, image.array.found_strtab] at hplaced
    convert hplaced using 2
    by_cases hsymtab : image.array.symtabAt < 4096
    · by_cases hstrtab : image.array.strtabAt < 4096
      · rw [if_pos hsymtab, if_pos hstrtab, if_pos ⟨hsymtab, hstrtab⟩]
      · rw [if_pos hsymtab, if_neg hstrtab, if_neg (not_and_of_not_right _ hstrtab)]
    · rw [if_neg hsymtab, if_neg (not_and_of_not_left _ hsymtab)]
  · rw [image.array.found_symtab, Option.ite_none_right_eq_some] at hsymtab
    exact Option.some.inj hsymtab.2 ▸ image.table.symtab_le
  · rw [image.array.found_strtab, Option.ite_none_right_eq_some] at hstrtab
    exact Option.some.inj hstrtab.2 ▸ image.table.empty_name.le_usizeMax

theorem computes_exports (hlowest : image.headers.lowest = 0) (hhash : image.array.hashAt < 4096) :
    Computes (elfExports (img.reader σ) base)
      (some (if image.array.symtabAt < 4096 ∧ image.array.strtabAt < 4096 then image.exports
        else [])) := by
  refine (image.computes_tables hlowest).bind (g := fun _ => some _) fun tables htables => ?_
  cases htables
  split_ifs
  · have hparser : elfSymbols (img.reader σ) base = elfSymbols (img.reader σ) image.headers.bias :=
      congrArg _ (image.eq_bias hlowest)
    have hhashTag := image.array.found_hash
    rw [if_pos hhash] at hhashTag
    change Computes (elfSymbols (img.reader σ) base _) _
    rw [hparser]
    exact image.table.computes_symbols rfl rfl hhashTag rfl
  · exact .pure []

end ElfImage

/-- An image with its lowest segment at 0 is listed by its tables, if and only if the dynamic array
has these among its first 4096 entries, unless there is nothing to list. One that is linked at
another address fails, where nothing is at its dynamic array's address moved by its base. -/
theorem elfExports_exact (image : ElfImage img base) (s : σ) :
    (image.headers.lowest = 0 → image.array.hashAt < 4096 →
      ((outcome (elfExports (img.reader σ) base) s).1 = .ok image.exports ↔
        image.array.symtabAt < 4096 ∧ image.array.strtabAt < 4096 ∨ image.exports = [])) ∧
    (image.headers.lowest ≠ 0 → img.uint 8 (base + image.headers.dynamicVaddr) = none →
      ∃ e, (outcome (elfExports (img.reader σ) base) s).1 = .error (.error e)) := by
  refine ⟨fun hlowest hhash => ?_, fun _ hnone => image.headers.exports_error s hnone⟩
  rw [(image.computes_exports hlowest hhash).ok_iff]
  split_ifs with htables
  · simp only [htables, and_self, true_or]
  · simp only [htables, false_or, Option.some_inj, eq_comm]

/-- The bytes of an image with one exported symbol, on pages from the given one on. -/
def oneSymbolBytes (code page : UInt8) : List UInt8 := List.flatten [
  [0x7F, 0x45, 0x4C, 0x46, 2, 1], .replicate 10 0, [code], .replicate 15 0, [64], .replicate 21 0,
  [56, 0, 2], .replicate 7 0,
  [1], .replicate 16 0, [page], .replicate 38 0, [2], .replicate 15 0, [0xB0, page], .replicate 38 0,
  [6], .replicate 7 0, [0xF0, page], .replicate 6 0, [5], .replicate 7 0, [0x20, page + 1],
  .replicate 6 0, [4], .replicate 7 0, [0x24, page + 1], .replicate 6 0, .replicate 16 0,
  .replicate 24 0, [1, 0, 0, 0, 0x12, 0, 1, 0, 0x40, page], .replicate 14 0, [0, 0x66, 0, 0],
  [1, 0, 0, 0, 2, 0, 0, 0, 1, 0, 0, 0], .replicate 8 0]

/-- The image at 0x1000, which is where an executable is linked for. -/
def oneSymbol : ElfType → Image
  | .exec => .ofBytes 0x1000 (oneSymbolBytes 2 0x10)
  | .dyn => .ofBytes 0x1000 (oneSymbolBytes 3 0)

def oneSymbolLowest : ElfType → ℕ
  | .exec => 0x1000
  | .dyn => 0

def oneSymbolHeaders (type : ElfType) : ElfHeaders (oneSymbol type) 0x1000 where
  ident := [0x7F, 0x45, 0x4C, 0x46, 2, 1] ++ .replicate 10 0
  type := type
  phoff := 64
  phentsize := 56
  phnum := 2
  segment i := if i = 0 then ⟨ptLoad, oneSymbolLowest type⟩
    else ⟨ptDynamic, oneSymbolLowest type + 0xB0⟩
  lowest := oneSymbolLowest type
  dynamic := 1
  ident_read := by cases type <;> decide +kernel
  magic := rfl
  class64 := rfl
  little := rfl
  type_read := by cases type <;> decide +kernel
  phoff_read := by cases type <;> decide +kernel
  phentsize_read := by cases type <;> decide +kernel
  phnum_read := by cases type <;> decide +kernel
  phoff_pos := by decide
  phentsize_ge := by decide
  type_at := by cases type <;> decide +kernel
  vaddr_at := by cases type <;> decide +kernel
  lowest_least := by
    refine ⟨⟨0, by decide, rfl, rfl⟩, ?_⟩
    rintro _ ⟨i, hi, -, rfl⟩
    split
    · exact le_rfl
    · exact Nat.le_add_right _ _
  mapped := by cases type <;> rfl
  dynamic_lt := by decide
  dynamic_type := by cases type <;> decide +kernel

def oneSymbolArray (type : ElfType) : DynamicArray (oneSymbol type)
    ((oneSymbolHeaders type).bias + (oneSymbolHeaders type).dynamicVaddr) where
  entry i := match i with
    | 0 => ⟨dtSymtab, oneSymbolLowest type + 0xF0⟩
    | 1 => ⟨dtStrtab, oneSymbolLowest type + 0x120⟩
    | 2 => ⟨dtHash, oneSymbolLowest type + 0x124⟩
    | _ => ⟨dtNull, 0⟩
  stop := 3
  symtabAt := 0
  strtabAt := 1
  hashAt := 2
  tag_at := by cases type <;> decide +kernel
  val_at := by cases type <;> decide +kernel
  stop_iff := by cases type <;> decide +kernel
  symtab_iff := by cases type <;> decide +kernel
  strtab_iff := by cases type <;> decide +kernel
  hash_iff := by cases type <;> decide +kernel
  symtab_lt := by decide
  strtab_lt := by decide
  hash_lt := by decide

def oneSymbolImage (type : ElfType) : ElfImage (oneSymbol type) 0x1000 where
  headers := oneSymbolHeaders type
  array := oneSymbolArray type
  table := {
    nchain := 2
    symbol := fun i => if i = 0 then ⟨0, 0, 0, 0⟩ else ⟨1, 0x12, 1, oneSymbolLowest type + 0x40⟩
    name := fun _ => "f"
    symtab_le := by cases type <;> decide +kernel
    nchain_read := by cases type <;> decide +kernel
    name_at := by cases type <;> decide +kernel
    info_at := by cases type <;> decide +kernel
    shndx_at := by cases type <;> decide +kernel
    value_at := by cases type <;> decide +kernel
    empty_name := ⟨nofun, nofun, by cases type <;> decide +kernel⟩
    text := fun i hi hexported => by
      obtain rfl | rfl : i = 0 ∨ i = 1 := by omega
      · exact absurd rfl hexported.2.1
      · exact ⟨by cases type <;> decide +kernel, by decide +kernel, by cases type <;> decide +kernel⟩
    length_le := fun _ _ _ => by decide +kernel
    placed := fun i hi hexported => by
      obtain rfl | rfl : i = 0 ∨ i = 1 := by omega
      · exact absurd rfl hexported.2.1
      · cases type <;> decide +kernel }

theorem elfExports_exact_dyn : (oneSymbolImage .dyn).exports = [⟨"f", 0x1040⟩] ∧
    (outcome (elfExports ((oneSymbol .dyn).reader Unit) 0x1000) ()).1 =
      .ok (oneSymbolImage .dyn).exports :=
  ⟨by decide +kernel, ((elfExports_exact (oneSymbolImage .dyn) ()).1 rfl (by decide)).mpr
    (.inl (by decide))⟩

/-- The same image as an executable at the address it is linked for: its dynamic array is at 0x10B0,
and is looked for at 0x20B0. -/
theorem elfExports_linked : (oneSymbolImage .exec).exports = [⟨"f", 0x1040⟩] ∧
    (outcome (elfExports ((oneSymbol .exec).reader Unit) 0x1000) ()).1 =
      .error (.error (.partialTransfer 8 0)) := by
  decide +kernel

end Nemclass.Symbols
