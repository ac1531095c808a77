import Nemclass.Symbols.ElfListing
import Nemclass.Symbols.GnuHash

/-! GNU hash tables that cannot be read to their end. A word of the buckets or of the last chain
that is missing fails the count, and with it the listing, which has no symbols then. -/
namespace Nemclass.Symbols
open Scan Usize Guarded

variable {σ : Type} {img : Image} {base addr : ℕ}

/-- The walk comes to a word that cannot be read: a bucket, or a word of the chain from the highest
bucket on. -/
inductive GnuHashHeader.Truncated (header : GnuHashHeader img addr) : Prop where
  | bucket (bucket : ℕ → ℕ) (b : ℕ) (hb : b < header.nbuckets)
    (hread : ∀ i < b, img.uint 4 (header.buckets + i * 4) = some (bucket i))
    (hnone : img.uint 4 (header.buckets + b * 4) = none)
  | chain (bucket : ℕ → ℕ) (first n : ℕ) (hpos : 0 < header.nbuckets)
    (hread : ∀ i < header.nbuckets, img.uint 4 (header.buckets + i * 4) = some (bucket i))
    (hfirst : highest bucket header.nbuckets = header.symoffset + first)
    (heven : ∀ i < n, ∃ word, img.uint 4 (header.chains + (first + i) * 4) = some word ∧
      word % 2 = 0)
    (hbound : n = 0 ∨ first + n ≤ 1000000)
    (hnone : img.uint 4 (header.chains + (first + n) * 4) = none)

/-- A dynamic array with the tables of the symbols, and only the GNU hash table to count them. -/
structure GnuArray (img : Image) (addr : ℕ) extends DynamicEntries img addr where
  symtabAt : ℕ
  strtabAt : ℕ
  gnuHashAt : ℕ
  symtab_iff : ∀ i < stop, (entry i).tag = dtSymtab ↔ i = symtabAt
  strtab_iff : ∀ i < stop, (entry i).tag = dtStrtab ↔ i = strtabAt
  gnuHash_iff : ∀ i < stop, (entry i).tag = dtGnuHash ↔ i = gnuHashAt
  no_hash : ∀ i < stop, (entry i).tag ≠ dtHash
  symtab_lt : symtabAt < stop
  strtab_lt : strtabAt < stop
  gnuHash_lt : gnuHashAt < stop

namespace GnuArray
variable (array : GnuArray img addr)

def symtab : ℕ := (array.entry array.symtabAt).val

def strtab : ℕ := (array.entry array.strtabAt).val

def gnuHash : ℕ := (array.entry array.gnuHashAt).val

/-- The tags that the parser comes to. -/
def found : DynamicTags := tagsOf array.entry (min array.stop 4096)

theorem found_symtab :
    array.found.symtab = if array.symtabAt < 4096 then some array.symtab else none := by
  rw [found, tagsOf_get rfl DynamicTags.note_symtab array.symtab_iff (min_le_left _ _)]
  exact if_congr (by have := array.symtab_lt; omega) rfl rfl

theorem found_strtab :
    array.found.strtab = if array.strtabAt < 4096 then some array.strtab else none := by
  rw [found, tagsOf_get rfl DynamicTags.note_strtab array.strtab_iff (min_le_left _ _)]
  exact if_congr (by have := array.strtab_lt; omega) rfl rfl

theorem found_gnuHash :
    array.found.gnuHash = if array.gnuHashAt < 4096 then some array.gnuHash else none := by
  rw [found, tagsOf_get rfl DynamicTags.note_gnuHash array.gnuHash_iff (min_le_left _ _)]
  exact if_congr (by have := array.gnuHash_lt; omega) rfl rfl

theorem found_hash : array.found.hash = none := by
  have hnever (i : ℕ) (hi : i < array.stop) : (array.entry i).tag = dtHash ↔ i = array.stop :=
    iff_of_false (array.no_hash i hi) hi.ne
  rw [found, tagsOf_get rfl DynamicTags.note_hash hnever (min_le_left _ _)]
  exact if_neg (Nat.not_lt.mpr (min_le_left _ _))

theorem computes_found : Computes (loop (elfDynamicEntry (img.reader σ) addr) 4096 0
    ⟨none, none, none, none⟩) (some array.found) := array.toDynamicEntries.computes_tags

end GnuArray

/-- An image whose headers, dynamic array, symbol table and string table are all there, but whose
GNU hash table ends too early. -/
structure TruncatedImage (img : Image) (base : ℕ) where
  headers : ElfHeaders img base
  array : GnuArray img (headers.bias + headers.dynamicVaddr)
  symbols : ℕ
  strings : ℕ
  header : GnuHashHeader img (headers.bias + array.gnuHash)
  symbols_pos : 0 < symbols
  symbols_read : ∀ i < symbols, (img.bytes (headers.bias + array.symtab + i * 24) 24).isSome
  strings_pos : 0 < strings
  strings_read : (img.bytes (headers.bias + array.strtab) strings).isSome
  truncated : header.Truncated

theorem gnuHashChain_unreadable {chains symoffset first n : ℕ} (hoffset : symoffset < 2 ^ 32)
    (hfirst : first < 2 ^ 32)
    (heven : ∀ i < n, ∃ word, img.uint 4 (chains + (first + i) * 4) = some word ∧ word % 2 = 0)
    (hbound : n = 0 ∨ first + n ≤ 1000000) (hnone : img.uint 4 (chains + (first + n) * 4) = none) :
    Computes (gnuHashChain (img.reader σ) chains symoffset (symoffset + first)) none := by
  have hmax : 2 ^ 35 ≤ usizeMax := by decide
  have hunder : Computes (noUnderflow (symoffset + first) symoffset : Parser σ Unit) (some ()) := by
    rw [noUnderflow, if_pos (Nat.le_add_right _ _)]
    exact .pure ()
  rw [gnuHashChain, Nat.add_sub_cancel_left]
  refine hunder.bind (g := fun _ => none) fun _ _ => ?_
  cases n with
  | zero =>
    refine (computes_noOverflow (by omega)).bind (g := fun _ => none) fun _ _ => ?_
    exact computes_add (fun _ => rfl) fun _ => computes_unreadable img (by decide) hnone
  | succ n =>
    obtain ⟨word, hread, hword⟩ := heven 0 (Nat.succ_pos n)
    refine computes_entryAt img (by decide) hread ?_
    rw [if_neg (by omega)]
    refine (computes_noOverflow (by omega)).bind (g := fun _ => none) fun _ _ => ?_
    refine (computes_noOverflow (by omega)).bind (g := fun _ => none) fun _ _ => ?_
    rw [dif_neg (by omega), Nat.add_assoc]
    refine gnuHashChain_unreadable (n := n) hoffset (by omega) (fun i hi => ?_) (by omega) ?_
    · rw [Nat.add_assoc, Nat.add_comm 1]
      exact heven (i + 1) (by omega)
    · rwa [Nat.add_assoc, Nat.add_comm 1]

/-- A table that is not there to the end has no count. -/
theorem GnuHashHeader.Truncated.computes_count {header : GnuHashHeader img addr}
    (h : header.Truncated) : Computes (gnuHashSymbolCount (img.reader σ) addr) none := by
  cases h with
  | bucket bucket b hb hread hnone =>
    have hnbuckets : header.nbuckets < 2 ^ 32 := img.uint_lt header.nbuckets_read
    have hmax : 2 ^ 34 ≤ usizeMax := by decide
    have hbody : Computes (gnuHashBucket (img.reader σ) header.buckets b (highest bucket b)) none := by
      refine (computes_noOverflow (by omega)).bind (g := fun _ => none) fun _ _ => ?_
      exact computes_add (fun _ => rfl) fun _ => computes_unreadable img (by decide) hnone
    have hloop : Computes (loop (gnuHashBucket (img.reader σ) header.buckets) header.nbuckets 0 0)
        none := by
      refine computes_buckets hb.le hread ?_
      rw [show header.nbuckets - b = (header.nbuckets - b - 1) + 1 by omega, loop]
      exact hbody.bind_none
    refine header.computes_count (Nat.zero_lt_of_lt hb) (fun _ => rfl) ?_
    exact hloop.bind_none
  | chain bucket first n hpos hread hfirst heven hbound hnone =>
    have hoffset : header.symoffset < 2 ^ 32 := img.uint_lt header.symoffset_read
    have hhighest : highest bucket header.nbuckets ≤ 2 ^ 32 - 1 := Finset.sup_le fun b hb =>
      Nat.le_pred_of_lt (img.uint_lt (hread b (Finset.mem_range.mp hb)))
    have hloop : Computes (loop (gnuHashBucket (img.reader σ) header.buckets) header.nbuckets 0 0)
        (some (highest bucket header.nbuckets)) := by
      refine computes_buckets le_rfl hread ?_
      rw [Nat.sub_self]
      exact .pure _
    refine header.computes_count hpos (fun _ => rfl) ?_
    refine hloop.bind (g := fun _ => none) fun lastSymbol hlast => ?_
    cases hlast
    rw [hfirst, if_neg (Nat.not_lt.mpr (Nat.le_add_right _ _))]
    exact (gnuHashChain_unreadable hoffset (by omega) heven hbound hnone).bind_none

theorem computes_uncounted {tables : DynamicTables} (hhash : tables.hash = none)
    (hgnuHash : tables.gnuHash = none) :
    Computes (elfSymbols (img.reader σ) base tables) (some []) := by
  have hcount : Computes (elfSymbolCount (img.reader σ) base tables) (some none) := by
    rw [elfSymbolCount, hhash, hgnuHash]
    exact .pure _
  refine hcount.bind (g := fun _ => some []) fun found hfound => ?_
  cases hfound
  exact .pure []

namespace TruncatedImage
variable (image : TruncatedImage img base)

theorem symtab_le : image.headers.bias + image.array.symtab ≤ usizeMax := by
  by_contra hover
  have hread := image.symbols_read 0 image.symbols_pos
  rw [Nat.zero_mul, Nat.add_zero, img.bytes_past (by decide) (Nat.lt_of_not_le hover)] at hread
  cases hread

theorem strtab_le : image.headers.bias + image.array.strtab ≤ usizeMax := by
  by_contra hover
  have hread := image.strings_read
  rw [img.bytes_past image.strings_pos (Nat.lt_of_not_le hover)] at hread
  cases hread

theorem computes_count (hbias : base = image.headers.bias) {tables : DynamicTables}
    (hhash : tables.hash = none) (hgnuHash : tables.gnuHash = some image.array.gnuHash) :
    Computes (elfSymbolCount (img.reader σ) base tables) none := by
  rw [elfSymbolCount, hhash, hgnuHash]
  have hcount := image.truncated.computes_count (σ := σ)
  have hle := le_of_uint img (by decide) image.header.nbuckets_read
  have hplace : base + image.array.gnuHash = image.headers.bias + image.array.gnuHash :=
    congrArg (· + image.array.gnuHash) hbias
  refine computes_add_of_le (hplace.trans_le hle) ?_
  rw [hplace]
  exact hcount.bind_none

/-- The listing fails where the parser comes to the count, and has no symbols where it does not. -/
theorem computes_exports (hlowest : image.headers.lowest = 0) :
    Computes (elfExports (img.reader σ) base)
      (if image.array.symtabAt < 4096 ∧ image.array.strtabAt < 4096 ∧ image.array.gnuHashAt < 4096 then
        none else some []) := by
  have hbias : base = image.headers.bias := by rw [ElfHeaders.bias, hlowest, Nat.sub_zero]
  have hdynamic := le_of_uint img (by decide) (image.array.tag_at 0 (Nat.zero_le _))
  rw [Nat.zero_mul, Nat.add_zero] at hdynamic
  have htables := image.headers.computes_placed hbias hdynamic
    (image.array.computes_found (σ := σ)) (fun symtab hsymtab => ?_) fun strtab hstrtab => ?_
  · generalize hvalue : (if image.array.symtabAt < 4096 ∧ image.array.strtabAt < 4096 ∧
      image.array.gnuHashAt < 4096 then (none : Option (List Symbol)) else some []) = v
    refine htables.bind (g := fun _ => v) fun found hfound => ?_
    cases hfound
    rw [← hvalue, image.array.found_symtab, image.array.found_strtab]
    by_cases hsymtab : image.array.symtabAt < 4096
    · by_cases hstrtab : image.array.strtabAt < 4096
      · rw [if_pos hsymtab, if_pos hstrtab]
        by_cases hgnuHash : image.array.gnuHashAt < 4096
        · rw [if_pos ⟨hsymtab, hstrtab, hgnuHash⟩]
          have hgnuHashTag := image.array.found_gnuHash
          rw [if_pos hgnuHash] at hgnuHashTag
          exact (image.computes_count hbias image.array.found_hash hgnuHashTag).bind_none
        · rw [if_neg fun h : _ ∧ _ ∧ _ => hgnuHash h.2.2]
          have hgnuHashTag := image.array.found_gnuHash
          rw [if_neg hgnuHash] at hgnuHashTag
          exact computes_uncounted image.array.found_hash hgnuHashTag
      · rw [if_pos hsymtab, if_neg hstrtab,
          if_neg fun h : _ ∧ _ ∧ _ => hstrtab h.2.1]
        exact .pure []
    · rw [if_neg hsymtab, if_neg (not_and_of_not_left _ hsymtab)]
      exact .pure []
  · rw [image.array.found_symtab, Option.ite_none_right_eq_some] at hsymtab
    exact Option.some.inj hsymtab.2 ▸ image.symtab_le
  · rw [image.array.found_strtab, Option.ite_none_right_eq_some] at hstrtab
    exact Option.some.inj hstrtab.2 ▸ image.strtab_le

end TruncatedImage

/-- Where the GNU hash table ends too early, nothing is listed: there is an error instead, unless the
dynamic array has one of the tables behind its first 4096 entries. -/
theorem elfExports_truncated (image : TruncatedImage img base) (count : ℕ) (s : σ) :
    (image.headers.lowest = 0 →
      ((∃ list, (outcome (elfExports (img.reader σ) base) s).1 = .ok list ∧ list.length ≤ count) ↔
        ¬ (image.array.symtabAt < 4096 ∧ image.array.strtabAt < 4096 ∧
          image.array.gnuHashAt < 4096))) ∧
    (image.headers.lowest ≠ 0 → img.uint 8 (base + image.headers.dynamicVaddr) = none →
      ∃ e, (outcome (elfExports (img.reader σ) base) s).1 = .error (.error e)) := by
  refine ⟨fun hlowest => ?_, fun _ hnone => image.headers.exports_error s hnone⟩
  have hexports := image.computes_exports (σ := σ) hlowest
  split_ifs at hexports with htables
  · refine iff_of_false ?_ (not_not.mpr htables)
    rintro ⟨list, hok, -⟩
    obtain ⟨e, he⟩ := hexports.error rfl s
    cases he.symm.trans hok
  · exact iff_of_true ⟨[], hexports.ok [] rfl s, Nat.zero_le _⟩ htables

/-- An image with one symbol, as before, but with a GNU hash table of two buckets, of which the second
is missing. -/
def missingBucket : Image := .ofBytes 0x1000 <| List.flatten [(oneSymbolBytes 3 0).take 208,
  [0xF5, 0xFE, 0xFF, 0x6F], .replicate 4 0, [0x24, 1], .replicate 6 0, .replicate 16 0,
  ((oneSymbolBytes 3 0).drop 240).take 52, [2, 0, 0, 0], [1, 0, 0, 0], [1, 0, 0, 0], [6, 0, 0, 0],
  .replicate 8 0, [1, 0, 0, 0]]

def missingBucketHeaders : ElfHeaders missingBucket 0x1000 where
  ident := [0x7F, 0x45, 0x4C, 0x46, 2, 1] ++ .replicate 10 0
  type := .dyn
  phoff := 64
  phentsize := 56
  phnum := 2
  segment i := if i = 0 then ⟨ptLoad, 0⟩ else ⟨ptDynamic, 0xB0⟩
  lowest := 0
  dynamic := 1
  ident_read := by decide +kernel
  magic := (oneSymbolHeaders .dyn).magic
  class64 := (oneSymbolHeaders .dyn).class64
  little := (oneSymbolHeaders .dyn).little
  type_read := by decide +kernel
  phoff_read := by decide +kernel
  phentsize_read := by decide +kernel
  phnum_read := by decide +kernel
  phoff_pos := (oneSymbolHeaders .dyn).phoff_pos
  phentsize_ge := (oneSymbolHeaders .dyn).phentsize_ge
  type_at := by decide +kernel
  vaddr_at := by decide +kernel
  lowest_least := ⟨⟨0, by decide, rfl, rfl⟩, fun _ _ => Nat.zero_le _⟩
  mapped := rfl
  dynamic_lt := (oneSymbolHeaders .dyn).dynamic_lt
  dynamic_type := by decide

def missingBucketEntry : ℕ → DynamicEntry
  | 0 => ⟨dtSymtab, 0xF0⟩
  | 1 => ⟨dtStrtab, 0x120⟩
  | 2 => ⟨dtGnuHash, 0x124⟩
  | _ => ⟨dtNull, 0⟩

def missingBucketArray : GnuArray missingBucket
    (missingBucketHeaders.bias + missingBucketHeaders.dynamicVaddr) where
  entry := missingBucketEntry
  stop := 3
  symtabAt := 0
  strtabAt := 1
  gnuHashAt := 2
  tag_at := by decide +kernel
  val_at := by decide +kernel
  stop_iff := by decide +kernel
  symtab_iff := by decide +kernel
  strtab_iff := by decide +kernel
  gnuHash_iff := by decide +kernel
  no_hash := by decide +kernel
  symtab_lt := (oneSymbolArray .dyn).symtab_lt
  strtab_lt := (oneSymbolArray .dyn).strtab_lt
  gnuHash_lt := (oneSymbolArray .dyn).hash_lt

def missingBucketImage : TruncatedImage missingBucket 0x1000 where
  headers := missingBucketHeaders
  array := missingBucketArray
  symbols := 2
  strings := 4
  header := {
    nbuckets := 2
    symoffset := 1
    bloomSize := 1
    nbuckets_read := by decide +kernel
    symoffset_read := by decide +kernel
    bloomSize_read := by decide +kernel }
  symbols_pos := by decide
  symbols_read := by decide +kernel
  strings_pos := by decide
  strings_read := by decide +kernel
  truncated := .bucket (fun _ => 1) 1 (by decide) (by decide +kernel) (by decide +kernel)

theorem elfExports_truncated_missing : ¬ ∃ list,
    (outcome (elfExports (missingBucket.reader Unit) 0x1000) ()).1 = .ok list ∧ list.length ≤ 2 :=
  mt ((elfExports_truncated missingBucketImage 2 ()).1 rfl).mp (not_not.mpr (by decide))

/-- The missing bucket is an error, and the symbols below the first bucket's are not listed. -/
theorem missingBucket_fails :
    (outcome (elfExports (missingBucket.reader Unit) 0x1000) ()).1 =
      .error (.error (.partialTransfer 4 0)) := by
  decide +kernel

end Nemclass.Symbols
