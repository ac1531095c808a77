import Mathlib.Data.Finset.Lattice.Fold
import Mathlib.Order.Lattice.Nat
import Nemclass.Symbols.Image

/-! The GNU hash table of an image, which does not say how many symbols there are: the last symbol
is the end of the chain that the highest bucket begins. The hashed symbols follow one another, those
of one bucket together. -/
namespace Nemclass.Symbols
open Scan Usize Guarded

/-- The table's header at an address, and where its arrays are. -/
structure GnuHashHeader (img : Image) (addr : ℕ) where
  nbuckets : ℕ
  symoffset : ℕ
  bloomSize : ℕ
  nbuckets_read : img.uint 4 addr = some nbuckets
  symoffset_read : img.uint 4 (addr + 4) = some symoffset
  bloomSize_read : img.uint 4 (addr + 8) = some bloomSize

namespace GnuHashHeader
variable {img : Image} {addr : ℕ} (header : GnuHashHeader img addr)

def buckets : ℕ := addr + (16 + header.bloomSize * 8)

def chains : ℕ := header.buckets + header.nbuckets * 4

end GnuHashHeader

/-- A well-formed table of `hashed` symbols, of which the undefined one is none. -/
structure GnuHashTable (img : Image) (addr : ℕ) extends GnuHashHeader img addr where
  hashed : ℕ
  bucketOf : ℕ → ℕ
  bucket : ℕ → ℕ
  chain : ℕ → ℕ
  chains_le : toGnuHashHeader.chains ≤ usizeMax
  bucket_read : ∀ b < nbuckets, img.uint 4 (toGnuHashHeader.buckets + b * 4) = some (bucket b)
  chain_read : ∀ k < hashed, img.uint 4 (toGnuHashHeader.chains + k * 4) = some (chain k)
  symoffset_pos : 0 < symoffset
  bucketOf_lt : ∀ k < hashed, bucketOf k < nbuckets
  contiguous : ∀ i j k, i ≤ j → j ≤ k → k < hashed → bucketOf i = bucketOf k → bucketOf j = bucketOf k
  bucket_empty : ∀ b < nbuckets, (∀ k < hashed, bucketOf k ≠ b) → bucket b = 0
  bucket_first : ∀ k < hashed, (∀ j < k, bucketOf j ≠ bucketOf k) → bucket (bucketOf k) = symoffset + k
  chain_end : ∀ k < hashed,
    chain k % 2 = 1 ↔ ∀ j, k < j → j < hashed → bucketOf j ≠ bucketOf k

variable {σ : Type} {img : Image} {addr : ℕ}

/-- The highest bucket of the first `n`. -/
def highest (bucket : ℕ → ℕ) (n : ℕ) : ℕ := (Finset.range n).sup bucket

theorem highest_succ (bucket : ℕ → ℕ) (n : ℕ) :
    highest bucket (n + 1) = max (highest bucket n) (bucket n) := by
  rw [highest, Finset.range_add_one, Finset.sup_insert, max_comm]
  rfl

/-- The buckets are read up to one that cannot be. -/
theorem computes_buckets {buckets n count : ℕ} {bucket : ℕ → ℕ} (hn : n ≤ count)
    (hread : ∀ b < n, img.uint 4 (buckets + b * 4) = some (bucket b)) {v : Option ℕ}
    (hrest : Computes (loop (gnuHashBucket (img.reader σ) buckets) (count - n) n (highest bucket n)) v) :
    Computes (loop (gnuHashBucket (img.reader σ) buckets) count 0 0) v := by
  refine Computes.loop_rounds (t := highest bucket) (fun b hb => ?_) hn hrest
  refine computes_entryAt img (by decide) (hread b hb) ?_
  rw [highest_succ]
  exact .pure _

/-- The header leads to the walk over the buckets, where the arrays lie in the address space. -/
theorem GnuHashHeader.computes_count (header : GnuHashHeader img addr) (hpos : 0 < header.nbuckets)
    {v : Option ℕ} (hpast : usizeMax < header.chains → v = none)
    (h : Computes (do
      let lastSymbol ← loop (gnuHashBucket (img.reader σ) header.buckets) header.nbuckets 0 0
      if lastSymbol < header.symoffset then pure header.symoffset
      else do
        let lastSymbol ← gnuHashChain (img.reader σ) header.chains header.symoffset lastSymbol
        noOverflow (lastSymbol + 1)
        pure (lastSymbol + 1)) v) :
    Computes (gnuHashSymbolCount (img.reader σ) addr) v := by
  have hnbuckets : header.nbuckets < 2 ^ 32 := img.uint_lt header.nbuckets_read
  have hbloom : header.bloomSize < 2 ^ 32 := img.uint_lt header.bloomSize_read
  have hmax : 2 ^ 36 ≤ usizeMax := by decide
  unfold gnuHashSymbolCount
  refine computes_known img (by decide) header.nbuckets_read ?_
  refine computes_knownAt img (by decide) header.symoffset_read ?_
  refine computes_knownAt img (by decide) header.bloomSize_read ?_
  rw [if_neg hpos.ne']
  refine (computes_noOverflow (by omega)).bind (g := fun _ => v) fun _ _ => ?_
  refine computes_add (fun hover => hpast (hover.trans_le (Nat.le_add_right _ _))) fun _ => ?_
  refine (computes_noOverflow (by omega)).bind (g := fun _ => v) fun _ _ => ?_
  exact computes_add hpast fun _ => h

namespace GnuHashTable
variable (table : GnuHashTable img addr)

/-- From a symbol of the last bucket on, its chain ends with the last symbol. -/
theorem computes_chain (hbound : table.hashed ≤ 1000000) {n k : ℕ} (hk : k + n + 1 = table.hashed)
    (hlast : table.bucketOf k = table.bucketOf (k + n)) :
    Computes (gnuHashChain (img.reader σ) table.chains table.symoffset (table.symoffset + k))
      (some (table.symoffset + k + n)) := by
  have hoffset : table.symoffset < 2 ^ 32 := img.uint_lt table.symoffset_read
  have hmax : 2 ^ 33 ≤ usizeMax := by decide
  have hread := table.chain_read k (by omega)
  have hunder : Computes (noUnderflow (table.symoffset + k) table.symoffset : Parser σ Unit)
      (some ()) := by
    rw [noUnderflow, if_pos (Nat.le_add_right _ _)]
    exact .pure ()
  rw [gnuHashChain, Nat.add_sub_cancel_left]
  refine hunder.bind (g := fun _ => some _) fun _ _ => computes_entryAt img (by decide) hread ?_
  cases n with
  | zero =>
    rw [if_pos ((table.chain_end k (by omega)).mpr fun j hj hhashed => by omega)]
    exact .pure _
  | succ n =>
    have hnext : table.bucketOf (k + 1) = table.bucketOf (k + (n + 1)) :=
      table.contiguous k (k + 1) (k + (n + 1)) (by omega) (by omega) (by omega) hlast
    have heven : ¬ table.chain k % 2 = 1 := fun hodd =>
      (table.chain_end k (by omega)).mp hodd (k + 1) (by omega) (by omega) (hnext.trans hlast.symm)
    have hrest := computes_chain hbound (n := n) (k := k + 1) (by omega)
      (by rw [hnext, Nat.add_right_comm, Nat.add_assoc])
    rw [if_neg heven]
    refine (computes_noOverflow (by omega)).bind (g := fun _ => some _) fun _ _ => ?_
    refine (computes_noOverflow (by omega)).bind (g := fun _ => some _) fun _ _ => ?_
    rw [dif_neg (by omega)]
    rwa [← Nat.add_assoc, Nat.add_right_comm _ 1 n] at hrest

/-- The highest bucket begins with the first symbol of the last symbol's bucket. -/
theorem highest_bucket (hpos : 0 < table.hashed) :
    ∃ k < table.hashed, table.bucketOf k = table.bucketOf (table.hashed - 1) ∧
      highest table.bucket table.nbuckets = table.symoffset + k := by
  classical
  have hsame : ∃ k, table.bucketOf k = table.bucketOf (table.hashed - 1) := ⟨_, rfl⟩
  have hk := Nat.find_spec hsame
  have hmin : Nat.find hsame ≤ table.hashed - 1 := Nat.find_le rfl
  have hfirst (j : ℕ) (hj : j < Nat.find hsame) :
      table.bucketOf j ≠ table.bucketOf (Nat.find hsame) :=
    fun h => Nat.find_min hsame hj (h.trans hk)
  generalize Nat.find hsame = k at hk hmin hfirst
  have hlt : k < table.hashed := by omega
  refine ⟨k, hlt, hk, le_antisymm (Finset.sup_le fun b hb => ?_) ?_⟩
  · -- a bucket that begins behind `k` would lie inside the last one
    have hb := Finset.mem_range.mp hb
    by_cases hempty : ∀ j < table.hashed, table.bucketOf j ≠ b
    · rw [table.bucket_empty b hb hempty]
      exact Nat.zero_le _
    · push Not at hempty
      have hfind := Nat.find_spec hempty
      have hfirst' (j : ℕ) (hj : j < Nat.find hempty) :
          table.bucketOf j ≠ table.bucketOf (Nat.find hempty) := fun h =>
        Nat.find_min hempty hj ⟨hj.trans hfind.1, h.trans hfind.2⟩
      generalize Nat.find hempty = j at hfind hfirst'
      obtain ⟨hj, rfl⟩ := hfind
      rw [table.bucket_first j hj hfirst']
      by_contra hover
      have hkj : k < j := by omega
      have hinside := table.contiguous k j (table.hashed - 1) hkj.le (by omega) (by omega) hk
      exact hfirst' k hkj (hk.trans hinside.symm)
  · have hle := Finset.le_sup (f := table.bucket)
      (Finset.mem_range.mpr (table.bucketOf_lt k hlt))
    rwa [table.bucket_first k hlt hfirst] at hle

theorem computes_count (hbound : table.hashed ≤ 1000000) :
    Computes (gnuHashSymbolCount (img.reader σ) addr) (some (table.symoffset + table.hashed)) := by
  have hoffset : table.symoffset < 2 ^ 32 := img.uint_lt table.symoffset_read
  have hmax : 2 ^ 33 ≤ usizeMax := by decide
  by_cases hnone : table.nbuckets = 0
  · have hempty : table.hashed = 0 := by
      by_contra hne
      have := table.bucketOf_lt 0 (Nat.pos_of_ne_zero hne)
      omega
    refine computes_known img (by decide) table.nbuckets_read ?_
    refine computes_knownAt img (by decide) table.symoffset_read ?_
    refine computes_knownAt img (by decide) table.bloomSize_read ?_
    rw [if_pos hnone, hempty]
    exact .pure _
  refine table.toGnuHashHeader.computes_count (Nat.pos_of_ne_zero hnone)
    (fun hover => absurd table.chains_le (Nat.not_le_of_lt hover)) ?_
  have hbuckets : Computes (loop (gnuHashBucket (img.reader σ) table.buckets) table.nbuckets 0 0)
      (some (highest table.bucket table.nbuckets)) := by
    refine computes_buckets le_rfl table.bucket_read ?_
    rw [Nat.sub_self]
    exact .pure _
  refine hbuckets.bind (g := fun _ => some _) fun lastSymbol hlast => ?_
  cases hlast
  by_cases hhashed : table.hashed = 0
  · have hzero : highest table.bucket table.nbuckets = 0 := by
      refine Nat.eq_zero_of_le_zero (Finset.sup_le fun b hb => ?_)
      rw [table.bucket_empty b (Finset.mem_range.mp hb) fun k hk => by omega]
    rw [hzero, if_pos table.symoffset_pos, hhashed]
    exact .pure _
  · obtain ⟨k, hk, hsame, hhighest⟩ := table.highest_bucket (Nat.pos_of_ne_zero hhashed)
    rw [hhighest, if_neg (Nat.not_lt.mpr (Nat.le_add_right _ _))]
    have hchain := table.computes_chain (σ := σ) hbound (k := k)
      (n := table.hashed - 1 - k) (by omega)
      (by rw [hsame, show k + (table.hashed - 1 - k) = table.hashed - 1 by omega])
    refine hchain.bind (g := fun _ => some _) fun last hlast => ?_
    cases hlast
    refine (computes_noOverflow (by omega)).bind (g := fun _ => some _) fun _ _ => ?_
    rw [show table.symoffset + k + (table.hashed - 1 - k) + 1 = table.symoffset + table.hashed by omega]
    exact .pure _

end GnuHashTable

/-- The count of a well-formed table is the number of symbols. -/
theorem gnuHashSymbolCount_exact (table : GnuHashTable img addr) (hbound : table.hashed ≤ 1000000)
    (s : σ) : (outcome (gnuHashSymbolCount (img.reader σ) addr) s).1 =
      .ok (table.symoffset + table.hashed) :=
  (table.computes_count hbound).ok _ rfl s

/-- Three hashed symbols behind the undefined one: two in the first bucket, one in the last. -/
def threeHashed : Image := .ofBytes 0x1000 <| List.flatten [[3, 0, 0, 0], [1, 0, 0, 0], [1, 0, 0, 0],
  [6, 0, 0, 0], .replicate 8 0, [1, 0, 0, 0], [0, 0, 0, 0], [3, 0, 0, 0], [2, 0, 0, 0], [5, 0, 0, 0],
  [7, 0, 0, 0]]

def threeHashedTable : GnuHashTable threeHashed 0x1000 where
  nbuckets := 3
  symoffset := 1
  bloomSize := 1
  hashed := 3
  bucketOf k := if k < 2 then 0 else 2
  bucket b := if b = 0 then 1 else if b = 2 then 3 else 0
  chain k := if k = 0 then 2 else if k = 1 then 5 else 7
  nbuckets_read := by decide +kernel
  symoffset_read := by decide +kernel
  bloomSize_read := by decide +kernel
  chains_le := by decide
  bucket_read := by decide +kernel
  chain_read := by decide +kernel
  symoffset_pos := by decide
  bucketOf_lt := by decide
  contiguous i j k hij hjk hk h := by
    split_ifs at h ⊢ <;> omega
  bucket_empty := by decide
  bucket_first := by decide
  chain_end k hk := by
    obtain rfl | rfl | rfl : k = 0 ∨ k = 1 ∨ k = 2 := by omega
    · exact iff_of_false (by decide) fun h => h 1 (by decide) (by decide) rfl
    · refine iff_of_true rfl fun j hj hlt => ?_
      obtain rfl : j = 2 := by omega
      decide
    · exact iff_of_true rfl fun j hj hlt => by omega

theorem gnuHashSymbolCount_exact_three :
    (outcome (gnuHashSymbolCount (threeHashed.reader Unit) 0x1000) ()).1 = .ok 4 :=
  gnuHashSymbolCount_exact threeHashedTable (by decide) ()

end Nemclass.Symbols
