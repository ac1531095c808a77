import Nemclass.Lib.PartitionPoint
import Nemclass.Scan.Target
import Nemclass.Scan.ValueType

/-! Address ranges sorted by base, and the containment test by binary search.
The test looks at one range only, the last that begins at or below the address;
over disjoint ranges that is the only one that can contain it. -/
namespace Nemclass.Scan
open Usize PartitionPoint

/-- A half-open address range `(base, end)`. -/
abbrev Range := ℕ × ℕ

/-- Two regions share no address, and neither begins inside the other. -/
def Region.Disjoint (a b : Region) : Prop := a.stop ≤ b.base ∨ b.stop ≤ a.base

instance (a b : Region) : Decidable (a.Disjoint b) := by unfold Region.Disjoint; infer_instance

theorem Region.Disjoint.symm {a b : Region} (h : a.Disjoint b) : b.Disjoint a := Or.symm h

theorem Ascending.disjoint {rs : List Region} (h : Ascending rs) : rs.Pairwise Region.Disjoint :=
  h.imp fun h => .inl h

/-- The derived order of pairs. -/
def rangeLe (a b : Range) : Bool := a.1 < b.1 || a.1 == b.1 && a.2 ≤ b.2

theorem rangeLe_iff {a b : Range} : rangeLe a b = true ↔ a.1 < b.1 ∨ a.1 = b.1 ∧ a.2 ≤ b.2 := by
  simp [rangeLe]

/-- The regions as ranges, sorted. -/
def sortedRanges (regions : List Region) : List Range :=
  (regions.map fun r => (r.base, r.stop)).mergeSort rangeLe

theorem sortedRanges_sorted (regions : List Region) :
    (sortedRanges regions).Pairwise fun a b => rangeLe a b = true := by
  refine List.pairwise_mergeSort (fun a b c hab hbc => ?_) (fun a b => ?_) _
  · rw [rangeLe_iff] at *
    omega
  · rw [Bool.or_eq_true, rangeLe_iff, rangeLe_iff]
    omega

theorem mem_sortedRanges {regions : List Region} {x : Range} :
    x ∈ sortedRanges regions ↔ ∃ r ∈ regions, (r.base, r.stop) = x := by
  rw [sortedRanges, List.mem_mergeSort, List.mem_map]

/-- True if `addr` falls inside the last range that begins at or below it. -/
def isMapped (ranges : List Range) (addr : ℕ) : Bool :=
  let idx := partitionPoint (·.1 ≤ addr) ranges
  0 < idx && ranges[idx - 1]?.any (addr < ·.2)

theorem partitioned_base {ranges : List Range}
    (hsorted : ranges.Pairwise fun a b => rangeLe a b = true) (addr : ℕ) :
    Partitioned (·.1 ≤ addr) ranges :=
  hsorted.imp fun h hb => by
    rw [rangeLe_iff] at h
    simp only [decide_eq_true_eq] at *
    omega

theorem isMapped_eq {ranges : List Range} (hsorted : ranges.Pairwise fun a b => rangeLe a b = true)
    (addr : ℕ) : isMapped ranges addr = (ranges.filter (·.1 ≤ addr)).getLast?.any (addr < ·.2) := by
  have hpart := partitioned_base hsorted addr
  rw [isMapped]
  cases hidx : partitionPoint (·.1 ≤ addr) ranges with
  | zero => simp [filter_eq_nil_of_partitionPoint hpart hidx]
  | succ idx => simp [getElem?_partitionPoint hpart hidx]

/-- Of the sorted ranges, `last` is the last to begin at or below the address, and it ends there;
a range before it reaches past the address. -/
structure Shadows (ranges : List Range) (addr : ℕ) (pre : List Range) (last : Range)
    (post : List Range) : Prop where
  split : ranges = pre ++ last :: post
  passed : last.1 ≤ addr ∧ last.2 ≤ addr
  beyond : ∀ c ∈ post, addr < c.1
  overhang : ∃ a ∈ pre, addr < a.2

def Shadowed (ranges : List Range) (addr : ℕ) : Prop :=
  ∃ pre last post, Shadows ranges addr pre last post

/-- A range reaches past the end of a later one, to where no range begins yet. -/
def Overhangs (ranges : List Range) : Prop :=
  ∃ pre last post, Shadows ranges (max last.1 last.2) pre last post

theorem exists_shadowed_iff {ranges : List Range} :
    (∃ addr, Shadowed ranges addr) ↔ Overhangs ranges := by
  constructor
  · rintro ⟨addr, pre, last, post, h⟩
    have hle : max last.1 last.2 ≤ addr := max_le h.passed.1 h.passed.2
    obtain ⟨a, ha, hlt⟩ := h.overhang
    exact ⟨pre, last, post, h.split, ⟨le_max_left _ _, le_max_right _ _⟩,
      fun c hc => hle.trans_lt (h.beyond c hc), a, ha, hle.trans_lt hlt⟩
  · rintro ⟨pre, last, post, h⟩
    exact ⟨_, pre, last, post, h⟩

section Lookup
variable {ranges : List Range} (hsorted : ranges.Pairwise fun a b => rangeLe a b = true) {addr : ℕ}
include hsorted

/-- The last range to begin at or below the address decides. -/
theorem isMapped_of_split {pre post : List Range} {last : Range}
    (hsplit : ranges = pre ++ last :: post) (hbase : last.1 ≤ addr)
    (hpost : ∀ c ∈ post, addr < c.1) : isMapped ranges addr = decide (addr < last.2) := by
  have hlast : (ranges.filter (·.1 ≤ addr)).getLast? = some last := by
    rw [getLast?_filter_eq_some (partitioned_base hsorted addr)]
    exact ⟨pre, post, hsplit, decide_eq_true hbase, fun c hc => by simpa using hpost c hc⟩
  rw [isMapped_eq hsorted, hlast, Option.any_some]

theorem exists_split {r : Range} (hr : r ∈ ranges) (hbase : r.1 ≤ addr) :
    ∃ pre last post, ranges = pre ++ last :: post ∧ last.1 ≤ addr ∧ ∀ c ∈ post, addr < c.1 := by
  have hbelow : r ∈ ranges.filter (·.1 ≤ addr) := List.mem_filter.mpr ⟨hr, decide_eq_true hbase⟩
  have hlast := List.getLast?_eq_some_getLast (List.ne_nil_of_mem hbelow)
  rw [getLast?_filter_eq_some (partitioned_base hsorted addr)] at hlast
  obtain ⟨pre, post, hsplit, hle, hpost⟩ := hlast
  exact ⟨pre, _, post, hsplit, of_decide_eq_true hle, fun c hc => by simpa using hpost c hc⟩

/-- The test is right about an address unless a range that contains it is shadowed there. -/
theorem isMapped_exact_iff :
    (isMapped ranges addr = true ↔ ∃ r ∈ ranges, r.1 ≤ addr ∧ addr < r.2) ↔
      ¬ Shadowed ranges addr := by
  constructor
  · rintro hexact ⟨pre, last, post, h⟩
    obtain ⟨a, ha, hend⟩ := h.overhang
    have hbase : a.1 ≤ last.1 := by
      rw [h.split, List.pairwise_append] at hsorted
      have hle := rangeLe_iff.mp (hsorted.2.2 a ha last List.mem_cons_self)
      omega
    have hmem : a ∈ ranges := h.split ▸ List.mem_append_left _ ha
    have hmapped := hexact.mpr ⟨a, hmem, hbase.trans h.passed.1, hend⟩
    rw [isMapped_of_split hsorted h.split h.passed.1 h.beyond, decide_eq_true_eq] at hmapped
    exact absurd hmapped (not_lt.mpr h.passed.2)
  · intro hclear
    constructor
    · intro hmapped
      rw [isMapped_eq hsorted, Option.any_eq_true] at hmapped
      obtain ⟨r, hr, hlt⟩ := hmapped
      obtain ⟨hmem, hbase⟩ := List.mem_filter.mp (List.mem_of_getLast? hr)
      exact ⟨r, hmem, of_decide_eq_true hbase, of_decide_eq_true hlt⟩
    · rintro ⟨r, hr, hbase, hend⟩
      obtain ⟨pre, last, post, hsplit, hle, hpost⟩ := exists_split hsorted hr hbase
      rw [isMapped_of_split hsorted hsplit hle hpost, decide_eq_true_eq]
      by_contra hpassed
      rw [hsplit, List.mem_append, List.mem_cons] at hr
      rcases hr with hpre | rfl | hafter
      · exact hclear ⟨pre, last, post, hsplit, ⟨hle, not_lt.mp hpassed⟩, hpost, r, hpre, hend⟩
      · exact hpassed hend
      · exact absurd (hpost r hafter) (not_lt.mpr hbase)

/-- The test finds the containing range of every address exactly when no range reaches past the
end of a later one into a gap between the bases. -/
theorem isMapped_finds_iff :
    (∀ addr, (isMapped ranges addr = true ↔ ∃ r ∈ ranges, r.1 ≤ addr ∧ addr < r.2) ↔
        ¬ Shadowed ranges addr) ∧
      ((∀ addr, isMapped ranges addr = true ↔ ∃ r ∈ ranges, r.1 ≤ addr ∧ addr < r.2) ↔
        ¬ Overhangs ranges) := by
  refine ⟨fun addr => isMapped_exact_iff hsorted, ?_⟩
  rw [← exists_shadowed_iff, not_exists]
  exact forall_congr' fun addr => isMapped_exact_iff hsorted

end Lookup

/-- Two images that overlap without nesting hide nothing from the test. -/
theorem isMapped_finds_overlapping :
    isMapped [(0x10000, 0x12000), (0x11000, 0x15000)] 0x12000 = true ↔
      ∃ r ∈ [(0x10000, 0x12000), (0x11000, 0x15000)], r.1 ≤ 0x12000 ∧ 0x12000 < r.2 := by
  refine (isMapped_finds_iff (by decide)).2.mpr ?_ 0x12000
  rintro ⟨pre, last, post, h⟩
  obtain ⟨a, ha, hend⟩ := h.overhang
  have hsplit := h.split
  rcases pre with _ | ⟨x, _ | ⟨y, rest⟩⟩
  · cases ha
  · cases hsplit
    rw [List.mem_singleton] at ha
    subst ha
    exact absurd hend (by decide)
  · cases rest <;> cases hsplit

/-- An image inside another hides what follows it there. -/
theorem isMapped_nested :
    ¬ (isMapped (sortedRanges [⟨0x10000, 0x8000⟩, ⟨0x12000, 0x1000⟩]) 0x14000 = true ↔
      ∃ r ∈ sortedRanges [⟨0x10000, 0x8000⟩, ⟨0x12000, 0x1000⟩],
        r.1 ≤ 0x14000 ∧ 0x14000 < r.2) := by
  have hranges : sortedRanges [⟨0x10000, 0x8000⟩, ⟨0x12000, 0x1000⟩] =
      [(0x10000, 0x18000), (0x12000, 0x13000)] := List.mergeSort_of_pairwise (by decide)
  rw [hranges]
  decide

/-- Over separated sorted ranges the test finds whichever range contains the address. -/
theorem isMapped_iff_exists {ranges : List Range} {addr : ℕ}
    (hsorted : ranges.Pairwise fun a b => rangeLe a b = true)
    (hsep : ranges.Pairwise fun a b => a.2 ≤ b.1 ∨ b.2 ≤ a.1)
    (hwf : ∀ r ∈ ranges, r.1 ≤ addr → r.1 ≤ r.2) :
    isMapped ranges addr = true ↔ ∃ r ∈ ranges, r.1 ≤ addr ∧ addr < r.2 := by
  refine (isMapped_exact_iff hsorted).mpr ?_
  rintro ⟨pre, last, post, h⟩
  obtain ⟨a, ha, hend⟩ := h.overhang
  have hle := hwf last (h.split ▸ List.mem_append_right pre List.mem_cons_self) h.passed.1
  rw [h.split, List.pairwise_append] at hsorted hsep
  have hlex := rangeLe_iff.mp (hsorted.2.2 a ha last List.mem_cons_self)
  have hdis := hsep.2.2 a ha last List.mem_cons_self
  have hpassed := h.passed
  omega

theorem isMapped_iff {regions : List Region} (hdis : regions.Pairwise Region.Disjoint) {addr : ℕ}
    (haddr : addr ≤ usizeMax) : isMapped (sortedRanges regions) addr = true ↔
      ∃ r ∈ regions, r.base ≤ addr ∧ addr < r.stop := by
  have hsep : (sortedRanges regions).Pairwise fun a b => a.2 ≤ b.1 ∨ b.2 ≤ a.1 := by
    refine (List.mergeSort_perm _ rangeLe).symm.pairwise ?_ fun h => Or.symm h
    rw [List.pairwise_map]
    exact hdis
  rw [isMapped_iff_exists (sortedRanges_sorted regions) hsep fun x hx hle => ?_]
  · constructor
    · rintro ⟨x, hx, hin⟩
      obtain ⟨r, hr, rfl⟩ := mem_sortedRanges.mp hx
      exact ⟨r, hr, hin⟩
    · rintro ⟨r, hr, hin⟩
      exact ⟨(r.base, r.stop), mem_sortedRanges.mpr ⟨r, hr, rfl⟩, hin⟩
  · obtain ⟨r, _, rfl⟩ := mem_sortedRanges.mp hx
    simp only [Region.stop, saturatingAdd] at *
    omega

/-- A little-endian word of up to eight bytes; what is past them is not read. -/
def readWord (bytes : List UInt8) : ℕ := leBytes (bytes.take 8)

end Nemclass.Scan
