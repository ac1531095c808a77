import Nemclass.Lib.PartitionPoint
import Nemclass.Scan.Target

/-! A process's mappings, as its memory map lists them, the index over them that answers
whether an address is executable, and the executable regions of a module. A map that
cannot be read is `none`. -/
namespace Nemclass.Analysis
open PartitionPoint Scan Usize

/-- `Section`, without the protection bits, names and backing files that nothing here reads. -/
structure Section where
  base : ℕ
  size : ℕ
  execute : Bool
deriving DecidableEq, Repr

/-- `RegionIndex::Range`: the half-open range of a mapping. -/
structure MappedRange where
  start : ℕ
  stop : ℕ
  execute : Bool
deriving DecidableEq, Repr

structure RegionIndex where
  ranges : List MappedRange

namespace RegionIndex

def fromSections (sections : List Section) : RegionIndex :=
  ⟨((sections.filter (·.size ≠ 0)).map fun s =>
    ⟨s.base, saturatingAdd s.base s.size, s.execute⟩).mergeSort fun a b => a.start ≤ b.start⟩

def fromPid : Option (List Section) → Except Error RegionIndex
  | none => .error .processDied
  | some sections => .ok (fromSections sections)

/-- The last range that starts at or below `addr`, where `addr` is below its end. -/
def covering (index : RegionIndex) (addr : ℕ) : Option MappedRange :=
  match partitionPoint (·.start ≤ addr) index.ranges with
  | 0 => none
  | idx + 1 => index.ranges[idx]?.filter (addr < ·.stop)

def isExecutable (index : RegionIndex) (addr : ℕ) : Bool :=
  (index.covering addr).any (·.execute)

end RegionIndex

def Section.stop (s : Section) : ℕ := saturatingAdd s.base s.size

/-- The part of a section between two addresses. -/
def Section.clip (base stop : ℕ) (s : Section) : Option (ℕ × ℕ) :=
  let rs := max s.base base
  let re := min s.stop stop
  if rs < re then some (rs, re) else none

/-- The executable parts of a module's span, in ascending order. -/
def moduleExecRegions (maps : Option (List Section)) (base size : ℕ) :
    Except Error (List (ℕ × ℕ)) :=
  match maps with
  | none => .error .processDied
  | some sections => .ok
    (((sections.filter (·.execute)).filterMap (Section.clip base (saturatingAdd base size))).mergeSort
      fun a b => a.1 ≤ b.1)

/-- Mappings do not overlap. -/
def Disjoint (sections : List Section) : Prop :=
  sections.Pairwise fun a b => a.stop ≤ b.base ∨ b.stop ≤ a.base

theorem Section.clip_eq_some {base stop : ℕ} {s : Section} {r : ℕ × ℕ}
    (h : s.clip base stop = some r) : r.1 < r.2 ∧ s.base ≤ r.1 ∧ r.2 ≤ s.stop := by
  unfold Section.clip at h
  dsimp only at h
  split_ifs at h with hlt
  cases h
  exact ⟨hlt, le_max_left _ _, min_le_left _ _⟩

/-- The executable regions of a module lie one behind the other. -/
theorem moduleExecRegions_separated {sections : List Section} (hdisjoint : Disjoint sections)
    {base size : ℕ} {regions : List (ℕ × ℕ)}
    (h : moduleExecRegions (some sections) base size = .ok regions) :
    (∀ r ∈ regions, r.1 < r.2) ∧ regions.Pairwise fun a b => a.2 ≤ b.1 := by
  have hclips := Except.ok.inj h
  have hnonempty : ∀ r ∈ regions, r.1 < r.2 := by
    intro r hr
    obtain ⟨s, -, hclip⟩ := List.mem_filterMap.mp (List.mem_mergeSort.mp (hclips ▸ hr))
    exact (Section.clip_eq_some hclip).1
  have hsorted : regions.Pairwise fun a b => decide (a.1 ≤ b.1) = true :=
    hclips ▸ List.pairwise_mergeSort (fun a b c => by simp only [decide_eq_true_eq]; omega)
      (fun a b => by simp only [Bool.or_eq_true, decide_eq_true_eq]; omega) _
  have hapart : regions.Pairwise fun a b => a.2 ≤ b.1 ∨ b.2 ≤ a.1 := by
    refine hclips ▸ (List.mergeSort_perm _ _).symm.pairwise ?_ fun h => Or.symm h
    refine List.Pairwise.filterMap _ ?_ (hdisjoint.filter _)
    intro s t hst r hr r' hr'
    have := Section.clip_eq_some hr
    have := Section.clip_eq_some hr'
    omega
  refine ⟨hnonempty, (hsorted.and hapart).imp_of_mem fun {a b} ha hb hab => ?_⟩
  have := hnonempty a ha
  have := hnonempty b hb
  have := decide_eq_true_eq.mp hab.1
  omega

end Nemclass.Analysis
