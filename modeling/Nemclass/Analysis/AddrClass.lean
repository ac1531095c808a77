import Mathlib.Data.List.Pairwise
import Nemclass.Analysis.RegionIndex

/-! What kind of memory an address falls in, by the binary search of the index, against a scan of
the sections in the order of their starts. The index looks at one range only, the last that starts
at or below the address; a section below it that covers the address too is not seen. -/
namespace Nemclass.Analysis
open PartitionPoint Usize

inductive AddrClass where
  | unmapped
  | data (module : Option String)
  | executable (module : Option String)
deriving DecidableEq, Repr

/-- `Section` with the name of its backing file. -/
structure ModuleSection extends Section where
  module : Option String
deriving DecidableEq, Repr

/-- `RegionIndex::Range` with the name of its backing file. -/
structure ModuleRange extends MappedRange where
  module : Option String
deriving DecidableEq, Repr

/-- The index with the names that a class reports. -/
structure ModuleIndex where
  ranges : List ModuleRange

namespace ModuleIndex

def fromSections (sections : List ModuleSection) : ModuleIndex :=
  ⟨((sections.filter (·.size ≠ 0)).map fun s =>
    ⟨⟨s.base, saturatingAdd s.base s.size, s.execute⟩, s.module⟩).mergeSort
      fun a b => a.start ≤ b.start⟩

def covering (index : ModuleIndex) (addr : ℕ) : Option ModuleRange :=
  match partitionPoint (·.start ≤ addr) index.ranges with
  | 0 => none
  | idx + 1 => index.ranges[idx]?.filter (addr < ·.stop)

def classify (index : ModuleIndex) (addr : ℕ) : AddrClass :=
  match index.covering addr with
  | none => .unmapped
  | some r => if r.execute then .executable r.module else .data r.module

def isExecutable (index : ModuleIndex) (addr : ℕ) : Bool :=
  (index.covering addr).any (·.execute)

def isMapped (index : ModuleIndex) (addr : ℕ) : Bool := (index.covering addr).isSome

end ModuleIndex

section Scan

/-- The sections in the order of their starts. -/
def byStart (sections : List ModuleSection) : List ModuleSection :=
  sections.mergeSort fun a b => a.base ≤ b.base

/-- An address inside a section that is not empty. -/
def ModuleSection.Covers (s : ModuleSection) (addr : ℕ) : Prop :=
  s.size ≠ 0 ∧ s.base ≤ addr ∧ addr < s.base + s.size

instance (s : ModuleSection) (addr : ℕ) : Decidable (s.Covers addr) := by
  unfold ModuleSection.Covers
  infer_instance

/-- The first section in the order of the starts that covers the address. -/
def firstCovering (sections : List ModuleSection) (addr : ℕ) : Option ModuleSection :=
  (byStart sections).find? fun s => s.Covers addr

def ModuleSection.addrClass (s : ModuleSection) : AddrClass :=
  if s.execute then .executable s.module else .data s.module

/-- The index says of an address what the first covering section is. -/
structure Answers (sections : List ModuleSection) (addr : ℕ) : Prop where
  classify : (ModuleIndex.fromSections sections).classify addr =
    ((firstCovering sections addr).map ModuleSection.addrClass).getD .unmapped
  isExecutable : (ModuleIndex.fromSections sections).isExecutable addr =
    (firstCovering sections addr).any (·.execute)
  isMapped : (ModuleIndex.fromSections sections).isMapped addr =
    (firstCovering sections addr).isSome

def nonEmpty (sections : List ModuleSection) : List ModuleSection :=
  (byStart sections).filter (·.size ≠ 0)

/-- Of the sections that are not empty, `first` is the first to cover the address and `last` the
last to start at or below it; `last` ends before the address or is of another class. -/
structure Overrules (sections : List ModuleSection) (addr : ℕ) (first last : ModuleSection) :
    Prop where
  first_covers : ∃ pre post, nonEmpty sections = pre ++ first :: post ∧ first.Covers addr ∧
    ∀ s ∈ pre, ¬ s.Covers addr
  last_starts : ∃ pre post, nonEmpty sections = pre ++ last :: post ∧ last.base ≤ addr ∧
    ∀ s ∈ post, addr < s.base
  differs : last.stop ≤ addr ∨ last.addrClass ≠ first.addrClass

end Scan

section Index
variable (sections : List ModuleSection) (addr : ℕ)

def ModuleSection.range (s : ModuleSection) : ModuleRange := ⟨⟨s.base, s.stop, s.execute⟩, s.module⟩

theorem startLe_trans (a b c : ModuleSection) (hab : decide (a.base ≤ b.base) = true)
    (hbc : decide (b.base ≤ c.base) = true) : decide (a.base ≤ c.base) = true := by
  rw [decide_eq_true_eq] at *
  exact hab.trans hbc

theorem startLe_total (a b : ModuleSection) :
    (decide (a.base ≤ b.base) || decide (b.base ≤ a.base)) = true := by
  rw [Bool.or_eq_true, decide_eq_true_eq, decide_eq_true_eq]
  exact Nat.le_total _ _

/-- The ranges of the index are those of the sections in order. -/
theorem ranges_fromSections : (ModuleIndex.fromSections sections).ranges =
    (nonEmpty sections).map ModuleSection.range := by
  rw [nonEmpty, byStart, filter_mergeSort startLe_trans startLe_total]
  exact (List.map_mergeSort (f := ModuleSection.range)
    (s := fun a b : ModuleRange => decide (a.start ≤ b.start)) fun _ _ _ _ => rfl).symm

theorem partitioned_nonEmpty :
    Partitioned (fun s : ModuleSection => s.base ≤ addr) (nonEmpty sections) := by
  have hsorted := (List.pairwise_mergeSort startLe_trans startLe_total sections).filter
    fun s => decide (s.size ≠ 0)
  refine hsorted.imp fun h hb => ?_
  rw [decide_eq_true_eq] at *
  exact h.trans hb

/-- The last section to start at or below the address. -/
def lastStarting : Option ModuleSection := ((nonEmpty sections).filter (·.base ≤ addr)).getLast?

theorem covering_fromSections : (ModuleIndex.fromSections sections).covering addr =
    ((lastStarting sections addr).filter (addr < ·.stop)).map ModuleSection.range := by
  have hpart := partitioned_nonEmpty sections addr
  have hpoint : partitionPoint (fun r : ModuleRange => r.start ≤ addr)
      ((nonEmpty sections).map ModuleSection.range) =
      partitionPoint (fun s : ModuleSection => s.base ≤ addr) (nonEmpty sections) := by
    rw [partitionPoint, List.takeWhile_map, List.length_map]
    rfl
  rw [ModuleIndex.covering, ranges_fromSections, hpoint, lastStarting]
  split
  · next hzero => rw [filter_eq_nil_of_partitionPoint hpart hzero]; rfl
  · next idx hidx =>
    rw [List.getElem?_map, getElem?_partitionPoint hpart hidx, Option.filter_map]
    rfl

theorem firstCovering_eq_some {first : ModuleSection} : firstCovering sections addr = some first ↔
    ∃ pre post, nonEmpty sections = pre ++ first :: post ∧ first.Covers addr ∧
      ∀ s ∈ pre, ¬ s.Covers addr := by
  have hfilter : firstCovering sections addr =
      (nonEmpty sections).find? fun s => s.Covers addr := by
    rw [firstCovering, nonEmpty, List.find?_filter]
    congr 1
    funext s
    by_cases hsize : s.size = 0 <;> simp [ModuleSection.Covers, hsize]
  rw [hfilter, List.find?_eq_some_iff_append]
  constructor
  · rintro ⟨hcovers, pre, post, hsplit, hpre⟩
    exact ⟨pre, post, hsplit, by simpa using hcovers, fun s hs => by simpa using hpre s hs⟩
  · rintro ⟨pre, post, hsplit, hcovers, hpre⟩
    exact ⟨by simpa using hcovers, pre, post, hsplit, fun s hs => by simpa using hpre s hs⟩

theorem lastStarting_eq_some {last : ModuleSection} : lastStarting sections addr = some last ↔
    ∃ pre post, nonEmpty sections = pre ++ last :: post ∧ last.base ≤ addr ∧
      ∀ s ∈ post, addr < s.base := by
  rw [lastStarting, getLast?_filter_eq_some (partitioned_nonEmpty sections addr)]
  simp

/-- The section that decides the answer of the index. -/
def decided : Option ModuleSection := (lastStarting sections addr).filter (addr < ·.stop)

/-- Whether an address of this class can be executed. -/
def AddrClass.executes : AddrClass → Bool
  | executable _ => true
  | _ => false

theorem executes_addrClass (s : ModuleSection) : s.addrClass.executes = s.execute := by
  unfold ModuleSection.addrClass
  split <;> simp_all [AddrClass.executes]

theorem addrClass_ne_unmapped (s : ModuleSection) : s.addrClass ≠ .unmapped := by
  unfold ModuleSection.addrClass
  split <;> exact nofun

theorem any_execute (o : Option ModuleSection) :
    o.any (·.execute) = (o.map ModuleSection.addrClass).any AddrClass.executes := by
  cases o with
  | none => rfl
  | some s => exact (executes_addrClass s).symm

/-- The index and the scan agree exactly where the classes of their sections do. -/
theorem answers_iff_map : Answers sections addr ↔
    (decided sections addr).map ModuleSection.addrClass =
      (firstCovering sections addr).map ModuleSection.addrClass := by
  have hcovering := covering_fromSections sections addr
  change _ = (decided sections addr).map ModuleSection.range at hcovering
  have hclassify : (ModuleIndex.fromSections sections).classify addr =
      ((decided sections addr).map ModuleSection.addrClass).getD .unmapped := by
    rw [ModuleIndex.classify, hcovering]
    cases decided sections addr <;> rfl
  constructor
  · intro h
    have hclass := hclassify.symm.trans h.classify
    cases hd : decided sections addr with
    | none =>
      cases hf : firstCovering sections addr with
      | none => rfl
      | some first =>
        rw [hd, hf] at hclass
        exact absurd hclass.symm (addrClass_ne_unmapped first)
    | some last =>
      cases hf : firstCovering sections addr with
      | none =>
        rw [hd, hf] at hclass
        exact absurd hclass (addrClass_ne_unmapped last)
      | some first =>
        rw [hd, hf] at hclass
        exact congrArg some hclass
  · intro h
    have hsome := congrArg Option.isSome h
    rw [Option.isSome_map, Option.isSome_map] at hsome
    refine ⟨hclassify.trans (congrArg (Option.getD · .unmapped) h), ?_, ?_⟩
    · rw [ModuleIndex.isExecutable, hcovering, any_execute, ← h, ← any_execute]
      cases decided sections addr <;> rfl
    · rw [ModuleIndex.isMapped, hcovering, Option.isSome_map, hsome]

theorem covers_of_decided {s : ModuleSection} (h : decided sections addr = some s) :
    s ∈ nonEmpty sections ∧ s.Covers addr := by
  obtain ⟨hlast, hstop⟩ := Option.filter_eq_some_iff.mp h
  obtain ⟨hmem, hbase⟩ := List.mem_filter.mp (List.mem_of_getLast? hlast)
  have hsize := of_decide_eq_true (List.mem_filter.mp hmem).2
  have hlt := of_decide_eq_true hstop
  have hclamp : s.stop ≤ s.base + s.size := min_le_left _ _
  exact ⟨hmem, hsize, of_decide_eq_true hbase, hlt.trans_le hclamp⟩

/-- The index answers as the scan does exactly where no later section overrules the first one. -/
theorem answers_iff :
    Answers sections addr ↔ ∀ first last, ¬ Overrules sections addr first last := by
  rw [answers_iff_map]
  cases hf : firstCovering sections addr with
  | none =>
    refine iff_of_true ?_ fun first last h => ?_
    · cases hd : decided sections addr with
      | none => rfl
      | some s =>
        obtain ⟨hmem, hcovers⟩ := covers_of_decided sections addr hd
        have hnone := List.find?_eq_none.mp hf s (List.mem_filter.mp hmem).1
        exact absurd (decide_eq_true hcovers) hnone
    · rw [(firstCovering_eq_some sections addr).mpr h.first_covers] at hf
      cases hf
  | some first =>
    obtain ⟨pre, post, hsplit, hcovers, -⟩ := (firstCovering_eq_some sections addr).mp hf
    have hmem : first ∈ (nonEmpty sections).filter (·.base ≤ addr) :=
      List.mem_filter.mpr ⟨hsplit ▸ List.mem_append_right pre List.mem_cons_self,
        decide_eq_true hcovers.2.1⟩
    have hlast := List.getLast?_eq_some_getLast (List.ne_nil_of_mem hmem)
    generalize ((nonEmpty sections).filter (·.base ≤ addr)).getLast _ = last at hlast
    change lastStarting sections addr = some last at hlast
    rw [decided, hlast]
    constructor
    · rintro h first' last' ⟨hfirst', hlast', hdiffers⟩
      obtain rfl : first = first' :=
        Option.some.inj (hf.symm.trans ((firstCovering_eq_some sections addr).mpr hfirst'))
      obtain rfl : last = last' :=
        Option.some.inj (hlast.symm.trans ((lastStarting_eq_some sections addr).mpr hlast'))
      rcases hdiffers with hpassed | hclass
      · rw [Option.filter_some, if_neg (by simpa using hpassed)] at h
        cases h
      · by_cases hlt : addr < last.stop
        · rw [Option.filter_some, if_pos (by simpa using hlt)] at h
          exact hclass (Option.some.inj h)
        · rw [Option.filter_some, if_neg (by simpa using hlt)] at h
          cases h
    · intro h
      have hagree := h first last
      have hstop : addr < last.stop := by
        by_contra hpassed
        exact hagree ⟨(firstCovering_eq_some sections addr).mp hf,
          (lastStarting_eq_some sections addr).mp hlast, .inl (Nat.le_of_not_lt hpassed)⟩
      rw [Option.filter_some, if_pos (by simpa using hstop)]
      by_contra hclass
      exact hagree ⟨(firstCovering_eq_some sections addr).mp hf,
        (lastStarting_eq_some sections addr).mp hlast, .inr fun heq => hclass (congrArg some heq)⟩

variable {sections addr}

/-- Sections that do not overlap are never overruled, the last address of all apart. -/
theorem answers_of_disjoint (h : Disjoint (sections.map ModuleSection.toSection))
    (haddr : addr < usizeMax) : Answers sections addr := by
  rw [answers_iff]
  rintro first last ⟨⟨pre, post, hsplit, ⟨hsize, hbase, hend⟩, -⟩, ⟨pre', post', hsplit', hle, hpast⟩,
    hdiffers⟩
  have hfirst : first ∈ nonEmpty sections := hsplit ▸ List.mem_append_right pre List.mem_cons_self
  have hlast : last ∈ nonEmpty sections :=
    hsplit' ▸ List.mem_append_right pre' List.mem_cons_self
  have hapart : (nonEmpty sections).Pairwise fun a b => a.stop ≤ b.base ∨ b.stop ≤ a.base :=
    ((List.mergeSort_perm sections _).symm.pairwise (List.pairwise_map.mp h) Or.symm).filter _
  have hstop : addr < first.stop := by
    rw [Section.stop, saturatingAdd]
    omega
  have hpos := of_decide_eq_true (List.mem_filter.mp hlast).2
  have hne : first ≠ last := by
    rintro rfl
    rcases hdiffers with hpassed | hclass
    · omega
    · exact hclass rfl
  have hsymm : Std.Symm fun a b : ModuleSection => a.stop ≤ b.base ∨ b.stop ≤ a.base :=
    ⟨fun _ _ => Or.symm⟩
  have hover := hapart.forall hfirst hlast hne
  have hsorted := partitioned_nonEmpty sections last.base
  rw [hsplit'] at hsorted hfirst
  have hbefore : first ∈ pre' := by
    rcases List.mem_append.mp hfirst with hpre | hrest
    · exact hpre
    · rcases List.mem_cons.mp hrest with heq | hpost
      · exact absurd heq hne
      · have := hpast first hpost
        omega
  have horder := of_decide_eq_true ((List.pairwise_append.mp hsorted).2.2 first hbefore last
    List.mem_cons_self (decide_eq_true le_rfl))
  rw [Section.stop, Section.stop, saturatingAdd, saturatingAdd] at hover
  omega

/-- The index without names answers the same. -/
theorem isExecutable_fromSections (sections : List ModuleSection) (addr : ℕ) :
    (RegionIndex.fromSections (sections.map ModuleSection.toSection)).isExecutable addr =
      (ModuleIndex.fromSections sections).isExecutable addr := by
  have hranges : (RegionIndex.fromSections (sections.map ModuleSection.toSection)).ranges =
      (ModuleIndex.fromSections sections).ranges.map ModuleRange.toMappedRange := by
    refine Eq.trans ?_ (List.map_mergeSort (f := ModuleRange.toMappedRange)
      (s := fun a b : MappedRange => decide (a.start ≤ b.start)) fun _ _ _ _ => rfl).symm
    rw [RegionIndex.fromSections, List.filter_map, List.map_map, List.map_map]
    rfl
  have hpoint : partitionPoint (fun r : MappedRange => r.start ≤ addr)
      ((ModuleIndex.fromSections sections).ranges.map ModuleRange.toMappedRange) =
      partitionPoint (fun r : ModuleRange => r.start ≤ addr)
        (ModuleIndex.fromSections sections).ranges := by
    rw [partitionPoint, List.takeWhile_map, List.length_map]
    rfl
  rw [RegionIndex.isExecutable, RegionIndex.covering, hranges, hpoint, ModuleIndex.isExecutable,
    ModuleIndex.covering]
  cases partitionPoint (fun r : ModuleRange => r.start ≤ addr)
    (ModuleIndex.fromSections sections).ranges with
  | zero => rfl
  | succ idx =>
    simp only [List.getElem?_map, Option.filter_map, Option.any_map]
    rfl

end Index

/-- Data inside a code section. -/
def nestedSections : List ModuleSection :=
  [⟨⟨0x1000, 0x3000, true⟩, none⟩, ⟨⟨0x2000, 0x1000, false⟩, none⟩]

/-- Behind the inner section the index finds nothing, though the outer one reaches there. -/
theorem nestedSections_unmapped :
    (ModuleIndex.fromSections nestedSections).classify 0x3000 = .unmapped ∧
    firstCovering nestedSections 0x3000 = some ⟨⟨0x1000, 0x3000, true⟩, none⟩ ∧
    ¬ Answers nestedSections 0x3000 := by
  have hsorted : byStart nestedSections = nestedSections :=
    List.mergeSort_of_pairwise (by decide)
  have hfirst : firstCovering nestedSections 0x3000 = some ⟨⟨0x1000, 0x3000, true⟩, none⟩ := by
    rw [firstCovering, hsorted]
    rfl
  have hclassify : (ModuleIndex.fromSections nestedSections).classify 0x3000 = .unmapped := by
    rw [ModuleIndex.classify, ModuleIndex.covering, ranges_fromSections, nonEmpty, hsorted]
    rfl
  refine ⟨hclassify, hfirst, fun h => ?_⟩
  have hclass := hclassify.symm.trans h.classify
  rw [hfirst] at hclass
  cases hclass

end Nemclass.Analysis
