import Mathlib.Data.Set.Lattice
import Mathlib.Order.Interval.Set.LinearOrder
import Nemclass.Scan.Ranges
import Nemclass.Scan.RegionFilter

/-! What the region filter is for: the addresses of the regions that lie in the window
and, when there is an allowlist, in one of its spans. The filter drops the spans of no
size before it looks whether there is an allowlist, so a list of such spans alone
admits the whole window. -/
namespace Nemclass.Scan
open Usize

/-- The addresses of a region, up to its saturated end. -/
def Region.addresses (r : Region) : Set ℕ := Set.Ico r.base r.stop

/-- The addresses of a list of regions. -/
def covered (rs : List Region) : Set ℕ := ⋃ r ∈ rs, r.addresses

theorem mem_covered {rs : List Region} {a : ℕ} :
    a ∈ covered rs ↔ ∃ r ∈ rs, r.base ≤ a ∧ a < r.stop := by
  simp only [covered, Set.mem_iUnion, exists_prop, Region.addresses, Set.mem_Ico]

@[simp] theorem covered_nil : covered [] = ∅ := by
  simp [covered]

@[simp] theorem covered_cons (r : Region) (rs : List Region) :
    covered (r :: rs) = r.addresses ∪ covered rs := by
  simp [covered, Set.iUnion_or, Set.iUnion_union_distrib]

theorem covered_congr {rs rs' : List Region} (h : ∀ r, r ∈ rs ↔ r ∈ rs') :
    covered rs = covered rs' := by
  ext a
  simp only [mem_covered, h]

theorem covered_mergeSort (rs : List Region) (le : Region → Region → Bool) :
    covered (rs.mergeSort le) = covered rs :=
  covered_congr fun _ => List.mem_mergeSort

theorem covered_flatMap (rs : List Region) (pieces : Region → List Region) :
    covered (rs.flatMap pieces) = ⋃ r ∈ rs, covered (pieces r) := by
  ext a
  simp only [mem_covered, List.mem_flatMap, Set.mem_iUnion, exists_prop]
  constructor
  · rintro ⟨p, ⟨r, hr, hp⟩, hin⟩
    exact ⟨r, hr, p, hp, hin⟩
  · rintro ⟨r, hr, p, hp, hin⟩
    exact ⟨p, ⟨r, hr, hp⟩, hin⟩

/-- A region of no size has no address. -/
theorem Region.size_pos_of_mem {r : Region} {a : ℕ} (h : a ∈ r.addresses) : 0 < r.size := by
  obtain ⟨hbase, hstop⟩ := h
  simp only [Region.stop, saturatingAdd] at hstop
  omega

/-- Regions in the order of their bases, no two of which share an address and none of which
has no size. -/
structure WellFormed (rs : List Region) : Prop where
  ascending : rs.Pairwise fun a b => a.base < b.base
  disjoint : rs.Pairwise Region.Disjoint
  sized : ∀ r ∈ rs, 0 < r.size

/-- Of two disjoint regions in order, the first ends before the second begins. -/
theorem WellFormed.toAscending {rs : List Region} (h : WellFormed rs) : Ascending rs := by
  refine (h.ascending.and h.disjoint).imp fun {a b} hab => ?_
  have := a.stop_le
  simp only [Region.Disjoint, Region.stop, saturatingAdd] at *
  omega

/-- Every address lies in at most one of the regions. -/
theorem WellFormed.address_once {rs : List Region} (h : WellFormed rs) (a : ℕ) :
    rs.countP (fun r => r.base ≤ a ∧ a < r.stop) ≤ 1 := by
  have hasc := h.toAscending
  clear h
  induction rs with
  | nil => simp
  | cons r rs ih =>
    obtain ⟨hfirst, hrest⟩ := List.pairwise_cons.mp hasc
    rw [List.countP_cons]
    split
    · rename_i hin
      rw [decide_eq_true_eq] at hin
      have hnone : rs.countP (fun r => r.base ≤ a ∧ a < r.stop) = 0 := by
        refine List.countP_eq_zero.mpr fun x hx => ?_
        have := hfirst x hx
        rw [decide_eq_true_eq]
        omega
      omega
    · exact ih hrest

namespace RegionFilter
variable {f : RegionFilter}

/-- The addresses a filter is to let through: those of its window and, if it has an
allowlist, of one of the listed spans. -/
def admitted (f : RegionFilter) : Set ℕ :=
  {a | a ∈ Set.Ico f.start f.stop ∧ (f.include_ ≠ [] → a ∈ covered f.include_)}

/-- Extending a span over a later one that it overlaps or abuts joins their addresses. -/
theorem addresses_extend {last r : Region} (hle : last.base ≤ r.base) (hmeet : r.base ≤ last.stop) :
    ({ last with size := max last.stop r.stop - last.base } : Region).addresses =
      last.addresses ∪ r.addresses := by
  have hstop : ({ last with size := max last.stop r.stop - last.base } : Region).stop =
      max last.stop r.stop :=
    Region.stop_mk (by omega) (Nat.max_le.mpr ⟨last.stop_le, r.stop_le⟩)
  ext a
  simp only [Region.addresses, Set.mem_Ico, Set.mem_union, hstop]
  omega

theorem covered_coalesce (last : Region) (rest : List Region)
    (hsorted : (last :: rest).Pairwise (fun a b => a.base ≤ b.base)) :
    covered (coalesce last rest) = covered (last :: rest) := by
  induction rest generalizing last with
  | nil => rfl
  | cons r rest ih =>
    obtain ⟨hlast, hrest⟩ := List.pairwise_cons.mp hsorted
    unfold coalesce
    split
    · rename_i hmeet
      have hjoined := ih { last with size := max last.stop r.stop - last.base }
        (List.pairwise_cons.mpr ⟨fun x hx => hlast x (List.mem_cons_of_mem r hx),
          (List.pairwise_cons.mp hrest).2⟩)
      rw [hjoined, covered_cons, addresses_extend (hlast r List.mem_cons_self) hmeet, covered_cons,
        covered_cons, Set.union_assoc]
    · rw [covered_cons, covered_cons, ih r hrest]

/-- Merging the allowlist changes none of its addresses. -/
theorem covered_mergedInclude (f : RegionFilter) : covered f.mergedInclude = covered f.include_ := by
  have hsized : covered (f.include_.filter (0 < ·.size)) = covered f.include_ := by
    ext a
    simp only [mem_covered, List.mem_filter, decide_eq_true_eq]
    constructor
    · rintro ⟨r, ⟨hr, _⟩, hin⟩
      exact ⟨r, hr, hin⟩
    · rintro ⟨r, hr, hin⟩
      exact ⟨r, ⟨hr, Region.size_pos_of_mem hin⟩, hin⟩
  have hsorted := pairwise_mergeSort_base (f.include_.filter (0 < ·.size))
  have hperm := covered_mergeSort (f.include_.filter (0 < ·.size)) fun a b => a.base ≤ b.base
  rw [← hsized, ← hperm]
  unfold mergedInclude
  split
  · rename_i heq
    rw [heq]
  · rename_i r rest heq
    rw [heq] at hsorted ⊢
    exact covered_coalesce r rest hsorted

/-- Nothing is left of the allowlist exactly when no span of it has a size. -/
theorem mergedInclude_eq_nil : f.mergedInclude = [] ↔ ∀ r ∈ f.include_, r.size = 0 := by
  have hne (last : Region) (rest : List Region) : coalesce last rest ≠ [] := by
    induction rest generalizing last with
    | nil => simp [coalesce]
    | cons r rest ih =>
      unfold coalesce
      split
      · exact ih _
      · exact List.cons_ne_nil _ _
  have hsort : ((f.include_.filter (0 < ·.size)).mergeSort fun a b => a.base ≤ b.base) = [] ↔
      ∀ r ∈ f.include_, r.size = 0 := by
    rw [← List.length_eq_zero_iff, List.length_mergeSort, List.length_eq_zero_iff,
      List.filter_eq_nil_iff]
    simp
  rw [← hsort, mergedInclude]
  split
  · rename_i heq
    simp [heq]
  · rename_i r rest heq
    simp [heq, hne]

theorem covered_clip (lo hi : ℕ) (inc : Region) :
    covered (clip lo hi inc).toList = Set.Ico lo hi ∩ inc.addresses := by
  ext a
  simp only [mem_covered, Option.mem_toList, Set.mem_inter_iff, Set.mem_Ico, Region.addresses]
  constructor
  · rintro ⟨r, hr, hin⟩
    have := clip_eq_some hr
    omega
  · rintro ⟨hwin, hinc⟩
    have hlt : max lo inc.base < min hi inc.stop := by omega
    refine ⟨⟨max lo inc.base, min hi inc.stop - max lo inc.base⟩, if_pos hlt, ?_⟩
    rw [Region.stop_mk hlt.le ((Nat.min_le_right _ _).trans inc.stop_le)]
    exact ⟨by show max _ _ ≤ a; omega, by omega⟩

/-- A region keeps its addresses in the window and, unless nothing is left of the allowlist, in
one of its spans. -/
theorem covered_pieces (inc : List Region) (r : Region) :
    covered (f.pieces inc r) =
      {a | a ∈ r.addresses ∩ Set.Ico f.start f.stop ∧ (inc ≠ [] → a ∈ covered inc)} := by
  have hcut : r.addresses ∩ Set.Ico f.start f.stop =
      Set.Ico (max r.base f.start) (min r.stop f.stop) := by
    rw [Region.addresses, Set.Ico_inter_Ico]
  rw [hcut, pieces]
  split
  · rename_i hempty
    simp [Set.Ico_eq_empty_of_le hempty]
  · rename_i hlt
    split
    · rename_i hinc
      rw [List.isEmpty_iff] at hinc
      subst hinc
      rw [covered_cons, covered_nil, Set.union_empty, Region.addresses,
        Region.stop_mk (by omega) ((Nat.min_le_left _ _).trans r.stop_le)]
      ext a
      simp
    · rename_i hinc
      rw [List.isEmpty_iff] at hinc
      ext a
      simp only [mem_covered, List.mem_filterMap, Set.mem_ofPred_eq, ne_eq, hinc, not_false_eq_true,
        forall_const]
      have hclip (i : Region) := Set.ext_iff.mp
        (covered_clip (max r.base f.start) (min r.stop f.stop) i) a
      simp only [mem_covered, Option.mem_toList, Region.addresses, Set.mem_inter_iff] at hclip
      constructor
      · rintro ⟨p, ⟨i, hi, hp⟩, hin⟩
        obtain ⟨hwin, hmem⟩ := (hclip i).mp ⟨p, hp, hin⟩
        exact ⟨hwin, i, hi, hmem⟩
      · rintro ⟨hwin, i, hi, hmem⟩
        obtain ⟨p, hp, hin⟩ := (hclip i).mpr ⟨hwin, hmem⟩
        exact ⟨p, ⟨i, hi, hp⟩, hin⟩

/-- What the filter lets through: the window, cut by the allowlist unless no listed span has a
size. -/
theorem covered_apply (f : RegionFilter) (regions : List Region) :
    covered (f.apply regions) = {a | a ∈ covered regions ∩ Set.Ico f.start f.stop ∧
      ((∃ r ∈ f.include_, 0 < r.size) → a ∈ covered f.include_)} := by
  have hsized : f.mergedInclude ≠ [] ↔ ∃ r ∈ f.include_, 0 < r.size := by
    rw [ne_eq, mergedInclude_eq_nil]
    push Not
    simp only [Nat.pos_iff_ne_zero]
  unfold apply
  split
  · rename_i hfree
    simp only [isUnrestricted, Bool.and_eq_true, decide_eq_true_eq, List.isEmpty_iff] at hfree
    obtain ⟨⟨hstart, hstop⟩, hinc⟩ := hfree
    ext a
    simp only [hinc, hstart, hstop, Set.mem_ofPred_eq, Set.mem_inter_iff, Set.mem_Ico,
      List.not_mem_nil, false_and, exists_false, false_imp_iff, and_true]
    refine ⟨fun ha => ⟨ha, Nat.zero_le _, ?_⟩, fun ha => ha.1⟩
    obtain ⟨r, _, hin⟩ := mem_covered.mp ha
    exact Nat.lt_of_lt_of_le hin.2 r.stop_le
  · split
    · rename_i hempty
      simp [Set.Ico_eq_empty_of_le hempty]
    · rw [covered_mergeSort, covered_flatMap, ← covered_mergedInclude, ← hsized]
      ext a
      simp only [covered_pieces, Set.mem_iUnion, exists_prop, Set.mem_ofPred_eq, Set.mem_inter_iff]
      constructor
      · rintro ⟨r, hr, ⟨hin, hwin⟩, hinc⟩
        exact ⟨⟨mem_covered.mpr ⟨r, hr, hin⟩, hwin⟩, hinc⟩
      · rintro ⟨⟨hin, hwin⟩, hinc⟩
        obtain ⟨r, hr, hmem⟩ := mem_covered.mp hin
        exact ⟨r, hr, ⟨hmem, hwin⟩, hinc⟩

/-- The filter lets through what it admits unless the allowlist has spans but none of any size,
and the window holds an address. -/
theorem covered_apply_eq_admitted_iff (f : RegionFilter) (regions : List Region) :
    covered (f.apply regions) = covered regions ∩ f.admitted ↔
      f.include_ = [] ∨ (∃ r ∈ f.include_, 0 < r.size) ∨
        covered regions ∩ Set.Ico f.start f.stop = ∅ := by
  have hadmitted : covered regions ∩ f.admitted = {a | a ∈ covered regions ∩
      Set.Ico f.start f.stop ∧ (f.include_ ≠ [] → a ∈ covered f.include_)} := by
    ext a
    simp only [admitted, Set.mem_inter_iff, Set.mem_ofPred_eq, and_assoc]
  rw [covered_apply, hadmitted]
  constructor
  · intro heq
    by_contra hnot
    push Not at hnot
    obtain ⟨hne, hsizeless, a, ha⟩ := hnot
    have hout : a ∉ covered f.include_ := fun hmem => by
      obtain ⟨r, hr, hin⟩ := mem_covered.mp hmem
      exact absurd (Region.size_pos_of_mem hin) (Nat.not_lt.mpr (hsizeless r hr))
    have hkept := (Set.ext_iff.mp heq a).mp ⟨ha, fun ⟨r, hr, hpos⟩ =>
      absurd hpos (Nat.not_lt.mpr (hsizeless r hr))⟩
    exact hout (hkept.2 hne)
  · rintro (hnil | hsized | hwindow)
    · simp [hnil]
    · have hne : f.include_ ≠ [] := fun hnil => by simp [hnil] at hsized
      simp [hsized, hne]
    · simp [hwindow]

/-- An allowlist of one span of no size admits nothing, and the filter lets everything through. -/
theorem covered_apply_sizeless_span :
    ¬ covered (apply { include_ := [⟨0x1000, 0⟩] } [⟨0x2000, 0x10⟩]) =
      covered [⟨0x2000, 0x10⟩] ∩ admitted { include_ := [⟨0x1000, 0⟩] } := by
  intro heq
  have hwalked : 0x2000 ∈ covered (apply { include_ := [⟨0x1000, 0⟩] } [⟨0x2000, 0x10⟩]) := by
    rw [covered_apply]
    refine ⟨⟨mem_covered.mpr ⟨_, List.mem_cons_self, by decide, by decide⟩, by decide⟩, ?_⟩
    rintro ⟨r, hr, hpos⟩
    obtain rfl := List.mem_singleton.mp hr
    exact absurd hpos (by decide)
  obtain ⟨r, hr, hin⟩ := mem_covered.mp ((heq ▸ hwalked).2.2 (by decide))
  obtain rfl := List.mem_singleton.mp hr
  exact absurd hin.2 (by decide)

theorem apply_of_isUnrestricted (h : f.isUnrestricted = true) (regions : List Region) :
    f.apply regions = regions :=
  if_pos h

/-- A filter that restricts anything returns only regions that have an address. -/
theorem lt_stop_of_mem_apply (h : f.isUnrestricted = false) {regions : List Region} {p : Region}
    (hp : p ∈ f.apply regions) : p.base < p.stop := by
  simp only [apply, h, Bool.false_eq_true, if_false] at hp
  split at hp
  · simp at hp
  · obtain ⟨r, _, hp⟩ := List.mem_flatMap.mp (List.mem_mergeSort.mp hp)
    exact (mem_pieces_bounds hp).2.2

/-- Well-formed regions are filtered to well-formed regions, and no address is walked twice. -/
theorem apply_wellFormed (f : RegionFilter) {regions : List Region} (h : WellFormed regions) :
    WellFormed (f.apply regions) ∧
      ∀ a, (f.apply regions).countP (fun r => r.base ≤ a ∧ a < r.stop) ≤ 1 := by
  suffices hwf : WellFormed (f.apply regions) from ⟨hwf, hwf.address_once⟩
  cases hfree : f.isUnrestricted with
  | true => rwa [apply_of_isUnrestricted hfree]
  | false =>
    have hasc := apply_ascending (f := f) h.toAscending
    refine ⟨hasc.imp_of_mem fun {a b} ha _ hab => ?_, hasc.disjoint, fun r hr => ?_⟩
    · exact Nat.lt_of_lt_of_le (lt_stop_of_mem_apply hfree ha) hab
    · exact Region.size_pos_of_mem ⟨Nat.le_refl r.base, lt_stop_of_mem_apply hfree hr⟩

/-- A window over two regions, the second of which saturates, with overlapping spans. -/
theorem apply_wellFormed_two :
    WellFormed (apply ⟨0x1008, usizeMax, [⟨0x1000, 0x18⟩, ⟨0x1010, usizeMax⟩]⟩
        [⟨0x1000, 0x20⟩, ⟨0x2000, usizeMax⟩]) ∧
      ∀ a, (apply ⟨0x1008, usizeMax, [⟨0x1000, 0x18⟩, ⟨0x1010, usizeMax⟩]⟩
        [⟨0x1000, 0x20⟩, ⟨0x2000, usizeMax⟩]).countP (fun r => r.base ≤ a ∧ a < r.stop) ≤ 1 :=
  apply_wellFormed _ ⟨by decide, by decide, by decide⟩

end RegionFilter

end Nemclass.Scan
