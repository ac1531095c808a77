import Nemclass.Scan.Target

/-! The region filter clamps a target's regions to a window and an allowlist.
Ascending disjoint regions stay so, whatever the allowlist overlaps. -/
namespace Nemclass.Scan
open Usize

/-- A half-open window `[start, stop)` and an allowlist of spans, empty meaning no allowlist. -/
structure RegionFilter where
  start : ℕ := 0
  stop : ℕ := usizeMax
  include_ : List Region := []
deriving DecidableEq, Repr

namespace RegionFilter

def isUnrestricted (f : RegionFilter) : Bool :=
  f.start = 0 && f.stop = usizeMax && f.include_.isEmpty

/-- Extends the last span over every span that overlaps or abuts it. -/
def coalesce (last : Region) : List Region → List Region
  | [] => [last]
  | r :: rest =>
    if r.base ≤ last.stop then
      coalesce { last with size := max last.stop r.stop - last.base } rest
    else last :: coalesce r rest

/-- The allowlist, sorted and coalesced. -/
def mergedInclude (f : RegionFilter) : List Region :=
  match (f.include_.filter (0 < ·.size)).mergeSort (fun a b => a.base ≤ b.base) with
  | [] => []
  | r :: rest => coalesce r rest

/-- The part of `[lo, hi)` inside one allowed span. -/
def clip (lo hi : ℕ) (inc : Region) : Option Region :=
  let a := max lo inc.base
  let b := min hi inc.stop
  if a < b then some ⟨a, b - a⟩ else none

/-- What one region contributes: its window clamp, cut by the allowlist if there is one. -/
def pieces (f : RegionFilter) (inc : List Region) (r : Region) : List Region :=
  let lo := max r.base f.start
  let hi := min r.stop f.stop
  if hi ≤ lo then []
  else if inc.isEmpty then [⟨lo, hi - lo⟩]
  else inc.filterMap (clip lo hi)

def apply (f : RegionFilter) (regions : List Region) : List Region :=
  if f.isUnrestricted then regions
  else if f.stop ≤ f.start then []
  else (regions.flatMap (f.pieces f.mergedInclude)).mergeSort (fun a b => a.base ≤ b.base)

end RegionFilter

namespace RegionFilter
variable {f : RegionFilter}

/-- Coalesced spans are separated by gaps and begin no earlier than the span being extended. -/
theorem coalesce_separated (last : Region) (rest : List Region)
    (hsorted : (last :: rest).Pairwise (fun a b => a.base ≤ b.base)) :
    (coalesce last rest).Pairwise (fun a b => a.stop < b.base) ∧
      ∀ r ∈ coalesce last rest, last.base ≤ r.base := by
  induction rest generalizing last with
  | nil => simp [coalesce]
  | cons r rest ih =>
    rw [List.pairwise_cons] at hsorted
    obtain ⟨hlast, hrest⟩ := hsorted
    unfold coalesce
    split
    · refine ih _ (List.pairwise_cons.mpr ⟨fun x hx => ?_, (List.pairwise_cons.mp hrest).2⟩)
      exact hlast x (List.mem_cons_of_mem r hx)
    · obtain ⟨hsep, hge⟩ := ih r hrest
      have hlr : last.base ≤ r.base := hlast r List.mem_cons_self
      refine ⟨List.pairwise_cons.mpr ⟨fun x hx => ?_, hsep⟩, fun x hx => ?_⟩
      · have := hge x hx
        omega
      · rcases List.mem_cons.mp hx with rfl | hx
        · exact Nat.le_refl _
        · exact hlr.trans (hge x hx)

/-- Sorting by base leaves the bases in order. -/
theorem pairwise_mergeSort_base (rs : List Region) :
    (rs.mergeSort fun a b => a.base ≤ b.base).Pairwise fun a b => a.base ≤ b.base := by
  refine (List.pairwise_mergeSort (fun a b c hab hbc => ?_) (fun a b => ?_) rs).imp fun h => ?_
  · simp only [decide_eq_true_eq] at *
    exact hab.trans hbc
  · simp only [Bool.or_eq_true, decide_eq_true_eq]
    exact Nat.le_total _ _
  · simpa using h

theorem mergedInclude_separated (f : RegionFilter) :
    f.mergedInclude.Pairwise (fun a b => a.stop < b.base) := by
  unfold mergedInclude
  split
  · exact List.Pairwise.nil
  · rename_i r rest h
    refine (coalesce_separated r rest ?_).1
    rw [← h]
    exact pairwise_mergeSort_base _

theorem clip_eq_some {lo hi : ℕ} {inc r : Region} (h : clip lo hi inc = some r) :
    max lo inc.base = r.base ∧ r.stop = min hi inc.stop ∧ r.base < r.stop := by
  simp only [clip] at h
  split at h
  · rename_i hlt
    obtain rfl := Option.some.inj h
    have hb : min hi inc.stop ≤ usizeMax := (Nat.min_le_right _ _).trans inc.stop_le
    rw [Region.stop_mk hlt.le hb]
    exact ⟨rfl, rfl, hlt⟩
  · simp at h

/-- Every piece lies inside the region it was cut from. -/
theorem mem_pieces_bounds {inc : List Region} {r p : Region} (h : p ∈ f.pieces inc r) :
    r.base ≤ p.base ∧ p.stop ≤ r.stop ∧ p.base < p.stop := by
  simp only [pieces] at h
  split at h
  · simp at h
  · rename_i hlt
    have hstop := r.stop_le
    split at h
    · obtain rfl := List.mem_singleton.mp h
      rw [Region.stop_mk (by omega) (by omega)]
      show r.base ≤ max _ _ ∧ _ ∧ max _ _ < _
      omega
    · obtain ⟨i, _, hi⟩ := List.mem_filterMap.mp h
      obtain ⟨hbase, hend, hlt'⟩ := clip_eq_some hi
      omega

theorem pieces_ascending {inc : List Region} (hinc : inc.Pairwise (fun a b => a.stop < b.base))
    (r : Region) : Ascending (f.pieces inc r) := by
  simp only [pieces]
  split
  · exact List.Pairwise.nil
  · split
    · exact List.pairwise_singleton _ _
    · refine List.Pairwise.filterMap _ ?_ hinc
      intro a b hab p hp q hq
      have ha := clip_eq_some hp
      have hb := clip_eq_some hq
      omega

/-- What the first scan walks is ascending and disjoint whenever the target's regions are. -/
theorem apply_ascending {rs : List Region} (h : Ascending rs) : Ascending (f.apply rs) := by
  unfold apply
  split
  · exact h
  · split
    · exact List.Pairwise.nil
    · have hpieces : Ascending (rs.flatMap (f.pieces f.mergedInclude)) := by
        rw [Ascending, List.pairwise_flatMap]
        refine ⟨fun r _ => pieces_ascending f.mergedInclude_separated r, h.imp ?_⟩
        intro a b hab p hp q hq
        have := mem_pieces_bounds hp
        have := mem_pieces_bounds hq
        omega
      -- The pieces are already in base order, so the final sort moves nothing.
      rw [List.mergeSort_of_pairwise]
      · exact hpieces
      · refine List.Pairwise.imp_of_mem (fun {a b} ha _ hab => ?_) hpieces
        obtain ⟨r, _, hr⟩ := List.mem_flatMap.mp ha
        have := mem_pieces_bounds hr
        simp only [decide_eq_true_eq]
        omega

end RegionFilter

end Nemclass.Scan
