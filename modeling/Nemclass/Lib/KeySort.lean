import Mathlib.Data.List.Count
import Mathlib.Data.List.Destutter
import Mathlib.Data.List.Duplicate
import Mathlib.Data.List.Perm.Subperm
import Mathlib.Data.List.Sort
import Mathlib.Data.Nat.Basic

/-! Sorting by a key without stability, and dropping equal neighbours afterwards.
Elements of one key may come out in any order, so equal ones need not become
neighbours: nothing is left twice, whatever the order, only if an element that
stands twice in the list is alone with its key. -/
namespace Nemclass.KeySort

section Neighbours
variable {α : Type} [DecidableEq α]

/-- Of equal neighbours, the first one. -/
def dropRepeats (xs : List α) : List α := xs.destutter (· ≠ ·)

theorem dropRepeats_sublist (xs : List α) : (dropRepeats xs).Sublist xs :=
  List.destutter_sublist (· ≠ ·) xs

theorem cons_sublist_destutter' {a : α} {xs c : List α} (hchain : (a :: c).IsChain (· ≠ ·))
    (h : c.Sublist xs) : (a :: c).Sublist (xs.destutter' (· ≠ ·) a) := by
  induction xs generalizing a c with
  | nil =>
    rw [List.sublist_nil.mp h]
    exact List.Sublist.refl _
  | cons b xs ih =>
    by_cases hab : a ≠ b
    · rw [List.destutter'_cons_pos xs hab]
      refine List.Sublist.cons_cons a ?_
      match c, h with
      | [], _ => exact List.nil_sublist _
      | d :: c, h =>
        have htail : (d :: c).IsChain (· ≠ ·) := hchain.tail
        by_cases hdb : d = b
        · subst hdb
          exact ih htail (List.cons_sublist_cons.mp h)
        · have hlater : (d :: c).Sublist xs := by
            cases h with
            | cons _ h => exact h
            | cons_cons => exact absurd rfl hdb
          exact (List.sublist_cons_self b _).trans
            (ih (List.isChain_cons_cons.mpr ⟨Ne.symm hdb, htail⟩) hlater)
    · rw [List.destutter'_cons_neg xs hab]
      obtain rfl := not_not.mp hab
      refine ih hchain ?_
      cases h with
      | cons _ h => exact h
      | cons_cons => exact absurd rfl (List.isChain_cons_cons.mp hchain).1

/-- Whatever has no equal neighbours survives. -/
theorem sublist_dropRepeats {xs c : List α} (hchain : c.IsChain (· ≠ ·)) (h : c.Sublist xs) :
    c.Sublist (dropRepeats xs) := by
  match xs, c with
  | xs, [] => exact List.nil_sublist _
  | b :: xs, d :: c =>
    change List.Sublist (d :: c) (xs.destutter' (· ≠ ·) b)
    by_cases hdb : d = b
    · subst hdb
      exact cons_sublist_destutter' hchain (List.cons_sublist_cons.mp h)
    · have hlater : (d :: c).Sublist xs := by
        cases h with
        | cons _ h => exact h
        | cons_cons => exact absurd rfl hdb
      exact (List.sublist_cons_self b _).trans
        (cons_sublist_destutter' (List.isChain_cons_cons.mpr ⟨Ne.symm hdb, hchain⟩) hlater)

theorem mem_dropRepeats {xs : List α} {x : α} : x ∈ dropRepeats xs ↔ x ∈ xs := by
  refine ⟨fun h => (dropRepeats_sublist xs).subset h, fun h => ?_⟩
  exact (sublist_dropRepeats (List.isChain_singleton x) (List.singleton_sublist.mpr h)).subset
    (List.mem_singleton_self x)

end Neighbours

theorem duplicate_map_iff {α β : Type} [DecidableEq α] [DecidableEq β] {f : α → β}
    (hf : f.Injective) {xs : List α} {x : α} :
    (xs.map f).Duplicate (f x) ↔ xs.Duplicate x := by
  rw [List.duplicate_iff_two_le_count, List.duplicate_iff_two_le_count,
    List.count_map_of_injective xs f hf]

section Key
variable {α : Type} (key : α → ℕ)

/-- An element that stands twice in the list is alone with its key. -/
def Alone (xs : List α) : Prop := ∀ x, xs.Duplicate x → ∀ y ∈ xs, key y = key x → y = x

variable {key}

theorem Alone.perm [DecidableEq α] {xs ys : List α} (h : Alone key xs) (hperm : ys.Perm xs) :
    Alone key ys := by
  intro x hx y hy
  rw [List.duplicate_iff_two_le_count, hperm.count_eq, ← List.duplicate_iff_two_le_count] at hx
  exact h x hx y (hperm.mem_iff.mp hy)

/-- In a sorted list the neighbour of such an element has a key of its own. -/
theorem nodup_of_alone {xs : List α} (hsorted : xs.Pairwise fun a b => key a ≤ key b)
    (hchain : xs.IsChain (· ≠ ·)) (halone : Alone key xs) : xs.Nodup := by
  induction xs with
  | nil => exact List.nodup_nil
  | cons a xs ih =>
    have hsub : Alone key xs := fun x hx y hy =>
      halone x (hx.duplicate_cons a) y (List.mem_cons_of_mem a hy)
    obtain ⟨hhead, htail⟩ := List.pairwise_cons.mp hsorted
    refine List.nodup_cons.mpr ⟨fun hmem => ?_, ih htail hchain.tail hsub⟩
    match xs, hmem, hchain, htail, hhead with
    | b :: xs, hmem, hchain, htail, hhead =>
      have hne := (List.isChain_cons_cons.mp hchain).1
      have hlater : a ∈ xs := List.mem_of_ne_of_mem hne hmem
      have htwice : (a :: b :: xs).Duplicate a := hmem.duplicate_cons_self
      have hkey : key b = key a :=
        Nat.le_antisymm ((List.pairwise_cons.mp htail).1 a hlater) (hhead b List.mem_cons_self)
      exact hne (halone a htwice b (List.mem_cons_of_mem a List.mem_cons_self) hkey).symm

end Key

/-- An unstable sort by a key. -/
structure UnstableSort {α : Type} (key : α → ℕ) where
  run : List α → List α
  perm : ∀ xs, (run xs).Perm xs
  sorted : ∀ xs, (run xs).Pairwise fun a b => key a ≤ key b

namespace UnstableSort
variable {α : Type} [DecidableEq α] {key : α → ℕ}

/-- Any rearrangement, sorted stably: a way to choose the order of equal keys. -/
def after (rearrange : List α → List α) (hperm : ∀ xs, (rearrange xs).Perm xs) :
    UnstableSort key where
  run xs := (rearrange xs).insertionSort fun a b => key a ≤ key b
  perm xs := (List.perm_insertionSort _ _).trans (hperm xs)
  sorted xs := by
    have htotal : Std.Total fun a b : α => key a ≤ key b := ⟨fun a b => Nat.le_total _ _⟩
    have htrans : IsTrans α fun a b : α => key a ≤ key b := ⟨fun a b c => Nat.le_trans⟩
    exact List.pairwise_insertionSort _ _

/-- Some elements are put first, where the list has them all. -/
def putFirst (first xs : List α) : List α :=
  if first.Subperm xs then first ++ xs.diff first else xs

theorem putFirst_perm (first xs : List α) : (putFirst first xs).Perm xs := by
  unfold putFirst
  split
  · rename_i hsub
    exact List.subperm_append_diff_self_of_count_le fun x _ => List.subperm_iff_count.mp hsub x
  · exact List.Perm.refl xs

/-- Puts some elements before others of their keys. -/
def favouring (first : List α) : UnstableSort key := after (putFirst first) (putFirst_perm first)

theorem favouring_sublist {first xs : List α} (hsub : first.Subperm xs)
    (hkeys : first.Pairwise fun a b => key a ≤ key b) :
    first.Sublist ((favouring first : UnstableSort key).run xs) := by
  refine List.sublist_insertionSort hkeys ?_
  rw [putFirst, if_pos hsub]
  exact List.sublist_append_left _ _

/-- Dropping equal neighbours leaves nothing twice under every sort by the key exactly when
what stands twice is alone with its key. -/
theorem nodup_iff_alone {xs : List α} :
    (∀ sort : UnstableSort key, (dropRepeats (sort.run xs)).Nodup) ↔ Alone key xs := by
  constructor
  · intro h x hx y hy hkey
    by_contra hne
    -- The other element of the key is put between the two equal ones.
    have hsub : [x, y, x].Subperm xs := by
      refine List.subperm_iff_count.mpr fun z => ?_
      have hyc := List.count_pos_iff.mpr hy
      rw [List.duplicate_iff_two_le_count] at hx
      by_cases hzx : z = x
      · subst hzx
        simpa [List.count_cons, hne] using hx
      · by_cases hzy : z = y
        · subst hzy
          simpa [List.count_cons, Ne.symm hzx] using hyc
        · simp [Ne.symm hzx, Ne.symm hzy]
    have hkeys : [x, y, x].Pairwise fun a b => key a ≤ key b := by simp [hkey]
    have hchain : [x, y, x].IsChain (· ≠ ·) := by simp [Ne.symm hne, hne]
    have hleft := sublist_dropRepeats hchain (favouring_sublist hsub hkeys)
    have hnodup := (h (favouring [x, y, x])).sublist hleft
    simp at hnodup
  · intro h sort
    have hsub := dropRepeats_sublist (sort.run xs)
    refine nodup_of_alone ((sort.sorted xs).sublist hsub) (List.isChain_destutter _ _) ?_
    intro x hx y hy
    exact (h.perm (sort.perm xs)) x (hx.mono_sublist hsub) y (hsub.subset hy)

end UnstableSort

end Nemclass.KeySort
