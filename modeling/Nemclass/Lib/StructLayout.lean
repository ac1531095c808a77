import Nemclass.Lib.Usize
import Mathlib.Data.List.Forall2

/-! Laying out the fields of a struct in order: each at the next multiple of its
own alignment, the whole padded to a multiple of the largest one. No padding is
inserted exactly when every field is aligned at the sum of the sizes before it
and the alignment of the whole divides the sum of all. -/
namespace Nemclass.StructLayout
open Usize

structure Layout where
  size : ℕ
  align : ℕ
  align_pos : 0 < align
deriving DecidableEq

/-- The offsets at which fields are placed from an offset on. -/
def offsets (off : ℕ) : List Layout → List ℕ
  | [] => []
  | l :: ls =>
    let start := nextMultipleOf off l.align
    start :: offsets (start + l.size) ls

/-- The end of the last field. -/
def stop (off : ℕ) : List Layout → ℕ
  | [] => off
  | l :: ls => stop (nextMultipleOf off l.align + l.size) ls

/-- The alignment of a struct: the largest of its fields', one when it has none. -/
def maxAlign : List Layout → ℕ
  | [] => 1
  | l :: ls => max l.align (maxAlign ls)

theorem maxAlign_pos (ls : List Layout) : 0 < maxAlign ls := by
  induction ls with
  | nil => exact one_pos
  | cons l ls ih => exact Nat.lt_of_lt_of_le ih (Nat.le_max_right _ _)

def struct (ls : List Layout) : Layout :=
  ⟨nextMultipleOf (stop 0 ls) (maxAlign ls), maxAlign ls, maxAlign_pos ls⟩

def total (ls : List Layout) : ℕ := (ls.map Layout.size).sum

/-- Every field is aligned at the sum of the sizes before it. -/
def Aligned (off : ℕ) : List Layout → Prop
  | [] => True
  | l :: ls => l.align ∣ off ∧ Aligned (off + l.size) ls

instance (off : ℕ) (ls : List Layout) : Decidable (Aligned off ls) := by
  induction ls generalizing off with
  | nil => exact .isTrue trivial
  | cons l ls ih => exact @instDecidableAnd _ _ inferInstance (ih (off + l.size))

/-- No padding is needed. -/
def Tight (ls : List Layout) : Prop := Aligned 0 ls ∧ maxAlign ls ∣ total ls

instance (ls : List Layout) : Decidable (Tight ls) := by
  unfold Tight
  infer_instance

theorem nextMultipleOf_eq_self {x m : ℕ} (hm : 0 < m) : nextMultipleOf x m = x ↔ m ∣ x := by
  constructor
  · intro h
    rw [← h]
    exact dvd_nextMultipleOf x hm
  · exact nextMultipleOf_of_dvd

theorem total_cons (l : Layout) (ls : List Layout) : total (l :: ls) = l.size + total ls := rfl

theorem le_stop (off : ℕ) (ls : List Layout) : off + total ls ≤ stop off ls := by
  induction ls generalizing off with
  | nil => exact Nat.le_refl _
  | cons l ls ih =>
    have hnext := le_nextMultipleOf off l.align
    have hrest := ih (nextMultipleOf off l.align + l.size)
    rw [total_cons, stop]
    omega

theorem stop_eq_iff (off : ℕ) (ls : List Layout) :
    stop off ls = off + total ls ↔ Aligned off ls := by
  induction ls generalizing off with
  | nil => exact ⟨fun _ => trivial, fun _ => rfl⟩
  | cons l ls ih =>
    have hnext := le_nextMultipleOf off l.align
    have hrest := le_stop (nextMultipleOf off l.align + l.size) ls
    rw [total_cons, stop, Aligned]
    constructor
    · intro h
      have hself : nextMultipleOf off l.align = off := by omega
      rw [hself] at h
      exact ⟨(nextMultipleOf_eq_self l.align_pos).mp hself, (ih (off + l.size)).mp (by omega)⟩
    · intro h
      rw [nextMultipleOf_of_dvd h.1, (ih (off + l.size)).mpr h.2]
      omega

theorem offsets_of_aligned {off : ℕ} {ls : List Layout} (h : Aligned off ls) :
    offsets off ls = runningSums off (ls.map Layout.size) := by
  induction ls generalizing off with
  | nil => rfl
  | cons l ls ih =>
    simp only [offsets, List.map_cons, runningSums, nextMultipleOf_of_dvd h.1, ih h.2]

theorem total_le_struct (ls : List Layout) : total ls ≤ (struct ls).size := by
  have hstop := le_stop 0 ls
  have hnext := le_nextMultipleOf (stop 0 ls) (maxAlign ls)
  show total ls ≤ nextMultipleOf (stop 0 ls) (maxAlign ls)
  omega

/-- A struct is as large as its fields together exactly when no padding is needed. -/
theorem struct_size_eq_iff (ls : List Layout) : (struct ls).size = total ls ↔ Tight ls := by
  have hstop := le_stop 0 ls
  have hnext := le_nextMultipleOf (stop 0 ls) (maxAlign ls)
  have haligned := stop_eq_iff 0 ls
  rw [Nat.zero_add] at hstop haligned
  show nextMultipleOf (stop 0 ls) (maxAlign ls) = total ls ↔ _
  constructor
  · intro h
    have hself : stop 0 ls = total ls := by omega
    rw [hself] at h
    exact ⟨haligned.mp hself, (nextMultipleOf_eq_self (maxAlign_pos ls)).mp h⟩
  · intro h
    rw [haligned.mpr h.1]
    exact nextMultipleOf_of_dvd h.2

/-- The same alignment and at least the size. -/
def Layout.Fits (a b : Layout) : Prop := a.align = b.align ∧ a.size ≤ b.size

theorem Layout.Fits.eq_iff {a b : Layout} (h : a.Fits b) : b = a ↔ b.size = a.size := by
  constructor
  · exact fun heq => heq ▸ rfl
  · intro hsize
    cases a
    cases b
    simp only [Layout.mk.injEq]
    exact ⟨hsize, h.1.symm⟩

section Fits
variable {as bs : List Layout}

theorem maxAlign_of_fits (h : List.Forall₂ Layout.Fits as bs) : maxAlign as = maxAlign bs := by
  induction h with
  | nil => rfl
  | cons hab _ ih => rw [maxAlign, maxAlign, hab.1, ih]

theorem total_le_of_fits (h : List.Forall₂ Layout.Fits as bs) : total as ≤ total bs := by
  induction h with
  | nil => exact Nat.le_refl _
  | cons hab _ ih =>
    rw [total_cons, total_cons]
    exact Nat.add_le_add hab.2 ih

theorem total_eq_iff_of_fits (h : List.Forall₂ Layout.Fits as bs) :
    total bs = total as ↔ bs = as := by
  induction h with
  | nil => exact ⟨fun _ => rfl, fun _ => rfl⟩
  | cons hab hrest ih =>
    have hle := total_le_of_fits hrest
    have hsize := hab.2
    rw [total_cons, total_cons, List.cons.injEq, hab.eq_iff, ← ih]
    omega

/-- A struct of larger fields is as large as the smaller ones together exactly when the fields are
the same and need no padding. -/
theorem struct_size_eq_iff_of_fits (h : List.Forall₂ Layout.Fits as bs) :
    (struct bs).size = total as ↔ bs = as ∧ Tight as := by
  have hle := total_le_of_fits h
  have hstruct := total_le_struct bs
  constructor
  · intro hsize
    have heq := (total_eq_iff_of_fits h).mp (by omega)
    rw [heq] at hsize
    exact ⟨heq, (struct_size_eq_iff as).mp hsize⟩
  · intro htight
    rw [htight.1]
    exact (struct_size_eq_iff as).mpr htight.2

theorem fits_cons {a b : Layout} {P Q : Prop} (hab : a.Fits b) (hsize : b.size = a.size ↔ P)
    (h : List.Forall₂ Layout.Fits as bs) (hsame : bs = as ↔ Q) :
    List.Forall₂ Layout.Fits (a :: as) (b :: bs) ∧ (b :: bs = a :: as ↔ P ∧ Q) := by
  refine ⟨.cons hab h, ?_⟩
  rw [List.cons.injEq, hab.eq_iff, hsize, hsame]

theorem struct_fits (h : List.Forall₂ Layout.Fits as bs) {a : Layout} (halign : a.align = maxAlign as)
    (hsize : a.size = total as) : a.Fits (struct bs) := by
  refine ⟨halign.trans (maxAlign_of_fits h), ?_⟩
  rw [hsize]
  exact (total_le_of_fits h).trans (total_le_struct bs)

end Fits

end Nemclass.StructLayout
