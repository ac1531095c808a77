import Mathlib.Data.List.Basic

/-! A queue of at most `depth` elements. A full one takes no more; what it took comes out in order. -/
namespace Nemclass

structure BoundedFifo (α : Type*) (depth : ℕ) where
  items : List α
  bounded : items.length ≤ depth

namespace BoundedFifo
variable {α : Type*} {depth : ℕ} {q q' : BoundedFifo α depth} {a : α}

def empty : BoundedFifo α depth := ⟨[], Nat.zero_le _⟩

def put (q : BoundedFifo α depth) (a : α) : Option (BoundedFifo α depth) :=
  if h : q.items.length < depth then
    some ⟨q.items ++ [a], by rw [List.length_append]; exact h⟩
  else none

theorem length_tail_le (q : BoundedFifo α depth) : q.items.tail.length ≤ depth := by
  rw [List.length_tail]
  exact Nat.le_trans (Nat.sub_le _ _) q.bounded

def take (q : BoundedFifo α depth) : Option (α × BoundedFifo α depth) :=
  q.items.head?.map fun a => (a, ⟨q.items.tail, q.length_tail_le⟩)

theorem items_of_put (h : q.put a = some q') : q'.items = q.items ++ [a] := by
  unfold put at h
  split at h
  · cases h
    rfl
  · cases h

theorem put_eq_none_iff : q.put a = none ↔ q.items.length = depth := by
  unfold put
  have hbounded := q.bounded
  split <;> simp <;> omega

theorem items_of_take (h : q.take = some (a, q')) : q.items = a :: q'.items := by
  unfold take at h
  cases hitems : q.items with
  | nil => simp [hitems] at h
  | cons b items =>
    simp only [hitems, List.head?_cons, Option.map_some, Option.some.injEq, Prod.mk.injEq] at h
    obtain ⟨rfl, rfl⟩ := h
    rfl

theorem take_eq_none_iff : q.take = none ↔ q.items = [] := by
  rw [take, Option.map_eq_none_iff, List.head?_eq_none_iff]

end BoundedFifo

end Nemclass
