import Mathlib.Data.List.Basic
import Mathlib.Data.List.Infix
import Mathlib.Order.Lattice

/-! A history of at most `depth` entries against the trail of every entry ever
pushed and not popped. Pushing evicts the oldest entry once the depth is
exceeded, popping removes the newest: what is held is always the end of the
trail, so counting back from the newest entry agrees in both. -/
namespace Nemclass.BoundedHistory

variable {α : Type} {depth : ℕ} {held trail : List α}

def push (depth : ℕ) (held : List α) (x : α) : List α :=
  let held := held ++ [x]
  if depth < held.length then held.tail else held

theorem length_push (hlen : held.length ≤ depth) (x : α) :
    (push depth held x).length = min (held.length + 1) depth := by
  simp only [push]
  split
  · rename_i hfull
    rw [List.length_append, List.length_singleton] at hfull
    rw [List.length_tail, List.length_append, List.length_singleton]
    omega
  · rename_i hroom
    rw [List.length_append, List.length_singleton] at *
    omega

theorem push_suffix (h : held <:+ trail) (x : α) : push depth held x <:+ trail ++ [x] := by
  have happend : held ++ [x] <:+ trail ++ [x] := List.suffix_append_self_iff.mpr h
  simp only [push]
  split
  · exact (List.tail_suffix _).trans happend
  · exact happend

theorem getLast?_push (hpos : 0 < depth) (x : α) : (push depth held x).getLast? = some x := by
  simp only [push]
  split
  · rename_i hfull
    rw [List.length_append, List.length_singleton] at hfull
    cases held with
    | nil => simp at hfull; omega
    | cons y ys => simp
  · simp

theorem dropLast_suffix (h : held <:+ trail) (hne : held ≠ []) :
    held.dropLast <:+ trail.dropLast := by
  obtain ⟨older, rfl⟩ := h
  rw [List.dropLast_append_of_ne_nil hne]
  exact List.suffix_append _ _

/-- Counted from the newest entry, the history and its trail agree. -/
theorem getElem?_reverse_eq (h : held <:+ trail) {j : ℕ} (hj : j < held.length) :
    held.reverse[j]? = trail.reverse[j]? := by
  obtain ⟨older, rfl⟩ := h
  rw [List.reverse_append, List.getElem?_append_left]
  rwa [List.length_reverse]

/-- What is newest after `j` pops. -/
theorem getLast?_take (held : List α) {j : ℕ} (hj : j < held.length) :
    (held.take (held.length - j)).getLast? = held.reverse[j]? := by
  rw [List.getLast?_eq_getElem?, List.length_take, List.getElem?_reverse hj,
    List.getElem?_take_of_lt (by omega)]
  congr 1
  omega

end Nemclass.BoundedHistory
