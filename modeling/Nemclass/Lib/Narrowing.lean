import Mathlib.Data.List.Nodup
import Mathlib.Order.Bounds.Basic

/-! Narrowing a set of candidates by one test after another, until only one is
left. The candidates after `k` tests are those that pass the first `k`. -/
namespace Nemclass.Narrowing

variable {α : Type*} (starts : List α) (keep : ℕ → α → Bool)

/-- The candidates that pass the first `k` tests. -/
def survivors : ℕ → List α
  | 0 => starts
  | k + 1 => (survivors k).filter (keep k)

/-- No other candidate than `x` passes the first `k` tests. -/
def Isolates (x : α) (k : ℕ) : Prop := ∀ y ∈ starts, (∀ i < k, keep i y = true) → y = x

variable {starts keep} {x : α} {k l : ℕ}

theorem mem_survivors {y : α} :
    y ∈ survivors starts keep k ↔ y ∈ starts ∧ ∀ i < k, keep i y = true := by
  induction k with
  | zero => simp [survivors]
  | succ k ih => rw [survivors, List.mem_filter, ih, and_assoc, Nat.forall_lt_succ_right]

theorem Isolates.mono (h : Isolates starts keep x k) (hle : k ≤ l) : Isolates starts keep x l :=
  fun y hy hkeep => h y hy fun i hi => hkeep i (hi.trans_le hle)

theorem survivors_nodup (h : starts.Nodup) (k : ℕ) : (survivors starts keep k).Nodup := by
  induction k with
  | zero => exact h
  | succ k ih => exact ih.filter _

/-- A candidate that passes every test is isolated when it is alone. -/
theorem survivors_eq_singleton (h : starts.Nodup) (hx : x ∈ starts)
    (hkeep : ∀ i < k, keep i x = true) :
    survivors starts keep k = [x] ↔ Isolates starts keep x k := by
  have hmem := mem_survivors.mpr ⟨hx, hkeep⟩
  constructor
  · intro heq y hy hall
    have hys := mem_survivors.mpr ⟨hy, hall⟩
    rw [heq] at hys
    exact List.mem_singleton.mp hys
  · intro hisolates
    have hperm : (survivors starts keep k).Perm [x] := by
      refine (List.perm_ext_iff_of_nodup (survivors_nodup h k) (List.nodup_singleton x)).mpr ?_
      intro y
      rw [List.mem_singleton]
      refine ⟨fun hy => ?_, fun hy => hy ▸ hmem⟩
      obtain ⟨hstart, hall⟩ := mem_survivors.mp hy
      exact hisolates y hstart hall
    exact List.perm_singleton.mp hperm

theorem length_survivors_le_one (h : starts.Nodup) (hx : x ∈ starts)
    (hkeep : ∀ i < k, keep i x = true) :
    (survivors starts keep k).length ≤ 1 ↔ Isolates starts keep x k := by
  have hmem := mem_survivors.mpr ⟨hx, hkeep⟩
  rw [← survivors_eq_singleton h hx hkeep]
  constructor
  · intro hlen
    match hs : survivors starts keep k with
    | [] => rw [hs] at hmem; cases hmem
    | [y] =>
      rw [hs] at hmem
      rw [List.mem_singleton.mp hmem]
    | _ :: _ :: _ => rw [hs] at hlen; simp at hlen
  · intro heq
    rw [heq, List.length_singleton]

end Nemclass.Narrowing
