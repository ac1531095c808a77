import Mathlib.Data.PNat.Basic
import Mathlib.Logic.Relation
import Nemclass.Lib.Usize

/-! Walks that advance from stop to stop below a bound. The stops are the running
sums of sizes exactly where every stop that has a next one has a size equal to
its advance. -/
namespace Nemclass.Strides
open Usize

variable (bound : ℕ) (advance : ℕ → ℕ+)

/-- The stops of the walk from `p`. -/
def stops (p : ℕ) : List ℕ :=
  if p < bound then p :: stops (p + advance p) else []
termination_by bound - p
decreasing_by
  have := (advance p).pos
  omega

/-- One stop below the bound leads to the next. -/
def Leads (p q : ℕ) : Prop := p < bound ∧ q = p + advance p

/-- Every stop from `p` on that has a next one is as large as its advance. -/
def Filled (size : ℕ → ℕ) (p : ℕ) : Prop :=
  ∀ q, Relation.ReflTransGen (Leads bound advance) p q → q + advance q < bound →
    size q = advance q

variable {bound advance} {size : ℕ → ℕ} {p : ℕ}

theorem stops_of_lt (h : p < bound) :
    stops bound advance p = p :: stops bound advance (p + advance p) := by
  rw [stops, if_pos h]

theorem stops_of_le (h : bound ≤ p) : stops bound advance p = [] := by
  rw [stops, if_neg (Nat.not_lt.mpr h)]

theorem lt_of_mem_stops {q : ℕ} (h : q ∈ stops bound advance p) : q < bound := by
  fun_induction stops bound advance p with
  | case1 p hlt ih =>
    rcases List.mem_cons.mp h with rfl | h
    · exact hlt
    · exact ih h
  | case2 => cases h

/-- The first stop is as large as its advance, unless it is the last one. -/
theorem filled_iff (h : p < bound) :
    Filled bound advance size p ↔
      (p + advance p < bound → size p = advance p) ∧ Filled bound advance size (p + advance p) := by
  constructor
  · intro hall
    exact ⟨hall p .refl, fun q hq => hall q (.head ⟨h, rfl⟩ hq)⟩
  · rintro ⟨hfirst, hrest⟩ q hq
    rcases hq.cases_head with rfl | ⟨r, ⟨-, rfl⟩, hr⟩
    · exact hfirst
    · exact hrest q hr

theorem filled_of_le (h : bound ≤ p) : Filled bound advance size p := by
  intro q hq hlt
  rcases hq.cases_head with rfl | ⟨r, ⟨hp, -⟩, -⟩
  · omega
  · omega

/-- The stops are the running sums of the sizes where the walk is filled, and only there: past a
stop that is too small or too large, the next one is off already. -/
theorem stops_eq_runningSums :
    stops bound advance p = runningSums p ((stops bound advance p).map size) ↔
      Filled bound advance size p := by
  fun_induction stops bound advance p with
  | case1 p h ih =>
    rw [filled_iff h, List.map_cons, runningSums, List.cons.injEq]
    by_cases hnext : p + advance p < bound
    · by_cases hsize : size p = advance p
      · rw [hsize, ih]
        simp
      · refine iff_of_false (fun heq => hsize ?_) fun hall => hsize (hall.1 hnext)
        have hheads := heq.2
        rw [stops_of_lt hnext, List.map_cons, runningSums, List.cons.injEq] at hheads
        omega
    · have hstop := Nat.le_of_not_lt hnext
      rw [stops_of_le hstop]
      exact iff_of_true ⟨rfl, rfl⟩ ⟨fun hlt => absurd hlt hnext, filled_of_le hstop⟩
  | case2 p h => exact ⟨fun _ => filled_of_le (Nat.le_of_not_lt h), fun _ => rfl⟩

end Nemclass.Strides
