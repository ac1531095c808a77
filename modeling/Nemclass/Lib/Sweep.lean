import Mathlib.Data.List.TakeWhile
import Mathlib.Data.Nat.Basic

/-! Linear sweeps: the units of a range one after another, each starting where the
one before it ends. A unit is read from the bytes up to a bound, and what is read
depends on the bound only where fewer than `reach` bytes are left before it. -/
namespace Nemclass.Sweep

variable {α : Type} (item : ℕ → ℕ → α) (start len : α → ℕ)

/-- The units from `p` on, read from the bytes up to `stop`. -/
def sweep (stop p : ℕ) : List α :=
  if p < stop then
    if 0 < len (item p stop) then item p stop :: sweep stop (p + len (item p stop)) else []
  else []
termination_by stop - p

/-- Where the sweep goes on behind some units that began at `p`. -/
def resume (p : ℕ) (units : List α) : ℕ := units.getLast?.elim p fun i => start i + len i

/-- Hands the units to a callback, until it answers `false`. -/
def visit {σ : Type} (callback : σ → α → σ × Bool) (s : σ) : List α → σ
  | [] => s
  | i :: units =>
    match callback s i with
    | (s, true) => visit callback s units
    | (s, false) => s

/-- A callback that stops at the first unit it does not take. -/
theorem visit_takeWhile {σ : Type} {callback : σ → α → σ × Bool} (keep : α → Bool) (f : σ → α → σ)
    (h : ∀ s i, callback s i = if keep i then (f s i, true) else (s, false)) (s : σ)
    (units : List α) : visit callback s units = (units.takeWhile keep).foldl f s := by
  induction units generalizing s with
  | nil => rfl
  | cons i units ih =>
    rw [visit, h]
    cases hkeep : keep i with
    | false => rw [List.takeWhile_cons_of_neg (by simp [hkeep])]; rfl
    | true =>
      rw [List.takeWhile_cons_of_pos hkeep, List.foldl_cons, ← ih]
      rfl

/-- What a reader of units has to guarantee. -/
structure Reads (reach : ℕ) : Prop where
  start_eq : ∀ p stop, start (item p stop) = p
  len_pos : ∀ p stop, p < stop → 0 < len (item p stop)
  end_le : ∀ p stop, p < stop → p + len (item p stop) ≤ stop
  near : ∀ p stop stop', p + reach ≤ stop → p + reach ≤ stop' → item p stop = item p stop'

variable {item start len} {reach : ℕ}

@[simp] theorem resume_nil (p : ℕ) : resume start len p [] = p := rfl

theorem resume_cons (p : ℕ) (i : α) (units : List α) :
    resume start len p (i :: units) = resume start len (start i + len i) units := by
  rw [resume, resume, List.getLast?_cons]
  cases units.getLast? <;> rfl

theorem sweep_of_le {stop p : ℕ} (h : stop ≤ p) : sweep item len stop p = [] := by
  rw [sweep, if_neg (Nat.not_lt.mpr h)]

namespace Reads
variable (h : Reads item start len reach)
include h

theorem sweep_cons {stop p : ℕ} (hp : p < stop) : sweep item len stop p =
    item p stop :: sweep item len stop (p + len (item p stop)) := by
  rw [sweep, if_pos hp, if_pos (h.len_pos p stop hp)]

/-- One unit after another: the induction along a sweep. -/
theorem induction (stop : ℕ) {motive : ℕ → Prop} (done : ∀ p, stop ≤ p → motive p)
    (unit : ∀ p, p < stop → motive (p + len (item p stop)) → motive p) (p : ℕ) : motive p := by
  by_cases hp : p < stop
  · have := h.len_pos p stop hp
    exact unit p hp (induction stop done unit (p + len (item p stop)))
  · exact done p (Nat.le_of_not_lt hp)
termination_by stop - p

theorem bounds {stop p : ℕ} {i : α} (hi : i ∈ sweep item len stop p) :
    p ≤ start i ∧ 0 < len i ∧ start i + len i ≤ stop := by
  induction p using h.induction stop with
  | done p hp =>
    rw [sweep_of_le hp] at hi
    cases hi
  | unit p hp ih =>
    rw [h.sweep_cons hp] at hi
    rcases List.mem_cons.mp hi with rfl | hi
    · rw [h.start_eq]
      exact ⟨le_rfl, h.len_pos p stop hp, h.end_le p stop hp⟩
    · obtain ⟨hle, hrest⟩ := ih hi
      exact ⟨by omega, hrest⟩

/-- The units lie one behind the other. -/
theorem separated (stop p : ℕ) :
    (sweep item len stop p).Pairwise fun i j => start i + len i ≤ start j := by
  induction p using h.induction stop with
  | done p hp =>
    rw [sweep_of_le hp]
    exact .nil
  | unit p hp ih =>
    rw [h.sweep_cons hp]
    refine .cons (fun j hj => ?_) ih
    rw [h.start_eq]
    exact (h.bounds hj).1

theorem starts_sorted (stop p : ℕ) :
    ((sweep item len stop p).map start).Pairwise (· < ·) := by
  rw [List.pairwise_map]
  refine (h.separated stop p).imp_of_mem fun {i j} hi _ hij => ?_
  have := (h.bounds hi).2.1
  omega

/-- The units that start below `b`. -/
theorem takeWhile_of_le {stop p b : ℕ} (hb : b ≤ p) :
    (sweep item len stop p).takeWhile (start · < b) = [] := by
  by_cases hp : p < stop
  · rw [h.sweep_cons hp, List.takeWhile_cons_of_neg]
    rw [h.start_eq, decide_eq_true_iff]
    omega
  · rw [sweep_of_le (Nat.le_of_not_lt hp), List.takeWhile_nil]

theorem takeWhile_cons {stop p b : ℕ} (hp : p < stop) (hb : p < b) :
    (sweep item len stop p).takeWhile (start · < b) = item p stop ::
      (sweep item len stop (p + len (item p stop))).takeWhile (start · < b) := by
  rw [h.sweep_cons hp, List.takeWhile_cons_of_pos]
  rw [h.start_eq, decide_eq_true_iff]
  exact hb

/-- What starts below `b` does not depend on how far behind `b` the bytes go. -/
theorem takeWhile_congr {stop stop' b : ℕ} (hb : b ≤ stop) (hb' : b ≤ stop')
    (hitem : ∀ q < b, item q stop = item q stop') (p : ℕ) :
    (sweep item len stop p).takeWhile (start · < b) =
      (sweep item len stop' p).takeWhile (start · < b) := by
  induction p using h.induction stop with
  | done p hp => rw [h.takeWhile_of_le (by omega), h.takeWhile_of_le (by omega)]
  | unit p hp ih =>
    by_cases hlt : p < b
    · rw [h.takeWhile_cons hp hlt, ih, hitem p hlt, ← h.takeWhile_cons (by omega) hlt]
    · rw [h.takeWhile_of_le (by omega), h.takeWhile_of_le (by omega)]

/-- A sweep is what is kept at its start, and the sweep from there on. -/
theorem takeWhile_append (keep : α → Bool) (stop p : ℕ) :
    (sweep item len stop p).takeWhile keep ++ sweep item len stop
      (resume start len p ((sweep item len stop p).takeWhile keep)) = sweep item len stop p := by
  induction p using h.induction stop with
  | done p hp => rw [sweep_of_le hp, List.takeWhile_nil, resume_nil, sweep_of_le hp, List.nil_append]
  | unit p hp ih =>
    rw [h.sweep_cons hp]
    cases hkeep : keep (item p stop) with
    | false =>
      rw [List.takeWhile_cons_of_neg (by simp [hkeep]), resume_nil, List.nil_append,
        h.sweep_cons hp]
    | true =>
      rw [List.takeWhile_cons_of_pos hkeep, resume_cons, h.start_eq, List.cons_append, ih]

/-- A sweep does not go back. -/
theorem le_resume (keep : α → Bool) (stop p : ℕ) :
    p ≤ resume start len p ((sweep item len stop p).takeWhile keep) := by
  induction p using h.induction stop with
  | done p hp => rw [sweep_of_le hp, List.takeWhile_nil, resume_nil]
  | unit p hp ih =>
    rw [h.sweep_cons hp]
    cases hkeep : keep (item p stop) with
    | false => rw [List.takeWhile_cons_of_neg (by simp [hkeep]), resume_nil]
    | true =>
      rw [List.takeWhile_cons_of_pos hkeep, resume_cons, h.start_eq]
      omega

/-- A sweep whose first unit is kept goes on behind it. -/
theorem lt_resume {keep : α → Bool} {stop p : ℕ} (hp : p < stop)
    (hkeep : keep (item p stop) = true) :
    p < resume start len p ((sweep item len stop p).takeWhile keep) := by
  have hpos := h.len_pos p stop hp
  have hrest := h.le_resume keep stop (p + len (item p stop))
  rw [h.sweep_cons hp, List.takeWhile_cons_of_pos hkeep, resume_cons, h.start_eq]
  omega

/-- Where a cut sweep keeps nothing that the whole one does not read the same way, the kept part
of the whole sweep is that of the cut one, and what is kept from there on. -/
theorem takeWhile_resume {keep : α → Bool} {cut stop : ℕ} (hle : cut ≤ stop)
    (hcut : ∀ q < cut, keep (item q cut) = true → item q stop = item q cut) (p : ℕ) :
    (sweep item len cut p).takeWhile keep ++ (sweep item len stop
      (resume start len p ((sweep item len cut p).takeWhile keep))).takeWhile keep =
      (sweep item len stop p).takeWhile keep := by
  induction p using h.induction cut with
  | done p hp => rw [sweep_of_le hp, List.takeWhile_nil, resume_nil, List.nil_append]
  | unit p hp ih =>
    rw [h.sweep_cons hp]
    cases hkeep : keep (item p cut) with
    | false => rw [List.takeWhile_cons_of_neg (by simp [hkeep]), resume_nil, List.nil_append]
    | true =>
      rw [List.takeWhile_cons_of_pos hkeep, resume_cons, h.start_eq, List.cons_append, ih,
        h.sweep_cons (by omega : p < stop), hcut p hp hkeep, List.takeWhile_cons_of_pos hkeep]

/-- What starts below `b`, as a part of the sweep. -/
theorem filter_lt (stop p b : ℕ) : (sweep item len stop p).filter (start · < b) =
    (sweep item len stop p).takeWhile (start · < b) := by
  induction p using h.induction stop with
  | done p hp => rw [sweep_of_le hp, List.takeWhile_nil, List.filter_nil]
  | unit p hp ih =>
    by_cases hlt : p < b
    · rw [h.takeWhile_cons hp hlt, h.sweep_cons hp, List.filter_cons_of_pos, ih]
      rw [h.start_eq, decide_eq_true_iff]
      exact hlt
    · rw [h.takeWhile_of_le (Nat.le_of_not_lt hlt), List.filter_eq_nil_iff]
      intro i hi
      have := (h.bounds hi).1
      rw [decide_eq_true_iff]
      omega

end Reads

end Nemclass.Sweep
