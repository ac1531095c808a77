import Mathlib.Data.List.Chain
import Mathlib.Data.List.GetD
import Mathlib.Data.List.Range
import Mathlib.Order.Basic

/-! A counter that is reported now and then: the values reported so far, oldest first,
and the count. The reports keep an interval when none is more than the interval past
the one before, the first past zero, and the count has not run an interval past the
last. Regular reports from a start keep it exactly if the start was just reported, or
nothing is reported and what was pending leaves room for the rest. -/
namespace Nemclass.Reports

/-- The value last reported, zero before the first report. -/
def last (reports : List ℕ) : ℕ := reports.getLast?.getD 0

@[simp] theorem last_nil : last [] = 0 := rfl

@[simp] theorem last_concat (reports : List ℕ) (d : ℕ) : last (reports ++ [d]) = d := by
  simp [last]

structure Kept (interval : ℕ) (reports : List ℕ) (count : ℕ) : Prop where
  gaps : (0 :: reports).IsChain fun a b => b ≤ a + interval
  recent : count < last reports + interval

variable {interval count : ℕ} {reports : List ℕ}

theorem Kept.start (h : 0 < interval) : Kept interval [] 0 :=
  ⟨List.isChain_singleton _, by simpa using h⟩

/-- A report appended at a distance from the last one. -/
theorem isChain_concat {d : ℕ} : (0 :: (reports ++ [d])).IsChain (fun a b => b ≤ a + interval) ↔
    (0 :: reports).IsChain (fun a b => b ≤ a + interval) ∧ d ≤ last reports + interval := by
  rw [← List.cons_append, List.isChain_append]
  simp [List.getLast?_cons, last]

/-- What is kept at the end was kept before the later reports, all of them of later counts. -/
theorem Kept.before {more : List ℕ} {count' : ℕ} (h : Kept interval (reports ++ more) count')
    (hle : count ≤ count') (hlater : ∀ d ∈ more, count < d) : Kept interval reports count := by
  cases more with
  | nil =>
    rw [List.append_nil] at h
    exact ⟨h.gaps, hle.trans_lt h.recent⟩
  | cons d more =>
    have hgaps := h.gaps
    rw [← List.cons_append, List.isChain_append] at hgaps
    obtain ⟨hearly, _, hjoin⟩ := hgaps
    refine ⟨hearly, (hlater d List.mem_cons_self).trans_le ?_⟩
    exact hjoin _ (by simp [List.getLast?_cons, last]) d (by simp)

/-- The first `k` reports of a counter that reports whenever it has gone on by the interval. -/
def regular (interval start k : ℕ) : List ℕ := (List.range k).map fun i => start + interval * (i + 1)

@[simp] theorem regular_zero (interval start : ℕ) : regular interval start 0 = [] := rfl

theorem regular_succ (interval start k : ℕ) :
    regular interval start (k + 1) = regular interval start k ++ [start + interval * (k + 1)] := by
  simp [regular, List.range_succ]

theorem mem_regular {start k d : ℕ} (hpos : 0 < interval) (h : d ∈ regular interval start k) :
    start < d ∧ d ≤ start + interval * k := by
  obtain ⟨i, hi, rfl⟩ := List.mem_map.mp h
  have hle := Nat.mul_le_mul_left interval (Nat.succ_le_of_lt (List.mem_range.mp hi))
  have hlt := Nat.mul_pos hpos (Nat.succ_pos i)
  exact ⟨Nat.lt_add_of_pos_right hlt, Nat.add_le_add_left hle start⟩

theorem last_append_regular_succ (reports : List ℕ) (start k : ℕ) :
    last (reports ++ regular interval start (k + 1)) = start + interval * (k + 1) := by
  rw [regular_succ, ← List.append_assoc, last_concat]

/-- Regular reports are an interval apart; only the first may be late. -/
theorem isChain_append_regular {start k : ℕ} :
    (0 :: (reports ++ regular interval start (k + 1))).IsChain (fun a b => b ≤ a + interval) ↔
      (0 :: reports).IsChain (fun a b => b ≤ a + interval) ∧ start ≤ last reports := by
  induction k with
  | zero =>
    rw [regular_succ, regular_zero, List.nil_append, isChain_concat]
    simp
  | succ k ih =>
    have hstep : start + interval * (k + 1 + 1) ≤ start + interval * (k + 1) + interval := by
      rw [Nat.mul_add interval (k + 1) 1, Nat.mul_one, Nat.add_assoc]
    rw [regular_succ, ← List.append_assoc, isChain_concat, ih, last_append_regular_succ]
    exact and_iff_left hstep

/-- After regular reports from a start the interval is kept exactly if nothing was pending at the
start, or what was pending and what came since are together less than the interval. -/
theorem kept_append_regular {start k since : ℕ} (h : Kept interval reports start)
    (hle : last reports ≤ start) (hsince : since < interval) :
    Kept interval (reports ++ regular interval start k) (start + (interval * k + since)) ↔
      start - last reports = 0 ∨ start - last reports + (interval * k + since) < interval := by
  cases k with
  | zero =>
    rw [regular_zero, List.append_nil, Nat.mul_zero, Nat.zero_add]
    constructor
    · intro hkept
      have := hkept.recent
      omega
    · intro hroom
      exact ⟨h.gaps, by omega⟩
  | succ k =>
    have hmul : interval ≤ interval * (k + 1) := Nat.le_mul_of_pos_right interval (Nat.succ_pos k)
    constructor
    · intro hkept
      have := (isChain_append_regular.mp hkept.gaps).2
      omega
    · intro hroom
      refine ⟨isChain_append_regular.mpr ⟨h.gaps, by omega⟩, ?_⟩
      rw [last_append_regular_succ]
      omega

end Nemclass.Reports
