import Mathlib.Data.Nat.Basic
import Mathlib.Algebra.BigOperators.Group.List.Basic
import Mathlib.Tactic.Ring

/-! Unsigned 64-bit machine words as natural numbers below `2^64`.
Checked operations return `none` where the machine operation overflows,
saturating ones clamp at the largest word, wrapping ones reduce modulo `2^64`. -/
namespace Nemclass.Usize

def usizeMax : ℕ := 2 ^ 64 - 1

def checked (n : ℕ) : Option ℕ := if n ≤ usizeMax then some n else none

def checkedAdd (a b : ℕ) : Option ℕ := checked (a + b)

theorem checked_eq_some {n m : ℕ} : checked n = some m ↔ n = m ∧ n ≤ usizeMax := by
  unfold checked
  split
  · simp [*]
  · simp only [reduceCtorEq, false_iff]
    omega

theorem checked_eq_none {n : ℕ} : checked n = none ↔ usizeMax < n := by
  unfold checked
  split <;> simp_all

theorem checkedAdd_eq_some {a b m : ℕ} :
    checkedAdd a b = some m ↔ a + b = m ∧ a + b ≤ usizeMax := checked_eq_some

theorem checked_of_le {n : ℕ} (h : n ≤ usizeMax) : checked n = some n := if_pos h

theorem checkedAdd_of_le {a b : ℕ} (h : a + b ≤ usizeMax) : checkedAdd a b = some (a + b) :=
  checked_of_le h

/-- Iterator sum, every partial sum checked. -/
def checkedSum : List ℕ → Option ℕ
  | [] => some 0
  | x :: xs => do
    let rest ← checkedSum xs
    checkedAdd x rest

theorem checkedSum_of_le {xs : List ℕ} (h : xs.sum ≤ usizeMax) : checkedSum xs = some xs.sum := by
  induction xs with
  | nil => rfl
  | cons x xs ih =>
    rw [List.sum_cons] at h
    simp only [checkedSum, ih (by omega), List.sum_cons]
    exact checkedAdd_of_le h

theorem checkedSum_eq_some {xs : List ℕ} {n : ℕ} (h : checkedSum xs = some n) :
    n = xs.sum ∧ xs.sum ≤ usizeMax := by
  induction xs generalizing n with
  | nil => exact ⟨(Option.some.inj h).symm, Nat.zero_le _⟩
  | cons x xs ih =>
    simp only [checkedSum, Option.bind_eq_bind, Option.bind_eq_some_iff] at h
    obtain ⟨rest, hrest, hadd⟩ := h
    obtain ⟨rfl, -⟩ := ih hrest
    obtain ⟨rfl, hle⟩ := checkedAdd_eq_some.mp hadd
    exact ⟨List.sum_cons.symm, by rwa [List.sum_cons]⟩

def saturatingAdd (a b : ℕ) : ℕ := min (a + b) usizeMax

def saturatingMul (a b : ℕ) : ℕ := min (a * b) usizeMax

theorem saturatingAdd_le (a b : ℕ) : saturatingAdd a b ≤ usizeMax := Nat.min_le_right _ _

/-- What is added before the clamp does not depend on an earlier clamp. -/
theorem saturatingAdd_add (a b c : ℕ) :
    min (saturatingAdd a b + c) usizeMax = min (a + (b + c)) usizeMax := by
  unfold saturatingAdd
  omega

theorem saturatingAdd_min (a b : ℕ) : saturatingAdd a (min b usizeMax) = saturatingAdd a b := by
  unfold saturatingAdd
  omega

theorem min_saturatingAdd (a b : ℕ) : saturatingAdd (min a usizeMax) b = saturatingAdd a b := by
  unfold saturatingAdd
  omega

/-- The saturating fold that starts from an accumulator, as `Iterator::fold` runs it. -/
def saturatingFold (acc : ℕ) (xs : List ℕ) : ℕ := xs.foldl saturatingAdd acc

@[simp] theorem saturatingFold_nil (acc : ℕ) : saturatingFold acc [] = acc := rfl

@[simp] theorem saturatingFold_cons (acc x : ℕ) (xs : List ℕ) :
    saturatingFold acc (x :: xs) = saturatingFold (saturatingAdd acc x) xs := rfl

/-- Saturating step by step clamps the exact sum once. -/
theorem saturatingFold_eq {acc : ℕ} (h : acc ≤ usizeMax) (xs : List ℕ) :
    saturatingFold acc xs = min (acc + xs.sum) usizeMax := by
  induction xs generalizing acc with
  | nil => simp [Nat.min_eq_left h]
  | cons x xs ih =>
    rw [saturatingFold_cons, ih (saturatingAdd_le acc x), List.sum_cons, saturatingAdd_add]

theorem saturatingFold_zero (xs : List ℕ) : saturatingFold 0 xs = min xs.sum usizeMax := by
  rw [saturatingFold_eq (Nat.zero_le _), Nat.zero_add]

/-- The sums of what comes before each element, from a start. -/
def runningSums (start : ℕ) : List ℕ → List ℕ
  | [] => []
  | x :: xs => start :: runningSums (start + x) xs

def saturatingSums (start : ℕ) : List ℕ → List ℕ
  | [] => []
  | x :: xs => start :: saturatingSums (saturatingAdd start x) xs

/-- Clamping step by step clamps each exact running sum once. -/
theorem saturatingSums_clamped (start : ℕ) (xs : List ℕ) :
    saturatingSums (min start usizeMax) (xs.map (min · usizeMax)) =
      (runningSums start xs).map (min · usizeMax) := by
  induction xs generalizing start with
  | nil => rfl
  | cons x xs ih =>
    have hstep : saturatingAdd (min start usizeMax) (min x usizeMax) = min (start + x) usizeMax :=
      (saturatingAdd_min _ x).trans (min_saturatingAdd start x)
    rw [List.map_cons, saturatingSums, runningSums, List.map_cons, hstep, ih]

theorem runningSums_le (start : ℕ) (xs : List ℕ) :
    ∀ x ∈ runningSums start xs, x ≤ start + xs.sum := by
  induction xs generalizing start with
  | nil => simp [runningSums]
  | cons x xs ih =>
    intro y hy
    rw [List.sum_cons]
    rcases List.mem_cons.mp hy with rfl | hy
    · omega
    · have := ih (start + x) y hy
      omega

theorem runningSums_clamped {xs : List ℕ} (h : xs.sum ≤ usizeMax) :
    (runningSums 0 xs).map (min · usizeMax) = runningSums 0 xs := by
  refine (List.map_congr_left fun x hx => ?_).trans (List.map_id _)
  have hle := runningSums_le 0 xs x hx
  exact Nat.min_eq_left (by omega)

def wrappingAdd (a b : ℕ) : ℕ := (a + b) % 2 ^ 64

def wrappingSub (a b : ℕ) : ℕ := (a + (2 ^ 64 - b % 2 ^ 64)) % 2 ^ 64

def wrappingMul (a b : ℕ) : ℕ := a * b % 2 ^ 64

def wrappingNeg (a : ℕ) : ℕ := (2 ^ 64 - a % 2 ^ 64) % 2 ^ 64

theorem wrappingAdd_of_le {a b : ℕ} (h : a + b ≤ usizeMax) : wrappingAdd a b = a + b :=
  Nat.mod_eq_of_lt (Nat.lt_of_le_of_lt h (by decide))

theorem wrappingSub_of_le {a b : ℕ} (hb : b ≤ a) (ha : a ≤ usizeMax) :
    wrappingSub a b = a - b := by
  unfold usizeMax at ha
  unfold wrappingSub
  omega

/-- Rounding up, as the unchecked machine operation computes it before overflow is tested. -/
def nextMultipleOf (x m : ℕ) : ℕ := if x % m = 0 then x else x + (m - x % m)

def checkedNextMultipleOf (x m : ℕ) : Option ℕ := checked (nextMultipleOf x m)

theorem le_nextMultipleOf (x m : ℕ) : x ≤ nextMultipleOf x m := by
  unfold nextMultipleOf
  split <;> omega

theorem dvd_nextMultipleOf {m : ℕ} (x : ℕ) (hm : 0 < m) : m ∣ nextMultipleOf x m := by
  unfold nextMultipleOf
  split
  · exact Nat.dvd_of_mod_eq_zero ‹_›
  · have hlt := Nat.mod_lt x hm
    refine ⟨x / m + 1, ?_⟩
    have hx := Nat.div_add_mod x m
    rw [Nat.mul_add, Nat.mul_one]
    omega

theorem nextMultipleOf_lt {m : ℕ} (x : ℕ) (hm : 0 < m) : nextMultipleOf x m < x + m := by
  unfold nextMultipleOf
  split <;> omega

theorem nextMultipleOf_le_of_dvd {x m a : ℕ} (hm : 0 < m) (ha : m ∣ a) (hx : x ≤ a) :
    nextMultipleOf x m ≤ a := by
  obtain ⟨k, hk⟩ := dvd_nextMultipleOf x hm
  obtain ⟨j, rfl⟩ := ha
  have hlt := nextMultipleOf_lt x hm
  rw [hk] at hlt ⊢
  by_contra hcon
  have hjk : j + 1 ≤ k := by
    by_contra hlt'
    exact hcon (Nat.mul_le_mul_left m (by omega))
  have hmul := Nat.mul_le_mul_left m hjk
  rw [Nat.mul_add, Nat.mul_one] at hmul
  omega

/-- Up to the next multiple nothing leaves the block an address lies in. -/
theorem div_eq_of_lt_nextMultipleOf {a b m : ℕ} (hm : 0 < m) (hle : a ≤ b)
    (hlt : b < nextMultipleOf a m) : a / m = b / m := by
  refine Nat.le_antisymm (Nat.div_le_div_right hle) ?_
  by_contra hgt
  have hpast : a < m * (b / m) := by
    calc a < m * (a / m + 1) := Nat.lt_mul_div_succ a hm
      _ ≤ m * (b / m) := Nat.mul_le_mul_left m (by omega)
  have hnext := nextMultipleOf_le_of_dvd hm (Nat.dvd_mul_right m (b / m)) hpast.le
  have hback := Nat.mul_div_le b m
  omega

theorem nextMultipleOf_of_dvd {x m : ℕ} (h : m ∣ x) : nextMultipleOf x m = x :=
  if_pos (Nat.mod_eq_zero_of_dvd h)

end Nemclass.Usize
