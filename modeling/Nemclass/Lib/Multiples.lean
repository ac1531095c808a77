import Mathlib.Data.List.Range
import Mathlib.Data.List.Sort
import Nemclass.Lib.Usize

/-! The ascending list of multiples of a step inside a half-open interval, and
how it splits at a bound, starts at the first multiple, and is enumerated by a
constant stride from an aligned start. -/
namespace Nemclass.Multiples
open Usize

/-- Multiples of `m` in `[lo, hi)`, ascending. -/
def multiples (m lo hi : ℕ) : List ℕ := (List.range' lo (hi - lo)).filter (m ∣ ·)

@[simp] theorem mem_multiples {m lo hi a : ℕ} :
    a ∈ multiples m lo hi ↔ m ∣ a ∧ lo ≤ a ∧ a < hi := by
  simp only [multiples, List.mem_filter, List.mem_range'_1, decide_eq_true_eq]
  omega

theorem multiples_sorted (m lo hi : ℕ) : (multiples m lo hi).Pairwise (· < ·) :=
  List.Pairwise.filter _ List.pairwise_lt_range'

theorem multiples_of_le {lo hi : ℕ} (m : ℕ) (h : hi ≤ lo) : multiples m lo hi = [] := by
  simp [multiples, Nat.sub_eq_zero_of_le h]

theorem multiples_append {lo mid hi : ℕ} (m : ℕ) (h : lo ≤ mid) (h' : mid ≤ hi) :
    multiples m lo mid ++ multiples m mid hi = multiples m lo hi := by
  obtain ⟨a, rfl⟩ := Nat.exists_eq_add_of_le h
  obtain ⟨b, rfl⟩ := Nat.exists_eq_add_of_le h'
  have hlen : lo + a + b - lo = a + b := by omega
  simp only [multiples, Nat.add_sub_cancel_left, hlen, ← List.filter_append, List.range'_append_1]

/-- Nothing is lost by starting at the first multiple. -/
theorem multiples_nextMultipleOf {m : ℕ} (hm : 0 < m) (lo hi : ℕ) :
    multiples m (nextMultipleOf lo m) hi = multiples m lo hi := by
  have hle := le_nextMultipleOf lo m
  rcases Nat.lt_or_ge (nextMultipleOf lo m) hi with h | h
  · rw [← multiples_append m hle h.le]
    have hnil : multiples m lo (nextMultipleOf lo m) = [] := by
      rw [List.eq_nil_iff_forall_not_mem]
      intro a ha
      rw [mem_multiples] at ha
      have := nextMultipleOf_le_of_dvd hm ha.1 ha.2.1
      omega
    rw [hnil, List.nil_append]
  · rw [multiples_of_le m h, eq_comm, List.eq_nil_iff_forall_not_mem]
    intro a ha
    rw [mem_multiples] at ha
    have := nextMultipleOf_le_of_dvd hm ha.1 ha.2.1
    omega

/-- Past an aligned address the next multiple is at least one step away. -/
theorem add_le_nextMultipleOf {m a : ℕ} (hm : 0 < m) (ha : m ∣ a) (k : ℕ) :
    a + m ≤ nextMultipleOf (a + k + 1) m := by
  have hge := le_nextMultipleOf (a + k + 1) m
  have hstep := Nat.le_of_dvd (by omega) (Nat.dvd_sub (dvd_nextMultipleOf (a + k + 1) hm) ha)
  omega

/-- From an aligned start, the next multiple is one step away. -/
theorem multiples_cons {m lo hi : ℕ} (hm : 0 < m) (hlo : m ∣ lo) (h : lo < hi) :
    multiples m lo hi = lo :: multiples m (lo + m) hi := by
  have hsorted : (lo :: multiples m (lo + m) hi).Pairwise (· < ·) := by
    refine List.pairwise_cons.mpr ⟨fun a ha => ?_, multiples_sorted _ _ _⟩
    have := (mem_multiples.mp ha).2.1
    omega
  refine (multiples_sorted _ _ _).eq_of_mem_iff hsorted fun a => ?_
  rw [List.mem_cons, mem_multiples, mem_multiples]
  constructor
  · intro ha
    by_cases heq : a = lo
    · exact .inl heq
    · have hstep := Nat.le_of_dvd (by omega) (Nat.dvd_sub ha.1 hlo)
      exact .inr ⟨ha.1, by omega, ha.2.2⟩
  · intro ha
    cases ha with
    | inl heq =>
      subst heq
      exact ⟨hlo, Nat.le_refl _, h⟩
    | inr ha => exact ⟨ha.1, by omega, ha.2.2⟩

/-- The offsets `0, m, 2m, …` up to and including `last`. -/
def stepBy (last m : ℕ) : List ℕ := (List.range (last / m + 1)).map (· * m)

theorem mem_stepBy {last m off : ℕ} (hm : 0 < m) : off ∈ stepBy last m ↔ m ∣ off ∧ off ≤ last := by
  simp only [stepBy, List.mem_map, List.mem_range]
  constructor
  · rintro ⟨k, hk, rfl⟩
    refine ⟨Nat.dvd_mul_left m k, ?_⟩
    calc k * m ≤ last / m * m := Nat.mul_le_mul_right m (by omega)
      _ ≤ last := Nat.div_mul_le_self last m
  · rintro ⟨⟨k, rfl⟩, hle⟩
    refine ⟨k, ?_, Nat.mul_comm k m⟩
    have hk : k ≤ last / m := (Nat.le_div_iff_mul_le hm).mpr (by rw [Nat.mul_comm]; exact hle)
    omega

theorem stepBy_sorted {m : ℕ} (last : ℕ) (hm : 0 < m) : (stepBy last m).Pairwise (· < ·) := by
  rw [stepBy, List.pairwise_map]
  exact List.pairwise_lt_range.imp fun h => (Nat.mul_lt_mul_right hm).mpr h

/-- An aligned window enumerated by offset visits its multiples in order. -/
theorem map_add_stepBy {m addr : ℕ} (hm : 0 < m) (haddr : m ∣ addr) (last : ℕ) :
    (stepBy last m).map (addr + ·) = multiples m addr (addr + last + 1) := by
  have hsorted : ((stepBy last m).map (addr + ·)).Pairwise (· < ·) := by
    rw [List.pairwise_map]
    exact (stepBy_sorted last hm).imp fun h => by omega
  refine hsorted.eq_of_mem_iff (multiples_sorted _ _ _) fun a => ?_
  simp only [List.mem_map, mem_stepBy hm, mem_multiples]
  constructor
  · rintro ⟨off, ⟨hd, hle⟩, rfl⟩
    exact ⟨(Nat.dvd_add_right haddr).mpr hd, by omega, by omega⟩
  · rintro ⟨hd, hlo, hhi⟩
    exact ⟨a - addr, ⟨Nat.dvd_sub hd haddr, by omega⟩, by omega⟩

end Nemclass.Multiples
