import Mathlib.Data.List.Basic
import Mathlib.Data.List.Sort

/-! Binary search of a list that is partitioned by a predicate: those that
satisfy it come first. The partition point is the length of that prefix, and in
a sorted list it cuts off exactly the elements below a bound. -/
namespace Nemclass.PartitionPoint

variable {α : Type}

/-- The index of the first element that does not satisfy `p`, in a list partitioned by `p`. -/
def partitionPoint (p : α → Bool) (xs : List α) : ℕ := (xs.takeWhile p).length

/-- The predicate holds of nothing after an element it fails on. -/
def Partitioned (p : α → Bool) (xs : List α) : Prop :=
  xs.Pairwise fun a b => p b = true → p a = true

theorem takeWhile_eq_filter {p : α → Bool} {xs : List α} (h : Partitioned p xs) :
    xs.takeWhile p = xs.filter p := by
  induction xs with
  | nil => rfl
  | cons x xs ih =>
    have hx := List.pairwise_cons.mp h
    by_cases hp : p x = true
    · rw [List.takeWhile_cons_of_pos hp, List.filter_cons_of_pos hp, ih hx.2]
    · rw [List.takeWhile_cons_of_neg hp, eq_comm, List.filter_eq_nil_iff]
      intro y hy
      rcases List.mem_cons.mp hy with rfl | hy
      · exact hp
      · exact fun hpy => hp (hx.1 y hy hpy)

theorem drop_partitionPoint {p : α → Bool} {xs : List α} (h : Partitioned p xs) :
    xs.drop (partitionPoint p xs) = xs.filter (!p ·) := by
  induction xs with
  | nil => rfl
  | cons x xs ih =>
    have hx := List.pairwise_cons.mp h
    by_cases hp : p x = true
    · rw [List.filter_cons_of_neg (by simp [hp]), ← ih hx.2]
      simp [partitionPoint, List.takeWhile_cons_of_pos hp]
    · have hall : (x :: xs).filter (!p ·) = x :: xs := by
        refine List.filter_eq_self.mpr fun y hy => ?_
        rcases List.mem_cons.mp hy with rfl | hy
        · simp [hp]
        · simpa using fun hpy => hp (hx.1 y hy hpy)
      rw [hall]
      simp [partitionPoint, List.takeWhile_cons_of_neg hp]

theorem filter_append {p : α → Bool} {xs : List α} (h : Partitioned p xs) :
    xs.filter p ++ xs.filter (!p ·) = xs := by
  have htake := List.prefix_iff_eq_take.mp (List.takeWhile_prefix (l := xs) p)
  rw [← takeWhile_eq_filter h, ← drop_partitionPoint h, partitionPoint]
  nth_rewrite 1 [htake]
  exact List.take_append_drop _ xs

/-- The last element that satisfies the predicate, between those before it and those after. -/
theorem getLast?_filter_eq_some {p : α → Bool} {xs : List α} (h : Partitioned p xs) {b : α} :
    (xs.filter p).getLast? = some b ↔
      ∃ pre post, xs = pre ++ b :: post ∧ p b = true ∧ ∀ c ∈ post, p c = false := by
  rw [List.getLast?_eq_some_iff]
  constructor
  · rintro ⟨init, hinit⟩
    have hb : b ∈ xs.filter p := hinit ▸ List.mem_append_right init (List.mem_singleton_self b)
    refine ⟨init, xs.filter (!p ·), ?_, (List.mem_filter.mp hb).2, fun c hc => ?_⟩
    · rw [← List.singleton_append, ← List.append_assoc, ← hinit, filter_append h]
    · simpa using (List.mem_filter.mp hc).2
  · rintro ⟨pre, post, rfl, hb, hpost⟩
    have hpre : ∀ a ∈ pre, p a = true := fun a ha =>
      (List.pairwise_append.mp h).2.2 a ha b List.mem_cons_self hb
    refine ⟨pre, ?_⟩
    rw [List.filter_append, List.filter_eq_self.mpr hpre, List.filter_cons_of_pos hb,
      List.filter_eq_nil_iff.mpr fun c hc => by simp [hpost c hc]]

/-- Lists that split at a bound are equal when their parts are. -/
theorem append_eq_append_iff {p : α → Bool} {xs ys rest rest' : List α} (hxs : ∀ x ∈ xs, p x = true)
    (hys : ∀ x ∈ ys, p x = true) (hrest : ∀ x ∈ rest, p x = false)
    (hrest' : ∀ x ∈ rest', p x = false) : xs ++ rest = ys ++ rest' ↔ xs = ys ∧ rest = rest' := by
  refine ⟨fun h => ?_, fun ⟨hx, hr⟩ => by rw [hx, hr]⟩
  have hlow := congrArg (List.filter p) h
  rw [List.filter_append, List.filter_append, List.filter_eq_self.mpr hxs,
    List.filter_eq_self.mpr hys, List.filter_eq_nil_iff.mpr fun x hx => by simp [hrest x hx],
    List.filter_eq_nil_iff.mpr fun x hx => by simp [hrest' x hx], List.append_nil,
    List.append_nil] at hlow
  rw [hlow] at h
  exact ⟨hlow, List.append_cancel_left h⟩

/-- Two parts that a bound separates make up a list when each is the list's own part. -/
theorem append_eq_iff {p : α → Bool} {xs rest whole : List α} (h : Partitioned p whole)
    (hxs : ∀ x ∈ xs, p x = true) (hrest : ∀ x ∈ rest, p x = false) :
    xs ++ rest = whole ↔ xs = whole.filter p ∧ rest = whole.filter (!p ·) := by
  nth_rewrite 1 [← filter_append h]
  exact append_eq_append_iff hxs (fun x hx => (List.mem_filter.mp hx).2) hrest fun x hx => by
    simpa using (List.mem_filter.mp hx).2

/-- The elements whose key lies in `[lo, hi]`, cut out of a list sorted by key. -/
theorem range_eq_filter {key : α → ℕ} {xs : List α} (hsorted : xs.Pairwise fun a b => key a ≤ key b)
    (lo hi : ℕ) : (xs.drop (partitionPoint (key · < lo) xs)).takeWhile (key · ≤ hi) =
      xs.filter fun x => lo ≤ key x ∧ key x ≤ hi := by
  have hlow : Partitioned (key · < lo) xs := hsorted.imp fun h hb => by
    simp only [decide_eq_true_eq] at *
    omega
  have hhigh : Partitioned (key · ≤ hi) (xs.filter fun x => !decide (key x < lo)) :=
    (hsorted.filter _).imp fun h hb => by
      simp only [decide_eq_true_eq] at *
      omega
  rw [drop_partitionPoint hlow, takeWhile_eq_filter hhigh, List.filter_filter]
  refine List.filter_congr fun x _ => ?_
  by_cases hx : key x < lo
  · simp [hx]
  · simp [hx, Nat.not_lt.mp hx]

/-- What stands before the partition point is the last element that satisfies the predicate. -/
theorem getElem?_partitionPoint {p : α → Bool} {xs : List α} (h : Partitioned p xs) {idx : ℕ}
    (hidx : partitionPoint p xs = idx + 1) : xs[idx]? = (xs.filter p).getLast? := by
  have hlen : (xs.takeWhile p).length = idx + 1 := hidx
  obtain ⟨rest, hrest⟩ := List.takeWhile_prefix (l := xs) p
  rw [← takeWhile_eq_filter h, List.getLast?_eq_getElem?, hlen, Nat.add_sub_cancel]
  nth_rewrite 1 [← hrest]
  exact List.getElem?_append_left (by omega)

theorem filter_eq_nil_of_partitionPoint {p : α → Bool} {xs : List α} (h : Partitioned p xs)
    (hidx : partitionPoint p xs = 0) : xs.filter p = [] := by
  rw [← takeWhile_eq_filter h]
  exact List.length_eq_zero_iff.mp hidx

/-- A stable sort of some of the elements leaves out the others from the sort of all. -/
theorem filter_mergeSort {le : α → α → Bool} (htrans : ∀ a b c, le a b → le b c → le a c)
    (htotal : ∀ a b, le a b || le b a) (p : α → Bool) (xs : List α) :
    (xs.mergeSort le).filter p = (xs.filter p).mergeSort le := by
  have hafter {a : α} {ys l₁ l₂ : List α} (h : (a :: ys).mergeSort le = l₁ ++ a :: l₂) :
      ∀ b ∈ l₂, (!le a b) = false := by
    intro b hb
    have hsorted := List.pairwise_mergeSort htrans htotal (a :: ys)
    rw [h, List.pairwise_append] at hsorted
    rw [(List.pairwise_cons.mp hsorted.2.1).1 b hb, Bool.not_true]
  induction xs with
  | nil => simp
  | cons a xs ih =>
    obtain ⟨l₁, l₂, hall, hrest, hbefore⟩ := List.mergeSort_cons htrans htotal a xs
    rw [hrest, List.filter_append] at ih
    by_cases ha : p a = true
    · obtain ⟨m₁, m₂, hall', hrest', hbefore'⟩ :=
        List.mergeSort_cons htrans htotal a (xs.filter p)
      rw [hrest'] at ih
      obtain ⟨hlow, hhigh⟩ := (append_eq_append_iff (p := fun b => !le a b)
        (fun b hb => hbefore b (List.mem_filter.mp hb).1) hbefore'
        (fun b hb => hafter hall b (List.mem_filter.mp hb).1) (hafter hall')).mp ih
      rw [hall, List.filter_append, List.filter_cons_of_pos ha, List.filter_cons_of_pos ha, hall',
        hlow, hhigh]
    · rw [hall, List.filter_append, List.filter_cons_of_neg ha, List.filter_cons_of_neg ha, ih]

end Nemclass.PartitionPoint
