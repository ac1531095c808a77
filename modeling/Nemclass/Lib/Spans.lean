import Mathlib.Data.List.Pairwise
import Mathlib.Order.Lattice

/-! The maximal runs of a predicate below a bound, as a list of half-open spans
that is built from left to right. A stretch on which the predicate holds is
merged with the last span when they abut, a stretch on which it fails is
skipped. Whatever the stretches, an interval lies inside one span exactly when
the predicate holds throughout it. -/
namespace Nemclass.Spans

/-- Appends `[off, off + n)`, merging it with the last span when they abut. -/
def extend (spans : List (ℕ × ℕ)) (off n : ℕ) : List (ℕ × ℕ) :=
  match spans.getLast? with
  | some last =>
    if last.2 = off then spans.dropLast ++ [(last.1, off + n)] else spans ++ [(off, off + n)]
  | none => spans ++ [(off, off + n)]

/-- A span is one of those before, or it ends with the stretch. -/
theorem mem_extend {spans : List (ℕ × ℕ)} {off n : ℕ} {s : ℕ × ℕ} (h : s ∈ extend spans off n) :
    s ∈ spans ∨ s.2 = off + n ∧ (s.1 = off ∨ (s.1, off) ∈ spans) := by
  unfold extend at h
  split at h
  · rename_i last hlast
    obtain ⟨init, rfl⟩ := List.getLast?_eq_some_iff.mp hlast
    split_ifs at h with habut
    · rw [List.dropLast_concat] at h
      rcases List.mem_append.mp h with h | h
      · exact .inl (List.mem_append_left _ h)
      · rw [List.mem_singleton] at h
        subst h habut
        exact .inr ⟨rfl, .inr (List.mem_append_right _ List.mem_cons_self)⟩
    · rcases List.mem_append.mp h with h | h
      · exact .inl h
      · rw [List.mem_singleton] at h
        subst h
        exact .inr ⟨rfl, .inl rfl⟩
  · rcases List.mem_append.mp h with h | h
    · exact .inl h
    · rw [List.mem_singleton] at h
      subst h
      exact .inr ⟨rfl, .inl rfl⟩

/-- The offsets inside a span. -/
def Contains (spans : List (ℕ × ℕ)) (i : ℕ) : Prop := ∃ s ∈ spans, s.1 ≤ i ∧ i < s.2

structure Runs (P : ℕ → Prop) (bound : ℕ) (spans : List (ℕ × ℕ)) : Prop where
  sound : ∀ s ∈ spans, s.1 < s.2 ∧ s.2 ≤ bound ∧ ∀ i, s.1 ≤ i → i < s.2 → P i
  complete : ∀ i < bound, P i → ∃ s ∈ spans, s.1 ≤ i ∧ i < s.2
  separated : spans.Pairwise fun a b => a.2 < b.1

namespace Runs
variable {P : ℕ → Prop} {bound : ℕ} {spans : List (ℕ × ℕ)}

theorem nil : Runs P 0 [] := ⟨by simp, by simp, List.Pairwise.nil⟩

/-- A stretch on which the predicate fails is in no span. -/
theorem skip (h : Runs P bound spans) {stop : ℕ} (hle : bound ≤ stop)
    (hnot : ∀ i, bound ≤ i → i < stop → ¬ P i) : Runs P stop spans where
  sound s hs := by
    have hs := h.sound s hs
    exact ⟨hs.1, hs.2.1.trans hle, hs.2.2⟩
  complete i hi hp := by
    by_cases hlt : i < bound
    · exact h.complete i hlt hp
    · exact absurd hp (hnot i (Nat.not_lt.mp hlt) hi)
  separated := h.separated

/-- A span that begins past the bound extends the runs. -/
theorem append (h : Runs P bound spans) {n : ℕ} (hpos : 0 < n)
    (hall : ∀ i, bound ≤ i → i < bound + n → P i) (hgap : ∀ s ∈ spans, s.2 ≠ bound) :
    Runs P (bound + n) (spans ++ [(bound, bound + n)]) where
  sound s hs := by
    rcases List.mem_append.mp hs with hs | hs
    · have hs := h.sound s hs
      exact ⟨hs.1, by omega, hs.2.2⟩
    · rw [List.mem_singleton] at hs
      subst hs
      exact ⟨Nat.lt_add_of_pos_right hpos, Nat.le_refl _, hall⟩
  complete i hi hp := by
    by_cases hlt : i < bound
    · obtain ⟨s, hs, hin⟩ := h.complete i hlt hp
      exact ⟨s, List.mem_append_left _ hs, hin⟩
    · exact ⟨(bound, bound + n), by simp, Nat.not_lt.mp hlt, hi⟩
  separated := by
    refine List.pairwise_append.mpr ⟨h.separated, List.pairwise_singleton _ _, fun a ha b hb => ?_⟩
    rw [List.mem_singleton] at hb
    subst hb
    have := (h.sound a ha).2.1
    have := hgap a ha
    show a.2 < bound
    omega

/-- A span that abuts the last one is merged with it. -/
theorem merge {init : List (ℕ × ℕ)} {first : ℕ} (h : Runs P bound (init ++ [(first, bound)]))
    {n : ℕ}
    (hall : ∀ i, bound ≤ i → i < bound + n → P i) :
    Runs P (bound + n) (init ++ [(first, bound + n)]) where
  sound s hs := by
    rcases List.mem_append.mp hs with hs | hs
    · have hs := h.sound s (List.mem_append_left _ hs)
      exact ⟨hs.1, by omega, hs.2.2⟩
    · rw [List.mem_singleton] at hs
      subst hs
      have hlast := h.sound (first, bound) (by simp)
      dsimp only at hlast ⊢
      refine ⟨by omega, Nat.le_refl _, fun i hlo hhi => ?_⟩
      by_cases hlt : i < bound
      · exact hlast.2.2 i hlo hlt
      · exact hall i (Nat.not_lt.mp hlt) hhi
  complete i hi hp := by
    have hlast := (h.sound (first, bound) (by simp)).1
    by_cases hlt : i < bound
    · obtain ⟨s, hs, hlo, hhi⟩ := h.complete i hlt hp
      rcases List.mem_append.mp hs with hs | hs
      · exact ⟨s, List.mem_append_left _ hs, hlo, hhi⟩
      · rw [List.mem_singleton] at hs
        subst hs
        exact ⟨(first, bound + n), by simp, hlo, hi⟩
    · exact ⟨(first, bound + n), by simp, by dsimp only at hlast ⊢; omega, hi⟩
  separated := by
    have hsep := List.pairwise_append.mp h.separated
    refine List.pairwise_append.mpr ⟨hsep.1, List.pairwise_singleton _ _, fun a ha b hb => ?_⟩
    rw [List.mem_singleton] at hb
    subst hb
    exact hsep.2.2 a ha (first, bound) (List.mem_singleton_self _)

theorem extend (h : Runs P bound spans) {n : ℕ} (hpos : 0 < n)
    (hall : ∀ i, bound ≤ i → i < bound + n → P i) : Runs P (bound + n) (extend spans bound n) := by
  unfold Spans.extend
  split
  · rename_i last hlast
    obtain ⟨init, rfl⟩ := List.getLast?_eq_some_iff.mp hlast
    by_cases hend : last.2 = bound
    · obtain ⟨first, stop⟩ := last
      obtain rfl : stop = bound := hend
      rw [if_pos rfl, List.dropLast_concat]
      exact h.merge hall
    · rw [if_neg hend]
      refine h.append hpos hall fun s hs heq => ?_
      rcases List.mem_append.mp hs with hs | hs
      · have hsep := (List.pairwise_append.mp h.separated).2.2 s hs last (List.mem_singleton_self _)
        have hlast := h.sound last (by simp)
        omega
      · rw [List.mem_singleton] at hs
        exact hend (hs ▸ heq)
  · rename_i hnone
    obtain rfl := List.getLast?_eq_none_iff.mp hnone
    exact h.append hpos hall (by simp)

theorem apart (h : Runs P bound spans) {s s' : ℕ × ℕ} (hs : s ∈ spans) (hs' : s' ∈ spans)
    (hne : s ≠ s') : s.2 < s'.1 ∨ s'.2 < s.1 := by
  have hsymm : Std.Symm fun a b : ℕ × ℕ => a.2 < b.1 ∨ b.2 < a.1 := ⟨fun _ _ h => h.symm⟩
  have hpairs : spans.Pairwise fun a b => a.2 < b.1 ∨ b.2 < a.1 := h.separated.imp Or.inl
  exact hpairs.forall hs hs' hne

/-- An interval lies inside one span exactly when the predicate holds throughout. -/
theorem contains_iff (h : Runs P bound spans) {off need : ℕ} (hpos : 0 < need) :
    (∃ s ∈ spans, s.1 ≤ off ∧ off + need ≤ s.2) ↔
      off + need ≤ bound ∧ ∀ i, off ≤ i → i < off + need → P i := by
  constructor
  · intro hin
    obtain ⟨s, hs, hlo, hhi⟩ := hin
    have hs := h.sound s hs
    exact ⟨by omega, fun i hi hlt => hs.2.2 i (by omega) (by omega)⟩
  · intro hall
    obtain ⟨hbound, hall⟩ := hall
    obtain ⟨s, hs, hlo, hhi⟩ := h.complete off (by omega) (hall off (Nat.le_refl _) (by omega))
    refine ⟨s, hs, hlo, ?_⟩
    by_contra hout
    -- The first offset past the span is in the interval, so in a later span that abuts this one.
    obtain ⟨s', hs', hlo', hhi'⟩ := h.complete s.2 (by omega) (hall s.2 (by omega) (by omega))
    have hne : s ≠ s' := by
      intro heq
      subst heq
      omega
    have hapart := h.apart hs hs' hne
    have hs := h.sound s hs
    omega

/-- No span ends after the last one. -/
theorem le_last (h : Runs P bound spans) {s last : ℕ × ℕ} (hs : s ∈ spans)
    (hlast : spans.getLast? = some last) : s.2 ≤ last.2 := by
  obtain ⟨init, rfl⟩ := List.getLast?_eq_some_iff.mp hlast
  rcases List.mem_append.mp hs with hs | hs
  · have hsep := (List.pairwise_append.mp h.separated).2.2 s hs last (List.mem_singleton_self _)
    have hlast := h.sound last (by simp)
    omega
  · rw [List.mem_singleton.mp hs]

theorem congr {Q : ℕ → Prop} (h : Runs P bound spans) (heq : ∀ i < bound, P i ↔ Q i) :
    Runs Q bound spans where
  sound s hs := by
    obtain ⟨hlt, hle, hall⟩ := h.sound s hs
    exact ⟨hlt, hle, fun i hlo hhi => (heq i (hhi.trans_le hle)).mp (hall i hlo hhi)⟩
  complete i hi hq := h.complete i hi ((heq i hi).mpr hq)
  separated := h.separated

theorem contains (h : Runs P bound spans) {i : ℕ} : Contains spans i ↔ i < bound ∧ P i := by
  constructor
  · rintro ⟨s, hs, hlo, hhi⟩
    obtain ⟨-, hle, hall⟩ := h.sound s hs
    exact ⟨hhi.trans_le hle, hall i hlo hhi⟩
  · exact fun hi => h.complete i hi.1 hi.2

/-- Spans that are runs of something are the runs of what they contain. -/
theorem self (h : Runs P bound spans) : Runs (Contains spans) bound spans :=
  h.congr fun _ hi => by rw [h.contains, and_iff_right hi]

theorem self_skip (h : Runs (Contains spans) bound spans) {stop : ℕ} (hle : bound ≤ stop) :
    Runs (Contains spans) stop spans :=
  h.skip hle fun _ hlo _ hi => absurd (h.contains.mp hi).1 (not_lt.mpr hlo)

theorem contains_extend (h : Runs (Contains spans) bound spans) {n : ℕ} (hpos : 0 < n) :
    Runs (Contains (Spans.extend spans bound n)) (bound + n) (Spans.extend spans bound n) ∧
      ∀ i, Contains (Spans.extend spans bound n) i ↔
        Contains spans i ∨ bound ≤ i ∧ i < bound + n := by
  have hgrown : Runs (fun i => Contains spans i ∨ bound ≤ i ∧ i < bound + n) bound spans :=
    h.congr fun i hi => (or_iff_left fun hnew => absurd hnew.1 (not_le.mpr hi)).symm
  have hruns := hgrown.extend hpos fun i hlo hhi => .inr ⟨hlo, hhi⟩
  refine ⟨hruns.self, fun i => ?_⟩
  rw [hruns.contains, and_iff_right_iff_imp]
  rintro (hold | hnew)
  · have hlt := (h.contains.mp hold).1
    omega
  · exact hnew.2

end Runs

end Nemclass.Spans
