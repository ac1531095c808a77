import Mathlib.Algebra.Order.BigOperators.Group.List
import Mathlib.Data.Nat.Digits.Defs
import Mathlib.Tactic.Common

/-! Numerals: digits read one at a time, the most significant first, into a value that has to
stay below a limit. -/
namespace Nemclass.Numerals

variable {γ : Type*} (digit : γ → Option ℕ) (radix limit : ℕ)

/-- One more digit. Both the product with the radix and the sum are checked. -/
def push (acc : ℕ) (c : γ) : Option ℕ := do
  let d ← digit c
  if acc * radix < limit ∧ acc * radix + d < limit then some (acc * radix + d) else none

def read (cs : List γ) : Option ℕ := cs.foldlM (push digit radix limit) 0

/-- The number the text denotes, however large. -/
def Denotes (cs : List γ) (n : ℕ) : Prop :=
  ∃ ds, cs.mapM digit = some ds ∧ Nat.ofDigits radix ds.reverse = n

variable {digit radix limit} {cs : List γ} {n : ℕ}

theorem push_eq_some {acc : ℕ} {c : γ} :
    push digit radix limit acc c = some n ↔
      ∃ d, digit c = some d ∧ acc * radix + d = n ∧ n < limit := by
  rw [push, Option.bind_eq_bind, Option.bind_eq_some_iff]
  refine exists_congr fun d => and_congr_right fun _ => ?_
  rw [Option.ite_none_right_eq_some, Option.some_inj]
  omega

/-- No partial value is above the whole one, so only the whole one is bounded. -/
theorem foldlM_push {acc : ℕ} (hradix : 0 < radix) (hacc : acc < limit) :
    cs.foldlM (push digit radix limit) acc = some n ↔
      ∃ ds, cs.mapM digit = some ds ∧
        acc * radix ^ ds.length + Nat.ofDigits radix ds.reverse = n ∧ n < limit := by
  induction cs generalizing acc with
  | nil =>
    simp only [List.foldlM_nil, List.mapM_nil, Option.pure_def, Option.some_inj, exists_eq_left',
      List.length_nil, List.reverse_nil, Nat.ofDigits_nil, pow_zero, mul_one, add_zero]
    exact ⟨fun h => ⟨h, h ▸ hacc⟩, And.left⟩
  | cons c cs ih =>
    have hwhole (d : ℕ) (ds : List ℕ) :
        acc * radix ^ (d :: ds).length + Nat.ofDigits radix (d :: ds).reverse =
          (acc * radix + d) * radix ^ ds.length + Nat.ofDigits radix ds.reverse := by
      rw [List.reverse_cons, Nat.ofDigits_append, List.length_reverse, Nat.ofDigits_singleton,
        List.length_cons]
      ring
    simp only [List.foldlM_cons, List.mapM_cons, Option.bind_eq_bind, Option.bind_eq_some_iff,
      push_eq_some, Option.pure_def, Option.some_inj]
    constructor
    · rintro ⟨_, ⟨d, hd, rfl, hlt⟩, hrest⟩
      obtain ⟨ds, hds, hn, hlimit⟩ := (ih hlt).mp hrest
      exact ⟨d :: ds, ⟨d, hd, ds, hds, rfl⟩, (hwhole d ds).trans hn, hlimit⟩
    · rintro ⟨_, ⟨d, hd, ds, hds, rfl⟩, hn, hlimit⟩
      rw [hwhole] at hn
      have hone : acc * radix + d ≤ (acc * radix + d) * radix ^ ds.length :=
        Nat.le_mul_of_pos_right _ (Nat.pow_pos hradix)
      exact ⟨_, ⟨d, hd, rfl, by omega⟩, (ih (by omega)).mpr ⟨ds, hds, hn, hlimit⟩⟩

theorem read_eq_some (hradix : 0 < radix) (hlimit : 0 < limit) :
    read digit radix limit cs = some n ↔ Denotes digit radix cs n ∧ n < limit := by
  rw [read, foldlM_push hradix hlimit]
  simp only [Denotes, zero_mul, zero_add, ← and_assoc, exists_and_right]

/-- Every character of a numeral is a digit. -/
theorem Denotes.isSome_digit (h : Denotes digit radix cs n) : ∀ c ∈ cs, (digit c).isSome := by
  obtain ⟨ds, hds, -⟩ := h
  induction cs generalizing ds with
  | nil => simp
  | cons c cs ih =>
    simp only [List.mapM_cons, Option.bind_eq_bind, Option.bind_eq_some_iff, Option.pure_def,
      Option.some_inj] at hds
    obtain ⟨d, hd, rest, hrest, -⟩ := hds
    rw [List.forall_mem_cons, hd]
    exact ⟨rfl, ih rest hrest⟩

/-! ## Two radices -/

section Radices

variable {digit' : γ → Option ℕ} {p q : ℕ}

theorem ofDigits_eq_zero (hp : 0 < p) (q : ℕ) {L : List ℕ} (h : Nat.ofDigits p L = 0) :
    Nat.ofDigits q L = 0 := by
  induction L with
  | nil => rfl
  | cons d L ih =>
    rw [Nat.ofDigits_cons, Nat.add_eq_zero_iff, Nat.mul_eq_zero] at h
    rw [Nat.ofDigits_cons, ih (h.2.resolve_left hp.ne'), h.1, Nat.mul_zero]

/-- A number of one digit is the same in either radix. -/
theorem ofDigits_eq_of_lt (hp : 0 < p) (hq : 0 < q) {L : List ℕ} (hlt : n < p) (hlt' : n < q) :
    Nat.ofDigits p L = n ↔ Nat.ofDigits q L = n := by
  have hhead {r d X : ℕ} (hr : n < r) (h : d + r * X = n) : X = 0 := by
    by_contra hX
    have hle : r ≤ r * X := Nat.le_mul_of_pos_right r (Nat.pos_of_ne_zero hX)
    omega
  cases L with
  | nil => rfl
  | cons d L =>
    rw [Nat.ofDigits_cons, Nat.ofDigits_cons]
    constructor
    · intro h
      have hzero := hhead hlt h
      rw [ofDigits_eq_zero hp q hzero]
      rwa [hzero] at h
    · intro h
      have hzero := hhead hlt' h
      rw [ofDigits_eq_zero hq p hzero]
      rwa [hzero] at h

/-- No other number is. -/
theorem ofDigits_lt_of_eq (hp : 0 < p) (hpq : p < q) {L : List ℕ} (hL : ∀ d ∈ L, d < p)
    (h : Nat.ofDigits p L = Nat.ofDigits q L) : Nat.ofDigits p L < p := by
  cases L with
  | nil => exact hp
  | cons d L =>
    have hle := Nat.ofDigits_monotone L hpq.le
    rw [Nat.ofDigits_cons, Nat.ofDigits_cons] at h
    have hzero : Nat.ofDigits q L = 0 := by
      by_contra hne
      have hmono := Nat.mul_le_mul_left p hle
      have hlt := Nat.mul_lt_mul_of_pos_right hpq (Nat.pos_of_ne_zero hne)
      omega
    rw [Nat.ofDigits_cons, Nat.eq_zero_of_le_zero (hle.trans hzero.le)]
    exact hL d List.mem_cons_self

variable (hdigit : ∀ c d, digit c = some d ↔ digit' c = some d ∧ d < p)

include hdigit

theorem mapM_digit_eq_some {ds : List ℕ} :
    cs.mapM digit = some ds ↔ cs.mapM digit' = some ds ∧ ∀ d ∈ ds, d < p := by
  induction cs generalizing ds with
  | nil =>
    simp only [List.mapM_nil, Option.pure_def, Option.some_inj]
    constructor
    · rintro rfl
      exact ⟨rfl, by simp⟩
    · exact And.left
  | cons c cs ih =>
    simp only [List.mapM_cons, Option.bind_eq_bind, Option.bind_eq_some_iff, Option.pure_def,
      Option.some_inj, hdigit, ih]
    constructor
    · rintro ⟨d, ⟨hd, hlt⟩, ds, ⟨hds, hall⟩, rfl⟩
      exact ⟨⟨d, hd, ds, hds, rfl⟩, List.forall_mem_cons.mpr ⟨hlt, hall⟩⟩
    · rintro ⟨⟨d, hd, ds, hds, rfl⟩, hall⟩
      obtain ⟨hlt, hall⟩ := List.forall_mem_cons.mp hall
      exact ⟨d, ⟨hd, hlt⟩, ds, ⟨hds, hall⟩, rfl⟩

/-- A text that denotes a number in either radix denotes the same one exactly if it has one
digit. -/
theorem Denotes.lt_of_both (hp : 0 < p) (hpq : p < q) (h : Denotes digit p cs n)
    (h' : Denotes digit' q cs n) : n < p := by
  obtain ⟨ds, hds, hn⟩ := h
  obtain ⟨ds', hds', hn'⟩ := h'
  obtain ⟨hsame, hall⟩ := (mapM_digit_eq_some hdigit).mp hds
  rw [hsame, Option.some_inj] at hds'
  subst hds'
  rw [← hn]
  refine ofDigits_lt_of_eq hp hpq (fun d hd => hall d (List.mem_reverse.mp hd)) ?_
  rw [hn, hn']

theorem denotes_iff_of_lt (hp : 0 < p) (hpq : p ≤ q) (hlt : n < p) :
    Denotes digit p cs n ↔ Denotes digit' q cs n := by
  have hq : 0 < q := hp.trans_le hpq
  constructor
  · rintro ⟨ds, hds, hn⟩
    refine ⟨ds, ((mapM_digit_eq_some hdigit).mp hds).1, ?_⟩
    exact (ofDigits_eq_of_lt hp hq hlt (hlt.trans_le hpq)).mp hn
  · rintro ⟨ds, hds, hn⟩
    refine ⟨ds, (mapM_digit_eq_some hdigit).mpr ⟨hds, fun d hd => ?_⟩,
      (ofDigits_eq_of_lt hp hq hlt (hlt.trans_le hpq)).mpr hn⟩
    have hsum : ds.reverse.sum ≤ n := hn ▸ Nat.sum_le_ofDigits ds.reverse hq
    have hle := List.le_sum_of_mem (List.mem_reverse.mpr hd)
    omega

end Radices

end Nemclass.Numerals
