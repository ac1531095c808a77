import Mathlib.Data.List.Basic
import Mathlib.Tactic.Common

/-! Memory with holes: what a read of a range brings in that stops at the first hole, and how
reads of neighbouring ranges make up that of the whole. -/
namespace Nemclass.MappedPrefix

variable {α : Type}

/-- The values from an address on, up to the first hole and `len` at most. -/
def mappedPrefix (mem : ℕ → Option α) (addr : ℕ) : ℕ → List α
  | 0 => []
  | len + 1 =>
    match mem addr with
    | none => []
    | some a => a :: mappedPrefix mem (addr + 1) len

/-- The length of the longest prefix of a range that is mapped throughout. -/
structure LongestMapped (mem : ℕ → Option α) (addr len n : ℕ) : Prop where
  le : n ≤ len
  mapped : ∀ i < n, (mem (addr + i)).isSome
  hole : n < len → mem (addr + n) = none

section Prefix

variable {mem : ℕ → Option α} {addr len : ℕ}

theorem mappedPrefix_none (h : mem addr = none) (len : ℕ) : mappedPrefix mem addr len = [] := by
  cases len with
  | zero => rfl
  | succ len => simp only [mappedPrefix, h]

theorem mappedPrefix_some {a : α} (h : mem addr = some a) (len : ℕ) :
    mappedPrefix mem addr (len + 1) = a :: mappedPrefix mem (addr + 1) len := by
  simp only [mappedPrefix, h]

theorem length_mappedPrefix_le (mem : ℕ → Option α) (addr len : ℕ) :
    (mappedPrefix mem addr len).length ≤ len := by
  induction len generalizing addr with
  | zero => exact Nat.le_refl 0
  | succ len ih =>
    cases hmem : mem addr with
    | none =>
      rw [mappedPrefix_none hmem]
      exact Nat.zero_le _
    | some a =>
      rw [mappedPrefix_some hmem]
      exact Nat.succ_le_succ (ih (addr + 1))

/-- What was read is what is there. -/
theorem mappedPrefix_getElem (mem : ℕ → Option α) (addr len : ℕ) {i : ℕ}
    (h : i < (mappedPrefix mem addr len).length) :
    mem (addr + i) = some (mappedPrefix mem addr len)[i] := by
  induction len generalizing addr i with
  | zero => cases h
  | succ len ih =>
    cases hmem : mem addr with
    | none =>
      rw [mappedPrefix_none hmem] at h
      cases h
    | some a =>
      simp only [mappedPrefix_some hmem] at h ⊢
      cases i with
      | zero => exact hmem
      | succ i =>
        have hi := ih (addr + 1) (Nat.lt_of_succ_lt_succ h)
        rw [Nat.add_right_comm, Nat.add_assoc] at hi
        rw [List.getElem_cons_succ]
        exact hi

/-- A read that came out short stopped at a hole. -/
theorem mappedPrefix_hole (h : (mappedPrefix mem addr len).length < len) :
    mem (addr + (mappedPrefix mem addr len).length) = none := by
  induction len generalizing addr with
  | zero => cases h
  | succ len ih =>
    cases hmem : mem addr with
    | none =>
      rw [mappedPrefix_none hmem]
      exact hmem
    | some a =>
      rw [mappedPrefix_some hmem, List.length_cons] at h ⊢
      have hrest := @ih (addr + 1) (by omega)
      rw [Nat.add_right_comm, Nat.add_assoc] at hrest
      exact hrest

theorem longestMapped_length (mem : ℕ → Option α) (addr len : ℕ) :
    LongestMapped mem addr len (mappedPrefix mem addr len).length where
  le := length_mappedPrefix_le mem addr len
  mapped _ hi := by rw [mappedPrefix_getElem mem addr len hi, Option.isSome_some]
  hole := mappedPrefix_hole

/-- A range that is mapped throughout is read in full, and then the rest of it. -/
theorem mappedPrefix_add {m : ℕ} (h : (mappedPrefix mem addr m).length = m) (n : ℕ) :
    mappedPrefix mem addr (m + n) = mappedPrefix mem addr m ++ mappedPrefix mem (addr + m) n := by
  induction m generalizing addr with
  | zero => rw [Nat.zero_add, Nat.add_zero, mappedPrefix, List.nil_append]
  | succ m ih =>
    cases hmem : mem addr with
    | none =>
      rw [mappedPrefix_none hmem] at h
      cases h
    | some a =>
      rw [mappedPrefix_some hmem, List.length_cons] at h
      rw [Nat.add_right_comm, mappedPrefix_some hmem, mappedPrefix_some hmem,
        ih (Nat.succ.inj h), List.cons_append, Nat.add_right_comm addr, Nat.add_assoc addr]

/-- Past a hole nothing more comes in. -/
theorem mappedPrefix_add_of_short {m : ℕ} (h : (mappedPrefix mem addr m).length < m) (n : ℕ) :
    mappedPrefix mem addr (m + n) = mappedPrefix mem addr m := by
  induction m generalizing addr with
  | zero => cases h
  | succ m ih =>
    cases hmem : mem addr with
    | none => rw [mappedPrefix_none hmem, mappedPrefix_none hmem]
    | some a =>
      rw [mappedPrefix_some hmem, List.length_cons] at h
      rw [Nat.add_right_comm, mappedPrefix_some hmem, mappedPrefix_some hmem,
        ih (Nat.lt_of_succ_lt_succ h)]

theorem mappedPrefix_const {a : α} (h : ∀ k < len, mem (addr + k) = some a) :
    mappedPrefix mem addr len = .replicate len a := by
  induction len generalizing addr with
  | zero => rfl
  | succ len ih =>
    have hhead : mem addr = some a := h 0 (Nat.succ_pos len)
    rw [mappedPrefix_some hhead, List.replicate_succ, ih fun k hk => ?_]
    rw [Nat.add_assoc, Nat.add_comm 1 k]
    exact h (k + 1) (Nat.succ_lt_succ hk)

/-- What is mapped throughout comes in whole. -/
theorem length_mappedPrefix_of_mapped (h : ∀ k < len, (mem (addr + k)).isSome) :
    (mappedPrefix mem addr len).length = len := by
  by_contra hne
  have hshort := Nat.lt_of_le_of_ne (length_mappedPrefix_le mem addr len) hne
  have hsome := h _ hshort
  rw [mappedPrefix_hole hshort] at hsome
  cases hsome

/-- A part of a range that came in whole. -/
theorem mappedPrefix_window {s w : ℕ} (hfits : s + w ≤ len)
    (h : (mappedPrefix mem addr len).length = len) :
    ((mappedPrefix mem addr len).drop s).take w = mappedPrefix mem (addr + s) w := by
  have hmapped : ∀ k < len, (mem (addr + k)).isSome := fun k hk => by
    rw [mappedPrefix_getElem mem addr len (h.symm ▸ hk), Option.isSome_some]
  have hhead : (mappedPrefix mem addr s).length = s :=
    length_mappedPrefix_of_mapped fun k hk => hmapped k (by omega)
  have hpart : (mappedPrefix mem (addr + s) w).length = w := by
    refine length_mappedPrefix_of_mapped fun k hk => ?_
    rw [Nat.add_assoc]
    exact hmapped (s + k) (by omega)
  obtain ⟨r, rfl⟩ := Nat.exists_eq_add_of_le hfits
  rw [Nat.add_assoc, mappedPrefix_add hhead, List.drop_left' hhead, mappedPrefix_add hpart,
    List.take_left' hpart]

end Prefix

section Store

/-- A memory after values were written from an address on. -/
def store (mem : ℕ → α) (addr : ℕ) (vs : List α) : ℕ → α := fun a =>
  if addr ≤ a then (vs[a - addr]?).getD (mem a) else mem a

theorem store_nil (mem : ℕ → α) (addr : ℕ) : store mem addr [] = mem := by
  funext a
  simp [store]

theorem store_get (mem : ℕ → α) (addr : ℕ) (vs : List α) {i : ℕ} (h : i < vs.length) :
    store mem addr vs (addr + i) = vs[i] := by
  simp [store, h]

theorem store_outside (mem : ℕ → α) {addr a : ℕ} {vs : List α}
    (h : a < addr ∨ addr + vs.length ≤ a) : store mem addr vs a = mem a := by
  unfold store
  split
  · rw [List.getElem?_eq_none (by omega), Option.getD_none]
  · rfl

/-- Neighbouring writes are one. -/
theorem store_append (mem : ℕ → α) (addr : ℕ) (vs ws : List α) :
    store (store mem addr vs) (addr + vs.length) ws = store mem addr (vs ++ ws) := by
  funext a
  simp only [store]
  by_cases hlow : addr ≤ a
  · by_cases hhigh : addr + vs.length ≤ a
    · rw [if_pos hhigh, if_pos hlow, if_pos hlow, List.getElem?_append_right (by omega),
        List.getElem?_eq_none (l := vs) (by omega), Option.getD_none, Nat.sub_sub]
    · rw [if_neg hhigh, if_pos hlow, if_pos hlow, List.getElem?_append_left (by omega)]
  · rw [if_neg hlow, if_neg hlow, if_neg (by omega)]

end Store

end Nemclass.MappedPrefix
