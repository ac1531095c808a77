import Mathlib.Data.List.Induction
import Nemclass.Lib.MappedStore
import Nemclass.Lib.Records
import Nemclass.Scan.Target

/-! Frozen values, which are written into the target again and again. Values may overlap, and their
addresses may be mapped in part or not at all. -/
namespace Nemclass.Scan
open MappedPrefix

/-- The memory of a target that is written to. -/
abbrev Cells := ℕ → Option UInt8

/-- `WriteTarget`, whose writes return how many bytes they wrote, with the memory afterwards. -/
structure WriteTarget where
  write : ℕ → List UInt8 → Cells → Except Error ℕ × Cells

/-- A write stores the first of its bytes, none past a hole, and returns how many unless it fails;
where every byte is mapped it stores all. -/
structure WriteTarget.Stores (T : WriteTarget) : Prop where
  wrote : ∀ addr bytes mem, ∃ k ≤ (mappedPrefix mem addr bytes.length).length,
    (T.write addr bytes mem).2 = overwrite mem addr (bytes.take k) ∧
      ∀ n, (T.write addr bytes mem).1 = .ok n → n = k
  whole : ∀ addr bytes mem, (mappedPrefix mem addr bytes.length).length = bytes.length →
    (T.write addr bytes mem).1 = .ok bytes.length

/-- A target that fails only where nothing is mapped. -/
def storing : WriteTarget where
  write addr bytes mem :=
    let k := (mappedPrefix mem addr bytes.length).length
    (if k = 0 ∧ bytes ≠ [] then .error .invalidAddress else .ok k, put mem addr bytes)

theorem storing_stores : storing.Stores where
  wrote addr bytes mem := by
    refine ⟨_, Nat.le_refl _, rfl, fun n hn => ?_⟩
    simp only [storing] at hn
    split_ifs at hn
    cases hn
    rfl
  whole addr bytes mem h := by
    simp only [storing, h]
    rw [if_neg fun hempty => hempty.2 (List.length_eq_zero_iff.mp hempty.1)]

/-- An address is frozen once. -/
structure FreezeSet where
  entries : List (ℕ × List UInt8)
  nodup : (entries.map Prod.fst).Nodup

namespace FreezeSet

def new : FreezeSet := ⟨[], List.nodup_nil⟩

def set (s : FreezeSet) (address : ℕ) (bytes : List UInt8) : FreezeSet where
  entries := Records.insert s.entries address bytes
  nodup := Records.nodup_insert s.nodup address bytes

@[simp] theorem entries_set (s : FreezeSet) (address : ℕ) (bytes : List UInt8) :
    (s.set address bytes).entries = Records.insert s.entries address bytes := rfl

def remove (s : FreezeSet) (address : ℕ) : FreezeSet where
  entries := s.entries.filter (·.1 ≠ address)
  nodup := s.nodup.sublist (List.filter_sublist.map Prod.fst)

/-- One round of `FreezeSet::apply`, with the number of entries that were written whole so far. -/
def applyEntry (T : WriteTarget) (acc : ℕ × Cells) (e : ℕ × List UInt8) : ℕ × Cells :=
  let r := T.write e.1 e.2 acc.2
  match r.1 with
  | .ok written => if written = e.2.length then (acc.1 + 1, r.2) else (acc.1, r.2)
  | .error _ => (acc.1, r.2)

/-- `FreezeSet::apply`, which does not fail. -/
def apply (T : WriteTarget) (s : FreezeSet) (mem : Cells) : ℕ × Cells :=
  s.entries.foldl (applyEntry T) (0, mem)

end FreezeSet

/-- Every byte of the entry is mapped. -/
def FullyMapped (mem : Cells) (e : ℕ × List UInt8) : Prop :=
  (mappedPrefix mem e.1 e.2.length).length = e.2.length

instance (mem : Cells) : DecidablePred (FullyMapped mem) := fun e => by
  unfold FullyMapped
  infer_instance

theorem FullyMapped.congr {mem mem' : Cells} (h : ∀ a, (mem' a).isSome = (mem a).isSome)
    (e : ℕ × List UInt8) : FullyMapped mem' e ↔ FullyMapped mem e := by
  rw [FullyMapped, FullyMapped, length_mappedPrefix_congr h]

/-- What writing the entries one after another leaves of a memory: nothing is mapped or unmapped,
what no entry reaches stays, the rest holds what was there or what an entry has for it, and it is
the last entry's if those that reach it are mapped throughout. -/
structure Pinned (es : List (ℕ × List UInt8)) (mem mem' : Cells) : Prop where
  mapping : ∀ a, (mem' a).isSome = (mem a).isSome
  frame : ∀ a, (∀ e ∈ es, covers a e = none) → mem' a = mem a
  values : ∀ a, mem' a = mem a ∨ ∃ e ∈ es, mem' a = covers a e
  last : ∀ a v, lastCover es a = some v → (∀ e ∈ es, (covers a e).isSome → FullyMapped mem e) →
    mem' a = some v

section Apply

variable {T : WriteTarget} {mem : Cells}

theorem Pinned.nil (mem : Cells) : Pinned [] mem mem where
  mapping _ := rfl
  frame _ _ := rfl
  values _ := .inl rfl
  last _ _ h _ := by cases h

/-- One entry more. -/
theorem Pinned.concat {es : List (ℕ × List UInt8)} {mem' : Cells} (h : Pinned es mem mem')
    (e : ℕ × List UInt8) {k : ℕ} (hk : FullyMapped mem e → k = e.2.length) :
    Pinned (es ++ [e]) mem (overwrite mem' e.1 (e.2.take k)) where
  mapping a := (isSome_overwrite mem' e.1 _ a).trans (h.mapping a)
  frame a hnone := by
    rw [overwrite_uncovered (hnone e (List.mem_append_right es List.mem_cons_self))]
    exact h.frame a fun e' he' => hnone e' (List.mem_append_left [e] he')
  values a := by
    rcases overwrite_take mem' e.1 e.2 k a with hsame | hnew
    · rw [hsame]
      rcases h.values a with hold | ⟨e', he', hcover⟩
      · exact .inl hold
      · exact .inr ⟨e', List.mem_append_left [e] he', hcover⟩
    · exact .inr ⟨e, List.mem_append_right es List.mem_cons_self, hnew⟩
  last a v hlast hmapped := by
    have hself : e ∈ es ++ [e] := List.mem_append_right es List.mem_cons_self
    rw [lastCover_concat] at hlast
    cases hcover : covers a e with
    | none =>
      rw [hcover, Option.none_or] at hlast
      rw [overwrite_uncovered hcover]
      exact h.last a v hlast fun e' he' => hmapped e' (List.mem_append_left [e] he')
    | some w =>
      rw [hcover, Option.some_or] at hlast
      have hwhole := hmapped e hself (hcover ▸ rfl)
      have hfull : (mappedPrefix mem' e.1 e.2.length).length = e.2.length :=
        (FullyMapped.congr h.mapping e).mpr hwhole
      rw [hk hwhole, List.take_length]
      exact overwrite_covered hfull (hcover.trans hlast)

/-- What is written whole and apart from the others is in memory afterwards. -/
theorem Pinned.apart {es : List (ℕ × List UInt8)} {mem mem' : Cells} (h : Pinned es mem mem')
    {e : ℕ × List UInt8} (he : e ∈ es) (hmapped : FullyMapped mem e)
    (hothers : ∀ e' ∈ es, e'.1 ≠ e.1 → e'.1 + e'.2.length ≤ e.1 ∨ e.1 + e.2.length ≤ e'.1)
    (hunique : ∀ e' ∈ es, e'.1 = e.1 → e' = e) : mappedPrefix mem' e.1 e.2.length = e.2 := by
  refine mappedPrefix_of_values fun i hi => ?_
  have hcover : covers (e.1 + i) e = some e.2[i] := covers_get hi
  have honly : ∀ e' ∈ es, (covers (e.1 + i) e').isSome → e' = e := fun e' he' hsome => by
    by_contra hne
    have hspan := isSome_covers.mp hsome
    rcases hothers e' he' (fun heq => hne (hunique e' he' heq)) with hbelow | habove <;> omega
  cases hlast : lastCover es (e.1 + i) with
  | none => rw [lastCover_eq_none.mp hlast e he] at hcover; cases hcover
  | some v =>
    obtain ⟨e', he', hv⟩ := exists_of_lastCover hlast
    have hself := honly e' he' (hv ▸ rfl)
    rw [hself, hcover] at hv
    rw [hv]
    exact h.last _ v hlast fun e'' he'' hsome => honly e'' he'' hsome ▸ hmapped

theorem apply_pinned (hT : T.Stores) (s : FreezeSet) (mem : Cells) :
    Pinned s.entries mem (s.apply T mem).2 ∧
      (s.apply T mem).1 = s.entries.countP (FullyMapped mem ·) := by
  rw [FreezeSet.apply]
  induction s.entries using List.reverseRecOn with
  | nil => exact ⟨.nil mem, rfl⟩
  | append_singleton es e ih =>
    obtain ⟨hpinned, hcount⟩ := ih
    rw [List.foldl_append, List.foldl_cons, List.foldl_nil, List.countP_append,
      List.countP_singleton]
    generalize es.foldl (FreezeSet.applyEntry T) (0, mem) = acc at hpinned hcount ⊢
    have hmapped : FullyMapped acc.2 e ↔ FullyMapped mem e := FullyMapped.congr hpinned.mapping e
    obtain ⟨k, hk, hmem, hok⟩ := hT.wrote e.1 e.2 acc.2
    have hwhole : FullyMapped mem e → (T.write e.1 e.2 acc.2).1 = .ok e.2.length := fun h =>
      hT.whole e.1 e.2 acc.2 (hmapped.mpr h)
    have hstep : (FreezeSet.applyEntry T acc e).2 = overwrite acc.2 e.1 (e.2.take k) := by
      rw [FreezeSet.applyEntry, ← hmem]
      split
      · split <;> rfl
      · rfl
    refine ⟨?_, ?_⟩
    · rw [hstep]
      exact hpinned.concat e fun h => (hok _ (hwhole h)).symm
    · rw [FreezeSet.applyEntry, ← hcount]
      by_cases h : FullyMapped mem e
      · rw [hwhole h]
        simp [h]
      · have hshort : k ≠ e.2.length := fun heq => h (hmapped.mp (by
          have hle := length_mappedPrefix_le acc.2 e.1 e.2.length
          rw [FullyMapped]
          omega))
        split
        · rename_i n hn
          rw [if_neg (hok n hn ▸ hshort)]
          simp [h]
        · simp [h]

end Apply

end Nemclass.Scan
