import Nemclass.Kernel.SlotLives

/-! What one atomic step does to the slots' lives and places: with what a thread may do, every step
keeps the books. -/
namespace Nemclass.Kernel.Teardown
open Interleaving

variable {ι : Type} {closed : Bool} {started : ℕ} {σ σ' : Session}
  {perms perms' : ι → Perm} {lives : Ptr → Life} {place : Ptr → Place ι} {t : ι} {slot : Ptr}
  {life : Life}

theorem Roles.congr (h : Roles closed σ perms) (hroles : ∀ t, (perms' t).role = (perms t).role)
    (hslots : closed = true → σ.slots = [] → σ'.slots = []) : Roles closed σ' perms' where
  caller t := by rw [hroles, h.caller]
  closing hclosed := by
    obtain ⟨t, ht⟩ := h.closing hclosed
    exact ⟨t, by rwa [hroles]⟩
  emptied t ht := by
    rw [hroles] at ht
    refine hslots ?_ (h.emptied t ht)
    rw [← Bool.not_eq_false, ← h.caller t, ht]
    decide

section Places
variable [DecidableEq ι]

theorem update_eq {α : Type} {f : Perm → α} {p : Perm} (h : f p = f (perms t)) (t' : ι) :
    f (Function.update perms t p t') = f (perms t') := by
  by_cases ht : t' = t
  · subst ht
    rw [Function.update_self, h]
  · rw [Function.update_of_ne ht]

theorem Held.of_owns (h : Held σ perms lives place) (howns : (perms t).owns slot = some life) :
    place slot = .heldBy t ∧ lives slot = life := by
  rw [h.owns] at howns
  split at howns
  · exact ⟨‹_›, Option.some.inj howns⟩
  · cases howns

theorem Held.lt_allocated (h : Held σ perms lives place) (hplace : place slot ≠ .nowhere) :
    slot < σ.allocated :=
  Nat.lt_of_not_le fun hle => hplace (h.unborn slot hle).1

/-- A slot changes its place and its life: it was not with another thread, and does not go to one. -/
theorem Held.relocate (h : Held σ perms lives place) {b : Place ι}
    (hfrom : ∀ t', place slot = .heldBy t' → t' = t) (hto : ∀ t', b = .heldBy t' → t' = t)
    (hborn : slot < σ'.allocated) (hallocated : σ.allocated ≤ σ'.allocated)
    (hslots : ∀ s, s ∈ σ'.slots ↔ Function.update place slot b s = .listed)
    (hnodup : σ'.slots.Nodup) (harmed : b = .listed → life.Armed) (hover : b = .nowhere → life.Over) :
    Held σ' (Function.update perms t
        ((perms t).set slot (if b = .heldBy t then some life else none)))
      (Function.update lives slot life) (Function.update place slot b) where
  owns t' s := by
    by_cases ht : t' = t
    · subst ht
      rw [Function.update_self]
      by_cases hs : s = slot
      · subst hs
        simp only [Perm.set, Function.update_self]
      · simp only [Perm.set, Function.update_of_ne hs]
        exact h.owns t' s
    · rw [Function.update_of_ne ht, h.owns]
      by_cases hs : s = slot
      · subst hs
        simp only [Function.update_self]
        rw [if_neg fun heq => ht (hfrom t' heq), if_neg fun heq => ht (hto t' heq)]
      · simp only [Function.update_of_ne hs]
  listed := hslots
  nodup := hnodup
  armed s hs := by
    by_cases hslot : s = slot
    · subst hslot
      rw [Function.update_self] at hs ⊢
      exact harmed hs
    · rw [Function.update_of_ne hslot] at hs ⊢
      exact h.armed s hs
  ended s hs := by
    by_cases hslot : s = slot
    · subst hslot
      rw [Function.update_self] at hs ⊢
      exact hover hs
    · rw [Function.update_of_ne hslot] at hs ⊢
      exact h.ended s hs
  unborn s hs := by
    have hslot : s ≠ slot := by
      rintro rfl
      exact absurd hborn (Nat.not_lt.mpr hs)
    rw [Function.update_of_ne hslot, Function.update_of_ne hslot]
    exact h.unborn s (hallocated.trans hs)

/-- Slots stay where they are while what the threads hold does. -/
theorem Held.congr (h : Held σ perms lives place) (hslots : σ'.slots = σ.slots)
    (hallocated : σ'.allocated = σ.allocated) (howns : ∀ t, (perms' t).owns = (perms t).owns) :
    Held σ' perms' lives place where
  owns t slot := by rw [howns, h.owns]
  listed slot := by rw [hslots, h.listed]
  nodup := by
    rw [hslots]
    exact h.nodup
  armed := h.armed
  ended := h.ended
  unborn slot hle := h.unborn slot (hallocated ▸ hle)

/-- The list stays where a slot neither leaves it nor comes onto it. -/
theorem Held.listed_update (h : Held σ perms lives place) {b : Place ι}
    (hold : place slot ≠ .listed) (hnew : b ≠ .listed) (s : Ptr) :
    s ∈ σ.slots ↔ Function.update place slot b s = .listed := by
  rw [h.listed]
  by_cases hs : s = slot
  · subst hs
    rw [Function.update_self]
    exact iff_of_false hold hnew
  · rw [Function.update_of_ne hs]

end Places

theorem numbers_append {e : Effect} (hlog : σ'.log = σ.log ++ [e]) :
    σ'.numbers = σ.numbers ++ (numbered e).toList := by
  rw [Session.numbers, hlog, List.filterMap_append]
  cases h : numbered e with
  | none => simp [h, Session.numbers]
  | some id => simp [h, Session.numbers]

section Counts
variable [Fintype ι]

theorem Numbered.congr (h : Numbered started σ perms) (hnumbers : σ'.numbers = σ.numbers)
    (hnext : σ'.nextSlot = σ.nextSlot) (hperms : ∀ t, (perms' t).numbers = (perms t).numbers) :
    Numbered started σ' perms' where
  numbers := by rw [hnumbers, ← h.numbers]
  next := by rw [hnumbers, hnext, h.next]
  budget := by
    simp only [hnumbers, hperms]
    exact h.budget

variable [DecidableEq ι]

theorem sum_numbers_update (perms : ι → Perm) (t : ι) (p : Perm) :
    ∑ t', (Function.update perms t p t').numbers + (perms t).numbers =
      ∑ t', (perms t').numbers + p.numbers := by
  rw [← Finset.add_sum_erase _ _ (Finset.mem_univ t),
    ← Finset.add_sum_erase _ (fun t' => (perms t').numbers) (Finset.mem_univ t),
    Function.update_self]
  have hothers : ∑ t' ∈ Finset.univ.erase t, (Function.update perms t p t').numbers =
      ∑ t' ∈ Finset.univ.erase t, (perms t').numbers :=
    Finset.sum_congr rfl fun t' ht' => by
      rw [Function.update_of_ne (Finset.ne_of_mem_erase ht')]
  rw [hothers]
  omega

/-- A number given out is one that its thread was still to give. -/
theorem Numbered.number (h : Numbered started σ perms) (slot : Ptr) {p : Perm}
    (hp : p.numbers + 1 = (perms t).numbers) :
    Numbered started (σ.number slot) (Function.update perms t p) := by
  have hnumbers : (σ.number slot).numbers = σ.numbers ++ [σ.nextSlot] :=
    numbers_append (e := .number slot σ.nextSlot) rfl
  have hlength : (σ.number slot).numbers.length = σ.numbers.length + 1 := by
    rw [hnumbers, List.length_append, List.length_singleton]
  refine ⟨?_, ?_, ?_⟩
  · rw [hlength, List.range_succ, List.map_append, ← h.numbers, hnumbers, h.next]
    rfl
  · rw [hlength]
    show σ.nextSlot + 1 = _
    rw [h.next, BitVec.ofNat_add]
    rfl
  · have hsum := sum_numbers_update perms t p
    have := h.budget
    omega

/-- A call pays for one number. -/
theorem Numbered.call (h : Numbered started σ perms) (t : ι) {p : Perm} (hp : p.numbers ≤ 1) :
    Numbered (started + 1) σ (Function.update perms t p) where
  numbers := h.numbers
  next := h.next
  budget := by
    have hsum := sum_numbers_update perms t p
    have := h.budget
    omega

end Counts

section Steps
variable [Fintype ι] [DecidableEq ι]

theorem Inv.congr (h : Inv closed started σ perms lives place) (hslots : σ'.slots = σ.slots)
    (hallocated : σ'.allocated = σ.allocated) (hlog : σ'.log = σ.log)
    (hlinks : ∀ s, σ'.links s = σ.links s) (hnext : σ'.nextSlot = σ.nextSlot) :
    Inv closed started σ' perms lives place where
  accounts s := (h.accounts s).congr hlog ((hlinks s).trans (h.accounts s).links)
  frees := by
    rw [hlog]
    exact h.frees
  held := h.held.congr hslots hallocated fun _ => rfl
  numbered := h.numbered.congr (by rw [Session.numbers, hlog, Session.numbers]) hnext fun _ => rfl
  roles := h.roles.congr (fun _ => rfl) fun _ hempty => hslots.trans hempty

/-- A step on one slot, which may change its place and its life. -/
theorem Inv.relocate (h : Inv closed started σ perms lives place) {b : Place ι}
    (hfrom : ∀ t', place slot = .heldBy t' → t' = t) (hto : ∀ t', b = .heldBy t' → t' = t)
    (hborn : slot < σ'.allocated) (hallocated : σ.allocated ≤ σ'.allocated)
    (hslots : ∀ s, s ∈ σ'.slots ↔ Function.update place slot b s = .listed)
    (hnodup : σ'.slots.Nodup) (harmed : b = .listed → life.Armed) (hover : b = .nowhere → life.Over)
    (haccount : Accounts σ' slot life)
    (hothers : ∀ s, s ≠ slot → ∀ l, Accounts σ s l → Accounts σ' s l)
    (hfrees : FreesSynced σ'.log) (hnumbers : σ'.numbers = σ.numbers)
    (hnext : σ'.nextSlot = σ.nextSlot) (hempty : closed = true → σ.slots = [] → σ'.slots = []) :
    Inv closed started σ' (Function.update perms t
        ((perms t).set slot (if b = .heldBy t then some life else none)))
      (Function.update lives slot life) (Function.update place slot b) where
  accounts s := by
    by_cases hs : s = slot
    · subst hs
      rw [Function.update_self]
      exact haccount
    · rw [Function.update_of_ne hs]
      exact hothers s hs _ (h.accounts s)
  frees := hfrees
  held := h.held.relocate hfrom hto hborn hallocated hslots hnodup harmed hover
  numbered := h.numbered.congr hnumbers hnext (update_eq (f := Perm.numbers) rfl)
  roles := h.roles.congr (update_eq (f := Perm.role) rfl) hempty

/-- A step on a slot that its thread keeps. -/
theorem Inv.keep (h : Inv closed started σ perms lives place) {before : Life}
    (howns : (perms t).owns slot = some before) (hslots : σ'.slots = σ.slots)
    (hallocated : σ'.allocated = σ.allocated) (haccount : Accounts σ slot before → Accounts σ' slot life)
    (hothers : ∀ s, s ≠ slot → ∀ l, Accounts σ s l → Accounts σ' s l)
    (hfrees : FreesSynced σ'.log) (hnumbers : σ'.numbers = σ.numbers)
    (hnext : σ'.nextSlot = σ.nextSlot) :
    ∃ lives, Inv closed started σ' (Function.update perms t ((perms t).set slot (some life)))
      lives place := by
  obtain ⟨hplace, rfl⟩ := h.held.of_owns howns
  have hsame : Function.update place slot (.heldBy t) = place := by
    rw [← hplace, Function.update_eq_self]
  have hmoved : Inv closed started σ' (Function.update perms t
      ((perms t).set slot (if (.heldBy t : Place ι) = .heldBy t then some life else none)))
        (Function.update lives slot life) (Function.update place slot (.heldBy t)) := by
    refine h.relocate (fun t' ht => ?_) (fun t' ht => (Place.heldBy.inj ht).symm) ?_
      (le_of_eq hallocated.symm) (fun s => ?_) ?_ (fun hb => nomatch hb) (fun hb => nomatch hb)
      (haccount (h.accounts slot)) hothers hfrees hnumbers hnext fun _ hempty => hslots.trans hempty
    · rw [hplace] at ht
      exact (Place.heldBy.inj ht).symm
    · rw [hallocated]
      exact h.held.lt_allocated (by rw [hplace]; exact nofun)
    · rw [hsame, hslots, h.held.listed]
    · rw [hslots]
      exact h.held.nodup
  rw [if_pos rfl, hsame] at hmoved
  exact ⟨_, hmoved⟩

end Steps

end Nemclass.Kernel.Teardown
