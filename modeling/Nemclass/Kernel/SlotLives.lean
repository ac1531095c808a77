import Mathlib.Algebra.BigOperators.Group.Finset.Piecewise
import Mathlib.Data.Fintype.Basic
import Nemclass.Kernel.SlotPrograms

/-! Who may do what with a slot. Each slot is nowhere, on the session's list, or held by one thread;
a thread may act on a slot that it holds, as far as the slot's life so far allows. -/
namespace Nemclass.Kernel.Teardown
open Interleaving

/-- How far a resource of a slot has come. -/
inductive Status where
  | fresh
  | held
  | released
deriving DecidableEq, Repr

namespace Status

def taken : Status → ℕ
  | fresh => 0
  | _ => 1

def given : Status → ℕ
  | released => 1
  | _ => 0

theorem given_le_taken (s : Status) : s.given ≤ s.taken := by cases s <;> decide

theorem taken_le_one (s : Status) : s.taken ≤ 1 := by cases s <;> decide

theorem given_eq_taken_iff (s : Status) : s.given = s.taken ↔ s ≠ held := by cases s <;> decide

end Status

/-- A slot's life so far. `synced` says that the unregistered uprobe has no handlers left. -/
structure Life where
  status : Resource → Status
  links : Links
  synced : Bool

namespace Life
variable (life : Life)

def take (r : Resource) : Life := { life with status := Function.update life.status r .held }

def drop (r : Resource) : Life := { life with status := Function.update life.status r .released }

def relink (f : Links → Links) : Life := { life with links := f life.links }

def sync : Life := { life with synced := life.synced || life.status .uprobe == .released }

def unborn : Life := ⟨fun _ => .fresh, ⟨false, false, false, false⟩, false⟩

def born : Life := unborn.take .memory

def heldIf (b : Bool) : Status := if b then .held else .fresh

/-- What is linked is held, and nothing else. -/
structure Armed : Prop where
  memory : life.status .memory = .held
  hwBp : life.status .hwBp = heldIf life.links.hwBp
  uprobe : life.status .uprobe = heldIf life.links.uprobe
  inode : life.status .inode = heldIf life.links.inode
  mm : life.status .mm = heldIf life.links.targetMm
  resolveUsers : life.status .resolveUsers ≠ .held
  pinUsers : life.status .pinUsers ≠ .held

/-- Only the memory is left to give back, and no handler can still look at it. -/
structure Spent : Prop where
  memory : life.status .memory = .held
  others : ∀ r, r ≠ .memory → life.status r ≠ .held
  synced : life.status .uprobe = .released → life.synced = true

def Over : Prop := ∀ r, life.status r ≠ .held

end Life

/-- A sync has come after the uprobe of the slot was unregistered. -/
def Synced (log : List Effect) (slot : Ptr) : Prop :=
  ∃ before after, log = before ++ .release .uprobe slot :: after ∧ .sync ∈ after

/-- The log tells the slot's life. -/
structure Accounts (σ : Session) (slot : Ptr) (life : Life) : Prop where
  taken : ∀ r, σ.log.count (.acquire r slot) = (life.status r).taken
  given : ∀ r, σ.log.count (.release r slot) = (life.status r).given
  links : σ.links slot = life.links
  synced : life.synced = true → Synced σ.log slot

/-- A slot that had a uprobe is freed after a sync that came after unregistering it. -/
def FreesSynced (log : List Effect) : Prop :=
  ∀ before after slot, log = before ++ .release .memory slot :: after →
    .acquire .uprobe slot ∈ before → Synced before slot

inductive Place (ι : Type) where
  | nowhere
  | listed
  | heldBy (t : ι)
deriving DecidableEq

inductive Role where
  | caller
  | closing
  | emptied
  | gone
deriving DecidableEq

/-- What a thread may do: with which slots, in which role, and how many more slots it may number. -/
structure Perm where
  owns : Ptr → Option Life
  role : Role
  numbers : ℕ

namespace Perm

def set (p : Perm) (slot : Ptr) (life : Option Life) : Perm :=
  { p with owns := Function.update p.owns slot life }

/-- Nothing is held, and closing is not left half done. -/
def Rest (p : Perm) : Prop := (∀ slot, p.owns slot = none) ∧ p.role ≠ .closing

def Pre (p : Perm) : Op → Prop
  | .number slot => 0 < p.numbers ∧ p.owns slot ≠ none
  | .acquire r slot => r ≠ .memory ∧ ∃ life, p.owns slot = some life ∧ life.status r = .fresh
  | .mmgrab slot => ∃ life, p.owns slot = some life ∧ life.status .mm = .fresh
  | .release .memory slot => ∃ life, p.owns slot = some life ∧ life.Spent
  | .release r slot => ∃ life, p.owns slot = some life ∧ life.status r = .held
  | .load slot | .store slot _ => p.owns slot ≠ none
  | .list slot => p.role = .caller ∧ ∃ life, p.owns slot = some life ∧ life.Armed
  | .splice => p.role = .closing
  | .ask | .kzalloc | .readId _ | .unlist _ | .sync => True

def Post (p : Perm) : (o : Op) → Ans o → Perm → Prop
  | .kzalloc, some slot, p' => p' = p.set slot (some .born)
  | .number _, _, p' => p' = { p with numbers := p.numbers - 1 }
  | .acquire r slot, x, p' =>
    ∀ life, p.owns slot = some life → p' = if x = 0 then p.set slot (some (life.take r)) else p
  | .mmgrab slot, _, p' => ∀ life, p.owns slot = some life → p' = p.set slot (some (life.take .mm))
  | .release .memory slot, _, p' => p' = p.set slot none
  | .release r slot, _, p' => ∀ life, p.owns slot = some life → p' = p.set slot (some (life.drop r))
  | .load slot, links, p' => p' = p ∧ ∀ life, p.owns slot = some life → links = life.links
  | .store slot f, _, p' => ∀ life, p.owns slot = some life → p' = p.set slot (some (life.relink f))
  | .list slot, _, p' => p' = p.set slot none
  | .unlist _, some slot, p' =>
    p.owns slot = none ∧ ∃ life : Life, life.Armed ∧ p' = p.set slot (some life)
  | .splice, dead, p' => ∃ lives : Ptr → Life, dead.Nodup ∧
    (∀ slot ∈ dead, (lives slot).Armed ∧ p.owns slot = none) ∧
      p' = ⟨fun slot => if slot ∈ dead then some (lives slot) else p.owns slot, .emptied, p.numbers⟩
  | .sync, _, p' => p' = { p with owns := fun slot => (p.owns slot).map Life.sync }
  | .ask, _, p' | .kzalloc, none, p' | .readId _, _, p' | .unlist _, none, p' => p' = p

end Perm

def numbered : Effect → Option (BitVec 32)
  | .number _ id => some id
  | _ => none

/-- The ids given out, in order. -/
def Session.numbers (σ : Session) : List (BitVec 32) := σ.log.filterMap numbered

variable {ι : Type} [Fintype ι] [DecidableEq ι]

/-- The slots' lives and places, as the permissions have them. -/
structure Held (σ : Session) (perms : ι → Perm) (lives : Ptr → Life) (place : Ptr → Place ι) :
    Prop where
  owns : ∀ t slot, (perms t).owns slot = if place slot = .heldBy t then some (lives slot) else none
  listed : ∀ slot, slot ∈ σ.slots ↔ place slot = .listed
  nodup : σ.slots.Nodup
  armed : ∀ slot, place slot = .listed → (lives slot).Armed
  ended : ∀ slot, place slot = .nowhere → (lives slot).Over
  unborn : ∀ slot, σ.allocated ≤ slot → place slot = .nowhere ∧ ∀ r, (lives slot).status r = .fresh

/-- The ids count up, and there are no more of them than calls. -/
structure Numbered (started : ℕ) (σ : Session) (perms : ι → Perm) : Prop where
  numbers : σ.numbers = (List.range σ.numbers.length).map (BitVec.ofNat 32)
  next : σ.nextSlot = BitVec.ofNat 32 σ.numbers.length
  budget : σ.numbers.length + ∑ t, (perms t).numbers ≤ started

/-- Callers come first; then one thread closes, and empties the list. -/
structure Roles (closed : Bool) (σ : Session) (perms : ι → Perm) : Prop where
  caller : ∀ t, (perms t).role = .caller ↔ closed = false
  closing : closed = true → ∃ t, (perms t).role = .closing ∨ (perms t).role = .emptied
  emptied : ∀ t, (perms t).role = .emptied → σ.slots = []

structure Inv (closed : Bool) (started : ℕ) (σ : Session) (perms : ι → Perm)
    (lives : Ptr → Life) (place : Ptr → Place ι) : Prop where
  accounts : ∀ slot, Accounts σ slot (lives slot)
  frees : FreesSynced σ.log
  held : Held σ perms lives place
  numbered : Numbered started σ perms
  roles : Roles closed σ perms

section Log
variable {log : List Effect} {slot : Ptr} {e : Effect} {σ σ' : Session} {life : Life}

theorem Synced.append (h : Synced log slot) (e : Effect) : Synced (log ++ [e]) slot := by
  obtain ⟨before, after, rfl, hsync⟩ := h
  refine ⟨before, after ++ [e], ?_, List.mem_append_left _ hsync⟩
  rw [List.append_assoc, List.cons_append]

/-- An effect at the end of the log, or one before its end. -/
theorem concat_eq_append_cons {x : Effect} {before after : List Effect}
    (h : log ++ [e] = before ++ x :: after) :
    before = log ∧ x = e ∨ ∃ after', log = before ++ x :: after' := by
  rcases List.eq_nil_or_concat after with rfl | ⟨after', y, rfl⟩
  · obtain ⟨hbefore, hlast⟩ := List.append_inj' h rfl
    exact .inl ⟨hbefore.symm, (List.singleton_inj.mp hlast).symm⟩
  · refine .inr ⟨after', ?_⟩
    rw [List.concat_eq_append, ← List.cons_append, ← List.append_assoc] at h
    exact (List.append_inj' h rfl).1

theorem FreesSynced.append (h : FreesSynced log) (e : Effect)
    (he : ∀ slot, e = .release .memory slot → .acquire .uprobe slot ∈ log → Synced log slot) :
    FreesSynced (log ++ [e]) := by
  intro before after slot hlog huprobe
  rcases concat_eq_append_cons hlog with ⟨rfl, hlast⟩ | ⟨after', rfl⟩
  · exact he slot hlast.symm huprobe
  · exact h before after' slot rfl huprobe

/-- The effects that a slot's account counts. -/
def Effect.Of (slot : Ptr) (e : Effect) : Prop := ∃ r, e = .acquire r slot ∨ e = .release r slot

/-- What happens to other slots leaves a slot's account alone. -/
theorem Accounts.append (h : Accounts σ slot life) (hlog : σ'.log = σ.log ++ [e])
    (he : ¬ e.Of slot) (hlinks : σ'.links slot = life.links) : Accounts σ' slot life where
  taken r := by
    have hne : e ≠ .acquire r slot := fun heq => he ⟨r, .inl heq⟩
    rw [hlog, List.count_append, List.count_singleton, if_neg (by simpa using hne), h.taken r,
      Nat.add_zero]
  given r := by
    have hne : e ≠ .release r slot := fun heq => he ⟨r, .inr heq⟩
    rw [hlog, List.count_append, List.count_singleton, if_neg (by simpa using hne), h.given r,
      Nat.add_zero]
  links := hlinks
  synced hsynced := by
    rw [hlog]
    exact (h.synced hsynced).append e

theorem Accounts.congr (h : Accounts σ slot life) (hlog : σ'.log = σ.log)
    (hlinks : σ'.links slot = life.links) : Accounts σ' slot life where
  taken r := by rw [hlog, h.taken r]
  given r := by rw [hlog, h.given r]
  links := hlinks
  synced hsynced := by
    rw [hlog]
    exact h.synced hsynced

theorem Accounts.take (h : Accounts σ slot life) {r : Resource} (hfresh : life.status r = .fresh)
    (hlog : σ'.log = σ.log ++ [.acquire r slot]) (hlinks : σ'.links slot = life.links) :
    Accounts σ' slot (life.take r) where
  taken r' := by
    rw [hlog, List.count_append, List.count_singleton, h.taken r', Life.take]
    by_cases hr : r' = r
    · subst hr
      simp [hfresh, Status.taken]
    · simp [Function.update_of_ne hr, Ne.symm hr]
  given r' := by
    rw [hlog, List.count_append, List.count_singleton, h.given r', Life.take]
    by_cases hr : r' = r
    · subst hr
      simp [hfresh, Status.given]
    · simp [Function.update_of_ne hr]
  links := hlinks
  synced hsynced := by
    rw [hlog]
    exact (h.synced hsynced).append _

theorem Accounts.drop (h : Accounts σ slot life) {r : Resource} (hheld : life.status r = .held)
    (hlog : σ'.log = σ.log ++ [.release r slot]) (hlinks : σ'.links slot = life.links) :
    Accounts σ' slot (life.drop r) where
  taken r' := by
    rw [hlog, List.count_append, List.count_singleton, h.taken r', Life.drop]
    by_cases hr : r' = r
    · subst hr
      simp [hheld, Status.taken]
    · simp [Function.update_of_ne hr]
  given r' := by
    rw [hlog, List.count_append, List.count_singleton, h.given r', Life.drop]
    by_cases hr : r' = r
    · subst hr
      simp [hheld, Status.given]
    · simp [Function.update_of_ne hr, Ne.symm hr]
  links := hlinks
  synced hsynced := by
    rw [hlog]
    exact (h.synced hsynced).append _

theorem Accounts.sync (h : Accounts σ slot life) (hlog : σ'.log = σ.log ++ [.sync])
    (hlinks : σ'.links slot = life.links) : Accounts σ' slot life.sync where
  taken r := (h.append hlog (by rintro ⟨r, h | h⟩ <;> cases h) hlinks).taken r
  given r := (h.append hlog (by rintro ⟨r, h | h⟩ <;> cases h) hlinks).given r
  links := hlinks
  synced hsynced := by
    rw [hlog]
    rcases Bool.or_eq_true_iff.mp hsynced with hbefore | hreleased
    · exact (h.synced hbefore).append _
    · have hcount := h.given .uprobe
      rw [beq_iff_eq.mp hreleased] at hcount
      have hmem : .release .uprobe slot ∈ σ.log := by
        rw [← List.one_le_count_iff, hcount]
        exact le_refl 1
      obtain ⟨before, after, hsplit⟩ := List.append_of_mem hmem
      exact ⟨before, after ++ [.sync], by rw [hsplit, List.append_assoc, List.cons_append],
        List.mem_append_right _ (List.mem_singleton_self _)⟩

/-- Freeing a slot that is spent is freeing it after its sync. -/
theorem Accounts.free_synced (h : Accounts σ slot life) (hspent : life.Spent)
    (huprobe : .acquire .uprobe slot ∈ σ.log) : Synced σ.log slot := by
  have htaken := h.taken .uprobe
  have hpos := List.one_le_count_iff.mpr huprobe
  have hheld := hspent.others .uprobe (by decide)
  refine h.synced (hspent.synced ?_)
  cases hstatus : life.status .uprobe with
  | fresh =>
    rw [htaken, hstatus] at hpos
    cases hpos
  | held => exact absurd hstatus hheld
  | released => rfl

end Log

end Nemclass.Kernel.Teardown
