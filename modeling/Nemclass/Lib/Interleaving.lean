import Mathlib.Data.Fintype.Defs
import Mathlib.Logic.Function.Basic

/-! Threads over one shared state. A thread runs a program of atomic operations; what one answers
depends on the shared state and on a choice from outside. Threads make calls as they like until the
last user is gone: then one of them runs a closing program, and no more calls are made.

A discipline gives each thread a permission. A program that asks for no more than its permission
allows, whatever the operations answer, may be interleaved with any others that do so too. -/
namespace Nemclass.Interleaving

inductive Prog (Op : Type) (Ans : Op → Type) (α : Type) where
  | done (a : α)
  | op (o : Op) (k : Ans o → Prog Op Ans α)

namespace Prog
variable {Op : Type} {Ans : Op → Type} {α β : Type}

def bind : Prog Op Ans α → (α → Prog Op Ans β) → Prog Op Ans β
  | done a, f => f a
  | op o k, f => op o fun a => (k a).bind f

instance : Monad (Prog Op Ans) where
  pure := done
  bind := bind

def perform (o : Op) : Prog Op Ans (Ans o) := op o done

def isDone : Prog Op Ans α → Bool
  | done _ => true
  | op _ _ => false

end Prog

/-- Operations on a shared state, the calls that threads make, and what is run at the end. -/
structure System (Op : Type) (Ans : Op → Type) where
  Shared : Type
  Choice : Type
  Call : Type
  exec : (o : Op) → Choice → Shared → Ans o × Shared
  body : Call → Prog Op Ans Unit
  final : Prog Op Ans Unit

variable {Op : Type} {Ans : Op → Type} (S : System Op Ans) (ι : Type)

structure Config where
  shared : S.Shared
  threads : ι → Prog Op Ans Unit
  started : ℕ
  closed : Bool

inductive Event where
  | call (t : ι) (c : S.Call)
  | act (t : ι) (x : S.Choice)
  | close (t : ι)

variable {S ι}

def Config.init (shared : S.Shared) : Config S ι := ⟨shared, fun _ => .done (), 0, false⟩

namespace Config
variable [DecidableEq ι] [Fintype ι]

def atRest (s : Config S ι) : Prop := ∀ t, (s.threads t).isDone = true

instance (s : Config S ι) : Decidable s.atRest := inferInstanceAs (Decidable (∀ _, _))

/-- A call is made while the thread runs nothing, until the end. -/
def call (s : Config S ι) (t : ι) (c : S.Call) : Config S ι :=
  if (s.threads t).isDone ∧ ¬ s.closed then
    { s with threads := Function.update s.threads t (S.body c), started := s.started + 1 }
  else s

def act (s : Config S ι) (t : ι) (x : S.Choice) : Config S ι :=
  match s.threads t with
  | .done _ => s
  | .op o k =>
    { s with
      shared := (S.exec o x s.shared).2
      threads := Function.update s.threads t (k (S.exec o x s.shared).1) }

def close (s : Config S ι) (t : ι) : Config S ι :=
  if s.atRest ∧ ¬ s.closed then
    { s with threads := Function.update s.threads t S.final, closed := true }
  else s

/-- Events that are not due change nothing. -/
def step (s : Config S ι) : Event S ι → Config S ι
  | .call t c => s.call t c
  | .act t x => s.act t x
  | .close t => s.close t

def run (s : Config S ι) (events : List (Event S ι)) : Config S ι := events.foldl step s

end Config

/-- What a permission allows, what an operation makes of it, and what the permissions of all
threads together say of the shared state, before and after closing, and of the number of calls. -/
structure Discipline (S : System Op Ans) (ι : Type) [DecidableEq ι] where
  Perm : Type
  Pre : Perm → Op → Prop
  Post : Perm → (o : Op) → Ans o → Perm → Prop
  Rest : Perm → Prop
  Inv : Bool → ℕ → S.Shared → (ι → Perm) → Prop
  act : ∀ {closed started shared perms t o} (x : S.Choice), Inv closed started shared perms →
    Pre (perms t) o → ∃ p, Post (perms t) o (S.exec o x shared).1 p ∧
      Inv closed started (S.exec o x shared).2 (Function.update perms t p)

namespace Discipline
variable [DecidableEq ι] (D : Discipline S ι) {α β : Type}

/-- From permission `p` on, the program asks for no more than it is allowed, and `Q` holds of its
result and of the permission that it ends with. -/
def wp : Prog Op Ans α → (α → D.Perm → Prop) → D.Perm → Prop
  | .done a, Q, p => Q a p
  | .op o k, Q, p => D.Pre p o ∧ ∀ a p', D.Post p o a p' → wp (k a) Q p'

variable {D}

theorem wp_bind {m : Prog Op Ans α} {f : α → Prog Op Ans β} {Q : β → D.Perm → Prop} {p : D.Perm}
    (h : D.wp m (fun a => D.wp (f a) Q) p) : D.wp (m >>= f) Q p := by
  induction m generalizing p with
  | done a => exact h
  | op o k ih => exact ⟨h.1, fun a p' hpost => ih a (h.2 a p' hpost)⟩

theorem wp_mono {m : Prog Op Ans α} {Q Q' : α → D.Perm → Prop} {p : D.Perm} (h : D.wp m Q p)
    (hQ : ∀ a p', Q a p' → Q' a p') : D.wp m Q' p := by
  induction m generalizing p with
  | done a => exact hQ a p h
  | op o k ih => exact ⟨h.1, fun a p' hpost => ih a (h.2 a p' hpost)⟩

/-- A result that a rule for the program gives is enough for what follows it. -/
theorem wp_bind_of {m : Prog Op Ans α} {f : α → Prog Op Ans β} {Q : α → D.Perm → Prop}
    {R : β → D.Perm → Prop} {p : D.Perm} (h : D.wp m Q p)
    (hf : ∀ a p', Q a p' → D.wp (f a) R p') : D.wp (m >>= f) R p :=
  wp_bind (wp_mono h hf)

variable (D)

/-- Every thread keeps to its permission. -/
def Kept (s : Config S ι) : Prop := ∃ perms, D.Inv s.closed s.started s.shared perms ∧
  ∀ t, D.wp (s.threads t) (fun _ => D.Rest) (perms t)

variable {D}

theorem rest_of_done {m : Prog Op Ans Unit} {p : D.Perm} (hdone : m.isDone = true)
    (h : D.wp m (fun _ => D.Rest) p) : D.Rest p := by
  cases m with
  | done a => exact h
  | op o k => cases hdone

/-- Where all threads have come to an end, they are all at rest. -/
theorem Kept.exists_rest {s : Config S ι} (h : D.Kept s) (hrest : s.atRest) :
    ∃ perms, D.Inv s.closed s.started s.shared perms ∧ ∀ t, D.Rest (perms t) := by
  obtain ⟨perms, hinv, hthreads⟩ := h
  exact ⟨perms, hinv, fun t => rest_of_done (hrest t) (hthreads t)⟩

variable [Fintype ι]

/-- A call and the closing program keep to the permission that a thread at rest gets for them. -/
structure Admits (D : Discipline S ι) : Prop where
  call : ∀ {started shared perms t}, D.Inv false started shared perms → D.Rest (perms t) → ∀ c,
    ∃ p, D.Inv false (started + 1) shared (Function.update perms t p) ∧
      D.wp (S.body c) (fun _ => D.Rest) p
  close : ∀ {started shared perms}, D.Inv false started shared perms → (∀ t, D.Rest (perms t)) →
    ∀ t, ∃ perms', D.Inv true started shared perms' ∧ (∀ t', t' ≠ t → D.Rest (perms' t')) ∧
      D.wp S.final (fun _ => D.Rest) (perms' t)

theorem Kept.step {s : Config S ι} (h : D.Kept s) (hadmits : D.Admits) (e : Event S ι) :
    D.Kept (s.step e) := by
  obtain ⟨perms, hinv, hthreads⟩ := h
  cases e with
  | call t c =>
    show D.Kept (s.call t c)
    unfold Config.call
    split
    · rename_i hdue
      obtain ⟨hdone, hopen⟩ := hdue
      have hclosed : s.closed = false := Bool.eq_false_iff.mpr hopen
      rw [hclosed] at hinv
      obtain ⟨p, hinv', hbody⟩ := hadmits.call hinv (rest_of_done hdone (hthreads t)) c
      refine ⟨Function.update perms t p, ?_, fun t' => ?_⟩
      · simp only [hclosed]
        exact hinv'
      · by_cases ht : t' = t
        · subst ht
          simp only [Function.update_self]
          exact hbody
        · simp only [Function.update_of_ne ht]
          exact hthreads t'
    · exact ⟨perms, hinv, hthreads⟩
  | act t x =>
    show D.Kept (s.act t x)
    unfold Config.act
    split
    · exact ⟨perms, hinv, hthreads⟩
    · rename_i o k heq
      have hwp := hthreads t
      rw [heq] at hwp
      obtain ⟨p, hpost, hinv'⟩ := D.act x hinv hwp.1
      refine ⟨Function.update perms t p, hinv', fun t' => ?_⟩
      by_cases ht : t' = t
      · subst ht
        simp only [Function.update_self]
        exact hwp.2 _ p hpost
      · simp only [Function.update_of_ne ht]
        exact hthreads t'
  | close t =>
    show D.Kept (s.close t)
    unfold Config.close
    split
    · rename_i hdue
      obtain ⟨hrest, hopen⟩ := hdue
      have hclosed : s.closed = false := Bool.eq_false_iff.mpr hopen
      rw [hclosed] at hinv
      obtain ⟨perms', hinv', hothers, hfinal⟩ :=
        hadmits.close hinv (fun t' => rest_of_done (hrest t') (hthreads t')) t
      refine ⟨perms', hinv', fun t' => ?_⟩
      by_cases ht : t' = t
      · subst ht
        simp only [Function.update_self]
        exact hfinal
      · simp only [Function.update_of_ne ht]
        have hdone := hrest t'
        cases hthread : s.threads t' with
        | done => exact hothers t' ht
        | op =>
          rw [hthread] at hdone
          cases hdone
    · exact ⟨perms, hinv, hthreads⟩

/-- Whatever the order of events, every thread keeps to its permission. -/
theorem Kept.run {s : Config S ι} (h : D.Kept s) (hadmits : D.Admits) (events : List (Event S ι)) :
    D.Kept (s.run events) := by
  induction events generalizing s with
  | nil => exact h
  | cons e events ih => exact ih (h.step hadmits e)

end Discipline

end Nemclass.Interleaving
