import Nemclass.Lib.BoundedFifo
import Nemclass.Lib.Trace
import Nemclass.Kernel.Breakpoints

/-! The event ring of an open file. Handlers put hits into it from interrupts; any number of threads
wait for them, each in steps of its own. What `wait_event_interruptible` and its kind document is
taken for granted: they come back once they see an event, on a signal, or when the time is up. -/
namespace Nemclass.Kernel
open Trace

def eagain : ℤ := 11
def etimedout : ℤ := 110
def erestartsys : ℤ := 512

/-- `NEMCLASS_EVENT_DEPTH` -/
def eventDepth : ℕ := 256

/-- `struct pt_regs`, as far as it is captured. -/
structure PtRegs where
  ip : UInt64
  sp : UInt64
  flags : UInt64
  ax : UInt64
  bx : UInt64
  cx : UInt64
  dx : UInt64
  si : UInt64
  di : UInt64
  bp : UInt64
  r8 : UInt64
  r9 : UInt64
  r10 : UInt64
  r11 : UInt64
  r12 : UInt64
  r13 : UInt64
  r14 : UInt64
  r15 : UInt64
deriving DecidableEq, Repr

/-- `struct nemclass_event` -/
structure NemclassEvent where
  slot : BitVec 32
  pid : ℤ
  tid : ℤ
  kind : UInt32
  addr : UInt64
  regs : PtRegs
deriving DecidableEq, Repr

/-- The event of `nemclass_emit_event`. -/
def Slot.event (slot : Slot) (tid : ℤ) (regs : PtRegs) : NemclassEvent :=
  ⟨slot.id, slot.pid, tid, slot.kind, slot.addr, regs⟩

/-- Where a thread is in `nemclass_wait_event`. -/
inductive Waiter where
  | away
  | checks (timeoutMs : ℤ)
  | sleeps (timed : Bool)
  | takes
  | copies (ev : NemclassEvent)
deriving DecidableEq

structure EventRing (ι : Type) where
  events : BoundedFifo NemclassEvent eventDepth
  waiters : ι → Waiter

namespace EventRing
variable {ι : Type}

/-- What happens at the ring: a hit, or the next step of a thread. A copy to or from the user can
fail, a signal can come, and a time can be up. -/
inductive Input (ι : Type) where
  | hit (ev : NemclassEvent)
  | call (t : ι) (copyIn : Bool) (timeoutMs : ℤ)
  | check (t : ι)
  | wake (t : ι)
  | signal (t : ι)
  | expire (t : ι)
  | take (t : ι)
  | copyOut (t : ι) (copied : Bool)

/-- A hit, or a new call. -/
def Input.begins : Input ι → Bool
  | hit _ => true
  | call .. => true
  | _ => false

inductive Note (ι : Type) where
  | kept (ev : NemclassEvent)
  | dropped (ev : NemclassEvent)
  | took (t : ι) (ev : NemclassEvent)
  | delivered (t : ι) (ev : NemclassEvent)
  | lost (t : ι) (ev : NemclassEvent)
  | returned (t : ι) (ret : ℤ)

def opened : EventRing ι := ⟨.empty, fun _ => .away⟩

variable [DecidableEq ι] (s : EventRing ι)

def goTo (t : ι) (w : Waiter) : EventRing ι :=
  { s with waiters := Function.update s.waiters t w }

@[simp] theorem events_goTo (t : ι) (w : Waiter) : (s.goTo t w).events = s.events := rfl

@[simp] theorem goTo_self (t : ι) (w : Waiter) : (s.goTo t w).waiters t = w := by
  simp only [goTo, Function.update_self]

theorem goTo_of_ne {t t' : ι} (h : t' ≠ t) (w : Waiter) :
    (s.goTo t w).waiters t' = s.waiters t' := by
  simp only [goTo, Function.update_of_ne h]

def ret (t : ι) (code : ℤ) : List (Note ι) × EventRing ι := ([.returned t code], s.goTo t .away)

/-- `kfifo_in_spinlocked`; an event is dropped silently if the ring is full. -/
def emit (ev : NemclassEvent) : List (Note ι) × EventRing ι :=
  match s.events.put ev with
  | some events => ([.kept ev], { s with events })
  | none => ([.dropped ev], s)

def isEmpty : Bool := s.events.items.isEmpty

/-- The next step of a thread, if it is the one that is due. -/
def step : Input ι → List (Note ι) × EventRing ι
  | .hit ev => s.emit ev
  | .call t copyIn timeoutMs =>
    match s.waiters t with
    | .away => if copyIn then ([], s.goTo t (.checks timeoutMs)) else s.ret t (-efault)
    | _ => ([], s)
  | .check t =>
    match s.waiters t with
    | .checks timeoutMs =>
      if !s.isEmpty then ([], s.goTo t .takes)
      else if timeoutMs = 0 then s.ret t (-eagain)
      else ([], s.goTo t (.sleeps (0 < timeoutMs)))
    | _ => ([], s)
  | .wake t =>
    match s.waiters t with
    | .sleeps _ => if !s.isEmpty then ([], s.goTo t .takes) else ([], s)
    | _ => ([], s)
  | .signal t =>
    match s.waiters t with
    | .sleeps _ => if !s.isEmpty then ([], s.goTo t .takes) else s.ret t (-erestartsys)
    | _ => ([], s)
  | .expire t =>
    match s.waiters t with
    | .sleeps true => if !s.isEmpty then ([], s.goTo t .takes) else s.ret t (-etimedout)
    | _ => ([], s)
  | .take t =>
    match s.waiters t with
    | .takes =>
      match s.events.take with
      | some (ev, events) => ([.took t ev], { s with events }.goTo t (.copies ev))
      -- drained by a concurrent waiter
      | none => s.ret t (-eagain)
    | _ => ([], s)
  | .copyOut t copied =>
    match s.waiters t with
    | .copies ev =>
      if copied then ([.delivered t ev, .returned t 0], s.goTo t .away)
      else ([.lost t ev, .returned t (-efault)], s.goTo t .away)
    | _ => ([], s)

/-- What a thread has taken out of the ring and not yet handed on. -/
def hand : Waiter → List NemclassEvent
  | .copies ev => [ev]
  | _ => []

namespace Note

def keeps : Note ι → List NemclassEvent
  | kept ev => [ev]
  | _ => []

def takes : Note ι → List NemclassEvent
  | took _ ev => [ev]
  | _ => []

def takesOf (t : ι) : Note ι → List NemclassEvent
  | took t' ev => if t' = t then [ev] else []
  | _ => []

/-- The events that reached the thread's caller, or were lost on the way. -/
def endsOf (t : ι) : Note ι → List NemclassEvent
  | delivered t' ev => if t' = t then [ev] else []
  | lost t' ev => if t' = t then [ev] else []
  | _ => []

end Note

/-- No event is lost or doubled between the handler and the copy to the user. -/
structure Conserved (log : List (Note ι)) (s : EventRing ι) : Prop where
  ring : log.flatMap Note.keeps = log.flatMap Note.takes ++ s.events.items
  hands : ∀ t, log.flatMap (Note.takesOf t) = log.flatMap (Note.endsOf t) ++ hand (s.waiters t)

namespace Conserved
variable {s} {log : List (Note ι)}

/-- A thread goes on that neither holds an event nor takes one. -/
theorem goTo (h : Conserved log s) {t : ι} {w : Waiter} (hs : hand (s.waiters t) = [])
    (hw : hand w = []) : Conserved log (s.goTo t w) where
  ring := h.ring
  hands t' := by
    rw [h.hands t']
    by_cases ht : t' = t
    · rw [ht, goTo_self, hs, hw]
    · rw [goTo_of_ne s ht]

theorem ret (h : Conserved log s) {t : ι} (hs : hand (s.waiters t) = []) (code : ℤ) :
    Conserved (log ++ (s.ret t code).1) (s.ret t code).2 := by
  have hgo := h.goTo hs (w := .away) rfl
  exact ⟨by simpa [EventRing.ret, Note.keeps, Note.takes] using hgo.ring,
    fun t' => by simpa [EventRing.ret, Note.takesOf, Note.endsOf] using hgo.hands t'⟩

theorem emit (h : Conserved log s) (ev : NemclassEvent) :
    Conserved (log ++ (s.emit ev).1) (s.emit ev).2 := by
  unfold EventRing.emit
  split
  · rename_i events hput
    exact ⟨by simp [Note.keeps, Note.takes, h.ring, BoundedFifo.items_of_put hput],
      fun t' => by simpa [Note.takesOf, Note.endsOf] using h.hands t'⟩
  · exact ⟨by simpa [Note.keeps, Note.takes] using h.ring,
      fun t' => by simpa [Note.takesOf, Note.endsOf] using h.hands t'⟩

theorem take (h : Conserved log s) {t : ι} (hs : s.waiters t = .takes) {ev : NemclassEvent}
    {events : BoundedFifo NemclassEvent eventDepth} (htake : s.events.take = some (ev, events)) :
    Conserved (log ++ [.took t ev]) ({ s with events }.goTo t (.copies ev)) := by
  refine ⟨?_, fun t' => ?_⟩
  · simp [Note.keeps, Note.takes, h.ring, BoundedFifo.items_of_take htake]
  · have hhand := h.hands t'
    by_cases ht : t' = t
    · subst ht
      rw [hs] at hhand
      simpa [Note.takesOf, Note.endsOf, hand] using hhand
    · simpa [Note.takesOf, Note.endsOf, goTo_of_ne _ ht, Ne.symm ht] using hhand

theorem copyOut (h : Conserved log s) {t : ι} {ev : NemclassEvent} (hs : s.waiters t = .copies ev)
    {note : Note ι} (hnote : note = .delivered t ev ∨ note = .lost t ev) (code : ℤ) :
    Conserved (log ++ [note, .returned t code]) (s.goTo t .away) := by
  refine ⟨?_, fun t' => ?_⟩
  · rcases hnote with rfl | rfl <;>
      simpa [Note.keeps, Note.takes] using h.ring
  · have hhand := h.hands t'
    by_cases ht : t' = t
    · subst ht
      rw [hs] at hhand
      rcases hnote with rfl | rfl <;>
        simpa [Note.takesOf, Note.endsOf, hand] using hhand
    · rcases hnote with rfl | rfl <;>
        simpa [Note.takesOf, Note.endsOf, goTo_of_ne s ht, Ne.symm ht] using hhand

theorem step (h : Conserved log s) (i : Input ι) :
    Conserved (log ++ (s.step i).1) (s.step i).2 := by
  have hquiet : Conserved (log ++ []) s := by
    rw [List.append_nil]
    exact h
  have hgo {t : ι} {w : Waiter} (hs : hand (s.waiters t) = []) (hw : hand w = []) :
      Conserved (log ++ []) (s.goTo t w) := by
    rw [List.append_nil]
    exact h.goTo hs hw
  cases i with
  | hit ev => exact h.emit ev
  | call t copyIn timeoutMs =>
    simp only [EventRing.step]
    split
    · rename_i hw
      split
      · exact hgo (by rw [hw]; rfl) rfl
      · exact h.ret (by rw [hw]; rfl) _
    · exact hquiet
  | check t =>
    simp only [EventRing.step]
    split
    · rename_i hw
      split_ifs
      · exact hgo (by rw [hw]; rfl) rfl
      · exact h.ret (by rw [hw]; rfl) _
      · exact hgo (by rw [hw]; rfl) rfl
    · exact hquiet
  | wake t =>
    simp only [EventRing.step]
    split
    · rename_i hw
      split
      · exact hgo (by rw [hw]; rfl) rfl
      · exact hquiet
    · exact hquiet
  | signal t =>
    simp only [EventRing.step]
    split
    · rename_i hw
      split
      · exact hgo (by rw [hw]; rfl) rfl
      · exact h.ret (by rw [hw]; rfl) _
    · exact hquiet
  | expire t =>
    simp only [EventRing.step]
    split
    · rename_i hw
      split
      · exact hgo (by rw [hw]; rfl) rfl
      · exact h.ret (by rw [hw]; rfl) _
    · exact hquiet
  | take t =>
    simp only [EventRing.step]
    split
    · rename_i hw
      split
      · rename_i ev events htake
        exact h.take hw htake
      · exact h.ret (by rw [hw]; rfl) _
    · exact hquiet
  | copyOut t copied =>
    simp only [EventRing.step]
    split
    · rename_i ev hw
      split
      · exact h.copyOut hw (.inl rfl) _
      · exact h.copyOut hw (.inr rfl) _
    · exact hquiet

end Conserved

theorem conserved_run (inputs : List (Input ι)) :
    Conserved ((trace step (opened : EventRing ι) inputs).flatMap Prod.snd)
      (final step (opened : EventRing ι) inputs) :=
  holds_of_step (fun past s => Conserved (past.flatMap Prod.snd) s) ⟨rfl, fun _ => rfl⟩
    (fun past s i h => by
      rw [List.flatMap_append, List.flatMap_singleton]
      exact h.step i)
    inputs

variable {s}

omit [DecidableEq ι] in
theorem isEmpty_iff : s.isEmpty = true ↔ s.events.items = [] := List.isEmpty_iff

theorem dropped_iff (ev : NemclassEvent) :
    .dropped ev ∈ (s.step (.hit ev)).1 ↔ s.events.items.length = eventDepth := by
  rw [← BoundedFifo.put_eq_none_iff (a := ev)]
  simp only [step, emit]
  split <;> simp_all

/-- A call that comes back without an event finds the ring empty, or a copy has failed. -/
theorem empty_of_returned {i : Input ι} {t : ι} {code : ℤ} (h : .returned t code ∈ (s.step i).1)
    (hcode : code = -eagain ∨ code = -etimedout ∨ code = -erestartsys) :
    s.events.items = [] := by
  have hother {code' : ℤ} (hc : code = code') (hne : code' = 0 ∨ code' = -efault) : False := by
    rcases hcode with rfl | rfl | rfl <;> rcases hne with rfl | rfl <;> revert hc <;> decide
  cases i with
  | hit ev =>
    simp only [step, emit] at h
    split at h <;> simp at h
  | call t' copyIn timeoutMs =>
    simp only [step] at h
    split at h
    · split at h
      · cases h
      · simp only [ret, List.mem_singleton, Note.returned.injEq] at h
        exact (hother h.2 (.inr rfl)).elim
    · cases h
  | check t' =>
    simp only [step] at h
    split at h
    · split_ifs at h with hempty
      · cases h
      · exact isEmpty_iff.mp (by simpa using hempty)
      · cases h
    · cases h
  | wake t' =>
    simp only [step] at h
    split at h
    · split at h <;> cases h
    · cases h
  | signal t' =>
    simp only [step] at h
    split at h
    · split at h
      · cases h
      · rename_i hempty
        exact isEmpty_iff.mp (by simpa using hempty)
    · cases h
  | expire t' =>
    simp only [step] at h
    split at h
    · split at h
      · cases h
      · rename_i hempty
        exact isEmpty_iff.mp (by simpa using hempty)
    · cases h
  | take t' =>
    simp only [step] at h
    split at h
    · split at h
      · simp at h
      · rename_i hnone
        exact BoundedFifo.take_eq_none_iff.mp hnone
    · cases h
  | copyOut t' copied =>
    simp only [step] at h
    split at h
    · split at h
      · simp only [List.mem_cons, reduceCtorEq, false_or, Note.returned.injEq, List.not_mem_nil,
          or_false] at h
        exact (hother h.2 (.inl rfl)).elim
      · simp only [List.mem_cons, reduceCtorEq, false_or, Note.returned.injEq, List.not_mem_nil,
          or_false] at h
        exact (hother h.2 (.inr rfl)).elim
    · cases h

/-- An event that has been kept and not been handed on. -/
def Holds (s : EventRing ι) (ev : NemclassEvent) : Prop :=
  ev ∈ s.events.items ∨ ∃ t, ev ∈ hand (s.waiters t)

theorem holds_goTo {t : ι} {w : Waiter} {ev : NemclassEvent} (hw : hand w = [])
    (h : (s.goTo t w).Holds ev) : s.Holds ev := by
  rcases h with h | ⟨t', h⟩
  · exact .inl h
  · by_cases ht : t' = t
    · rw [ht, goTo_self, hw] at h
      cases h
    · rw [goTo_of_ne s ht] at h
      exact .inr ⟨t', h⟩

theorem holds_take {t : ι} {ev ev' : NemclassEvent} {events : BoundedFifo NemclassEvent eventDepth}
    (htake : s.events.take = some (ev, events))
    (h : ({ s with events }.goTo t (.copies ev)).Holds ev') : s.Holds ev' := by
  have hitems := BoundedFifo.items_of_take htake
  rcases h with h | ⟨t', h⟩
  · exact .inl (hitems ▸ List.mem_cons_of_mem _ h)
  · by_cases ht : t' = t
    · rw [ht, goTo_self] at h
      exact .inl (hitems ▸ List.mem_cons.mpr (.inl (List.mem_singleton.mp h)))
    · rw [goTo_of_ne _ ht] at h
      exact .inr ⟨t', h⟩

/-- Only a hit brings a new event. -/
theorem holds_step {i : Input ι} {ev : NemclassEvent} (h : (s.step i).2.Holds ev) :
    s.Holds ev ∨ i = .hit ev := by
  cases i with
  | hit ev' =>
    simp only [step, emit] at h
    split at h
    · rename_i events hput
      rcases h with h | h
      · rw [show _ = s.events.items ++ [ev'] from BoundedFifo.items_of_put hput,
          List.mem_append, List.mem_singleton] at h
        rcases h with h | rfl
        · exact .inl (.inl h)
        · exact .inr rfl
      · exact .inl (.inr h)
    · exact .inl h
  | take t =>
    refine .inl ?_
    simp only [step] at h
    split at h
    · split at h
      · rename_i htake
        exact holds_take htake h
      · exact holds_goTo rfl h
    · exact h
  | _ =>
    refine .inl ?_
    simp only [step] at h
    split at h
    · first
      | exact holds_goTo rfl h
      | split_ifs at h <;> first | exact holds_goTo rfl h | exact h
    · exact h

theorem holds_of_delivered {i : Input ι} {t : ι} {ev : NemclassEvent}
    (h : .delivered t ev ∈ (s.step i).1) : s.Holds ev := by
  cases i with
  | hit ev' =>
    simp only [step, emit] at h
    split at h <;> simp at h
  | take t' =>
    simp only [step] at h
    split at h
    · split at h <;> simp [ret] at h
    · cases h
  | copyOut t' copied =>
    simp only [step] at h
    split at h
    · rename_i hw
      split at h
      · simp only [List.mem_cons, Note.delivered.injEq, reduceCtorEq, List.not_mem_nil,
          or_false] at h
        exact .inr ⟨t', by rw [hw, h.2]; exact List.mem_singleton_self _⟩
      · simp at h
    · cases h
  | _ =>
    simp only [step] at h
    split at h
    · split_ifs at h <;> simp [ret] at h
    · cases h

/-- Whatever the order of hits and of the steps of any number of waiting threads: the ring holds
the hits it kept, in order, behind those taken out of it, and each thread has handed on, or lost to
a failed copy, all it took but the one in its hands; a hit is dropped exactly if the ring is full;
and a call that comes back without an event, for whatever reason but a bad pointer, finds the ring
empty at that moment. -/
theorem ring_conserves (inputs : List (Input ι)) :
    (let log := (trace step (opened : EventRing ι) inputs).flatMap Prod.snd
      let s := final step (opened : EventRing ι) inputs
      log.flatMap Note.keeps = log.flatMap Note.takes ++ s.events.items ∧
      ∀ t, log.flatMap (Note.takesOf t) = log.flatMap (Note.endsOf t) ++ hand (s.waiters t)) ∧
    ∀ earlier i later, inputs = earlier ++ i :: later →
      (∀ ev, i = .hit ev → (.dropped ev ∈ (step (final step opened earlier) i).1 ↔
        (final step opened earlier).events.items.length = eventDepth)) ∧
      ∀ t code, .returned t code ∈ (step (final step opened earlier) i).1 →
        code = -eagain ∨ code = -etimedout ∨ code = -erestartsys →
        (final step opened earlier).events.items = [] := by
  have hrun := conserved_run inputs
  refine ⟨⟨hrun.ring, hrun.hands⟩, fun earlier i later _ => ⟨?_, ?_⟩⟩
  · rintro ev rfl
    exact dropped_iff ev
  · exact fun t code h hcode => empty_of_returned h hcode

end EventRing

end Nemclass.Kernel
