import Mathlib.Data.List.Nodup
import Nemclass.Kernel.Debugger
import Nemclass.Kernel.EventRing

/-! The debugger reads the events of its file: the slot of an event is looked up among the
breakpoints that the debugger lists. The debugger makes one call after the other; hits come at any
time, also while it waits. -/
namespace Nemclass.Kernel
open Trace

/-- `BreakpointKind` -/
inductive BreakpointKind where
  | hardware
  | uprobe
deriving DecidableEq, Repr

def BreakpointKind.fromRaw (raw : UInt32) : Option BreakpointKind :=
  if raw = bpKindHw then some .hardware else if raw = bpKindUprobe then some .uprobe else none

namespace BreakpointSpec

def addr : BreakpointSpec → UInt64
  | hardware addr _ _ => addr
  | uprobe addr => addr

def kind : BreakpointSpec → BreakpointKind
  | hardware .. => .hardware
  | uprobe _ => .uprobe

end BreakpointSpec

/-- The client's view of `nemclass_event`; the registers are one array. -/
structure ClientEvent where
  slot : BitVec 32
  pid : ℤ
  tid : ℤ
  kind : Option BreakpointKind
  addr : UInt64
  ip : UInt64
  sp : UInt64
  flags : UInt64
  gpr : Vector UInt64 15
deriving DecidableEq

/-- `Event::from` -/
def NemclassEvent.toClient (e : NemclassEvent) : ClientEvent where
  slot := e.slot
  pid := e.pid
  tid := e.tid
  kind := BreakpointKind.fromRaw e.kind
  addr := e.addr
  ip := e.regs.ip
  sp := e.regs.sp
  flags := e.regs.flags
  gpr := #v[e.regs.ax, e.regs.bx, e.regs.cx, e.regs.dx, e.regs.si, e.regs.di, e.regs.bp, e.regs.r8,
    e.regs.r9, e.regs.r10, e.regs.r11, e.regs.r12, e.regs.r13, e.regs.r14, e.regs.r15]

structure Registers where
  rip : UInt64
  rsp : UInt64
  rflags : UInt64
  rax : UInt64
  rbx : UInt64
  rcx : UInt64
  rdx : UInt64
  rsi : UInt64
  rdi : UInt64
  rbp : UInt64
  r8 : UInt64
  r9 : UInt64
  r10 : UInt64
  r11 : UInt64
  r12 : UInt64
  r13 : UInt64
  r14 : UInt64
  r15 : UInt64
deriving DecidableEq, Repr

def Registers.fromEvent (e : ClientEvent) : Registers :=
  let g := e.gpr
  ⟨e.ip, e.sp, e.flags, g[0], g[1], g[2], g[3], g[4], g[5], g[6], g[7], g[8], g[9], g[10], g[11],
    g[12], g[13], g[14]⟩

structure DebugEvent where
  breakpoint : BitVec 32
  spec : Option BreakpointSpec
  pid : ℤ
  tid : ℤ
  kind : Option BreakpointKind
  address : UInt64
  registers : Registers
deriving DecidableEq

def breakpointSpec (breakpoints : List Breakpoint) (id : BitVec 32) : Option BreakpointSpec :=
  (breakpoints.find? (·.id == id)).map Breakpoint.spec

def decodeEvent (breakpoints : List Breakpoint) (ev : ClientEvent) : DebugEvent where
  breakpoint := ev.slot
  spec := breakpointSpec breakpoints ev.slot
  pid := ev.pid
  tid := ev.tid
  kind := ev.kind
  address := ev.addr
  registers := .fromEvent ev

/-- The milliseconds that are asked of the module. -/
def timeoutMs : Option ℕ → ℤ
  | none => -1
  | some ms => if 0x7FFFFFFF < ms then 0x7FFFFFFF else ms

/-- `KernelClient::wait_event` takes an empty poll and a timeout for no event. -/
def waitResult (code : ℤ) : Except DebugError Unit :=
  if -code = etimedout ∨ -code = eagain then .ok () else .error (.errno (-code))

/-- The debugger, its open file, and the hits on the way between them. -/
structure Debugging where
  world : World
  ring : EventRing Unit

inductive Happening where
  /-- The debugger sets or clears a breakpoint. -/
  | op (o : Op)
  /-- A thread of the target runs into an armed slot. -/
  | hit (slot : Slot) (tid : ℤ) (regs : PtRegs)
  /-- The debugger begins to wait. -/
  | waitEvent (env : Env) (copyIn : Bool) (timeout : Option ℕ)
  /-- The waiting goes on. -/
  | goesOn (i : EventRing.Input Unit)

def Happening.isSet : Happening → Bool
  | op o => o.isSet
  | _ => false

/-- What the debugger's call to wait comes back with. -/
inductive Outcome where
  | event (e : DebugEvent)
  | none
  | error (e : DebugError)
deriving DecidableEq

namespace Debugging

def attached (session : Session) : Debugging := ⟨.attached session, .opened⟩

/-- What the caller of `wait_event` sees of a step of the handler. -/
def outcome (breakpoints : List Breakpoint) : List (EventRing.Note Unit) → List Outcome
  | [] => []
  | .delivered _ ev :: notes =>
    .event (decodeEvent breakpoints ev.toClient) :: outcome breakpoints notes
  | .returned _ code :: notes =>
    if code = 0 then outcome breakpoints notes
    else
      match waitResult code with
      | .ok () => .none :: outcome breakpoints notes
      | .error e => .error e :: outcome breakpoints notes
  | _ :: notes => outcome breakpoints notes

variable (key : List UInt8) (pid : ℤ)

def waits (s : Debugging) : Bool := s.ring.waiters () ≠ .away

def step (s : Debugging) : Happening → List Outcome × Debugging
  | .op o =>
    if s.waits then ([], s) else ([], { s with world := (Kernel.step key pid s.world o).2 })
  | .hit slot tid regs =>
    if slot ∈ s.world.table.slots then
      ([], { s with ring := (s.ring.step (.hit (slot.event tid regs))).2 })
    else ([], s)
  | .waitEvent env copyIn timeout =>
    if s.waits then ([], s)
    else
      match (ioctl key s.world.session ⟨env.policy, env.caller, .privileged .waitEvent⟩).1 with
      | .returned ret => ([.error (.errno (-ret))], s)
      | .handled _ =>
        let (notes, ring) := s.ring.step (.call () copyIn (timeoutMs timeout))
        (outcome s.world.breakpoints notes, { s with ring })
  | .goesOn i =>
    if i.begins then ([], s)
    else
      let (notes, ring) := s.ring.step i
      (outcome s.world.breakpoints notes, { s with ring })

/-- After these happenings a call has armed the slot that got the id. -/
def Armed (session : Session) (inputs : List Happening) (id : BitVec 32) (spec : BreakpointSpec) :
    Prop :=
  ∃ earlier env ctx later, inputs = earlier ++ .op (.set spec env ctx) :: later ∧
    Arms pid (final (step key pid) (attached session) earlier).world spec env ctx ∧
    (final (step key pid) (attached session) earlier).world.table.nextSlot = id

/-- The breakpoints asked for. -/
def setsAmong (inputs : List Happening) : ℕ := inputs.countP Happening.isSet

/-- A slot that was armed, the number that its id wraps, and what it was armed for. -/
structure Arming where
  number : ℕ
  slot : Slot
  spec : BreakpointSpec

/-- What is listed, what is armed and what is on its way all come from the slots armed so far. -/
structure Attributed (session : Session) (inputs : List Happening) (s : Debugging) (n : ℕ)
    (armings : List Arming) : Prop where
  state : final (step key pid) (attached session) inputs = s
  few : n ≤ setsAmong inputs
  next : s.world.table.nextSlot = BitVec.ofNat 32 n
  ascending : armings.Pairwise (·.number < ·.number)
  below : ∀ a ∈ armings, a.number < n
  numbered : ∀ a ∈ armings, a.slot.id = BitVec.ofNat 32 a.number
  armed : ∀ a ∈ armings, Armed key pid session inputs a.slot.id a.spec
  fits : ∀ a ∈ armings, a.slot.pid = pid ∧ a.slot.addr = a.spec.addr ∧
    BreakpointKind.fromRaw a.slot.kind = some a.spec.kind
  slots : ∀ slot ∈ s.world.table.slots, ∃ a ∈ armings, a.slot = slot
  listed : ∀ b ∈ s.world.breakpoints, ∃ a ∈ armings, b = ⟨a.slot.id, a.spec⟩
  held : ∀ ev, s.ring.Holds ev → ∃ a ∈ armings, ∃ tid regs, ev = a.slot.event tid regs ∧
    .hit a.slot tid regs ∈ inputs

variable {key pid}

section World
variable {w : World} {spec : BreakpointSpec} {env : Env} {ctx : SetContext}

theorem request_fits {req : BpSet} (h : spec.request pid = .ok req) :
    req.pid = pid ∧ req.addr = spec.addr ∧
      BreakpointKind.fromRaw req.kind = some spec.kind := by
  cases spec with
  | hardware addr len ty =>
    simp only [BreakpointSpec.request] at h
    cases hlen : validateHwLen len with
    | error e => rw [hlen] at h; cases h
    | ok _ =>
      rw [hlen] at h
      cases h
      exact ⟨rfl, rfl, rfl⟩
  | uprobe addr =>
    cases h
    exact ⟨rfl, rfl, rfl⟩

/-- A call to set a breakpoint gets no id, uses one up, or arms the slot that gets it. -/
theorem setBreakpoint_cases (key : List UInt8) (pid : ℤ) (w : World) (spec : BreakpointSpec)
    (env : Env) (ctx : SetContext) :
    let w' := (setBreakpoint key pid spec env ctx w).2
    w' = w ∨ w' = { w with table := { w.table with nextSlot := w.table.nextSlot + 1 } } ∨
      Arms pid w spec env ctx ∧ ∃ slot : Slot, slot.id = w.table.nextSlot ∧ slot.pid = pid ∧
        slot.addr = spec.addr ∧ BreakpointKind.fromRaw slot.kind = some spec.kind ∧
        w'.table = ⟨w.table.slots ++ [slot], w.table.nextSlot + 1⟩ ∧
        (w'.breakpoints = w.breakpoints ∨ w'.breakpoints = w.breakpoints ++ [⟨slot.id, spec⟩]) := by
  intro w'
  simp only [w', setBreakpoint]
  cases hreq : spec.request pid with
  | error e => exact .inl rfl
  | ok req =>
    obtain ⟨hpid, haddr, hkind⟩ := request_fits hreq
    simp only [ioctlBpSet]
    by_cases hadmitted : Admitted w.session env
    · rw [ioctl_admitted hadmitted]
      dsimp only
      cases hreaches : ctx.reaches with
      | false =>
        obtain ⟨errno, hset⟩ := bpSet_unreached req w.table hreaches
        rw [hset]
        exact .inl rfl
      | true =>
        rw [bpSet_reached hreaches]
        split_ifs with harm hout
        · exact .inr (.inl rfl)
        all_goals
          refine .inr (.inr ⟨⟨hadmitted, hreaches, req, hreq, not_not.mp harm⟩,
            ⟨w.table.nextSlot, req.kind, req.pid, req.addr⟩, rfl, hpid, haddr, hkind, rfl, ?_⟩)
        · exact .inr rfl
        · exact .inl rfl
    · rw [ioctl_not_admitted hadmitted]
      exact .inl rfl

/-- To clear a breakpoint only takes away. -/
theorem clearBreakpoint_subset (key : List UInt8) (w : World) (id : BitVec 32) (env : Env)
    (copyIn : Bool) :
    let w' := (clearBreakpoint key id env copyIn w).2
    w'.table.slots ⊆ w.table.slots ∧ w'.breakpoints ⊆ w.breakpoints := by
  intro w'
  by_cases hid : id ∈ w.listed
  · rw [show w' = _ from clearBreakpoint_listed hid]
    refine ⟨?_, List.eraseP_subset⟩
    simp only [ioctlBpClear, bpClear]
    split
    · exact List.Subset.refl _
    · split_ifs
      · exact List.Subset.refl _
      · exact List.eraseP_subset
      · exact List.Subset.refl _
  · rw [show w' = w from clearBreakpoint_unlisted hid]
    exact ⟨List.Subset.refl _, List.Subset.refl _⟩

end World

namespace Attributed
variable {session : Session} {inputs : List Happening} {s : Debugging} {n : ℕ}
  {armings : List Arming}

theorem armed_append {id : BitVec 32} {spec : BreakpointSpec}
    (h : Armed key pid session inputs id spec) (i : Happening) :
    Armed key pid session (inputs ++ [i]) id spec := by
  obtain ⟨earlier, env, ctx, later, rfl, harms, hid⟩ := h
  exact ⟨earlier, env, ctx, later ++ [i], by simp, harms, hid⟩

theorem setsAmong_append (i : Happening) : setsAmong inputs ≤ setsAmong (inputs ++ [i]) := by
  rw [setsAmong, setsAmong, List.countP_append]
  exact Nat.le_add_right _ _

theorem setsAmong_set (spec : BreakpointSpec) (env : Env) (ctx : SetContext) :
    setsAmong (inputs ++ [.op (.set spec env ctx)]) = setsAmong inputs + 1 := by
  rw [setsAmong, setsAmong, List.countP_append]
  rfl

theorem state_append (h : Attributed key pid session inputs s n armings) (i : Happening) :
    final (step key pid) (attached session) (inputs ++ [i]) = (s.step key pid i).2 := by
  rw [final_concat, h.state]

/-- A step that arms nothing. -/
theorem less (h : Attributed key pid session inputs s n armings) {i : Happening}
    (hnext : (s.step key pid i).2.world.table.nextSlot = s.world.table.nextSlot)
    (hslots : (s.step key pid i).2.world.table.slots ⊆ s.world.table.slots)
    (hlisted : (s.step key pid i).2.world.breakpoints ⊆ s.world.breakpoints)
    (hheld : ∀ ev, (s.step key pid i).2.ring.Holds ev → s.ring.Holds ev ∨
      ∃ slot ∈ s.world.table.slots, ∃ tid regs, ev = slot.event tid regs ∧ i = .hit slot tid regs) :
    Attributed key pid session (inputs ++ [i]) (s.step key pid i).2 n armings where
  state := h.state_append i
  few := h.few.trans (setsAmong_append i)
  next := hnext.trans h.next
  ascending := h.ascending
  below := h.below
  numbered := h.numbered
  armed a ha := armed_append (h.armed a ha) i
  fits := h.fits
  slots slot hslot := h.slots slot (hslots hslot)
  listed b hb := h.listed b (hlisted hb)
  held ev hev := by
    rcases hheld ev hev with hev | ⟨slot, hslot, tid, regs, rfl, rfl⟩
    · obtain ⟨a, ha, tid, regs, heq, hmem⟩ := h.held ev hev
      exact ⟨a, ha, tid, regs, heq, List.mem_append_left _ hmem⟩
    · obtain ⟨a, ha, rfl⟩ := h.slots slot hslot
      exact ⟨a, ha, tid, regs, rfl, List.mem_append_right _ (List.mem_singleton_self _)⟩

/-- A step that uses up an id and arms nothing. -/
theorem unarmed (h : Attributed key pid session inputs s n armings) {spec : BreakpointSpec}
    {env : Env} {ctx : SetContext}
    (hstep : (s.step key pid (.op (.set spec env ctx))).2 = { s with world := { s.world with
      table := { s.world.table with nextSlot := s.world.table.nextSlot + 1 } } }) :
    Attributed key pid session (inputs ++ [.op (.set spec env ctx)])
      (s.step key pid (.op (.set spec env ctx))).2 (n + 1) armings where
  state := h.state_append _
  few := by
    rw [setsAmong_set]
    exact Nat.succ_le_succ h.few
  next := by
    rw [hstep, BitVec.ofNat_add]
    exact congrArg (· + 1) h.next
  ascending := h.ascending
  below a ha := (h.below a ha).trans (Nat.lt_succ_self n)
  numbered := h.numbered
  armed a ha := armed_append (h.armed a ha) _
  fits := h.fits
  slots := by rw [hstep]; exact h.slots
  listed := by rw [hstep]; exact h.listed
  held ev hev := by
    rw [hstep] at hev
    obtain ⟨a, ha, tid, regs, heq, hmem⟩ := h.held ev hev
    exact ⟨a, ha, tid, regs, heq, List.mem_append_left _ hmem⟩

/-- A step that arms a slot, whether the debugger is told so or not. -/
theorem arms (h : Attributed key pid session inputs s n armings) {spec : BreakpointSpec}
    {env : Env} {ctx : SetContext} (harms : Arms pid s.world spec env ctx) {slot : Slot}
    (hid : slot.id = s.world.table.nextSlot) (hfits : slot.pid = pid ∧ slot.addr = spec.addr ∧
      BreakpointKind.fromRaw slot.kind = some spec.kind)
    (htable : (s.step key pid (.op (.set spec env ctx))).2.world.table =
      ⟨s.world.table.slots ++ [slot], s.world.table.nextSlot + 1⟩)
    (hlisted : (s.step key pid (.op (.set spec env ctx))).2.world.breakpoints =
      s.world.breakpoints ∨ (s.step key pid (.op (.set spec env ctx))).2.world.breakpoints =
      s.world.breakpoints ++ [⟨slot.id, spec⟩])
    (hring : (s.step key pid (.op (.set spec env ctx))).2.ring = s.ring) :
    Attributed key pid session (inputs ++ [.op (.set spec env ctx)])
      (s.step key pid (.op (.set spec env ctx))).2 (n + 1) (armings ++ [⟨n, slot, spec⟩]) where
  state := h.state_append _
  few := by
    rw [setsAmong_set]
    exact Nat.succ_le_succ h.few
  next := by
    rw [htable, BitVec.ofNat_add]
    exact congrArg (· + 1) h.next
  ascending := List.pairwise_append.mpr ⟨h.ascending, List.pairwise_singleton _ _,
    fun a ha b hb => by rw [List.mem_singleton.mp hb]; exact h.below a ha⟩
  below a ha := by
    rcases List.mem_append.mp ha with ha | ha
    · exact (h.below a ha).trans (Nat.lt_succ_self n)
    · rw [List.mem_singleton.mp ha]
      exact Nat.lt_succ_self n
  numbered a ha := by
    rcases List.mem_append.mp ha with ha | ha
    · exact h.numbered a ha
    · rw [List.mem_singleton.mp ha]
      exact hid.trans h.next
  armed a ha := by
    rcases List.mem_append.mp ha with ha | ha
    · exact armed_append (h.armed a ha) _
    · rw [List.mem_singleton.mp ha]
      exact ⟨inputs, env, ctx, [], rfl, by rw [h.state]; exact harms,
        by rw [h.state]; exact hid.symm⟩
  fits a ha := by
    rcases List.mem_append.mp ha with ha | ha
    · exact h.fits a ha
    · rw [List.mem_singleton.mp ha]
      exact hfits
  slots slot' hslot' := by
    rw [htable] at hslot'
    rcases List.mem_append.mp hslot' with hslot' | hslot'
    · obtain ⟨a, ha, heq⟩ := h.slots slot' hslot'
      exact ⟨a, List.mem_append_left _ ha, heq⟩
    · exact ⟨_, List.mem_append_right _ (List.mem_singleton_self _),
        (List.mem_singleton.mp hslot').symm⟩
  listed b hb := by
    have hold (hb : b ∈ s.world.breakpoints) :
        ∃ a ∈ armings ++ [⟨n, slot, spec⟩], b = ⟨a.slot.id, a.spec⟩ := by
      obtain ⟨a, ha, heq⟩ := h.listed b hb
      exact ⟨a, List.mem_append_left _ ha, heq⟩
    rcases hlisted with hlisted | hlisted
    · exact hold (hlisted ▸ hb)
    · rw [hlisted] at hb
      rcases List.mem_append.mp hb with hb | hb
      · exact hold hb
      · exact ⟨_, List.mem_append_right _ (List.mem_singleton_self _), List.mem_singleton.mp hb⟩
  held ev hev := by
    rw [hring] at hev
    obtain ⟨a, ha, tid, regs, heq, hmem⟩ := h.held ev hev
    exact ⟨a, List.mem_append_left _ ha, tid, regs, heq, List.mem_append_left _ hmem⟩

theorem op (h : Attributed key pid session inputs s n armings) (o : Op) :
    ∃ n armings, Attributed key pid session (inputs ++ [.op o]) (s.step key pid (.op o)).2 n
      armings := by
  by_cases hwaits : s.waits = true
  · refine ⟨n, armings, h.less ?_ ?_ ?_ ?_⟩
    all_goals simp only [Debugging.step, if_pos hwaits]
    · exact List.Subset.refl _
    · exact List.Subset.refl _
    · exact fun ev hev => .inl hev
  · cases o with
    | set spec env ctx =>
      have hstep : (s.step key pid (.op (.set spec env ctx))).2 =
          { s with world := (setBreakpoint key pid spec env ctx s.world).2 } := by
        simp only [Debugging.step, if_neg hwaits, Kernel.step]
      rcases setBreakpoint_cases key pid s.world spec env ctx with hsame | hused |
        ⟨harms, slot, hid, hpid, haddr, hkind, htable, hlisted⟩
      · refine ⟨n, armings, h.less ?_ ?_ ?_ ?_⟩
        all_goals rw [hstep, hsame]
        · exact List.Subset.refl _
        · exact List.Subset.refl _
        · exact fun ev hev => .inl hev
      · exact ⟨_, _, h.unarmed (by rw [hstep, hused])⟩
      · exact ⟨_, _, h.arms harms hid ⟨hpid, haddr, hkind⟩ (by rw [hstep, htable])
          (by rw [hstep]; exact hlisted) (by rw [hstep])⟩
    | clear id env copyIn =>
      have hstep : (s.step key pid (.op (.clear id env copyIn))).2 =
          { s with world := (clearBreakpoint key id env copyIn s.world).2 } := by
        simp only [Debugging.step, if_neg hwaits, Kernel.step]
      obtain ⟨hslots, hlisted⟩ := clearBreakpoint_subset key s.world id env copyIn
      refine ⟨n, armings, h.less ?_ ?_ ?_ ?_⟩
      all_goals rw [hstep]
      · exact nextSlot_clearBreakpoint id env copyIn s.world
      · exact hslots
      · exact hlisted
      · exact fun ev hev => .inl hev

/-- A step at the ring leaves the breakpoints alone. -/
theorem ring (h : Attributed key pid session inputs s n armings) {i : Happening}
    {j : EventRing.Input Unit}
    (hstep : (s.step key pid i).2 = s ∨ (s.step key pid i).2 = { s with ring := (s.ring.step j).2 })
    (hhit : ∀ ev, j = .hit ev → ∃ slot ∈ s.world.table.slots, ∃ tid regs,
      ev = slot.event tid regs ∧ i = .hit slot tid regs) :
    Attributed key pid session (inputs ++ [i]) (s.step key pid i).2 n armings := by
  refine h.less ?_ ?_ ?_ ?_
  · rcases hstep with hstep | hstep <;> rw [hstep]
  · rcases hstep with hstep | hstep <;> rw [hstep] <;> exact List.Subset.refl _
  · rcases hstep with hstep | hstep <;> rw [hstep] <;> exact List.Subset.refl _
  · intro ev hev
    rcases hstep with hstep | hstep
    · rw [hstep] at hev
      exact .inl hev
    · rw [hstep] at hev
      exact (EventRing.holds_step hev).imp id (hhit ev)

theorem step (h : Attributed key pid session inputs s n armings) (i : Happening) :
    ∃ n armings, Attributed key pid session (inputs ++ [i]) (s.step key pid i).2 n armings := by
  cases i with
  | op o => exact h.op o
  | hit slot tid regs =>
    refine ⟨n, armings, ?_⟩
    by_cases hslot : slot ∈ s.world.table.slots
    · refine h.ring (j := .hit (slot.event tid regs)) (.inr ?_) fun ev hev => ?_
      · simp only [Debugging.step, if_pos hslot]
      · cases hev
        exact ⟨slot, hslot, tid, regs, rfl, rfl⟩
    · refine h.ring (j := .wake ()) (.inl ?_) fun ev hev => ?_
      · simp only [Debugging.step, if_neg hslot]
      · cases hev
  | waitEvent env copyIn timeout =>
    refine ⟨n, armings, h.ring (j := .call () copyIn (timeoutMs timeout)) ?_ fun ev hev => ?_⟩
    · simp only [Debugging.step]
      split
      · exact .inl rfl
      · split
        · exact .inl rfl
        · exact .inr rfl
    · cases hev
  | goesOn j =>
    refine ⟨n, armings, ?_⟩
    by_cases hbegins : j.begins = true
    · refine h.ring (j := .wake ()) (.inl ?_) fun ev hev => by cases hev
      simp only [Debugging.step, if_pos hbegins]
    · refine h.ring (j := j) (.inr ?_) fun ev hev => ?_
      · simp only [Debugging.step, if_neg hbegins]
      · rw [hev] at hbegins
        exact absurd rfl hbegins

theorem attached (key : List UInt8) (pid : ℤ) (session : Session) :
    Attributed key pid session [] (Debugging.attached session) 0 [] where
  state := rfl
  few := Nat.zero_le _
  next := rfl
  ascending := List.Pairwise.nil
  below _ ha := by cases ha
  numbered _ ha := by cases ha
  armed _ ha := by cases ha
  fits _ ha := by cases ha
  slots _ hslot := by cases hslot
  listed _ hb := by cases hb
  held _ hev := by
    rcases hev with hev | ⟨_, hev⟩ <;> cases hev

/-- Up to as many sets as there are ids, an id says which slot was armed. -/
theorem eq_of_id (h : Attributed key pid session inputs s n armings)
    (hsets : setsAmong inputs ≤ 2 ^ 32) {a b : Arming} (ha : a ∈ armings) (hb : b ∈ armings)
    (hid : a.slot.id = b.slot.id) : a = b := by
  have hnodup : (armings.map Arming.number).Nodup :=
    List.pairwise_map.mpr (h.ascending.imp Nat.ne_of_lt)
  refine List.inj_on_of_nodup_map hnodup ha hb ?_
  have hnat := congrArg BitVec.toNat hid
  have hfew := h.few.trans hsets
  have ha' := (h.below a ha).trans_le hfew
  have hb' := (h.below b hb).trans_le hfew
  rw [h.numbered a ha, h.numbered b hb, BitVec.toNat_ofNat, BitVec.toNat_ofNat,
    Nat.mod_eq_of_lt ha', Nat.mod_eq_of_lt hb'] at hnat
  exact hnat

end Attributed

theorem mem_outcome {breakpoints : List Breakpoint} {notes : List (EventRing.Note Unit)}
    {e : DebugEvent} (h : .event e ∈ outcome breakpoints notes) :
    ∃ t ev, .delivered t ev ∈ notes ∧ e = decodeEvent breakpoints ev.toClient := by
  induction notes with
  | nil => cases h
  | cons note notes ih =>
    have hlater (h : .event e ∈ outcome breakpoints notes) : ∃ t ev,
        .delivered t ev ∈ note :: notes ∧ e = decodeEvent breakpoints ev.toClient := by
      obtain ⟨t, ev, hmem, he⟩ := ih h
      exact ⟨t, ev, List.mem_cons_of_mem _ hmem, he⟩
    cases note with
    | delivered t ev =>
      rcases List.mem_cons.mp h with h | h
      · exact ⟨t, ev, List.mem_cons_self, Outcome.event.inj h⟩
      · exact hlater h
    | returned t code =>
      simp only [outcome] at h
      split_ifs at h
      · exact hlater h
      · split at h <;> exact hlater (by simpa using h)
    | _ => exact hlater h

/-- An event that the debugger gets was in the hands of its thread. -/
theorem holds_of_event {s : Debugging} {i : Happening} {e : DebugEvent}
    (h : .event e ∈ (s.step key pid i).1) :
    ∃ ev, s.ring.Holds ev ∧ e = decodeEvent s.world.breakpoints ev.toClient := by
  have hring {j : EventRing.Input Unit}
      (h : .event e ∈ outcome s.world.breakpoints (s.ring.step j).1) :
      ∃ ev, s.ring.Holds ev ∧ e = decodeEvent s.world.breakpoints ev.toClient := by
    obtain ⟨t, ev, hmem, he⟩ := mem_outcome h
    exact ⟨ev, EventRing.holds_of_delivered hmem, he⟩
  cases i with
  | op o =>
    simp only [step] at h
    split at h <;> cases h
  | hit slot tid regs =>
    simp only [step] at h
    split at h <;> cases h
  | waitEvent env copyIn timeout =>
    simp only [step] at h
    split at h
    · cases h
    · split at h
      · simp at h
      · exact hring h
  | goesOn j =>
    simp only [step] at h
    split at h
    · cases h
    · exact hring h

/-- The registers by their names. -/
def named (regs : PtRegs) : Registers :=
  ⟨regs.ip, regs.sp, regs.flags, regs.ax, regs.bx, regs.cx, regs.dx, regs.si, regs.di, regs.bp,
    regs.r8, regs.r9, regs.r10, regs.r11, regs.r12, regs.r13, regs.r14, regs.r15⟩

theorem breakpointSpec_eq {breakpoints : List Breakpoint} {id : BitVec 32} {spec : BreakpointSpec}
    (h : ∀ b ∈ breakpoints, b.id = id → b.spec = spec) : breakpointSpec breakpoints id =
      if id ∈ breakpoints.map Breakpoint.id then some spec else none := by
  unfold breakpointSpec
  cases hfind : breakpoints.find? (·.id == id) with
  | none =>
    rw [if_neg, Option.map_none]
    intro hmem
    obtain ⟨b, hb, hid⟩ := List.mem_map.mp hmem
    exact absurd hid (by simpa using List.find?_eq_none.mp hfind b hb)
  | some b =>
    have hb := List.mem_of_find?_eq_some hfind
    have hid : b.id = id := by simpa using List.find?_some hfind
    rw [if_pos (List.mem_map.mpr ⟨b, hb, hid⟩), Option.map_some, h b hb hid]

theorem attributed_run (key : List UInt8) (pid : ℤ) (session : Session)
    (inputs : List Happening) : ∃ n armings, Attributed key pid session inputs
      (final (step key pid) (attached session) inputs) n armings := by
  induction inputs using List.reverseRecOn with
  | nil => exact ⟨0, [], Attributed.attached key pid session⟩
  | append_singleton inputs i ih =>
    obtain ⟨n, armings, h⟩ := ih
    rw [final_concat]
    exact h.step i

/-- In every run of at most `2 ^ 32` sets, whatever the hits: an event that the debugger gets is a
hit of a slot that an earlier call armed, with the registers at the hit; it names the address and
the kind that were asked for then, and the breakpoint of that very call if it is still listed, or
none, but never another one. -/
theorem event_attributed (key : List UInt8) (pid : ℤ) (session : Session)
    (inputs : List Happening) (hsets : setsAmong inputs ≤ 2 ^ 32) :
    ∀ earlier i later, inputs = earlier ++ i :: later →
      ∀ e, .event e ∈ (step key pid (final (step key pid) (attached session) earlier) i).1 →
      ∃ slot tid regs spec, .hit slot tid regs ∈ earlier ∧
        Armed key pid session earlier slot.id spec ∧
        e = ⟨slot.id,
          if slot.id ∈ (final (step key pid) (attached session) earlier).world.listed then some spec
          else none,
          pid, tid, some spec.kind, spec.addr, named regs⟩ := by
  rintro earlier i later rfl e he
  obtain ⟨n, armings, h⟩ := attributed_run key pid session earlier
  obtain ⟨ev, hev, rfl⟩ := holds_of_event he
  obtain ⟨a, ha, tid, regs, rfl, hhit⟩ := h.held ev hev
  have hfew : setsAmong earlier ≤ 2 ^ 32 := by
    refine le_trans ?_ hsets
    rw [setsAmong, setsAmong, List.countP_append]
    exact Nat.le_add_right _ _
  have hspec : ∀ b ∈ (final (step key pid) (attached session) earlier).world.breakpoints,
      b.id = a.slot.id → b.spec = a.spec := by
    intro b hb hid
    obtain ⟨a', ha', rfl⟩ := h.listed b hb
    rw [h.eq_of_id hfew ha' ha hid]
  obtain ⟨hpid, haddr, hkind⟩ := h.fits a ha
  refine ⟨a.slot, tid, regs, a.spec, hhit, h.armed a ha, ?_⟩
  rw [decodeEvent]
  simp only [NemclassEvent.toClient, Slot.event, hpid, haddr, hkind, breakpointSpec_eq hspec]
  rfl

/-- A uprobe is set and hit, and the debugger polls. -/
def polledHit : List Happening :=
  [.op (.set (.uprobe 4096) ⟨none, ⟨true, 0, 0, []⟩⟩ ⟨true, true, true, ⟨true, 0, true, 0⟩, true⟩),
    .hit ⟨0, bpKindUprobe, 1, 4096⟩ 7 ⟨4096, 0, 0, 0, 0, 0, 0, 0, 0, 0, 0, 0, 0, 0, 0, 0, 0, 0⟩,
    .waitEvent ⟨none, ⟨true, 0, 0, []⟩⟩ true (some 0), .goesOn (.check ()), .goesOn (.take ())]

def polledEvent : DebugEvent :=
  ⟨0, some (.uprobe 4096), 1, 7, some .uprobe, 4096,
    ⟨4096, 0, 0, 0, 0, 0, 0, 0, 0, 0, 0, 0, 0, 0, 0, 0, 0, 0⟩⟩

theorem event_attributed_polled : ∃ slot tid regs spec, .hit slot tid regs ∈ polledHit ∧
    Armed [] 1 ⟨true, 0⟩ polledHit slot.id spec ∧
    polledEvent = ⟨slot.id,
      if slot.id ∈ (final (step [] 1) (attached ⟨true, 0⟩) polledHit).world.listed then some spec
      else none,
      1, tid, some spec.kind, spec.addr, named regs⟩ :=
  event_attributed [] 1 ⟨true, 0⟩ (polledHit ++ [.goesOn (.copyOut () true)]) (by decide)
    polledHit (.goesOn (.copyOut () true)) [] rfl polledEvent (List.mem_singleton.mpr rfl)

end Debugging

end Nemclass.Kernel
