import Nemclass.Kernel.Breakpoints

/-! The debugger's list of breakpoints beside the module's list of slots. Every call to the module
can fail, and what the two sides keep of a failed one decides whether they still agree. -/
namespace Nemclass.Kernel
open Trace

inductive HwBreakpointType where
  | execute
  | write
  | readWrite
  | read
deriving DecidableEq, Repr

def HwBreakpointType.toRaw : HwBreakpointType → UInt32
  | .execute => bpX
  | .write => bpW
  | .readWrite => bpRw
  | .read => bpR

inductive BreakpointSpec where
  | hardware (addr : UInt64) (len : UInt32) (ty : HwBreakpointType)
  | uprobe (addr : UInt64)
deriving DecidableEq, Repr

/-- An entry of the debugger's list; the id wraps the module's slot id. -/
structure Breakpoint where
  id : BitVec 32
  spec : BreakpointSpec
deriving DecidableEq, Repr

inductive DebugError where
  | invalidArgument (msg : String)
  | errno (errno : ℤ)
deriving DecidableEq, Repr

def validateHwLen (len : UInt32) : Except DebugError Unit :=
  if len = 1 ∨ len = 2 ∨ len = 4 ∨ len = 8 then .ok ()
  else .error
    (.invalidArgument s!"hardware breakpoint length must be 1, 2, 4, or 8 bytes, got {len}")

/-- The request of `set_hw_breakpoint` or `set_uprobe`. -/
def BreakpointSpec.request (pid : ℤ) : BreakpointSpec → Except DebugError BpSet
  | .hardware addr len ty => (validateHwLen len).map fun _ => ⟨pid, bpKindHw, addr, len, ty.toRaw⟩
  | .uprobe addr => .ok ⟨pid, bpKindUprobe, addr, 0, bpX⟩

/-- A debugger and the open file it owns, on both sides of the call. -/
structure World where
  breakpoints : List Breakpoint
  session : Session
  table : SlotTable

/-- Who makes a call, and the policy in force then. -/
structure Env where
  policy : Option Acl
  caller : Caller

def ioctlBpSet (key : List UInt8) (w : World) (env : Env) (ctx : SetContext) (req : BpSet) :
    Except ℤ (BitVec 32) × SlotTable :=
  match (ioctl key w.session ⟨env.policy, env.caller, .privileged .bpSet⟩).1 with
  | .returned ret => (.error ret, w.table)
  | .handled _ => bpSet ctx req w.table

def ioctlBpClear (key : List UInt8) (w : World) (env : Env) (copyIn : Bool) (id : BitVec 32) :
    ℤ × SlotTable :=
  match (ioctl key w.session ⟨env.policy, env.caller, .privileged .bpClear⟩).1 with
  | .returned ret => (ret, w.table)
  | .handled _ => bpClear copyIn id w.table

/-- `Debugger::set_breakpoint` -/
def setBreakpoint (key : List UInt8) (pid : ℤ) (spec : BreakpointSpec) (env : Env)
    (ctx : SetContext) (w : World) : Except DebugError (BitVec 32) × World :=
  match spec.request pid with
  | .error e => (.error e, w)
  | .ok req =>
    match ioctlBpSet key w env ctx req with
    | (.error ret, table) => (.error (.errno (-ret)), { w with table })
    | (.ok slot, table) =>
      (.ok slot, { w with table, breakpoints := w.breakpoints ++ [⟨slot, spec⟩] })

/-- `Debugger::clear_breakpoint`: the entry is removed before the module is asked. -/
def clearBreakpoint (key : List UInt8) (id : BitVec 32) (env : Env) (copyIn : Bool) (w : World) :
    Except DebugError Unit × World :=
  if w.breakpoints.any (·.id == id) then
    let (ret, table) := ioctlBpClear key w env copyIn id
    (if ret = 0 then .ok () else .error (.errno (-ret)),
      { w with table, breakpoints := w.breakpoints.eraseP (·.id == id) })
  else
    (.error (.invalidArgument s!"no such breakpoint bp#{id.toInt} on this debugger"), w)

inductive Op where
  | set (spec : BreakpointSpec) (env : Env) (ctx : SetContext)
  | clear (id : BitVec 32) (env : Env) (copyIn : Bool)

inductive Answer where
  | set (result : Except DebugError (BitVec 32))
  | clear (result : Except DebugError Unit)

def step (key : List UInt8) (pid : ℤ) (w : World) : Op → Answer × World
  | .set spec env ctx =>
    (.set (setBreakpoint key pid spec env ctx w).1, (setBreakpoint key pid spec env ctx w).2)
  | .clear id env copyIn =>
    (.clear (clearBreakpoint key id env copyIn w).1, (clearBreakpoint key id env copyIn w).2)

/-- A debugger over a file with no slots. -/
def World.attached (session : Session) : World := ⟨[], session, SlotTable.empty⟩

/-- `Debugger::breakpoints`, by their ids. -/
def World.listed (w : World) : List (BitVec 32) := w.breakpoints.map Breakpoint.id

/-- The debugger lists exactly the slots that the module has armed. -/
def Mirrors (w : World) : Prop := w.listed = w.table.ids

variable {key : List UInt8} {pid : ℤ} {w : World} {env : Env}

section Steps

/-- The file is authenticated and the caller is let in. -/
def Admitted (session : Session) (env : Env) : Prop :=
  session.authed = true ∧ accessCheckOpen env.policy env.caller = 0

/-- The call arms a breakpoint in the module. -/
def Arms (pid : ℤ) (w : World) (spec : BreakpointSpec) (env : Env) (ctx : SetContext) : Prop :=
  Admitted w.session env ∧ ctx.reaches = true ∧
    ∃ req, spec.request pid = .ok req ∧ arm ctx.arming req = 0

/-- A step that keeps both sides in agreement: what is armed can be told to the debugger, and what
the debugger has listed is taken away by the module. -/
def Safe (pid : ℤ) (w : World) : Op → Prop
  | .set spec env ctx => Arms pid w spec env ctx → ctx.copyOut = true
  | .clear id env copyIn => id ∈ w.listed → Admitted w.session env ∧ copyIn = true

theorem ioctl_admitted (h : Admitted w.session env) (handler : Handler) :
    (ioctl key w.session ⟨env.policy, env.caller, .privileged handler⟩).1 = .handled handler := by
  simp [ioctl, h.1, h.2]

theorem ioctl_not_admitted (h : ¬ Admitted w.session env) (handler : Handler) :
    (ioctl key w.session ⟨env.policy, env.caller, .privileged handler⟩).1 =
      .returned (-eacces) := by
  simp only [ioctl]
  split_ifs with hauthed haccess
  · rfl
  · rfl
  · exact absurd ⟨by simpa using hauthed, not_not.mp haccess⟩ h

/-- What setting a breakpoint does to both sides. -/
inductive SetEffect (pid : ℤ) (w : World) (spec : BreakpointSpec) (env : Env) (ctx : SetContext) :
    Except DebugError (BitVec 32) × World → Prop where
  | refused (e : DebugError) (h : ¬ Arms pid w spec env ctx) :
    SetEffect pid w spec env ctx (.error e, w)
  | unarmed (e : DebugError) (h : ¬ Arms pid w spec env ctx) :
    SetEffect pid w spec env ctx
      (.error e, { w with table := { w.table with nextSlot := w.table.nextSlot + 1 } })
  | untold (e : DebugError) (slot : Slot) (h : Arms pid w spec env ctx)
    (hout : ctx.copyOut = false) :
    SetEffect pid w spec env ctx
      (.error e, { w with table := ⟨w.table.slots ++ [slot], w.table.nextSlot + 1⟩ })
  | listed (slot : Slot) (h : Arms pid w spec env ctx) (hid : slot.id = w.table.nextSlot)
    (hout : ctx.copyOut = true) :
    SetEffect pid w spec env ctx
      (.ok w.table.nextSlot,
        { w with
          table := ⟨w.table.slots ++ [slot], w.table.nextSlot + 1⟩
          breakpoints := w.breakpoints ++ [⟨w.table.nextSlot, spec⟩] })

theorem setBreakpoint_effect (key : List UInt8) (pid : ℤ) (spec : BreakpointSpec) (env : Env)
    (ctx : SetContext) (w : World) :
    SetEffect pid w spec env ctx (setBreakpoint key pid spec env ctx w) := by
  unfold setBreakpoint
  cases hreq : spec.request pid with
  | error e =>
    refine .refused e fun harms => ?_
    obtain ⟨-, -, req, hok, -⟩ := harms
    rw [hreq] at hok
    cases hok
  | ok req =>
    simp only [ioctlBpSet]
    by_cases hadmitted : Admitted w.session env
    · rw [ioctl_admitted hadmitted]
      dsimp only
      cases hreaches : ctx.reaches with
      | false =>
        obtain ⟨errno, hset⟩ := bpSet_unreached req w.table hreaches
        rw [hset]
        refine .refused _ fun harms => ?_
        rw [harms.2.1] at hreaches
        cases hreaches
      | true =>
        rw [bpSet_reached hreaches]
        split_ifs with harm hout
        · refine .unarmed _ fun harms => ?_
          obtain ⟨-, -, req', hok, hzero⟩ := harms
          rw [hreq] at hok
          cases hok
          exact harm hzero
        · exact .listed _ ⟨hadmitted, hreaches, req, hreq, not_not.mp harm⟩ rfl hout
        · exact .untold _ _ ⟨hadmitted, hreaches, req, hreq, not_not.mp harm⟩ (by simpa using hout)
    · rw [ioctl_not_admitted hadmitted]
      exact .refused _ fun harms => hadmitted harms.1

theorem clearBreakpoint_unlisted {id : BitVec 32} {copyIn : Bool} (h : id ∉ w.listed) :
    (clearBreakpoint key id env copyIn w).2 = w := by
  rw [clearBreakpoint, if_neg fun hany => h (any_eq_true_iff.mp hany)]

theorem clearBreakpoint_listed {id : BitVec 32} {copyIn : Bool} (h : id ∈ w.listed) :
    (clearBreakpoint key id env copyIn w).2 =
      { w with
        table := (ioctlBpClear key w env copyIn id).2
        breakpoints := w.breakpoints.eraseP (·.id == id) } := by
  rw [clearBreakpoint, if_pos (any_eq_true_iff.mpr h)]

theorem ioctlBpClear_safe {id : BitVec 32} (h : id ∈ w.table.ids)
    (hadmitted : Admitted w.session env) : (ioctlBpClear key w env true id).2 =
      { w.table with slots := w.table.slots.eraseP (·.id == id) } := by
  rw [ioctlBpClear, ioctl_admitted hadmitted]
  dsimp only
  rw [ids_bpClear h]

theorem ioctlBpClear_unsafe {id : BitVec 32} {copyIn : Bool}
    (h : ¬ (Admitted w.session env ∧ copyIn = true)) :
    (ioctlBpClear key w env copyIn id).2 = w.table := by
  unfold ioctlBpClear
  by_cases hadmitted : Admitted w.session env
  · have hcopy : copyIn = false := by simpa using not_and.mp h hadmitted
    rw [ioctl_admitted hadmitted, hcopy]
    rfl
  · rw [ioctl_not_admitted hadmitted]

theorem nextSlot_clearBreakpoint (id : BitVec 32) (env : Env) (copyIn : Bool) (w : World) :
    (clearBreakpoint key id env copyIn w).2.table.nextSlot = w.table.nextSlot := by
  by_cases hid : id ∈ w.listed
  · rw [clearBreakpoint_listed hid]
    simp only [ioctlBpClear, bpClear]
    split
    · rfl
    · split_ifs <;> rfl
  · rw [clearBreakpoint_unlisted hid]

/-- From agreement, a step leads to agreement exactly if it is safe. -/
theorem mirrors_step_iff (h : Mirrors w) (op : Op) :
    Mirrors (step key pid w op).2 ↔ Safe pid w op := by
  unfold Mirrors at h
  cases op with
  | set spec env ctx =>
    have heffect := setBreakpoint_effect key pid spec env ctx w
    simp only [step]
    generalize setBreakpoint key pid spec env ctx w = result at heffect
    cases heffect with
    | refused e harms => exact iff_of_true h fun harms' => absurd harms' harms
    | unarmed e harms => exact iff_of_true h fun harms' => absurd harms' harms
    | untold e slot harms hout =>
      refine iff_of_false (fun hmirrors => ?_) fun hsafe => by rw [hsafe harms] at hout; cases hout
      have hlen := congrArg List.length (h.symm.trans hmirrors)
      simp [SlotTable.ids] at hlen
    | listed slot harms hid hout =>
      refine iff_of_true ?_ fun _ => hout
      simp only [Mirrors, World.listed, SlotTable.ids, List.map_append] at h ⊢
      rw [h, List.map_singleton, List.map_singleton, hid]
  | clear id env copyIn =>
    simp only [step]
    by_cases hid : id ∈ w.listed
    · rw [clearBreakpoint_listed hid]
      by_cases hsafe : Admitted w.session env ∧ copyIn = true
      · obtain ⟨hadmitted, rfl⟩ := hsafe
        refine iff_of_true ?_ fun _ => ⟨hadmitted, rfl⟩
        rw [Mirrors, ioctlBpClear_safe (h ▸ hid) hadmitted]
        simp only [World.listed, SlotTable.ids] at h ⊢
        rw [map_eraseP, map_eraseP, h]
      · refine iff_of_false (fun hmirrors => ?_) fun hall => hsafe (hall hid)
        rw [Mirrors, ioctlBpClear_unsafe hsafe, ← h] at hmirrors
        simp only [World.listed] at hmirrors hid
        rw [map_eraseP] at hmirrors
        have hlen := congrArg List.length hmirrors
        rw [List.length_erase_of_mem hid] at hlen
        have hpos := List.length_pos_of_mem hid
        omega
    · rw [clearBreakpoint_unlisted hid]
      exact iff_of_true h fun hid' => absurd hid' hid

/-- What is armed and listed can be cleared, by a caller who is let in. -/
theorem clearBreakpoint_ok {id : BitVec 32} (h : Mirrors w) (hid : id ∈ w.table.ids)
    (hadmitted : Admitted w.session env) :
    (clearBreakpoint key id env true w).1 = .ok () := by
  have hlisted : id ∈ w.listed := by rwa [h]
  rw [clearBreakpoint, if_pos (any_eq_true_iff.mpr hlisted), ioctlBpClear, ioctl_admitted hadmitted]
  dsimp only
  rw [ids_bpClear hid, if_pos rfl]

end Steps

section Ids

/-- The id that an answer gives. -/
def givenId : Op × Answer → Option (BitVec 32)
  | (_, .set (.ok id)) => some id
  | _ => none

def Op.isSet : Op → Bool
  | .set .. => true
  | .clear .. => false

def sets (ops : List Op) : ℕ := ops.countP Op.isSet

/-- The ids given are those of ascending numbers below the next one. -/
structure Numbered (past : List (Op × Answer)) (w : World) (n : ℕ) (ks : List ℕ) : Prop where
  few : n ≤ sets (past.map Prod.fst)
  next : w.table.nextSlot = BitVec.ofNat 32 n
  given : past.filterMap givenId = ks.map (BitVec.ofNat 32)
  ascending : ks.Pairwise (· < ·)
  below : ∀ k ∈ ks, k < n

theorem Numbered.step {past : List (Op × Answer)} {n : ℕ} {ks : List ℕ} (h : Numbered past w n ks)
    (op : Op) : ∃ n' ks', Numbered (past ++ [(op, (step key pid w op).1)])
      (step key pid w op).2 n' ks' := by
  have hsucc : w.table.nextSlot + 1 = BitVec.ofNat 32 (n + 1) := by
    rw [h.next, BitVec.ofNat_add]
    rfl
  cases op with
  | set spec env ctx =>
    have heffect := setBreakpoint_effect key pid spec env ctx w
    have hcount : ∀ answer, sets ((past ++ [(Op.set spec env ctx, answer)]).map Prod.fst) =
        sets (past.map Prod.fst) + 1 := fun answer => by
      simp [sets, Op.isSet]
    have hfew := h.few
    simp only [Kernel.step]
    generalize setBreakpoint key pid spec env ctx w = result at heffect
    cases heffect with
    | refused e _ =>
      exact ⟨n, ks, by rw [hcount]; omega, h.next, by simp [givenId, h.given], h.ascending, h.below⟩
    | unarmed e _ =>
      exact ⟨n + 1, ks, by rw [hcount]; omega, hsucc, by simp [givenId, h.given], h.ascending,
        fun k hk => (h.below k hk).trans (Nat.lt_succ_self n)⟩
    | untold e slot _ _ =>
      exact ⟨n + 1, ks, by rw [hcount]; omega, hsucc, by simp [givenId, h.given], h.ascending,
        fun k hk => (h.below k hk).trans (Nat.lt_succ_self n)⟩
    | listed slot _ _ _ =>
      refine ⟨n + 1, ks ++ [n], by rw [hcount]; omega, hsucc, ?_, ?_, fun k hk => ?_⟩
      · simp [givenId, h.given, h.next]
      · exact List.pairwise_append.mpr ⟨h.ascending, List.pairwise_singleton _ _,
          fun k hk m hm => by rw [List.mem_singleton.mp hm]; exact h.below k hk⟩
      · rcases List.mem_append.mp hk with hk | hk
        · exact (h.below k hk).trans (Nat.lt_succ_self n)
        · rw [List.mem_singleton.mp hk]
          exact Nat.lt_succ_self n
  | clear id env copyIn =>
    have hcount : ∀ answer, sets ((past ++ [(Op.clear id env copyIn, answer)]).map Prod.fst) =
        sets (past.map Prod.fst) := fun answer => by
      simp [sets, Op.isSet]
    refine ⟨n, ks, hcount _ ▸ h.few, ?_, by simp [Kernel.step, givenId, h.given], h.ascending,
      h.below⟩
    simp only [Kernel.step]
    rw [nextSlot_clearBreakpoint, h.next]

theorem Numbered.attached (session : Session) :
    Numbered [] (World.attached session) 0 [] where
  few := Nat.zero_le _
  next := rfl
  given := rfl
  ascending := List.Pairwise.nil
  below _ hk := absurd hk List.not_mem_nil

/-- Up to as many ids as a C `int` has values, none is given twice. -/
theorem Numbered.nodup {past : List (Op × Answer)} {n : ℕ} {ks : List ℕ}
    (h : Numbered past w n ks) (hsets : sets (past.map Prod.fst) ≤ 2 ^ 32) :
    (past.filterMap givenId).Nodup := by
  rw [h.given]
  refine List.pairwise_map.mpr (h.ascending.imp_of_mem fun {j k} hj hk hlt heq => ?_)
  have hnat := congrArg BitVec.toNat heq
  have hfew := h.few
  have hj' := h.below j hj
  have hk' := h.below k hk
  rw [BitVec.toNat_ofNat, BitVec.toNat_ofNat, Nat.mod_eq_of_lt (by omega),
    Nat.mod_eq_of_lt (by omega)] at hnat
  omega

end Ids

/-- In every run of at most `2 ^ 32` sets, the debugger lists throughout what the module has armed
and no id is given twice, if and only if every step is safe where it is taken. -/
theorem debugger_run_iff (session : Session) (ops : List Op) (hsets : sets ops ≤ 2 ^ 32) :
    ((∀ earlier later, ops = earlier ++ later →
        Mirrors (final (step key pid) (World.attached session) earlier)) ∧
      ((trace (step key pid) (World.attached session) ops).filterMap givenId).Nodup) ↔
    ∀ earlier op later, ops = earlier ++ op :: later →
      Safe pid (final (step key pid) (World.attached session) earlier) op := by
  have hstart : Mirrors (World.attached session) := rfl
  have hnumbered : ∃ n ks, Numbered (trace (step key pid) (World.attached session) ops)
      (final (step key pid) (World.attached session) ops) n ks :=
    holds_of_step (fun past w => ∃ n ks, Numbered past w n ks)
      ⟨0, [], Numbered.attached session⟩ (fun _ _ op ⟨_, _, h⟩ => h.step op) ops
  obtain ⟨n, ks, hnumbered⟩ := hnumbered
  have hnodup := hnumbered.nodup (by rwa [map_fst_trace])
  rw [and_iff_left hnodup]
  exact forall_final_iff hstart (fun _ op h => mirrors_step_iff h op) ops

/-- A breakpoint that is set, and whose clearing by a caller who is no longer let in is refused. -/
def refusedClear : List Op :=
  [.set (.uprobe 0) ⟨none, ⟨true, 0, 0, []⟩⟩ ⟨true, true, true, ⟨true, 0, true, 0⟩, true⟩,
    .clear 0 ⟨none, ⟨false, 1000, 1000, []⟩⟩ true]

/-- The slot stays armed, and the debugger does not list it any more. -/
theorem refusedClear_lost : ¬ ∀ key pid session ops, sets ops ≤ 2 ^ 32 →
    (∀ earlier later, ops = earlier ++ later →
      Mirrors (final (step key pid) (World.attached session) earlier)) ∧
    ((trace (step key pid) (World.attached session) ops).filterMap givenId).Nodup := by
  intro h
  have hmirrors := (h [] 1 ⟨true, 0⟩ refusedClear (by decide)).1 refusedClear [] rfl
  have hlen := congrArg List.length hmirrors
  revert hlen
  decide

/-- A breakpoint that is set and told to the debugger is listed. -/
theorem debugger_run_set : sets (refusedClear.take 1) ≤ 2 ^ 32 ∧
    ∀ earlier later, refusedClear.take 1 = earlier ++ later →
      Mirrors (final (step [] 1) (World.attached ⟨true, 0⟩) earlier) := by
  have hsets : sets (refusedClear.take 1) ≤ 2 ^ 32 := by decide
  refine ⟨hsets, ((debugger_run_iff ⟨true, 0⟩ (refusedClear.take 1) hsets).mpr ?_).1⟩
  intro earlier op later h
  cases earlier with
  | nil =>
    cases h
    exact fun _ => rfl
  | cons first earlier => simp [refusedClear] at h

end Nemclass.Kernel
