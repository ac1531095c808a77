import Nemclass.Kernel.Breakpoints
import Nemclass.Lib.Interleaving

/-! Breakpoints with all that tears them down: the handlers as programs of atomic steps, so that
the threads of one open file can be interleaved. A critical section is one step, and so is each
call into the rest of the kernel. A choice is an error number, zero for success. The reference to
the task, taken and dropped within one call, is left out. -/
namespace Nemclass.Kernel.Teardown
open Interleaving

/-- Slots are told apart by when they were allocated. -/
abbrev Ptr := ℕ

/-- What is taken for a slot and must be given back. `get_task_mm` is called twice, to find the
mapped file and to pin the memory map. -/
inductive Resource where
  | memory
  | hwBp
  | uprobe
  | inode
  | resolveUsers
  | pinUsers
  | mm
deriving DecidableEq, Repr

/-- What has happened. -/
inductive Effect where
  | acquire (r : Resource) (slot : Ptr)
  | release (r : Resource) (slot : Ptr)
  | sync
  | number (slot : Ptr) (id : BitVec 32)
deriving DecidableEq, Repr

/-- The pointers of `struct nemclass_slot`: which are set. -/
structure Links where
  hwBp : Bool
  uprobe : Bool
  inode : Bool
  targetMm : Bool
deriving DecidableEq, Repr

/-- The session and its slots. `log` and `allocated` are not kept by the code. -/
structure Session where
  slots : List Ptr
  nextSlot : BitVec 32
  ids : Ptr → BitVec 32
  links : Ptr → Links
  allocated : ℕ
  log : List Effect

def Session.new : Session := ⟨[], 0, fun _ => 0, fun _ => ⟨false, false, false, false⟩, 0, []⟩

inductive Op where
  /-- What is outside the session: whether a copy or a lookup fails. -/
  | ask
  | kzalloc
  /-- Under the lock: the slot gets the next id. -/
  | number (slot : Ptr)
  | acquire (r : Resource) (slot : Ptr)
  | mmgrab (slot : Ptr)
  | release (r : Resource) (slot : Ptr)
  | load (slot : Ptr)
  | store (slot : Ptr) (f : Links → Links)
  | readId (slot : Ptr)
  /-- Under the lock: the slot becomes the last of the list. -/
  | list (slot : Ptr)
  /-- Under the lock: the first slot with the id leaves the list. -/
  | unlist (id : BitVec 32)
  /-- Under the lock: all slots leave the list. -/
  | splice
  | sync

abbrev Ans : Op → Type
  | .ask | .acquire _ _ => ℕ
  | .kzalloc | .unlist _ => Option Ptr
  | .load _ => Links
  | .readId _ => BitVec 32
  | .splice => List Ptr
  | _ => Unit

namespace Session
variable (σ : Session)

def record (e : Effect) : Session := { σ with log := σ.log ++ [e] }

def kzalloc : Session :=
  { σ with
    allocated := σ.allocated + 1
    links := Function.update σ.links σ.allocated ⟨false, false, false, false⟩ }.record
    (.acquire .memory σ.allocated)

def number (slot : Ptr) : Session :=
  { σ with
    ids := Function.update σ.ids slot σ.nextSlot
    nextSlot := σ.nextSlot + 1 }.record (.number slot σ.nextSlot)

def exec : (o : Op) → ℕ → Session → Ans o × Session
  | .ask, x, σ => (x, σ)
  | .kzalloc, x, σ => if x = 0 then (some σ.allocated, σ.kzalloc) else (none, σ)
  | .number slot, _, σ => ((), σ.number slot)
  | .acquire r slot, x, σ => (x, if x = 0 then σ.record (.acquire r slot) else σ)
  | .mmgrab slot, _, σ => ((), σ.record (.acquire .mm slot))
  | .release r slot, _, σ => ((), σ.record (.release r slot))
  | .load slot, _, σ => (σ.links slot, σ)
  | .store slot f, _, σ =>
    ((), { σ with links := Function.update σ.links slot (f (σ.links slot)) })
  | .readId slot, _, σ => (σ.ids slot, σ)
  | .list slot, _, σ => ((), { σ with slots := σ.slots ++ [slot] })
  | .unlist id, _, σ =>
    match σ.slots.find? (σ.ids · == id) with
    | some slot => (some slot, { σ with slots := σ.slots.erase slot })
    | none => (none, σ)
  | .splice, _, σ => (σ.slots, { σ with slots := [] })
  | .sync, _, σ => ((), σ.record .sync)

end Session

abbrev Program := Prog Op Ans

section Primitives

def ask : Program ℕ := Prog.perform Op.ask
def getTaskMm (r : Resource) (slot : Ptr) : Program ℕ := Prog.perform (Op.acquire r slot)
def mmput (r : Resource) (slot : Ptr) : Program Unit := Prog.perform (Op.release r slot)
def igrab (slot : Ptr) : Program ℕ := Prog.perform (Op.acquire .inode slot)
def iput (slot : Ptr) : Program Unit := Prog.perform (Op.release .inode slot)
def mmgrab (slot : Ptr) : Program Unit := Prog.perform (Op.mmgrab slot)
def mmdrop (slot : Ptr) : Program Unit := Prog.perform (Op.release .mm slot)
def registerUserHwBreakpoint (slot : Ptr) : Program ℕ := Prog.perform (Op.acquire .hwBp slot)
def unregisterHwBreakpoint (slot : Ptr) : Program Unit := Prog.perform (Op.release .hwBp slot)
def uprobeRegister (slot : Ptr) : Program ℕ := Prog.perform (Op.acquire .uprobe slot)
def uprobeUnregisterNosync (slot : Ptr) : Program Unit := Prog.perform (Op.release .uprobe slot)
def uprobeUnregisterSync : Program Unit := Prog.perform Op.sync
def kzalloc : Program (Option Ptr) := Prog.perform Op.kzalloc
def kfree (slot : Ptr) : Program Unit := Prog.perform (Op.release .memory slot)
def load (slot : Ptr) : Program Links := Prog.perform (Op.load slot)
def store (slot : Ptr) (f : Links → Links) : Program Unit := Prog.perform (Op.store slot f)

end Primitives

section Arming

/-- `nemclass_arm_hw` -/
def armHw (slot : Ptr) (req : BpSet) : Program ℤ := do
  let unsupported ← ask
  if unsupported ≠ 0 then pure (-eopnotsupp)
  else if ¬ (req.type = bpX ∨ req.type = bpW ∨ req.type = bpR ∨ req.type = bpRw) then pure (-einval)
  else if ¬ (req.len = 1 ∨ req.len = 2 ∨ req.len = 4 ∨ req.len = 8) then pure (-einval)
  else do
    let err ← registerUserHwBreakpoint slot
    if err ≠ 0 then pure (-err)
    else do
      store slot ({ · with hwBp := true })
      pure 0

/-- `nemclass_resolve_file_offset` -/
def resolveFileOffset (slot : Ptr) : Program ℤ := do
  let noMm ← getTaskMm .resolveUsers slot
  if noMm ≠ 0 then pure (-esrch)
  else do
    let noFile ← ask
    if noFile ≠ 0 then do
      mmput .resolveUsers slot
      pure (-einval)
    else do
      let noInode ← igrab slot
      mmput .resolveUsers slot
      if noInode ≠ 0 then pure (-enoent) else pure 0

/-- `nemclass_arm_uprobe` -/
def armUprobe (slot : Ptr) : Program ℤ := do
  let unsupported ← ask
  if unsupported ≠ 0 then pure (-eopnotsupp)
  else do
    let ret ← resolveFileOffset slot
    if ret ≠ 0 then pure ret
    else do
      let noMm ← getTaskMm .pinUsers slot
      if noMm ≠ 0 then do
        iput slot
        pure (-esrch)
      else do
        mmgrab slot
        mmput .pinUsers slot
        store slot ({ · with targetMm := true })
        store slot ({ · with inode := true })
        let err ← uprobeRegister slot
        if err ≠ 0 then do
          mmdrop slot
          store slot ({ · with targetMm := false })
          iput slot
          store slot ({ · with inode := false })
          pure (-err)
        else do
          store slot ({ · with uprobe := true })
          pure 0

def arm (slot : Ptr) (req : BpSet) : Program ℤ :=
  if req.kind = bpKindHw then armHw slot req
  else if req.kind = bpKindUprobe then armUprobe slot
  else pure (-einval)

end Arming

section Handlers

/-- `nemclass_slot_detach` -/
def slotDetach (slot : Ptr) : Program Bool := do
  let links ← load slot
  if links.hwBp then do
    unregisterHwBreakpoint slot
    store slot ({ · with hwBp := false })
  let links ← load slot
  if links.uprobe then do
    uprobeUnregisterNosync slot
    store slot ({ · with uprobe := false })
    pure true
  else pure false

/-- `nemclass_slot_reclaim` -/
def slotReclaim (slot : Ptr) : Program Unit := do
  let links ← load slot
  if links.inode then do
    iput slot
    store slot ({ · with inode := false })
  let links ← load slot
  if links.targetMm then do
    mmdrop slot
    store slot ({ · with targetMm := false })
  kfree slot

/-- `nemclass_bp_set` -/
def bpSet (req : BpSet) : Program ℤ := do
  let copyIn ← ask
  if copyIn ≠ 0 then pure (-efault)
  else do
    let noTask ← ask
    if noTask ≠ 0 then pure (-esrch)
    else do
      let memory ← kzalloc
      match memory with
      | none => pure (-enomem)
      | some slot => do
        Prog.perform (Op.number slot)
        let ret ← arm slot req
        if ret ≠ 0 then do
          kfree slot
          pure ret
        else do
          Prog.perform (Op.list slot)
          -- The slot is on the list by now, so a concurrent clear may already have freed it.
          let _ ← Prog.perform (Op.readId slot)
          let copyOut ← ask
          if copyOut ≠ 0 then pure (-efault) else pure 0

/-- `nemclass_bp_clear` -/
def bpClear (id : BitVec 32) : Program ℤ := do
  let copyIn ← ask
  if copyIn ≠ 0 then pure (-efault)
  else do
    let found ← Prog.perform (Op.unlist id)
    match found with
    | none => pure (-enoent)
    | some slot => do
      let needSync ← slotDetach slot
      if needSync then uprobeUnregisterSync
      slotReclaim slot
      pure 0

def detachAll : List Ptr → Bool → Program Bool
  | [], needSync => pure needSync
  | slot :: dead, needSync => do
    let more ← slotDetach slot
    detachAll dead (needSync || more)

def reclaimAll : List Ptr → Program Unit
  | [] => pure ()
  | slot :: dead => do
    slotReclaim slot
    reclaimAll dead

/-- `nemclass_session_free_slots` -/
def sessionFreeSlots : Program Unit := do
  let dead ← Prog.perform Op.splice
  let needSync ← detachAll dead false
  if needSync then uprobeUnregisterSync
  reclaimAll dead

end Handlers

inductive Call where
  | bpSet (req : BpSet)
  | bpClear (id : BitVec 32)

def Call.body : Call → Program Unit
  | .bpSet req => do
    let _ ← Teardown.bpSet req
    pure ()
  | .bpClear id => do
    let _ ← Teardown.bpClear id
    pure ()

/-- The threads of one open file. The file is released after the last call has returned. -/
def openFile : System Op Ans where
  Shared := Session
  Choice := ℕ
  Call := Call
  exec := Session.exec
  body := Call.body
  final := sessionFreeSlots

end Nemclass.Kernel.Teardown
