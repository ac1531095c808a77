import Nemclass.Kernel.Session

/-! The module's breakpoint handlers: the slots that an open file has armed, and how a request
adds one or takes one away. What the rest of the kernel answers is part of each request. -/
namespace Nemclass.Kernel

def enoent : ℤ := 2
def esrch : ℤ := 3
def enomem : ℤ := 12
def einval : ℤ := 22
def eopnotsupp : ℤ := 95

def bpKindHw : UInt32 := 0
def bpKindUprobe : UInt32 := 1

def bpX : UInt32 := 0
def bpW : UInt32 := 1
def bpRw : UInt32 := 2
def bpR : UInt32 := 3

/-- `struct nemclass_slot`: an armed breakpoint, without the pointers that tear it down. -/
structure Slot where
  id : BitVec 32
  kind : UInt32
  pid : ℤ
  addr : UInt64
deriving DecidableEq, Repr

/-- What the session's `lock` guards. The next id is a C `int`. -/
structure SlotTable where
  slots : List Slot
  nextSlot : BitVec 32
deriving DecidableEq, Repr

def SlotTable.empty : SlotTable := ⟨[], 0⟩

/-- `struct nemclass_bp_set`, as it is passed in. -/
structure BpSet where
  pid : ℤ
  kind : UInt32
  addr : UInt64
  len : UInt32
  type : UInt32
deriving DecidableEq, Repr

/-- What the kernel answers where a breakpoint is armed: whether it is built with the kind, then
the error numbers of its functions, zero for success. -/
structure Arming where
  supported : Bool
  resolve : ℕ
  hasMm : Bool
  register : ℕ
deriving DecidableEq, Repr

/-- What a `BP_SET` meets: whether the request can be copied in, the task is there, there is
memory, what arming gives, and whether the request can be copied out again. -/
structure SetContext where
  copyIn : Bool
  task : Bool
  memory : Bool
  arming : Arming
  copyOut : Bool
deriving DecidableEq, Repr

/-- `nemclass_arm_hw` -/
def armHw (arming : Arming) (req : BpSet) : ℤ :=
  if !arming.supported then -eopnotsupp
  else if ¬ (req.type = bpX ∨ req.type = bpW ∨ req.type = bpR ∨ req.type = bpRw) then -einval
  else if ¬ (req.len = 1 ∨ req.len = 2 ∨ req.len = 4 ∨ req.len = 8) then -einval
  else -arming.register

/-- `nemclass_arm_uprobe` -/
def armUprobe (arming : Arming) : ℤ :=
  if !arming.supported then -eopnotsupp
  else if arming.resolve ≠ 0 then -arming.resolve
  else if !arming.hasMm then -esrch
  else -arming.register

def arm (arming : Arming) (req : BpSet) : ℤ :=
  if req.kind = bpKindHw then armHw arming req
  else if req.kind = bpKindUprobe then armUprobe arming
  else -einval

/-- `nemclass_bp_set`, with the slot id that is copied out. -/
def bpSet (ctx : SetContext) (req : BpSet) (table : SlotTable) :
    Except ℤ (BitVec 32) × SlotTable :=
  if !ctx.copyIn then (.error (-efault), table)
  else if !ctx.task then (.error (-esrch), table)
  else if !ctx.memory then (.error (-enomem), table)
  else
    -- the id is used up, whether arming succeeds or not
    let slot : Slot := ⟨table.nextSlot, req.kind, req.pid, req.addr⟩
    let nextSlot := table.nextSlot + 1
    if arm ctx.arming req ≠ 0 then (.error (arm ctx.arming req), { table with nextSlot })
    else
      let table := { slots := table.slots ++ [slot], nextSlot }
      if ctx.copyOut then (.ok slot.id, table) else (.error (-efault), table)

/-- `nemclass_bp_clear`: the first slot with the id is taken from the list. -/
def bpClear (copyIn : Bool) (id : BitVec 32) (table : SlotTable) : ℤ × SlotTable :=
  if !copyIn then (-efault, table)
  else if table.slots.any (·.id == id) then
    (0, { table with slots := table.slots.eraseP (·.id == id) })
  else (-enoent, table)

def SlotTable.ids (table : SlotTable) : List (BitVec 32) := table.slots.map Slot.id

/-- The request gets as far as to be given an id. -/
def SetContext.reaches (ctx : SetContext) : Bool := ctx.copyIn && ctx.task && ctx.memory

variable {ctx : SetContext} {req : BpSet} {table : SlotTable} {id : BitVec 32}

theorem bpSet_unreached (req : BpSet) (table : SlotTable) (h : ctx.reaches = false) :
    ∃ errno, bpSet ctx req table = (.error errno, table) := by
  obtain ⟨copyIn, task, memory, arming, copyOut⟩ := ctx
  simp only [SetContext.reaches] at h
  cases copyIn with
  | false => exact ⟨_, rfl⟩
  | true =>
    cases task with
    | false => exact ⟨_, rfl⟩
    | true =>
      cases memory with
      | false => exact ⟨_, rfl⟩
      | true => cases h

theorem bpSet_reached (h : ctx.reaches = true) : bpSet ctx req table =
    if arm ctx.arming req ≠ 0 then
      (.error (arm ctx.arming req), { table with nextSlot := table.nextSlot + 1 })
    else
      (if ctx.copyOut then .ok table.nextSlot else .error (-efault),
        ⟨table.slots ++ [⟨table.nextSlot, req.kind, req.pid, req.addr⟩], table.nextSlot + 1⟩) := by
  simp only [SetContext.reaches, Bool.and_eq_true] at h
  obtain ⟨⟨hcopy, htask⟩, hmemory⟩ := h
  simp only [bpSet, hcopy, htask, hmemory]
  cases ctx.copyOut <;> rfl

/-- Some element has an id if the id is among theirs. -/
theorem any_eq_true_iff {α : Type*} {f : α → BitVec 32} {id : BitVec 32} {xs : List α} :
    xs.any (f · == id) = true ↔ id ∈ xs.map f := by
  simp only [List.any_eq_true, beq_iff_eq, List.mem_map]

theorem ids_bpClear (h : id ∈ table.ids) :
    bpClear true id table = (0, { table with slots := table.slots.eraseP (·.id == id) }) := by
  have hany : table.slots.any (·.id == id) = true := any_eq_true_iff.mpr h
  simp only [bpClear, hany]
  rfl

/-- Taking the first element with an id away takes the id's first occurrence away. -/
theorem map_eraseP {α : Type*} (f : α → BitVec 32) (id : BitVec 32) (xs : List α) :
    (xs.eraseP (f · == id)).map f = (xs.map f).erase id := by
  induction xs with
  | nil => rfl
  | cons x xs ih =>
    rw [List.eraseP_cons, List.map_cons, List.erase_cons]
    cases f x == id with
    | true => rfl
    | false => rw [cond_false, List.map_cons, ih, if_neg Bool.false_ne_true]

end Nemclass.Kernel
