import Nemclass.Kernel.Breakpoints
import Nemclass.Lib.MappedPrefix
import Nemclass.Lib.Usize
import Nemclass.Scan.Target

/-! Reads through the module: the client's loop, and under each of its ioctls the kernel's loop,
which copies one chunk after another through a buffer of its own. -/
namespace Nemclass.Kernel
open Usize MappedPrefix

def eintr : ℤ := 4

/-- `NEM_CHUNK` -/
def nemChunk : ℕ := 64 * 1024

/-- A live task. `access_process_vm` answers to an address and a length with what it returns and
with what the kernel's buffer holds then. -/
structure Task where
  accessProcessVm : ℕ → ℕ → ℤ × List UInt8

/-- What a transfer meets in the kernel: the tasks by their ids, whether the request can be copied
in and out, which buffers there is memory for, whether a signal is pending after so many bytes, and
how many bytes a copy to the user leaves out. -/
structure Machine where
  getTask : ℤ → Option Task
  copyIn : Bool
  copyOut : Bool
  kvmalloc : ℕ → Bool
  signalPending : ℕ → Bool
  uncopied : ℕ → ℕ → ℕ

/-- The memory of the client's process. -/
abbrev UserMem := ℕ → UInt8

/-- `struct nemclass_rw` -/
structure Rw where
  pid : ℤ
  addr : ℕ
  len : ℕ
  ubuf : ℕ
  done : ℕ
deriving DecidableEq, Repr

/-- The loop of `nemclass_transfer` for a read, when `done` bytes are through. -/
def transferLoop (m : Machine) (task : Task) (rw : Rw) (done : ℕ) (user : UserMem) :
    Except ℤ ℕ × UserMem :=
  if _hmore : done < rw.len then
    if m.signalPending done then (.error (-eintr), user)
    else
      let this := min (rw.len - done) nemChunk
      let answer := task.accessProcessVm (rw.addr + done) this
      if _hpos : answer.1 ≤ 0 then (.ok done, user)
      else
        let n := answer.1.toNat
        let left := m.uncopied (rw.ubuf + done) n
        let user := store user (rw.ubuf + done) (answer.2.take (n - left))
        if left ≠ 0 then (.error (-efault), user)
        else if n < this then (.ok (done + n), user)
        else transferLoop m task rw (done + n) user
  else (.ok done, user)
termination_by rw.len - done
decreasing_by
  have hn := Int.pos_iff_toNat_pos.mp (Int.not_le.mp _hpos)
  exact Nat.sub_lt_sub_left _hmore (Nat.lt_add_of_pos_right hn)

/-- `nemclass_do_read`, which is `nemclass_transfer` without `write_to_target`. -/
def doRead (m : Machine) (rw : Rw) (user : UserMem) : Except ℤ Rw × UserMem :=
  if !m.copyIn then (.error (-efault), user)
  else if usizeMax - rw.addr < rw.len ∨ usizeMax - rw.ubuf < rw.len then (.error (-einval), user)
  else
    match m.getTask rw.pid with
    | none => (.error (-esrch), user)
    | some task =>
      if rw.len = 0 then
        if m.copyOut then (.ok { rw with done := 0 }, user) else (.error (-efault), user)
      else if !m.kvmalloc (min rw.len nemChunk) then (.error (-enomem), user)
      else
        match transferLoop m task rw 0 user with
        | (.error ret, user) => (.error ret, user)
        | (.ok done, user) =>
          if m.copyOut then (.ok { rw with done := done }, user) else (.error (-efault), user)

/-- A `&mut [u8]`, which does not wrap around. -/
structure Buffer where
  ptr : ℕ
  len : ℕ
  fits : ptr + len ≤ usizeMax

/-- The loop of `KernelClient::read_mem`, when `total` bytes are through. -/
def readLoop (m : Machine) (pid : ℤ) (addr : ℕ) (buf : Buffer) (total : ℕ) (user : UserMem) :
    Except Scan.Error ℕ × UserMem :=
  if _hmore : total < buf.len then
    match checkedAdd addr total with
    | none => (.error .invalidAddress, user)
    | some target =>
      match doRead m ⟨pid, target, buf.len - total, buf.ptr + total, 0⟩ user with
      | (.error ret, user) => (.error (.errno (-ret)), user)
      | (.ok arg, user) =>
        if _hshort : arg.done < buf.len - total then (.ok (total + arg.done), user)
        else readLoop m pid addr buf (total + arg.done) user
  else (.ok total, user)
termination_by buf.len - total
decreasing_by omega

/-- `KernelClient::read_mem`, on an authenticated file. -/
def readMem (m : Machine) (pid : ℤ) (addr : ℕ) (buf : Buffer) (user : UserMem) :
    Except Scan.Error ℕ × UserMem := readLoop m pid addr buf 0 user

/-- No signal, no fault of the client's and no lack of memory gets in the way. -/
structure Machine.Quiet (m : Machine) : Prop where
  copyIn : m.copyIn = true
  copyOut : m.copyOut = true
  kvmalloc : ∀ n ≤ nemChunk, m.kvmalloc n = true
  noSignal : ∀ done, m.signalPending done = false
  noFault : ∀ ptr n, m.uncopied ptr n = 0

/-- `access_process_vm` copies what is mapped of its request, up to the first hole, and returns
the length of that. -/
def Task.CopiesMapped (task : Task) (mem : ℕ → Option UInt8) : Prop :=
  ∀ addr len, len ≤ nemChunk → addr + len ≤ usizeMax →
    (task.accessProcessVm addr len).1 = (mappedPrefix mem addr len).length ∧
      (task.accessProcessVm addr len).2.take (mappedPrefix mem addr len).length =
        mappedPrefix mem addr len

section Transfer

variable {m : Machine} {task : Task} {mem : ℕ → Option UInt8}

/-- The loop brings in what is mapped of the rest, however it falls into chunks. -/
theorem transferLoop_eq {req : Rw} (hm : m.Quiet) (htask : task.CopiesMapped mem)
    (haddr : req.addr + req.len ≤ usizeMax) {done : ℕ} (hdone : done ≤ req.len) (user : UserMem) :
    transferLoop m task req done user =
      (.ok (done + (mappedPrefix mem (req.addr + done) (req.len - done)).length),
        store user (req.ubuf + done) (mappedPrefix mem (req.addr + done) (req.len - done))) := by
  induction hrest : req.len - done using Nat.strong_induction_on generalizing done user with
  | _ rest ih =>
    rw [transferLoop, hrest]
    by_cases hmore : done < req.len
    · rw [dif_pos hmore, hm.noSignal, if_neg Bool.false_ne_true]
      dsimp only
      obtain ⟨hret, hbytes⟩ :=
        htask (req.addr + done) (min rest nemChunk) (Nat.min_le_right _ _) (by omega)
      have hle := length_mappedPrefix_le mem (req.addr + done) (min rest nemChunk)
      have hsplit : rest = min rest nemChunk + (rest - min rest nemChunk) := by omega
      have hthis : 0 < min rest nemChunk := by
        have hchunk : 0 < nemChunk := by decide
        omega
      have hroom : min rest nemChunk ≤ rest := Nat.min_le_left _ _
      generalize min rest nemChunk = this at *
      rw [hret, Int.toNat_natCast, hm.noFault, Nat.sub_zero, hbytes]
      by_cases hshort : (mappedPrefix mem (req.addr + done) this).length < this
      · -- the first hole is in this chunk
        rw [hsplit, mappedPrefix_add_of_short hshort]
        by_cases hnone : (mappedPrefix mem (req.addr + done) this).length = 0
        · rw [List.length_eq_zero_iff.mp hnone, dif_pos (by simp), store_nil]
          rfl
        · rw [dif_neg (by omega), if_neg (by simp), if_pos hshort]
      · have hfull : (mappedPrefix mem (req.addr + done) this).length = this := by omega
        rw [dif_neg (by omega), if_neg (by simp), if_neg hshort, hfull,
          ih (rest - this) (by omega) (by omega) _ (by omega)]
        conv_rhs => rw [hsplit, mappedPrefix_add hfull, List.length_append, hfull,
          ← store_append, hfull]
        simp only [Nat.add_assoc]
    · rw [dif_neg hmore, show rest = 0 by omega]
      simp [mappedPrefix, store_nil]

/-- One ioctl brings in all that is mapped, up to the first hole. -/
theorem doRead_eq (req : Rw) (hm : m.Quiet) (hpid : m.getTask req.pid = some task)
    (htask : task.CopiesMapped mem) (haddr : req.addr + req.len ≤ usizeMax)
    (hubuf : req.ubuf + req.len ≤ usizeMax) (user : UserMem) :
    doRead m req user =
      (.ok { req with done := (mappedPrefix mem req.addr req.len).length },
        store user req.ubuf (mappedPrefix mem req.addr req.len)) := by
  rw [doRead, hm.copyIn, if_neg (by simp), if_neg (by omega), hpid]
  dsimp only
  by_cases hzero : req.len = 0
  · rw [if_pos hzero, hm.copyOut, if_pos rfl, hzero]
    simp [mappedPrefix, store_nil]
  · rw [if_neg hzero, hm.kvmalloc _ (Nat.min_le_right _ _), if_neg (by simp),
      transferLoop_eq hm htask haddr (Nat.zero_le _)]
    simp only [Nat.add_zero, Nat.zero_add, Nat.sub_zero, hm.copyOut, if_true]

theorem doRead_esrch (req : Rw) (hm : m.Quiet) (hpid : m.getTask req.pid = none)
    (haddr : req.addr + req.len ≤ usizeMax) (hubuf : req.ubuf + req.len ≤ usizeMax) (user : UserMem) :
    doRead m req user = (.error (-esrch), user) := by
  rw [doRead, hm.copyIn, if_neg (by simp), if_neg (by omega), hpid]

end Transfer

section Client

variable {m : Machine} {pid : ℤ} {addr : ℕ} {buf : Buffer}

theorem readMem_empty (hlen : buf.len = 0) (user : UserMem) :
    readMem m pid addr buf user = (.ok 0, user) := by
  rw [readMem, readLoop, dif_neg (by omega)]

/-- The client's loop makes one pass: a short transfer stops it, a full one fills the buffer. -/
theorem readMem_eq {task : Task} {mem : ℕ → Option UInt8} (hm : m.Quiet)
    (hpid : m.getTask pid = some task) (htask : task.CopiesMapped mem)
    (haddr : addr + buf.len ≤ usizeMax) (user : UserMem) :
    readMem m pid addr buf user =
      (.ok (mappedPrefix mem addr buf.len).length,
        store user buf.ptr (mappedPrefix mem addr buf.len)) := by
  by_cases hlen : buf.len = 0
  · rw [readMem_empty hlen, hlen]
    simp [mappedPrefix, store_nil]
  · have hle := length_mappedPrefix_le mem addr buf.len
    have hread :=
      doRead_eq ⟨pid, addr, buf.len, buf.ptr, 0⟩ hm hpid htask haddr buf.fits user
    rw [readMem, readLoop, dif_pos (by omega), checkedAdd_of_le (by omega)]
    simp only [Nat.add_zero, Nat.sub_zero, Nat.zero_add, hread]
    split
    · rfl
    · rw [readLoop, dif_neg (by omega)]

end Client

/-- A machine that runs one task, of which two bytes are mapped. -/
def twoMapped : Machine where
  getTask pid := if pid = 7 then some ⟨fun addr len =>
    let bytes := mappedPrefix (fun a => if a = 4096 ∨ a = 4097 then some 0x5A else none) addr len
    (bytes.length, bytes)⟩ else none
  copyIn := true
  copyOut := true
  kvmalloc _ := true
  signalPending _ := false
  uncopied _ _ := 0

theorem twoMapped_quiet : twoMapped.Quiet where
  copyIn := rfl
  copyOut := rfl
  kvmalloc _ _ := rfl
  noSignal _ := rfl
  noFault _ _ := rfl

end Nemclass.Kernel
