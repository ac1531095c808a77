import Nemclass.Kernel.Transfer
import Nemclass.Lib.MappedStore
import Nemclass.Lib.Outcome
import Nemclass.Lib.Trace

/-! Writes through the module, and what a client sees that reads and writes through it: a memory
with holes, whatever chunks the bytes went in. -/
namespace Nemclass.Kernel
open Usize MappedPrefix Scan

/-- The memory of the target. -/
abbrev TargetMem := ℕ → Option UInt8

/-- What a write meets in the kernel besides: which chunks can be copied in from the user, and
`access_process_vm`, which answers to a task's id, an address and the bytes of a chunk with what it
returns and with the memory of the target. -/
structure WriteMachine extends Machine where
  copyChunk : ℕ → ℕ → Bool
  writeProcessVm : ℤ → ℕ → List UInt8 → TargetMem → ℤ × TargetMem

/-- The loop of `nemclass_transfer` for a write, when `done` bytes are through. -/
def transferWriteLoop (m : WriteMachine) (rw : Rw) (user : UserMem) (done : ℕ)
    (target : TargetMem) : Except ℤ ℕ × TargetMem :=
  if _hmore : done < rw.len then
    if m.signalPending done then (.error (-eintr), target)
    else
      let this := min (rw.len - done) nemChunk
      if !m.copyChunk (rw.ubuf + done) this then (.error (-efault), target)
      else
        let answer := m.writeProcessVm rw.pid (rw.addr + done)
          (memBytes user (rw.ubuf + done) this) target
        if _hpos : answer.1 ≤ 0 then (.ok done, answer.2)
        else
          let n := answer.1.toNat
          if n < this then (.ok (done + n), answer.2)
          else transferWriteLoop m rw user (done + n) answer.2
  else (.ok done, target)
termination_by rw.len - done
decreasing_by
  have hn := Int.pos_iff_toNat_pos.mp (Int.not_le.mp _hpos)
  exact Nat.sub_lt_sub_left _hmore (Nat.lt_add_of_pos_right hn)

/-- `nemclass_do_write`, which is `nemclass_transfer` with `write_to_target`. -/
def doWrite (m : WriteMachine) (rw : Rw) (user : UserMem) (target : TargetMem) :
    Except ℤ Rw × TargetMem :=
  if !m.copyIn then (.error (-efault), target)
  else if usizeMax - rw.addr < rw.len ∨ usizeMax - rw.ubuf < rw.len then (.error (-einval), target)
  else if (m.getTask rw.pid).isNone then (.error (-esrch), target)
  else if rw.len = 0 then
    if m.copyOut then (.ok { rw with done := 0 }, target) else (.error (-efault), target)
  else if !m.kvmalloc (min rw.len nemChunk) then (.error (-enomem), target)
  else
    match transferWriteLoop m rw user 0 target with
    | (.error ret, target) => (.error ret, target)
    | (.ok done, target) =>
      if m.copyOut then (.ok { rw with done := done }, target) else (.error (-efault), target)

/-- The loop of `KernelClient::write_mem`, when `total` bytes are through. -/
def writeLoop (m : WriteMachine) (pid : ℤ) (addr : ℕ) (buf : Buffer) (user : UserMem) (total : ℕ)
    (target : TargetMem) : Except Scan.Error ℕ × TargetMem :=
  if _hmore : total < buf.len then
    match checkedAdd addr total with
    | none => (.error .invalidAddress, target)
    | some start =>
      match doWrite m ⟨pid, start, buf.len - total, buf.ptr + total, 0⟩ user target with
      | (.error ret, target) => (.error (.errno (-ret)), target)
      | (.ok arg, target) =>
        if _hshort : arg.done < buf.len - total then (.ok (total + arg.done), target)
        else writeLoop m pid addr buf user (total + arg.done) target
  else (.ok total, target)
termination_by buf.len - total
decreasing_by omega

/-- `KernelClient::write_mem`, on an authenticated file. -/
def writeMem (m : WriteMachine) (pid : ℤ) (addr : ℕ) (buf : Buffer) (user : UserMem)
    (target : TargetMem) : Except Scan.Error ℕ × TargetMem := writeLoop m pid addr buf user 0 target

/-- `access_process_vm` writes a part of what it is given, from the front, and returns the length
of that; what is not positive says that it wrote nothing. -/
def WriteMachine.Writes (m : WriteMachine) : Prop :=
  ∀ pid addr bytes target,
    (m.writeProcessVm pid addr bytes target).1 ≤ bytes.length ∧
      (m.writeProcessVm pid addr bytes target).2 =
        overwrite target addr (bytes.take (m.writeProcessVm pid addr bytes target).1.toNat)

theorem memBytes_add (mem : ℕ → UInt8) (addr m n : ℕ) :
    memBytes mem addr (m + n) = memBytes mem addr m ++ memBytes mem (addr + m) n := by
  simp [memBytes, List.range_add, Nat.add_assoc]

theorem memBytes_take (mem : ℕ → UInt8) (addr : ℕ) {m n : ℕ} (h : m ≤ n) :
    (memBytes mem addr n).take m = memBytes mem addr m := by
  have hslice := memBytes_slice mem addr (show 0 + m ≤ n by omega)
  rwa [List.drop_zero, Nat.add_zero] at hslice

/-- What a transfer of at most `len` bytes did: it wrote the first `k` of them, and where it
reports a length, that is `k` more than before. -/
def WroteFrom (target : TargetMem) (addr : ℕ) (user : UserMem) (ptr len before : ℕ)
    (result : Option ℕ) (target' : TargetMem) : Prop :=
  ∃ k ≤ len, target' = overwrite target addr (memBytes user ptr k) ∧
    ∀ n, result = some n → n = before + k

section Writes

variable {m : WriteMachine} {user : UserMem}

theorem WroteFrom.none (target : TargetMem) (addr ptr len before : ℕ) :
    WroteFrom target addr user ptr len before .none target :=
  ⟨0, Nat.zero_le _, by simp [memBytes], fun _ h => by cases h⟩

theorem WroteFrom.same (target : TargetMem) (addr ptr len before : ℕ) :
    WroteFrom target addr user ptr len before (some before) target :=
  ⟨0, Nat.zero_le _, by simp [memBytes], fun _ h => (Option.some.inj h).symm⟩

/-- A transfer after another one. -/
theorem WroteFrom.after {target target' : TargetMem} {addr ptr len k before : ℕ}
    {result : Option ℕ} (hk : k ≤ len)
    (h : WroteFrom (overwrite target addr (memBytes user ptr k)) (addr + k) user (ptr + k)
      (len - k) (before + k) result target') :
    WroteFrom target addr user ptr len before result target' := by
  obtain ⟨j, hj, rfl, hresult⟩ := h
  refine ⟨k + j, by omega, ?_, fun n hn => by rw [hresult n hn, Nat.add_assoc]⟩
  have happend := overwrite_append target addr (memBytes user ptr k) (memBytes user (ptr + k) j)
  rw [memBytes_length] at happend
  rw [happend, memBytes_add]

theorem transferWriteLoop_wrote (hm : m.Writes) (req : Rw) (user : UserMem) (done : ℕ)
    (target : TargetMem) :
    WroteFrom target (req.addr + done) user (req.ubuf + done) (req.len - done) done
      (transferWriteLoop m req user done target).1.toOption
      (transferWriteLoop m req user done target).2 := by
  induction hrest : req.len - done using Nat.strong_induction_on generalizing done target with
  | _ rest ih =>
    rw [transferWriteLoop]
    by_cases hmore : done < req.len
    · rw [dif_pos hmore]
      split
      · exact .none _ _ _ _ _
      · dsimp only
        split
        · exact .none _ _ _ _ _
        · rw [hrest]
          obtain ⟨hle, hwrote⟩ := hm req.pid (req.addr + done)
            (memBytes user (req.ubuf + done) (min rest nemChunk)) target
          generalize m.writeProcessVm req.pid (req.addr + done) _ target = answer at *
          rw [memBytes_length] at hle
          have hn : answer.1.toNat ≤ min rest nemChunk := by omega
          rw [memBytes_take user _ hn] at hwrote
          rw [hwrote]
          have hroom : min rest nemChunk ≤ rest := Nat.min_le_left _ _
          split
          · have hzero : answer.1.toNat = 0 := by omega
            rw [hzero]
            exact .after (Nat.zero_le _) (.same _ _ _ _ _)
          · split
            · exact .after (hn.trans hroom) (.same _ _ _ _ _)
            · refine .after (hn.trans hroom) ?_
              rw [Nat.add_assoc, Nat.add_assoc]
              have hless : req.len - (done + answer.1.toNat) = rest - answer.1.toNat := by omega
              exact ih (rest - answer.1.toNat) (by omega) _ _ hless
    · rw [dif_neg hmore]
      exact .same _ _ _ _ _

theorem doWrite_wrote (hm : m.Writes) (req : Rw) (user : UserMem) (target : TargetMem) :
    WroteFrom target req.addr user req.ubuf req.len 0
      ((doWrite m req user target).1.toOption.map Rw.done) (doWrite m req user target).2 := by
  rw [doWrite]
  split
  · exact .none _ _ _ _ _
  · split
    · exact .none _ _ _ _ _
    · split
      · exact .none _ _ _ _ _
      · split
        · split
          · exact .same _ _ _ _ _
          · exact .none _ _ _ _ _
        · split
          · exact .none _ _ _ _ _
          · have hloop := transferWriteLoop_wrote hm req user 0 target
            rw [Nat.add_zero, Nat.add_zero, Nat.sub_zero] at hloop
            generalize transferWriteLoop m req user 0 target = r at *
            obtain ⟨_ | done, target'⟩ := r
            · exact hloop
            · dsimp only
              split
              · exact hloop
              · obtain ⟨k, hk, htarget, -⟩ := hloop
                exact ⟨k, hk, htarget, fun _ h => by cases h⟩

theorem writeLoop_wrote (hm : m.Writes) (pid : ℤ) (addr : ℕ) (buf : Buffer) (user : UserMem)
    (total : ℕ) (target : TargetMem) :
    WroteFrom target (addr + total) user (buf.ptr + total) (buf.len - total) total
      (writeLoop m pid addr buf user total target).1.toOption
      (writeLoop m pid addr buf user total target).2 := by
  induction hrest : buf.len - total using Nat.strong_induction_on generalizing total target with
  | _ rest ih =>
    rw [writeLoop]
    by_cases hmore : total < buf.len
    · rw [dif_pos hmore]
      split
      · exact .none _ _ _ _ _
      · rename_i start hstart
        obtain ⟨rfl, -⟩ := checkedAdd_eq_some.mp hstart
        have hreq := doWrite_wrote hm ⟨pid, addr + total, buf.len - total, buf.ptr + total, 0⟩ user
          target
        generalize doWrite m ⟨pid, addr + total, _, _, 0⟩ user target = r at *
        dsimp only at hreq
        rw [hrest] at hreq ⊢
        obtain ⟨ret | arg, target'⟩ := r
        · obtain ⟨k, hk, htarget, -⟩ := hreq
          exact ⟨k, hk, htarget, fun _ h => by cases h⟩
        · obtain ⟨k, hk, rfl, hdone⟩ := hreq
          have hk' : arg.done = k := by simpa using hdone arg.done rfl
          dsimp only
          rw [hk']
          split
          · exact .after hk (.same _ _ _ _ _)
          · refine .after hk ?_
            rw [Nat.add_assoc, Nat.add_assoc]
            exact ih (rest - k) (by omega) _ _ (by omega)
    · rw [dif_neg hmore]
      exact .same _ _ _ _ _

end Writes

/-- What a failing or a partial transfer leaves: whatever signals, faults and lacks of memory get
in the way, the target holds the first bytes of the buffer from the address on and is otherwise as
it was, and a length that is returned is the number of these bytes. -/
theorem writeMem_wrote {m : WriteMachine} (hm : m.Writes) (pid : ℤ) (addr : ℕ) (buf : Buffer)
    (user : UserMem) (target : TargetMem) :
    ∃ k ≤ buf.len,
      (writeMem m pid addr buf user target).2 =
        overwrite target addr (memBytes user buf.ptr k) ∧
      ∀ n, (writeMem m pid addr buf user target).1 = .ok n → n = k := by
  obtain ⟨k, hk, htarget, hresult⟩ := writeLoop_wrote hm pid addr buf user 0 target
  refine ⟨k, hk, htarget, fun n hn => ?_⟩
  rw [← Nat.zero_add k]
  exact hresult n (Outcome.toOption_eq_some.mpr hn)

/-- A machine on which nothing gets in the way, with one task of that memory. -/
def honest (target : TargetMem) : WriteMachine where
  getTask pid := if pid = 7 then some ⟨fun addr len =>
    ((mappedPrefix target addr len).length, mappedPrefix target addr len)⟩ else none
  copyIn := true
  copyOut := true
  kvmalloc _ := true
  signalPending _ := false
  uncopied _ _ := 0
  copyChunk _ _ := true
  writeProcessVm _ addr bytes target :=
    ((mappedPrefix target addr bytes.length).length, put target addr bytes)

/-- Two bytes of memory. -/
def twoBytes : TargetMem := fun a => if a = 4096 ∨ a = 4097 then some 0 else none

/-- A signal that comes while the last byte is still to be written. -/
theorem writeMem_wrote_signal :
    ∃ k ≤ nemChunk + 1,
      (writeMem { honest twoBytes with signalPending := (· == nemChunk) } 7 4096
        ⟨8192, nemChunk + 1, by decide⟩ (fun _ => 0x5A) twoBytes).2 =
          overwrite twoBytes 4096 (memBytes (fun _ => 0x5A) 8192 k) ∧
      ∀ n, (writeMem { honest twoBytes with signalPending := (· == nemChunk) } 7 4096
        ⟨8192, nemChunk + 1, by decide⟩ (fun _ => 0x5A) twoBytes).1 = .ok n → n = k := by
  refine writeMem_wrote (fun _ addr bytes target => ⟨?_, ?_⟩) 7 4096
    ⟨8192, nemChunk + 1, by decide⟩ (fun _ => 0x5A) twoBytes
  · exact Int.ofNat_le.mpr (length_mappedPrefix_le target addr bytes.length)
  · rfl

/-- No chunk is kept from being copied in either. -/
structure WriteMachine.Quiet (m : WriteMachine) : Prop extends m.toMachine.Quiet where
  copyChunk : ∀ ptr n, m.copyChunk ptr n = true

/-- `access_process_vm` writes what is mapped of its request, up to the first hole, and returns
the length of that. -/
def WriteMachine.StoresMapped (m : WriteMachine) (pid : ℤ) : Prop :=
  ∀ target addr bytes, bytes.length ≤ nemChunk → addr + bytes.length ≤ usizeMax →
    (m.writeProcessVm pid addr bytes target).1 = (mappedPrefix target addr bytes.length).length ∧
      (m.writeProcessVm pid addr bytes target).2 = put target addr bytes

section Quiet

variable {m : WriteMachine} {user : UserMem}

/-- The loop writes what is mapped of the rest, however it falls into chunks. -/
theorem transferWriteLoop_eq {req : Rw} (hm : m.Quiet) (hstores : m.StoresMapped req.pid)
    (haddr : req.addr + req.len ≤ usizeMax) {done : ℕ} (hdone : done ≤ req.len)
    (target : TargetMem) :
    transferWriteLoop m req user done target =
      (.ok (done + (mappedPrefix target (req.addr + done) (req.len - done)).length),
        put target (req.addr + done) (memBytes user (req.ubuf + done) (req.len - done))) := by
  induction hrest : req.len - done using Nat.strong_induction_on generalizing done target with
  | _ rest ih =>
    rw [transferWriteLoop, hrest]
    by_cases hmore : done < req.len
    · rw [dif_pos hmore, hm.noSignal, if_neg Bool.false_ne_true]
      dsimp only
      rw [hm.copyChunk, if_neg (by simp)]
      obtain ⟨hret, hput⟩ := hstores target (req.addr + done)
        (memBytes user (req.ubuf + done) (min rest nemChunk))
        (by rw [memBytes_length]; exact Nat.min_le_right _ _) (by rw [memBytes_length]; omega)
      rw [memBytes_length] at hret
      have hsplit : rest = min rest nemChunk + (rest - min rest nemChunk) := by omega
      have hthis : 0 < min rest nemChunk := by
        have hchunk : 0 < nemChunk := by decide
        omega
      generalize min rest nemChunk = this at *
      rw [hret, hput, Int.toNat_natCast]
      have hbytes := memBytes_add user (req.ubuf + done) this (rest - this)
      rw [← hsplit] at hbytes
      have hlen := memBytes_length user (req.ubuf + done) this
      have hle := length_mappedPrefix_le target (req.addr + done) this
      by_cases hshort : (mappedPrefix target (req.addr + done) this).length < this
      · -- the first hole is in this chunk
        rw [hbytes, put_append_of_short (by rwa [hlen]), hsplit, mappedPrefix_add_of_short hshort]
        by_cases hnone : (mappedPrefix target (req.addr + done) this).length = 0
        · rw [dif_pos (by omega), hnone, Nat.add_zero]
        · rw [dif_neg (by omega), if_pos hshort]
      · have hfull : (mappedPrefix target (req.addr + done) this).length = this := by omega
        have hprefix := mappedPrefix_add hfull (rest - this)
        rw [← hsplit] at hprefix
        rw [dif_neg (by omega), if_neg hshort, hfull, ih (rest - this) (by omega) (by omega) _
          (by omega), hbytes, put_append_of_full (by rw [hlen, hfull]), hlen,
          length_mappedPrefix_put, hprefix, List.length_append, hfull]
        simp only [Nat.add_assoc]
    · rw [dif_neg hmore, show rest = 0 by omega]
      simp [mappedPrefix, memBytes, put]

/-- One ioctl writes all that is mapped, up to the first hole. -/
theorem doWrite_eq (req : Rw) (user : UserMem) (hm : m.Quiet) (hpid : (m.getTask req.pid).isSome)
    (hstores : m.StoresMapped req.pid) (haddr : req.addr + req.len ≤ usizeMax)
    (hubuf : req.ubuf + req.len ≤ usizeMax) (target : TargetMem) :
    doWrite m req user target =
      (.ok { req with done := (mappedPrefix target req.addr req.len).length },
        put target req.addr (memBytes user req.ubuf req.len)) := by
  rw [doWrite, hm.copyIn, if_neg (by simp), if_neg (by omega),
    if_neg (by simpa [Option.isSome_iff_ne_none] using hpid)]
  by_cases hzero : req.len = 0
  · rw [if_pos hzero, hm.copyOut, if_pos rfl, hzero]
    simp [mappedPrefix, memBytes, put]
  · rw [if_neg hzero, hm.kvmalloc _ (Nat.min_le_right _ _), if_neg (by simp),
      transferWriteLoop_eq hm hstores haddr (Nat.zero_le _)]
    simp only [Nat.add_zero, Nat.zero_add, Nat.sub_zero, hm.copyOut, if_true]

theorem writeMem_eq {pid : ℤ} {addr : ℕ} {buf : Buffer} (hm : m.Quiet)
    (hpid : (m.getTask pid).isSome) (hstores : m.StoresMapped pid)
    (haddr : addr + buf.len ≤ usizeMax) (target : TargetMem) :
    writeMem m pid addr buf user target =
      (.ok (mappedPrefix target addr buf.len).length,
        put target addr (memBytes user buf.ptr buf.len)) := by
  rw [writeMem, writeLoop]
  by_cases hlen : buf.len = 0
  · rw [dif_neg (by omega), hlen]
    simp [mappedPrefix, memBytes, put]
  · have hle := length_mappedPrefix_le target addr buf.len
    have hwrite := doWrite_eq ⟨pid, addr, buf.len, buf.ptr, 0⟩ user hm hpid hstores haddr buf.fits
      target
    rw [dif_pos (by omega), checkedAdd_of_le (by omega)]
    simp only [Nat.add_zero, Nat.sub_zero, Nat.zero_add, hwrite]
    split
    · rfl
    · rw [writeLoop, dif_neg (by omega)]

end Quiet

end Nemclass.Kernel
