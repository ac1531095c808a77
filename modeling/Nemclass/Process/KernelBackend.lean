import Nemclass.Process.Backends

/-! The backend that goes through the module. Over any run of its calls the target is a memory
with holes: what was written stays until it is written over, and is what a read brings. -/
namespace Nemclass.Process
open Usize MappedPrefix Scan Kernel Trace

/-- `KernelBackend`: the module, which may find another machine at each memory of the target. -/
def kernelBackend (device : TargetMem → WriteMachine) (pid : ℤ) : MemoryBackend where
  readBuf address buf c :=
    let r := readMem (device c.target).toMachine pid address buf c.user
    (r.1, { c with user := r.2 })
  readBufBatch := transfers (fun region c =>
    let r := readMem (device c.target).toMachine pid region.1 region.2 c.user
    (r.1, { c with user := r.2 })) 0
  writeBuf address buf c :=
    let r := writeMem (device c.target) pid address buf c.user c.target
    (r.1, { c with target := r.2 })
  writeBufBatch := transfers (fun region c =>
    let r := writeMem (device c.target) pid region.1 region.2 c.user c.target
    (r.1, { c with target := r.2 })) 0

/-- The target lives, nothing gets in the way, and `access_process_vm` copies what is mapped. -/
structure Serves (device : TargetMem → WriteMachine) (pid : ℤ) (target : TargetMem) : Prop where
  quiet : (device target).Quiet
  reads : ∃ task, (device target).getTask pid = some task ∧ task.CopiesMapped target
  stores : (device target).StoresMapped pid

/-- Nothing is mapped at the very top of the address space. -/
def Below (target : TargetMem) : Prop := ∀ a, usizeMax ≤ a → target a = none

section Plain

variable {device : TargetMem → WriteMachine} {pid : ℤ} {target : TargetMem}

/-- A range that goes beyond the address space is refused. -/
theorem readMem_wraps {m : Machine} {buf : Buffer} {addr : ℕ} (hlen : 0 < buf.len)
    (hwraps : usizeMax < addr + buf.len) (user : UserMem) (n : ℕ) :
    (readMem m pid addr buf user).1 ≠ .ok n := by
  intro h
  rw [readMem, readLoop, dif_pos hlen] at h
  split at h
  · cases h
  · rename_i target' htarget
    obtain ⟨rfl, -⟩ := checkedAdd_eq_some.mp htarget
    have hread : (doRead m ⟨pid, addr + 0, buf.len - 0, buf.ptr + 0, 0⟩ user).1 =
        .error (-efault) ∨ (doRead m ⟨pid, addr + 0, buf.len - 0, buf.ptr + 0, 0⟩ user).1 =
        .error (-einval) := by
      rw [doRead]
      split
      · exact .inl rfl
      · rw [if_pos (.inl (by dsimp only; omega))]
        exact .inr rfl
    generalize doRead m _ user = r at *
    obtain ⟨ret | arg, user'⟩ := r
    · cases h
    · simp at hread

theorem kernel_whole (hserves : Serves device pid target) (hbelow : Below target)
    {region : ℕ × Buffer} {c : Client} (hc : c.target = target)
    (hwhole : (mappedPrefix target region.1 region.2.len).length = region.2.len) :
    (kernelBackend device pid).readBuf region.1 region.2 c = (.ok region.2.len, c.fill region) := by
  obtain ⟨task, htask, hcopies⟩ := hserves.reads
  subst hc
  simp only [kernelBackend, Client.fill]
  by_cases hlen : region.2.len = 0
  · rw [readMem_empty hlen, hlen]
    simp [mappedPrefix, store_nil]
  · have hfits : region.1 + region.2.len ≤ usizeMax := by
      by_contra hover
      have hlast := mappedPrefix_getElem c.target region.1 region.2.len (i := region.2.len - 1)
        (by omega)
      rw [hbelow _ (by omega)] at hlast
      cases hlast
    rw [readMem_eq hserves.quiet.toQuiet htask hcopies hfits, hwhole]

theorem kernel_short (hserves : Serves device pid target) {region : ℕ × Buffer} {c : Client}
    (hc : c.target = target) {n : ℕ}
    (hn : ((kernelBackend device pid).readBuf region.1 region.2 c).1 = .ok n) :
    n ≤ region.2.len ∧
      (n = region.2.len → (mappedPrefix target region.1 region.2.len).length = region.2.len) := by
  obtain ⟨task, htask, hcopies⟩ := hserves.reads
  subst hc
  simp only [kernelBackend] at hn
  by_cases hlen : region.2.len = 0
  · rw [readMem_empty hlen] at hn
    cases hn
    exact ⟨Nat.zero_le _, fun h => by rw [← h]; rfl⟩
  · by_cases hfits : region.1 + region.2.len ≤ usizeMax
    · rw [readMem_eq hserves.quiet.toQuiet htask hcopies hfits] at hn
      cases hn
      exact ⟨length_mappedPrefix_le _ _ _, id⟩
    · exact absurd hn (readMem_wraps (by omega) (by omega) _ _)

/-- What the module's reads bring. -/
theorem kernelBackend_reads (hserves : Serves device pid target) (hbelow : Below target) :
    (kernelBackend device pid).Reads target where
  whole _ _ hc hwhole := kernel_whole hserves hbelow hc hwhole
  short _ _ hc hn := (kernel_short hserves hc hn).2 rfl
  wholeBatch regions c hc hall := by
    have h : (kernelBackend device pid).readBufBatch regions c = _ :=
      transfers_whole (P := fun c => c.target = target) (fun r : ℕ × Buffer => r.2.len)
        Client.fill hc fun r hr c hc => ⟨kernel_whole hserves hbelow hc (hall r hr), hc⟩
    rw [h, Nat.zero_add]
  shortBatch regions c hc hn :=
    (transfers_short (P := fun c => c.target = target) (fun r : ℕ × Buffer => r.2.len)
      (fun r => (mappedPrefix target r.1 r.2.len).length = r.2.len) hc
      (fun r _ c hc => ⟨hc, fun n hn => kernel_short hserves hc hn⟩) hn).2 (Nat.zero_add _).symm

end Plain

section Runs

inductive Op where
  | readBuf (address : ℕ) (buf : Buffer)
  | readBufBatch (regions : List (ℕ × Buffer))
  | writeBuf (address : ℕ) (buf : Buffer)
  | writeBufBatch (regions : List (ℕ × Buffer))

/-- The regions of a call. -/
def Op.regions : Op → List (ℕ × Buffer)
  | readBuf address buf | writeBuf address buf => [(address, buf)]
  | readBufBatch regions | writeBufBatch regions => regions

/-- The regions a call writes in the target. -/
def Op.written : Op → List (ℕ × Buffer)
  | readBuf _ _ | readBufBatch _ => []
  | writeBuf address buf => [(address, buf)]
  | writeBufBatch regions => regions

/-- The regions of a call lie in the address space. -/
def Op.Fits (op : Op) : Prop := ∀ r ∈ op.regions, r.1 + r.2.len ≤ usizeMax

/-- A call writes nothing in a range of the target. -/
def Op.Spares (op : Op) (addr len : ℕ) : Prop :=
  ∀ r ∈ op.written, r.1 + r.2.len ≤ addr ∨ addr + len ≤ r.1

def MemoryBackend.step (B : MemoryBackend) (c : Client) : Op → Except Scan.Error ℕ × Client
  | .readBuf address buf => B.readBuf address buf c
  | .readBufBatch regions => B.readBufBatch regions c
  | .writeBuf address buf => B.writeBuf address buf c
  | .writeBufBatch regions => B.writeBufBatch regions c

/-- The target takes up what a region's buffer holds. -/
def Client.drain (c : Client) (region : ℕ × Buffer) : Client :=
  { c with target := put c.target region.1 (memBytes c.user region.2.ptr region.2.len) }

theorem drain_outside (c : Client) {r : ℕ × Buffer} {a : ℕ} (h : a < r.1 ∨ r.1 + r.2.len ≤ a) :
    (c.drain r).target a = c.target a := put_outside _ (by rwa [memBytes_length])

/-- How many bytes of a region go through. -/
def Client.mapped (c : Client) (region : ℕ × Buffer) : ℕ :=
  (mappedPrefix c.target region.1 region.2.len).length

/-- A memory with holes, without a module in between. -/
def plain : MemoryBackend where
  readBuf address buf c := (.ok (c.mapped (address, buf)), c.fill (address, buf))
  readBufBatch := transfers (fun region c => (.ok (c.mapped region), c.fill region)) 0
  writeBuf address buf c := (.ok (c.mapped (address, buf)), c.drain (address, buf))
  writeBufBatch := transfers (fun region c => (.ok (c.mapped region), c.drain region)) 0

theorem transfers_congr {β : Type} {f g : β → Transfer} {parts : List β}
    (h : ∀ p ∈ parts, ∀ c, f p c = g p c) (total : ℕ) (c : Client) :
    transfers f total parts c = transfers g total parts c := by
  induction parts generalizing total c with
  | nil => rfl
  | cons p parts ih =>
    rw [transfers, transfers, h p List.mem_cons_self]
    simp only [ih fun q hq => h q (List.mem_cons_of_mem p hq)]

/-- What every transfer keeps, a batch keeps. -/
theorem transfers_keeps {β : Type} {f : β → Transfer} {P : Client → Prop} {parts : List β}
    (h : ∀ p ∈ parts, ∀ c, P c → P (f p c).2) {total : ℕ} {c : Client} (hc : P c) :
    P (transfers f total parts c).2 := by
  induction parts generalizing total c with
  | nil => exact hc
  | cons p parts ih =>
    have hp := h p List.mem_cons_self c hc
    rw [transfers]
    generalize f p c = r at *
    obtain ⟨_ | n, c'⟩ := r
    · exact hp
    · exact ih (fun q hq => h q (List.mem_cons_of_mem p hq)) hp

variable {device : TargetMem → WriteMachine} {pid : ℤ}

/-- Through the module the target is a memory with holes. -/
theorem step_eq (hserves : ∀ target, Serves device pid target) {op : Op} (hfits : op.Fits)
    (c : Client) :
    (kernelBackend device pid).step c op = plain.step c op := by
  have hread : ∀ (r : ℕ × Buffer) (c : Client), r.1 + r.2.len ≤ usizeMax →
      (kernelBackend device pid).readBuf r.1 r.2 c = (.ok (c.mapped r), c.fill r) := by
    intro r c hr
    obtain ⟨task, htask, hcopies⟩ := (hserves c.target).reads
    simp only [kernelBackend, readMem_eq (hserves c.target).quiet.toQuiet htask hcopies hr]
    rfl
  have hwrite : ∀ (r : ℕ × Buffer) (c : Client), r.1 + r.2.len ≤ usizeMax →
      (kernelBackend device pid).writeBuf r.1 r.2 c = (.ok (c.mapped r), c.drain r) := by
    intro r c hr
    obtain ⟨task, htask, -⟩ := (hserves c.target).reads
    have hlives : ((device c.target).getTask pid).isSome := by rw [htask]; rfl
    simp only [kernelBackend,
      writeMem_eq (hserves c.target).quiet hlives (hserves c.target).stores hr]
    rfl
  cases op with
  | readBuf address buf => exact hread (address, buf) c (hfits _ (List.mem_singleton_self _))
  | readBufBatch regions => exact transfers_congr (fun r hr c => hread r c (hfits r hr)) 0 c
  | writeBuf address buf => exact hwrite (address, buf) c (hfits _ (List.mem_singleton_self _))
  | writeBufBatch regions => exact transfers_congr (fun r hr c => hwrite r c (hfits r hr)) 0 c

/-- What no write of a region changes, no call changes. -/
theorem plain_keeps {P : TargetMem → Prop} {op : Op} {c : Client}
    (h : ∀ r ∈ op.written, ∀ c : Client, P c.target → P (c.drain r).target) (hc : P c.target) :
    P (plain.step c op).2.target := by
  cases op with
  | readBuf address buf => exact hc
  | readBufBatch regions =>
    exact transfers_keeps (P := fun c => P c.target) (fun r _ c hc => hc) hc
  | writeBuf address buf => exact h _ (List.mem_singleton_self _) c hc
  | writeBufBatch regions => exact transfers_keeps (P := fun c => P c.target) h hc

theorem plain_run_keeps {P : TargetMem → Prop} {ops : List Op} {c : Client}
    (h : ∀ op ∈ ops, ∀ r ∈ op.written, ∀ c : Client, P c.target → P (c.drain r).target)
    (hc : P c.target) : P (final plain.step c ops).target := by
  induction ops generalizing c with
  | nil => exact hc
  | cons op ops ih =>
    rw [final_cons]
    exact ih (fun op' hop' => h op' (List.mem_cons_of_mem op hop'))
      (plain_keeps (h op List.mem_cons_self) hc)

/-- A run does not move the holes. -/
theorem isSome_plain_run (c : Client) (ops : List Op) (a : ℕ) :
    ((final plain.step c ops).target a).isSome = (c.target a).isSome :=
  plain_run_keeps (P := fun target => (target a).isSome = (c.target a).isSome)
    (fun _ _ r _ c' hc' => (isSome_put c'.target r.1 _ a).trans hc') rfl

/-- A run that writes nothing in a range leaves it. -/
theorem plain_run_spares {c : Client} {ops : List Op} {addr len : ℕ}
    (h : ∀ op ∈ ops, op.Spares addr len) {k : ℕ} (hk : k < len) :
    (final plain.step c ops).target (addr + k) = c.target (addr + k) := by
  refine plain_run_keeps (P := fun target => target (addr + k) = c.target (addr + k))
    (fun op hop r hr c' hc' => ?_) rfl
  have hapart := h op hop r hr
  exact (drain_outside c' (by omega)).trans hc'

theorem run_eq (hserves : ∀ target, Serves device pid target) {ops : List Op}
    (hfits : ∀ op ∈ ops, op.Fits) (c : Client) :
    final (kernelBackend device pid).step c ops = final plain.step c ops := by
  induction ops generalizing c with
  | nil => rfl
  | cons op ops ih =>
    rw [final_cons, final_cons, step_eq hserves (hfits op List.mem_cons_self),
      ih fun op' hop' => hfits op' (List.mem_cons_of_mem op hop')]

/-- Whatever calls went before and whatever calls come between that spare its range, a write
through the module takes the longest prefix of its range that is mapped throughout, and a read of
the range then brings exactly these bytes. -/
theorem read_back (hserves : ∀ target, Serves device pid target) (c : Client)
    (earlier later : List Op) (addr : ℕ) (buf out : Buffer) (hout : out.len = buf.len)
    (hfits : ∀ op ∈ earlier ++ .writeBuf addr buf :: later, op.Fits)
    (hspares : ∀ op ∈ later, op.Spares addr buf.len) :
    let B := kernelBackend device pid
    let written := final B.step c earlier
    let last := B.step (final B.step c (earlier ++ .writeBuf addr buf :: later)) (.readBuf addr out)
    ∃ n, LongestMapped c.target addr buf.len n ∧
      (B.step written (.writeBuf addr buf)).1 = .ok n ∧ last.1 = .ok n ∧
      memBytes last.2.user out.ptr n = memBytes written.user buf.ptr n := by
  have hwrite : Op.Fits (.writeBuf addr buf) := hfits _ (by simp)
  have hread : Op.Fits (.readBuf addr out) := fun r hr => by
    cases List.mem_singleton.mp hr
    rw [hout]
    exact hwrite (addr, buf) (List.mem_singleton_self _)
  have hearlier : ∀ op ∈ earlier, op.Fits := fun op hop => hfits op (List.mem_append_left _ hop)
  dsimp only
  rw [run_eq hserves hfits, run_eq hserves hearlier, step_eq hserves hwrite, step_eq hserves hread,
    final_append, final_cons]
  generalize hw : final plain.step c earlier = written
  have hmapped : ∀ addr len, (mappedPrefix written.target addr len).length =
      (mappedPrefix c.target addr len).length :=
    length_mappedPrefix_congr fun a => hw ▸ isSome_plain_run c earlier a
  -- what the range holds when it is read is what the write left there
  have hrange : mappedPrefix (final plain.step (plain.step written (.writeBuf addr buf)).2
      later).target addr buf.len =
      (memBytes written.user buf.ptr buf.len).take
        (mappedPrefix written.target addr buf.len).length := by
    rw [mappedPrefix_congr fun k hk => plain_run_spares hspares hk]
    have hput := mappedPrefix_put written.target addr (memBytes written.user buf.ptr buf.len)
    rwa [memBytes_length] at hput
  generalize final plain.step (plain.step written (.writeBuf addr buf)).2 later = s at *
  have hle := length_mappedPrefix_le written.target addr buf.len
  rw [memBytes_take _ _ hle] at hrange
  refine ⟨_, longestMapped_length c.target addr buf.len, ?_, ?_, ?_⟩
  · exact congrArg Except.ok (hmapped addr buf.len)
  · have hlen : s.mapped (addr, out) = (mappedPrefix c.target addr buf.len).length := by
      rw [Client.mapped, hout, hrange, memBytes_length, hmapped]
    exact congrArg Except.ok hlen
  · rw [← hmapped]
    have hbytes := memBytes_store s.user out.ptr (mappedPrefix s.target addr out.len)
    rw [hout, hrange, memBytes_length] at hbytes
    simpa only [MemoryBackend.step, plain, Client.fill, hout, hrange] using hbytes

theorem honest_serves (target : TargetMem) : Serves honest 7 target where
  quiet :=
    { copyIn := rfl, copyOut := rfl, kvmalloc := fun _ _ => rfl, noSignal := fun _ => rfl,
      noFault := fun _ _ => rfl, copyChunk := fun _ _ => rfl }
  reads := ⟨_, rfl, fun _ _ _ _ => ⟨rfl, List.take_length⟩⟩
  stores _ _ _ _ _ := ⟨rfl, rfl⟩

theorem read_back_two :
    let B := kernelBackend honest 7
    let c : Client := ⟨fun _ => 0x5A, twoBytes⟩
    let last := B.step (final B.step c ([] ++ .writeBuf 4096 ⟨8192, 3, by decide⟩ ::
      [.writeBuf 4099 ⟨8192, 3, by decide⟩])) (.readBuf 4096 ⟨8200, 3, by decide⟩)
    ∃ n, LongestMapped c.target 4096 3 n ∧
      (B.step (final B.step c []) (.writeBuf 4096 ⟨8192, 3, by decide⟩)).1 = .ok n ∧
      last.1 = .ok n ∧ memBytes last.2.user 8200 n = memBytes (final B.step c []).user 8192 n := by
  refine read_back honest_serves ⟨fun _ => 0x5A, twoBytes⟩ [] [.writeBuf 4099 ⟨8192, 3, by decide⟩]
    4096 ⟨8192, 3, by decide⟩ ⟨8200, 3, by decide⟩ rfl ?_ ?_
  · intro op hop r hr
    simp only [List.nil_append, List.mem_cons, List.not_mem_nil, or_false] at hop
    rcases hop with rfl | rfl <;> cases List.mem_singleton.mp hr <;> decide
  · intro op hop r hr
    cases List.mem_singleton.mp hop
    cases List.mem_singleton.mp hr
    exact .inr (by decide)

end Runs

end Nemclass.Process
