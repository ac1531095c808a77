import Nemclass.Process.KernelBackend

/-! The backend over `process_vm_readv` and `process_vm_writev`, whose batches go in chunks of as
many regions as one call takes. Batched or one by one, through it or through the module, the typed
reads are the same. -/
namespace Nemclass.Process
open Usize MappedPrefix Scan Kernel

/-- `MAX_IOV` -/
def maxIov : ℕ := 1024

/-- `libc::iovec` of the target. -/
structure Iovec where
  base : ℕ
  len : ℕ

/-- The system calls, given the client's buffers and the target's ranges, and the error number
they leave. -/
structure VmCalls where
  processVmReadv : List Buffer → List Iovec → Client → ℤ × Client
  processVmWritev : List Buffer → List Iovec → Client → ℤ × Client
  errno : Client → ℤ

/-- `slice::chunks` and `chunks_mut` of regions. -/
def chunksOf {α : Type} (n : ℕ) (xs : List α) : List (List α) :=
  if 0 < n ∧ xs ≠ [] then xs.take n :: chunksOf n (xs.drop n) else []
termination_by xs.length
decreasing_by
  rename_i h
  rw [List.length_drop]
  have := List.length_pos_iff.mpr h.2
  omega

/-- One system call for these regions. -/
def iovTransfer (call : List Buffer → List Iovec → Client → ℤ × Client) (errno : Client → ℤ)
    (regions : List (ℕ × Buffer)) : Transfer := fun c =>
  let r := call (regions.map (·.2)) (regions.map fun region => ⟨region.1, region.2.len⟩) c
  if r.1 = -1 then (.error (.errno (errno r.2)), r.2) else (.ok r.1.toNat, r.2)

/-- `IovecProcessMemoryBackend` -/
def iovecBackend (calls : VmCalls) : MemoryBackend where
  readBuf address buf := iovTransfer calls.processVmReadv calls.errno [(address, buf)]
  readBufBatch regions :=
    transfers (iovTransfer calls.processVmReadv calls.errno) 0 (chunksOf maxIov regions)
  writeBuf address buf := iovTransfer calls.processVmWritev calls.errno [(address, buf)]
  writeBufBatch regions :=
    transfers (iovTransfer calls.processVmWritev calls.errno) 0 (chunksOf maxIov regions)

/-- What a system call for these regions returns, with the client afterwards. -/
def VmCalls.readRegions (calls : VmCalls) (regions : List (ℕ × Buffer)) (c : Client) : ℤ × Client :=
  calls.processVmReadv (regions.map (·.2)) (regions.map fun region => ⟨region.1, region.2.len⟩) c

/-- Every region is mapped throughout. -/
def AllMapped (target : TargetMem) (regions : List (ℕ × Buffer)) : Prop :=
  ∀ r ∈ regions, (mappedPrefix target r.1 r.2.len).length = r.2.len

/-- `process_vm_readv` of no more ranges than it takes returns the number of bytes it read, or -1:
all of them where every range is mapped throughout, else fewer. -/
structure VmCalls.Documented (calls : VmCalls) (target : TargetMem) : Prop where
  whole : ∀ (regions : List (ℕ × Buffer)) (c : Client), regions ≠ [] → regions.length ≤ maxIov →
    c.target = target → AllMapped target regions →
      calls.readRegions regions c =
        ((((regions.map (·.2.len)).sum : ℕ) : ℤ), regions.foldl Client.fill c)
  short : ∀ (regions : List (ℕ × Buffer)) (c : Client), regions ≠ [] → regions.length ≤ maxIov →
    c.target = target → ¬AllMapped target regions →
      (calls.readRegions regions c).2.target = target ∧
        -1 ≤ (calls.readRegions regions c).1 ∧
        (calls.readRegions regions c).1 < (regions.map (·.2.len)).sum

section Chunks

variable {α : Type} {n : ℕ}

theorem flatten_chunksOf (hn : 0 < n) (xs : List α) : (chunksOf n xs).flatten = xs := by
  induction hlen : xs.length using Nat.strong_induction_on generalizing xs with
  | _ len ih =>
    rw [chunksOf]
    split
    · rename_i h
      have hpos := List.length_pos_iff.mpr h.2
      rw [List.flatten_cons, ih _ (by rw [List.length_drop]; omega) _ rfl, List.take_append_drop]
    · rename_i h
      rw [List.flatten_nil, not_ne_iff.mp fun hne => h ⟨hn, hne⟩]

theorem of_mem_chunksOf {xs chunk : List α} (h : chunk ∈ chunksOf n xs) :
    chunk ≠ [] ∧ chunk.length ≤ n := by
  induction hlen : xs.length using Nat.strong_induction_on generalizing xs with
  | _ len ih =>
    rw [chunksOf] at h
    split at h
    · rename_i hmore
      have hpos := List.length_pos_iff.mpr hmore.2
      rcases List.mem_cons.mp h with rfl | h
      · refine ⟨List.ne_nil_of_length_pos ?_, ?_⟩ <;> rw [List.length_take] <;> omega
      · exact ih _ (by rw [List.length_drop]; omega) h rfl
    · cases h

end Chunks

section Reads

variable {calls : VmCalls} {target : TargetMem}

theorem foldl_fill_target (regions : List (ℕ × Buffer)) (c : Client) :
    (regions.foldl Client.fill c).target = c.target := by
  induction regions generalizing c with
  | nil => rfl
  | cons r regions ih => exact ih (c.fill r)

theorem iovTransfer_whole (hcalls : calls.Documented target) (regions : List (ℕ × Buffer))
    (c : Client) (hregions : regions ≠ [] ∧ regions.length ≤ maxIov) (hc : c.target = target)
    (hall : AllMapped target regions) :
    iovTransfer calls.processVmReadv calls.errno regions c =
      (.ok (regions.map (·.2.len)).sum, regions.foldl Client.fill c) := by
  have h := hcalls.whole regions c hregions.1 hregions.2 hc hall
  rw [VmCalls.readRegions] at h
  rw [iovTransfer, h]
  dsimp only
  rw [if_neg (by omega), Int.toNat_natCast]

theorem iovTransfer_short (hcalls : calls.Documented target) (regions : List (ℕ × Buffer))
    (c : Client) (hregions : regions ≠ [] ∧ regions.length ≤ maxIov) (hc : c.target = target) :
    (iovTransfer calls.processVmReadv calls.errno regions c).2.target = target ∧
      ∀ n, (iovTransfer calls.processVmReadv calls.errno regions c).1 = .ok n →
        n ≤ (regions.map (·.2.len)).sum ∧
          (n = (regions.map (·.2.len)).sum → AllMapped target regions) := by
  by_cases hall : AllMapped target regions
  · rw [iovTransfer_whole hcalls regions c hregions hc hall]
    refine ⟨(foldl_fill_target regions c).trans hc, fun n hn => ?_⟩
    cases hn
    exact ⟨Nat.le_refl _, fun _ => hall⟩
  · obtain ⟨htarget, hleast, hless⟩ := hcalls.short regions c hregions.1 hregions.2 hc hall
    rw [VmCalls.readRegions] at htarget hleast hless
    simp only [iovTransfer]
    split
    · exact ⟨htarget, fun n hn => by cases hn⟩
    · refine ⟨htarget, fun n hn => ?_⟩
      cases hn
      exact ⟨by omega, fun heq => by omega⟩

theorem single_fits (region : ℕ × Buffer) : [region] ≠ [] ∧ [region].length ≤ maxIov :=
  ⟨List.cons_ne_nil _ _, Nat.one_le_iff_ne_zero.mpr (by decide)⟩

theorem allMapped_single {region : ℕ × Buffer} : AllMapped target [region] ↔
    (mappedPrefix target region.1 region.2.len).length = region.2.len := List.forall_mem_singleton

theorem sum_chunks (regions : List (ℕ × Buffer)) :
    ((chunksOf maxIov regions).map fun chunk => (chunk.map (·.2.len)).sum).sum =
      (regions.map (·.2.len)).sum := by
  conv_rhs => rw [← flatten_chunksOf (show 0 < maxIov by decide) regions]
  rw [List.map_flatten, List.sum_flatten, List.map_map]
  rfl

theorem allMapped_chunks {regions : List (ℕ × Buffer)} :
    (∀ chunk ∈ chunksOf maxIov regions, AllMapped target chunk) ↔ AllMapped target regions := by
  conv_rhs => rw [← flatten_chunksOf (show 0 < maxIov by decide) regions]
  exact List.forall_mem_flatten.symm

/-- What `process_vm_readv` brings, in however many calls. -/
theorem iovecBackend_reads (hcalls : calls.Documented target) :
    (iovecBackend calls).Reads target where
  whole region c hc hwhole :=
    iovTransfer_whole hcalls [region] c (single_fits region) hc (allMapped_single.mpr hwhole)
  short region c hc hn :=
    allMapped_single.mp (((iovTransfer_short hcalls [region] c (single_fits region) hc).2 _ hn).2
      List.sum_singleton.symm)
  wholeBatch regions c hc hall := by
    have h : (iovecBackend calls).readBufBatch regions c = _ :=
      transfers_whole (P := fun c => c.target = target)
        (fun chunk : List (ℕ × Buffer) => (chunk.map (·.2.len)).sum) (List.foldl Client.fill) hc
        fun chunk hchunk c hc =>
          ⟨iovTransfer_whole hcalls chunk c (of_mem_chunksOf hchunk) hc
            (allMapped_chunks.mpr hall chunk hchunk), (foldl_fill_target chunk c).trans hc⟩
    rw [h, Nat.zero_add, sum_chunks, ← List.foldl_flatten, flatten_chunksOf (by decide)]
  shortBatch regions c hc hn := by
    have h := (transfers_short (P := fun c => c.target = target)
      (fun chunk : List (ℕ × Buffer) => (chunk.map (·.2.len)).sum) (AllMapped target) hc
      (fun chunk hchunk c hc => iovTransfer_short hcalls chunk c (of_mem_chunksOf hchunk) hc) hn).2
    exact allMapped_chunks.mp (h (by rw [Nat.zero_add, sum_chunks]))

end Reads

/-- `Process::read` of one address after another. -/
def MemoryBackend.readEach (B : MemoryBackend) (value : Buffer) :
    List ℕ → Client → Except Scan.Error (List (List UInt8)) × Client
  | [], c => (.ok [], c)
  | address :: addresses, c =>
    match B.read address value c with
    | (.error e, c) => (.error e, c)
    | (.ok v, c) =>
      match B.readEach value addresses c with
      | (.error e, c) => (.error e, c)
      | (.ok vs, c) => (.ok (v :: vs), c)

theorem read_keeps {B : MemoryBackend} {target : TargetMem} (hB : B.Reads target) {address : ℕ}
    {value : Buffer} {c : Client} (hc : c.target = target) {v : List UInt8}
    (hv : (B.read address value c).1 = .ok v) : (B.read address value c).2.target = target := by
  have hwhole := hB.whole (address, value)
    { c with user := store c.user value.ptr (.replicate value.len 0) } hc
  have hmapped := read_eq hB address value hc
  rw [hv, wholeRead] at hmapped
  split at hmapped
  · rename_i h
    rw [MemoryBackend.read]
    dsimp only at hwhole ⊢
    rw [hwhole h]
    simp only [ne_eq, not_true_eq_false, if_false, Client.fill, hc]
  · cases hmapped

theorem readEach_eq {B : MemoryBackend} {target : TargetMem} (hB : B.Reads target)
    (value : Buffer) (addresses : List ℕ) {c : Client} (hc : c.target = target) :
    (B.readEach value addresses c).1.toOption =
      addresses.mapM (wholeRead target · value.len) := by
  induction addresses generalizing c with
  | nil => rfl
  | cons address addresses ih =>
    have hread := read_eq hB address value hc
    have hkeeps (v : List UInt8) (hv : (B.read address value c).1 = .ok v) :
        (B.read address value c).2.target = target := read_keeps hB hc hv
    rw [MemoryBackend.readEach, List.mapM_cons, ← hread]
    generalize B.read address value c = r at *
    obtain ⟨e | v, c'⟩ := r
    · rfl
    · have hrest := ih (hkeeps v rfl)
      dsimp only
      generalize B.readEach value addresses c' = r' at *
      obtain ⟨e | vs, c''⟩ := r'
      · rw [← hrest]
        rfl
      · rw [← hrest]
        rfl

/-- Batched or one by one, through the module or through `process_vm_readv`: typed reads bring the
same values, and fail in the same cases, which are those where an address is not mapped
throughout. -/
theorem readBatch_eq_readEach {target : TargetMem} (hbelow : Below target)
    {device : TargetMem → WriteMachine} {pid : ℤ} (hserves : Serves device pid target)
    {calls : VmCalls} (hcalls : calls.Documented target) (addresses : List ℕ) (value : Buffer)
    (alloc : ℕ → Buffer) (hfits : value.len * addresses.length ≤ usizeMax)
    (halloc : (alloc (value.len * addresses.length)).len = value.len * addresses.length)
    (c : Client) (hc : c.target = target) :
    ∀ B ∈ [kernelBackend device pid, iovecBackend calls],
      (B.readBatch value.len addresses alloc c).1.toOption =
        addresses.mapM (wholeRead target · value.len) ∧
      (B.readEach value addresses c).1.toOption =
        addresses.mapM (wholeRead target · value.len) := by
  have heq : ∀ B : MemoryBackend, B.Reads target →
      (B.readBatch value.len addresses alloc c).1.toOption =
        addresses.mapM (wholeRead target · value.len) ∧
      (B.readEach value addresses c).1.toOption =
        addresses.mapM (wholeRead target · value.len) := fun B hB =>
    ⟨readBatch_eq hB hfits halloc hc, readEach_eq hB value addresses hc⟩
  intro B hmem
  rcases List.mem_cons.mp hmem with rfl | hmem
  · exact heq _ (kernelBackend_reads hserves hbelow)
  · cases List.mem_singleton.mp hmem
    exact heq _ (iovecBackend_reads hcalls)

instance (target : TargetMem) (regions : List (ℕ × Buffer)) :
    Decidable (AllMapped target regions) := by unfold AllMapped; infer_instance

/-- System calls that read all of their ranges or fail. -/
def allOrNone : VmCalls where
  processVmReadv buffers ranges c :=
    let regions := (ranges.map Iovec.base).zip buffers
    if AllMapped c.target regions then
      (((regions.map (·.2.len)).sum : ℕ), regions.foldl Client.fill c)
    else (-1, c)
  processVmWritev _ _ c := (-1, c)
  errno _ := efault

theorem allOrNone_readRegions (regions : List (ℕ × Buffer)) (c : Client) :
    allOrNone.readRegions regions c =
      if AllMapped c.target regions then
        ((((regions.map (·.2.len)).sum : ℕ) : ℤ), regions.foldl Client.fill c)
      else (-1, c) := by
  have hzip : ((regions.map fun region => (⟨region.1, region.2.len⟩ : Iovec)).map Iovec.base).zip
      (regions.map (·.2)) = regions := by
    rw [List.map_map, List.zip_map']
    exact List.map_id regions
  simp only [VmCalls.readRegions, allOrNone, hzip]

theorem allOrNone_documented (target : TargetMem) : allOrNone.Documented target where
  whole regions c _ _ hc hall := by rw [allOrNone_readRegions, if_pos (hc ▸ hall)]
  short regions c _ _ hc hall := by
    rw [allOrNone_readRegions, if_neg (hc ▸ hall)]
    exact ⟨hc, Int.le_refl _, by omega⟩

theorem readBatch_eq_readEach_two :
    ((iovecBackend allOrNone).readBatch 1 [4096, 4097] (fun _ => ⟨8192, 2, by decide⟩)
        ⟨fun _ => 0, twoBytes⟩).1.toOption = [4096, 4097].mapM (wholeRead twoBytes · 1) ∧
      ((iovecBackend allOrNone).readEach ⟨8192, 1, by decide⟩ [4096, 4097]
        ⟨fun _ => 0, twoBytes⟩).1.toOption = [4096, 4097].mapM (wholeRead twoBytes · 1) :=
  readBatch_eq_readEach
    (fun a ha => if_neg (by simp only [usizeMax] at ha; omega)) (honest_serves twoBytes)
    (allOrNone_documented twoBytes) [4096, 4097] ⟨8192, 1, by decide⟩
    (fun _ => ⟨8192, 2, by decide⟩) (by decide) rfl ⟨fun _ => 0, twoBytes⟩ rfl _
    (List.mem_cons_of_mem _ List.mem_cons_self)

end Nemclass.Process
