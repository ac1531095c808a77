import Mathlib.Data.List.Destutter
import Nemclass.Analysis.Disassemble
import Nemclass.Analysis.RegionIndex
import Nemclass.Analysis.Strings

/-! Dissect Code: the calls, jumps and string references of some regions, which are
read and disassembled in chunks that overlap. -/
namespace Nemclass.Analysis
open Scan Sweep

/-- How much of a region one pass covers. -/
def chunkBytes : ℕ := 256 * 1024

/-- What is read past the end of a pass, for an instruction that straddles it. -/
def chunkOverlap : ℕ := 16

def stringProbeBytes : ℕ := 128

def minStringLen : ℕ := 4

def previewMax : ℕ := 64

/-- The referring sites of each address; an address without an entry has none. -/
structure DissectResult where
  calls : ℕ → List ℕ
  jumps : ℕ → List ℕ
  strings : ℕ → List ℕ
  stringPreviews : ℕ → Option String

namespace DissectResult

def empty : DissectResult := ⟨fun _ => [], fun _ => [], fun _ => [], fun _ => none⟩

/-- In ascending order, equal neighbours collapsed. -/
def sortedSites (sites : List ℕ) : List ℕ := (sites.mergeSort (· ≤ ·)).destutter (· ≠ ·)

def sortDedup (result : DissectResult) : DissectResult :=
  { result with
    calls := fun addr => sortedSites (result.calls addr)
    jumps := fun addr => sortedSites (result.jumps addr)
    strings := fun addr => sortedSites (result.strings addr) }

end DissectResult

/-- The printable run at an address, cut to the length of a preview. -/
def readStringAt (read : ReadBuf) (addr : ℕ) : Option String :=
  match read addr stringProbeBytes with
  | .error _ => none
  | .ok buf =>
    if buf.val = [] then none
    else (stringAt buf.val 0 minStringLen).map fun run =>
      if previewMax < run.text.length then
        (String.ofList (run.text.toList.take previewMax)).push '…'
      else run.text

/-- Adds a site to the referrers of an address. -/
def addSite (sites : ℕ → List ℕ) (addr site : ℕ) : ℕ → List ℕ :=
  Function.update sites addr (sites addr ++ [site])

/-- Where a direct branch lands in executable memory, its target has one more referrer. -/
def recordBranch (index : RegionIndex) (result : DissectResult) (ins : InstructionData) :
    DissectResult :=
  match ins.kind, ins.target with
  | .call, some target =>
    if index.isExecutable target then
      { result with calls := addSite result.calls target ins.address }
    else result
  | .jump, some target | .condJump, some target =>
    if index.isExecutable target then
      { result with jumps := addSite result.jumps target ins.address }
    else result
  | _, _ => result

/-- Where a memory operand names a printable string, the string has one more referrer. -/
def recordMemTarget (read : ReadBuf) (result : DissectResult) (ins : InstructionData) :
    DissectResult :=
  match ins.memTarget with
  | none => result
  | some mem =>
    match readStringAt read mem with
    | none => result
    | some text =>
      { result with
        strings := addSite result.strings mem ins.address
        stringPreviews := Function.update result.stringPreviews mem
          (some ((result.stringPreviews mem).getD text)) }

/-- Buckets one instruction's outbound references. -/
def recordInstruction (read : ReadBuf) (index : RegionIndex) (result : DissectResult)
    (ins : InstructionData) : DissectResult :=
  recordMemTarget read (recordBranch index result ins) ins

section Walk
variable (decoder : InstructionDecoder) (read : ReadBuf)

/-- One pass: what is recorded of the bytes read at `chunkAddr`, and how far behind `chunkAddr` the
last recorded instruction ends. -/
def recordChunk {σ : Type} (record : σ → InstructionData → σ) (buf : List UInt8)
    (chunkAddr want : ℕ) (isLast : Bool) (s : σ) : σ × ℕ :=
  decoder.disassembleInstructions false (fun (s, lastEnd) ins =>
    let rel := ins.address - chunkAddr
    if !isLast && want ≤ rel then ((s, lastEnd), false)
    else ((record s ins, rel + ins.length), true)) buf chunkAddr (s, 0)

/-- The passes over the `total` bytes at `start` that begin at `pos` or behind it. -/
def walkRegion {σ : Type} (record : σ → InstructionData → σ) (start total pos : ℕ) (s : σ) : σ :=
  if pos < total then
    let chunkAddr := start + pos
    let want := min (total - pos) chunkBytes
    let readLen := min (total - pos) (chunkBytes + chunkOverlap)
    match read chunkAddr readLen with
    | .error _ => s
    | .ok buf =>
      if buf.val = [] then s
      else
        let isLast := total ≤ pos + want
        match recordChunk decoder record buf.val chunkAddr want isLast s with
        | (s, 0) => s
        | (s, lastEnd + 1) => walkRegion record start total (pos + (lastEnd + 1)) s
  else s
termination_by total - pos

/-- Disassembles every region and collects its references. -/
def dissectRegions (maps : Option (List Section)) (regions : List (ℕ × ℕ)) :
    Except Error DissectResult := do
  let index ← RegionIndex.fromPid maps
  let result := regions.foldl (fun result (start, stop) =>
    if stop ≤ start then result
    else walkRegion decoder read (recordInstruction read index) start (stop - start) 0 result)
    .empty
  return result.sortDedup

end Walk

section References
variable (read : ReadBuf) (index : RegionIndex)

def callsTo (addr : ℕ) (ins : InstructionData) : Bool :=
  ins.kind = .call ∧ ins.target = some addr ∧ index.isExecutable addr

def jumpsTo (addr : ℕ) (ins : InstructionData) : Bool :=
  (ins.kind = .jump ∨ ins.kind = .condJump) ∧ ins.target = some addr ∧ index.isExecutable addr

def namesString (addr : ℕ) (ins : InstructionData) : Bool :=
  ins.memTarget = some addr ∧ (readStringAt read addr).isSome

/-- Where the instructions of a kind are. -/
def sites (p : InstructionData → Bool) (instructions : List InstructionData) : List ℕ :=
  (instructions.filter p).map InstructionData.address

/-- The references of some instructions, those to one address in ascending order and each once. -/
def references (instructions : List InstructionData) : DissectResult where
  calls addr := DissectResult.sortedSites (sites (callsTo index addr) instructions)
  jumps addr := DissectResult.sortedSites (sites (jumpsTo index addr) instructions)
  strings addr := DissectResult.sortedSites (sites (namesString read addr) instructions)
  stringPreviews addr :=
    if instructions.any (namesString read addr) then readStringAt read addr else none

variable {read index}

theorem sites_concat (p : InstructionData → Bool) (instructions : List InstructionData)
    (ins : InstructionData) : sites p (instructions ++ [ins]) =
      if p ins then sites p instructions ++ [ins.address] else sites p instructions := by
  rw [sites, sites, List.filter_append, List.map_append]
  cases h : p ins <;> simp [h]

theorem addSite_apply (sites : ℕ → List ℕ) (addr site a : ℕ) : addSite sites addr site a =
    if a = addr then sites a ++ [site] else sites a := by
  rw [addSite, Function.update_apply]
  split_ifs with h
  · rw [h]
  · rfl

theorem recordBranch_calls (result : DissectResult) (ins : InstructionData) (addr : ℕ) :
    (recordBranch index result ins).calls addr =
      if callsTo index addr ins then result.calls addr ++ [ins.address] else result.calls addr := by
  unfold recordBranch callsTo
  split
  case h_1 target hkind htarget =>
    by_cases hexec : index.isExecutable target <;> by_cases haddr : addr = target <;>
      simp [*, addSite_apply, Ne.symm]
  case h_2 target hkind htarget => split <;> simp [hkind]
  case h_3 target hkind htarget => split <;> simp [hkind]
  case h_4 hcall _ _ =>
    rw [if_neg]
    rw [decide_eq_true_iff]
    exact fun h => hcall addr h.1 h.2.1

theorem recordBranch_jumps (result : DissectResult) (ins : InstructionData) (addr : ℕ) :
    (recordBranch index result ins).jumps addr =
      if jumpsTo index addr ins then result.jumps addr ++ [ins.address] else result.jumps addr := by
  unfold recordBranch jumpsTo
  split
  case h_1 target hkind htarget => split <;> simp [hkind]
  case h_2 target hkind htarget =>
    by_cases hexec : index.isExecutable target <;> by_cases haddr : addr = target <;>
      simp [*, addSite_apply, Ne.symm]
  case h_3 target hkind htarget =>
    by_cases hexec : index.isExecutable target <;> by_cases haddr : addr = target <;>
      simp [*, addSite_apply, Ne.symm]
  case h_4 _ hjump hcond =>
    rw [if_neg]
    rw [decide_eq_true_iff]
    exact fun h => h.1.elim (hjump addr · h.2.1) (hcond addr · h.2.1)

/-- A branch has no say in the strings. -/
theorem recordBranch_strings (result : DissectResult) (ins : InstructionData) :
    (recordBranch index result ins).strings = result.strings ∧
      (recordBranch index result ins).stringPreviews = result.stringPreviews := by
  unfold recordBranch
  split
  case h_4 => exact ⟨rfl, rfl⟩
  all_goals split <;> exact ⟨rfl, rfl⟩

/-- A memory operand has no say in the branches. -/
theorem recordMemTarget_branches (result : DissectResult) (ins : InstructionData) :
    (recordMemTarget read result ins).calls = result.calls ∧
      (recordMemTarget read result ins).jumps = result.jumps := by
  unfold recordMemTarget
  split
  · exact ⟨rfl, rfl⟩
  · split <;> exact ⟨rfl, rfl⟩

theorem recordMemTarget_strings (result : DissectResult) (ins : InstructionData) (addr : ℕ) :
    (recordMemTarget read result ins).strings addr =
      if namesString read addr ins then result.strings addr ++ [ins.address]
      else result.strings addr := by
  unfold recordMemTarget namesString
  cases hmem : ins.memTarget with
  | none => simp
  | some mem =>
    by_cases haddr : addr = mem
    · subst haddr
      cases htext : readStringAt read addr <;> simp [htext, addSite_apply]
    · cases htext : readStringAt read mem <;> simp [htext, addSite_apply, haddr, Ne.symm haddr]

/-- The first preview of a string stays, and it is what is read there. -/
theorem recordMemTarget_stringPreviews (result : DissectResult) (ins : InstructionData) (addr : ℕ)
    (hfirst : result.stringPreviews addr = none ∨
      result.stringPreviews addr = readStringAt read addr) :
    (recordMemTarget read result ins).stringPreviews addr =
      if namesString read addr ins then readStringAt read addr
      else result.stringPreviews addr := by
  unfold recordMemTarget namesString
  cases hmem : ins.memTarget with
  | none => simp
  | some mem =>
    by_cases haddr : addr = mem
    · subst haddr
      cases htext : readStringAt read addr with
      | none => simp [htext]
      | some text => rcases hfirst with hfirst | hfirst <;> simp [htext, hfirst]
    · cases htext : readStringAt read mem <;>
        simp [htext, haddr, Ne.symm haddr]

/-- What is collected of some instructions, before it is sorted. -/
theorem foldl_recordInstruction (instructions : List InstructionData) :
    instructions.foldl (recordInstruction read index) .empty =
      { calls := fun addr => sites (callsTo index addr) instructions
        jumps := fun addr => sites (jumpsTo index addr) instructions
        strings := fun addr => sites (namesString read addr) instructions
        stringPreviews := fun addr =>
          if instructions.any (namesString read addr) then readStringAt read addr else none } := by
  induction instructions using List.reverseRecOn with
  | nil => rfl
  | append_singleton instructions ins ih =>
    rw [List.foldl_append, ih, List.foldl_cons, List.foldl_nil, recordInstruction,
      DissectResult.mk.injEq]
    refine ⟨?_, ?_, ?_, ?_⟩ <;> funext addr
    · rw [(recordMemTarget_branches _ _).1, recordBranch_calls, sites_concat]
    · rw [(recordMemTarget_branches _ _).2, recordBranch_jumps, sites_concat]
    · rw [recordMemTarget_strings, (recordBranch_strings _ _).1, sites_concat]
    · rw [recordMemTarget_stringPreviews, (recordBranch_strings _ _).2]
      · simp only [List.any_append, List.any_cons, List.any_nil, Bool.or_false]
        by_cases hins : namesString read addr ins <;> simp [hins]
      · rw [(recordBranch_strings _ _).2]
        dsimp only
        split_ifs
        · exact .inr rfl
        · exact .inl rfl

end References

section OverMemory
variable {decoder : InstructionDecoder} {mem : ℕ → UInt8} {read : ReadBuf}

/-- What a pass takes of the instructions it disassembles. -/
def inChunk (chunkAddr want : ℕ) (isLast : Bool) (ins : InstructionData) : Bool :=
  isLast || ins.address < chunkAddr + want

theorem foldl_lastEnd {σ : Type} (record : σ → InstructionData → σ) (chunkAddr : ℕ)
    (units : List InstructionData) (s : σ) (lastEnd : ℕ) :
    units.foldl (fun (s, _) ins => (record s ins, ins.address - chunkAddr + ins.length))
      (s, lastEnd) =
      (units.foldl record s,
        units.getLast?.elim lastEnd fun i => i.address - chunkAddr + i.length) := by
  induction units generalizing s lastEnd with
  | nil => rfl
  | cons i units ih =>
    rw [List.foldl_cons, ih, List.foldl_cons, List.getLast?_cons]
    cases units.getLast? <;> rfl

/-- The bytes of a pass are enough for what it takes: behind the last pass the region ends, and
behind every other one there is room for an instruction. -/
theorem takeWhile_inChunk (h : decoder.Local) (mem : ℕ → UInt8) {p stop want : ℕ}
    (hwant : want = min (stop - p) chunkBytes) :
    (linearSweep decoder mem false p (p + min (stop - p) (chunkBytes + chunkOverlap))).takeWhile
      (inChunk p want (stop ≤ p + want)) =
      (linearSweep decoder mem false p stop).takeWhile (inChunk p want (stop ≤ p + want)) := by
  have hreads := h.reads mem false
  by_cases hshort : stop - p ≤ chunkBytes + chunkOverlap
  · by_cases hp : p ≤ stop
    · rw [Nat.min_eq_left hshort, Nat.add_sub_cancel' hp]
    · rw [linearSweep, sweep_of_le (by omega), linearSweep, sweep_of_le (by omega)]
  · simp only [chunkBytes, chunkOverlap] at *
    have hinner : inChunk p want (stop ≤ p + want) = fun i => decide (i.address < p + want) := by
      funext i
      simp [inChunk, show ¬ stop ≤ p + want by omega]
    rw [hinner]
    refine hreads.takeWhile_congr (by omega) (by omega) (fun q hq => hreads.near q _ _ ?_ ?_) p
    · omega
    · omega

/-- A pass over a region, the last one or not, records what it takes of the sweep from there. -/
theorem recordChunk_eq (h : decoder.Local) (mem : ℕ → UInt8) {σ : Type}
    (record : σ → InstructionData → σ) {p stop want : ℕ}
    (hwant : want = min (stop - p) chunkBytes) (hp : p < stop) (s : σ) :
    recordChunk decoder record (memBytes mem p (min (stop - p) (chunkBytes + chunkOverlap))) p want
      (stop ≤ p + want) s =
      let taken := (linearSweep decoder mem false p stop).takeWhile
        (inChunk p want (stop ≤ p + want))
      (taken.foldl record s, taken.getLast?.elim 0 fun i => i.address - p + i.length) := by
  have hpos : 0 < want := by simp only [hwant, chunkBytes]; omega
  rw [recordChunk, h.disassembleInstructions_memBytes, visit_takeWhile (inChunk p want (stop ≤ p + want))
    (fun (s, _) ins => (record s ins, ins.address - p + ins.length)), foldl_lastEnd,
    takeWhile_inChunk h mem hwant]
  rintro ⟨s, lastEnd⟩ ins
  simp only [inChunk]
  by_cases hlt : ins.address < p + want
  · simp [hlt, show ¬ want ≤ ins.address - p by omega]
  · by_cases hlast : stop ≤ p + want <;> simp [hlt, hlast, show want ≤ ins.address - p by omega]

/-- Where the sweep goes on, by how far the last instruction taken reaches. -/
theorem resume_eq {p : ℕ} {units : List InstructionData} (h : ∀ i ∈ units, p ≤ i.address) :
    resume InstructionData.address InstructionData.length p units =
      p + units.getLast?.elim 0 fun i => i.address - p + i.length := by
  rw [resume]
  cases hlast : units.getLast? with
  | none => rfl
  | some i =>
    have := h i (List.mem_of_getLast? hlast)
    simp only [Option.elim]
    omega

/-- Reading a region in overlapping passes records the instructions of the region. -/
theorem walkRegion_eq (h : decoder.Local) {start total : ℕ}
    (hread : read.Fills mem start (start + total)) {σ : Type} (record : σ → InstructionData → σ)
    (pos : ℕ) (s : σ) : walkRegion decoder read record start total pos s =
      (linearSweep decoder mem false (start + pos) (start + total)).foldl record s := by
  have hreads := h.reads mem false
  by_cases hpos : pos < total
  · obtain ⟨want, hwant⟩ : ∃ want, want = min (total - pos) chunkBytes := ⟨_, rfl⟩
    have hremaining : start + total - (start + pos) = total - pos := by omega
    have hlast : decide (start + total ≤ start + pos + want) = decide (total ≤ pos + want) :=
      decide_eq_decide.mpr (by omega)
    have hpass := recordChunk_eq h mem record (hremaining.symm ▸ hwant)
      (by omega : start + pos < start + total) s
    rw [hremaining, hlast] at hpass
    obtain ⟨taken, htaken⟩ : ∃ taken, taken = (linearSweep decoder mem false (start + pos)
      (start + total)).takeWhile (inChunk (start + pos) want (total ≤ pos + want)) := ⟨_, rfl⟩
    have hresume := resume_eq fun i (hi : i ∈ taken) =>
      (hreads.bounds (List.takeWhile_subset _ (htaken ▸ hi))).1
    have hrest : taken ++ linearSweep decoder mem false (resume InstructionData.address
        InstructionData.length (start + pos) taken) (start + total) =
        linearSweep decoder mem false (start + pos) (start + total) :=
      htaken ▸ hreads.takeWhile_append _ _ _
    have hprogress : start + pos < resume InstructionData.address InstructionData.length
        (start + pos) taken := by
      rw [htaken]
      refine hreads.lt_resume (by omega) ?_
      simp only [inChunk, hreads.start_eq, hwant, chunkBytes, Bool.or_eq_true, decide_eq_true_eq]
      omega
    rw [← htaken] at hpass
    rw [walkRegion, if_pos hpos, ← hwant]
    dsimp only
    rw [hread _ _ (by omega) (by omega)]
    simp only [if_neg (memBytes_ne_nil mem (start + pos)
      (show 0 < min (total - pos) (chunkBytes + chunkOverlap) by simp only [chunkBytes]; omega)),
      hpass]
    cases hend : taken.getLast?.elim 0 fun i => i.address - (start + pos) + i.length with
    | zero => omega
    | succ lastEnd =>
      rw [hresume, hend, Nat.add_assoc] at hrest
      simp only
      rw [walkRegion_eq h hread record (pos + (lastEnd + 1)), ← List.foldl_append, hrest]
  · rw [walkRegion, if_neg hpos, linearSweep, sweep_of_le (by omega), List.foldl_nil]
termination_by total - pos

/-- Dissecting regions in passes finds the references of one sweep through each of them, and hands
on each instruction of the sweeps once. -/
theorem dissectRegions_eq_references (h : decoder.Local) (sections : List Section)
    (regions : List (ℕ × ℕ)) (hread : ∀ r ∈ regions, read.Fills mem r.1 r.2) :
    dissectRegions decoder read (some sections) regions = .ok (references read
      (.fromSections sections) (regions.flatMap fun r => linearSweep decoder mem false r.1 r.2)) ∧
      ∀ r ∈ regions, r.1 < r.2 →
        (∀ (σ : Type) (record : σ → InstructionData → σ) (s : σ),
          walkRegion decoder read record r.1 (r.2 - r.1) 0 s =
            (linearSweep decoder mem false r.1 r.2).foldl record s) ∧
        (linearSweep decoder mem false r.1 r.2).Pairwise fun i j =>
          i.address + i.length ≤ j.address := by
  have hwalk : ∀ r ∈ regions, ∀ (σ : Type) (record : σ → InstructionData → σ) (s : σ),
      (if r.2 ≤ r.1 then s else walkRegion decoder read record r.1 (r.2 - r.1) 0 s) =
        (linearSweep decoder mem false r.1 r.2).foldl record s := by
    intro r hr σ record s
    by_cases hle : r.2 ≤ r.1
    · rw [if_pos hle, linearSweep, sweep_of_le hle, List.foldl_nil]
    · have hstop : r.1 + (r.2 - r.1) = r.2 := by omega
      rw [if_neg hle, walkRegion_eq h (hstop.symm ▸ hread r hr), hstop, Nat.add_zero]
  refine ⟨?_, fun r hr hlt => ⟨fun σ record s => ?_, (h.reads mem false).separated _ _⟩⟩
  · have hregions := List.foldl_ext _ (fun result r =>
      (linearSweep decoder mem false r.1 r.2).foldl
        (recordInstruction read (.fromSections sections)) result) .empty
      fun result r hr => hwalk r hr _ (recordInstruction read (.fromSections sections)) result
    change Except.ok (DissectResult.sortDedup (regions.foldl _ .empty)) = _
    rw [hregions, ← List.foldl_flatMap, foldl_recordInstruction]
    rfl
  · rw [← hwalk r hr, if_neg (Nat.not_le.mpr hlt)]

/-- A region of 300 kB takes two passes, the second over less than one chunk. -/
theorem dissectRegions_nop :
    dissectRegions InstructionDecoder.shortDecoder nopRead (some []) [(4096, 304096)] =
      .ok (references nopRead (.fromSections []) ([(4096, 304096)].flatMap fun r =>
        linearSweep InstructionDecoder.shortDecoder (fun _ => 0x90) false r.1 r.2)) :=
  (dissectRegions_eq_references InstructionDecoder.shortDecoder_local [] [(4096, 304096)]
    fun _ _ _ _ _ _ => rfl).1

end OverMemory

end Nemclass.Analysis
