import Nemclass.Analysis.Disassemble
import Nemclass.Analysis.RegionIndex
import Nemclass.Ui.PathRow

/-! `disasm.xrefsTo`: the code sites that refer to an address, searched for in the
executable regions of its module. A region is read in chunks that begin at fixed
bytes, and the bytes that two chunks share are searched twice. -/
namespace Nemclass.Ui
open Scan Address Analysis Sweep PartitionPoint

def xrefsCap : ℕ := 10000

/-- How many bytes of a region a chunk covers. -/
def xrefsChunk : ℕ := 1 <<< 20

/-- How many bytes behind a chunk are read with it. -/
def xrefsOverlap : ℕ := 16

/-- Takes over what a chunk found and is its own, until the cap; `false` when it is reached. -/
def pushRefs (own : ℕ → Bool) (refs : List ℕ) : List ℕ → List ℕ × Bool
  | [] => (refs, true)
  | a :: found =>
    if own a then
      if xrefsCap ≤ (refs ++ [a]).length then (refs ++ [a], false)
      else pushRefs own (refs ++ [a]) found
    else pushRefs own refs found

section Search
variable (decoder : InstructionDecoder) (read : ReadBuf) (target : ℕ)

/-- The chunks of a region from `pos` on. -/
def scanRegion (start regionLen pos : ℕ) (refs : List ℕ) : List ℕ × Bool :=
  if pos < regionLen then
    let want := min (regionLen - pos) (xrefsChunk + xrefsOverlap)
    let chunkBase := start + pos
    let buf :=
      match read chunkBase want with
      | .ok buf => buf.val
      | .error _ => []
    let last := regionLen ≤ pos + want
    let found := decoder.findCodeRefs buf chunkBase target
    match pushRefs (fun a => last || a - chunkBase < xrefsChunk) refs found with
    | (refs, false) => (refs, false)
    | (refs, true) =>
      if want ≤ xrefsOverlap then (refs, true)
      else scanRegion start regionLen (pos + (want - xrefsOverlap)) refs
  else (refs, true)
termination_by regionLen - pos

def scanRegions (refs : List ℕ) : List (ℕ × ℕ) → List ℕ
  | [] => refs
  | (start, stop) :: regions =>
    match scanRegion decoder read target start (stop - start) 0 refs with
    | (refs, false) => refs
    | (refs, true) => scanRegions refs regions

/-- The addresses are exact: a number below `2 ^ 53` loses nothing as a double. -/
def disasmXrefsTo (modules : Except String (List ModuleInfoWithName))
    (maps : Option (List Section)) : Except String (List ℕ) := do
  let mods ← modules
  match owner mods target with
  | none => .error (lowerHex target ++ " is not inside any module")
  | some m =>
    match moduleExecRegions maps m.base m.size with
    | .error _ => .error "exec regions: process died"
    | .ok regions => .ok (scanRegions decoder read target [] regions)

end Search

section OverMemory
variable {decoder : InstructionDecoder} {mem : ℕ → UInt8} {read : ReadBuf} {target : ℕ}

variable (decoder mem target) in
/-- The addresses that a sweep of a range finds to refer to the target. -/
def sweepRefs (start stop : ℕ) : List ℕ :=
  ((linearSweep decoder mem false start stop).filter fun ins =>
    ins.target = some target ∨ ins.memTarget = some target).map InstructionData.address

theorem foldl_referring (refs : List ℕ) (instructions : List InstructionData) :
    instructions.foldl (fun refs ins =>
      if ins.target = some target ∨ ins.memTarget = some target then refs ++ [ins.address]
      else refs) refs =
      refs ++ (instructions.filter fun ins =>
        ins.target = some target ∨ ins.memTarget = some target).map InstructionData.address := by
  induction instructions generalizing refs with
  | nil => simp
  | cons ins instructions ih =>
    rw [List.foldl_cons, ih, List.filter_cons]
    simp only [decide_eq_true_eq]
    split_ifs <;> simp

theorem findCodeRefs_memBytes (h : decoder.Local) (start len : ℕ) :
    decoder.findCodeRefs (memBytes mem start len) start target =
      sweepRefs decoder mem target start (start + len) := by
  rw [InstructionDecoder.findCodeRefs, h.disassembleInstructions_memBytes,
    visit_takeWhile (fun _ => true) fun refs ins =>
      if ins.target = some target ∨ ins.memTarget = some target then refs ++ [ins.address] else refs]
  · rw [List.takeWhile_eq_self_iff.mpr fun _ _ => rfl, foldl_referring, List.nil_append, sweepRefs]
  · intro refs ins
    rw [if_pos rfl]
    split_ifs <;> rfl

theorem mem_sweepRefs (h : decoder.Local) {start stop a : ℕ}
    (ha : a ∈ sweepRefs decoder mem target start stop) : start ≤ a ∧ a < stop := by
  obtain ⟨ins, hins, rfl⟩ := List.mem_map.mp ha
  have := (h.reads mem false).bounds (List.mem_filter.mp hins).1
  omega

theorem sweepRefs_sorted (h : decoder.Local) (start stop : ℕ) :
    (sweepRefs decoder mem target start stop).Pairwise (· < ·) :=
  ((h.reads mem false).starts_sorted stop start).sublist (List.filter_sublist.map _)

/-- What a collector holds that stops at the cap, and whether it goes on. -/
def collect (all : List ℕ) : List ℕ × Bool := (all.take xrefsCap, all.length < xrefsCap)

/-- Going on where there is room holds what offering more at once does. -/
theorem collect_bind (refs more : List ℕ) (next : List ℕ → List ℕ × Bool)
    (hnext : refs.length < xrefsCap → next refs = collect (refs ++ more)) :
    (match collect refs with
      | (refs, false) => (refs, false)
      | (refs, true) => next refs) = collect (refs ++ more) := by
  by_cases hroom : refs.length < xrefsCap
  · simp only [collect, hroom, decide_true, List.take_of_length_le hroom.le, hnext hroom]
  · have hfull : ¬ refs.length + more.length < xrefsCap := by omega
    simp only [collect, hroom, decide_false, List.length_append, hfull,
      List.take_append_of_le_length (Nat.le_of_not_lt hroom)]

theorem pushRefs_eq (own : ℕ → Bool) {refs : List ℕ} (hroom : refs.length < xrefsCap)
    (found : List ℕ) : pushRefs own refs found = collect (refs ++ found.filter own) := by
  induction found generalizing refs with
  | nil => simp [pushRefs, collect, hroom, hroom.le]
  | cons a found ih =>
    rw [pushRefs]
    by_cases hown : own a = true
    · rw [if_pos hown, List.filter_cons_of_pos hown]
      by_cases hfull : xrefsCap ≤ (refs ++ [a]).length
      · have hstop : collect (refs ++ [a]) = (refs ++ [a], false) := by
          simp only [collect, Prod.mk.injEq, decide_eq_false_iff_not, Nat.not_lt, List.take_eq_self_iff]
          rw [List.length_append, List.length_singleton] at hfull ⊢
          omega
        have hrest := collect_bind (refs ++ [a]) (found.filter own)
          (fun refs => collect (refs ++ found.filter own)) fun _ => rfl
        rw [hstop, List.append_assoc, List.singleton_append] at hrest
        rw [if_pos hfull, ← hrest]
      · rw [if_neg hfull, ih (Nat.lt_of_not_le hfull), List.append_assoc, List.singleton_append]
    · rw [if_neg hown, List.filter_cons_of_neg hown, ih hroom]

/-- The last of the chunks of a region of `len` bytes. -/
def lastChunk (len : ℕ) : ℕ := (len - (xrefsOverlap + 1)) / xrefsChunk

theorem lt_lastChunk {k len : ℕ} :
    k < lastChunk len ↔ k * xrefsChunk + (xrefsChunk + xrefsOverlap) < len := by
  rw [lastChunk, Nat.lt_iff_add_one_le, Nat.le_div_iff_mul_le (by decide)]
  simp only [xrefsChunk, xrefsOverlap]
  omega

theorem lastChunk_mul_le (len : ℕ) : lastChunk len * xrefsChunk ≤ len - (xrefsOverlap + 1) :=
  Nat.div_mul_le_self _ _

variable (decoder mem target) in
/-- All that the chunks of a region from `p` on find. Behind the last chunk, the last bytes of the
region are searched once more. -/
def chunkRefs (stop p : ℕ) : List ℕ :=
  if stop ≤ p + (xrefsChunk + xrefsOverlap) then
    sweepRefs decoder mem target p stop ++
      if p + xrefsOverlap < stop then sweepRefs decoder mem target (stop - xrefsOverlap) stop else []
  else
    (sweepRefs decoder mem target p stop).filter (· < p + xrefsChunk) ++
      chunkRefs stop (p + xrefsChunk)
termination_by stop - p
decreasing_by simp only [xrefsChunk, xrefsOverlap] at *; omega

theorem chunkRefs_last {stop p : ℕ} (h : stop ≤ p + (xrefsChunk + xrefsOverlap)) :
    chunkRefs decoder mem target stop p = sweepRefs decoder mem target p stop ++
      if p + xrefsOverlap < stop then sweepRefs decoder mem target (stop - xrefsOverlap) stop
      else [] := by
  rw [chunkRefs, if_pos h]

theorem chunkRefs_cons {stop p : ℕ} (h : ¬ stop ≤ p + (xrefsChunk + xrefsOverlap)) :
    chunkRefs decoder mem target stop p =
      (sweepRefs decoder mem target p stop).filter (· < p + xrefsChunk) ++
        chunkRefs decoder mem target stop (p + xrefsChunk) := by
  rw [chunkRefs, if_neg h]

/-- One chunk, of the bytes of a memory. -/
theorem scanRegion_pass (h : decoder.Local) {start total : ℕ}
    (hread : read.Fills mem start (start + total)) {pos want : ℕ} (hpos : pos < total)
    (hwant : want = min (total - pos) (xrefsChunk + xrefsOverlap)) {refs : List ℕ}
    (hroom : refs.length < xrefsCap) :
    scanRegion decoder read target start total pos refs =
      match collect (refs ++ (sweepRefs decoder mem target (start + pos) (start + pos + want)).filter
        fun a => total ≤ pos + want || a - (start + pos) < xrefsChunk) with
      | (refs, false) => (refs, false)
      | (refs, true) =>
        if want ≤ xrefsOverlap then (refs, true)
        else scanRegion decoder read target start total (pos + (want - xrefsOverlap)) refs := by
  rw [scanRegion, if_pos hpos, ← hwant]
  dsimp only
  rw [hread _ _ (by omega) (by omega)]
  dsimp only
  rw [findCodeRefs_memBytes h, pushRefs_eq _ hroom]

theorem sweepRefs_below (h : decoder.Local) (p stop b : ℕ) :
    (sweepRefs decoder mem target p stop).filter (· < b) =
      (((linearSweep decoder mem false p stop).takeWhile (·.address < b)).filter fun ins =>
        ins.target = some target ∨ ins.memTarget = some target).map InstructionData.address := by
  rw [linearSweep, ← (h.reads mem false).filter_lt, sweepRefs, List.filter_map, List.filter_comm]
  rfl

/-- What a chunk that is not the last one has for its own does not depend on how far it was read. -/
theorem filter_sweepRefs (h : decoder.Local) {p stop : ℕ}
    (hstop : p + (xrefsChunk + xrefsOverlap) ≤ stop) :
    (sweepRefs decoder mem target p (p + (xrefsChunk + xrefsOverlap))).filter (· < p + xrefsChunk) =
      (sweepRefs decoder mem target p stop).filter (· < p + xrefsChunk) := by
  have hreads := h.reads mem false
  rw [sweepRefs_below h, sweepRefs_below h, linearSweep, linearSweep,
    hreads.takeWhile_congr (by omega) (by omega : p + xrefsChunk ≤ stop)]
  intro q hq
  simp only [xrefsOverlap] at hstop ⊢
  exact hreads.near q _ _ (by omega) (by omega)

/-- The chunks of a region find what all of them have for their own, up to the cap. -/
theorem scanRegion_eq (h : decoder.Local) {start total : ℕ}
    (hread : read.Fills mem start (start + total)) (pos : ℕ) {refs : List ℕ}
    (hroom : refs.length < xrefsCap) :
    scanRegion decoder read target start total pos refs =
      collect (refs ++ chunkRefs decoder mem target (start + total) (start + pos)) := by
  by_cases hpos : pos < total
  · by_cases hlast : total ≤ pos + (xrefsChunk + xrefsOverlap)
    · have hwant : min (total - pos) (xrefsChunk + xrefsOverlap) = total - pos := by omega
      rw [scanRegion_pass h hread hpos hwant.symm hroom, chunkRefs_last (by omega),
        ← List.append_assoc, List.filter_eq_self.mpr fun a _ => by
          simp [show total ≤ pos + (total - pos) by omega],
        show start + pos + (total - pos) = start + total by omega]
      refine collect_bind _ _ _ fun hroom' => ?_
      by_cases hshort : total - pos ≤ xrefsOverlap
      · rw [if_pos hshort, if_neg (by omega), List.append_nil, collect,
          List.take_of_length_le hroom'.le, decide_eq_true hroom']
      · rw [if_neg hshort, if_pos (by omega), scanRegion_eq h hread _ hroom', chunkRefs_last (by omega),
          if_neg (by omega), List.append_nil,
          show start + (pos + (total - pos - xrefsOverlap)) = start + total - xrefsOverlap by omega]
    · have hwant : min (total - pos) (xrefsChunk + xrefsOverlap) = xrefsChunk + xrefsOverlap := by
        omega
      have hown : (fun a => decide (total ≤ pos + (xrefsChunk + xrefsOverlap)) ||
          decide (a - (start + pos) < xrefsChunk)) = fun a => decide (a < start + pos + xrefsChunk) := by
        funext a
        rw [decide_eq_false hlast, Bool.false_or, decide_eq_decide, xrefsChunk]
        omega
      rw [scanRegion_pass h hread hpos hwant.symm hroom, hown, filter_sweepRefs h
        (by omega : start + pos + (xrefsChunk + xrefsOverlap) ≤ start + total),
        chunkRefs_cons (by omega), ← List.append_assoc]
      refine collect_bind _ _ _ fun hroom' => ?_
      rw [if_neg (by simp only [xrefsChunk, xrefsOverlap]; omega), Nat.add_sub_cancel,
        scanRegion_eq h hread _ hroom', ← Nat.add_assoc]
  · rw [scanRegion, if_neg hpos, chunkRefs_last (by omega), if_neg (by omega), sweepRefs, linearSweep,
      sweep_of_le (by omega), List.filter_nil, List.map_nil, List.append_nil, List.append_nil, collect,
      List.take_of_length_le hroom.le, decide_eq_true hroom]
termination_by total - pos
decreasing_by all_goals simp only [xrefsChunk, xrefsOverlap] at *; omega

section Agreement
variable (decoder mem target)

/-- A sweep that starts with a chunk, which is not the last one, finds in it what the sweep of the
region finds there. -/
def ChunkAgrees (start stop k : ℕ) : Prop :=
  (sweepRefs decoder mem target (start + k * xrefsChunk) stop).filter
      (· < start + (k + 1) * xrefsChunk) =
    (sweepRefs decoder mem target start stop).filter fun a =>
      start + k * xrefsChunk ≤ a ∧ a < start + (k + 1) * xrefsChunk

/-- A sweep that starts with the last chunk, and behind it one of the region's last bytes, find
what the sweep of the region finds there. -/
def LastChunkAgrees (start stop : ℕ) : Prop :=
  (sweepRefs decoder mem target (start + lastChunk (stop - start) * xrefsChunk) stop ++
      if start + xrefsOverlap < stop then sweepRefs decoder mem target (stop - xrefsOverlap) stop
      else []) =
    (sweepRefs decoder mem target start stop).filter
      (start + lastChunk (stop - start) * xrefsChunk ≤ ·)

def SeamsAgree (start stop : ℕ) : Prop :=
  (∀ k < lastChunk (stop - start), ChunkAgrees decoder mem target start stop k) ∧
    LastChunkAgrees decoder mem target start stop

end Agreement

theorem mem_chunkRefs (h : decoder.Local) (stop p : ℕ) :
    ∀ a ∈ chunkRefs decoder mem target stop p, p ≤ a ∧ a < stop := by
  intro a ha
  by_cases hlast : stop ≤ p + (xrefsChunk + xrefsOverlap)
  · rw [chunkRefs_last hlast] at ha
    rcases List.mem_append.mp ha with ha | ha
    · exact mem_sweepRefs h ha
    · split_ifs at ha with htail
      · have := mem_sweepRefs h ha
        omega
      · cases ha
  · rw [chunkRefs_cons hlast] at ha
    rcases List.mem_append.mp ha with ha | ha
    · exact mem_sweepRefs h (List.mem_filter.mp ha).1
    · have := mem_chunkRefs h stop (p + xrefsChunk) a ha
      omega
termination_by stop - p
decreasing_by simp only [xrefsChunk, xrefsOverlap] at *; omega

/-- Two lists, one of addresses below a bound and one of those from there on, make up the references
of a sweep exactly if each is its part of them. -/
theorem append_eq_sweepRefs_iff (h : decoder.Local) {start stop lo mid : ℕ} (hle : lo ≤ mid)
    {low high : List ℕ} (hlow : ∀ a ∈ low, a < mid) (hhigh : ∀ a ∈ high, mid ≤ a) :
    low ++ high = (sweepRefs decoder mem target start stop).filter (lo ≤ ·) ↔
      low = (sweepRefs decoder mem target start stop).filter (fun a => lo ≤ a ∧ a < mid) ∧
        high = (sweepRefs decoder mem target start stop).filter (mid ≤ ·) := by
  have hpart : Partitioned (· < mid)
      ((sweepRefs decoder mem target start stop).filter (lo ≤ ·)) :=
    ((sweepRefs_sorted h start stop).filter _).imp fun hab hb => by
      simp only [decide_eq_true_eq] at *
      omega
  have hbelow : ((sweepRefs decoder mem target start stop).filter (lo ≤ ·)).filter (· < mid) =
      (sweepRefs decoder mem target start stop).filter fun a => lo ≤ a ∧ a < mid := by
    rw [List.filter_filter]
    refine List.filter_congr fun a _ => ?_
    rw [← Bool.decide_and, decide_eq_decide, and_comm]
  have habove : ((sweepRefs decoder mem target start stop).filter (lo ≤ ·)).filter
      (fun a => !decide (a < mid)) = (sweepRefs decoder mem target start stop).filter (mid ≤ ·) := by
    rw [List.filter_filter]
    refine List.filter_congr fun a _ => ?_
    rw [← decide_not, ← Bool.decide_and, decide_eq_decide]
    omega
  rw [append_eq_iff hpart (fun a ha => decide_eq_true (hlow a ha))
    fun a ha => decide_eq_false (Nat.not_lt.mpr (hhigh a ha)), hbelow, habove]

/-- What is found from a chunk on agrees with the sweep of the region when each chunk from there
on does. -/
theorem chunkRefs_eq_iff (h : decoder.Local) {start stop : ℕ} (k : ℕ)
    (hk : k ≤ lastChunk (stop - start)) :
    chunkRefs decoder mem target stop (start + k * xrefsChunk) =
        (sweepRefs decoder mem target start stop).filter (start + k * xrefsChunk ≤ ·) ↔
      (∀ j, k ≤ j → j < lastChunk (stop - start) →
        ChunkAgrees decoder mem target start stop j) ∧
        LastChunkAgrees decoder mem target start stop := by
  rcases Nat.lt_or_eq_of_le hk with hlt | rfl
  · have hstop := lt_lastChunk.mp hlt
    have hnext : start + (k + 1) * xrefsChunk = start + k * xrefsChunk + xrefsChunk := by
      rw [Nat.add_mul, Nat.one_mul, Nat.add_assoc]
    rw [chunkRefs_cons (by omega), ← hnext,
      append_eq_sweepRefs_iff h (by omega) (fun a ha => of_decide_eq_true (List.mem_filter.mp ha).2)
        fun a ha => (mem_chunkRefs h stop _ a ha).1,
      chunkRefs_eq_iff h (k + 1) hlt, ← and_assoc]
    refine and_congr_left fun _ => ⟨fun ⟨hchunk, hrest⟩ j hj hlast => ?_, fun hall =>
      ⟨hall k le_rfl hlt, fun j hj => hall j (by omega)⟩⟩
    rcases Nat.lt_or_eq_of_le hj with hj | rfl
    · exact hrest j hj hlast
    · exact hchunk
  · have hlast := mt lt_lastChunk.mpr (Nat.lt_irrefl (lastChunk (stop - start)))
    have htail : start + lastChunk (stop - start) * xrefsChunk + xrefsOverlap < stop ↔
        start + xrefsOverlap < stop := by
      have := lastChunk_mul_le (stop - start)
      simp only [xrefsOverlap] at *
      omega
    rw [chunkRefs_last (by omega), LastChunkAgrees]
    simp only [htail]
    exact ⟨fun hlast => ⟨fun j hj hlt => absurd hlt (Nat.not_lt.mpr hj), hlast⟩, And.right⟩
termination_by lastChunk (stop - start) - k

/-- The chunks of a region find the references of its sweep when the seams agree. -/
theorem chunkRefs_eq_sweepRefs_iff (h : decoder.Local) {start stop : ℕ} :
    chunkRefs decoder mem target stop start = sweepRefs decoder mem target start stop ↔
      SeamsAgree decoder mem target start stop := by
  have hwhole : (sweepRefs decoder mem target start stop).filter (start + 0 * xrefsChunk ≤ ·) =
      sweepRefs decoder mem target start stop :=
    List.filter_eq_self.mpr fun a ha => by simpa using (mem_sweepRefs h ha).1
  have hiff := @chunkRefs_eq_iff decoder mem target h start stop 0 (Nat.zero_le _)
  rw [hwhole, Nat.zero_mul, Nat.add_zero] at hiff
  rw [hiff, SeamsAgree]
  simp only [Nat.zero_le, true_implies]

/-- The regions are searched one after another, up to the cap. -/
theorem scanRegions_eq (h : decoder.Local) (regions : List (ℕ × ℕ))
    (hread : ∀ r ∈ regions, read.Fills mem r.1 r.2) (hne : ∀ r ∈ regions, r.1 < r.2) {refs : List ℕ}
    (hroom : refs.length < xrefsCap) : scanRegions decoder read target refs regions =
      (refs ++ regions.flatMap fun r => chunkRefs decoder mem target r.2 r.1).take xrefsCap := by
  induction regions generalizing refs with
  | nil => rw [scanRegions, List.flatMap_nil, List.append_nil, List.take_of_length_le hroom.le]
  | cons r regions ih =>
    obtain ⟨start, stop⟩ := r
    have hle := (hne (start, stop) List.mem_cons_self).le
    have hregion := @scanRegion_eq decoder mem read target h start (stop - start)
      (by rw [Nat.add_sub_cancel' hle]; exact hread (start, stop) List.mem_cons_self) 0 refs hroom
    rw [Nat.add_zero, Nat.add_sub_cancel' hle] at hregion
    rw [scanRegions, hregion, List.flatMap_cons, ← List.append_assoc]
    by_cases hroom' : (refs ++ chunkRefs decoder mem target stop start).length < xrefsCap
    · simp only [collect, hroom', decide_true, List.take_of_length_le hroom'.le]
      exact ih (fun r hr => hread r (List.mem_cons_of_mem _ hr))
        (fun r hr => hne r (List.mem_cons_of_mem _ hr)) hroom'
    · simp only [collect, hroom', decide_false,
        List.take_append_of_le_length (Nat.le_of_not_lt hroom')]

/-- What is found in regions that lie one behind the other is equal when it is in each of them. -/
theorem flatMap_eq_flatMap_iff {f g : ℕ × ℕ → List ℕ} {regions : List (ℕ × ℕ)}
    (hseparated : regions.Pairwise fun a b => a.2 ≤ b.1)
    (hf : ∀ r ∈ regions, ∀ x ∈ f r, r.1 ≤ x ∧ x < r.2)
    (hg : ∀ r ∈ regions, ∀ x ∈ g r, r.1 ≤ x ∧ x < r.2) :
    regions.flatMap f = regions.flatMap g ↔ ∀ r ∈ regions, f r = g r := by
  induction regions with
  | nil => simp
  | cons r regions ih =>
    obtain ⟨hr, hrest⟩ := List.pairwise_cons.mp hseparated
    have behind : ∀ f : ℕ × ℕ → List ℕ, (∀ r ∈ regions, ∀ x ∈ f r, r.1 ≤ x ∧ x < r.2) →
        ∀ x ∈ regions.flatMap f, decide (x < r.2) = false := by
      intro f hf x hx
      obtain ⟨r', hr', hx⟩ := List.mem_flatMap.mp hx
      have := hr r' hr'
      have := hf r' hr' x hx
      rw [decide_eq_false_iff_not]
      omega
    have hf' := fun r hr => hf r (List.mem_cons_of_mem _ hr)
    have hg' := fun r hr => hg r (List.mem_cons_of_mem _ hr)
    rw [List.flatMap_cons, List.flatMap_cons, append_eq_append_iff (p := fun x => decide (x < r.2))
      (fun x hx => decide_eq_true (hf r List.mem_cons_self x hx).2)
      (fun x hx => decide_eq_true (hg r List.mem_cons_self x hx).2) (behind f hf') (behind g hg'),
      ih hrest hf' hg', List.forall_mem_cons]

theorem flatMap_sorted {f : ℕ × ℕ → List ℕ} {regions : List (ℕ × ℕ)}
    (hseparated : regions.Pairwise fun a b => a.2 ≤ b.1)
    (hf : ∀ r ∈ regions, ∀ x ∈ f r, r.1 ≤ x ∧ x < r.2)
    (hsorted : ∀ r ∈ regions, (f r).Pairwise (· < ·)) : (regions.flatMap f).Pairwise (· < ·) := by
  rw [List.pairwise_flatMap]
  refine ⟨hsorted, hseparated.imp_of_mem fun {a b} ha hb hab x hx y hy => ?_⟩
  have := hf a ha x hx
  have := hf b hb y hy
  omega

/-- The sites that `disasm.xrefsTo` lists are those of a search of each executable region in one
piece, in ascending order and each once, if and only if the seams of every region agree. -/
theorem disasmXrefsTo_eq_iff (h : decoder.Local) {mods : List ModuleInfoWithName}
    {m : ModuleInfoWithName} (hm : owner mods target = some m) {sections : List Section}
    (hdisjoint : Disjoint sections) {regions : List (ℕ × ℕ)}
    (hregions : moduleExecRegions (some sections) m.base m.size = .ok regions)
    (hread : ∀ r ∈ regions, read.Fills mem r.1 r.2)
    (hfew : (regions.flatMap fun r =>
      decoder.findCodeRefs (memBytes mem r.1 (r.2 - r.1)) r.1 target).length < xrefsCap) :
    (∃ refs, disasmXrefsTo decoder read target (.ok mods) (some sections) = .ok refs ∧
      refs.Pairwise (· < ·) ∧ refs = regions.flatMap fun r =>
        decoder.findCodeRefs (memBytes mem r.1 (r.2 - r.1)) r.1 target) ↔
      ∀ r ∈ regions, SeamsAgree decoder mem target r.1 r.2 := by
  obtain ⟨hne, hseparated⟩ := moduleExecRegions_separated hdisjoint hregions
  have hwhole : (regions.flatMap fun r =>
      decoder.findCodeRefs (memBytes mem r.1 (r.2 - r.1)) r.1 target) =
      regions.flatMap fun r => sweepRefs decoder mem target r.1 r.2 := by
    refine List.flatMap_congr fun r hr => ?_
    rw [findCodeRefs_memBytes h, Nat.add_sub_cancel' (hne r hr).le]
  have hrun : disasmXrefsTo decoder read target (.ok mods) (some sections) =
      .ok ((regions.flatMap fun r => chunkRefs decoder mem target r.2 r.1).take xrefsCap) := by
    rw [← List.nil_append (List.flatMap _ _), ← scanRegions_eq h regions hread hne (by decide)]
    simp only [disasmXrefsTo, bind, Except.bind, hm, hregions]
  rw [hwhole] at hfew ⊢
  have hsorted := flatMap_sorted hseparated (fun r _ x hx => mem_sweepRefs h hx)
    fun r _ => @sweepRefs_sorted decoder mem target h r.1 r.2
  have hiff : (∀ r ∈ regions, SeamsAgree decoder mem target r.1 r.2) ↔
      (regions.flatMap fun r => chunkRefs decoder mem target r.2 r.1) =
        regions.flatMap fun r => sweepRefs decoder mem target r.1 r.2 := by
    rw [flatMap_eq_flatMap_iff hseparated (fun r _ => mem_chunkRefs h r.2 r.1)
      fun r _ x hx => mem_sweepRefs h hx]
    exact forall₂_congr fun r _ => (chunkRefs_eq_sweepRefs_iff h).symm
  rw [hiff, hrun]
  constructor
  · rintro ⟨refs, hrefs, -, rfl⟩
    have hcut := Except.ok.inj hrefs
    have hall := congrArg List.length hcut
    rw [List.length_take] at hall
    rw [← hcut, List.take_of_length_le (by omega)]
  · intro hall
    exact ⟨_, by rw [hall, List.take_of_length_le hfew.le], hsorted, rfl⟩


end OverMemory

section TailOfRegion
open InstructionDecoder

/-- A page of `nop` instructions whose last one is a jump to itself. -/
def tailMemory (a : ℕ) : UInt8 := if a = 8190 then 0xEB else if a = 8191 then 0xFE else 0x90

def tailRead : ReadBuf := fun addr len => .ok ⟨memBytes tailMemory addr len, by simp⟩

/-- A sweep that starts before the jump finds it. -/
theorem sweepRefs_tailMemory (p : ℕ) (hp : p ≤ 8190) :
    sweepRefs shortDecoder tailMemory 8190 p 8192 = [8190] := by
  have hreads := shortDecoder_local.reads tailMemory false
  obtain ⟨n, hn⟩ : ∃ n, 8192 - p = n + 1 + 1 := ⟨8190 - p, by omega⟩
  have hcode : memBytes tailMemory p (8192 - p) =
      tailMemory p :: tailMemory (p + 1) :: memBytes tailMemory (p + 1 + 1) n := by
    rw [hn, memBytes_succ, memBytes_succ]
  rw [sweepRefs, linearSweep, hreads.sweep_cons (by omega)]
  rcases Nat.lt_or_eq_of_le hp with hlt | rfl
  · have hnop : tailMemory p = 0x90 := by
      rw [tailMemory, if_neg (by omega), if_neg (by omega)]
    have hins : instructionAt shortDecoder tailMemory false p 8192 =
        ⟨p, 1, [0x90], -1, "nop", .seq, none, none⟩ := by
      rw [instructionAt, hcode, hnop]
      rfl
    rw [hins, List.filter_cons_of_neg (by simp), ← linearSweep, ← sweepRefs,
      sweepRefs_tailMemory (p + 1) hlt]
  · have hins : (instructionAt shortDecoder tailMemory false 8190 8192).target = some 8190 ∧
        (instructionAt shortDecoder tailMemory false 8190 8192).length = 2 := by
      rw [instructionAt, hcode]
      exact ⟨rfl, rfl⟩
    rw [List.filter_cons_of_pos (by simp [hins.1]), List.map_cons, hins.2, sweep_of_le (by decide),
      List.filter_nil, List.map_nil, hreads.start_eq]
termination_by 8190 - p

theorem moduleExecRegions_page :
    moduleExecRegions (some [⟨4096, 4096, true⟩]) 4096 4096 = .ok [(4096, 8192)] := by
  simp [moduleExecRegions, Section.clip, Section.stop, Usize.saturatingAdd, Usize.usizeMax]

/-- A reference in the last bytes of a region is listed twice. -/
theorem disasmXrefsTo_twice :
    disasmXrefsTo shortDecoder tailRead 8190 (.ok [⟨4096, 4096, "a.out"⟩])
        (some [⟨4096, 4096, true⟩]) = .ok [8190, 8190] ∧
      shortDecoder.findCodeRefs (memBytes tailMemory 4096 4096) 4096 8190 = [8190] := by
  have hchunks : chunkRefs shortDecoder tailMemory 8190 8192 4096 = [8190, 8190] := by
    rw [chunkRefs_last (by decide), if_pos (by decide), sweepRefs_tailMemory 4096 (by decide),
      sweepRefs_tailMemory (8192 - xrefsOverlap) (by decide)]
    rfl
  refine ⟨?_, ?_⟩
  · have hregion := @scanRegions_eq shortDecoder tailMemory tailRead 8190 shortDecoder_local
      [(4096, 8192)] (fun _ _ _ _ _ _ => rfl) (by decide) [] (by decide)
    rw [List.flatMap_singleton, hchunks] at hregion
    have howner : owner [⟨4096, 4096, "a.out"⟩] 8190 = some ⟨4096, 4096, "a.out"⟩ := by decide
    simp only [disasmXrefsTo, bind, Except.bind, howner, moduleExecRegions_page, hregion]
    rfl
  · rw [findCodeRefs_memBytes shortDecoder_local]
    exact sweepRefs_tailMemory 4096 (by decide)

/-- The page's seams do not agree: its last bytes hold a reference. -/
theorem disasmXrefsTo_eq_iff_page :
    (∃ refs, disasmXrefsTo shortDecoder tailRead 8190 (.ok [⟨4096, 4096, "a.out"⟩])
        (some [⟨4096, 4096, true⟩]) = .ok refs ∧ refs.Pairwise (· < ·) ∧
        refs = [(4096, 8192)].flatMap fun r =>
          shortDecoder.findCodeRefs (memBytes tailMemory r.1 (r.2 - r.1)) r.1 8190) ↔
      ∀ r ∈ [(4096, 8192)], SeamsAgree shortDecoder tailMemory 8190 r.1 r.2 := by
  refine disasmXrefsTo_eq_iff shortDecoder_local (m := ⟨4096, 4096, "a.out"⟩) (by decide)
    (List.pairwise_singleton _ _) moduleExecRegions_page (fun _ _ _ _ _ _ => rfl) ?_
  rw [List.flatMap_singleton, findCodeRefs_memBytes shortDecoder_local]
  change (sweepRefs shortDecoder tailMemory 8190 4096 8192).length < xrefsCap
  rw [sweepRefs_tailMemory 4096 (by decide)]
  decide

end TailOfRegion

end Nemclass.Ui
