import Mathlib.Logic.Function.Iterate
import Nemclass.Analysis.Disassemble
import Nemclass.Lib.Outcome

/-! The linear disassembly view: the code of some regions, decoded chunk by chunk as the
user scrolls. Where a chunk ends within an instruction, the next one begins with
it; where it decodes nothing, the next region is up. -/
namespace Nemclass.Ui
open Scan Analysis Sweep Outcome

/-- How an error is shown; the operating system words its own numbers. -/
def errorText (osErrorMessage : ℤ → String) : Error → String
  | .invalidAddress => "invalid address"
  | .ioError text => "io error: " ++ text
  | .errno code => "os error " ++ toString code ++ ": " ++ osErrorMessage code
  | .processNotFound => "process not found"
  | .moduleNotFound => "module not found"
  | .noThreads => "no threads in process"
  | .invalidString => "invalid string"
  | .processDied => "process died"
  | .partialTransfer requested actual =>
    "partial memory transfer: " ++ toString actual ++ " of " ++ toString requested ++ " bytes"
  | .enumerationUnstable => "region enumeration did not converge"

/-- Bytes decoded in one step. -/
def linearChunkBytes : ℕ := 48 * 1024

/-- Instructions kept in one session. -/
def linearMaxInsns : ℕ := 400000

/-- The part of `DisassemblyPanel` that linear mode works on. -/
structure LinearView where
  linearRegions : List (ℕ × ℕ)
  linearInsns : List InstructionData
  linearNext : Option ℕ
  selectedRow : Option ℕ
  statusMsg : Option String

/-- The region that contains `addr`. -/
def regionOf (regions : List (ℕ × ℕ)) (addr : ℕ) : Option (ℕ × ℕ) :=
  regions.find? fun r => r.1 ≤ addr && addr < r.2

/-- The start of the first region at or after `addr`. -/
def nextRegionStart (regions : List (ℕ × ℕ)) (addr : ℕ) : Option ℕ :=
  ((regions.map Prod.fst).filter (addr ≤ ·)).min?

/-- `addr` where it lies in a region, the next region's start elsewhere. -/
def clampIntoRegions (regions : List (ℕ × ℕ)) (addr : ℕ) : Option ℕ :=
  if (regionOf regions addr).isSome then some addr else nextRegionStart regions addr

namespace LinearView

/-- Starts the session again, from `start` on. -/
def linearReset (view : LinearView) (start : ℕ) : LinearView :=
  { view with
    linearInsns := []
    selectedRow := none
    linearNext := clampIntoRegions view.linearRegions start }

section Extend
variable (decoder : InstructionDecoder) (read : ReadBuf) (osErrorMessage : ℤ → String)
  (chunkBytes : ℕ)

/-- Decodes the next chunk and appends it. -/
def extendLinear (view : LinearView) : LinearView :=
  if linearMaxInsns ≤ view.linearInsns.length then { view with linearNext := none }
  else
    match view.linearNext with
    | none => view
    | some start =>
      match regionOf view.linearRegions start with
      | none => { view with linearNext := nextRegionStart view.linearRegions start }
      | some (_, re) =>
        let len := min chunkBytes (re - start)
        if len = 0 then { view with linearNext := nextRegionStart view.linearRegions re }
        else
          match disassembleRange decoder read start len with
          | .error e =>
            { view with
              statusMsg := some ("Disassembly failed: " ++ errorText osErrorMessage e)
              linearNext := none }
          | .ok insns =>
            { view with
              linearInsns := view.linearInsns ++ insns
              linearNext :=
                match insns.getLast?.map fun i => i.address + i.length with
                | some stop =>
                  if stop < re then some stop else nextRegionStart view.linearRegions re
                | none => nextRegionStart view.linearRegions re }

end Extend

end LinearView

section OverMemory
variable (decoder : InstructionDecoder) (mem : ℕ → UInt8)

/-- What disassembling a range of a memory gives. -/
def rangeOf (start stop : ℕ) : List InstructionData :=
  (linearSweep decoder mem true start stop).takeWhile isDecoded

/-- What is left of some regions from `addr` on, each disassembled at once. -/
def remainder (regions : List (ℕ × ℕ)) (addr : ℕ) : List InstructionData :=
  (regions.filter (addr < ·.2)).flatMap fun r => rangeOf decoder mem (max addr r.1) r.2

variable {decoder mem} {regions : List (ℕ × ℕ)}

theorem regionOf_eq_some {addr : ℕ} {r : ℕ × ℕ} (h : regionOf regions addr = some r) :
    r ∈ regions ∧ r.1 ≤ addr ∧ addr < r.2 := by
  have hin := List.find?_some h
  rw [Bool.and_eq_true, decide_eq_true_eq, decide_eq_true_eq] at hin
  exact ⟨List.mem_of_find?_eq_some h, hin⟩

theorem regionOf_isSome {addr : ℕ} :
    (regionOf regions addr).isSome ↔ ∃ r ∈ regions, r.1 ≤ addr ∧ addr < r.2 := by
  rw [regionOf, List.find?_isSome]
  simp only [Bool.and_eq_true, decide_eq_true_eq]

/-- Where no region reaches from one address to the other, the same is left from both. -/
theorem remainder_congr {addr addr' : ℕ} (hle : addr ≤ addr')
    (hgap : ∀ r ∈ regions, r.2 ≤ addr ∨ addr' ≤ r.1 ∧ r.1 < r.2) :
    remainder decoder mem regions addr = remainder decoder mem regions addr' := by
  have hfilter : regions.filter (addr < ·.2) = regions.filter (addr' < ·.2) := by
    refine List.filter_congr fun r hr => ?_
    have := hgap r hr
    rw [decide_eq_decide]
    omega
  rw [remainder, remainder, hfilter]
  refine List.flatMap_congr fun r hr => ?_
  obtain ⟨hr, hlt⟩ := List.mem_filter.mp hr
  rw [decide_eq_true_eq] at hlt
  have := hgap r hr
  rw [max_eq_right (by omega), max_eq_right (by omega)]

theorem remainder_append (xs ys : List (ℕ × ℕ)) (addr : ℕ) :
    remainder decoder mem (xs ++ ys) addr =
      remainder decoder mem xs addr ++ remainder decoder mem ys addr := by
  rw [remainder, List.filter_append, List.flatMap_append]
  rfl

/-- Behind all of the regions, nothing is left. -/
theorem remainder_of_le {addr : ℕ} (h : ∀ r ∈ regions, r.2 ≤ addr) :
    remainder decoder mem regions addr = [] := by
  rw [remainder, List.filter_eq_nil_iff.mpr fun r hr => by simpa using h r hr, List.flatMap_nil]

/-- Regions as a module's code is listed: ascending, apart, and none empty. -/
structure CodeRegions (regions : List (ℕ × ℕ)) : Prop where
  nonempty : ∀ r ∈ regions, r.1 < r.2
  separated : regions.Pairwise fun a b => a.2 ≤ b.1

namespace CodeRegions
variable (hregions : CodeRegions regions)
include hregions

/-- No region reaches over the end of another. -/
theorem straddles {r r' : ℕ × ℕ} (hr : r ∈ regions) (hr' : r' ∈ regions) :
    r'.2 ≤ r.2 ∨ r.2 ≤ r'.1 := by
  refine List.Pairwise.forall_of_forall_of_flip (R := fun a b : ℕ × ℕ => b.2 ≤ a.2 ∨ a.2 ≤ b.1)
    (fun _ _ => .inl le_rfl) (hregions.separated.imp Or.inr)
    (hregions.separated.imp_of_mem fun {a b} _ hb hab => ?_) hr hr'
  have := hregions.nonempty b hb
  exact .inl (by omega)

/-- Within a region, what is left is the rest of it and what is left behind it. -/
theorem remainder_eq {r : ℕ × ℕ} (hr : r ∈ regions) {addr : ℕ} (hle : r.1 ≤ addr)
    (hlt : addr < r.2) : remainder decoder mem regions addr =
      rangeOf decoder mem addr r.2 ++ remainder decoder mem regions r.2 := by
  obtain ⟨before, after, rfl⟩ := List.append_of_mem hr
  obtain ⟨-, hafter, hbefore⟩ := List.pairwise_append.mp hregions.separated
  have hpast : ∀ r' ∈ before, r'.2 ≤ addr := fun r' hr' =>
    (hbefore r' hr' r List.mem_cons_self).trans hle
  have hahead : ∀ r' ∈ after, r.2 ≤ r'.1 ∧ r'.1 < r'.2 := fun r' hr' =>
    ⟨(List.pairwise_cons.mp hafter).1 r' hr', hregions.nonempty r' (by simp [hr'])⟩
  have hhere : remainder decoder mem [r] addr = rangeOf decoder mem addr r.2 := by
    rw [remainder, List.filter_cons_of_pos (by simpa using hlt), List.filter_nil,
      List.flatMap_singleton, max_eq_left hle]
  rw [← List.singleton_append, remainder_append, remainder_append, remainder_append,
    remainder_append, remainder_of_le hpast, hhere,
    remainder_of_le (fun r' hr' => (hpast r' hr').trans hlt.le),
    remainder_of_le (by simp : ∀ r' ∈ [r], r'.2 ≤ r.2), List.nil_append, List.nil_append,
    List.nil_append, remainder_congr hlt.le fun r' hr' => .inr (hahead r' hr')]

variable (decoder mem) in
/-- From an address that is inside no region, the view goes on with what is left. -/
theorem nextRegionStart_eq (addr : ℕ) (hout : ∀ r ∈ regions, r.1 < addr → r.2 ≤ addr) :
    (nextRegionStart regions addr).elim [] (remainder decoder mem regions) =
      remainder decoder mem regions addr ∧
      ∀ p, nextRegionStart regions addr = some p →
        addr ≤ p ∧ ∃ r ∈ regions, r.1 ≤ p ∧ p < r.2 := by
  have hmem : ∀ r ∈ regions, addr ≤ r.1 → r.1 ∈ (regions.map Prod.fst).filter (addr ≤ ·) :=
    fun r hr hle => List.mem_filter.mpr ⟨List.mem_map_of_mem hr, decide_eq_true hle⟩
  cases hnext : nextRegionStart regions addr with
  | none =>
    rw [nextRegionStart, List.min?_eq_none_iff] at hnext
    refine ⟨(remainder_of_le fun r hr => ?_).symm, fun p hp => nomatch hp⟩
    by_contra hlt
    have := hmem r hr (by have := hout r hr; omega)
    rw [hnext] at this
    cases this
  | some p =>
    obtain ⟨hp, hmin⟩ := List.min?_eq_some_iff.mp hnext
    obtain ⟨hp, hle⟩ := List.mem_filter.mp hp
    obtain ⟨r, hr, rfl⟩ := List.mem_map.mp hp
    have hle := of_decide_eq_true hle
    refine ⟨(remainder_congr hle fun r' hr' => ?_).symm, fun p hp => ?_⟩
    · have hne := hregions.nonempty r' hr'
      by_cases hlt : r'.1 < addr
      · exact .inl (hout r' hr' hlt)
      · exact .inr ⟨hmin _ (hmem r' hr' (Nat.le_of_not_lt hlt)), hne⟩
    · cases hp
      exact ⟨hle, r, hr, le_rfl, hregions.nonempty r hr⟩

end CodeRegions

/-- An instruction that decodes in a part of the code is the one that decodes in all of it. -/
theorem instructionAt_of_isDecoded (h : decoder.PrefixSafe) {q cut stop : ℕ} (hq : q < cut)
    (hcut : cut ≤ stop) (hdecoded : isDecoded (instructionAt decoder mem true q cut) = true) :
    instructionAt decoder mem true q stop = instructionAt decoder mem true q cut := by
  have htake : (memBytes mem q (stop - q)).take (cut - q) = memBytes mem q (cut - q) := by
    rw [memBytes_take, min_eq_left (by omega)]
  rcases h.cut (memBytes mem q (stop - q)) q (cut - q) with hsame | hjunk
  · rw [htake] at hsame
    have hle := (h.reads mem true).end_le q cut hq
    change q + (decoder.decode (memBytes mem q (cut - q)) q).len ≤ cut at hle
    refine (instructionData_congr hsame ?_).symm
    rw [memBytes_take, memBytes_take]
    congr 1
    omega
  · rw [htake] at hjunk
    simp [isDecoded, instructionAt, InstructionDecoder.instructionData, hjunk] at hdecoded

/-- A range gives nothing when its first instruction does not decode. -/
theorem rangeOf_eq_nil (h : decoder.Local) {p stop : ℕ} (hp : p < stop) :
    rangeOf decoder mem p stop = [] ↔ isDecoded (instructionAt decoder mem true p stop) = false := by
  rw [rangeOf, linearSweep, (h.reads mem true).sweep_cons hp, List.takeWhile_cons]
  split_ifs with hdecoded
  · simp [hdecoded]
  · simpa using hdecoded

/-- A chunk gives what the rest of its region begins with: the rest goes on where the chunk's last
instruction ends, and where the chunk gives nothing, neither does the rest. -/
theorem rangeOf_chunk (h : decoder.PrefixSafe) (mem : ℕ → UInt8) {p re chunkBytes : ℕ}
    (hchunk : 15 ≤ chunkBytes)
    (hp : p < re) :
    match (rangeOf decoder mem p (p + min chunkBytes (re - p))).getLast?.map
      fun i => i.address + i.length with
    | some stop => p < stop ∧ stop ≤ re ∧ rangeOf decoder mem p re =
        rangeOf decoder mem p (p + min chunkBytes (re - p)) ++ rangeOf decoder mem stop re
    | none => rangeOf decoder mem p re = rangeOf decoder mem p (p + min chunkBytes (re - p)) := by
  have hreads := h.reads mem true
  obtain ⟨cut, hcut⟩ : ∃ cut, cut = p + min chunkBytes (re - p) := ⟨_, rfl⟩
  have hsplit : rangeOf decoder mem p cut ++ rangeOf decoder mem
      (resume InstructionData.address InstructionData.length p (rangeOf decoder mem p cut)) re =
      rangeOf decoder mem p re :=
    hreads.takeWhile_resume (by omega) (fun q hq hkeep =>
      instructionAt_of_isDecoded h hq (by omega) hkeep) p
  rw [← hcut]
  cases hlast : (rangeOf decoder mem p cut).getLast? with
  | none =>
    have hnil := List.getLast?_eq_none_iff.mp hlast
    by_cases hshort : re ≤ cut
    · rw [show cut = re by omega]
      rfl
    · have hsame := hreads.near p re cut (by omega) (by omega)
      rw [rangeOf_eq_nil h.toLocal (by omega)] at hnil
      change rangeOf decoder mem p re = rangeOf decoder mem p cut
      rw [(rangeOf_eq_nil h.toLocal hp).mpr (hsame ▸ hnil), (rangeOf_eq_nil h.toLocal (by omega)).mpr
        hnil]
  | some i =>
    have hi := hreads.bounds (List.takeWhile_subset _ (List.mem_of_getLast? hlast))
    rw [resume, hlast] at hsplit
    simp only [Option.map_some]
    exact ⟨by omega, by omega, hsplit.symm⟩

variable (decoder mem) in
/-- What a session has decoded and what is left of its regions are everything there is to see, and
it goes on within a region. -/
structure Follows (all : List InstructionData) (view : LinearView) : Prop where
  split : view.linearInsns ++ view.linearNext.elim [] (remainder decoder mem view.linearRegions) =
    all
  inside : ∀ p, view.linearNext = some p → ∃ r ∈ view.linearRegions, r.1 ≤ p ∧ p < r.2

/-- A session begins with everything that its regions have from its start on. -/
theorem linearReset_follows (view : LinearView) (hregions : CodeRegions view.linearRegions)
    (start : ℕ) : Follows decoder mem (remainder decoder mem view.linearRegions start)
      (view.linearReset start) := by
  by_cases hin : (regionOf view.linearRegions start).isSome = true
  · have hnext : (view.linearReset start).linearNext = some start := if_pos hin
    exact ⟨by rw [hnext]; rfl, fun p hp => by
      cases hnext.symm.trans hp
      exact regionOf_isSome.mp hin⟩
  · have hnext : (view.linearReset start).linearNext = nextRegionStart view.linearRegions start :=
      if_neg hin
    obtain ⟨hrest, hinside⟩ := hregions.nextRegionStart_eq decoder mem start
      fun r hr hlt => by
        by_contra hle
        exact hin (regionOf_isSome.mpr ⟨r, hr, hlt.le, by omega⟩)
    exact ⟨by rw [hnext]; exact hrest, fun p hp => (hinside p (hnext ▸ hp)).2⟩

section Run
variable {read : ReadBuf} {osErrorMessage : ℤ → String} {chunkBytes : ℕ} {view : LinearView}
  {all : List InstructionData}

/-- A chunk that is disassembled is appended, and the next one begins behind its last instruction
while there is more of the region. -/
theorem extendLinear_chunk (hroom : view.linearInsns.length < linearMaxInsns) {p rs re : ℕ}
    (hp : view.linearNext = some p) (hregion : regionOf view.linearRegions p = some (rs, re))
    (hlen : min chunkBytes (re - p) ≠ 0) {insns : List InstructionData}
    (hdisassemble : disassembleRange decoder read p (min chunkBytes (re - p)) = .ok insns) :
    view.extendLinear decoder read osErrorMessage chunkBytes =
      { view with
        linearInsns := view.linearInsns ++ insns
        linearNext :=
          match insns.getLast?.map fun i => i.address + i.length with
          | some stop =>
            if stop < re then some stop else nextRegionStart view.linearRegions re
          | none => nextRegionStart view.linearRegions re } := by
  rw [LinearView.extendLinear, if_neg (Nat.not_le.mpr hroom), hp]
  simp only [hregion, hdisassemble]
  rw [if_neg hlen]

/-- One chunk: the session still follows the regions, and it has gone on. -/
theorem extendLinear_follows (h : decoder.PrefixSafe) (hregions : CodeRegions view.linearRegions)
    (hread : ∀ r ∈ view.linearRegions, read.Fills mem r.1 r.2) (hchunk : 15 ≤ chunkBytes)
    (hfollows : Follows decoder mem all view) (hroom : view.linearInsns.length < linearMaxInsns)
    {p : ℕ} (hp : view.linearNext = some p) :
    Follows decoder mem all (view.extendLinear decoder read osErrorMessage chunkBytes) ∧
      ∀ p', (view.extendLinear decoder read osErrorMessage chunkBytes).linearNext = some p' →
        p < p' := by
  obtain ⟨⟨rs, re⟩, hregion⟩ := Option.isSome_iff_exists.mp
    (regionOf_isSome.mpr (hfollows.inside p hp))
  obtain ⟨hmem, hle, hlt⟩ := regionOf_eq_some hregion
  obtain ⟨hrest, hinside⟩ := hregions.nextRegionStart_eq decoder mem re
    fun r hr hbelow => by
      have := hregions.straddles hmem hr
      omega
  have hsplit := hfollows.split
  rw [hp, Option.elim_some, hregions.remainder_eq hmem hle hlt] at hsplit
  have hrange := rangeOf_chunk h mem hchunk hlt
  have hdisassemble := h.disassembleRange_eq (hread _ hmem) hle
    (show p + min chunkBytes (re - p) ≤ re by omega)
  change _ = Except.ok (rangeOf decoder mem p (p + min chunkBytes (re - p))) at hdisassemble
  generalize rangeOf decoder mem p (p + min chunkBytes (re - p)) = insns at hrange hdisassemble
  rw [extendLinear_chunk hroom hp hregion (show min chunkBytes (re - p) ≠ 0 by omega) hdisassemble]
  -- Where the region is through, the next one is up.
  have hthrough (hall : rangeOf decoder mem p re = insns) : Follows decoder mem all
      { view with
        linearInsns := view.linearInsns ++ insns
        linearNext := nextRegionStart view.linearRegions re } ∧
      ∀ p', nextRegionStart view.linearRegions re = some p' → p < p' := by
    refine ⟨⟨?_, fun p' hp' => (hinside p' hp').2⟩, fun p' hp' => ?_⟩
    · rw [hrest, ← hall, List.append_assoc, hsplit]
    · have := (hinside p' hp').1
      omega
  cases hlast : insns.getLast?.map fun i => i.address + i.length with
  | none =>
    rw [hlast] at hrange
    exact hthrough hrange
  | some stop =>
    rw [hlast] at hrange
    obtain ⟨hprogress, hstop, hrange⟩ := hrange
    by_cases hinner : stop < re
    · simp only [if_pos hinner]
      refine ⟨⟨?_, fun p' hp' => ?_⟩, fun p' hp' => ?_⟩
      · rw [Option.elim_some, hregions.remainder_eq hmem (hle.trans hprogress.le) hinner,
          ← hsplit, hrange]
        simp only [List.append_assoc]
      · cases hp'
        exact ⟨(rs, re), hmem, by omega, hinner⟩
      · cases hp'
        exact hprogress
    · simp only [if_neg hinner]
      refine hthrough ?_
      rw [hrange, show stop = re by omega, rangeOf, linearSweep, sweep_of_le le_rfl,
        List.takeWhile_nil, List.append_nil]

variable (decoder read osErrorMessage chunkBytes) in
theorem extendLinear_regions (view : LinearView) :
    (view.extendLinear decoder read osErrorMessage chunkBytes).linearRegions =
      view.linearRegions := by
  unfold LinearView.extendLinear
  split
  · rfl
  · split
    · rfl
    · split
      · rfl
      · dsimp only
        split
        · rfl
        · split <;> rfl

/-- At every time, a session has decoded a first part of everything there is to see. -/
theorem iterate_extendLinear_initial (h : decoder.PrefixSafe)
    (hregions : CodeRegions view.linearRegions)
    (hread : ∀ r ∈ view.linearRegions, read.Fills mem r.1 r.2) (hchunk : 15 ≤ chunkBytes)
    (hfollows : Follows decoder mem all view) (n : ℕ) :
    ((LinearView.extendLinear decoder read osErrorMessage chunkBytes)^[n] view).linearInsns <+:
      all := by
  suffices hinv : ∀ v, v = (LinearView.extendLinear decoder read osErrorMessage chunkBytes)^[n] view →
      v.linearRegions = view.linearRegions ∧
        (Follows decoder mem all v ∨ v.linearNext = none ∧ v.linearInsns <+: all) by
    rcases (hinv _ rfl).2 with hfollows | ⟨-, hprefixed⟩
    · exact ⟨_, hfollows.split⟩
    · exact hprefixed
  induction n with
  | zero => exact fun v hv => ⟨by rw [hv]; rfl, .inl (hv ▸ hfollows)⟩
  | succ n ih =>
    intro v hv
    rw [Function.iterate_succ_apply'] at hv
    obtain ⟨hfixed, hcases⟩ := ih _ rfl
    generalize (LinearView.extendLinear decoder read osErrorMessage chunkBytes)^[n] view = w
      at hv hfixed hcases
    refine ⟨by rw [hv, extendLinear_regions, hfixed], ?_⟩
    have hprefixed : w.linearInsns <+: all := by
      rcases hcases with hfollows | ⟨-, hprefixed⟩
      · exact ⟨_, hfollows.split⟩
      · exact hprefixed
    by_cases hroom : w.linearInsns.length < linearMaxInsns
    · cases hnext : w.linearNext with
      | none =>
        have hsame : v = w := by
          rw [hv, LinearView.extendLinear, if_neg (Nat.not_le.mpr hroom), hnext]
        exact .inr (hsame ▸ ⟨hnext, hprefixed⟩)
      | some p =>
        rcases hcases with hfollows | ⟨hnone, -⟩
        · rw [← hfixed] at hregions hread
          exact .inl (hv ▸ (extendLinear_follows h hregions hread hchunk hfollows hroom hnext).1)
        · rw [hnext] at hnone
          cases hnone
    · rw [LinearView.extendLinear, if_pos (Nat.le_of_not_lt hroom)] at hv
      exact .inr (hv ▸ ⟨rfl, hprefixed⟩)

/-- Chunk by chunk, a session comes to its end, and everything there is to see has been decoded. -/
theorem extendLinear_finishes (h : decoder.PrefixSafe) (view : LinearView)
    (hregions : CodeRegions view.linearRegions)
    (hread : ∀ r ∈ view.linearRegions, read.Fills mem r.1 r.2) (hchunk : 15 ≤ chunkBytes)
    (hfollows : Follows decoder mem all view) (hroom : all.length < linearMaxInsns) {bound : ℕ}
    (hbound : ∀ r ∈ view.linearRegions, r.2 ≤ bound) :
    ∃ n, (∀ m < n, ((LinearView.extendLinear decoder read osErrorMessage chunkBytes)^[m]
        view).linearNext ≠ none) ∧
      ((LinearView.extendLinear decoder read osErrorMessage chunkBytes)^[n]
        view).linearNext = none ∧
      ((LinearView.extendLinear decoder read osErrorMessage chunkBytes)^[n]
        view).linearInsns = all := by
  cases hnext : view.linearNext with
  | none =>
    have hsplit := hfollows.split
    rw [hnext, Option.elim_none, List.append_nil] at hsplit
    exact ⟨0, fun m hm => absurd hm (Nat.not_lt_zero m), hnext, hsplit⟩
  | some p =>
    have hheld : view.linearInsns.length < linearMaxInsns := by
      have := congrArg List.length hfollows.split
      rw [List.length_append] at this
      omega
    obtain ⟨hfollows', hprogress⟩ := extendLinear_follows h hregions hread hchunk
      hfollows hheld hnext
    have hregions' := extendLinear_regions decoder read osErrorMessage chunkBytes view
    have hmeasure : (view.extendLinear decoder read osErrorMessage chunkBytes).linearNext.elim 0
        (fun p' => bound - p' + 1) < bound - p + 1 := by
      cases hnext' : (view.extendLinear decoder read osErrorMessage chunkBytes).linearNext with
      | none => exact Nat.succ_pos _
      | some p' =>
        obtain ⟨r, hr, -, hlt⟩ := hfollows'.inside p' hnext'
        have := hprogress p' hnext'
        have := hbound r (hregions' ▸ hr)
        simp only [Option.elim_some]
        omega
    obtain ⟨n, hbusy, hdone⟩ := extendLinear_finishes h _ (hregions'.symm ▸ hregions)
      (fun r hr => hread r (hregions' ▸ hr)) hchunk hfollows' hroom
      fun r hr => hbound r (hregions' ▸ hr)
    refine ⟨n + 1, fun m hm => ?_, hdone⟩
    cases m with
    | zero => rw [Function.iterate_zero, id, hnext]; exact Option.some_ne_none p
    | succ m => exact hbusy m (Nat.lt_of_succ_lt_succ hm)
termination_by view.linearNext.elim 0 fun p => bound - p + 1
decreasing_by simpa only [hnext, Option.elim_some] using hmeasure

/-- The instructions of a range lie in it. -/
theorem mem_rangeOf (h : decoder.Local) {start stop : ℕ} {i : InstructionData}
    (hi : i ∈ rangeOf decoder mem start stop) :
    start ≤ i.address ∧ 0 < i.length ∧ i.address + i.length ≤ stop :=
  (h.reads mem true).bounds (List.takeWhile_subset _ hi)

/-- Instructions lie one behind the other when each begins at or behind the end of those before. -/
def Apart (i j : InstructionData) : Prop := i.address < j.address ∧ i.address + i.length ≤ j.address

theorem remainder_apart (h : decoder.Local) (hregions : CodeRegions regions) (start : ℕ) :
    (remainder decoder mem regions start).Pairwise Apart := by
  have hapart : ∀ (a b : ℕ), (rangeOf decoder mem a b).Pairwise Apart := fun a b =>
    (((h.reads mem true).separated b a).imp_of_mem fun {i j} hi _ hij => by
      have := ((h.reads mem true).bounds hi).2.1
      exact ⟨by omega, hij⟩).sublist (List.takeWhile_sublist _)
  rw [remainder, List.pairwise_flatMap]
  refine ⟨fun r _ => hapart _ _, (hregions.separated.filter _).imp fun {a b} hab i hi j hj => ?_⟩
  have := mem_rangeOf h hi
  have := mem_rangeOf h hj
  have := le_max_right start b.1
  exact ⟨by omega, by omega⟩

/-- Scrolling to the end of a session shows what disassembling the rest of each region in one call
gives, and the rows never overlap on the way. -/
theorem extendLinear_run (h : decoder.PrefixSafe) (view : LinearView)
    (hregions : CodeRegions view.linearRegions)
    (hread : ∀ r ∈ view.linearRegions, read.Fills mem r.1 r.2) (hchunk : 15 ≤ chunkBytes)
    (start : ℕ) : ∃ parts,
      (view.linearRegions.filter (start < ·.2)).mapM (fun r =>
        disassembleRange decoder read (max start r.1) (r.2 - max start r.1)) = .ok parts ∧
      (∀ n, ((LinearView.extendLinear decoder read osErrorMessage chunkBytes)^[n]
        (view.linearReset start)).linearInsns.Pairwise Apart) ∧
      (parts.flatten.length < linearMaxInsns → ∃ n,
        (∀ m < n, ((LinearView.extendLinear decoder read osErrorMessage chunkBytes)^[m]
          (view.linearReset start)).linearNext ≠ none) ∧
        ((LinearView.extendLinear decoder read osErrorMessage chunkBytes)^[n]
          (view.linearReset start)).linearNext = none ∧
        ((LinearView.extendLinear decoder read osErrorMessage chunkBytes)^[n]
          (view.linearReset start)).linearInsns = parts.flatten) := by
  have hreset : CodeRegions (view.linearReset start).linearRegions := hregions
  have hfollows : Follows decoder mem (remainder decoder mem view.linearRegions start)
      (view.linearReset start) := linearReset_follows view hregions start
  have hparts : ∀ r ∈ view.linearRegions.filter (start < ·.2),
      disassembleRange decoder read (max start r.1) (r.2 - max start r.1) =
        .ok (rangeOf decoder mem (max start r.1) r.2) := by
    intro r hr
    obtain ⟨hr, hlt⟩ := List.mem_filter.mp hr
    have hne := hregions.nonempty r hr
    have hmax : max start r.1 ≤ r.2 := max_le (of_decide_eq_true hlt).le hne.le
    rw [h.disassembleRange_eq (hread r hr) (le_max_right _ _) (Nat.add_sub_cancel' hmax).le,
      Nat.add_sub_cancel' hmax]
    rfl
  refine ⟨_, mapM_eq_ok hparts, fun n => ?_, fun hroom => ?_⟩
  · exact (remainder_apart h.toLocal hregions start).sublist
      (iterate_extendLinear_initial h hreset hread hchunk hfollows n).sublist
  · rw [← List.flatMap_def] at hroom ⊢
    exact extendLinear_finishes h _ hreset hread hchunk hfollows hroom (fun r hr =>
      List.le_max?_getD_of_mem (k := 0) (List.mem_map_of_mem hr))

end Run

end OverMemory

/-- Two regions of `nop` instructions, the first longer than a chunk, viewed from within it. -/
def nopView : LinearView := ⟨[(4096, 69632), (131072, 135168)], [], none, none, none⟩

theorem extendLinear_run_nop : ∃ parts,
    (nopView.linearRegions.filter (5000 < ·.2)).mapM (fun r =>
      disassembleRange InstructionDecoder.shortDecoder nopRead (max 5000 r.1)
        (r.2 - max 5000 r.1)) = .ok parts ∧
    (∀ n, ((LinearView.extendLinear InstructionDecoder.shortDecoder nopRead (fun _ => "")
      linearChunkBytes)^[n] (nopView.linearReset 5000)).linearInsns.Pairwise Apart) ∧
    (parts.flatten.length < linearMaxInsns → ∃ n,
      (∀ m < n, ((LinearView.extendLinear InstructionDecoder.shortDecoder nopRead (fun _ => "")
        linearChunkBytes)^[m] (nopView.linearReset 5000)).linearNext ≠ none) ∧
      ((LinearView.extendLinear InstructionDecoder.shortDecoder nopRead (fun _ => "")
        linearChunkBytes)^[n] (nopView.linearReset 5000)).linearNext = none ∧
      ((LinearView.extendLinear InstructionDecoder.shortDecoder nopRead (fun _ => "")
        linearChunkBytes)^[n] (nopView.linearReset 5000)).linearInsns = parts.flatten) :=
  extendLinear_run InstructionDecoder.shortDecoder_prefixSafe nopView
    ⟨by decide, by simp [nopView]⟩ (fun _ _ _ _ _ _ => rfl) (by decide) 5000

end Nemclass.Ui
