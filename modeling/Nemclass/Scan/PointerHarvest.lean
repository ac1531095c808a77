import Nemclass.Lib.KeySort
import Nemclass.Lib.Multiples
import Nemclass.Scan.FirstScan
import Nemclass.Scan.PointerScan
import Nemclass.Scan.SpiderSearch

/-! Harvesting a pointer map: the regions are read in chunks that overlap by one
word, and every aligned word that points into a region is recorded. An address
computation that leaves the address space ends the harvest with `overflow`. -/
namespace Nemclass.Scan
open Usize Multiples KeySort

def chunk : ℕ := 2 ^ 20

/-- The recorded `(value, holder)` pairs, in the order they were read. -/
structure Harvest (σ : Type) where
  world : σ
  entries : List (ℕ × ℕ)
  bounded : ∀ e ∈ entries, e.1 ≤ usizeMax ∧ e.2 ≤ usizeMax

inductive HarvestExit where
  | go
  | capped
  | overflow
  | failed (e : Error)
deriving DecidableEq, Repr

theorem le_of_checkedAdd {a b sum : ℕ} (h : checkedAdd a b = some sum) : sum ≤ usizeMax := by
  obtain ⟨rfl, hle⟩ := checkedAdd_eq_some.mp h
  exact hle

namespace Harvest
variable {σ : Type}

def start (world : σ) : Harvest σ := ⟨world, [], by simp⟩

def push (h : Harvest σ) (val addr : ℕ) (hval : val ≤ usizeMax) (haddr : addr ≤ usizeMax) :
    Harvest σ where
  world := h.world
  entries := h.entries ++ [(val, addr)]
  bounded e he := by
    rcases List.mem_append.mp he with he | he
    · exact h.bounded e he
    · obtain rfl := List.mem_singleton.mp he
      exact ⟨hval, haddr⟩

end Harvest

namespace PointerScanConfig

/-- The pointer width that is harvested with. -/
def psize (cfg : PointerScanConfig) : ℕ := max cfg.pointerSize 1

def align (cfg : PointerScanConfig) : ℕ := max cfg.alignment 1

theorem psize_pos (cfg : PointerScanConfig) : 0 < cfg.psize := Nat.le_max_right _ _

theorem align_pos (cfg : PointerScanConfig) : 0 < cfg.align := Nat.le_max_right _ _

end PointerScanConfig

section Walk
variable {σ : Type} (target : ScanTarget σ) (cfg : PointerScanConfig) (ranges : List Range)

/-- One word of a window: recorded, if it points into a region. -/
def record (pos i : ℕ) (word : List UInt8) (h : Harvest σ) : HarvestExit × Harvest σ :=
  match haddr : checkedAdd pos i with
  | none => (.overflow, h)
  | some addr =>
    if isMapped ranges (readWord word) then
      let h := h.push (readWord word) addr (readWord_le word) (le_of_checkedAdd haddr)
      if cfg.maxMapEntries ≤ h.entries.length then (.capped, h) else (.go, h)
    else (.go, h)

/-- The slot loop of one window, from offset `i` on. -/
def harvestWindow (pos : ℕ) (buf : List UInt8) (i : ℕ) (h : Harvest σ) :
    HarvestExit × Harvest σ :=
  match _hstop : checkedAdd i cfg.psize with
  | none => (.overflow, h)
  | some stop =>
    if stop ≤ buf.length then
      match record cfg ranges pos i ((buf.drop i).take cfg.psize) h with
      | (.go, h) =>
        match _hnext : checkedAdd i cfg.align with
        | none => (.overflow, h)
        | some next => harvestWindow pos buf next h
      | stopped => stopped
    else (.go, h)
termination_by buf.length - i
decreasing_by
  have := cfg.align_pos
  have := cfg.psize_pos
  have := (checkedAdd_eq_some.mp _hnext).1
  have := (checkedAdd_eq_some.mp _hstop).1
  omega

/-- The chunks of one region, from `pos` on; `bufLen` is the length of a full one. -/
def harvestChunks (bufLen stop pos : ℕ) (h : Harvest σ) : HarvestExit × Harvest σ :=
  if pos < stop then
    let want := min (stop - pos) bufLen
    match target.read h.world pos want with
    | (.error e, world) => (.failed e, { h with world })
    | (.ok buf, world) =>
      let h := { h with world }
      let n := buf.val.length
      if n < cfg.psize then (.go, h)
      else
        match checkedNextMultipleOf pos cfg.align with
        | none => (.overflow, h)
        | some first =>
          match harvestWindow cfg ranges pos buf.val (first - pos) h with
          | (.go, h) =>
            if want ≤ cfg.psize then (.go, h)
            else harvestChunks bufLen stop (pos + (want - cfg.psize)) h
          | stopped => stopped
  else (.go, h)
termination_by stop - pos
decreasing_by
  have := cfg.psize_pos
  omega

def harvestRegion (region : Region) (h : Harvest σ) : HarvestExit × Harvest σ :=
  match checkedAdd chunk cfg.psize with
  | none => (.overflow, h)
  | some bufLen => harvestChunks target cfg ranges bufLen region.stop region.base h

def harvestRegions : List Region → Harvest σ → HarvestExit × Harvest σ
  | [], h => (.go, h)
  | region :: regions, h =>
    match harvestRegion target cfg ranges region h with
    | (.go, h) => harvestRegions regions h
    | stopped => stopped

end Walk

namespace PointerMap
variable {σ : Type}

/-- The entries as they are kept: sorted by value, equal neighbours dropped. -/
def ofHarvest (sort : UnstableSort (Prod.fst : ℕ × ℕ → ℕ)) (h : Harvest σ) (truncated : Bool) :
    PointerMap where
  entries := dropRepeats (sort.run h.entries)
  truncated := truncated
  sorted := (sort.sorted h.entries).sublist (dropRepeats_sublist _)
  bounded e he := h.bounded e ((sort.perm h.entries).mem_iff.mp (mem_dropRepeats.mp he))

inductive BuildFailure where
  | error (e : Error)
  | overflow
deriving DecidableEq, Repr

def finish (sort : UnstableSort (Prod.fst : ℕ × ℕ → ℕ)) :
    HarvestExit × Harvest σ → Except BuildFailure PointerMap × σ
  | (.go, h) => (.ok (ofHarvest sort h false), h.world)
  | (.capped, h) => (.ok (ofHarvest sort h true), h.world)
  | (.overflow, h) => (.error .overflow, h.world)
  | (.failed e, h) => (.error (.error e), h.world)

/-- Harvest all aligned pointers from the target's regions. -/
def build (sort : UnstableSort (Prod.fst : ℕ × ℕ → ℕ)) (target : ScanTarget σ)
    (cfg : PointerScanConfig) (world : σ) : Except BuildFailure PointerMap × σ :=
  match target.regions world with
  | (.error e, world) => (.error (.error e), world)
  | (.ok regions, world) =>
    finish sort (harvestRegions target cfg (sortedRanges regions) regions (.start world))

end PointerMap

end Nemclass.Scan
