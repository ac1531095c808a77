import Nemclass.Scan.Scanner

/-! A pass over a target and an observer that write down what they are asked. The log is
part of the world, and the pass never looks at it: without its log, a recorded pass is
the pass. -/
namespace Nemclass.Scan
open Multiples

/-- What a pass asks of its target and its observer. -/
inductive Query where
  | read (addr len : ℕ)
  | tick (progress : ScanProgress)
deriving DecidableEq

variable {σ : Type}

def ScanTarget.recorded (target : ScanTarget σ) : ScanTarget (σ × List Query) where
  regions world :=
    let (answer, next) := target.regions world.1
    (answer, next, world.2)
  read world addr len :=
    let (answer, next) := target.read world.1 addr len
    (answer, next, world.2 ++ [.read addr len])

def ScanObserver.recorded (observer : ScanObserver σ) : ScanObserver (σ × List Query) where
  tick world progress :=
    let (go, next) := observer.tick world.1 progress
    (go, next, world.2 ++ [.tick progress])

/-- The walk, without the log of what was asked. -/
def Walk.unrecorded (w : Walk (σ × List Query)) : Walk σ := { w with world := w.world.1 }

/-- The `done` counts a log has ticks for, in order. -/
def reports (log : List Query) : List ℕ :=
  log.filterMap fun
    | .tick progress => some progress.done
    | .read _ _ => none

/-- The requests of a log, in order. -/
def requests (log : List Query) : List (ℕ × ℕ) :=
  log.filterMap fun
    | .read addr len => some (addr, len)
    | .tick _ => none

@[simp] theorem reports_concat_tick (log : List Query) (progress : ScanProgress) :
    reports (log ++ [.tick progress]) = reports log ++ [progress.done] := by
  simp [reports]

@[simp] theorem reports_concat_read (log : List Query) (addr len : ℕ) :
    reports (log ++ [.read addr len]) = reports log := by
  simp [reports]

@[simp] theorem requests_concat_tick (log : List Query) (progress : ScanProgress) :
    requests (log ++ [.tick progress]) = requests log := by
  simp [requests]

@[simp] theorem requests_concat_read (log : List Query) (addr len : ℕ) :
    requests (log ++ [.read addr len]) = requests log ++ [(addr, len)] := by
  simp [requests]

namespace FirstPass
variable (p : FirstPass σ)

def recorded : FirstPass (σ × List Query) :=
  { p with target := p.target.recorded, observer := p.observer.recorded }

@[simp] theorem recorded_align : p.recorded.align = p.align := rfl

/-- A read is written down with its request, whatever the answer. -/
theorem recorded_read (world : σ × List Query) (addr len : ℕ) :
    (p.recorded.target.read world addr len).2.2 = world.2 ++ [.read addr len] := rfl

theorem tick_unrecorded (sinceTick : ℕ) (w : Walk (σ × List Query)) :
    p.tick sinceTick w.unrecorded =
      Prod.map id (Prod.map id Walk.unrecorded) (p.recorded.tick sinceTick w) := by
  unfold tick
  split
  · rfl
  · rfl

theorem scanWindow_unrecorded (addr : ℕ) (buf : List UInt8) (offs : List ℕ) (sinceTick : ℕ)
    (w : Walk (σ × List Query)) :
    p.scanWindow addr buf offs sinceTick w.unrecorded =
      Prod.map id (Prod.map id Walk.unrecorded)
        (p.recorded.scanWindow addr buf offs sinceTick w) := by
  have hmatched (off : ℕ) : p.recorded.matched buf off = p.matched buf off := rfl
  induction offs generalizing sinceTick w with
  | nil => rfl
  | cons off offs ih =>
    unfold scanWindow
    rw [p.tick_unrecorded]
    rcases p.recorded.tick sinceTick w with ⟨_ | _, sinceTick, w⟩
    · rfl
    · simp only [Prod.map_apply, id_eq, hmatched]
      split
      · symm
        split
        · rename_i hfull
          exact (if_pos hfull).symm
        · rename_i hmore
          exact (ih _ _).symm.trans (if_neg hmore).symm
      · exact ih _ _

theorem read_unrecorded {w : Walk (σ × List Query)} {addr len : ℕ}
    {answer : Except Error (Transfer len)} {world : σ × List Query}
    (h : p.recorded.target.read w.world addr len = (answer, world)) :
    p.target.read w.unrecorded.world addr len = (answer, world.1) := by
  cases h
  rfl

theorem walkRegion_unrecorded (regionEnd addr sinceTick : ℕ) (w : Walk (σ × List Query)) :
    p.walkRegion regionEnd addr sinceTick w.unrecorded =
      Prod.map id Walk.unrecorded (p.recorded.walkRegion regionEnd addr sinceTick w) := by
  have hwindow (addr : ℕ) (buf : List UInt8) (sinceTick : ℕ) (w : Walk (σ × List Query))
      {exit : WindowExit} {sinceTick' : ℕ} {w' : Walk (σ × List Query)}
      (hwin : p.recorded.scanWindow addr buf (stepBy (buf.length - p.stride) p.align) sinceTick w =
        (exit, sinceTick', w')) :
      p.scanWindow addr buf (stepBy (buf.length - p.stride) p.align) sinceTick w.unrecorded =
        (exit, sinceTick', w'.unrecorded) := by
    rw [p.scanWindow_unrecorded, hwin]
    rfl
  fun_induction p.recorded.walkRegion regionEnd addr sinceTick w with
  | case1 addr sinceTick w hlt _ _ _ _ heq => exact p.walkRegion_failed hlt (p.read_unrecorded heq)
  | case2 addr sinceTick w hlt _ _ _ _ heq _ _ hshort =>
    exact p.walkRegion_short hlt (p.read_unrecorded heq) hshort
  | case3 addr sinceTick w hlt _ _ buf _ heq w₀ _ hlong _ _ hwin
  | case4 addr sinceTick w hlt _ _ buf _ heq w₀ _ hlong _ _ hwin =>
    exact p.walkRegion_window hlt (p.read_unrecorded heq) hlong (hwindow _ _ _ w₀ hwin)
  | case5 addr sinceTick w hlt _ _ buf _ heq w₀ _ hlong _ _ hwin hnext =>
    have hadvance : p.advance addr buf.val.length = none := hnext
    rw [p.walkRegion_window hlt (p.read_unrecorded heq) hlong (hwindow _ _ _ w₀ hwin), hadvance]
    rfl
  | case6 addr sinceTick w hlt _ _ buf _ heq w₀ _ hlong _ _ hwin next hnext ih =>
    have hadvance : p.advance addr buf.val.length = some next := hnext
    rw [p.walkRegion_window hlt (p.read_unrecorded heq) hlong (hwindow _ _ _ w₀ hwin), hadvance]
    exact ih
  | case7 addr sinceTick w hge => exact p.walkRegion_past hge sinceTick w.unrecorded

theorem scanRegionFirst_unrecorded (region : Region) (w : Walk (σ × List Query)) :
    p.scanRegionFirst region w.unrecorded =
      Prod.map id Walk.unrecorded (p.recorded.scanRegionFirst region w) := by
  unfold scanRegionFirst
  rw [recorded_align]
  split
  · rfl
  · exact p.walkRegion_unrecorded region.stop _ 0 w

/-- Writing down what a pass asks changes nothing of the pass. -/
theorem scanRegions_unrecorded (regions : List Region) (w : Walk (σ × List Query)) :
    p.scanRegions regions w.unrecorded =
      Prod.map id Walk.unrecorded (p.recorded.scanRegions regions w) := by
  induction regions generalizing w with
  | nil => rfl
  | cons region regions ih =>
    unfold scanRegions
    rw [p.scanRegionFirst_unrecorded]
    rcases p.recorded.scanRegionFirst region w with ⟨_ | ⟨_ | _⟩, w⟩
    · rfl
    · symm
      dsimp only [Prod.map_apply, id_eq]
      split
      · rename_i hfull
        exact (if_pos hfull).symm
      · rename_i hmore
        exact (ih w).symm.trans (if_neg hmore).symm
    · rfl

end FirstPass

/-- And so nothing of a first scan. -/
theorem Scanner.firstScanWith_unrecorded (s : Scanner) (target : ScanTarget σ)
    (observer : ScanObserver σ) (compare : ScanCompareType) (needle : Option Needle)
    (world : σ × List Query) :
    s.firstScanWith target observer compare needle world.1 =
      Prod.map id (Prod.map id Prod.fst)
        (s.firstScanWith target.recorded observer.recorded compare needle world) := by
  have hregions : target.recorded.regions world =
      ((target.regions world.1).1, (target.regions world.1).2, world.2) := rfl
  unfold firstScanWith
  split
  · rfl
  · rw [hregions]
    rcases target.regions world.1 with ⟨_ | all, world₁⟩
    · rfl
    · dsimp only
      split
      · rfl
      · rename_i total _
        have hrecorded : s.firstPass target.recorded observer.recorded compare needle total =
            (s.firstPass target observer compare needle total).recorded := rfl
        have hwalk := (s.firstPass target observer compare needle total).scanRegions_unrecorded
          (s.regionFilter.apply all) ⟨(world₁, world.2), .withStride (s.stride needle), 0⟩
        simp only [Walk.unrecorded] at hwalk
        simp only [enterWalk_firstPass, enterWalk_stride, hrecorded, hwalk]
        rcases (s.firstPass target observer compare needle total).recorded.scanRegions
          (s.regionFilter.apply all) ⟨(world₁, world.2), .withStride (s.stride needle), 0⟩ with
          ⟨_ | truncated, w⟩
        · rfl
        · rfl

end Nemclass.Scan
