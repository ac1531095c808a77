import Nemclass.Lib.BoundedHistory
import Nemclass.Lib.Multiples
import Nemclass.Scan.RegionFilter
import Nemclass.Scan.Results
import Nemclass.Scan.ValueType

/-! The scan session and its two passes. The target is an argument of each
pass, since its memory changes between passes; target and observer answer from
one world `σ`, so a pass may be interleaved with any change of either.

A pass returns its verdict together with the session as it is left, whatever
the verdict. An address computation that leaves the address space stops the
pass with `overflow`, which is not an error value the caller can see. The work
counters are unbounded naturals. -/
namespace Nemclass.Scan
open Usize Multiples

inductive ScanError where
  | needsFirstScan
  | compareNeedsPrevious (compare : ScanCompareType)
  | compareIsFirstScanOnly (compare : ScanCompareType)
  | missingNeedle (compare : ScanCompareType)
  | needleTypeMismatch (needle scanner : ScanValueType)
  | noStride (ty : ScanValueType)
  | targetUnreadable (e : Error)
  | target (e : Error)
  | cancelled
deriving DecidableEq, Repr

/-- Why a pass did not complete: an error it returned, or an arithmetic overflow. -/
inductive Failure where
  | error (e : ScanError)
  | overflow
deriving DecidableEq, Repr

inductive WalkOutcome where
  | completed
  | cancelled
deriving DecidableEq, Repr

structure ScanStats where
  scanned : ℕ := 0
  matched : ℕ := 0
  unreadable : ℕ := 0
deriving DecidableEq, Repr

def chunkSize : ℕ := 64 * 1024

def historyDepth : ℕ := 3

def defaultResultLimit : ℕ := 5000000

def progressInterval : ℕ := 4096

structure ScanProgress where
  done : ℕ
  total : ℕ
  «matches» : ℕ
deriving DecidableEq, Repr

structure ScanObserver (σ : Type) where
  tick : σ → ScanProgress → Bool × σ

def noObserver (σ : Type) : ScanObserver σ := ⟨fun world _ => (true, world)⟩

/-- An observer that never asks the scan to stop. -/
def ScanObserver.NeverStops {σ : Type} (observer : ScanObserver σ) : Prop :=
  ∀ world progress, (observer.tick world progress).1 = true

theorem noObserver_neverStops (σ : Type) : (noObserver σ).NeverStops := fun _ _ => rfl

structure Scanner where
  valueType : ScanValueType
  regionFilter : RegionFilter := {}
  scannedRegions : ℕ := 0
  alignment : Option ℕ := none
  resultLimit : ℕ := defaultResultLimit
  truncated : Bool := false
  history : List ScanResults := []
  hasScanned : Bool := false
  lastStats : ScanStats := {}

namespace Scanner

def new (ty : ScanValueType) : Scanner := { valueType := ty }

def setRegionFilter (s : Scanner) (f : RegionFilter) : Scanner := { s with regionFilter := f }

def setAlignment (s : Scanner) (alignment : ℕ) : Scanner :=
  { s with alignment := if 0 < alignment then some alignment else none }

def withResultLimit (s : Scanner) (limit : ℕ) : Scanner := { s with resultLimit := limit }

/-- The first-scan candidate step. -/
def alignmentStep (s : Scanner) : ℕ := max (s.alignment.getD (s.valueType.fixedWidth.getD 1)) 1

theorem alignmentStep_pos (s : Scanner) : 0 < s.alignmentStep :=
  Nat.lt_of_lt_of_le one_pos (Nat.le_max_right _ _)

def setValueType (s : Scanner) (ty : ScanValueType) : Bool × Scanner :=
  if ty.fixedWidth ≠ s.valueType.fixedWidth then (false, s) else (true, { s with valueType := ty })

def results (s : Scanner) : ScanResults := s.history.getLast?.getD .empty

def canUndo (s : Scanner) : Bool := 1 < s.history.length

def undo (s : Scanner) : Bool × Scanner :=
  if s.canUndo then (true, { s with history := s.history.dropLast }) else (false, s)

/-- The scan stride: the needle's width when there is one, else the type's, else `0`. -/
def stride (s : Scanner) (needle : Option Needle) : ℕ :=
  match needle with
  | some n => n.stride
  | none => s.valueType.fixedWidth.getD 0

def validateNeedle (s : Scanner) (compare : ScanCompareType) (needle : Option Needle) :
    Except ScanError Unit :=
  match needle with
  | some n =>
    if n.valueType ≠ s.valueType then .error (.needleTypeMismatch n.valueType s.valueType)
    else .ok ()
  | none => if compare.needsNeedle then .error (.missingNeedle compare) else .ok ()

/-- Pushes a generation, evicting the oldest past `historyDepth`. -/
def pushGeneration (s : Scanner) (results : ScanResults) : Scanner :=
  let history := s.history ++ [results]
  { s with history := if historyDepth < history.length then history.tail else history }

theorem pushGeneration_history (s : Scanner) (r : ScanResults) :
    (s.pushGeneration r).history = BoundedHistory.push historyDepth s.history r := rfl

/-- The newest generation is what the scan just collected. -/
@[simp] theorem results_pushGeneration (s : Scanner) (r : ScanResults) :
    (s.pushGeneration r).results = r := by
  rw [results, pushGeneration_history, BoundedHistory.getLast?_push (by decide), Option.getD_some]

end Scanner

/-- What is fixed during one first scan. -/
structure FirstPass (σ : Type) where
  target : ScanTarget σ
  observer : ScanObserver σ
  valueType : ScanValueType
  compare : ScanCompareType
  needle : Option Needle
  stride : ℕ
  align : ℕ
  limit : ℕ
  total : ℕ
  align_pos : 0 < align
  stride_needle : ∀ n, needle = some n → n.stride = stride

/-- What changes during one first scan. -/
structure Walk (σ : Type) where
  world : σ
  out : ScanResults
  scanned : ℕ

inductive WindowExit where
  | exhausted
  | limit
  | cancelled
deriving DecidableEq, Repr

namespace FirstPass
variable {σ : Type} (p : FirstPass σ)

def matched (buf : List UInt8) (off : ℕ) : Bool :=
  match p.needle with
  | some n => n.compareFirst buf off p.compare
  | none => p.compare = .unknown

/-- Counts a candidate, and reports progress when enough have been counted since the last report. -/
def tick (sinceTick : ℕ) (w : Walk σ) : Bool × ℕ × Walk σ :=
  let w := { w with scanned := w.scanned + 1 }
  if progressInterval ≤ sinceTick + 1 then
    let (go, world) := p.observer.tick w.world ⟨w.scanned, p.total, w.out.len⟩
    (go, 0, { w with world })
  else (true, sinceTick + 1, w)

/-- The candidates of one window, at the given offsets of what was read. -/
def scanWindow (addr : ℕ) (buf : List UInt8) : List ℕ → ℕ → Walk σ → WindowExit × ℕ × Walk σ
  | [], sinceTick, w => (.exhausted, sinceTick, w)
  | off :: offs, sinceTick, w =>
    match p.tick sinceTick w with
    | (false, sinceTick, w) => (.cancelled, sinceTick, w)
    | (true, sinceTick, w) =>
      if p.matched buf off then
        let value := (buf.drop off).take p.stride
        let w := { w with out := w.out.push (addr + off) value value }
        if p.limit ≤ w.out.len then (.limit, sinceTick, w)
        else scanWindow addr buf offs sinceTick w
      else scanWindow addr buf offs sinceTick w

/-- The walk with the row of a candidate collected. -/
def collect (addr : ℕ) (buf : List UInt8) (off : ℕ) (w : Walk σ) : Walk σ :=
  let value := (buf.drop off).take p.stride
  { w with out := w.out.push (addr + off) value value }

/-- What a window makes of its first candidate. -/
theorem scanWindow_cons_cases {addr : ℕ} {buf : List UInt8} {off : ℕ} {offs : List ℕ}
    {sinceTick sinceTick' : ℕ} {w w' : Walk σ} {exit : WindowExit}
    (hwin : p.scanWindow addr buf (off :: offs) sinceTick w = (exit, sinceTick', w')) :
    (p.tick sinceTick w = (false, sinceTick', w') ∧ exit = .cancelled) ∨
      ∃ sinceTick₁ w₁, p.tick sinceTick w = (true, sinceTick₁, w₁) ∧
        ((p.matched buf off = true ∧ p.limit ≤ (p.collect addr buf off w₁).out.len ∧
            exit = .limit ∧ sinceTick' = sinceTick₁ ∧ w' = p.collect addr buf off w₁) ∨
          (p.matched buf off = true ∧ (p.collect addr buf off w₁).out.len < p.limit ∧
            p.scanWindow addr buf offs sinceTick₁ (p.collect addr buf off w₁) =
              (exit, sinceTick', w')) ∨
          (p.matched buf off = false ∧
            p.scanWindow addr buf offs sinceTick₁ w₁ = (exit, sinceTick', w'))) := by
  unfold scanWindow at hwin
  split at hwin
  · rename_i heq
    simp only [Prod.mk.injEq] at hwin
    obtain ⟨rfl, rfl, rfl⟩ := hwin
    exact .inl ⟨heq, rfl⟩
  · rename_i sinceTick₁ w₁ heq
    refine .inr ⟨sinceTick₁, w₁, heq, ?_⟩
    split at hwin
    · rename_i hm
      dsimp only at hwin
      split at hwin
      · rename_i hfull
        simp only [Prod.mk.injEq] at hwin
        obtain ⟨rfl, rfl, rfl⟩ := hwin
        exact .inl ⟨hm, hfull, rfl, rfl, rfl⟩
      · rename_i hmore
        exact .inr (.inl ⟨hm, Nat.not_le.mp hmore, hwin⟩)
    · rename_i hm
      exact .inr (.inr ⟨Bool.not_eq_true _ ▸ hm, hwin⟩)

section Candidate
variable {addr : ℕ} {buf : List UInt8} {off : ℕ} {offs : List ℕ} {sinceTick sinceTick₁ : ℕ}
  {w w₁ : Walk σ} (htick : p.tick sinceTick w = (true, sinceTick₁, w₁))
include htick

theorem scanWindow_matched (hm : p.matched buf off = true) :
    p.scanWindow addr buf (off :: offs) sinceTick w =
      if p.limit ≤ (p.collect addr buf off w₁).out.len
        then (.limit, sinceTick₁, p.collect addr buf off w₁)
        else p.scanWindow addr buf offs sinceTick₁ (p.collect addr buf off w₁) := by
  rw [scanWindow, htick]
  exact if_pos hm

theorem scanWindow_unmatched (hm : p.matched buf off = false) :
    p.scanWindow addr buf (off :: offs) sinceTick w =
      p.scanWindow addr buf offs sinceTick₁ w₁ := by
  rw [scanWindow, htick]
  exact if_neg (Bool.eq_false_iff.mp hm)

end Candidate

/-- The buffer of a first scan: a chunk, or one value when that is longer. -/
def bufLen : ℕ := max chunkSize p.stride

/-- The next window: past every candidate of this one, back on the lattice. -/
def advance (addr read : ℕ) : Option ℕ := do
  let step := max (read - (p.stride - 1)) 1
  let moved ← checkedAdd addr step
  let rounded ← checkedNextMultipleOf moved p.align
  let least ← checkedAdd addr p.align
  some (max rounded least)

theorem lt_advance {addr read next : ℕ} (h : p.advance addr read = some next) : addr < next := by
  have hpos := p.align_pos
  simp only [advance, Option.bind_eq_bind, Option.bind_eq_some_iff] at h
  obtain ⟨_, _, _, _, least, hleast, h⟩ := h
  have := (checkedAdd_eq_some.mp hleast).1
  have := Option.some.inj h
  omega

/-- The window loop of one region, from an address on. -/
def walkRegion (regionEnd addr sinceTick : ℕ) (w : Walk σ) :
    Except Failure WalkOutcome × Walk σ :=
  if _hlt : addr < regionEnd then
    let remaining := regionEnd - addr
    let want := min p.bufLen remaining
    match p.target.read w.world addr want with
    | (.error e, world) => (.error (.error (.target e)), { w with world })
    | (.ok buf, world) =>
      let w := { w with world }
      let read := buf.val.length
      if read < p.stride then (.ok .completed, w)
      else
        match p.scanWindow addr buf (stepBy (read - p.stride) p.align) sinceTick w with
        | (.cancelled, _, w) => (.ok .cancelled, w)
        | (.limit, _, w) => (.ok .completed, w)
        | (.exhausted, sinceTick, w) =>
          match _hnext : p.advance addr read with
          | none => (.error .overflow, w)
          | some next => walkRegion regionEnd next sinceTick w
  else (.ok .completed, w)
termination_by regionEnd - addr
decreasing_by
  have := p.lt_advance _hnext
  omega

theorem walkRegion_past {regionEnd addr : ℕ} (hge : ¬ addr < regionEnd) (sinceTick : ℕ)
    (w : Walk σ) : p.walkRegion regionEnd addr sinceTick w = (.ok .completed, w) := by
  rw [walkRegion, dif_neg hge]

section Window
variable {regionEnd addr sinceTick : ℕ} {w : Walk σ} {world : σ} (hlt : addr < regionEnd)
include hlt

theorem walkRegion_failed {e : Error}
    (hread : p.target.read w.world addr (min p.bufLen (regionEnd - addr)) = (.error e, world)) :
    p.walkRegion regionEnd addr sinceTick w = (.error (.error (.target e)), { w with world }) := by
  rw [walkRegion, dif_pos hlt]
  simp only [hread]

variable {buf : Transfer (min p.bufLen (regionEnd - addr))}
  (hread : p.target.read w.world addr (min p.bufLen (regionEnd - addr)) = (.ok buf, world))
include hread

theorem walkRegion_short (hshort : buf.val.length < p.stride) :
    p.walkRegion regionEnd addr sinceTick w = (.ok .completed, { w with world }) := by
  rw [walkRegion, dif_pos hlt]
  simp only [hread, if_pos hshort]

/-- What a walk makes of the window it has read. -/
theorem walkRegion_window (hlong : ¬ buf.val.length < p.stride) {exit : WindowExit}
    {sinceTick' : ℕ} {w' : Walk σ}
    (hwin : p.scanWindow addr buf.val (stepBy (buf.val.length - p.stride) p.align) sinceTick
      { w with world } = (exit, sinceTick', w')) :
    p.walkRegion regionEnd addr sinceTick w =
      match exit with
      | .cancelled => (.ok .cancelled, w')
      | .limit => (.ok .completed, w')
      | .exhausted =>
        match p.advance addr buf.val.length with
        | none => (.error .overflow, w')
        | some next => p.walkRegion regionEnd next sinceTick' w' := by
  rw [walkRegion, dif_pos hlt]
  cases exit with
  | cancelled | limit => simp only [hread, if_neg hlong, hwin]
  | exhausted =>
    simp only [hread, if_neg hlong, hwin]
    split
    · rename_i hnone
      rw [hnone]
    · rename_i hnext
      rw [hnext]

end Window

def scanRegionFirst (region : Region) (w : Walk σ) : Except Failure WalkOutcome × Walk σ :=
  match checkedNextMultipleOf region.base p.align with
  | none => (.error .overflow, w)
  | some addr => p.walkRegion region.stop addr 0 w

theorem scanRegionFirst_of_le {region : Region} (h : nextMultipleOf region.base p.align ≤ usizeMax)
    (w : Walk σ) : p.scanRegionFirst region w =
      p.walkRegion region.stop (nextMultipleOf region.base p.align) 0 w := by
  rw [scanRegionFirst, checkedNextMultipleOf, checked_of_le h]

theorem scanRegionFirst_of_lt {region : Region} (h : usizeMax < nextMultipleOf region.base p.align)
    (w : Walk σ) : p.scanRegionFirst region w = (.error .overflow, w) := by
  rw [scanRegionFirst, checkedNextMultipleOf, checked_eq_none.mpr h]

/-- The region loop: the verdict is whether the walk stopped on the result limit. -/
def scanRegions : List Region → Walk σ → Except Failure Bool × Walk σ
  | [], w => (.ok false, w)
  | region :: regions, w =>
    match p.scanRegionFirst region w with
    | (.error f, w) => (.error f, w)
    | (.ok .cancelled, w) => (.error (.error .cancelled), w)
    | (.ok .completed, w) =>
      if p.limit ≤ w.out.len then (.ok true, w) else scanRegions regions w

end FirstPass

namespace Scanner
variable {σ : Type}

/-- The checks a first scan makes before it touches the target. -/
def checkFirst (s : Scanner) (compare : ScanCompareType) (needle : Option Needle) :
    Except ScanError Unit :=
  if compare.needsPrevious then .error (.compareNeedsPrevious compare)
  else
    match s.validateNeedle compare needle with
    | .error e => .error e
    | .ok () => if s.stride needle = 0 then .error (.noStride s.valueType) else .ok ()

theorem stride_pos_of_check {s : Scanner} {compare : ScanCompareType} {needle : Option Needle}
    (h : s.checkFirst compare needle = .ok ()) : 0 < s.stride needle := by
  unfold checkFirst at h
  split at h
  · simp at h
  · split at h
    · simp at h
    · split at h
      · simp at h
      · omega

def firstPass (s : Scanner) (target : ScanTarget σ) (observer : ScanObserver σ)
    (compare : ScanCompareType) (needle : Option Needle) (total : ℕ) : FirstPass σ where
  target := target
  observer := observer
  valueType := s.valueType
  compare := compare
  needle := needle
  stride := s.stride needle
  align := s.alignmentStep
  limit := s.resultLimit
  total := total
  align_pos := s.alignmentStep_pos
  stride_needle n h := by subst h; rfl

/-- Both fields are assigned before the walk, so an aborted walk leaves them changed. -/
def enterWalk (s : Scanner) (regions : List Region) : Scanner :=
  { s with scannedRegions := regions.length, truncated := false }

@[simp] theorem enterWalk_alignmentStep (s : Scanner) (regions : List Region) :
    (s.enterWalk regions).alignmentStep = s.alignmentStep := rfl

@[simp] theorem enterWalk_stride (s : Scanner) (regions : List Region) (needle : Option Needle) :
    (s.enterWalk regions).stride needle = s.stride needle := rfl

@[simp] theorem enterWalk_firstPass (s : Scanner) (regions : List Region) :
    (s.enterWalk regions).firstPass = (s.firstPass : ScanTarget σ → _) := rfl

/-- The assignments of a walk that was not aborted. -/
def commitWalk (s : Scanner) (truncated : Bool) (w : Walk σ) : Scanner :=
  let s := { s with truncated, lastStats := ⟨w.scanned, w.out.len, 0⟩ }
  { s.pushGeneration w.out with hasScanned := true }

@[simp] theorem commitWalk_results (s : Scanner) (truncated : Bool) (w : Walk σ) :
    (s.commitWalk truncated w).results = w.out := results_pushGeneration _ _

def firstScanWith (s : Scanner) (target : ScanTarget σ) (observer : ScanObserver σ)
    (compare : ScanCompareType) (needle : Option Needle) (world : σ) :
    Except Failure Unit × Scanner × σ :=
  match s.checkFirst compare needle with
  | .error e => (.error (.error e), s, world)
  | .ok () =>
    match target.regions world with
    | (.error e, world) => (.error (.error (.target e)), s, world)
    | (.ok all, world) =>
      let regions := s.regionFilter.apply all
      let s := s.enterWalk regions
      match checkedSum (regions.map (·.size / s.alignmentStep)) with
      | none => (.error .overflow, s, world)
      | some total =>
        let pass := s.firstPass target observer compare needle total
        match pass.scanRegions regions ⟨world, .withStride (s.stride needle), 0⟩ with
        | (.error f, w) => (.error f, s, w.world)
        | (.ok truncated, w) => (.ok (), s.commitWalk truncated w, w.world)

def firstScan (s : Scanner) (target : ScanTarget σ) (compare : ScanCompareType)
    (needle : Option Needle) (world : σ) : Except Failure Unit × Scanner × σ :=
  s.firstScanWith target (noObserver σ) compare needle world

section FirstScan
variable {s s' : Scanner} {target : ScanTarget σ} {observer : ScanObserver σ}
  {compare : ScanCompareType} {needle : Option Needle} {world world₁ world' : σ} {all : List Region}
  {total : ℕ}

/-- A first scan that gets to walk its regions ends as the walk ends. -/
theorem firstScanWith_enters (hcheck : s.checkFirst compare needle = .ok ())
    (hregions : target.regions world = (.ok all, world₁))
    (htotal : checkedSum ((s.regionFilter.apply all).map (·.size / s.alignmentStep)) = some total) :
    s.firstScanWith target observer compare needle world =
      match (s.firstPass target observer compare needle total).scanRegions (s.regionFilter.apply all)
        ⟨world₁, .withStride (s.stride needle), 0⟩ with
      | (.error f, w) => (.error f, s.enterWalk (s.regionFilter.apply all), w.world)
      | (.ok truncated, w) =>
        (.ok (), (s.enterWalk (s.regionFilter.apply all)).commitWalk truncated w, w.world) := by
  simp only [firstScanWith, hcheck, hregions, enterWalk_alignmentStep, htotal, enterWalk_firstPass,
    enterWalk_stride]

/-- What a successful first scan commits. -/
theorem firstScanWith_ok
    (h : s.firstScanWith target observer compare needle world = (.ok (), s', world')) :
    ∃ all total truncated w, s.checkFirst compare needle = .ok () ∧
      target.regions world = (.ok all, (target.regions world).2) ∧
      checkedSum ((s.regionFilter.apply all).map (·.size / s.alignmentStep)) = some total ∧
      (s.firstPass target observer compare needle total).scanRegions (s.regionFilter.apply all)
        ⟨(target.regions world).2, .withStride (s.stride needle), 0⟩ = (.ok truncated, w) ∧
      s' = (s.enterWalk (s.regionFilter.apply all)).commitWalk truncated w := by
  cases hcheck : s.checkFirst compare needle with
  | error e => simp [firstScanWith, hcheck] at h
  | ok =>
    rcases hregions : target.regions world with ⟨e | all, world₁⟩
    · simp [firstScanWith, hcheck, hregions] at h
    · cases htotal : checkedSum ((s.regionFilter.apply all).map (·.size / s.alignmentStep)) with
      | none => simp [firstScanWith, hcheck, hregions, htotal] at h
      | some total =>
        rw [firstScanWith_enters hcheck hregions htotal] at h
        split at h
        · simp at h
        · rename_i truncated w hwalk
          simp only [Prod.mk.injEq] at h
          exact ⟨all, total, truncated, w, rfl, rfl, htotal, hwalk, h.2.1.symm⟩

end FirstScan

end Scanner

/-- What changes during one next scan. -/
structure Refine (σ : Type) where
  world : σ
  out : ScanResults
  unreadable : ℕ
  lastErr : Option Error

/-- What is fixed during one next scan. -/
structure NextPass (σ : Type) where
  target : ScanTarget σ
  observer : ScanObserver σ
  valueType : ScanValueType
  compare : ScanCompareType
  needle : Option Needle
  stride : ℕ
  total : ℕ

namespace NextPass
variable {σ : Type} (p : NextPass σ)

def matched (fresh captured : List UInt8) : Bool :=
  match p.needle with
  | some n => n.compareNext fresh 0 p.compare captured
  | none => p.valueType.compareChange p.compare fresh captured

/-- Re-reads one previous result. -/
def refineOne (prev : ScanResult) (r : Refine σ) : Refine σ :=
  match p.target.read r.world prev.address p.stride with
  | (.error e, world) =>
    { r with world, unreadable := r.unreadable + 1, lastErr := some e }
  | (.ok buf, world) =>
    if buf.val.length < p.stride then { r with world, unreadable := r.unreadable + 1 }
    else if p.matched buf prev.current then
      { r with world, out := r.out.push prev.address buf prev.current }
    else { r with world }

def tick (i : ℕ) (r : Refine σ) : Bool × Refine σ :=
  if i % progressInterval = 0 then
    let (go, world) := p.observer.tick r.world ⟨i, p.total, r.out.len⟩
    (go, { r with world })
  else (true, r)

/-- The pass over the previous results from index `i` on; `false` when the observer stopped it. -/
def refine : ℕ → List ScanResult → Refine σ → Bool × Refine σ
  | _, [], r => (true, r)
  | i, prev :: rest, r =>
    match p.tick i r with
    | (false, r) => (false, r)
    | (true, r) => refine (i + 1) rest (p.refineOne prev r)

end NextPass

namespace Scanner
variable {σ : Type}

/-- The checks a next scan makes before it re-reads anything. -/
def checkNext (s : Scanner) (compare : ScanCompareType) (needle : Option Needle) :
    Except ScanError Unit :=
  if s.hasScanned = false then .error .needsFirstScan
  else if compare.isBaseline then .error (.compareIsFirstScanOnly compare)
  else
    match s.validateNeedle compare needle with
    | .error e => .error e
    | .ok () => if s.stride needle = 0 then .error (.noStride s.valueType) else .ok ()

def nextPass (s : Scanner) (target : ScanTarget σ) (observer : ScanObserver σ)
    (compare : ScanCompareType) (needle : Option Needle) : NextPass σ where
  target := target
  observer := observer
  valueType := s.valueType
  compare := compare
  needle := needle
  stride := s.stride needle
  total := s.results.len

/-- The assignments of a refinement that was not aborted. -/
def commitRefine (s : Scanner) (scanned : ℕ) (r : Refine σ) : Scanner :=
  { s with lastStats := ⟨scanned, r.out.len, r.unreadable⟩ }.pushGeneration r.out

@[simp] theorem commitRefine_results (s : Scanner) (scanned : ℕ) (r : Refine σ) :
    (s.commitRefine scanned r).results = r.out := results_pushGeneration _ _

def nextScanWith (s : Scanner) (target : ScanTarget σ) (observer : ScanObserver σ)
    (compare : ScanCompareType) (needle : Option Needle) (world : σ) :
    Except Failure Unit × Scanner × σ :=
  match s.checkNext compare needle with
  | .error e => (.error (.error e), s, world)
  | .ok () =>
    let previous := s.results
    let pass := s.nextPass target observer compare needle
    match pass.refine 0 previous.rows ⟨world, .withStride (s.stride needle), 0, none⟩ with
    | (false, r) => (.error (.error .cancelled), s, r.world)
    | (true, r) =>
      if r.unreadable = previous.len ∧ previous.len ≠ 0 then
        (.error (.error (.targetUnreadable (r.lastErr.getD .processNotFound))), s, r.world)
      else (.ok (), s.commitRefine previous.len r, r.world)

def nextScan (s : Scanner) (target : ScanTarget σ) (compare : ScanCompareType)
    (needle : Option Needle) (world : σ) : Except Failure Unit × Scanner × σ :=
  s.nextScanWith target (noObserver σ) compare needle world

end Scanner

end Nemclass.Scan
