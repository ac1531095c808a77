import Nemclass.Lib.Spans
import Nemclass.Scan.PointerScan
import Nemclass.Scan.Scanner

/-! Spider search: a breadth-first walk of the structs reachable from a root,
comparing every slot of each with a needle. A struct is read through one window
that may have holes; the window is reused, so what a hole leaves in it is stale
and only the cover says which bytes were read. An address computation that
leaves the address space stops the search with `overflow`. -/
namespace Nemclass.Scan
open Usize

structure SpiderConfig where
  structSize : ℕ := 0x1000
  alignment : ℕ := 4
  maxDepth : ℕ := 3
  pointerSize : ℕ := 8
  maxResults : ℕ := 100000
  maxNodes : ℕ := 1000000
  dedupeNodes : Bool := true
deriving DecidableEq, Repr

namespace SpiderConfig

def maxStructSize : ℕ := 0x4000

def maxDepthLimit : ℕ := 8

def clamped (cfg : SpiderConfig) : SpiderConfig where
  structSize := min (max cfg.structSize 1) maxStructSize
  alignment := cfg.alignment
  maxDepth := min cfg.maxDepth maxDepthLimit
  pointerSize := min (max cfg.pointerSize 1) 8
  maxResults := max cfg.maxResults 1
  maxNodes := max cfg.maxNodes 1
  dedupeNodes := cfg.dedupeNodes

end SpiderConfig

/-- The offsets dereferenced from the root, and the one at which the value sits. -/
structure SpiderPath where
  root : ℕ
  parentOffsets : List ℕ
  offset : ℕ
deriving DecidableEq, Repr

structure SpiderHit where
  path : SpiderPath
  current : List UInt8
  previous : List UInt8
deriving DecidableEq, Repr

/-- A struct still to be examined. -/
structure Frame where
  addr : ℕ
  depth : ℕ
  path : List ℕ
deriving DecidableEq, Repr

/-- The result, together with the frames in the order they were examined; the code keeps only
their number. -/
structure SpiderScanResult where
  hits : List SpiderHit
  truncated : Bool
  nodesVisited : ℕ
  examined : List Frame
deriving DecidableEq, Repr

/-- Which parts of a window were read. -/
inductive Cover where
  | full (n : ℕ)
  | sparse (spans : List (ℕ × ℕ))
deriving DecidableEq, Repr

namespace Cover

def has (c : Cover) (off need : ℕ) : Bool :=
  match checkedAdd off need with
  | none => false
  | some stop =>
    match c with
    | full n => stop ≤ n
    | sparse spans => spans.any fun s => s.1 ≤ off && stop ≤ s.2

def limit : Cover → ℕ
  | full n => n
  | sparse spans => spans.getLast?.elim 0 Prod.snd

end Cover

def page : ℕ := 4096

/-- `buf[off..off + bytes.len()]` replaced by the bytes a read transferred. -/
def overwrite (buf : List UInt8) (off : ℕ) (bytes : List UInt8) : List UInt8 :=
  buf.take off ++ bytes ++ buf.drop (off + bytes.length)

section ReadWindow
variable {σ : Type} (target : ScanTarget σ) (addr : ℕ)

/-- The retry of a window of `len` bytes, split on absolute page boundaries. -/
def pageWalk (len off : ℕ) (spans : List (ℕ × ℕ)) (win : List UInt8) (world : σ) :
    Option (List (ℕ × ℕ) × List UInt8) × σ :=
  if off < len then
    match checkedAdd addr off >>= (checkedNextMultipleOf · page) with
    | none => (none, world)
    | some boundary =>
      let stop := min (max (boundary - addr) (off + 1)) len
      match target.read world (addr + off) (stop - off) with
      | (.ok buf, world) =>
        let n := buf.val.length
        let spans := if 0 < n then Spans.extend spans off n else spans
        pageWalk len stop spans (overwrite win off buf) world
      | (.error _, world) => pageWalk len stop spans win world
  else (some (spans, win), world)
termination_by len - off

/-- One read in the common case, page by page when nothing came back. -/
def readWindow (win : List UInt8) (world : σ) : Option (Cover × List UInt8) × σ :=
  let pages (world : σ) : Option (Cover × List UInt8) × σ :=
    match pageWalk target addr win.length 0 [] win world with
    | (none, world) => (none, world)
    | (some (spans, win), world) => (some (.sparse spans, win), world)
  match target.read world addr win.length with
  | (.ok buf, world) =>
    let n := buf.val.length
    if n = win.length then (some (.full n, overwrite win 0 buf), world)
    else if 0 < n then (some (.full n, overwrite win 0 buf), world)
    else pages world
  | (.error _, world) => pages world

end ReadWindow

/-- What is fixed during one search; `cfg` is already clamped. -/
structure SpiderPass (σ : Type) where
  target : ScanTarget σ
  observer : ScanObserver σ
  root : ℕ
  cfg : SpiderConfig
  compare : ScanCompareType
  needle : Needle
  align : ℕ
  ranges : List Range
  align_pos : 0 < align

/-- What changes during one search. -/
structure SpiderWalk (σ : Type) where
  world : σ
  win : List UInt8
  visited : Finset ℕ
  hits : List SpiderHit := []
  truncated : Bool := false
  nodesVisited : ℕ := 0
  next : List Frame := []
  examined : List Frame := []

inductive SpiderExit where
  | go
  | full
  | cancelled
  | overflow
deriving DecidableEq, Repr

namespace SpiderPass
variable {σ : Type} (p : SpiderPass σ)

/-- Compares one slot; true when the hit filled the result. -/
def valueBranch (frame : Frame) (cover : Cover) (off : ℕ) (w : SpiderWalk σ) :
    Bool × SpiderWalk σ :=
  if cover.has off p.needle.stride && p.needle.compareFirst w.win off p.compare then
    let bytes := (w.win.drop off).take p.needle.stride
    let w := { w with hits := w.hits ++ [⟨⟨p.root, frame.path, off⟩, bytes, bytes⟩] }
    if p.cfg.maxResults ≤ w.hits.length then (true, { w with truncated := true }) else (false, w)
  else (false, w)

/-- Queues the struct one slot points at. -/
def pointerBranch (frame : Frame) (cover : Cover) (off : ℕ) (w : SpiderWalk σ) :
    Option (SpiderWalk σ) :=
  if frame.depth < p.cfg.maxDepth then
    match checkedAdd frame.addr off with
    | none => none
    | some slot =>
      if slot % p.cfg.pointerSize = 0 && cover.has off p.cfg.pointerSize then
        let word := readWord ((w.win.drop off).take p.cfg.pointerSize)
        if word ≠ 0 && word ≠ frame.addr && isMapped p.ranges word then
          let child : Frame := ⟨word, frame.depth + 1, frame.path ++ [off]⟩
          if p.cfg.dedupeNodes then
            if word ∈ w.visited then some w
            else some { w with visited := insert word w.visited, next := w.next ++ [child] }
          else some { w with next := w.next ++ [child] }
        else some w
      else some w
  else some w

/-- The slot loop of one window. -/
def slots (frame : Frame) (cover : Cover) (windowEnd off : ℕ) (w : SpiderWalk σ) :
    SpiderExit × SpiderWalk σ :=
  if off < windowEnd ∧ off < cover.limit then
    match p.valueBranch frame cover off w with
    | (true, w) => (.full, w)
    | (false, w) =>
      match p.pointerBranch frame cover off w with
      | none => (.overflow, w)
      | some w =>
        match _hnext : checkedAdd off p.align with
        | none => (.overflow, w)
        | some next => slots frame cover windowEnd next w
  else (.go, w)
termination_by windowEnd - off
decreasing_by
  have := p.align_pos
  have := (checkedAdd_eq_some.mp _hnext).1
  omega

def nodeInterval : ℕ := 64

def tick (queued : ℕ) (w : SpiderWalk σ) : Bool × SpiderWalk σ :=
  if w.nodesVisited % nodeInterval = 0 then
    let progress := ⟨w.nodesVisited, w.nodesVisited + queued + w.next.length, w.hits.length⟩
    let (go, world) := p.observer.tick w.world progress
    (go, { w with world })
  else (true, w)

/-- Walks the slots of one struct's window, from its first aligned one. -/
def walkWindow (frame : Frame) (cover : Cover) (w : SpiderWalk σ) : SpiderExit × SpiderWalk σ :=
  if cover.limit = 0 then (.go, w)
  else
    match checkedNextMultipleOf frame.addr p.align with
    | none => (.overflow, w)
    | some first =>
      let start := first - frame.addr
      match checkedAdd start p.cfg.structSize with
      | none => (.overflow, w)
      | some windowEnd => p.slots frame cover windowEnd start w

/-- Examines one struct; `queued` more wait in its level. -/
def examine (queued : ℕ) (frame : Frame) (w : SpiderWalk σ) : SpiderExit × SpiderWalk σ :=
  if p.cfg.maxNodes ≤ w.nodesVisited then (.full, { w with truncated := true })
  else
    match p.tick queued
      { w with nodesVisited := w.nodesVisited + 1, examined := w.examined ++ [frame] } with
    | (false, w) => (.cancelled, w)
    | (true, w) =>
      match readWindow p.target frame.addr w.win w.world with
      | (none, world) => (.overflow, { w with world })
      | (some (cover, win), world) => p.walkWindow frame cover { w with world, win }

def level : List Frame → SpiderWalk σ → SpiderExit × SpiderWalk σ
  | [], w => (.go, w)
  | frame :: rest, w =>
    match p.examine rest.length frame w with
    | (.go, w) => level rest w
    | stopped => stopped

/-- The slot was read and matches. -/
def slotHit (cover : Cover) (win : List UInt8) (o : ℕ) : Bool :=
  cover.has o p.needle.stride && p.needle.compareFirst win o p.compare

/-- The hits at the given offsets of a window. -/
def windowHits (frame : Frame) (cover : Cover) (win : List UInt8) (offs : List ℕ) :
    List SpiderHit :=
  (offs.filter (p.slotHit cover win)).map fun o =>
    ⟨⟨p.root, frame.path, o⟩, (win.drop o).take p.needle.stride,
      (win.drop o).take p.needle.stride⟩

/-- Comparing a slot adds its hit, if it is one, and marks the result when it is full. -/
theorem valueBranch_spec {frame : Frame} {cover : Cover} {off : ℕ} {w w' : SpiderWalk σ}
    {full : Bool} (h : p.valueBranch frame cover off w = (full, w')) :
    w' = { w with
      hits := w.hits ++ p.windowHits frame cover w.win [off]
      truncated := full || w.truncated } ∧ (full = true → p.cfg.maxResults ≤ w'.hits.length) := by
  unfold valueBranch at h
  split at h
  · rename_i hslot
    replace hslot : p.slotHit cover w.win off = true := hslot
    rw [windowHits, List.filter_cons_of_pos hslot]
    dsimp only at h
    split at h
    · rename_i hfull
      cases h
      exact ⟨rfl, fun _ => hfull⟩
    · cases h
      exact ⟨rfl, nofun⟩
  · rename_i hslot
    replace hslot : ¬ p.slotHit cover w.win off = true := hslot
    rw [windowHits, List.filter_cons_of_neg hslot]
    cases h
    exact ⟨by rw [List.filter_nil, List.map_nil, List.append_nil]; rfl, nofun⟩

theorem valueBranch_snd (frame : Frame) (cover : Cover) (off : ℕ) (w : SpiderWalk σ) :
    (p.valueBranch frame cover off w).2 = { w with
      hits := w.hits ++ p.windowHits frame cover w.win [off]
      truncated := (p.valueBranch frame cover off w).1 || w.truncated } := by
  generalize h : p.valueBranch frame cover off w = r
  obtain ⟨full, w'⟩ := r
  exact (p.valueBranch_spec h).1

theorem valueBranch_next (frame : Frame) (cover : Cover) (off : ℕ) (w : SpiderWalk σ) :
    (p.valueBranch frame cover off w).2.next = w.next := by
  rw [p.valueBranch_snd]

theorem tick_next (queued : ℕ) (w : SpiderWalk σ) : (p.tick queued w).2.next = w.next := by
  unfold tick
  split <;> rfl

/-- A frame was queued before, or is one hop deeper than the frame being examined. -/
def Queued (frame : Frame) (before after : List Frame) : Prop :=
  ∀ f ∈ after, f ∈ before ∨ frame.depth < p.cfg.maxDepth ∧ f.depth = frame.depth + 1

theorem pointerBranch_queued {frame : Frame} {cover : Cover} {off : ℕ} {w w' : SpiderWalk σ}
    (h : p.pointerBranch frame cover off w = some w') : p.Queued frame w.next w'.next := by
  intro f hf
  by_cases hdepth : frame.depth < p.cfg.maxDepth
  · simp only [pointerBranch, if_pos hdepth] at h
    grind
  · simp only [pointerBranch, if_neg hdepth, Option.some.injEq] at h
    exact .inl (h ▸ hf)

theorem slots_queued (frame : Frame) (cover : Cover) (windowEnd off : ℕ) (w : SpiderWalk σ) :
    p.Queued frame w.next (p.slots frame cover windowEnd off w).2.next := by
  fun_induction p.slots frame cover windowEnd off w with
  | case1 off w _ w₁ hvalue =>
    have hnext := p.valueBranch_next frame cover off w
    rw [hvalue] at hnext
    exact fun f hf => .inl (hnext ▸ hf)
  | case2 off w _ w₁ hvalue _ =>
    have hnext := p.valueBranch_next frame cover off w
    rw [hvalue] at hnext
    exact fun f hf => .inl (hnext ▸ hf)
  | case3 off w _ w₁ hvalue w₂ hpointer _ =>
    have hnext := p.valueBranch_next frame cover off w
    rw [hvalue] at hnext
    exact hnext ▸ p.pointerBranch_queued hpointer
  | case4 off w _ w₁ hvalue w₂ hpointer next _ ih =>
    have hnext := p.valueBranch_next frame cover off w
    rw [hvalue] at hnext
    intro f hf
    rcases ih f hf with hf | hf
    · exact hnext ▸ p.pointerBranch_queued hpointer f hf
    · exact .inr hf
  | case5 => exact fun f hf => .inl hf

theorem walkWindow_queued (frame : Frame) (cover : Cover) (w : SpiderWalk σ) :
    p.Queued frame w.next (p.walkWindow frame cover w).2.next := by
  unfold walkWindow
  split
  · exact fun f hf => .inl hf
  · split
    · exact fun f hf => .inl hf
    · dsimp only
      split
      · exact fun f hf => .inl hf
      · exact p.slots_queued frame _ _ _ _

theorem examine_queued (queued : ℕ) (frame : Frame) (w : SpiderWalk σ) :
    p.Queued frame w.next (p.examine queued frame w).2.next := by
  unfold examine
  by_cases hnodes : p.cfg.maxNodes ≤ w.nodesVisited
  · rw [if_pos hnodes]
    exact fun f hf => .inl hf
  · rw [if_neg hnodes]
    have htick := p.tick_next queued
      { w with nodesVisited := w.nodesVisited + 1, examined := w.examined ++ [frame] }
    split
    · rename_i w' heq
      rw [heq] at htick
      exact fun f hf => .inl (htick ▸ hf)
    · rename_i w' heq
      rw [heq] at htick
      dsimp only at htick
      rw [← htick]
      split
      · exact fun f hf => .inl hf
      · exact p.walkWindow_queued frame _ _

/-- What a level queues is one hop deeper than some frame of the level. -/
theorem level_queued (frontier : List Frame) (w : SpiderWalk σ) :
    ∀ f ∈ (p.level frontier w).2.next, f ∈ w.next ∨
      ∃ g ∈ frontier, g.depth < p.cfg.maxDepth ∧ f.depth = g.depth + 1 := by
  induction frontier generalizing w with
  | nil => exact fun f hf => .inl hf
  | cons frame rest ih =>
    have hexamine := p.examine_queued rest.length frame w
    intro f hf
    unfold level at hf
    split at hf
    · rename_i w' heq
      rw [heq] at hexamine
      rcases ih w' f hf with hf | ⟨g, hg, hdeeper⟩
      · rcases hexamine f hf with hf | hdeeper
        · exact .inl hf
        · exact .inr ⟨frame, List.mem_cons_self, hdeeper⟩
      · exact .inr ⟨g, List.mem_cons_of_mem frame hg, hdeeper⟩
    · rcases hexamine f hf with hf | hdeeper
      · exact .inl hf
      · exact .inr ⟨frame, List.mem_cons_self, hdeeper⟩

/-- The number of levels that may still follow a frontier. -/
def height : List Frame → ℕ
  | [] => 0
  | frame :: rest => max (p.cfg.maxDepth - frame.depth + 1) (height rest)

theorem le_height {frontier : List Frame} {frame : Frame} (h : frame ∈ frontier) :
    p.cfg.maxDepth - frame.depth + 1 ≤ p.height frontier := by
  induction frontier with
  | nil => simp at h
  | cons f rest ih =>
    rw [height]
    rcases List.mem_cons.mp h with rfl | h
    · exact Nat.le_max_left _ _
    · exact (ih h).trans (Nat.le_max_right _ _)

theorem height_lt {frontier : List Frame} {n : ℕ} (hn : 0 < n)
    (h : ∀ f ∈ frontier, p.cfg.maxDepth - f.depth + 1 < n) : p.height frontier < n := by
  induction frontier with
  | nil => exact hn
  | cons f rest ih =>
    rw [height]
    exact Nat.max_lt.mpr ⟨h f List.mem_cons_self, ih fun g hg => h g (List.mem_cons_of_mem f hg)⟩

theorem height_level_lt {frontier : List Frame} {w w' : SpiderWalk σ} {exit : SpiderExit}
    (hne : frontier ≠ []) (h : p.level frontier { w with next := [] } = (exit, w')) :
    p.height w'.next < p.height frontier := by
  have hqueued := p.level_queued frontier { w with next := [] }
  rw [h] at hqueued
  obtain ⟨f, hf⟩ := List.exists_mem_of_ne_nil frontier hne
  refine p.height_lt (Nat.lt_of_lt_of_le (Nat.succ_pos _) (p.le_height hf)) fun g hg => ?_
  rcases hqueued g hg with hg | ⟨g', hg', hdepth⟩
  · simp at hg
  · have := p.le_height hg'
    omega

/-- The level loop: each level is drained completely before the next begins. -/
def search (frontier : List Frame) (w : SpiderWalk σ) : SpiderExit × SpiderWalk σ :=
  if _hne : frontier = [] then (.go, w)
  else
    match _hlevel : p.level frontier { w with next := [] } with
    | (.go, w) => search w.next w
    | stopped => stopped
termination_by p.height frontier
decreasing_by exact p.height_level_lt _hne _hlevel

end SpiderPass

section SpiderScan
variable {σ : Type}

/-- The checks a search makes before it touches the target. -/
def checkSpider (valueType : ScanValueType) (compare : ScanCompareType) (needle : Option Needle) :
    Except ScanError Needle :=
  if compare.isBaseline then .error (.compareIsFirstScanOnly compare)
  else if compare.needsPrevious then .error (.compareNeedsPrevious compare)
  else
    match needle with
    | none => .error (.missingNeedle compare)
    | some n =>
      if n.valueType ≠ valueType then .error (.needleTypeMismatch n.valueType valueType)
      else if n.stride = 0 then .error (.noStride valueType)
      else .ok n

/-- The step between slots; `0` means the value type's own width. -/
def spiderAlign (cfg : SpiderConfig) (needle : Needle) : ℕ :=
  max (if cfg.alignment = 0 then needle.stride else cfg.alignment) 1

def spiderPass (target : ScanTarget σ) (observer : ScanObserver σ) (root : ℕ) (cfg : SpiderConfig)
    (compare : ScanCompareType) (needle : Needle) (regions : List Region) : SpiderPass σ where
  target := target
  observer := observer
  root := root
  cfg := cfg
  compare := compare
  needle := needle
  align := spiderAlign cfg needle
  ranges := sortedRanges regions
  align_pos := Nat.lt_of_lt_of_le one_pos (Nat.le_max_right _ _)

/-- The window: the struct, a pointer, and one step of slack for an unaligned root. -/
def windowLen (cfg : SpiderConfig) (needle : Needle) : Option ℕ := do
  let len ← checkedAdd cfg.structSize cfg.pointerSize
  checkedAdd len (spiderAlign cfg needle)

def spiderScanWith (target : ScanTarget σ) (root : ℕ) (cfg : SpiderConfig)
    (valueType : ScanValueType) (compare : ScanCompareType) (needle : Option Needle)
    (observer : ScanObserver σ) (world : σ) : Except Failure SpiderScanResult × σ :=
  let cfg := cfg.clamped
  match checkSpider valueType compare needle with
  | .error e => (.error (.error e), world)
  | .ok needle =>
    match target.regions world with
    | (.error e, world) => (.error (.error (.target e)), world)
    | (.ok regions, world) =>
      match windowLen cfg needle with
      | none => (.error .overflow, world)
      | some len =>
        let pass := spiderPass target observer root cfg compare needle regions
        let start : SpiderWalk σ := { world, win := List.replicate len 0, visited := {root} }
        match pass.search [⟨root, 0, []⟩] start with
        | (.cancelled, w) => (.error (.error .cancelled), w.world)
        | (.overflow, w) => (.error .overflow, w.world)
        | (_, w) => (.ok ⟨w.hits, w.truncated, w.nodesVisited, w.examined⟩, w.world)

def spiderScan (target : ScanTarget σ) (root : ℕ) (cfg : SpiderConfig) (valueType : ScanValueType)
    (compare : ScanCompareType) (needle : Option Needle) (world : σ) :
    Except Failure SpiderScanResult × σ :=
  spiderScanWith target root cfg valueType compare needle (noObserver σ) world

end SpiderScan

end Nemclass.Scan
