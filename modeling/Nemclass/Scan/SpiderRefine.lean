import Nemclass.Scan.Spider

/-! Walking a path again, and the next pass over a spider search's hits: every path is walked
against the target and its value read again, and a hit whose reading still satisfies the
comparison is kept with it. -/
namespace Nemclass.Scan
open Usize

namespace SpiderPath

def depth (path : SpiderPath) : ℕ := path.parentOffsets.length

/-- The dereferences from an address on; a null pointer is not followed. -/
def hops {σ : Type} (readPtr : σ → ℕ → Option ℕ × σ) : ℕ → List ℕ → σ → Option ℕ × σ
  | addr, [], world => (some addr, world)
  | addr, off :: rest, world =>
    match checkedAdd addr off with
    | none => (none, world)
    | some slot =>
      match readPtr world slot with
      | (none, world) => (none, world)
      | (some word, world) => if word = 0 then (none, world) else hops readPtr word rest world

def resolve {σ : Type} (path : SpiderPath) (readPtr : σ → ℕ → Option ℕ × σ) (world : σ) :
    Option ℕ × σ :=
  match hops readPtr path.root path.parentOffsets world with
  | (none, world) => (none, world)
  | (some addr, world) => (checkedAdd addr path.offset, world)

end SpiderPath

/-- A pointer-sized word, where all of it is read. -/
def readPtr {σ : Type} (target : ScanTarget σ) (size : ℕ) (world : σ) (addr : ℕ) : Option ℕ × σ :=
  match target.read world addr size with
  | (.error _, world) => (none, world)
  | (.ok buf, world) => (if buf.val.length = size then some (readWord buf.val) else none, world)

/-- Whether a fresh reading keeps its hit. -/
def keep (valueType : ScanValueType) (compare : ScanCompareType) (needle : Option Needle)
    (fresh captured : List UInt8) : Bool :=
  match needle with
  | some n => n.compareNext fresh 0 compare captured
  | none => valueType.compareChange compare fresh captured

/-- What is fixed during one refinement. -/
structure SpiderRefine (σ : Type) where
  target : ScanTarget σ
  observer : ScanObserver σ
  pointerSize : ℕ
  valueType : ScanValueType
  compare : ScanCompareType
  needle : Option Needle
  stride : ℕ
  total : ℕ

namespace SpiderRefine
variable {σ : Type} (p : SpiderRefine σ)

/-- The fresh reading of one hit, if the hit is kept. -/
def verdict (hit : SpiderHit) (world : σ) : Option (List UInt8) × σ :=
  match hit.path.resolve (readPtr p.target p.pointerSize) world with
  | (none, world) => (none, world)
  | (some addr, world) =>
    match p.target.read world addr p.stride with
    | (.error _, world) => (none, world)
    | (.ok buf, world) =>
      if buf.val.length < p.stride then (none, world)
      else
        let keep := keep p.valueType p.compare p.needle buf.val hit.current
        (if keep then some buf.val else none, world)

def hitInterval : ℕ := 64

def tick (done kept : ℕ) (world : σ) : Bool × σ :=
  if done % hitInterval = 0 then p.observer.tick world ⟨done, p.total, kept⟩ else (true, world)

/-- The verdicts on the hits, unless the observer stops the pass. -/
def verdicts : ℕ → ℕ → List SpiderHit → σ → Option (List (Option (List UInt8))) × σ
  | _, _, [], world => (some [], world)
  | done, kept, hit :: hits, world =>
    match p.tick (done + 1) kept world with
    | (false, world) => (none, world)
    | (true, world) =>
      let (fresh, world) := p.verdict hit world
      match verdicts (done + 1) (if fresh.isSome then kept + 1 else kept) hits world with
      | (none, world) => (none, world)
      | (some rest, world) => (some (fresh :: rest), world)

end SpiderRefine

/-- The hits that are kept, each with its reading rotated. -/
def retain (hits : List SpiderHit) (verdicts : List (Option (List UInt8))) : List SpiderHit :=
  (hits.zip verdicts).filterMap fun (hit, fresh) =>
    fresh.map fun fresh => { hit with current := fresh, previous := hit.current }

/-- The checks a refinement makes, and the width it reads. -/
def checkRefine (valueType : ScanValueType) (compare : ScanCompareType) (needle : Option Needle) :
    Except ScanError ℕ :=
  if compare.isBaseline then .error (.compareIsFirstScanOnly compare)
  else if compare.needsNeedle && needle.isNone then .error (.missingNeedle compare)
  else
    match needle with
    | none =>
      let stride := valueType.fixedWidth.getD 0
      if stride = 0 then .error (.noStride valueType) else .ok stride
    | some n =>
      if n.valueType ≠ valueType then .error (.needleTypeMismatch n.valueType valueType)
      else if n.stride = 0 then .error (.noStride valueType)
      else .ok n.stride

/-- `spider_refine_with`, with the hit list it leaves. -/
def spiderRefineWith {σ : Type} (target : ScanTarget σ) (hits : List SpiderHit) (cfg : SpiderConfig)
    (valueType : ScanValueType) (compare : ScanCompareType) (needle : Option Needle)
    (observer : ScanObserver σ) (world : σ) : Except ScanError Unit × List SpiderHit × σ :=
  match checkRefine valueType compare needle with
  | .error e => (.error e, hits, world)
  | .ok stride =>
    let pass : SpiderRefine σ :=
      ⟨target, observer, cfg.clamped.pointerSize, valueType, compare, needle, stride, hits.length⟩
    match pass.verdicts 0 0 hits world with
    | (none, world) => (.error .cancelled, hits, world)
    | (some verdicts, world) => (.ok (), retain hits verdicts, world)

section Hops
variable {σ : Type} {readPtr : σ → ℕ → Option ℕ × σ}

theorem SpiderPath.hops_append {addr next : ℕ} {path : List ℕ} {world world' : σ}
    (h : SpiderPath.hops readPtr addr path world = (some next, world')) (rest : List ℕ) :
    SpiderPath.hops readPtr addr (path ++ rest) world =
      SpiderPath.hops readPtr next rest world' := by
  induction path generalizing addr world with
  | nil =>
    rw [SpiderPath.hops, Prod.mk.injEq, Option.some.injEq] at h
    rw [List.nil_append, h.1, h.2]
  | cons off path ih =>
    rw [SpiderPath.hops] at h
    rw [List.cons_append, SpiderPath.hops]
    split at h
    · cases h
    · split at h
      · cases h
      · split at h
        · cases h
        · rename_i hnull
          rw [if_neg hnull]
          exact ih h

end Hops

section Verdicts
variable {σ : Type} (p : SpiderRefine σ)

theorem SpiderRefine.tick_goes (h : p.observer.NeverStops) (done kept : ℕ) (world : σ) :
    (p.tick done kept world).1 = true := by
  unfold tick
  split
  · exact h _ _
  · rfl

/-- A pass whose observer never stops it, over hits that are each kept with a known reading. -/
theorem SpiderRefine.verdicts_eq (hobserver : p.observer.NeverStops) {hits : List SpiderHit}
    {fresh : SpiderHit → Option (List UInt8)}
    (hfresh : ∀ hit ∈ hits, ∀ world, (p.verdict hit world).1 = fresh hit) (done kept : ℕ)
    (world : σ) : (p.verdicts done kept hits world).1 = some (hits.map fresh) := by
  induction hits generalizing done kept world with
  | nil => rfl
  | cons hit hits ih =>
    have hgoes := p.tick_goes hobserver (done + 1) kept world
    rw [verdicts]
    cases htick : p.tick (done + 1) kept world with
    | mk go world₁ =>
      rw [htick] at hgoes
      obtain rfl : go = true := hgoes
      have hhit := hfresh hit List.mem_cons_self world₁
      dsimp only
      rw [hhit]
      have hrest := ih (fun h hh => hfresh h (List.mem_cons_of_mem _ hh)) (done + 1)
        (if (fresh hit).isSome then kept + 1 else kept) (p.verdict hit world₁).2
      cases hverdicts : p.verdicts (done + 1) (if (fresh hit).isSome then kept + 1 else kept) hits
          (p.verdict hit world₁).2 with
      | mk found world₂ =>
        rw [hverdicts] at hrest
        obtain rfl : found = some (hits.map fresh) := hrest
        rfl

/-- Kept with the reading they had, hits are kept as they are. -/
theorem retain_map (hits : List SpiderHit) (keep : SpiderHit → Bool)
    (h : ∀ hit ∈ hits, hit.previous = hit.current) :
    retain hits (hits.map fun hit => if keep hit then some hit.current else none) =
      hits.filter keep := by
  induction hits with
  | nil => rfl
  | cons hit hits ih =>
    have hrest := ih fun h' hh' => h h' (List.mem_cons_of_mem _ hh')
    have hhit := h hit List.mem_cons_self
    rw [retain] at hrest ⊢
    rw [List.map_cons, List.zip_cons_cons, List.filterMap_cons]
    cases hkeep : keep hit with
    | false =>
      rw [List.filter_cons_of_neg (by simp [hkeep])]
      exact hrest
    | true =>
      rw [List.filter_cons_of_pos hkeep]
      dsimp only
      rw [if_pos rfl, Option.map_some, hrest]
      obtain ⟨path, current, previous⟩ := hit
      obtain rfl : previous = current := hhit
      rfl

end Verdicts

end Nemclass.Scan
