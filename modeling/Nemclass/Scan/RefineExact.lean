import Mathlib.Data.List.Forall2
import Nemclass.Scan.SpiderRefine

/-! What a refinement does to a list of hits. Failing, it leaves the list as it was; otherwise each
hit is judged by what the target answers when its turn comes: it is kept with its fresh reading when
its path can be walked over full pointers, the value read in full, and the comparison holds. -/
namespace Nemclass.Scan
open Usize

section Walks
variable {σ : Type} (target : ScanTarget σ) (size : ℕ)

/-- A path is walked from an address over pointers that are read in full and are not null, each
from the world that the read before it left. -/
inductive Walks : ℕ → List ℕ → σ → ℕ → σ → Prop where
  | stop (addr : ℕ) (world : σ) : Walks addr [] world addr world
  | hop {addr off stop : ℕ} {rest : List ℕ} {world world₁ world₂ : σ} {buf : Transfer size}
    (hsum : addr + off ≤ usizeMax)
    (hread : target.read world (addr + off) size = (.ok buf, world₁))
    (hfull : buf.val.length = size) (hnull : readWord buf.val ≠ 0)
    (h : Walks (readWord buf.val) rest world₁ stop world₂) :
    Walks addr (off :: rest) world stop world₂

variable {target size} {addr stop : ℕ} {path : List ℕ} {world world' : σ}

theorem readPtr_eq_some {word : ℕ} :
    readPtr target size world addr = (some word, world') ↔
      ∃ buf : Transfer size, target.read world addr size = (.ok buf, world') ∧
        buf.val.length = size ∧ readWord buf.val = word := by
  unfold readPtr
  cases hread : target.read world addr size with
  | mk result world₁ =>
    cases result with
    | error e => simp
    | ok buf =>
      dsimp only
      by_cases hfull : buf.val.length = size
      · rw [if_pos hfull]
        constructor
        · rintro h
          cases h
          exact ⟨buf, rfl, hfull, rfl⟩
        · rintro ⟨buf', heq, -, rfl⟩
          cases heq
          rfl
      · rw [if_neg hfull]
        refine iff_of_false nofun ?_
        rintro ⟨buf', heq, hfull', -⟩
        cases heq
        exact hfull hfull'

/-- The code's walk succeeds on the paths that can be walked. -/
theorem hops_eq_some_iff : SpiderPath.hops (readPtr target size) addr path world =
    (some stop, world') ↔ Walks target size addr path world stop world' := by
  constructor
  · intro h
    induction path generalizing addr world with
    | nil =>
      cases h
      exact .stop _ _
    | cons off rest ih =>
      rw [SpiderPath.hops] at h
      split at h
      · cases h
      · rename_i slot hslot
        obtain ⟨rfl, hsum⟩ := checkedAdd_eq_some.mp hslot
        split at h
        · cases h
        · rename_i word world₁ hptr
          obtain ⟨buf, hread, hfull, rfl⟩ := readPtr_eq_some.mp hptr
          by_cases hnull : readWord buf.val = 0
          · rw [if_pos hnull] at h
            cases h
          · rw [if_neg hnull] at h
            exact .hop hsum hread hfull hnull (ih h)
  · intro h
    induction h with
    | stop => rfl
    | hop hsum hread hfull hnull h ih =>
      rw [SpiderPath.hops, checkedAdd_of_le hsum]
      dsimp only
      rw [readPtr_eq_some.mpr ⟨_, hread, hfull, rfl⟩]
      dsimp only
      rw [if_neg hnull]
      exact ih

end Walks

namespace SpiderRefine
variable {σ : Type} (p : SpiderRefine σ)

/-- A hit is kept with a fresh reading: its path leads to an address, the value is read there in
full, and the comparison with the reading before holds. -/
def Keeps (hit : SpiderHit) (world : σ) (fresh : List UInt8) : Prop :=
  ∃ base world₁, Walks p.target p.pointerSize hit.path.root hit.path.parentOffsets world base
      world₁ ∧
    base + hit.path.offset ≤ usizeMax ∧
    ∃ (buf : Transfer p.stride) (world₂ : σ),
      p.target.read world₁ (base + hit.path.offset) p.stride = (.ok buf, world₂) ∧
      p.stride ≤ buf.val.length ∧ buf.val = fresh ∧
      keep p.valueType p.compare p.needle fresh hit.current = true

/-- The worlds in which the hits are judged, one after the other. -/
def worlds : ℕ → ℕ → List SpiderHit → σ → List σ
  | _, _, [], _ => []
  | done, kept, hit :: hits, world =>
    let world := (p.tick (done + 1) kept world).2
    let (fresh, next) := p.verdict hit world
    world :: worlds (done + 1) (if fresh.isSome then kept + 1 else kept) hits next

theorem worlds_length (done kept : ℕ) (hits : List SpiderHit) (world : σ) :
    (p.worlds done kept hits world).length = hits.length := by
  induction hits generalizing done kept world with
  | nil => rfl
  | cons hit hits ih =>
    rw [worlds, List.length_cons, List.length_cons, ih]

/-- What becomes of a hit that is judged in a world. -/
def Judged (x : SpiderHit × σ) (kept : Option SpiderHit) : Prop :=
  ∀ hit, kept = some hit ↔ ∃ fresh, p.Keeps x.1 x.2 fresh ∧
    hit = { path := x.1.path, current := fresh, previous := x.1.current }

variable {p} {hit : SpiderHit} {world : σ}

theorem resolve_eq_some {addr : ℕ} {world' : σ} :
    hit.path.resolve (readPtr p.target p.pointerSize) world = (some addr, world') ↔
      ∃ base, Walks p.target p.pointerSize hit.path.root hit.path.parentOffsets world base world' ∧
        base + hit.path.offset ≤ usizeMax ∧ base + hit.path.offset = addr := by
  unfold SpiderPath.resolve
  cases hhops : SpiderPath.hops (readPtr p.target p.pointerSize) hit.path.root
      hit.path.parentOffsets world with
  | mk found world₁ =>
    cases found with
    | none =>
      refine iff_of_false nofun ?_
      rintro ⟨base, hwalks, -⟩
      rw [← hops_eq_some_iff, hhops] at hwalks
      cases hwalks
    | some base =>
      rw [Prod.mk.injEq, checkedAdd_eq_some]
      constructor
      · rintro ⟨⟨hsum, hmax⟩, rfl⟩
        exact ⟨base, hops_eq_some_iff.mp hhops, hmax, hsum⟩
      · rintro ⟨base', hwalks, hmax, hsum⟩
        rw [← hops_eq_some_iff, hhops, Prod.mk.injEq, Option.some.injEq] at hwalks
        obtain ⟨rfl, rfl⟩ := hwalks
        exact ⟨⟨hsum, hmax⟩, rfl⟩

theorem keeps_iff {fresh : List UInt8} :
    p.Keeps hit world fresh ↔ ∃ addr world₁,
      hit.path.resolve (readPtr p.target p.pointerSize) world = (some addr, world₁) ∧
        ∃ (buf : Transfer p.stride) (world₂ : σ),
          p.target.read world₁ addr p.stride = (.ok buf, world₂) ∧ p.stride ≤ buf.val.length ∧
          buf.val = fresh ∧ keep p.valueType p.compare p.needle fresh hit.current = true := by
  constructor
  · rintro ⟨base, world₁, hwalks, hmax, hread⟩
    exact ⟨_, world₁, resolve_eq_some.mpr ⟨base, hwalks, hmax, rfl⟩, hread⟩
  · rintro ⟨addr, world₁, hresolve, hread⟩
    obtain ⟨base, hwalks, hmax, rfl⟩ := resolve_eq_some.mp hresolve
    exact ⟨base, world₁, hwalks, hmax, hread⟩

/-- The verdict on a hit is the reading that it is kept with. -/
theorem verdict_eq_some_iff {fresh : List UInt8} :
    (p.verdict hit world).1 = some fresh ↔ p.Keeps hit world fresh := by
  rw [keeps_iff]
  unfold verdict
  cases hresolve : hit.path.resolve (readPtr p.target p.pointerSize) world with
  | mk found world₁ =>
    cases found with
    | none =>
      refine iff_of_false nofun ?_
      rintro ⟨addr, world₂, h, -⟩
      cases h
    | some addr =>
      dsimp only
      cases hread : p.target.read world₁ addr p.stride with
      | mk result world₂ =>
        cases result with
        | error e =>
          refine iff_of_false nofun ?_
          rintro ⟨_, _, h, buf, world₃, h', -⟩
          cases h
          rw [hread] at h'
          cases h'
        | ok buf =>
          have hunique {buf' : Transfer p.stride} {world₃ : σ}
              (h : p.target.read world₁ addr p.stride = (.ok buf', world₃)) : buf' = buf := by
            rw [hread] at h
            cases h
            rfl
          dsimp only
          by_cases hshort : buf.val.length < p.stride
          · rw [if_pos hshort]
            refine iff_of_false nofun ?_
            rintro ⟨_, _, h, buf', world₃, h', hfull, -⟩
            cases h
            rw [hunique h'] at hfull
            omega
          · rw [if_neg hshort]
            by_cases hkeep : keep p.valueType p.compare p.needle buf.val hit.current = true
            · rw [if_pos hkeep, Option.some.injEq]
              constructor
              · rintro rfl
                exact ⟨addr, world₁, rfl, buf, world₂, hread, Nat.not_lt.mp hshort, rfl, hkeep⟩
              · rintro ⟨_, _, h, buf', world₃, h', -, rfl, -⟩
                cases h
                rw [hunique h']
            · rw [if_neg hkeep]
              refine iff_of_false nofun ?_
              rintro ⟨_, _, h, buf', world₃, h', -, rfl, hkeep'⟩
              cases h
              rw [hunique h'] at hkeep'
              exact hkeep hkeep'

/-- The verdicts of a pass that is not stopped, each on its hit and in its world. -/
theorem verdicts_eq_map {done kept : ℕ} {hits : List SpiderHit}
    {found : List (Option (List UInt8))} {world' : σ}
    (h : p.verdicts done kept hits world = (some found, world')) :
    found = (hits.zip (p.worlds done kept hits world)).map fun x => (p.verdict x.1 x.2).1 := by
  induction hits generalizing done kept world found with
  | nil =>
    rw [verdicts, Prod.mk.injEq, Option.some.injEq] at h
    rw [← h.1]
    rfl
  | cons hit hits ih =>
    rw [verdicts] at h
    rw [worlds]
    cases htick : p.tick (done + 1) kept world with
    | mk go world₁ =>
      rw [htick] at h
      cases go with
      | false => cases h
      | true =>
        dsimp only at h ⊢
        rw [List.zip_cons_cons, List.map_cons]
        cases hrest : p.verdicts (done + 1)
            (if (p.verdict hit world₁).1.isSome then kept + 1 else kept) hits
            (p.verdict hit world₁).2 with
        | mk rest world₂ =>
          rw [hrest] at h
          cases rest with
          | none => cases h
          | some rest =>
            cases h
            rw [ih hrest]

variable (p) in
/-- What a hit becomes by its verdict. -/
def rotate (x : SpiderHit × σ) : Option SpiderHit :=
  (p.verdict x.1 x.2).1.map fun fresh =>
    { path := x.1.path, current := fresh, previous := x.1.current }

theorem rotate_judged (x : SpiderHit × σ) : p.Judged x (p.rotate x) := by
  intro hit
  rw [rotate, Option.map_eq_some_iff]
  constructor
  · rintro ⟨fresh, hverdict, rfl⟩
    exact ⟨fresh, verdict_eq_some_iff.mp hverdict, rfl⟩
  · rintro ⟨fresh, hkeeps, rfl⟩
    exact ⟨fresh, verdict_eq_some_iff.mpr hkeeps, rfl⟩

/-- Retaining by the verdicts is a filter-map of the hits, each with its world. -/
theorem retain_verdicts (xs : List (SpiderHit × σ)) :
    retain (xs.map Prod.fst) (xs.map fun x => (p.verdict x.1 x.2).1) =
      xs.filterMap p.rotate := by
  rw [retain, List.zip_map', List.filterMap_map]
  rfl

end SpiderRefine

/-- A refinement that fails leaves the hits as they were. One that succeeds judges them one after
the other and keeps, in order, those that their judgement keeps. -/
theorem spiderRefineWith_exact {σ : Type} (target : ScanTarget σ) (hits : List SpiderHit)
    (cfg : SpiderConfig) (valueType : ScanValueType) (compare : ScanCompareType)
    (needle : Option Needle) (observer : ScanObserver σ) (world : σ) :
    match spiderRefineWith target hits cfg valueType compare needle observer world with
    | (.error _, hits', _) => hits' = hits
    | (.ok (), hits', _) => ∃ stride, checkRefine valueType compare needle = .ok stride ∧
        let pass : SpiderRefine σ := ⟨target, observer, cfg.clamped.pointerSize, valueType, compare,
          needle, stride, hits.length⟩
        let worlds := pass.worlds 0 0 hits world
        worlds.length = hits.length ∧ ∃ kept : List (Option SpiderHit),
          List.Forall₂ pass.Judged (hits.zip worlds) kept ∧ hits' = kept.filterMap id := by
  unfold spiderRefineWith
  cases hcheck : checkRefine valueType compare needle with
  | error e => rfl
  | ok stride =>
    dsimp only
    generalize hpass : SpiderRefine.mk target observer cfg.clamped.pointerSize valueType compare
      needle stride hits.length = pass
    cases hverdicts : pass.verdicts 0 0 hits world with
    | mk found world' =>
      cases found with
      | none => rfl
      | some found =>
        dsimp only
        have hlen := pass.worlds_length 0 0 hits world
        have hfst : (hits.zip (pass.worlds 0 0 hits world)).map Prod.fst = hits :=
          List.map_fst_zip hlen.ge
        refine ⟨stride, rfl, ?_⟩
        rw [hpass]
        refine ⟨hlen, (hits.zip (pass.worlds 0 0 hits world)).map (pass.rotate), ?_, ?_⟩
        · rw [List.forall₂_map_right_iff, List.forall₂_same]
          exact fun x _ => SpiderRefine.rotate_judged x
        · rw [SpiderRefine.verdicts_eq_map hverdicts, List.filterMap_map]
          nth_rewrite 1 [← hfst]
          exact SpiderRefine.retain_verdicts _

end Nemclass.Scan
