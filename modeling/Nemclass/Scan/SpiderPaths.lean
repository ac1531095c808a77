import Nemclass.Scan.SpiderRefine
import Nemclass.Scan.SpiderSearch

/-! The paths of a spider search's hits over a memory that does not change: each leads, by
readable pointers that are not null, to the bytes of its hit, so that walking it again gives their
address and refining the hits with a comparison that they satisfy keeps them. -/
namespace Nemclass.Scan
open Usize Spans

/-- A memory that does not change: a read transfers readable bytes of it, and all bytes asked for
where all are readable. -/
structure StaticMemory {σ : Type} (target : ScanTarget σ) (readable : ℕ → Prop)
    (mem : ℕ → UInt8) : Prop where
  addresses : ∀ a, readable a → a ≤ usizeMax
  transfers : ∀ world addr len buf world', target.read world addr len = (.ok buf, world') →
    buf.val = memBytes mem addr buf.val.length ∧ ∀ i < buf.val.length, readable (addr + i)
  fills : ∀ world addr len, (∀ i < len, readable (addr + i)) →
    ∃ buf world', target.read world addr len = (.ok buf, world') ∧ buf.val = memBytes mem addr len

/-- Memory that is mapped by whole pages and constant does not change. -/
theorem PagedReads.static {σ : Type} {target : ScanTarget σ} {regions : List Region}
    {mem : ℕ → UInt8} (h : PagedReads target regions mem) :
    StaticMemory target (Mapped regions) mem where
  addresses a := by
    rintro ⟨r, -, -, hlt⟩
    exact hlt.le.trans r.stop_le
  transfers := h.transfers
  fills := h.fills

theorem PagedMemory.static {σ : Type} {target : ScanTarget σ} {regions : List Region}
    {mem : ℕ → UInt8} (h : PagedMemory target regions mem) :
    StaticMemory target (Mapped regions) mem := h.reads.static

theorem StaticMemory.short {σ : Type} {target : ScanTarget σ} {readable : ℕ → Prop}
    {mem : ℕ → UInt8} (h : StaticMemory target readable mem) : ShortReads target readable mem :=
  ⟨h.transfers⟩

section Paths
variable {σ : Type} {target : ScanTarget σ} {readable : ℕ → Prop} {mem : ℕ → UInt8} {size : ℕ}

/-- A path leads from an address to another: at each offset there is a readable pointer, which is
not null, to the struct that the rest starts from. -/
inductive Leads (readable : ℕ → Prop) (mem : ℕ → UInt8) (size root : ℕ) : List ℕ → ℕ → Prop where
  | root : Leads readable mem size root [] root
  | hop {path : List ℕ} {addr off word : ℕ} (h : Leads readable mem size root path addr)
    (hreads : ∀ i < size, readable (addr + off + i))
    (hword : readWord (memBytes mem (addr + off) size) = word) (hnull : word ≠ 0) :
    Leads readable mem size root (path ++ [off]) word

theorem StaticMemory.readPtr (hmem : StaticMemory target readable mem) {addr : ℕ}
    (hreads : ∀ i < size, readable (addr + i)) (world : σ) :
    ∃ world', readPtr target size world addr = (some (readWord (memBytes mem addr size)), world') := by
  obtain ⟨buf, world', hread, hbytes⟩ := hmem.fills world addr size hreads
  refine ⟨world', ?_⟩
  rw [Scan.readPtr, hread]
  dsimp only
  rw [hbytes, if_pos (memBytes_length mem addr size)]

/-- A path that leads somewhere is walked there. -/
theorem hops_of_leads (hmem : StaticMemory target readable mem) (hsize : 0 < size) {root addr : ℕ}
    {path : List ℕ} (h : Leads readable mem size root path addr) (world : σ) :
    ∃ world', SpiderPath.hops (readPtr target size) root path world = (some addr, world') := by
  induction h with
  | root => exact ⟨world, rfl⟩
  | hop h hreads hword hnull ih =>
    rename_i path addr off word
    obtain ⟨world₁, hpath⟩ := ih
    obtain ⟨world₂, hread⟩ := hmem.readPtr hreads world₁
    have hslot : checkedAdd addr off = some (addr + off) :=
      checkedAdd_of_le (hmem.addresses _ (hreads 0 hsize))
    refine ⟨world₂, ?_⟩
    rw [SpiderPath.hops_append hpath, SpiderPath.hops, hslot]
    dsimp only
    rw [hread, hword]
    dsimp only
    rw [if_neg hnull]
    rfl

end Paths

namespace SpiderPass
variable {σ : Type} (p : SpiderPass σ) (readable : ℕ → Prop) (mem : ℕ → UInt8)

/-- A frame whose path leads to it. -/
structure LiveFrame (frame : Frame) : Prop where
  leads : Leads readable mem p.cfg.pointerSize p.root frame.path frame.addr
  depth_eq : frame.depth = frame.path.length
  depth_le : frame.depth ≤ p.cfg.maxDepth

/-- A hit whose path leads to a struct that has the hit's bytes at its offset. -/
structure LiveHit (hit : SpiderHit) (addr : ℕ) : Prop where
  root_eq : hit.path.root = p.root
  leads : Leads readable mem p.cfg.pointerSize p.root hit.path.parentOffsets addr
  reads : ∀ i < p.needle.stride, readable (addr + hit.path.offset + i)
  current_eq : hit.current = memBytes mem (addr + hit.path.offset) p.needle.stride
  previous_eq : hit.previous = hit.current
  matches_ : p.needle.compareFirst hit.current 0 p.compare = true
  depth_le : hit.path.depth ≤ p.cfg.maxDepth

/-- All that is found and all that is queued is live. -/
structure Live (w : SpiderWalk σ) : Prop where
  hits : ∀ hit ∈ w.hits, ∃ addr, p.LiveHit readable mem hit addr
  next : ∀ frame ∈ w.next, p.LiveFrame readable mem frame

variable {p readable mem} {frame : Frame} {cover : Cover} {off : ℕ} {w : SpiderWalk σ}

theorem valueBranch_win (frame : Frame) (cover : Cover) (off : ℕ) (w : SpiderWalk σ) :
    (p.valueBranch frame cover off w).2.win = w.win := by
  rw [p.valueBranch_snd]

/-- What a window shows at an offset that the cover has is live. -/
theorem LiveFrame.slot (hframe : p.LiveFrame readable mem frame) {win : List UInt8}
    (hcovers : Covers readable mem frame.addr cover win)
    (hslot : p.slotHit cover win off = true) : p.LiveHit readable mem
      ⟨⟨p.root, frame.path, off⟩, (win.drop off).take p.needle.stride,
        (win.drop off).take p.needle.stride⟩ frame.addr := by
  obtain ⟨hhas, hcompare⟩ := Bool.and_eq_true_iff.mp hslot
  have hheld := hcovers off p.needle.stride hhas
  have hdepth : frame.path.length ≤ p.cfg.maxDepth := hframe.depth_eq ▸ hframe.depth_le
  refine ⟨rfl, hframe.leads, fun i hi => ?_, hheld.bytes, rfl, ?_, hdepth⟩
  · rw [Nat.add_assoc]
    exact hheld.reads (off + i) (by omega) (by omega)
  · exact (p.needle.compare_window hheld.le_length p.compare none).symm.trans hcompare

theorem Live.valueBranch (h : p.Live readable mem w) (hframe : p.LiveFrame readable mem frame)
    (hcovers : Covers readable mem frame.addr cover w.win) (off : ℕ) :
    p.Live readable mem (p.valueBranch frame cover off w).2 := by
  rw [p.valueBranch_snd]
  refine ⟨fun hit hhit => ?_, h.next⟩
  rcases List.mem_append.mp hhit with hhit | hhit
  · exact h.hits hit hhit
  · obtain ⟨o, ho, rfl⟩ := List.mem_map.mp hhit
    exact ⟨frame.addr, hframe.slot hcovers (List.mem_filter.mp ho).2⟩

theorem Live.pointerBranch (h : p.Live readable mem w) (hframe : p.LiveFrame readable mem frame)
    (hcovers : Covers readable mem frame.addr cover w.win) {w' : SpiderWalk σ}
    (hw' : p.pointerBranch frame cover off w = some w') :
    p.Live readable mem w' ∧ w'.win = w.win := by
  unfold SpiderPass.pointerBranch at hw'
  split at hw'
  · rename_i hdepth
    split at hw'
    · cases hw'
    · rename_i slot hslot
      split at hw'
      · rename_i hread
        obtain ⟨-, hhas⟩ := Bool.and_eq_true_iff.mp hread
        have hheld := hcovers off p.cfg.pointerSize hhas
        dsimp only at hw'
        split at hw'
        · rename_i hword
          simp only [Bool.and_eq_true, decide_eq_true_eq] at hword
          have hchild : p.LiveFrame readable mem
              ⟨readWord ((w.win.drop off).take p.cfg.pointerSize), frame.depth + 1,
                frame.path ++ [off]⟩ := by
            refine ⟨.hop hframe.leads (fun i hi => ?_) (by rw [← hheld.bytes]) hword.1.1, ?_, hdepth⟩
            · rw [Nat.add_assoc]
              exact hheld.reads (off + i) (by omega) (by omega)
            · rw [List.length_append, hframe.depth_eq, List.length_singleton]
          have hnext : ∀ f ∈ w.next ++ [⟨readWord ((w.win.drop off).take p.cfg.pointerSize),
              frame.depth + 1, frame.path ++ [off]⟩], p.LiveFrame readable mem f := by
            intro f hf
            rcases List.mem_append.mp hf with hf | hf
            · exact h.next f hf
            · rw [List.mem_singleton] at hf
              exact hf ▸ hchild
          split at hw'
          · split at hw' <;> cases hw'
            · exact ⟨h, rfl⟩
            · exact ⟨⟨h.hits, hnext⟩, rfl⟩
          · cases hw'
            exact ⟨⟨h.hits, hnext⟩, rfl⟩
        · cases hw'
          exact ⟨h, rfl⟩
      · cases hw'
        exact ⟨h, rfl⟩
  · cases hw'
    exact ⟨h, rfl⟩

theorem Live.slots (h : p.Live readable mem w) (hframe : p.LiveFrame readable mem frame)
    (hcovers : Covers readable mem frame.addr cover w.win) (windowEnd off : ℕ) :
    p.Live readable mem (p.slots frame cover windowEnd off w).2 := by
  fun_induction p.slots frame cover windowEnd off w with
  | case1 off w _ w₁ hvalue =>
    have hlive := h.valueBranch hframe hcovers off
    rwa [hvalue] at hlive
  | case2 off w _ w₁ hvalue _ =>
    have hlive := h.valueBranch hframe hcovers off
    rwa [hvalue] at hlive
  | case3 off w _ w₁ hvalue w₂ hpointer _ =>
    have hlive := h.valueBranch hframe hcovers off
    have hwin := p.valueBranch_win frame cover off w
    rw [hvalue] at hlive hwin
    exact (hlive.pointerBranch hframe (hwin ▸ hcovers) hpointer).1
  | case4 off w _ w₁ hvalue w₂ hpointer next _ ih =>
    have hlive := h.valueBranch hframe hcovers off
    have hwin := p.valueBranch_win frame cover off w
    rw [hvalue] at hlive hwin
    obtain ⟨hlive₂, hwin₂⟩ := hlive.pointerBranch hframe (hwin ▸ hcovers) hpointer
    exact ih hlive₂ (by rw [hwin₂, hwin]; exact hcovers)
  | case5 => exact h

theorem Live.walkWindow (h : p.Live readable mem w) (hframe : p.LiveFrame readable mem frame)
    (hcovers : Covers readable mem frame.addr cover w.win) :
    p.Live readable mem (p.walkWindow frame cover w).2 := by
  unfold SpiderPass.walkWindow
  split
  · exact h
  · split
    · exact h
    · dsimp only
      split
      · exact h
      · exact h.slots hframe hcovers _ _

theorem Live.tick (h : p.Live readable mem w) (queued : ℕ) :
    p.Live readable mem (p.tick queued w).2 := by
  unfold SpiderPass.tick
  split
  · exact ⟨h.hits, h.next⟩
  · exact h

theorem Live.examine (hmem : StaticMemory p.target readable mem) (h : p.Live readable mem w)
    (hframe : p.LiveFrame readable mem frame) (queued : ℕ) :
    p.Live readable mem (p.examine queued frame w).2 := by
  unfold SpiderPass.examine
  split
  · exact ⟨h.hits, h.next⟩
  · have hstart : p.Live readable mem
        { w with nodesVisited := w.nodesVisited + 1, examined := w.examined ++ [frame] } :=
      ⟨h.hits, h.next⟩
    have hticked := hstart.tick queued
    split
    · rename_i w₁ htick
      rwa [htick] at hticked
    · rename_i w₁ htick
      rw [htick] at hticked
      split
      · exact ⟨hticked.hits, hticked.next⟩
      · rename_i cover win world hwindow
        have hmoved : p.Live readable mem { w₁ with world, win } := ⟨hticked.hits, hticked.next⟩
        exact hmoved.walkWindow hframe (readWindow_covers hmem.short hwindow)

theorem Live.level (hmem : StaticMemory p.target readable mem) (h : p.Live readable mem w)
    {frontier : List Frame} (hfrontier : ∀ frame ∈ frontier, p.LiveFrame readable mem frame) :
    p.Live readable mem (p.level frontier w).2 := by
  induction frontier generalizing w with
  | nil => exact h
  | cons frame rest ih =>
    have hexamined := h.examine hmem (hfrontier frame List.mem_cons_self) rest.length
    rw [SpiderPass.level]
    split
    · rename_i w₁ hgo
      rw [hgo] at hexamined
      exact ih hexamined fun f hf => hfrontier f (List.mem_cons_of_mem _ hf)
    · exact hexamined

theorem Live.search (hmem : StaticMemory p.target readable mem) (h : p.Live readable mem w)
    {frontier : List Frame} (hfrontier : ∀ frame ∈ frontier, p.LiveFrame readable mem frame) :
    p.Live readable mem (p.search frontier w).2 := by
  fun_induction p.search frontier w with
  | case1 => exact h
  | case2 frontier w hne w₁ hlevel ih =>
    have hstart : p.Live readable mem { w with next := [] } :=
      ⟨h.hits, fun f hf => absurd hf List.not_mem_nil⟩
    have hdrained := hstart.level hmem hfrontier
    rw [hlevel] at hdrained
    exact ih hdrained hdrained.next
  | case3 frontier w hne stopped =>
    have hstart : p.Live readable mem { w with next := [] } :=
      ⟨h.hits, fun f hf => absurd hf List.not_mem_nil⟩
    exact hstart.level hmem hfrontier

end SpiderPass

section Integers

/-- The types whose values are integers. -/
def ScanValueType.isInteger (ty : ScanValueType) : Bool := ty.fixedWidth.isSome && !ty.isFloat

/-- An integer needle is as wide as its type. -/
theorem Needle.fixedWidth_eq (n : Needle) (h : n.ty.isInteger = true) :
    n.ty.fixedWidth = some n.stride := by
  obtain ⟨hwidth, -⟩ := Bool.and_eq_true_iff.mp h
  obtain ⟨w, hw⟩ := Option.isSome_iff_exists.mp hwidth
  rw [n.stride_of_fixedWidth hw, hw]

/-- An integer is unchanged against itself. -/
theorem compareChange_unchanged {ty : ScanValueType} (h : ty.isInteger = true)
    {bytes : List UInt8} (hlen : ty.fixedWidth = some bytes.length) :
    ty.compareChange .unchanged bytes bytes = true := by
  obtain ⟨-, hfloat⟩ := Bool.and_eq_true_iff.mp h
  have hslice := slice_zero_length bytes
  rw [ScanValueType.compareChange, hlen]
  dsimp only
  rw [if_neg (by omega), if_neg (by simpa using hfloat), readInt, hslice]
  simp [compareInt]

theorem compareInt_absolute {compare : ScanCompareType} (h : compare.needsPrevious = false)
    (cur needle : ℤ) (upper prev : Option ℤ) :
    compareInt compare cur needle upper prev = compareInt compare cur needle upper none := by
  cases compare <;> first | rfl | cases h

theorem compareFloat_absolute {compare : ScanCompareType} (h : compare.needsPrevious = false)
    (cur needle : Float) (upper prev : Option Float) (tol : Float) :
    compareFloat compare cur needle upper prev tol =
      compareFloat compare cur needle upper none tol := by
  cases compare <;> first | rfl | cases h

/-- An absolute comparison does not look at the previous value. -/
theorem Needle.compareNext_eq (n : Needle) {compare : ScanCompareType}
    (h : compare.needsPrevious = false) (data previous : List UInt8) (offset : ℕ) :
    n.compareNext data offset compare previous = n.compareFirst data offset compare := by
  obtain ⟨ty, value, tolerance, fits⟩ := n
  cases value with
  | I needle width upper =>
    simp only [Needle.compareNext, Needle.compareFirst, Needle.compare, compareInt_absolute h]
  | F needle width upper =>
    simp only [Needle.compareNext, Needle.compareFirst, Needle.compare, compareFloat_absolute h]
  | Bytes pattern => rfl
  | Str needle => rfl

end Integers

theorem SpiderConfig.clamped_pointerSize_pos (cfg : SpiderConfig) : 0 < cfg.clamped.pointerSize :=
  Nat.lt_min.mpr ⟨Nat.lt_of_lt_of_le one_pos (Nat.le_max_right _ _), by decide⟩

section Refine
variable {σ : Type} {target : ScanTarget σ} {readable : ℕ → Prop} {mem : ℕ → UInt8}

/-- Walking the path of a live hit gives the address of its bytes. -/
theorem SpiderPass.LiveHit.resolve {p : SpiderPass σ} (hmem : StaticMemory target readable mem)
    (hsize : 0 < p.cfg.pointerSize) (hstride : 0 < p.needle.stride) {hit : SpiderHit} {addr : ℕ}
    (h : p.LiveHit readable mem hit addr) (world : σ) : ∃ world' buf world'',
      hit.path.resolve (readPtr target p.cfg.pointerSize) world =
        (some (addr + hit.path.offset), world') ∧
      target.read world' (addr + hit.path.offset) p.needle.stride = (.ok buf, world'') ∧
        buf.val = hit.current := by
  obtain ⟨world', hhops⟩ := hops_of_leads hmem hsize h.leads world
  obtain ⟨buf, world'', hread, hbytes⟩ := hmem.fills world' _ _ h.reads
  have hat : checkedAdd addr hit.path.offset = some (addr + hit.path.offset) :=
    checkedAdd_of_le (hmem.addresses _ (h.reads 0 hstride))
  refine ⟨world', buf, world'', ?_, hread, hbytes.trans h.current_eq.symm⟩
  rw [SpiderPath.resolve, h.root_eq, hhops]
  dsimp only
  rw [hat]

/-- A live hit is kept exactly if its own bytes satisfy the comparison. -/
theorem SpiderPass.LiveHit.verdict {p : SpiderPass σ} (q : SpiderRefine σ)
    (hmem : StaticMemory q.target readable mem) (hsize : 0 < p.cfg.pointerSize)
    (hstride : 0 < p.needle.stride) (hpointer : q.pointerSize = p.cfg.pointerSize)
    (hwidth : q.stride = p.needle.stride) {hit : SpiderHit} {addr : ℕ}
    (h : p.LiveHit readable mem hit addr) (world : σ) : (q.verdict hit world).1 =
      if keep q.valueType q.compare q.needle hit.current hit.current then some hit.current
      else none := by
  obtain ⟨target, observer, pointerSize, valueType, compare, needle, stride, total⟩ := q
  dsimp only at hmem hpointer hwidth ⊢
  subst hpointer hwidth
  obtain ⟨world', buf, world'', hresolve, hread, hbytes⟩ := h.resolve hmem hsize hstride world
  have hlen : ¬ buf.val.length < p.needle.stride := by
    rw [hbytes, h.current_eq, memBytes_length]
    omega
  rw [SpiderRefine.verdict]
  dsimp only
  rw [hresolve]
  dsimp only
  rw [hread]
  dsimp only
  rw [if_neg hlen, hbytes]

/-- Refining live hits that satisfy the comparison keeps them as they are. -/
theorem spiderRefineWith_keeps (hmem : StaticMemory target readable mem) {p : SpiderPass σ}
    {cfg : SpiderConfig} (hcfg : p.cfg.pointerSize = cfg.clamped.pointerSize)
    (hstride : 0 < p.needle.stride) {hits : List SpiderHit}
    (hlive : ∀ hit ∈ hits, ∃ addr, p.LiveHit readable mem hit addr) {valueType : ScanValueType}
    {compare : ScanCompareType} {needle : Option Needle}
    (hcheck : checkRefine valueType compare needle = .ok p.needle.stride)
    (hkeep : ∀ hit ∈ hits, keep valueType compare needle hit.current hit.current = true)
    {observer : ScanObserver σ} (hobserver : observer.NeverStops) (world : σ) :
    ∃ world', spiderRefineWith target hits cfg valueType compare needle observer world =
      (.ok (), hits, world') := by
  have hsize : 0 < p.cfg.pointerSize := by
    rw [hcfg]
    exact cfg.clamped_pointerSize_pos
  let q : SpiderRefine σ := ⟨target, observer, cfg.clamped.pointerSize, valueType, compare, needle,
    p.needle.stride, hits.length⟩
  have hverdicts := q.verdicts_eq hobserver (fun hit hhit world => by
    obtain ⟨addr, haddr⟩ := hlive hit hhit
    exact haddr.verdict q hmem hsize hstride hcfg.symm rfl world) 0 0 world
  have hsame : ∀ hit ∈ hits, hit.previous = hit.current := fun hit hhit => by
    obtain ⟨addr, haddr⟩ := hlive hit hhit
    exact haddr.previous_eq
  have hall : hits.filter (fun hit => keep valueType compare needle hit.current hit.current) =
      hits := List.filter_eq_self.mpr hkeep
  have hretain := (retain_map hits _ hsame).trans hall
  rw [spiderRefineWith, hcheck]
  dsimp only
  split
  · rename_i world' hpass
    rw [show q.verdicts 0 0 hits world = _ from hpass] at hverdicts
    cases hverdicts
  · rename_i verdicts world' hpass
    rw [show q.verdicts 0 0 hits world = _ from hpass] at hverdicts
    obtain rfl := Option.some.inj hverdicts
    exact ⟨world', by rw [hretain]⟩

end Refine

section SpiderScan
variable {σ : Type} {target : ScanTarget σ} {readable : ℕ → Prop} {mem : ℕ → UInt8}

/-- The hits of a search that returns are live. -/
theorem spiderScanWith_live (hmem : StaticMemory target readable mem) {root : ℕ}
    {cfg : SpiderConfig} {valueType : ScanValueType} {compare : ScanCompareType} {needle : Needle}
    {observer : ScanObserver σ} {world : σ} {r : SpiderScanResult}
    (h : (spiderScanWith target root cfg valueType compare (some needle) observer world).1 = .ok r) :
    (checkSpider valueType compare (some needle) = .ok needle) ∧ ∃ regions, ∀ hit ∈ r.hits, ∃ addr,
      (spiderPass target observer root cfg.clamped compare needle regions).LiveHit readable mem hit
        addr := by
  unfold spiderScanWith at h
  dsimp only at h
  cases hcheck : checkSpider valueType compare (some needle) with
  | error e =>
    rw [hcheck] at h
    cases h
  | ok n =>
    obtain ⟨rfl, -⟩ := checkSpider_eq_ok hcheck
    rw [hcheck] at h
    dsimp only at h
    split at h
    · cases h
    · rename_i regions world₁ hregions
      split at h
      · cases h
      · rename_i len hlen
        let p := spiderPass target observer root cfg.clamped compare n regions
        have hroot : ∀ frame ∈ [(⟨root, 0, []⟩ : Frame)], p.LiveFrame readable mem frame := by
          intro frame hframe
          rw [List.mem_singleton] at hframe
          subst hframe
          exact ⟨.root, rfl, Nat.zero_le _⟩
        have hstart : p.Live readable mem
            { world := world₁, win := List.replicate len 0, visited := {root} } :=
          ⟨fun hit hhit => absurd hhit List.not_mem_nil, fun f hf => absurd hf List.not_mem_nil⟩
        have hlive := hstart.search hmem hroot
        refine ⟨rfl, regions, ?_⟩
        split at h
        · cases h
        · cases h
        · rename_i walked hsearch
          cases h
          rw [show p.search _ _ = _ from hsearch] at hlive
          exact hlive.hits

/-- Over a memory that does not change, every hit of an integer is found again at the end of its
path with the bytes it has, no path is longer than the depth limit, and refining the hits with
`unchanged`, or with the needle and the comparison they were found by, keeps them all in order. -/
theorem spiderScan_live_paths (hmem : StaticMemory target readable mem) {root : ℕ}
    {cfg : SpiderConfig} {valueType : ScanValueType} {compare : ScanCompareType} {needle : Needle}
    (hint : needle.ty.isInteger = true) {observer : ScanObserver σ} {world : σ}
    {r : SpiderScanResult}
    (h : (spiderScanWith target root cfg valueType compare (some needle) observer world).1 = .ok r) :
    (∀ hit ∈ r.hits, hit.current = hit.previous ∧ hit.path.depth ≤ cfg.clamped.maxDepth ∧
      ∀ world, ∃ a world' buf world'',
        hit.path.resolve (readPtr target cfg.clamped.pointerSize) world = (some a, world') ∧
        target.read world' a needle.stride = (.ok buf, world'') ∧ buf.val = hit.current) ∧
    ∀ (refiner : ScanObserver σ) (world' : σ), refiner.NeverStops →
      (∃ world'', spiderRefineWith target r.hits cfg valueType .unchanged none refiner world' =
        (.ok (), r.hits, world'')) ∧
      ∃ world'', spiderRefineWith target r.hits cfg valueType compare (some needle) refiner world' =
        (.ok (), r.hits, world'') := by
  obtain ⟨hcheck, regions, hlive⟩ := spiderScanWith_live hmem h
  obtain ⟨-, htype, hstride, hbaseline, hprevious⟩ := checkSpider_eq_ok hcheck
  have hsize := cfg.clamped_pointerSize_pos
  have hwidth := needle.fixedWidth_eq hint
  refine ⟨fun hit hhit => ?_, fun refiner world' hrefiner => ⟨?_, ?_⟩⟩
  · obtain ⟨addr, haddr⟩ := hlive hit hhit
    refine ⟨haddr.previous_eq.symm, haddr.depth_le, fun world => ?_⟩
    obtain ⟨world', buf, world'', hresolve⟩ := haddr.resolve hmem hsize hstride world
    exact ⟨_, world', buf, world'', hresolve⟩
  · refine spiderRefineWith_keeps hmem rfl hstride hlive ?_ (fun hit hhit => ?_) hrefiner world'
    · subst htype
      simp [checkRefine, ScanCompareType.isBaseline, ScanCompareType.needsNeedle, Needle.valueType,
        hwidth, hstride.ne', spiderPass]
    · obtain ⟨addr, haddr⟩ := hlive hit hhit
      subst htype
      refine compareChange_unchanged hint ?_
      rw [haddr.current_eq, memBytes_length]
      exact hwidth
  · refine spiderRefineWith_keeps hmem rfl hstride hlive ?_ (fun hit hhit => ?_) hrefiner world'
    · simp [checkRefine, hbaseline, htype, hstride.ne', spiderPass]
    · obtain ⟨addr, haddr⟩ := hlive hit hhit
      exact (needle.compareNext_eq hprevious _ _ _).trans haddr.matches_

/-- The value of the second struct, at the end of its path. -/
theorem spiderScan_live_twoStructs :
    let target := pagedTarget [⟨0x1000, 0x1000⟩] twoStructs
    let cfg : SpiderConfig := { structSize := 16 }
    let needle : Needle := ⟨.u8, .I 7 1 none, defaultFloatTolerance, ⟨rfl, rfl⟩⟩
    ∃ r, (spiderScanWith target 0x1000 cfg .u8 .exact (some needle) (noObserver Unit) ()).1 = .ok r ∧
      r.hits = [⟨⟨0x1000, [0], 8⟩, [7], [7]⟩] ∧
      ∃ world, spiderRefineWith target r.hits cfg .u8 .unchanged none (noObserver Unit) () =
        (.ok (), r.hits, world) := by
  intro target cfg needle
  have hscan : (spiderScanWith target 0x1000 cfg .u8 .exact (some needle) (noObserver Unit) ()).1 =
      .ok ⟨[⟨⟨0x1000, [0], 8⟩, [7], [7]⟩], false, 2, [⟨0x1000, 0, []⟩, ⟨0x1020, 1, [0]⟩]⟩ := by
    decide +kernel
  have hmem : StaticMemory target (Mapped [⟨0x1000, 0x1000⟩]) twoStructs :=
    (pagedTarget_memory (by decide) twoStructs).static
  have hlive := spiderScan_live_paths hmem rfl hscan
  exact ⟨_, hscan, rfl, (hlive.2 (noObserver Unit) () (noObserver_neverStops Unit)).1⟩

end SpiderScan

end Nemclass.Scan
