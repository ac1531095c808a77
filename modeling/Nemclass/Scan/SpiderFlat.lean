import Nemclass.Scan.SpiderPaths

/-! A spider search that follows no pointer. It examines its root alone, through one window, and
finds the slots that match and that came back: with the first read of the window, or page by page
when that read brings nothing back. -/
namespace Nemclass.Scan
open Usize Multiples

section ReadWindow
variable {σ : Type} {target : ScanTarget σ} {regions : List Region} {mem : ℕ → UInt8}

theorem PagedReads.mapped_of_transferred (hmem : PagedReads target regions mem) (world : σ)
    (addr len : ℕ) : ∀ i < transferred target world addr len, Mapped regions (addr + i) := by
  intro i hi
  unfold transferred at hi
  split at hi
  · rename_i buf hread
    exact (hmem.transfers world addr len buf _ (Prod.ext hread rfl)).2 i hi
  · exact absurd hi (Nat.not_lt_zero i)

/-- The `n` bytes at `a` come back from a window at `root`, `first` bytes of which the first read
brings: they are among these, or they are mapped when there are none. -/
def Seen (regions : List Region) (root first a n : ℕ) : Prop :=
  if first = 0 then ∀ i < n, Mapped regions (a + i) else a + n ≤ root + first

theorem pages_has (hmem : PagedReads target regions mem) {addr : ℕ} {win win' : List UInt8}
    (hmax : win.length ≤ usizeMax) {world world' : σ} {spans : List (ℕ × ℕ)} {off need : ℕ}
    (hpos : 0 < need)
    (h : pageWalk target addr win.length 0 [] win world = (some (spans, win'), world')) :
    ((Cover.sparse spans).has off need = true ↔
      off + need ≤ win.length ∧ Seen regions addr 0 (addr + off) need) ∧
      ((Cover.sparse spans).has off need = true → off < (Cover.sparse spans).limit) := by
  have hwin := pages_window hmem hmax h
  refine ⟨?_, hwin.has_lt off need hpos⟩
  rw [hwin.has_iff off need hpos, Seen, if_pos rfl]
  refine and_congr_right fun _ => ⟨fun h i hi => ?_, fun h i hlo hhi => ?_⟩
  · rw [Nat.add_assoc]
    exact h (off + i) (by omega) (by omega)
  · have hi := h (i - off) (by omega)
    rwa [show addr + off + (i - off) = addr + i by omega] at hi

theorem full_has {addr n len off need : ℕ} (hn : n ≠ 0) (hle : n ≤ len) (hmax : len ≤ usizeMax)
    (hpos : 0 < need) : ((Cover.full n).has off need = true ↔
      off + need ≤ len ∧ Seen regions addr n (addr + off) need) ∧
      ((Cover.full n).has off need = true → off < (Cover.full n).limit) := by
  rw [full_has_iff (hle.trans hmax), Seen, if_neg hn]
  refine ⟨by omega, fun h => ?_⟩
  show off < n
  omega

/-- The cover of a window has the slots that were seen. -/
theorem readWindow_has (hmem : PagedReads target regions mem) {addr : ℕ} {win win' : List UInt8}
    (hmax : win.length ≤ usizeMax) {world world' : σ} {cover : Cover}
    (h : readWindow target addr win world = (some (cover, win'), world')) {off need : ℕ}
    (hpos : 0 < need) : (cover.has off need = true ↔ off + need ≤ win.length ∧
      Seen regions addr (transferred target world addr win.length) (addr + off) need) ∧
      (cover.has off need = true → off < cover.limit) := by
  rcases readWindow_cases h with
    ⟨buf, world₁, hread, hsome, rfl, rfl⟩ | ⟨hn, spans, rfl, hwalk⟩
  · have hn : transferred target world addr win.length = buf.val.length := by
      rw [transferred, hread]
    rw [hn]
    by_cases hzero : buf.val.length = 0
    · -- nothing is read from a window without bytes
      have hshort : ¬ off + need ≤ win.length := by omega
      have hnone : ¬ off + need ≤ buf.val.length := by omega
      rw [full_has_iff (buf.property.trans hmax)]
      exact ⟨iff_of_false hnone fun h => hshort h.1, fun h => absurd h hnone⟩
    · exact full_has hzero buf.property hmax hpos
  · rw [hn]
    exact pages_has hmem hmax hpos hwalk

end ReadWindow

namespace SpiderPass
variable {σ : Type} (p : SpiderPass σ)

/-- A walk of a window ends with a full result, or it goes on with all hits and nothing queued. -/
def Collected (frame : Frame) (cover : Cover) (offs : List ℕ) (w : SpiderWalk σ)
    (r : SpiderExit × SpiderWalk σ) : Prop :=
  r.1 = .full ∧ p.cfg.maxResults ≤ r.2.hits.length ∨
    r.1 = .go ∧ r.2.next = w.next ∧ r.2.hits = w.hits ++ p.windowHits frame cover w.win offs

variable {p} {frame : Frame} {cover : Cover} {off : ℕ} {w w' : SpiderWalk σ}

theorem windowHits_append (win : List UInt8) (offs offs' : List ℕ) :
    p.windowHits frame cover win (offs ++ offs') =
      p.windowHits frame cover win offs ++ p.windowHits frame cover win offs' := by
  rw [windowHits, List.filter_append, List.map_append, ← windowHits, ← windowHits]

/-- At the depth limit no pointer is looked at. -/
theorem pointerBranch_flat (hdepth : ¬ frame.depth < p.cfg.maxDepth) :
    p.pointerBranch frame cover off w = some w := if_neg hdepth

/-- Offsets that the cover does not have give no hits. -/
theorem windowHits_eq_nil {win : List UInt8} {offs : List ℕ}
    (h : ∀ o ∈ offs, cover.has o p.needle.stride = false) :
    p.windowHits frame cover win offs = [] := by
  rw [windowHits, List.map_eq_nil_iff, List.filter_eq_nil_iff]
  intro o ho
  rw [slotHit, h o ho, Bool.false_and]
  exact Bool.false_ne_true

theorem slots_collected (hdepth : ¬ frame.depth < p.cfg.maxDepth) {windowEnd : ℕ}
    (hroom : windowEnd + p.align ≤ usizeMax)
    (hlimit : ∀ o < windowEnd, cover.has o p.needle.stride = true → o < cover.limit)
    (halign : p.align ∣ frame.addr + off) :
    p.Collected frame cover
      ((multiples p.align (frame.addr + off) (frame.addr + windowEnd)).map (· - frame.addr)) w
      (p.slots frame cover windowEnd off w) := by
  fun_induction p.slots frame cover windowEnd off w with
  | case1 off w hlt w₁ hvalue => exact .inl ⟨rfl, (p.valueBranch_spec hvalue).2 rfl⟩
  | case2 off w hlt w₁ hvalue hpointer =>
    rw [pointerBranch_flat hdepth] at hpointer
    cases hpointer
  | case3 off w hlt w₁ hvalue w₂ hpointer hnext =>
    rw [checkedAdd_of_le (by omega)] at hnext
    cases hnext
  | case4 off w hlt w₁ hvalue w₂ hpointer next hnext ih =>
    rw [pointerBranch_flat hdepth] at hpointer
    obtain rfl := Option.some.inj hpointer
    obtain rfl := (checkedAdd_eq_some.mp hnext).1
    obtain rfl := (p.valueBranch_spec hvalue).1
    rcases ih (p.dvd_next_offset halign) with hfull | ⟨hgo, hnext', hhits⟩
    · exact .inl hfull
    · refine .inr ⟨hgo, hnext', ?_⟩
      rw [hhits, p.offsets_cons halign hlt.1, windowHits_append, List.append_assoc]
  | case5 off w hend =>
    refine .inr ⟨rfl, rfl, ?_⟩
    rw [windowHits_eq_nil fun o ho => ?_, List.append_nil]
    obtain ⟨a, ha, rfl⟩ := List.mem_map.mp ho
    have ha := mem_multiples.mp ha
    by_contra hhas
    have hlt := hlimit (a - frame.addr) (by omega) (by simpa using hhas)
    omega

theorem walkWindow_collected (hdepth : ¬ frame.depth < p.cfg.maxDepth)
    (hroom : frame.addr + p.cfg.structSize + 2 * p.align ≤ usizeMax)
    (hlimit : ∀ o < p.cfg.structSize + p.align,
      cover.has o p.needle.stride = true → o < cover.limit) :
    p.Collected frame cover (p.slotOffsets frame.addr) w (p.walkWindow frame cover w) := by
  have hfirst := le_nextMultipleOf frame.addr p.align
  have hnear := nextMultipleOf_lt frame.addr p.align_pos
  unfold walkWindow
  by_cases hzero : cover.limit = 0
  · rw [if_pos hzero]
    refine .inr ⟨rfl, rfl, ?_⟩
    rw [windowHits_eq_nil fun o ho => ?_, List.append_nil]
    have ho := p.mem_slotOffsets.mp ho
    by_contra hhas
    have hlt := hlimit o (by omega) (by simpa using hhas)
    omega
  · rw [if_neg hzero, checkedNextMultipleOf, checked_of_le (by omega)]
    dsimp only
    rw [checkedAdd_of_le (by omega)]
    have hstart : frame.addr + (nextMultipleOf frame.addr p.align - frame.addr) =
        nextMultipleOf frame.addr p.align := by omega
    have hend : nextMultipleOf frame.addr p.align - frame.addr + p.cfg.structSize + p.align ≤
        usizeMax := by omega
    have hslots := slots_collected (p := p) (w := w) hdepth hend
      (fun o ho => hlimit o (by omega)) (by rw [hstart]; exact dvd_nextMultipleOf _ p.align_pos)
    rw [← Nat.add_assoc, hstart] at hslots
    exact hslots

/-- The first struct is examined without a report of progress. -/
theorem examine_first (hnodes : 0 < p.cfg.maxNodes) (hvisited : w.nodesVisited = 0)
    {win : List UInt8} {world : σ}
    (hread : readWindow p.target frame.addr w.win w.world = (some (cover, win), world)) :
    p.examine 0 frame { w with next := [] } = p.walkWindow frame cover
      { w with next := [], nodesVisited := 1, examined := w.examined ++ [frame], world, win } := by
  have hcount : ¬ 1 % nodeInterval = 0 := by decide
  have htick : p.tick 0 { w with
      next := [], nodesVisited := 1, examined := w.examined ++ [frame] } = (true, { w with
      next := [], nodesVisited := 1, examined := w.examined ++ [frame] }) := if_neg hcount
  unfold examine
  rw [if_neg (by dsimp only; omega)]
  dsimp only
  rw [hvisited, htick]
  dsimp only
  rw [hread]

theorem search_of_full (h : p.level [frame] { w with next := [] } = (.full, w')) :
    p.search [frame] w = (.full, w') := by
  rw [search, dif_neg (List.cons_ne_nil _ _)]
  split
  · rename_i w₁ hgo
    rw [h] at hgo
    cases hgo
  · exact h

/-- A level that queues nothing is the last one. -/
theorem search_of_go (h : p.level [frame] { w with next := [] } = (.go, w'))
    (hnext : w'.next = []) : p.search [frame] w = (.go, w') := by
  rw [search, dif_neg (List.cons_ne_nil _ _)]
  split
  · rename_i w₁ hgo
    rw [h, Prod.mk.injEq] at hgo
    obtain ⟨-, rfl⟩ := hgo
    rw [hnext, search, dif_pos rfl]
  · rename_i hstopped
    exact absurd h (hstopped w')

/-- A search that follows no pointer examines its root and nothing else. -/
theorem search_collected (hdepth : p.cfg.maxDepth = 0) (hnodes : 0 < p.cfg.maxNodes)
    (hvisited : w.nodesVisited = 0)
    (hlen : w.win.length = p.cfg.structSize + p.cfg.pointerSize + p.align)
    (hroom : p.root + w.win.length + p.align + page ≤ usizeMax)
    (hlimit : ∀ cover win world,
      readWindow p.target p.root w.win w.world = (some (cover, win), world) →
      ∀ o < p.cfg.structSize + p.align, cover.has o p.needle.stride = true → o < cover.limit) :
    ∃ cover win world,
      readWindow p.target p.root w.win w.world = (some (cover, win), world) ∧
      ((p.search [⟨p.root, 0, []⟩] w).1 = .full ∧
          p.cfg.maxResults ≤ (p.search [⟨p.root, 0, []⟩] w).2.hits.length ∨
        (p.search [⟨p.root, 0, []⟩] w).1 = .go ∧ (p.search [⟨p.root, 0, []⟩] w).2.hits =
          w.hits ++ p.windowHits ⟨p.root, 0, []⟩ cover win (p.slotOffsets p.root)) := by
  obtain ⟨cover, win, world, hread⟩ := readWindow_some (show p.root + w.win.length + page ≤ usizeMax
    by omega) w.world
  refine ⟨cover, win, world, hread, ?_⟩
  let frame : Frame := ⟨p.root, 0, []⟩
  let w₀ : SpiderWalk σ :=
    { w with next := [], nodesVisited := 1, examined := w.examined ++ [frame], world, win }
  have hexamine : p.examine 0 frame { w with next := [] } = p.walkWindow frame cover w₀ :=
    examine_first hnodes hvisited hread
  have hcollected : p.Collected frame cover (p.slotOffsets p.root) w₀
      (p.walkWindow frame cover w₀) :=
    walkWindow_collected (by rw [hdepth]; exact Nat.lt_irrefl 0) (by dsimp only [frame]; omega)
      (hlimit cover win world hread)
  generalize hwalk : p.walkWindow frame cover w₀ = walked at hexamine hcollected
  obtain ⟨exit, w'⟩ := walked
  rcases hcollected with ⟨hfull, hhits⟩ | ⟨hgo, hnext, hhits⟩
  · dsimp only at hfull hhits
    subst hfull
    have hlevel : p.level [frame] { w with next := [] } = (.full, w') := by
      rw [level, List.length_nil, hexamine]
    rw [search_of_full hlevel]
    exact .inl ⟨rfl, hhits⟩
  · dsimp only at hgo hnext hhits
    subst hgo
    have hlevel : p.level [frame] { w with next := [] } = (.go, w') := by
      rw [level, List.length_nil, hexamine]
      rfl
    rw [search_of_go hlevel hnext]
    exact .inr ⟨rfl, hhits⟩

theorem mem_windowHits {win : List UInt8} {offs : List ℕ} {o : ℕ} :
    o ∈ (p.windowHits frame cover win offs).map (·.path.offset) ↔
      o ∈ offs ∧ p.slotHit cover win o = true := by
  rw [windowHits, List.map_map, List.mem_map, ← List.mem_filter]
  constructor
  · rintro ⟨o, ho, rfl⟩
    exact ho
  · exact fun ho => ⟨o, ho, rfl⟩

/-- The slots that are hits are those that were seen and match in memory. -/
theorem slotHit_iff {regions : List Region} {mem : ℕ → UInt8}
    (hmem : PagedReads p.target regions mem) (hpos : 0 < p.needle.stride) {addr : ℕ}
    {win win' : List UInt8} (hmax : win.length ≤ usizeMax) {world world' : σ}
    (hread : readWindow p.target addr win world = (some (cover, win'), world')) (o : ℕ) :
    p.slotHit cover win' o = true ↔ o + p.needle.stride ≤ win.length ∧
      Seen regions addr (transferred p.target world addr win.length) (addr + o) p.needle.stride ∧
      p.needle.compareFirst (memBytes mem (addr + o) p.needle.stride) 0 p.compare = true := by
  have hhas : cover.has o p.needle.stride = true ↔ o + p.needle.stride ≤ win.length ∧ Seen regions
      addr (transferred p.target world addr win.length) (addr + o) p.needle.stride :=
    (readWindow_has hmem hmax hread hpos).1
  have hmatch (h : cover.has o p.needle.stride = true) : p.needle.compareFirst win' o p.compare =
      p.needle.compareFirst (memBytes mem (addr + o) p.needle.stride) 0 p.compare := by
    have hheld := readWindow_covers hmem.static.short hread o _ h
    rw [← hheld.bytes]
    exact p.needle.compare_window hheld.le_length p.compare none
  rw [slotHit, Bool.and_eq_true]
  constructor
  · rintro ⟨h, hfound⟩
    obtain ⟨hle, hseen⟩ := hhas.mp h
    exact ⟨hle, hseen, (hmatch h).symm.trans hfound⟩
  · rintro ⟨hle, hseen, hfound⟩
    have h := hhas.mpr ⟨hle, hseen⟩
    exact ⟨h, (hmatch h).trans hfound⟩

end SpiderPass

section SpiderScan
variable {σ : Type} {target : ScanTarget σ} {regions : List Region} {mem : ℕ → UInt8}

/-- A search that is neither stopped nor leaves the address space returns what it has found. -/
theorem spiderScan_of_search {root len : ℕ} {cfg : SpiderConfig} {valueType : ScanValueType}
    {compare : ScanCompareType} {needle : Needle}
    (hcheck : checkSpider valueType compare (some needle) = .ok needle) {world world₁ : σ}
    (hregions : target.regions world = (.ok regions, world₁))
    (hwindow : windowLen cfg.clamped needle = some len) {exit : SpiderExit} {w : SpiderWalk σ}
    (hwalk : (spiderPass target (noObserver σ) root cfg.clamped compare needle regions).search
      [⟨root, 0, []⟩] { world := world₁, win := List.replicate len 0, visited := {root} } =
        (exit, w))
    (hexit : exit = .full ∨ exit = .go) :
    spiderScan target root cfg valueType compare (some needle) world =
      (.ok ⟨w.hits, w.truncated, w.nodesVisited, w.examined⟩, w.world) := by
  simp only [spiderScan, spiderScanWith, hcheck, hregions, hwindow]
  rw [hwalk]
  rcases hexit with rfl | rfl
  · rfl
  · rfl

/-- What a search without hops finds: the slots of the root that were seen and match. -/
theorem spiderScan_flat (hmem : PagedReads target regions mem) {root : ℕ} {cfg : SpiderConfig}
    (hdepth : cfg.maxDepth = 0) {valueType : ScanValueType} {compare : ScanCompareType}
    {needle : Needle} (hcheck : checkSpider valueType compare (some needle) = .ok needle)
    {world world₁ : σ} (hregions : target.regions world = (.ok regions, world₁))
    (hroom : root + cfg.clamped.structSize + cfg.clamped.pointerSize +
      2 * spiderAlign cfg.clamped needle + page ≤ usizeMax) :
    let len := cfg.clamped.structSize + cfg.clamped.pointerSize + spiderAlign cfg.clamped needle
    ∃ r world', spiderScan target root cfg valueType compare (some needle) world = (.ok r, world') ∧
      (∀ hit ∈ r.hits, hit.path.root = root ∧ hit.path.parentOffsets = []) ∧
      (r.hits.length < cfg.clamped.maxResults → ∀ o, o ∈ r.hits.map (·.path.offset) ↔
        o ∈ (spiderPass target (noObserver σ) root cfg.clamped compare needle
          regions).slotOffsets root ∧
        o + needle.stride ≤ len ∧
        Seen regions root (transferred target world₁ root len) (root + o) needle.stride ∧
        needle.compareFirst (memBytes mem (root + o) needle.stride) 0 compare = true) := by
  intro len
  have hpos := stride_pos_of_checkSpider hcheck
  let p := spiderPass target (noObserver σ) root cfg.clamped compare needle regions
  let w : SpiderWalk σ := { world := world₁, win := List.replicate len 0, visited := {root} }
  have hwin : w.win.length = len := List.length_replicate
  have hwindow : windowLen cfg.clamped needle = some len := by
    rw [windowLen, Option.bind_eq_bind, checkedAdd_of_le (by omega), Option.bind_some]
    exact checkedAdd_of_le (by omega)
  have hmax : w.win.length ≤ usizeMax := by omega
  have hdepth' : p.cfg.maxDepth = 0 := by
    show min cfg.maxDepth _ = 0
    rw [hdepth, Nat.zero_min]
  have hsettled : p.root + w.win.length + p.align + page ≤ usizeMax := by
    show root + w.win.length + spiderAlign cfg.clamped needle + page ≤ usizeMax
    omega
  obtain ⟨cover, win, world₂, hread, hsearch⟩ := p.search_collected (w := w) hdepth'
    (Nat.lt_of_lt_of_le one_pos (Nat.le_max_right _ _)) rfl hwin hsettled
    (fun cover win world hread o _ => (readWindow_has hmem hmax hread hpos).2)
  generalize hwalk : p.search [⟨p.root, 0, []⟩] w = walked at hsearch
  obtain ⟨exit, w'⟩ := walked
  have hexit : exit = .full ∨ exit = .go := hsearch.imp And.left And.left
  have hscan := spiderScan_of_search hcheck hregions hwindow hwalk hexit
  refine ⟨_, _, hscan, fun hit hhit => ?_, fun hroom o => ?_⟩
  · have hok : (spiderScanWith target root cfg valueType compare (some needle) (noObserver σ)
        world).1 = .ok ⟨w'.hits, w'.truncated, w'.nodesVisited, w'.examined⟩ :=
      congrArg Prod.fst hscan
    obtain ⟨-, _, hlive⟩ := spiderScanWith_live hmem.static hok
    obtain ⟨addr, haddr⟩ := hlive hit hhit
    have hshort : hit.path.parentOffsets.length ≤ p.cfg.maxDepth := haddr.depth_le
    exact ⟨haddr.root_eq, List.length_eq_zero_iff.mp (by omega)⟩
  · rcases hsearch with ⟨-, hfull⟩ | ⟨-, hhits⟩
    · exact absurd hroom (Nat.not_lt.mpr hfull)
    · have hslot := SpiderPass.slotHit_iff (p := p) hmem hpos hmax hread o
      dsimp only at hhits ⊢
      rw [hhits, List.nil_append, SpiderPass.mem_windowHits, hslot, hwin]
      exact Iff.rfl

end SpiderScan

end Nemclass.Scan
