import Nemclass.Scan.SpiderFlat
import Nemclass.Scan.SpiderOverflow

/-! Which slots of its root a spider search compares. The window has room for a pointer at the last
slot, whatever the width of the needle: a wider one is not compared at the slots behind which the
window ends. -/
namespace Nemclass.Scan
open Usize Multiples

/-- All memory from an address on is readable: a read brings back all it asks for, up to the top of
the address space. -/
def ReadableFrom {σ : Type} (target : ScanTarget σ) (root : ℕ) (mem : ℕ → UInt8) : Prop :=
  ∀ world addr len, root ≤ addr → ∃ buf world', target.read world addr len = (.ok buf, world') ∧
    buf.val = memBytes mem addr (min len (usizeMax + 1 - addr))

/-- The slots of a struct: the offsets of its aligned addresses, from the first one on. -/
def structSlots (cfg : SpiderConfig) (needle : Needle) (root : ℕ) : List ℕ :=
  let first := nextMultipleOf root (spiderAlign cfg needle)
  (multiples (spiderAlign cfg needle) first (first + cfg.structSize)).map (· - root)

/-- The bytes at a slot match; there are as many as the needle is wide. -/
def SlotMatches (mem : ℕ → UInt8) (needle : Needle) (compare : ScanCompareType) (root o : ℕ) :
    Prop :=
  root + o + needle.stride ≤ usizeMax + 1 ∧
    needle.compareFirst (memBytes mem (root + o) needle.stride) 0 compare = true

instance (mem : ℕ → UInt8) (needle : Needle) (compare : ScanCompareType) (root o : ℕ) :
    Decidable (SlotMatches mem needle compare root o) := by
  unfold SlotMatches
  infer_instance

theorem structSlots_nodup (cfg : SpiderConfig) (needle : Needle) (root : ℕ) :
    (structSlots cfg needle root).Nodup := by
  refine List.Nodup.map_on (fun a ha b hb h => ?_) ((multiples_sorted _ _ _).imp fun h => h.ne)
  have hfirst := le_nextMultipleOf root (spiderAlign cfg needle)
  have ha := mem_multiples.mp ha
  have hb := mem_multiples.mp hb
  omega

/-- All of a list is among its first elements exactly when there are no others. -/
theorem forall_mem_take_iff {α : Type} {xs : List α} (h : xs.Nodup) (n : ℕ) :
    (∀ x ∈ xs, x ∈ xs.take n) ↔ xs.length ≤ n := by
  constructor
  · intro hall
    have hle := (List.subperm_of_subset h hall).length_le
    rw [List.length_take] at hle
    omega
  · intro hle x hx
    rwa [List.take_of_length_le hle]

namespace SpiderPass
variable {σ : Type} {p : SpiderPass σ} {frame : Frame} {cover : Cover} {off : ℕ}
  {w w' : SpiderWalk σ}

/-- A result that is not full has room for another hit. -/
theorem valueBranch_room (h : p.valueBranch frame cover off w = (false, w'))
    (hroom : w.hits.length < p.cfg.maxResults) : w'.hits.length < p.cfg.maxResults := by
  unfold valueBranch at h
  split at h
  · dsimp only at h
    split at h
    · cases h
    · rename_i hfull
      cases h
      exact Nat.not_le.mp hfull
  · cases h
    exact hroom

variable (p) in
theorem windowHits_one_le (frame : Frame) (cover : Cover) (off : ℕ) (win : List UInt8) :
    (p.windowHits frame cover win [off]).length ≤ 1 := by
  rw [windowHits, List.length_map]
  exact List.length_filter_le _ _

theorem pointerBranch_hits (h : p.pointerBranch frame cover off w = some w') :
    w'.hits = w.hits := by
  rw [(pointerBranch_spec h).1]

/-- The slots of a window are compared in order until the result is full. -/
theorem slots_hits {windowEnd : ℕ} {exit : SpiderExit}
    (hlimit : ∀ o, cover.has o p.needle.stride = true → o < cover.limit)
    (halign : p.align ∣ frame.addr + off) (hroom : w.hits.length < p.cfg.maxResults)
    (h : p.slots frame cover windowEnd off w = (exit, w')) (hexit : exit ≠ .overflow) :
    w'.hits = w.hits ++ (p.windowHits frame cover w.win
      ((multiples p.align (frame.addr + off) (frame.addr + windowEnd)).map (· - frame.addr))).take
        (p.cfg.maxResults - w.hits.length) := by
  fun_induction p.slots frame cover windowEnd off w with
  | case1 off w hlt w₁ hvalue =>
    cases h
    obtain ⟨hw, hfull⟩ := p.valueBranch_spec hvalue
    have hhits : w'.hits = w.hits ++ p.windowHits frame cover w.win [off] := by rw [hw]
    have hfull := hfull rfl
    have hone := p.windowHits_one_le frame cover off w.win
    rw [hhits, List.length_append] at hfull
    rw [hhits, p.offsets_cons halign hlt.1, windowHits_append, List.take_append_of_le_length
      (by omega), List.take_of_length_le (by omega)]
  | case2 => exact absurd (Prod.mk.inj h).1.symm hexit
  | case3 => exact absurd (Prod.mk.inj h).1.symm hexit
  | case4 off w hlt w₁ hvalue w₂ hpointer next hnext ih =>
    obtain rfl := (checkedAdd_eq_some.mp hnext).1
    have hw := (p.valueBranch_spec hvalue).1
    have hhits : w₂.hits = w.hits ++ p.windowHits frame cover w.win [off] := by
      rw [pointerBranch_hits hpointer, hw]
    have hwin : w₂.win = w.win := by rw [pointerBranch_win hpointer, hw]
    have hroom₂ : w₂.hits.length < p.cfg.maxResults := by
      rw [pointerBranch_hits hpointer]
      exact valueBranch_room hvalue hroom
    have hone := p.windowHits_one_le frame cover off w.win
    have hlen := congrArg List.length hhits
    rw [List.length_append] at hlen
    rw [ih (p.dvd_next_offset halign) hroom₂ h, hhits, hwin, p.offsets_cons halign hlt.1,
      windowHits_append, List.take_append, List.take_of_length_le (l := p.windowHits _ _ _ [off])
      (by omega), List.append_assoc, List.length_append, Nat.sub_sub]
  | case5 off w hend =>
    cases h
    rw [windowHits_eq_nil fun o ho => ?_, List.take_nil, List.append_nil]
    obtain ⟨a, ha, rfl⟩ := List.mem_map.mp ho
    have ha := mem_multiples.mp ha
    by_contra hhas
    have hlt := hlimit (a - frame.addr) (by simpa using hhas)
    omega

theorem walkWindow_hits {exit : SpiderExit}
    (hlimit : ∀ o, cover.has o p.needle.stride = true → o < cover.limit)
    (hroom : w.hits.length < p.cfg.maxResults)
    (h : p.walkWindow frame cover w = (exit, w')) (hexit : exit ≠ .overflow) :
    w'.hits = w.hits ++ (p.windowHits frame cover w.win (p.slotOffsets frame.addr)).take
      (p.cfg.maxResults - w.hits.length) := by
  have hfirst := le_nextMultipleOf frame.addr p.align
  unfold walkWindow at h
  by_cases hzero : cover.limit = 0
  · rw [if_pos hzero] at h
    cases h
    rw [windowHits_eq_nil fun o _ => ?_, List.take_nil, List.append_nil]
    by_contra hhas
    have hlt := hlimit o (by simpa using hhas)
    omega
  · rw [if_neg hzero] at h
    split at h
    · exact absurd (Prod.mk.inj h).1.symm hexit
    · rename_i first hchecked
      obtain ⟨rfl, -⟩ := checked_eq_some.mp hchecked
      dsimp only at h
      split at h
      · exact absurd (Prod.mk.inj h).1.symm hexit
      · rename_i windowEnd hend
        obtain ⟨rfl, -⟩ := checkedAdd_eq_some.mp hend
        have hstart : frame.addr + (nextMultipleOf frame.addr p.align - frame.addr) =
            nextMultipleOf frame.addr p.align := by omega
        have hslots := slots_hits hlimit
          (by rw [hstart]; exact dvd_nextMultipleOf _ p.align_pos) hroom h hexit
        rw [← Nat.add_assoc, hstart] at hslots
        exact hslots

/-- What is found from one walk to another has been reached through a pointer. -/
def Deeper (w w' : SpiderWalk σ) : Prop :=
  ∃ found, w'.hits = w.hits ++ found ∧ ∀ hit ∈ found, hit.path.parentOffsets ≠ []

theorem Deeper.of_eq (h : w'.hits = w.hits) : Deeper w w' :=
  ⟨[], by rw [h, List.append_nil], fun hit hhit => absurd hhit List.not_mem_nil⟩

theorem Deeper.trans {w₁ w₂ w₃ : SpiderWalk σ} (h : Deeper w₁ w₂) (h' : Deeper w₂ w₃) :
    Deeper w₁ w₃ := by
  obtain ⟨found, heq, hpath⟩ := h
  obtain ⟨found', heq', hpath'⟩ := h'
  refine ⟨found ++ found', by rw [heq', heq, List.append_assoc], fun hit hhit => ?_⟩
  rcases List.mem_append.mp hhit with hhit | hhit
  · exact hpath hit hhit
  · exact hpath' hit hhit

theorem valueBranch_deeper (hpath : frame.path ≠ []) (cover : Cover) (off : ℕ)
    (w : SpiderWalk σ) : Deeper w (p.valueBranch frame cover off w).2 := by
  rw [p.valueBranch_snd]
  refine ⟨_, rfl, fun hit hhit => ?_⟩
  obtain ⟨o, -, rfl⟩ := List.mem_map.mp hhit
  exact hpath

theorem slots_deeper (hpath : frame.path ≠ []) (cover : Cover) (windowEnd off : ℕ)
    (w : SpiderWalk σ) : Deeper w (p.slots frame cover windowEnd off w).2 := by
  fun_induction p.slots frame cover windowEnd off w with
  | case1 off w hlt w₁ hvalue =>
    have hfound := valueBranch_deeper (p := p) hpath cover off w
    rwa [hvalue] at hfound
  | case2 off w hlt w₁ hvalue hpointer =>
    have hfound := valueBranch_deeper (p := p) hpath cover off w
    rwa [hvalue] at hfound
  | case3 off w hlt w₁ hvalue w₂ hpointer hnext =>
    have hfound := valueBranch_deeper (p := p) hpath cover off w
    rw [hvalue] at hfound
    exact hfound.trans (.of_eq (pointerBranch_hits hpointer))
  | case4 off w hlt w₁ hvalue w₂ hpointer next hnext ih =>
    have hfound := valueBranch_deeper (p := p) hpath cover off w
    rw [hvalue] at hfound
    exact (hfound.trans (.of_eq (pointerBranch_hits hpointer))).trans ih
  | case5 => exact .of_eq rfl

theorem walkWindow_deeper (hpath : frame.path ≠ []) (cover : Cover) (w : SpiderWalk σ) :
    Deeper w (p.walkWindow frame cover w).2 := by
  unfold walkWindow
  split
  · exact .of_eq rfl
  · split
    · exact .of_eq rfl
    · dsimp only
      split
      · exact .of_eq rfl
      · exact slots_deeper hpath cover _ _ w

theorem examine_deeper (hpath : frame.path ≠ []) (queued : ℕ) (w : SpiderWalk σ) :
    Deeper w (p.examine queued frame w).2 := by
  unfold examine
  split
  · exact .of_eq rfl
  · split
    · rename_i w₁ htick
      obtain ⟨world, rfl⟩ := tick_frame htick
      exact .of_eq rfl
    · rename_i w₁ htick
      obtain ⟨world, rfl⟩ := tick_frame htick
      split
      · exact .of_eq rfl
      · have hwalk := walkWindow_deeper (p := p) hpath
        exact (Deeper.of_eq rfl).trans (hwalk _ _)

theorem level_deeper {frontier : List Frame} (hpath : ∀ f ∈ frontier, f.path ≠ [])
    (w : SpiderWalk σ) : Deeper w (p.level frontier w).2 := by
  induction frontier generalizing w with
  | nil => exact .of_eq rfl
  | cons frame rest ih =>
    have hhere := examine_deeper (p := p) (hpath frame List.mem_cons_self) rest.length w
    unfold level
    split
    · rename_i w₁ hgo
      rw [hgo] at hhere
      exact hhere.trans (ih (fun f hf => hpath f (List.mem_cons_of_mem _ hf)) w₁)
    · exact hhere

theorem level_followed (frontier : List Frame) (h : p.level frontier w = (.go, w'))
    (hnext : ∀ f ∈ w.next, p.Followed f) : ∀ f ∈ w'.next, p.Followed f :=
  level_go (motive := fun _ w => (∀ f ∈ w.next, p.Followed f) → ∀ f ∈ w'.next, p.Followed f) id
    (fun hexamine ih hnext => ih (examine_followed hexamine hnext)) h hnext

theorem search_deeper (frontier : List Frame) (w : SpiderWalk σ)
    (hpath : ∀ f ∈ frontier, f.path ≠ []) : Deeper w (p.search frontier w).2 := by
  fun_induction p.search frontier w with
  | case1 => exact .of_eq rfl
  | case2 frontier w hne w₁ hlevel ih =>
    have hhere := level_deeper (p := p) hpath { w with next := [] }
    rw [hlevel] at hhere
    have hfollowed := level_followed frontier hlevel (fun f hf => absurd hf List.not_mem_nil)
    exact (Deeper.trans (.of_eq rfl) hhere).trans (ih fun f hf => (hfollowed f hf).path_ne)
  | case3 frontier w hne hstops =>
    exact (Deeper.of_eq rfl).trans (level_deeper hpath { w with next := [] })

/-- What a search finds: the matching slots of its root until the result is full, and then what
it reaches through pointers. -/
theorem search_hits (hnodes : 0 < p.cfg.maxNodes) (hresults : 0 < p.cfg.maxResults)
    (hvisited : w.nodesVisited = 0) (hnone : w.hits = []) {win : List UInt8} {world : σ}
    (hread : readWindow p.target p.root w.win w.world = (some (cover, win), world))
    (hlimit : ∀ o, cover.has o p.needle.stride = true → o < cover.limit) {exit : SpiderExit}
    (h : p.search [⟨p.root, 0, []⟩] w = (exit, w')) (hexit : exit ≠ .overflow) :
    ∃ found, (∀ hit ∈ found, hit.path.parentOffsets ≠ []) ∧
      w'.hits = (p.windowHits ⟨p.root, 0, []⟩ cover win (p.slotOffsets p.root)).take
        p.cfg.maxResults ++ found := by
  let root : Frame := ⟨p.root, 0, []⟩
  have hexamine : p.examine 0 root { w with next := [] } = _ :=
    examine_first hnodes hvisited hread
  generalize hwalk : p.walkWindow root cover _ = walked at hexamine
  obtain ⟨stop, w₁⟩ := walked
  have hhits (hstop : stop ≠ .overflow) : w₁.hits =
      (p.windowHits root cover win (p.slotOffsets p.root)).take p.cfg.maxResults := by
    have hroot := walkWindow_hits hlimit (by dsimp only; rw [hnone]; exact hresults) hwalk hstop
    dsimp only at hroot
    rwa [hnone, List.nil_append, List.length_nil, Nat.sub_zero] at hroot
  by_cases hgo : stop = .go
  · subst hgo
    have hlevel : p.level [root] { w with next := [] } = (.go, w₁) := by
      rw [level_cons_go hexamine]
      rfl
    have hfollowed := level_followed _ hlevel (fun f hf => absurd hf List.not_mem_nil)
    rw [search_cons_go (List.cons_ne_nil _ _) hlevel] at h
    obtain ⟨found, heq, hpath⟩ := search_deeper (p := p) w₁.next w₁
      fun f hf => (hfollowed f hf).path_ne
    rw [h] at heq
    exact ⟨found, hpath, by rw [heq, hhits nofun]⟩
  · have hlevel : p.level [root] { w with next := [] } = (stop, w₁) := by
      rw [level_cons_stops (by rw [List.length_nil, hexamine]; exact hgo), List.length_nil, hexamine]
    rw [search_cons_stops (List.cons_ne_nil _ _) (by rw [hlevel]; exact hgo), hlevel,
      Prod.mk.injEq] at h
    obtain ⟨rfl, rfl⟩ := h
    exact ⟨[], fun hit hhit => absurd hhit List.not_mem_nil, by
      rw [hhits hexit, List.append_nil]⟩

end SpiderPass

section Root
variable {σ : Type} {target : ScanTarget σ} {root : ℕ} {mem : ℕ → UInt8}

/-- The first read of a window brings back all of it that the address space has. -/
theorem ReadableFrom.readWindow (hmem : ReadableFrom target root mem) (hroot : root ≤ usizeMax)
    (win : List UInt8) (world : σ) : ∃ win' world', Scan.readWindow target root win world =
        (some (.full (min win.length (usizeMax + 1 - root)), win'), world') ∧
      Holds (fun _ => True) mem root win' 0 (min win.length (usizeMax + 1 - root)) := by
  obtain ⟨buf, world', hread, hbytes⟩ := hmem world root win.length le_rfl
  have hlen : buf.val.length = min win.length (usizeMax + 1 - root) := by
    rw [hbytes, memBytes_length]
  have hroom : 0 + buf.val.length ≤ win.length := by omega
  refine ⟨overwrite win 0 buf, world', ?_, ?_, fun i _ hi => ?_, fun _ _ _ => trivial⟩
  · unfold Scan.readWindow
    rw [hread, ← hlen]
    dsimp only
    split_ifs with hfull hsome
    · rfl
    · rfl
    · omega
  · rw [overwrite_length hroom]
    exact Nat.min_le_left _ _
  · rw [overwrite_inside hroom (Nat.zero_le i) (by omega), Nat.sub_zero, hbytes,
      List.getElem?_eq_getElem (by rw [memBytes_length]; exact hi)]
    simp [memBytes]

/-- A slot of a window without holes is a hit when it matches and the window has all of it. -/
theorem SpiderPass.slotHit_full {p : SpiderPass σ} {n len : ℕ} {win : List UInt8}
    (hheld : Holds (fun _ => True) mem root win 0 n) (hn : n = min len (usizeMax + 1 - root))
    (hmax : len ≤ usizeMax) (hroot : root ≤ usizeMax) (o : ℕ) :
    p.slotHit (.full n) win o = true ↔
      SlotMatches mem p.needle p.compare root o ∧ o + p.needle.stride ≤ len := by
  rw [SpiderPass.slotHit, Bool.and_eq_true, full_has_iff (by omega), SlotMatches]
  by_cases hfits : o + p.needle.stride ≤ n
  · have hslot : Holds (fun _ => True) mem root win o (o + p.needle.stride) :=
      hheld.mono (Nat.zero_le o) hfits
    have hmatch : p.needle.compareFirst win o p.compare =
        p.needle.compareFirst (memBytes mem (root + o) p.needle.stride) 0 p.compare := by
      rw [← hslot.bytes]
      exact p.needle.compare_window hslot.le_length p.compare none
    rw [hmatch]
    exact ⟨fun h => ⟨⟨by omega, h.2⟩, by omega⟩, fun h => ⟨hfits, h.1.2⟩⟩
  · exact iff_of_false (fun h => hfits h.1) fun h => hfits (by omega)

end Root

section SpiderScan
variable {σ : Type} {target : ScanTarget σ} {root : ℕ} {mem : ℕ → UInt8} {cfg : SpiderConfig}
  {valueType : ScanValueType} {compare : ScanCompareType} {needle : Needle}
  {observer : ScanObserver σ} {world : σ}

/-- The slot at an offset of the root is reported. -/
def SpiderScanResult.Reports (r : SpiderScanResult) (root o : ℕ) : Prop :=
  ∃ hit ∈ r.hits, hit.path = ⟨root, [], o⟩

instance (r : SpiderScanResult) (root o : ℕ) : Decidable (r.Reports root o) :=
  inferInstanceAs (Decidable (∃ hit ∈ r.hits, hit.path = _))

/-- The matching slots that the window has room for. -/
def fittingSlots (cfg : SpiderConfig) (needle : Needle) (compare : ScanCompareType)
    (mem : ℕ → UInt8) (root : ℕ) : List ℕ :=
  (structSlots cfg needle root).filter fun o => SlotMatches mem needle compare root o ∧
    o + needle.stride ≤ cfg.structSize + cfg.pointerSize + spiderAlign cfg needle

/-- How a search that returns a result has run. -/
theorem spiderScanWith_eq_ok {r : SpiderScanResult}
    (h : (spiderScanWith target root cfg valueType compare (some needle) observer world).1 =
      .ok r) :
    ∃ regions world₁ len exit w, checkSpider valueType compare (some needle) = .ok needle ∧
      windowLen cfg.clamped needle = some len ∧
      (spiderPass target observer root cfg.clamped compare needle regions).search [⟨root, 0, []⟩]
        (startWalk root len world₁) = (exit, w) ∧ exit ≠ .overflow ∧ w.hits = r.hits := by
  unfold spiderScanWith at h
  dsimp only at h
  cases hcheck : checkSpider valueType compare (some needle) with
  | error e =>
    rw [hcheck] at h
    cases h
  | ok n =>
    obtain rfl := (checkSpider_eq_ok hcheck).1
    rw [hcheck] at h
    cases hregions : target.regions world with
    | mk result world₁ =>
      rw [hregions] at h
      cases result with
      | error e => cases h
      | ok regions =>
        dsimp only at h
        cases hlen : windowLen cfg.clamped n with
        | none =>
          rw [hlen] at h
          cases h
        | some len =>
          rw [hlen] at h
          dsimp only at h
          rw [show ({ world := world₁, win := List.replicate len 0, visited := {root} } :
            SpiderWalk σ) = startWalk root len world₁ from rfl] at h
          cases hwalk : (spiderPass target observer root cfg.clamped compare n regions).search
              [⟨root, 0, []⟩] (startWalk root len world₁) with
          | mk exit w =>
            rw [hwalk] at h
            refine ⟨regions, world₁, len, exit, w, rfl, rfl, hwalk, ?_, ?_⟩
            · rintro rfl
              cases h
            · cases exit with
              | go =>
                cases h
                rfl
              | full =>
                cases h
                rfl
              | cancelled => cases h
              | overflow => cases h

/-- The slots that a search reports: of those that match and have room, as many as the result may
have hits. -/
theorem spiderScanWith_reports (hmem : ReadableFrom target root mem) (hroot : root ≤ usizeMax)
    {r : SpiderScanResult} (h : (spiderScanWith target root cfg valueType compare (some needle)
      observer world).1 = .ok r) (o : ℕ) :
    r.Reports root o ↔
      o ∈ (fittingSlots cfg.clamped needle compare mem root).take cfg.clamped.maxResults := by
  obtain ⟨regions, world₁, len, exit, w, hcheck, hlen, hwalk, hexit, hhits⟩ :=
    spiderScanWith_eq_ok h
  let p := spiderPass target observer root cfg.clamped compare needle regions
  have hstart : (startWalk root len world₁).win.length = len := List.length_replicate
  have hmax : len ≤ usizeMax := by
    simp only [windowLen, Option.bind_eq_bind, Option.bind_eq_some_iff] at hlen
    obtain ⟨_, -, hlen⟩ := hlen
    have hsum := checkedAdd_eq_some.mp hlen
    omega
  have hsize := windowLen_eq hlen
  have hneedle : 0 < needle.stride := stride_pos_of_checkSpider hcheck
  obtain ⟨win, world₂, hread, hheld⟩ := hmem.readWindow hroot (startWalk root len world₁).win world₁
  rw [hstart] at hread hheld
  have hlimit : ∀ o, (Cover.full (min len (usizeMax + 1 - root))).has o needle.stride = true →
      o < (Cover.full (min len (usizeMax + 1 - root))).limit := by
    intro o hhas
    rw [full_has_iff (by omega)] at hhas
    show o < min len (usizeMax + 1 - root)
    omega
  obtain ⟨found, hpath, hall⟩ := SpiderPass.search_hits (p := p)
    (Nat.lt_of_lt_of_le one_pos (Nat.le_max_right _ _))
    (Nat.lt_of_lt_of_le one_pos (Nat.le_max_right _ _)) rfl rfl hread hlimit hwalk hexit
  have hslots : (p.slotOffsets root).filter
      (p.slotHit (.full (min len (usizeMax + 1 - root))) win) =
        fittingSlots cfg.clamped needle compare mem root := by
    refine List.filter_congr fun o _ => ?_
    rw [Bool.eq_iff_iff, SpiderPass.slotHit_full hheld rfl hmax hroot o, decide_eq_true_eq, hsize]
    rfl
  change w.hits = (p.windowHits ⟨root, 0, []⟩ (.full (min len (usizeMax + 1 - root))) win
    (p.slotOffsets root)).take cfg.clamped.maxResults ++ found at hall
  rw [SpiderPass.windowHits, hslots, ← List.map_take] at hall
  rw [SpiderScanResult.Reports, ← hhits, hall]
  constructor
  · rintro ⟨hit, hhit, hroot⟩
    rcases List.mem_append.mp hhit with hhit | hhit
    · obtain ⟨o', ho', rfl⟩ := List.mem_map.mp hhit
      rwa [← (SpiderPath.mk.inj hroot).2.2]
    · exact absurd (by rw [hroot]) (hpath hit hhit)
  · intro ho
    exact ⟨_, List.mem_append_left _ (List.mem_map.mpr ⟨o, ho, rfl⟩), rfl⟩

/-- A search that nobody stops and that stays in the address space returns a result. -/
theorem spiderScanWith_returns (hobserver : observer.NeverStops)
    (hcheck : checkSpider valueType compare (some needle) = .ok needle) {regions : List Region}
    {world₁ : σ} (hregions : target.regions world = (.ok regions, world₁))
    (hsafe : (spiderScanWith target root cfg valueType compare (some needle) observer world).1 ≠
      .error .overflow) :
    ∃ r, (spiderScanWith target root cfg valueType compare (some needle) observer world).1 =
      .ok r := by
  simp only [spiderScanWith, hcheck, hregions] at hsafe ⊢
  cases hlen : windowLen cfg.clamped needle with
  | none => simp [hlen] at hsafe
  | some len =>
    have hends := SpiderPass.search_endsWell
      (spiderPass target observer root cfg.clamped compare needle regions) hobserver
      [⟨root, 0, []⟩] { world := world₁, win := List.replicate len 0, visited := {root} }
    simp only [hlen] at hsafe ⊢
    generalize SpiderPass.search _ _ _ = walked at hsafe hends ⊢
    obtain ⟨exit, w⟩ := walked
    cases exit with
    | go => exact ⟨_, rfl⟩
    | full => exact ⟨_, rfl⟩
    | cancelled => exact absurd rfl hends.1
    | overflow => exact absurd rfl hsafe

/-- Over memory that is readable from the root on, a search reports every matching slot of the root
exactly when the window has room for all of them and the result for as many hits. -/
theorem spiderScanWith_everySlot_iff (hmem : ReadableFrom target root mem) (hroot : root ≤ usizeMax)
    (cfg : SpiderConfig) (valueType : ScanValueType) (compare : ScanCompareType) (needle : Needle)
    (observer : ScanObserver σ) (world : σ) :
    (∀ regions world₁, observer.NeverStops →
      checkSpider valueType compare (some needle) = .ok needle →
      target.regions world = (.ok regions, world₁) →
      (spiderScanWith target root cfg valueType compare (some needle) observer world).1 ≠
        .error .overflow →
      ∃ r, (spiderScanWith target root cfg valueType compare (some needle) observer world).1 =
        .ok r) ∧
    ∀ r, (spiderScanWith target root cfg valueType compare (some needle) observer world).1 = .ok r →
      ((∀ o ∈ structSlots cfg.clamped needle root, SlotMatches mem needle compare root o →
          r.Reports root o) ↔
        (∀ o ∈ structSlots cfg.clamped needle root, SlotMatches mem needle compare root o →
          o + needle.stride ≤ cfg.clamped.structSize + cfg.clamped.pointerSize +
            spiderAlign cfg.clamped needle) ∧
        ((structSlots cfg.clamped needle root).filter
          fun o => SlotMatches mem needle compare root o).length ≤ cfg.clamped.maxResults) := by
  refine ⟨fun regions world₁ hobserver hcheck hregions hsafe =>
    spiderScanWith_returns hobserver hcheck hregions hsafe, fun r h => ?_⟩
  have hreports := spiderScanWith_reports hmem hroot h
  let matching := (structSlots cfg.clamped needle root).filter
    fun o => SlotMatches mem needle compare root o
  have hmem (o : ℕ) : o ∈ matching ↔
      o ∈ structSlots cfg.clamped needle root ∧ SlotMatches mem needle compare root o := by
    rw [List.mem_filter, decide_eq_true_eq]
  have hnodup : matching.Nodup := (structSlots_nodup _ _ _).filter _
  have hfit (hall : ∀ o ∈ structSlots cfg.clamped needle root,
      SlotMatches mem needle compare root o → o + needle.stride ≤ cfg.clamped.structSize +
        cfg.clamped.pointerSize + spiderAlign cfg.clamped needle) :
      fittingSlots cfg.clamped needle compare mem root = matching := by
    refine List.filter_congr fun o ho => ?_
    rw [Bool.eq_iff_iff, decide_eq_true_eq, decide_eq_true_eq]
    exact and_iff_left_of_imp (hall o ho)
  constructor
  · intro hall
    have hroom : ∀ o ∈ structSlots cfg.clamped needle root,
        SlotMatches mem needle compare root o → o + needle.stride ≤ cfg.clamped.structSize +
          cfg.clamped.pointerSize + spiderAlign cfg.clamped needle := by
      intro o ho hmatch
      have hin := List.mem_of_mem_take ((hreports o).mp (hall o ho hmatch))
      exact (of_decide_eq_true (List.mem_filter.mp hin).2).2
    refine ⟨hroom, (forall_mem_take_iff hnodup _).mp fun o ho => ?_⟩
    obtain ⟨hslot, hmatch⟩ := (hmem o).mp ho
    rw [← hfit hroom]
    exact (hreports o).mp (hall o hslot hmatch)
  · rintro ⟨hroom, hcount⟩ o ho hmatch
    rw [hreports, hfit hroom, List.take_of_length_le hcount]
    exact (hmem o).mpr ⟨ho, hmatch⟩

/-- A needle wider than a pointer by at most two bytes has room at every slot. -/
theorem slot_fits (cfg : SpiderConfig) (needle : Needle) (hpos : 0 < cfg.structSize)
    (hwidth : needle.stride ≤ cfg.pointerSize + 2) {o : ℕ}
    (ho : o ∈ structSlots cfg needle root) :
    o + needle.stride ≤ cfg.structSize + cfg.pointerSize + spiderAlign cfg needle := by
  obtain ⟨a, ha, rfl⟩ := List.mem_map.mp ho
  have ha := mem_multiples.mp ha
  have hfirst := le_nextMultipleOf root (spiderAlign cfg needle)
  have hnear := nextMultipleOf_lt root
    (show 0 < spiderAlign cfg needle from Nat.lt_of_lt_of_le one_pos (Nat.le_max_right _ _))
  omega

/-- A target without regions, all of whose memory is readable. -/
def openTarget (mem : ℕ → UInt8) : ScanTarget Unit where
  regions world := (.ok [], world)
  read world addr len := (.ok ⟨memBytes mem addr (min len (usizeMax + 1 - addr)), by
    rw [memBytes_length]
    exact Nat.min_le_left _ _⟩, world)

theorem openTarget_readable (root : ℕ) (mem : ℕ → UInt8) :
    ReadableFrom (openTarget mem) root mem := fun _ _ _ _ => ⟨_, _, rfl, rfl⟩

theorem isString_stringUtf8 : ScanValueType.stringUtf8.isString = true := rfl

/-- A needle of as many letters `a` as given. -/
def letters (n : ℕ) : Needle :=
  ⟨.stringUtf8, .Str (List.replicate n 0x61), defaultFloatTolerance, isString_stringUtf8⟩

theorem spiderScanWith_everySlot_short :
    ∃ r, (spiderScanWith (openTarget fun _ => 0x61) 0x1000 { structSize := 16 } .stringUtf8 .exact
        (some (letters 10)) (noObserver Unit) ()).1 = .ok r ∧
      ∀ o ∈ structSlots (SpiderConfig.clamped { structSize := 16 }) (letters 10) 0x1000,
        SlotMatches (fun _ => 0x61) (letters 10) .exact 0x1000 o → r.Reports 0x1000 o := by
  obtain ⟨hsome, hiff⟩ := spiderScanWith_everySlot_iff (openTarget_readable 0x1000 fun _ => 0x61)
    (by decide) { structSize := 16 } .stringUtf8 .exact (letters 10) (noObserver Unit) ()
  obtain ⟨r, h⟩ := hsome [] () (noObserver_neverStops Unit) rfl rfl (by decide +kernel)
  exact ⟨r, h, (hiff r h).mpr ⟨fun o ho _ => slot_fits _ _ (by decide) (by decide) ho, by decide⟩⟩

/-- The window ends behind the slot at 8, so that the matching slot at 12 is not compared. -/
theorem spiderScanWith_misses_slot :
    ReadableFrom (openTarget fun _ => 0x61) 0x1000 (fun _ => 0x61) ∧
      12 ∈ structSlots (SpiderConfig.clamped { structSize := 16 }) (letters 20) 0x1000 ∧
      SlotMatches (fun _ => 0x61) (letters 20) .exact 0x1000 12 ∧
      ∃ r, (spiderScanWith (openTarget fun _ => 0x61) 0x1000 { structSize := 16 } .stringUtf8
        .exact (some (letters 20)) (noObserver Unit) ()).1 = .ok r ∧ ¬ r.Reports 0x1000 12 := by
  have hmem : ReadableFrom (openTarget fun _ => 0x61) 0x1000 fun _ => 0x61 :=
    openTarget_readable 0x1000 _
  obtain ⟨r, h⟩ : ∃ r, (spiderScanWith (openTarget fun _ => 0x61) 0x1000 { structSize := 16 }
      .stringUtf8 .exact (some (letters 20)) (noObserver Unit) ()).1 = .ok r :=
    spiderScanWith_returns (noObserver_neverStops Unit) rfl rfl (by decide +kernel)
  refine ⟨hmem, by decide, by decide, r, h, ?_⟩
  rw [spiderScanWith_reports hmem (by decide) h]
  decide

end SpiderScan

end Nemclass.Scan
