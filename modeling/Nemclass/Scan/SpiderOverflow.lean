import Nemclass.Scan.SpiderPaths

/-! Where a spider search leaves the address space. Reading a struct's window page by page rounds
addresses up to the next page, and walking it rounds the struct's address up to the alignment, both
unchecked; every struct that the search comes to must lie low enough for that. -/
namespace Nemclass.Scan
open Usize Spans PartitionPoint

/-- `isize::MAX`, the length of the longest buffer. -/
def isizeMax : ℕ := 2 ^ 63 - 1

/-- Reads that bring back bytes of the address space only. -/
def ReadsWithinSpace {σ : Type} (target : ScanTarget σ) : Prop :=
  ∀ world addr len buf world', target.read world addr len = (.ok buf, world') →
    0 < buf.val.length → addr + buf.val.length ≤ usizeMax + 1

section ReadWindow
variable {σ : Type} {target : ScanTarget σ} {addr : ℕ}

theorem ReadsWithinSpace.transferred_le (h : ReadsWithinSpace target) {world : σ} {len : ℕ}
    (hpos : 0 < transferred target world addr len) :
    addr + transferred target world addr len ≤ usizeMax + 1 := by
  unfold transferred at hpos ⊢
  cases hread : target.read world addr len with
  | mk result world' =>
    rw [hread] at hpos
    cases result with
    | error e => exact absurd hpos (Nat.lt_irrefl 0)
    | ok buf => exact h world addr len buf world' hread hpos

/-- Up to the last page there is another retry behind each one. -/
theorem retry_lt_iff {len off boundary : ℕ} (hlt : off < len)
    (h : checkedAdd addr off >>= (checkedNextMultipleOf · page) = some boundary) :
    (min (max (boundary - addr) (off + 1)) len < len ∧ usizeMax + 2 < addr + len + page) ↔
      (off < len ∧ usizeMax + 2 < addr + len + page) := by
  rw [Option.bind_eq_bind, Option.bind_eq_some_iff] at h
  obtain ⟨a, hsum, hnext⟩ := h
  obtain ⟨rfl, -⟩ := checkedAdd_eq_some.mp hsum
  obtain ⟨rfl, hmax⟩ := checked_eq_some.mp hnext
  have hdvd : 4096 ∣ nextMultipleOf (addr + off) page := dvd_nextMultipleOf _ (by decide)
  have hle := le_nextMultipleOf (addr + off) page
  unfold usizeMax page at *
  omega

/-- A retry overflows exactly when the window reaches past the first byte of the last page. -/
theorem pageWalk_none_iff {len : ℕ} (off : ℕ) (spans : List (ℕ × ℕ)) (win : List UInt8)
    (world : σ) : (pageWalk target addr len off spans win world).1 = none ↔
      off < len ∧ usizeMax + 2 < addr + len + page := by
  fun_induction pageWalk target addr len off spans win world with
  | case1 off spans win world hlt hnone =>
    refine iff_of_true rfl ⟨hlt, ?_⟩
    by_contra hroom
    have hnext := nextMultipleOf_lt (addr + off) (show 0 < page by decide)
    rw [checkedAdd_of_le (by unfold page at hroom; omega), Option.bind_eq_bind, Option.bind_some,
      checkedNextMultipleOf, checked_of_le (by omega)] at hnone
    cases hnone
  | case2 off spans win world hlt boundary hboundary stop buf world₁ hread n spans₁ ih =>
    rw [ih, retry_lt_iff hlt hboundary]
  | case3 off spans win world hlt boundary hboundary stop e world₁ hread ih =>
    rw [ih, retry_lt_iff hlt hboundary]
  | case4 off spans win world hge => exact iff_of_false (by simp) fun h => hge h.1

theorem pageWalk_length {len : ℕ} (off : ℕ) (spans : List (ℕ × ℕ)) (win : List UInt8) (world : σ)
    (hlen : win.length = len) {spans' : List (ℕ × ℕ)} {win' : List UInt8} {world' : σ}
    (h : pageWalk target addr len off spans win world = (some (spans', win'), world')) :
    win'.length = len := by
  fun_induction pageWalk target addr len off spans win world with
  | case1 => simp at h
  | case2 off spans win world hlt boundary hboundary stop buf world₁ hread n spans₁ ih =>
    have hn : n ≤ stop - off := buf.property
    have hroom : off + buf.val.length ≤ win.length := by omega
    exact ih (by rw [overwrite_length hroom, hlen]) h
  | case3 off spans win world hlt boundary hboundary stop e world₁ hread ih => exact ih hlen h
  | case4 off spans win world hge =>
    simp only [Prod.mk.injEq, Option.some.injEq] at h
    rw [← h.1.2, hlen]

theorem limit_le_of_runs {P : ℕ → Prop} {len : ℕ} {spans : List (ℕ × ℕ)} (h : Runs P len spans) :
    (Cover.sparse spans).limit ≤ len := by
  show spans.getLast?.elim 0 Prod.snd ≤ len
  cases hlast : spans.getLast? with
  | none => exact Nat.zero_le _
  | some last => exact (h.sound last (List.mem_of_getLast? hlast)).2.1

/-- Reading a window overflows exactly when the first read brings nothing back and the window
reaches past the first byte of the last page. -/
theorem readWindow_none_iff {win : List UInt8} (hpos : 0 < win.length) (world : σ) :
    (readWindow target addr win world).1 = none ↔
      transferred target world addr win.length = 0 ∧
        usizeMax + 2 < addr + win.length + page := by
  unfold readWindow transferred
  dsimp only
  cases hread : target.read world addr win.length with
  | mk result world₁ =>
    have hwalk : (pageWalk target addr win.length 0 [] win world₁).1 = none ↔
        usizeMax + 2 < addr + win.length + page :=
      (pageWalk_none_iff 0 [] win world₁).trans (and_iff_right hpos)
    rw [← hwalk]
    cases result with
    | error e =>
      dsimp only
      rw [and_iff_right rfl]
      rcases pageWalk target addr win.length 0 [] win world₁ with ⟨_ | _, _⟩
      · exact iff_of_true rfl rfl
      · exact iff_of_false (by simp) (by simp)
    | ok buf =>
      dsimp only
      split_ifs with hfull hsome
      · exact iff_of_false (by simp) fun h => by omega
      · exact iff_of_false (by simp) fun h => by omega
      · rw [and_iff_right (by omega)]
        rcases pageWalk target addr win.length 0 [] win world₁ with ⟨_ | _, _⟩
        · exact iff_of_true rfl rfl
        · exact iff_of_false (by simp) (by simp)

/-- What is known of a window that was read, whatever the target does. -/
structure ReadsBack (target : ScanTarget σ) (addr : ℕ) (win win' : List UInt8) (world : σ)
    (cover : Cover) : Prop where
  length_eq : win'.length = win.length
  limit_le : cover.limit ≤ win.length
  limit_eq : 0 < transferred target world addr win.length →
    cover.limit = transferred target world addr win.length

theorem readWindow_readsBack {win win' : List UInt8} {world world' : σ} {cover : Cover}
    (h : readWindow target addr win world = (some (cover, win'), world')) :
    ReadsBack target addr win win' world cover := by
  rcases readWindow_cases h with ⟨buf, world₁, hread, -, rfl, rfl⟩ | ⟨hn, spans, rfl, hwalk⟩
  · have hroom : 0 + buf.val.length ≤ win.length := by
      rw [Nat.zero_add]
      exact buf.property
    refine ⟨overwrite_length hroom, buf.property, fun _ => ?_⟩
    rw [transferred, hread]
    rfl
  · have hruns : Runs (Contains spans) win.length spans :=
      (@pageWalk_spans _ _ (fun _ => True) addr _ 0 [] win _ (Nat.zero_le _) Runs.nil _ _ _ hwalk).1
    exact ⟨pageWalk_length 0 [] win _ rfl hwalk, limit_le_of_runs hruns, fun hsome => by omega⟩

end ReadWindow

namespace SpiderPass
variable {σ : Type} (p : SpiderPass σ)

/-- The length of the window. -/
def windowSize : ℕ := p.cfg.structSize + p.cfg.pointerSize + p.align

/-- A struct lies low enough: where a first read brings something back, its address can be rounded
up to the alignment; where not, its window ends by the first byte of the last page. -/
def FrameFits (frame : Frame) (world : σ) : Prop :=
  if transferred p.target world frame.addr p.windowSize = 0 then
    frame.addr + p.windowSize + page ≤ usizeMax + 2
  else nextMultipleOf frame.addr p.align ≤ usizeMax

instance (frame : Frame) (world : σ) : Decidable (p.FrameFits frame world) := by
  unfold FrameFits
  infer_instance

/-- A struct whose window ends a page below the top lies low enough. -/
theorem frameFits_of_room {frame : Frame}
    (h : frame.addr + p.windowSize + page ≤ usizeMax + 2) (world : σ) :
    p.FrameFits frame world := by
  have hnear := nextMultipleOf_lt frame.addr p.align_pos
  have hpage : page = 4096 := rfl
  unfold FrameFits
  split
  · exact h
  · unfold windowSize at h
    omega

/-- The search begins to examine a struct, when it has ticked. -/
def Begins (queued : ℕ) (frame : Frame) (w w' : SpiderWalk σ) : Prop :=
  w.nodesVisited < p.cfg.maxNodes ∧ p.tick queued
    { w with nodesVisited := w.nodesVisited + 1, examined := w.examined ++ [frame] } = (true, w')

/-- What a search comes to: from a level of structs and what waits for the next one, the structs
that it begins to examine, each with what holds when its window is read. -/
inductive Enters : List Frame → SpiderWalk σ → Frame → SpiderWalk σ → Prop where
  | here {frame : Frame} {rest : List Frame} {w w' : SpiderWalk σ}
    (h : p.Begins rest.length frame w w') : Enters (frame :: rest) w frame w'
  | later {frame g : Frame} {rest : List Frame} {w w' v : SpiderWalk σ}
    (hgo : p.examine rest.length frame w = (.go, w')) (h : Enters rest w' g v) :
    Enters (frame :: rest) w g v
  | deeper {g : Frame} {w v : SpiderWalk σ} (hne : w.next ≠ [])
    (h : Enters w.next { w with next := [] } g v) : Enters [] w g v

variable {p} {frame : Frame} {cover : Cover} {off : ℕ} {w w' : SpiderWalk σ}

theorem pointerBranch_isSome (hroom : frame.addr + off ≤ usizeMax) :
    ∃ w', p.pointerBranch frame cover off w = some w' := by
  unfold pointerBranch
  rw [checkedAdd_of_le hroom]
  dsimp only
  split_ifs <;> exact ⟨_, rfl⟩

/-- The slots of a window that lies in the address space are walked without overflow. -/
theorem slots_ne_overflow (hroom : frame.addr + cover.limit ≤ usizeMax + 1)
    (hstep : cover.limit + p.align ≤ usizeMax) (windowEnd off : ℕ) (w : SpiderWalk σ) :
    (p.slots frame cover windowEnd off w).1 ≠ .overflow := by
  fun_induction p.slots frame cover windowEnd off w with
  | case1 => simp
  | case2 off w hlt w₁ hvalue hpointer =>
    obtain ⟨w₂, hsome⟩ : ∃ w₂, p.pointerBranch frame cover off w₁ = some w₂ :=
      pointerBranch_isSome (by omega)
    rw [hsome] at hpointer
    cases hpointer
  | case3 off w hlt w₁ hvalue w₂ hpointer hnext =>
    rw [checkedAdd_of_le (by omega)] at hnext
    cases hnext
  | case4 off w hlt w₁ hvalue w₂ hpointer next hnext ih => exact ih
  | case5 => simp

/-- Walking a window overflows exactly when the struct's address cannot be rounded up. -/
theorem walkWindow_overflow_iff (hlimit : cover.limit ≤ p.windowSize)
    (hmax : p.windowSize ≤ isizeMax) (hroom : frame.addr + cover.limit ≤ usizeMax + 1) :
    (p.walkWindow frame cover w).1 = .overflow ↔
      cover.limit ≠ 0 ∧ usizeMax < nextMultipleOf frame.addr p.align := by
  have hnear := nextMultipleOf_lt frame.addr p.align_pos
  have hsize : isizeMax + isizeMax ≤ usizeMax := by decide
  have halign : p.align ≤ p.windowSize := Nat.le_add_left _ _
  unfold walkWindow
  by_cases hzero : cover.limit = 0
  · rw [if_pos hzero]
    exact iff_of_false nofun fun h => h.1 hzero
  · rw [if_neg hzero]
    by_cases hfirst : nextMultipleOf frame.addr p.align ≤ usizeMax
    · rw [checkedNextMultipleOf, checked_of_le hfirst]
      dsimp only
      have hend : nextMultipleOf frame.addr p.align - frame.addr + p.cfg.structSize ≤
          p.windowSize := by
        unfold windowSize
        omega
      rw [checkedAdd_of_le (by omega)]
      exact iff_of_false (slots_ne_overflow hroom (by omega) _ _ _) fun h => by omega
    · rw [checkedNextMultipleOf, checked_eq_none.mpr (Nat.not_le.mp hfirst)]
      exact iff_of_true rfl ⟨hzero, Nat.not_le.mp hfirst⟩

/-- Following a slot queues at most one struct, one hop deeper through the slot. -/
theorem pointerBranch_spec (h : p.pointerBranch frame cover off w = some w') :
    w' = { w with visited := w'.visited, next := w'.next } ∧
      (w'.next = w.next ∨ ∃ word, isMapped p.ranges word = true ∧
        w'.next = w.next ++ [⟨word, frame.depth + 1, frame.path ++ [off]⟩]) := by
  by_cases hdepth : frame.depth < p.cfg.maxDepth
  · cases hsum : checkedAdd frame.addr off with
    | none => simp [pointerBranch, hdepth, hsum] at h
    | some slot =>
      simp only [pointerBranch, if_pos hdepth, hsum] at h
      split_ifs at h with hread hword <;> cases h
      all_goals first
        | exact ⟨rfl, .inl rfl⟩
        | exact ⟨rfl, .inr ⟨_, (Bool.and_eq_true_iff.mp hword).2, rfl⟩⟩
  · simp only [pointerBranch, if_neg hdepth, Option.some.injEq] at h
    subst h
    exact ⟨rfl, .inl rfl⟩

theorem pointerBranch_win (h : p.pointerBranch frame cover off w = some w') : w'.win = w.win := by
  rw [(pointerBranch_spec h).1]

theorem slots_win (frame : Frame) (cover : Cover) (windowEnd off : ℕ) (w : SpiderWalk σ) :
    (p.slots frame cover windowEnd off w).2.win = w.win := by
  fun_induction p.slots frame cover windowEnd off w with
  | case1 off w hlt w₁ hvalue =>
    rw [← p.valueBranch_win frame cover off w, hvalue]
  | case2 off w hlt w₁ hvalue hpointer =>
    rw [← p.valueBranch_win frame cover off w, hvalue]
  | case3 off w hlt w₁ hvalue w₂ hpointer hnext =>
    rw [pointerBranch_win hpointer, ← p.valueBranch_win frame cover off w, hvalue]
  | case4 off w hlt w₁ hvalue w₂ hpointer next hnext ih =>
    rw [ih, pointerBranch_win hpointer, ← p.valueBranch_win frame cover off w, hvalue]
  | case5 => rfl

theorem walkWindow_win (frame : Frame) (cover : Cover) (w : SpiderWalk σ) :
    (p.walkWindow frame cover w).2.win = w.win := by
  unfold walkWindow
  split
  · rfl
  · split
    · rfl
    · dsimp only
      split
      · rfl
      · exact slots_win frame cover _ _ w

/-- How a struct that is begun is examined. -/
theorem examine_of_begins {queued : ℕ} (h : p.Begins queued frame w w') :
    p.examine queued frame w =
      match readWindow p.target frame.addr w'.win w'.world with
      | (none, world) => (.overflow, { w' with world })
      | (some (cover, win), world) => p.walkWindow frame cover { w' with world, win } := by
  obtain ⟨hroom, htick⟩ := h
  unfold examine
  rw [if_neg (Nat.not_le.mpr hroom)]
  generalize p.tick queued _ = r at htick ⊢
  subst htick
  rfl

/-- A struct is begun, or the search stops before it. -/
theorem begins_or_stops (queued : ℕ) (frame : Frame) (w : SpiderWalk σ) :
    (∃ w', p.Begins queued frame w w') ∨ (∀ w', ¬ p.Begins queued frame w w') ∧
      ((p.examine queued frame w).1 = .full ∨ (p.examine queued frame w).1 = .cancelled) := by
  by_cases hnodes : p.cfg.maxNodes ≤ w.nodesVisited
  · refine .inr ⟨fun w' h => absurd h.1 (Nat.not_lt.mpr hnodes), .inl ?_⟩
    unfold examine
    rw [if_pos hnodes]
  · cases htick : p.tick queued
        { w with nodesVisited := w.nodesVisited + 1, examined := w.examined ++ [frame] } with
    | mk go w' =>
      cases go with
      | true => exact .inl ⟨w', Nat.not_le.mp hnodes, htick⟩
      | false =>
        refine .inr ⟨fun v h => absurd (htick.symm.trans h.2) nofun, .inr ?_⟩
        unfold examine
        rw [if_neg hnodes, htick]

theorem Begins.win_eq {queued : ℕ} (h : p.Begins queued frame w w') : w'.win = w.win := by
  obtain ⟨world, rfl⟩ := tick_frame h.2
  rfl

theorem Begins.unique {queued : ℕ} {v : SpiderWalk σ} (h : p.Begins queued frame w w')
    (h' : p.Begins queued frame w v) : v = w' :=
  (Prod.mk.inj (h'.2.symm.trans h.2)).2

/-- One step: a struct that is begun overflows exactly when it does not fit. -/
theorem begins_overflow_iff (hspace : ReadsWithinSpace p.target) (hmax : p.windowSize ≤ isizeMax)
    {queued : ℕ} (hwin : w.win.length = p.windowSize) (h : p.Begins queued frame w w') :
    (p.examine queued frame w).1 = .overflow ↔ ¬ p.FrameFits frame w'.world := by
  have hlen : w'.win.length = p.windowSize := by rw [h.win_eq, hwin]
  have hpos : 0 < p.windowSize := Nat.add_pos_right _ p.align_pos
  have hnear := nextMultipleOf_lt frame.addr p.align_pos
  have halign : p.align ≤ p.windowSize := Nat.le_add_left _ _
  have hnone : (readWindow p.target frame.addr w'.win w'.world).1 = none ↔ _ :=
    readWindow_none_iff (by omega) w'.world
  have hpage : page = 4096 := rfl
  rw [examine_of_begins h, FrameFits, ← hlen]
  cases hread : readWindow p.target frame.addr w'.win w'.world with
  | mk found world =>
    rw [hread] at hnone
    cases found with
    | none =>
      obtain ⟨hzero, hhigh⟩ := hnone.mp rfl
      rw [if_pos hzero]
      exact iff_of_true rfl (by omega)
    | some found =>
      obtain ⟨cover, win⟩ := found
      have hback := readWindow_readsBack hread
      have hlimit := hlen ▸ hback.limit_le
      by_cases hzero : transferred p.target w'.world frame.addr w'.win.length = 0
      · -- page by page: the window ends a page below the top, and nothing overflows
        have hlow : ¬ usizeMax + 2 < frame.addr + w'.win.length + page :=
          fun hhigh => absurd (hnone.mpr ⟨hzero, hhigh⟩) nofun
        rw [if_pos hzero]
        dsimp only
        rw [walkWindow_overflow_iff hlimit hmax (by omega)]
        exact iff_of_false (fun h => by omega) (fun h => h (by omega))
      · have hpart : 0 < transferred p.target w'.world frame.addr w'.win.length :=
          Nat.pos_of_ne_zero hzero
        have heq := hback.limit_eq hpart
        rw [if_neg hzero]
        dsimp only
        rw [walkWindow_overflow_iff hlimit hmax ?_]
        · exact ⟨fun h => by omega, fun h => ⟨by omega, by omega⟩⟩
        · rw [heq]
          exact hspace.transferred_le hpart

/-- One step: examining a struct overflows exactly when it is begun and does not fit. -/
theorem examine_overflow_iff (hspace : ReadsWithinSpace p.target) (hmax : p.windowSize ≤ isizeMax)
    {queued : ℕ} (hwin : w.win.length = p.windowSize) :
    (p.examine queued frame w).1 = .overflow ↔
      ∃ w', p.Begins queued frame w w' ∧ ¬ p.FrameFits frame w'.world := by
  rcases p.begins_or_stops queued frame w with ⟨w', hbegins⟩ | hstops
  · rw [begins_overflow_iff hspace hmax hwin hbegins]
    refine ⟨fun h => ⟨w', hbegins, h⟩, fun ⟨v, hv, h⟩ => ?_⟩
    rwa [hbegins.unique hv] at h
  · refine iff_of_false (fun h => ?_) fun ⟨w', h, _⟩ => hstops.1 w' h
    rcases hstops.2 with hexit | hexit
    · rw [hexit] at h
      cases h
    · rw [hexit] at h
      cases h

/-- The window keeps its length from one struct to the next. -/
theorem examine_win {queued : ℕ} (h : p.examine queued frame w = (.go, w')) :
    w'.win.length = w.win.length := by
  rcases p.begins_or_stops queued frame w with ⟨v, hbegins⟩ | ⟨-, hexit⟩
  · rw [← hbegins.win_eq]
    rw [examine_of_begins hbegins] at h
    cases hread : readWindow p.target frame.addr v.win v.world with
    | mk found world =>
      rw [hread] at h
      cases found with
      | none => cases h
      | some found =>
        obtain ⟨cover, win⟩ := found
        have hwin := walkWindow_win (p := p) frame cover { v with world, win }
        dsimp only at h
        rw [h] at hwin
        dsimp only at hwin
        rw [hwin]
        exact (readWindow_readsBack hread).length_eq
  · rw [h] at hexit
    simp at hexit

theorem level_cons_go {rest : List Frame} (h : p.examine rest.length frame w = (.go, w')) :
    p.level (frame :: rest) w = p.level rest w' := by
  rw [level, h]

theorem level_cons_stops {rest : List Frame} (h : (p.examine rest.length frame w).1 ≠ .go) :
    p.level (frame :: rest) w = p.examine rest.length frame w := by
  rw [level]
  split
  · rename_i w' hgo
    rw [hgo] at h
    exact absurd rfl h
  · rfl

theorem search_cons_go {frontier : List Frame} (hne : frontier ≠ [])
    (h : p.level frontier { w with next := [] } = (.go, w')) :
    p.search frontier w = p.search w'.next w' := by
  rw [search, dif_neg hne]
  split
  · rename_i v hgo
    rw [h, Prod.mk.injEq] at hgo
    rw [hgo.2]
  · rename_i hstops
    exact absurd h (hstops w')

theorem search_cons_stops {frontier : List Frame} (hne : frontier ≠ [])
    (h : (p.level frontier { w with next := [] }).1 ≠ .go) :
    p.search frontier w = p.level frontier { w with next := [] } := by
  rw [search, dif_neg hne]
  split
  · rename_i v hgo
    rw [hgo] at h
    exact absurd rfl h
  · rfl

/-- A level that goes on has gone through each of its structs. -/
theorem level_go {motive : List Frame → SpiderWalk σ → Prop} (hend : motive [] w')
    (hstep : ∀ {frame : Frame} {rest : List Frame} {w v : SpiderWalk σ},
      p.examine rest.length frame w = (.go, v) → motive rest v → motive (frame :: rest) w)
    {frontier : List Frame} (h : p.level frontier w = (.go, w')) : motive frontier w := by
  induction frontier generalizing w with
  | nil =>
    rw [level, Prod.mk.injEq] at h
    exact h.2 ▸ hend
  | cons frame rest ih =>
    cases hexamine : p.examine rest.length frame w with
    | mk exit v =>
      by_cases hgo : exit = .go
      · subst hgo
        rw [level_cons_go hexamine] at h
        exact hstep hexamine (ih h)
      · rw [level_cons_stops (by rw [hexamine]; exact hgo), hexamine, Prod.mk.injEq] at h
        exact absurd h.1 hgo

theorem level_win (frontier : List Frame) (h : p.level frontier w = (.go, w')) :
    w'.win.length = w.win.length :=
  level_go (motive := fun _ w => w'.win.length = w.win.length) rfl
    (fun hexamine ih => ih.trans (examine_win hexamine)) h

/-- What a search comes to after a level, it comes to from the level's start. -/
theorem enters_of_level {frontier : List Frame} {g : Frame} {v : SpiderWalk σ}
    (h : p.level frontier w = (.go, w')) (henters : p.Enters [] w' g v) :
    p.Enters frontier w g v :=
  level_go (motive := fun frontier w => p.Enters frontier w g v) henters
    (fun hexamine ih => .later hexamine ih) h

section Run
variable (hspace : ReadsWithinSpace p.target) (hmax : p.windowSize ≤ isizeMax)
include hspace hmax

/-- A level that overflows comes to a struct that does not fit. -/
theorem level_overflows {frontier : List Frame} (hwin : w.win.length = p.windowSize)
    (h : (p.level frontier w).1 = .overflow) :
    ∃ g v, p.Enters frontier w g v ∧ ¬ p.FrameFits g v.world := by
  induction frontier generalizing w with
  | nil => cases h
  | cons frame rest ih =>
    cases hexamine : p.examine rest.length frame w with
    | mk exit w₁ =>
      by_cases hgo : exit = .go
      · subst hgo
        rw [level_cons_go hexamine] at h
        obtain ⟨g, v, henters, hfits⟩ := ih ((examine_win hexamine).trans hwin) h
        exact ⟨g, v, .later hexamine henters, hfits⟩
      · rw [level_cons_stops (by rw [hexamine]; exact hgo)] at h
        obtain ⟨v, hbegins, hfits⟩ := (examine_overflow_iff hspace hmax hwin).mp h
        exact ⟨frame, v, .here hbegins, hfits⟩

/-- A search that overflows comes to a struct that does not fit. -/
theorem search_overflows (frontier : List Frame) (w : SpiderWalk σ)
    (hwin : w.win.length = p.windowSize) (h : (p.search frontier w).1 = .overflow) :
    ∃ g v, p.Enters frontier { w with next := [] } g v ∧ ¬ p.FrameFits g v.world := by
  fun_induction p.search frontier w with
  | case1 => cases h
  | case2 frontier w hne w₁ hlevel ih =>
    obtain ⟨g, v, henters, hfits⟩ := ih ((level_win frontier hlevel).trans hwin) h
    refine ⟨g, v, enters_of_level hlevel (.deeper (fun hnil => ?_) henters), hfits⟩
    rw [hnil] at henters
    cases henters with
    | deeper hne => exact hne rfl
  | case3 frontier w hne hstops => exact level_overflows hspace hmax hwin h

/-- Coming to a struct that does not fit, a search overflows in that level or in a later one. -/
theorem overflows_of_enters {frontier : List Frame} {g : Frame} {v : SpiderWalk σ}
    (hwin : w.win.length = p.windowSize) (henters : p.Enters frontier w g v)
    (hfits : ¬ p.FrameFits g v.world) :
    (p.level frontier w).1 = .overflow ∨
      ∃ w', p.level frontier w = (.go, w') ∧ (p.search w'.next w').1 = .overflow := by
  induction henters with
  | here h =>
    have hexit := (examine_overflow_iff hspace hmax hwin).mpr ⟨_, h, hfits⟩
    left
    rw [level_cons_stops (by rw [hexit]; exact nofun), hexit]
  | later hgo h ih =>
    rw [level_cons_go hgo]
    exact ih ((examine_win hgo).trans hwin) hfits
  | @deeper g w v hne h ih =>
    refine .inr ⟨w, rfl, ?_⟩
    rcases ih hwin hfits with hover | ⟨w', hgo, hover⟩
    · rw [search_cons_stops hne (by rw [hover]; exact nofun)]
      exact hover
    · rw [search_cons_go hne hgo]
      exact hover

/-- A search overflows exactly when it comes to a struct that does not fit. -/
theorem search_overflow_iff {frontier : List Frame} (hne : frontier ≠ [])
    (hwin : w.win.length = p.windowSize) (hnext : w.next = []) :
    (p.search frontier w).1 = .overflow ↔
      ∃ g v, p.Enters frontier w g v ∧ ¬ p.FrameFits g v.world := by
  have hstart : { w with next := [] } = w := by rw [← hnext]
  constructor
  · intro h
    have hcome := search_overflows hspace hmax frontier w hwin h
    rwa [hstart] at hcome
  · rintro ⟨g, v, henters, hfits⟩
    rcases overflows_of_enters hspace hmax hwin henters hfits with hover | ⟨w', hgo, hover⟩
    · rw [search_cons_stops hne (by rw [hstart, hover]; exact nofun), hstart]
      exact hover
    · rw [search_cons_go hne (by rw [hstart]; exact hgo)]
      exact hover

end Run

variable (p) in
/-- A struct that some slot points at. -/
structure Followed (f : Frame) : Prop where
  mapped : isMapped p.ranges f.addr = true
  path_ne : f.path ≠ []

theorem pointerBranch_followed (h : p.pointerBranch frame cover off w = some w')
    (hnext : ∀ f ∈ w.next, p.Followed f) : ∀ f ∈ w'.next, p.Followed f := by
  rcases (pointerBranch_spec h).2 with heq | ⟨word, hword, heq⟩
  · rw [heq]
    exact hnext
  · rw [heq]
    intro f hf
    rcases List.mem_append.mp hf with hf | hf
    · exact hnext f hf
    · rw [List.mem_singleton.mp hf]
      exact ⟨hword, List.append_ne_nil_of_right_ne_nil _ (List.cons_ne_nil _ _)⟩

theorem slots_followed (frame : Frame) (cover : Cover) (windowEnd off : ℕ) (w : SpiderWalk σ)
    (hnext : ∀ f ∈ w.next, p.Followed f) :
    ∀ f ∈ (p.slots frame cover windowEnd off w).2.next, p.Followed f := by
  fun_induction p.slots frame cover windowEnd off w with
  | case1 off w hlt w₁ hvalue =>
    have hkept := p.valueBranch_next frame cover off w
    rw [hvalue] at hkept
    exact hkept ▸ hnext
  | case2 off w hlt w₁ hvalue hpointer =>
    have hkept := p.valueBranch_next frame cover off w
    rw [hvalue] at hkept
    exact hkept ▸ hnext
  | case3 off w hlt w₁ hvalue w₂ hpointer hstep =>
    have hkept := p.valueBranch_next frame cover off w
    rw [hvalue] at hkept
    exact pointerBranch_followed hpointer (hkept ▸ hnext)
  | case4 off w hlt w₁ hvalue w₂ hpointer next hstep ih =>
    have hkept := p.valueBranch_next frame cover off w
    rw [hvalue] at hkept
    exact ih (pointerBranch_followed hpointer (hkept ▸ hnext))
  | case5 => exact hnext

theorem walkWindow_followed (frame : Frame) (cover : Cover) (w : SpiderWalk σ)
    (hnext : ∀ f ∈ w.next, p.Followed f) :
    ∀ f ∈ (p.walkWindow frame cover w).2.next, p.Followed f := by
  unfold walkWindow
  split
  · exact hnext
  · split
    · exact hnext
    · dsimp only
      split
      · exact hnext
      · exact slots_followed frame cover _ _ w hnext

theorem Begins.next_eq {queued : ℕ} (h : p.Begins queued frame w w') : w'.next = w.next := by
  obtain ⟨world, rfl⟩ := tick_frame h.2
  rfl

theorem examine_followed {queued : ℕ} (h : p.examine queued frame w = (.go, w'))
    (hnext : ∀ f ∈ w.next, p.Followed f) : ∀ f ∈ w'.next, p.Followed f := by
  rcases p.begins_or_stops queued frame w with ⟨v, hbegins⟩ | ⟨-, hexit⟩
  · rw [examine_of_begins hbegins] at h
    rw [← hbegins.next_eq] at hnext
    split at h
    · cases h
    · rename_i cover win world hread
      have hwalk := walkWindow_followed (p := p) frame cover { v with world, win } hnext
      rwa [h] at hwalk
  · rw [h] at hexit
    simp at hexit

/-- What a search comes to is in the level it starts from, or some slot points at it. -/
theorem enters_followed {frontier : List Frame} {g : Frame} {v : SpiderWalk σ}
    (h : p.Enters frontier w g v) (hnext : ∀ f ∈ w.next, p.Followed f) :
    g ∈ frontier ∨ p.Followed g := by
  induction h with
  | here => exact .inl List.mem_cons_self
  | later hgo h ih =>
    rcases ih (examine_followed hgo hnext) with hg | hg
    · exact .inl (List.mem_cons_of_mem _ hg)
    · exact .inr hg
  | deeper hne h ih =>
    rcases ih (fun f hf => absurd hf List.not_mem_nil) with hg | hg
    · exact .inr (hnext _ hg)
    · exact .inr hg

end SpiderPass

theorem exists_of_isMapped {ranges : List Range} {addr : ℕ} (h : isMapped ranges addr = true) :
    ∃ r ∈ ranges, addr < r.2 := by
  obtain ⟨-, hlast⟩ := Bool.and_eq_true_iff.mp h
  cases hr : ranges[partitionPoint (·.1 ≤ addr) ranges - 1]? with
  | none =>
    rw [hr] at hlast
    cases hlast
  | some r =>
    rw [hr] at hlast
    exact ⟨r, List.mem_of_getElem? hr, of_decide_eq_true hlast⟩

section SpiderScan
variable {σ : Type} {target : ScanTarget σ}

/-- The walk that a search starts with. -/
def startWalk (root len : ℕ) (world : σ) : SpiderWalk σ :=
  { world, win := List.replicate len 0, visited := {root} }

theorem windowLen_eq {cfg : SpiderConfig} {n : Needle} {len : ℕ} (h : windowLen cfg n = some len) :
    cfg.structSize + cfg.pointerSize + spiderAlign cfg n = len := by
  simp only [windowLen, Option.bind_eq_bind, Option.bind_eq_some_iff] at h
  obtain ⟨_, hstruct, h⟩ := h
  obtain rfl := (checkedAdd_eq_some.mp hstruct).1
  exact (checkedAdd_eq_some.mp h).1

theorem checkSpider_some {valueType : ScanValueType} {compare : ScanCompareType}
    {needle : Option Needle} {n : Needle} (h : checkSpider valueType compare needle = .ok n) :
    needle = some n := by
  cases needle with
  | none =>
    unfold checkSpider at h
    split_ifs at h
  | some m => rw [(checkSpider_eq_ok h).1]

variable {root : ℕ} {cfg : SpiderConfig} {valueType : ScanValueType} {compare : ScanCompareType}
  {needle : Option Needle} {observer : ScanObserver σ} {world world₁ : σ} {n : Needle}
  {regions : List Region}

/-- A search that passes its checks and computes its window overflows when its walk does. -/
theorem spiderScanWith_overflow {len : ℕ} (hcheck : checkSpider valueType compare needle = .ok n)
    (hregions : target.regions world = (.ok regions, world₁))
    (hlen : windowLen cfg.clamped n = some len) :
    (spiderScanWith target root cfg valueType compare needle observer world).1 =
        .error .overflow ↔
      ((spiderPass target observer root cfg.clamped compare n regions).search [⟨root, 0, []⟩]
        (startWalk root len world₁)).1 = .overflow := by
  have hstart : ({ world := world₁, win := List.replicate len 0, visited := {root} } :
      SpiderWalk σ) = startWalk root len world₁ := rfl
  simp only [spiderScanWith, hcheck, hregions, hlen, hstart]
  generalize SpiderPass.search _ _ _ = walked
  obtain ⟨exit, w⟩ := walked
  cases exit <;> simp

theorem startWalk_win {len : ℕ} (hlen : windowLen cfg.clamped n = some len) :
    (startWalk root len world₁).win.length =
      (spiderPass target observer root cfg.clamped compare n regions).windowSize :=
  List.length_replicate.trans (windowLen_eq hlen).symm

/-- A spider search stays in the address space exactly when the length of its window does and every
struct that it comes to lies low enough. -/
theorem spiderScanWith_safe_iff (hspace : ReadsWithinSpace target) (root : ℕ) (cfg : SpiderConfig)
    (valueType : ScanValueType) (compare : ScanCompareType) (needle : Option Needle)
    (observer : ScanObserver σ) (world : σ)
    (hvec : ∀ n len, needle = some n → windowLen cfg.clamped n = some len → len ≤ isizeMax) :
    (spiderScanWith target root cfg valueType compare needle observer world).1 ≠
        .error .overflow ↔
      ∀ n regions world₁, checkSpider valueType compare needle = .ok n →
        target.regions world = (.ok regions, world₁) →
          ∃ len, windowLen cfg.clamped n = some len ∧
            let pass := spiderPass target observer root cfg.clamped compare n regions
            ∀ frame w, pass.Enters [⟨root, 0, []⟩] (startWalk root len world₁) frame w →
              pass.FrameFits frame w.world := by
  constructor
  · intro hsafe n regions world₁ hcheck hregions
    cases hlen : windowLen cfg.clamped n with
    | none =>
      refine absurd ?_ hsafe
      simp only [spiderScanWith, hcheck, hregions, hlen]
    | some len =>
      refine ⟨len, rfl, ?_⟩
      intro pass frame w henters
      by_contra hfits
      have hmax : pass.windowSize ≤ isizeMax :=
        (windowLen_eq hlen).le.trans (hvec n len (checkSpider_some hcheck) hlen)
      have hover := (SpiderPass.search_overflow_iff hspace hmax (List.cons_ne_nil _ _)
        (startWalk_win hlen) rfl).mpr ⟨frame, w, henters, hfits⟩
      exact hsafe ((spiderScanWith_overflow hcheck hregions hlen).mpr hover)
  · intro hfits hover
    cases hcheck : checkSpider valueType compare needle with
    | error e =>
      simp only [spiderScanWith, hcheck] at hover
      cases hover
    | ok n =>
      cases hregions : target.regions world with
      | mk result world₁ =>
        cases result with
        | error e =>
          simp only [spiderScanWith, hcheck, hregions] at hover
          cases hover
        | ok regions =>
          obtain ⟨len, hlen, hall⟩ := hfits n regions world₁ hcheck hregions
          have hmax : (spiderPass target observer root cfg.clamped compare n regions).windowSize ≤
              isizeMax := (windowLen_eq hlen).le.trans (hvec n len (checkSpider_some hcheck) hlen)
          rw [spiderScanWith_overflow hcheck hregions hlen,
            SpiderPass.search_overflow_iff hspace hmax (List.cons_ne_nil _ _)
              (startWalk_win hlen) rfl] at hover
          obtain ⟨frame, w, henters, hhigh⟩ := hover
          exact hhigh (hall frame w henters)

/-- Where the root and all regions end low enough, so does every struct that a search comes to. -/
theorem frameFits_of_ranges {len : ℕ} (hlen : windowLen cfg.clamped n = some len)
    (hroot : root + len + page ≤ usizeMax + 2)
    (hregions : ∀ r ∈ regions, r.stop + len + page ≤ usizeMax + 2) {frame : Frame}
    {w : SpiderWalk σ}
    (henters : (spiderPass target observer root cfg.clamped compare n regions).Enters
      [⟨root, 0, []⟩] (startWalk root len world₁) frame w) :
    (spiderPass target observer root cfg.clamped compare n regions).FrameFits frame w.world := by
  have hsize : (spiderPass target observer root cfg.clamped compare n regions).windowSize = len :=
    windowLen_eq hlen
  refine SpiderPass.frameFits_of_room _ ?_ w.world
  rw [hsize]
  rcases SpiderPass.enters_followed henters (fun f hf => absurd hf List.not_mem_nil) with hf | hf
  · rw [List.mem_singleton.mp hf]
    exact hroot
  · obtain ⟨x, hx, hlt⟩ := exists_of_isMapped hf.mapped
    obtain ⟨r, hr, rfl⟩ := mem_sortedRanges.mp hx
    have hend := hregions r hr
    dsimp only at hlt
    omega

theorem pagedTarget_withinSpace (regions : List Region) (mem : ℕ → UInt8) :
    ReadsWithinSpace (pagedTarget regions mem) := by
  intro world addr len buf world' hread hpos
  unfold pagedTarget at hread
  dsimp only at hread
  split_ifs at hread with hall
  · cases hread
    dsimp only at hpos ⊢
    rw [memBytes_length] at hpos ⊢
    obtain ⟨r, -, -, hlt⟩ := hall (len - 1) (by omega)
    have hstop := r.stop_le
    omega
  · cases hread
    exact absurd hpos (Nat.lt_irrefl 0)

theorem spiderScan_safe_twoStructs :
    let needle : Needle := ⟨.u8, .I 7 1 none, defaultFloatTolerance, ⟨rfl, rfl⟩⟩
    (spiderScanWith (pagedTarget [⟨0x1000, 0x1000⟩] twoStructs) 0x1000 { structSize := 16 } .u8
      .exact (some needle) (noObserver Unit) ()).1 ≠ .error .overflow := by
  intro needle
  refine (spiderScanWith_safe_iff (pagedTarget_withinSpace _ _) 0x1000 _ _ _ _ _ _ ?_).mpr ?_
  · rintro n len hn hlen
    cases hn
    rw [← windowLen_eq hlen]
    decide
  · rintro n regions world₁ hcheck hregions
    obtain rfl := Option.some.inj (checkSpider_some hcheck)
    cases hregions
    exact ⟨28, rfl, fun frame w => frameFits_of_ranges rfl (by decide) (by decide)⟩

/-- A struct whose first word points into the last page. -/
def highPointer (a : ℕ) : UInt8 :=
  if a = 0x1000 then 0xf0 else if 0x1000 < a ∧ a < 0x1008 then 0xff else 0

/-- The retry at `0xfffffffffffffff0` rounds past the top of the address space. -/
theorem spiderScan_overflows_highPointer :
    let regions : List Region := [⟨0x1000, 0xffffffffffffefff⟩]
    let needle : Needle := ⟨.u8, .I 7 1 none, defaultFloatTolerance, ⟨rfl, rfl⟩⟩
    ReadsWithinSpace (pagedTarget regions highPointer) ∧
      (spiderScanWith (pagedTarget regions highPointer) 0x1000 { structSize := 16 } .u8 .exact
        (some needle) (noObserver Unit) ()).1 = .error .overflow :=
  ⟨pagedTarget_withinSpace _ _, by decide +kernel⟩

end SpiderScan

end Nemclass.Scan
