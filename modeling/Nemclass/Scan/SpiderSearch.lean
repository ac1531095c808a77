import Nemclass.Lib.LevelSearch
import Nemclass.Lib.Multiples
import Nemclass.Scan.SpiderWindow

/-! What a spider search finds over a constant memory mapped by whole pages. One
slot compares its bytes and admits the struct it points at; so a struct
contributes the matching slots and the fresh children of its slots, a level is
one step of a breadth-first search, and the whole walk is that search cut at
the depth limit. -/
namespace Nemclass.Scan
open Usize Multiples Spans LevelSearch

instance (regions : List Region) (a : ℕ) : Decidable (Mapped regions a) := by
  unfold Mapped
  infer_instance

theorem readWord_le (bytes : List UInt8) : readWord bytes ≤ usizeMax := by
  have hlt := leBytes_lt (bytes.take 8)
  have hle : 256 ^ (bytes.take 8).length ≤ 256 ^ 8 :=
    Nat.pow_le_pow_right (by decide) (List.length_take_le _ _)
  have hmax : 256 ^ 8 = usizeMax + 1 := by decide
  unfold readWord
  omega

namespace SpiderPass
variable {σ : Type} (p : SpiderPass σ) (regions : List Region) (mem : ℕ → UInt8)

/-- The offsets of a struct's slots: on the lattice, from its start on, within the struct. -/
def slotOffsets (n : ℕ) : List ℕ :=
  let first := nextMultipleOf n p.align
  (multiples p.align first (first + p.cfg.structSize)).map (· - n)

theorem mem_slotOffsets {n o : ℕ} : o ∈ p.slotOffsets n ↔ p.align ∣ n + o ∧
    nextMultipleOf n p.align ≤ n + o ∧ n + o < nextMultipleOf n p.align + p.cfg.structSize := by
  have hfirst := le_nextMultipleOf n p.align
  simp only [slotOffsets, List.mem_map, mem_multiples]
  constructor
  · intro h
    obtain ⟨a, ⟨hd, hlo, hhi⟩, rfl⟩ := h
    have hsum : n + (a - n) = a := by omega
    exact ⟨by rwa [hsum], by omega, by omega⟩
  · intro h
    exact ⟨n + o, h, by omega⟩

/-- The offsets from a slot on: the slot, and those from the next one on. -/
theorem offsets_cons {addr off stop : ℕ} (halign : p.align ∣ addr + off) (hlt : off < stop) :
    (multiples p.align (addr + off) (addr + stop)).map (· - addr) =
      [off] ++ (multiples p.align (addr + (off + p.align)) (addr + stop)).map (· - addr) := by
  rw [multiples_cons p.align_pos halign (by omega), List.map_cons, Nat.add_sub_cancel_left,
    Nat.add_assoc, List.singleton_append]

theorem dvd_next_offset {addr off : ℕ} (halign : p.align ∣ addr + off) :
    p.align ∣ addr + (off + p.align) := by
  rw [← Nat.add_assoc]
  exact (Nat.dvd_add_self_right).mpr halign

/-- A slot whose bytes are all mapped and match. -/
def IsHit (n o : ℕ) : Prop :=
  (∀ i < p.needle.stride, Mapped regions (n + o + i)) ∧
    p.needle.compareFirst (memBytes mem (n + o) p.needle.stride) 0 p.compare = true

instance (n o : ℕ) : Decidable (p.IsHit regions mem n o) := by
  unfold IsHit
  infer_instance

/-- The pointer held at an address. -/
def pointer (a : ℕ) : ℕ := readWord (memBytes mem a p.cfg.pointerSize)

/-- A slot holds a mapped, aligned pointer to another struct in a region. -/
def PointsTo (n o w : ℕ) : Prop :=
  p.cfg.pointerSize ∣ n + o ∧ (∀ i < p.cfg.pointerSize, Mapped regions (n + o + i)) ∧
    p.pointer mem (n + o) = w ∧ w ≠ 0 ∧ w ≠ n ∧ Mapped regions w

instance (n o w : ℕ) : Decidable (p.PointsTo regions mem n o w) := by
  unfold PointsTo
  infer_instance

/-- One child step: a slot of the struct points at the child. -/
def Child (n o w : ℕ) : Prop := o ∈ p.slotOffsets n ∧ p.PointsTo regions mem n o w

def hitAt (frame : Frame) (o : ℕ) : SpiderHit :=
  let bytes := memBytes mem (frame.addr + o) p.needle.stride
  ⟨⟨p.root, frame.path, o⟩, bytes, bytes⟩

/-- The hits among the given offsets of a struct. -/
def hitsOf (frame : Frame) (offs : List ℕ) : List SpiderHit :=
  (offs.filter fun o => p.IsHit regions mem frame.addr o).map (p.hitAt mem frame)

/-- The children at the given offsets of a struct, unless it is at the depth limit. -/
def childrenOf (frame : Frame) (offs : List ℕ) : List Frame :=
  if frame.depth < p.cfg.maxDepth then
    (offs.filter fun o => p.PointsTo regions mem frame.addr o (p.pointer mem (frame.addr + o))).map
      fun o => ⟨p.pointer mem (frame.addr + o), frame.depth + 1, frame.path ++ [o]⟩
  else []

/-- What examining some offsets of a struct changes. -/
structure Examines (frame : Frame) (offs : List ℕ) (w w' : SpiderWalk σ) : Prop where
  hits_eq : w'.hits = w.hits ++ p.hitsOf regions mem frame offs
  queue_eq : (w'.visited, w'.next) =
    admitAll Frame.addr (w.visited, w.next) (p.childrenOf regions mem frame offs)
  win_eq : w'.win = w.win
  truncated_eq : w'.truncated = w.truncated
  nodesVisited_eq : w'.nodesVisited = w.nodesVisited
  examined_eq : w'.examined = w.examined

variable {p regions mem}

theorem hitsOf_append (frame : Frame) (offs offs' : List ℕ) :
    p.hitsOf regions mem frame (offs ++ offs') =
      p.hitsOf regions mem frame offs ++ p.hitsOf regions mem frame offs' := by
  rw [hitsOf, List.filter_append, List.map_append, hitsOf, hitsOf]

theorem childrenOf_append (frame : Frame) (offs offs' : List ℕ) :
    p.childrenOf regions mem frame (offs ++ offs') =
      p.childrenOf regions mem frame offs ++ p.childrenOf regions mem frame offs' := by
  unfold childrenOf
  split
  · rw [List.filter_append, List.map_append]
  · rfl

theorem Examines.trans {frame : Frame} {offs offs' : List ℕ} {w w' w'' : SpiderWalk σ}
    (h : p.Examines regions mem frame offs w w') (h' : p.Examines regions mem frame offs' w' w'') :
    p.Examines regions mem frame (offs ++ offs') w w'' where
  hits_eq := by rw [h'.hits_eq, h.hits_eq, hitsOf_append, List.append_assoc]
  queue_eq := by rw [h'.queue_eq, h.queue_eq, childrenOf_append, admitAll_append]
  win_eq := h'.win_eq.trans h.win_eq
  truncated_eq := h'.truncated_eq.trans h.truncated_eq
  nodesVisited_eq := h'.nodesVisited_eq.trans h.nodesVisited_eq
  examined_eq := h'.examined_eq.trans h.examined_eq

/-- Offsets that neither match nor point anywhere change nothing. -/
theorem Examines.idle {frame : Frame} {offs : List ℕ} (w : SpiderWalk σ)
    (h : ∀ o ∈ offs, ¬ p.IsHit regions mem frame.addr o ∧
      ∀ v, ¬ p.PointsTo regions mem frame.addr o v) : p.Examines regions mem frame offs w w := by
  have hhits : p.hitsOf regions mem frame offs = [] := by
    rw [hitsOf, List.map_eq_nil_iff, List.filter_eq_nil_iff]
    intro o ho
    simpa using (h o ho).1
  have hchildren : p.childrenOf regions mem frame offs = [] := by
    unfold childrenOf
    split
    · rw [List.map_eq_nil_iff, List.filter_eq_nil_iff]
      intro o ho
      simpa using (h o ho).2 _
    · rfl
  exact ⟨by rw [hhits, List.append_nil], by rw [hchildren]; rfl, rfl, rfl, rfl, rfl⟩

/-- The searches considered: over constant paged memory, with duplicate structs collapsed, for a
needle no wider than a pointer. -/
structure Searches (p : SpiderPass σ) (regions : List Region) (mem : ℕ → UInt8) : Prop where
  memory : PagedMemory p.target regions mem
  disjoint : regions.Pairwise Region.Disjoint
  ranges_eq : p.ranges = sortedRanges regions
  dedupe : p.cfg.dedupeNodes = true
  stride_pos : 0 < p.needle.stride
  stride_le : p.needle.stride ≤ p.cfg.pointerSize

variable {len : ℕ} {frame : Frame} {cover : Cover} {off : ℕ} {w w' : SpiderWalk σ}

theorem has_iff_mapped {win : List UInt8} (hwin : Window regions mem frame.addr len cover win)
    {need : ℕ} (hpos : 0 < need) (hroom : off + need ≤ len) :
    cover.has off need = true ↔ ∀ i < need, Mapped regions (frame.addr + off + i) := by
  rw [hwin.has_iff off need hpos]
  constructor
  · intro h i hi
    rw [Nat.add_assoc]
    exact h.2 (off + i) (by omega) (by omega)
  · intro h
    refine ⟨hroom, fun i hlo hhi => ?_⟩
    have hi := h (i - off) (by omega)
    rwa [show frame.addr + off + (i - off) = frame.addr + i by omega] at hi

/-- What a window shows at a slot that fits in it is what the memory holds there. -/
theorem windowHits_slot (hp : p.Searches regions mem) {win : List UInt8}
    (hwin : Window regions mem frame.addr len cover win) (hroom : off + p.cfg.pointerSize ≤ len) :
    p.windowHits frame cover win [off] = p.hitsOf regions mem frame [off] := by
  have hfits : off + p.needle.stride ≤ _ :=
    Nat.le_trans (Nat.add_le_add_left hp.stride_le off) hroom
  have hhas := has_iff_mapped hwin hp.stride_pos hfits
  have hslot : p.slotHit cover win off = true ↔ p.IsHit regions mem frame.addr off := by
    rw [slotHit, Bool.and_eq_true, IsHit, ← hhas]
    refine and_congr_right fun hread => ?_
    obtain ⟨hin, hbytes⟩ := hwin.bytes hp.stride_pos hread
    rw [← hbytes]
    exact Bool.eq_iff_iff.mp (p.needle.compare_window hin p.compare none)
  by_cases hmatch : p.IsHit regions mem frame.addr off
  · have hbytes := (hwin.bytes hp.stride_pos (hhas.mpr hmatch.1)).2
    rw [windowHits, List.filter_cons_of_pos (hslot.mpr hmatch), hitsOf,
      List.filter_cons_of_pos (by simpa using hmatch)]
    simp [hitAt, hbytes]
  · rw [windowHits, List.filter_cons_of_neg (mt hslot.mp hmatch), hitsOf,
      List.filter_cons_of_neg (by simpa using hmatch)]
    rfl

theorem isMapped_ranges (hp : p.Searches regions mem) (a : ℕ) :
    isMapped p.ranges (p.pointer mem a) = true ↔ Mapped regions (p.pointer mem a) := by
  rw [hp.ranges_eq]
  exact isMapped_iff hp.disjoint (readWord_le _)

theorem childrenOf_singleton (hdepth : frame.depth < p.cfg.maxDepth) :
    p.childrenOf regions mem frame [off] =
      if p.PointsTo regions mem frame.addr off (p.pointer mem (frame.addr + off)) then
        [⟨p.pointer mem (frame.addr + off), frame.depth + 1, frame.path ++ [off]⟩]
      else [] := by
  unfold childrenOf
  rw [if_pos hdepth]
  by_cases hpoints : p.PointsTo regions mem frame.addr off (p.pointer mem (frame.addr + off))
  · simp [hpoints]
  · simp [hpoints]

/-- A slot points to the word it holds when it passes the tests of the pointer branch. -/
theorem pointsTo_iff (hp : p.Searches regions mem) {win : List UInt8}
    (hwin : Window regions mem frame.addr len cover win) (hroom : off + p.cfg.pointerSize ≤ len) :
    p.PointsTo regions mem frame.addr off (p.pointer mem (frame.addr + off)) ↔
      ((frame.addr + off) % p.cfg.pointerSize = 0 ∧ cover.has off p.cfg.pointerSize = true) ∧
        (p.pointer mem (frame.addr + off) ≠ 0 ∧ p.pointer mem (frame.addr + off) ≠ frame.addr) ∧
          isMapped p.ranges (p.pointer mem (frame.addr + off)) = true := by
  have hsize : 0 < p.cfg.pointerSize := Nat.lt_of_lt_of_le hp.stride_pos hp.stride_le
  rw [has_iff_mapped hwin hsize hroom, isMapped_ranges hp, ← Nat.dvd_iff_mod_eq_zero, and_assoc,
    and_assoc, PointsTo]
  exact and_congr_right fun _ => and_congr_right fun _ => and_iff_right rfl

/-- What the branch does with the word of one slot, given that no address overflows. -/
theorem pointerBranch_word (hp : p.Searches regions mem)
    (hwin : Window regions mem frame.addr len cover w.win) (hroom : off + p.cfg.pointerSize ≤ len)
    (hslot : checkedAdd frame.addr off = some (frame.addr + off))
    (hdepth : frame.depth < p.cfg.maxDepth) :
    p.pointerBranch frame cover off w =
      if p.PointsTo regions mem frame.addr off (p.pointer mem (frame.addr + off)) then
        if p.pointer mem (frame.addr + off) ∈ w.visited then some w
        else some { w with
          visited := insert (p.pointer mem (frame.addr + off)) w.visited
          next := w.next ++
            [⟨p.pointer mem (frame.addr + off), frame.depth + 1, frame.path ++ [off]⟩] }
      else some w := by
  have hsize : 0 < p.cfg.pointerSize := Nat.lt_of_lt_of_le hp.stride_pos hp.stride_le
  have hpoints := pointsTo_iff hp hwin hroom
  by_cases hread : (frame.addr + off) % p.cfg.pointerSize = 0 ∧
      cover.has off p.cfg.pointerSize = true
  · have hword : readWord ((w.win.drop off).take p.cfg.pointerSize) =
        p.pointer mem (frame.addr + off) := congrArg readWord (hwin.bytes hsize hread.2).2
    rw [and_iff_right hread] at hpoints
    simp only [pointerBranch, hslot, if_pos hdepth, hread.1, hread.2, decide_true, Bool.and_self,
      if_true, hword, hp.dedupe, Bool.and_eq_true, decide_eq_true_eq, hpoints]
  · rw [if_neg fun h => hread (hpoints.mp h).1]
    simp only [pointerBranch, hslot, if_pos hdepth, Bool.and_eq_true, decide_eq_true_eq,
      if_neg hread]

theorem pointerBranch_eq (hp : p.Searches regions mem)
    (hwin : Window regions mem frame.addr len cover w.win) (hroom : off + p.cfg.pointerSize ≤ len)
    (h : p.pointerBranch frame cover off w = some w') :
    ∃ visited next, w' = { w with visited, next } ∧ (visited, next) =
      admitAll Frame.addr (w.visited, w.next) (p.childrenOf regions mem frame [off]) := by
  by_cases hdepth : frame.depth < p.cfg.maxDepth
  · rw [childrenOf_singleton hdepth]
    cases hslot : checkedAdd frame.addr off with
    | none => simp [pointerBranch, hdepth, hslot] at h
    | some slot =>
      obtain rfl := (checkedAdd_eq_some.mp hslot).1
      rw [pointerBranch_word hp hwin hroom hslot hdepth] at h
      split at h
      · rename_i hpoints
        rw [if_pos hpoints]
        split at h
        · rename_i hseen
          rw [Option.some.injEq] at h
          exact ⟨w.visited, w.next, h.symm, (if_pos hseen).symm⟩
        · rename_i hfresh
          rw [Option.some.injEq] at h
          exact ⟨_, _, h.symm, (if_neg hfresh).symm⟩
      · rename_i hpoints
        rw [Option.some.injEq] at h
        rw [if_neg hpoints]
        exact ⟨w.visited, w.next, h.symm, rfl⟩
  · have hnone : p.childrenOf regions mem frame [off] = [] := if_neg hdepth
    simp only [pointerBranch, if_neg hdepth, Option.some.injEq] at h
    rw [hnone]
    exact ⟨w.visited, w.next, h.symm, rfl⟩

/-- One slot of the loop. -/
theorem slot_examines (hp : p.Searches regions mem)
    (hwin : Window regions mem frame.addr len cover w.win) (hroom : off + p.cfg.pointerSize ≤ len)
    {w₁ w₂ : SpiderWalk σ} (hvalue : p.valueBranch frame cover off w = (false, w₁))
    (hpointer : p.pointerBranch frame cover off w₁ = some w₂) :
    p.Examines regions mem frame [off] w w₂ := by
  have heq := (p.valueBranch_spec hvalue).1
  rw [windowHits_slot hp hwin hroom] at heq
  have hwin₁ : Window regions mem frame.addr len cover w₁.win := heq ▸ hwin
  obtain ⟨visited, next, rfl, hqueue⟩ := pointerBranch_eq hp hwin₁ hroom hpointer
  subst heq
  exact ⟨rfl, hqueue, rfl, rfl, rfl, rfl⟩

/-- Slots past the cover's limit neither match nor point anywhere. -/
theorem past_limit (hp : p.Searches regions mem) {win : List UInt8}
    (hwin : Window regions mem frame.addr len cover win) (hroom : off + p.cfg.pointerSize ≤ len)
    (hlimit : cover.limit ≤ off) : ¬ p.IsHit regions mem frame.addr off ∧
      ∀ v, ¬ p.PointsTo regions mem frame.addr off v := by
  have hsize : 0 < p.cfg.pointerSize := Nat.lt_of_lt_of_le hp.stride_pos hp.stride_le
  have hvalue := has_iff_mapped hwin hp.stride_pos
    (Nat.le_trans (Nat.add_le_add_left hp.stride_le off) hroom)
  have hpointer := has_iff_mapped hwin hsize hroom
  constructor
  · intro h
    have := hwin.has_lt off _ hp.stride_pos (hvalue.mpr h.1)
    omega
  · intro v h
    have := hwin.has_lt off _ hsize (hpointer.mpr h.2.1)
    omega

theorem slots_examines (hp : p.Searches regions mem) {windowEnd : ℕ}
    (hwin : Window regions mem frame.addr len cover w.win) (halign : p.align ∣ frame.addr + off)
    (hroom : ∀ o < windowEnd, o + p.cfg.pointerSize ≤ len)
    (h : p.slots frame cover windowEnd off w = (.go, w')) :
    p.Examines regions mem frame
      ((multiples p.align (frame.addr + off) (frame.addr + windowEnd)).map (· - frame.addr)) w w' := by
  fun_induction p.slots frame cover windowEnd off w with
  | case1 | case2 | case3 => simp at h
  | case4 off w hlt w₁ hvalue w₂ hpointer next hnext ih =>
    have hslot := slot_examines hp hwin (hroom off hlt.1) hvalue hpointer
    obtain rfl := (checkedAdd_eq_some.mp hnext).1
    have hrest := ih (hslot.win_eq ▸ hwin) (p.dvd_next_offset halign) h
    rw [p.offsets_cons halign hlt.1]
    exact hslot.trans hrest
  | case5 off w hend =>
    rw [Prod.mk.injEq] at h
    rw [← h.2]
    refine Examines.idle w fun o ho => ?_
    obtain ⟨a, ha, rfl⟩ := List.mem_map.mp ho
    have ha := mem_multiples.mp ha
    exact past_limit hp hwin (hroom _ (by omega)) (by omega)

/-- What examining one struct changes besides the window it was read through. -/
structure Visits (p : SpiderPass σ) (regions : List Region) (mem : ℕ → UInt8) (frames : List Frame)
    (w w' : SpiderWalk σ) : Prop where
  hits_eq : w'.hits = w.hits ++ frames.flatMap fun f => p.hitsOf regions mem f (p.slotOffsets f.addr)
  queue_eq : (w'.visited, w'.next) = admitAll Frame.addr (w.visited, w.next)
    (frames.flatMap fun f => p.childrenOf regions mem f (p.slotOffsets f.addr))
  win_eq : w'.win.length = w.win.length
  truncated_eq : w'.truncated = w.truncated
  nodesVisited_eq : w'.nodesVisited = w.nodesVisited + frames.length
  examined_eq : w'.examined = w.examined ++ frames

theorem walkWindow_examines (hp : p.Searches regions mem)
    (hwin : Window regions mem frame.addr len cover w.win)
    (hlen : len = p.cfg.structSize + p.cfg.pointerSize + p.align)
    (h : p.walkWindow frame cover w = (.go, w')) :
    p.Examines regions mem frame (p.slotOffsets frame.addr) w w' := by
  have hfirst := le_nextMultipleOf frame.addr p.align
  have hnear := nextMultipleOf_lt frame.addr p.align_pos
  unfold walkWindow at h
  by_cases hlimit : cover.limit = 0
  · rw [if_pos hlimit, Prod.mk.injEq] at h
    rw [← h.2]
    refine Examines.idle w fun o ho => ?_
    have ho := p.mem_slotOffsets.mp ho
    exact past_limit hp hwin (by omega) (by omega)
  · rw [if_neg hlimit] at h
    split at h
    · simp at h
    · rename_i first hnext
      obtain rfl := (checked_eq_some.mp hnext).1
      dsimp only at h
      split at h
      · simp at h
      · rename_i windowEnd hend
        obtain rfl := (checkedAdd_eq_some.mp hend).1
        have hstart : frame.addr + (nextMultipleOf frame.addr p.align - frame.addr) =
            nextMultipleOf frame.addr p.align := by omega
        have hslots := slots_examines hp hwin
          (by rw [hstart]; exact dvd_nextMultipleOf _ p.align_pos) (fun o ho => by omega) h
        rw [← Nat.add_assoc, hstart] at hslots
        exact hslots

theorem tick_frame {queued : ℕ} {go : Bool} (h : p.tick queued w = (go, w')) :
    ∃ world, w' = { w with world } := by
  unfold tick at h
  split at h
  · rw [Prod.mk.injEq] at h
    exact ⟨_, h.2.symm⟩
  · rw [Prod.mk.injEq] at h
    exact ⟨w.world, h.2.symm⟩

theorem examine_visits (hp : p.Searches regions mem) {queued : ℕ}
    (hlen : w.win.length = p.cfg.structSize + p.cfg.pointerSize + p.align)
    (hmax : w.win.length ≤ usizeMax) (h : p.examine queued frame w = (.go, w')) :
    p.Visits regions mem [frame] w w' := by
  unfold examine at h
  by_cases hnodes : p.cfg.maxNodes ≤ w.nodesVisited
  · simp [hnodes] at h
  · rw [if_neg hnodes] at h
    split at h
    · simp at h
    · rename_i w₁ htick
      obtain ⟨world₁, rfl⟩ := tick_frame htick
      split at h
      · simp at h
      · rename_i cover win world hread
        have hwin := readWindow_window hp.memory hmax hread
        have hexamines := walkWindow_examines hp hwin hlen h
        constructor
        · simpa using hexamines.hits_eq
        · simpa using hexamines.queue_eq
        · rw [hexamines.win_eq]
          exact hwin.length_eq
        · exact hexamines.truncated_eq
        · exact hexamines.nodesVisited_eq
        · exact hexamines.examined_eq

theorem level_visits (hp : p.Searches regions mem) (frontier : List Frame)
    (hlen : w.win.length = p.cfg.structSize + p.cfg.pointerSize + p.align)
    (hmax : w.win.length ≤ usizeMax) (h : p.level frontier w = (.go, w')) :
    p.Visits regions mem frontier w w' := by
  induction frontier generalizing w with
  | nil =>
    simp only [level, Prod.mk.injEq] at h
    rw [← h.2]
    exact ⟨by simp, rfl, rfl, rfl, rfl, by simp⟩
  | cons frame rest ih =>
    unfold level at h
    split at h
    · rename_i w₁ hexamine
      have hhere := examine_visits hp hlen hmax hexamine
      have hrest := ih (hhere.win_eq.trans hlen) (hhere.win_eq ▸ hmax) h
      constructor
      · rw [hrest.hits_eq, hhere.hits_eq, List.append_assoc, ← List.flatMap_append,
          List.singleton_append]
      · rw [hrest.queue_eq, hhere.queue_eq, ← admitAll_append, ← List.flatMap_append,
          List.singleton_append]
      · exact hrest.win_eq.trans hhere.win_eq
      · exact hrest.truncated_eq.trans hhere.truncated_eq
      · rw [hrest.nodesVisited_eq, hhere.nodesVisited_eq]
        simp only [List.length_cons, List.length_nil]
        omega
      · rw [hrest.examined_eq, hhere.examined_eq, List.append_assoc, List.singleton_append]
    · rename_i hstopped
      exact absurd h (hstopped w')

/-- The children of a struct above the depth limit are its child steps. -/
theorem childrenOf_expands (hdepth : frame.depth < p.cfg.maxDepth) :
    Expands (p.Child regions mem) Frame.addr Frame.path
      (fun f => p.childrenOf regions mem f (p.slotOffsets f.addr)) frame where
  sound y hy := by
    simp only [childrenOf, if_pos hdepth, List.mem_map, List.mem_filter, decide_eq_true_eq] at hy
    obtain ⟨o, ⟨ho, hpoints⟩, rfl⟩ := hy
    exact ⟨o, ⟨ho, hpoints⟩, rfl⟩
  complete o b h := by
    have hvalue : p.pointer mem (frame.addr + o) = b := h.2.2.2.1
    refine ⟨⟨b, frame.depth + 1, frame.path ++ [o]⟩, ?_, rfl⟩
    simp only [childrenOf, if_pos hdepth, List.mem_map, List.mem_filter, decide_eq_true_eq]
    exact ⟨o, ⟨h.1, hvalue ▸ h.2⟩, by rw [hvalue]⟩

theorem childrenOf_depth {offs : List ℕ} {f : Frame} (h : f ∈ p.childrenOf regions mem frame offs) :
    f.depth = frame.depth + 1 := by
  unfold childrenOf at h
  split at h
  · obtain ⟨o, _, rfl⟩ := List.mem_map.mp h
    rfl
  · simp at h

/-- What the search has found when it examined the structs within a distance. -/
structure Found (p : SpiderPass σ) (regions : List Region) (mem : ℕ → UInt8) (d : ℕ)
    (w : SpiderWalk σ) : Prop where
  explored : Explored (p.Child regions mem) p.root Frame.addr Frame.path d w.examined
  hits_eq : w.hits = w.examined.flatMap fun f => p.hitsOf regions mem f (p.slotOffsets f.addr)
  nodesVisited_eq : w.nodesVisited = w.examined.length
  win_eq : w.win.length = p.cfg.structSize + p.cfg.pointerSize + p.align
  win_le : w.win.length ≤ usizeMax

/-- A frontier: the structs at one distance, with everything nearer examined. -/
structure Frontier (p : SpiderPass σ) (regions : List Region) (mem : ℕ → UInt8) (d : ℕ)
    (frontier : List Frame) (w : SpiderWalk σ) : Prop where
  found : p.Found regions mem d w
  level : Level (p.Child regions mem) p.root Frame.addr Frame.path d w.visited frontier
  depth : ∀ f ∈ frontier, f.depth = d

section Level
variable {d : ℕ} {frontier : List Frame}

theorem Frontier.found_next (hf : p.Frontier regions mem d frontier w)
    (h : p.Visits regions mem frontier { w with next := [] } w') : p.Found regions mem (d + 1) w' where
  explored := by
    rw [h.examined_eq]
    exact hf.found.explored.append hf.level
  hits_eq := by rw [h.hits_eq, h.examined_eq, List.flatMap_append, ← hf.found.hits_eq]
  nodesVisited_eq := by
    rw [h.nodesVisited_eq, h.examined_eq, List.length_append, ← hf.found.nodesVisited_eq]
  win_eq := h.win_eq.trans hf.found.win_eq
  win_le := h.win_eq ▸ hf.found.win_le

theorem Frontier.next (hf : p.Frontier regions mem d frontier w) (hd : d < p.cfg.maxDepth)
    (h : p.Visits regions mem frontier { w with next := [] } w') :
    p.Frontier regions mem (d + 1) w'.next w' where
  found := hf.found_next h
  level := by
    have hexpands (f : Frame) (hin : f ∈ frontier) : Expands (p.Child regions mem) Frame.addr
        Frame.path (fun f => p.childrenOf regions mem f (p.slotOffsets f.addr)) f :=
      childrenOf_expands ((hf.depth f hin).symm ▸ hd)
    have hlevel := hf.level.next hexpands
    rw [← h.queue_eq] at hlevel
    exact hlevel
  depth f hin := by
    obtain ⟨new, hqueue, hnew⟩ := admitAll_admitted Frame.addr w.visited []
      (frontier.flatMap fun f => p.childrenOf regions mem f (p.slotOffsets f.addr))
    rw [← h.queue_eq] at hqueue
    rw [List.nil_append] at hqueue
    obtain ⟨g, hg, hchild⟩ := List.mem_flatMap.mp (hnew.subset f (hqueue ▸ hin))
    rw [childrenOf_depth hchild, hf.depth g hg]

/-- Nothing is queued at the depth limit. -/
theorem Frontier.last (hf : p.Frontier regions mem d frontier w) (hd : ¬ d < p.cfg.maxDepth)
    (h : p.Visits regions mem frontier { w with next := [] } w') : w'.next = [] := by
  have hnone :
      (frontier.flatMap fun f => p.childrenOf regions mem f (p.slotOffsets f.addr)) = [] := by
    rw [List.flatMap_eq_nil_iff]
    exact fun f hin => if_neg ((hf.depth f hin).symm ▸ hd)
  have hqueue := h.queue_eq
  rw [hnone] at hqueue
  exact congrArg Prod.snd hqueue

/-- A finished search has examined the structs up to the depth limit. -/
theorem search_found (hp : p.Searches regions mem) (hf : p.Frontier regions mem d frontier w)
    (hd : d ≤ p.cfg.maxDepth) (h : p.search frontier w = (.go, w')) :
    p.Found regions mem (p.cfg.maxDepth + 1) w' ∧ w'.truncated = w.truncated := by
  fun_induction p.search frontier w generalizing d with
  | case1 w =>
    rw [Prod.mk.injEq] at h
    rw [← h.2]
    exact ⟨{ hf.found with explored := hf.found.explored.of_empty hf.level (by omega) }, rfl⟩
  | case2 frontier w hne w₁ hlevel ih =>
    have hvisits := level_visits (w := { w with next := [] }) hp frontier hf.found.win_eq
      hf.found.win_le hlevel
    by_cases hlt : d < p.cfg.maxDepth
    · have hrest := ih (hf.next hlt hvisits) hlt h
      exact ⟨hrest.1, hrest.2.trans hvisits.truncated_eq⟩
    · have hlast := hf.last hlt hvisits
      have hd : d = p.cfg.maxDepth := by omega
      rw [hlast, search, dif_pos rfl, Prod.mk.injEq] at h
      rw [← h.2, ← hd]
      exact ⟨hf.found_next hvisits, hvisits.truncated_eq⟩
  | case3 frontier w hne hstopped =>
    exact absurd h (hstopped w')

end Level

section Exit
variable (p)

/-- How a walk may end when nobody cancels it: a full result is marked as truncated. -/
def EndsWell (r : SpiderExit × SpiderWalk σ) : Prop :=
  r.1 ≠ .cancelled ∧ (r.1 = .full → r.2.truncated = true)

theorem endsWell_of_ne {exit : SpiderExit} {w : SpiderWalk σ} (h : exit ≠ .cancelled)
    (h' : exit ≠ .full) : EndsWell (exit, w) := ⟨h, fun heq => absurd heq h'⟩

theorem slots_endsWell (frame : Frame) (cover : Cover) (windowEnd off : ℕ) (w : SpiderWalk σ) :
    EndsWell (p.slots frame cover windowEnd off w) := by
  fun_induction p.slots frame cover windowEnd off w with
  | case1 off w _ w₁ hvalue =>
    refine ⟨by simp, fun _ => ?_⟩
    show w₁.truncated = true
    rw [(p.valueBranch_spec hvalue).1]
    rfl
  | case2 => exact endsWell_of_ne (by simp) (by simp)
  | case3 => exact endsWell_of_ne (by simp) (by simp)
  | case4 _ _ _ _ _ _ _ _ _ ih => exact ih
  | case5 => exact endsWell_of_ne (by simp) (by simp)

theorem walkWindow_endsWell (frame : Frame) (cover : Cover) (w : SpiderWalk σ) :
    EndsWell (p.walkWindow frame cover w) := by
  unfold walkWindow
  split
  · exact endsWell_of_ne (by simp) (by simp)
  · split
    · exact endsWell_of_ne (by simp) (by simp)
    · dsimp only
      split
      · exact endsWell_of_ne (by simp) (by simp)
      · exact p.slots_endsWell frame _ _ _ _

variable (hobserver : p.observer.NeverStops)
include hobserver

theorem tick_goes (queued : ℕ) (w : SpiderWalk σ) : (p.tick queued w).1 = true := by
  unfold tick
  split
  · exact hobserver _ _
  · rfl

theorem examine_endsWell (queued : ℕ) (frame : Frame) (w : SpiderWalk σ) :
    EndsWell (p.examine queued frame w) := by
  unfold examine
  split
  · exact ⟨nofun, fun _ => rfl⟩
  · have hgoes := p.tick_goes hobserver queued
      { w with nodesVisited := w.nodesVisited + 1, examined := w.examined ++ [frame] }
    split
    · rename_i heq
      simp [heq] at hgoes
    · split
      · exact endsWell_of_ne nofun nofun
      · exact p.walkWindow_endsWell frame _ _

theorem level_endsWell (frontier : List Frame) (w : SpiderWalk σ) :
    EndsWell (p.level frontier w) := by
  induction frontier generalizing w with
  | nil => exact endsWell_of_ne nofun nofun
  | cons frame rest ih =>
    unfold level
    split
    · exact ih _
    · exact p.examine_endsWell hobserver rest.length frame w

theorem search_endsWell (frontier : List Frame) (w : SpiderWalk σ) :
    EndsWell (p.search frontier w) := by
  fun_induction p.search frontier w with
  | case1 => exact endsWell_of_ne nofun nofun
  | case2 _ _ _ _ _ ih => exact ih
  | case3 frontier w =>
    exact p.level_endsWell hobserver frontier _

end Exit

end SpiderPass

section SpiderScan
variable {σ : Type} {target : ScanTarget σ} {regions : List Region} {mem : ℕ → UInt8}

/-- What a search finds: exactly the structs within the depth limit, each once and by a shortest
path, and exactly their matching slots. -/
structure Finds (pass : SpiderPass σ) (regions : List Region) (mem : ℕ → UInt8)
    (r : SpiderScanResult) : Prop where
  explored : Explored (pass.Child regions mem) pass.root Frame.addr Frame.path
    (pass.cfg.maxDepth + 1) r.examined
  nodesVisited_eq : r.nodesVisited = r.examined.length
  hits_eq : r.hits = r.examined.flatMap fun f =>
    pass.hitsOf regions mem f (pass.slotOffsets f.addr)

/-- The frontier a search starts from. -/
theorem start_frontier (pass : SpiderPass σ) {len : ℕ}
    (hlen : windowLen pass.cfg pass.needle = some len)
    (halign : pass.align = spiderAlign pass.cfg pass.needle)
    (world : σ) : pass.Frontier regions mem 0 [⟨pass.root, 0, []⟩]
      { world, win := List.replicate len 0, visited := {pass.root} } := by
  simp only [windowLen, Option.bind_eq_bind, Option.bind_eq_some_iff] at hlen
  obtain ⟨_, hstruct, hlen⟩ := hlen
  obtain rfl := (checkedAdd_eq_some.mp hstruct).1
  have hlen := checkedAdd_eq_some.mp hlen
  refine ⟨⟨.zero, rfl, rfl, ?_, ?_⟩, .zero rfl rfl, by simp⟩
  · rw [List.length_replicate, halign, hlen.1]
  · rw [List.length_replicate, ← hlen.1]
    exact hlen.2

theorem checkSpider_eq_ok {valueType : ScanValueType} {compare : ScanCompareType}
    {needle n : Needle} (h : checkSpider valueType compare (some needle) = .ok n) :
    n = needle ∧ needle.valueType = valueType ∧ 0 < needle.stride ∧ compare.isBaseline = false ∧
      compare.needsPrevious = false := by
  unfold checkSpider at h
  split_ifs at h with hbaseline hprevious
  dsimp only at h
  split_ifs at h with htype hstride
  cases h
  exact ⟨rfl, not_not.mp htype, Nat.pos_of_ne_zero hstride, by simpa using hbaseline,
    by simpa using hprevious⟩

theorem stride_pos_of_checkSpider {valueType : ScanValueType} {compare : ScanCompareType}
    {needle : Needle} (h : checkSpider valueType compare (some needle) = .ok needle) :
    0 < needle.stride := (checkSpider_eq_ok h).2.2.1

section Witness

theorem length_nil_le (len : ℕ) : ([] : List UInt8).length ≤ len := Nat.zero_le _

theorem memBytes_length_le (mem : ℕ → UInt8) (addr len : ℕ) :
    (memBytes mem addr len).length ≤ len := (memBytes_length mem addr len).le

/-- A target over a memory mapped by the given regions. -/
def pagedTarget (regions : List Region) (mem : ℕ → UInt8) : ScanTarget Unit where
  regions world := (.ok regions, world)
  read world addr len :=
    if ∀ i < len, Mapped regions (addr + i) then
      (.ok ⟨memBytes mem addr len, memBytes_length_le mem addr len⟩, world)
    else (.ok ⟨[], length_nil_le len⟩, world)

theorem pagedTarget_memory {regions : List Region}
    (hpages : ∀ r ∈ regions, page ∣ r.base ∧ page ∣ r.stop) (mem : ℕ → UInt8) :
    PagedMemory (pagedTarget regions mem) regions mem where
  paged a b hsame h := by
    obtain ⟨r, hr, hlo, hhi⟩ := h
    obtain ⟨⟨k, hk⟩, ⟨l, hl⟩⟩ := hpages r hr
    have hpos : 0 < page := by decide
    have hlo' : k ≤ a / page := (Nat.le_div_iff_mul_le hpos).mpr (by rw [Nat.mul_comm]; omega)
    have hhi' : a / page < l := (Nat.div_lt_iff_lt_mul hpos).mpr (by rw [Nat.mul_comm]; omega)
    rw [hsame] at hlo' hhi'
    refine ⟨r, hr, ?_, ?_⟩
    · rw [hk, Nat.mul_comm]
      exact (Nat.le_div_iff_mul_le hpos).mp hlo'
    · rw [hl, Nat.mul_comm]
      exact (Nat.div_lt_iff_lt_mul hpos).mp hhi'
  fills world addr len hall := ⟨_, _, if_pos hall, rfl⟩
  withholds world addr len hhole buf world' h := by
    obtain ⟨i, hi, hi'⟩ := hhole
    have hread : (pagedTarget regions mem).read world addr len = _ := if_neg fun hall => hi' (hall i hi)
    rw [hread, Prod.mk.injEq, Except.ok.injEq] at h
    rw [← h.1]

/-- Two structs that point at each other, the second with the value 7 at its offset 8. -/
def twoStructs (a : ℕ) : UInt8 :=
  if a = 0x1001 then 0x10 else if a = 0x1000 then 0x20
  else if a = 0x1021 then 0x10 else if a = 0x1028 then 7 else 0

end Witness

end SpiderScan

end Nemclass.Scan
