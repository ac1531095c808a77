import Nemclass.Scan.PointerHarvest

/-! What a harvest records over a target that fills every read: each word of each
region in turn, the words at which two chunks meet and the last one of a longer
region twice. After the sort, whatever it does with equal values, every pointer
is in the map once exactly when no word that is read twice shares its value. -/
namespace Nemclass.Scan
open Usize Multiples KeySort

namespace PointerScanConfig
variable (cfg : PointerScanConfig)

/-- The value held at an address. -/
def word (mem : ℕ → UInt8) (a : ℕ) : ℕ := readWord (memBytes mem a cfg.psize)

/-- An aligned address whose whole word lies in the region. -/
def SlotOf (r : Region) (a : ℕ) : Prop := cfg.align ∣ a ∧ r.base ≤ a ∧ a + cfg.psize ≤ r.stop

/-- The slots of a window. -/
def windowSlots (w : ℕ × ℕ) : List ℕ := multiples cfg.align w.1 (w.1 + w.2 + 1 - cfg.psize)

/-- The windows of a region from `pos` on, with their lengths. -/
def windows (bufLen stop pos : ℕ) : List (ℕ × ℕ) :=
  if pos < stop then
    let want := min (stop - pos) bufLen
    if want < cfg.psize then []
    else if want ≤ cfg.psize then [(pos, want)]
    else (pos, want) :: windows bufLen stop (pos + (want - cfg.psize))
  else []
termination_by stop - pos
decreasing_by
  have := cfg.psize_pos
  omega

def regionWindows (r : Region) : List (ℕ × ℕ) := cfg.windows (chunk + cfg.psize) r.stop r.base

/-- The slots of a region as they are read, some of them twice. -/
def regionSlots (r : Region) : List ℕ := (cfg.regionWindows r).flatMap cfg.windowSlots

/-- The address computations of a window's slot loop stay in the address space: its first slot
and the first one past it. -/
def WindowFits (w : ℕ × ℕ) : Prop :=
  nextMultipleOf w.1 cfg.align ≤ usizeMax ∧
    nextMultipleOf (w.1 + w.2 + 1 - cfg.psize) cfg.align - w.1 + cfg.psize ≤ usizeMax

def RegionFits (r : Region) : Prop := ∀ w ∈ cfg.regionWindows r, cfg.WindowFits w

/-- A slot that lies in two chunks of its region, or is its last word behind another one. -/
def ReadTwice (r : Region) (a : ℕ) : Prop :=
  cfg.SlotOf r a ∧ r.base < a ∧ (chunk ∣ a - r.base ∨ a + cfg.psize = r.stop)

/-- The pointers among some slots. -/
def pointersAt (ranges : List Range) (mem : ℕ → UInt8) (slots : List ℕ) : List (ℕ × ℕ) :=
  (slots.filter fun a => isMapped ranges (cfg.word mem a)).map fun a => (cfg.word mem a, a)

theorem pointersAt_append (ranges : List Range) (mem : ℕ → UInt8) (slots slots' : List ℕ) :
    cfg.pointersAt ranges mem (slots ++ slots') =
      cfg.pointersAt ranges mem slots ++ cfg.pointersAt ranges mem slots' := by
  rw [pointersAt, List.filter_append, List.map_append, pointersAt, pointersAt]

theorem pointersAt_singleton (ranges : List Range) (mem : ℕ → UInt8) (a : ℕ) :
    cfg.pointersAt ranges mem [a] =
      if isMapped ranges (cfg.word mem a) then [(cfg.word mem a, a)] else [] := by
  unfold pointersAt
  split <;> simp [*]

end PointerScanConfig

section Harvested
variable {σ : Type}

/-- How a stretch of the harvest ends: it has recorded some pointers and its addresses fit, or
it was capped, or some address did not fit. -/
def Harvested (fits : Prop) (found : List (ℕ × ℕ)) (h : Harvest σ) :
    HarvestExit × Harvest σ → Prop
  | (.go, h') => fits ∧ h'.entries = h.entries ++ found
  | (.capped, _) => True
  | (.overflow, _) => ¬ fits
  | (.failed _, _) => False

variable {fits fits' : Prop} {found found' : List (ℕ × ℕ)} {h h' : Harvest σ}

theorem Harvested.nil (hfits : fits) : Harvested fits [] h (.go, h) := by
  simp [Harvested, hfits]

theorem Harvested.trans {out : HarvestExit × Harvest σ} (hone : Harvested fits found h (.go, h'))
    (htwo : Harvested fits' found' h' out) : Harvested (fits ∧ fits') (found ++ found') h out := by
  obtain ⟨hfits, hentries⟩ := hone
  match out, htwo with
  | (.go, _), htwo => exact ⟨⟨hfits, htwo.1⟩, by rw [htwo.2, hentries, List.append_assoc]⟩
  | (.capped, _), _ => trivial
  | (.overflow, _), htwo => exact fun hboth => htwo hboth.2

/-- What stops a stretch stops a longer one. -/
theorem Harvested.stop {exit : HarvestExit} (hone : Harvested fits found h (exit, h'))
    (hstop : exit ≠ .go) : Harvested (fits ∧ fits') (found ++ found') h (exit, h') := by
  cases exit with
  | go => exact absurd rfl hstop
  | capped => trivial
  | overflow => exact fun hboth => hone hboth.1
  | failed e => exact hone

theorem Harvested.congr {out : HarvestExit × Harvest σ} (hone : Harvested fits found h out)
    (hfits : fits' ↔ fits) (hfound : found' = found) : Harvested fits' found' h out := by
  obtain rfl := hfound
  rwa [propext hfits]

end Harvested

section Window
variable {σ : Type} {cfg : PointerScanConfig} {ranges : List Range} {mem : ℕ → UInt8}

variable (cfg ranges mem) in
theorem record_harvested (pos i : ℕ) (hpos : pos + i ≤ usizeMax) (h : Harvest σ) :
    Harvested True (cfg.pointersAt ranges mem [pos + i]) h
      (record cfg ranges pos i (memBytes mem (pos + i) cfg.psize) h) := by
  unfold record
  split
  · rename_i hnone
    rw [checkedAdd_of_le hpos] at hnone
    cases hnone
  · rename_i addr haddr
    obtain ⟨rfl, -⟩ := checkedAdd_eq_some.mp haddr
    rw [cfg.pointersAt_singleton, PointerScanConfig.word]
    split
    · dsimp only
      split
      · trivial
      · exact ⟨trivial, rfl⟩
    · exact ⟨trivial, (List.append_nil _).symm⟩

variable (cfg ranges mem) in
/-- From an aligned slot on, a window records its pointers; `past` is the first slot past it. -/
theorem harvestWindow_harvested {pos n past : ℕ} (hend : pos + n ≤ usizeMax)
    (hpast : past = nextMultipleOf (pos + n + 1 - cfg.psize) cfg.align) (i : ℕ) (h : Harvest σ)
    (hi : cfg.align ∣ pos + i) :
    Harvested (max (pos + i) past - pos + cfg.psize ≤ usizeMax)
      (cfg.pointersAt ranges mem (multiples cfg.align (pos + i) (pos + n + 1 - cfg.psize))) h
      (harvestWindow cfg ranges pos (memBytes mem pos n) i h) := by
  have halign := cfg.align_pos
  have hpsize := cfg.psize_pos
  have hge := le_nextMultipleOf (pos + n + 1 - cfg.psize) cfg.align
  have hdvd := dvd_nextMultipleOf (pos + n + 1 - cfg.psize) halign
  rw [← hpast] at hge hdvd
  -- Inside the window the next slot is at most the first one past it.
  have hlater {i : ℕ} (hi : cfg.align ∣ pos + i) (hle : i + cfg.psize ≤ n) :
      pos + i + cfg.align ≤ past := by
    have hstep := Nat.le_of_dvd (by omega) (Nat.dvd_sub hdvd hi)
    omega
  have hslot {i : ℕ} (hle : i + cfg.psize ≤ n) :
      ((memBytes mem pos n).drop i).take cfg.psize = memBytes mem (pos + i) cfg.psize :=
    memBytes_slice mem pos hle
  have hcons {i : ℕ} (hi : cfg.align ∣ pos + i) (hle : i + cfg.psize ≤ n) :
      cfg.pointersAt ranges mem (multiples cfg.align (pos + i) (pos + n + 1 - cfg.psize)) =
        cfg.pointersAt ranges mem [pos + i] ++ cfg.pointersAt ranges mem
          (multiples cfg.align (pos + (i + cfg.align)) (pos + n + 1 - cfg.psize)) := by
    rw [multiples_cons halign hi (by omega), ← cfg.pointersAt_append, List.singleton_append,
      Nat.add_assoc]
  fun_induction harvestWindow cfg ranges pos (memBytes mem pos n) i h with
  | case1 i h hnone =>
    have hlarge := checked_eq_none.mp hnone
    exact fun hfits => by omega
  | case2 i h stop hstop hle h' hrecord hnone =>
    rw [memBytes_length] at hle
    have hsum := (checkedAdd_eq_some.mp hstop).1
    have hlarge := checked_eq_none.mp hnone
    have := hlater hi (by omega)
    exact fun hfits => by omega
  | case3 i h stop hstop hle h' hrecord next hnext ih =>
    rw [memBytes_length] at hle
    have hsum := (checkedAdd_eq_some.mp hstop).1
    have hbound := hlater hi (by omega)
    obtain ⟨rfl, -⟩ := checkedAdd_eq_some.mp hnext
    have hone := record_harvested cfg ranges mem pos i (by omega) h
    rw [← hslot (by omega), hrecord] at hone
    have hrest := ih (by rw [← Nat.add_assoc]; exact (Nat.dvd_add_self_right).mpr hi)
    refine (hone.trans hrest).congr ?_ (hcons hi (by omega))
    rw [true_and]
    omega
  | case4 i h stop hstop hle hstopped =>
    rw [memBytes_length] at hle
    have hsum := (checkedAdd_eq_some.mp hstop).1
    have hone := record_harvested cfg ranges mem pos i (by omega) h
    rw [← hslot (by omega)] at hone
    generalize record cfg ranges pos i _ h = out at hone hstopped ⊢
    obtain ⟨exit, h'⟩ := out
    have hstop : exit ≠ .go := fun hgo => hstopped h' (by rw [hgo])
    exact (hone.stop hstop).congr (true_and _).symm.to_iff (hcons hi (by omega))
  | case5 i h stop hstop hle =>
    rw [memBytes_length] at hle
    have hsum := (checkedAdd_eq_some.mp hstop)
    rw [multiples_of_le _ (by omega)]
    have hnext := nextMultipleOf_le_of_dvd halign hi (x := pos + n + 1 - cfg.psize) (by omega)
    refine Harvested.nil ?_
    omega

variable (ranges mem) in
/-- A window is walked from its first aligned address on. -/
theorem harvestWindow_first (n : ℕ) {pos first : ℕ} (hend : pos + n ≤ usizeMax)
    (hlong : cfg.psize ≤ n) (hfirst : checkedNextMultipleOf pos cfg.align = some first)
    (h : Harvest σ) :
    Harvested (cfg.WindowFits (pos, n)) (cfg.pointersAt ranges mem (cfg.windowSlots (pos, n))) h
      (harvestWindow cfg ranges pos (memBytes mem pos n) (first - pos) h) := by
  obtain ⟨rfl, hle⟩ := checked_eq_some.mp hfirst
  have hpos := le_nextMultipleOf pos cfg.align
  have hpast := dvd_nextMultipleOf (pos + n + 1 - cfg.psize) cfg.align_pos
  have hge := le_nextMultipleOf (pos + n + 1 - cfg.psize) cfg.align
  have hbefore := nextMultipleOf_le_of_dvd cfg.align_pos hpast (x := pos) (by omega)
  have hsum : pos + (nextMultipleOf pos cfg.align - pos) = nextMultipleOf pos cfg.align := by omega
  have hwalk := harvestWindow_harvested cfg ranges mem hend rfl
    (nextMultipleOf pos cfg.align - pos) h (by rw [hsum]; exact dvd_nextMultipleOf pos cfg.align_pos)
  rw [hsum, multiples_nextMultipleOf cfg.align_pos, Nat.max_eq_right hbefore] at hwalk
  exact hwalk.congr (and_iff_right hle) rfl

end Window

section Region
variable {σ : Type} {cfg : PointerScanConfig} {ranges : List Range} {mem : ℕ → UInt8}
  {target : ScanTarget σ} {region : Region}

theorem windows_of_le {bufLen stop pos : ℕ} (h : stop ≤ pos) :
    cfg.windows bufLen stop pos = [] := by
  rw [PointerScanConfig.windows, if_neg (Nat.not_lt.mpr h)]

/-- The last window of a region, unless too little of the region is left for a word. -/
theorem windows_last {bufLen stop pos : ℕ} (h : pos < stop)
    (hwant : min (stop - pos) bufLen ≤ cfg.psize) :
    cfg.windows bufLen stop pos =
      if min (stop - pos) bufLen < cfg.psize then [] else [(pos, min (stop - pos) bufLen)] := by
  rw [PointerScanConfig.windows, if_pos h]
  dsimp only
  rw [if_pos hwant]

theorem windows_cons {bufLen stop pos : ℕ} (h : pos < stop)
    (hwant : cfg.psize < min (stop - pos) bufLen) :
    cfg.windows bufLen stop pos = (pos, min (stop - pos) bufLen) ::
      cfg.windows bufLen stop (pos + (min (stop - pos) bufLen - cfg.psize)) := by
  rw [PointerScanConfig.windows, if_pos h]
  dsimp only
  rw [if_neg (by omega), if_neg (by omega)]

variable (cfg) in
/-- Every window but a last short one comes first in what is left. -/
theorem windows_head (bufLen : ℕ) {stop pos : ℕ} (h : pos < stop)
    (hwant : cfg.psize ≤ min (stop - pos) bufLen) : ∃ rest,
    cfg.windows bufLen stop pos = (pos, min (stop - pos) bufLen) :: rest := by
  rcases Nat.eq_or_lt_of_le hwant with heq | hlt
  · rw [windows_last h heq.symm.le, if_neg (by omega)]
    exact ⟨[], rfl⟩
  · exact ⟨_, windows_cons h hlt⟩

theorem harvestChunks_harvested (hfills : Fills target mem region) {bufLen : ℕ} (pos : ℕ)
    (h : Harvest σ) (hpos : region.base ≤ pos) :
    Harvested (∀ w ∈ cfg.windows bufLen region.stop pos, cfg.WindowFits w)
      (cfg.pointersAt ranges mem
        ((cfg.windows bufLen region.stop pos).flatMap cfg.windowSlots)) h
      (harvestChunks target cfg ranges bufLen region.stop pos h) := by
  have hpsize := cfg.psize_pos
  have hmax := region.stop_le
  fun_induction harvestChunks target cfg ranges bufLen region.stop pos h with
  | case1 pos h hlt want e world hread =>
    obtain ⟨buf, world', hok, -⟩ := hfills h.world pos want hpos (by omega)
    rw [hok] at hread
    cases hread
  | case2 pos h hlt want buf world hread _ n hshort =>
    have hn : n = want := (FirstPass.Fills.ok hfills hread hpos (by omega)).1
    rw [windows_last hlt (by omega), if_pos (by omega)]
    exact Harvested.nil (by simp)
  | case3 pos h hlt want buf world hread _ n hlong hnone =>
    have hn : n = want := (FirstPass.Fills.ok hfills hread hpos (by omega)).1
    obtain ⟨rest, hwindows⟩ := windows_head cfg bufLen hlt (by omega)
    have hlarge := checked_eq_none.mp hnone
    intro hfits
    have hfirst : nextMultipleOf pos cfg.align ≤ usizeMax :=
      (hfits (pos, want) (by rw [hwindows]; exact List.mem_cons_self)).1
    omega
  | case4 pos h hlt want buf world hread h₀ n hlong first hfirst h' hwalk hlast =>
    obtain ⟨hn, hmem⟩ := FirstPass.Fills.ok hfills hread hpos (by omega)
    have hwindow := harvestWindow_first ranges mem want (by omega)
      (by omega) hfirst h₀
    rw [← hn, ← hmem, hwalk, hn] at hwindow
    rw [windows_last hlt hlast, if_neg (by omega)]
    refine hwindow.congr ?_ (by rw [List.flatMap_singleton])
    rw [List.forall_mem_singleton]
  | case5 pos h hlt want buf world hread h₀ n hlong first hfirst h' hwalk hmore ih =>
    obtain ⟨hn, hmem⟩ := FirstPass.Fills.ok hfills hread hpos (by omega)
    have hwindow := harvestWindow_first ranges mem want (by omega)
      (by omega) hfirst h₀
    rw [← hn, ← hmem, hwalk, hn] at hwindow
    rw [windows_cons hlt (by omega)]
    refine (hwindow.trans (ih (by omega))).congr List.forall_mem_cons ?_
    rw [List.flatMap_cons, cfg.pointersAt_append]
  | case6 pos h hlt want buf world hread h₀ n hlong first hfirst hstopped =>
    obtain ⟨hn, hmem⟩ := FirstPass.Fills.ok hfills hread hpos (by omega)
    have hwindow := harvestWindow_first ranges mem want (by omega)
      (by omega) hfirst h₀
    rw [← hn, ← hmem, hn] at hwindow
    obtain ⟨rest, hwindows⟩ := windows_head cfg bufLen hlt (by omega)
    rw [hwindows, List.flatMap_cons, cfg.pointersAt_append]
    generalize harvestWindow cfg ranges pos buf.val (first - pos) h₀ = out at hwindow hstopped ⊢
    obtain ⟨exit, h'⟩ := out
    have hstop : exit ≠ .go := fun hgo => hstopped h' (by rw [hgo])
    exact (hwindow.stop hstop).congr List.forall_mem_cons rfl
  | case7 pos h hge =>
    rw [windows_of_le (by omega)]
    exact Harvested.nil (by simp)

variable (ranges) in
theorem harvestRegion_harvested (hfills : Fills target mem region)
    (hpsize : chunk + cfg.psize ≤ usizeMax) (h : Harvest σ) :
    Harvested (cfg.RegionFits region) (cfg.pointersAt ranges mem (cfg.regionSlots region)) h
      (harvestRegion target cfg ranges region h) := by
  unfold harvestRegion
  rw [checkedAdd_of_le hpsize]
  exact harvestChunks_harvested hfills region.base h (le_refl _)

variable (cfg ranges) in
theorem harvestRegions_harvested (hpsize : chunk + cfg.psize ≤ usizeMax) (regions : List Region)
    (hfills : ∀ r ∈ regions, Fills target mem r) (h : Harvest σ) :
    Harvested (∀ r ∈ regions, cfg.RegionFits r)
      (cfg.pointersAt ranges mem (regions.flatMap cfg.regionSlots)) h
      (harvestRegions target cfg ranges regions h) := by
  induction regions generalizing h with
  | nil => exact Harvested.nil (by simp)
  | cons region regions ih =>
    obtain ⟨hhere, hlater⟩ := List.forall_mem_cons.mp hfills
    have hone := harvestRegion_harvested ranges hhere hpsize h
    have hslots : cfg.pointersAt ranges mem ((region :: regions).flatMap cfg.regionSlots) =
        cfg.pointersAt ranges mem (cfg.regionSlots region) ++
          cfg.pointersAt ranges mem (regions.flatMap cfg.regionSlots) := by
      rw [List.flatMap_cons, cfg.pointersAt_append]
    unfold harvestRegions
    split
    · rename_i h' heq
      rw [heq] at hone
      exact (hone.trans (ih hlater h')).congr List.forall_mem_cons hslots
    · rename_i hstopped
      generalize harvestRegion target cfg ranges region h = out at hone hstopped ⊢
      obtain ⟨exit, h'⟩ := out
      have hstop : exit ≠ .go := fun hgo => hstopped h' (by rw [hgo])
      exact (hone.stop hstop).congr List.forall_mem_cons hslots

/-- With room for one more step behind the region, every address fits. -/
theorem regionFits_of_room {region : Region} (hroom : region.stop + cfg.align ≤ usizeMax) :
    cfg.RegionFits region := by
  have halign := cfg.align_pos
  have hpsize := cfg.psize_pos
  suffices h : ∀ bufLen pos, ∀ w ∈ cfg.windows bufLen region.stop pos,
      cfg.psize ≤ w.2 ∧ w.1 + w.2 ≤ region.stop by
    intro w hw
    obtain ⟨hlong, hend⟩ := h _ _ w hw
    have hfirst := nextMultipleOf_lt w.1 halign
    have hpast := nextMultipleOf_lt (w.1 + w.2 + 1 - cfg.psize) halign
    exact ⟨by omega, by omega⟩
  intro bufLen pos
  fun_induction PointerScanConfig.windows cfg bufLen region.stop pos with
  | case1 | case4 => simp
  | case2 pos hlt want hlong hlast =>
    rw [List.forall_mem_singleton]
    omega
  | case3 pos hlt want hlong hmore ih =>
    refine List.forall_mem_cons.mpr ⟨?_, ih⟩
    omega

end Region

section Slots
variable {cfg : PointerScanConfig}

theorem mem_windowSlots {pos want a : ℕ} :
    a ∈ cfg.windowSlots (pos, want) ↔ cfg.align ∣ a ∧ pos ≤ a ∧ a + cfg.psize ≤ pos + want := by
  rw [PointerScanConfig.windowSlots, mem_multiples]
  have := cfg.psize_pos
  omega

theorem count_windowSlots (w : ℕ × ℕ) (a : ℕ) :
    (cfg.windowSlots w).count a = if a ∈ cfg.windowSlots w then 1 else 0 :=
  List.Nodup.count ((multiples_sorted _ _ _).imp Nat.ne_of_lt)

/-- The chunks miss no slot. -/
theorem mem_slots (bufLen stop pos : ℕ) (hbuf : cfg.psize < bufLen) {a : ℕ} :
    a ∈ (cfg.windows bufLen stop pos).flatMap cfg.windowSlots ↔
      cfg.align ∣ a ∧ pos ≤ a ∧ a + cfg.psize ≤ stop := by
  have hpsize := cfg.psize_pos
  fun_induction PointerScanConfig.windows cfg bufLen stop pos with
  | case1 pos hlt want hshort =>
    simp only [List.flatMap_nil, List.not_mem_nil, false_iff]
    omega
  | case2 pos hlt want hlong hlast =>
    rw [List.flatMap_singleton, mem_windowSlots]
    have hwant : pos + want = stop := by omega
    rw [hwant]
  | case3 pos hlt want hlong hmore ih =>
    have hrest : a ∈ (cfg.windows bufLen stop (pos + (want - cfg.psize))).flatMap cfg.windowSlots ↔
        cfg.align ∣ a ∧ pos + (want - cfg.psize) ≤ a ∧ a + cfg.psize ≤ stop := ih
    rw [List.flatMap_cons, List.mem_append, mem_windowSlots, hrest]
    constructor
    · rintro (⟨hd, hlo, hhi⟩ | ⟨hd, hlo, hhi⟩)
      · exact ⟨hd, hlo, by omega⟩
      · exact ⟨hd, by omega, hhi⟩
    · rintro ⟨hd, hlo, hhi⟩
      by_cases hnear : a + cfg.psize ≤ pos + want
      · exact .inl ⟨hd, hlo, hnear⟩
      · exact .inr ⟨hd, by omega, hhi⟩
  | case4 pos hge =>
    simp only [List.flatMap_nil, List.not_mem_nil, false_iff]
    omega

/-- Behind a full chunk the seams are the same ones. -/
theorem seam_iff {c pos a : ℕ} (hc : 0 < c) : pos < a ∧ c ∣ a - pos ↔
    a = pos + c ∨ pos + c < a ∧ c ∣ a - (pos + c) := by
  constructor
  · rintro ⟨hlt, hd⟩
    have hle := Nat.le_of_dvd (by omega) hd
    rcases Nat.eq_or_lt_of_le hle with heq | hgt
    · exact .inl (by omega)
    · have hsub : a - (pos + c) = a - pos - c := by omega
      exact .inr ⟨by omega, hsub ▸ Nat.dvd_sub hd (dvd_refl c)⟩
  · rintro (heq | ⟨hlt, hd⟩)
    · exact ⟨by omega, 1, by omega⟩
    · have hsum : a - pos = a - (pos + c) + c := by omega
      exact ⟨by omega, hsum ▸ Nat.dvd_add_self_right.mpr hd⟩

/-- The slots read twice: where two chunks meet, and the last one. -/
theorem two_le_count_slots (stop pos : ℕ) {a : ℕ} :
    2 ≤ ((cfg.windows (chunk + cfg.psize) stop pos).flatMap cfg.windowSlots).count a ↔
      cfg.align ∣ a ∧ a + cfg.psize ≤ stop ∧ pos < a ∧
        (chunk ∣ a - pos ∨ a + cfg.psize = stop) := by
  have hpsize := cfg.psize_pos
  have hchunk : 0 < chunk := by decide
  fun_induction PointerScanConfig.windows cfg (chunk + cfg.psize) stop pos with
  | case1 pos hlt want hshort =>
    simp only [List.flatMap_nil, List.count_nil]
    omega
  | case2 pos hlt want hlong hlast =>
    rw [List.flatMap_singleton, count_windowSlots]
    split <;> omega
  | case3 pos hlt want hlong hmore ih =>
    have hbuf : cfg.psize < chunk + cfg.psize := by omega
    have hrest : a ∈ (cfg.windows (chunk + cfg.psize) stop (pos + (want - cfg.psize))).flatMap
        cfg.windowSlots ↔ _ :=
      mem_slots (chunk + cfg.psize) stop (pos + (want - cfg.psize)) hbuf
    rw [← List.count_pos_iff] at hrest
    rw [List.flatMap_cons, List.count_append, count_windowSlots]
    by_cases hin : a ∈ cfg.windowSlots (pos, want)
    · -- Only the slot at which the next window begins is in both.
      rw [if_pos hin, show ∀ n, 2 ≤ 1 + n ↔ 0 < n by omega, hrest]
      obtain ⟨hd, hlo, hhi⟩ := mem_windowSlots.mp hin
      constructor
      · rintro ⟨-, hnext, hend⟩
        refine ⟨hd, hend, by omega, ?_⟩
        by_cases hfull : want = chunk + cfg.psize
        · exact .inl ⟨1, by omega⟩
        · exact .inr (by omega)
      · rintro ⟨-, hend, hlt', hseam | hlast⟩
        · have hle := Nat.le_of_dvd (by omega) hseam
          exact ⟨hd, by omega, hend⟩
        · exact ⟨hd, by omega, hend⟩
    · have hlater : 2 ≤ ((cfg.windows (chunk + cfg.psize) stop
          (pos + (want - cfg.psize))).flatMap cfg.windowSlots).count a ↔
          cfg.align ∣ a ∧ a + cfg.psize ≤ stop ∧ pos + (want - cfg.psize) < a ∧
            (chunk ∣ a - (pos + (want - cfg.psize)) ∨ a + cfg.psize = stop) := ih
      rw [if_neg hin, Nat.zero_add, hlater]
      rw [mem_windowSlots] at hin
      constructor
      · rintro ⟨hd, hend, hlt', htwice⟩
        refine ⟨hd, hend, by omega, htwice.imp_left fun hseam => ?_⟩
        have hfull : pos + (want - cfg.psize) = pos + chunk := by omega
        rw [hfull] at hseam hlt'
        exact ((seam_iff hchunk).mpr (.inr ⟨hlt', hseam⟩)).2
      · rintro ⟨hd, hend, hlt', htwice⟩
        have hpast : pos + want < a + cfg.psize := by
          by_contra hnear
          exact hin ⟨hd, by omega, by omega⟩
        have hfull : pos + (want - cfg.psize) = pos + chunk := by omega
        refine ⟨hd, hend, by omega, htwice.imp_left fun hseam => ?_⟩
        rw [hfull]
        rcases (seam_iff hchunk).mp ⟨hlt', hseam⟩ with heq | hnext
        · omega
        · exact hnext.2
  | case4 pos hge =>
    simp only [List.flatMap_nil, List.count_nil]
    omega

theorem mem_regionSlots {r : Region} {a : ℕ} : a ∈ cfg.regionSlots r ↔ cfg.SlotOf r a :=
  mem_slots _ _ _ (Nat.lt_add_of_pos_left (by decide))

theorem two_le_count_regionSlots {r : Region} {a : ℕ} :
    2 ≤ (cfg.regionSlots r).count a ↔ cfg.ReadTwice r a := by
  rw [PointerScanConfig.regionSlots, PointerScanConfig.regionWindows, two_le_count_slots]
  unfold PointerScanConfig.ReadTwice PointerScanConfig.SlotOf
  constructor
  · rintro ⟨hd, hend, hlo, htwice⟩
    exact ⟨⟨hd, hlo.le, hend⟩, hlo, htwice⟩
  · rintro ⟨⟨hd, -, hend⟩, hlo, htwice⟩
    exact ⟨hd, hend, hlo, htwice⟩

/-- Separate regions share no slot. -/
theorem two_le_count_regions {regions : List Region} (hasc : Ascending regions) {a : ℕ} :
    2 ≤ (regions.flatMap cfg.regionSlots).count a ↔ ∃ r ∈ regions, cfg.ReadTwice r a := by
  have hpsize := cfg.psize_pos
  induction regions with
  | nil => simp
  | cons region regions ih =>
    obtain ⟨hhead, htail⟩ := List.pairwise_cons.mp hasc
    have hrest : 2 ≤ (regions.flatMap cfg.regionSlots).count a ↔
        ∃ r ∈ regions, cfg.ReadTwice r a := ih htail
    rw [List.flatMap_cons, List.count_append, List.exists_mem_cons_iff,
      ← two_le_count_regionSlots, ← hrest]
    have hapart : a ∈ cfg.regionSlots region → a ∉ regions.flatMap cfg.regionSlots := by
      intro hhere hthere
      obtain ⟨r, hr, hslot⟩ := List.mem_flatMap.mp hthere
      have hend := (mem_regionSlots.mp hhere).2.2
      have hbase := (mem_regionSlots.mp hslot).2.1
      have hbefore := hhead r hr
      omega
    by_cases hhere : a ∈ cfg.regionSlots region
    · have hlater := List.count_eq_zero_of_not_mem (hapart hhere)
      omega
    · have hnone := List.count_eq_zero_of_not_mem hhere
      omega

end Slots

section Map
variable {cfg : PointerScanConfig} {regions : List Region} {mem : ℕ → UInt8}

theorem mem_pointersAt {ranges : List Range} {slots : List ℕ} {e : ℕ × ℕ} :
    e ∈ cfg.pointersAt ranges mem slots ↔
      e.2 ∈ slots ∧ e.1 = cfg.word mem e.2 ∧ isMapped ranges e.1 = true := by
  simp only [PointerScanConfig.pointersAt, List.mem_map, List.mem_filter]
  constructor
  · rintro ⟨a, ⟨ha, hmapped⟩, rfl⟩
    exact ⟨ha, rfl, hmapped⟩
  · rintro ⟨ha, hword, hmapped⟩
    exact ⟨e.2, ⟨ha, hword ▸ hmapped⟩, by rw [← hword]⟩

/-- A pointer stands twice exactly when its slot does. -/
theorem duplicate_pointersAt {ranges : List Range} {slots : List ℕ} {e : ℕ × ℕ}
    (he : e ∈ cfg.pointersAt ranges mem slots) :
    (cfg.pointersAt ranges mem slots).Duplicate e ↔ 2 ≤ slots.count e.2 := by
  obtain ⟨-, hword, hmapped⟩ := mem_pointersAt.mp he
  obtain ⟨value, a⟩ := e
  dsimp only at hword hmapped ⊢
  subst hword
  have hinj : Function.Injective fun a => (cfg.word mem a, a) := fun a b h => congrArg Prod.snd h
  have hcount := List.count_filter (p := fun a => isMapped ranges (cfg.word mem a)) (l := slots)
    hmapped
  rw [PointerScanConfig.pointersAt, duplicate_map_iff (x := a) hinj,
    List.duplicate_iff_two_le_count, hcount]

theorem word_le (cfg : PointerScanConfig) (mem : ℕ → UInt8) (a : ℕ) :
    cfg.word mem a ≤ usizeMax := readWord_le _

/-- A word that is read twice shares its value with no other one. -/
def SeamsAlone (cfg : PointerScanConfig) (regions : List Region) (mem : ℕ → UInt8) : Prop :=
  ∀ r ∈ regions, ∀ a, cfg.ReadTwice r a → Mapped regions (cfg.word mem a) →
    ∀ r' ∈ regions, ∀ b, cfg.SlotOf r' b → cfg.word mem b = cfg.word mem a → b = a

/-- Standing twice among the recorded pointers is being read twice. -/
theorem alone_pointersAt_iff (hasc : Ascending regions) :
    KeySort.Alone Prod.fst (cfg.pointersAt (sortedRanges regions) mem
      (regions.flatMap cfg.regionSlots)) ↔ SeamsAlone cfg regions mem := by
  have hmapped (a : ℕ) : isMapped (sortedRanges regions) (cfg.word mem a) = true ↔
      Mapped regions (cfg.word mem a) := isMapped_iff hasc.disjoint (word_le cfg mem a)
  constructor
  · intro h r hr a htwice ha r' hr' b hb hsame
    have hmem : (cfg.word mem a, a) ∈ cfg.pointersAt (sortedRanges regions) mem
        (regions.flatMap cfg.regionSlots) :=
      mem_pointersAt.mpr ⟨List.mem_flatMap.mpr ⟨r, hr, mem_regionSlots.mpr htwice.1⟩, rfl,
        (hmapped a).mpr ha⟩
    have hcount := (two_le_count_regions hasc).mpr ⟨r, hr, htwice⟩
    have hother : (cfg.word mem b, b) ∈ cfg.pointersAt (sortedRanges regions) mem
        (regions.flatMap cfg.regionSlots) :=
      mem_pointersAt.mpr ⟨List.mem_flatMap.mpr ⟨r', hr', mem_regionSlots.mpr hb⟩, rfl,
        (hmapped b).mpr (hsame ▸ ha)⟩
    exact congrArg Prod.snd (h _ ((duplicate_pointersAt hmem).mpr hcount) _ hother hsame)
  · intro h e htwice e' he' hkey
    have he : e ∈ cfg.pointersAt (sortedRanges regions) mem (regions.flatMap cfg.regionSlots) :=
      htwice.mem
    rw [duplicate_pointersAt he, two_le_count_regions hasc] at htwice
    obtain ⟨r, hr, htwice⟩ := htwice
    obtain ⟨-, hword, hpoints⟩ := mem_pointersAt.mp he
    obtain ⟨hslot', hword', -⟩ := mem_pointersAt.mp he'
    obtain ⟨r', hr', hslot'⟩ := List.mem_flatMap.mp hslot'
    rw [hword, hmapped] at hpoints
    have hsame : cfg.word mem e'.2 = cfg.word mem e.2 := by rw [← hword', ← hword, hkey]
    exact Prod.ext hkey (h r hr e.2 htwice hpoints r' hr' e'.2 (mem_regionSlots.mp hslot') hsame)

end Map

namespace PointerMap
variable {σ : Type}

/-- Every pointer of the regions is in the map, once, and nothing else is. -/
structure Exact (map : PointerMap) (cfg : PointerScanConfig) (regions : List Region)
    (mem : ℕ → UInt8) : Prop where
  sorted : map.entries.Pairwise fun a b => a.1 ≤ b.1
  nodup : map.entries.Nodup
  mem_iff : ∀ value slot, (value, slot) ∈ map.entries ↔
    (∃ r ∈ regions, cfg.SlotOf r slot) ∧ value = cfg.word mem slot ∧ Mapped regions value

/-- Whatever the sort does, the map holds the pointers of the regions. -/
theorem mem_ofHarvest {cfg : PointerScanConfig} {regions : List Region} {mem : ℕ → UInt8}
    (hasc : Ascending regions) {h : Harvest σ} {truncated : Bool}
    (hentries : h.entries = cfg.pointersAt (sortedRanges regions) mem
      (regions.flatMap cfg.regionSlots)) (sort : UnstableSort (Prod.fst : ℕ × ℕ → ℕ))
    (value slot : ℕ) : (value, slot) ∈ (ofHarvest sort h truncated).entries ↔
      (∃ r ∈ regions, cfg.SlotOf r slot) ∧ value = cfg.word mem slot ∧ Mapped regions value := by
  rw [ofHarvest, mem_dropRepeats, (sort.perm h.entries).mem_iff, hentries, mem_pointersAt,
    List.mem_flatMap]
  simp only [mem_regionSlots]
  refine and_congr_right fun _ => and_congr_right fun hvalue => ?_
  exact isMapped_iff hasc.disjoint (hvalue ▸ word_le cfg mem slot)

/-- Over a target that fills every read, an uncapped map is exact under every sort exactly when
the addresses fit and the words that are read twice share their values with no others. -/
theorem build_exact_iff (target : ScanTarget σ) (cfg : PointerScanConfig) (regions : List Region)
    (mem : ℕ → UInt8) (world world' : σ) (hregions : target.regions world = (.ok regions, world'))
    (hasc : Ascending regions) (hfills : ∀ r ∈ regions, Fills target mem r)
    (hpsize : cfg.pointerSize ≤ 8)
    (hcap : ∀ sort map world'', build sort target cfg world = (.ok map, world'') →
      map.truncated = false) :
    (∀ sort, ∃ map world'', build sort target cfg world = (.ok map, world'') ∧
      map.Exact cfg regions mem) ↔
        (∀ r ∈ regions, cfg.RegionFits r) ∧ SeamsAlone cfg regions mem := by
  have hwidth : cfg.psize ≤ 8 := Nat.max_le.mpr ⟨hpsize, by decide⟩
  have hchunk : chunk + 8 ≤ usizeMax := by decide
  have hharvest := harvestRegions_harvested cfg (sortedRanges regions)
    (by omega) regions hfills (.start world')
  have hbuild (sort) : build sort target cfg world =
      finish sort (harvestRegions target cfg (sortedRanges regions) regions (.start world')) := by
    rw [build, hregions]
  generalize harvestRegions target cfg (sortedRanges regions) regions (.start world') = out
    at hharvest hbuild
  match out, hharvest with
  | (.capped, h), _ =>
    have htruncated := hcap (.after id .refl) _ _ (hbuild _)
    cases htruncated
  | (.overflow, h), hno =>
    refine iff_of_false (fun hall => ?_) fun hboth => hno hboth.1
    obtain ⟨map, world'', hok, -⟩ := hall (.after id .refl)
    rw [hbuild] at hok
    cases hok
  | (.go, h), ⟨hfits, hentries⟩ =>
    rw [and_iff_right hfits, ← alone_pointersAt_iff hasc, ← UnstableSort.nodup_iff_alone]
    replace hentries : h.entries = _ := hentries.trans (List.nil_append _)
    rw [← hentries]
    refine forall_congr' fun sort => ⟨?_, fun hnodup => ?_⟩
    · rintro ⟨map, world'', hok, hexact⟩
      rw [hbuild] at hok
      cases hok
      exact hexact.nodup
    · exact ⟨_, _, hbuild sort, ⟨(ofHarvest sort h false).sorted, hnodup,
        mem_ofHarvest hasc hentries sort⟩⟩

/-- Nothing is capped while the harvest is not. -/
theorem not_truncated_of_exit {target : ScanTarget σ} {cfg : PointerScanConfig}
    {regions : List Region} {world world' : σ}
    (hregions : target.regions world = (.ok regions, world'))
    (hexit : (harvestRegions target cfg (sortedRanges regions) regions (.start world')).1 ≠ .capped)
    (sort : UnstableSort (Prod.fst : ℕ × ℕ → ℕ)) (map : PointerMap) (world'' : σ)
    (hok : build sort target cfg world = (.ok map, world'')) : map.truncated = false := by
  rw [build, hregions] at hok
  dsimp only at hok
  generalize harvestRegions target cfg (sortedRanges regions) regions (.start world') = out
    at hexit hok
  match out with
  | (.go, h) =>
    cases hok
    rfl
  | (.capped, h) => exact absurd rfl hexit

/-- Two words of which the second points at itself and the first at the second. -/
def twoWords : MockTarget :=
  .new 0x1000 [8, 0x10, 0, 0, 0, 0, 0, 0, 8, 0x10, 0, 0, 0, 0, 0, 0]

/-- The first word alone. -/
def oneWord : MockTarget := .new 0x1000 [8, 0x10, 0, 0, 0, 0, 0, 0]

theorem build_exact_oneWord :
    (∀ sort, ∃ map world, build sort (oneWord.target Unit) {} () = (.ok map, world) ∧
      map.Exact {} oneWord.regions oneWord.mem) ↔
        (∀ r ∈ oneWord.regions, ({} : PointerScanConfig).RegionFits r) ∧
          SeamsAlone {} oneWord.regions oneWord.mem :=
  build_exact_iff (oneWord.target Unit) {} oneWord.regions oneWord.mem () () rfl (by decide)
    (fun r hr => by
      obtain rfl := List.mem_singleton.mp hr
      exact MockTarget.fills _ Unit (Nat.le_refl _) (by decide))
    (by decide) (not_truncated_of_exit rfl (by decide +kernel))

/-- The last word is read twice, and a sort may put the other one between its two entries. -/
theorem build_repeats : ¬ ∀ sort, ∃ map world,
    build sort (twoWords.target Unit) {} () = (.ok map, world) ∧
      map.Exact {} twoWords.regions twoWords.mem := by
  intro h
  let sort : UnstableSort (Prod.fst : ℕ × ℕ → ℕ) :=
    .favouring [(0x1008, 0x1008), (0x1008, 0x1000), (0x1008, 0x1008)]
  obtain ⟨map, world, hok, hexact⟩ := h sort
  have hrepeats : (build sort (twoWords.target Unit) {} ()).1.toOption.all
      (fun map => decide map.entries.Nodup) = false := by decide +kernel
  rw [hok] at hrepeats
  simp [Except.toOption, hexact.nodup] at hrepeats

end PointerMap

end Nemclass.Scan
