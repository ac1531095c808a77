import Nemclass.Scan.FirstScan

/-! The candidates a first scan examines: the lattice positions of each region at which a
whole value fits. A region's walk examines at most those, in any target, and exactly
those in a target that fills every request, unless the limit or the observer stops it. -/
namespace Nemclass.Scan
open Usize Multiples

variable {σ : Type}

namespace FirstPass
variable (p : FirstPass σ)

/-- Rows appended at increasing addresses of a span are at most as many as its bytes. -/
theorem AppendsWithin.len_le {lo hi : ℕ} {r r' : ScanResults} (h : AppendsWithin lo hi r r') :
    r'.len ≤ r.len + (hi - lo) := by
  obtain ⟨_, new, hrows, hsorted, hin⟩ := h
  have hlen := congrArg List.length hrows
  rw [List.length_append, ScanResults.rows_length, ScanResults.rows_length] at hlen
  have hnodup : (new.map ScanResult.address).Nodup :=
    (List.pairwise_map.mpr hsorted).imp fun h => Nat.ne_of_lt h
  have hsub : new.map ScanResult.address ⊆ List.range' lo (hi - lo) := by
    intro a ha
    obtain ⟨x, hx, rfl⟩ := List.mem_map.mp ha
    have := hin x hx
    rw [List.mem_range'_1]
    omega
  have hle := List.Nodup.length_le_of_subset hnodup hsub
  rw [List.length_map, List.length_range'] at hle
  omega

section
variable (Inv Stopped : ℕ → Walk σ → Prop)
  (htick : ∀ sinceTick w, Inv sinceTick w →
    if (p.tick sinceTick w).1 then Inv (p.tick sinceTick w).2.1 (p.tick sinceTick w).2.2
    else Stopped (p.tick sinceTick w).2.1 (p.tick sinceTick w).2.2)
  (hout : ∀ sinceTick w addr value, Inv sinceTick w →
    Inv sinceTick { w with out := w.out.push addr value value })
include htick hout

/-- What counting a candidate and collecting a row keep, a window keeps. -/
theorem scanWindow_keeps (addr : ℕ) (buf : List UInt8) (offs : List ℕ) {sinceTick : ℕ} {w : Walk σ}
    (h : Inv sinceTick w) {exit : WindowExit} {sinceTick' : ℕ} {w' : Walk σ}
    (hwin : p.scanWindow addr buf offs sinceTick w = (exit, sinceTick', w')) :
    if exit = .cancelled then Stopped sinceTick' w' else Inv sinceTick' w' := by
  induction offs generalizing sinceTick w with
  | nil =>
    simp only [scanWindow, Prod.mk.injEq] at hwin
    obtain ⟨rfl, rfl, rfl⟩ := hwin
    exact h
  | cons off offs ih =>
    have hcount := htick sinceTick w h
    obtain ⟨heq, rfl⟩ | ⟨sinceTick₁, w₁, heq, hnext⟩ := p.scanWindow_cons_cases hwin
    · rw [heq] at hcount
      exact hcount
    · rw [heq] at hcount
      obtain ⟨-, -, rfl, rfl, rfl⟩ | ⟨-, -, hrest⟩ | ⟨-, hrest⟩ := hnext
      · exact hout _ _ _ _ hcount
      · exact ih (hout _ _ _ _ hcount) hrest
      · exact ih hcount hrest

/-- And what a read keeps as well, the walk of a region keeps. -/
theorem walkRegion_keeps
    (hread : ∀ sinceTick w addr len, Inv sinceTick w →
      Inv sinceTick { w with world := (p.target.read w.world addr len).2 })
    (regionEnd addr sinceTick : ℕ) (w : Walk σ) (h : Inv sinceTick w) :
    ∃ sinceTick', if (p.walkRegion regionEnd addr sinceTick w).1 = .ok .cancelled
      then Stopped sinceTick' (p.walkRegion regionEnd addr sinceTick w).2
      else Inv sinceTick' (p.walkRegion regionEnd addr sinceTick w).2 := by
  fun_induction p.walkRegion regionEnd addr sinceTick w with
  | case1 addr sinceTick w _ _ want _ _ heq =>
    have hkept := hread sinceTick w addr want h
    rw [heq] at hkept
    exact ⟨_, by simpa using hkept⟩
  | case2 addr sinceTick w _ _ want _ _ heq =>
    have hkept := hread sinceTick w addr want h
    rw [heq] at hkept
    exact ⟨_, by simpa using hkept⟩
  | case3 addr sinceTick w _ _ want buf _ heq _ _ _ _ _ hwin
  | case4 addr sinceTick w _ _ want buf _ heq _ _ _ _ _ hwin
  | case5 addr sinceTick w _ _ want buf _ heq _ _ _ _ _ hwin =>
    have hkept := hread sinceTick w addr want h
    rw [heq] at hkept
    exact ⟨_, by simpa using p.scanWindow_keeps Inv Stopped htick hout addr buf.val _ hkept hwin⟩
  | case6 addr sinceTick w _ _ want buf _ heq _ _ _ _ _ hwin _ _ ih =>
    have hkept := hread sinceTick w addr want h
    rw [heq] at hkept
    exact ih (by simpa using p.scanWindow_keeps Inv Stopped htick hout addr buf.val _ hkept hwin)
  | case7 => exact ⟨_, by simpa using h⟩

end

/-- The lattice positions of a region at which a whole value lies inside it. -/
def capacity (r : Region) : ℕ := (multiples p.align r.base (r.stop + 1 - p.stride)).length

/-- A window counts at most its offsets, all of them when it is exhausted. -/
theorem scanWindow_scanned (addr : ℕ) (buf : List UInt8) (offs : List ℕ) {sinceTick : ℕ}
    {w : Walk σ} {exit : WindowExit} {sinceTick' : ℕ} {w' : Walk σ}
    (hwin : p.scanWindow addr buf offs sinceTick w = (exit, sinceTick', w')) :
    w'.scanned ≤ w.scanned + offs.length ∧
      (exit = .exhausted → w'.scanned = w.scanned + offs.length) ∧
      (exit = .limit → p.limit ≤ w'.out.len) := by
  have htick (sinceTick : ℕ) (w : Walk σ) :
      (p.tick sinceTick w).2.2.scanned = w.scanned + 1 := by
    unfold tick
    split <;> rfl
  induction offs generalizing sinceTick w with
  | nil =>
    simp only [scanWindow, Prod.mk.injEq] at hwin
    obtain ⟨rfl, rfl, rfl⟩ := hwin
    simp
  | cons off offs ih =>
    have hcount := htick sinceTick w
    have hcollect (w : Walk σ) : (p.collect addr buf off w).scanned = w.scanned := rfl
    rw [List.length_cons]
    obtain ⟨heq, rfl⟩ | ⟨sinceTick₁, w₁, heq, hnext⟩ := p.scanWindow_cons_cases hwin
    · rw [heq] at hcount
      dsimp only at hcount
      exact ⟨by omega, by simp, by simp⟩
    · rw [heq] at hcount
      dsimp only at hcount
      obtain ⟨-, hfull, rfl, rfl, rfl⟩ | ⟨-, -, hrest⟩ | ⟨-, hrest⟩ := hnext
      · rw [hcollect]
        exact ⟨by omega, by simp, fun _ => hfull⟩
      · obtain ⟨hle, hall, hlimit⟩ := ih hrest
        rw [hcollect] at hle hall
        exact ⟨by omega, fun h => by have := hall h; omega, hlimit⟩
      · obtain ⟨hle, hall, hlimit⟩ := ih hrest
        exact ⟨by omega, fun h => by have := hall h; omega, hlimit⟩

/-- The next window begins past the last candidate of this one, and at the first lattice address
there. -/
theorem multiples_advance {addr read next : ℕ} (haddr : p.align ∣ addr) (hpos : 0 < p.stride)
    (hlong : ¬ read < p.stride) (h : p.advance addr read = some next) (hi : ℕ) :
    multiples p.align (addr + (read - p.stride) + 1) hi = multiples p.align next hi := by
  have hge := p.advance_ge h
  refine (multiples_sorted _ _ _).eq_of_mem_iff (multiples_sorted _ _ _) fun a => ?_
  rw [mem_multiples, mem_multiples]
  refine and_congr_right fun ha => and_congr_left fun _ => ⟨fun hle => ?_, fun hle => by omega⟩
  simp only [advance, Option.bind_eq_bind, Option.bind_eq_some_iff] at h
  obtain ⟨moved, hmoved, rounded, hrounded, least, hleast, h⟩ := h
  obtain rfl := (checked_eq_some.mp hrounded).1
  have hmoved := (checkedAdd_eq_some.mp hmoved).1
  have hleast := (checkedAdd_eq_some.mp hleast).1
  have hround := nextMultipleOf_le_of_dvd (x := moved) p.align_pos ha (by omega)
  have hstep := Nat.le_of_dvd (by omega) (Nat.dvd_sub ha haddr)
  have := Option.some.inj h
  omega

/-- The address of the next window is on the lattice. -/
theorem dvd_advance {addr read next : ℕ} (haddr : p.align ∣ addr)
    (h : p.advance addr read = some next) : p.align ∣ next := by
  simp only [advance, Option.bind_eq_bind, Option.bind_eq_some_iff] at h
  obtain ⟨moved, _, rounded, hrounded, least, hleast, h⟩ := h
  obtain rfl := (checked_eq_some.mp hrounded).1
  obtain rfl := (checkedAdd_eq_some.mp hleast).1
  obtain rfl := Option.some.inj h
  rcases max_choice (nextMultipleOf moved p.align) (addr + p.align) with hmax | hmax
  · rw [hmax]
    exact dvd_nextMultipleOf moved p.align_pos
  · rw [hmax]
    exact Nat.dvd_add haddr (Nat.dvd_refl _)

/-- The positions of a region are the offsets of its first window and the positions past it. -/
theorem length_window (regionEnd : ℕ) {addr read : ℕ} (haddr : p.align ∣ addr)
    (hread : addr + read ≤ regionEnd) (hlong : ¬ read < p.stride) :
    (multiples p.align addr (regionEnd + 1 - p.stride)).length =
      (stepBy (read - p.stride) p.align).length +
        (multiples p.align (addr + (read - p.stride) + 1) (regionEnd + 1 - p.stride)).length := by
  have hmid : addr ≤ addr + (read - p.stride) + 1 := by omega
  have hhi : addr + (read - p.stride) + 1 ≤ regionEnd + 1 - p.stride := by omega
  rw [← multiples_append p.align hmid hhi, List.length_append, ← map_add_stepBy p.align_pos haddr,
    List.length_map]

/-- From a lattice address on, a region's walk counts at most the positions left in the region. -/
theorem walkRegion_scanned_le (regionEnd addr sinceTick : ℕ) (w : Walk σ) (hpos : 0 < p.stride)
    (haddr : p.align ∣ addr) : (p.walkRegion regionEnd addr sinceTick w).2.scanned ≤
      w.scanned + (multiples p.align addr (regionEnd + 1 - p.stride)).length := by
  fun_induction p.walkRegion regionEnd addr sinceTick w with
  | case1 | case2 | case7 => exact Nat.le_add_right _ _
  | case3 addr sinceTick w _ _ _ buf _ _ w₀ read hlong _ w' hwin
  | case4 addr sinceTick w _ _ _ buf _ _ w₀ read hlong _ w' hwin
  | case5 addr sinceTick w _ _ _ buf _ _ w₀ read hlong _ w' hwin =>
    have hbuf := buf.property
    have hcount := (p.scanWindow_scanned addr buf.val _ hwin).1
    have hfit := p.length_window regionEnd haddr (by omega) hlong
    exact hcount.trans (Nat.add_le_add_left (by omega) w.scanned)
  | case6 addr sinceTick w _ _ _ buf _ _ w₀ read hlong _ w' hwin next hnext ih =>
    have hbuf := buf.property
    have hcount : w'.scanned ≤ w.scanned + _ := (p.scanWindow_scanned addr buf.val _ hwin).1
    have hfit := p.length_window regionEnd haddr (by omega) hlong
    rw [p.multiples_advance haddr hpos hlong hnext] at hfit
    have hrest := ih (p.dvd_advance haddr hnext)
    omega

/-- In a filled region that was left neither at the limit nor by the observer, every position was
counted. -/
theorem walkRegion_scanned_eq {mem : ℕ → UInt8} {region : Region}
    (hfills : Fills p.target mem region) (addr sinceTick : ℕ) (w : Walk σ) (hpos : 0 < p.stride)
    (hbase : region.base ≤ addr) (haddr : p.align ∣ addr)
    (hdone : (p.walkRegion region.stop addr sinceTick w).1 = .ok .completed)
    (hroom : (p.walkRegion region.stop addr sinceTick w).2.out.len < p.limit) :
    (p.walkRegion region.stop addr sinceTick w).2.scanned =
      w.scanned + (multiples p.align addr (region.stop + 1 - p.stride)).length := by
  have hbuf : p.stride ≤ p.bufLen := Nat.le_max_right _ _
  fun_induction p.walkRegion region.stop addr sinceTick w with
  | case1 | case3 | case5 => simp at hdone
  | case2 addr sinceTick w hlt remaining want buf world heq _ read hshort =>
    have hread := (Fills.ok hfills heq hbase (by omega)).1
    rw [multiples_of_le p.align (by omega)]
    rfl
  | case4 addr sinceTick w _ _ _ buf _ _ w₀ read hlong _ w' hwin =>
    have hfull := (p.scanWindow_scanned addr buf.val _ hwin).2.2 rfl
    dsimp only at hroom
    omega
  | case6 addr sinceTick w hlt remaining want buf world heq w₀ read hlong _ w' hwin next hnext ih =>
    have hread := (Fills.ok hfills heq hbase (by omega)).1
    have hcount : w'.scanned = w.scanned + _ := (p.scanWindow_scanned addr buf.val _ hwin).2.1 rfl
    have hfit := p.length_window region.stop haddr (by omega) hlong
    rw [p.multiples_advance haddr hpos hlong hnext] at hfit
    have hlt' := p.lt_advance hnext
    have hrest := ih (by omega) (p.dvd_advance haddr hnext) hdone hroom
    omega
  | case7 addr sinceTick w hge =>
    rw [multiples_of_le p.align (by omega)]
    rfl

theorem scanRegionFirst_scanned_le (region : Region) (w : Walk σ) (hpos : 0 < p.stride) :
    (p.scanRegionFirst region w).2.scanned ≤ w.scanned + p.capacity region := by
  unfold scanRegionFirst
  split
  · exact Nat.le_add_right _ _
  · rename_i addr haddr
    obtain rfl := (checked_eq_some.mp haddr).1
    have hle := p.walkRegion_scanned_le region.stop _ 0 w hpos
      (dvd_nextMultipleOf region.base p.align_pos)
    rwa [multiples_nextMultipleOf p.align_pos] at hle

theorem scanRegionFirst_scanned_eq {mem : ℕ → UInt8} {region : Region}
    (hfills : Fills p.target mem region) (w : Walk σ) (hpos : 0 < p.stride) {w' : Walk σ}
    (hdone : p.scanRegionFirst region w = (.ok .completed, w')) (hroom : w'.out.len < p.limit) :
    w'.scanned = w.scanned + p.capacity region := by
  unfold scanRegionFirst at hdone
  split at hdone
  · simp at hdone
  · rename_i addr haddr
    obtain rfl := (checked_eq_some.mp haddr).1
    have heq := p.walkRegion_scanned_eq hfills _ 0 w hpos (le_nextMultipleOf region.base p.align)
      (dvd_nextMultipleOf region.base p.align_pos) (by rw [hdone]) (by rwa [hdone])
    rwa [hdone, multiples_nextMultipleOf p.align_pos] at heq

/-- The steps of a pass: each region that is entered, with the walk as it is entered. -/
def entered : List Region → Walk σ → List (Region × Walk σ)
  | [], _ => []
  | region :: regions, w =>
    (region, w) ::
      match p.scanRegionFirst region w with
      | (.ok .completed, w') => if p.limit ≤ w'.out.len then [] else entered regions w'
      | _ => []

section Entered

variable (region : Region) (regions : List Region) (w : Walk σ)

theorem entered_past {w' : Walk σ} (hdone : p.scanRegionFirst region w = (.ok .completed, w'))
    (hroom : w'.out.len < p.limit) :
    p.entered (region :: regions) w = (region, w) :: p.entered regions w' := by
  rw [entered, hdone]
  exact congrArg _ (if_neg (Nat.not_le.mpr hroom))

/-- A pass enters more regions after its first exactly if it goes on past it. -/
theorem entered_cons :
    (∃ w', p.scanRegionFirst region w = (.ok .completed, w') ∧
      p.scanRegions (region :: regions) w = p.scanRegions regions w' ∧
      p.entered (region :: regions) w = (region, w) :: p.entered regions w') ∨
    ((p.scanRegions (region :: regions) w).2 = (p.scanRegionFirst region w).2 ∧
      p.entered (region :: regions) w = [(region, w)]) := by
  rcases hregion : p.scanRegionFirst region w with ⟨_ | _ | _, w'⟩
  · exact .inr ⟨by rw [scanRegions, hregion], by rw [entered, hregion]⟩
  · by_cases hroom : w'.out.len < p.limit
    · exact .inl ⟨w', rfl, p.scanRegions_past region regions w hregion hroom,
        p.entered_past region regions w hregion hroom⟩
    · refine .inr ⟨?_, ?_⟩
      · rw [scanRegions, hregion]
        exact congrArg Prod.snd (if_pos (Nat.not_lt.mp hroom))
      · rw [entered, hregion]
        exact congrArg _ (if_pos (Nat.not_lt.mp hroom))
  · exact .inr ⟨by rw [scanRegions, hregion], by rw [entered, hregion]⟩

end Entered

end FirstPass

end Nemclass.Scan
