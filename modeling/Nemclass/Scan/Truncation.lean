import Nemclass.Scan.Responsive

/-! The result limit and the flag that says it cut the matches. A pass and the pass that
has room for every match and an observer that never stops go in lockstep until the limit
is reached. The flag is raised when as many rows are held as the limit allows, whether or
not another match follows. -/
namespace Nemclass.Scan
open Usize Multiples

variable {σ : Type}

/-- The observer, but never asking the scan to stop. -/
def ScanObserver.heedless (observer : ScanObserver σ) : ScanObserver σ :=
  ⟨fun world progress => (true, (observer.tick world progress).2)⟩

namespace FirstPass
variable (p : FirstPass σ)

/-- The pass under another limit and no observer to stop it. -/
def freed (limit : ℕ) : FirstPass σ := { p with limit, observer := p.observer.heedless }

theorem freed_tick (limit : ℕ) {sinceTick sinceTick' : ℕ} {w w' : Walk σ}
    (h : p.tick sinceTick w = (true, sinceTick', w')) :
    (p.freed limit).tick sinceTick w = (true, sinceTick', w') := by
  unfold tick at h ⊢
  split at h
  · rename_i hdue
    rw [if_pos hdue]
    simp only [Prod.mk.injEq] at h
    simp only [freed, ScanObserver.heedless]
    rw [h.2.2, h.2.1]
  · rename_i hdue
    rw [if_neg hdue]
    exact h

section
variable (w : Walk σ)

/-- Rows are only ever appended. -/
theorem scanWindow_grows (addr : ℕ) (buf : List UInt8) (offs : List ℕ) (sinceTick : ℕ) :
    w.out.rows <+: (p.scanWindow addr buf offs sinceTick w).2.2.out.rows := by
  generalize hwin : p.scanWindow addr buf offs sinceTick w = r
  have hkept := p.scanWindow_keeps (fun _ w' => w.out.rows <+: w'.out.rows)
    (fun _ w' => w.out.rows <+: w'.out.rows) (fun _ _ h => by simpa using h)
    (fun _ w' addr value h => by
      rw [ScanResults.rows_push]
      exact h.trans (List.prefix_append _ _))
    addr buf offs (List.prefix_refl w.out.rows) hwin
  simpa using hkept

theorem walkRegion_grows (regionEnd addr sinceTick : ℕ) :
    w.out.rows <+: (p.walkRegion regionEnd addr sinceTick w).2.out.rows := by
  have hkept := p.walkRegion_keeps (fun _ w' => w.out.rows <+: w'.out.rows)
    (fun _ w' => w.out.rows <+: w'.out.rows) (fun _ _ h => by simpa using h)
    (fun _ w' addr value h => by
      rw [ScanResults.rows_push]
      exact h.trans (List.prefix_append _ _))
    (fun _ _ _ _ h => h) regionEnd addr sinceTick w (List.prefix_refl w.out.rows)
  simpa using hkept

theorem scanRegionFirst_grows (region : Region) :
    w.out.rows <+: (p.scanRegionFirst region w).2.out.rows := by
  unfold scanRegionFirst
  split
  · exact List.prefix_refl _
  · exact p.walkRegion_grows w region.stop _ 0

theorem scanRegions_grows (regions : List Region) :
    w.out.rows <+: (p.scanRegions regions w).2.out.rows := by
  induction regions generalizing w with
  | nil => exact List.prefix_refl _
  | cons region regions ih =>
    have hregion := p.scanRegionFirst_grows w region
    obtain ⟨w', hdone, -, hgo⟩ | hleft := p.scanRegions_cons region regions w
    · rw [hdone] at hregion
      rw [hgo]
      exact hregion.trans (ih w')
    · rw [hleft]
      exact hregion

/-- A pass holds the rows of its first region. -/
theorem scanRegions_first_grows (region : Region) (regions : List Region) :
    (p.scanRegionFirst region w).2.out.rows <+: (p.scanRegions (region :: regions) w).2.out.rows := by
  obtain ⟨w', hdone, -, hgo⟩ | hleft := p.scanRegions_cons region regions w
  · rw [hdone, hgo]
    exact p.scanRegions_grows w' regions
  · rw [hleft]

theorem scanRegions_singleton (region : Region) :
    (p.scanRegions [region] w).2.out = (p.scanRegionFirst region w).2.out := by
  obtain ⟨w', hdone, -, hgo⟩ | hleft := p.scanRegions_cons region [] w
  · rw [hdone, hgo, scanRegions]
  · rw [hleft]

end

/-- A window that reaches no limit is scanned the same under a larger one; one that does holds as
many rows as the limit allows, the first ones of the other. At least one row is always taken. -/
theorem scanWindow_freed {limit : ℕ} (hlimit : max p.limit 1 ≤ limit) (addr : ℕ) (buf : List UInt8)
    (offs : List ℕ) {sinceTick : ℕ} {w : Walk σ} (hlen : w.out.len < max p.limit 1)
    {exit : WindowExit} {sinceTick' : ℕ} {w' : Walk σ}
    (hwin : p.scanWindow addr buf offs sinceTick w = (exit, sinceTick', w')) :
    (exit = .exhausted → w'.out.len < max p.limit 1 ∧
      (p.freed limit).scanWindow addr buf offs sinceTick w = (.exhausted, sinceTick', w')) ∧
    (exit = .limit → w'.out.len = max p.limit 1 ∧
      w'.out.rows <+: ((p.freed limit).scanWindow addr buf offs sinceTick w).2.2.out.rows) := by
  induction offs generalizing sinceTick w with
  | nil =>
    simp only [scanWindow, Prod.mk.injEq] at hwin
    obtain ⟨rfl, rfl, rfl⟩ := hwin
    exact ⟨fun _ => ⟨hlen, rfl⟩, by simp⟩
  | cons off offs ih =>
    have hout := p.tick_out sinceTick w
    obtain ⟨-, rfl⟩ | ⟨sinceTick₁, w₁, heq, hnext⟩ := p.scanWindow_cons_cases hwin
    · simp
    · rw [heq] at hout
      have hcollect : (p.collect addr buf off w₁).out.len = w.out.len + 1 := by
        rw [← hout]
        simp [collect, ScanResults.len, ScanResults.push]
      have htick := p.freed_tick limit heq
      obtain ⟨hm, hfull, rfl, rfl, rfl⟩ | ⟨hm, hmore, hrest⟩ | ⟨hm, hrest⟩ := hnext
      · refine ⟨by simp, fun _ => ⟨by omega, ?_⟩⟩
        rw [(p.freed limit).scanWindow_matched htick hm]
        split
        · exact List.prefix_refl _
        · exact (p.freed limit).scanWindow_grows _ addr buf offs _
      · have hfits : ((p.freed limit).collect addr buf off w₁).out.len < (p.freed limit).limit :=
          (by omega : (p.collect addr buf off w₁).out.len < limit)
        rw [(p.freed limit).scanWindow_matched htick hm, if_neg (Nat.not_le.mpr hfits)]
        exact ih (w := p.collect addr buf off w₁) (by omega) hrest
      · rw [(p.freed limit).scanWindow_unmatched htick hm]
        exact ih (hout ▸ hlen) hrest

/-- However the window that was read ends, the walk holds its rows. -/
theorem walkRegion_holds {regionEnd addr sinceTick : ℕ} {w w' : Walk σ} {world : σ}
    {buf : Transfer (min p.bufLen (regionEnd - addr))} (hlt : addr < regionEnd)
    (hread : p.target.read w.world addr (min p.bufLen (regionEnd - addr)) = (.ok buf, world))
    (hlong : ¬ buf.val.length < p.stride) {exit : WindowExit} {sinceTick' : ℕ}
    (hwin : p.scanWindow addr buf.val (stepBy (buf.val.length - p.stride) p.align) sinceTick
      { w with world } = (exit, sinceTick', w')) :
    w'.out.rows <+: (p.walkRegion regionEnd addr sinceTick w).2.out.rows := by
  rw [p.walkRegion_window hlt hread hlong hwin]
  cases exit with
  | cancelled | limit => exact List.prefix_refl _
  | exhausted =>
    dsimp only
    split
    · exact List.prefix_refl _
    · exact p.walkRegion_grows w' regionEnd _ sinceTick'

/-- So is a region's walk that completes. -/
theorem walkRegion_freed {limit : ℕ} (hlimit : max p.limit 1 ≤ limit) (regionEnd addr : ℕ)
    (sinceTick : ℕ) (w : Walk σ) (hlen : w.out.len < max p.limit 1)
    (hdone : (p.walkRegion regionEnd addr sinceTick w).1 = .ok .completed) :
    let w' := (p.walkRegion regionEnd addr sinceTick w).2
    (w'.out.len < max p.limit 1 ∧
      (p.freed limit).walkRegion regionEnd addr sinceTick w = (.ok .completed, w')) ∨
    (w'.out.len = max p.limit 1 ∧
      w'.out.rows <+: ((p.freed limit).walkRegion regionEnd addr sinceTick w).2.out.rows) := by
  fun_induction p.walkRegion regionEnd addr sinceTick w with
  | case1 | case3 | case5 => simp at hdone
  | case2 addr sinceTick w hlt remaining want buf world heq w₀ read hshort =>
    exact .inl ⟨hlen, (p.freed limit).walkRegion_short hlt heq hshort⟩
  | case4 addr sinceTick w hlt remaining want buf world heq w₀ read hlong _ w' hwin =>
    obtain ⟨hfull, hpre⟩ := (p.scanWindow_freed (w := w₀) hlimit addr buf.val _ hlen hwin).2 rfl
    exact .inr ⟨hfull, hpre.trans ((p.freed limit).walkRegion_holds hlt heq hlong rfl)⟩
  | case6 addr sinceTick w hlt remaining want buf world heq w₀ read hlong _ w' hwin next hnext ih =>
    obtain ⟨hroom, hsame⟩ := (p.scanWindow_freed (w := w₀) hlimit addr buf.val _ hlen hwin).1 rfl
    have hadvance : (p.freed limit).advance addr buf.val.length = some next := hnext
    rw [(p.freed limit).walkRegion_window hlt heq hlong hsame, hadvance]
    exact ih hroom hdone
  | case7 addr sinceTick w hge =>
    exact .inl ⟨hlen, (p.freed limit).walkRegion_past hge sinceTick w⟩

theorem scanRegionFirst_freed {limit : ℕ} (hlimit : max p.limit 1 ≤ limit) (region : Region)
    {w w' : Walk σ} (hlen : w.out.len < max p.limit 1)
    (hdone : p.scanRegionFirst region w = (.ok .completed, w')) :
    (w'.out.len < max p.limit 1 ∧
      (p.freed limit).scanRegionFirst region w = (.ok .completed, w')) ∨
    (w'.out.len = max p.limit 1 ∧
      w'.out.rows <+: ((p.freed limit).scanRegionFirst region w).2.out.rows) := by
  have halign : (p.freed limit).align = p.align := rfl
  unfold scanRegionFirst at hdone ⊢
  rw [halign]
  split at hdone
  · simp at hdone
  · rename_i addr haddr
    have hregion := p.walkRegion_freed hlimit region.stop addr 0 w hlen (by rw [hdone])
    rw [hdone] at hregion
    exact hregion

/-- A limit that a pass cannot reach: it takes at most a row for every byte. -/
def ample (regions : List Region) (w : Walk σ) : ℕ :=
  p.limit + 1 + w.out.len + (regions.map Region.size).sum

/-- The rows of the pass with room for every match and no observer to stop it. -/
def everyMatch (regions : List Region) (w : Walk σ) : List ScanResult :=
  ((p.freed (p.ample regions w)).scanRegions regions w).2.out.rows

/-- A pass that ends below its limit holds every match; one that ends at it holds the first ones. -/
theorem scanRegions_freed {limit : ℕ} (hpos : 0 < p.limit) (hlimit : p.limit < limit)
    (regions : List Region) {w w' : Walk σ} (hlen : w.out.len < p.limit) {truncated : Bool}
    (hdone : p.scanRegions regions w = (.ok truncated, w')) :
    w'.out.len ≤ p.limit ∧ (truncated = true ↔ w'.out.len = p.limit) ∧
      w'.out.rows <+: ((p.freed limit).scanRegions regions w).2.out.rows ∧
      (truncated = false → ((p.freed limit).scanRegions regions w).2.out.rows = w'.out.rows) := by
  have hmax : max p.limit 1 = p.limit := Nat.max_eq_left hpos
  induction regions generalizing w with
  | nil =>
    simp only [scanRegions, Prod.mk.injEq, Except.ok.injEq] at hdone ⊢
    obtain ⟨rfl, rfl⟩ := hdone
    exact ⟨hlen.le, by simp; omega, List.prefix_refl _, fun _ => rfl⟩
  | cons region regions ih =>
    obtain ⟨w₁, heq, ⟨hfull, rfl, rfl⟩ | ⟨hmore, hrest⟩⟩ :=
      p.scanRegions_cons_ok region regions w hdone
    · have hregion := p.scanRegionFirst_freed (by omega : max p.limit 1 ≤ limit) region (by omega) heq
      rw [hmax] at hregion
      obtain ⟨hexact, hpre⟩ := hregion.resolve_left fun h => by omega
      exact ⟨hexact.le, by simp [hexact], hpre.trans
        ((p.freed limit).scanRegions_first_grows w region regions), by simp⟩
    · have hregion := p.scanRegionFirst_freed (by omega : max p.limit 1 ≤ limit) region (by omega) heq
      rw [hmax] at hregion
      obtain ⟨hroom, hsame⟩ := hregion.resolve_right fun h => by omega
      rw [(p.freed limit).scanRegions_past region regions w hsame (hroom.trans hlimit)]
      exact ih hroom hrest

theorem limit_lt_ample (regions : List Region) (w : Walk σ) : p.limit < p.ample regions w := by
  unfold ample
  omega

/-- No limit has cut the rows that are called every match. -/
theorem everyMatch_length_lt (regions : List Region) (w : Walk σ) (hpos : 0 < p.stride)
    (hout : w.out.stride = p.stride) : (p.everyMatch regions w).length < p.ample regions w := by
  have hrows (q : FirstPass σ) (hq : q.stride = p.stride) (w : Walk σ)
      (hout : w.out.stride = p.stride) : (q.scanRegions regions w).2.out.len ≤
        w.out.len + (regions.map Region.size).sum := by
    induction regions generalizing w with
    | nil => exact Nat.le_add_right _ _
    | cons region regions ih =>
      have hregion := q.scanRegionFirst_within region w (hq ▸ hpos) (hq ▸ hout)
      have hstop : region.stop - region.base ≤ region.size := by
        simp only [Region.stop, saturatingAdd]
        omega
      have hlen := hregion.len_le
      rw [List.map_cons, List.sum_cons]
      obtain ⟨w', hdone, -, hgo⟩ | hleft := q.scanRegions_cons region regions w
      · rw [hdone] at hlen hregion
        rw [hgo]
        dsimp only at hlen
        have := ih w' (hregion.1.trans hout)
        omega
      · rw [hleft]
        omega
  have hle := hrows (p.freed (p.ample regions w)) rfl w hout
  rw [everyMatch, ScanResults.rows_length]
  refine hle.trans_lt ?_
  unfold ample
  omega

/-- Over filled regions every match is a matching lattice position, with the bytes found there. -/
theorem everyMatch_of_fills {mem : ℕ → UInt8} (hpos : 0 < p.stride) (regions : List Region)
    (hfills : ∀ r ∈ regions, Fills p.target mem r)
    (hroom : ∀ r ∈ regions, r.stop + p.align ≤ usizeMax) (w : Walk σ)
    (hout : w.out.stride = p.stride) (hempty : w.out.len = 0) :
    p.everyMatch regions w = (regions.flatMap (p.regionHits mem)).map (p.memRow mem) := by
  have hcut := p.everyMatch_length_lt regions w hpos hout
  have hcollects := ((p.freed (p.ample regions w)).scanRegions_collects (fun _ _ => rfl) hpos
    regions hfills hroom w hout (by show w.out.len < p.ample regions w; unfold ample; omega)).2
  have hrows := hcollects.rows_eq
  have hnil : w.out.rows = [] := List.length_eq_zero_iff.mp (by rw [ScanResults.rows_length, hempty])
  rw [hnil, Capped.offer, List.nil_append] at hrows
  rw [everyMatch, hrows] at hcut ⊢
  rw [List.length_take] at hcut
  refine List.take_of_length_le ?_
  have hlimit : (p.freed (p.ample regions w)).limit = p.ample regions w := rfl
  omega

/-- Under a limit of zero the first match of the first region is taken all the same, and the pass
ends after that region. -/
theorem scanRegions_zero (hzero : p.limit = 0) (regions : List Region) {w w' : Walk σ}
    (hlen : w.out.len = 0) {truncated : Bool} (hdone : p.scanRegions regions w = (.ok truncated, w')) :
    (truncated = true ↔ regions ≠ []) ∧ w'.out.rows <+: p.everyMatch regions w ∧
      (w'.out.len = 0 ↔ p.everyMatch (regions.take 1) w = []) := by
  cases regions with
  | nil =>
    simp only [scanRegions, Prod.mk.injEq, Except.ok.injEq] at hdone
    obtain ⟨rfl, rfl⟩ := hdone
    have hnil : w.out.rows = [] := List.length_eq_zero_iff.mp (by rw [ScanResults.rows_length, hlen])
    simp [everyMatch, scanRegions, hnil, hlen]
  | cons region regions =>
    obtain ⟨_, heq, ⟨-, rfl, rfl⟩ | ⟨hmore, -⟩⟩ := p.scanRegions_cons_ok region regions w hdone
    · have hregion {limit : ℕ} (hlimit : p.limit < limit) :
          w'.out.rows <+: ((p.freed limit).scanRegionFirst region w).2.out.rows ∧ (w'.out.len = 0 →
            ((p.freed limit).scanRegionFirst region w).2.out.rows = w'.out.rows) := by
        rcases p.scanRegionFirst_freed (by omega : max p.limit 1 ≤ limit) region (by omega) heq with
          ⟨_, hsame⟩ | ⟨hone, hpre⟩
        · rw [hsame]
          exact ⟨List.prefix_refl _, fun _ => rfl⟩
        · exact ⟨hpre, fun h => by omega⟩
      refine ⟨by simp, ?_, ?_⟩
      · exact (hregion (p.limit_lt_ample _ w)).1.trans
          (scanRegions_first_grows _ w region regions)
      · obtain ⟨hpre, hsame⟩ := hregion (p.limit_lt_ample [region] w)
        rw [List.take_succ_cons, List.take_zero, everyMatch, scanRegions_singleton]
        rw [← ScanResults.rows_length, List.length_eq_zero_iff] at hsame ⊢
        constructor
        · intro hnil
          rw [hsame hnil, hnil]
        · intro hnil
          rw [hnil] at hpre
          exact List.prefix_nil.mp hpre
    · omega

section Flag
variable {regions : List Region} {w w' : Walk σ} {truncated : Bool} (hlen : w.out.len = 0)
  (hdone : p.scanRegions regions w = (.ok truncated, w'))
include hlen hdone

/-- A limit that is not zero says that matches were cut unless it holds just as many. -/
theorem flag_exact_iff_of_pos (hpos : 0 < p.limit) :
    (w'.out.len ≤ p.limit ∧ w'.out.rows <+: p.everyMatch regions w ∧
        (truncated = true ↔ (p.everyMatch regions w).length ≠ w'.out.len)) ↔
      (p.everyMatch regions w).length ≠ p.limit := by
  obtain ⟨hle, htrunc, hpre, hall⟩ := p.scanRegions_freed hpos (p.limit_lt_ample regions w) regions
    (hlen ▸ hpos) hdone
  change w'.out.rows <+: p.everyMatch regions w at hpre
  change truncated = false → p.everyMatch regions w = w'.out.rows at hall
  simp only [hle, hpre, htrunc, true_and]
  cases truncated with
  | false =>
    have hbelow : w'.out.len ≠ p.limit := by simpa using htrunc
    have hrows := congrArg List.length (hall rfl)
    rw [ScanResults.rows_length] at hrows
    omega
  | true =>
    have heq : w'.out.len = p.limit := by simpa using htrunc
    rw [heq]
    simp

/-- A limit of zero says so after the first region, which it lets through one match of. -/
theorem flag_exact_iff_of_zero (hzero : p.limit = 0) :
    (w'.out.len ≤ p.limit ∧ w'.out.rows <+: p.everyMatch regions w ∧
        (truncated = true ↔ (p.everyMatch regions w).length ≠ w'.out.len)) ↔
      regions = [] ∨ p.everyMatch (regions.take 1) w = [] ∧ p.everyMatch regions w ≠ [] := by
  obtain ⟨htrunc, hpre, hfirst⟩ := p.scanRegions_zero hzero regions hlen hdone
  rw [hzero, Nat.le_zero, htrunc, ← hfirst, ← List.length_eq_zero_iff.ne]
  cases regions with
  | nil =>
    simp only [scanRegions, Prod.mk.injEq] at hdone
    obtain ⟨_, rfl⟩ := hdone
    have hnil : w.out.rows = [] := List.length_eq_zero_iff.mp (by rw [ScanResults.rows_length, hlen])
    simp [everyMatch, scanRegions, hlen, hnil]
  | cons region regions =>
    simp only [ne_eq, reduceCtorEq, not_false_eq_true, true_iff, hpre, true_and, false_or]
    exact and_congr_right fun hempty => by rw [hempty, List.length_eq_zero_iff]

end Flag

end FirstPass

namespace Scanner

/-- The matches of the regions, as a first scan with room for all of them collects them. -/
def everyMatch (s : Scanner) (target : ScanTarget σ) (observer : ScanObserver σ)
    (compare : ScanCompareType) (needle : Option Needle) (total : ℕ) (world : σ)
    (regions : List Region) : List ScanResult :=
  (s.firstPass target observer compare needle total).everyMatch regions
    ⟨world, .withStride (s.stride needle), 0⟩

/-- The session holds the first matches, at most as many as the limit allows, and says that they
were cut exactly if they were. -/
structure ExactFlag (limit : ℕ) (s : Scanner) (found : List ScanResult) : Prop where
  len_le : s.results.len ≤ limit
  first : s.results.rows <+: found
  flag : s.truncated = true ↔ s.results.rows ≠ found

theorem exactFlag_iff {s : Scanner} {limit : ℕ} {found : List ScanResult} :
    s.ExactFlag limit found ↔ s.results.len ≤ limit ∧ s.results.rows <+: found ∧
      (s.truncated = true ↔ found.length ≠ s.results.len) := by
  have hrows (hpre : s.results.rows <+: found) :
      s.results.rows = found ↔ found.length = s.results.len := by
    rw [← ScanResults.rows_length]
    exact ⟨fun h => by rw [h], fun h => hpre.eq_of_length h.symm⟩
  constructor
  · rintro ⟨hle, hpre, hcut⟩
    rw [ne_eq, hrows hpre] at hcut
    exact ⟨hle, hpre, hcut⟩
  · rintro ⟨hle, hpre, hcut⟩
    refine ⟨hle, hpre, ?_⟩
    rw [ne_eq, hrows hpre]
    exact hcut

/-- The flag is exact unless the matches are just as many as the limit. Under a limit of zero it is
exact if nothing is walked, or if the first region has no match and another one has. -/
theorem firstScanWith_flag_exact_iff (s : Scanner) {target : ScanTarget σ}
    {observer : ScanObserver σ} {compare : ScanCompareType} {needle : Option Needle}
    {world world₁ world' : σ} {all : List Region} {total : ℕ} {s' : Scanner}
    (hregions : target.regions world = (.ok all, world₁))
    (htotal : checkedSum ((s.regionFilter.apply all).map (·.size / s.alignmentStep)) = some total)
    (h : s.firstScanWith target observer compare needle world = (.ok (), s', world')) :
    s'.ExactFlag s.resultLimit
        (s.everyMatch target observer compare needle total world₁ (s.regionFilter.apply all)) ↔
      (0 < s.resultLimit ∧ (s.everyMatch target observer compare needle total world₁
        (s.regionFilter.apply all)).length ≠ s.resultLimit) ∨
      (s.resultLimit = 0 ∧ (s.regionFilter.apply all = [] ∨
        (s.everyMatch target observer compare needle total world₁
          ((s.regionFilter.apply all).take 1) = [] ∧
        s.everyMatch target observer compare needle total world₁ (s.regionFilter.apply all) ≠ []))) := by
  obtain ⟨all', total', truncated, w, -, hregions', htotal', hwalk, rfl⟩ := firstScanWith_ok h
  rw [hregions] at hregions' hwalk
  cases hregions'
  rw [htotal] at htotal'
  cases htotal'
  have hlimit : (s.firstPass target observer compare needle total).limit = s.resultLimit := rfl
  have hflag : ((s.enterWalk (s.regionFilter.apply all)).commitWalk truncated w).truncated =
      truncated := rfl
  rw [exactFlag_iff, commitWalk_results, hflag, ← hlimit]
  unfold everyMatch
  rcases Nat.eq_zero_or_pos s.resultLimit with hzero | hpos
  · rw [FirstPass.flag_exact_iff_of_zero _ rfl hwalk (hlimit.trans hzero), hlimit, hzero]
    simp
  · rw [FirstPass.flag_exact_iff_of_pos _ rfl hwalk (hlimit ▸ hpos), hlimit]
    simp [hpos, Nat.pos_iff_ne_zero.mp hpos]

/-- Three bytes of which a limit of two keeps the first ones. -/
theorem firstScanWith_flag_three :
    let s := (new .u8).withResultLimit 2
    let m := MockTarget.new 0x1000 [7, 8, 9]
    let r := s.firstScanWith (m.target Unit) (noObserver Unit) .unknown none ()
    r.2.1.ExactFlag s.resultLimit (s.everyMatch (m.target Unit) (noObserver Unit) .unknown none 3 ()
        (s.regionFilter.apply m.regions)) ↔
      (0 < s.resultLimit ∧ (s.everyMatch (m.target Unit) (noObserver Unit) .unknown none 3 ()
        (s.regionFilter.apply m.regions)).length ≠ s.resultLimit) ∨
      (s.resultLimit = 0 ∧ (s.regionFilter.apply m.regions = [] ∨
        (s.everyMatch (m.target Unit) (noObserver Unit) .unknown none 3 ()
          ((s.regionFilter.apply m.regions).take 1) = [] ∧
        s.everyMatch (m.target Unit) (noObserver Unit) .unknown none 3 ()
          (s.regionFilter.apply m.regions) ≠ []))) :=
  firstScanWith_flag_exact_iff _ rfl (by decide) (Prod.ext (by decide +kernel) rfl)

/-- One byte and a limit of one: nothing is cut, and the flag says it was. -/
theorem firstScanWith_flag_at_limit :
    let s := (new .u8).withResultLimit 1
    let m := MockTarget.new 0x1000 [7]
    let r := s.firstScanWith (m.target Unit) (noObserver Unit) .unknown none ()
    r.1 = .ok () ∧ ¬ r.2.1.ExactFlag s.resultLimit (s.everyMatch (m.target Unit) (noObserver Unit)
      .unknown none 1 () (s.regionFilter.apply m.regions)) := by
  refine ⟨by decide +kernel, fun h => ?_⟩
  have hnone := h.flag.mp (by decide +kernel)
  exact hnone (by decide +kernel)

end Scanner

end Nemclass.Scan
