import Nemclass.Scan.Responsive
import Nemclass.Scan.WalkSafety

/-! The progress that a first scan reports, against the total announced for it. The count goes up
from tick to tick. The total is an estimate from the sizes of the regions, which bounds the count
exactly if, in every region with a whole interval of positions, the last full interval still lies
within it: targets that read whole values only take a scan to each of these counts. -/
namespace Nemclass.Scan
open Usize Multiples Reports

variable {σ : Type}

/-- No count is past the total it is reported with. -/
def WithinTotal (log : List Query) : Prop :=
  ∀ progress, .tick progress ∈ log → progress.done ≤ progress.total

/-- The lattice positions of a region at which a whole value lies inside it. -/
def positions (align stride : ℕ) (r : Region) : ℕ :=
  (multiples align r.base (r.stop + 1 - stride)).length

instance (align stride : ℕ) (r : Region) : Decidable (LatticeFits align stride r) := by
  unfold LatticeFits
  infer_instance

/-- A region with a position past which the lattice does not go on has that position. -/
theorem positions_pos {align stride : ℕ} {r : Region} (halign : 0 < align)
    (hbase : nextMultipleOf r.base align ≤ usizeMax) (hfits : ¬ LatticeFits align stride r) :
    0 < positions align stride r := by
  unfold LatticeFits at hfits
  push Not at hfits
  have hposition := (hfits hbase).1
  refine List.length_pos_of_mem (a := nextMultipleOf r.base align) (mem_multiples.mpr ?_)
  exact ⟨dvd_nextMultipleOf _ halign, le_nextMultipleOf _ _, by omega⟩

/-- The most positions that a pass counts in a region and then goes on: past the last of them it
overflows where the lattice does not go on. -/
def passed (align stride : ℕ) (r : Region) : ℕ :=
  if LatticeFits align stride r then positions align stride r else positions align stride r - 1

theorem passed_le (align stride : ℕ) (r : Region) :
    passed align stride r ≤ positions align stride r := by
  unfold passed
  split <;> omega

/-- Where all positions are counted, the lattice goes on past the last of them. -/
theorem passed_lt_or_fits {align stride : ℕ} {r : Region} (halign : 0 < align)
    (hbase : nextMultipleOf r.base align ≤ usizeMax) :
    passed align stride r < positions align stride r ∨ LatticeFits align stride r := by
  by_cases hfits : LatticeFits align stride r
  · exact .inr hfits
  · left
    unfold passed
    rw [if_neg hfits]
    exact Nat.sub_one_lt (positions_pos halign hbase hfits).ne'

/-- The sum of the sizes in steps is not overtaken at the last full interval of any region that a
pass can get to. -/
def EstimateCovers (align stride : ℕ) (regions : List Region) : Prop :=
  (regions.map (·.size / align)).sum ≤ usizeMax →
    ∀ before r after, regions = before ++ r :: after →
      (∀ q ∈ before, nextMultipleOf q.base align ≤ usizeMax) →
      progressInterval ≤ positions align stride r →
      (before.map (passed align stride)).sum +
          progressInterval * (positions align stride r / progressInterval) ≤
        (regions.map (·.size / align)).sum

section Estimate

/-- A step no longer than a value fits into a region at least as often as there are positions. -/
theorem positions_le {align stride : ℕ} (halign : 0 < align) (h : align ≤ stride) (r : Region) :
    positions align stride r ≤ r.size / align := by
  have hbase := le_nextMultipleOf r.base align
  have hsize : r.stop ≤ r.base + r.size := Nat.min_le_left _ _
  unfold positions
  rw [← multiples_nextMultipleOf halign]
  by_cases hsome : nextMultipleOf r.base align + stride ≤ r.stop
  · have hlast : r.stop + 1 - stride =
        nextMultipleOf r.base align + (r.stop - stride - nextMultipleOf r.base align) + 1 := by omega
    rw [hlast, ← map_add_stepBy halign (dvd_nextMultipleOf r.base halign), List.length_map, stepBy,
      List.length_map, List.length_range, ← Nat.add_div_right _ halign]
    exact Nat.div_le_div_right (by omega)
  · rw [multiples_of_le align (by omega)]
    exact Nat.zero_le _

/-- The estimate covers every list of regions when the step is no longer than a value, as it is
unless it was set. -/
theorem estimateCovers_of_le {align stride : ℕ} (halign : 0 < align) (h : align ≤ stride)
    (regions : List Region) : EstimateCovers align stride regions := by
  rintro - before r after rfl - -
  have hbefore : (before.map (passed align stride)).sum ≤ (before.map (·.size / align)).sum := by
    exact List.sum_le_sum fun q _ => (passed_le align stride q).trans (positions_le halign h q)
  have hr := positions_le halign h r
  have hwhole := Nat.mul_div_le (positions align stride r) progressInterval
  rw [List.map_append, List.sum_append, List.map_cons, List.sum_cons]
  omega

end Estimate

section Log

theorem mem_reports {log : List Query} {d : ℕ} :
    d ∈ reports log ↔ ∃ progress, .tick progress ∈ log ∧ progress.done = d := by
  simp only [reports, List.mem_filterMap]
  constructor
  · rintro ⟨query, hquery, hsome⟩
    cases query with
    | read addr len => cases hsome
    | tick progress => exact ⟨progress, hquery, Option.some.inj hsome⟩
  · rintro ⟨progress, hprogress, rfl⟩
    exact ⟨_, hprogress, rfl⟩

theorem regular_sorted {interval : ℕ} (hpos : 0 < interval) (start k : ℕ) :
    (regular interval start k).Pairwise (· < ·) := by
  rw [regular, List.pairwise_map]
  exact List.pairwise_lt_range.imp fun h =>
    Nat.add_lt_add_left ((Nat.mul_lt_mul_left hpos).mpr (Nat.succ_lt_succ h)) start

/-- Every tick of a log has the same total. -/
def Labelled (total : ℕ) (log : List Query) : Prop :=
  ∀ progress, .tick progress ∈ log → progress.total = total

theorem Labelled.within {total : ℕ} {log : List Query} (h : Labelled total log) :
    WithinTotal log ↔ ∀ d ∈ reports log, d ≤ total := by
  constructor
  · intro hwithin d hd
    obtain ⟨progress, hprogress, rfl⟩ := mem_reports.mp hd
    rw [← h progress hprogress]
    exact hwithin progress hprogress
  · intro hle progress hprogress
    rw [h progress hprogress]
    exact hle _ (mem_reports.mpr ⟨progress, hprogress, rfl⟩)

end Log

namespace FirstPass
variable (p : FirstPass σ)

/-- What counting a candidate, collecting a row and reading keep, a pass keeps. -/
theorem scanRegions_keeps (Inv : Walk σ → Prop)
    (htick : ∀ sinceTick w, Inv w → Inv (p.tick sinceTick w).2.2)
    (hout : ∀ w addr value, Inv w → Inv { w with out := w.out.push addr value value })
    (hread : ∀ w addr len, Inv w → Inv { w with world := (p.target.read w.world addr len).2 })
    (regions : List Region) (w : Walk σ) (h : Inv w) : Inv (p.scanRegions regions w).2 := by
  have hregion (region : Region) (w : Walk σ) (h : Inv w) :
      Inv (p.scanRegionFirst region w).2 := by
    unfold scanRegionFirst
    split
    · exact h
    · obtain ⟨_, hkept⟩ := p.walkRegion_keeps (fun _ => Inv) (fun _ => Inv)
        (fun sinceTick w h => by simpa using htick sinceTick w h)
        (fun _ w addr value => hout w addr value)
        (fun _ w addr len => hread w addr len) region.stop _ 0 w h
      simpa using hkept
  induction regions generalizing w with
  | nil => exact h
  | cons region regions ih =>
    have hhere := hregion region w h
    obtain ⟨w', hdone, -, hgo⟩ | hleft := p.scanRegions_cons region regions w
    · rw [hdone] at hhere
      rw [hgo]
      exact ih w' hhere
    · rw [hleft]
      exact hhere

theorem scanRegions_labelled (regions : List Region) (w : Walk (σ × List Query))
    (h : Labelled p.total w.world.2) :
    Labelled p.total (p.recorded.scanRegions regions w).2.world.2 := by
  refine p.recorded.scanRegions_keeps (fun w => Labelled p.total w.world.2)
    (fun sinceTick w h => ?_) (fun _ _ _ h => h) (fun w addr len h => ?_) regions w h
  · unfold tick
    split
    · intro progress hprogress
      rcases List.mem_append.mp hprogress with hold | hnew
      · exact h progress hold
      · cases List.mem_singleton.mp hnew
        rfl
    · exact h
  · intro progress hprogress
    rcases List.mem_append.mp hprogress with hold | hnew
    · exact h progress hold
    · cases List.mem_singleton.mp hnew

/-- A pass only adds to the log. -/
theorem scanRegions_log (regions : List Region) (w : Walk (σ × List Query)) :
    w.world.2 <+: (p.recorded.scanRegions regions w).2.world.2 := by
  refine p.recorded.scanRegions_keeps (fun w' => w.world.2 <+: w'.world.2)
    (fun sinceTick w' h => ?_) (fun _ _ _ h => h) (fun w' addr len h => ?_) regions w
    (List.prefix_refl _)
  · unfold tick
    split
    · exact h.trans (List.prefix_append _ _)
    · exact h
  · exact h.trans (List.prefix_append _ _)

/-- Where the lattice does not go on past the last position, a walk that completes below the limit
has left a position out. -/
theorem walkRegion_leaves (regionEnd addr sinceTick : ℕ) (w : Walk σ) (hpos : 0 < p.stride)
    (haddr : p.align ∣ addr) (hle : addr ≤ usizeMax) (hstride : p.stride ≤ regionEnd)
    (hlarge : usizeMax < nextMultipleOf (regionEnd - p.stride + 1) p.align)
    (hdone : (p.walkRegion regionEnd addr sinceTick w).1 = .ok .completed)
    (hroom : (p.walkRegion regionEnd addr sinceTick w).2.out.len < p.limit) :
    (p.walkRegion regionEnd addr sinceTick w).2.scanned + 1 ≤
      w.scanned + (multiples p.align addr (regionEnd + 1 - p.stride)).length := by
  have hposition {a : ℕ} (ha : p.align ∣ a) (hale : a ≤ usizeMax) : a + p.stride ≤ regionEnd := by
    by_contra hpast
    have := nextMultipleOf_le_of_dvd p.align_pos ha (by omega : regionEnd - p.stride + 1 ≤ a)
    omega
  have hleft {a : ℕ} (ha : p.align ∣ a) (hale : a ≤ usizeMax) :
      1 ≤ (multiples p.align a (regionEnd + 1 - p.stride)).length := by
    have := hposition ha hale
    rw [multiples_cons p.align_pos ha (by omega), List.length_cons]
    exact Nat.succ_le_succ (Nat.zero_le _)
  fun_induction p.walkRegion regionEnd addr sinceTick w with
  | case1 | case3 | case5 => simp at hdone
  | case2 addr sinceTick w => exact Nat.add_le_add_left (hleft haddr hle) w.scanned
  | case4 addr sinceTick w _ _ _ buf _ _ w₀ read hlong _ w' hwin =>
    have hfull := (p.scanWindow_scanned addr buf.val _ hwin).2.2 rfl
    dsimp only at hroom
    omega
  | case6 addr sinceTick w _ _ _ buf _ _ w₀ read hlong _ w' hwin next hnext ih =>
    have hbuf := buf.property
    have hcount : w'.scanned ≤ w.scanned + _ := (p.scanWindow_scanned addr buf.val _ hwin).1
    have hfit := p.length_window regionEnd haddr (by omega) hlong
    rw [p.multiples_advance haddr hpos hlong hnext] at hfit
    have hrest := ih (p.dvd_advance haddr hnext) (p.advance_le hnext) hdone hroom
    omega
  | case7 addr =>
    have := hposition haddr hle
    omega

/-- A region that a pass goes on past. -/
theorem scanRegionFirst_passed {region : Region} {w w' : Walk σ} (hpos : 0 < p.stride)
    (hdone : p.scanRegionFirst region w = (.ok .completed, w')) (hroom : w'.out.len < p.limit) :
    nextMultipleOf region.base p.align ≤ usizeMax ∧
      w'.scanned ≤ w.scanned + passed p.align p.stride region := by
  by_cases hbase : nextMultipleOf region.base p.align ≤ usizeMax
  · refine ⟨hbase, ?_⟩
    unfold passed
    split
    · have hle := p.scanRegionFirst_scanned_le region w hpos
      rw [hdone] at hle
      exact hle
    · rename_i hfits
      obtain ⟨hposition, hlarge⟩ : nextMultipleOf region.base p.align + p.stride ≤ region.stop ∧
          usizeMax < nextMultipleOf (region.stop - p.stride + 1) p.align := by
        unfold LatticeFits at hfits
        push Not at hfits
        exact hfits hbase
      rw [p.scanRegionFirst_of_le hbase] at hdone
      have hleaves := p.walkRegion_leaves region.stop _ 0 w hpos
        (dvd_nextMultipleOf region.base p.align_pos) hbase (by omega) hlarge (by rw [hdone])
        (by rwa [hdone])
      rw [hdone, multiples_nextMultipleOf p.align_pos] at hleaves
      dsimp only at hleaves
      unfold positions
      omega
  · rw [p.scanRegionFirst_of_lt (Nat.not_le.mp hbase)] at hdone
    cases hdone

/-- What a region adds to the log goes up from the count at which it was entered, by whole
intervals of its own positions. -/
theorem scanRegionFirst_adds (region : Region) (w : Walk (σ × List Query)) (hpos : 0 < p.stride) :
    ∃ k, reports (p.recorded.scanRegionFirst region w).2.world.2 =
        reports w.world.2 ++ regular progressInterval w.scanned k ∧
      w.scanned + progressInterval * k ≤ (p.recorded.scanRegionFirst region w).2.scanned ∧
      (p.recorded.scanRegionFirst region w).2.scanned < w.scanned + progressInterval * (k + 1) ∧
      k ≤ positions p.align p.stride region / progressInterval := by
  obtain ⟨sinceTick, hsince, k, hlog, hcount⟩ := p.scanRegionFirst_reports region w
  have hle := p.recorded.scanRegionFirst_scanned_le region w hpos
  have hmul : progressInterval * (k + 1) = progressInterval * k + progressInterval :=
    Nat.mul_succ progressInterval k
  refine ⟨k, hlog, by omega, by omega, ?_⟩
  refine (Nat.le_div_iff_mul_le (by decide)).mpr ?_
  rw [Nat.mul_comm]
  have hcapacity : p.recorded.capacity region = positions p.align p.stride region := rfl
  omega

/-- Each count reported is higher than the last. -/
theorem scanRegions_increases (hpos : 0 < p.stride) (regions : List Region)
    (w : Walk (σ × List Query)) (hinc : (reports w.world.2).Pairwise (· < ·))
    (hpast : ∀ d ∈ reports w.world.2, d ≤ w.scanned) :
    (reports (p.recorded.scanRegions regions w).2.world.2).Pairwise (· < ·) := by
  induction regions generalizing w with
  | nil => exact hinc
  | cons region regions ih =>
    obtain ⟨k, hlog, hge, -, -⟩ := p.scanRegionFirst_adds region w hpos
    have hinc' : (reports (p.recorded.scanRegionFirst region w).2.world.2).Pairwise (· < ·) := by
      rw [hlog]
      refine List.pairwise_append.mpr ⟨hinc, regular_sorted (by decide) _ _, fun d hd e he => ?_⟩
      exact (hpast d hd).trans_lt (mem_regular (by decide) he).1
    have hpast' : ∀ d ∈ reports (p.recorded.scanRegionFirst region w).2.world.2,
        d ≤ (p.recorded.scanRegionFirst region w).2.scanned := by
      rw [hlog]
      intro d hd
      rcases List.mem_append.mp hd with hold | hnew
      · have := hpast d hold
        omega
      · exact (mem_regular (by decide) hnew).2.trans hge
    obtain ⟨w', hdone, -, hgo⟩ | hleft := p.recorded.scanRegions_cons region regions w
    · rw [hdone] at hinc' hpast'
      rw [hgo]
      exact ih w' hinc' hpast'
    · rw [hleft]
      exact hinc'

/-- The counts reported in a pass stay within what the estimate covers, whatever the target. -/
theorem scanRegions_within_total (hpos : 0 < p.stride) (regions : List Region)
    (w : Walk (σ × List Query)) (htotal : ∀ d ∈ reports w.world.2, d ≤ p.total)
    (hcovers : ∀ before r after, regions = before ++ r :: after →
      (∀ q ∈ before, nextMultipleOf q.base p.align ≤ usizeMax) →
      progressInterval ≤ positions p.align p.stride r →
      w.scanned + (before.map (passed p.align p.stride)).sum +
        progressInterval * (positions p.align p.stride r / progressInterval) ≤ p.total) :
    ∀ d ∈ reports (p.recorded.scanRegions regions w).2.world.2, d ≤ p.total := by
  induction regions generalizing w with
  | nil => exact htotal
  | cons region regions ih =>
    obtain ⟨k, hlog, -, -, hk⟩ := p.scanRegionFirst_adds region w hpos
    have hmul := Nat.mul_le_mul_left progressInterval hk
    have htotal' : ∀ d ∈ reports (p.recorded.scanRegionFirst region w).2.world.2,
        d ≤ p.total := by
      rw [hlog]
      intro d hd
      rcases List.mem_append.mp hd with hold | hnew
      · exact htotal d hold
      · -- a report in this region takes a whole interval of its positions
        obtain ⟨hlt, hle⟩ := mem_regular (by decide) hnew
        have hwhole : progressInterval ≤ positions p.align p.stride region := by
          by_contra hfew
          rw [Nat.div_eq_of_lt (Nat.not_le.mp hfew), Nat.mul_zero] at hmul
          omega
        have := hcovers [] region regions rfl (by simp) hwhole
        simp only [List.map_nil, List.sum_nil] at this
        omega
    obtain ⟨w', hdone, hroom, hgo⟩ | hleft := p.recorded.scanRegions_cons region regions w
    · rw [hdone] at htotal'
      rw [hgo]
      obtain ⟨hbase, hpassed⟩ := p.recorded.scanRegionFirst_passed hpos hdone hroom
      refine ih w' htotal' fun before r after heq hbefore hwhole => ?_
      have := hcovers (region :: before) r after (by rw [heq, List.cons_append])
        (List.forall_mem_cons.mpr ⟨hbase, hbefore⟩) hwhole
      rw [List.map_cons, List.sum_cons] at this
      have hsame : passed p.recorded.align p.recorded.stride region =
        passed p.align p.stride region := rfl
      omega
    · rw [hleft]
      exact htotal'

theorem scanRegionFirst_log (region : Region) (regions : List Region)
    (w : Walk (σ × List Query)) :
    (p.recorded.scanRegionFirst region w).2.world.2 <+:
      (p.recorded.scanRegions (region :: regions) w).2.world.2 := by
  obtain ⟨w', hdone, -, hgo⟩ | hleft := p.recorded.scanRegions_cons region regions w
  · rw [hdone, hgo]
    exact p.scanRegions_log regions w'
  · rw [hleft]

/-- A region all of whose positions are counted has its last full interval reported. -/
theorem mem_reports_of_scanned (hpos : 0 < p.stride) {r : Region} (w : Walk (σ × List Query))
    (hcount : (p.recorded.scanRegionFirst r w).2.scanned =
      w.scanned + positions p.align p.stride r)
    (hwhole : progressInterval ≤ positions p.align p.stride r) {log : List Query}
    (hlog : (p.recorded.scanRegionFirst r w).2.world.2 <+: log) :
    w.scanned + progressInterval * (positions p.align p.stride r / progressInterval) ∈
      reports log := by
  obtain ⟨k, hreports, hge, hlt, -⟩ := p.scanRegionFirst_adds r w hpos
  have hk : positions p.align p.stride r / progressInterval = k := by
    simp only [progressInterval] at hge hlt ⊢
    omega
  obtain ⟨i, rfl⟩ : ∃ i, k = i + 1 :=
    Nat.exists_eq_succ_of_ne_zero (hk ▸ (Nat.div_pos hwhole (by decide)).ne')
  have hlast : w.scanned + progressInterval * (i + 1) ∈
      reports (p.recorded.scanRegionFirst r w).2.world.2 := by
    rw [hreports, regular_succ]
    simp
  obtain ⟨progress, htick, hdone⟩ := mem_reports.mp hlast
  rw [hk]
  exact mem_reports.mpr ⟨progress, hlog.subset htick, hdone⟩

/-- A filled region with a whole interval of positions has its last full interval reported. -/
theorem mem_reports_of_filled {mem : ℕ → UInt8} (hpos : 0 < p.stride) {r : Region}
    (hfills : Fills p.target mem r) (w : Walk (σ × List Query))
    (hdone : (p.recorded.scanRegions [r] w).1 = .ok false)
    (hwhole : progressInterval ≤ positions p.align p.stride r) :
    w.scanned + progressInterval * (positions p.align p.stride r / progressInterval) ∈
      reports (p.recorded.scanRegions [r] w).2.world.2 := by
  have hcount : (p.recorded.scanRegionFirst r w).2.scanned =
      w.scanned + positions p.align p.stride r :=
    p.recorded.entered_scanned_eq mem hpos [r] w
      (fun q hq => fills_recorded (List.mem_singleton.mp hq ▸ hfills)) hdone (r, w)
      List.mem_cons_self
  exact p.mem_reports_of_scanned hpos w hcount hwhole (p.scanRegionFirst_log r [] w)

end FirstPass

/-- A target of zero bytes that answers its reads with the lengths it is told, and in full when it
has been told no more. -/
def scripted (all : List Region) : ScanTarget (List ℕ) where
  regions lengths := (.ok all, lengths)
  read lengths _ len :=
    (.ok ⟨List.replicate (min (lengths.headD len) len) 0, by simp⟩, lengths.tail)

namespace FirstPass

section Scripted

variable {p : FirstPass (List ℕ)} {all : List Region} (htarget : p.target = scripted all)
  (hobserver : p.observer = noObserver (List ℕ)) (hpos : 0 < p.stride)

include hobserver in
theorem tick_unobserved (sinceTick : ℕ) (w : Walk (List ℕ)) :
    ∃ sinceTick', p.tick sinceTick w = (true, sinceTick', { w with scanned := w.scanned + 1 }) := by
  unfold tick
  split
  · rw [hobserver]
    exact ⟨0, rfl⟩
  · exact ⟨_, rfl⟩

include hobserver in
/-- A window of one candidate. -/
theorem scanWindow_single (addr : ℕ) (buf : List UInt8) (off sinceTick : ℕ) {w : Walk (List ℕ)}
    (hroom : w.out.len + 1 < p.limit) :
    ∃ sinceTick' w', p.scanWindow addr buf [off] sinceTick w = (.exhausted, sinceTick', w') ∧
      w'.world = w.world ∧ w'.scanned = w.scanned + 1 ∧ w'.out.len ≤ w.out.len + 1 := by
  obtain ⟨sinceTick', htick⟩ := p.tick_unobserved hobserver sinceTick w
  cases hm : p.matched buf off with
  | true =>
    have hlen : (p.collect addr buf off { w with scanned := w.scanned + 1 }).out.len =
        w.out.len + 1 := by simp [collect, ScanResults.len, ScanResults.push]
    rw [p.scanWindow_matched htick hm, if_neg (by omega)]
    exact ⟨_, _, rfl, rfl, rfl, hlen.le⟩
  | false =>
    rw [p.scanWindow_unmatched htick hm]
    exact ⟨_, _, rfl, rfl, rfl, Nat.le_succ _⟩

include htarget hobserver hpos in
/-- A read of one value counts its position. -/
theorem walkRegion_single {regionEnd addr : ℕ} (hposition : addr + p.stride ≤ regionEnd)
    (sinceTick : ℕ) {w : Walk (List ℕ)} {rest : List ℕ} (hworld : w.world = p.stride :: rest)
    (hroom : w.out.len + 1 < p.limit) :
    ∃ sinceTick' w', w'.world = rest ∧ w'.scanned = w.scanned + 1 ∧
      w'.out.len ≤ w.out.len + 1 ∧
      p.walkRegion regionEnd addr sinceTick w =
        match p.advance addr p.stride with
        | none => (.error .overflow, w')
        | some next => p.walkRegion regionEnd next sinceTick' w' := by
  have hbuf : p.stride ≤ p.bufLen := Nat.le_max_right _ _
  obtain ⟨buf, hbuflen, hread⟩ : ∃ buf : Transfer (min p.bufLen (regionEnd - addr)),
      buf.val.length = p.stride ∧
        p.target.read w.world addr (min p.bufLen (regionEnd - addr)) = (.ok buf, rest) := by
    refine ⟨⟨List.replicate (min p.stride (min p.bufLen (regionEnd - addr))) 0, by simp⟩, ?_, ?_⟩
    · rw [List.length_replicate]
      omega
    · rw [htarget, hworld]
      rfl
  obtain ⟨sinceTick', w', hwin, hworld', hscanned, hlen⟩ :=
    scanWindow_single hobserver addr buf.val 0 sinceTick (w := { w with world := rest }) hroom
  have hstep : stepBy (buf.val.length - p.stride) p.align = [0] := by
    rw [hbuflen, Nat.sub_self]
    simp [stepBy]
  rw [← hstep] at hwin
  refine ⟨sinceTick', w', hworld', hscanned, hlen, ?_⟩
  rw [p.walkRegion_window (by omega) hread (by omega) hwin]
  dsimp only
  cases hadvance : p.advance addr p.stride with
  | none => simp only [hbuflen, hadvance]
  | some next => simp only [hbuflen, hadvance]

include hpos in
/-- Where the lattice does not go on past a position, that is the last one of the region. -/
theorem last_of_advance_eq_none {regionEnd addr : ℕ} (hend : regionEnd ≤ usizeMax)
    (haddr : p.align ∣ addr) (hposition : addr + p.stride ≤ regionEnd)
    (hnext : p.advance addr p.stride = none) :
    (multiples p.align addr (regionEnd + 1 - p.stride)).length = 1 ∧
      usizeMax < nextMultipleOf (regionEnd - p.stride + 1) p.align := by
  have hlarge := (p.advance_eq_none haddr hpos (Nat.lt_irrefl _) (by omega)).mp hnext
  rw [Nat.sub_self] at hlarge
  have hmono := nextMultipleOf_mono p.align_pos
    (by omega : addr + 0 + 1 ≤ regionEnd - p.stride + 1)
  have hnone : multiples p.align (addr + 0 + 1) (regionEnd + 1 - p.stride) = [] := by
    refine List.eq_nil_iff_forall_not_mem.mpr fun a ha => ?_
    obtain ⟨hdvd, hge, hlt⟩ := mem_multiples.mp ha
    have := nextMultipleOf_le_of_dvd p.align_pos hdvd hge
    omega
  have hfit := p.length_window regionEnd haddr hposition (Nat.lt_irrefl _)
  rw [Nat.sub_self, show (stepBy 0 p.align).length = 1 by simp [stepBy], hnone,
    List.length_nil] at hfit
  exact ⟨hfit, hlarge.trans_le hmono⟩

include htarget hobserver hpos in
/-- Reading one value at a time, a walk can be made to count any number of positions; it goes on
behind the region if it left one out, or if the lattice goes on past the last. -/
theorem walkRegion_scripted {regionEnd : ℕ} (hend : regionEnd ≤ usizeMax) (k : ℕ) {addr : ℕ}
    (haddr : p.align ∣ addr)
    (hk : k ≤ (multiples p.align addr (regionEnd + 1 - p.stride)).length) :
    ∃ script, ∀ sinceTick w rest, w.world = script ++ rest → w.out.len + k < p.limit →
      (p.walkRegion regionEnd addr sinceTick w).2.scanned = w.scanned + k ∧
      (k < (multiples p.align addr (regionEnd + 1 - p.stride)).length ∨
          (addr + p.stride ≤ regionEnd →
            nextMultipleOf (regionEnd - p.stride + 1) p.align ≤ usizeMax) →
        (p.walkRegion regionEnd addr sinceTick w).1 = .ok .completed ∧
          (p.walkRegion regionEnd addr sinceTick w).2.world = rest ∧
          (p.walkRegion regionEnd addr sinceTick w).2.out.len ≤ w.out.len + k) := by
  induction k generalizing addr with
  | zero =>
    by_cases hlt : addr < regionEnd
    · refine ⟨[0], fun sinceTick w rest hworld _ => ?_⟩
      have hread : p.target.read w.world addr (min p.bufLen (regionEnd - addr)) =
          (.ok ⟨[], Nat.zero_le _⟩, rest) := by
        rw [htarget, hworld]
        simp [scripted]
      rw [p.walkRegion_short hlt hread hpos]
      exact ⟨rfl, fun _ => ⟨rfl, rfl, Nat.le_refl _⟩⟩
    · refine ⟨[], fun sinceTick w rest hworld _ => ?_⟩
      rw [p.walkRegion_past hlt]
      exact ⟨rfl, fun _ => ⟨rfl, hworld, Nat.le_refl _⟩⟩
  | succ k ih =>
    have hposition : addr + p.stride ≤ regionEnd := by
      by_contra hpast
      rw [multiples_of_le p.align (by omega)] at hk
      cases hk
    cases hnext : p.advance addr p.stride with
    | none =>
      -- there is no lattice address past this one
      obtain ⟨hone, hlarge⟩ := last_of_advance_eq_none hpos hend haddr hposition hnext
      refine ⟨[p.stride], fun sinceTick w rest hworld hroom => ?_⟩
      obtain ⟨_, w', -, hscanned, -, hwalk⟩ :=
        walkRegion_single htarget hobserver hpos hposition sinceTick hworld (by omega)
      rw [hwalk, hnext]
      exact ⟨by dsimp only; omega, fun hon => by omega⟩
    | some next =>
      have hfit := p.length_window regionEnd haddr hposition (Nat.lt_irrefl _)
      rw [p.multiples_advance haddr hpos (Nat.lt_irrefl _) hnext, Nat.sub_self,
        show (stepBy 0 p.align).length = 1 by simp [stepBy]] at hfit
      obtain ⟨script, hscript⟩ := ih (p.dvd_advance haddr hnext) (by omega)
      refine ⟨p.stride :: script, fun sinceTick w rest hworld hroom => ?_⟩
      obtain ⟨sinceTick', w', hworld', hscanned, hlen, hwalk⟩ :=
        walkRegion_single htarget hobserver hpos hposition sinceTick hworld (by omega)
      rw [hwalk, hnext]
      dsimp only
      obtain ⟨hcount, hgoes⟩ := hscript sinceTick' w' rest hworld' (by omega)
      refine ⟨by omega, fun hon => ?_⟩
      obtain ⟨hok, hrest, hout⟩ := hgoes (hon.imp (fun h => by omega) fun h _ => h hposition)
      exact ⟨hok, hrest, by omega⟩

include htarget hobserver hpos in
theorem scanRegionFirst_scripted {region : Region}
    (hbase : nextMultipleOf region.base p.align ≤ usizeMax) {k : ℕ}
    (hk : k ≤ positions p.align p.stride region) :
    ∃ script, ∀ w rest, w.world = script ++ rest → w.out.len + k < p.limit →
      (p.scanRegionFirst region w).2.scanned = w.scanned + k ∧
      (k < positions p.align p.stride region ∨ LatticeFits p.align p.stride region →
        (p.scanRegionFirst region w).1 = .ok .completed ∧
          (p.scanRegionFirst region w).2.world = rest ∧
          (p.scanRegionFirst region w).2.out.len ≤ w.out.len + k) := by
  have hsame := multiples_nextMultipleOf p.align_pos region.base (region.stop + 1 - p.stride)
  obtain ⟨script, hscript⟩ := walkRegion_scripted htarget hobserver hpos region.stop_le k
    (dvd_nextMultipleOf region.base p.align_pos) (by rw [hsame]; exact hk)
  refine ⟨script, fun w rest hworld hroom => ?_⟩
  obtain ⟨hcount, hgoes⟩ := hscript 0 w rest hworld hroom
  rw [p.scanRegionFirst_of_le hbase]
  rw [hsame] at hgoes
  exact ⟨hcount, fun hon => hgoes (hon.imp id fun hfits => hfits.2)⟩

include htarget hobserver hpos in
/-- A pass can be made to come to any region whose predecessors have lattice addresses, with all
counted that leaves a way past them, and to count all of its positions. -/
theorem scanRegions_scripted (before : List Region) {r : Region} (after : List Region)
    (hbefore : ∀ q ∈ before, nextMultipleOf q.base p.align ≤ usizeMax)
    (hr : nextMultipleOf r.base p.align ≤ usizeMax) :
    ∃ script, ∀ w : Walk (List ℕ × List Query), w.world.1 = script →
      w.out.len + (before.map (passed p.align p.stride)).sum + positions p.align p.stride r <
        p.limit →
      ∃ w₀ : Walk (List ℕ × List Query),
        w₀.scanned = w.scanned + (before.map (passed p.align p.stride)).sum ∧
        (p.recorded.scanRegionFirst r w₀).2.scanned =
          w₀.scanned + positions p.align p.stride r ∧
        (p.recorded.scanRegionFirst r w₀).2.world.2 <+:
          (p.recorded.scanRegions (before ++ r :: after) w).2.world.2 := by
  induction before with
  | nil =>
    obtain ⟨script, hscript⟩ :=
      scanRegionFirst_scripted htarget hobserver hpos hr (Nat.le_refl _)
    refine ⟨script, fun w hworld hroom => ⟨w, rfl, ?_, ?_⟩⟩
    · have hcount := (hscript w.unrecorded [] (by rw [List.append_nil]; exact hworld)
        (by simpa [Walk.unrecorded] using hroom)).1
      rw [p.scanRegionFirst_unrecorded] at hcount
      exact hcount
    · rw [List.nil_append]
      exact p.scanRegionFirst_log r after w
  | cons q before ih =>
    obtain ⟨hq, hrest⟩ := List.forall_mem_cons.mp hbefore
    obtain ⟨script', hscript'⟩ := ih hrest
    obtain ⟨script, hscript⟩ := scanRegionFirst_scripted htarget hobserver hpos hq
      (passed_le p.align p.stride q)
    refine ⟨script ++ script', fun w hworld hroom => ?_⟩
    rw [List.map_cons, List.sum_cons] at hroom ⊢
    obtain ⟨hcount, hgoes⟩ := hscript w.unrecorded script' hworld (by
      dsimp only [Walk.unrecorded]
      omega)
    obtain ⟨hok, hworld', hlen⟩ := hgoes (passed_lt_or_fits p.align_pos hq)
    rw [p.scanRegionFirst_unrecorded] at hcount hok hworld' hlen
    rcases hwalk : p.recorded.scanRegionFirst q w with ⟨outcome, w'⟩
    rw [hwalk] at hcount hok hworld' hlen
    dsimp only [Prod.map_apply, id_eq, Walk.unrecorded] at hcount hok hworld' hlen
    obtain ⟨w₀, hscanned, hall, hlog⟩ := hscript' w' hworld' (by omega)
    refine ⟨w₀, by omega, hall, ?_⟩
    rw [hok] at hwalk
    rw [List.cons_append, p.recorded.scanRegions_past q (before ++ r :: after) w hwalk
      (show w'.out.len < p.limit by omega)]
    exact hlog

end Scripted

end FirstPass

/-- The widths of the values of a type. -/
def ScanValueType.HasStride (ty : ScanValueType) (stride : ℕ) : Prop :=
  match ty.fixedWidth with
  | some width => stride = width
  | none => 0 < stride

theorem ScanValueType.HasStride.pos {ty : ScanValueType} {stride : ℕ} (h : ty.HasStride stride) :
    0 < stride := by
  cases ty with
  | bytes | stringUtf8 | stringUtf16 => exact h
  | _ =>
    obtain rfl : stride = _ := h
    decide

/-- A first scan of a target that lists the given regions, by a scanner with the given value type,
filter and step, for values of the given width. -/
structure FirstScanRun (σ : Type) (ty : ScanValueType) (filter : RegionFilter) (all : List Region)
    (align stride : ℕ) where
  scanner : Scanner
  target : ScanTarget σ
  observer : ScanObserver σ
  compare : ScanCompareType
  needle : Option Needle
  world : σ
  type_eq : scanner.valueType = ty
  filter_eq : scanner.regionFilter = filter
  align_eq : scanner.alignmentStep = align
  stride_eq : scanner.stride needle = stride
  regions_eq : (target.regions world).1 = .ok all

namespace FirstScanRun

variable {ty : ScanValueType} {filter : RegionFilter} {all : List Region} {align stride : ℕ}

/-- What the scan asked of its target and its observer. -/
def log (run : FirstScanRun σ ty filter all align stride) : List Query :=
  (run.scanner.firstScanWith run.target.recorded run.observer.recorded run.compare run.needle
    (run.world, [])).2.2.2

def pass (run : FirstScanRun σ ty filter all align stride) (total : ℕ) : FirstPass σ :=
  run.scanner.firstPass run.target run.observer run.compare run.needle total

def start (run : FirstScanRun σ ty filter all align stride) : Walk (σ × List Query) :=
  run.scanner.startWalk run.needle (run.target.regions run.world).2

variable (run : FirstScanRun σ ty filter all align stride)

theorem regions_recorded : run.target.recorded.regions (run.world, []) =
    (.ok all, ((run.target.regions run.world).2, [])) := by
  simp [ScanTarget.recorded, ← run.regions_eq]

theorem log_entered (hcheck : run.scanner.checkFirst run.compare run.needle = .ok ()) {total : ℕ}
    (htotal : checkedSum ((filter.apply all).map (·.size / align)) = some total) :
    run.log = ((run.pass total).recorded.scanRegions (filter.apply all) run.start).2.world.2 := by
  have hrecorded := run.regions_recorded
  obtain ⟨s, target, observer, compare, needle, world, rfl, rfl, rfl, rfl, _⟩ := run
  unfold log pass start
  rw [Scanner.firstScanWith_enters hcheck hrecorded htotal]
  split
  · rename_i heq
    exact congrArg (fun walked => walked.2.world.2) heq.symm
  · rename_i heq
    exact congrArg (fun walked => walked.2.world.2) heq.symm

/-- A scan that does not get to its walk asks nothing that would be reported. -/
theorem log_cases : run.log = [] ∨ ∃ total,
    run.scanner.checkFirst run.compare run.needle = .ok () ∧
      checkedSum ((filter.apply all).map (·.size / align)) = some total ∧
      run.log = ((run.pass total).recorded.scanRegions (filter.apply all) run.start).2.world.2 := by
  cases hcheck : run.scanner.checkFirst run.compare run.needle with
  | error e =>
    left
    unfold log Scanner.firstScanWith
    rw [hcheck]
  | ok =>
    cases htotal : checkedSum ((filter.apply all).map (·.size / align)) with
    | none =>
      left
      have hrecorded := run.regions_recorded
      obtain ⟨s, target, observer, compare, needle, world, rfl, rfl, rfl, rfl, _⟩ := run
      unfold log Scanner.firstScanWith
      simp only [hcheck, hrecorded, Scanner.enterWalk_alignmentStep, htotal]
    | some total => exact .inr ⟨total, rfl, rfl, run.log_entered hcheck htotal⟩

theorem increases : (reports run.log).Pairwise (· < ·) := by
  obtain hnone | ⟨total, hcheck, -, hlog⟩ := run.log_cases
  · rw [hnone]
    exact List.Pairwise.nil
  · rw [hlog]
    exact (run.pass total).scanRegions_increases (Scanner.stride_pos_of_check hcheck) _ _
      List.Pairwise.nil (by simp [start, Scanner.startWalk, reports])

theorem labelled {total : ℕ} (h : run.log =
    ((run.pass total).recorded.scanRegions (filter.apply all) run.start).2.world.2) :
    Labelled total run.log := by
  rw [h]
  exact (run.pass total).scanRegions_labelled _ _ (by simp [Labelled, start, Scanner.startWalk])

/-- What the estimate covers, no target and no observer can take past the total. -/
theorem withinTotal (hcovers : EstimateCovers align stride (filter.apply all)) :
    WithinTotal run.log := by
  obtain hnone | ⟨total, hcheck, htotal, hlog⟩ := run.log_cases
  · simp [WithinTotal, hnone]
  · obtain ⟨hsum, hle⟩ := checkedSum_eq_some htotal
    rw [(run.labelled hlog).within, hlog]
    have halign : (run.pass total).align = align := run.align_eq
    have hstride : (run.pass total).stride = stride := run.stride_eq
    refine (run.pass total).scanRegions_within_total (Scanner.stride_pos_of_check hcheck) _ _
      (by simp [start, Scanner.startWalk, reports]) fun before r after heq hbefore hwhole => ?_
    rw [halign] at hbefore
    rw [halign, hstride] at hwhole ⊢
    have := hcovers hle before r after heq hbefore hwhole
    rw [← hsum] at this
    show 0 + _ + _ ≤ total
    rwa [Nat.zero_add]

/-- One filled region, walked to its end, whose last full interval the estimate leaves out. -/
theorem overshoots {mem : ℕ → UInt8} {r : Region} (hregions : filter.apply all = [r])
    (hcheck : run.scanner.checkFirst run.compare run.needle = .ok ())
    (hgo : run.observer.NeverStops) (hfills : Fills run.target mem r)
    (htop : r.stop + align ≤ usizeMax) (hlimit : positions align stride r < run.scanner.resultLimit)
    (hwhole : progressInterval ≤ positions align stride r)
    (hshort : r.size / align < progressInterval * (positions align stride r / progressInterval)) :
    ¬ WithinTotal run.log := by
  intro hwithin
  have hsize : r.size / align ≤ usizeMax := by
    have := Nat.mul_div_le (positions align stride r) progressInterval
    have hle : positions align stride r ≤ r.stop + 1 - stride - r.base := by
      unfold positions multiples
      exact (List.length_filter_le _ _).trans_eq List.length_range'
    omega
  have htotal : checkedSum ((filter.apply all).map (·.size / align)) = some (r.size / align) := by
    rw [hregions, List.map_singleton]
    exact checkedSum_of_le (by simpa using hsize)
  have hlog := run.log_entered hcheck htotal
  rw [hregions] at hlog
  let p := run.pass (r.size / align)
  have halign : p.align = align := run.align_eq
  have hstride : p.stride = stride := run.stride_eq
  have hpos : 0 < p.stride := Scanner.stride_pos_of_check hcheck
  have hdone : (p.recorded.scanRegions [r] run.start).1 = .ok false := by
    refine p.recorded.scanRegions_completes (fun world progress => hgo world.1 progress) hpos [r]
      (fun q hq => List.mem_singleton.mp hq ▸ FirstPass.fills_recorded hfills)
      (fun q hq => List.mem_singleton.mp hq ▸ halign.symm ▸ htop) run.start rfl ?_
    rw [List.map_singleton, List.sum_singleton]
    show 0 + positions p.align p.stride r < run.scanner.resultLimit
    rwa [halign, hstride, Nat.zero_add]
  have hmem := p.mem_reports_of_filled hpos hfills run.start hdone (by rwa [halign, hstride])
  have hle := (run.labelled (hregions ▸ hlog)).within.mp hwithin _ (hlog ▸ hmem)
  rw [halign, hstride] at hle
  omega

end FirstScanRun

/-- A scan of every type and width, with room for any number of rows. -/
theorem exists_scanner {ty : ScanValueType} {stride : ℕ} (h : ty.HasStride stride)
    (filter : RegionFilter) {align : ℕ} (halign : 0 < align) (limit : ℕ) :
    ∃ (s : Scanner) (compare : ScanCompareType) (needle : Option Needle),
      s.valueType = ty ∧ s.regionFilter = filter ∧ s.alignmentStep = align ∧
        s.stride needle = stride ∧ s.resultLimit = limit ∧ s.checkFirst compare needle = .ok () := by
  let s : Scanner :=
    { valueType := ty, regionFilter := filter, alignment := some align, resultLimit := limit }
  have hstep : s.alignmentStep = align := Nat.max_eq_left halign
  -- a needle that any type without a width can have
  have hneedle (n : Needle) (hty : n.ty = ty) (hwidth : n.stride = stride) (hpos : 0 < stride) :
      s.stride (some n) = stride ∧ s.checkFirst .exact (some n) = .ok () := by
    refine ⟨hwidth, ?_⟩
    have hvalid : s.validateNeedle .exact (some n) = .ok () := by
      simp [Scanner.validateNeedle, Needle.valueType, hty, s]
    have hstride : s.stride (some n) ≠ 0 := by
      rw [show s.stride (some n) = n.stride from rfl, hwidth]
      exact hpos.ne'
    simp only [Scanner.checkFirst, ScanCompareType.needsPrevious, Bool.false_eq_true, if_false,
      hvalid, if_neg hstride]
  cases hwidth : ty.fixedWidth with
  | some width =>
    have hstride : stride = width := by simpa [ScanValueType.HasStride, hwidth] using h
    have hs : s.stride none = width := by
      simp [Scanner.stride, s, hwidth]
    have hpos : width ≠ 0 := hstride ▸ h.pos.ne'
    refine ⟨s, .unknown, none, rfl, rfl, hstep, hs.trans hstride.symm, rfl, ?_⟩
    simp only [Scanner.checkFirst, ScanCompareType.needsPrevious, Bool.false_eq_true, if_false,
      Scanner.validateNeedle, ScanCompareType.needsNeedle, hs, if_neg hpos]
  | none =>
    have hpos := h.pos
    by_cases hbytes : ty = .bytes
    · obtain ⟨hs, hcheck⟩ := hneedle
        ⟨ty, .Bytes (.fromBytes (List.replicate stride 1)), 0,
          hbytes, by simpa [BytePattern.fromBytes, BytePattern.len] using hpos⟩ rfl
        (by simp [Needle.stride, BytePattern.fromBytes, BytePattern.len]) hpos
      exact ⟨s, .exact, _, rfl, rfl, hstep, hs, rfl, hcheck⟩
    · have hstring : ty.isString = true := by
        cases ty <;> simp_all [ScanValueType.fixedWidth, ScanValueType.isString]
      obtain ⟨hs, hcheck⟩ := hneedle ⟨ty, .Str (List.replicate stride 1), 0, hstring⟩ rfl
        (by simp [Needle.stride]) hpos
      exact ⟨s, .exact, _, rfl, rfl, hstep, hs, rfl, hcheck⟩

/-- Where the estimate falls short, some target takes a scan past it. -/
theorem estimateCovers_of_within {ty : ScanValueType} {filter : RegionFilter} {all : List Region}
    {align stride : ℕ} (halign : 0 < align) (hstride : ty.HasStride stride)
    (h : ∀ run : FirstScanRun (List ℕ) ty filter all align stride, WithinTotal run.log) :
    EstimateCovers align stride (filter.apply all) := by
  intro hsum before r after heq hbefore hwhole
  have hr : nextMultipleOf r.base align ≤ usizeMax := by
    obtain ⟨a, ha⟩ := List.exists_mem_of_length_pos
      (Nat.lt_of_lt_of_le (by decide : 0 < progressInterval) hwhole)
    obtain ⟨hdvd, hbase, hlt⟩ := mem_multiples.mp ha
    have := nextMultipleOf_le_of_dvd halign hdvd hbase
    have := r.stop_le
    have := hstride.pos
    omega
  obtain ⟨s, compare, needle, hty, hfilter, hstep, hwidth, hlimit, hcheck⟩ :=
    exists_scanner hstride filter halign
      ((before.map (passed align stride)).sum + positions align stride r + 1)
  let p : FirstPass (List ℕ) :=
    s.firstPass (scripted all) (noObserver _) compare needle ((filter.apply all).map (·.size / align)).sum
  have hpalign : p.align = align := hstep
  have hpstride : p.stride = stride := hwidth
  have hpos : 0 < p.stride := Scanner.stride_pos_of_check hcheck
  obtain ⟨script, hscript⟩ := FirstPass.scanRegions_scripted (p := p) rfl rfl hpos before after
    (by rwa [hpalign]) (by rwa [hpalign])
  rw [hpalign, hpstride] at hscript
  let run : FirstScanRun (List ℕ) ty filter all align stride :=
    ⟨s, scripted all, noObserver _, compare, needle, script, hty, hfilter, hstep, hwidth, rfl⟩
  have hlog := run.log_entered hcheck (checkedSum_of_le hsum)
  obtain ⟨w₀, hentered, hall, hprefix⟩ := hscript run.start rfl (by
    show 0 + _ + _ < s.resultLimit
    omega)
  have hmem := p.mem_reports_of_scanned hpos w₀ (by rw [hall, hpalign, hpstride])
    (by rwa [hpalign, hpstride]) hprefix
  rw [← heq] at hmem
  have hle := (run.labelled hlog).within.mp (h run) _ (hlog ▸ hmem)
  rw [hpalign, hpstride, hentered] at hle
  have hzero : run.start.scanned = 0 := rfl
  omega

/-- The counts that a first scan reports always go up; they stay within the total, in every scan
of the regions by the step for values of the width, exactly if the estimate covers them. -/
theorem firstScan_progress_iff (ty : ScanValueType) (filter : RegionFilter) (all : List Region)
    {align stride : ℕ} (halign : 0 < align) (hstride : ty.HasStride stride) :
    (∀ (σ : Type) (run : FirstScanRun σ ty filter all align stride),
      (reports run.log).Pairwise (· < ·)) ∧
    ((∀ (σ : Type) (run : FirstScanRun σ ty filter all align stride), WithinTotal run.log) ↔
      EstimateCovers align stride (filter.apply all)) :=
  ⟨fun _ run => run.increases, fun h => estimateCovers_of_within halign hstride (h (List ℕ)),
    fun h _ run => run.withinTotal h⟩

/-- Four-byte values four bytes apart, in five pages. -/
def fivePages : FirstScanRun Unit .u32 {} [⟨0x1000, 0x5000⟩] 4 4 where
  scanner := (Scanner.new .u32).setAlignment 4
  target := (MockTarget.mk 0x1000 (List.replicate 0x5000 0) [⟨0x1000, 0x5000⟩]).target Unit
  observer := noObserver Unit
  compare := .unknown
  needle := none
  world := ()
  type_eq := rfl
  filter_eq := rfl
  align_eq := rfl
  stride_eq := rfl
  regions_eq := rfl

theorem firstScan_progress_fivePages :
    (reports fivePages.log).Pairwise (· < ·) ∧ WithinTotal fivePages.log :=
  have hprogress := firstScan_progress_iff .u32 {} [⟨0x1000, 0x5000⟩] (by decide) rfl
  ⟨hprogress.1 Unit fivePages,
    hprogress.2.mpr (estimateCovers_of_le (by decide) (by decide) _) Unit fivePages⟩

/-- Bytes four bytes apart, in a region of 4095 whole steps and one byte more. -/
def everyFourthByte : FirstScanRun Unit .u8 {} [⟨0x1000, 16381⟩] 4 1 where
  scanner := (Scanner.new .u8).setAlignment 4
  target := (MockTarget.mk 0x1000 (List.replicate 16381 0) [⟨0x1000, 16381⟩]).target Unit
  observer := noObserver Unit
  compare := .unknown
  needle := none
  world := ()
  type_eq := rfl
  filter_eq := rfl
  align_eq := rfl
  stride_eq := rfl
  regions_eq := rfl

/-- The last of its 4096 positions is in the step that the estimate leaves out. -/
theorem everyFourthByte_overshoots : ¬ WithinTotal everyFourthByte.log := by
  have hstop : Region.stop ⟨0x1000, 16381⟩ = 20477 := by decide
  have hpositions : positions 4 1 ⟨0x1000, 16381⟩ = 4096 := by
    unfold positions
    rw [hstop, show 20477 + 1 - 1 = 0x1000 + 16380 + 1 from rfl,
      ← map_add_stepBy (by decide) (by decide), List.length_map, stepBy, List.length_map,
      List.length_range]
  have hfills := (MockTarget.mk 0x1000 (List.replicate 16381 0) [⟨0x1000, 16381⟩]).fills Unit
    (r := ⟨0x1000, 16381⟩) (Nat.le_refl _) (by
      rw [hstop, List.length_replicate])
  refine everyFourthByte.overshoots (if_pos (by decide)) (by decide) (fun _ _ => rfl) hfills
    ?_ ?_ ?_ ?_
  · rw [hstop]
    decide
  · rw [hpositions]
    decide
  · rw [hpositions]
    decide
  · rw [hpositions]
    decide

end Nemclass.Scan
