import Nemclass.Lib.Reports
import Nemclass.Scan.Candidates
import Nemclass.Scan.Recorded

/-! How far a first scan gets between two reports to its observer. The count since the
last report starts afresh in every region, so what a region leaves unreported is carried
into the next. The interval is kept as long as no region is entered with a carry that
its own candidates could take past the interval. -/
namespace Nemclass.Scan
open Usize Multiples Reports

variable {σ : Type}

/-- An observer that asks the scan to stop whenever it is asked. -/
def ScanObserver.AlwaysStops (observer : ScanObserver σ) : Prop :=
  ∀ world progress, (observer.tick world progress).1 = false

/-- The candidates examined since the last report, or since the start. -/
def Walk.pending (w : Walk (σ × List Query)) : ℕ := w.scanned - last (reports w.world.2)

/-- Reports have been at most an interval apart, and the last is less than an interval ago. -/
def Walk.Prompt (w : Walk (σ × List Query)) : Prop :=
  Kept progressInterval (reports w.world.2) w.scanned

/-- Inside a region that was entered from `w₀`, every interval of its own candidates was reported. -/
def Walk.Within (w₀ : Walk (σ × List Query)) (sinceTick : ℕ) (w : Walk (σ × List Query)) : Prop :=
  sinceTick < progressInterval ∧ ∃ k,
    reports w.world.2 = reports w₀.world.2 ++ regular progressInterval w₀.scanned k ∧
    w.scanned = w₀.scanned + (progressInterval * k + sinceTick)

theorem Walk.Within.start (w : Walk (σ × List Query)) : w.Within 0 w :=
  ⟨by decide, 0, by simp, by simp⟩

/-- The counter is never behind what it reported. -/
def Walk.Ordered (w : Walk (σ × List Query)) : Prop := last (reports w.world.2) ≤ w.scanned

theorem Walk.Within.ordered {w₀ w : Walk (σ × List Query)} {sinceTick : ℕ}
    (h : w₀.Within sinceTick w) (h₀ : w₀.Ordered) : w.Ordered := by
  obtain ⟨_, k, hlog, hcount⟩ := h
  rw [Walk.Ordered, hlog, hcount]
  cases k with
  | zero =>
    rw [regular_zero, List.append_nil]
    exact Nat.le_add_right_of_le h₀
  | succ k =>
    rw [last_append_regular_succ]
    omega

theorem Walk.Within.prompt_iff {w₀ w : Walk (σ × List Query)} {sinceTick : ℕ}
    (h : w₀.Within sinceTick w) (h₀ : w₀.Ordered) (hprompt : w₀.Prompt) :
    w.Prompt ↔ w₀.pending = 0 ∨ w₀.pending + (w.scanned - w₀.scanned) < progressInterval := by
  obtain ⟨hsince, k, hlog, hcount⟩ := h
  rw [hcount, Nat.add_sub_cancel_left, Walk.Prompt, hlog, hcount]
  exact kept_append_regular hprompt h₀ hsince

theorem Walk.Within.before {w₀ w : Walk (σ × List Query)} {sinceTick : ℕ}
    (h : w₀.Within sinceTick w) (hprompt : w.Prompt) : w₀.Prompt := by
  obtain ⟨_, k, hlog, hcount⟩ := h
  rw [Walk.Prompt, hlog] at hprompt
  exact hprompt.before (by omega) fun d hd => (mem_regular (by decide) hd).1

namespace FirstPass
variable (p : FirstPass σ)

@[simp] theorem recorded_capacity (r : Region) : p.recorded.capacity r = p.capacity r := rfl

theorem recorded_tick_within {w₀ : Walk (σ × List Query)} (sinceTick : ℕ)
    (w : Walk (σ × List Query)) (h : w₀.Within sinceTick w) :
    w₀.Within (p.recorded.tick sinceTick w).2.1 (p.recorded.tick sinceTick w).2.2 := by
  obtain ⟨hsince, k, hlog, hcount⟩ := h
  unfold tick
  split
  · rename_i hdue
    have hmul : progressInterval * (k + 1) = progressInterval * k + progressInterval :=
      Nat.mul_succ _ _
    have hcount' : w.scanned + 1 = w₀.scanned + progressInterval * (k + 1) := by omega
    refine ⟨(by decide : 0 < progressInterval), k + 1, ?_, hcount'⟩
    rw [regular_succ, ← List.append_assoc, ← hlog, ← hcount']
    exact reports_concat_tick w.world.2 _
  · exact ⟨by dsimp only; omega, k, hlog, by dsimp only; omega⟩

/-- The walk of a region reports every interval of the region's own candidates. -/
theorem walkRegion_reports (regionEnd addr : ℕ) (w : Walk (σ × List Query)) :
    ∃ sinceTick, w.Within sinceTick (p.recorded.walkRegion regionEnd addr 0 w).2 := by
  have hkeeps := p.recorded.walkRegion_keeps w.Within w.Within
    (fun sinceTick w' h => by simpa using p.recorded_tick_within sinceTick w' h)
    (fun _ _ _ _ h => h) (fun sinceTick w' addr len h => ?_) regionEnd addr 0 w (Walk.Within.start w)
  · simpa using hkeeps
  · obtain ⟨hsince, k, hlog, hcount⟩ := h
    refine ⟨hsince, k, ?_, hcount⟩
    rw [← hlog]
    exact reports_concat_read w'.world.2 addr len

theorem scanRegionFirst_reports (region : Region) (w : Walk (σ × List Query)) :
    ∃ sinceTick, w.Within sinceTick (p.recorded.scanRegionFirst region w).2 := by
  unfold scanRegionFirst
  split
  · exact ⟨0, Walk.Within.start w⟩
  · exact p.walkRegion_reports region.stop _ w

/-- Reports once late stay late. -/
theorem scanRegions_before (regions : List Region) (w : Walk (σ × List Query))
    (h : (p.recorded.scanRegions regions w).2.Prompt) : w.Prompt := by
  induction regions generalizing w with
  | nil => exact h
  | cons region regions ih =>
    obtain ⟨sinceTick, hregion⟩ := p.scanRegionFirst_reports region w
    refine hregion.before ?_
    obtain ⟨w', hdone, -, hgo⟩ | hleft := p.recorded.scanRegions_cons region regions w
    · rw [hgo] at h
      rw [hdone]
      exact ih w' h
    · rwa [hleft] at h

/-- A pass keeps the interval exactly if no region is entered with candidates unreported that,
together with those examined in it, fill the interval. -/
theorem scanRegions_prompt_iff (regions : List Region) (w : Walk (σ × List Query))
    (hprompt : w.Prompt) (hord : w.Ordered) :
    (p.recorded.scanRegions regions w).2.Prompt ↔ ∀ step ∈ p.recorded.entered regions w,
      step.2.pending = 0 ∨ step.2.pending +
        ((p.recorded.scanRegionFirst step.1 step.2).2.scanned - step.2.scanned) <
          progressInterval := by
  induction regions generalizing w with
  | nil => simpa [scanRegions, entered] using hprompt
  | cons region regions ih =>
    obtain ⟨sinceTick, hregion⟩ := p.scanRegionFirst_reports region w
    have hhere := hregion.prompt_iff hord hprompt
    obtain ⟨w', hdone, hgo, hentered⟩ | ⟨hleft, hentered⟩ :=
      p.recorded.entered_cons region regions w
    · rw [hgo, hentered, List.forall_mem_cons, ← hhere]
      rw [hdone] at hregion ⊢
      constructor
      · intro h
        have hw' := p.scanRegions_before regions w' h
        exact ⟨hw', (ih w' hw' (hregion.ordered hord)).mp h⟩
      · rintro ⟨hw', h⟩
        exact (ih w' hw' (hregion.ordered hord)).mpr h
    · rw [hleft, hentered, List.forall_mem_singleton, ← hhere]

/-- What a region examines never exceeds its capacity, so a carry that leaves room for the
capacity leaves room for it. -/
theorem scanRegions_prompt (regions : List Region) (w : Walk (σ × List Query))
    (hpos : 0 < p.stride) (hprompt : w.Prompt) (hord : w.Ordered)
    (hroom : ∀ step ∈ p.recorded.entered regions w,
      step.2.pending = 0 ∨ step.2.pending + p.capacity step.1 < progressInterval) :
    (p.recorded.scanRegions regions w).2.Prompt := by
  refine (p.scanRegions_prompt_iff regions w hprompt hord).mpr fun step hstep => ?_
  have hle := p.recorded.scanRegionFirst_scanned_le step.1 step.2 hpos
  rw [recorded_capacity] at hle
  exact (hroom step hstep).imp_right fun h => by omega

/-- Reads of the recorded target transfer what the target's reads transfer. -/
theorem fills_recorded {target : ScanTarget σ} {mem : ℕ → UInt8} {region : Region}
    (h : Fills target mem region) : Fills target.recorded mem region := by
  intro world addr len hbase hend
  obtain ⟨buf, world', hread, hmem⟩ := h world.1 addr len hbase hend
  exact ⟨buf, (world', world.2 ++ [.read addr len]), by simp [ScanTarget.recorded, hread], hmem⟩

/-- In a pass that was left neither at the limit nor by the observer, over a target that fills its
regions, every region entered is examined to its capacity. -/
theorem entered_scanned_eq (mem : ℕ → UInt8) (hpos : 0 < p.stride) (regions : List Region)
    (w : Walk σ) (hfills : ∀ r ∈ regions, Fills p.target mem r)
    (hdone : (p.scanRegions regions w).1 = .ok false) :
    ∀ step ∈ p.entered regions w,
      (p.scanRegionFirst step.1 step.2).2.scanned = step.2.scanned + p.capacity step.1 := by
  induction regions generalizing w with
  | nil => simp [entered]
  | cons region regions ih =>
    obtain ⟨w', heq, ⟨-, hfull, -⟩ | ⟨hroom, hrest⟩⟩ :=
      p.scanRegions_cons_ok region regions w (Prod.ext hdone rfl)
    · cases hfull
    · have hscanned := p.scanRegionFirst_scanned_eq (hfills region List.mem_cons_self) w hpos heq
        hroom
      rw [p.entered_past region regions w heq hroom, List.forall_mem_cons, heq]
      exact ⟨hscanned,
        ih w' (fun r hr => hfills r (List.mem_cons_of_mem _ hr)) (congrArg Prod.fst hrest)⟩

/-- Then the condition is necessary as well. -/
theorem scanRegions_prompt_iff_of_fills (mem : ℕ → UInt8) (hpos : 0 < p.stride)
    (regions : List Region) (w : Walk (σ × List Query)) (hprompt : w.Prompt) (hord : w.Ordered)
    (hfills : ∀ r ∈ regions, Fills p.target mem r)
    (hdone : (p.recorded.scanRegions regions w).1 = .ok false) :
    (p.recorded.scanRegions regions w).2.Prompt ↔ ∀ step ∈ p.recorded.entered regions w,
      step.2.pending = 0 ∨ step.2.pending + p.capacity step.1 < progressInterval := by
  rw [p.scanRegions_prompt_iff regions w hprompt hord]
  refine forall₂_congr fun step hstep => ?_
  have heq := p.recorded.entered_scanned_eq mem hpos regions w
    (fun r hr => fills_recorded (hfills r hr)) hdone step hstep
  rw [heq, Nat.add_sub_cancel_left, recorded_capacity]

/-- An observer that always stops has heard nothing as long as the walk goes on. -/
theorem walkRegion_unreported (hstop : p.observer.AlwaysStops) (regionEnd addr : ℕ)
    (w : Walk (σ × List Query))
    (hgo : (p.recorded.walkRegion regionEnd addr 0 w).1 ≠ .ok .cancelled) :
    reports (p.recorded.walkRegion regionEnd addr 0 w).2.world.2 = reports w.world.2 := by
  have htick (sinceTick : ℕ) (w' : Walk (σ × List Query))
      (h : reports w'.world.2 = reports w.world.2) :
      if (p.recorded.tick sinceTick w').1 = true
        then reports (p.recorded.tick sinceTick w').2.2.world.2 = reports w.world.2 else True := by
    unfold tick
    split
    · simp [recorded, ScanObserver.recorded, hstop _ _]
    · exact h
  obtain ⟨sinceTick, hkept⟩ := p.recorded.walkRegion_keeps
    (fun _ w' => reports w'.world.2 = reports w.world.2) (fun _ _ => True) htick
    (fun _ _ _ _ h => h) (fun _ w' addr len h => (reports_concat_read w'.world.2 addr len).trans h)
    regionEnd addr 0 w rfl
  rwa [if_neg hgo] at hkept

theorem scanRegions_unreported (hstop : p.observer.AlwaysStops) (regions : List Region)
    (w : Walk (σ × List Query))
    (hgo : (p.recorded.scanRegions regions w).1 ≠ .error (.error .cancelled)) :
    reports (p.recorded.scanRegions regions w).2.world.2 = reports w.world.2 := by
  induction regions generalizing w with
  | nil => rfl
  | cons region regions ih =>
    have hregion : (p.recorded.scanRegionFirst region w).1 ≠ .ok .cancelled →
        reports (p.recorded.scanRegionFirst region w).2.world.2 = reports w.world.2 := by
      intro hgo
      unfold scanRegionFirst at hgo ⊢
      split
      · rfl
      · rename_i addr heq
        simp only [heq] at hgo
        exact p.walkRegion_unreported hstop region.stop addr w hgo
    rcases p.recorded.scanRegions_cons region regions w with ⟨w', hdone, -, hrest⟩ | hleft
    · rw [hdone] at hregion
      rw [hrest] at hgo ⊢
      exact (ih w' hgo).trans (hregion (by simp))
    · rw [hleft]
      exact hregion fun hcancelled =>
        hgo (p.recorded.scanRegions_cancelled region regions w hcancelled)

/-- A prompt pass that counted an interval reported it, so an observer that always stops has
stopped it. -/
theorem cancelled_of_prompt (hstop : p.observer.AlwaysStops) (regions : List Region)
    (w : Walk (σ × List Query)) (hstart : reports w.world.2 = [])
    (hprompt : (p.recorded.scanRegions regions w).2.Prompt)
    (hmany : progressInterval ≤ (p.recorded.scanRegions regions w).2.scanned) :
    (p.recorded.scanRegions regions w).1 = .error (.error .cancelled) := by
  by_contra hgo
  have hrecent := hprompt.recent
  rw [p.scanRegions_unreported hstop regions w hgo, hstart, last_nil] at hrecent
  omega

theorem limit_le_of_truncated (regions : List Region) (w : Walk σ)
    (h : (p.scanRegions regions w).1 = .ok true) : p.limit ≤ (p.scanRegions regions w).2.out.len := by
  induction regions generalizing w with
  | nil => simp [scanRegions] at h
  | cons region regions ih =>
    rcases hpass : p.scanRegions (region :: regions) w with ⟨verdict, w₂⟩
    rw [hpass] at h
    obtain rfl : verdict = .ok true := h
    obtain ⟨w', -, ⟨hfull, -, rfl⟩ | ⟨-, hrest⟩⟩ := p.scanRegions_cons_ok region regions w hpass
    · exact hfull
    · have hle := ih w' (congrArg Prod.fst hrest)
      rwa [hrest] at hle

/-- With room for a row at every position, a pass over filled regions completes. -/
theorem scanRegions_completes (hgo : p.observer.NeverStops) {mem : ℕ → UInt8} (hpos : 0 < p.stride)
    (regions : List Region) (hfills : ∀ r ∈ regions, Fills p.target mem r)
    (hroom : ∀ r ∈ regions, r.stop + p.align ≤ usizeMax) (w : Walk σ)
    (hout : w.out.stride = p.stride) (hlimit : w.out.len + (regions.map p.capacity).sum < p.limit) :
    (p.scanRegions regions w).1 = .ok false := by
  obtain ⟨⟨truncated, hok⟩, hcollects⟩ := p.scanRegions_collects hgo hpos regions hfills hroom w
    hout (by omega)
  have hhits : (regions.flatMap (p.regionHits mem)).length ≤ (regions.map p.capacity).sum := by
    rw [List.length_flatMap]
    exact List.sum_le_sum fun r _ => List.length_filter_le _ _
  have hlen := Capped.length_offer p.limit w.out.rows
    ((regions.flatMap (p.regionHits mem)).map (p.memRow mem))
  rw [← hcollects.rows_eq, ScanResults.rows_length, ScanResults.rows_length, List.length_map] at hlen
  cases truncated with
  | false => exact hok
  | true =>
    have := p.limit_le_of_truncated regions w hok
    omega

/-- What a small region leaves unreported makes the first report of a large one late. -/
theorem not_prompt_of_carry (mem : ℕ → UInt8) (hpos : 0 < p.stride) {r₁ r₂ : Region}
    (hfills : ∀ r ∈ [r₁, r₂], Fills p.target mem r) (w : Walk (σ × List Query))
    (hreports : reports w.world.2 = []) (hscanned : w.scanned = 0)
    (hdone : (p.recorded.scanRegions [r₁, r₂] w).1 = .ok false) (hcarry : 0 < p.capacity r₁)
    (hsmall : p.capacity r₁ < progressInterval)
    (hlarge : progressInterval ≤ p.capacity r₁ + p.capacity r₂) :
    ¬ (p.recorded.scanRegions [r₁, r₂] w).2.Prompt := by
  have hstart : w.Prompt := by
    rw [Walk.Prompt, hreports, hscanned]
    exact Kept.start (by decide)
  have hord : w.Ordered := by
    rw [Walk.Ordered, hreports]
    exact Nat.zero_le _
  obtain ⟨sinceTick, _, k, hlog, hcount⟩ := p.scanRegionFirst_reports r₁ w
  have hexact := p.recorded.entered_scanned_eq mem hpos [r₁, r₂] w
    (fun r hr => fills_recorded (hfills r hr)) hdone
  rw [p.scanRegions_prompt_iff_of_fills mem hpos _ w hstart hord hfills hdone]
  obtain ⟨w', heq, ⟨-, hfull, -⟩ | ⟨hroom, -⟩⟩ :=
    p.recorded.scanRegions_cons_ok r₁ [r₂] w (Prod.ext hdone rfl)
  · cases hfull
  · rw [p.recorded.entered_past r₁ [r₂] w heq hroom] at hexact ⊢
    rw [heq] at hlog hcount
    have hfirst := hexact (r₁, w) List.mem_cons_self
    rw [heq, recorded_capacity] at hfirst
    dsimp only at hlog hcount hfirst
    have hk : k = 0 := by
      by_contra hne
      have := Nat.le_mul_of_pos_right progressInterval (Nat.pos_of_ne_zero hne)
      omega
    have hpending : Walk.pending w' = p.capacity r₁ := by
      rw [Walk.pending, hlog, hk, hreports, hfirst, hscanned]
      simp
    intro hfresh
    have hsecond := hfresh (r₂, w') (by simp [entered])
    dsimp only at hsecond
    rw [hpending] at hsecond
    omega

/-- No region of the pass is entered with candidates unreported that its own could take past the
interval. -/
def EntersFresh (regions : List Region) (w : Walk (σ × List Query)) : Prop :=
  ∀ step ∈ p.recorded.entered regions w,
    step.2.pending = 0 ∨ step.2.pending + p.capacity step.1 < progressInterval

end FirstPass

namespace Scanner

/-- The state in which a first scan enters its walk, with nothing asked yet. -/
def startWalk (s : Scanner) (needle : Option Needle) (world : σ) : Walk (σ × List Query) :=
  ⟨(world, []), .withStride (s.stride needle), 0⟩

theorem startWalk_prompt (s : Scanner) (needle : Option Needle) (world : σ) :
    (s.startWalk needle world).Prompt :=
  Kept.start (by decide)

/-- A first scan whose walk was cancelled returns that. -/
theorem firstScanWith_cancelled (s : Scanner) {target : ScanTarget σ} {observer : ScanObserver σ}
    {compare : ScanCompareType} {needle : Option Needle} {world world₁ : σ} {all : List Region}
    {total : ℕ} (hcheck : s.checkFirst compare needle = .ok ())
    (hregions : target.regions world = (.ok all, world₁))
    (htotal : checkedSum ((s.regionFilter.apply all).map (·.size / s.alignmentStep)) = some total)
    (hwalk : ((s.firstPass target observer compare needle total).scanRegions
      (s.regionFilter.apply all) ⟨world₁, .withStride (s.stride needle), 0⟩).1 =
        .error (.error .cancelled)) :
    (s.firstScanWith target observer compare needle world).1 = .error (.error .cancelled) := by
  rw [firstScanWith_enters hcheck hregions htotal]
  split
  · rename_i heq
    rw [heq] at hwalk
    cases hwalk
    rfl
  · rename_i heq
    rw [heq] at hwalk
    cases hwalk

/-- A pass keeps the interval exactly if no region is entered with candidates unreported that fill
it together with those examined in the region. It is enough that the region has no positions for
that, and then an observer that always stops cancels a scan of an interval of candidates; over
filled regions that are walked to the end it is necessary. -/
theorem firstScan_prompt (s : Scanner) (target : ScanTarget σ) (observer : ScanObserver σ)
    (compare : ScanCompareType) (needle : Option Needle) (world world₁ : σ) (all : List Region)
    (total : ℕ) (hcheck : s.checkFirst compare needle = .ok ())
    (hregions : target.regions world = (.ok all, world₁))
    (htotal : checkedSum ((s.regionFilter.apply all).map (·.size / s.alignmentStep)) = some total) :
    let pass := s.firstPass target observer compare needle total
    let regions := s.regionFilter.apply all
    let walked := pass.recorded.scanRegions regions (s.startWalk needle world₁)
    (walked.2.Prompt ↔ ∀ step ∈ pass.recorded.entered regions (s.startWalk needle world₁),
      step.2.pending = 0 ∨ step.2.pending +
        ((pass.recorded.scanRegionFirst step.1 step.2).2.scanned - step.2.scanned) <
          progressInterval) ∧
    (pass.EntersFresh regions (s.startWalk needle world₁) → walked.2.Prompt ∧
      (observer.AlwaysStops → progressInterval ≤ walked.2.scanned →
        (s.firstScanWith target.recorded observer.recorded compare needle (world, [])).1 =
          .error (.error .cancelled))) ∧
    (∀ mem, (∀ r ∈ regions, Fills target mem r) → walked.1 = .ok false →
      (walked.2.Prompt ↔ pass.EntersFresh regions (s.startWalk needle world₁))) := by
  intro pass regions walked
  have hpos : 0 < s.stride needle := s.stride_pos_of_check hcheck
  have hstart := s.startWalk_prompt needle world₁
  have hord : (s.startWalk needle world₁).Ordered := Nat.le_refl 0
  refine ⟨pass.scanRegions_prompt_iff regions _ hstart hord, fun hfresh => ?_,
    fun mem hfills hdone => ?_⟩
  · have hprompt := pass.scanRegions_prompt regions _ hpos hstart hord hfresh
    refine ⟨hprompt, fun hstop hmany => ?_⟩
    have hrecorded : target.recorded.regions (world, []) = (.ok all, (world₁, [])) := by
      simp [ScanTarget.recorded, hregions]
    exact s.firstScanWith_cancelled hcheck hrecorded htotal
      (pass.cancelled_of_prompt hstop regions _ rfl hprompt hmany)
  · exact pass.scanRegions_prompt_iff_of_fills mem hpos regions _ hstart hord hfills hdone

/-- Two 16-bit values in one small region. -/
theorem firstScan_prompt_u16 :
    let m := MockTarget.new 0x1000 [1, 2, 1, 2, 9]
    let pass := (new .u16).firstPass (m.target Unit) (noObserver Unit) .unknown none 2
    let regions := (new .u16).regionFilter.apply m.regions
    let walked := pass.recorded.scanRegions regions ((new .u16).startWalk none ())
    (walked.2.Prompt ↔ ∀ step ∈ pass.recorded.entered regions ((new .u16).startWalk none ()),
      step.2.pending = 0 ∨ step.2.pending +
        ((pass.recorded.scanRegionFirst step.1 step.2).2.scanned - step.2.scanned) <
          progressInterval) ∧
    (pass.EntersFresh regions ((new .u16).startWalk none ()) → walked.2.Prompt ∧
      ((noObserver Unit).AlwaysStops → progressInterval ≤ walked.2.scanned →
        ((new .u16).firstScanWith (m.target Unit).recorded (noObserver Unit).recorded .unknown none
          ((), [])).1 = .error (.error .cancelled))) ∧
    (∀ mem, (∀ r ∈ regions, Fills (m.target Unit) mem r) → walked.1 = .ok false →
      (walked.2.Prompt ↔ pass.EntersFresh regions ((new .u16).startWalk none ()))) :=
  firstScan_prompt (new .u16) _ _ .unknown none () () _ 2 (by decide) rfl (by decide)

/-- A byte in one region and 4095 in the next: all of them are examined with no report. -/
theorem firstScan_late :
    let m : MockTarget := ⟨0, List.replicate 4111 0, [⟨0, 1⟩, ⟨16, 4095⟩]⟩
    let pass := (new .u8).firstPass (m.target Unit) (noObserver Unit) .unknown none 4096
    ¬ (pass.recorded.scanRegions m.regions ((new .u8).startWalk none ())).2.Prompt := by
  intro m pass
  have hin : ∀ r ∈ m.regions, r.stop ≤ 4111 := by decide
  have hfills (r : Region) (hr : r ∈ m.regions) : Fills pass.target m.mem r := by
    refine m.fills Unit (Nat.zero_le _) ?_
    show r.stop ≤ 0 + (List.replicate 4111 0).length
    rw [List.length_replicate, Nat.zero_add]
    exact hin r hr
  have hcapacity (base size : ℕ) (hle : base + size ≤ 4111) :
      pass.capacity ⟨base, size⟩ = size := by
    have hmul : pass.capacity ⟨base, size⟩ = (multiples 1 base (Region.stop ⟨base, size⟩)).length := rfl
    have hstop : Region.stop ⟨base, size⟩ = base + size :=
      Nat.min_eq_left (hle.trans (by decide))
    rw [hmul, hstop]
    simp [multiples]
  have hdone : (pass.recorded.scanRegions m.regions ((new .u8).startWalk none ())).1 = .ok false := by
    refine pass.recorded.scanRegions_completes (fun _ _ => rfl) (by decide) _
      (fun r hr => FirstPass.fills_recorded (hfills r hr)) (fun r hr => ?_) _ rfl ?_
    · have hle := hin r hr
      have hroom : 4111 + pass.recorded.align ≤ usizeMax := by decide
      omega
    · show 0 + (pass.capacity ⟨0, 1⟩ + (pass.capacity ⟨16, 4095⟩ + 0)) < defaultResultLimit
      rw [hcapacity _ _ (by decide), hcapacity _ _ (by decide)]
      decide
  refine pass.not_prompt_of_carry m.mem (by decide) hfills _ rfl rfl hdone ?_ ?_ ?_
  · rw [hcapacity _ _ (by decide)]
    decide
  · rw [hcapacity _ _ (by decide)]
    decide
  · rw [hcapacity _ _ (by decide), hcapacity _ _ (by decide)]
    decide

end Scanner

end Nemclass.Scan
