import Mathlib.Algebra.Order.BigOperators.Group.List
import Nemclass.Lib.Capped
import Nemclass.Scan.RegionWalk

/-! What a first scan finds on a target that fills every request inside a
region, under an observer that never stops: the matching lattice addresses of
each region in turn, up to the limit. Window size and overlap leave no trace in
the outcome. -/
namespace Nemclass.Scan
open Usize Multiples Capped

/-- Reads of a span inside the region return exactly the bytes of `mem`. -/
def Fills {σ : Type} (target : ScanTarget σ) (mem : ℕ → UInt8) (region : Region) : Prop :=
  ∀ world addr len, region.base ≤ addr → addr + len ≤ region.stop →
    ∃ buf world', target.read world addr len = (.ok buf, world') ∧ buf.val = memBytes mem addr len

/-- The bytes a mock target holds. -/
def MockTarget.mem (m : MockTarget) (a : ℕ) : UInt8 := m.buf.getD (a - m.base) 0

/-- A mock target fills every request inside its buffer. -/
theorem MockTarget.fills (m : MockTarget) (σ : Type) {r : Region} (hbase : m.base ≤ r.base)
    (hstop : r.stop ≤ m.base + m.buf.length) : Fills (m.target σ) m.mem r := by
  intro world addr len haddr hend
  have hoff : m.offsetOf addr = some (addr - m.base) := if_pos (by omega)
  refine ⟨m.read addr len, world, rfl, ?_⟩
  simp only [MockTarget.read, hoff]
  apply List.ext_getElem
  · simp only [List.length_take, List.length_drop, memBytes_length]
    omega
  · intro i hi _
    have hsub : addr + i - m.base = addr - m.base + i := by omega
    rw [List.getElem_take, List.getElem_drop]
    simp only [memBytes, List.getElem_map, List.getElem_range, MockTarget.mem, hsub]
    rw [List.getD_eq_getElem?_getD, List.getElem?_eq_getElem, Option.getD_some]

namespace FirstPass
variable {σ : Type} (p : FirstPass σ)

/-- `after` holds the rows of `before` and then `new`, cut at the result limit. -/
structure Collects (before after : ScanResults) (new : List ScanResult) : Prop where
  stride_eq : after.stride = before.stride
  rows_eq : after.rows = offer p.limit before.rows new

variable {p}

theorem Collects.nil {r : ScanResults} (h : r.len ≤ p.limit) : p.Collects r r [] := by
  refine ⟨rfl, (offer_nil ?_).symm⟩
  rwa [ScanResults.rows_length]

theorem Collects.trans {r s t : ScanResults} {new new' : List ScanResult} (h : p.Collects r s new)
    (h' : p.Collects s t new') : p.Collects r t (new ++ new') := by
  refine ⟨h'.stride_eq.trans h.stride_eq, ?_⟩
  rw [h'.rows_eq, h.rows_eq, offer_offer]

/-- Once the limit is reached, nothing further is collected. -/
theorem Collects.full {r s : ScanResults} {new : List ScanResult} (h : p.Collects r s new)
    (hfull : p.limit ≤ s.len) (more : List ScanResult) : p.Collects r s (new ++ more) := by
  refine h.trans ⟨rfl, (offer_full ?_ more).symm⟩
  have hlen := length_offer p.limit r.rows new
  rw [← h.rows_eq, ScanResults.rows_length] at hlen
  rw [ScanResults.rows_length]
  omega

variable (p)

theorem tick_goes_on (hgo : p.observer.NeverStops) (sinceTick : ℕ) (w : Walk σ) :
    (p.tick sinceTick w).1 = true := by
  unfold tick
  split
  · exact hgo _ _
  · rfl

/-- A window collects its matching offsets, and stops early exactly when they reach the limit. -/
theorem scanWindow_collects (hgo : p.observer.NeverStops) (addr : ℕ) (buf : List UInt8)
    (offs : List ℕ) (sinceTick : ℕ) (w : Walk σ) (hout : w.out.stride = p.stride)
    (hroom : w.out.len < p.limit) :
    let r := p.scanWindow addr buf offs sinceTick w
    p.Collects w.out r.2.2.out ((offs.filter (p.matched buf)).map (p.windowRow addr buf)) ∧
      r.1 = if p.limit ≤ r.2.2.out.len then .limit else .exhausted := by
  induction offs generalizing sinceTick w with
  | nil => exact ⟨Collects.nil hroom.le, (if_neg (Nat.not_le.mpr hroom)).symm⟩
  | cons off offs ih =>
    have hout' := p.tick_out sinceTick w
    have hgo' := p.tick_goes_on hgo sinceTick w
    unfold scanWindow
    split
    · simp_all
    · rename_i sinceTick' w' heq
      rw [heq] at hout'
      dsimp only at hout'
      rw [← hout'] at hout hroom
      have hpush := p.push_windowRow hout addr buf off
      by_cases hm : p.matched buf off = true
      · have hone : p.Collects w'.out (w'.out.push (addr + off) ((buf.drop off).take p.stride)
            ((buf.drop off).take p.stride)) [p.windowRow addr buf off] := by
          refine ⟨rfl, ?_⟩
          rw [hpush, offer_of_le]
          simp only [ScanResults.rows_length, List.length_singleton]
          omega
        rw [if_pos hm, List.filter_cons_of_pos hm, List.map_cons, ← List.singleton_append, ← hout']
        dsimp only
        split
        · rename_i hfull
          exact ⟨hone.full hfull _, rfl⟩
        · rename_i hmore
          obtain ⟨hrest, hexit⟩ := ih sinceTick' { w' with out := w'.out.push (addr + off) _ _ }
            hout (Nat.not_le.mp hmore)
          exact ⟨hone.trans hrest, hexit⟩
      · rw [if_neg hm, List.filter_cons_of_neg hm, ← hout']
        exact ih sinceTick' w' hout hroom

/-- The row captured at an address of a memory. -/
def memRow (mem : ℕ → UInt8) (a : ℕ) : ScanResult :=
  ⟨a, memBytes mem a p.stride, memBytes mem a p.stride⟩

/-- The candidates of `[lo, hi)` that match, in order. -/
def hits (mem : ℕ → UInt8) (lo hi : ℕ) : List ℕ :=
  (multiples p.align lo hi).filter fun a => p.matched (memBytes mem a p.stride) 0

theorem hits_append (mem : ℕ → UInt8) {lo hi : ℕ} (mid : ℕ) (h : lo ≤ mid) (h' : mid ≤ hi) :
    p.hits mem lo mid ++ p.hits mem mid hi = p.hits mem lo hi := by
  rw [hits, hits, ← List.filter_append, multiples_append p.align h h', hits]

theorem hits_of_le (mem : ℕ → UInt8) {lo hi : ℕ} (h : hi ≤ lo) : p.hits mem lo hi = [] := by
  rw [hits, multiples_of_le p.align h, List.filter_nil]

theorem hits_nextMultipleOf (mem : ℕ → UInt8) (lo hi : ℕ) :
    p.hits mem (nextMultipleOf lo p.align) hi = p.hits mem lo hi := by
  rw [hits, multiples_nextMultipleOf p.align_pos, hits]

/-- A candidate matches in a window exactly when its own bytes match. -/
theorem matched_window {buf : List UInt8} {off : ℕ} (h : off + p.stride ≤ buf.length) :
    p.matched buf off = p.matched ((buf.drop off).take p.stride) 0 := by
  unfold matched
  split
  · rename_i n hn
    rw [← p.stride_needle n hn] at h ⊢
    exact n.compare_window h _ _
  · rfl

/-- What a window read from `mem` collects. -/
theorem window_hits (mem : ℕ → UInt8) {addr read : ℕ} (haddr : p.align ∣ addr)
    (hread : p.stride ≤ read) :
    ((stepBy (read - p.stride) p.align).filter (p.matched (memBytes mem addr read))).map
        (p.windowRow addr (memBytes mem addr read)) =
      (p.hits mem addr (addr + (read - p.stride) + 1)).map (p.memRow mem) := by
  have hslice (off : ℕ) (h : off ∈ stepBy (read - p.stride) p.align) :
      ((memBytes mem addr read).drop off).take p.stride = memBytes mem (addr + off) p.stride := by
    have := ((mem_stepBy p.align_pos).mp h).2
    exact memBytes_slice mem addr (by omega)
  have hmatch (off : ℕ) (h : off ∈ stepBy (read - p.stride) p.align) :
      p.matched (memBytes mem addr read) off =
        p.matched (memBytes mem (addr + off) p.stride) 0 := by
    have := ((mem_stepBy p.align_pos).mp h).2
    rw [p.matched_window (by rw [memBytes_length]; omega), hslice off h]
  rw [hits, ← map_add_stepBy p.align_pos haddr, List.filter_map, List.map_map,
    List.filter_congr hmatch]
  refine List.map_congr_left fun off hoff => ?_
  have hlen := memBytes_length mem (addr + off) p.stride
  simp only [windowRow, hslice off (List.mem_of_mem_filter hoff), fixed_of_length hlen]
  rfl

/-- The window after a full one begins at the first lattice address not yet seen. -/
theorem advance_eq {addr read : ℕ} (haddr : p.align ∣ addr) (hpos : 0 < p.stride)
    (hread : p.stride ≤ read) (hroom : addr + read + p.align ≤ usizeMax) :
    p.advance addr read = some (nextMultipleOf (addr + (read - p.stride) + 1) p.align) := by
  have hstep : max (read - (p.stride - 1)) 1 = read - p.stride + 1 := by omega
  have hlt := nextMultipleOf_lt (addr + (read - p.stride) + 1) p.align_pos
  have hge := le_nextMultipleOf (addr + (read - p.stride) + 1) p.align
  have hleast := add_le_nextMultipleOf p.align_pos haddr (read - p.stride)
  simp only [advance, hstep, Option.bind_eq_bind]
  rw [checkedAdd_of_le (by omega), Option.bind_some, ← Nat.add_assoc, checkedNextMultipleOf,
    checked_of_le (by omega), Option.bind_some, checkedAdd_of_le (by omega), Option.bind_some,
    Nat.max_eq_left hleast]

/-- A request inside the region is filled. -/
theorem Fills.ok {target : ScanTarget σ} {mem : ℕ → UInt8} {region : Region}
    (h : Fills target mem region) {world world' : σ} {addr len : ℕ} {buf : Transfer len}
    (hread : target.read world addr len = (.ok buf, world')) (hbase : region.base ≤ addr)
    (hend : addr + len ≤ region.stop) : buf.val.length = len ∧
      buf.val = memBytes mem addr buf.val.length := by
  obtain ⟨buf', world'', hok, hmem⟩ := h world addr len hbase hend
  rw [hread, Prod.mk.injEq, Except.ok.injEq] at hok
  obtain ⟨rfl, _⟩ := hok
  have hlen : buf.val.length = len := by rw [hmem, memBytes_length]
  exact ⟨hlen, by rw [hlen, hmem]⟩

/-- A window read inside the region collects its hits, and stops early only at the limit. -/
theorem filledWindow_collects (hgo : p.observer.NeverStops) {mem : ℕ → UInt8} {region : Region}
    (hfills : Fills p.target mem region) {world world' : σ} {addr want : ℕ} {buf : Transfer want}
    (hread : p.target.read world addr want = (.ok buf, world')) (hbase : region.base ≤ addr)
    (hend : addr + want ≤ region.stop) (haddr : p.align ∣ addr)
    (hlong : ¬ buf.val.length < p.stride) {sinceTick sinceTick' : ℕ} {w w' : Walk σ}
    (hout : w.out.stride = p.stride) (hroom : w.out.len < p.limit) {exit : WindowExit}
    (hwin : p.scanWindow addr buf (stepBy (buf.val.length - p.stride) p.align) sinceTick w =
      (exit, sinceTick', w')) :
    p.Collects w.out w'.out
        ((p.hits mem addr (addr + (buf.val.length - p.stride) + 1)).map (p.memRow mem)) ∧
      exit = if p.limit ≤ w'.out.len then .limit else .exhausted := by
  have hbuf := (Fills.ok hfills hread hbase hend).2
  have hcollects := p.scanWindow_collects hgo addr buf
    (stepBy (buf.val.length - p.stride) p.align) sinceTick w hout hroom
  have hhits := p.window_hits mem haddr (Nat.not_lt.mp hlong)
  rw [← hbuf] at hhits
  rw [hhits, hwin] at hcollects
  exact hcollects

/-- From a lattice address on, a region contributes its hits that end inside it. -/
theorem walkRegion_collects (hgo : p.observer.NeverStops) {mem : ℕ → UInt8} {region : Region}
    (hfills : Fills p.target mem region) (hpos : 0 < p.stride)
    (hroom : region.stop + p.align ≤ usizeMax) (addr sinceTick : ℕ) (w : Walk σ)
    (hbase : region.base ≤ addr) (haddr : p.align ∣ addr) (hout : w.out.stride = p.stride)
    (hlen : w.out.len < p.limit) :
    (p.walkRegion region.stop addr sinceTick w).1 = .ok .completed ∧
      p.Collects w.out (p.walkRegion region.stop addr sinceTick w).2.out
        ((p.hits mem addr (region.stop + 1 - p.stride)).map (p.memRow mem)) := by
  have hbuf : p.stride ≤ p.bufLen := Nat.le_max_right _ _
  fun_induction p.walkRegion region.stop addr sinceTick w with
  | case1 addr sinceTick w hlt remaining want e world heq =>
    obtain ⟨buf, world', hok, _⟩ := hfills w.world addr want hbase (by omega)
    simp [heq] at hok
  | case2 addr sinceTick w hlt remaining want buf world heq _ read hshort =>
    have hread := (Fills.ok hfills heq hbase (by omega)).1
    rw [p.hits_of_le mem (by omega)]
    exact ⟨rfl, Collects.nil hlen.le⟩
  | case3 addr sinceTick w hlt remaining want buf world heq w₀ read hlong _ w' hwin =>
    have hexit := (p.filledWindow_collects (w := w₀) hgo hfills heq hbase (by omega) haddr hlong
      hout hlen hwin).2
    split at hexit <;> simp at hexit
  | case4 addr sinceTick w hlt remaining want buf world heq w₀ read hlong _ w' hwin =>
    have hread := (Fills.ok hfills heq hbase (by omega)).1
    obtain ⟨hcollects, hexit⟩ := p.filledWindow_collects (w := w₀) hgo hfills heq hbase (by omega)
      haddr hlong hout hlen hwin
    have hfull : p.limit ≤ w'.out.len := by
      by_contra hmore
      simp [hmore] at hexit
    rw [← p.hits_append mem (addr + (read - p.stride) + 1) (by omega) (by omega),
      List.map_append]
    exact ⟨rfl, hcollects.full hfull _⟩
  | case5 addr sinceTick w hlt remaining want buf world heq w₀ read hlong _ w' hwin hnone =>
    have hread := (Fills.ok hfills heq hbase (by omega)).1
    rw [p.advance_eq haddr hpos (Nat.not_lt.mp hlong) (by omega)] at hnone
    simp at hnone
  | case6 addr sinceTick w hlt remaining want buf world heq w₀ read hlong _ w' hwin next hnext ih =>
    have hread := (Fills.ok hfills heq hbase (by omega)).1
    obtain ⟨hcollects, hexit⟩ := p.filledWindow_collects (w := w₀) hgo hfills heq hbase (by omega)
      haddr hlong hout hlen hwin
    have hmore : w'.out.len < p.limit := by
      by_contra hfull
      simp [Nat.not_lt.mp hfull] at hexit
    have hlt' := p.lt_advance hnext
    rw [p.advance_eq haddr hpos (Nat.not_lt.mp hlong) (by omega), Option.some.injEq] at hnext
    subst hnext
    obtain ⟨hok, hrest⟩ := ih (by omega) (dvd_nextMultipleOf _ p.align_pos)
      (hcollects.stride_eq.trans hout) hmore
    rw [p.hits_nextMultipleOf] at hrest
    rw [← p.hits_append mem (addr + (read - p.stride) + 1) (by omega) (by omega),
      List.map_append]
    exact ⟨hok, hcollects.trans hrest⟩
  | case7 addr sinceTick w hge =>
    rw [p.hits_of_le mem (by omega)]
    exact ⟨rfl, Collects.nil hlen.le⟩

/-- The addresses of one region that a first scan is to find. -/
def regionHits (mem : ℕ → UInt8) (r : Region) : List ℕ := p.hits mem r.base (r.stop + 1 - p.stride)

theorem mem_regionHits {mem : ℕ → UInt8} {r : Region} {a : ℕ} :
    a ∈ p.regionHits mem r ↔ p.align ∣ a ∧ (r.base ≤ a ∧ a + p.stride ≤ r.stop) ∧
      p.matched (memBytes mem a p.stride) 0 = true := by
  have hend : a < r.stop + 1 - p.stride ↔ a + p.stride ≤ r.stop := by omega
  simp only [regionHits, hits, List.mem_filter, mem_multiples, hend, and_assoc]

theorem regionHits_sorted (mem : ℕ → UInt8) (hpos : 0 < p.stride) {regions : List Region}
    (hasc : Ascending regions) : (regions.flatMap (p.regionHits mem)).Pairwise (· < ·) := by
  rw [List.pairwise_flatMap]
  refine ⟨fun r _ => (multiples_sorted _ _ _).filter _, hasc.imp fun {r r'} h a ha b hb => ?_⟩
  have := (p.mem_regionHits.mp ha).2.1.2
  have := (p.mem_regionHits.mp hb).2.1.1
  omega

theorem scanRegionFirst_collects (hgo : p.observer.NeverStops) {mem : ℕ → UInt8} {region : Region}
    (hfills : Fills p.target mem region) (hpos : 0 < p.stride)
    (hroom : region.stop + p.align ≤ usizeMax) (w : Walk σ) (hout : w.out.stride = p.stride)
    (hlen : w.out.len < p.limit) :
    (p.scanRegionFirst region w).1 = .ok .completed ∧
      p.Collects w.out (p.scanRegionFirst region w).2.out
        ((p.regionHits mem region).map (p.memRow mem)) := by
  have halign := p.align_pos
  have hend := Region.stop_eq_of_lt (r := region) (by omega)
  have hle := le_nextMultipleOf region.base p.align
  have hlt := nextMultipleOf_lt region.base p.align_pos
  have hwalk := p.walkRegion_collects hgo hfills hpos hroom (nextMultipleOf region.base p.align) 0 w
    hle (dvd_nextMultipleOf _ p.align_pos) hout hlen
  rw [p.hits_nextMultipleOf] at hwalk
  rw [p.scanRegionFirst_of_le (by omega)]
  exact hwalk

/-- The regions are collected in turn; the verdict is whether the limit stopped them. -/
theorem scanRegions_collects (hgo : p.observer.NeverStops) {mem : ℕ → UInt8} (hpos : 0 < p.stride)
    (regions : List Region) (hfills : ∀ r ∈ regions, Fills p.target mem r)
    (hroom : ∀ r ∈ regions, r.stop + p.align ≤ usizeMax) (w : Walk σ)
    (hout : w.out.stride = p.stride) (hlen : w.out.len < p.limit) :
    (∃ truncated, (p.scanRegions regions w).1 = .ok truncated) ∧
      p.Collects w.out (p.scanRegions regions w).2.out
        ((regions.flatMap (p.regionHits mem)).map (p.memRow mem)) := by
  induction regions generalizing w with
  | nil => exact ⟨⟨false, rfl⟩, Collects.nil hlen.le⟩
  | cons region regions ih =>
    obtain ⟨hok, hhere⟩ := p.scanRegionFirst_collects hgo (hfills region List.mem_cons_self) hpos
      (hroom region List.mem_cons_self) w hout hlen
    rw [List.flatMap_cons, List.map_append]
    unfold scanRegions
    split
    · simp_all
    · simp_all
    · rename_i w' heq
      rw [heq] at hhere
      split
      · rename_i hfull
        exact ⟨⟨true, rfl⟩, hhere.full hfull _⟩
      · rename_i hmore
        obtain ⟨hverdict, hrest⟩ := ih (fun r hr => hfills r (List.mem_cons_of_mem _ hr))
          (fun r hr => hroom r (List.mem_cons_of_mem _ hr)) w' (hhere.stride_eq.trans hout)
          (Nat.not_le.mp hmore)
        exact ⟨hverdict, hhere.trans hrest⟩

end FirstPass

/-- Disjoint regions below a bound have sizes that fit under it together. -/
theorem Ascending.sum_size_le {regions : List Region} (hasc : Ascending regions) (lo : ℕ)
    {bound : ℕ} (hlo : ∀ r ∈ regions, lo ≤ r.base) (hle : lo ≤ bound)
    (hend : ∀ r ∈ regions, r.base + r.size ≤ bound ∧ r.stop = r.base + r.size) :
    lo + (regions.map Region.size).sum ≤ bound := by
  induction regions generalizing lo with
  | nil => simpa using hle
  | cons r regions ih =>
    obtain ⟨hfirst, hrest⟩ := List.pairwise_cons.mp hasc
    have hr := hend r List.mem_cons_self
    have hbase := hlo r List.mem_cons_self
    have htail := ih hrest (r.base + r.size) (fun x hx => hr.2 ▸ hfirst x hx) hr.1
      (fun x hx => hend x (List.mem_cons_of_mem _ hx))
    rw [List.map_cons, List.sum_cons]
    omega

/-- The candidate count of a walk is at most the number of bytes it covers. -/
theorem sum_candidates_le (regions : List Region) (align : ℕ) :
    (regions.map (·.size / align)).sum ≤ (regions.map Region.size).sum := by
  exact List.sum_le_sum fun r _ => Nat.div_le_self _ _

namespace Scanner
variable {σ : Type}

theorem firstScanWith_completes (s : Scanner) {target : ScanTarget σ} {observer : ScanObserver σ}
    {compare : ScanCompareType} {needle : Option Needle} {world world₁ : σ} {all : List Region}
    {total : ℕ} {truncated : Bool} {w : Walk σ} (hcheck : s.checkFirst compare needle = .ok ())
    (hregions : target.regions world = (.ok all, world₁))
    (htotal : checkedSum ((s.regionFilter.apply all).map (·.size / s.alignmentStep)) = some total)
    (hwalk : (s.firstPass target observer compare needle total).scanRegions (s.regionFilter.apply all)
      ⟨world₁, .withStride (s.stride needle), 0⟩ = (.ok truncated, w)) :
    s.firstScanWith target observer compare needle world =
      (.ok (), (s.enterWalk (s.regionFilter.apply all)).commitWalk truncated w, w.world) := by
  rw [firstScanWith_enters hcheck hregions htotal, hwalk]

/-- What a first scan is to find: a lattice address whose value lies in one region and matches. -/
def IsHit (s : Scanner) (compare : ScanCompareType) (needle : Option Needle)
    (regions : List Region) (mem : ℕ → UInt8) (a : ℕ) : Prop :=
  s.alignmentStep ∣ a ∧ (∃ r ∈ regions, r.base ≤ a ∧ a + s.stride needle ≤ r.stop) ∧
    match needle with
    | some n => n.compareFirst (memBytes mem a n.stride) 0 compare = true
    | none => compare = .unknown

theorem isHit_iff (s : Scanner) (target : ScanTarget σ) (observer : ScanObserver σ)
    (compare : ScanCompareType) (needle : Option Needle) (total : ℕ) (regions : List Region)
    (mem : ℕ → UInt8) (a : ℕ) : s.IsHit compare needle regions mem a ↔
      a ∈ regions.flatMap ((s.firstPass target observer compare needle total).regionHits mem) := by
  have hmatch : (s.firstPass target observer compare needle total).matched
      (memBytes mem a (s.stride needle)) 0 = true ↔ (match needle with
        | some n => n.compareFirst (memBytes mem a n.stride) 0 compare = true
        | none => compare = .unknown) := by
    cases needle with
    | none => exact decide_eq_true_iff
    | some n => exact Iff.rfl
  simp only [IsHit, ← hmatch, List.mem_flatMap, FirstPass.mem_regionHits]
  constructor
  · rintro ⟨hd, ⟨r, hr, hin⟩, hm⟩
    exact ⟨r, hr, hd, hin, hm⟩
  · rintro ⟨r, hr, hd, hin, hm⟩
    exact ⟨hd, ⟨r, hr, hin⟩, hm⟩

/-- A completed first scan holds the first hits, up to the limit, with the bytes found there. -/
theorem firstScan_finds (s : Scanner) (target : ScanTarget σ) (compare : ScanCompareType)
    (needle : Option Needle) (mem : ℕ → UInt8) (world world₁ : σ) (all : List Region)
    (hcheck : s.checkFirst compare needle = .ok ()) (hlimit : 0 < s.resultLimit)
    (hregions : target.regions world = (.ok all, world₁))
    (hasc : Ascending (s.regionFilter.apply all))
    (hroom : ∀ r ∈ s.regionFilter.apply all, r.stop + s.alignmentStep ≤ usizeMax)
    (hfills : ∀ r ∈ s.regionFilter.apply all, Fills target mem r) :
    ∃ (s' : Scanner) (world' : σ) (found : List ℕ),
      s.firstScan target compare needle world = (.ok (), s', world') ∧
      found.Pairwise (· < ·) ∧
      (∀ a, s.IsHit compare needle (s.regionFilter.apply all) mem a ↔ a ∈ found) ∧
      s'.results.rows = (found.take s.resultLimit).map fun a =>
        ⟨a, memBytes mem a (s.stride needle), memBytes mem a (s.stride needle)⟩ := by
  have hpos : 0 < s.stride needle := s.stride_pos_of_check hcheck
  have hsum : (s.regionFilter.apply all |>.map (·.size / s.alignmentStep)).sum ≤ usizeMax := by
    have halign := s.alignmentStep_pos
    refine (sum_candidates_le _ _).trans ((Nat.le_add_left _ 0).trans ?_)
    refine hasc.sum_size_le 0 (fun _ _ => Nat.zero_le _) (Nat.zero_le _) fun r hr => ?_
    have hstop := r.stop_le
    have hend := Region.stop_eq_of_lt (r := r) (by have := hroom r hr; omega)
    exact ⟨by omega, hend⟩
  let pass := s.firstPass target (noObserver σ) compare needle
    (s.regionFilter.apply all |>.map (·.size / s.alignmentStep)).sum
  obtain ⟨⟨truncated, hok⟩, hcollects⟩ := pass.scanRegions_collects (noObserver_neverStops σ) hpos
    _ hfills hroom ⟨world₁, .withStride (s.stride needle), 0⟩ rfl hlimit
  generalize hw : pass.scanRegions (s.regionFilter.apply all) _ = walked at hok hcollects
  obtain ⟨verdict, w⟩ := walked
  dsimp only at hok hcollects
  subst hok
  refine ⟨_, _, (s.regionFilter.apply all).flatMap (pass.regionHits mem),
    s.firstScanWith_completes hcheck hregions (checkedSum_of_le hsum) hw,
    pass.regionHits_sorted mem hpos hasc, s.isHit_iff target _ compare needle _ _ mem, ?_⟩
  rw [commitWalk_results, hcollects.rows_eq, offer, ScanResults.withStride_rows, List.nil_append,
    ← List.map_take]
  rfl

/-- Two 16-bit values `0x0201` in a five-byte buffer, of which a limit of one keeps the first. -/
theorem firstScan_finds_u16 :
    let s := (new .u16).withResultLimit 1
    let needle : Needle := ⟨.u16, .I 0x0201 2 none, defaultFloatTolerance, ⟨rfl, rfl⟩⟩
    let m := MockTarget.new 0x1000 [1, 2, 1, 2, 9]
    ∃ (s' : Scanner) (world' : Unit) (found : List ℕ),
      s.firstScan (m.target Unit) .exact (some needle) () = (.ok (), s', world') ∧
      found.Pairwise (· < ·) ∧
      (∀ a, s.IsHit .exact (some needle) (s.regionFilter.apply m.regions) m.mem a ↔ a ∈ found) ∧
      s'.results.rows = (found.take 1).map fun a => ⟨a, memBytes m.mem a 2, memBytes m.mem a 2⟩ :=
  firstScan_finds _ _ _ _ _ () () _ (by decide) (by decide) rfl (by decide) (by decide)
    fun r hr => by
      obtain rfl := List.mem_singleton.mp hr
      exact MockTarget.fills _ Unit (Nat.le_refl _) (by decide)

end Scanner

end Nemclass.Scan
