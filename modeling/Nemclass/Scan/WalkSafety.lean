import Nemclass.Scan.Candidates
import Nemclass.Scan.Recorded

/-! Where a first scan reads, and when its address arithmetic leaves the address space.
Every request lies in the region walked, whatever the target answers. Rounding up to the
lattice overflows when the lattice has no address left: at the region's base, or past its
last position once that has been examined. -/
namespace Nemclass.Scan
open Usize Multiples

variable {σ : Type}

/-- The lattice reaches the region's base from above and, if the region has a position, goes on
past its last one. -/
def LatticeFits (align stride : ℕ) (region : Region) : Prop :=
  nextMultipleOf region.base align ≤ usizeMax ∧
    (nextMultipleOf region.base align + stride ≤ region.stop →
      nextMultipleOf (region.stop - stride + 1) align ≤ usizeMax)

/-- What was asked of the target lies in the region, and is at most as many requests as bytes. -/
structure Walk.Confined (region : Region) (w : Walk (σ × List Query)) : Prop where
  inside : ∀ q ∈ requests w.world.2, region.base ≤ q.1 ∧ q.1 + q.2 ≤ region.stop
  few : (requests w.world.2).length ≤ region.size

namespace FirstPass
variable (p : FirstPass σ)

/-- A window asks its observer only. -/
theorem scanWindow_requests (addr : ℕ) (buf : List UInt8) (offs : List ℕ) {sinceTick : ℕ}
    {w : Walk (σ × List Query)} {exit : WindowExit} {sinceTick' : ℕ} {w' : Walk (σ × List Query)}
    (hwin : p.recorded.scanWindow addr buf offs sinceTick w = (exit, sinceTick', w')) :
    requests w'.world.2 = requests w.world.2 := by
  have htick (sinceTick : ℕ) (w' : Walk (σ × List Query))
      (h : requests w'.world.2 = requests w.world.2) :
      requests (p.recorded.tick sinceTick w').2.2.world.2 = requests w.world.2 := by
    unfold tick
    split
    · exact (requests_concat_tick w'.world.2 _).trans h
    · exact h
  have hkept := p.recorded.scanWindow_keeps (fun _ w' => requests w'.world.2 = requests w.world.2)
    (fun _ w' => requests w'.world.2 = requests w.world.2)
    (fun sinceTick w' h => by simpa using htick sinceTick w' h) (fun _ _ _ _ h => h)
    addr buf offs rfl hwin
  simpa using hkept

/-- The requests of a region's walk, from an address on. -/
theorem walkRegion_requests (regionEnd addr sinceTick : ℕ) (w : Walk (σ × List Query)) :
    ∃ new, requests (p.recorded.walkRegion regionEnd addr sinceTick w).2.world.2 =
        requests w.world.2 ++ new ∧
      (∀ q ∈ new, addr ≤ q.1 ∧ q.1 + q.2 ≤ regionEnd) ∧ new.length ≤ regionEnd - addr := by
  have hread (w : Walk (σ × List Query)) (addr len : ℕ) {answer world}
      (h : p.recorded.target.read w.world addr len = (answer, world)) :
      requests world.2 = requests w.world.2 ++ [(addr, len)] := by
    have hlog := p.recorded_read w.world addr len
    rw [h] at hlog
    dsimp only at hlog
    rw [hlog, requests_concat_read]
  have hone {addr want : ℕ} (hlt : addr < regionEnd) (hwant : want ≤ regionEnd - addr) :
      (∀ q ∈ [(addr, want)], addr ≤ q.1 ∧ q.1 + q.2 ≤ regionEnd) ∧
        [(addr, want)].length ≤ regionEnd - addr := by
    simp only [List.mem_singleton, forall_eq, List.length_singleton]
    omega
  fun_induction p.recorded.walkRegion regionEnd addr sinceTick w with
  | case1 addr sinceTick w hlt remaining want _ _ heq =>
    exact ⟨_, hread w addr want heq, hone hlt (Nat.min_le_right _ _)⟩
  | case2 addr sinceTick w hlt remaining want _ _ heq =>
    exact ⟨_, hread w addr want heq, hone hlt (Nat.min_le_right _ _)⟩
  | case3 addr sinceTick w hlt remaining want buf _ heq w₀ _ _ _ w' hwin
  | case4 addr sinceTick w hlt remaining want buf _ heq w₀ _ _ _ w' hwin
  | case5 addr sinceTick w hlt remaining want buf _ heq w₀ _ _ _ w' hwin =>
    have hlog := (p.scanWindow_requests addr buf.val _ hwin).trans (hread w addr want heq)
    exact ⟨_, hlog, hone hlt (Nat.min_le_right _ _)⟩
  | case6 addr sinceTick w hlt remaining want buf _ heq w₀ _ _ _ w' hwin next hnext ih =>
    have hlog := (p.scanWindow_requests addr buf.val _ hwin).trans (hread w addr want heq)
    have hfirst := hone hlt (Nat.min_le_right p.recorded.bufLen (regionEnd - addr))
    have hlt' := p.recorded.lt_advance hnext
    obtain ⟨new, hnew, hin, hfew⟩ := ih
    refine ⟨(addr, want) :: new, ?_, ?_, ?_⟩
    · rw [hnew, hlog, List.append_assoc]
      rfl
    · rw [List.forall_mem_cons]
      refine ⟨hfirst.1 _ List.mem_cons_self, fun q hq => ?_⟩
      have := hin q hq
      omega
    · rw [List.length_cons]
      omega
  | case7 => exact ⟨[], by simp, by simp, by simp⟩

/-- Every request of a region's walk lies in the region. -/
theorem scanRegionFirst_confined (region : Region) (w : Walk (σ × List Query))
    (hstart : w.world.2 = []) : (p.recorded.scanRegionFirst region w).2.Confined region := by
  have hnone : requests w.world.2 = [] := by rw [hstart]; rfl
  unfold scanRegionFirst
  split
  · exact ⟨by simp [hnone], by simp [hnone]⟩
  · rename_i addr haddr
    obtain ⟨new, hnew, hin, hfew⟩ := p.walkRegion_requests region.stop addr 0 w
    rw [hnone, List.nil_append] at hnew
    have hle := le_nextMultipleOf region.base p.align
    have haddr' : nextMultipleOf region.base p.align = addr := (checked_eq_some.mp haddr).1
    have hsize : region.stop ≤ region.base + region.size := Nat.min_le_left _ _
    refine ⟨fun q hq => ?_, ?_⟩
    · rw [hnew] at hq
      have := hin q hq
      omega
    · rw [hnew]
      omega

/-- Advancing past a window overflows exactly when the lattice has no address left. -/
theorem advance_eq_none {addr read : ℕ} (haddr : p.align ∣ addr) (hpos : 0 < p.stride)
    (hlong : ¬ read < p.stride) (hend : addr + read ≤ usizeMax) : p.advance addr read = none ↔
      usizeMax < nextMultipleOf (addr + (read - p.stride) + 1) p.align := by
  have hstep : max (read - (p.stride - 1)) 1 = read - p.stride + 1 := by omega
  have hleast := add_le_nextMultipleOf p.align_pos haddr (read - p.stride)
  simp only [advance, hstep, Option.bind_eq_bind]
  rw [checkedAdd_of_le (by omega), Option.bind_some, ← Nat.add_assoc]
  constructor
  · intro hnone
    by_contra hfits
    rw [checkedNextMultipleOf, checked_of_le (by omega), Option.bind_some,
      checkedAdd_of_le (by omega)] at hnone
    simp at hnone
  · intro hlarge
    rw [checkedNextMultipleOf, checked_eq_none.mpr hlarge, Option.bind_none]

theorem nextMultipleOf_mono {a b m : ℕ} (hm : 0 < m) (h : a ≤ b) :
    nextMultipleOf a m ≤ nextMultipleOf b m :=
  nextMultipleOf_le_of_dvd hm (dvd_nextMultipleOf b hm) (h.trans (le_nextMultipleOf b m))

/-- While the lattice goes on past the last position, no window overflows. -/
theorem walkRegion_fits (regionEnd addr sinceTick : ℕ) (w : Walk σ) (hpos : 0 < p.stride)
    (haddr : p.align ∣ addr) (hend : regionEnd ≤ usizeMax)
    (hfits : addr + p.stride ≤ regionEnd →
      nextMultipleOf (regionEnd - p.stride + 1) p.align ≤ usizeMax) :
    (p.walkRegion regionEnd addr sinceTick w).1 ≠ .error .overflow := by
  fun_induction p.walkRegion regionEnd addr sinceTick w with
  | case1 | case2 | case3 | case4 | case7 => simp
  | case5 addr sinceTick w hlt remaining want buf world heq w₀ read hlong _ w' hwin hnone =>
    have hbuf := buf.property
    have hlarge := (p.advance_eq_none haddr hpos hlong (by omega)).mp hnone
    have hmono := nextMultipleOf_mono p.align_pos
      (by omega : addr + (read - p.stride) + 1 ≤ regionEnd - p.stride + 1)
    have := hfits (by omega)
    omega
  | case6 addr sinceTick w hlt remaining want buf world heq w₀ read hlong _ w' hwin next hnext ih =>
    have hlt' := p.lt_advance hnext
    exact ih (p.dvd_advance haddr hnext) fun h => hfits (by omega)

theorem advance_le {addr read next : ℕ} (h : p.advance addr read = some next) :
    next ≤ usizeMax := by
  simp only [advance, Option.bind_eq_bind, Option.bind_eq_some_iff] at h
  obtain ⟨moved, _, rounded, hrounded, least, hleast, h⟩ := h
  have hrounded := checked_eq_some.mp hrounded
  have hleast := checkedAdd_eq_some.mp hleast
  have := Option.some.inj h
  omega

/-- A window is not cancelled by an observer that never stops. -/
theorem scanWindow_goes_on (hgo : p.observer.NeverStops) (addr : ℕ) (buf : List UInt8)
    (offs : List ℕ) {sinceTick : ℕ} {w : Walk σ} {exit : WindowExit} {sinceTick' : ℕ} {w' : Walk σ}
    (hwin : p.scanWindow addr buf offs sinceTick w = (exit, sinceTick', w')) :
    exit ≠ .cancelled := by
  have hkept := p.scanWindow_keeps (fun _ _ => True) (fun _ _ => False)
    (fun sinceTick w _ => by simp [p.tick_goes_on hgo sinceTick w]) (fun _ _ _ _ _ => trivial)
    addr buf offs trivial hwin
  intro hcancelled
  rwa [if_pos hcancelled] at hkept

/-- Over a filled region whose last position is the last of the lattice, an unhindered walk
overflows. -/
theorem walkRegion_overflows {mem : ℕ → UInt8} {region : Region}
    (hfills : Fills p.target mem region) (hgo : p.observer.NeverStops) (hpos : 0 < p.stride)
    (addr sinceTick : ℕ) (w : Walk σ) (hbase : region.base ≤ addr) (haddr : p.align ∣ addr)
    (hout : w.out.stride = p.stride) (hroom : w.out.len + (region.stop - addr) < p.limit)
    (hposition : addr + p.stride ≤ region.stop)
    (hlarge : usizeMax < nextMultipleOf (region.stop - p.stride + 1) p.align) :
    (p.walkRegion region.stop addr sinceTick w).1 = .error .overflow := by
  have hbuf : p.stride ≤ p.bufLen := Nat.le_max_right _ _
  fun_induction p.walkRegion region.stop addr sinceTick w with
  | case1 addr sinceTick w hlt remaining want e world heq =>
    obtain ⟨buf, world', hok, _⟩ := hfills w.world addr want hbase (by omega)
    simp [heq] at hok
  | case2 addr sinceTick w hlt remaining want buf world heq w₀ read hshort =>
    have hread := (Fills.ok hfills heq hbase (by omega)).1
    omega
  | case3 addr sinceTick w hlt remaining want buf world heq w₀ read hlong _ w' hwin =>
    exact absurd rfl (p.scanWindow_goes_on hgo addr buf.val _ hwin)
  | case4 addr sinceTick w hlt remaining want buf world heq w₀ read hlong _ w' hwin =>
    have hread := (Fills.ok hfills heq hbase (by omega)).1
    have hfull := (p.scanWindow_scanned addr buf.val _ hwin).2.2 rfl
    have hwithin := p.scanWindow_within addr buf.val (read - p.stride) sinceTick w₀ hout
    rw [hwin] at hwithin
    have hlen : w'.out.len ≤ w.out.len + _ := hwithin.len_le
    omega
  | case5 => rfl
  | case6 addr sinceTick w hlt remaining want buf world heq w₀ read hlong _ w' hwin next hnext ih =>
    have hread := (Fills.ok hfills heq hbase (by omega)).1
    have hwithin := p.scanWindow_within addr buf.val (read - p.stride) sinceTick w₀ hout
    rw [hwin] at hwithin
    have hlen : w'.out.len ≤ w.out.len + _ := hwithin.len_le
    have hge := p.advance_ge hnext
    have hle := p.advance_le hnext
    have hdvd := p.dvd_advance haddr hnext
    -- A lattice address past the last position would be the one that rounding up looks for.
    have hleft : next + p.stride ≤ region.stop := by
      by_contra hpast
      have := nextMultipleOf_le_of_dvd p.align_pos hdvd
        (by omega : region.stop - p.stride + 1 ≤ next)
      omega
    exact ih (by omega) hdvd (hwithin.1.trans hout) (by omega) hleft
  | case7 => omega

end FirstPass

/-- A target of zero bytes that fills every request, under no observer and with room for a row per
byte of a region. -/
def zeroPass (region : Region) (stride : ℕ) {align : ℕ} (halign : 0 < align) : FirstPass Unit where
  target := ⟨fun world => (.ok [region], world),
    fun world addr len => (.ok ⟨memBytes (fun _ => 0) addr len, (memBytes_length _ _ _).le⟩, world)⟩
  observer := noObserver Unit
  valueType := .u8
  compare := .unknown
  needle := none
  stride := stride
  align := align
  limit := region.size + 1
  total := 0
  align_pos := halign
  stride_needle := by simp

/-- Every walk of a region asks inside it and stays in the address space exactly if the lattice
has an address at or above the region's base, and one past its last position if it has any. -/
theorem scanRegionFirst_safe_iff (region : Region) {align stride : ℕ} (halign : 0 < align)
    (hstride : 0 < stride) :
    (∀ (σ : Type) (p : FirstPass σ) (w : Walk (σ × List Query)), p.align = align →
      p.stride = stride → w.world.2 = [] →
      (p.recorded.scanRegionFirst region w).1 ≠ .error .overflow ∧
        (p.recorded.scanRegionFirst region w).2.Confined region) ↔
    LatticeFits align stride region := by
  constructor
  · intro hsafe
    have hpass := (hsafe Unit (zeroPass region stride halign) ⟨((), []), .withStride stride, 0⟩
      rfl rfl rfl).1
    have hfills : Fills (zeroPass region stride halign).recorded.target (fun _ => 0)
        region := fun _ _ _ _ _ => ⟨_, _, rfl, rfl⟩
    have hbase : nextMultipleOf region.base align ≤ usizeMax := by
      by_contra hlarge
      refine hpass ?_
      rw [FirstPass.scanRegionFirst_of_lt _ (Nat.not_le.mp hlarge)]
    refine ⟨hbase, fun hposition => ?_⟩
    by_contra hlarge
    refine hpass ?_
    rw [FirstPass.scanRegionFirst_of_le _ hbase]
    have hsize : region.stop ≤ region.base + region.size := Nat.min_le_left _ _
    refine FirstPass.walkRegion_overflows _ hfills (fun _ _ => rfl) hstride _ 0 _
      (le_nextMultipleOf _ _) (dvd_nextMultipleOf _ halign) rfl ?_ hposition (Nat.not_le.mp hlarge)
    show 0 + (region.stop - nextMultipleOf region.base align) < region.size + 1
    have := le_nextMultipleOf region.base align
    omega
  · rintro ⟨hbase, hpast⟩ σ p w rfl rfl hstart
    refine ⟨?_, p.scanRegionFirst_confined region w hstart⟩
    rw [p.recorded.scanRegionFirst_of_le hbase]
    exact p.recorded.walkRegion_fits region.stop _ 0 w hstride
      (dvd_nextMultipleOf region.base p.align_pos) region.stop_le hpast

/-- A region of five pages, walked by four-byte values four bytes apart. -/
theorem scanRegionFirst_safe_pages :
    (∀ (σ : Type) (p : FirstPass σ) (w : Walk (σ × List Query)), p.align = 4 →
      p.stride = 4 → w.world.2 = [] →
      (p.recorded.scanRegionFirst ⟨0x1000, 0x5000⟩ w).1 ≠ .error .overflow ∧
        (p.recorded.scanRegionFirst ⟨0x1000, 0x5000⟩ w).2.Confined ⟨0x1000, 0x5000⟩) ↔
    LatticeFits 4 4 ⟨0x1000, 0x5000⟩ :=
  scanRegionFirst_safe_iff ⟨0x1000, 0x5000⟩ (by decide) (by decide)

/-- The last eight bytes below the top hold no multiple of sixteen. -/
theorem scanRegionFirst_top :
    let region : Region := ⟨usizeMax - 7, 7⟩
    let pass := ((Scanner.new .u8).setAlignment 16).firstPass
      ((MockTarget.mk (usizeMax - 7) [1, 2, 3, 4, 5, 6, 7] [region]).target Unit)
      (noObserver Unit) .unknown none 0
    (pass.recorded.scanRegionFirst region ⟨((), []), .withStride 1, 0⟩).1 = .error .overflow := by
  decide +kernel

end Nemclass.Scan
