import Nemclass.Scan.FirstScan
import Nemclass.Scan.RegionFilter
import Nemclass.Scan.SpiderFlat

/-! A spider search without hops beside a first scan of the same window. Both step by the width of
a number, but over text and patterns the spider steps by the needle's length and the scanner byte by
byte; and a value that the first read of the struct cut off is lost to the spider only. They report
the same addresses exactly when no match lies at such a place. -/
namespace Nemclass.Scan
open Usize

section StructWindow

/-- The bytes of a struct, as the window of a region filter. -/
def structWindow (root size : ℕ) : RegionFilter := { start := root, stop := root + size }

/-- The `n` bytes at `a` lie in one of the regions. -/
def WithinOne (regions : List Region) (a n : ℕ) : Prop :=
  ∃ r ∈ regions, r.base ≤ a ∧ a + n ≤ r.stop

variable {regions : List Region} {root size : ℕ}

theorem mem_apply_structWindow (hsize : 0 < size) (hroom : root + size < usizeMax) {r' : Region} :
    r' ∈ (structWindow root size).apply regions ↔
      ∃ r ∈ regions, max r.base root < min r.stop (root + size) ∧
        r' = ⟨max r.base root, min r.stop (root + size) - max r.base root⟩ := by
  have hrestricted : (structWindow root size).isUnrestricted = false := by
    have hstop : root + size ≠ usizeMax := hroom.ne
    simp [RegionFilter.isUnrestricted, structWindow, hstop]
  have hmerged : (structWindow root size).mergedInclude = [] := by
    simp [RegionFilter.mergedInclude, structWindow]
  have hopen : ¬ (structWindow root size).stop ≤ (structWindow root size).start := by
    show ¬ root + size ≤ root
    omega
  rw [RegionFilter.apply, hrestricted, hmerged, if_neg Bool.false_ne_true, if_neg hopen,
    List.mem_mergeSort, List.mem_flatMap]
  refine exists_congr fun r => and_congr_right fun _ => ?_
  have hpieces : (structWindow root size).pieces [] r =
      if min r.stop (root + size) ≤ max r.base root then []
      else [⟨max r.base root, min r.stop (root + size) - max r.base root⟩] := rfl
  rw [hpieces]
  by_cases hempty : min r.stop (root + size) ≤ max r.base root
  · rw [if_pos hempty]
    simp only [List.not_mem_nil, false_iff, not_and]
    omega
  · rw [if_neg hempty, List.mem_singleton]
    exact ⟨fun h => ⟨by omega, h⟩, fun h => h.2⟩

/-- A value lies in a clamped region exactly if it lies in the window and in one region. -/
theorem within_structWindow (hsize : 0 < size) (hroom : root + size < usizeMax) {a n : ℕ}
    (hn : 0 < n) : WithinOne ((structWindow root size).apply regions) a n ↔
      (root ≤ a ∧ a + n ≤ root + size) ∧ WithinOne regions a n := by
  constructor
  · rintro ⟨r', hr', hlo, hhi⟩
    obtain ⟨r, hr, hlt, rfl⟩ := (mem_apply_structWindow hsize hroom).mp hr'
    rw [Region.stop_mk hlt.le (by omega)] at hhi
    dsimp only at hlo
    exact ⟨by omega, r, hr, by omega, by omega⟩
  · rintro ⟨hin, r, hr, hlo, hhi⟩
    have hlt : max r.base root < min r.stop (root + size) := by omega
    refine ⟨_, (mem_apply_structWindow hsize hroom).mpr ⟨r, hr, hlt, rfl⟩, ?_, ?_⟩
    · show max r.base root ≤ a
      omega
    · rw [Region.stop_mk hlt.le (by omega)]
      omega

/-- The clamped regions are filled where the regions are. -/
theorem PagedReads.fills_structWindow {σ : Type} {target : ScanTarget σ} {mem : ℕ → UInt8}
    (hmem : PagedReads target regions mem) (hsize : 0 < size) (hroom : root + size < usizeMax) :
    ∀ r' ∈ (structWindow root size).apply regions,
      r'.stop ≤ root + size ∧ Fills target mem r' := by
  intro r' hr'
  obtain ⟨r, hr, hlt, rfl⟩ := (mem_apply_structWindow hsize hroom).mp hr'
  have hstop := Region.stop_mk hlt.le (show min r.stop (root + size) ≤ usizeMax by omega)
  refine ⟨by rw [hstop]; omega, fun world addr len hbase hend => ?_⟩
  refine hmem.fills world addr len fun i hi => ⟨r, hr, ?_, ?_⟩
  · have hlo : max r.base root ≤ addr := hbase
    omega
  · rw [hstop] at hend
    omega

end StructWindow

theorem ScanValueType.fixedWidth_dvd_page {ty : ScanValueType} {w : ℕ}
    (h : ty.fixedWidth = some w) : w ∣ page := by
  cases ty <;> cases h <;> decide

/-- The default step of a first scan is the width of the type. -/
theorem Scanner.alignmentStep_of_fixedWidth {ty : ScanValueType} {w : ℕ}
    (h : ty.fixedWidth = some w) : (Scanner.new ty).alignmentStep = w := by
  have hpos := ScanValueType.fixedWidth_pos h
  simp only [Scanner.alignmentStep, Scanner.new, h, Option.getD_none, Option.getD_some]
  omega

/-- A type without a width is scanned byte by byte. -/
theorem Scanner.alignmentStep_of_none {ty : ScanValueType} (h : ty.fixedWidth = none) :
    (Scanner.new ty).alignmentStep = 1 := by
  simp only [Scanner.alignmentStep, Scanner.new, h, Option.getD_none]
  rfl

/-- The scanner's step divides what the needle's length divides. -/
theorem Needle.alignmentStep_dvd (n : Needle) {a : ℕ} (h : n.stride ∣ a) :
    (Scanner.new n.ty).alignmentStep ∣ a := by
  cases hwidth : n.ty.fixedWidth with
  | none =>
    rw [Scanner.alignmentStep_of_none hwidth]
    exact Nat.one_dvd a
  | some w =>
    rwa [Scanner.alignmentStep_of_fixedWidth hwidth, ← n.stride_of_fixedWidth hwidth]

/-- A window's match: a value inside the struct that satisfies the comparison. -/
structure MatchesWithin (compare : ScanCompareType) (needle : Needle) (mem : ℕ → UInt8)
    (root size a : ℕ) : Prop where
  ge_root : root ≤ a
  le_stop : a + needle.stride ≤ root + size
  matches_ : needle.compareFirst (memBytes mem a needle.stride) 0 compare = true

/-- Every match within a struct is a slot of the spider if it is a candidate of the scanner, and was
seen exactly if it lies in one region. -/
structure SameSlots (compare : ScanCompareType) (needle : Needle) (regions : List Region)
    (mem : ℕ → UInt8) (root size first : ℕ) : Prop where
  lattice : ∀ a, MatchesWithin compare needle mem root size a →
    (Scanner.new needle.ty).alignmentStep ∣ a → WithinOne regions a needle.stride →
      needle.stride ∣ a
  seen : ∀ a, MatchesWithin compare needle mem root size a → needle.stride ∣ a →
    (Seen regions root first a needle.stride ↔ WithinOne regions a needle.stride)

/-- The two walks agree on the matches exactly if they have the same slots there. -/
theorem sameSlots_iff {compare : ScanCompareType} {needle : Needle} {regions : List Region}
    {mem : ℕ → UInt8} {root size first : ℕ} : SameSlots compare needle regions mem root size first ↔
      ∀ a, MatchesWithin compare needle mem root size a →
        (needle.stride ∣ a ∧ Seen regions root first a needle.stride ↔
          (Scanner.new needle.ty).alignmentStep ∣ a ∧ WithinOne regions a needle.stride) := by
  constructor
  · intro h a ha
    constructor
    · rintro ⟨hslot, hseen⟩
      exact ⟨needle.alignmentStep_dvd hslot, (h.seen a ha hslot).mp hseen⟩
    · rintro ⟨hstep, hone⟩
      have hslot := h.lattice a ha hstep hone
      exact ⟨hslot, (h.seen a ha hslot).mpr hone⟩
  · intro h
    refine ⟨fun a ha hstep hone => ((h a ha).mpr ⟨hstep, hone⟩).1, fun a ha hslot => ?_⟩
    constructor
    · exact fun hseen => ((h a ha).mp ⟨hslot, hseen⟩).2
    · exact fun hone => ((h a ha).mpr ⟨needle.alignmentStep_dvd hslot, hone⟩).2

/-- The addresses that a search without hops reports. -/
def SpiderScanResult.addresses (r : SpiderScanResult) : List ℕ :=
  r.hits.map fun hit => hit.path.root + hit.path.offset

theorem SpiderScanResult.mem_addresses {r : SpiderScanResult} {root : ℕ}
    (hroot : ∀ hit ∈ r.hits, hit.path.root = root) {a : ℕ} (ha : root ≤ a) :
    a ∈ r.addresses ↔ a - root ∈ r.hits.map (·.path.offset) := by
  simp only [SpiderScanResult.addresses, List.mem_map]
  refine exists_congr fun hit => and_congr_right fun hhit => ?_
  rw [hroot hit hhit]
  omega

theorem SpiderConfig.clamped_structSize_pos (cfg : SpiderConfig) : 0 < cfg.clamped.structSize :=
  Nat.lt_min.mpr ⟨Nat.lt_of_lt_of_le one_pos (Nat.le_max_right _ _), by decide⟩

section Agreement
variable {σ : Type} {target : ScanTarget σ} {regions : List Region} {mem : ℕ → UInt8}

/-- The slots of a struct, as the multiples inside it. -/
theorem mem_slotOffsets_within (p : SpiderPass σ) {root a : ℕ} (ha : root ≤ a)
    (hend : a < root + p.cfg.structSize) : a - root ∈ p.slotOffsets root ↔ p.align ∣ a := by
  have hsum : root + (a - root) = a := by omega
  have hfirst := le_nextMultipleOf root p.align
  rw [p.mem_slotOffsets, hsum]
  constructor
  · exact fun h => h.1
  · exact fun h => ⟨h, nextMultipleOf_le_of_dvd p.align_pos h ha, by omega⟩

/-- What a spider search without hops reports of a struct. -/
theorem spiderScan_addresses (hmem : PagedReads target regions mem) {root : ℕ} {cfg : SpiderConfig}
    (halign : cfg.alignment = 0) (hdepth : cfg.maxDepth = 0) {valueType : ScanValueType}
    {compare : ScanCompareType} {needle : Needle}
    (hcheck : checkSpider valueType compare (some needle) = .ok needle)
    {world world₁ : σ} (hregions : target.regions world = (.ok regions, world₁))
    (hroom : root + cfg.clamped.structSize + cfg.clamped.pointerSize + 2 * needle.stride + page ≤
      usizeMax) :
    let size := cfg.clamped.structSize
    let first := transferred target world₁ root (size + cfg.clamped.pointerSize + needle.stride)
    ∃ r world', spiderScan target root cfg valueType compare (some needle) world = (.ok r, world') ∧
      (∀ hit ∈ r.hits, hit.path.root = root ∧ hit.path.parentOffsets = []) ∧
      (r.hits.length < cfg.clamped.maxResults → ∀ a, root ≤ a → a + needle.stride ≤ root + size →
        (a ∈ r.addresses ↔ (needle.stride ∣ a ∧ Seen regions root first a needle.stride) ∧
          needle.compareFirst (memBytes mem a needle.stride) 0 compare = true)) := by
  intro size first
  have hpos := stride_pos_of_checkSpider hcheck
  have hstep : spiderAlign cfg.clamped needle = needle.stride := by
    have hzero : cfg.clamped.alignment = 0 := halign
    rw [spiderAlign, if_pos hzero]
    exact Nat.max_eq_left hpos
  obtain ⟨r, world', hscan, hpaths, hhits⟩ := spiderScan_flat hmem hdepth hcheck hregions
    (by rwa [hstep])
  rw [hstep] at hhits
  refine ⟨r, world', hscan, hpaths, fun hfew a hlo hhi => ?_⟩
  have hsum : root + (a - root) = a := by omega
  rw [SpiderScanResult.mem_addresses (fun hit hhit => (hpaths hit hhit).1) hlo, hhits hfew, hsum,
    mem_slotOffsets_within _ hlo (by show a < root + size; omega)]
  have hslot : (spiderPass target (noObserver σ) root cfg.clamped compare needle regions).align =
      needle.stride := hstep
  have hfits : a - root + needle.stride ≤ size + cfg.clamped.pointerSize + needle.stride := by omega
  rw [hslot, and_assoc]
  exact and_congr_right fun _ => ⟨fun h => h.2, fun h => ⟨hfits, h⟩⟩

/-- A first scan makes no check that a spider search does not make. -/
theorem checkFirst_of_checkSpider {s : Scanner} {valueType : ScanValueType}
    (hs : s.valueType = valueType) {compare : ScanCompareType} {needle : Needle}
    (hcheck : checkSpider valueType compare (some needle) = .ok needle) :
    s.checkFirst compare (some needle) = .ok () := by
  obtain ⟨-, htype, hpos, -, hprevious⟩ := checkSpider_eq_ok hcheck
  have hneedle : s.validateNeedle compare (some needle) = .ok () :=
    if_neg (not_not.mpr (htype.trans hs.symm))
  have hstride : ¬ s.stride (some needle) = 0 := hpos.ne'
  rw [Scanner.checkFirst, hprevious, if_neg Bool.false_ne_true, hneedle]
  exact if_neg hstride

/-- What a first scan of a struct's window reports. -/
theorem firstScan_structWindow (hmem : PagedReads target regions mem) (hasc : Ascending regions)
    {root size limit : ℕ} (hsize : 0 < size) (hlimit : 0 < limit) {valueType : ScanValueType}
    {compare : ScanCompareType} {needle : Needle}
    (hcheck : checkSpider valueType compare (some needle) = .ok needle)
    {world world₁ : σ} (hregions : target.regions world = (.ok regions, world₁))
    (hroom : root + size + needle.stride < usizeMax) :
    let scanner := ((Scanner.new valueType).withResultLimit limit).setRegionFilter
      (structWindow root size)
    ∃ s' world', scanner.firstScan target compare (some needle) world = (.ok (), s', world') ∧
      (s'.results.len < limit → ∀ a, root ≤ a → a + needle.stride ≤ root + size →
        (a ∈ s'.results.rows.map (·.address) ↔
          ((Scanner.new needle.ty).alignmentStep ∣ a ∧ WithinOne regions a needle.stride) ∧
            needle.compareFirst (memBytes mem a needle.stride) 0 compare = true)) := by
  intro scanner
  obtain ⟨-, htype, hpos, -⟩ := checkSpider_eq_ok hcheck
  have hfirst : scanner.checkFirst compare (some needle) = .ok () :=
    checkFirst_of_checkSpider rfl hcheck
  have hstep : scanner.alignmentStep = (Scanner.new needle.ty).alignmentStep := by
    rw [show needle.ty = valueType from htype]
    rfl
  have hle : scanner.alignmentStep ≤ needle.stride := by
    rw [hstep]
    exact Nat.le_of_dvd hpos (needle.alignmentStep_dvd (dvd_refl _))
  have hwindow : ∀ r' ∈ (structWindow root size).apply regions,
      r'.stop ≤ root + size ∧ Fills target mem r' := hmem.fills_structWindow hsize (by omega)
  obtain ⟨s', world', found, hscan, -, hfound, hrows⟩ := scanner.firstScan_finds target compare
    (some needle) mem world world₁ regions hfirst hlimit hregions
    (RegionFilter.apply_ascending hasc)
    (fun r hr => by have := (hwindow r hr).1; omega) fun r hr => (hwindow r hr).2
  refine ⟨s', world', hscan, fun hfew a hlo hhi => ?_⟩
  have hall : found.take limit = found := by
    have hlen : s'.results.rows.length < limit := by rwa [ScanResults.rows_length]
    rw [hrows, List.length_map, List.length_take,
      show scanner.resultLimit = limit from rfl] at hlen
    exact List.take_of_length_le (by omega)
  have hrows' : s'.results.rows.map (·.address) = found := by
    rw [hrows, show found.take scanner.resultLimit = found from hall, List.map_map]
    exact List.map_id _
  have hone : WithinOne ((structWindow root size).apply regions) a needle.stride ↔
      WithinOne regions a needle.stride := by
    rw [within_structWindow hsize (by omega) hpos]
    exact ⟨fun h => h.2, fun h => ⟨⟨hlo, hhi⟩, h⟩⟩
  have hhit : scanner.IsHit compare (some needle) (scanner.regionFilter.apply regions) mem a ↔
      scanner.alignmentStep ∣ a ∧
        WithinOne ((structWindow root size).apply regions) a needle.stride ∧
        needle.compareFirst (memBytes mem a needle.stride) 0 compare = true := Iff.rfl
  rw [hrows', ← hfound a, hhit, hstep, hone, and_assoc]

/-- A spider search without hops and a first scan of the same struct report the same values inside
it exactly if they have the same slots at the matches. -/
theorem spiderScan_agrees_iff (root : ℕ) (cfg : SpiderConfig) (limit : ℕ)
    (hmem : PagedReads target regions mem) (hasc : Ascending regions) (hlimit : 0 < limit)
    (halign : cfg.alignment = 0) (hdepth : cfg.maxDepth = 0) {valueType : ScanValueType}
    {compare : ScanCompareType} {needle : Needle}
    (hcheck : checkSpider valueType compare (some needle) = .ok needle)
    {world world₁ : σ} (hregions : target.regions world = (.ok regions, world₁))
    (hroom : root + cfg.clamped.structSize + cfg.clamped.pointerSize + 2 * needle.stride + page ≤
      usizeMax) :
    let size := cfg.clamped.structSize
    let first := transferred target world₁ root (size + cfg.clamped.pointerSize + needle.stride)
    let scanner := ((Scanner.new valueType).withResultLimit limit).setRegionFilter
      (structWindow root size)
    ∃ r s' w w',
      spiderScan target root cfg valueType compare (some needle) world = (.ok r, w) ∧
      scanner.firstScan target compare (some needle) world = (.ok (), s', w') ∧
      (∀ hit ∈ r.hits, hit.path.root = root ∧ hit.path.parentOffsets = []) ∧
      (r.hits.length < cfg.clamped.maxResults → s'.results.len < limit →
        ((∀ a, root ≤ a → a + needle.stride ≤ root + size →
            (a ∈ r.addresses ↔ a ∈ s'.results.rows.map (·.address))) ↔
          SameSlots compare needle regions mem root size first)) := by
  intro size first scanner
  have hsize : 0 < size := SpiderConfig.clamped_structSize_pos cfg
  obtain ⟨r, w, hspider, hpaths, hslots⟩ := spiderScan_addresses hmem halign hdepth hcheck hregions
    hroom
  obtain ⟨s', w', hscan, hcandidates⟩ := firstScan_structWindow hmem hasc hsize hlimit hcheck
    hregions
    (show root + size + needle.stride < usizeMax by
      have hpage : 0 < page := by decide
      omega)
  refine ⟨r, s', w, w', hspider, hscan, hpaths, fun hfew hfew' => ?_⟩
  rw [sameSlots_iff]
  constructor
  · intro h a ha
    have hsame := h a ha.ge_root ha.le_stop
    rw [hslots hfew a ha.ge_root ha.le_stop, hcandidates hfew' a ha.ge_root ha.le_stop] at hsame
    exact (and_congr_left_iff.mp hsame) ha.matches_
  · intro h a hlo hhi
    rw [hslots hfew a hlo hhi, hcandidates hfew' a hlo hhi]
    exact and_congr_left fun hmatch => h a ⟨hlo, hhi, hmatch⟩

/-- Numbers over whole pages have the same slots, unless the first read cut the struct short. -/
theorem sameSlots_of_fixedWidth (hmem : PagedReads target regions mem)
    (hpages : ∀ r ∈ regions, page ∣ r.stop) {compare : ScanCompareType} {needle : Needle} {w : ℕ}
    (hwidth : needle.ty.fixedWidth = some w) {world : σ} {root size len : ℕ}
    (hfirst : transferred target world root len = 0 ∨ size ≤ transferred target world root len) :
    SameSlots compare needle regions mem root size (transferred target world root len) := by
  have hstride := needle.stride_of_fixedWidth hwidth
  have hpos : 0 < needle.stride := by
    rw [hstride]
    exact ScanValueType.fixedWidth_pos hwidth
  have hstep : (Scanner.new needle.ty).alignmentStep = needle.stride := by
    rw [hstride]
    exact Scanner.alignmentStep_of_fixedWidth hwidth
  have hpage : needle.stride ∣ page := by
    rw [hstride]
    exact ScanValueType.fixedWidth_dvd_page hwidth
  -- A slot does not reach past the end of the region that holds its first byte.
  have hone (a : ℕ) (hslot : needle.stride ∣ a) (hmapped : Mapped regions a) :
      WithinOne regions a needle.stride := by
    obtain ⟨r, hr, hlo, hhi⟩ := hmapped
    have hend := Nat.le_of_dvd (Nat.sub_pos_of_lt hhi)
      (Nat.dvd_sub (hpage.trans (hpages r hr)) hslot)
    exact ⟨r, hr, hlo, by omega⟩
  refine ⟨fun a ha hdvd _ => hstep ▸ hdvd, fun a ha hslot => ?_⟩
  constructor
  · intro hseen
    refine hone a hslot ?_
    rcases hfirst with hzero | hwhole
    · rw [Seen, if_pos hzero] at hseen
      exact hseen 0 hpos
    · have hlo := ha.ge_root
      have hhi := ha.le_stop
      have hall := hmem.mapped_of_transferred world root len (a - root) (by omega)
      rwa [show root + (a - root) = a by omega] at hall
  · rintro ⟨r, hr, hlo, hhi⟩
    rw [Seen]
    split_ifs with hzero
    · exact fun i hi => ⟨r, hr, by omega, by omega⟩
    · have hle := ha.le_stop
      omega

end Agreement

section Witness

/-- The byte 7 of a struct is reported by both. -/
theorem spiderScan_agrees_u8 :
    let target := pagedTarget [⟨0x1000, 0x1000⟩] twoStructs
    let cfg : SpiderConfig := { structSize := 16, alignment := 0, maxDepth := 0 }
    let needle : Needle := ⟨.u8, .I 7 1 none, defaultFloatTolerance, ⟨rfl, rfl⟩⟩
    let scanner := ((Scanner.new .u8).withResultLimit 10).setRegionFilter (structWindow 0x1020 16)
    ∃ r s' w w', spiderScan target 0x1020 cfg .u8 .exact (some needle) () = (.ok r, w) ∧
      scanner.firstScan target .exact (some needle) () = (.ok (), s', w') ∧
      (r.hits.length < 100000 → s'.results.len < 10 →
        ∀ a, 0x1020 ≤ a → a + 1 ≤ 0x1030 →
          (a ∈ r.addresses ↔ a ∈ s'.results.rows.map (·.address))) := by
  intro target cfg needle scanner
  have hmem : PagedReads target [⟨0x1000, 0x1000⟩] twoStructs :=
    (pagedTarget_memory (by decide) twoStructs).reads
  obtain ⟨r, s', w, w', hspider, hscan, -, hagree⟩ := spiderScan_agrees_iff 0x1020 cfg 10 hmem
    (by decide) (by decide) rfl rfl
    (show checkSpider .u8 .exact (some needle) = .ok needle from rfl) rfl (by decide)
  refine ⟨r, s', w, w', hspider, hscan, fun hfew hfew' => ?_⟩
  exact (hagree hfew hfew').mpr (sameSlots_of_fixedWidth hmem (by decide) rfl (by decide +kernel))

/-- A page with the text `ab` at an odd address. -/
def oddText (a : ℕ) : UInt8 := if a = 0x1001 then 0x61 else if a = 0x1002 then 0x62 else 0

/-- A text off the lattice of its own length is found by the scanner alone. -/
theorem oddText_missed :
    let target := pagedTarget [⟨0x1000, 0x1000⟩] oddText
    let cfg : SpiderConfig := { structSize := 16, alignment := 0, maxDepth := 0 }
    let needle : Needle := ⟨.stringUtf8, .Str [0x61, 0x62], defaultFloatTolerance, rfl⟩
    let scanner := (Scanner.new .stringUtf8).setRegionFilter (structWindow 0x1000 16)
    (spiderScan target 0x1000 cfg .stringUtf8 .exact (some needle) ()).1 =
        .ok ⟨[], false, 1, [⟨0x1000, 0, []⟩]⟩ ∧
      (scanner.firstScan target .exact (some needle) ()).1 = .ok () ∧
      (scanner.firstScan target .exact (some needle) ()).2.1.results.rows.map (·.address) =
        [0x1001] := by
  decide +kernel

end Witness

end Nemclass.Scan
