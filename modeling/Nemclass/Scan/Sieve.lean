import Nemclass.Process.Backends
import Nemclass.Scan.FirstScan
import Nemclass.Scan.FreezeSet
import Nemclass.Scan.NextScan

/-! What a session of scans is for: of the addresses that the first scan found, those that every
later scan kept, each by what was there then and what had been there at the scan before. A scanner
gives these whatever the memory does between its scans. -/
namespace Nemclass.Scan
open Usize Multiples MappedPrefix Process Capped

/-- A scan as it was asked for, with the memory as it was. -/
structure Round where
  compare : ScanCompareType
  needle : Option Needle
  mem : Cells

namespace Round
variable (ty : ScanValueType) (q : Round)

/-- How many bytes a value has. -/
def width : ℕ :=
  match q.needle with
  | some n => n.stride
  | none => ty.fixedWidth.getD 0

/-- The value at an address, if all of it is mapped. -/
def value (a : ℕ) : Option (List UInt8) := wholeRead q.mem a (q.width ty)

/-- Whether these bytes are what a first scan is for. -/
def accepts (bytes : List UInt8) : Bool :=
  match q.needle with
  | some n => n.compareFirst bytes 0 q.compare
  | none => q.compare = .unknown

/-- Whether these bytes, after those captured at the scan before, are what a later scan is for. -/
def acceptsNext (fresh captured : List UInt8) : Bool :=
  match q.needle with
  | some n => n.compareNext fresh 0 q.compare captured
  | none => ty.compareChange q.compare fresh captured

/-- Whether a first scan of these regions finds an address. -/
def finds (regions : List Region) (a : ℕ) : Bool :=
  decide (ty.fixedWidth.getD 1 ∣ a) &&
    regions.any (fun r => r.base ≤ a && a + q.width ty ≤ r.stop) &&
    (q.value ty a).any q.accepts

/-- Whether a later scan keeps an address, for its value at the scan before. -/
def keeps (before : Round) (a : ℕ) : Bool :=
  (q.value ty a).any fun fresh => (before.value ty a).any (q.acceptsNext ty fresh)

end Round

/-- A session: the first scan, with the regions as they were, and the later ones. -/
structure Sieve where
  valueType : ScanValueType
  regions : List Region
  first : Round
  later : List Round

namespace Sieve
variable (v : Sieve)

def rounds : List Round := v.first :: v.later

def last : Round := v.later.getLast?.getD v.first

/-- The scan before the last one; the first has only itself. -/
def beforeLast : Round := v.rounds.dropLast.getLast?.getD v.first

/-- The addresses that are found first, up to the limit. -/
def found : List ℕ :=
  ((List.range (usizeMax + 1)).filter (v.first.finds v.valueType v.regions)).take defaultResultLimit

/-- Every scan keeps the address after the scan before. -/
def Remains (a : ℕ) : Prop := v.rounds.IsChain fun before q => q.keeps v.valueType before a

instance (a : ℕ) : Decidable (v.Remains a) := by
  unfold Remains
  infer_instance

def addresses : List ℕ := v.found.filter fun a => v.Remains a

/-- An address with its value at the last scan and at the one before. -/
def row (a : ℕ) : ScanResult where
  address := a
  current := (v.last.value v.valueType a).getD []
  previous := fixed ((v.beforeLast.value v.valueType a).getD []) (v.last.width v.valueType)

def next (q : Round) : Sieve := { v with later := v.later ++ [q] }

@[simp] theorem last_next (q : Round) : (v.next q).last = q := by
  simp [last, next]

theorem getLast?_rounds : v.rounds.getLast? = some v.last := List.getLast?_cons

@[simp] theorem beforeLast_next (q : Round) : (v.next q).beforeLast = v.last := by
  have hrounds : (v.next q).rounds.dropLast = v.rounds := by
    rw [rounds, next, ← List.cons_append, List.dropLast_concat, rounds]
  rw [beforeLast, hrounds, getLast?_rounds, Option.getD_some]

theorem remains_next (q : Round) (a : ℕ) :
    (v.next q).Remains a ↔ v.Remains a ∧ q.keeps v.valueType v.last a = true := by
  have hrounds : (v.next q).rounds = v.rounds ++ [q] := List.cons_append
  rw [Remains, hrounds, List.isChain_append, getLast?_rounds]
  simp [Remains, next]

/-- A further scan passes on what it keeps. -/
theorem addresses_next (q : Round) :
    (v.next q).addresses = v.addresses.filter (q.keeps v.valueType v.last) := by
  have hfound : (v.next q).found = v.found := rfl
  rw [addresses, addresses, hfound, List.filter_filter]
  refine List.filter_congr fun a _ => ?_
  simp only [remains_next, Bool.decide_and, Bool.decide_eq_true, Bool.and_comm]

end Sieve

/-! ## A process at a moment -/

/-- A process while it is scanned. Its regions are in order and mapped throughout, and a read brings
the whole of what it is asked for where all of that is mapped. -/
structure Snapshot where
  regions : Except Error (List Region)
  mem : Cells
  read : ℕ → (len : ℕ) → Except Error (Transfer len)
  ascending : ∀ all, regions = .ok all → Ascending all
  below : ∀ all, regions = .ok all → ∀ r ∈ all, r.stop + 8 ≤ usizeMax
  mapped : ∀ all, regions = .ok all → ∀ r ∈ all, ∀ a, r.base ≤ a → a < r.stop → (mem a).isSome
  whole : ∀ addr len, wholeValue len ((read addr len).map Subtype.val) = wholeRead mem addr len

def Snapshot.target (m : Snapshot) : ScanTarget Unit where
  regions world := (m.regions, world)
  read world addr len := (m.read addr len, world)

section Reads

variable {m : Snapshot} {mem : Cells} {a len : ℕ}

theorem wholeRead_eq_some {bytes : List UInt8} : wholeRead mem a len = some bytes ↔
    (∀ k < len, (mem (a + k)).isSome) ∧ bytes = memBytes (fun a => (mem a).getD 0) a len := by
  have hbytes (h : (mappedPrefix mem a len).length = len) :
      mappedPrefix mem a len = memBytes (fun a => (mem a).getD 0) a len := by
    refine List.ext_getElem (by rw [h, memBytes_length]) fun i hi hi' => ?_
    simp only [memBytes, List.getElem_map, List.getElem_range, mappedPrefix_getElem mem a len hi,
      Option.getD_some]
  rw [wholeRead]
  constructor
  · intro h
    split_ifs at h with hlen
    cases h
    refine ⟨fun k hk => ?_, hbytes hlen⟩
    rw [mappedPrefix_getElem mem a len (hlen.symm ▸ hk)]
    rfl
  · rintro ⟨hmapped, rfl⟩
    have hlen := length_mappedPrefix_of_mapped hmapped
    rw [if_pos hlen, hbytes hlen]

theorem wholeValue_eq_some {answer : Except Error (List UInt8)} {bytes : List UInt8} :
    wholeValue len answer = some bytes ↔ answer = .ok bytes ∧ len ≤ bytes.length := by
  cases answer with
  | error e => simp [wholeValue]
  | ok bytes' =>
    rw [wholeValue, Option.ite_none_right_eq_some, Except.ok.injEq]
    constructor
    · rintro ⟨hlen, hsome⟩
      cases hsome
      exact ⟨rfl, hlen⟩
    · rintro ⟨rfl, hlen⟩
      exact ⟨hlen, rfl⟩

/-- A region of a process is filled with its memory. -/
theorem Snapshot.fills {all : List Region} (hregions : m.regions = .ok all) {r : Region}
    (hr : r ∈ all) : Fills m.target (fun a => (m.mem a).getD 0) r := by
  intro world addr len haddr hend
  have hmapped : ∀ k < len, (m.mem (addr + k)).isSome := fun k hk =>
    m.mapped all hregions r hr _ (by omega) (by omega)
  have hwhole := m.whole addr len
  rw [wholeRead_eq_some.mpr ⟨hmapped, rfl⟩, wholeValue_eq_some] at hwhole
  cases hread : m.read addr len with
  | error e =>
    rw [hread] at hwhole
    cases hwhole.1
  | ok buf =>
    rw [hread] at hwhole
    exact ⟨buf, world, congrArg (·, world) hread, Except.ok.inj hwhole.1⟩

end Reads

/-! ## What the scanner holds -/

/-- A scanner holds what remains. -/
structure Sifts (s : Scanner) (v : Sieve) : Prop where
  valueType : s.valueType = v.valueType
  scanned : s.hasScanned = true
  rows : s.results.rows = v.addresses.map v.row

section First

variable {ty : ScanValueType} {m : Snapshot} {all : List Region} {compare : ScanCompareType}
  {needle : Option Needle}

theorem alignmentStep_new (ty : ScanValueType) :
    (Scanner.new ty).alignmentStep = ty.fixedWidth.getD 1 := by
  cases ty <;> rfl

theorem alignmentStep_le (ty : ScanValueType) : (Scanner.new ty).alignmentStep ≤ 8 := by
  cases ty <;> decide

theorem regions_new (ty : ScanValueType) (all : List Region) :
    (Scanner.new ty).regionFilter.apply all = all := by
  rw [RegionFilter.apply, if_pos]
  simp [Scanner.new, RegionFilter.isUnrestricted]

/-- The pass of a new scanner over a process. -/
abbrev freshPass (ty : ScanValueType) (m : Snapshot) (compare : ScanCompareType)
    (needle : Option Needle) (total : ℕ) : FirstPass Unit :=
  (Scanner.new ty).firstPass m.target (noObserver Unit) compare needle total

/-- What a first scan is to find in these regions. -/
theorem finds_iff (hregions : m.regions = .ok all) (total : ℕ) (a : ℕ) :
    (⟨compare, needle, m.mem⟩ : Round).finds ty all a = true ↔ ∃ r ∈ all,
      a ∈ (freshPass ty m compare needle total).regionHits (fun a => (m.mem a).getD 0) r := by
  have hwidth : (⟨compare, needle, m.mem⟩ : Round).width ty = (Scanner.new ty).stride needle := rfl
  have hvalue {r : Region} (hr : r ∈ all) (hbase : r.base ≤ a)
      (hstop : a + (Scanner.new ty).stride needle ≤ r.stop) :
      (⟨compare, needle, m.mem⟩ : Round).value ty a =
        some (memBytes (fun a => (m.mem a).getD 0) a ((Scanner.new ty).stride needle)) := by
    rw [Round.value, wholeRead_eq_some, hwidth]
    exact ⟨fun k hk => m.mapped all hregions r hr _ (by omega) (by omega), rfl⟩
  have hmatched (bytes : List UInt8) : (freshPass ty m compare needle total).matched bytes 0 =
      (⟨compare, needle, m.mem⟩ : Round).accepts bytes := by
    cases needle <;> rfl
  have hstride : (freshPass ty m compare needle total).stride = (Scanner.new ty).stride needle := rfl
  have halign : (freshPass ty m compare needle total).align = ty.fixedWidth.getD 1 :=
    alignmentStep_new ty
  simp only [Round.finds, Bool.and_eq_true, decide_eq_true_eq, List.any_eq_true, hwidth,
    FirstPass.mem_regionHits, hmatched, hstride, halign]
  constructor
  · rintro ⟨⟨hd, r, hr, hbase, hstop⟩, hany⟩
    rw [hvalue hr hbase hstop, Option.any_some] at hany
    exact ⟨r, hr, hd, ⟨hbase, hstop⟩, hany⟩
  · rintro ⟨r, hr, hd, ⟨hbase, hstop⟩, hm⟩
    rw [hvalue hr hbase hstop, Option.any_some]
    exact ⟨⟨hd, r, hr, hbase, hstop⟩, hm⟩

theorem found_eq (hregions : m.regions = .ok all) (total : ℕ)
    (hpos : 0 < (Scanner.new ty).stride needle) :
    all.flatMap ((freshPass ty m compare needle total).regionHits fun a => (m.mem a).getD 0) =
      (List.range (usizeMax + 1)).filter ((⟨compare, needle, m.mem⟩ : Round).finds ty all) := by
  refine (FirstPass.regionHits_sorted _ _ hpos (m.ascending all hregions)).eq_of_mem_iff
    (List.pairwise_lt_range.filter _) fun a => ?_
  rw [List.mem_flatMap, List.mem_filter, List.mem_range, finds_iff hregions total,
    iff_and_self]
  rintro ⟨r, hr, ha⟩
  have hin := ((FirstPass.mem_regionHits _).mp ha).2.1
  have hbelow := m.below all hregions r hr
  omega

/-- An address that was just found is there with the value it was found with. -/
theorem row_first {a : ℕ} {bytes : List UInt8}
    (h : (⟨compare, needle, m.mem⟩ : Round).value ty a = some bytes) (total : ℕ) :
    (⟨ty, all, ⟨compare, needle, m.mem⟩, []⟩ : Sieve).row a =
      (freshPass ty m compare needle total).memRow (fun a => (m.mem a).getD 0) a := by
  have hbytes : bytes = memBytes (fun a => (m.mem a).getD 0) a ((Scanner.new ty).stride needle) :=
    (wholeRead_eq_some.mp h).2
  have hlast : (⟨ty, all, ⟨compare, needle, m.mem⟩, []⟩ : Sieve).last = ⟨compare, needle, m.mem⟩ :=
    rfl
  have hbefore : (⟨ty, all, ⟨compare, needle, m.mem⟩, []⟩ : Sieve).beforeLast =
      ⟨compare, needle, m.mem⟩ := rfl
  have hfixed : fixed bytes ((Scanner.new ty).stride needle) = bytes :=
    fixed_of_length (hbytes ▸ memBytes_length _ _ _)
  rw [Sieve.row, hlast, hbefore, h, Option.getD_some]
  exact congrArg₂ (ScanResult.mk a) hbytes (hfixed.trans hbytes)

/-- The first scan of a session. -/
theorem sifts_first (hregions : m.regions = .ok all) {s : Scanner} {world : Unit}
    (h : (Scanner.new ty).firstScan m.target compare needle () = (.ok (), s, world)) :
    Sifts s ⟨ty, all, ⟨compare, needle, m.mem⟩, []⟩ := by
  obtain ⟨all', total, truncated, w, hcheck, hall, -, hwalk, rfl⟩ := Scanner.firstScanWith_ok h
  have hsame : all' = all := by
    have hsome : m.regions = .ok all' := congrArg Prod.fst hall
    rw [hregions] at hsome
    exact (Except.ok.inj hsome).symm
  subst hsame
  rw [regions_new] at hwalk ⊢
  have hpos := Scanner.stride_pos_of_check hcheck
  have hroom : 0 < defaultResultLimit := by decide
  obtain ⟨-, hcollects⟩ := (freshPass ty m compare needle total).scanRegions_collects
    (noObserver_neverStops Unit) hpos _ (fun r hr => m.fills hregions hr)
    (fun r hr => (Nat.add_le_add_left (alignmentStep_le ty) _).trans (m.below _ hregions r hr))
    ⟨(), .withStride ((Scanner.new ty).stride needle), 0⟩ rfl hroom
  rw [hwalk, found_eq hregions total hpos] at hcollects
  refine ⟨rfl, rfl, ?_⟩
  rw [Scanner.commitWalk_results, hcollects.rows_eq, offer, ScanResults.withStride_rows,
    List.nil_append, ← List.map_take]
  have haddresses : (⟨ty, all', ⟨compare, needle, m.mem⟩, []⟩ : Sieve).addresses =
      ((List.range (usizeMax + 1)).filter
        ((⟨compare, needle, m.mem⟩ : Round).finds ty all')).take defaultResultLimit := by
    rw [Sieve.addresses]
    refine List.filter_eq_self.mpr fun a _ => decide_eq_true (List.isChain_singleton _)
  rw [haddresses]
  refine List.map_congr_left fun a ha => ?_
  have hfinds := (List.mem_filter.mp (List.mem_of_mem_take ha)).2
  rw [Round.finds, Bool.and_eq_true, Option.any_eq_true] at hfinds
  obtain ⟨bytes, hvalue, -⟩ := hfinds.2
  exact (row_first hvalue total).symm

end First

section Next

variable {m : Snapshot} {compare : ScanCompareType} {needle : Option Needle} {s : Scanner}

/-- The re-reads bring the values that are mapped as a whole. -/
theorem answers_whole (p : NextPass Unit) (htarget : p.target = m.target)
    (hgo : p.observer.NeverStops) (i : ℕ) (rows : List ScanResult) (r : Refine Unit) :
    List.Forall₂ (fun prev answer =>
        wholeValue p.stride answer = wholeRead m.mem prev.address p.stride)
      rows (p.answers i rows r) := by
  induction rows generalizing i r with
  | nil => exact .nil
  | cons prev rows ih =>
    have htick : (p.tick i r).1 = true := by
      unfold NextPass.tick
      split
      · exact hgo _ _
      · rfl
    rw [NextPass.answers]
    generalize p.tick i r = ticked at htick
    obtain ⟨go, r'⟩ := ticked
    dsimp only at htick
    subst htick
    refine .cons ?_ (ih _ _)
    rw [htarget]
    exact m.whole prev.address p.stride

/-- A pass of re-reads, in terms of the memory. -/
theorem refined_rows (p : NextPass Unit) {rows : List ScanResult}
    {answers : List (Except Error (List UInt8))}
    (h : List.Forall₂ (fun prev answer =>
      wholeValue p.stride answer = wholeRead m.mem prev.address p.stride) rows answers) :
    (rows.zip answers).filterMap (fun read => p.kept read.1 read.2) =
      rows.filterMap fun prev => (wholeRead m.mem prev.address p.stride).bind fun fresh =>
        if p.matched fresh prev.current then
          some ⟨prev.address, fresh, fixed prev.current p.stride⟩
        else none := by
  induction h with
  | nil => rfl
  | cons hread hrest ih =>
    rw [List.zip_cons_cons, List.filterMap_cons, List.filterMap_cons, ih, NextPass.kept, hread]

/-- What remains was there at the last scan. -/
theorem Sieve.value_last {v : Sieve} {a : ℕ} (h : a ∈ v.addresses) :
    ∃ bytes, v.last.value v.valueType a = some bytes := by
  obtain ⟨hfound, hremains⟩ := List.mem_filter.mp h
  rw [decide_eq_true_eq] at hremains
  obtain ⟨ty, regions, first, later⟩ := v
  rcases List.eq_nil_or_concat later with rfl | ⟨before, q, rfl⟩
  · have hfinds := (List.mem_filter.mp (List.mem_of_mem_take hfound)).2
    rw [Round.finds, Bool.and_eq_true, Option.any_eq_true] at hfinds
    obtain ⟨bytes, hvalue, -⟩ := hfinds.2
    exact ⟨bytes, hvalue⟩
  · rw [List.concat_eq_append] at hremains ⊢
    have hkeeps := ((remains_next ⟨ty, regions, first, before⟩ q a).mp hremains).2
    rw [Round.keeps, Option.any_eq_true] at hkeeps
    obtain ⟨bytes, hvalue, -⟩ := hkeeps
    have hlast := last_next ⟨ty, regions, first, before⟩ q
    exact ⟨bytes, hlast.symm ▸ hvalue⟩

/-- Every further scan. -/
theorem sifts_next {v : Sieve} (hs : Sifts s v) {s' : Scanner} {world : Unit}
    (h : s.nextScan m.target compare needle () = (.ok (), s', world)) :
    Sifts s' (v.next ⟨compare, needle, m.mem⟩) := by
  obtain ⟨r, -, -, rfl⟩ := Scanner.nextScanWith_ok h
  obtain ⟨-, -, hrows, -⟩ := s.nextScanWith_commits m.target (noObserver Unit) compare needle () h
  refine ⟨hs.valueType, hs.scanned, ?_⟩
  have hanswers := answers_whole (s.nextPass m.target (noObserver Unit) compare needle) rfl
    (noObserver_neverStops Unit) 0 s.results.rows ⟨(), .withStride (s.stride needle), 0, none⟩
  rw [hrows, Scanner.rereads, refined_rows _ hanswers, hs.rows, List.filterMap_map,
    Sieve.addresses_next, ← List.filterMap_eq_map, List.filterMap_filter]
  refine List.filterMap_congr fun a ha => ?_
  obtain ⟨captured, hcaptured⟩ := Sieve.value_last ha
  have hwidth : (s.nextPass m.target (noObserver Unit) compare needle).stride =
      (⟨compare, needle, m.mem⟩ : Round).width v.valueType := by
    rw [← hs.valueType]
    rfl
  have hmatched (fresh : List UInt8) :
      (s.nextPass m.target (noObserver Unit) compare needle).matched fresh captured =
        (⟨compare, needle, m.mem⟩ : Round).acceptsNext v.valueType fresh captured := by
    rw [← hs.valueType]
    cases needle <;> rfl
  have hcurrent : (v.row a).current = captured := by rw [Sieve.row, hcaptured, Option.getD_some]
  have hfresh : wholeRead m.mem a ((⟨compare, needle, m.mem⟩ : Round).width v.valueType) =
      (⟨compare, needle, m.mem⟩ : Round).value v.valueType a := rfl
  have haddress : (v.row a).address = a := rfl
  simp only [Function.comp_apply, haddress, hcurrent, hwidth, hmatched, Round.keeps, hcaptured,
    Option.any_some, hfresh]
  cases hvalue : (⟨compare, needle, m.mem⟩ : Round).value v.valueType a with
  | none => simp
  | some fresh =>
    have hrow : (v.next ⟨compare, needle, m.mem⟩).row a =
        ⟨a, fresh, fixed captured ((⟨compare, needle, m.mem⟩ : Round).width v.valueType)⟩ := by
      have htype : (v.next ⟨compare, needle, m.mem⟩).valueType = v.valueType := rfl
      rw [Sieve.row, Sieve.last_next, Sieve.beforeLast_next, htype, hvalue, hcaptured,
        Option.getD_some, Option.getD_some]
    rw [Option.bind_some, Option.any_some, hrow]

end Next

end Nemclass.Scan
