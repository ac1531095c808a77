import Mathlib.Data.List.Chain
import Nemclass.Scan.RegionWalk
import Nemclass.Scan.Session

/-! The result history over whole runs, against the trail of every generation a
run collected and did not undo: the history is the end of the trail. A next
scan keeps a sublist of the addresses it re-read, so ascending order passes
from generation to generation, and an undo brings back exactly the generation
before. -/
namespace Nemclass.Scan
open Usize

namespace NextPass
variable {σ : Type} (p : NextPass σ)

theorem tick_out (i : ℕ) (r : Refine σ) : (p.tick i r).2.out = r.out := by
  unfold tick
  split <;> rfl

theorem refineOne_addresses (prev : ScanResult) (r : Refine σ) :
    (p.refineOne prev r).out.addresses = r.out.addresses ∨
      (p.refineOne prev r).out.addresses = r.out.addresses ++ [prev.address] := by
  unfold refineOne
  split
  · exact .inl rfl
  · split
    · exact .inl rfl
    · split
      · exact .inr rfl
      · exact .inl rfl

/-- A refinement keeps some of the addresses it re-reads, in their order. -/
theorem refine_addresses (i : ℕ) (rows : List ScanResult) (r : Refine σ) :
    ∃ kept, kept.Sublist (rows.map ScanResult.address) ∧
      (p.refine i rows r).2.out.addresses = r.out.addresses ++ kept := by
  induction rows generalizing i r with
  | nil => exact ⟨[], List.Sublist.refl _, by simp [refine]⟩
  | cons prev rows ih =>
    have htick := p.tick_out i r
    unfold refine
    split
    · rename_i r' heq
      rw [heq] at htick
      exact ⟨[], List.nil_sublist _, by rw [htick, List.append_nil]⟩
    · rename_i r' heq
      rw [heq] at htick
      obtain ⟨kept, hkept, hout⟩ := ih (i + 1) (p.refineOne prev r')
      rcases p.refineOne_addresses prev r' with hone | hone
      · exact ⟨kept, hkept.cons _, by rw [hout, hone, htick]⟩
      · refine ⟨prev.address :: kept, hkept.cons_cons _, ?_⟩
        rw [hout, hone, htick, List.append_assoc, List.singleton_append]

end NextPass

namespace Scanner
variable {σ : Type}

/-- What a successful next scan commits. -/
theorem nextScanWith_ok {s s' : Scanner} {target : ScanTarget σ} {observer : ScanObserver σ}
    {compare : ScanCompareType} {needle : Option Needle} {world world' : σ}
    (h : s.nextScanWith target observer compare needle world = (.ok (), s', world')) :
    ∃ r, s.hasScanned = true ∧ (s.nextPass target observer compare needle).refine 0 s.results.rows
        ⟨world, .withStride (s.stride needle), 0, none⟩ = (true, r) ∧
      s' = s.commitRefine s.results.len r := by
  unfold nextScanWith at h
  cases hcheck : s.checkNext compare needle with
  | error e => simp [hcheck] at h
  | ok =>
    have hscanned : s.hasScanned = true := by
      unfold checkNext at hcheck
      split at hcheck
      · simp at hcheck
      · simpa using ‹¬ s.hasScanned = false›
    simp only [hcheck] at h
    split at h
    · simp at h
    · rename_i r hrefine
      split at h
      · simp at h
      · simp only [Prod.mk.injEq] at h
        exact ⟨r, hscanned, hrefine, h.2.1.symm⟩

theorem firstScanWith_sorted {s s' : Scanner} {target : ScanTarget σ} {observer : ScanObserver σ}
    {compare : ScanCompareType} {needle : Option Needle} {world world' : σ}
    (hasc : ∀ all, (target.regions world).1 = .ok all → Ascending all)
    (h : s.firstScanWith target observer compare needle world = (.ok (), s', world')) :
    s'.results.addresses.Pairwise (· < ·) := by
  obtain ⟨all, total, truncated, w, hcheck, hregions, -, hwalk, rfl⟩ := firstScanWith_ok h
  have hwithin := (s.firstPass target observer compare needle total).scanRegions_within 0
    (s.regionFilter.apply all) ⟨(target.regions world).2, .withStride (s.stride needle), 0⟩
    (stride_pos_of_check hcheck)
    (RegionFilter.apply_ascending (hasc all (congrArg Prod.fst hregions))) (fun _ _ => Nat.zero_le _) rfl
  rw [hwalk] at hwithin
  obtain ⟨_, new, hrows, hsorted, _⟩ := hwithin
  rw [ScanResults.withStride_rows, List.nil_append] at hrows
  rw [commitWalk_results, ← ScanResults.rows_map_address, hrows, List.pairwise_map]
  exact hsorted

theorem nextScanWith_sublist {s s' : Scanner} {target : ScanTarget σ} {observer : ScanObserver σ}
    {compare : ScanCompareType} {needle : Option Needle} {world world' : σ}
    (h : s.nextScanWith target observer compare needle world = (.ok (), s', world')) :
    s.hasScanned = true ∧ s'.results.addresses.Sublist s.results.addresses := by
  obtain ⟨r, hscanned, hrefine, rfl⟩ := nextScanWith_ok h
  refine ⟨hscanned, ?_⟩
  obtain ⟨kept, hkept, hout⟩ := (s.nextPass target observer compare needle).refine_addresses 0
    s.results.rows ⟨world, .withStride (s.stride needle), 0, none⟩
  rw [hrefine] at hout
  rw [ScanResults.rows_map_address] at hkept
  rw [commitRefine_results, show r.out.addresses = [] ++ kept from hout]
  exact hkept

end Scanner

/-- A generation and whether a first scan produced it. -/
structure Generation where
  results : ScanResults
  byFirstScan : Bool

namespace Call
variable {σ : Type}

/-- The target of a first scan lists ascending disjoint regions. -/
def Ordered : Call σ → Prop
  | firstScan target _ _ _ world => ∀ all, (target.regions world).1 = .ok all → Ascending all
  | _ => True

def isUndo : Call σ → Bool
  | undo => true
  | _ => false

/-- The generation a call collects: a scan's, when it succeeds. -/
def collected (s : Scanner) (c : Call σ) : Option Generation :=
  match c, c.run s with
  | firstScan .., (.ok (), s') => some ⟨s'.results, true⟩
  | nextScan .., (.ok (), s') => some ⟨s'.results, false⟩
  | _, _ => none

/-- What one call does to the history. -/
inductive Effect (s : Scanner) (c : Call σ) : Prop where
  | keep (hcollected : c.collected s = none) (hhistory : (c.run s).2.history = s.history)
      (hscanned : (c.run s).2.hasScanned = s.hasScanned)
      (hundo : c.isUndo = true → s.canUndo = false)
  | collect (g : Generation) (hcollected : c.collected s = some g) (hundo : c.isUndo = false)
      (hhistory : (c.run s).2.history = BoundedHistory.push historyDepth s.history g.results)
      (hscanned : (c.run s).2.hasScanned = true)
      (hsource : g.byFirstScan = true ∧ (c.Ordered → g.results.addresses.Pairwise (· < ·)) ∨
        s.hasScanned = true ∧ g.results.addresses.Sublist s.results.addresses)
  | drop (hcollected : c.collected s = none) (hundo : c.isUndo = true) (hcan : s.canUndo = true)
      (hhistory : (c.run s).2.history = s.history.dropLast)
      (hscanned : (c.run s).2.hasScanned = s.hasScanned)

section Scan
variable (s : Scanner) (target : ScanTarget σ) (observer : ScanObserver σ)
  (compare : ScanCompareType) (needle : Option Needle) (world : σ)

theorem firstScan_effect : (firstScan target observer compare needle world).Effect s := by
  generalize h : s.firstScanWith target observer compare needle world = result
  obtain ⟨verdict, s', world'⟩ := result
  cases verdict with
  | error f =>
    have hs : s'.history = s.history ∧ s'.hasScanned = s.hasScanned := by
      rcases s.firstScanWith_fails _ h with ⟨rfl, _⟩ | ⟨all, _, _, rfl⟩ <;> exact ⟨rfl, rfl⟩
    exact .keep (by simp [collected, run, h]) (by simpa [run, h] using hs.1)
      (by simpa [run, h] using hs.2) (by simp [isUndo])
  | ok =>
    have hsorted := fun hasc => Scanner.firstScanWith_sorted hasc h
    obtain ⟨all, total, truncated, w, -, -, -, -, rfl⟩ := Scanner.firstScanWith_ok h
    refine .collect ⟨w.out, true⟩ (by simp [collected, run, h]) rfl (by simp [run, h]; rfl)
      (by simp [run, h]; rfl) (.inl ⟨rfl, ?_⟩)
    simpa [Ordered] using hsorted

theorem nextScan_effect : (nextScan target observer compare needle world).Effect s := by
  generalize h : s.nextScanWith target observer compare needle world = result
  obtain ⟨verdict, s', world'⟩ := result
  cases verdict with
  | error f =>
    obtain rfl := s.nextScanWith_fails _ h
    exact .keep (by simp [collected, run, h]) (by simp [run, h]) (by simp [run, h])
      (by simp [isUndo])
  | ok =>
    obtain ⟨hscanned, hsub⟩ := Scanner.nextScanWith_sublist h
    obtain ⟨r, _, _, rfl⟩ := Scanner.nextScanWith_ok h
    refine .collect ⟨r.out, false⟩ (by simp [collected, run, h]) rfl (by simp [run, h]; rfl)
      (by simp only [run, h]; exact hscanned) (.inr ⟨hscanned, ?_⟩)
    simpa using hsub

end Scan

theorem effect (s : Scanner) (c : Call σ) : c.Effect s := by
  cases c with
  | firstScan target observer compare needle world => exact firstScan_effect ..
  | nextScan target observer compare needle world => exact nextScan_effect ..
  | undo =>
    cases hcan : s.canUndo with
    | false =>
      have hs : s.undo.2 = s := by simp [Scanner.undo, hcan]
      exact .keep rfl (by simp [run, hs]) (by simp [run, hs]) (fun _ => hcan)
    | true =>
      have hs : s.undo.2 = { s with history := s.history.dropLast } := by simp [Scanner.undo, hcan]
      exact .drop rfl rfl hcan (by simp [run, hs]) (by simp [run, hs])
  | setValueType ty =>
    have hs : (s.setValueType ty).2.history = s.history ∧
        (s.setValueType ty).2.hasScanned = s.hasScanned := by
      unfold Scanner.setValueType
      split <;> exact ⟨rfl, rfl⟩
    exact .keep rfl hs.1 hs.2 (by simp [isUndo])
  | setRegionFilter f => exact .keep rfl rfl rfl (by simp [isUndo])
  | setAlignment alignment => exact .keep rfl rfl rfl (by simp [isUndo])

end Call

/-- A session with the trail of every generation it collected and did not undo. -/
structure Session where
  scanner : Scanner
  trail : List Generation

namespace Session
variable {σ : Type}

def new (ty : ScanValueType) (limit : ℕ) : Session := ⟨(Scanner.new ty).withResultLimit limit, []⟩

def step (t : Session) (c : Call σ) : Session where
  scanner := (c.run t.scanner).2
  trail :=
    match c.collected t.scanner with
    | some g => t.trail ++ [g]
    | none => if c.isUndo && t.scanner.canUndo then t.trail.dropLast else t.trail

def run (t : Session) (calls : List (Call σ)) : Session := calls.foldl step t

/-- A generation was produced by a first scan, or has only addresses of the one before it. -/
def Follows (older newer : Generation) : Prop :=
  newer.byFirstScan = true ∨ newer.results.addresses ⊆ older.results.addresses

structure Valid (t : Session) : Prop where
  depth : t.scanner.history.length ≤ historyDepth
  held : t.scanner.history <:+ t.trail.map Generation.results
  scanned : t.scanner.history ≠ [] ↔ t.scanner.hasScanned = true
  sorted : ∀ g ∈ t.trail, g.results.addresses.Pairwise (· < ·)
  follows : t.trail.IsChain Follows

theorem new_valid (ty : ScanValueType) (limit : ℕ) : (new ty limit).Valid where
  depth := Nat.zero_le _
  held := List.suffix_refl _
  scanned := by simp [new, Scanner.new, Scanner.withResultLimit]
  sorted := by simp [new]
  follows := List.isChain_nil

theorem Valid.eq_getLast {t : Session} (h : t.Valid) (hscanned : t.scanner.hasScanned = true)
    {g : Generation} (hg : g ∈ t.trail.getLast?) : g.results = t.scanner.results := by
  obtain ⟨older, holder⟩ := h.held
  have hlast := congrArg List.getLast? holder
  rw [List.getLast?_append_of_ne_nil _ (h.scanned.mpr hscanned), List.getLast?_map,
    Option.mem_def.mp hg] at hlast
  rw [Scanner.results, hlast, Option.map_some, Option.getD_some]

theorem results_mem {s : Scanner} (h : s.history ≠ []) : s.results ∈ s.history := by
  rw [Scanner.results, List.getLast?_eq_some_getLast h, Option.getD_some]
  exact List.getLast_mem h

theorem Valid.sorted_results {t : Session} (h : t.Valid) (hscanned : t.scanner.hasScanned = true) :
    t.scanner.results.addresses.Pairwise (· < ·) := by
  obtain ⟨g, hg, heq⟩ := List.mem_map.mp (h.held.subset (results_mem (h.scanned.mpr hscanned)))
  rw [← heq]
  exact h.sorted g hg

/-- Collecting a generation extends the trail by one that follows its last. -/
theorem Valid.collect {t : Session} (h : t.Valid) {c : Call σ} (hc : c.Ordered) {g : Generation}
    (hcollected : c.collected t.scanner = some g)
    (hhistory : (c.run t.scanner).2.history =
      BoundedHistory.push historyDepth t.scanner.history g.results)
    (hscanned : (c.run t.scanner).2.hasScanned = true)
    (hsource : g.byFirstScan = true ∧ (c.Ordered → g.results.addresses.Pairwise (· < ·)) ∨
      t.scanner.hasScanned = true ∧ g.results.addresses.Sublist t.scanner.results.addresses) :
    (t.step c).Valid := by
  have htrail : (t.step c).trail = t.trail ++ [g] := by simp only [step, hcollected]
  have hhistory' : (t.step c).scanner.history = _ := hhistory
  have hlast : (BoundedHistory.push historyDepth t.scanner.history g.results).getLast? =
      some g.results := BoundedHistory.getLast?_push (by decide) _
  constructor
  · rw [hhistory', BoundedHistory.length_push h.depth]
    exact Nat.min_le_right _ _
  · rw [hhistory', htrail, List.map_append]
    exact BoundedHistory.push_suffix h.held g.results
  · rw [hhistory']
    refine iff_of_true (fun hnil => ?_) hscanned
    simp [hnil] at hlast
  · rw [htrail]
    intro x hx
    rcases List.mem_append.mp hx with hx | hx
    · exact h.sorted x hx
    · obtain rfl := List.mem_singleton.mp hx
      rcases hsource with ⟨_, hsorted⟩ | ⟨hbefore, hsub⟩
      · exact hsorted hc
      · exact (h.sorted_results hbefore).sublist hsub
  · rw [htrail]
    refine List.isChain_append.mpr ⟨h.follows, List.isChain_singleton _, fun x hx y hy => ?_⟩
    obtain rfl : g = y := by simpa using hy
    rcases hsource with ⟨hfirst, _⟩ | ⟨hbefore, hsub⟩
    · exact .inl hfirst
    · exact .inr (h.eq_getLast hbefore hx ▸ hsub.subset)

theorem step_valid {t : Session} (h : t.Valid) {c : Call σ} (hc : c.Ordered) :
    (t.step c).Valid := by
  cases c.effect t.scanner with
  | keep hcollected hhistory hscanned hundo =>
    have htrail : (t.step c).trail = t.trail := by
      simp only [step, hcollected]
      cases hu : c.isUndo with
      | false => rfl
      | true => simp [hundo hu]
    have hhistory' : (t.step c).scanner.history = t.scanner.history := hhistory
    have hscanned' : (t.step c).scanner.hasScanned = t.scanner.hasScanned := hscanned
    exact ⟨by rw [hhistory']; exact h.depth, by rw [hhistory', htrail]; exact h.held,
      by rw [hhistory', hscanned']; exact h.scanned, by rw [htrail]; exact h.sorted,
      by rw [htrail]; exact h.follows⟩
  | collect g hcollected hundo hhistory hscanned hsource =>
    exact h.collect hc hcollected hhistory hscanned hsource
  | drop hcollected hundo hcan hhistory hscanned =>
    have htrail : (t.step c).trail = t.trail.dropLast := by simp [step, hcollected, hundo, hcan]
    have hhistory' : (t.step c).scanner.history = t.scanner.history.dropLast := hhistory
    have hscanned' : (t.step c).scanner.hasScanned = t.scanner.hasScanned := hscanned
    have hmany : 1 < t.scanner.history.length := by simpa [Scanner.canUndo] using hcan
    have hne : t.scanner.history ≠ [] := List.ne_nil_of_length_pos (by omega)
    constructor
    · rw [hhistory', List.length_dropLast]
      exact (Nat.sub_le _ _).trans h.depth
    · rw [hhistory', htrail, List.map_dropLast]
      exact BoundedHistory.dropLast_suffix h.held hne
    · rw [hhistory', hscanned']
      refine iff_of_true (List.ne_nil_of_length_pos ?_) (h.scanned.mp hne)
      rw [List.length_dropLast]
      omega
    · rw [htrail]
      exact fun g hg => h.sorted g (List.mem_of_mem_dropLast hg)
    · rw [htrail]
      exact h.follows.dropLast

theorem run_valid {t : Session} (h : t.Valid) {calls : List (Call σ)}
    (hcalls : ∀ c ∈ calls, c.Ordered) : (t.run calls).Valid := by
  induction calls generalizing t with
  | nil => exact h
  | cons c calls ih =>
    exact ih (step_valid h (hcalls c List.mem_cons_self))
      fun c' hc' => hcalls c' (List.mem_cons_of_mem c hc')

theorem run_append (t : Session) (calls calls' : List (Call σ)) :
    t.run (calls ++ calls') = (t.run calls).run calls' := List.foldl_append

/-- The results of the successful scans of a run, oldest first. -/
def scanLog (t : Session) : List (Call σ) → List ScanResults
  | [] => []
  | c :: calls =>
    ((c.collected t.scanner).map Generation.results).toList ++ scanLog (t.step c) calls

/-- Without undos, the trail grows by exactly the successful scans. -/
theorem run_trail (t : Session) {calls : List (Call σ)} (hcalls : ∀ c ∈ calls, c.isUndo = false) :
    (t.run calls).trail.map Generation.results =
      t.trail.map Generation.results ++ t.scanLog calls := by
  induction calls generalizing t with
  | nil => simp [run, scanLog]
  | cons c calls ih =>
    have hstep : (t.step c).trail.map Generation.results = t.trail.map Generation.results ++
        ((c.collected t.scanner).map Generation.results).toList := by
      cases hcollected : c.collected t.scanner with
      | none => simp [step, hcollected, hcalls c List.mem_cons_self]
      | some g => simp [step, hcollected]
    rw [scanLog, ← List.append_assoc, ← hstep]
    exact ih (t.step c) fun c' hc' => hcalls c' (List.mem_cons_of_mem c hc')

/-- Without undos, every successful scan is held until the depth is reached. -/
theorem run_length {t : Session} (h : t.Valid) {calls : List (Call σ)}
    (hcalls : ∀ c ∈ calls, c.isUndo = false) (hordered : ∀ c ∈ calls, c.Ordered) :
    min (t.scanner.history.length + (t.scanLog calls).length) historyDepth ≤
      (t.run calls).scanner.history.length := by
  induction calls generalizing t with
  | nil => exact Nat.min_le_left _ _
  | cons c calls ih =>
    have hrest := ih (step_valid h (hordered c List.mem_cons_self))
      (fun c' hc' => hcalls c' (List.mem_cons_of_mem c hc'))
      (fun c' hc' => hordered c' (List.mem_cons_of_mem c hc'))
    refine Nat.le_trans ?_ hrest
    rw [scanLog, List.length_append]
    cases c.effect t.scanner with
    | keep hcollected hhistory =>
      rw [show (t.step c).scanner.history = _ from hhistory, hcollected]
      simp
    | collect g hcollected hundo hhistory =>
      rw [show (t.step c).scanner.history = _ from hhistory, BoundedHistory.length_push h.depth,
        hcollected]
      simp only [Option.map_some, Option.toList_some, List.length_singleton]
      omega
    | drop hcollected hundo =>
      rw [hcalls c List.mem_cons_self] at hundo
      exact absurd hundo Bool.false_ne_true

/-- Undos drop generations from the newest on, down to the last one. -/
theorem undos_history (t : Session) {j : ℕ} (hj : j < t.scanner.history.length) :
    (t.run (List.replicate j (Call.undo : Call σ))).scanner.history =
      t.scanner.history.take (t.scanner.history.length - j) := by
  induction j with
  | zero => simp [run]
  | succ j ih =>
    have hbefore := ih (by omega)
    generalize hmid : t.run (List.replicate j (Call.undo : Call σ)) = mid at hbefore
    have hcan : mid.scanner.canUndo = true := by
      simp only [Scanner.canUndo, hbefore, List.length_take, decide_eq_true_eq]
      omega
    have hundo : mid.scanner.undo.2.history = mid.scanner.history.dropLast := by
      simp [Scanner.undo, hcan]
    rw [List.replicate_succ', run_append, hmid]
    show mid.scanner.undo.2.history = _
    rw [hundo, hbefore, List.dropLast_eq_take, List.take_take, List.length_take]
    congr 1
    omega

/-- Undoing brings back the results of the scan that many before the last. -/
theorem undos_results {t : Session} (h : t.Valid) {scans : List (Call σ)}
    (hscans : ∀ c ∈ scans, c.isUndo = false) (hordered : ∀ c ∈ scans, c.Ordered) {j : ℕ}
    (hj : j < (t.scanLog scans).length) (hdepth : j < historyDepth) :
    (t.scanLog scans)[(t.scanLog scans).length - 1 - j]? =
      some ((t.run scans).run (List.replicate j (Call.undo : Call σ))).scanner.results := by
  have hlen := run_length h hscans hordered
  have hheld : j < (t.run scans).scanner.history.length := by omega
  have hlog : (t.scanLog scans)[(t.scanLog scans).length - 1 - j]? =
      (t.run scans).scanner.history.reverse[j]? := by
    rw [BoundedHistory.getElem?_reverse_eq (run_valid h hordered).held hheld, t.run_trail hscans,
      List.reverse_append, List.getElem?_append_left (by rwa [List.length_reverse]),
      List.getElem?_reverse hj]
  have hlast := BoundedHistory.getLast?_take _ hheld
  rw [hlog, Scanner.results, undos_history _ hheld, hlast]
  rw [List.getElem?_eq_getElem (by rwa [List.length_reverse]), Option.getD_some]

/-- An undo right after a successful scan brings back the results before it. -/
theorem undo_collected {t : Session} (h : t.Valid) {c : Call σ} {g : Generation}
    (hcollected : c.collected t.scanner = some g) (hheld : t.scanner.history ≠ []) :
    (t.run [c, .undo]).scanner.results = t.scanner.results := by
  cases c.effect t.scanner with
  | keep hnone => simp [hcollected] at hnone
  | drop hnone => simp [hcollected] at hnone
  | collect g' _ _ hhistory =>
    have hlen := BoundedHistory.length_push h.depth g'.results
    have hpos := List.length_pos_of_ne_nil hheld
    have hhistory' : (t.step c).scanner.history =
      BoundedHistory.push historyDepth t.scanner.history g'.results := hhistory
    have hmany : 1 < (t.step c).scanner.history.length := by
      rw [hhistory', hlen, historyDepth]
      omega
    have hundo := undos_history (σ := σ) (t.step c) hmany
    have hlast := BoundedHistory.getLast?_take _ hmany
    show ((t.step c).run (List.replicate 1 (Call.undo : Call σ))).scanner.results = _
    rw [Scanner.results, hundo, hlast, hhistory',
      BoundedHistory.getElem?_reverse_eq (BoundedHistory.push_suffix (List.suffix_refl _) _)
        (by rw [← hhistory']; exact hmany),
      List.reverse_append, List.reverse_singleton, List.singleton_append, List.getElem?_cons_succ,
      ← List.head?_eq_getElem?, List.head?_reverse, Scanner.results]

/-- What is promised of a session: a bounded history, sorted columns of matching length, generations
that narrow unless a first scan starts over, and undos that reverse scans. -/
structure Invariant (σ : Type) (t : Session) : Prop where
  depth : t.scanner.history.length ≤ 3
  scanned : t.scanner.history ≠ [] ↔ t.scanner.hasScanned = true
  columns : ∀ g ∈ t.scanner.history, g.current.length = g.len * g.stride ∧
    g.previous.length = g.len * g.stride ∧ g.addresses.Pairwise (· < ·)
  follows : ∃ held, held <:+ t.trail ∧ held.map Generation.results = t.scanner.history ∧
    held.IsChain Follows
  undo : ∀ c : Call σ, (c.collected t.scanner).isSome → t.scanner.history ≠ [] →
    (t.run [c, .undo]).scanner.results = t.scanner.results
  undos : ∀ scans : List (Call σ), (∀ c ∈ scans, c.isUndo = false) → (∀ c ∈ scans, c.Ordered) →
    ∀ j < (t.scanLog scans).length, j ≤ 2 →
      (t.scanLog scans)[(t.scanLog scans).length - 1 - j]? =
        some ((t.run scans).run (List.replicate j (Call.undo : Call σ))).scanner.results

theorem session_invariant (ty : ScanValueType) (limit : ℕ) (calls : List (Call σ))
    (hcalls : ∀ c ∈ calls, c.Ordered) : ((new ty limit).run calls).Invariant σ := by
  have h := run_valid (new_valid ty limit) hcalls
  refine ⟨h.depth, h.scanned, fun g hg => ?_, ?_, fun c hcollected hheld => ?_,
    fun scans hscans hordered j hj hdepth => ?_⟩
  · obtain ⟨x, hx, rfl⟩ := List.mem_map.mp (h.held.subset hg)
    exact ⟨x.results.current_length, x.results.previous_length, h.sorted x hx⟩
  · obtain ⟨older, holder⟩ := h.held
    obtain ⟨before, held, htrail, _, hheld⟩ := List.map_eq_append_iff.mp holder.symm
    have hsuffix : held <:+ ((new ty limit).run calls).trail := ⟨before, htrail.symm⟩
    exact ⟨held, hsuffix, hheld, h.follows.suffix hsuffix⟩
  · obtain ⟨g, hg⟩ := Option.isSome_iff_exists.mp hcollected
    exact undo_collected h hg hheld
  · exact undos_results h hscans hordered hj (Nat.lt_succ_of_le hdepth)

theorem liveScan_ordered : Call.liveScan.Ordered := by
  intro all hall
  obtain rfl := Except.ok.inj hall
  decide

/-- A session that scanned a two-byte target twice and undid the second scan. -/
theorem session_invariant_liveScan :
    ((new .u8 1).run [Call.liveScan, Call.liveScan, .undo]).Invariant Unit := by
  refine session_invariant .u8 1 _ fun c hc => ?_
  simp only [List.mem_cons, List.not_mem_nil, or_false] at hc
  rcases hc with rfl | rfl | rfl
  · exact liveScan_ordered
  · exact liveScan_ordered
  · trivial

end Session

end Nemclass.Scan
