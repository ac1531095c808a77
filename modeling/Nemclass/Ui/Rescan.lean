import Nemclass.Address.PathWalks
import Nemclass.Ui.PathRow

/-! Rescanning the rows of the pointer-scan panel. A row keeps its formula, which is relative to
a module, and its anchor as an absolute address; a rescan follows the absolute address. That is
what the formula does while the module stays where it was, and not after it has moved. -/
namespace Nemclass.Ui
open Model Usize Scan Address Outcome

/-- The worker of `rescan`: the rows that still resolve to the goal, and how many there were. -/
def rescan (readPtr : ℕ → Option ℕ) (goal : ℕ) (rows : List PathRow) : List PathRow × ℕ :=
  (rows.filter fun row => PointerPath.resolve ⟨row.base, row.offsets⟩ readPtr == some goal,
    rows.length)

/-- The row's formula is read back as what it was written from. -/
structure Legible (p : PointerPath) (m : ModuleInfoWithName) : Prop where
  name : '>' ∉ m.name.toList
  anchor : p.base - m.base < 2 ^ 63
  offsets : ∀ o ∈ p.offsets, o < 2 ^ 63

/-- The formula is legible, and its module's name resolves to where the module was found. -/
structure Stays (p : PointerPath) (m : ModuleInfoWithName) (modules : List ModuleInfoWithName) :
    Prop where
  legible : Legible p m
  unmoved : resolveModule modules m.name = some m.base

section Rescan
variable {maxDepth maxOffset goal : ℕ} {scanned modules : List ModuleInfoWithName}
  {map : PointerMap} {p : PointerPath} {m : ModuleInfoWithName} {reader : MemoryReader}

theorem mem_rescan {readPtr : ℕ → Option ℕ} {rows : List PathRow}
    (hrow : pathRow p scanned ∈ rows) :
    pathRow p scanned ∈ (rescan readPtr goal rows).1 ↔ p.resolve readPtr = some goal := by
  rw [rescan, List.mem_filter, beq_iff_eq]
  exact and_iff_right hrow

/-- What a legible formula evaluates to with the modules where they are now. -/
theorem pathRow_moved (howner : owner scanned p.base = some m) (hw : Writable p m.base)
    (hname : '>' ∉ m.name.toList) {base : ℕ} (hbase : resolveModule modules m.name = some base)
    (hle : base ≤ usizeMax) :
    resolveFormula (pathRow p scanned).formula (resolveModule modules) reader =
      follow reader p.offsets (wrappingAdd base (p.base - m.base)) := by
  rw [pathRow, howner, resolveFormula, hw.parse hname]
  exact hw.evaluate hbase hle

theorem pathRow_unresolved (howner : owner scanned p.base = some m) (hw : Writable p m.base)
    (hname : '>' ∉ m.name.toList) (hnone : resolveModule modules m.name = none) :
    resolveFormula (pathRow p scanned).formula (resolveModule modules) reader ≠ .ok goal := by
  rw [pathRow, howner, resolveFormula, hw.parse hname]
  change evaluate _ _ (pathTree p m.name m.base).expr ≠ _
  rw [pathTree, evaluate_hops hw.offsets_lt]
  intro hok
  obtain ⟨a, ha, -⟩ := bind_eq_ok.mp hok
  exact evaluate_anchor_none hnone _ a ha

/-- No formula is read back whose name or literals cannot be. -/
theorem pathRow_illegible (howner : owner scanned p.base = some m) (hbase : p.base ≤ usizeMax)
    (hquotes : '>' ∈ m.name.toList → '<' ∉ m.name.toList ∧ '"' ∉ m.name.toList)
    (h : ¬ Legible p m) :
    resolveFormula (pathRow p scanned).formula (resolveModule modules) reader ≠ .ok goal := by
  rw [pathRow, howner, resolveFormula]
  intro hok
  obtain ⟨e, hparse, -⟩ := bind_eq_ok.mp hok
  by_cases hname : '>' ∈ m.name.toList
  · exact toFormula_rejected p m.base hname (hquotes hname).1 (hquotes hname).2 e hparse
  · refine (spoils_pointerFormula hname ?_).parse_ne e hparse
    rw [wrappingSub_of_le (owner_spec howner).2 hbase]
    by_contra hsmall
    rw [not_or, not_exists] at hsmall
    push Not at hsmall
    exact h ⟨hname, hsmall.1, hsmall.2⟩

/-- Where the anchor goes when its module goes elsewhere. -/
theorem anchor_moves {base : ℕ} (hle : base ≤ usizeMax) (hbase : p.base ≤ usizeMax)
    (hm : m.base ≤ p.base) (hmoved : base ≠ m.base) :
    wrappingAdd base (p.base - m.base) ≠ p.base := by
  unfold wrappingAdd
  unfold usizeMax at *
  omega

theorem resolveModule_le (hmodules : ∀ m ∈ modules, m.base ≤ usizeMax) {name : String} {base : ℕ}
    (h : resolveModule modules name = some base) : base ≤ usizeMax := by
  obtain ⟨m, hm, rfl⟩ := Option.map_eq_some_iff.mp h
  exact hmodules m (List.mem_of_find?_eq_some hm)

/-- The rescan and the formula agree about the row. -/
def Agrees (rows : List PathRow) (scanned modules : List ModuleInfoWithName) (p : PointerPath)
    (reader : MemoryReader) (goal : ℕ) : Prop :=
  pathRow p scanned ∈ (rescan (fun a => (reader a).toOption) goal rows).1 ↔
    resolveFormula (pathRow p scanned).formula (resolveModule modules) reader = .ok goal

section Found
variable {found : ℕ}
  (hp : p ∈ (map.findPaths (scanConfig maxDepth maxOffset scanned) found).paths)
  (howner : owner scanned p.base = some m)
include hp howner

/-- With its module in place, a row's formula walks from the row's own anchor. -/
theorem Stays.follows (hmodules : ∀ m ∈ modules, m.base ≤ usizeMax) (h : Stays p m modules) :
    resolveFormula (pathRow p scanned).formula (resolveModule modules) reader =
      follow reader p.offsets p.base := by
  have hw := found_writable hp h.legible.offsets howner h.legible.anchor
  rw [pathRow_moved howner hw h.legible.name h.unmoved (resolveModule_le hmodules h.unmoved),
    hw.anchor_eq]

/-- Over some memory, a row whose module is gone from its place resolves to what its formula does
not. -/
theorem exists_misled (hfound : found ≤ usizeMax) (hmodules : ∀ m ∈ modules, m.base ≤ usizeMax)
    (hquotes : '>' ∈ m.name.toList → '<' ∉ m.name.toList ∧ '"' ∉ m.name.toList)
    (h : ¬ Stays p m modules) :
    ∃ reader goal, (Words reader ∧ Climbs reader p.offsets p.base) ∧
      p.resolve (fun a => (reader a).toOption) = some goal ∧
      resolveFormula (pathRow p scanned).formula (resolveModule modules) reader ≠ .ok goal := by
  obtain ⟨hbase, hne, hlen⟩ := found_shape hp
  obtain ⟨slots, hlinks⟩ := PointerMap.linksTo_of_findPaths hp
  have hoffs := hlinks.hops.offsets_le hfound
  have hflat (value : ℕ) (hole : ℕ → Bool) (hvalue : value ≤ usizeMax)
      (hanchor : hole p.base = false)
      (hclear : ∀ o ∈ p.offsets, hole (value + o) = false ∧ value + o ≤ usizeMax) :
      ∃ goal, (Words (flatReader value hole) ∧ Climbs (flatReader value hole) p.offsets p.base) ∧
        p.resolve (fun a => (flatReader value hole a).toOption) = some goal := by
    obtain ⟨hclimbs, goal, hgoal⟩ := climbs_flat hanchor hclear
    exact ⟨goal, ⟨words_flatReader hvalue, hclimbs⟩, (resolve_iff_follow hne hclimbs).mpr hgoal⟩
  have hzero := hflat 0 (fun _ => false) (Nat.zero_le _) rfl fun o ho =>
    ⟨rfl, by simpa using hoffs o ho⟩
  by_cases hlegible : Legible p m
  · have hw := found_writable hp hlegible.offsets howner hlegible.anchor
    cases hresolve : resolveModule modules m.name with
    | none =>
      obtain ⟨goal, hreader, hgoal⟩ := hzero
      exact ⟨_, goal, hreader, hgoal, pathRow_unresolved howner hw hlegible.name hresolve⟩
    | some base =>
      have hle := resolveModule_le hmodules hresolve
      have hmoved : base ≠ m.base := by
        rintro rfl
        exact h ⟨hlegible, hresolve⟩
      -- a hole where the formula begins, and a value that no offset leads from to it
      obtain ⟨c, hc, hmiss⟩ := exists_missing p.offsets (wrappingAdd base (p.base - m.base))
      have hanchor := anchor_moves hle hbase (owner_spec howner).2 hmoved
      have hbound : c + 2 ^ 63 ≤ usizeMax := by
        unfold usizeMax
        omega
      obtain ⟨goal, hreader, hgoal⟩ := hflat c (· == wrappingAdd base (p.base - m.base))
        (by omega) (beq_eq_false_iff_ne.mpr hanchor.symm) fun o ho =>
          ⟨beq_eq_false_iff_ne.mpr (hmiss o ho), by have := hlegible.offsets o ho; omega⟩
      refine ⟨_, goal, hreader, hgoal, ?_⟩
      rw [pathRow_moved howner hw hlegible.name hresolve hle]
      refine follow_hole hne ?_ goal
      exact beq_self_eq_true _
  · obtain ⟨goal, hreader, hgoal⟩ := hzero
    exact ⟨_, goal, hreader, hgoal, pathRow_illegible howner hbase hquotes hlegible⟩

end Found

end Rescan

/-- A rescan agrees with a row's formula, over every memory that keeps the walk inside the address
space, exactly when the formula is legible and its module has not moved; and over every memory at
all exactly when the row's offsets are all zero besides. -/
theorem rescan_agrees_iff (maxDepth maxOffset : ℕ) (scanned : List ModuleInfoWithName)
    (map : PointerMap) (found : ℕ) (hfound : found ≤ usizeMax) (p : PointerPath)
    (hp : p ∈ (map.findPaths (scanConfig maxDepth maxOffset scanned) found).paths)
    (modules : List ModuleInfoWithName) (hmodules : ∀ m ∈ modules, m.base ≤ usizeMax)
    (rows : List PathRow) (hrow : pathRow p scanned ∈ rows) :
    ∃ m, owner scanned p.base = some m ∧
      (('>' ∈ m.name.toList → '<' ∉ m.name.toList ∧ '"' ∉ m.name.toList) →
        ((∀ reader goal, Words reader → Climbs reader p.offsets p.base →
            Agrees rows scanned modules p reader goal) ↔ Stays p m modules) ∧
          ((∀ reader goal, Words reader → Agrees rows scanned modules p reader goal) ↔
            Stays p m modules ∧ ∀ o ∈ p.offsets, o = 0)) := by
  obtain ⟨slots, hlinks⟩ := PointerMap.linksTo_of_findPaths hp
  obtain ⟨m, howner⟩ := owner_isSome hlinks.anchored
  obtain ⟨hbase, hne, hlen⟩ := found_shape hp
  refine ⟨m, howner, fun hquotes => ?_⟩
  have hclimbing : (∀ reader goal, Words reader → Climbs reader p.offsets p.base →
      Agrees rows scanned modules p reader goal) ↔ Stays p m modules := by
    constructor
    · intro hagrees
      by_contra hgone
      obtain ⟨reader, goal, ⟨hwords, hclimbs⟩, hgoal, hnot⟩ :=
        exists_misled hp howner hfound hmodules hquotes hgone
      exact hnot ((hagrees reader goal hwords hclimbs).mp ((mem_rescan hrow).mpr hgoal))
    · intro hstays reader goal _ hclimbs
      rw [Agrees, mem_rescan hrow, hstays.follows hp howner hmodules]
      exact resolve_iff_follow hne hclimbs
  refine ⟨hclimbing, fun hagrees => ?_, fun ⟨hstays, hzero⟩ reader goal hwords => ?_⟩
  · have hstays := hclimbing.mp fun reader goal hwords _ => hagrees reader goal hwords
    refine ⟨hstays, ?_⟩
    obtain ⟨goal, hgoal⟩ := follow_greatest p.offsets p.base
    rw [← hstays.follows hp howner hmodules] at hgoal
    have hkept := (hagrees _ goal (words_flatReader le_rfl)).mpr hgoal
    exact zero_of_resolveFrom ((mem_rescan hrow).mp hkept)
  · exact hclimbing.mpr hstays reader goal hwords (climbs_of_zero hwords hzero p.base)

section Moved

/-- The copies in their places after a restart. -/
def movedCopies : List ModuleInfoWithName :=
  [⟨0x7ffd00000000, 0x1000, "NTDLL.DLL"⟩, ⟨0x7b000000, 0x1000, "ntdll.dll"⟩]

/-- The pointer has moved with its module. -/
def movedReader : MemoryReader := fun a =>
  if a = 0x7ffd00000010 then .ok 0x5000 else .error (.resolveError "unmapped")

theorem rescan_agrees_iff_movedCopies :
    ∃ m, owner twoCopies copyPath.base = some m ∧
      (('>' ∈ m.name.toList → '<' ∉ m.name.toList ∧ '"' ∉ m.name.toList) →
        ((∀ reader goal, Words reader → Climbs reader copyPath.offsets copyPath.base →
            Agrees [pathRow copyPath twoCopies] twoCopies movedCopies copyPath reader goal) ↔
              Stays copyPath m movedCopies) ∧
          ((∀ reader goal, Words reader →
            Agrees [pathRow copyPath twoCopies] twoCopies movedCopies copyPath reader goal) ↔
              Stays copyPath m movedCopies ∧ ∀ o ∈ copyPath.offsets, o = 0)) :=
  rescan_agrees_iff 5 0x1000 twoCopies copyMap 0x5020 (by decide) copyPath copyPath_found
    movedCopies (by decide) _ (List.mem_singleton_self _)

/-- The row is dropped, although its formula leads to the goal in the module's new place. -/
theorem rescan_moved :
    copyPath ∈ (copyMap.findPaths (scanConfig 5 0x1000 twoCopies) 0x5020).paths ∧
      resolveFormula (pathRow copyPath twoCopies).formula (resolveModule movedCopies) movedReader =
        .ok 0x5020 ∧
      (rescan (fun a => (movedReader a).toOption) 0x5020 [pathRow copyPath twoCopies]).1 = [] := by
  have howner : owner twoCopies copyPath.base = some ⟨0x7ffc00000000, 0x1000, "NTDLL.DLL"⟩ := by
    decide
  have hw : Writable copyPath 0x7ffc00000000 :=
    found_writable copyPath_found (by decide) howner (by decide)
  refine ⟨copyPath_found, ?_, by rfl⟩
  rw [pathRow_moved howner hw (by decide)
    (show resolveModule movedCopies "NTDLL.DLL" = some 0x7ffd00000000 by decide) (by decide)]
  decide

end Moved

end Nemclass.Ui
