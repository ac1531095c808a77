import Nemclass.Address.PathFormula
import Nemclass.Scan.PointerPaths

/-! The rows of the pointer-scan panel: each found path, written relative to the first
module that contains its anchor. The formula names that module, and a name is
resolved to the first module of the list that bears it. -/
namespace Nemclass.Ui
open Model Usize Scan Address Outcome

structure PathRow where
  formula : String
  depth : ℕ
  base : ℕ
  offsets : List ℕ

/-- The first module whose image contains the address. -/
def owner (modules : List ModuleInfoWithName) (addr : ℕ) : Option ModuleInfoWithName :=
  modules.find? fun m => m.base ≤ addr && addr < saturatingAdd m.base m.size

def pathRow (p : PointerPath) (modules : List ModuleInfoWithName) : PathRow where
  formula :=
    match owner modules p.base with
    | some m => p.toFormula m.name m.base
    | none => p.toFormula "unknown" 0
  depth := p.offsets.length
  base := p.base
  offsets := p.offsets

/-- The configuration that the panel scans with: module images are the anchors. -/
def scanConfig (maxDepth maxOffset : ℕ) (modules : List ModuleInfoWithName) :
    PointerScanConfig where
  maxDepth := max 1 (min maxDepth 12)
  maxOffset := maxOffset
  staticRanges := modules.map fun m => ⟨m.base, m.size⟩

section Found
variable {maxDepth maxOffset goal : ℕ} {modules : List ModuleInfoWithName} {map : PointerMap}
  {p : PointerPath}

/-- A slot that the scan takes for an anchor lies in a module. -/
theorem owner_isSome {slot : ℕ}
    (h : isMapped (scanConfig maxDepth maxOffset modules).staticRangesSorted slot = true) :
    ∃ m, owner modules slot = some m := by
  rw [PointerScanConfig.staticRangesSorted, isMapped_eq (sortedRanges_sorted _),
    Option.any_eq_true] at h
  obtain ⟨range, hlast, hlt⟩ := h
  obtain ⟨hmem, hle⟩ := List.mem_filter.mp (List.mem_of_getLast? hlast)
  obtain ⟨region, hregion, rfl⟩ := mem_sortedRanges.mp hmem
  obtain ⟨m, hm, rfl⟩ := List.mem_map.mp hregion
  refine Option.isSome_iff_exists.mp (List.find?_isSome.mpr ⟨m, hm, ?_⟩)
  rw [decide_eq_true_eq] at hle hlt
  simpa using ⟨hle, hlt⟩

theorem owner_spec {slot : ℕ} {m : ModuleInfoWithName} (h : owner modules slot = some m) :
    m ∈ modules ∧ m.base ≤ slot := by
  have hin := List.find?_some h
  rw [Bool.and_eq_true, decide_eq_true_eq] at hin
  exact ⟨List.mem_of_find?_eq_some h, hin.1⟩

theorem eqIgnoreAsciiCase_refl (s : String) : eqIgnoreAsciiCase s s = true := by
  simp [eqIgnoreAsciiCase]

/-- The name of a module of the list resolves to a module of the list. -/
theorem resolveModule_of_mem {m : ModuleInfoWithName} (h : m ∈ modules) :
    ∃ m' ∈ modules, resolveModule modules m.name = some m'.base := by
  have hsome : (modules.find? fun x => eqIgnoreAsciiCase x.name m.name).isSome :=
    List.find?_isSome.mpr ⟨m, h, eqIgnoreAsciiCase_refl m.name⟩
  obtain ⟨m', hm'⟩ := Option.isSome_iff_exists.mp hsome
  exact ⟨m', List.mem_of_find?_eq_some hm', by rw [resolveModule, hm', Option.map_some]⟩

/-- What every found path satisfies. -/
theorem found_shape
    (hp : p ∈ (map.findPaths (scanConfig maxDepth maxOffset modules) goal).paths) :
    p.base ≤ usizeMax ∧ p.offsets ≠ [] ∧ p.offsets.length ≤ 12 := by
  obtain ⟨slots, hlinks⟩ := PointerMap.linksTo_of_findPaths hp
  have hne : p.offsets ≠ [] := by
    have hhops := hlinks.hops
    generalize p.offsets = offs at hhops
    cases hhops <;> simp
  have hshort : p.offsets.length ≤ max 1 (min maxDepth 12) := hlinks.short
  obtain ⟨⟨value, hentry⟩, -⟩ := hlinks.hops.slots_recorded
  exact ⟨(map.bounded _ hentry).2, hne, by omega⟩

theorem found_writable
    (hp : p ∈ (map.findPaths (scanConfig maxDepth maxOffset modules) goal).paths)
    (hoffs : ∀ o ∈ p.offsets, o < 2 ^ 63) {m : ModuleInfoWithName}
    (howner : owner modules p.base = some m) (hanchor : p.base - m.base < 2 ^ 63) :
    Writable p m.base := by
  obtain ⟨hbase, hne, hshort⟩ := found_shape hp
  have hdepth : 12 ≤ Parser.maxDepth := by decide
  exact ⟨hbase, (owner_spec howner).2, hanchor, hne, hshort.trans hdepth, hoffs⟩

end Found

/-- What a row's formula evaluates to, when the module's name can stand in brackets: the walk from
the same offset in the first module of that name. -/
theorem pathRow_follows {modules : List ModuleInfoWithName}
    (hmodules : ∀ m ∈ modules, m.base ≤ usizeMax) {p : PointerPath} {m : ModuleInfoWithName}
    (howner : owner modules p.base = some m) (hw : Writable p m.base) (hname : '>' ∉ m.name.toList)
    {base : ℕ} (hbase : resolveModule modules m.name = some base) (reader : MemoryReader) :
    resolveFormula (pathRow p modules).formula (resolveModule modules) reader =
      follow reader p.offsets (wrappingAdd base (p.base - m.base)) := by
  obtain ⟨m', hm', hbase'⟩ := resolveModule_of_mem (owner_spec howner).1
  obtain rfl := Option.some.inj (hbase.symm.trans hbase')
  rw [pathRow, howner, resolveFormula, hw.parse hname]
  exact hw.evaluate hbase' (hmodules m' hm')

section WoW64

/-- A 32-bit and a 64-bit copy of one library. -/
def twoCopies : List ModuleInfoWithName :=
  [⟨0x7b000000, 0x1000, "ntdll.dll"⟩, ⟨0x7ffc00000000, 0x1000, "NTDLL.DLL"⟩]

/-- One pointer, in the second copy. -/
def copyMap : PointerMap where
  entries := [(0x5000, 0x7ffc00000010)]
  truncated := false
  sorted := by decide
  bounded := by decide

def copyReader : MemoryReader := fun a =>
  if a = 0x7ffc00000010 then .ok 0x5000 else .error (.resolveError "unmapped")

def copyPath : PointerPath := ⟨0x7ffc00000010, [0x20]⟩

theorem copyMap_holds : copyMap.Holds fun a => (copyReader a).toOption := by
  intro value slot hmem
  simp only [copyMap, List.mem_singleton, Prod.mk.injEq] at hmem
  obtain ⟨rfl, rfl⟩ := hmem
  rfl

theorem copyPath_found :
    copyPath ∈ (copyMap.findPaths (scanConfig 5 0x1000 twoCopies) 0x5020).paths := by
  have hmapped :
      isMapped (scanConfig 5 0x1000 twoCopies).staticRangesSorted 0x7ffc00000010 = true :=
    (isMapped_iff (by decide) (by decide)).mpr ⟨⟨0x7ffc00000000, 0x1000⟩, by decide⟩
  have hpaths : copyMap.paths (scanConfig 5 0x1000 twoCopies)
      (scanConfig 5 0x1000 twoCopies).staticRangesSorted (4 + 1) ∅ [] 0x5020 = [copyPath] := by
    rw [PointerMap.paths, if_neg (Finset.notMem_empty _),
      show copyMap.range _ 0x5020 = [(0x5000, 0x7ffc00000010)] by decide,
      List.flatMap_singleton, PointerMap.hopPaths, if_pos hmapped]
    rfl
  rw [PointerMap.findPaths_paths]
  change copyPath ∈ (copyMap.paths _ _ (4 + 1) ∅ [] 0x5020).take 5000
  rw [hpaths]
  exact List.mem_singleton_self copyPath

end WoW64

end Nemclass.Ui
