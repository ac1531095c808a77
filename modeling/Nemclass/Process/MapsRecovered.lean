import Nemclass.Process.MapsLines

/-! What the parsers recover of the mappings. A pathname is legible when the path read
from its column is the one printed there; the sections and the modules are those of the
paths read, and with legible pathnames those are the paths of the files. -/
namespace Nemclass.Process
open Scan Kernel FirstSeen

/-- The path of the file behind a mapping, if there is one. -/
def Pathname.path : Pathname → Option (List Char)
  | empty | pseudo .. => none
  | file path _ => some path.chars

/-- No slash in a pseudo-name; a path ends neither in a blank nor, unless it is marked
as deleted, in the mark. -/
def Pathname.Legible : Pathname → Prop
  | empty => True
  | pseudo name _ => '/' ∉ name
  | file path deleted => (∀ c ∈ path.chars.getLast?, isWhitespace c = false) ∧
      (deleted = false → ¬"(deleted)".toList <:+ path.chars)

section Paths

theorem trimEnd_concat {s : List Char} {c : Char} (h : isWhitespace c = false) :
    trimEnd (s ++ [c]) = s ++ [c] := List.rdropWhile_concat_neg _ _ _ (by simp [h])

theorem trimEnd_eq_self_iff {s : List Char} :
    trimEnd s = s ↔ ∀ c ∈ s.getLast?, isWhitespace c = false := by
  rw [trimEnd, List.rdropWhile_eq_self_iff]
  constructor
  · intro h c hc
    obtain ⟨hne, rfl⟩ := List.mem_getLast?_eq_getLast hc
    simpa using h hne
  · intro h hne
    simpa using h _ (List.getLast?_eq_some_getLast hne)

theorem stripDeleted_append (s : List Char) :
    stripDeleted (s ++ "(deleted)".toList) = trimEnd s := by
  have hdrop : (s ++ "(deleted)".toList).dropSuffix? "(deleted)".toList = some s :=
    List.dropSuffix?_eq_some_iff.mpr ⟨_, rfl, beq_self_eq_true _⟩
  rw [stripDeleted, hdrop]
  rfl

theorem stripDeleted_of_not_suffix {s : List Char} (h : ¬"(deleted)".toList <:+ s) :
    stripDeleted s = s := by
  have hdrop : s.dropSuffix? "(deleted)".toList = none := by
    rw [Option.eq_none_iff_forall_not_mem]
    intro p hp
    obtain ⟨s', hs, hs'⟩ := List.dropSuffix?_eq_some_iff.mp hp
    exact h ⟨p, hs.trans (congrArg _ (eq_of_beq hs')) |>.symm⟩
  rw [stripDeleted, hdrop]
  rfl

/-- Trimming takes blanks off the end. -/
theorem exists_trimEnd (s : List Char) : ∃ tail, s = trimEnd s ++ tail ∧ '/' ∉ tail :=
  ⟨s.rtakeWhile isWhitespace, List.rdropWhile_append_rtakeWhile.symm, fun h =>
    absurd (List.mem_rtakeWhile_imp h) (by decide)⟩

theorem exists_stripDeleted (s : List Char) : ∃ tail, s = stripDeleted s ++ tail ∧ '/' ∉ tail := by
  by_cases h : "(deleted)".toList <:+ s
  · obtain ⟨front, rfl⟩ := h
    obtain ⟨tail, hfront, htail⟩ := exists_trimEnd front
    refine ⟨tail ++ "(deleted)".toList, ?_, ?_⟩
    · rw [stripDeleted_append, ← List.append_assoc, ← hfront]
    · rw [List.mem_append, not_or]
      exact ⟨htail, by decide⟩
  · exact ⟨[], by rw [stripDeleted_of_not_suffix h, List.append_nil], List.not_mem_nil⟩

/-- What is left of a path that loses the mark, or loses what looks like it. -/
def reread (path : List Char) (deleted : Bool) : List Char :=
  if deleted then trimEnd path else stripDeleted (trimEnd path)

theorem exists_reread (path : List Char) (deleted : Bool) :
    ∃ tail, path = reread path deleted ++ tail ∧ '/' ∉ tail := by
  obtain ⟨blanks, hpath, hblanks⟩ := exists_trimEnd path
  cases deleted with
  | true => exact ⟨blanks, hpath, hblanks⟩
  | false =>
    obtain ⟨tail, htrim, htail⟩ := exists_stripDeleted (trimEnd path)
    refine ⟨tail ++ blanks, ?_, ?_⟩
    · show path = stripDeleted (trimEnd path) ++ (tail ++ blanks)
      rw [← List.append_assoc, ← htrim, ← hpath]
    · rw [List.mem_append, not_or]
      exact ⟨htail, hblanks⟩

theorem length_trimEnd_le (s : List Char) : (trimEnd s).length ≤ s.length :=
  (List.rdropWhile_prefix _ _).length_le

theorem length_stripDeleted_lt {s : List Char} (h : "(deleted)".toList <:+ s) :
    (stripDeleted s).length < s.length := by
  obtain ⟨front, rfl⟩ := h
  rw [stripDeleted_append, List.length_append]
  exact Nat.lt_add_right_iff_pos.mpr (by decide) |>.trans_le' (length_trimEnd_le front)

theorem reread_eq_self_iff {path : AbsolutePath} {deleted : Bool} :
    reread path.chars deleted = path.chars ↔ (Pathname.file path deleted).Legible := by
  rw [Pathname.Legible, ← trimEnd_eq_self_iff]
  cases deleted with
  | true => simp [reread]
  | false =>
    show stripDeleted (trimEnd path.chars) = path.chars ↔ _
    constructor
    · intro h
      have htrim : trimEnd path.chars = path.chars := by
        refine (List.rdropWhile_prefix _ _).eq_of_length_le ?_
        obtain ⟨tail, hstrip, -⟩ := exists_stripDeleted (trimEnd path.chars)
        rw [h] at hstrip
        have hlen := congrArg List.length hstrip
        rw [List.length_append] at hlen
        exact Nat.le_of_add_right_le hlen.ge
      refine ⟨htrim, fun _ hsuffix => ?_⟩
      rw [htrim] at h
      exact (length_stripDeleted_lt hsuffix).ne (congrArg List.length h)
    · rintro ⟨htrim, hmark⟩
      rw [htrim, stripDeleted_of_not_suffix (hmark rfl)]

theorem fileName_append {s tail : List Char} (h : '/' ∉ tail) :
    (s ++ tail).rtakeWhile (· ≠ '/') = s.rtakeWhile (· ≠ '/') ++ tail := by
  have hall : ∀ c ∈ tail.reverse, decide (c ≠ '/') = true := fun c hc =>
    decide_eq_true fun heq => h (List.mem_reverse.mp (heq ▸ hc))
  rw [List.rtakeWhile, List.rtakeWhile, List.reverse_append, List.takeWhile_append_of_pos hall,
    List.reverse_append, List.reverse_reverse]

theorem fileName_eq_some {s : List Char} (h : s.getLast? ≠ some '/') (hne : s ≠ []) :
    fileName s = some (s.rtakeWhile (· ≠ '/')) := by
  have hlast : s.rtakeWhile (· ≠ '/') ≠ [] := by
    rw [ne_eq, List.rtakeWhile_eq_nil_iff]
    intro hall
    refine h ((List.getLast?_eq_some_getLast hne).trans (congrArg some ?_))
    simpa using hall hne
  exact Option.filter_eq_some_iff.mpr ⟨rfl, by simpa using hlast⟩

theorem AbsolutePath.ne_nil (path : AbsolutePath) : path.chars ≠ [] := by
  intro h
  have habsolute := path.absolute
  rw [h] at habsolute
  cases habsolute

theorem AbsolutePath.fileName_eq (path : AbsolutePath) :
    fileName path.chars = some (path.chars.rtakeWhile (· ≠ '/')) :=
  fileName_eq_some path.named path.ne_nil

/-- Whatever is lost of the path is lost of the file name. -/
theorem fileName_reread_eq_iff {path : AbsolutePath} {deleted : Bool} :
    fileName (reread path.chars deleted) = fileName path.chars ↔
      (Pathname.file path deleted).Legible := by
  rw [← reread_eq_self_iff]
  refine ⟨fun h => ?_, congrArg fileName⟩
  obtain ⟨tail, hpath, htail⟩ := exists_reread path.chars deleted
  rw [path.fileName_eq] at h
  obtain ⟨hname, -⟩ := Option.filter_eq_some_iff.mp h
  have hsplit := congrArg (List.rtakeWhile (· ≠ '/')) hpath
  rw [fileName_append htail, ← Option.some.inj hname, List.self_eq_append_right] at hsplit
  rw [hsplit, List.append_nil] at hpath
  exact hpath.symm

end Paths

section Columns

theorem readColumn_empty : readColumn Pathname.empty.text = none := rfl

theorem dropWhile_concat_of_mem {s : List Char} {d : Char} (h : '/' ∈ s) :
    (s ++ [d]).dropWhile (· ≠ '/') = s.dropWhile (· ≠ '/') ++ [d] := by
  rw [List.dropWhile_append, if_neg]
  rw [List.isEmpty_iff, List.dropWhile_eq_nil_iff]
  intro hall
  simpa using hall '/' h

theorem not_deleted_suffix_concat {s : List Char} {c : Char} (h : c ≠ ')') :
    ¬"(deleted)".toList <:+ s ++ [c] := by
  rintro ⟨front, hs⟩
  have hlast := congrArg List.getLast? hs
  rw [List.getLast?_concat, List.getLast?_append] at hlast
  exact h (Option.some.inj hlast).symm

/-- A pseudo-name with a slash in it is taken for a file, whose name ends in the bracket. -/
theorem readColumn_pseudo_slash {name : List Char} {inline : '\n' ∉ name} (h : '/' ∈ name) :
    readColumn (Pathname.pseudo name inline).text =
      some (name.dropWhile (· ≠ '/') ++ [']']) := by
  have hdrop : (Pathname.pseudo name inline).text.dropWhile (· ≠ '/') =
      name.dropWhile (· ≠ '/') ++ [']'] := by
    rw [Pathname.text, List.dropWhile_cons_of_pos (by decide), dropWhile_concat_of_mem h]
  rw [readColumn, hdrop, if_neg (List.append_ne_nil_of_right_ne_nil _ (List.cons_ne_nil _ _)),
    trimEnd_concat (by decide), stripDeleted_of_not_suffix (not_deleted_suffix_concat (by decide))]

theorem readColumn_pseudo_plain {name : List Char} {inline : '\n' ∉ name} (h : '/' ∉ name) :
    readColumn (Pathname.pseudo name inline).text = none := by
  have hdrop : (Pathname.pseudo name inline).text.dropWhile (· ≠ '/') = [] := by
    rw [List.dropWhile_eq_nil_iff]
    rintro c hc
    refine decide_eq_true ?_
    rintro rfl
    simp [Pathname.text, h] at hc
  rw [readColumn, hdrop, if_pos rfl]

theorem readColumn_file (path : AbsolutePath) (deleted : Bool) :
    readColumn (Pathname.file path deleted).text = some (reread path.chars deleted) := by
  obtain ⟨rest, hchars⟩ := List.head?_eq_some_iff.mp path.absolute
  have hdrop (more : List Char) : (path.chars ++ more).dropWhile (· ≠ '/') = path.chars ++ more := by
    rw [hchars, List.cons_append, List.dropWhile_cons_of_neg (by decide)]
  rw [readColumn, Pathname.text, hdrop, if_neg (List.append_ne_nil_of_left_ne_nil path.ne_nil _)]
  cases deleted with
  | false => rw [if_neg Bool.false_ne_true, List.append_nil, reread, if_neg Bool.false_ne_true]
  | true =>
    have hmark : path.chars ++ " (deleted)".toList =
        path.chars ++ [' '] ++ "(deleted)".toList := by
      rw [List.append_assoc]
      rfl
    have hkept : trimEnd (path.chars ++ [' '] ++ "(deleted)".toList) =
        path.chars ++ [' '] ++ "(deleted)".toList :=
      trimEnd_eq_self_iff.mpr fun c hc => by
        rw [List.getLast?_append] at hc
        cases hc
        decide
    rw [if_pos rfl, hmark, hkept, stripDeleted_append, trimEnd,
      List.rdropWhile_concat_pos _ _ _ (by decide), reread, if_pos rfl, trimEnd]

/-- A legible pathname gives the path of the file. -/
theorem readColumn_legible {p : Pathname} (h : p.Legible) : readColumn p.text = p.path := by
  cases p with
  | empty => exact readColumn_empty
  | pseudo name inline => exact readColumn_pseudo_plain h
  | file path deleted =>
    exact (readColumn_file path deleted).trans (congrArg some (reread_eq_self_iff.mpr h))

/-- The file name read is right for the legible pathnames only. -/
theorem fileName_readColumn_iff {p : Pathname} :
    (readColumn p.text).bind fileName = p.path.bind fileName ↔ p.Legible := by
  refine ⟨fun h => ?_, fun h => by rw [readColumn_legible h]⟩
  cases p with
  | empty => trivial
  | pseudo name inline =>
    intro hslash
    rw [readColumn_pseudo_slash hslash, Option.bind_some, fileName_eq_some (by simp) (by simp)] at h
    cases h
  | file path deleted =>
    rw [readColumn_file] at h
    exact fileName_reread_eq_iff.mp h

end Columns

section Sections

theorem mapM_map_eq_some {α β γ : Type} {f : β → Option γ} {line : α → β} {g : α → γ}
    (h : ∀ x, f (line x) = some (g x)) (xs : List α) : (xs.map line).mapM f = some (xs.map g) := by
  induction xs with
  | nil => rfl
  | cons x xs ih =>
    rw [List.map_cons, List.mapM_cons, h x, ih]
    rfl

theorem mappingSection_text (r : MapsRecord) : mappingSection (stripReturn r.text) =
    some (some (r.section (readColumn r.pathname.text))) := by
  obtain ⟨rest, hrest, hread⟩ := exists_stripReturn_text r
  rw [hrest, mappingSection_columns, hread]

/-- A section for each record, of the path read. -/
theorem parseMapsSections_render (records : List MapsRecord) :
    parseMapsSections (render records) =
      some (records.map fun r => r.section (readColumn r.pathname.text)) := by
  rw [parseMapsSections, lines_render, mapM_map_eq_some mappingSection_text, Option.map_some]
  refine congrArg some ?_
  induction records with
  | nil => rfl
  | cons r records ih => exact congrArg (List.cons _) ih

theorem section_eq_iff {r : MapsRecord} :
    r.section (readColumn r.pathname.text) = r.section r.pathname.path ↔
      (r.shared = false → r.pathname.Legible) := by
  constructor
  · intro h hprivate
    have hmodule := congrArg Section.module h
    simp only [MapsRecord.section, hprivate, Bool.false_eq_true, if_false] at hmodule
    exact fileName_readColumn_iff.mp hmodule
  · intro h
    cases hshared : r.shared with
    | false => rw [readColumn_legible (h hshared)]
    | true => simp [MapsRecord.section, hshared]

end Sections

section Modules

/-- The module of a path, of the mappings of its file. -/
def moduleOf (path : List Char) (own : List MapsRecord) : RawModule where
  name := (fileName path).getD []
  base := ((own.find? (·.offset = 0)).map MapsRecord.start).getD
    ((own.map MapsRecord.start).min?.getD 0)
  stop := (own.map MapsRecord.stop).max?.getD 0

/-- A module for each path, in the order in which they come. -/
def modulesOf (path : MapsRecord → Option (List Char)) (records : List MapsRecord) :
    List RawModule :=
  (firstSeen (records.filterMap path)).map fun p =>
    moduleOf p (records.filter fun r => path r = some p)

/-- The path a record is read with; one without a file name is passed over. -/
def MapsRecord.readPath (r : MapsRecord) : Option (List Char) :=
  (readColumn r.pathname.text).filter fun p => (fileName p).isSome

def MapsRecord.mapping (r : MapsRecord) (path : List Char) : FileMapping :=
  ⟨path, (fileName path).getD [], r.start, r.stop, r.offset⟩

theorem readPath_mapping (r : MapsRecord) :
    (readColumn r.pathname.text).bind r.fileMapping = r.readPath.map r.mapping := by
  rw [MapsRecord.readPath]
  cases readColumn r.pathname.text with
  | none => rfl
  | some p =>
    simp only [Option.bind_some, MapsRecord.fileMapping, Option.filter_some]
    cases hname : fileName p <;> simp [MapsRecord.mapping, hname]

/-- The mappings that a text of records gives to the modules. -/
def mappings (records : List MapsRecord) : List FileMapping :=
  records.filterMap fun r => r.readPath.map r.mapping

theorem filterMap_fileMapping (records : List MapsRecord) :
    (lines (render records)).filterMap fileMapping =
      mappings records := by
  rw [lines_render, List.filterMap_map, mappings]
  refine List.filterMap_congr fun r _ => ?_
  obtain ⟨rest, hrest, hread⟩ := exists_stripReturn_text r
  rw [Function.comp_apply, hrest, fileMapping_columns, hread, readPath_mapping]

theorem filter_path (records : List MapsRecord) (p : List Char) :
    (mappings records).filter (fun m => m.path = p) =
      (records.filter fun r => r.readPath = some p).map fun r => r.mapping p := by
  rw [mappings]
  induction records with
  | nil => rfl
  | cons r rs ih =>
    cases hread : r.readPath with
    | none => simp [hread, ih]
    | some q =>
      by_cases hq : q = p
      · subst hq
        simp [hread, ih, MapsRecord.mapping]
      · simp [hread, ih, MapsRecord.mapping, hq]

theorem foldl_extend (p : List Char) (own : List MapsRecord) (a : Acc) :
    (own.map fun r => r.mapping p).foldl (fun a m => m.extend a) a =
      ⟨a.name, a.imageBase.or ((own.find? (·.offset = 0)).map MapsRecord.start),
        (own.map MapsRecord.start).foldl min a.lowest,
        (own.map MapsRecord.stop).foldl max a.stop⟩ := by
  induction own generalizing a with
  | nil => simp
  | cons r rs ih =>
    rw [List.map_cons, List.foldl_cons, ih]
    by_cases hzero : r.offset = 0
    · cases hbase : a.imageBase <;> simp [FileMapping.extend, MapsRecord.mapping, hzero, hbase]
    · simp [FileMapping.extend, MapsRecord.mapping, hzero]

theorem gather_mapping (p : List Char) {own : List MapsRecord} (h : own ≠ []) :
    (gather FileMapping.acc FileMapping.extend (own.map fun r => r.mapping p)).map
      Acc.rawModule = some (moduleOf p own) := by
  obtain ⟨r, rs, rfl⟩ := List.exists_cons_of_ne_nil h
  have hfold := foldl_extend p (r :: rs) (r.mapping p).acc
  rw [List.map_cons] at hfold ⊢
  rw [gather, hfold, Option.map_some, Acc.rawModule, moduleOf]
  simp only [FileMapping.acc, MapsRecord.mapping, Option.none_or, List.map_cons, List.foldl_cons,
    min_self, max_self, List.min?_cons', List.max?_cons', Option.getD_some]

theorem paths_mappings (records : List MapsRecord) :
    (mappings records).map FileMapping.path = records.filterMap MapsRecord.readPath := by
  rw [mappings, List.map_filterMap]
  refine List.filterMap_congr fun r _ => ?_
  cases r.readPath <;> rfl

theorem gather_mappings {records : List MapsRecord} {p : List Char}
    (h : p ∈ firstSeen (records.filterMap MapsRecord.readPath)) :
    (gather FileMapping.acc FileMapping.extend
      ((mappings records).filter fun m => m.path = p)).map Acc.rawModule =
      some (moduleOf p (records.filter fun r => r.readPath = some p)) := by
  obtain ⟨r, hr, hread⟩ := List.mem_filterMap.mp (mem_firstSeen.mp h)
  rw [filter_path]
  exact gather_mapping p (List.ne_nil_of_mem (List.mem_filter.mpr ⟨hr, decide_eq_true hread⟩))

theorem foldl_mergeLine (ls : List (List Char)) :
    ls.foldl mergeLine .empty =
      putAll FileMapping.path FileMapping.acc FileMapping.extend (ls.filterMap fileMapping) := by
  rw [putAll, List.foldl_filterMap]
  refine congrArg (fun f => ls.foldl f Table.empty) (funext fun acc => funext fun line => ?_)
  rw [mergeLine]
  cases fileMapping line <;> rfl

/-- The modules are those of the paths read. -/
theorem parseMapsModules_render (records : List MapsRecord) :
    parseMapsModules (render records) = modulesOf MapsRecord.readPath records := by
  rw [parseMapsModules, foldl_mergeLine, filterMap_fileMapping, values_putAll, paths_mappings,
    List.map_filterMap, modulesOf]
  refine (List.filterMap_congr fun p hp => gather_mappings hp).trans ?_
  exact congrFun List.filterMap_eq_map _

theorem names_modulesOf_single (path : MapsRecord → Option (List Char)) (r : MapsRecord) :
    (modulesOf path [r]).map RawModule.name =
      ((path r).map fun p => (fileName p).getD []).toList := by
  cases hpath : path r with
  | none => simp [modulesOf, hpath]
  | some p => simp [modulesOf, moduleOf, hpath]

theorem modulesOf_congr {path path' : MapsRecord → Option (List Char)} {records : List MapsRecord}
    (h : ∀ r ∈ records, path r = path' r) : modulesOf path records = modulesOf path' records := by
  have hfilter (p : List Char) : (records.filter fun r => path r = some p) =
      records.filter fun r => path' r = some p :=
    List.filter_congr fun r hr => by rw [h r hr]
  simp only [modulesOf, hfilter, List.filterMap_congr h]

theorem fileName_path {p : Pathname} {path : List Char} (h : p.path = some path) :
    (fileName path).isSome := by
  cases p with
  | empty => cases h
  | pseudo => cases h
  | file abs deleted =>
    cases h
    rw [abs.fileName_eq]
    rfl

theorem readPath_legible {r : MapsRecord} (h : r.pathname.Legible) :
    r.readPath = r.pathname.path := by
  rw [MapsRecord.readPath, readColumn_legible h]
  cases hpath : r.pathname.path with
  | none => rfl
  | some path => rw [Option.filter_some, if_pos (fileName_path hpath)]

theorem names_read_eq_iff {r : MapsRecord} :
    (modulesOf MapsRecord.readPath [r]).map RawModule.name =
      (modulesOf (fun r => r.pathname.path) [r]).map RawModule.name ↔ r.pathname.Legible := by
  have hread : (r.readPath.map fun p => (fileName p).getD []).toList =
      ((readColumn r.pathname.text).bind fileName).toList := by
    rw [MapsRecord.readPath]
    cases readColumn r.pathname.text with
    | none => rfl
    | some p => cases hp : fileName p <;> simp [hp]
  have hpath : (r.pathname.path.map fun p => (fileName p).getD []).toList =
      (r.pathname.path.bind fileName).toList := by
    cases hp : r.pathname.path with
    | none => rfl
    | some p =>
      obtain ⟨name, hname⟩ := Option.isSome_iff_exists.mp (fileName_path hp)
      simp [hname]
  rw [names_modulesOf_single, names_modulesOf_single, hread, hpath, ← fileName_readColumn_iff]
  exact ⟨fun h => by simpa using congrArg List.head? h, congrArg Option.toList⟩

end Modules

/-- What the parsers should make of the records. -/
structure Recovers (records : List MapsRecord) : Prop where
  sections : parseMapsSections (render records) =
    some (records.map fun r => r.section r.pathname.path)
  modules : parseMapsModules (render records) = modulesOf (fun r => r.pathname.path) records

theorem recovers_iff {records : List MapsRecord} :
    Recovers records ↔ (∀ r ∈ records, r.shared = false → r.pathname.Legible) ∧
      modulesOf MapsRecord.readPath records =
        modulesOf (fun r => r.pathname.path) records := by
  have hsections : parseMapsSections (render records) =
      some (records.map fun r => r.section r.pathname.path) ↔
        ∀ r ∈ records, r.shared = false → r.pathname.Legible := by
    rw [parseMapsSections_render, Option.some_inj, List.map_inj_left]
    exact forall₂_congr fun r _ => section_eq_iff
  rw [← hsections, ← parseMapsModules_render]
  exact ⟨fun h => ⟨h.sections, h.modules⟩, fun h => ⟨h.1, h.2⟩⟩

theorem recovers_of_legible {records : List MapsRecord}
    (h : ∀ r ∈ records, r.pathname.Legible) : Recovers records :=
  recovers_iff.mpr ⟨fun r hr _ => h r hr, modulesOf_congr fun r hr => readPath_legible (h r hr)⟩

/-- Anonymous memory named `cache/0`. -/
def slashed : MapsRecord where
  start := 0x7f0000000000
  stop := 0x7f0000001000
  read := true
  write := true
  exec := false
  shared := false
  offset := 0
  major := 0
  minor := 0
  inode := 0
  padding := 25
  pathname := .pseudo "anon:cache/0".toList (by decide)
  nonempty := by decide
  stop_word := by decide
  offset_word := by decide

end Nemclass.Process
