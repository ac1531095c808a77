import Nemclass.Codegen.ClassSize
import Nemclass.Codegen.CommentPieces

/-! Which names become one identifier. Replaced characters all read `_`, a leading
digit gets a `_` in front, and the empty name is spelled out: every clash of two
emitted names comes from one of these. -/
namespace Nemclass.Codegen
open Model

section Characters
variable [tables : UnicodeTables]

/-- The character that an identifier has for one of the name. -/
def identChar (c : Char) : Char := if tables.isAlphanumeric c || c == '_' then c else '_'

/-- The characters that are written `_`. -/
def Blank (c : Char) : Prop := tables.isAlphanumeric c = false ∨ c = '_'

theorem identChar_eq_underscore {c : Char} : identChar c = '_' ↔ Blank c := by
  unfold identChar Blank
  cases tables.isAlphanumeric c <;> simp

theorem identChar_of_not_blank {c : Char} (h : ¬Blank c) : identChar c = c := by
  unfold identChar
  unfold Blank at h
  simp_all

theorem identChar_eq_iff {c d : Char} :
    identChar c = identChar d ↔ c = d ∨ Blank c ∧ Blank d := by
  by_cases hc : Blank c <;> by_cases hd : Blank d
  · simp [identChar_eq_underscore.mpr hc, identChar_eq_underscore.mpr hd, hc, hd]
  · have hne : c ≠ d := fun h => hd (h ▸ hc)
    have hu : '_' ≠ d := fun h => hd (h ▸ .inr rfl)
    simp [identChar_eq_underscore.mpr hc, identChar_of_not_blank hd, hd, hne, hu]
  · have hne : c ≠ d := fun h => hc (h ▸ hd)
    have hu : c ≠ '_' := fun h => hc (h ▸ .inr rfl)
    simp [identChar_eq_underscore.mpr hd, identChar_of_not_blank hc, hc, hne, hu]
  · simp [identChar_of_not_blank hc, identChar_of_not_blank hd, hc]

theorem identChar_of_alphanum {c : Char} (h : c.isAlphanum) : identChar c = c := by
  have hascii : c.toNat < 128 := by
    have hupper : 'Z'.val.toNat = 90 := rfl
    have hlower : 'z'.val.toNat = 122 := rfl
    have hdigit : '9'.val.toNat = 57 := rfl
    change (decide ('A'.val ≤ c.val ∧ c.val ≤ 'Z'.val) || ('a'.val ≤ c.val && c.val ≤ 'z'.val) ||
      ('0'.val ≤ c.val && c.val ≤ '9'.val)) = true at h
    simp only [Bool.or_eq_true, Bool.and_eq_true, decide_eq_true_eq, UInt32.le_iff_toNat_le] at h
    show c.val.toNat < 128
    omega
  simp [identChar, tables.isAlphanumeric_ascii c hascii, h]

/-- A replaced character is no digit, and no digit is replaced. -/
theorem isDigit_identChar (c : Char) : (identChar c).isDigit = c.isDigit := by
  by_cases hb : Blank c
  · rw [identChar_eq_underscore.mpr hb]
    by_contra hne
    have hdigit : c.isDigit := by simpa using Ne.symm hne
    have hkept := identChar_of_alphanum (c := c) (by simp [Char.isAlphanum, hdigit])
    rw [← hkept, identChar_eq_underscore.mpr hb] at hdigit
    exact absurd hdigit (by decide)
  · rw [identChar_of_not_blank hb]

def startsWithDigit (chars : List Char) : Bool := chars.head?.any Char.isDigit

theorem startsWithDigit_map (chars : List Char) :
    startsWithDigit (chars.map identChar) = startsWithDigit chars := by
  cases chars with
  | nil => rfl
  | cons c cs => exact isDigit_identChar c

/-- Character by character one, up to what is written `_`. -/
def Alike : List Char → List Char → Prop := List.Forall₂ fun c d => c = d ∨ Blank c ∧ Blank d

theorem map_identChar_eq_iff {a b : List Char} :
    a.map identChar = b.map identChar ↔ Alike a b := by
  rw [← List.forall₂_eq_eq_eq, List.forall₂_map_left_iff, List.forall₂_map_right_iff]
  simp only [identChar_eq_iff]
  rfl

/-- The names that are written as one identifier. -/
inductive SameIdent : List Char → List Char → Prop where
  | alike {a b : List Char} (h : Alike a b) : SameIdent a b
  | digit {c : Char} {a b : List Char} (hc : Blank c) (hb : startsWithDigit b)
      (h : Alike a b) : SameIdent (c :: a) b
  | digit' {c : Char} {a b : List Char} (hc : Blank c) (ha : startsWithDigit a)
      (h : Alike a b) : SameIdent a (c :: b)
  | unnamed {b : List Char} (h : Alike "_unnamed".toList b) : SameIdent [] b
  | unnamed' {a : List Char} (h : Alike a "_unnamed".toList) : SameIdent a []

end Characters

/-- What is done with the replaced characters. -/
def finishIdent (out : List Char) : List Char :=
  if out = [] then "_unnamed".toList else if startsWithDigit out then '_' :: out else out

theorem finishIdent_nil : finishIdent [] = "_unnamed".toList := rfl

theorem finishIdent_digit {out : List Char} (h : startsWithDigit out) :
    finishIdent out = '_' :: out := by
  have hne : out ≠ [] := by
    rintro rfl
    exact absurd h (by decide)
  rw [finishIdent, if_neg hne, if_pos h]

theorem finishIdent_plain {out : List Char} (hne : out ≠ []) (h : ¬startsWithDigit out) :
    finishIdent out = out := by
  rw [finishIdent, if_neg hne, if_neg h]

/-- The three rules clash in these ways and no other. -/
theorem finishIdent_eq_iff {l m : List Char} :
    finishIdent l = finishIdent m ↔ l = m ∨
      (startsWithDigit m ∧ l = '_' :: m) ∨ (startsWithDigit l ∧ '_' :: l = m) ∨
      (l = [] ∧ "_unnamed".toList = m) ∨ (l = "_unnamed".toList ∧ m = []) := by
  have hunnamed : ∀ {out}, startsWithDigit out → '_' :: out ≠ "_unnamed".toList := by
    rintro out h heq
    rw [List.tail_eq_of_cons_eq heq] at h
    exact absurd h (by decide)
  have hfixed : finishIdent "_unnamed".toList = "_unnamed".toList := rfl
  have hdouble : ∀ {out}, startsWithDigit out → finishIdent ('_' :: out) = '_' :: out :=
    fun _ => finishIdent_plain (List.cons_ne_nil _ _) (by decide : ¬Char.isDigit '_')
  constructor
  · intro h
    by_cases hl : l = [] <;> by_cases hm : m = []
    · exact .inl (hl.trans hm.symm)
    · rw [hl, finishIdent_nil] at h
      by_cases hd : startsWithDigit m
      · exact absurd (h.trans (finishIdent_digit hd)).symm (hunnamed hd)
      · exact .inr (.inr (.inr (.inl ⟨hl, h.trans (finishIdent_plain hm hd)⟩)))
    · rw [hm, finishIdent_nil] at h
      by_cases hd : startsWithDigit l
      · exact absurd ((finishIdent_digit hd).symm.trans h) (hunnamed hd)
      · exact .inr (.inr (.inr (.inr ⟨(finishIdent_plain hl hd).symm.trans h, hm⟩)))
    · by_cases hdl : startsWithDigit l <;> by_cases hdm : startsWithDigit m
      · rw [finishIdent_digit hdl, finishIdent_digit hdm] at h
        exact .inl (List.tail_eq_of_cons_eq h)
      · rw [finishIdent_digit hdl, finishIdent_plain hm hdm] at h
        exact .inr (.inr (.inl ⟨hdl, h⟩))
      · rw [finishIdent_plain hl hdl, finishIdent_digit hdm] at h
        exact .inr (.inl ⟨hdm, h⟩)
      · rw [finishIdent_plain hl hdl, finishIdent_plain hm hdm] at h
        exact .inl h
  · rintro (rfl | ⟨hd, rfl⟩ | ⟨hd, rfl⟩ | ⟨rfl, rfl⟩ | ⟨rfl, rfl⟩)
    · rfl
    · rw [hdouble hd, finishIdent_digit hd]
    · rw [hdouble hd, finishIdent_digit hd]
    · exact finishIdent_nil.trans hfixed.symm
    · exact hfixed.trans finishIdent_nil.symm

section Identifiers
variable [tables : UnicodeTables]

theorem sanitizeIdent_eq (name : String) :
    sanitizeIdent name = String.ofList (finishIdent (name.toList.map identChar)) := by
  by_cases h : name = ""
  · subst h
    rfl
  · have hne : name.toList.map identChar ≠ [] := by simpa using h
    rw [sanitizeIdent, if_neg (by simpa using h), finishIdent, if_neg hne]
    rfl

theorem unnamed_map : "_unnamed".toList.map identChar = "_unnamed".toList := by
  have halphanum : "unnamed".toList.all Char.isAlphanum := by decide
  have hfixed : ∀ c ∈ "unnamed".toList, identChar c = c := fun c hc =>
    identChar_of_alphanum (List.all_eq_true.mp halphanum c hc)
  show identChar '_' :: "unnamed".toList.map identChar = '_' :: "unnamed".toList
  rw [identChar_eq_underscore.mpr (.inr rfl), List.map_congr_left hfixed, List.map_id']

theorem cons_underscore_eq {a out : List Char} :
    a.map identChar = '_' :: out ↔ ∃ c a', a = c :: a' ∧ Blank c ∧ a'.map identChar = out := by
  simp only [List.map_eq_cons_iff, identChar_eq_underscore]

/-- Two names give one identifier when they are written alike, and only then. -/
theorem sanitizeIdent_eq_iff {a b : String} :
    sanitizeIdent a = sanitizeIdent b ↔ SameIdent a.toList b.toList := by
  rw [sanitizeIdent_eq, sanitizeIdent_eq, String.ofList_inj, finishIdent_eq_iff,
    startsWithDigit_map, startsWithDigit_map, eq_comm (a := '_' :: _), cons_underscore_eq,
    cons_underscore_eq, List.map_eq_nil_iff, List.map_eq_nil_iff]
  generalize a.toList = l
  generalize b.toList = m
  constructor
  · rintro (h | ⟨hd, c, l', rfl, hc, h⟩ | ⟨hd, c, m', rfl, hc, h⟩ | ⟨rfl, h⟩ | ⟨h, rfl⟩)
    · exact .alike (map_identChar_eq_iff.mp h)
    · exact .digit hc hd (map_identChar_eq_iff.mp h)
    · exact .digit' hc hd (map_identChar_eq_iff.mp h.symm)
    · exact .unnamed (map_identChar_eq_iff.mp (unnamed_map.trans h))
    · exact .unnamed' (map_identChar_eq_iff.mp (h.trans unnamed_map.symm))
  · intro h
    cases h with
    | alike h => exact .inl (map_identChar_eq_iff.mpr h)
    | digit hc hd h => exact .inr (.inl ⟨hd, _, _, rfl, hc, map_identChar_eq_iff.mpr h⟩)
    | digit' hc hd h =>
      exact .inr (.inr (.inl ⟨hd, _, _, rfl, hc, (map_identChar_eq_iff.mpr h).symm⟩))
    | unnamed h =>
      exact .inr (.inr (.inr (.inl ⟨rfl, unnamed_map.symm.trans (map_identChar_eq_iff.mpr h)⟩)))
    | unnamed' h =>
      exact .inr (.inr (.inr (.inr ⟨(map_identChar_eq_iff.mpr h).trans unnamed_map, rfl⟩)))

/-- No two of the names give one identifier. -/
def Separate (names : List String) : Prop :=
  names.Pairwise fun a b => ¬SameIdent a.toList b.toList

theorem nodup_map_sanitizeIdent (names : List String) :
    (names.map sanitizeIdent).Nodup ↔ Separate names := by
  rw [List.Nodup, List.pairwise_map, Separate]
  simp only [ne_eq, sanitizeIdent_eq_iff]

end Identifiers

section Emitted
variable [UuidText] [UnicodeTables] (project : Project)

/-- The name of each class, and the names of its fields. -/
abbrev Names := List (String × List String)

/-- The names of the classes are distinct, and so are those of the fields in each. -/
def Names.Distinct (names : Names) : Prop :=
  (names.map Prod.fst).Nodup ∧ ∀ entry ∈ names, entry.2.Nodup

def givenNames : Names := project.classesInOrder.map fun c => (c.name, c.children.map Node.name)

/-- The names in the declarations that a generator writes. -/
def emittedNames : Language → Names
  | .cpp => project.classesInOrder.map fun c =>
    ((cppClass project c).name, (cppClass project c).fields.map CppField.name)
  | .csharp => project.classesInOrder.map fun c =>
    ((csharpStruct project c).name, (csharpStruct project c).fields.map CSharpField.name)
  | .rust => project.classesInOrder.map fun c =>
    ((rustStruct project c).name, (rustStruct project c).fields.map RustField.name)

theorem resolveFields_names (c : ClassNode) :
    (resolveFields project c).map FieldInfo.name =
      (c.children.map Node.name).map sanitizeIdent := by
  unfold resolveFields
  generalize 0 = offset
  induction c.children generalizing offset with
  | nil => rfl
  | cons n ns ih =>
    rw [resolveFieldsFrom_cons, List.map_cons, ih]
    rfl

/-- Every generator writes the identifiers of the given names, in their order. -/
theorem emittedNames_eq (language : Language) :
    emittedNames project language =
      (givenNames project).map fun entry =>
        (sanitizeIdent entry.1, entry.2.map sanitizeIdent) := by
  rw [givenNames, List.map_map]
  cases language with
  | cpp =>
    refine List.map_congr_left fun c _ => Prod.ext rfl ?_
    show ((resolveFields project c).map cppField).map CppField.name = _
    rw [List.map_map]
    exact resolveFields_names project c
  | csharp =>
    refine List.map_congr_left fun c _ => Prod.ext rfl ?_
    show ((resolveFields project c).map csharpField).map CSharpField.name = _
    rw [List.map_map]
    exact resolveFields_names project c
  | rust =>
    refine List.map_congr_left fun c _ => Prod.ext rfl ?_
    show ((resolveFields project c).map rustField).map RustField.name = _
    rw [List.map_map]
    exact resolveFields_names project c

/-- The generated names are distinct when no two given ones are written alike. -/
theorem emittedNames_distinct_iff (language : Language) :
    (emittedNames project language).Distinct ↔
      Separate ((givenNames project).map Prod.fst) ∧
        ∀ entry ∈ givenNames project, Separate entry.2 := by
  rw [emittedNames_eq, Names.Distinct, List.map_map, List.forall_mem_map]
  simp only [← nodup_map_sanitizeIdent, List.map_map, Function.comp_def]

end Emitted

section Spaced
attribute [local instance] hyphenatedText asciiTables

/-- Two fields that differ in one replaced character. -/
def spacedClass : ClassNode :=
  ⟨nodeUuid, "Node", "", "", [.simple .int32 "max hp" "", .simple .int32 "max-hp" ""]⟩

def spacedProject : Project := (Project.new "p").addClass spacedClass

theorem spacedProject_collides : (givenNames spacedProject).Distinct ∧
    ∀ language, ¬(emittedNames spacedProject language).Distinct := by
  have hgiven : givenNames spacedProject = [("Node", ["max hp", "max-hp"])] := rfl
  refine ⟨by rw [hgiven]; exact ⟨by decide, by decide⟩, fun language hdistinct => ?_⟩
  have hboth : sanitizeIdent "max hp" = sanitizeIdent "max-hp" := by decide
  have hfields := hdistinct.2 (sanitizeIdent "Node", ["max hp", "max-hp"].map sanitizeIdent)
    (by rw [emittedNames_eq, hgiven]; exact List.mem_singleton_self _)
  exact List.not_nodup_cons_of_mem (List.mem_singleton.mpr hboth) hfields

end Spaced

end Nemclass.Codegen
