import Nemclass.Codegen.ClassSize
import Nemclass.Codegen.CommentLaws

/-! Comments and the code around them. Two sources of projects that differ only in
comments have the same code as long as no comment has a line end in it and, in
Rust, no class has a comment. -/
namespace Nemclass.Codegen
open Model LineComments

section Pieces

theorem fieldPiece_uncommented (language : Language) (f : FieldInfo) :
    (fieldPiece language f.uncommented).uncommented = (fieldPiece language f).uncommented := by
  cases language <;> rfl

section Project
variable [UuidText] [UnicodeTables] {ends : LineEnds} (language : Language) (project : Project)

theorem classPieces_uncommented (c : ClassNode) :
    (classPieces language project.uncommented c.uncommented).map Piece.uncommented =
      (classPieces language project c).map Piece.uncommented := by
  have hfields (p : Project) (d : ClassNode) :
      ((resolveFields p d).map (fieldPiece language)).map Piece.uncommented =
        ((resolveFields p d).map FieldInfo.uncommented).map
          fun f => (fieldPiece language f).uncommented := by
    rw [List.map_map, List.map_map]
    exact List.map_congr_left fun f _ => (fieldPiece_uncommented language f).symm
  rw [classPieces, classPieces, List.map_cons, List.map_cons, List.map_append, List.map_append,
    hfields, hfields, resolveFields_uncommented, resolvedClassSize_uncommented]
  exact rfl

/-- Removing all comments changes the pieces in their comments only. -/
theorem sourcePieces_uncommented :
    (sourcePieces language project.uncommented).map Piece.uncommented =
      (sourcePieces language project).map Piece.uncommented := by
  have hstart : sourceStart language project.uncommented = sourceStart language project := by
    cases language <;> rfl
  simp only [sourcePieces, List.map_cons, List.map_append, hstart,
    Project.classesInOrder_uncommented, List.flatMap_map, List.map_flatMap,
    classPieces_uncommented]

theorem strip_generate_iff (p q : Project) :
    stripComments ends (generate language p).toList =
        stripComments ends (generate language q).toList ↔
      stripComments ends (piecesText (sourcePieces language p)) =
        stripComments ends (piecesText (sourcePieces language q)) := by
  cases language with
  | cpp => rw [generate, generate, cppGenerate_toList, cppGenerate_toList]
  | csharp =>
    have hp := sourcePieces_endsBlank .csharp p rfl
    have hq := sourcePieces_endsBlank .csharp q rfl
    rw [generate, generate, csharpGenerate_toList, csharpGenerate_toList,
      strip_trimBlankLines hp, strip_trimBlankLines hq, List.append_left_inj]
  | rust =>
    have hp := sourcePieces_endsBlank .rust p rfl
    have hq := sourcePieces_endsBlank .rust q rfl
    rw [generate, generate, rustGenerate_toList, rustGenerate_toList,
      strip_trimBlankLines hp, strip_trimBlankLines hq, List.append_left_inj]

end Project

end Pieces

/-- No comment that is written out has a line end, and in Rust no class has a comment. -/
def CommentsFit (language : Language) (ends : LineEnds) (project : Project) : Prop :=
  ∀ c ∈ project.classesInOrder, ends.Inline c.comment.toList ∧
    (language = .rust → c.comment = "") ∧ ∀ n ∈ c.children, ends.Inline n.comment.toList

instance (language : Language) (ends : LineEnds) (project : Project) :
    Decidable (CommentsFit language ends project) :=
  inferInstanceAs (Decidable (∀ c ∈ project.classesInOrder, _ ∧ (_ → _) ∧ ∀ n ∈ c.children, _))

theorem uncommented_fit {ends : LineEnds} (language : Language) (project : Project) :
    CommentsFit language ends project.uncommented := by
  intro c hc
  rw [Project.classesInOrder_uncommented] at hc
  obtain ⟨d, -, rfl⟩ := List.mem_map.mp hc
  have hnil : ends.Inline "".toList := fun _ h => nomatch h
  refine ⟨hnil, fun _ => rfl, fun n hn => ?_⟩
  rw [ClassNode.uncommented, uncommentedNodes_eq_map] at hn
  obtain ⟨m, -, rfl⟩ := List.mem_map.mp hn
  rw [m.comment_uncommented]
  exact hnil

section Fit
variable [UuidText] [UnicodeTables] {ends : LineEnds} (language : Language) (project : Project)
  (htext : ∀ u : Uuid, ∀ c ∈ u.toString.toList, ' ' ≤ c ∧ c ≤ '~')

/-- Only an embed that cannot be resolved is noted. -/
theorem fieldKind_note (d : NodeDef) (contributedSize : ℕ) :
    (fieldKind project d contributedSize).2 = none ∨
      fieldKind project d contributedSize = instanceKind project (classUuidAttr d) := by
  rw [fieldKind]
  split
  case h_17 => exact .inr rfl
  case h_22 =>
    left
    split
    · rfl
    · split <;> rfl
  all_goals exact .inl rfl

include htext

theorem instanceKind_note {uuid : Option Uuid} {note : String}
    (h : (instanceKind project uuid).2 = some note) : ends.Inline note.toList := by
  refine LineEnds.inline_of_printable ?_
  cases uuid with
  | none =>
    obtain rfl : "UNRESOLVED (missing class_uuid)" = note := Option.some.inj h
    simp
  | some uuid =>
    rw [instanceKind] at h
    split at h
    · cases h
    · obtain rfl : "UNRESOLVED " ++ uuid.toString = note := Option.some.inj h
      rw [String.toList_append]
      exact List.forall_mem_append.mpr ⟨by simp, htext uuid⟩

/-- A field's comment has a line end exactly when the node's has. -/
theorem fieldInfo_inline (n : Node) (offset contributedSize : ℕ) :
    ends.Inline (fieldInfo project n offset contributedSize).comment.toList ↔
      ends.Inline n.comment.toList := by
  have hnote (note : String)
      (h : (fieldKind project n.toNodeDef contributedSize).2 = some note) :
      ends.Inline note.toList := by
    rcases fieldKind_note project n.toNodeDef contributedSize with hnone | hinstance
    · rw [hnone] at h
      cases h
    · rw [hinstance] at h
      exact instanceKind_note project htext h
  rw [fieldInfo]
  dsimp only
  split
  · exact Iff.rfl
  · next note h =>
    split
    · next hempty =>
      have hnil : n.comment = "" := by simpa using hempty
      rw [hnil]
      exact iff_of_true (hnote note h) fun _ hmem => absurd hmem List.not_mem_nil
    · rw [String.toList_append, String.toList_append, LineEnds.inline_append,
        LineEnds.inline_append]
      exact ⟨fun h => h.1.1, fun hcomment => ⟨⟨hcomment, inline_blank⟩, hnote note h⟩⟩

theorem resolveFieldsFrom_inline (offset : ℕ) (ns : List Node) :
    (∀ f ∈ resolveFieldsFrom project offset ∅ ns, ends.Inline f.comment.toList) ↔
      ∀ n ∈ ns, ends.Inline n.comment.toList := by
  induction ns generalizing offset with
  | nil => exact iff_of_true (fun _ h => nomatch h) fun _ h => nomatch h
  | cons n ns ih =>
    rw [resolveFieldsFrom_cons, List.forall_mem_cons, List.forall_mem_cons, ih,
      fieldInfo_inline project htext]

theorem classPieces_fits (c : ClassNode) :
    (∀ piece ∈ classPieces language project c, piece.Fits ends) ↔
      ends.Inline c.comment.toList ∧ (language = .rust → c.comment = "") ∧
        ∀ n ∈ c.children, ends.Inline n.comment.toList := by
  have hfields : (∀ f ∈ resolveFields project c, ends.Inline f.comment.toList) ↔
      ∀ n ∈ c.children, ends.Inline n.comment.toList :=
    resolveFieldsFrom_inline project htext 0 c.children
  have hhead : (Piece.spliced (headSlot language (sanitizeIdent c.name)) c.comment.toList).Fits
      ends ↔ ends.Inline c.comment.toList ∧ (language = .rust → c.comment = "") := by
    rw [Piece.Fits, headSlot_exposed (slash_sanitizeIdent c.name), String.toList_eq_nil_iff]
  have hend (text : List Char) : (Piece.fixed text).Fits ends ↔ True := Iff.rfl
  rw [classPieces, List.forall_mem_cons, List.forall_mem_append, hhead, List.forall_mem_map,
    List.forall_mem_singleton, hend, ← hfields, and_true, and_assoc]
  simp only [fieldPiece_fits]

theorem sourcePieces_fits :
    (∀ piece ∈ sourcePieces language project, piece.Fits ends) ↔
      CommentsFit language ends project := by
  have hend : ∀ piece ∈ sourceEnd language, piece.Fits ends := by
    cases language <;> simp [sourceEnd, Piece.Fits]
  rw [sourcePieces, List.forall_mem_cons, List.forall_mem_append, List.forall_mem_flatMap]
  simp only [classPieces_fits language project htext]
  exact ⟨fun h => h.2.1, fun h => ⟨trivial, h, hend⟩⟩

/-- Against a source whose comments fit, the code is the same exactly when the comments fit. -/
theorem strip_generate_iff_fit {p q : Project}
    (hsame : (sourcePieces language p).map Piece.uncommented =
      (sourcePieces language q).map Piece.uncommented) (hq : CommentsFit language ends q) :
    stripComments ends (generate language p).toList =
        stripComments ends (generate language q).toList ↔
      CommentsFit language ends p := by
  have hcode := (strip_uncommented_iff (sourcePieces_lawful language q)).mpr
    ((sourcePieces_fits language q htext).mpr hq)
  rw [strip_generate_iff, hcode, ← hsame,
    strip_uncommented_iff (sourcePieces_lawful language p), sourcePieces_fits language p htext]

end Fit

section Injection
attribute [local instance] hyphenatedText asciiTables

theorem hyphenated_printable (u : Uuid) : ∀ c ∈ u.toString.toList, ' ' ≤ c ∧ c ≤ '~' := by
  have hdigit : ∀ d < 16, ' ' ≤ d.digitChar ∧ d.digitChar ≤ '~' := by decide
  have hdigits (k n : ℕ) : ∀ c ∈ hexDigits k n, ' ' ≤ c ∧ c ≤ '~' := by
    induction k generalizing n with
    | zero => exact fun _ h => nomatch h
    | succ k ih =>
      rw [hexDigits]
      exact List.forall_mem_append.mpr ⟨ih (n / 16),
        List.forall_mem_singleton.mpr (hdigit _ (Nat.mod_lt n (by decide)))⟩
  have hkeep (k l : ℕ) : ∀ c ∈ ((hexDigits 32 u.bits.toNat).drop k).take l, ' ' ≤ c ∧ c ≤ '~' :=
    fun c hc => hdigits 32 _ c (List.mem_of_mem_drop (List.mem_of_mem_take hc))
  have hhyphen : ' ' ≤ '-' ∧ '-' ≤ '~' := by decide
  show ∀ c ∈ (hyphenated u).toList, _
  rw [hyphenated, String.toList_ofList, hyphenate]
  simp only [List.forall_mem_append, List.forall_mem_cons, hhyphen, true_and]
  exact ⟨hkeep 0 8, hkeep 8 4, hkeep 12 4, hkeep 16 4,
    fun c hc => hdigits 32 _ c (List.mem_of_mem_drop hc)⟩

/-- A project of one empty class with the given comment. -/
def commentedProject (comment : String) : Project :=
  (Project.new "p").addClass ⟨⟨1⟩, "Player", comment, "", []⟩

theorem commentedProject_uncommented (comment : String) :
    (commentedProject comment).uncommented = commentedProject "" := by
  simp only [commentedProject, Project.uncommented, Project.addClass, Project.new, Project.mk.injEq]
  refine ⟨trivial, ?_, trivial, trivial⟩
  funext u
  split
  · rfl
  · rfl

theorem commentedProject_changes {language : Language} {comment : String}
    (h : ¬ CommentsFit language .newlineOnly (commentedProject comment)) :
    stripComments .newlineOnly (generate language (commentedProject comment)).toList ≠
      stripComments .newlineOnly (generate language (commentedProject "")).toList := by
  have hsame : (sourcePieces language (commentedProject comment)).map Piece.uncommented =
      (sourcePieces language (commentedProject "")).map Piece.uncommented := by
    rw [← sourcePieces_uncommented, commentedProject_uncommented]
  have hplain : CommentsFit language .newlineOnly (commentedProject "") := by
    rw [← commentedProject_uncommented ""]
    exact uncommented_fit language _
  exact mt (strip_generate_iff_fit language hyphenated_printable hsame hplain).mp h

end Injection

end Nemclass.Codegen
