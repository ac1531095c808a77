import Nemclass.Codegen.CommentPieces

/-! Every piece of a generated source ends its line, and every slot puts what is filled
in into a comment. The brace of a Rust struct is the only code behind a slot. -/
namespace Nemclass.Codegen
open Model LineComments

section Printable
variable (ends : LineEnds)

theorem digitChar_upper : ∀ d < 16, ' ' ≤ d.digitChar.toUpper ∧ d.digitChar.toUpper ≤ '~' := by
  decide

theorem mem_toDigits {c : Char} {n : ℕ} (h : c ∈ Nat.toDigits 16 n) :
    ∃ d < 16, c = d.digitChar := by
  induction n using Nat.strong_induction_on with
  | _ n ih =>
    by_cases hlt : n < 16
    · rw [Nat.toDigits_of_lt_base hlt, List.mem_singleton] at h
      exact ⟨n, hlt, h⟩
    · rw [Nat.toDigits_of_base_le (by decide) (Nat.not_lt.mp hlt), List.mem_append,
        List.mem_singleton] at h
      rcases h with h | h
      · exact ih (n / 16) (Nat.div_lt_self (by omega) (by decide)) h
      · exact ⟨n % 16, Nat.mod_lt n (by decide), h⟩

theorem inline_hexUpper (width n : ℕ) : ends.Inline (hexUpper width n).toList := by
  rw [hexUpper, String.toList_ofList]
  refine LineEnds.inline_append.mpr ⟨fun c hc => ?_, fun c hc => ?_⟩
  · rw [List.eq_of_mem_replicate hc]
    exact ends.printable '0' (by decide) (by decide)
  · obtain ⟨digit, hdigit, rfl⟩ := List.mem_map.mp hc
    obtain ⟨d, hd, rfl⟩ := mem_toDigits hdigit
    exact ends.printable _ (digitChar_upper d hd).1 (digitChar_upper d hd).2

/-- No slash is left in an identifier. -/
theorem slash_sanitizeIdent [UnicodeTables] (name : String) :
    '/' ∉ (sanitizeIdent name).toList := by
  have halpha : UnicodeTables.isAlphanumeric '/' = false :=
    UnicodeTables.isAlphanumeric_ascii '/' (by decide)
  have hmap : '/' ∉ name.toList.map
      fun c => if UnicodeTables.isAlphanumeric c || c == '_' then c else '_' := by
    intro h
    obtain ⟨c, -, hc⟩ := List.mem_map.mp h
    split at hc
    · next hkept =>
      rw [hc, halpha] at hkept
      exact absurd hkept (by decide)
    · exact absurd hc (by decide)
  rw [sanitizeIdent]
  split
  · decide
  · dsimp only
    split
    · rw [String.toList_ofList]
      exact List.not_mem_cons_of_ne_of_not_mem (by decide) hmap
    · rw [String.toList_ofList]
      exact hmap

end Printable

section Lawful
variable {ends : LineEnds}

theorem inline_blank : ends.Inline [' '] := by
  simp [LineEnds.Inline, ends.blank]

theorem closes_newline (line : List Char) : ends.Closes (line ++ ['\n']) :=
  ⟨line, '\n', ends.newline, rfl⟩

/-- A remark is empty or a comment, so no code stands behind the slot of a field. -/
theorem csharpRemark_cases (kind : FieldKind) : csharpRemark kind = "" ∨
    ∃ text : List Char, (csharpRemark kind).toList = ' ' :: '/' :: '/' :: text := by
  cases kind with
  | utf16Text => exact .inr ⟨" UTF-16 LE".toList, by simp [csharpRemark]⟩
  | matrix rows cols =>
    refine .inr ⟨(" " ++ toString rows ++ "x" ++ toString cols ++ " row-major").toList, ?_⟩
    simp [csharpRemark]
  | _ => exact .inl rfl

theorem csharp_not_exposed (before opener : List Char) (kind : FieldKind) :
    ¬ Slot.Exposed ends ⟨before, opener, (csharpRemark kind).toList ++ ['\n']⟩ := by
  rcases csharpRemark_cases kind with hnone | ⟨text, hremark⟩
  · rw [hnone]
    exact Slot.not_exposed_end _ _ _ ends.newline
  · rw [hremark]
    refine Slot.not_exposed_trailing _ _ (by simp) ?_
    rw [List.cons_append, List.cons_append, List.cons_append, stripComments_blank_comment]
    exact afterComment_head _

theorem inline_offset {lead : String} (hlead : ∀ c ∈ lead.toList, ' ' ≤ c ∧ c ≤ '~')
    (width n : ℕ) : ends.Inline (lead ++ hexUpper width n).toList := by
  rw [String.toList_append]
  exact LineEnds.inline_append.mpr
    ⟨LineEnds.inline_of_printable hlead, inline_hexUpper ends width n⟩

theorem fieldPiece_lawful (language : Language) (f : FieldInfo) :
    (fieldPiece language f).Lawful ends := by
  cases language with
  | cpp =>
    exact Slot.Lawful.of_comment (inline_offset (by simp) 4 f.offset) inline_blank ends.newline
  | rust =>
    exact Slot.Lawful.of_comment (inline_offset (by simp) 4 f.offset) inline_blank ends.newline
  | csharp =>
    exact Slot.Lawful.of_opener (fun _ h => nomatch h) (closes_newline _)
      fun h => absurd h (csharp_not_exposed _ _ f.kind)

theorem fieldPiece_fits (language : Language) (f : FieldInfo) :
    (fieldPiece language f).Fits ends ↔ ends.Inline f.comment.toList := by
  cases language with
  | cpp =>
    exact and_iff_left fun h => absurd h (Slot.not_exposed_end _ _ _ ends.newline)
  | rust =>
    exact and_iff_left fun h => absurd h (Slot.not_exposed_end _ _ _ ends.newline)
  | csharp =>
    exact and_iff_left fun h => absurd h (csharp_not_exposed _ _ f.kind)

theorem headEnd_eq : (headEnd .cpp).toList = '\n' :: "\x7b\npublic:\n".toList ∧
    (headEnd .csharp).toList = '\n' :: "\x7b\n".toList ∧
    (headEnd .rust).toList = [' ', '\x7b', '\n'] := by decide

theorem strip_headEnd_rust (ends : LineEnds) :
    stripComments ends (headEnd .rust).toList = [' ', '\x7b', '\n'] ∧
      afterComment ends (headEnd .rust).toList = ['\n'] := by
  have hbrace : ends.isEnd '\x7b' = false := ends.printable '\x7b' (by decide) (by decide)
  have hnewline : stripComments ends ['\n'] = ['\n'] := stripComments_cons_end ends.newline []
  rw [headEnd_eq.2.2]
  constructor
  · simp [stripComments, hbrace]
  · rw [afterComment_cons ends.blank, afterComment_cons hbrace, afterComment, hnewline]
    exact fromLineEnd_cons_end ends.newline []

/-- The brace stands behind the comment. -/
theorem headSlot_rust_loses (ends : LineEnds) {name : String} (hname : '/' ∉ name.toList) :
    solid ((headSlot .rust name).cut ends) < solid ((headSlot .rust name).bare ends) := by
  obtain ⟨hstrip, hafter⟩ := strip_headEnd_rust ends
  have hslash : '/' ∉ (headStart .rust name).toList := by
    show '/' ∉ ("#[repr(C)]\npub struct " ++ name).toList
    rw [String.toList_append, List.mem_append, not_or]
    exact ⟨by decide, hname⟩
  have hsolid : solid (afterComment ends (headEnd .rust).toList) <
      solid (stripComments ends (headEnd .rust).toList) := by
    rw [hstrip, hafter]
    decide
  rw [headSlot]
  exact Slot.solid_cut_lt _ hslash hsolid

theorem headSlot_exposed {language : Language} {name : String} (hname : '/' ∉ name.toList) :
    (headSlot language name).Exposed ends ↔ language = .rust := by
  cases language with
  | cpp =>
    rw [headSlot, headEnd_eq.1]
    exact iff_of_false (Slot.not_exposed_end _ _ _ ends.newline) (by decide)
  | csharp =>
    rw [headSlot, headEnd_eq.2.1]
    exact iff_of_false (Slot.not_exposed_end _ _ _ ends.newline) (by decide)
  | rust => exact iff_of_true (Slot.exposed_of_solid_lt (headSlot_rust_loses ends hname)) rfl

theorem headSlot_lawful (language : Language) {name : String} (hname : '/' ∉ name.toList) :
    (headSlot language name).Lawful ends := by
  refine Slot.Lawful.of_opener inline_blank ?_ fun h => ?_
  · cases language with
    | cpp => exact closes_newline "\n\x7b\npublic:".toList
    | csharp => exact closes_newline "\n\x7b".toList
    | rust => exact closes_newline " \x7b".toList
  · obtain rfl := (headSlot_exposed hname).mp h
    exact headSlot_rust_loses ends hname

end Lawful

section Trim

/-- A text that ends in one blank line. -/
def EndsBlank (text : List Char) : Prop := ∃ code c, c ≠ '\n' ∧ text = code ++ [c, '\n', '\n']

theorem EndsBlank.append_left {text : List Char} (h : EndsBlank text) (a : List Char) :
    EndsBlank (a ++ text) := by
  obtain ⟨code, c, hc, rfl⟩ := h
  exact ⟨a ++ code, c, hc, (List.append_assoc ..).symm⟩

theorem EndsBlank.append {text : String} (h : EndsBlank text.toList) (a : String) :
    EndsBlank (a ++ text).toList := by
  rw [String.toList_append]
  exact h.append_left a.toList

theorem EndsBlank.join {start : String} (hstart : EndsBlank start.toList) {texts : List String}
    (h : ∀ t ∈ texts, EndsBlank t.toList) : EndsBlank (start ++ String.join texts).toList := by
  rw [String.toList_append, String.toList_join]
  induction texts generalizing start with
  | nil => rwa [List.flatMap_nil, List.append_nil]
  | cons t texts ih =>
    obtain ⟨ht, htexts⟩ := List.forall_mem_cons.mp h
    rw [List.flatMap_cons]
    exact (ih ht htexts).append_left start.toList

theorem EndsBlank.closes {ends : LineEnds} {text : List Char} (h : EndsBlank text) :
    ends.Closes text := by
  obtain ⟨code, c, -, rfl⟩ := h
  exact ⟨code ++ [c, '\n'], '\n', ends.newline, by simp⟩

/-- Trimming takes the blank line away. -/
theorem trimBlankLines_append {text : List Char} (h : EndsBlank text) :
    trimBlankLines text ++ ['\n'] = text := by
  obtain ⟨code, c, hc, rfl⟩ := h
  simp [trimBlankLines, trimBlankLines.go, hc]

theorem strip_trimBlankLines {ends : LineEnds} {text : List Char} (h : EndsBlank text) :
    stripComments ends text = stripComments ends (trimBlankLines text) ++ ['\n'] := by
  have htrim := stripComments_append_end (trimBlankLines text) ends.newline []
  rwa [trimBlankLines_append h] at htrim

theorem classEnd_endsBlank (language : Language) (name : String) (size : ℕ) :
    EndsBlank (classEnd language name size).toList := by
  have hassert : EndsBlank ");\n\n".toList := ⟨[')'], ';', by decide, rfl⟩
  cases language with
  | cpp => exact hassert.append _
  | csharp =>
    show EndsBlank "\x7d\n\n".toList
    exact ⟨[], '\x7d', by decide, rfl⟩
  | rust => exact ((((hassert.append _).append _).append _).append _).append _

variable [UnicodeTables]

theorem csharpEnum_endsBlank (e : EnumDescription) : EndsBlank (csharpEnum e).toList :=
  EndsBlank.append ⟨[], '\x7d', by decide, rfl⟩ _

theorem rustEnum_endsBlank (e : EnumDescription) : EndsBlank (rustEnum e).toList := by
  have hend : EndsBlank "\x7d\n\n".toList := ⟨[], '\x7d', by decide, rfl⟩
  rw [rustEnum]
  split
  · exact hend.append _
  · exact hend.append _

theorem sourceStart_endsBlank (language : Language) (project : Project) :
    EndsBlank (sourceStart language project).toList := by
  cases language with
  | cpp =>
    have hpragma : EndsBlank "#pragma pack(push, 1)\n\n".toList :=
      ⟨"#pragma pack(push, 1".toList, ')', by decide, by simp⟩
    exact hpragma.append _
  | csharp =>
    have husing : EndsBlank "using System.Runtime.InteropServices;\n\n".toList :=
      ⟨"using System.Runtime.InteropServices".toList, ';', by decide, by simp⟩
    refine (husing.append _).join ?_
    simp only [List.forall_mem_map, csharpEnum_endsBlank, implies_true]
  | rust =>
    have hallow : EndsBlank
        "// Generated by nemclass-rs\n#![allow(non_camel_case_types, dead_code)]\n\n".toList :=
      ⟨"// Generated by nemclass-rs\n#![allow(non_camel_case_types, dead_code)".toList, ']',
        by decide, by simp⟩
    refine hallow.join ?_
    simp only [List.forall_mem_map, rustEnum_endsBlank, implies_true]

end Trim

section Project
variable [UuidText] [UnicodeTables] {ends : LineEnds} (language : Language) (project : Project)

/-- The sources that are trimmed end in one blank line. -/
theorem sourcePieces_endsBlank (hlanguage : sourceEnd language = []) :
    EndsBlank (piecesText (sourcePieces language project)) := by
  rw [sourcePieces_text, hlanguage, piecesText, List.flatMap_nil, List.append_nil]
  refine (sourceStart_endsBlank language project).join ?_
  intro t ht
  obtain ⟨c, -, rfl⟩ := List.mem_map.mp ht
  exact (classEnd_endsBlank language _ _).append _

theorem sourcePieces_lawful :
    ∀ piece ∈ sourcePieces language project, piece.Lawful ends := by
  have hclass : ∀ c, ∀ piece ∈ classPieces language project c, piece.Lawful ends := by
    intro c piece hpiece
    rw [classPieces, List.mem_cons, List.mem_append, List.mem_map, List.mem_singleton] at hpiece
    rcases hpiece with rfl | ⟨f, -, rfl⟩ | rfl
    · exact headSlot_lawful language (slash_sanitizeIdent c.name)
    · exact fieldPiece_lawful language f
    · exact (classEnd_endsBlank language _ _).closes
  intro piece hpiece
  rw [sourcePieces, List.mem_cons, List.mem_append, List.mem_flatMap] at hpiece
  rcases hpiece with rfl | ⟨c, -, hc⟩ | hend
  · exact (sourceStart_endsBlank language project).closes
  · exact hclass c piece hc
  · cases language with
    | cpp =>
      rw [sourceEnd, List.mem_singleton] at hend
      rw [hend]
      exact closes_newline "#pragma pack(pop)".toList
    | csharp => exact absurd hend List.not_mem_nil
    | rust => exact absurd hend List.not_mem_nil

end Project

end Nemclass.Codegen
