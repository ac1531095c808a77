import Mathlib.Data.List.Basic

/-! Line comments in a text. What starts a comment is the first `//` of a line,
and the comment runs up to the character that ends the line; which characters
end lines is up to the language. -/
namespace Nemclass.LineComments

/-- The characters that end a line; the printable ASCII characters do not. -/
structure LineEnds where
  isEnd : Char → Bool
  newline : isEnd '\n' = true
  printable : ∀ c, ' ' ≤ c → c ≤ '~' → isEnd c = false

namespace LineEnds

/-- Only the newline. -/
def newlineOnly : LineEnds where
  isEnd c := c == '\n'
  newline := rfl
  printable c hlow _ := by
    rw [beq_eq_false_iff_ne]
    rintro rfl
    exact absurd hlow (by decide)

variable (ends : LineEnds)

theorem slash : ends.isEnd '/' = false := ends.printable '/' (by decide) (by decide)

theorem blank : ends.isEnd ' ' = false := ends.printable ' ' (by decide) (by decide)

theorem ne_slash {c : Char} (h : ends.isEnd c = true) : c ≠ '/' := by
  rintro rfl
  rw [ends.slash] at h
  exact nomatch h

theorem ne_blank {c : Char} (h : ends.isEnd c = true) : c ≠ ' ' := by
  rintro rfl
  rw [ends.blank] at h
  exact nomatch h

/-- A text within one line. -/
def Inline (text : List Char) : Prop := ∀ c ∈ text, ends.isEnd c = false

instance (text : List Char) : Decidable (ends.Inline text) :=
  List.decidableBAll (fun c => ends.isEnd c = false) text

variable {ends}

theorem inline_append {a b : List Char} :
    ends.Inline (a ++ b) ↔ ends.Inline a ∧ ends.Inline b := List.forall_mem_append

theorem inline_cons {c : Char} {a : List Char} :
    ends.Inline (c :: a) ↔ ends.isEnd c = false ∧ ends.Inline a := List.forall_mem_cons

theorem inline_iff_countP {text : List Char} :
    ends.Inline text ↔ text.countP ends.isEnd = 0 := by
  simp [Inline, List.countP_eq_zero]

theorem inline_of_printable {text : List Char} (h : ∀ c ∈ text, ' ' ≤ c ∧ c ≤ '~') :
    ends.Inline text := fun c hc => ends.printable c (h c hc).1 (h c hc).2

end LineEnds

section Strip
variable (ends : LineEnds)

/-- What is left from the first line end on. -/
def fromLineEnd (code : List Char) : List Char := code.dropWhile fun c => !ends.isEnd c

/-- Removes every comment, and the blanks that then stand at the end of a line. -/
def stripComments : List Char → List Char
  | [] => []
  | c :: rest =>
    let code := stripComments rest
    if c = '/' ∧ rest.head? = some '/' then fromLineEnd ends code
    else if c = ' ' ∧ code.head?.all ends.isEnd = true then code
    else c :: code

variable {ends}

theorem fromLineEnd_cons {c : Char} (h : ends.isEnd c = false) (code : List Char) :
    fromLineEnd ends (c :: code) = fromLineEnd ends code := by
  simp [fromLineEnd, h]

theorem fromLineEnd_cons_end {c : Char} (h : ends.isEnd c = true) (code : List Char) :
    fromLineEnd ends (c :: code) = c :: code := by
  simp [fromLineEnd, h]

theorem fromLineEnd_head (code : List Char) :
    (fromLineEnd ends code).head?.all ends.isEnd = true := by
  induction code with
  | nil => rfl
  | cons c code ih =>
    cases h : ends.isEnd c with
    | false => rwa [fromLineEnd_cons h]
    | true =>
      rw [fromLineEnd_cons_end h]
      exact h

theorem fromLineEnd_eq_self {code : List Char} (h : code.head?.all ends.isEnd = true) :
    fromLineEnd ends code = code := by
  cases code with
  | nil => rfl
  | cons c code => exact fromLineEnd_cons_end h code

/-- A rest that starts with a line end stays whole. -/
theorem fromLineEnd_append (a : List Char) {b : List Char} (h : b.head?.all ends.isEnd = true) :
    fromLineEnd ends (a ++ b) = fromLineEnd ends a ++ b := by
  induction a with
  | nil => exact fromLineEnd_eq_self h
  | cons c a ih =>
    cases hc : ends.isEnd c with
    | false => rw [List.cons_append, fromLineEnd_cons hc, fromLineEnd_cons hc, ih]
    | true => rw [List.cons_append, fromLineEnd_cons_end hc, fromLineEnd_cons_end hc,
        List.cons_append]

theorem head_append_isEnd (a : List Char) {b : List Char} (h : b.head?.all ends.isEnd = true) :
    (a ++ b).head?.all ends.isEnd = a.head?.all ends.isEnd := by
  cases a with
  | nil => exact h
  | cons c a => rfl

/-- Stripping goes on as from the start where the rest is stripped to a line end. -/
theorem stripComments_append (a : List Char) {b : List Char} (hslash : b.head? ≠ some '/')
    (hend : (stripComments ends b).head?.all ends.isEnd = true) :
    stripComments ends (a ++ b) = stripComments ends a ++ stripComments ends b := by
  induction a with
  | nil => rfl
  | cons c a ih =>
    have hhead : (a ++ b).head? = some '/' ↔ a.head? = some '/' := by
      cases a with
      | nil => simpa using hslash
      | cons d a => rfl
    simp only [List.cons_append, stripComments, ih, hhead, head_append_isEnd _ hend,
      fromLineEnd_append _ hend]
    split
    · rfl
    · split <;> rfl

theorem stripComments_cons_end {c : Char} (h : ends.isEnd c = true) (rest : List Char) :
    stripComments ends (c :: rest) = c :: stripComments ends rest := by
  simp [stripComments, ends.ne_slash h, ends.ne_blank h]

/-- Up to a line end, what follows does not matter. -/
theorem stripComments_append_end (a : List Char) {c : Char} (h : ends.isEnd c = true)
    (b : List Char) :
    stripComments ends (a ++ c :: b) = stripComments ends a ++ c :: stripComments ends b := by
  rw [stripComments_append a, stripComments_cons_end h]
  · simpa using ends.ne_slash h
  · rw [stripComments_cons_end h]
    exact h

variable (ends) in
/-- What a comment that `text` starts in leaves of it. -/
def afterComment (text : List Char) : List Char := fromLineEnd ends (stripComments ends text)

theorem afterComment_head (text : List Char) :
    (afterComment ends text).head?.all ends.isEnd = true := fromLineEnd_head _

theorem afterComment_cons {c : Char} (h : ends.isEnd c = false) (text : List Char) :
    afterComment ends (c :: text) = afterComment ends text := by
  simp only [afterComment, stripComments]
  split
  · exact fromLineEnd_eq_self (fromLineEnd_head _)
  · split
    · rfl
    · exact fromLineEnd_cons h _

/-- Whatever a comment says up to the line end is dropped. -/
theorem afterComment_append {comment : List Char} (h : ends.Inline comment) (text : List Char) :
    afterComment ends (comment ++ text) = afterComment ends text := by
  induction comment with
  | nil => rfl
  | cons c comment ih =>
    obtain ⟨hc, hcomment⟩ := LineEnds.inline_cons.mp h
    rw [List.cons_append, afterComment_cons hc, ih hcomment]

theorem afterComment_inline {comment : List Char} (h : ends.Inline comment) :
    afterComment ends comment = [] := by
  have hall := afterComment_append h []
  rwa [List.append_nil] at hall

theorem stripComments_blank_comment (text : List Char) :
    stripComments ends (' ' :: '/' :: '/' :: text) = afterComment ends text := by
  have hslashes : stripComments ends ('/' :: '/' :: text) = afterComment ends text := by
    rw [stripComments]
    simp only [List.head?_cons, and_self, if_true]
    exact afterComment_cons ends.slash text
  rw [stripComments]
  simp [hslashes, afterComment_head]

/-- A comment set off by a blank is cut out of any text, whatever stands before it. -/
theorem stripComments_comment (a text : List Char) :
    stripComments ends (a ++ ' ' :: '/' :: '/' :: text) =
      stripComments ends a ++ afterComment ends text := by
  rw [stripComments_append a, stripComments_blank_comment]
  · simp
  · rw [stripComments_blank_comment]
    exact afterComment_head text

theorem countP_fromLineEnd (code : List Char) :
    (fromLineEnd ends code).countP ends.isEnd = code.countP ends.isEnd := by
  induction code with
  | nil => rfl
  | cons c code ih =>
    cases h : ends.isEnd c with
    | false => rw [fromLineEnd_cons h, ih, List.countP_cons_of_neg (by simp [h])]
    | true => rw [fromLineEnd_cons_end h]

/-- No line end is lost. -/
theorem countP_stripComments (text : List Char) :
    (stripComments ends text).countP ends.isEnd = text.countP ends.isEnd := by
  induction text with
  | nil => rfl
  | cons c rest ih =>
    rw [stripComments]
    split
    · next hcomment =>
      rw [countP_fromLineEnd, ih, hcomment.1, List.countP_cons_of_neg (by simp [ends.slash])]
    · split
      · next hblank =>
        rw [ih, hblank.1, List.countP_cons_of_neg (by simp [ends.blank])]
      · rw [List.countP_cons, List.countP_cons, ih]

/-- Text without slashes loses only blanks. -/
theorem countP_stripComments_append {solid : Char → Bool} (hblank : solid ' ' = false)
    {a : List Char} (ha : '/' ∉ a) (b : List Char) :
    (stripComments ends (a ++ b)).countP solid =
      a.countP solid + (stripComments ends b).countP solid := by
  induction a with
  | nil => simp
  | cons c a ih =>
    obtain ⟨hc, ha⟩ := not_or.mp (mt List.mem_cons.mpr ha)
    rw [List.cons_append, stripComments]
    rw [if_neg fun h => hc h.1.symm, List.countP_cons]
    split
    · next hdropped =>
      rw [ih ha, hdropped.1, hblank]
      simp
    · rw [List.countP_cons, ih ha]
      omega

end Strip

end Nemclass.LineComments
