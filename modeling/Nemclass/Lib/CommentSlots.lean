import Mathlib.Algebra.Order.BigOperators.Group.List
import Mathlib.Algebra.Order.Group.Nat
import Mathlib.Algebra.Ring.Nat
import Nemclass.Lib.LineComments

/-! Generated texts with comments spliced into them. A text is a list of pieces;
two texts whose pieces differ in their comments only are compared by what
stripping leaves of each. -/
namespace Nemclass.LineComments

/-- A place for a comment. The opener is written only if there is a comment. -/
structure Slot where
  before : List Char
  opener : List Char
  after : List Char
deriving DecidableEq, Repr

/-- How much of a code is not blank. -/
def solid (code : List Char) : ℕ := code.countP fun c => c != ' '

theorem solid_append (a b : List Char) : solid (a ++ b) = solid a + solid b := List.countP_append

/-- A text that ends its last line. -/
def LineEnds.Closes (ends : LineEnds) (text : List Char) : Prop :=
  ∃ line c, ends.isEnd c = true ∧ text = line ++ [c]

theorem LineEnds.Closes.append_left {ends : LineEnds} {text : List Char} (h : ends.Closes text)
    (a : List Char) : ends.Closes (a ++ text) := by
  obtain ⟨line, c, hc, rfl⟩ := h
  exact ⟨a ++ line, c, hc, (List.append_assoc ..).symm⟩

namespace Slot
variable (ends : LineEnds) (s : Slot)

def fill (comment : List Char) : List Char :=
  if comment.isEmpty then s.before ++ s.after
  else s.before ++ (s.opener ++ (comment ++ s.after))

/-- The code without a comment. -/
def bare : List Char := stripComments ends (s.before ++ s.after)

/-- The code with a comment, which takes the rest of its line. -/
def cut : List Char := stripComments ends s.before ++ afterComment ends s.after

/-- Code stands behind the comment, on its line. -/
def Exposed : Prop := s.cut ends ≠ s.bare ends

instance : Decidable (s.Exposed ends) := inferInstanceAs (Decidable (_ ≠ _))

/-- What is filled in stands in a comment, and the slot ends its line. -/
structure Lawful : Prop where
  inline_opener : ends.Inline s.opener
  opens : ∀ text, stripComments ends (s.before ++ (s.opener ++ text)) =
    stripComments ends s.before ++ afterComment ends text
  closes : ends.Closes s.after
  loses : s.Exposed ends → solid (s.cut ends) < solid (s.bare ends)

variable {ends s}

theorem fill_nil : s.fill [] = s.before ++ s.after := rfl

theorem fill_of_ne {comment : List Char} (h : comment ≠ []) :
    s.fill comment = s.before ++ (s.opener ++ (comment ++ s.after)) :=
  if_neg (mt List.isEmpty_iff.mp h)

theorem inline_commentOpener {opener : List Char} (h : ends.Inline opener) :
    ends.Inline (' ' :: '/' :: '/' :: opener) := by
  simp only [LineEnds.inline_cons, ends.blank, ends.slash, h, and_self]

theorem opens_comment (before : List Char) {opener : List Char} (h : ends.Inline opener)
    (text : List Char) :
    stripComments ends (before ++ ((' ' :: '/' :: '/' :: opener) ++ text)) =
      stripComments ends before ++ afterComment ends text := by
  rw [List.cons_append, List.cons_append, List.cons_append, stripComments_comment,
    afterComment_append h]

/-- A comment with no code behind it hides none. -/
theorem not_exposed_trailing (before opener : List Char) {after : List Char}
    (hslash : after.head? ≠ some '/')
    (hend : (stripComments ends after).head?.all ends.isEnd = true) :
    ¬ Exposed ends ⟨before, opener, after⟩ := by
  rw [Exposed, not_not, cut, bare, stripComments_append before hslash hend, afterComment,
    fromLineEnd_eq_self hend]

theorem not_exposed_end (before opener rest : List Char) {c : Char} (hc : ends.isEnd c = true) :
    ¬ Exposed ends ⟨before, opener, c :: rest⟩ := by
  refine not_exposed_trailing before opener ?_ ?_
  · simpa using ends.ne_slash hc
  · rw [stripComments_cons_end hc]
    exact hc

theorem solid_cut_lt {before after : List Char} (opener : List Char) (hslash : '/' ∉ before)
    (hloses : solid (afterComment ends after) < solid (stripComments ends after)) :
    solid (cut ends ⟨before, opener, after⟩) < solid (bare ends ⟨before, opener, after⟩) := by
  have hkept (b : List Char) : solid (stripComments ends (before ++ b)) =
      solid before + solid (stripComments ends b) :=
    countP_stripComments_append (by decide) hslash b
  have hbefore := hkept []
  rw [List.append_nil, stripComments] at hbefore
  have hnil : solid [] = 0 := rfl
  rw [cut, bare, hkept, solid_append, hbefore]
  dsimp only
  omega

theorem exposed_of_solid_lt (h : solid (s.cut ends) < solid (s.bare ends)) : s.Exposed ends := by
  intro hcut
  rw [hcut] at h
  exact Nat.lt_irrefl _ h

namespace Lawful

/-- A slot that opens a comment of its own. -/
theorem of_opener {before opener after : List Char} (hopener : ends.Inline opener)
    (hcloses : ends.Closes after)
    (hloses : Exposed ends ⟨before, ' ' :: '/' :: '/' :: opener, after⟩ →
      solid (cut ends ⟨before, ' ' :: '/' :: '/' :: opener, after⟩) <
        solid (bare ends ⟨before, ' ' :: '/' :: '/' :: opener, after⟩)) :
    Lawful ends ⟨before, ' ' :: '/' :: '/' :: opener, after⟩ where
  inline_opener := inline_commentOpener hopener
  opens text := opens_comment before hopener text
  closes := hcloses
  loses := hloses

/-- A slot within a comment that is there in any case. -/
theorem of_comment {code comment opener : List Char} {c : Char} (hcomment : ends.Inline comment)
    (hopener : ends.Inline opener) (hc : ends.isEnd c = true) :
    Lawful ends ⟨code ++ ' ' :: '/' :: '/' :: comment, opener, [c]⟩ where
  inline_opener := hopener
  opens text := by
    have hall : ends.Inline (comment ++ opener) := LineEnds.inline_append.mpr ⟨hcomment, hopener⟩
    calc stripComments ends ((code ++ ' ' :: '/' :: '/' :: comment) ++ (opener ++ text))
        = stripComments ends (code ++ ' ' :: '/' :: '/' :: ((comment ++ opener) ++ text)) := by simp
      _ = stripComments ends code ++ afterComment ends text := by
          rw [stripComments_comment, afterComment_append hall]
      _ = _ := by rw [stripComments_comment, afterComment_inline hcomment, List.append_nil]
  closes := ⟨[], c, hc, rfl⟩
  loses h := absurd h (not_exposed_end _ _ _ hc)

variable (h : s.Lawful ends)
include h

theorem strip_fill {comment : List Char} (hne : comment ≠ []) (hcomment : ends.Inline comment) :
    stripComments ends (s.fill comment) = s.cut ends := by
  rw [fill_of_ne hne, h.opens, afterComment_append hcomment, cut]

theorem fill_closes (comment : List Char) : ends.Closes (s.fill comment) := by
  by_cases hne : comment = []
  · rw [hne]
    exact h.closes.append_left s.before
  · rw [fill_of_ne hne]
    exact ((h.closes.append_left comment).append_left s.opener).append_left s.before

/-- The line ends of a filled slot are those of the slot and those of the comment. -/
theorem countP_fill (comment : List Char) : (s.fill comment).countP ends.isEnd =
    (s.fill []).countP ends.isEnd + comment.countP ends.isEnd := by
  by_cases hne : comment = []
  · simp [hne]
  · have hopener := LineEnds.inline_iff_countP.mp h.inline_opener
    simp only [fill_of_ne hne, fill_nil, List.countP_append, hopener]
    omega

end Lawful

end Slot

/-- A piece of a generated text. -/
inductive Piece where
  | fixed (text : List Char)
  | spliced (slot : Slot) (comment : List Char)
deriving DecidableEq, Repr

namespace Piece
variable (ends : LineEnds)

def text : Piece → List Char
  | fixed text => text
  | spliced slot comment => slot.fill comment

/-- The piece without its comment. -/
def uncommented : Piece → Piece
  | fixed text => fixed text
  | spliced slot _ => spliced slot []

def Lawful : Piece → Prop
  | fixed text => ends.Closes text
  | spliced slot _ => slot.Lawful ends

/-- The comment has no line end, and no code behind it. -/
def Fits : Piece → Prop
  | fixed _ => True
  | spliced slot comment => ends.Inline comment ∧ (slot.Exposed ends → comment = [])

theorem text_fixed (text : List Char) : (fixed text).text = text := rfl

variable {ends} {p : Piece}

theorem Lawful.uncommented (h : p.Lawful ends) : p.uncommented.Lawful ends := by
  cases p with
  | fixed text => exact h
  | spliced slot comment => exact h

theorem Lawful.closes (h : p.Lawful ends) : ends.Closes p.text := by
  cases p with
  | fixed text => exact h
  | spliced slot comment => exact Slot.Lawful.fill_closes h comment

theorem strip_text_append (h : p.Lawful ends) (rest : List Char) :
    stripComments ends (p.text ++ rest) =
      stripComments ends p.text ++ stripComments ends rest := by
  obtain ⟨line, c, hc, htext⟩ := h.closes
  rw [htext, List.append_assoc, List.cons_append, List.nil_append, stripComments_append_end _ hc,
    stripComments_append_end _ hc, List.append_assoc]
  rfl

/-- A comment that fits leaves the code as it is. -/
theorem Fits.strip_text (hlawful : p.Lawful ends) (h : p.Fits ends) :
    stripComments ends p.text = stripComments ends p.uncommented.text := by
  cases p with
  | fixed text => rfl
  | spliced slot comment =>
    by_cases hne : comment = []
    · rw [hne]
      rfl
    · have hcut : slot.cut ends = slot.bare ends := by
        by_contra hexposed
        exact hne (h.2 hexposed)
      exact (Slot.Lawful.strip_fill hlawful hne h.1).trans hcut

theorem countP_uncommented_le (h : p.Lawful ends) :
    p.uncommented.text.countP ends.isEnd ≤ p.text.countP ends.isEnd := by
  cases p with
  | fixed text => exact Nat.le_refl _
  | spliced slot comment =>
    have hcount := Slot.Lawful.countP_fill h comment
    show (slot.fill []).countP ends.isEnd ≤ (slot.fill comment).countP ends.isEnd
    omega

/-- With no line end more than without its comment, a piece loses code if it changes at all. -/
theorem solid_lt (h : p.Lawful ends)
    (hcount : p.uncommented.text.countP ends.isEnd = p.text.countP ends.isEnd) :
    p.Fits ends ∨
      solid (stripComments ends p.text) < solid (stripComments ends p.uncommented.text) := by
  cases p with
  | fixed text => exact .inl trivial
  | spliced slot comment =>
    have hfill := Slot.Lawful.countP_fill h comment
    have hinline : ends.Inline comment := by
      rw [LineEnds.inline_iff_countP]
      change (slot.fill []).countP ends.isEnd = (slot.fill comment).countP ends.isEnd at hcount
      omega
    by_cases hne : comment = []
    · exact .inl ⟨hinline, fun _ => hne⟩
    · by_cases hexposed : slot.Exposed ends
      · refine .inr ?_
        show solid (stripComments ends (slot.fill comment)) < solid (slot.bare ends)
        rw [Slot.Lawful.strip_fill h hne hinline]
        exact Slot.Lawful.loses h hexposed
      · exact .inl ⟨hinline, fun h => absurd h hexposed⟩

theorem solid_le (h : p.Lawful ends)
    (hcount : p.uncommented.text.countP ends.isEnd = p.text.countP ends.isEnd) :
    solid (stripComments ends p.text) ≤ solid (stripComments ends p.uncommented.text) := by
  rcases solid_lt h hcount with hfits | hlt
  · rw [hfits.strip_text h]
  · exact Nat.le_of_lt hlt

end Piece

section Pieces
variable {ends : LineEnds}

/-- The text that pieces make up. -/
def piecesText (pieces : List Piece) : List Char := pieces.flatMap Piece.text

theorem sum_map_eq {α : Type} {xs : List α} {f g : α → ℕ} (hle : ∀ x ∈ xs, f x ≤ g x)
    (hsum : (xs.map f).sum = (xs.map g).sum) : ∀ x ∈ xs, f x = g x := by
  intro x hx
  by_contra hne
  have hlt : f x < g x := Nat.lt_of_le_of_ne (hle x hx) hne
  have hsums := List.sum_lt_sum f g hle ⟨x, hx, hlt⟩
  omega

theorem strip_piecesText {pieces : List Piece} (h : ∀ p ∈ pieces, p.Lawful ends) :
    stripComments ends (piecesText pieces) =
      pieces.flatMap fun p => stripComments ends p.text := by
  induction pieces with
  | nil => rfl
  | cons p pieces ih =>
    obtain ⟨hp, hpieces⟩ := List.forall_mem_cons.mp h
    have htail := ih hpieces
    rw [piecesText] at htail ⊢
    rw [List.flatMap_cons, List.flatMap_cons, Piece.strip_text_append hp, htail]

/-- The code of a text is that of the text without comments exactly when every comment fits. -/
theorem strip_uncommented_iff {pieces : List Piece} (h : ∀ p ∈ pieces, p.Lawful ends) :
    stripComments ends (piecesText pieces) =
        stripComments ends (piecesText (pieces.map Piece.uncommented)) ↔
      ∀ p ∈ pieces, p.Fits ends := by
  have hblank : ∀ p ∈ pieces.map Piece.uncommented, p.Lawful ends := by
    intro p hp
    obtain ⟨p', hp', rfl⟩ := List.mem_map.mp hp
    exact (h p' hp').uncommented
  rw [strip_piecesText h, strip_piecesText hblank, List.flatMap_map]
  constructor
  · intro hcode
    have hends : ∀ p ∈ pieces,
        p.uncommented.text.countP ends.isEnd = p.text.countP ends.isEnd := by
      refine sum_map_eq (fun p hp => Piece.countP_uncommented_le (h p hp)) ?_
      have hcounts := congrArg (List.countP ends.isEnd) hcode
      simp only [List.countP_flatMap, Function.comp_def, countP_stripComments] at hcounts
      exact hcounts.symm
    have hsolid : ∀ p ∈ pieces, solid (stripComments ends p.text) =
        solid (stripComments ends p.uncommented.text) := by
      refine sum_map_eq (fun p hp => Piece.solid_le (h p hp) (hends p hp)) ?_
      have hcounts := congrArg solid hcode
      simpa only [solid, List.countP_flatMap, Function.comp_def] using hcounts
    intro p hp
    refine (Piece.solid_lt (h p hp) (hends p hp)).resolve_right fun hlt => ?_
    rw [hsolid p hp] at hlt
    exact Nat.lt_irrefl _ hlt
  · intro hfits
    have hsame : ∀ p ∈ pieces, stripComments ends p.text =
        stripComments ends p.uncommented.text := fun p hp => (hfits p hp).strip_text (h p hp)
    exact List.flatMap_congr hsame

end Pieces

end Nemclass.LineComments
