import Mathlib.Data.List.Basic
import Mathlib.Data.List.TakeWhile
import Mathlib.Tactic.Common

/-! The words of a text: its longest pieces in which no separator stands. -/
namespace Nemclass.Words

variable {α : Type*} {sep : α → Bool}

def words (sep : α → Bool) (cs : List α) : List (List α) :=
  (cs.splitOnP sep).filter (!·.isEmpty)

theorem words_cons {c : α} (hc : sep c = true) (cs : List α) :
    words sep (c :: cs) = words sep cs := by
  rw [words, List.splitOnP_cons_eq_if_modifyHead, if_pos hc]
  rfl

/-- A word reaches to the next separator or to the end. -/
theorem words_append {w rest : List α} (hne : w ≠ []) (hw : ∀ c ∈ w, sep c = false)
    (hrest : ∀ c ∈ rest.head?, sep c = true) : words sep (w ++ rest) = w :: words sep rest := by
  have hkeep (ws : List (List α)) :
      (w :: ws).filter (!·.isEmpty) = w :: ws.filter (!·.isEmpty) :=
    List.filter_cons_of_pos (by simpa using hne)
  cases rest with
  | nil =>
    rw [List.append_nil, words, List.splitOnP_eq_singleton hw, hkeep]
    rfl
  | cons c rest =>
    have hc := hrest c rfl
    rw [words, List.splitOnP_append_cons_of_forall_mem hw c hc, hkeep, words_cons hc, words]

/-- What goes past a separator and past a word goes through a text. -/
theorem word_induction (sep : α → Bool) {motive : List α → Prop} (nil : motive [])
    (space : ∀ c cs, sep c = true → motive cs → motive (c :: cs))
    (word : ∀ w rest, w ≠ [] → (∀ c ∈ w, sep c = false) → (∀ c ∈ rest.head?, sep c = true) →
      motive rest → motive (w ++ rest))
    (cs : List α) : motive cs := by
  induction hlen : cs.length using Nat.strong_induction_on generalizing cs with
  | _ n ih =>
    subst hlen
    cases cs with
    | nil => exact nil
    | cons c cs =>
      cases hc : sep c with
      | true => exact space c cs hc (ih _ (Nat.lt_succ_self _) cs rfl)
      | false =>
        have hsplit := List.takeWhile_append_dropWhile (p := (!sep ·)) (l := c :: cs)
        have hstop := List.head?_dropWhile_not (!sep ·) (c :: cs)
        have hfirst : (c :: cs).takeWhile (!sep ·) ≠ [] := by simp [hc]
        have hshort : ((c :: cs).dropWhile (!sep ·)).length < (c :: cs).length := by
          have hpos := List.length_pos_iff.mpr hfirst
          have hsum := congrArg List.length hsplit
          rw [List.length_append] at hsum
          omega
        rw [← hsplit]
        refine word _ _ hfirst (fun d hd => ?_) (fun d hd => ?_) (ih _ hshort _ rfl)
        · simpa using List.mem_takeWhile_imp hd
        · rw [Option.mem_def.mp hd] at hstop
          simpa using hstop

/-- The words hold all but the separators. -/
theorem forall_mem_words {P : α → Prop} (cs : List α) :
    (∀ w ∈ words sep cs, ∀ c ∈ w, P c) ↔ ∀ c ∈ cs, sep c = false → P c := by
  induction cs using word_induction sep with
  | nil => simp [words]
  | space c cs hc ih =>
    rw [words_cons hc, ih, List.forall_mem_cons]
    exact (and_iff_right fun hsep => absurd hsep (by simp [hc])).symm
  | word w rest hne hw hrest ih =>
    rw [words_append hne hw hrest, List.forall_mem_cons, ih, List.forall_mem_append]
    exact and_congr_left' (forall₂_congr fun c hc => ⟨fun h _ => h, fun h => h (hw c hc)⟩)

end Nemclass.Words
