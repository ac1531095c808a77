import Mathlib.Data.Nat.Notation
import Mathlib.Tactic.ByContra
import Mathlib.Logic.Relation

/-! Runs that come to an end. Each step lowers a rank, or keeps it and goes on in a process that
ends by itself, or keeps both and lowers a count. -/
namespace Nemclass.Descent

variable {σ π : Type*} {step : σ → σ → Prop}

structure Lowers (step : σ → σ → Prop) (next : π → π → Prop) (Inv : σ → Prop)
    (rank : σ → ℕ) (place : σ → π) (count : σ → ℕ) : Prop where
  keeps : ∀ {s s'}, Inv s → step s s' → Inv s'
  ends : ∀ {s}, Inv s → Acc (fun p' p => next p p') (place s)
  lowers : ∀ {s s'}, Inv s → step s s' → rank s' < rank s ∨ rank s' = rank s ∧
    (next (place s) (place s') ∨ place s' = place s ∧ count s' < count s)

/-- Only finitely many steps can be taken from such a state. -/
theorem Lowers.acc {next : π → π → Prop} {Inv : σ → Prop} {rank : σ → ℕ} {place : σ → π}
    {count : σ → ℕ} (h : Lowers step next Inv rank place count) {s : σ} (hs : Inv s) :
    Acc (fun s' s => step s s') s := by
  induction hr : rank s using Nat.strongRecOn generalizing s with
  | _ r ihrank =>
  obtain ⟨p, hp⟩ : ∃ p, place s = p := ⟨_, rfl⟩
  have hacc := h.ends hs
  rw [hp] at hacc
  induction hacc generalizing s with
  | intro p _ ihplace =>
  induction hc : count s using Nat.strongRecOn generalizing s with
  | _ c ihcount =>
  refine Acc.intro s fun s' hstep => ?_
  rcases h.lowers hs hstep with hlt | ⟨hrank, hnext | ⟨hplace, hlt⟩⟩
  · exact ihrank _ (hr ▸ hlt) (h.keeps hs hstep) rfl
  · exact ihplace _ (hp ▸ hnext) (h.keeps hs hstep) (hrank.trans hr) rfl
  · exact ihcount _ (hc ▸ hlt) (h.keeps hs hstep) (hrank.trans hr) (hplace.trans hp) rfl

/-- An endless sequence of states takes somewhere no step. -/
theorem exists_not_step {s : σ} (h : Acc (fun s' s => step s s') s) (run : ℕ → σ)
    (hrun : run 0 = s) : ∃ n, ¬ step (run n) (run (n + 1)) := by
  induction h generalizing run with
  | intro s _ ih =>
    by_contra hall
    have hstep (n : ℕ) : step (run n) (run (n + 1)) := by_contra fun hn => hall ⟨n, hn⟩
    obtain ⟨n, hn⟩ := ih (run 1) (hrun ▸ hstep 0) (fun n => run (n + 1)) rfl
    exact hn (hstep (n + 1))

end Nemclass.Descent
