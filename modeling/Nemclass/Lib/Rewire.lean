import Mathlib.Data.Nat.Basic
import Mathlib.Logic.Relation

/-! Graphs without cycles, and what one new edge does to them: it closes a cycle exactly when its
end leads back to its start, whatever other edges leave the start no more. -/
namespace Nemclass.Rewire
open Relation

variable {V : Type*}

def Acyclic (E : V → V → Prop) : Prop := ∀ v, ¬ TransGen E v v

/-- Fewer edges close no cycle. -/
theorem Acyclic.anti {E E' : V → V → Prop} (h : Acyclic E) (hle : ∀ u v, E' u v → E u v) :
    Acyclic E' := fun v hcycle => h v (TransGen.mono hle _ _ hcycle)

/-- Edges that go down in rank close no cycle. -/
theorem acyclic_of_rank {E : V → V → Prop} (rank : V → ℕ) (h : ∀ u v, E u v → rank v < rank u) :
    Acyclic E := by
  intro v hcycle
  have hdown (u w : V) (hpath : TransGen E u w) : rank w < rank u := by
    induction hpath with
    | single hedge => exact h _ _ hedge
    | tail _ hedge ih => exact Nat.lt_trans (h _ _ hedge) ih
  exact Nat.lt_irrefl _ (hdown v v hcycle)

/-- `E'` has a new edge from `a` to `b`, and otherwise at most fewer edges from `a`. -/
structure Rewires (E E' : V → V → Prop) (a b : V) : Prop where
  added : E' a b
  elsewhere : ∀ u v, u ≠ a → (E' u v ↔ E u v)
  kept : ∀ v, E' a v → v = b ∨ E a v

namespace Rewires
variable {E E' : V → V → Prop} {a b : V} (h : Rewires E E' a b)
include h

theorem edge {u v : V} (hedge : E' u v) : u = a ∧ v = b ∨ E u v := by
  by_cases hu : u = a
  · subst hu
    exact (h.kept v hedge).imp_left fun hv => ⟨rfl, hv⟩
  · exact .inr ((h.elsewhere u v hu).mp hedge)

/-- Until it meets `a`, a path is the same before and after. -/
theorem reaches_start {u : V} (hpath : ReflTransGen E u a) : ReflTransGen E' u a := by
  induction hpath using ReflTransGen.head_induction_on with
  | refl => exact .refl
  | @head u v hedge _ ih =>
    by_cases hu : u = a
    · subst hu
      exact .refl
    · exact .head ((h.elsewhere u v hu).mpr hedge) ih

/-- A path that uses the new edge leads to `a`, and from `b` on. -/
theorem path_cases (hback : ¬ ReflTransGen E b a) {u v : V} (hpath : TransGen E' u v) :
    TransGen E u v ∨ ReflTransGen E u a ∧ ReflTransGen E b v := by
  induction hpath with
  | single hedge =>
    rcases h.edge hedge with ⟨rfl, rfl⟩ | hold
    · exact .inr ⟨.refl, .refl⟩
    · exact .inl (.single hold)
  | tail _ hedge ih =>
    rcases h.edge hedge with ⟨rfl, rfl⟩ | hold
    · rcases ih with hpath | ⟨-, hloop⟩
      · exact .inr ⟨hpath.to_reflTransGen, .refl⟩
      · exact absurd hloop hback
    · rcases ih with hpath | ⟨hto, hfrom⟩
      · exact .inl (hpath.tail hold)
      · exact .inr ⟨hto, hfrom.tail hold⟩

/-- The new edge closes a cycle exactly when its end leads back to its start. -/
theorem acyclic_iff (hE : Acyclic E) : Acyclic E' ↔ ¬ ReflTransGen E b a := by
  constructor
  · intro hE' hback
    exact hE' a (.head' h.added (h.reaches_start hback))
  · intro hback v hcycle
    rcases h.path_cases hback hcycle with hpath | ⟨hto, hfrom⟩
    · exact hE v hpath
    · exact hback (hfrom.trans hto)

end Rewires

end Nemclass.Rewire
