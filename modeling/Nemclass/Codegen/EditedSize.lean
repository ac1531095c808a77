import Mathlib.Algebra.Order.BigOperators.Group.List
import Nemclass.Codegen.ResolvedSize
import Nemclass.Model.NodeEdit

/-! The sizes of fields when one class of the project is edited: a field that does not embed the
class keeps its size, one that does is at least as large as the edited class. -/
namespace Nemclass.Codegen
open Usize Model Expand

section Edited
variable {project : Project} {uuid : Uuid} {f : ClassNode → ClassNode}

/-- The node embeds the class, or a class that embeds it at some depth. -/
def Reaches (project : Project) (uuid : Uuid) (n : Node) : Prop :=
  ∃ target, embeds n = some target ∧ Relation.ReflTransGen (store project).Refers target uuid

theorem getClass_updateClass_ne {other : Uuid} (h : other ≠ uuid) :
    (project.updateClass uuid f).getClass other = project.getClass other := if_neg h

theorem getClass_updateClass : (project.updateClass uuid f).getClass uuid =
    (project.getClass uuid).map f := if_pos rfl

variable [UuidText]

theorem contributedSize_kept {n : Node} (h : ¬ Reaches project uuid n) :
    contributedSize (project.updateClass uuid f) n = contributedSize project n := by
  have hclear : (store project).Clear {uuid} [n] := by
    intro m hm target href j hj hreach
    rw [List.mem_singleton] at hm
    rw [Finset.mem_singleton] at hj
    subst hm hj
    exact h ⟨target, href, hreach⟩
  have hget (j : Uuid) (hne : j ≠ uuid) :
      (store (project.updateClass uuid f)).get j = (store project).get j :=
    getClass_updateClass_ne hne
  have hexpand := Store.expand_update hget rfl rfl ∅ hclear
  rw [contributedSize_eq, contributedSize_eq, exactSize, exactSize, hexpand]

omit [UuidText] in
/-- Up to the edited class, references stay. -/
theorem reaches_updateClass {a : Uuid}
    (h : Relation.ReflTransGen (store project).Refers a uuid) :
    Relation.ReflTransGen (store (project.updateClass uuid f)).Refers a uuid := by
  induction h using Relation.ReflTransGen.head_induction_on with
  | refl => exact .refl
  | @head a b hab _ ih =>
    by_cases ha : a = uuid
    · rw [ha]
    · obtain ⟨c, n, hget, hn, href⟩ := hab
      exact .head ⟨c, n, (getClass_updateClass_ne ha).trans hget, hn, href⟩ ih

omit [UuidText] in
theorem plain_sum (ns : List Node) : ((ns.filter fun n => (embeds n).isNone).map
    Node.memorySize).sum = (ns.map Node.memorySize).sum := by
  induction ns with
  | nil => rfl
  | cons n ns ih =>
    rw [List.map_cons, List.sum_cons, ← ih]
    cases href : embeds n with
    | none => rw [List.filter_cons_of_pos (by simp [href]), List.map_cons, List.sum_cons]
    | some target =>
      rw [List.filter_cons_of_neg (by simp [href]), memorySize_embeds href, Nat.zero_add]

/-- A field that embeds the edited class is as large as the fields put there. -/
theorem contributedSize_grown {n : Node} {c : ClassNode} (h : Reaches project uuid n)
    (hget : project.getClass uuid = some c) :
    min ((f c).children.map Node.memorySize).sum usizeMax ≤
      contributedSize (project.updateClass uuid f) n := by
  obtain ⟨target, href, hreach⟩ := h
  have hedited : (store (project.updateClass uuid f)).get uuid = some (f c) := by
    show (project.updateClass uuid f).getClass uuid = _
    rw [getClass_updateClass, hget, Option.map_some]
  have hsub : ((f c).children.filter fun m => (embeds m).isNone).Sublist
      ((store (project.updateClass uuid f)).expand ∅ [n]).leaves :=
    Store.sublist_of_reaches (List.mem_singleton_self n) href (Finset.notMem_empty target) hedited
      (Relation.ReflTransGen.mono (fun _ _ h => ⟨h, Finset.notMem_empty _⟩) target uuid
        (reaches_updateClass hreach))
  have hsum := (hsub.map Node.memorySize).sum_le_sum fun _ _ => Nat.zero_le _
  rw [plain_sum] at hsum
  rw [contributedSize_eq, exactSize]
  exact min_le_min_right usizeMax hsum

end Edited

end Nemclass.Codegen
