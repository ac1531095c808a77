import Nemclass.Ui.Flatten

/-! Which rows a walk emits: those of the children of every call it makes, each at the running
sum of the sizes before it. -/
namespace Nemclass.Ui
open Usize Model Codegen Relation

section Rows
variable [UuidText] (v : View)

/-- The calls made for one child. -/
inductive CallsAt (c : Call) (i cur : ℕ) (n : Node) : Call → Prop
  | nested : n.children ≠ [] → CallsAt c i cur n (c.nested i cur n)
  | inlined {c' : Call} : inlined v c i cur n = some c' → CallsAt c i cur n c'
  | dereferenced {c' : Call} : dereferenced v c i n = some c' → CallsAt c i cur n c'

/-- Where a child is listed. -/
def offsetAt (c : Call) (i : ℕ) : ℕ :=
  ((c.children.take i).map (viewSize v c.visited)).foldl wrappingAdd c.baseOffset

def rowAt (c : Call) (i : ℕ) (n : Node) : NodeSnapshot := snapshot v c i (offsetAt v c i) n

/-- One call is made directly by another. -/
def SubCall (c c' : Call) : Prop := ∃ i n, c.children[i]? = some n ∧ CallsAt v c i (offsetAt v c i) n c'

variable {v} {row : NodeSnapshot} {c c' : Call}

theorem mem_flattenFrom_cons {i cur : ℕ} {n : Node} {ns : List Node} :
    row ∈ flattenFrom v c i cur (n :: ns) ↔ row = snapshot v c i cur n ∨
      (∃ c', CallsAt v c i cur n c' ∧ row ∈ flattenNodes v c') ∨
        row ∈ flattenFrom v c (i + 1) (wrappingAdd cur (viewSize v c.visited n)) ns := by
  rewrite [flattenFrom, List.mem_cons, List.mem_append, List.mem_append, List.mem_append]
  constructor
  · rintro (h | ((h | h) | h) | h)
    · exact .inl h
    · refine .inr (.inl ?_)
      split at h
      · cases h
      · rename_i hne
        exact ⟨_, .nested fun hnil => hne (by rw [hnil]; rfl), h⟩
    · refine .inr (.inl ?_)
      split at h
      · rename_i c' heq
        exact ⟨c', .inlined heq, h⟩
      · cases h
    · refine .inr (.inl ?_)
      split at h
      · rename_i c' heq
        exact ⟨c', .dereferenced heq, h⟩
      · cases h
    · exact .inr (.inr h)
  · rintro (h | ⟨c', hcall, h⟩ | h)
    · exact .inl h
    · refine .inr (.inl ?_)
      cases hcall with
      | nested hne =>
        rw [if_neg (by rwa [List.isEmpty_iff])]
        exact .inl (.inl h)
      | inlined heq =>
        refine .inl (.inr ?_)
        split
        · rename_i d heq'
          obtain rfl := Option.some.inj (heq.symm.trans heq')
          exact h
        · simp_all
      | dereferenced heq =>
        refine .inr ?_
        split
        · rename_i d heq'
          obtain rfl := Option.some.inj (heq.symm.trans heq')
          exact h
        · simp_all
    · exact .inr (.inr h)

theorem offsetAt_succ {i : ℕ} {n : Node} (hn : c.children[i]? = some n) :
    offsetAt v c (i + 1) = wrappingAdd (offsetAt v c i) (viewSize v c.visited n) := by
  obtain ⟨hlt, rfl⟩ := List.getElem?_eq_some_iff.mp hn
  rw [offsetAt, List.take_succ_eq_append_getElem hlt, List.map_append, List.foldl_append]
  rfl

/-- From one child on, the rows are those of the children that are left and of their calls. -/
theorem mem_flattenFrom (i : ℕ) (ns : List Node) (hns : c.children.drop i = ns) :
    row ∈ flattenFrom v c i (offsetAt v c i) ns ↔ ∃ k n, i ≤ k ∧ c.children[k]? = some n ∧
      (row = rowAt v c k n ∨
        ∃ c', CallsAt v c k (offsetAt v c k) n c' ∧ row ∈ flattenNodes v c') := by
  induction ns generalizing i with
  | nil =>
    rw [flattenFrom]
    refine iff_of_false (List.not_mem_nil) ?_
    rintro ⟨k, n, hle, hn, -⟩
    obtain ⟨hlt, -⟩ := List.getElem?_eq_some_iff.mp hn
    have := List.drop_eq_nil_iff.mp hns
    omega
  | cons n ns ih =>
    have hn : c.children[i]? = some n := by
      rw [← List.head?_drop, hns, List.head?_cons]
    have hrest : c.children.drop (i + 1) = ns := by
      rw [← List.tail_drop, hns, List.tail_cons]
    rw [mem_flattenFrom_cons, ← offsetAt_succ hn, ih (i + 1) hrest]
    constructor
    · rintro (h | h | ⟨k, m, hle, hm, h⟩)
      · exact ⟨i, n, le_refl i, hn, .inl h⟩
      · exact ⟨i, n, le_refl i, hn, .inr h⟩
      · exact ⟨k, m, by omega, hm, h⟩
    · rintro ⟨k, m, hle, hm, h⟩
      rcases Nat.eq_or_lt_of_le hle with rfl | hlt
      · obtain rfl := Option.some.inj (hm.symm.trans hn)
        exact h.imp_right .inl
      · exact .inr (.inr ⟨k, m, hlt, hm, h⟩)

theorem mem_flattenNodes : row ∈ flattenNodes v c ↔ ∃ i n, c.children[i]? = some n ∧
    (row = rowAt v c i n ∨
      ∃ c', CallsAt v c i (offsetAt v c i) n c' ∧ row ∈ flattenNodes v c') := by
  have h : row ∈ flattenFrom v c 0 (offsetAt v c 0) c.children ↔ _ :=
    mem_flattenFrom 0 c.children rfl
  simp only [Nat.zero_le, true_and] at h
  exact h

/-- A call is given a smaller budget, or less to list. -/
theorem SubCall.smaller (h : SubCall v c c') :
    Prod.Lex (· < ·) (· < ·) (c'.depthBudget, sizeOf c'.children)
      (c.depthBudget, sizeOf c.children) := by
  obtain ⟨i, n, hn, hcall⟩ := h
  cases hcall with
  | nested =>
    have hmem := List.sizeOf_lt_of_mem (List.mem_of_getElem? hn)
    have hchildren := sizeOf_children_lt n []
    rcases Nat.lt_or_eq_of_le (Nat.sub_le c.depthBudget 1) with hlt | heq
    · exact .left _ _ hlt
    · rw [Call.nested, heq]
      refine .right _ ?_
      cases n with
      | vTable | cls =>
        simp only [Node.children, Node.childrenMut, Option.getD_some] at *
        simp only [Node.vTable.sizeOf_spec, Node.cls.sizeOf_spec] at hmem
        omega
      | _ => simp_all [Node.children, Node.childrenMut]
  | inlined heq => exact .left _ _ (inlined_budget v heq)
  | dereferenced heq => exact .left _ _ (dereferenced_budget v heq)

theorem exists_of_mem_flattenNodes (c : Call) (h : row ∈ flattenNodes v c) :
    ∃ c' i n, ReflTransGen (SubCall v) c c' ∧ c'.children[i]? = some n ∧ row = rowAt v c' i n := by
  obtain ⟨i, n, hn, h | ⟨c', hcall, h⟩⟩ := mem_flattenNodes.mp h
  · exact ⟨c, i, n, .refl, hn, h⟩
  · have hsub : SubCall v c c' := ⟨i, n, hn, hcall⟩
    obtain ⟨d, k, m, hpath, hm, hrow⟩ := exists_of_mem_flattenNodes c' h
    exact ⟨d, k, m, .head hsub hpath, hm, hrow⟩
termination_by (c.depthBudget, sizeOf c.children)
decreasing_by exact hsub.smaller

/-- The rows of a walk are those of the calls it makes. -/
theorem mem_flattenNodes_iff : row ∈ flattenNodes v c ↔ ∃ c' i n,
    ReflTransGen (SubCall v) c c' ∧ c'.children[i]? = some n ∧ row = rowAt v c' i n := by
  refine ⟨exists_of_mem_flattenNodes c, ?_⟩
  rintro ⟨c', i, n, hpath, hn, rfl⟩
  induction hpath using ReflTransGen.head_induction_on with
  | refl => exact mem_flattenNodes.mpr ⟨i, n, hn, .inl rfl⟩
  | head hsub _ ih =>
    obtain ⟨k, m, hm, hcall⟩ := hsub
    exact mem_flattenNodes.mpr ⟨k, m, hm, .inr ⟨_, hcall, ih⟩⟩

end Rows

end Nemclass.Ui
