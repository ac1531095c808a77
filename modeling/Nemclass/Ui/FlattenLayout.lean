import Mathlib.Algebra.Order.BigOperators.Group.List
import Nemclass.Ui.FlattenRows

/-! The class view against the generators: every field is shown where the generators place it,
except behind an embed that counts as empty because its class is open on the way to the row. -/
namespace Nemclass.Ui
open Usize Model Codegen Relation Expand

section Sizes
variable [UuidText] (v : View)

theorem classInstanceTarget_eq (n : Node) : classInstanceTarget n = embeds n := by
  cases n with
  | classInstance name comment uuid => exact classUuidAttr_classInstance name comment uuid
  | simple kind => exact if_pos (simple_typeTag_ne kind)
  | vector _ _ size width => exact if_pos (vectorTag_ne size width)
  | matrix _ _ size width => exact if_pos (matrixTag_ne size width)
  | malformedInstance => rfl
  | pointer | array | utf8Text | utf16Text | vTable | function | cls =>
    exact if_pos (by simp [Node.typeTag])

/-- The embed of a class that is open. -/
def ShadowedIn (visited : Finset Uuid) (n : Node) : Prop := ∃ uuid ∈ visited, embeds n = some uuid

/-- Without cycles an embedded class has the size that it has alone. -/
theorem contributedSize_target (hacyclic : (store v.project).Acyclic) {n : Node} {uuid : Uuid}
    {target : ClassNode} (h : embeds n = some uuid) (hget : v.project.getClass uuid = some target) :
    contributedSize v.project n = (resolvedClassSize v.project ∅ target).size := by
  have halone := hacyclic.expand_alone (n := n) [] h hget
  rw [contributedSize_eq, resolvedClassSize_eq, exactSize, halone, Store.expand_nil]
  simp [Expansion.leaves, exactSize, store, Sized.keep]

/-- The view counts an embed of an open class as empty, everything else as the generators do. -/
theorem viewSize_eq (hacyclic : (store v.project).Acyclic) (visited : Finset Uuid) (n : Node) :
    (ShadowedIn visited n → viewSize v visited n = 0) ∧
      (¬ ShadowedIn visited n → viewSize v visited n = contributedSize v.project n) := by
  cases href : embeds n with
  | none =>
    have hplain : viewSize v visited n = contributedSize v.project n := by
      rw [contributedSize_plain v.project href, viewSize, classInstanceTarget_eq, href]
      split
      · rename_i htag
        cases n with
        | malformedInstance => rw [Node.memorySize]
        | simple kind => exact absurd htag (simple_typeTag_ne kind)
        | vector _ _ size width => exact absurd htag (vectorTag_ne size width)
        | matrix _ _ size width => exact absurd htag (matrixTag_ne size width)
        | classInstance => cases href
        | pointer | array | utf8Text | utf16Text | vTable | function | cls =>
          simp [Node.typeTag] at htag
      · rfl
    refine ⟨fun hshadowed => ?_, fun _ => hplain⟩
    obtain ⟨uuid, -, h⟩ := hshadowed
    rw [href] at h
    cases h
  | some uuid =>
    have htag : n.typeTag = "ClassInstance" := (embeds_eq_some href).1
    have hshadowed : ShadowedIn visited n ↔ uuid ∈ visited := by
      simp [ShadowedIn, href]
    rw [viewSize, if_pos htag, classInstanceTarget_eq, href, hshadowed]
    dsimp only
    cases hget : v.project.getClass uuid with
    | none =>
      have hmissing := resolvedNodeSize_missing href (Finset.notMem_empty uuid) hget
      exact ⟨fun _ => rfl, fun _ => by rw [contributedSize, hmissing]; rfl⟩
    | some target =>
      rw [contributedSize_target v hacyclic href hget]
      exact ⟨fun h => if_pos h, fun h => if_neg h⟩

theorem viewSize_le (hacyclic : (store v.project).Acyclic) (visited : Finset Uuid) (n : Node) :
    viewSize v visited n ≤ contributedSize v.project n := by
  by_cases h : ShadowedIn visited n
  · rw [(viewSize_eq v hacyclic visited n).1 h]
    exact Nat.zero_le _
  · rw [(viewSize_eq v hacyclic visited n).2 h]

/-- An open class's embed is the only thing that counts for less than its size. -/
theorem viewSize_eq_iff (hacyclic : (store v.project).Acyclic) (visited : Finset Uuid) (n : Node) :
    viewSize v visited n = contributedSize v.project n ↔
      (ShadowedIn visited n → contributedSize v.project n = 0) := by
  have hsize := viewSize_eq v hacyclic visited n
  by_cases h : ShadowedIn visited n
  · rw [hsize.1 h]
    exact ⟨fun h _ => h.symm, fun hzero => (hzero h).symm⟩
  · exact iff_of_true (hsize.2 h) fun h' => absurd h' h

theorem contributedSizes_sum_le (project : Project) (ns : List Node) :
    (ns.map (contributedSize project)).sum ≤ exactSize project ∅ ns := by
  rw [contributedSizes_eq, ← exactSizes_sum]
  have h := List.sum_le_sum (l := exactSizes project ns) (f := fun n => min n usizeMax) (g := id)
    fun n _ => Nat.min_le_left n usizeMax
  rwa [List.map_id] at h

end Sizes

section Sums

theorem sum_take_le {xs : List ℕ} (i : ℕ) : (xs.take i).sum ≤ xs.sum :=
  List.Sublist.sum_le_sum (List.take_sublist i xs) fun _ _ => Nat.zero_le _

/-- Wrapping step by step wraps the exact sum once. -/
theorem foldl_wrappingAdd {base : ℕ} (hbase : base ≤ usizeMax) (xs : List ℕ) :
    xs.foldl wrappingAdd base = wrappingAdd base xs.sum := by
  induction xs generalizing base with
  | nil =>
    rw [List.foldl_nil, List.sum_nil, wrappingAdd_of_le (by omega), Nat.add_zero]
  | cons x xs ih =>
    have hle : wrappingAdd base x ≤ usizeMax := Nat.le_pred_of_lt (Nat.mod_lt _ (by decide))
    rw [List.foldl_cons, ih hle, List.sum_cons]
    unfold wrappingAdd
    rw [Nat.mod_add_mod, Nat.add_assoc]

/-- Adding words that are no larger than the word size is injective. -/
theorem wrappingAdd_right_inj (base : ℕ) {a b : ℕ} (ha : a ≤ usizeMax) (hb : b ≤ usizeMax) :
    wrappingAdd base a = wrappingAdd base b ↔ a = b := by
  unfold usizeMax at ha hb
  unfold wrappingAdd
  omega

/-- Two running sums agree throughout exactly when their parts do, the last one apart. -/
theorem sums_eq_iff {α : Type} {f g : α → ℕ} (xs : List α) :
    (∀ i < xs.length, ((xs.take i).map f).sum = ((xs.take i).map g).sum) ↔
      ∀ i x, xs[i]? = some x → i + 1 < xs.length → f x = g x := by
  constructor
  · intro h i x hx hlast
    obtain ⟨hlt, rfl⟩ := List.getElem?_eq_some_iff.mp hx
    have hbefore := h i hlt
    have hafter := h (i + 1) hlast
    rw [List.take_succ_eq_append_getElem hlt] at hafter
    simp only [List.map_append, List.sum_append, List.map_singleton, List.sum_singleton] at hafter
    exact Nat.add_left_cancel (hafter.trans (by rw [hbefore]))
  · intro h i hi
    induction i with
    | zero => rfl
    | succ i ih =>
      have hlt : i < xs.length := by omega
      rw [List.take_succ_eq_append_getElem hlt]
      simp only [List.map_append, List.sum_append, List.map_singleton, List.sum_singleton]
      rw [ih hlt, h i xs[i] (List.getElem?_eq_getElem hlt) hi]

end Sums

section Layout
variable [UuidText] [UnicodeTables] (v : View)

/-- The row of a class's field is where the generators place the field, counted from where the
class's own bytes begin. -/
def Placed (row : NodeSnapshot) (i : ℕ) : Prop :=
  ∃ c f, v.project.getClass row.ownerClass = some c ∧ (resolveFields v.project c)[i]? = some f ∧
    row.offset = wrappingAdd row.within.2 f.offset ∧
      row.address = wrappingAdd row.within.1 row.offset

/-- Where the class of a row begins: at the viewed address, at the row of an embed of it, or at
what a pointer to it was read as. -/
def Enclosed (root : Call) (row : NodeSnapshot) (i : ℕ) : Prop :=
  row.ownerClass = root.ownerClass ∧ row.within = (root.baseAddr, root.baseOffset) ∨
    ∃ p ∈ flattenNodes v root, row.idPath = p.idPath ++ "." ++ toString i ∧
      (p.typeTag = "ClassInstance" ∧ row.within = (p.within.1, p.offset) ∨
        ∃ addr buf, p.pointerTarget = some row.ownerClass ∧
          v.derefBufs p.idPath = some (addr, buf) ∧ row.within = (addr, 0))

/-- Sizes are exact. -/
def Fits (project : Project) : Prop :=
  ∀ uuid c, project.getClass uuid = some c → exactSize project ∅ c.children ≤ usizeMax

/-- An embed of an open class is empty, or the last field. -/
def Unshadowed (c : Call) : Prop :=
  ∀ i n, c.children[i]? = some n → i + 1 < c.children.length → ShadowedIn c.visited n →
    contributedSize v.project n = 0

/-- A call lists the fields of a class. -/
def ListsClass (c : Call) : Prop :=
  c.parentPath = [] → ∃ target, v.project.getClass c.ownerClass = some target ∧
    target.children = c.children

variable {v}

/-- The rows of one call are placed exactly when it lists no full embed of an open class before
another field. -/
theorem placed_iff (hacyclic : (store v.project).Acyclic) (hfits : Fits v.project) {c : Call}
    (hbase : c.baseOffset ≤ usizeMax) {target : ClassNode}
    (hget : v.project.getClass c.ownerClass = some target) (hchildren : target.children = c.children) :
    (∀ i n, c.children[i]? = some n → Placed v (rowAt v c i n) i) ↔ Unshadowed v c := by
  have hsum := (contributedSizes_sum_le v.project target.children).trans (hfits _ _ hget)
  have hview (i : ℕ) : ((c.children.take i).map (viewSize v c.visited)).sum ≤ usizeMax := by
    refine (List.sum_le_sum fun n _ => viewSize_le v hacyclic c.visited n).trans ?_
    rw [List.map_take, ← hchildren]
    exact (sum_take_le i).trans hsum
  have hfields (i : ℕ) : ((c.children.take i).map (contributedSize v.project)).sum ≤ usizeMax := by
    rw [List.map_take, ← hchildren]
    exact (sum_take_le i).trans hsum
  -- One row is placed where the sizes before it add up to the same.
  have hrow (i : ℕ) (n : Node) (hn : c.children[i]? = some n) : Placed v (rowAt v c i n) i ↔
      ((c.children.take i).map (viewSize v c.visited)).sum =
        ((c.children.take i).map (contributedSize v.project)).sum := by
    have hfield := (resolveFields_layout v.project target).1 i
    rw [hchildren, hn, Option.map_some, saturatingFold_zero, Nat.min_eq_left (hfields i)] at hfield
    rw [← wrappingAdd_right_inj c.baseOffset (hview i) (hfields i),
      ← foldl_wrappingAdd hbase]
    constructor
    · rintro ⟨d, f, hd, hf, hoffset, -⟩
      obtain rfl := Option.some.inj (hd.symm.trans hget)
      rw [hfield] at hf
      cases hf
      exact hoffset
    · intro hoffset
      exact ⟨target, _, hget, hfield, hoffset, rfl⟩
  have hsizes : Unshadowed v c ↔ ∀ i n, c.children[i]? = some n → i + 1 < c.children.length →
      viewSize v c.visited n = contributedSize v.project n := by
    unfold Unshadowed
    simp only [viewSize_eq_iff v hacyclic]
  rw [hsizes, ← sums_eq_iff]
  constructor
  · intro h i hi
    exact (hrow i _ (List.getElem?_eq_getElem hi)).mp (h i _ (List.getElem?_eq_getElem hi))
  · intro h i n hn
    obtain ⟨hi, -⟩ := List.getElem?_eq_some_iff.mp hn
    exact (hrow i n hn).mpr (h i hi)

end Layout

end Nemclass.Ui
