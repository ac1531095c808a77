import Mathlib.Data.List.Nodup
import Nemclass.Ui.FlattenOpens

/-! The ids of the rows. Each spells a path of child indices, and no two rows have the same. -/
namespace Nemclass.Ui
open Usize Model Codegen Relation

section Paths

/-- The id at the end of a path, which is given from its last index on. -/
def pathId : List ℕ → String
  | [] => ""
  | i :: up => if (pathId up).isEmpty then toString i else pathId up ++ "." ++ toString i

theorem isEmpty_pathId (i : ℕ) (up : List ℕ) : (pathId (i :: up)).isEmpty = false := by
  rw [pathId]
  split <;> simp

theorem toList_toString (i : ℕ) : (toString i).toList = Nat.toDigits 10 i := by
  rw [Nat.toString_eq_repr, Nat.toList_repr]

theorem toDigits_inj {i j : ℕ} (h : Nat.toDigits 10 i = Nat.toDigits 10 j) : i = j := by
  rw [← @Nat.ofDigitChars_ten_toDigits i, h, Nat.ofDigitChars_ten_toDigits]

theorem dot_notMem_toDigits (i : ℕ) : '.' ∉ Nat.toDigits 10 i := fun h =>
  absurd (Nat.isDigit_of_mem_toDigits (by decide) (by decide) h) (by decide)

/-- What stands before the last dot, and what behind it. -/
theorem append_dot_inj {xs ys ds es : List Char} (hds : '.' ∉ ds) (hes : '.' ∉ es)
    (h : xs ++ '.' :: ds = ys ++ '.' :: es) : xs = ys ∧ ds = es := by
  rcases List.append_eq_append_iff.mp h with ⟨mid, hys, hmid⟩ | ⟨mid, hxs, hmid⟩
  · cases mid with
    | nil => exact ⟨by rw [hys, List.append_nil], (List.cons.inj hmid).2⟩
    | cons c mid =>
      have htail := (List.cons.inj hmid).2
      exact absurd (htail ▸ List.mem_append_right mid List.mem_cons_self) hds
  · cases mid with
    | nil => exact ⟨by rw [hxs, List.append_nil], (List.cons.inj hmid).2.symm⟩
    | cons c mid =>
      have htail := (List.cons.inj hmid).2
      exact absurd (htail ▸ List.mem_append_right mid List.mem_cons_self) hes

theorem toList_pathId_nested (i j : ℕ) (up : List ℕ) : (pathId (i :: j :: up)).toList =
    (pathId (j :: up)).toList ++ '.' :: Nat.toDigits 10 i := by
  rw [pathId, isEmpty_pathId, if_neg Bool.false_ne_true, String.toList_append,
    String.toList_append, toList_toString, List.append_assoc]
  rfl

theorem toList_pathId_single (i : ℕ) : (pathId [i]).toList = Nat.toDigits 10 i := toList_toString i

/-- Different paths have different ids. -/
theorem pathId_inj {p q : List ℕ} (h : pathId p = pathId q) : p = q := by
  induction p generalizing q with
  | nil =>
    cases q with
    | nil => rfl
    | cons j q => exact absurd (h ▸ isEmpty_pathId j q) (by decide)
  | cons i p ih =>
    cases q with
    | nil => exact absurd (h ▸ isEmpty_pathId i p) (by decide)
    | cons j q =>
      have hlist := congrArg String.toList h
      cases p with
      | nil =>
        cases q with
        | nil =>
          rw [toList_pathId_single, toList_pathId_single] at hlist
          rw [toDigits_inj hlist]
        | cons l q =>
          rw [toList_pathId_single, toList_pathId_nested] at hlist
          exact absurd (hlist ▸ List.mem_append_right _ List.mem_cons_self)
            (dot_notMem_toDigits i)
      | cons k p =>
        cases q with
        | nil =>
          rw [toList_pathId_single, toList_pathId_nested] at hlist
          exact absurd (hlist ▸ List.mem_append_right _ List.mem_cons_self)
            (dot_notMem_toDigits j)
        | cons l q =>
          rw [toList_pathId_nested, toList_pathId_nested] at hlist
          obtain ⟨hup, hdigits⟩ :=
            append_dot_inj (dot_notMem_toDigits i) (dot_notMem_toDigits j) hlist
          rw [toDigits_inj hdigits, ih (String.toList_inj.mp hup)]

/-- Where two paths part, they are different. -/
theorem parts_eq {p q q' : List ℕ} {k k' : ℕ} (h : pathId (q ++ k :: p) = pathId (q' ++ k' :: p)) :
    k = k' := (List.cons.inj (List.append_inj_right' (pathId_inj h) rfl)).1

end Paths

theorem idPath_of_parentId {c : Call} {p : List ℕ} (hp : c.parentId = pathId p) (i : ℕ) :
    c.idPath i = pathId (i :: p) := by
  rw [Call.idPath, hp, pathId]

theorem not_pointer_of_embeds {n : Node} {uuid : Uuid} (h : embeds n = some uuid) :
    pointerTargetClass n = none := by
  cases n with
  | classInstance => rfl
  | _ => cases h

theorem plain_of_children {n : Node} (h : n.children ≠ []) :
    embeds n = none ∧ pointerTargetClass n = none := by
  cases n with
  | vTable | cls => exact ⟨rfl, rfl⟩
  | _ => exact absurd rfl h

section Ids
variable [UuidText] {v : View} {row : NodeSnapshot} {c c' : Call} {p : List ℕ}

theorem parentId_of_callsAt {i cur : ℕ} {n : Node} (h : CallsAt v c i cur n c') :
    c'.parentId = c.idPath i := by
  cases h with
  | nested => rfl
  | inlined heq =>
    obtain ⟨uuid, target, -, -, -, rfl⟩ := (inlined_eq_some v).mp heq
    rfl
  | dereferenced heq =>
    obtain ⟨uuid, target, addr, buf, -, -, -, -, rfl⟩ := (dereferenced_eq_some v).mp heq
    rfl

/-- The calls below a call go on from its path. -/
theorem parentId_of_path (hp : c.parentId = pathId p) (hpath : ReflTransGen (SubCall v) c c') :
    ∃ q, c'.parentId = pathId (q ++ p) := by
  induction hpath with
  | refl => exact ⟨[], hp⟩
  | tail _ hsub ih =>
    obtain ⟨q, hq⟩ := ih
    obtain ⟨j, m, -, hcall⟩ := hsub
    exact ⟨j :: q, by rw [parentId_of_callsAt hcall, idPath_of_parentId hq, List.cons_append]⟩

/-- A row's id goes on from that of the call it is listed below. -/
theorem idPath_of_mem (hp : c.parentId = pathId p) (h : row ∈ flattenNodes v c) :
    ∃ q k, row.idPath = pathId (q ++ k :: p) := by
  obtain ⟨c', i, n, hpath, -, rfl⟩ := exists_of_mem_flattenNodes c h
  obtain ⟨q, hq⟩ := parentId_of_path hp hpath
  rcases List.eq_nil_or_concat q with rfl | ⟨init, k, rfl⟩
  · exact ⟨[], i, idPath_of_parentId hq i⟩
  · refine ⟨i :: init, k, ?_⟩
    rw [List.concat_append] at hq
    exact idPath_of_parentId hq i

theorem idPath_of_mem_flattenFrom (hp : c.parentId = pathId p) {i : ℕ} {ns : List Node}
    (hns : c.children.drop i = ns) (h : row ∈ flattenFrom v c i (offsetAt v c i) ns) :
    ∃ q k, i ≤ k ∧ row.idPath = pathId (q ++ k :: p) := by
  obtain ⟨k, n, hle, -, rfl | ⟨c', hcall, hrow⟩⟩ := (mem_flattenFrom i ns hns).mp h
  · exact ⟨[], k, hle, idPath_of_parentId hp k⟩
  · have hp' : c'.parentId = pathId (k :: p) :=
      (parentId_of_callsAt hcall).trans (idPath_of_parentId hp k)
    obtain ⟨q, j, hid⟩ := idPath_of_mem hp' hrow
    exact ⟨q ++ [j], k, hle, by rw [hid, List.append_assoc, List.singleton_append]⟩

/-- The rows below a child are those of one call at most: it lists its own children, or those of
the class it embeds, or those of the class it points to. -/
theorem flattenFrom_cons (c : Call) (i cur : ℕ) (n : Node) (ns : List Node) : ∃ body,
    flattenFrom v c i cur (n :: ns) = snapshot v c i cur n ::
      (body ++ flattenFrom v c (i + 1) (wrappingAdd cur (viewSize v c.visited n)) ns) ∧
    (body = [] ∨ ∃ c', CallsAt v c i cur n c' ∧ body = flattenNodes v c') := by
  rw [flattenFrom]
  refine ⟨_, rfl, ?_⟩
  split
  · rw [List.nil_append]
    split
    · rename_i c' hinline
      obtain ⟨uuid, -, htarget, -⟩ := (inlined_eq_some v).mp hinline
      rw [classInstanceTarget_eq] at htarget
      split
      · rename_i d hderef
        obtain ⟨_, -, -, -, hpointer, -⟩ := (dereferenced_eq_some v).mp hderef
        rw [not_pointer_of_embeds htarget] at hpointer
        cases hpointer
      · exact .inr ⟨c', .inlined hinline, List.append_nil _⟩
    · split
      · rename_i c' hderef
        exact .inr ⟨c', .dereferenced hderef, List.nil_append _⟩
      · exact .inl rfl
  · rename_i hne
    have hchildren : n.children ≠ [] := fun hnil => hne (by rw [hnil]; rfl)
    obtain ⟨hembeds, hpointer⟩ := plain_of_children hchildren
    split
    · rename_i c' hinline
      obtain ⟨uuid, -, htarget, -⟩ := (inlined_eq_some v).mp hinline
      rw [classInstanceTarget_eq, hembeds] at htarget
      cases htarget
    · split
      · rename_i d hderef
        obtain ⟨_, -, -, -, htarget, -⟩ := (dereferenced_eq_some v).mp hderef
        rw [hpointer] at htarget
        cases htarget
      · exact .inr ⟨_, .nested hchildren, by rw [List.append_nil, List.append_nil]; rfl⟩

/-- No two rows that are listed below a call have the same id. -/
theorem nodup_idPath (c : Call) {p : List ℕ} (hp : c.parentId = pathId p) :
    ((flattenNodes v c).map NodeSnapshot.idPath).Nodup := by
  have hfrom : ∀ (ns : List Node) (i : ℕ), c.children.drop i = ns →
      ((flattenFrom v c i (offsetAt v c i) ns).map NodeSnapshot.idPath).Nodup := by
    intro ns
    induction ns with
    | nil =>
      intro i _
      rw [flattenFrom]
      exact List.nodup_nil
    | cons n ns ih =>
      intro i hns
      have hn : c.children[i]? = some n := by rw [← List.head?_drop, hns, List.head?_cons]
      have hrest : c.children.drop (i + 1) = ns := by rw [← List.tail_drop, hns, List.tail_cons]
      obtain ⟨body, heq, hbody⟩ := flattenFrom_cons (v := v) c i (offsetAt v c i) n ns
      rw [heq, ← offsetAt_succ hn, List.map_cons, List.map_append]
      -- what is listed below this child goes on from its own id
      have hbelow : ∀ row ∈ body, ∃ q k, row.idPath = pathId (q ++ k :: i :: p) := by
        intro row hrow
        rcases hbody with rfl | ⟨c', hcall, rfl⟩
        · cases hrow
        · exact idPath_of_mem ((parentId_of_callsAt hcall).trans (idPath_of_parentId hp i)) hrow
      have hafter : ∀ row ∈ flattenFrom v c (i + 1) (offsetAt v c (i + 1)) ns,
          ∃ q k, i < k ∧ row.idPath = pathId (q ++ k :: p) := fun row hrow =>
        idPath_of_mem_flattenFrom hp hrest hrow
      have hown : (snapshot v c i (offsetAt v c i) n).idPath = pathId ([] ++ i :: p) :=
        idPath_of_parentId hp i
      refine List.nodup_cons.mpr ⟨fun hmem => ?_, List.nodup_append.mpr ⟨?_, ih (i + 1) hrest, ?_⟩⟩
      · rw [hown] at hmem
        rcases List.mem_append.mp hmem with hmem | hmem
        · obtain ⟨row, hrow, hid⟩ := List.mem_map.mp hmem
          obtain ⟨q, k, hpath⟩ := hbelow row hrow
          have hlength := congrArg List.length (pathId_inj (hpath.symm.trans hid))
          simp at hlength
          omega
        · obtain ⟨row, hrow, hid⟩ := List.mem_map.mp hmem
          obtain ⟨q, k, hlt, hpath⟩ := hafter row hrow
          exact absurd (parts_eq (hid.symm.trans hpath)) (Nat.ne_of_lt hlt)
      · rcases hbody with rfl | ⟨c', hcall, rfl⟩
        · exact List.nodup_nil
        · have hsub : SubCall v c c' := ⟨i, n, hn, hcall⟩
          exact nodup_idPath c' ((parentId_of_callsAt hcall).trans (idPath_of_parentId hp i))
      · intro a ha b hb hab
        obtain ⟨row, hrow, rfl⟩ := List.mem_map.mp ha
        obtain ⟨row', hrow', rfl⟩ := List.mem_map.mp hb
        obtain ⟨q, k, hpath⟩ := hbelow row hrow
        obtain ⟨q', k', hlt, hpath'⟩ := hafter row' hrow'
        rw [hpath, hpath'] at hab
        have hsplit : q ++ k :: i :: p = (q ++ [k]) ++ i :: p := by simp
        rw [hsplit] at hab
        exact absurd (parts_eq hab) (Nat.ne_of_lt hlt)
  exact hfrom c.children 0 rfl
termination_by (c.depthBudget, sizeOf c.children)
decreasing_by exact hsub.smaller

/-- A row whose id goes on from another row's by one index is listed in a call that was made for
that row. -/
theorem callsAt_of_child {root : Call} (hroot : root.parentId = "") {child : NodeSnapshot}
    (hrow : row ∈ flattenNodes v root) (hchild : child ∈ flattenNodes v root) {j : ℕ}
    (hid : child.idPath = row.idPath ++ "." ++ toString j) : ∃ d i n c' k m, row = rowAt v d i n ∧
      CallsAt v d i (offsetAt v d i) n c' ∧ child = rowAt v c' k m := by
  have hroot' : root.parentId = pathId [] := hroot
  obtain ⟨q, l, hpath⟩ := idPath_of_mem hroot' hrow
  obtain ⟨up, hup⟩ : ∃ up, q ++ [l] = up := ⟨_, rfl⟩
  have hne : (pathId up).isEmpty = false := by
    cases up with
    | nil => simp at hup
    | cons i up => exact isEmpty_pathId i up
  have hchildPath : child.idPath = pathId (j :: up) := by
    rw [hid, hpath, hup, pathId, hne]
    rfl
  obtain ⟨c', k, m, hcalls, -, rfl⟩ := exists_of_mem_flattenNodes root hchild
  obtain ⟨p', hp'⟩ := parentId_of_path hroot' hcalls
  rw [List.append_nil] at hp'
  have hsame := pathId_inj ((idPath_of_parentId hp' k).symm.trans hchildPath)
  obtain ⟨rfl, rfl⟩ := List.cons.inj hsame
  rcases ReflTransGen.cases_tail hcalls with rfl | ⟨d, hd, i, n, hn, hcall⟩
  · rw [hroot] at hp'
    rw [← hp'] at hne
    cases hne
  · have hmem : rowAt v d i n ∈ flattenNodes v root := mem_flattenNodes_iff.mpr ⟨d, i, n, hd, hn, rfl⟩
    have hids : (rowAt v d i n).idPath = row.idPath := by
      rw [hpath, hup, ← hp', parentId_of_callsAt hcall]
      rfl
    exact ⟨d, i, n, c', k, m, List.inj_on_of_nodup_map (nodup_idPath root hroot') hrow hmem
      hids.symm, hcall, rfl⟩

/-- Below an expanded pointer the rows are listed from the address that is kept for it. -/
theorem address_of_child {root : Call} (hroot : root.parentId = "") {child : NodeSnapshot}
    (hrow : row ∈ flattenNodes v root) (hchild : child ∈ flattenNodes v root) {j : ℕ}
    (hid : child.idPath = row.idPath ++ "." ++ toString j) (hpointer : row.pointerTarget.isSome) :
    ∃ addr buf, v.derefBufs row.idPath = some (addr, buf) ∧
      child.address = wrappingAdd addr child.offset := by
  obtain ⟨d, i, n, c', k, m, rfl, hcall, rfl⟩ := callsAt_of_child hroot hrow hchild hid
  have htarget : (pointerTargetClass n).isSome := hpointer
  cases hcall with
  | nested hne =>
    rw [(plain_of_children hne).2] at htarget
    cases htarget
  | inlined heq =>
    obtain ⟨uuid, -, hembeds, -⟩ := (inlined_eq_some v).mp heq
    rw [classInstanceTarget_eq] at hembeds
    rw [not_pointer_of_embeds hembeds] at htarget
    cases htarget
  | dereferenced heq =>
    obtain ⟨uuid, target, addr, buf, -, -, hbuf, -, rfl⟩ := (dereferenced_eq_some v).mp heq
    exact ⟨addr, buf, hbuf, rfl⟩

/-- No two rows of the class view have the same id, by which the view keeps what is collapsed, what
is expanded, what is edited and what was read. -/
theorem view_ids_nodup (uuid : Uuid) (viewed : ClassNode) (addr depthBudget : ℕ) :
    ((flattenNodes v (viewCall uuid viewed addr depthBudget)).map NodeSnapshot.idPath).Nodup :=
  nodup_idPath (p := []) _ rfl

end Ids

end Nemclass.Ui
