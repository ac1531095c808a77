import Mathlib.Data.List.Induction
import Mathlib.Data.List.Nodup
import Mathlib.Tactic.Common

/-! Entries under keys, and the keys in the order in which they came: an item starts the
entry of its key when there is none, and is worked into it. In the end there is one entry
for each key that came, made of the items that came under it. -/
namespace Nemclass.FirstSeen

variable {κ α β : Type} [DecidableEq κ]

/-- Each key once, in the order in which they are seen first. -/
def firstSeen (ks : List κ) : List κ := ks.eraseDups

@[simp] theorem mem_firstSeen {ks : List κ} {k : κ} : k ∈ firstSeen ks ↔ k ∈ ks :=
  List.mem_eraseDups

@[simp] theorem firstSeen_nil : firstSeen ([] : List κ) = [] := rfl

@[simp] theorem firstSeen_singleton (k : κ) : firstSeen [k] = [k] := rfl

theorem firstSeen_concat (ks : List κ) (k : κ) :
    firstSeen (ks ++ [k]) = if k ∈ ks then firstSeen ks else firstSeen ks ++ [k] := by
  rw [firstSeen, List.eraseDups_append]
  by_cases hmem : k ∈ ks
  · have hnone : [k].removeAll ks = [] := by simpa [List.removeAll] using hmem
    rw [hnone, if_pos hmem, List.eraseDups_nil, List.append_nil]
    rfl
  · have hone : [k].removeAll ks = [k] := by simpa [List.removeAll] using hmem
    rw [hone, if_neg hmem]
    rfl

/-- The keys that have an entry are listed once. -/
structure Table (κ α : Type) where
  order : List κ
  entries : κ → Option α
  nodup : order.Nodup
  mem_order : ∀ k, k ∈ order ↔ (entries k).isSome

namespace Table

def empty : Table κ α := ⟨[], fun _ => none, .nil, by simp⟩

/-- Changes the entry of a key, a new one when there is none. -/
def put (t : Table κ α) (k : κ) (fresh : α) (change : α → α) : Table κ α where
  order := if (t.entries k).isSome then t.order else t.order ++ [k]
  entries k' := if k' = k then some (change ((t.entries k).getD fresh)) else t.entries k'
  nodup := by
    split
    · exact t.nodup
    · rename_i hnew
      have hk : k ∉ t.order := fun hmem => hnew ((t.mem_order k).mp hmem)
      exact List.nodup_append.mpr ⟨t.nodup, List.nodup_singleton k, by
        rintro a ha b hb rfl
        exact hk (List.mem_singleton.mp hb ▸ ha)⟩
  mem_order k' := by
    by_cases hk : k' = k
    · subst hk
      split <;> simp_all [t.mem_order]
    · split <;> simp [hk, t.mem_order]

/-- Takes the entries out, one key after the other. -/
def takeOut (entries : κ → Option α) : List κ → List α
  | [] => []
  | k :: ks =>
    (entries k).toList ++ takeOut (fun k' => if k' = k then none else entries k') ks

def values (t : Table κ α) : List α := takeOut t.entries t.order

theorem takeOut_eq (entries : κ → Option α) {ks : List κ} (h : ks.Nodup) :
    takeOut entries ks = ks.filterMap entries := by
  induction ks generalizing entries with
  | nil => rfl
  | cons k ks ih =>
    obtain ⟨hk, hks⟩ := List.nodup_cons.mp h
    have hrest : ks.filterMap (fun k' => if k' = k then none else entries k') =
        ks.filterMap entries :=
      List.filterMap_congr fun k' hmem => if_neg fun heq : k' = k => hk (heq ▸ hmem)
    rw [takeOut, ih _ hks, hrest, List.filterMap_cons]
    cases entries k <;> rfl

theorem values_eq (t : Table κ α) : t.values = t.order.filterMap t.entries :=
  takeOut_eq t.entries t.nodup

end Table

section Gathering
variable (key : β → κ) (fresh : β → α) (work : β → α → α)

def putAll (items : List β) : Table κ α :=
  items.foldl (fun t b => t.put (key b) (fresh b) (work b)) .empty

/-- The entry that items of one key make. -/
def gather : List β → Option α
  | [] => none
  | b :: bs => some ((b :: bs).foldl (fun a c => work c a) (fresh b))

theorem gather_concat (bs : List β) (b : β) :
    gather fresh work (bs ++ [b]) =
      some (work b ((gather fresh work bs).getD (fresh b))) := by
  cases bs with
  | nil => rfl
  | cons c cs => simp [gather, List.foldl_append]

theorem putAll_concat (bs : List β) (b : β) :
    putAll key fresh work (bs ++ [b]) =
      (putAll key fresh work bs).put (key b) (fresh b) (work b) := by
  rw [putAll, List.foldl_append]
  rfl

theorem entries_putAll (items : List β) (k : κ) :
    (putAll key fresh work items).entries k =
      gather fresh work (items.filter fun b => key b = k) := by
  induction items using List.reverseRecOn with
  | nil => rfl
  | append_singleton bs b ih =>
    rw [putAll_concat, List.filter_append]
    by_cases hk : k = key b
    · subst hk
      rw [List.filter_singleton, decide_eq_true rfl, cond_true, gather_concat, ← ih]
      exact if_pos rfl
    · have hkey : ¬key b = k := fun h => hk h.symm
      rw [List.filter_singleton, decide_eq_false hkey, cond_false, List.append_nil,
        ← ih]
      exact if_neg hk

theorem isSome_gather {bs : List β} : (gather fresh work bs).isSome ↔ bs ≠ [] := by
  cases bs <;> simp [gather]

theorem order_putAll (items : List β) :
    (putAll key fresh work items).order = firstSeen (items.map key) := by
  induction items using List.reverseRecOn with
  | nil => rfl
  | append_singleton bs b ih =>
    have hsome : ((putAll key fresh work bs).entries (key b)).isSome ↔ key b ∈ bs.map key := by
      rw [entries_putAll, isSome_gather, ne_eq, List.filter_eq_nil_iff]
      simp
    rw [putAll_concat, List.map_append, List.map_singleton, firstSeen_concat, ← ih]
    exact if_congr hsome rfl rfl

/-- One entry for each key, as the keys came, made of the key's own items. -/
theorem values_putAll (items : List β) :
    (putAll key fresh work items).values =
      (firstSeen (items.map key)).filterMap fun k =>
        gather fresh work (items.filter fun b => key b = k) := by
  rw [Table.values_eq, order_putAll]
  exact List.filterMap_congr fun k _ => entries_putAll key fresh work items k

end Gathering

end Nemclass.FirstSeen
