import Mathlib.Data.List.Forall2
import Mathlib.Data.List.Nodup
import Mathlib.Tactic.Common

/-! Records in the order in which their keys came, where a value under a key that is there replaces
the one before: of the values put under one key the last remains. -/
namespace Nemclass.Records

variable {κ α β : Type} [DecidableEq κ]

def insert (record : List (κ × α)) (k : κ) (v : α) : List (κ × α) :=
  match record with
  | [] => [(k, v)]
  | (k', w) :: rest => if k' = k then (k', v) :: rest else (k', w) :: insert rest k v

/-- One value after another is put under its key. -/
def insertAll (key : β → κ) (val : β → α) (record : List (κ × α)) (fs : List β) : List (κ × α) :=
  fs.foldl (fun record f => insert record (key f) (val f)) record

/-- None after it has the same key. -/
def Last (key : β → κ) (fs : List β) (f : β) : Prop :=
  ∃ before after, fs = before ++ f :: after ∧ ∀ g ∈ after, key g ≠ key f

section Lookup

theorem lookup_insert (record : List (κ × α)) (k k' : κ) (v : α) :
    (insert record k v).lookup k' = if k' = k then some v else record.lookup k' := by
  induction record with
  | nil =>
    rw [insert, List.lookup_cons]
    by_cases hk : k' = k
    · rw [beq_iff_eq.mpr hk, if_pos hk]
    · rw [beq_eq_false_iff_ne.mpr hk, if_neg hk]
  | cons entry rest ih =>
    obtain ⟨j, w⟩ := entry
    rw [insert]
    split
    · rename_i hj
      subst hj
      rw [List.lookup_cons, List.lookup_cons]
      by_cases hk : k' = j
      · rw [beq_iff_eq.mpr hk, if_pos hk]
      · rw [beq_eq_false_iff_ne.mpr hk, if_neg hk]
    · rename_i hj
      rw [List.lookup_cons, List.lookup_cons, ih]
      by_cases hk : k' = j
      · subst hk
        simp only [beq_self_eq_true, if_neg hj]
      · rw [beq_eq_false_iff_ne.mpr hk]

theorem keys_insert (record : List (κ × α)) (k : κ) (v : α) :
    (insert record k v).map Prod.fst =
      if k ∈ record.map Prod.fst then record.map Prod.fst else record.map Prod.fst ++ [k] := by
  induction record with
  | nil => rfl
  | cons entry rest ih =>
    obtain ⟨j, w⟩ := entry
    rw [insert]
    split
    · rename_i hj
      rw [if_pos (by simp [hj])]
      rfl
    · rename_i hj
      simp only [List.map_cons, ih, List.mem_cons, Ne.symm hj, false_or]
      split <;> rfl

theorem nodup_insert {record : List (κ × α)} (h : (record.map Prod.fst).Nodup) (k : κ) (v : α) :
    ((insert record k v).map Prod.fst).Nodup := by
  rw [keys_insert]
  split
  · exact h
  · rename_i hk
    refine List.nodup_append.mpr ⟨h, List.nodup_singleton k, fun a ha b hb => ?_⟩
    rw [List.mem_singleton.mp hb]
    exact fun heq => hk (heq ▸ ha)

variable {key : β → κ} (val : β → α)

theorem lookup_insertAll_of_ne {fs : List β} {k : κ}
    (h : ∀ f ∈ fs, key f ≠ k) (record : List (κ × α)) :
    (insertAll key val record fs).lookup k = record.lookup k := by
  induction fs generalizing record with
  | nil => rfl
  | cons f fs ih =>
    rw [insertAll, List.foldl_cons]
    obtain ⟨hf, hfs⟩ := List.forall_mem_cons.mp h
    have hrest := ih hfs (insert record (key f) (val f))
    rw [lookup_insert, if_neg (Ne.symm hf)] at hrest
    exact hrest

theorem lookup_insertAll_of_last {fs : List β} {f : β} (h : Last key fs f)
    (record : List (κ × α)) : (insertAll key val record fs).lookup (key f) = some (val f) := by
  obtain ⟨before, after, rfl, hafter⟩ := h
  rw [insertAll, List.foldl_append, List.foldl_cons]
  have hrest := lookup_insertAll_of_ne val hafter
    (insert (insertAll key val record before) (key f) (val f))
  rw [lookup_insert, if_pos rfl] at hrest
  exact hrest

end Lookup

section Agree

variable {key : β → κ} {val val' : β → α}

/-- The records have the same keys and differ at most under the keys of what is still to come. -/
def Agree (key : β → κ) (fs : List β) (record record' : List (κ × α)) : Prop :=
  List.Forall₂ (fun x y => x.1 = y.1 ∧ ((∀ f ∈ fs, key f ≠ x.1) → x.2 = y.2)) record record'

/-- One more value under a key, the same in both unless another comes under it. -/
theorem Agree.insert {f : β} {fs : List β} {record record' : List (κ × α)}
    (h : Agree key (f :: fs) record record') (hnodup : (record.map Prod.fst).Nodup)
    (hval : (∀ g ∈ fs, key g ≠ key f) → val f = val' f) :
    Agree key fs (insert record (key f) (val f)) (insert record' (key f) (val' f)) := by
  have hlater {x y : κ × α} (hxy : x.1 = y.1 ∧ ((∀ g ∈ f :: fs, key g ≠ x.1) → x.2 = y.2))
      (hne : key f ≠ x.1) : x.1 = y.1 ∧ ((∀ g ∈ fs, key g ≠ x.1) → x.2 = y.2) :=
    ⟨hxy.1, fun hfs => hxy.2 (List.forall_mem_cons.mpr ⟨hne, hfs⟩)⟩
  induction h with
  | nil => exact .cons ⟨rfl, hval⟩ .nil
  | @cons x y rest rest' hxy hrest ih =>
    obtain ⟨k, v⟩ := x
    obtain ⟨k', v'⟩ := y
    obtain rfl : k = k' := hxy.1
    rw [List.map_cons, List.nodup_cons] at hnodup
    rw [Records.insert, Records.insert]
    by_cases hk : k = key f
    · rw [if_pos hk, if_pos hk]
      subst hk
      refine .cons ⟨rfl, hval⟩ ?_
      have hothers : ∀ x ∈ rest, key f ≠ x.1 := fun x hx heq =>
        hnodup.1 (List.mem_map.mpr ⟨x, hx, heq.symm⟩)
      clear ih hnodup
      induction hrest with
      | nil => exact .nil
      | cons hxy _ ih =>
        obtain ⟨hne, hothers⟩ := List.forall_mem_cons.mp hothers
        exact .cons (hlater hxy hne) (ih hothers)
    · rw [if_neg hk, if_neg hk]
      exact .cons (hlater hxy (Ne.symm hk)) (ih hnodup.2)

theorem insertAll_congr {fs : List β} {record record' : List (κ × α)}
    (h : Agree key fs record record') (hnodup : (record.map Prod.fst).Nodup)
    (hval : ∀ f, Last key fs f → val f = val' f) :
    insertAll key val record fs = insertAll key val' record' fs := by
  induction fs generalizing record record' with
  | nil =>
    have heq : List.Forall₂ Eq record record' :=
      h.imp fun x y hxy => Prod.ext hxy.1 (hxy.2 (List.forall_mem_nil _))
    rwa [List.forall₂_eq_eq_eq] at heq
  | cons f fs ih =>
    refine ih (h.insert hnodup fun hfs => hval f ⟨[], fs, rfl, hfs⟩) (nodup_insert hnodup _ _)
      fun g hg => hval g ?_
    obtain ⟨before, after, rfl, hafter⟩ := hg
    exact ⟨f :: before, after, rfl, hafter⟩

/-- Two records of the same keys are one exactly if the last values under each key are. -/
theorem insertAll_eq_iff {fs : List β} :
    insertAll key val [] fs = insertAll key val' [] fs ↔
      ∀ f, Last key fs f → val f = val' f := by
  constructor
  · intro h f hf
    have hlookup := congrArg (List.lookup (key f)) h
    rw [lookup_insertAll_of_last val hf, lookup_insertAll_of_last val' hf] at hlookup
    exact Option.some_inj.mp hlookup
  · exact insertAll_congr .nil List.nodup_nil

end Agree

section Members

theorem mem_insert {record : List (κ × α)} {k : κ} {v : α} {e : κ × α}
    (h : e ∈ insert record k v) : e = (k, v) ∨ e ∈ record := by
  induction record with
  | nil => exact .inl (List.mem_singleton.mp h)
  | cons entry rest ih =>
    rw [insert] at h
    split at h
    · rename_i hk
      rcases List.mem_cons.mp h with rfl | h
      · exact .inl (by rw [hk])
      · exact .inr (List.mem_cons_of_mem _ h)
    · rcases List.mem_cons.mp h with rfl | h
      · exact .inr List.mem_cons_self
      · exact (ih h).imp_right (List.mem_cons_of_mem _)

theorem insert_of_notMem {record : List (κ × α)} {k : κ} (h : k ∉ record.map Prod.fst) (v : α) :
    insert record k v = record ++ [(k, v)] := by
  induction record with
  | nil => rfl
  | cons entry rest ih =>
    rw [List.map_cons, List.mem_cons, not_or] at h
    rw [insert, if_neg (Ne.symm h.1), ih h.2, List.cons_append]

/-- Values under keys of their own are put behind one another. -/
theorem insertAll_of_nodup {fs : List (κ × α)} (h : (fs.map Prod.fst).Nodup) :
    insertAll Prod.fst Prod.snd [] fs = fs := by
  suffices hall : ∀ record : List (κ × α), ((record ++ fs).map Prod.fst).Nodup →
      insertAll Prod.fst Prod.snd record fs = record ++ fs from hall [] h
  intro record hnodup
  induction fs generalizing record with
  | nil => rw [List.append_nil]; rfl
  | cons f fs ih =>
    have hnew : f.1 ∉ record.map Prod.fst := fun hmem => by
      rw [List.map_append, List.map_cons, List.nodup_append] at hnodup
      exact hnodup.2.2 f.1 hmem f.1 List.mem_cons_self rfl
    rw [List.map_cons, List.nodup_cons] at h
    have hrest := ih h.2 (record ++ [f]) (by rwa [List.append_assoc])
    rw [List.append_assoc] at hrest
    rw [insertAll, List.foldl_cons, insert_of_notMem hnew]
    exact hrest

theorem mem_of_lookup {record : List (κ × α)} {k : κ} {v : α} (h : record.lookup k = some v) :
    (k, v) ∈ record := by
  obtain ⟨before, after, rfl, -⟩ := List.lookup_eq_some_iff.mp h
  exact List.mem_append_right before List.mem_cons_self

theorem mem_iff_lookup {record : List (κ × α)} (h : (record.map Prod.fst).Nodup) {k : κ} {v : α} :
    (k, v) ∈ record ↔ record.lookup k = some v := by
  refine ⟨fun hmem => ?_, mem_of_lookup⟩
  obtain ⟨before, after, rfl⟩ := List.append_of_mem hmem
  refine List.lookup_eq_some_iff.mpr ⟨before, after, rfl, fun p hp => ?_⟩
  rw [List.map_append, List.map_cons, List.nodup_append] at h
  rw [bne_iff_ne]
  exact Ne.symm (h.2.2 p.1 (List.mem_map_of_mem hp) k List.mem_cons_self)

theorem lookup_without (record : List (κ × α)) (k k' : κ) :
    (record.filter (·.1 ≠ k)).lookup k' = if k' = k then none else record.lookup k' := by
  induction record with
  | nil => simp
  | cons entry rest ih =>
    by_cases hk : entry.1 = k
    · rw [List.filter_cons_of_neg (by simp [hk]), ih, List.lookup_cons]
      by_cases hk' : k' = k
      · rw [if_pos hk', if_pos hk']
      · rw [if_neg hk', if_neg hk', hk, beq_eq_false_iff_ne.mpr hk']
    · rw [List.filter_cons_of_pos (by simp [hk]), List.lookup_cons, List.lookup_cons, ih]
      by_cases hk' : k' = k
      · rw [if_pos hk', if_pos hk', hk', beq_eq_false_iff_ne.mpr (Ne.symm hk)]
      · rw [if_neg hk', if_neg hk']

end Members

end Nemclass.Records
