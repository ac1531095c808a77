import Nemclass.Lib.MappedPrefix

/-! Writes to a memory with holes: they stop at the first hole and leave the holes where they
are. -/
namespace Nemclass.MappedPrefix

variable {α : Type}

/-- A memory with holes after values were written from an address on. -/
def overwrite (mem : ℕ → Option α) (addr : ℕ) (vs : List α) : ℕ → Option α := fun a =>
  if addr ≤ a then (mem a).map fun v => vs[a - addr]?.getD v else mem a

/-- A memory after a write that stops at the first hole. -/
def put (mem : ℕ → Option α) (addr : ℕ) (vs : List α) : ℕ → Option α :=
  overwrite mem addr (vs.take (mappedPrefix mem addr vs.length).length)

section Overwrite

variable (mem : ℕ → Option α) (addr : ℕ) (vs ws : List α)

@[simp] theorem overwrite_nil : overwrite mem addr [] = mem := by
  funext a
  simp [overwrite]

@[simp] theorem isSome_overwrite (a : ℕ) : (overwrite mem addr vs a).isSome = (mem a).isSome := by
  rw [overwrite]
  split
  · exact Option.isSome_map
  · rfl

theorem overwrite_get {i : ℕ} (h : i < vs.length) :
    overwrite mem addr vs (addr + i) = (mem (addr + i)).map fun _ => vs[i] := by
  simp [overwrite, h]

theorem overwrite_outside {a : ℕ} (h : a < addr ∨ addr + vs.length ≤ a) :
    overwrite mem addr vs a = mem a := by
  rw [overwrite]
  split
  · rw [List.getElem?_eq_none (by omega)]
    exact Option.map_id'
  · rfl

/-- Neighbouring writes are one. -/
theorem overwrite_append : overwrite (overwrite mem addr vs) (addr + vs.length) ws =
    overwrite mem addr (vs ++ ws) := by
  funext a
  by_cases hlow : addr ≤ a
  · by_cases hhigh : addr + vs.length ≤ a
    · rw [overwrite, if_pos hhigh, overwrite_outside mem addr vs (.inr hhigh), overwrite,
        if_pos hlow, List.getElem?_append_right (by omega), Nat.sub_sub]
    · rw [overwrite, if_neg hhigh, overwrite, overwrite, if_pos hlow, if_pos hlow,
        List.getElem?_append_left (by omega)]
  · rw [overwrite, if_neg (by omega), overwrite, overwrite, if_neg hlow, if_neg hlow]

end Overwrite

section Put

variable {mem mem' : ℕ → Option α} {addr : ℕ} {vs : List α}

/-- How much of a range is mapped does not depend on what is there. -/
theorem length_mappedPrefix_congr (h : ∀ a, (mem' a).isSome = (mem a).isSome) (addr len : ℕ) :
    (mappedPrefix mem' addr len).length = (mappedPrefix mem addr len).length := by
  induction len generalizing addr with
  | zero => rfl
  | succ len ih =>
    have haddr := h addr
    cases hmem : mem addr with
    | none =>
      rw [hmem, Option.isSome_none, Option.isSome_eq_false_iff, Option.isNone_iff_eq_none] at haddr
      rw [mappedPrefix_none hmem, mappedPrefix_none haddr]
    | some v =>
      rw [hmem, Option.isSome_some, Option.isSome_iff_exists] at haddr
      obtain ⟨v', hv'⟩ := haddr
      rw [mappedPrefix_some hmem, mappedPrefix_some hv', List.length_cons, List.length_cons, ih]

/-- What a range brings does not depend on the rest. -/
theorem mappedPrefix_congr {len : ℕ} (h : ∀ k < len, mem' (addr + k) = mem (addr + k)) :
    mappedPrefix mem' addr len = mappedPrefix mem addr len := by
  induction len generalizing addr with
  | zero => rfl
  | succ len ih =>
    have hrest : mappedPrefix mem' (addr + 1) len = mappedPrefix mem (addr + 1) len :=
      ih fun k hk => by
        rw [Nat.add_right_comm, Nat.add_assoc]
        exact h (k + 1) (Nat.succ_lt_succ hk)
    have hhead : mem' addr = mem addr := h 0 (Nat.succ_pos len)
    rw [mappedPrefix, mappedPrefix, hhead, hrest]

/-- A range that holds these values. -/
theorem mappedPrefix_of_values (h : ∀ i (hi : i < vs.length), mem (addr + i) = some vs[i]) :
    mappedPrefix mem addr vs.length = vs := by
  have hlen : (mappedPrefix mem addr vs.length).length = vs.length :=
    length_mappedPrefix_of_mapped fun k hk => by rw [h k hk]; rfl
  refine List.ext_getElem hlen fun i hi hi' => ?_
  exact Option.some.inj ((mappedPrefix_getElem mem addr vs.length hi).symm.trans (h i hi'))

theorem put_outside (vs : List α) {a : ℕ} (h : a < addr ∨ addr + vs.length ≤ a) :
    put mem addr vs a = mem a := by
  refine overwrite_outside mem addr _ ?_
  rw [List.length_take]
  omega

@[simp] theorem isSome_put (mem : ℕ → Option α) (addr : ℕ) (vs : List α) (a : ℕ) :
    (put mem addr vs a).isSome = (mem a).isSome := isSome_overwrite mem addr _ a

theorem length_mappedPrefix_put (mem : ℕ → Option α) (addr : ℕ) (vs : List α) (a len : ℕ) :
    (mappedPrefix (put mem addr vs) a len).length = (mappedPrefix mem a len).length :=
  length_mappedPrefix_congr (isSome_put mem addr vs) a len

/-- What was written is read back. -/
theorem mappedPrefix_put (mem : ℕ → Option α) (addr : ℕ) (vs : List α) :
    mappedPrefix (put mem addr vs) addr vs.length =
      vs.take (mappedPrefix mem addr vs.length).length := by
  have hle := length_mappedPrefix_le mem addr vs.length
  have hlen : (mappedPrefix (put mem addr vs) addr vs.length).length =
      (mappedPrefix mem addr vs.length).length :=
    length_mappedPrefix_put mem addr vs addr vs.length
  refine List.ext_getElem (by rw [hlen, List.length_take, Nat.min_eq_left hle]) fun i hi hi' => ?_
  have hput : put mem addr vs (addr + i) =
      some (vs.take (mappedPrefix mem addr vs.length).length)[i] := by
    rw [put, overwrite_get mem addr _ hi',
      mappedPrefix_getElem mem addr vs.length (hlen ▸ hi), Option.map_some]
  exact Option.some.inj ((mappedPrefix_getElem _ addr vs.length hi).symm.trans hput)

/-- After a part that is mapped throughout, the write goes on. -/
theorem put_append_of_full (h : (mappedPrefix mem addr vs.length).length = vs.length)
    (ws : List α) :
    put mem addr (vs ++ ws) = put (put mem addr vs) (addr + vs.length) ws := by
  have hput : put mem addr vs = overwrite mem addr vs := by rw [put, h, List.take_length]
  rw [hput, put, put, List.length_append, mappedPrefix_add h, List.length_append, h,
    List.take_length_add_append, length_mappedPrefix_congr (isSome_overwrite mem addr vs),
    overwrite_append]

/-- Past a hole nothing more is written. -/
theorem put_append_of_short (h : (mappedPrefix mem addr vs.length).length < vs.length)
    (ws : List α) : put mem addr (vs ++ ws) = put mem addr vs := by
  rw [put, put, List.length_append, mappedPrefix_add_of_short h, List.take_append_of_le_length (Nat.le_of_lt h)]

end Put

/-! ## One write after another -/

/-- What a write has for an address. -/
def covers (a : ℕ) (e : ℕ × List α) : Option α := if e.1 ≤ a then e.2[a - e.1]? else none

/-- What the last of the writes that reach an address has for it. -/
def lastCover (es : List (ℕ × List α)) (a : ℕ) : Option α := (es.filterMap (covers a)).getLast?

section Covers

variable {mem : ℕ → Option α} {addr a : ℕ} {vs : List α}

@[simp] theorem lastCover_nil (a : ℕ) : lastCover ([] : List (ℕ × List α)) a = none := rfl

theorem lastCover_concat (es : List (ℕ × List α)) (e : ℕ × List α) (a : ℕ) :
    lastCover (es ++ [e]) a = (covers a e).or (lastCover es a) := by
  rw [lastCover, List.filterMap_append]
  cases he : covers a e with
  | none => rw [List.filterMap_cons_none he, List.filterMap_nil, List.append_nil]; rfl
  | some v => rw [List.filterMap_cons_some he, List.filterMap_nil, List.getLast?_concat]; rfl

theorem lastCover_eq_none {es : List (ℕ × List α)} :
    lastCover es a = none ↔ ∀ e ∈ es, covers a e = none := by
  rw [lastCover, List.getLast?_eq_none_iff, List.filterMap_eq_nil_iff]

theorem exists_of_lastCover {es : List (ℕ × List α)} {v : α} (h : lastCover es a = some v) :
    ∃ e ∈ es, covers a e = some v := by
  have hmem := List.mem_of_getLast? h
  rwa [List.mem_filterMap] at hmem

theorem isSome_covers : (covers a (addr, vs)).isSome ↔ addr ≤ a ∧ a < addr + vs.length := by
  rw [covers]
  dsimp only
  split
  · rename_i hle
    rw [isSome_getElem?]
    omega
  · rename_i hlt
    simp [hlt]

theorem covers_get {i : ℕ} (h : i < vs.length) : covers (addr + i) (addr, vs) = some vs[i] := by
  rw [covers, if_pos (Nat.le_add_right addr i), Nat.add_sub_cancel_left]
  exact List.getElem?_eq_getElem h

/-- A write that stops early leaves an address as it was or writes what it has for it. -/
theorem overwrite_take (mem : ℕ → Option α) (addr : ℕ) (vs : List α) (k a : ℕ) :
    overwrite mem addr (vs.take k) a = mem a ∨
      overwrite mem addr (vs.take k) a = covers a (addr, vs) := by
  by_cases hin : addr ≤ a ∧ a < addr + (vs.take k).length
  · obtain ⟨i, rfl⟩ := Nat.exists_eq_add_of_le hin.1
    have hi : i < (vs.take k).length := by omega
    have hlt : i < vs.length := Nat.lt_of_lt_of_le hi (List.length_take_le' k vs)
    rw [overwrite_get mem addr _ hi, covers_get hlt, List.getElem_take]
    cases hmem : mem (addr + i) with
    | none => exact .inl rfl
    | some v => exact .inr rfl
  · exact .inl (overwrite_outside mem addr _ (by omega))

theorem overwrite_uncovered {k : ℕ} (h : covers a (addr, vs) = none) :
    overwrite mem addr (vs.take k) a = mem a := by
  refine overwrite_outside mem addr _ ?_
  have hnot : ¬(addr ≤ a ∧ a < addr + vs.length) := by
    rw [← isSome_covers, h]
    exact Bool.false_ne_true
  rw [List.length_take]
  omega

/-- A write to a range that is mapped throughout. -/
theorem overwrite_covered (hfull : (mappedPrefix mem addr vs.length).length = vs.length) {v : α}
    (h : covers a (addr, vs) = some v) : overwrite mem addr vs a = some v := by
  have hin : addr ≤ a ∧ a < addr + vs.length := isSome_covers.mp (h ▸ rfl)
  obtain ⟨i, rfl⟩ := Nat.exists_eq_add_of_le hin.1
  have hi : i < vs.length := by omega
  rw [covers_get hi] at h
  rw [overwrite_get mem addr vs hi, mappedPrefix_getElem mem addr vs.length (hfull.symm ▸ hi),
    Option.map_some, h]

/-- What a range holds, it has for each of its addresses. -/
theorem get_of_covers (hrange : mappedPrefix mem addr vs.length = vs) {v : α}
    (h : covers a (addr, vs) = some v) : mem a = some v := by
  have hin : addr ≤ a ∧ a < addr + vs.length := isSome_covers.mp (h ▸ rfl)
  obtain ⟨i, rfl⟩ := Nat.exists_eq_add_of_le hin.1
  have hi : i < vs.length := by omega
  rw [covers_get hi] at h
  rw [mappedPrefix_getElem mem addr vs.length (hrange.symm ▸ hi), ← h]
  simp only [hrange]

end Covers

end Nemclass.MappedPrefix
