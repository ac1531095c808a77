import Mathlib.Tactic.Common

/-! Programs that change a state and may fail, and what they guarantee from every state:
a result that satisfies a postcondition, or a failure that is allowed. The rules follow
the program's text. -/
namespace Nemclass.Guarded

variable {σ ε α β τ : Type} {allowed : ε → Prop}

abbrev Program (σ ε : Type) := ExceptT ε (StateM σ)

/-- What a program ends with, from a state. -/
def outcome (m : Program σ ε α) (s : σ) : Except ε α × σ := StateT.run m.run s

structure Guarantees (allowed : ε → Prop) (m : Program σ ε α) (post : α → Prop) : Prop where
  outcome : ∀ s, match (outcome m s).1 with
    | .ok a => post a
    | .error e => allowed e

theorem outcome_bind (m : Program σ ε α) (f : α → Program σ ε β) (s : σ) :
    outcome (m >>= f) s = match outcome m s with
      | (.ok a, s) => outcome (f a) s
      | (.error e, s) => (.error e, s) := by
  change outcome (ExceptT.bind m f) s = _
  simp only [outcome, ExceptT.bind, ExceptT.mk, ExceptT.run, StateT.run, bind, StateT.bind,
    ExceptT.bindCont, pure]
  rcases m s with ⟨_ | _, _⟩ <;> rfl

namespace Guarantees

theorem pure {a : α} {post : α → Prop} (h : post a) :
    Guarantees allowed (Pure.pure a : Program σ ε α) post :=
  ⟨fun _ => h⟩

theorem throw {e : ε} {post : α → Prop} (h : allowed e) :
    Guarantees allowed (MonadExcept.throw e : Program σ ε α) post :=
  ⟨fun _ => h⟩

theorem bind {m : Program σ ε α} {f : α → Program σ ε β} {mid : α → Prop} {post : β → Prop}
    (hm : Guarantees allowed m mid) (hf : ∀ a, mid a → Guarantees allowed (f a) post) :
    Guarantees allowed (m >>= f) post := by
  refine ⟨fun s => ?_⟩
  rw [outcome_bind]
  have hs := hm.outcome s
  revert hs
  rcases Guarded.outcome m s with ⟨_ | a, s'⟩
  · exact id
  · exact fun ha => (hf a ha).outcome s'

end Guarantees

/-- Runs a body for at most `count` rounds, until it answers `false`. -/
def loop (body : ℕ → τ → Program σ ε (τ × Bool)) : (count round : ℕ) → τ → Program σ ε τ
  | 0, _, t => pure t
  | count + 1, round, t => do
    let (t, go) ← body round t
    if go then loop body count (round + 1) t else pure t

/-- What every round keeps, the loop keeps. -/
theorem Guarantees.loop {body : ℕ → τ → Program σ ε (τ × Bool)} {inv : τ → Prop} {bound : ℕ}
    (hbody : ∀ round < bound, ∀ t, inv t → Guarantees allowed (body round t) fun r => inv r.1)
    (count round : ℕ) (hbound : round + count ≤ bound) {t : τ} (ht : inv t) :
    Guarantees allowed (loop body count round t) inv := by
  induction count generalizing round t with
  | zero => exact .pure ht
  | succ count ih =>
    refine (hbody round (by omega) t ht).bind fun r hr => ?_
    obtain ⟨t, go⟩ := r
    cases go with
    | true => exact ih (round + 1) (by omega) hr
    | false => exact .pure hr

/-- A loop whose rounds are all allowed is, whatever it carries. -/
theorem Guarantees.loop_of_forall {body : ℕ → τ → Program σ ε (τ × Bool)} {bound : ℕ}
    (hbody : ∀ round < bound, ∀ t, Guarantees allowed (body round t) fun _ => True) {count : ℕ}
    (hbound : count ≤ bound) (t : τ) :
    Guarantees allowed (Guarded.loop body count 0 t) fun _ => True :=
  .loop (fun round hround t _ => hbody round hround t) count 0 (by omega) trivial

/-- From every state the program gives the value, or fails where there is none. -/
structure Computes (m : Program σ ε α) (v : Option α) : Prop where
  ok : ∀ a, v = some a → ∀ s, (outcome m s).1 = .ok a
  error : v = none → ∀ s, ∃ e, (outcome m s).1 = .error e

namespace Computes

theorem pure (a : α) : Computes (Pure.pure a : Program σ ε α) (some a) :=
  ⟨fun _ h _ => congrArg Except.ok (Option.some.inj h), nofun⟩

theorem throw (e : ε) : Computes (MonadExcept.throw e : Program σ ε α) none :=
  ⟨nofun, fun _ _ => ⟨e, rfl⟩⟩

theorem bind {m : Program σ ε α} {f : α → Program σ ε β} {v : Option α} {g : α → Option β}
    (hm : Computes m v) (hf : ∀ a, v = some a → Computes (f a) (g a)) :
    Computes (m >>= f) (v.bind g) := by
  cases v with
  | none =>
    refine ⟨nofun, fun _ s => ?_⟩
    obtain ⟨e, he⟩ := hm.error rfl s
    rw [outcome_bind]
    revert he
    rcases Guarded.outcome m s with ⟨e' | a, s'⟩
    · exact fun _ => ⟨e', rfl⟩
    · exact nofun
  | some b =>
    have hnext (s : σ) : ∃ s', Guarded.outcome (m >>= f) s = Guarded.outcome (f b) s' := by
      have hs := hm.ok b rfl s
      rw [outcome_bind]
      revert hs
      rcases Guarded.outcome m s with ⟨e | a, s'⟩
      · exact nofun
      · intro ha
        cases ha
        exact ⟨s', rfl⟩
    refine ⟨fun c hc s => ?_, fun hnone s => ?_⟩
    · obtain ⟨s', hs'⟩ := hnext s
      rw [hs']
      exact (hf b rfl).ok c hc s'
    · obtain ⟨s', hs'⟩ := hnext s
      rw [hs']
      exact (hf b rfl).error hnone s'

/-- What follows a failure is not run. -/
theorem bind_none {m : Program σ ε α} {f : α → Program σ ε β} (hm : Computes m none) :
    Computes (m >>= f) none :=
  hm.bind (g := fun _ => none) fun _ h => absurd h.symm (Option.some_ne_none _)

/-- The value is what a successful run gives. -/
theorem ok_iff {m : Program σ ε α} {v : Option α} (h : Computes m v) (s : σ) (a : α) :
    (Guarded.outcome m s).1 = .ok a ↔ v = some a := by
  refine ⟨fun ha => ?_, fun ha => h.ok a ha s⟩
  cases v with
  | none =>
    obtain ⟨e, he⟩ := h.error rfl s
    cases he.symm.trans ha
  | some b => exact congrArg some (Except.ok.inj ((h.ok b rfl s).symm.trans ha))

end Computes

/-- The value of a loop whose rounds have values. -/
def loopValue (body : ℕ → τ → Option (τ × Bool)) : (count round : ℕ) → τ → Option τ
  | 0, _, t => some t
  | count + 1, round, t =>
    (body round t).bind fun r =>
      if r.2 then loopValue body count (round + 1) r.1 else some r.1

theorem Computes.loop {body : ℕ → τ → Program σ ε (τ × Bool)} {value : ℕ → τ → Option (τ × Bool)}
    {bound : ℕ} (hbody : ∀ round < bound, ∀ t, Computes (body round t) (value round t))
    (count round : ℕ) (hbound : round + count ≤ bound) (t : τ) :
    Computes (Guarded.loop body count round t) (loopValue value count round t) := by
  induction count generalizing round t with
  | zero => exact .pure t
  | succ count ih =>
    refine (hbody round (by omega) t).bind fun r _ => ?_
    obtain ⟨t, go⟩ := r
    cases go with
    | true => exact ih (round + 1) (by omega) t
    | false => exact .pure t

/-- A loop whose first rounds go from state to state gives what the others give. -/
theorem Computes.loop_rounds {body : ℕ → τ → Program σ ε (τ × Bool)} {t : ℕ → τ} {n count : ℕ}
    (hround : ∀ i < n, Computes (body i (t i)) (some (t (i + 1), true))) (hn : n ≤ count)
    {v : Option τ} (hrest : Computes (Guarded.loop body (count - n) n (t n)) v) :
    Computes (Guarded.loop body count 0 (t 0)) v := by
  induction n with
  | zero => exact hrest
  | succ n ih =>
    refine ih (fun i hi => hround i (Nat.lt_succ_of_lt hi)) (Nat.le_of_succ_le hn) ?_
    rw [show count - n = (count - (n + 1)) + 1 by omega, Guarded.loop]
    refine (hround n n.lt_succ_self).bind (g := fun _ => v) fun r hr => ?_
    cases hr
    exact hrest

/-- A loop that adds to a list in every round adds up what the rounds have. -/
theorem loopValue_append {f : ℕ → Option (List α)} (count round : ℕ) (t : List α) :
    loopValue (fun i t => (f i).map fun xs => (t ++ xs, true)) count round t =
      ((List.range' round count).mapM f).map fun xs => t ++ xs.flatten := by
  induction count generalizing round t with
  | zero => simp [loopValue]
  | succ count ih =>
    rw [loopValue, List.range'_succ, List.mapM_cons]
    cases f round with
    | none => rfl
    | some xs =>
      simp only [Option.map_some, Option.bind_some, ih, if_true, Option.bind_eq_bind,
        Option.pure_def]
      cases (List.range' (round + 1) count).mapM f with
      | none => rfl
      | some xss => simp

/-- Keeping some of the values one by one, each of which has to be sound where it is kept. -/
theorem mapM_select {f : α → Option β} {keep sound : β → Prop} [DecidablePred keep]
    [DecidablePred sound] (g : β → τ) (xs : List α) :
    (xs.mapM fun x => (f x).bind fun y =>
        if keep y then if sound y then some [g y] else none else some []).map List.flatten =
      (xs.mapM f).bind fun ys =>
        if ∀ y ∈ ys, keep y → sound y then some ((ys.filter keep).map g) else none := by
  induction xs with
  | nil => simp
  | cons x xs ih =>
    rw [List.mapM_cons, List.mapM_cons]
    cases f x with
    | none => rfl
    | some y =>
      simp only [Option.bind_eq_bind, Option.pure_def, Option.bind_some, Option.bind_assoc,
        List.forall_mem_cons]
      by_cases hkeep : keep y
      · by_cases hsound : sound y
        · have hsel := congrArg (Option.map (g y :: ·)) ih
          rw [Option.map_map, Option.map_bind] at hsel
          simpa [hkeep, hsound, Option.map_eq_bind, Option.map_bind, Option.bind_assoc,
            Function.comp_def, apply_ite] using hsel
        · simp [hkeep, hsound]
      · simpa [hkeep, Option.map_eq_bind, Option.bind_assoc, Function.comp_def] using ih

end Nemclass.Guarded
