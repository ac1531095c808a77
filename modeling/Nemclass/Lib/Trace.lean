import Mathlib.Data.List.Induction

/-! A machine that answers one input after another. Its trace holds the inputs with their answers;
what every step keeps of the trace so far and the state, every run keeps. -/
namespace Nemclass.Trace

variable {σ ι ω : Type*} {step : σ → ι → ω × σ} {s : σ}

/-- The state after the inputs. -/
def final (step : σ → ι → ω × σ) (s : σ) (inputs : List ι) : σ :=
  inputs.foldl (fun s i => (step s i).2) s

def trace (step : σ → ι → ω × σ) (s : σ) : List ι → List (ι × ω)
  | [] => []
  | i :: inputs => (i, (step s i).1) :: trace step (step s i).2 inputs

theorem final_cons (i : ι) (inputs : List ι) :
    final step s (i :: inputs) = final step (step s i).2 inputs := rfl

theorem final_append (earlier later : List ι) :
    final step s (earlier ++ later) = final step (final step s earlier) later :=
  List.foldl_append

theorem final_concat (inputs : List ι) (i : ι) :
    final step s (inputs ++ [i]) = (step (final step s inputs) i).2 := by
  rw [final_append]
  rfl

theorem trace_append (earlier later : List ι) : trace step s (earlier ++ later) =
    trace step s earlier ++ trace step (final step s earlier) later := by
  induction earlier generalizing s with
  | nil => rfl
  | cons i earlier ih =>
    rw [List.cons_append, trace, trace, ih, final_cons, List.cons_append]

theorem trace_concat (inputs : List ι) (i : ι) : trace step s (inputs ++ [i]) =
    trace step s inputs ++ [(i, (step (final step s inputs) i).1)] := by
  rw [trace_append]
  rfl

theorem map_fst_trace (inputs : List ι) : (trace step s inputs).map Prod.fst = inputs := by
  induction inputs generalizing s with
  | nil => rfl
  | cons i inputs ih => rw [trace, List.map_cons, ih]

/-- A part of the trace is the trace of a part of the inputs. -/
theorem exists_of_trace_eq_append {inputs : List ι} {before after : List (ι × ω)}
    (h : trace step s inputs = before ++ after) : ∃ earlier later, inputs = earlier ++ later ∧
      trace step s earlier = before ∧ trace step (final step s earlier) later = after := by
  induction before generalizing s inputs with
  | nil => exact ⟨[], inputs, rfl, rfl, h⟩
  | cons first before ih =>
    cases inputs with
    | nil => cases h
    | cons i inputs =>
      rw [trace, List.cons_append, List.cons.injEq] at h
      obtain ⟨earlier, later, rfl, hbefore, hafter⟩ := ih h.2
      exact ⟨i :: earlier, later, rfl, by rw [trace, hbefore, h.1], hafter⟩

/-- What holds at the start and is kept by a step holds of the trace and the state of every run. -/
theorem holds_of_step (Inv : List (ι × ω) → σ → Prop) (hstart : Inv [] s)
    (hstep : ∀ past s i, Inv past s → Inv (past ++ [(i, (step s i).1)]) (step s i).2)
    (inputs : List ι) : Inv (trace step s inputs) (final step s inputs) := by
  induction inputs using List.reverseRecOn with
  | nil => exact hstart
  | append_singleton inputs i ih =>
    rw [trace_concat, final_concat]
    exact hstep _ _ i ih

/-- In a run from a state that a step does not leave, every answer is one that such states give. -/
theorem forall_of_keeps {P : σ → Prop} {Q : ι → ω → Prop} (hs : P s)
    (hkeeps : ∀ s i, P s → P (step s i).2) (hanswer : ∀ s i, P s → Q i (step s i).1)
    {inputs : List ι} {i : ι} {o : ω} (h : (i, o) ∈ trace step s inputs) : Q i o := by
  induction inputs generalizing s with
  | nil => cases h
  | cons j inputs ih =>
    rcases List.mem_cons.mp h with h | h
    · cases h
      exact hanswer s _ hs
    · exact ih (hkeeps s j hs) h

/-- Where a step keeps a property exactly if it meets a condition, a run has it throughout exactly
if all its steps meet the condition. -/
theorem forall_final_iff {P : σ → Prop} {G : σ → ι → Prop} (hs : P s)
    (hstep : ∀ s i, P s → (P (step s i).2 ↔ G s i)) (inputs : List ι) :
    (∀ earlier later, inputs = earlier ++ later → P (final step s earlier)) ↔
      ∀ earlier i later, inputs = earlier ++ i :: later → G (final step s earlier) i := by
  constructor
  · rintro h earlier i later rfl
    refine (hstep _ i (h earlier (i :: later) rfl)).mp ?_
    rw [← final_concat]
    exact h _ later (by rw [List.append_assoc, List.singleton_append])
  · intro h earlier
    induction earlier using List.reverseRecOn with
    | nil => exact fun _ _ => hs
    | append_singleton earlier i ih =>
      rintro later rfl
      rw [List.append_assoc, List.singleton_append] at h ih
      rw [final_concat]
      exact (hstep _ i (ih _ rfl)).mpr (h earlier i later rfl)

/-- Every step of the run meets the condition. -/
def Along (G : σ → ι → Prop) (step : σ → ι → ω × σ) (s : σ) : List ι → Prop
  | [] => True
  | i :: inputs => G s i ∧ Along G step (step s i).2 inputs

theorem along_append {G : σ → ι → Prop} (earlier later : List ι) :
    Along G step s (earlier ++ later) ↔
      Along G step s earlier ∧ Along G step (final step s earlier) later := by
  induction earlier generalizing s with
  | nil => exact ⟨fun h => ⟨trivial, h⟩, And.right⟩
  | cons i earlier ih =>
    rw [List.cons_append, Along, Along, ih, final_cons, and_assoc]

/-- What steps that meet the condition keep, a run of them keeps. -/
theorem Along.keeps {G : σ → ι → Prop} {P : σ → Prop} {inputs : List ι}
    (h : Along G step s inputs) (hs : P s) (hstep : ∀ s i, P s → G s i → P (step s i).2) :
    P (final step s inputs) := by
  induction inputs generalizing s with
  | nil => exact hs
  | cons i inputs ih => exact ih h.2 (hstep s i hs h.1)

/-- What every step keeps, every run keeps. -/
theorem final_keeps {P : σ → Prop} (hs : P s) (hstep : ∀ s i, P s → P (step s i).2)
    (inputs : List ι) : P (final step s inputs) := by
  induction inputs generalizing s with
  | nil => exact hs
  | cons i inputs ih => exact ih (hstep s i hs)

end Nemclass.Trace
