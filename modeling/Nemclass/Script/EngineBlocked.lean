import Mathlib.Logic.Relation
import Nemclass.Script.EngineProgress

/-! The UI thread blocked on the worker: in a query of its own, or joining it when the engine is
dropped. Nobody pumps then, so that a script that calls the host waits for ever. -/
namespace Nemclass.EngineRusty
open Trace

variable {W : Wire} {Host : Type}

/-- From a state on, a call comes to its end, or takes the worker along, with no answer from the
host; a query's calls are denied at once. -/
inductive Runs (rt : Runtime W) (guarded : Bool) : W.Js → Option W.Js → Prop where
  | ends {js js' : W.Js} {out : Except String (Option ℤ)} :
      rt.move js = .ends out js' → Runs rt guarded js (some js')
  | panics {js : W.Js} : rt.move js = .panics → Runs rt guarded js none
  | goes {js js' : W.Js} {end? : Option W.Js} : rt.move js = .goes js' → Runs rt guarded js' end? →
      Runs rt guarded js end?
  | logs {js js' : W.Js} {msg : String} {end? : Option W.Js} : rt.move js = .logs msg js' →
      Runs rt guarded js' end? → Runs rt guarded js end?
  | denied {js : W.Js} {f : HostFn W} {k : Except String W.Value → W.Js} {end? : Option W.Js} :
      guarded = true → rt.move js = .asks f k → Runs rt guarded (k (.error unavailable)) end? →
      Runs rt guarded js end?

def Entry.guarded : Entry W → Bool
  | resolve _ => true
  | _ => false

def Job.guarded : Job W → Bool
  | resolve _ => true
  | _ => false

/-- The calls, one after the other; a panic spares the rest. -/
inductive Clears (rt : Runtime W) : W.Js → List (Entry W) → Prop where
  | nil {js : W.Js} : Clears rt js []
  | panics {js : W.Js} {e : Entry W} {rest : List (Entry W)} :
      Runs rt e.guarded (rt.enter e js) none → Clears rt js (e :: rest)
  | next {js js' : W.Js} {e : Entry W} {rest : List (Entry W)} :
      Runs rt e.guarded (rt.enter e js) (some js') → Clears rt js' rest → Clears rt js (e :: rest)

/-- The call in work runs on, and the rest after it. -/
def ClearFrom (rt : Runtime W) (guarded : Bool) (js : W.Js) (rest : List (Entry W)) : Prop :=
  Runs rt guarded js none ∨ ∃ js', Runs rt guarded js (some js') ∧ Clears rt js' rest

/-- The calls that the commands take, as far as the one that the UI thread is blocked on. -/
def ahead (rt : Runtime W) (ui : Ui) : ℕ → List (Command W) → List (Entry W)
  | _, [] => []
  | generation, .loadScriptsDir dir :: cmds =>
    .reset :: .loadGeneration dir (generation + 1) :: ahead rt ui (generation + 1) cmds
  | generation, .dispatch event :: cmds =>
    .dispatch (rt.kind event) event :: ahead rt ui generation cmds
  | generation, .resolveClassAddress query reply :: cmds =>
    .resolve query :: if ui = .resolving reply then [] else ahead rt ui generation cmds
  | _, .shutdown :: _ => []

/-- The calls still to come when the one in work has ended. -/
def behind (rt : Runtime W) (ui : Ui) (generation : ℕ) (cmds : List (Command W)) :
    Job W → List (Entry W)
  | .reset dir => .loadGeneration dir generation :: ahead rt ui generation cmds
  | .resolve reply => if ui = .resolving reply then [] else ahead rt ui generation cmds
  | _ => ahead rt ui generation cmds

namespace State
variable (rt : Runtime W) (s : State W Host)

/-- No script ahead of what the UI thread is blocked on waits for the host, or has its reply. -/
def Clear : Prop :=
  match s.worker with
  | .gone => True
  | .idle js => Clears rt js (ahead rt s.ui s.generation s.cmds)
  | .runs job js => ClearFrom rt job.guarded js (behind rt s.ui s.generation s.cmds job)
  | .waits job reply k => ∃ sent, s.replies.find? (·.1 = reply) = some sent ∧
      ClearFrom rt job.guarded (k (rt.receive sent.2)) (behind rt s.ui s.generation s.cmds job)

def Answered : Prop :=
  match s.ui with
  | .resolving reply => reply ∈ s.answers.map Prod.fst
  | _ => False

def Blocked : Prop :=
  match s.ui with
  | .resolving _ => True
  | .joining => True
  | _ => False

/-- What the UI thread is blocked on is still to come. -/
def Waited : Prop :=
  match s.ui with
  | .resolving reply =>
    reply ∈ s.answers.map Prod.fst ++ (s.worker.query ++ s.cmds.flatMap Command.query)
  | .joining => s.worker.isGone = true ∨ .shutdown ∈ s.cmds
  | _ => True

end State

/-- The queries that are answered or on their way. -/
def State.known (s : State W Host) : List ℕ :=
  s.answers.map Prod.fst ++ (s.worker.query ++ s.cmds.flatMap Command.query)

theorem Orderly.known_mono {log more : List (Note W)} {s s' : State W Host} (h : Orderly log s)
    (h' : Orderly (log ++ more) s') {reply : ℕ} (hreply : reply ∈ s.known) : reply ∈ s'.known := by
  have hmem : reply ∈ (log ++ more).flatMap Note.asks := by
    rw [List.flatMap_append]
    exact List.mem_append_left _ (h.queries.mem_iff.mpr hreply)
  exact h'.queries.mem_iff.mp hmem

namespace State
variable {rt : Runtime W} {s : State W Host}

theorem waited_of_free (hfree : s.ui = .free) : s.Waited := by
  unfold Waited
  rw [hfree]
  trivial

/-- The worker drops the shutdown command only by coming to its end. -/
theorem shutdown_work (h : .shutdown ∈ s.cmds) :
    (s.work rt).2.worker.isGone = true ∨ .shutdown ∈ (s.work rt).2.cmds := by
  unfold work
  split
  · split
    · exact .inr h
    · rename_i js _ c cmds hcmds
      rw [hcmds, List.mem_cons] at h
      rcases h with rfl | h
      · exact .inl rfl
      · cases c with
        | shutdown => exact .inl rfl
        | _ => exact .inr h
  · split
    · exact .inr h
    · exact .inr h
    · refine .inr ?_
      unfold ask
      split <;> exact h
    · refine .inr ?_
      rw [finish_cmds]
      exact h
    · exact .inl rfl
  · split <;> exact .inr h
  · rename_i hgone
    exact .inl (by rw [hgone]; rfl)

theorem shutdown_resolve (query : W.Query) (h : s.worker.isGone = true ∨ .shutdown ∈ s.cmds) :
    (s.resolve query).2.worker.isGone = true ∨ .shutdown ∈ (s.resolve query).2.cmds := by
  rcases h with h | h
  · exact .inl (by rw [resolve_worker, h])
  · refine .inr ?_
    unfold resolve
    split
    · exact h
    · exact List.mem_append_left _ h

end State

namespace State
variable {rt : Runtime W} {api : HostApi W Host} {s : State W Host}

/-- The turns that count while the UI thread is blocked. -/
theorem step_of_blocked (rt : Runtime W) (api : HostApi W Host) (h : s.ui ≠ .free) (input : Input W Host) :
    (s.step rt api input).2 = s ∨ (s.step rt api input).2 = s.wake ∨
      (∃ query, (s.step rt api input).2 = (s.resolve query).2) ∨
      (s.step rt api input).2 = (s.work rt).2 := by
  cases input with
  | wake => exact .inr (.inl rfl)
  | resolver query => exact .inr (.inr (.inl ⟨query, rfl⟩))
  | work => exact .inr (.inr (.inr rfl))
  | _ =>
    refine .inl ?_
    simp only [step, if_neg h]

theorem waited_resolve (query : W.Query) :
    ({ (s.resolve query).2 with ui := .resolving s.channels } : State W Host).Waited := by
  change s.channels ∈ (s.resolve query).2.known
  unfold resolve known
  split <;> simp

theorem waited_drop : ({ (s.send .shutdown).2 with ui := .joining } : State W Host).Waited := by
  change (s.send .shutdown).2.worker.isGone = true ∨ .shutdown ∈ (s.send .shutdown).2.cmds
  unfold send
  split
  · rename_i hgone
    exact .inl (by rw [hgone]; rfl)
  · exact .inr (by simp)

theorem waited_step_of_free (hfree : s.ui = .free) (input : Input W Host) :
    (s.step rt api input).2.Waited := by
  cases input with
  | resolveClassAddress query =>
    simp only [step, if_pos hfree]
    exact waited_resolve query
  | drop =>
    simp only [step, if_pos hfree]
    exact waited_drop
  | loadScripts dir =>
    simp only [step, if_pos hfree]
    exact waited_of_free ((send_ui _).trans hfree)
  | onEvent event =>
    simp only [step, if_pos hfree]
    exact waited_of_free ((send_ui _).trans hfree)
  | pump =>
    simp only [step, if_pos hfree]
    exact waited_of_free ((pump_ui api).trans hfree)
  | frame host =>
    simp only [step, if_pos hfree]
    exact waited_of_free hfree
  | wake => exact waited_of_free (by simp only [step, wake, hfree])
  | resolver query => exact waited_of_free ((resolve_ui query).trans hfree)
  | work => exact waited_of_free (work_ui.trans hfree)

theorem waited_wake (hs : s.Waited) : s.wake.Waited := by
  unfold wake
  split
  · split
    · exact trivial
    · exact hs
  · split
    · exact trivial
    · exact hs
  · exact hs

end State

/-- A query that was known stays so, and the shutdown is in the channel until the worker ends. -/
theorem Orderly.waited {log more : List (Note W)} {s s' : State W Host} (h : Orderly log s)
    (h' : Orderly (log ++ more) s') (hs : s.Waited) (hui : s'.ui = s.ui)
    (hjoin : s.worker.isGone = true ∨ .shutdown ∈ s.cmds →
      s'.worker.isGone = true ∨ .shutdown ∈ s'.cmds) : s'.Waited := by
  unfold State.Waited at hs ⊢
  rw [hui]
  cases hu : s.ui with
  | free => trivial
  | gone => trivial
  | joining =>
    rw [hu] at hs
    exact hjoin hs
  | resolving reply =>
    rw [hu] at hs
    exact h.known_mono h' hs

/-- A run keeps its order, and what the UI thread is blocked on is still to come. -/
structure Live (log : List (Note W)) (s : State W Host) : Prop where
  orderly : Orderly log s
  waited : s.Waited

namespace Live
variable {log : List (Note W)} {s : State W Host}

theorem resolve (h : Live log s) (query : W.Query) :
    Live (log ++ (s.resolve query).1) (s.resolve query).2 :=
  ⟨h.orderly.resolve query, h.orderly.waited (h.orderly.resolve query) h.waited
    (State.resolve_ui query) (State.shutdown_resolve query)⟩

theorem work (h : Live log s) (rt : Runtime W) : Live (log ++ (s.work rt).1) (s.work rt).2 := by
  refine ⟨h.orderly.work rt, h.orderly.waited (h.orderly.work rt) h.waited State.work_ui ?_⟩
  rintro (hgone | hmem)
  · have heq : (s.work rt).2 = s := by rw [State.work, gone_of_isGone hgone]
    exact .inl (by rw [heq, hgone])
  · exact State.shutdown_work hmem

theorem step (h : Live log s) (rt : Runtime W) (api : HostApi W Host) (input : Input W Host) :
    Live (log ++ (s.step rt api input).1) (s.step rt api input).2 := by
  refine ⟨h.orderly.step rt api input, ?_⟩
  by_cases hfree : s.ui = .free
  · exact State.waited_step_of_free hfree input
  · rcases State.step_of_blocked rt api hfree input with heq | heq | ⟨q, heq⟩ | heq
    all_goals rw [heq]
    · exact h.waited
    · exact State.waited_wake h.waited
    · exact (h.resolve q).waited
    · exact (h.work rt).waited

end Live

/-- What the UI thread is blocked on is among the commands. -/
def Ui.BlockedOn (cmds : List (Command W)) : Ui → Prop
  | resolving reply => reply ∈ cmds.flatMap Command.query
  | joining => .shutdown ∈ cmds
  | _ => False

/-- What is sent behind that does not count. -/
theorem ahead_append {rt : Runtime W} {ui : Ui} {cmds : List (Command W)}
    (h : ui.BlockedOn cmds) (more : List (Command W)) (generation : ℕ) :
    ahead rt ui generation (cmds ++ more) = ahead rt ui generation cmds := by
  induction cmds generalizing generation with
  | nil => cases ui <;> cases h
  | cons c cmds ih =>
    have hrest (hquery : c.query = []) (hc : c ≠ .shutdown) : ui.BlockedOn cmds := by
      cases ui with
      | resolving reply => simpa [Ui.BlockedOn, hquery] using h
      | joining => exact (List.mem_cons.mp h).resolve_left hc.symm
      | free => exact h
      | gone => exact h
    cases c with
    | loadScriptsDir dir =>
      rw [List.cons_append, ahead, ahead, ih (hrest rfl (by rintro ⟨⟩))]
    | dispatch event =>
      rw [List.cons_append, ahead, ahead, ih (hrest rfl (by rintro ⟨⟩))]
    | resolveClassAddress query reply =>
      rw [List.cons_append, ahead, ahead]
      split
      · rfl
      · rename_i hother
        rw [ih]
        cases ui with
        | resolving n =>
          have hne : n ≠ reply := fun heq => hother (heq ▸ rfl)
          simpa [Ui.BlockedOn, hne] using h
        | joining => exact (List.mem_cons.mp h).resolve_left (by rintro ⟨⟩)
        | free => exact h
        | gone => exact h
    | shutdown => rfl

theorem behind_append {rt : Runtime W} {ui : Ui} {cmds : List (Command W)} {job : Job W}
    (h : ui.BlockedOn cmds ∨ ∃ reply ∈ job.query, ui = .resolving reply)
    (more : List (Command W)) (generation : ℕ) :
    behind rt ui generation (cmds ++ more) job = behind rt ui generation cmds job := by
  have hahead (hjob : job.query = []) :
      ahead rt ui generation (cmds ++ more) = ahead rt ui generation cmds := by
    refine ahead_append (h.resolve_right ?_) more _
    rintro ⟨reply, hmem, -⟩
    rw [hjob] at hmem
    cases hmem
  cases job with
  | reset dir => simp only [behind, hahead rfl]
  | loadGeneration dir => exact hahead rfl
  | dispatch kind => exact hahead rfl
  | resolve reply =>
    simp only [behind]
    split
    · rfl
    · rename_i hother
      refine ahead_append (h.resolve_right ?_) more _
      rintro ⟨n, hmem, hui⟩
      exact hother (List.mem_singleton.mp hmem ▸ hui)

namespace State
variable {rt : Runtime W} {s : State W Host}

/-- The UI thread goes on, now or when the scripts ahead of it have run. -/
def Frees (rt : Runtime W) (s : State W Host) : Prop := s.Answered ∨ s.Clear rt

theorem blockedOn_of_waited (hblocked : s.Blocked) (hwaited : s.Waited) (hanswer : ¬ s.Answered)
    (hlive : s.worker.isGone = false) :
    s.ui.BlockedOn s.cmds ∨ ∃ reply ∈ s.worker.query, s.ui = .resolving reply := by
  unfold Blocked at hblocked
  unfold Waited at hwaited
  unfold Answered at hanswer
  cases hu : s.ui with
  | free => rw [hu] at hblocked; cases hblocked
  | gone => rw [hu] at hblocked; cases hblocked
  | joining =>
    rw [hu] at hwaited
    exact .inl (hwaited.resolve_left (by rw [hlive]; exact Bool.false_ne_true))
  | resolving reply =>
    rw [hu] at hwaited hanswer
    rcases List.mem_append.mp ((List.mem_append.mp hwaited).resolve_left hanswer) with h | h
    · exact .inr ⟨reply, h, rfl⟩
    · exact .inl h

theorem frees_resolve (hblocked : s.Blocked) (hwaited : s.Waited) (query : W.Query)
    (h : (s.resolve query).2.Frees rt) : s.Frees rt := by
  unfold resolve at h
  split at h
  · rename_i hgone
    exact .inr (by unfold Clear; rw [hgone]; trivial)
  · rename_i hlive
    by_cases hanswer : s.Answered
    · exact .inl hanswer
    · have hclear := h.resolve_left hanswer
      refine .inr ?_
      have hblock := blockedOn_of_waited hblocked hwaited hanswer (by
        cases hw : s.worker with
        | gone => exact absurd hw hlive
        | _ => rfl)
      unfold Clear at hclear ⊢
      cases hw : s.worker with
      | gone => trivial
      | idle js =>
        rw [hw] at hclear hblock
        have hcmds : s.ui.BlockedOn s.cmds := hblock.resolve_right fun ⟨_, hmem, _⟩ => by cases hmem
        simpa only [ahead_append hcmds] using hclear
      | runs job js =>
        rw [hw] at hclear hblock
        simpa only [behind_append hblock] using hclear
      | waits job reply k =>
        rw [hw] at hclear hblock
        simpa only [behind_append hblock] using hclear

end State

theorem ClearFrom.map {rt : Runtime W} {guarded : Bool} {js js' : W.Js} {rest : List (Entry W)}
    (h : ClearFrom rt guarded js' rest)
    (hstep : ∀ end?, Runs rt guarded js' end? → Runs rt guarded js end?) :
    ClearFrom rt guarded js rest := by
  rcases h with h | ⟨last, h, hrest⟩
  · exact .inl (hstep _ h)
  · exact .inr ⟨last, hstep _ h, hrest⟩

theorem ClearFrom.clears {rt : Runtime W} {e : Entry W} {js : W.Js} {rest : List (Entry W)}
    (h : ClearFrom rt e.guarded (rt.enter e js) rest) : Clears rt js (e :: rest) := by
  rcases h with h | ⟨last, h, hrest⟩
  · exact .panics h
  · exact .next h hrest

theorem Clears.clearFrom {rt : Runtime W} {js : W.Js} {e : Entry W} {rest : List (Entry W)}
    (h : Clears rt js (e :: rest)) : ClearFrom rt e.guarded (rt.enter e js) rest := by
  cases h with
  | panics h => exact .inl h
  | next h hrest => exact .inr ⟨_, h, hrest⟩

namespace State
variable {rt : Runtime W} {s : State W Host}

theorem clear_gone (hw : s.worker = .gone) : s.Clear rt := by
  rw [Clear, hw]
  trivial

theorem clear_idle {js : W.Js} (hw : s.worker = .idle js) :
    s.Clear rt ↔ Clears rt js (ahead rt s.ui s.generation s.cmds) := by
  rw [Clear, hw]

theorem clear_runs {job : Job W} {js : W.Js} (hw : s.worker = .runs job js) :
    s.Clear rt ↔ ClearFrom rt job.guarded js (behind rt s.ui s.generation s.cmds job) := by
  rw [Clear, hw]

theorem clear_waits {job : Job W} {reply : ℕ} {k : Except String W.Value → W.Js}
    (hw : s.worker = .waits job reply k) :
    s.Clear rt ↔ ∃ sent, s.replies.find? (·.1 = reply) = some sent ∧
      ClearFrom rt job.guarded (k (rt.receive sent.2))
        (behind rt s.ui s.generation s.cmds job) := by
  rw [Clear, hw]

theorem frees_take {js : W.Js} (hw : s.worker = .idle js) {c : Command W}
    {cmds : List (Command W)} (hcmds : s.cmds = c :: cmds)
    (h : ({ s with cmds := cmds }.take rt js c).2.Frees rt) : s.Frees rt := by
  rw [Frees, clear_idle hw, hcmds]
  cases c with
  | loadScriptsDir dir => exact h.imp_right fun h => ((clear_runs rfl).mp h).clears
  | dispatch event => exact h.imp_right fun h => ((clear_runs rfl).mp h).clears
  | resolveClassAddress query reply => exact h.imp_right fun h => ((clear_runs rfl).mp h).clears
  | shutdown => exact .inr .nil

theorem frees_finish {job : Job W} {js js' : W.Js} {out : Except String (Option ℤ)}
    (hw : s.worker = .runs job js) (hmove : rt.move js = .ends out js')
    (h : (s.finish rt js' out job).2.Frees rt) : s.Frees rt := by
  rw [Frees, clear_runs hw]
  have hends (hrest : Clears rt js' (behind rt s.ui s.generation s.cmds job)) :
      ClearFrom rt job.guarded js (behind rt s.ui s.generation s.cmds job) :=
    .inr ⟨js', .ends hmove, hrest⟩
  have hidle (hw' : (s.finish rt js' out job).2.worker = .idle js')
      (hclear : (s.finish rt js' out job).2.Clear rt) :
      Clears rt js' (ahead rt s.ui s.generation s.cmds) := by
    have hclears := (clear_idle hw').mp hclear
    rwa [finish_ui, finish_cmds, finish_generation] at hclears
  cases job with
  | reset dir =>
    cases out <;> exact h.imp_right fun h => hends ((clear_runs rfl).mp h).clears
  | loadGeneration dir =>
    rcases h with h | h
    · exact .inl (by cases out <;> exact h)
    · exact .inr (hends (hidle (by cases out <;> rfl) h))
  | dispatch kind =>
    rcases h with h | h
    · exact .inl (by cases out <;> exact h)
    · exact .inr (hends (hidle (by cases out <;> rfl) h))
  | resolve reply =>
    by_cases hui : s.ui = .resolving reply
    · refine .inr (hends ?_)
      simp only [behind, if_pos hui]
      exact .nil
    · simp only [behind, if_neg hui] at hends ⊢
      rcases h with h | h
      · refine .inl ?_
        have hui' : (s.finish rt js' out (.resolve reply)).2.ui = s.ui := finish_ui js' out _
        have hans : ∃ answer, (s.finish rt js' out (.resolve reply)).2.answers =
            s.answers ++ [(reply, answer)] := by cases out <;> exact ⟨_, rfl⟩
        obtain ⟨answer, hans⟩ := hans
        unfold Answered at h ⊢
        rw [hui', hans] at h
        cases hu : s.ui with
        | resolving n =>
          rw [hu] at h hui
          have hne : n ≠ reply := fun heq => hui (heq ▸ rfl)
          simpa [hne] using h
        | _ => rw [hu] at h; exact h
      · exact .inr (hends (hidle (by cases out <;> rfl) h))

theorem frees_run {log : List (Note W)} (hs : Orderly log s) {job : Job W} {js : W.Js}
    (hw : s.worker = .runs job js) (h : (s.work rt).2.Frees rt) : s.Frees rt := by
  unfold work at h
  rw [hw] at h
  dsimp only at h
  split at h
  · rename_i js' hmove
    refine h.imp_right fun h => (clear_runs hw).mpr ?_
    exact ((clear_runs rfl).mp h).map fun _ => .goes hmove
  · rename_i msg js' hmove
    refine h.imp_right fun h => (clear_runs hw).mpr ?_
    exact ((clear_runs rfl).mp h).map fun _ => .logs hmove
  · rename_i f k hmove
    unfold ask at h
    split at h
    · rename_i hresolving
      refine h.imp_right fun h => (clear_runs hw).mpr ?_
      refine ((clear_runs rfl).mp h).map fun _ => .denied ?_ hmove
      have hquery := (hs.guarded (by rw [hw]; rfl)).mp hresolving
      rw [hw] at hquery
      cases job with
      | resolve reply => rfl
      | _ => exact absurd rfl hquery
    · refine h.imp_right fun h => absurd h fun h => ?_
      -- The request has just been raised: there is no reply to it.
      obtain ⟨sent, hfind, -⟩ := (clear_waits rfl).mp h
      have hreplies : s.replies = [] := by
        have hnone := hs.outstanding
        rw [hw] at hnone
        exact List.map_eq_nil_iff.mp (List.append_eq_nil_iff.mp hnone).1
      simp [hreplies] at hfind
  · rename_i out js' hmove
    exact frees_finish hw hmove h
  · rename_i hmove
    exact .inr ((clear_runs hw).mpr (.inl (.panics hmove)))

theorem frees_work {log : List (Note W)} (hs : Orderly log s) (h : (s.work rt).2.Frees rt) :
    s.Frees rt := by
  cases hw : s.worker with
  | gone => exact .inr (clear_gone hw)
  | idle js =>
    unfold work at h
    rw [hw] at h
    dsimp only at h
    split at h
    · exact h
    · rename_i c cmds hcmds
      exact frees_take hw hcmds h
  | runs job js => exact frees_run hs hw h
  | waits job reply k =>
    unfold work at h
    rw [hw] at h
    dsimp only at h
    split at h
    · exact h
    · rename_i sent hfind
      refine h.imp_right fun h => ?_
      have hrun := (clear_runs rfl).mp h
      exact (clear_waits hw).mpr ⟨sent, hfind, hrun⟩

/-- The UI thread wakes only where it has an answer or the worker has ended. -/
theorem frees_of_wake (h : s.wake.ui ≠ s.ui) : s.Frees rt := by
  unfold wake at h
  split at h
  · rename_i reply hu
    split at h
    · rename_i hmem
      refine .inl ?_
      rw [Answered, hu]
      exact hmem
    · exact absurd rfl h
  · split at h
    · rename_i hgone
      exact .inr (clear_gone hgone)
    · exact absurd rfl h
  · exact absurd rfl h

theorem wake_cases : s.wake = s ∨ s.wake.ui ≠ s.ui := by
  unfold wake
  split
  · rename_i reply hu
    split
    · exact .inr (by rw [hu]; rintro ⟨⟩)
    · exact .inl rfl
  · rename_i hu
    split
    · exact .inr (by rw [hu]; rintro ⟨⟩)
    · exact .inl rfl
  · exact .inl rfl

/-- While the UI thread stays blocked, no turn of the other threads frees it that was not free to go
before. -/
theorem frees_step {log : List (Note W)} (hs : Live log s) (hblocked : s.Blocked)
    (api : HostApi W Host) (input : Input W Host) (h : (s.step rt api input).2.ui ≠ s.ui ∨
      (s.step rt api input).2.Frees rt) : s.Frees rt := by
  have hbusy : s.ui ≠ .free := by
    intro hfree
    rw [Blocked, hfree] at hblocked
    exact hblocked
  rcases step_of_blocked rt api hbusy input with heq | heq | ⟨query, heq⟩ | heq
  all_goals rw [heq] at h
  · exact h.resolve_left fun hne => hne rfl
  · rcases wake_cases (s := s) with hwake | hwake
    · rw [hwake] at h
      exact h.resolve_left fun hne => hne rfl
    · exact frees_of_wake hwake
  · exact frees_resolve hblocked hs.waited query (h.resolve_left fun hne => hne (resolve_ui query))
  · exact frees_work hs.orderly (h.resolve_left fun hne => hne work_ui)

end State

/-- The worker's turns, one after the other. -/
def Works (rt : Runtime W) : State W Host → State W Host → Prop :=
  Relation.ReflTransGen fun s s' => s' = (s.work rt).2

theorem Works.head {rt : Runtime W} {s s' : State W Host} (h : Works rt (s.work rt).2 s') :
    Works rt s s' := Relation.ReflTransGen.head rfl h

/-- The move that a call ends with. -/
def LastMove (rt : Runtime W) (js : W.Js) : Option W.Js → Prop
  | some js' => ∃ out, rt.move js = .ends out js'
  | none => rt.move js = .panics

/-- The worker gets through a call that waits for nobody; only its log lines are sent meanwhile. -/
theorem Runs.works {rt : Runtime W} {guarded : Bool} {js : W.Js} {end? : Option W.Js}
    (h : Runs rt guarded js end?) {s : State W Host} {job : Job W} (hw : s.worker = .runs job js)
    (hguarded : guarded = true → s.resolving = true) :
    ∃ s' last, Works rt s s' ∧ s'.worker = .runs job last ∧ LastMove rt last end? ∧
      s' = { s with hostQueue := s'.hostQueue, worker := s'.worker } := by
  induction h generalizing s with
  | ends hmove => exact ⟨s, _, .refl, hw, ⟨_, hmove⟩, rfl⟩
  | panics hmove => exact ⟨s, _, .refl, hw, hmove, rfl⟩
  | @goes js js' end? hmove _ ih =>
    have hwork : (s.work rt).2 = { s with worker := .runs job js' } := by
      simp only [State.work, hw, hmove]
    obtain ⟨s', last, hworks, hlast, hmove', hsame⟩ :=
      ih (s := (s.work rt).2) (by rw [hwork]) (by rw [hwork]; exact hguarded)
    rw [hwork] at hsame
    exact ⟨s', last, hworks.head, hlast, hmove', hsame⟩
  | @logs js js' msg end? hmove _ ih =>
    have hwork : (s.work rt).2 = { s with
        worker := .runs job js'
        hostQueue := s.hostQueue ++ [.log .info msg] } := by
      simp only [State.work, hw, hmove, State.bridgeLog]
    obtain ⟨s', last, hworks, hlast, hmove', hsame⟩ :=
      ih (s := (s.work rt).2) (by rw [hwork]) (by rw [hwork]; exact hguarded)
    rw [hwork] at hsame
    exact ⟨s', last, hworks.head, hlast, hmove', hsame⟩
  | @denied js f k end? htrue hmove _ ih =>
    have hwork : (s.work rt).2 = { s with worker := .runs job (k (.error unavailable)) } := by
      simp only [State.work, hw, hmove, State.ask, hguarded htrue, if_true]
    obtain ⟨s', last, hworks, hlast, hmove', hsame⟩ :=
      ih (s := (s.work rt).2) (by rw [hwork]) (by rw [hwork]; exact hguarded)
    rw [hwork] at hsame
    exact ⟨s', last, hworks.head, hlast, hmove', hsame⟩

namespace State
variable {rt : Runtime W} {s : State W Host} {log : List (Note W)}

/-- The worker alone brings the UI thread to go on. -/
def Wakes (rt : Runtime W) (s : State W Host) : Prop := ∃ s', Works rt s s' ∧ s'.wake.ui ≠ s.ui

theorem works_ui {s' : State W Host} (h : Works rt s s') : s'.ui = s.ui := by
  induction h with
  | refl => rfl
  | tail _ hstep ih => rw [hstep, work_ui, ih]

theorem Wakes.before {s' : State W Host} (h : s'.Wakes rt) (hworks : Works rt s s') :
    s.Wakes rt := by
  obtain ⟨last, hlast, hwake⟩ := h
  exact ⟨last, hworks.trans hlast, works_ui hworks ▸ hwake⟩

theorem wakes_of_answered (h : s.Answered) : s.Wakes rt := by
  refine ⟨s, .refl, ?_⟩
  unfold Answered at h
  cases hu : s.ui with
  | resolving reply =>
    rw [hu] at h
    simp only [wake, hu, if_pos h]
    rintro ⟨⟩
  | _ => rw [hu] at h; exact h.elim

theorem wakes_of_gone (hs : Live log s) (hblocked : s.Blocked) (hw : s.worker = .gone) :
    s.Wakes rt := by
  cases hu : s.ui with
  | free => rw [Blocked, hu] at hblocked; exact hblocked.elim
  | gone => rw [Blocked, hu] at hblocked; exact hblocked.elim
  | joining =>
    refine ⟨s, .refl, ?_⟩
    simp only [wake, hu, hw]
    rintro ⟨⟩
  | resolving reply =>
    refine wakes_of_answered ?_
    have hwaited := hs.waited
    rw [Waited, hu, hw, hs.orderly.cmds_of_gone hw] at hwaited
    rw [Answered, hu]
    simpa using hwaited

theorem blocked_congr {s' : State W Host} (hui : s'.ui = s.ui) (h : s.Blocked) : s'.Blocked := by
  rw [Blocked, hui]
  exact h

theorem live_works (hs : Live log s) {s' : State W Host} (h : Works rt s s') :
    ∃ log', Live log' s' := by
  induction h with
  | refl => exact ⟨log, hs⟩
  | tail _ hstep ih =>
    obtain ⟨log', hlive⟩ := ih
    exact ⟨_, hstep ▸ hlive.work rt⟩

/-- The call in work runs to its end, and the UI thread is freed there or by what comes next. -/
theorem wakes_of_call (hs : Live log s) (hblocked : s.Blocked) {job : Job W} {js : W.Js}
    (hw : s.worker = .runs job js) {rest : List (Entry W)} (h : ClearFrom rt job.guarded js rest)
    (hnext : ∀ log' (s' : State W Host) js' out, Live log' (s'.finish rt js' out job).2 →
      s' = { s with hostQueue := s'.hostQueue, worker := s'.worker } → Clears rt js' rest →
      (s'.finish rt js' out job).2.Wakes rt) : s.Wakes rt := by
  have hguarded : job.guarded = true → s.resolving = true := by
    intro hjob
    refine (hs.orderly.guarded (by rw [hw]; rfl)).mpr ?_
    rw [hw]
    cases job with
    | resolve reply => exact List.cons_ne_nil _ _
    | _ => cases hjob
  rcases h with h | ⟨js', h, hrest⟩
  · obtain ⟨s', last, hworks, hlast, hmove, hsame⟩ := h.works hw hguarded
    have hwork : (s'.work rt).2 = (s'.exit job.query).2 := by
      simp only [work, hlast, show rt.move last = .panics from hmove]
    have hexit : Works rt s (s'.exit job.query).2 := hworks.tail hwork.symm
    obtain ⟨log', hlive⟩ := live_works hs hexit
    exact (wakes_of_gone hlive (blocked_congr (works_ui hexit) hblocked) rfl).before hexit
  · obtain ⟨s', last, hworks, hlast, ⟨out, hmove⟩, hsame⟩ := h.works hw hguarded
    have hwork : (s'.work rt).2 = (s'.finish rt js' out job).2 := by
      simp only [work, hlast, hmove]
    have hfinish : Works rt s (s'.finish rt js' out job).2 := hworks.tail hwork.symm
    obtain ⟨log', hlive⟩ := live_works hs hfinish
    exact (hnext log' s' js' out hlive hsame hrest).before hfinish

/-- A worker at rest, with these commands to take, frees the UI thread if the scripts let it. -/
def IdleWakes (Host : Type) (rt : Runtime W) (cmds : List (Command W)) : Prop :=
  ∀ (log : List (Note W)) (s : State W Host) (js : W.Js), s.cmds = cmds → s.worker = .idle js →
    Live log s → s.Blocked → Clears rt js (ahead rt s.ui s.generation s.cmds) → s.Wakes rt

/-- When a call has ended, the worker makes the second one of its command or is at rest. -/
theorem wakes_of_finish (hidle : IdleWakes Host rt s.cmds) {job : Job W} {js : W.Js}
    {out : Except String (Option ℤ)} (hlive : Live log (s.finish rt js out job).2)
    (hblocked : s.Blocked) (h : Clears rt js (behind rt s.ui s.generation s.cmds job)) :
    (s.finish rt js out job).2.Wakes rt := by
  have hbusy : (s.finish rt js out job).2.Blocked := blocked_congr (finish_ui js out job) hblocked
  have hrest (hw : (s.finish rt js out job).2.worker = .idle js)
      (h : Clears rt js (ahead rt s.ui s.generation s.cmds)) :
      (s.finish rt js out job).2.Wakes rt := by
    refine hidle log _ js (finish_cmds js out job) hw hlive hbusy ?_
    rw [finish_ui, finish_generation, finish_cmds]
    exact h
  cases job with
  | reset dir =>
    have hrun : (s.finish rt js out (.reset dir)).2.worker =
        .runs (.loadGeneration dir) (rt.enter (.loadGeneration dir s.generation) js) := by
      cases out <;> rfl
    refine wakes_of_call hlive hbusy hrun h.clearFrom ?_
    intro log' s' js' out' hlive' hsame hrest'
    have hui : s'.ui = s.ui := (congrArg State.ui hsame).trans (finish_ui js out _)
    have hcmds : s'.cmds = s.cmds := (congrArg State.cmds hsame).trans (finish_cmds js out _)
    have hgeneration : s'.generation = s.generation :=
      (congrArg State.generation hsame).trans (finish_generation js out _)
    refine hidle log' _ js' ?_ (by cases out' <;> rfl) hlive' ?_ ?_
    · rw [finish_cmds, hcmds]
    · exact blocked_congr ((finish_ui js' out' _).trans hui) hblocked
    · rw [finish_ui, finish_generation, finish_cmds, hui, hcmds, hgeneration]
      exact hrest'
  | loadGeneration dir => exact hrest (by cases out <;> rfl) h
  | dispatch kind => exact hrest (by cases out <;> rfl) h
  | resolve reply =>
    by_cases hui : s.ui = .resolving reply
    · refine wakes_of_answered ?_
      rw [Answered, finish_ui, hui]
      cases out <;> simp [finish, logError, bridgeLog]
    · rw [behind, if_neg hui] at h
      exact hrest (by cases out <;> rfl) h

theorem wakes_of_run (hidle : IdleWakes Host rt s.cmds) (hs : Live log s) (hblocked : s.Blocked)
    {job : Job W} {js : W.Js} (hw : s.worker = .runs job js)
    (h : ClearFrom rt job.guarded js (behind rt s.ui s.generation s.cmds job)) : s.Wakes rt := by
  refine wakes_of_call hs hblocked hw h ?_
  intro log' s' js' out hlive hsame hrest
  have hui : s'.ui = s.ui := by rw [hsame]
  have hcmds : s'.cmds = s.cmds := by rw [hsame]
  have hgeneration : s'.generation = s.generation := by rw [hsame]
  refine wakes_of_finish (hcmds ▸ hidle) hlive (blocked_congr hui hblocked) ?_
  rw [hui, hcmds, hgeneration]
  exact hrest

/-- The calls of the commands ahead, one command after the other. -/
theorem idleWakes (rt : Runtime W) (cmds : List (Command W)) : IdleWakes Host rt cmds := by
  induction cmds with
  | nil =>
    intro log s js hcmds hw hs hblocked _
    by_cases hanswer : s.Answered
    · exact wakes_of_answered hanswer
    · have hblock := blockedOn_of_waited hblocked hs.waited hanswer (by rw [hw]; rfl)
      rw [hcmds, hw] at hblock
      rcases hblock with hblock | ⟨_, hmem, -⟩
      · cases hu : s.ui <;> rw [hu] at hblock <;> cases hblock
      · cases hmem
  | cons c cmds ih =>
    intro log s js hcmds hw hs hblocked h
    have hwork : (s.work rt).2 = ({ s with cmds := cmds }.take rt js c).2 := by
      simp only [work, hw, hcmds]
    have htake : Works rt s (s.work rt).2 := .single rfl
    have hlive := hs.work rt
    have hbusy : (s.work rt).2.Blocked := blocked_congr work_ui hblocked
    rw [hcmds] at h
    refine Wakes.before ?_ htake
    rw [hwork] at hlive hbusy ⊢
    cases c with
    | loadScriptsDir dir => exact wakes_of_run ih hlive hbusy rfl h.clearFrom
    | dispatch event => exact wakes_of_run ih hlive hbusy rfl h.clearFrom
    | resolveClassAddress query reply => exact wakes_of_run ih hlive hbusy rfl h.clearFrom
    | shutdown => exact wakes_of_gone hlive hbusy rfl

/-- Where no script ahead waits for the host, the worker gets to what the UI thread waits for. -/
theorem wakes_of_frees (hs : Live log s) (hblocked : s.Blocked) (h : s.Frees rt) :
    s.Wakes rt := by
  rcases h with h | h
  · exact wakes_of_answered h
  · cases hw : s.worker with
    | gone => exact wakes_of_gone hs hblocked hw
    | idle js => exact idleWakes rt s.cmds log s js rfl hw hs hblocked ((clear_idle hw).mp h)
    | runs job js =>
      exact wakes_of_run (idleWakes rt s.cmds) hs hblocked hw ((clear_runs hw).mp h)
    | waits job reply k =>
      obtain ⟨sent, hfind, hclear⟩ := (clear_waits hw).mp h
      have hwork : (s.work rt).2 = { s with
          replies := s.replies.filter (·.1 ≠ reply)
          worker := .runs job (k (rt.receive sent.2)) } := by
        simp only [work, hw, hfind]
      have hlive := hs.work rt
      have hbusy : (s.work rt).2.Blocked := blocked_congr work_ui hblocked
      refine Wakes.before ?_ (.single rfl)
      rw [hwork] at hlive hbusy ⊢
      exact wakes_of_run (idleWakes rt s.cmds) hlive hbusy rfl hclear

end State

theorem final_of_works {rt : Runtime W} {s s' : State W Host} (h : Works rt s s')
    (api : HostApi W Host) : ∃ inputs, final (State.step rt api) s inputs = s' := by
  induction h with
  | refl => exact ⟨[], rfl⟩
  | tail _ hstep ih =>
    obtain ⟨inputs, hinputs⟩ := ih
    exact ⟨inputs ++ [.work], by rw [final_concat, hinputs, hstep]; rfl⟩

theorem live_run (rt : Runtime W) (api : HostApi W Host) (host : Host)
    (inputs : List (Input W Host)) :
    Live (record rt api host inputs) (after rt api host inputs) :=
  holds_of_step (fun past s => Live (past.flatMap Prod.snd) s) ⟨Orderly.spawn rt host, trivial⟩
    (fun past s input h => by
      rw [List.flatMap_append, List.flatMap_singleton]
      exact h.step rt api input)
    inputs

/-- No turn frees a blocked UI thread that was not free to go, and else the worker's turns do. -/
theorem Live.goes_on_iff {log : List (Note W)} {s : State W Host} (hs : Live log s)
    (hblocked : s.Blocked) (rt : Runtime W) (api : HostApi W Host) :
    (∃ more, (final (State.step rt api) s more).ui ≠ s.ui) ↔ s.Frees rt := by
  constructor
  · rintro ⟨more, hmore⟩
    induction more generalizing s log with
    | nil => exact absurd rfl hmore
    | cons input more ih =>
      refine State.frees_step hs hblocked api input ?_
      by_cases hui : (s.step rt api input).2.ui = s.ui
      · refine .inr (ih (hs.step rt api input) (State.blocked_congr hui hblocked) ?_)
        rwa [final_cons, ← hui] at hmore
      · exact .inl hui
  · intro h
    obtain ⟨s', hworks, hwake⟩ := State.wakes_of_frees hs hblocked h
    obtain ⟨more, rfl⟩ := final_of_works hworks api
    exact ⟨more ++ [.wake], by rw [final_concat]; exact hwake⟩

/-- The UI thread, blocked in a query of its own or in joining the worker, goes on in some order of
turns exactly if it has its answer already, or no script ahead waits for the host: neither in the
call in work, nor in one for a command ahead of its own, queries apart. -/
theorem blocked_goes_on_iff (rt : Runtime W) (api : HostApi W Host) (host : Host)
    (inputs : List (Input W Host)) (hblocked : (after rt api host inputs).Blocked) :
    (∃ more, (after rt api host (inputs ++ more)).ui ≠ (after rt api host inputs).ui) ↔
      (after rt api host inputs).Frees rt := by
  have hiff := (live_run rt api host inputs).goes_on_iff hblocked rt api
  simp only [after, final_append] at hiff ⊢
  exact hiff

/-- An engine that is dropped while a handler waits for the host is never joined. -/
theorem blocked_goes_on_iff_drop :
    let inputs : List (Input sampleWire Unit) := [.onEvent (), .work, .work, .drop]
    ¬ ∃ more, (after sampleRuntime sampleHost () (inputs ++ more)).ui ≠ (after sampleRuntime sampleHost () inputs).ui :=
  (blocked_goes_on_iff sampleRuntime sampleHost () [.onEvent (), .work, .work, .drop] trivial).not.mpr
    (by rintro (⟨⟨⟩⟩ | ⟨_, ⟨⟩, _⟩))

end Nemclass.EngineRusty
