import Nemclass.Lib.Descent
import Nemclass.Script.EngineBridge

/-! While the UI thread runs its frames, the engine works off whatever it was sent. -/
namespace Nemclass.EngineRusty
open Trace

variable {W : Wire} {Host : Type}

/-- What a script may come to next, whatever the host answers it. -/
inductive Follows (rt : Runtime W) : W.Js → W.Js → Prop where
  | goes {js js' : W.Js} : rt.move js = .goes js' → Follows rt js js'
  | logs {js js' : W.Js} {msg : String} : rt.move js = .logs msg js' → Follows rt js js'
  | asks {js : W.Js} {f : HostFn W} {k : Except String W.Value → W.Js} (r : Except String W.Value) :
      rt.move js = .asks f k → Follows rt js (k r)

/-- No call into the runtime goes on for ever. -/
def Runtime.Returns (rt : Runtime W) : Prop :=
  ∀ e js, Acc (fun js' js => Follows rt js js') (rt.enter e js)

/-- Where the worker is in a script: at a state of its own, or before the host's answer. -/
inductive Place (W : Wire) where
  | at (js : W.Js)
  | before (k : Except String W.Value → W.Js)
  | out

inductive Place.Next (rt : Runtime W) : Place W → Place W → Prop where
  | goes {js js' : W.Js} : rt.move js = .goes js' → Next rt (.at js) (.at js')
  | logs {js js' : W.Js} {msg : String} : rt.move js = .logs msg js' → Next rt (.at js) (.at js')
  | asks {js : W.Js} {f : HostFn W} {k : Except String W.Value → W.Js} :
      rt.move js = .asks f k → Next rt (.at js) (.before k)
  | denied {js : W.Js} {f : HostFn W} {k : Except String W.Value → W.Js} (r : Except String W.Value) :
      rt.move js = .asks f k → Next rt (.at js) (.at (k r))
  | answered {k : Except String W.Value → W.Js} (r : Except String W.Value) :
      Next rt (.before k) (.at (k r))

theorem Place.acc_at {rt : Runtime W} {js : W.Js} (h : Acc (fun js' js => Follows rt js js') js) :
    Acc (fun p' p => Next rt p p') (.at js) := by
  induction h with
  | intro js _ ih =>
    refine Acc.intro _ fun p hnext => ?_
    cases hnext with
    | goes hmove => exact ih _ (.goes hmove)
    | logs hmove => exact ih _ (.logs hmove)
    | denied r hmove => exact ih _ (.asks r hmove)
    | asks hmove =>
      refine Acc.intro _ fun p hnext => ?_
      cases hnext with
      | answered r => exact ih _ (.asks r hmove)

theorem Place.acc_before {rt : Runtime W} {k : Except String W.Value → W.Js}
    (h : ∀ r, Acc (fun p' p => Next rt p p') (.at (k r))) :
    Acc (fun p' p => Next rt p p') (.before k) := by
  refine Acc.intro _ fun p hnext => ?_
  cases hnext with
  | answered r => exact h r

namespace Worker

def place : Worker W → Place W
  | runs _ js => .at js
  | waits _ _ k => .before k
  | _ => .out

/-- The calls that the command in work still takes. -/
def calls : Worker W → ℕ
  | runs (.reset _) _ => 2
  | waits (.reset _) _ _ => 2
  | runs _ _ => 1
  | waits _ _ _ => 1
  | _ => 0

end Worker

/-- The turns that the worker and the pump have to take. -/
inductive Serves (rt : Runtime W) (api : HostApi W Host) : State W Host → State W Host → Prop where
  | take {s : State W Host} {js : W.Js} : s.worker = .idle js → s.cmds ≠ [] →
      Serves rt api s (s.step rt api .work).2
  | run {s : State W Host} {job : Job W} {js : W.Js} : s.worker = .runs job js →
      Serves rt api s (s.step rt api .work).2
  | resume {s : State W Host} {job : Job W} {reply : ℕ} {k : Except String W.Value → W.Js} :
      s.worker = .waits job reply k → reply ∈ s.replies.map Prod.fst →
      Serves rt api s (s.step rt api .work).2
  | pump {s : State W Host} : s.ui = .free → s.hostQueue ≠ [] →
      Serves rt api s (s.step rt api .pump).2

theorem Place.acc_out (rt : Runtime W) : Acc (fun p' p => Next rt p p') .out := by
  refine Acc.intro _ fun p hnext => ?_
  cases hnext

namespace State

/-- A command takes two calls at most. -/
def rank (s : State W Host) : ℕ := 3 * s.cmds.length + s.worker.calls

def InCall (rt : Runtime W) (s : State W Host) : Prop :=
  Acc (fun p' p => Place.Next rt p p') s.worker.place

variable {rt : Runtime W} {s : State W Host}

/-- A turn of the worker leaves less to do, or brings the script further. -/
def Goes (rt : Runtime W) (s s' : State W Host) : Prop :=
  s'.InCall rt ∧ (s'.rank < s.rank ∨ s'.rank = s.rank ∧ Place.Next rt s.worker.place s'.worker.place)

theorem goes_entry (hreturns : rt.Returns) {s' : State W Host} {job : Job W} {e : Entry W}
    {js : W.Js} (hrun : s'.worker = .runs job (rt.enter e js)) (hrank : s'.rank < s.rank) :
    s.Goes rt s' := by
  refine ⟨?_, .inl hrank⟩
  unfold InCall
  rw [hrun]
  exact Place.acc_at (hreturns e js)

theorem goes_out {s' : State W Host} (hout : s'.worker.place = .out) (hrank : s'.rank < s.rank) :
    s.Goes rt s' := by
  refine ⟨?_, .inl hrank⟩
  unfold InCall
  rw [hout]
  exact Place.acc_out rt

theorem goes_on (hs : s.InCall rt) {s' : State W Host} (hrank : s'.rank = s.rank)
    (hnext : Place.Next rt s.worker.place s'.worker.place) : s.Goes rt s' :=
  ⟨hs.inv hnext, .inr ⟨hrank, hnext⟩⟩

theorem goes_take (hreturns : rt.Returns) {js : W.Js} (hidle : s.worker = .idle js)
    {c : Command W} {cmds : List (Command W)} (hcmds : s.cmds = c :: cmds) :
    s.Goes rt ({ s with cmds := cmds }.take rt js c).2 := by
  have hrank : s.rank = 3 * cmds.length + 3 := by
    rw [rank, hcmds, hidle, List.length_cons]
    rfl
  cases c with
  | loadScriptsDir dir => exact goes_entry hreturns rfl (by rw [hrank]; exact Nat.lt_succ_self _)
  | dispatch event =>
    refine goes_entry hreturns rfl ?_
    rw [hrank]
    exact Nat.add_lt_add_left (show 1 < 3 by decide) _
  | resolveClassAddress query reply =>
    refine goes_entry hreturns rfl ?_
    rw [hrank]
    exact Nat.add_lt_add_left (show 1 < 3 by decide) _
  | shutdown =>
    refine goes_out rfl ?_
    rw [hrank]
    exact Nat.succ_pos _

theorem goes_finish (hreturns : rt.Returns) {job : Job W} {js : W.Js}
    (hrun : s.worker = .runs job js) (js' : W.Js) (out : Except String (Option ℤ)) :
    s.Goes rt (s.finish rt js' out job).2 := by
  have hrank : s.rank = 3 * s.cmds.length + (Worker.runs job js).calls := by rw [rank, hrun]
  have hlt (msg : String → String) (w : Worker W) (hcalls : w.calls < (Worker.runs job js).calls) :
      ({ (s.logError msg out).2 with worker := w } : State W Host).rank < s.rank := by
    rw [hrank, rank, logError_cmds]
    exact Nat.add_lt_add_left hcalls _
  cases job with
  | reset dir => exact goes_entry hreturns rfl (hlt _ _ (Nat.lt_succ_self 1))
  | loadGeneration dir => exact goes_out rfl (hlt _ _ Nat.one_pos)
  | dispatch kind => exact goes_out rfl (hlt _ _ Nat.one_pos)
  | resolve reply => exact goes_out rfl (hlt _ (.idle js') Nat.one_pos)

theorem calls_pos (job : Job W) (js : W.Js) : 0 < (Worker.runs job js).calls := by
  cases job <;> exact Nat.succ_pos _

theorem calls_waits (job : Job W) (js : W.Js) (reply : ℕ) (k : Except String W.Value → W.Js) :
    (Worker.waits job reply k).calls = (Worker.runs job js).calls := by
  cases job <;> rfl

theorem goes_run (hreturns : rt.Returns) (hs : s.InCall rt) {job : Job W} {js : W.Js}
    (hrun : s.worker = .runs job js) : s.Goes rt (s.work rt).2 := by
  have hplace : s.worker.place = .at js := by rw [hrun]; rfl
  have hcalls (js' : W.Js) : (Worker.runs job js').calls = s.worker.calls := by
    rw [hrun]
    cases job <;> rfl
  have hkeep (js' : W.Js) : ({ s with worker := .runs job js' } : State W Host).rank = s.rank := by
    simp only [rank, hcalls]
  unfold work
  rw [hrun]
  dsimp only
  split
  · rename_i js' hmove
    exact goes_on hs (hkeep js') (hplace ▸ .goes hmove)
  · rename_i msg js' hmove
    exact goes_on hs (hkeep js') (hplace ▸ .logs hmove)
  · rename_i f k hmove
    unfold ask
    split
    · exact goes_on hs (hkeep _) (hplace ▸ .denied _ hmove)
    · refine goes_on hs ?_ (hplace ▸ .asks hmove)
      simp only [rank, calls_waits job js, hcalls]
  · exact goes_finish hreturns hrun _ _
  · refine goes_out rfl ?_
    simp only [rank, exit, List.length_nil, hrun]
    exact Nat.lt_of_lt_of_le (calls_pos job js) (Nat.le_add_left _ _)

theorem goes_resume (hs : s.InCall rt) {job : Job W} {reply : ℕ}
    {k : Except String W.Value → W.Js} (hwait : s.worker = .waits job reply k)
    (hreply : reply ∈ s.replies.map Prod.fst) : s.Goes rt (s.work rt).2 := by
  have hplace : s.worker.place = .before k := by rw [hwait]; rfl
  unfold work
  rw [hwait]
  dsimp only
  split
  · rename_i hnone
    obtain ⟨sent, hmem, hkey⟩ := List.mem_map.mp hreply
    exact absurd hkey (by simpa using List.find?_eq_none.mp hnone sent hmem)
  · rename_i sent hsent
    refine goes_on hs ?_ (hplace ▸ .answered _)
    simp only [rank, hwait, calls_waits job (k (rt.receive sent.2))]

end State

theorem serves_lowers {rt : Runtime W} (hreturns : rt.Returns) (api : HostApi W Host) :
    Descent.Lowers (Serves rt api) (Place.Next rt) (State.InCall rt) State.rank
      (fun s => s.worker.place) (fun s => s.hostQueue.length) := by
  have hgoes {s s' : State W Host} (hs : s.InCall rt) (hstep : Serves rt api s s') :
      s.Goes rt s' ∨ s'.worker = s.worker ∧ s'.cmds = s.cmds ∧
        s'.hostQueue.length < s.hostQueue.length := by
    cases hstep with
    | @take js hidle hcmds =>
      obtain ⟨c, cmds, heq⟩ := List.exists_cons_of_ne_nil hcmds
      have htake := State.goes_take hreturns hidle heq
      simp only [State.step, State.work, hidle, heq]
      exact .inl htake
    | run hrun => exact .inl (State.goes_run hreturns hs hrun)
    | resume hwait hreply => exact .inl (State.goes_resume hs hwait hreply)
    | pump hfree hqueue =>
      obtain ⟨req, hostQueue, heq⟩ := List.exists_cons_of_ne_nil hqueue
      refine .inr ?_
      simp only [State.step, hfree, if_true, State.pump, heq, List.length_cons, true_and]
      exact Nat.lt_succ_self _
  constructor
  · intro s s' hs hstep
    rcases hgoes hs hstep with hgo | ⟨hworker, -⟩
    · exact hgo.1
    · unfold State.InCall
      rw [hworker]
      exact hs
  · exact id
  · intro s s' hs hstep
    rcases hgoes hs hstep with ⟨-, hlt | ⟨hrank, hnext⟩⟩ | ⟨hworker, hcmds, hlt⟩
    · exact .inl hlt
    · exact .inr ⟨hrank, .inl hnext⟩
    · refine .inr ⟨?_, .inr ⟨?_, hlt⟩⟩
      · rw [State.rank, State.rank, hcmds, hworker]
      · rw [hworker]

namespace State
variable {rt : Runtime W} {s : State W Host}

theorem inCall_work (hreturns : rt.Returns) (hs : s.InCall rt) : (s.work rt).2.InCall rt := by
  cases hw : s.worker with
  | idle js =>
    cases hc : s.cmds with
    | nil => simpa only [work, hw, hc] using hs
    | cons c cmds => simpa only [work, hw, hc] using (goes_take hreturns hw hc).1
  | runs job js => exact (goes_run hreturns hs hw).1
  | waits job reply k =>
    by_cases hreply : reply ∈ s.replies.map Prod.fst
    · exact (goes_resume hs hw hreply).1
    · have hnone : s.replies.find? (·.1 = reply) = none := List.find?_eq_none.mpr fun sent hmem => by
        simpa using fun hkey => hreply (List.mem_map.mpr ⟨sent, hmem, hkey⟩)
      simpa only [work, hw, hnone] using hs
  | gone => simpa only [work, hw] using hs

/-- Only the worker's own turns change what the worker is at. -/
theorem step_worker (api : HostApi W Host) (input : Input W Host) :
    (s.step rt api input).2.worker = s.worker ∨ (s.step rt api input).2 = (s.work rt).2 := by
  cases input with
  | loadScripts dir =>
    refine .inl ?_
    simp only [step]
    split
    · exact send_worker _
    · rfl
  | onEvent event =>
    refine .inl ?_
    simp only [step]
    split
    · exact send_worker _
    · rfl
  | resolveClassAddress query =>
    refine .inl ?_
    simp only [step]
    split
    · exact resolve_worker query
    · rfl
  | pump =>
    refine .inl ?_
    simp only [step]
    split
    · exact pump_worker api
    · rfl
  | frame host =>
    refine .inl ?_
    simp only [step]
    split <;> rfl
  | drop =>
    refine .inl ?_
    simp only [step]
    split
    · exact send_worker _
    · rfl
  | wake => exact .inl wake_worker
  | resolver query => exact .inl (resolve_worker query)
  | work => exact .inr rfl

theorem inCall_spawn (rt : Runtime W) (host : Host) : (spawn rt host).InCall rt := Place.acc_out rt

theorem inCall_step (hreturns : rt.Returns) (hs : s.InCall rt) (api : HostApi W Host)
    (input : Input W Host) : (s.step rt api input).2.InCall rt := by
  rcases step_worker api input with hworker | hwork
  · unfold InCall
    rw [hworker]
    exact hs
  · rw [hwork]
    exact inCall_work hreturns hs

end State

/-- Where neither the worker nor the pump has a turn to take, all is done. -/
theorem Orderly.at_rest {rt : Runtime W} {api : HostApi W Host} {log : List (Note W)}
    {s : State W Host} (h : Orderly log s) (hfree : s.ui = .free)
    (hrest : ∀ s', ¬ Serves rt api s s') :
    s.cmds = [] ∧ s.hostQueue = [] ∧ s.worker.query = [] ∧ s.worker.awaits = [] := by
  have hqueue : s.hostQueue = [] := not_not.mp fun hne => hrest _ (.pump hfree hne)
  cases hw : s.worker with
  | idle js =>
    exact ⟨not_not.mp fun hne => hrest _ (.take hw hne), hqueue, rfl, rfl⟩
  | runs job js => exact absurd (Serves.run hw) (hrest _)
  | waits job reply k =>
    have hreplies : s.replies.map Prod.fst = [reply] := by
      simpa [hqueue, hw, Worker.awaits] using h.outstanding
    exact absurd (Serves.resume hw (hreplies ▸ List.mem_singleton_self reply)) (hrest _)
  | gone => exact ⟨h.cmds_of_gone hw, hqueue, rfl, rfl⟩

/-- A turn of the worker or the pump adds to the record and leaves the UI thread as it is. -/
theorem Orderly.serves {rt : Runtime W} {api : HostApi W Host} {log : List (Note W)}
    {s s' : State W Host} (h : Orderly log s) (hstep : Serves rt api s s') :
    (∃ more, Orderly (log ++ more) s') ∧ s'.ui = s.ui := by
  cases hstep with
  | take _ _ => exact ⟨⟨_, h.work rt⟩, State.work_ui⟩
  | run _ => exact ⟨⟨_, h.work rt⟩, State.work_ui⟩
  | resume _ _ => exact ⟨⟨_, h.work rt⟩, State.work_ui⟩
  | pump hfree _ =>
    simp only [State.step, hfree, if_true]
    exact ⟨⟨_, h.pump api⟩, (State.pump_ui api).trans hfree⟩

theorem Orderly.serves_all {rt : Runtime W} {api : HostApi W Host} {log : List (Note W)}
    {s s' : State W Host} (h : Orderly log s) (hsteps : Relation.ReflTransGen (Serves rt api) s s') :
    (∃ more, Orderly (log ++ more) s') ∧ s'.ui = s.ui := by
  induction hsteps with
  | refl => exact ⟨⟨[], by rw [List.append_nil]; exact h⟩, rfl⟩
  | tail _ hstep ih =>
    obtain ⟨⟨more, hmore⟩, hui⟩ := ih
    obtain ⟨⟨more', hmore'⟩, hui'⟩ := hmore.serves hstep
    exact ⟨⟨more ++ more', by rw [← List.append_assoc]; exact hmore'⟩, hui'.trans hui⟩

/-- While the UI thread runs its frames, the worker and the pump come to rest whatever the order of
their turns, if the scripts return: every command is worked off or dropped with the worker, no host
call waits, and each query made has its answer. -/
theorem engine_comes_to_rest (rt : Runtime W) (hreturns : rt.Returns) (api : HostApi W Host)
    (host : Host) (inputs : List (Input W Host)) (hfree : (after rt api host inputs).ui = .free) :
    (∀ run : ℕ → State W Host, run 0 = after rt api host inputs →
      ∃ n, ¬ Serves rt api (run n) (run (n + 1))) ∧
    ∀ s, Relation.ReflTransGen (Serves rt api) (after rt api host inputs) s →
      (∀ s', ¬ Serves rt api s s') →
      s.cmds = [] ∧ s.hostQueue = [] ∧ s.worker.query = [] ∧ s.worker.awaits = [] ∧
      ∀ reply ∈ (record rt api host inputs).flatMap Note.asks, reply ∈ s.answers.map Prod.fst := by
  have horderly := orderly_run rt api host inputs
  have hcall : (after rt api host inputs).InCall rt :=
    final_keeps (State.inCall_spawn rt host)
      (fun s i h => State.inCall_step hreturns h api i) inputs
  refine ⟨Descent.exists_not_step ((serves_lowers hreturns api).acc hcall), ?_⟩
  intro s hsteps hrest
  obtain ⟨⟨more, hmore⟩, hui⟩ := horderly.serves_all hsteps
  obtain ⟨hcmds, hqueue, hquery, hawaits⟩ := hmore.at_rest (hui.trans hfree) hrest
  refine ⟨hcmds, hqueue, hquery, hawaits, fun reply hreply => ?_⟩
  have hmem : reply ∈ (record rt api host inputs ++ more).flatMap Note.asks := by
    rw [List.flatMap_append]
    exact List.mem_append_left _ hreply
  simpa [hquery, hcmds] using hmore.queries.mem_iff.mp hmem

/-- A script whose handlers declare a class and whose resolver knows an address. -/
inductive SampleJs where
  | rests
  | declares
  | resolves

abbrev sampleWire : Wire := ⟨Unit, Unit, Unit, Unit, Unit, SampleJs⟩

def sampleRuntime : Runtime sampleWire where
  enter
    | .dispatch _ _, _ => .declares
    | .resolve _, _ => .resolves
    | _, _ => .rests
  move
    | .declares => .asks (.declareClass "Player" "<game.exe>+10") fun _ => .rests
    | .resolves => .ends (.ok (some 4096)) .rests
    | .rests => .ends (.ok none) .rests
  start := .rests
  debug _ := "src"
  kind _ := "OnTick"
  array _ := ()
  null := ()

def sampleHost : HostApi sampleWire Unit where
  patternScan _ _ host := (.ok [], host)
  declareType _ host := (.ok (), host)
  declareClass _ _ host := (.ok (), host)
  log _ _ host := host
  call _ _ host := (.ok (), host)

theorem sampleRuntime_returns : sampleRuntime.Returns := by
  have hrest : Acc (fun js' js => Follows sampleRuntime js js') .rests := by
    refine Acc.intro _ fun js' hnext => ?_
    cases hnext with
    | goes hmove => cases hmove
    | logs hmove => cases hmove
    | asks r hmove => cases hmove
  intro e js
  refine Acc.intro _ fun js' hnext => ?_
  cases hnext with
  | goes hmove => cases e <;> cases hmove
  | logs hmove => cases e <;> cases hmove
  | asks r hmove => cases e <;> cases hmove; exact hrest

theorem engine_comes_to_rest_sample :
    let inputs : List (Input sampleWire Unit) := [.onEvent (), .resolver (), .work, .work]
    ∀ run : ℕ → State sampleWire Unit, run 0 = after sampleRuntime sampleHost () inputs →
      ∃ n, ¬ Serves sampleRuntime sampleHost (run n) (run (n + 1)) :=
  (engine_comes_to_rest sampleRuntime sampleRuntime_returns sampleHost ()
    [.onEvent (), .resolver (), .work, .work] rfl).1

end Nemclass.EngineRusty
