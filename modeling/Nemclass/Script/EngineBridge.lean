import Nemclass.Script.EngineRusty

/-! What holds of the two channels in every order of turns: commands and requests arrive once and in
order, a reply goes to the call that waits for it, and no call waits while a query is resolved. -/
namespace Nemclass.EngineRusty
open Trace Worker

variable {W : Wire} {Host : Type}

namespace Note

@[simp] def sends : Note W → List (Command W)
  | sent c => [c]
  | _ => []

@[simp] def takes : Note W → List (Command W)
  | took c => [c]
  | _ => []

@[simp] def discards : Note W → List (Command W)
  | discarded c => [c]
  | _ => []

@[simp] def raises : Note W → List (HostRequest W)
  | raised req => [req]
  | _ => []

@[simp] def serves : Note W → List (HostRequest W)
  | served req _ => [req]
  | _ => []

@[simp] def gives : Note W → List (ℕ × Reply W)
  | served _ reply => reply.toList
  | _ => []

@[simp] def resumes : Note W → List (ℕ × Reply W)
  | resumed reply => [reply]
  | _ => []

/-- The queries made, whether or not there was a worker to send them to. -/
@[simp] def asks : Note W → List ℕ
  | sent c => c.query
  | refused c => c.query
  | _ => []

end Note

def HostRequest.reply : HostRequest W → List ℕ
  | replying _ reply => [reply]
  | log _ _ => []

@[simp] theorem HostRequest.reply_replying (f : HostFn W) (reply : ℕ) :
    (replying f reply).reply = [reply] := rfl

@[simp] theorem HostRequest.reply_log (level : LogLevel) (msg : String) :
    (log level msg : HostRequest W).reply = [] := rfl

@[simp] theorem Command.query_resolveClassAddress (query : W.Query) (reply : ℕ) :
    (resolveClassAddress query reply).query = [reply] := rfl

namespace Worker

/-- The reply that the worker is blocked on. -/
def awaits : Worker W → List ℕ
  | waits _ reply _ => [reply]
  | _ => []

def query : Worker W → List ℕ
  | runs job _ => job.query
  | waits job _ _ => job.query
  | _ => []

def isGone : Worker W → Bool
  | gone => true
  | _ => false

@[simp] theorem query_idle (js : W.Js) : (idle js).query = [] := rfl

@[simp] theorem query_runs (job : Job W) (js : W.Js) : (runs job js).query = job.query := rfl

@[simp] theorem query_waits (job : Job W) (reply : ℕ) (k : Except String W.Value → W.Js) :
    (waits job reply k).query = job.query := rfl

@[simp] theorem query_gone : (gone : Worker W).query = [] := rfl

end Worker

/-- The record of a run and the state that it came to. -/
structure Orderly (log : List (Note W)) (s : State W Host) : Prop where
  commands : log.flatMap Note.sends =
    log.flatMap Note.takes ++ (log.flatMap Note.discards ++ s.cmds)
  discards : s.worker.isGone = false → log.flatMap Note.discards = []
  ended : s.worker.isGone = true → s.cmds = []
  requests : log.flatMap Note.raises = log.flatMap Note.serves ++ s.hostQueue
  replies : log.flatMap Note.gives = log.flatMap Note.resumes ++ s.replies
  addressed : (log.flatMap Note.gives).map Prod.fst =
    (log.flatMap Note.serves).flatMap HostRequest.reply
  outstanding : s.replies.map Prod.fst ++ s.hostQueue.flatMap HostRequest.reply = s.worker.awaits
  guarded : s.worker.isGone = false → (s.resolving = true ↔ s.worker.query ≠ [])
  unblocked : s.worker.query ≠ [] → s.worker.awaits = []
  queries : (log.flatMap Note.asks).Perm
    (s.answers.map Prod.fst ++ (s.worker.query ++ s.cmds.flatMap Command.query))
  distinct : (log.flatMap Note.asks).Pairwise (· < ·)
  fresh : ∀ reply ∈ log.flatMap Note.asks, reply < s.channels

theorem serviceHostRequest_reply (api : HostApi W Host) (host : Host) (req : HostRequest W) :
    (serviceHostRequest api host req).1.toList.map Prod.fst = req.reply := by
  cases req with
  | replying f reply => cases f <;> rfl
  | log level msg => rfl

theorem gone_of_isGone {w : Worker W} (h : w.isGone = true) : w = .gone := by
  cases w with
  | gone => rfl
  | idle js => cases h
  | runs job js => cases h
  | waits job reply k => cases h

namespace Orderly
variable {log : List (Note W)} {s : State W Host}

theorem spawn (rt : Runtime W) (host : Host) : Orderly [] (State.spawn rt host) where
  commands := rfl
  discards _ := rfl
  ended := by rintro ⟨⟩
  requests := rfl
  replies := rfl
  addressed := rfl
  outstanding := rfl
  guarded _ := ⟨by rintro ⟨⟩, fun h => absurd rfl h⟩
  unblocked _ := rfl
  queries := List.Perm.refl _
  distinct := List.Pairwise.nil
  fresh := by rintro _ ⟨⟩

theorem cmds_of_gone (h : Orderly log s) (hgone : s.worker = .gone) : s.cmds = [] :=
  h.ended (by rw [hgone]; rfl)

theorem send (h : Orderly log s) {c : Command W} (hc : c.query = []) :
    Orderly (log ++ (s.send c).1) (s.send c).2 := by
  unfold State.send
  split
  · exact { h with
      commands := by simpa using h.commands
      discards := by simpa using h.discards
      requests := by simpa using h.requests
      replies := by simpa using h.replies
      addressed := by simpa using h.addressed
      queries := by simpa [hc] using h.queries
      distinct := by simpa [hc] using h.distinct
      fresh := by simpa [hc] using h.fresh }
  · rename_i hlive
    exact { h with
      commands := by simp [h.commands]
      discards := by simpa using h.discards
      ended := fun hgone => absurd (gone_of_isGone hgone) hlive
      requests := by simpa using h.requests
      replies := by simpa using h.replies
      addressed := by simpa using h.addressed
      queries := by simpa [hc] using h.queries
      distinct := by simpa [hc] using h.distinct
      fresh := by simpa [hc] using h.fresh }

theorem resolve (h : Orderly log s) (query : W.Query) :
    Orderly (log ++ (s.resolve query).1) (s.resolve query).2 := by
  have hdistinct : (log.flatMap Note.asks ++ [s.channels]).Pairwise (· < ·) :=
    List.pairwise_append.mpr ⟨h.distinct, List.pairwise_singleton _ _, fun n hn m hm => by
      rw [List.mem_singleton.mp hm]
      exact h.fresh n hn⟩
  have hfresh : ∀ n ∈ log.flatMap Note.asks ++ [s.channels], n < s.channels + 1 := fun n hn =>
    match List.mem_append.mp hn with
    | .inl hn => Nat.lt_succ_of_lt (h.fresh n hn)
    | .inr hn => by rw [List.mem_singleton.mp hn]; exact Nat.lt_succ_self _
  unfold State.resolve
  split
  · rename_i hgone
    exact { h with
      commands := by simpa using h.commands
      discards := by simpa using h.discards
      requests := by simpa using h.requests
      replies := by simpa using h.replies
      addressed := by simpa using h.addressed
      queries := by
        have := h.queries.append_right [s.channels]
        rw [hgone, h.cmds_of_gone hgone] at this ⊢
        simpa using this
      distinct := by simpa using hdistinct
      fresh := by simpa using hfresh }
  · rename_i hlive
    exact { h with
      commands := by simp [h.commands]
      discards := by simpa using h.discards
      ended := fun hgone => absurd (gone_of_isGone hgone) hlive
      requests := by simpa using h.requests
      replies := by simpa using h.replies
      addressed := by simpa using h.addressed
      queries := by simpa using h.queries.append_right [s.channels]
      distinct := by simpa using hdistinct
      fresh := by simpa using hfresh }

theorem pump (h : Orderly log s) (api : HostApi W Host) :
    Orderly (log ++ (s.pump api).1) (s.pump api).2 := by
  unfold State.pump
  split
  · rw [List.append_nil]
    exact h
  · rename_i req hostQueue heq
    have hreply := serviceHostRequest_reply api s.host req
    exact { h with
      commands := by simpa using h.commands
      discards := by simpa using h.discards
      requests := by simpa [heq] using h.requests
      replies := by simp [h.replies]
      addressed := by simp [h.addressed, hreply]
      outstanding := by
        rw [← h.outstanding, heq, List.flatMap_cons, ← hreply, List.map_append, List.append_assoc]
      queries := by simpa using h.queries
      distinct := by simpa using h.distinct
      fresh := by simpa using h.fresh }

theorem bridgeLog (h : Orderly log s) (level : LogLevel) (msg : String) :
    Orderly (log ++ (s.bridgeLog level msg).1) (s.bridgeLog level msg).2 := by
  unfold State.bridgeLog
  exact { h with
    commands := by simpa using h.commands
    discards := by simpa using h.discards
    requests := by simp [h.requests]
    replies := by simpa using h.replies
    addressed := by simpa using h.addressed
    outstanding := by simpa using h.outstanding
    queries := by simpa using h.queries
    distinct := by simpa using h.distinct
    fresh := by simpa using h.fresh }

theorem logError (h : Orderly log s) {α : Type} (msg : String → String) (out : Except String α) :
    Orderly (log ++ (s.logError msg out).1) (s.logError msg out).2 := by
  cases out with
  | ok a =>
    simp only [State.logError, List.append_nil]
    exact h
  | error e => exact h.bridgeLog .error (msg e)

/-- The worker goes on where it neither waits for less nor works on another query. -/
theorem goTo (h : Orderly log s) {w : Worker W} (hawaits : w.awaits = s.worker.awaits)
    (hquery : w.query = s.worker.query) (hgone : w.isGone = s.worker.isGone) :
    Orderly log { s with worker := w } where
  commands := h.commands
  discards hw := h.discards (hgone ▸ hw)
  ended hw := h.ended (hgone ▸ hw)
  requests := h.requests
  replies := h.replies
  addressed := h.addressed
  outstanding := h.outstanding.trans hawaits.symm
  guarded hw := by
    rw [hquery]
    exact h.guarded (hgone ▸ hw)
  unblocked hw := by
    rw [hawaits]
    exact h.unblocked (hquery ▸ hw)
  queries := by
    rw [hquery]
    exact h.queries
  distinct := h.distinct
  fresh := h.fresh

theorem took (h : Orderly log s) {js : W.Js} (hidle : s.worker = .idle js) {c : Command W}
    {cmds : List (Command W)} (hcmds : s.cmds = c :: cmds) (w : Worker W)
    (hawaits : w.awaits = []) (hlive : w.isGone = false) (hquery : w.query = c.query)
    {resolving : Bool} (hresolving : resolving = true ↔ c.query ≠ []) (generation : ℕ) :
    Orderly (log ++ [.took c])
      { s with cmds := cmds, worker := w, resolving := resolving, generation := generation } := by
  have hdiscards := h.discards (by rw [hidle]; rfl)
  exact { h with
    commands := by simpa [hdiscards, hcmds] using h.commands
    discards := fun _ => by simpa using hdiscards
    ended := fun hgone => by rw [hlive] at hgone; cases hgone
    requests := by simpa using h.requests
    replies := by simpa using h.replies
    addressed := by simpa using h.addressed
    outstanding := by rw [h.outstanding, hidle, hawaits]; rfl
    guarded := fun _ => hquery ▸ hresolving
    unblocked := fun _ => hawaits
    queries := by simpa [hidle, hcmds, hquery] using h.queries
    distinct := by simpa using h.distinct
    fresh := by simpa using h.fresh }

/-- The worker ends between two commands or in one, but not while it waits. -/
theorem exit (h : Orderly log s) (hawaits : s.worker.awaits = []) (hlive : s.worker.isGone = false) :
    Orderly (log ++ (s.exit s.worker.query).1) (s.exit s.worker.query).2 := by
  have hdiscards := h.discards hlive
  have hnotes {β : Type} (f : Note W → List β) (hf : ∀ c, f (.discarded c) = []) :
      (s.cmds.map Note.discarded).flatMap f = [] := by
    simp [List.flatMap_eq_nil_iff, hf]
  have hdropped : (s.cmds.map Note.discarded).flatMap Note.discards = s.cmds := by
    simp [List.flatMap_map]
  unfold State.exit
  exact { h with
    commands := by
      simp only [List.flatMap_append, hnotes Note.sends fun _ => rfl,
        hnotes Note.takes fun _ => rfl, hdropped, List.append_nil]
      exact h.commands
    discards := by rintro ⟨⟩
    ended := fun _ => rfl
    requests := by
      simp only [List.flatMap_append, hnotes Note.raises fun _ => rfl,
        hnotes Note.serves fun _ => rfl, List.append_nil]
      exact h.requests
    replies := by
      simp only [List.flatMap_append, hnotes Note.gives fun _ => rfl,
        hnotes Note.resumes fun _ => rfl, List.append_nil]
      exact h.replies
    addressed := by
      simp only [List.flatMap_append, hnotes Note.gives fun _ => rfl,
        hnotes Note.serves fun _ => rfl, List.append_nil]
      exact h.addressed
    outstanding := by rw [h.outstanding, hawaits]; rfl
    guarded := by rintro ⟨⟩
    unblocked := fun hquery => absurd rfl hquery
    queries := by
      simp only [List.flatMap_append, hnotes Note.asks fun _ => rfl, List.append_nil]
      simpa [Function.comp_def] using h.queries
    distinct := by
      simp only [List.flatMap_append, hnotes Note.asks fun _ => rfl, List.append_nil]
      exact h.distinct
    fresh := by
      simp only [List.flatMap_append, hnotes Note.asks fun _ => rfl, List.append_nil]
      exact h.fresh }

/-- Outside a query the worker comes to wait, within one it has its answer at once. -/
theorem ask (h : Orderly log s) {job : Job W} {js : W.Js} (hrun : s.worker = .runs job js)
    (f : HostFn W) (k : Except String W.Value → W.Js) :
    Orderly (log ++ (s.ask job f k).1) (s.ask job f k).2 := by
  have hguarded := h.guarded (by rw [hrun]; rfl)
  have houtstanding := h.outstanding
  rw [hrun] at hguarded houtstanding
  unfold State.ask
  split
  · rw [List.append_nil]
    exact h.goTo (by rw [hrun]; rfl) (by rw [hrun]; rfl) (by rw [hrun]; rfl)
  · rename_i hfree
    have hquery : job.query = [] := not_not.mp fun hne => hfree (hguarded.mpr hne)
    exact { h with
      commands := by simpa using h.commands
      discards := fun _ => by simpa using h.discards (by rw [hrun]; rfl)
      ended := by rintro ⟨⟩
      requests := by simp [h.requests]
      replies := by simpa using h.replies
      addressed := by simpa using h.addressed
      outstanding := by
        simp only [List.flatMap_append, List.flatMap_cons, List.flatMap_nil, List.append_nil,
          HostRequest.reply_replying]
        rw [← List.append_assoc, houtstanding]
        rfl
      guarded := fun _ => hguarded
      unblocked := fun hne => absurd hquery hne
      queries := by simpa [hrun] using h.queries
      distinct := by simpa using h.distinct
      fresh := by
        simp only [List.flatMap_append, List.flatMap_cons, List.flatMap_nil, List.append_nil]
        exact fun n hn => Nat.lt_succ_of_lt (h.fresh n (by simpa using hn)) }

theorem answered (h : Orderly log s) {reply : ℕ} {js : W.Js}
    (hrun : s.worker = .runs (.resolve reply) js) (answer : Option ℕ) (js' : W.Js) :
    Orderly log { s with
      resolving := false
      answers := s.answers ++ [(reply, answer)]
      worker := .idle js' } :=
  { h with
    discards := fun _ => h.discards (by rw [hrun]; rfl)
    ended := by rintro ⟨⟩
    outstanding := by rw [h.outstanding, hrun]; rfl
    guarded := fun _ => ⟨by rintro ⟨⟩, fun hne => absurd rfl hne⟩
    unblocked := fun _ => rfl
    queries := by simpa [hrun, Job.query] using h.queries }

theorem finish (h : Orderly log s) (rt : Runtime W) {job : Job W} {js : W.Js}
    (hrun : s.worker = .runs job js) (js' : W.Js) (out : Except String (Option ℤ)) :
    Orderly (log ++ (s.finish rt js' out job).1) (s.finish rt js' out job).2 := by
  -- A job other than a query leaves nothing behind but its error.
  have hplain (msg : String → String) (w : Worker W) (hjob : job.query = [])
      (hawaits : w.awaits = []) (hquery : w.query = []) (hlive : w.isGone = false) :
      Orderly (log ++ (s.logError msg out).1) { (s.logError msg out).2 with worker := w } := by
    refine (h.logError msg out).goTo ?_ ?_ ?_
    all_goals rw [State.logError_worker, hrun]
    · rw [hawaits]
      rfl
    · rw [hquery, query_runs, hjob]
    · rw [hlive]
      rfl
  cases job with
  | reset dir => exact hplain _ _ rfl rfl rfl rfl
  | loadGeneration dir => exact hplain _ _ rfl rfl rfl rfl
  | dispatch kind => exact hplain _ _ rfl rfl rfl rfl
  | resolve reply =>
    exact (h.logError _ out).answered ((State.logError_worker _ out).trans hrun) _ js'

theorem take (h : Orderly log s) (rt : Runtime W) {js : W.Js} (hidle : s.worker = .idle js)
    {c : Command W} {cmds : List (Command W)} (hcmds : s.cmds = c :: cmds) :
    Orderly (log ++ .took c :: ({ s with cmds := cmds }.take rt js c).1)
      ({ s with cmds := cmds }.take rt js c).2 := by
  have hresolving : s.resolving = true ↔ (Worker.idle js).query ≠ [] := by
    rw [← hidle]
    exact h.guarded (by rw [hidle]; rfl)
  cases c with
  | loadScriptsDir dir => exact h.took hidle hcmds (.runs (.reset dir) _) rfl rfl rfl hresolving _
  | dispatch event => exact h.took hidle hcmds (.runs (.dispatch _) _) rfl rfl rfl hresolving _
  | resolveClassAddress query reply =>
    exact h.took hidle hcmds (.runs (.resolve reply) _) rfl rfl rfl
      ⟨fun _ => List.cons_ne_nil _ _, fun _ => rfl⟩ _
  | shutdown =>
    have htook := (h.took hidle hcmds (.idle js) rfl rfl rfl hresolving s.generation).exit rfl rfl
    rw [List.append_assoc] at htook
    simpa [State.take, State.exit, hidle] using htook

theorem resume (h : Orderly log s) (rt : Runtime W) {job : Job W} {reply : ℕ}
    {k : Except String W.Value → W.Js} (hwait : s.worker = .waits job reply k)
    {sent : ℕ × Reply W} (hsent : s.replies.find? (·.1 = reply) = some sent) :
    Orderly (log ++ [.resumed sent]) { s with
      replies := s.replies.filter (·.1 ≠ reply)
      worker := .runs job (k (rt.receive sent.2)) } := by
  have houtstanding := h.outstanding
  rw [hwait] at houtstanding
  have hmem := List.mem_of_find?_eq_some hsent
  obtain ⟨hreplies, hqueue⟩ : s.replies = [sent] ∧ s.hostQueue.flatMap HostRequest.reply = [] := by
    rcases List.append_eq_singleton_iff.mp houtstanding with ⟨hnil, -⟩ | ⟨hone, hqueue⟩
    · rw [List.map_eq_nil_iff.mp hnil] at hmem
      cases hmem
    · obtain ⟨only, honly, -⟩ := List.map_eq_singleton_iff.mp hone
      rw [honly] at hmem
      exact ⟨by rw [honly, List.mem_singleton.mp hmem], hqueue⟩
  have hfilter : s.replies.filter (·.1 ≠ reply) = [] := by
    have hkey : sent.1 = reply := by simpa using List.find?_some hsent
    simp [hreplies, hkey]
  have hdiscards := h.discards (by rw [hwait]; rfl)
  exact { h with
    commands := by simpa using h.commands
    discards := fun _ => by simpa using hdiscards
    ended := by rintro ⟨⟩
    requests := by simpa using h.requests
    replies := by rw [hfilter]; simpa [hreplies] using h.replies
    addressed := by simpa using h.addressed
    outstanding := by rw [hfilter, hqueue]; rfl
    guarded := fun _ => by rw [h.guarded (by rw [hwait]; rfl), hwait]; rfl
    unblocked := fun _ => rfl
    queries := by simpa [hwait] using h.queries
    distinct := by simpa using h.distinct
    fresh := by simpa using h.fresh }

theorem work (h : Orderly log s) (rt : Runtime W) :
    Orderly (log ++ (s.work rt).1) (s.work rt).2 := by
  have hquiet : Orderly (log ++ []) s := by
    rw [List.append_nil]
    exact h
  unfold State.work
  split
  · rename_i js hidle
    split
    · exact hquiet
    · rename_i c cmds hcmds
      exact h.take rt hidle hcmds
  · rename_i job js hrun
    split
    · rename_i js' hmove
      rw [List.append_nil]
      exact h.goTo (by rw [hrun]; rfl) (by rw [hrun]; rfl) (by rw [hrun]; rfl)
    · rename_i msg js' hmove
      exact (h.goTo (by rw [hrun]; rfl) (by rw [hrun]; rfl) (by rw [hrun]; rfl)).bridgeLog .info msg
    · exact h.ask hrun _ _
    · exact h.finish rt hrun _ _
    · have hexit := h.exit (by rw [hrun]; rfl) (by rw [hrun]; rfl)
      rw [hrun] at hexit
      exact hexit
  · rename_i job reply k hwait
    split
    · exact hquiet
    · rename_i sent hsent
      exact h.resume rt hwait hsent
  · exact hquiet

/-- Nothing but the worker's end and the answers to its queries lets the UI thread go on, and that
it goes on changes neither channel. -/
theorem withUi (h : Orderly log s) (ui : Ui) : Orderly log { s with ui := ui } := { h with }

theorem wake (h : Orderly log s) : Orderly log s.wake := by
  unfold State.wake
  split
  · split
    · exact h.withUi .free
    · exact h
  · split
    · exact h.withUi .gone
    · exact h
  · exact h

theorem step (h : Orderly log s) (rt : Runtime W) (api : HostApi W Host) (input : Input W Host) :
    Orderly (log ++ (s.step rt api input).1) (s.step rt api input).2 := by
  have hquiet : Orderly (log ++ []) s := by
    rw [List.append_nil]
    exact h
  cases input with
  | loadScripts dir =>
    simp only [State.step]
    split
    · exact h.send rfl
    · exact hquiet
  | onEvent event =>
    simp only [State.step]
    split
    · exact h.send rfl
    · exact hquiet
  | resolveClassAddress query =>
    simp only [State.step]
    split
    · exact (h.resolve query).withUi _
    · exact hquiet
  | pump =>
    simp only [State.step]
    split
    · exact h.pump api
    · exact hquiet
  | frame host =>
    simp only [State.step]
    split
    · exact { hquiet with }
    · exact hquiet
  | drop =>
    simp only [State.step]
    split
    · exact (h.send rfl).withUi _
    · exact hquiet
  | wake =>
    rw [show (s.step rt api .wake).1 = [] from rfl, List.append_nil]
    exact h.wake
  | resolver query => exact h.resolve query
  | work => exact h.work rt

end Orderly

section
variable (rt : Runtime W) (api : HostApi W Host) (host : Host) (inputs : List (Input W Host))

/-- What a run from the start did, and where it came to. -/
def record : List (Note W) :=
  (trace (State.step rt api) (State.spawn rt host) inputs).flatMap Prod.snd

def after : State W Host := final (State.step rt api) (State.spawn rt host) inputs

theorem orderly_run : Orderly (record rt api host inputs) (after rt api host inputs) :=
  holds_of_step (fun past s => Orderly (past.flatMap Prod.snd) s) (Orderly.spawn rt host)
    (fun past s input h => by
      rw [List.flatMap_append, List.flatMap_singleton]
      exact h.step rt api input)
    inputs

end

end Nemclass.EngineRusty
