import Mathlib.Data.Int.Notation
import Nemclass.Lib.Trace

/-! The script engine: a worker thread owns the v8 runtime and serves commands, one after the other;
what scripts ask of the host goes over a second channel to the UI thread, which answers between two
frames. What a script does is the runtime's own; a runtime that panics takes the worker along. -/
namespace Nemclass.EngineRusty

/-- What crosses the two channels, and the state of the v8 runtime. -/
structure Wire where
  Path : Type
  Event : Type
  Query : Type
  Ty : Type
  Value : Type
  Js : Type

inductive LogLevel where
  | info
  | warn
  | error
  deriving DecidableEq

/-- The host functions that answer, with what the scripts pass them. -/
inductive HostFn (W : Wire) where
  | patternScan (module pattern : String)
  | declareType (ty : W.Ty)
  | declareClass (name addressFormula : String)
  | call (method : String) (args : W.Value)

/-- A request that is answered comes with the number of its one-shot reply channel. -/
inductive HostRequest (W : Wire) where
  | replying (f : HostFn W) (reply : ℕ)
  | log (level : LogLevel) (msg : String)

inductive Reply (W : Wire) where
  | patternScan (r : Except String (List ℕ))
  | declared (r : Except String Unit)
  | call (r : Except String W.Value)

/-- The live host, on the UI thread. -/
structure HostApi (W : Wire) (Host : Type) where
  patternScan : String → String → Host → Except String (List ℕ) × Host
  declareType : W.Ty → Host → Except String Unit × Host
  declareClass : String → String → Host → Except String Unit × Host
  log : LogLevel → String → Host → Host
  call : String → W.Value → Host → Except String W.Value × Host

inductive Command (W : Wire) where
  | loadScriptsDir (dir : W.Path)
  | dispatch (event : W.Event)
  | resolveClassAddress (query : W.Query) (reply : ℕ)
  | shutdown

/-- The calls into the runtime. -/
inductive Entry (W : Wire) where
  | reset
  | loadGeneration (dir : W.Path) (generation : ℕ)
  | dispatch (kind : String) (event : W.Event)
  | resolve (query : W.Query)

/-- What the runtime does next. -/
inductive Move (W : Wire) where
  | goes (js : W.Js)
  | logs (msg : String) (js : W.Js)
  | asks (f : HostFn W) (k : Except String W.Value → W.Js)
  | ends (out : Except String (Option ℤ)) (js : W.Js)
  | panics

structure Runtime (W : Wire) where
  enter : Entry W → W.Js → W.Js
  move : W.Js → Move W
  start : W.Js
  debug : W.Path → String
  kind : W.Event → String
  array : List ℕ → W.Value
  null : W.Value

/-- The value a script gets. -/
def Runtime.receive {W : Wire} (rt : Runtime W) : Reply W → Except String W.Value
  | .patternScan r => r.map rt.array
  | .declared r => r.map fun _ => rt.null
  | .call r => r

/-- The command in work; a directory takes two calls. -/
inductive Job (W : Wire) where
  | reset (dir : W.Path)
  | loadGeneration (dir : W.Path)
  | dispatch (kind : String)
  | resolve (reply : ℕ)

inductive Worker (W : Wire) where
  | idle (js : W.Js)
  | runs (job : Job W) (js : W.Js)
  | waits (job : Job W) (reply : ℕ) (k : Except String W.Value → W.Js)
  | gone

/-- The UI thread runs its frames, is blocked on a query of its own, or drops the engine. -/
inductive Ui where
  | free
  | resolving (reply : ℕ)
  | joining
  | gone
  deriving DecidableEq

/-- `replies` have been sent and not been received. `answers` are what the queries returned, or
will when their threads come to run; `channels` counts the reply channels made. -/
structure State (W : Wire) (Host : Type) where
  ui : Ui
  cmds : List (Command W)
  hostQueue : List (HostRequest W)
  replies : List (ℕ × Reply W)
  worker : Worker W
  resolving : Bool
  generation : ℕ
  answers : List (ℕ × Option ℕ)
  channels : ℕ
  host : Host

/-- What a step did, for the record. -/
inductive Note (W : Wire) where
  | sent (c : Command W)
  | refused (c : Command W)
  | took (c : Command W)
  | discarded (c : Command W)
  | raised (req : HostRequest W)
  | served (req : HostRequest W) (reply : Option (ℕ × Reply W))
  | resumed (reply : ℕ × Reply W)

/-- The inputs are the turns of the threads: the UI thread's, another thread's with a resolver, the
worker's, and the waking of the UI thread. -/
inductive Input (W : Wire) (Host : Type) where
  | loadScripts (dir : W.Path)
  | onEvent (event : W.Event)
  | resolveClassAddress (query : W.Query)
  | pump
  | frame (host : Host)
  | drop
  | wake
  | resolver (query : W.Query)
  | work

variable {W : Wire} {Host : Type}

def Command.query : Command W → List ℕ
  | resolveClassAddress _ reply => [reply]
  | _ => []

def Job.query : Job W → List ℕ
  | resolve reply => [reply]
  | _ => []

/-- What a call is told while a query is resolved. -/
def unavailable : String := "host functions are unavailable inside tryResolveClassAddress"

def serviceHostRequest (api : HostApi W Host) (host : Host) :
    HostRequest W → Option (ℕ × Reply W) × Host
  | .replying (.patternScan module pattern) reply =>
    let (r, host) := api.patternScan module pattern host
    (some (reply, .patternScan r), host)
  | .replying (.declareType ty) reply =>
    let (r, host) := api.declareType ty host
    (some (reply, .declared r), host)
  | .replying (.declareClass name addressFormula) reply =>
    let (r, host) := api.declareClass name addressFormula host
    (some (reply, .declared r), host)
  | .replying (.call method args) reply =>
    let (r, host) := api.call method args host
    (some (reply, .call r), host)
  | .log level msg => (none, api.log level msg host)

namespace State
variable (s : State W Host)

def send (c : Command W) : List (Note W) × State W Host :=
  match s.worker with
  | .gone => ([.refused c], s)
  | _ => ([.sent c], { s with cmds := s.cmds ++ [c] })

/-- A resolver sends its query; without a worker it has its answer at once. -/
def resolve (query : W.Query) : List (Note W) × State W Host :=
  let c := Command.resolveClassAddress query s.channels
  match s.worker with
  | .gone =>
    ([.refused c], { s with
      answers := s.answers ++ [(s.channels, none)]
      channels := s.channels + 1 })
  | _ => ([.sent c], { s with cmds := s.cmds ++ [c], channels := s.channels + 1 })

/-- One turn of `pump_host_requests`. -/
def pump (api : HostApi W Host) : List (Note W) × State W Host :=
  match s.hostQueue with
  | [] => ([], s)
  | req :: hostQueue =>
    let (reply, host) := serviceHostRequest api s.host req
    ([.served req reply], { s with
      hostQueue := hostQueue
      replies := s.replies ++ reply.toList
      host := host })

def wake : State W Host :=
  match s.ui with
  | .resolving reply => if reply ∈ s.answers.map Prod.fst then { s with ui := .free } else s
  | .joining =>
    match s.worker with
    | .gone => { s with ui := .gone }
    | _ => s
  | _ => s

def bridgeLog (level : LogLevel) (msg : String) : List (Note W) × State W Host :=
  ([.raised (.log level msg)], { s with hostQueue := s.hostQueue ++ [.log level msg] })

def logError {α : Type} (msg : String → String) : Except String α → List (Note W) × State W Host
  | .ok _ => ([], s)
  | .error e => s.bridgeLog .error (msg e)

/-- The worker's end drops the command channel, and with it the reply channels of the queries. -/
def exit (job : List ℕ) : List (Note W) × State W Host :=
  (s.cmds.map .discarded, { s with
    worker := .gone
    cmds := []
    answers := s.answers ++ (job ++ s.cmds.flatMap Command.query).map fun reply => (reply, none) })

/-- `HostBridge::call`; the wait for the reply is the worker's. -/
def ask (job : Job W) (f : HostFn W) (k : Except String W.Value → W.Js) :
    List (Note W) × State W Host :=
  if s.resolving then
    ([], { s with worker := .runs job (k (.error unavailable)) })
  else
    ([.raised (.replying f s.channels)], { s with
      hostQueue := s.hostQueue ++ [.replying f s.channels]
      worker := .waits job s.channels k
      channels := s.channels + 1 })

variable (rt : Runtime W)

def take (js : W.Js) : Command W → List (Note W) × State W Host
  | .loadScriptsDir dir =>
    ([], { s with
      generation := s.generation + 1
      worker := .runs (.reset dir) (rt.enter .reset js) })
  | .dispatch event =>
    let kind := rt.kind event
    ([], { s with worker := .runs (.dispatch kind) (rt.enter (.dispatch kind event) js) })
  | .resolveClassAddress query reply =>
    ([], { s with
      resolving := true
      worker := .runs (.resolve reply) (rt.enter (.resolve query) js) })
  | .shutdown => s.exit []

/-- A call into the runtime has returned. -/
def finish (js : W.Js) (out : Except String (Option ℤ)) : Job W → List (Note W) × State W Host
  | .reset dir =>
    let (notes, s) := s.logError (fun e => s!"reset handlers: {e}") out
    let js := rt.enter (.loadGeneration dir s.generation) js
    (notes, { s with worker := .runs (.loadGeneration dir) js })
  | .loadGeneration dir =>
    let (notes, s) := s.logError (fun e => s!"load dir {rt.debug dir}: {e}") out
    (notes, { s with worker := .idle js })
  | .dispatch kind =>
    let (notes, s) := s.logError (fun e => s!"dispatch {kind}: {e}") out
    (notes, { s with worker := .idle js })
  | .resolve reply =>
    let answer :=
      match out with
      | .ok (some addr) => if 0 ≤ addr then some addr.toNat else none
      | _ => none
    let (notes, s) := s.logError (fun e => s!"resolve: {e}") out
    (notes, { s with
      resolving := false
      answers := s.answers ++ [(reply, answer)]
      worker := .idle js })

def work : List (Note W) × State W Host :=
  match s.worker with
  | .idle js =>
    match s.cmds with
    | [] => ([], s)
    | c :: cmds =>
      let (notes, s) := { s with cmds := cmds }.take rt js c
      (.took c :: notes, s)
  | .runs job js =>
    match rt.move js with
    | .goes js => ([], { s with worker := .runs job js })
    | .logs msg js => { s with worker := .runs job js }.bridgeLog .info msg
    | .asks f k => s.ask job f k
    | .ends out js => s.finish rt js out job
    | .panics => s.exit job.query
  | .waits job reply k =>
    match s.replies.find? (·.1 = reply) with
    | none => ([], s)
    | some sent =>
      ([.resumed sent], { s with
        replies := s.replies.filter (·.1 ≠ reply)
        worker := .runs job (k (rt.receive sent.2)) })
  | .gone => ([], s)

/-- Turns that are not due change nothing; the UI thread has none of its own while it is blocked. -/
def step (rt : Runtime W) (api : HostApi W Host) (s : State W Host) :
    Input W Host → List (Note W) × State W Host
  | .loadScripts dir => if s.ui = .free then s.send (.loadScriptsDir dir) else ([], s)
  | .onEvent event => if s.ui = .free then s.send (.dispatch event) else ([], s)
  | .resolveClassAddress query =>
    if s.ui = .free then
      let (notes, s') := s.resolve query
      (notes, { s' with ui := .resolving s.channels })
    else ([], s)
  | .pump => if s.ui = .free then s.pump api else ([], s)
  | .frame host => if s.ui = .free then ([], { s with host := host }) else ([], s)
  | .drop =>
    if s.ui = .free then
      let (notes, s') := s.send .shutdown
      (notes, { s' with ui := .joining })
    else ([], s)
  | .wake => ([], s.wake)
  | .resolver query => s.resolve query
  | .work => s.work rt

/-- The engine as `spawn` hands it out. -/
def spawn (host : Host) : State W Host where
  ui := .free
  cmds := []
  hostQueue := []
  replies := []
  worker := .idle rt.start
  resolving := false
  generation := 0
  answers := []
  channels := 0
  host := host

section
variable {rt : Runtime W} {s : State W Host}

theorem logError_worker {α : Type} (msg : String → String) (out : Except String α) :
    (s.logError msg out).2.worker = s.worker := by
  cases out <;> rfl

theorem logError_cmds {α : Type} (msg : String → String) (out : Except String α) :
    (s.logError msg out).2.cmds = s.cmds := by
  cases out <;> rfl

theorem send_worker (c : Command W) : (s.send c).2.worker = s.worker := by
  unfold send
  split <;> rfl

theorem send_ui (c : Command W) : (s.send c).2.ui = s.ui := by
  unfold send
  split <;> rfl

theorem resolve_ui (query : W.Query) : (s.resolve query).2.ui = s.ui := by
  unfold resolve
  split <;> rfl

theorem resolve_worker (query : W.Query) : (s.resolve query).2.worker = s.worker := by
  unfold resolve
  split <;> rfl

theorem pump_worker (api : HostApi W Host) : (s.pump api).2.worker = s.worker := by
  unfold pump
  split <;> rfl

theorem finish_ui (js : W.Js) (out : Except String (Option ℤ)) (job : Job W) :
    (s.finish rt js out job).2.ui = s.ui := by
  cases job <;> cases out <;> rfl

theorem finish_cmds (js : W.Js) (out : Except String (Option ℤ)) (job : Job W) :
    (s.finish rt js out job).2.cmds = s.cmds := by
  cases job <;> cases out <;> rfl

theorem finish_generation (js : W.Js) (out : Except String (Option ℤ)) (job : Job W) :
    (s.finish rt js out job).2.generation = s.generation := by
  cases job <;> cases out <;> rfl

theorem work_ui : (s.work rt).2.ui = s.ui := by
  unfold work
  split
  · split
    · rfl
    · rename_i c cmds _
      cases c <;> rfl
  · split
    · rfl
    · rfl
    · unfold ask
      split <;> rfl
    · exact finish_ui _ _ _
    · rfl
  · split <;> rfl
  · rfl

theorem pump_ui (api : HostApi W Host) : (s.pump api).2.ui = s.ui := by
  unfold pump
  split <;> rfl

theorem wake_worker : s.wake.worker = s.worker := by
  unfold wake
  split
  · split <;> rfl
  · split <;> rfl
  · rfl

end

end State

end Nemclass.EngineRusty
