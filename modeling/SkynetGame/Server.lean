import SkynetGame.Lib.Run
import SkynetGame.Lib.Tally
import SkynetGame.Mq

/-!
# Contexts and worker threads (`skynet_server.c`, `skynet_start.c`)

Each running C call is a process (`Proc`) that says where it stands; what it has still to return
to is part of it. A process takes one atomic step at a time: one locked section of a queue or of
the handle table, one atomic decrement, one call of a callback. Calls that run inside others but
touch nothing of theirs (the pushes, launches and kills a callback makes, the error that
`drop_message` sends back, the log lines of `skynet_error`) are processes of their own, so a run
interleaves all of them in any order.

The handle table is the map from handles to the contexts whose `handle` field is stored; a
registration may take any handle the table does not hold.
-/

namespace SkynetGame

/-- `struct skynet_context`; `freed` says that its memory was given back. -/
structure SkynetContext where
  queue : ℕ
  handle : ℕ
  /-- whether `cb` is not `NULL` -/
  cb : Bool
  ref : ℤ
  init : Bool
  freed : Bool

/-- Where a running call stands, with what it has still to do. -/
inductive Proc
  /-- `thread_worker` between two turns, with the queue that the last one returned -/
  | worker (weight : ℤ) (q : Option ℕ)
  /-- at a turn's last `return skynet_globalmq_pop()` -/
  | turnPop (weight : ℤ)
  /-- at `skynet_handle_grab(skynet_mq_handle(q))` -/
  | grab (weight : ℤ) (q : ℕ)
  /-- at the head of the turn's loop -/
  | loop (weight : ℤ) (q c i n : ℕ)
  /-- a message popped, before `n = skynet_mq_length(q)` -/
  | popped (weight : ℤ) (q c i n : ℕ) (msg : SkynetMessage)
  /-- before `skynet_mq_overload(q)` -/
  | overload (weight : ℤ) (q c i n : ℕ) (msg : SkynetMessage)
  /-- before the test of `ctx->cb` -/
  | dispatch (weight : ℤ) (q c i n : ℕ) (msg : SkynetMessage)
  /-- inside the callback -/
  | call (weight : ℤ) (q c i n : ℕ)
  /-- the turn is over and the next queue is `nq`: at `skynet_globalmq_push(q)` -/
  | requeue (weight : ℤ) (q c nq : ℕ)
  /-- at the locked section of `skynet_mq_release(q)` -/
  | mqRelease (q : ℕ) (k : Proc)
  /-- in the loop of `_drop_queue` -/
  | drop (q : ℕ) (k : Proc)
  /-- at `_release(q)` -/
  | free (q : ℕ) (k : Proc)
  /-- at `skynet_context_release(ctx)` -/
  | release (c : ℕ) (k : Proc)
  /-- in `delete_context`, at `skynet_mq_mark_release(ctx->queue)` -/
  | delete (c : ℕ) (k : Proc)
  /-- in `skynet_context_push`, the context grabbed -/
  | pushing (c : ℕ) (msg : SkynetMessage)
  /-- any other holder of a reference (`skynet_context_endless`, `skynet_context_reserve`) -/
  | holding (c : ℕ)
  /-- in `skynet_context_new`, the handle stored, the queue not yet made -/
  | registered (c : ℕ)
  /-- in `skynet_context_new`, while the module's init runs -/
  | starting (c q : ℕ)
  /-- init succeeded and the context is still there: at `ctx->init = true` -/
  | started (c q : ℕ)
  /-- at the `skynet_globalmq_push(queue)` of a launch that succeeded -/
  | publish (q : ℕ)
  /-- init failed and its release was the last one: in `delete_context` -/
  | failDelete (c h q : ℕ)
  /-- init failed: at `skynet_handle_retire(handle)` -/
  | failRetire (c h q : ℕ)
  | done
deriving DecidableEq, Repr

/-- What becomes of messages and queues, in the order it happens. -/
inductive Event
  /-- `skynet_mq_push` stored the message in queue `q` -/
  | accept (q : ℕ) (msg : SkynetMessage)
  /-- the callback of context `c` was called with it -/
  | deliver (q c : ℕ) (msg : SkynetMessage)
  /-- its data was freed because the context has no callback -/
  | discard (q : ℕ) (msg : SkynetMessage)
  /-- it was handed to `drop_func` -/
  | drop (q : ℕ) (msg : SkynetMessage)
  /-- the queue was freed -/
  | free (q : ℕ)
deriving DecidableEq, Repr

/-- The state of the runtime: queues, contexts, the handle table and the running calls. -/
structure Server extends MqMem where
  ctx : ℕ → SkynetContext
  nctx : ℕ
  slot : ℕ → Option ℕ
  procs : List Proc
  log : List Event

namespace Server

/-- Overwrite context `c`. -/
def setCtx (s : Server) (c : ℕ) (x : SkynetContext) : Server :=
  { s with ctx := Function.update s.ctx c x }

def emit (s : Server) (e : Event) : Server := { s with log := s.log ++ [e] }

/-- `skynet_context_grab`. -/
def skynetContextGrab (s : Server) (c : ℕ) : Server :=
  s.setCtx c { s.ctx c with ref := (s.ctx c).ref + 1 }

/-- The decrement of `skynet_context_release`: whether the context is to be deleted. -/
def decRef (s : Server) (c : ℕ) : Server × Bool :=
  (s.setCtx c { s.ctx c with ref := (s.ctx c).ref - 1 }, decide ((s.ctx c).ref - 1 = 0))

/-- `delete_context`. -/
def deleteContext (s : Server) (c : ℕ) : Server :=
  { s with toMqMem := s.toMqMem.skynetMqMarkRelease (s.ctx c).queue }.setCtx c
    { s.ctx c with freed := true }

/-- The locked section of `skynet_handle_retire`: the context taken out of the table. -/
def skynetHandleRetire (s : Server) (h : ℕ) : Server × Option ℕ :=
  ({ s with slot := Function.update s.slot h none }, s.slot h)

/-- `skynet_mq_push(ctx->queue, message)`. -/
def pushTo (s : Server) (c : ℕ) (msg : SkynetMessage) : Server :=
  { s with toMqMem := s.toMqMem.skynetMqPush (s.ctx c).queue msg }.emit
    (.accept (s.ctx c).queue msg)

/-- The next atomic step of a call and where it then stands; `r` is what the module's init
returns, where the step is that return. -/
def exec (s : Server) (r : Bool) : Proc → Server × Proc
  | .worker w none =>
    match s.toMqMem.skynetGlobalmqPop with
    | (m, none) => ({ s with toMqMem := m }, .worker w none)
    | (m, some q) => ({ s with toMqMem := m }, .grab w q)
  | .worker w (some q) => (s, .grab w q)
  | .turnPop w =>
    ({ s with toMqMem := s.toMqMem.skynetGlobalmqPop.1 },
      .worker w s.toMqMem.skynetGlobalmqPop.2)
  | .grab w q =>
    match s.slot (s.mq q).handle with
    | none => ({ s with toMqMem := s.toMqMem.touch q }, .mqRelease q (.turnPop w))
    | some c =>
      ({ s with toMqMem := s.toMqMem.touch q }.skynetContextGrab c, .loop w q c 0 1)
  | .loop w q c i n =>
    if i < n then
      match s.toMqMem.skynetMqPop q with
      | (m, none) => ({ s with toMqMem := m }, .release c (.turnPop w))
      | (m, some msg) => ({ s with toMqMem := m }, .popped w q c i n msg)
    else
      let m := s.toMqMem.check (q = (s.ctx c).queue) .otherQueue
      match m.skynetGlobalmqPop with
      -- global mq is empty or block, don't push q back, and return q again
      | (m, none) => ({ s with toMqMem := m }, .release c (.worker w (some q)))
      | (m, some nq) => ({ s with toMqMem := m }, .requeue w q c nq)
  | .popped w q c i n msg =>
    if i = 0 ∧ 0 ≤ w then
      ({ s with toMqMem := s.toMqMem.touch q },
        .overload w q c i ((s.mq q).length >>> w.toNat) msg)
    else (s, .overload w q c i n msg)
  | .overload w q c i n msg =>
    ({ s with toMqMem := (s.toMqMem.skynetMqOverload q).1 }, .dispatch w q c i n msg)
  | .dispatch w q c i n msg =>
    if (s.ctx c).cb then
      ({ s with toMqMem := s.toMqMem.check (s.ctx c).init .notInit }.emit (.deliver q c msg),
        .call w q c i n)
    else (s.emit (.discard q msg), .loop w q c (i + 1) n)
  | .call w q c i n => (s, .loop w q c (i + 1) n)
  | .requeue w q c nq =>
    ({ s with toMqMem := s.toMqMem.skynetGlobalmqPush q }, .release c (.worker w (some nq)))
  | .mqRelease q k =>
    ({ s with toMqMem := (s.toMqMem.skynetMqRelease q).1 },
      if (s.toMqMem.skynetMqRelease q).2 then .drop q k else k)
  | .drop q k =>
    match s.toMqMem.skynetMqPop q with
    | (m, none) => ({ s with toMqMem := m }, .free q k)
    | (m, some msg) => ({ s with toMqMem := m }.emit (.drop q msg), .drop q k)
  | .free q k => ({ s with toMqMem := s.toMqMem.release q }.emit (.free q), k)
  | .release c k => ((s.decRef c).1, if (s.decRef c).2 then .delete c k else k)
  | .delete c k => (s.deleteContext c, k)
  | .pushing c msg => (s.pushTo c msg, .release c .done)
  | .holding c => (s, .release c .done)
  | .registered c =>
    let r := s.toMqMem.skynetMqCreate (s.ctx c).handle
    ({ s with toMqMem := r.1 }.setCtx c { s.ctx c with queue := r.2 }, .starting c r.2)
  | .starting c q =>
    if r then
      ((s.decRef c).1, if (s.decRef c).2 then .delete c (.publish q) else .started c q)
    else
      ((s.decRef c).1, if (s.decRef c).2 then .failDelete c (s.ctx c).handle q
        else .failRetire c (s.ctx c).handle q)
  | .started c q => (s.setCtx c { s.ctx c with init := true }, .publish q)
  | .publish q => ({ s with toMqMem := s.toMqMem.skynetGlobalmqPush q }, .done)
  | .failDelete c h q => (s.deleteContext c, .failRetire c h q)
  | .failRetire _ h q =>
    match s.skynetHandleRetire h with
    | (s, some c) => (s, .release c (.mqRelease q .done))
    | (_, none) => (s, .mqRelease q .done)
  | .done => (s, .done)

/-- What a run may do next. -/
inductive Action
  /-- a worker thread starts -/
  | worker (weight : ℤ)
  /-- `skynet_context_new` gets memory whose `queue` field still reads `junk`, and handle `h` -/
  | launch (h junk : ℕ)
  /-- some thread calls `skynet_context_push` -/
  | push (h : ℕ) (msg : SkynetMessage)
  /-- some thread takes a reference for other ends -/
  | grab (h : ℕ)
  /-- some thread calls `skynet_handle_retire` -/
  | retire (h : ℕ)
  /-- a service sets or clears its callback -/
  | callback (c : ℕ) (cb : Bool)
  /-- `skynet_context_send` through the reference that process `t` holds -/
  | send (t : ℕ) (msg : SkynetMessage)
  /-- process `t` takes its next step -/
  | run (t : ℕ) (r : Bool)
deriving DecidableEq, Repr

/-- A new process. -/
def spawn (s : Server) (p : Proc) : Server := { s with procs := s.procs ++ [p] }

/-- What `skynet_context_new` has put into a context when its handle is registered. -/
def newContext (h junk : ℕ) : SkynetContext where
  queue := junk
  handle := h
  cb := false
  ref := 2
  init := false
  freed := false

/-- `skynet_context_new` up to the registration of its handle. -/
def skynetContextNew (s : Server) (h junk : ℕ) : Server :=
  { s with
    ctx := Function.update s.ctx s.nctx (newContext h junk)
    nctx := s.nctx + 1
    slot := Function.update s.slot h (some s.nctx) }.spawn (.registered s.nctx)

/-- One step of the runtime, up to the first fault. -/
def step (s : Server) (a : Action) : Option Server :=
  if s.fault.isSome then none
  else match a with
    | .worker w => some (s.spawn (.worker w none))
    | .launch h junk =>
      if s.slot h = none then some (s.skynetContextNew h junk) else none
    | .push h msg => (s.slot h).map fun c => (s.skynetContextGrab c).spawn (.pushing c msg)
    | .grab h => (s.slot h).map fun c => (s.skynetContextGrab c).spawn (.holding c)
    | .retire h =>
      (s.slot h).map fun c => (s.skynetHandleRetire h).1.spawn (.release c .done)
    | .callback c cb =>
      if c < s.nctx ∧ (s.ctx c).freed = false then some (s.setCtx c { s.ctx c with cb := cb })
      else none
    | .send t msg =>
      match s.procs[t]? with
      | some (.holding c) => some (s.pushTo c msg)
      | _ => none
    | .run t r =>
      (s.procs[t]?).map fun p =>
        { (s.exec r p).1 with procs := s.procs.set t (s.exec r p).2 }

/-- The runtime before anything was started. -/
def initial : Server where
  toMqMem := .skynetMqInit
  ctx := fun _ => { newContext 0 0 with ref := 0, freed := true }
  nctx := 0
  slot := fun _ => none
  procs := []
  log := []

/-- The runtime as a machine. -/
def machine : Machine Server Action where
  init := initial
  step := step

end Server

end SkynetGame
