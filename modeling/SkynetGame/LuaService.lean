import SkynetGame.Lib.Run
import SkynetGame.Lib.Bytes

/-!
# The coroutines of a service (`lualib/skynet.lua`)

A run takes the messages of a service one at a time. A message starts or resumes a coroutine, and
the coroutine's own steps follow, each a call of the library, up to a yield, its end, or an error
that it raises. What `suspend` does after a yield are steps of their own, so whether a coroutine
goes on, and how, may differ wherever `suspend` resumes one. `depth` counts the calls of
`dispatch_wakeup` under way, each of which has a `dispatch_error_queue` to follow. Coroutines,
calls, sleeps and response closures are numbered as they come.
-/

namespace SkynetGame

/-- What `session_id_coroutine` has for a session. -/
inductive SessionEntry
  | co (c : ℕ)
  | broken
deriving DecidableEq, Repr

/-- Where a coroutine is. -/
inductive CoState
  -- at `coroutine_yield "EXIT"`
  | pooled
  -- at the yield after it, with something that is no function
  | woken
  -- not resumed since it was created, or taken from the pool
  | ready
  | running
  -- in `yield_call`, and in `skynet.sleep` or `skynet.wait`
  | calling (k : ℕ)
  | asleep (n : ℕ)
  -- at a yield of another kind
  | held
  | dead
deriving DecidableEq, Repr

/-- What a coroutine is resumed with: `true` and a message, `false`, `false` and `"BREAK"`, or the
arguments of the function that it is to call. -/
inductive ResumeArg
  | message (msg : Bytes)
  | failed
  | broken
  | start
deriving DecidableEq, Repr

/-- What can put an end to a call. -/
inductive Notice
  | response (msg : Bytes)
  | error
  | down
deriving DecidableEq, Repr

/-- What a call is to be resumed with when the notice is the first. -/
def Notice.arg : Notice → ResumeArg
  | response msg => .message msg
  | error => .failed
  | down => .failed

/-- What `yield_call` comes to, resumed with that: the response, or an error. -/
def yieldCall : ResumeArg → Except String Bytes
  | .message msg => .ok msg
  | _ => .error "call failed"

/-- What a call comes to when the notice is the first. -/
def Notice.result : Notice → Except String Bytes
  | response msg => .ok msg
  | error => .error "call failed"
  | down => .error "call failed"

/-- A `skynet.call` or `skynet.rawcall`, with the first notice for it and all that its coroutine
was resumed with in it. -/
structure Call (α : Type*) where
  co : ℕ
  session : ℕ
  target : α
  first : Option Notice
  ends : List ResumeArg
deriving DecidableEq, Repr

/-- A `skynet.sleep`, or a `skynet.wait` with its argument. `woken` counts the calls of
`skynet.wakeup` that returned true for it, `late` is what was resumed by the first response to its
session that came after it was broken. -/
structure Nap where
  co : ℕ
  session : ℕ
  wait : Option (Option ℕ)
  woken : ℕ
  ends : List ResumeArg
  late : Option (Option ℕ)
deriving DecidableEq, Repr

/-- A closure that `skynet.response` gave. `f` is a function, `false` or `nil`. -/
structure ResponseClosure (α : Type*) where
  coAddress : α
  coSession : ℕ
  f : Option Bool
  unresponse : Bool
deriving DecidableEq, Repr

/-- An answer, or an error for a session, that is sent. -/
inductive Sent (α : Type*)
  | response (address : α) (session : ℕ)
  | error (address : α) (session : ℕ)
deriving DecidableEq, Repr

/-- Where the service is: between two messages, in a coroutine, or in `suspend` or
`skynet.dispatch_message`. -/
inductive LuaCtl
  | idle
  | run (c : ℕ)
  | wakeup
  | errors
  | forks
deriving DecidableEq, Repr

structure LuaService (α : Type*) where
  -- `session_id` of the context
  sessionId : ℕ
  sessionIdCoroutine : ℕ → Option SessionEntry
  sessionCoroutineId : ℕ → Option ℕ
  sessionCoroutineAddress : ℕ → Option α
  sessionResponse : ℕ → Bool
  wakeupSession : List ℕ
  sleepSession : ℕ → Option ℕ
  watchingService : α → Option ℕ
  watchingSession : List (ℕ × α)
  deadService : α → Bool
  errorQueue : List ℕ
  forkQueue : List ℕ
  coroutinePool : List ℕ
  coState : ℕ → CoState
  nCos : ℕ
  responses : ℕ → ResponseClosure α
  nResponses : ℕ
  sent : List (Sent α)
  ctl : LuaCtl
  depth : ℕ
  -- the source of the request that a coroutine was started for
  source : ℕ → Option α
  calls : ℕ → Call α
  nCalls : ℕ
  naps : ℕ → Nap
  nNaps : ℕ
  -- whether `dispatch_error_queue` took up a session that no call is suspended on, and whether
  -- `skynet.wakeup` returned true for a coroutine that is not asleep
  stray : Bool
  vain : Bool

namespace LuaService

variable {α : Type*} [DecidableEq α]

/-- After `skynet.start`. -/
def init [Inhabited α] : LuaService α where
  sessionId := 1
  sessionIdCoroutine := Function.update (fun _ => none) 1 (some (.co 0))
  sessionCoroutineId _ := none
  sessionCoroutineAddress _ := none
  sessionResponse _ := false
  wakeupSession := []
  sleepSession _ := none
  watchingService _ := none
  watchingSession := []
  deadService _ := false
  errorQueue := []
  forkQueue := []
  coroutinePool := []
  coState := Function.update (fun _ => .dead) 0 .ready
  nCos := 1
  responses _ := ⟨default, 0, none, false⟩
  nResponses := 0
  sent := []
  ctl := .idle
  depth := 0
  source _ := none
  calls _ := ⟨0, 0, default, none, []⟩
  nCalls := 0
  naps _ := ⟨0, 0, none, 0, [], none⟩
  nNaps := 0
  stray := false
  vain := false

variable (s : LuaService α)

section Control

/-- `skynet_context_newsession`, on a 32-bit int. -/
def newSession : ℕ := if s.sessionId + 1 < 2 ^ 31 then s.sessionId + 1 else 1

def setState (c : ℕ) (st : CoState) : LuaService α :=
  { s with coState := Function.update s.coState c st }

def send (m : Sent α) : LuaService α := { s with sent := s.sent ++ [m] }

/-- What is sent for an answer; `accepted` says that `c.send` did not find it too large. -/
def answer (address : α) (session : ℕ) (ok accepted : Bool) : LuaService α :=
  if s.deadService address then s
  else if ok then
    let s := s.send (.response address session)
    if accepted then s else s.send (.error address session)
  else s.send (.error address session)

/-- An error on the main thread, up to the `pcall` of `skynet.dispatch_message`. -/
def throw : LuaService α := { s with ctl := .forks, depth := 0 }

/-- `suspend` returns, to `dispatch_wakeup` or to `skynet.dispatch_message`. -/
def leave : LuaService α :=
  if s.depth = 0 then { s with ctl := .forks }
  else { s with ctl := .errors, depth := s.depth - 1 }

/-- `release_watching`. -/
def releaseWatching (address : Option α) : LuaService α :=
  match address with
  | none => s
  | some a =>
    match s.watchingService a with
    | none => s
    | some ref =>
      { s with
        watchingService := Function.update s.watchingService a
          (if 1 < ref then some (ref - 1) else none) }

/-- `suspend` after an error in the coroutine. -/
def died (c : ℕ) : LuaService α :=
  let s := s.setState c .dead
  match s.sessionCoroutineId c with
  | none => { s with source := Function.update s.source c none }.throw
  | some session =>
    let s :=
      match s.sessionCoroutineAddress c with
      | some addr => if session ≠ 0 then s.send (.error addr session) else s
      | none => s
    { s with
      sessionCoroutineId := Function.update s.sessionCoroutineId c none
      sessionCoroutineAddress := Function.update s.sessionCoroutineAddress c none
      source := Function.update s.source c none }.throw

def runs (c : ℕ) : LuaService α := { s.setState c .running with ctl := .run c }

/-- `coroutine_resume` under `suspend`, up to where the coroutine's own code goes on. In the pool
it takes what it is given as the next function to call, and yields without a command. -/
def resume (c : ℕ) (v : ResumeArg) : LuaService α :=
  match s.coState c with
  | .pooled => (s.setState c .woken).leave
  | .woken => s.died c
  | .dead => s.died c
  | .calling k =>
    let call := s.calls k
    { s with
      watchingSession := s.watchingSession.filter fun p => p.1 ≠ call.session
      calls := Function.update s.calls k { call with ends := call.ends ++ [v] } }.runs c
  | .asleep n =>
    let nap := s.naps n
    let s := { s with naps := Function.update s.naps n { nap with ends := nap.ends ++ [v] } }
    match nap.wait with
    | none => { s with sleepSession := Function.update s.sleepSession c none }.runs c
    | some co =>
      { s with
        sleepSession := Function.update s.sleepSession (co.getD c) none
        sessionIdCoroutine := Function.update s.sessionIdCoroutine nap.session none }.runs c
  | _ => s.runs c

/-- `co_create` with a coroutine of the pool, or a new one. -/
def coCreate (co : Option ℕ) : Option (ℕ × LuaService α) :=
  match co with
  | none => some (s.nCos, { s.setState s.nCos .ready with nCos := s.nCos + 1 })
  | some c =>
    if c ∈ s.coroutinePool then
      let s := { s with coroutinePool := s.coroutinePool.erase c }
      -- resumed with the function to call, which one that was woken takes as an argument
      some (c, s.setState c (if s.coState c = .pooled then .ready else .dead))
    else none

end Control

section Monitor

/-- The first notice of the calls under way that satisfy `p`. -/
def note (n : Notice) (p : Call α → Bool) : LuaService α :=
  { s with
    calls := fun k =>
      if k < s.nCalls ∧ (s.calls k).ends = [] ∧ (s.calls k).first = none ∧ p (s.calls k) then
        { s.calls k with first := some n }
      else s.calls k }

/-- An error message, or a call of `skynet.term` where the session is 0. -/
def noteError (session : ℕ) (source : α) : LuaService α :=
  if session = 0 then s.note .down fun call => call.target = source
  else s.note .error fun call => call.session = session

/-- Whether `pairs(watching_session)` can go through the sessions of `source` in this order. -/
def IsOrder (source : α) (order : List ℕ) : Prop :=
  order.Nodup ∧ (∀ session ∈ order, (session, source) ∈ s.watchingSession) ∧
    ∀ p ∈ s.watchingSession, p.2 = source → p.1 ∈ order

instance (source : α) (order : List ℕ) : Decidable (s.IsOrder source order) :=
  inferInstanceAs (Decidable (_ ∧ _ ∧ _))

/-- `_error_dispatch`. -/
def errorDispatch (errorSession : ℕ) (errorSource : α) (order : List ℕ) : LuaService α :=
  if errorSession = 0 then
    { s with
      deadService :=
        if (s.watchingService errorSource).isSome then
          Function.update s.deadService errorSource true
        else s.deadService
      errorQueue := s.errorQueue ++ order }
  else if ∃ p ∈ s.watchingSession, p.1 = errorSession then
    { s with errorQueue := s.errorQueue ++ [errorSession] }
  else s

/-- Whether the entry is a coroutine in a call with that session. -/
def Awaits (session : ℕ) : Option SessionEntry → Prop
  | some (.co c) =>
    match s.coState c with
    | .calling k => (s.calls k).session = session
    | _ => False
  | _ => False

instance (session : ℕ) (e : Option SessionEntry) : Decidable (s.Awaits session e) := by
  unfold Awaits
  split
  · split <;> infer_instance
  · infer_instance

/-- `dispatch_error_queue`. -/
def dispatchErrorQueue : LuaService α :=
  match s.errorQueue with
  | [] => s.leave
  | session :: queue =>
    let e := s.sessionIdCoroutine session
    let s := { s with
      errorQueue := queue
      sessionIdCoroutine := Function.update s.sessionIdCoroutine session none
      stray := s.stray || !decide (s.Awaits session e) }
    match e with
    | some (.co c) => s.resume c .failed
    | _ => s.throw

/-- `dispatch_wakeup`, with the coroutine that `next` gives. -/
def dispatchWakeup (co : Option ℕ) : Option (LuaService α) :=
  match co with
  | none => if s.wakeupSession = [] then some { s with ctl := .errors } else none
  | some c =>
    if c ∈ s.wakeupSession then
      let s := { s with wakeupSession := s.wakeupSession.filter (· ≠ c) }
      match s.sleepSession c with
      | none => some { s with ctl := .errors }
      | some session =>
        some ({ s with
          sessionIdCoroutine := Function.update s.sessionIdCoroutine session (some .broken)
          depth := s.depth + 1 }.resume c .broken)
    else none

end Monitor

section Yields

/-- `yield_call` with the `"CALL"` case of `suspend`. -/
def call (c : ℕ) (service : α) : LuaService α :=
  let session := s.newSession
  { s.setState c (.calling s.nCalls) with
    sessionId := session
    watchingSession := (session, service) :: s.watchingSession.filter fun p => p.1 ≠ session
    sessionIdCoroutine := Function.update s.sessionIdCoroutine session (some (.co c))
    calls := Function.update s.calls s.nCalls ⟨c, session, service, none, []⟩
    nCalls := s.nCalls + 1
    ctl := .wakeup }

/-- `skynet.sleep`, or `skynet.wait` with its argument, with the `"SLEEP"` case of `suspend`. -/
def sleep (c : ℕ) (wait : Option (Option ℕ)) : LuaService α :=
  let session := s.newSession
  { s.setState c (.asleep s.nNaps) with
    sessionId := session
    sessionIdCoroutine := Function.update s.sessionIdCoroutine session (some (.co c))
    sleepSession := Function.update s.sleepSession c (some session)
    naps := Function.update s.naps s.nNaps ⟨c, session, wait, 0, [], none⟩
    nNaps := s.nNaps + 1
    ctl := .wakeup }

/-- An error in `suspend` while the coroutine is at its yield. -/
def holds (c : ℕ) : LuaService α := (s.setState c .held).throw

/-- `skynet.ret` with the `"RETURN"` case of `suspend`, which resumes the coroutine. -/
def ret (c : ℕ) (accepted : Bool) : LuaService α :=
  if s.sessionResponse c then s.holds c
  else
    let s := { s with sessionResponse := Function.update s.sessionResponse c true }
    match s.sessionCoroutineAddress c, s.sessionCoroutineId c with
    | some address, some session => s.answer address session true accepted
    | _, _ => s.holds c

/-- `skynet.response` with the `"RESPONSE"` case of `suspend`, which resumes the coroutine. -/
def response (c : ℕ) : LuaService α :=
  if s.sessionResponse c then s.holds c
  else
    match s.sessionCoroutineAddress c, s.sessionCoroutineId c with
    | some address, some session =>
      match s.watchingService address with
      | none => s.holds c
      | some ref =>
        { s with
          watchingService := Function.update s.watchingService address (some (ref + 1))
          sessionResponse := Function.update s.sessionResponse c true
          responses := Function.update s.responses s.nResponses ⟨address, session, some true, true⟩
          nResponses := s.nResponses + 1 }
    | _, _ => s.holds c

/-- The end of the function that a coroutine was to call, with the `"EXIT"` case of `suspend`. -/
def finish (c : ℕ) : LuaService α :=
  let s := s.setState c .pooled
  let s := { s with coroutinePool := s.coroutinePool ++ [c] }
  let s := s.releaseWatching (s.sessionCoroutineAddress c)
  { s with
    sessionCoroutineId := Function.update s.sessionCoroutineId c none
    sessionCoroutineAddress := Function.update s.sessionCoroutineAddress c none
    sessionResponse := Function.update s.sessionResponse c false
    source := Function.update s.source c none
    ctl := .wakeup }

end Yields

section Library

/-- `skynet.timeout`; an error where the session is in use. -/
def timeout (co : Option ℕ) : Option (LuaService α) :=
  let session := s.newSession
  let s := { s with sessionId := session }
  (s.coCreate co).map fun (c, s) =>
    if s.sessionIdCoroutine session = none then
      { s with sessionIdCoroutine := Function.update s.sessionIdCoroutine session (some (.co c)) }
    else s

/-- `skynet.fork`. -/
def fork (co : Option ℕ) : Option (LuaService α) :=
  (s.coCreate co).map fun (c, s) => { s with forkQueue := s.forkQueue ++ [c] }

/-- `skynet.wakeup`. -/
def wakeup (co : ℕ) : LuaService α :=
  if (s.sleepSession co).isSome ∧ co ∉ s.wakeupSession then
    let s := { s with wakeupSession := s.wakeupSession ++ [co] }
    match s.coState co with
    | .asleep n =>
      { s with naps := Function.update s.naps n { s.naps n with woken := (s.naps n).woken + 1 } }
    | _ => { s with vain := true }
  else s

/-- The closure with the argument `"TEST"`. -/
def test (r : ℕ) : LuaService α :=
  let p := s.responses r
  if s.deadService p.coAddress then
    { s.releaseWatching (some p.coAddress) with
      responses := Function.update s.responses r { p with f := some false, unresponse := false } }
  else s

/-- The closure with another argument; an error where it is no more. -/
def respond (r : ℕ) (ok accepted : Bool) : LuaService α :=
  let p := s.responses r
  match p.f with
  | none => s
  | some false =>
    { s with responses := Function.update s.responses r { p with f := none } }
  | some true =>
    let s := s.answer p.coAddress p.coSession ok accepted
    { s.releaseWatching (some p.coAddress) with
      responses := Function.update s.responses r { p with f := none, unresponse := false } }

/-- What `skynet.exit` sends to the sources that call the service, in the order of its coroutines,
and to the targets of its calls. -/
def callerErrors : List (Sent α) :=
  (List.range s.nCos).filterMap fun co =>
    match s.sessionCoroutineId co, s.sessionCoroutineAddress co with
    | some session, some address => if session ≠ 0 then some (.error address session) else none
    | _, _ => none

def targetErrors : List (Sent α) :=
  (s.watchingSession.map Prod.snd).eraseDups.map fun address => .error address 0

/-- `skynet.exit`. -/
def exit (c : ℕ) : LuaService α :=
  let s := { s with forkQueue := [], sent := s.sent ++ s.callerErrors }
  let resps := (List.range s.nResponses).filter fun r => (s.responses r).unresponse
  let s := resps.foldl (fun s r => s.respond r false true) s
  let s := { s with sent := s.sent ++ s.targetErrors }
  (s.setState c .held).leave

end Library

section Messages

/-- What `raw_dispatch_message` does for a request before the coroutine is resumed. -/
def start (session : ℕ) (source : α) (co : Option ℕ) : Option (ℕ × LuaService α) :=
  let ref := ((s.watchingService source).map (· + 1)).getD 1
  let s := { s with watchingService := Function.update s.watchingService source (some ref) }
  (s.coCreate co).map fun (c, s) =>
    (c, { s with
      sessionCoroutineId := Function.update s.sessionCoroutineId c (some session)
      sessionCoroutineAddress := Function.update s.sessionCoroutineAddress c (some source) })

/-- A request of a protocol with a dispatch function. -/
def request (session : ℕ) (source : α) (co : Option ℕ) : Option (LuaService α) :=
  (s.start session source co).map fun (c, s) =>
    { s with source := Function.update s.source c (some source) }.resume c .start

/-- A request that `p.unpack` raises an error for. -/
def badRequest (session : ℕ) (source : α) (co : Option ℕ) : Option (LuaService α) :=
  (s.start session source co).map fun (_, s) => s.throw

/-- An error message, which a coroutine of its own hands to `_error_dispatch`. -/
def errorMessage (session : ℕ) (source : α) (order : List ℕ) (co : Option ℕ) :
    Option (LuaService α) :=
  ((s.noteError session source).request session source co).map fun s =>
    match s.ctl with
    | .run c => (s.errorDispatch session source order).finish c
    | _ => s

/-- A message that no protocol has, or a protocol without a dispatch function. -/
def unknown (session : ℕ) (source : α) (prototype : Bool) : LuaService α :=
  if session ≠ 0 ∧ ¬prototype then { s.send (.error source session) with ctl := .forks }
  else s.throw

/-- A response to a session, for the calls and for the sleeps that were broken. -/
def noteResponse (session : ℕ) (msg : Bytes) : LuaService α :=
  let resumed :=
    match s.sessionIdCoroutine session with
    | some (.co c) => some c
    | _ => none
  { s.note (.response msg) fun call => call.session = session with
    naps := fun n =>
      if n < s.nNaps ∧ (s.naps n).session = session ∧ (s.naps n).wait = none ∧
          (s.naps n).ends.head? = some .broken ∧ (s.naps n).late = none then
        { s.naps n with late := some resumed }
      else s.naps n }

/-- A response message; an error where no coroutine has its session. -/
def responseMessage (session : ℕ) (msg : Bytes) : LuaService α :=
  let s := s.noteResponse session msg
  match s.sessionIdCoroutine session with
  | none => s.throw
  | some .broken =>
    { s with
      sessionIdCoroutine := Function.update s.sessionIdCoroutine session none
      ctl := .forks }
  | some (.co c) =>
    { s with
      sessionIdCoroutine := Function.update s.sessionIdCoroutine session none }.resume c
        (.message msg)

end Messages

end LuaService

/-- A message, a step of the coroutine that runs, or one of `suspend` or
`skynet.dispatch_message`. -/
inductive LuaStep (α : Type*)
  | response (session : ℕ) (msg : Bytes)
  | error (session : ℕ) (source : α) (order : List ℕ) (co : Option ℕ)
  | request (session : ℕ) (source : α) (co : Option ℕ)
  | badRequest (session : ℕ) (source : α) (co : Option ℕ)
  | unknown (session : ℕ) (source : α) (prototype : Bool)
  | genid
  | timeout (co : Option ℕ)
  | fork (co : Option ℕ)
  | wakeup (co : ℕ)
  | respond (r : ℕ) (ok accepted : Bool)
  | test (r : ℕ)
  | term (service : α) (order : List ℕ)
  | call (service : α)
  | sleep
  | wait (co : Option ℕ)
  | ret (accepted : Bool)
  | yieldResponse
  | exit
  | finish
  | raise
  -- a yield without a command, or with one that is unknown
  | yield (command : Bool)
  | dispatchWakeup (co : Option ℕ)
  | dispatchErrorQueue
  | forked (c : ℕ)
  | done
deriving DecidableEq, Repr

namespace LuaService

variable {α : Type*} [DecidableEq α] (s : LuaService α)

/-- The coroutine that runs. -/
def running : Option ℕ :=
  match s.ctl with
  | .run c => some c
  | _ => none

def step : LuaStep α → Option (LuaService α)
  | .response session msg => if s.ctl = .idle then some (s.responseMessage session msg) else none
  | .error session source order co =>
    if s.ctl = .idle ∧ (session = 0 → s.IsOrder source order) then
      s.errorMessage session source order co
    else none
  | .request session source co => if s.ctl = .idle then s.request session source co else none
  | .badRequest session source co =>
    if s.ctl = .idle then s.badRequest session source co else none
  | .unknown session source prototype =>
    if s.ctl = .idle then some (s.unknown session source prototype) else none
  | .genid => s.running.map fun _ => { s with sessionId := s.newSession }
  | .timeout co => s.running.bind fun _ => s.timeout co
  | .fork co => s.running.bind fun _ => s.fork co
  | .wakeup co => s.running.map fun _ => s.wakeup co
  | .respond r ok accepted =>
    if r < s.nResponses then s.running.map fun _ => s.respond r ok accepted else none
  | .test r => if r < s.nResponses then s.running.map fun _ => s.test r else none
  | .term service order =>
    if s.IsOrder service order then
      s.running.map fun _ => (s.noteError 0 service).errorDispatch 0 service order
    else none
  | .call service => s.running.map fun c => s.call c service
  | .sleep => s.running.map fun c => s.sleep c none
  | .wait co => s.running.map fun c => s.sleep c (some co)
  | .ret accepted => s.running.map fun c => s.ret c accepted
  | .yieldResponse => s.running.map fun c => s.response c
  | .exit => s.running.map fun c => s.exit c
  | .finish => s.running.map fun c => s.finish c
  | .raise => s.running.map fun c => s.died c
  | .yield command =>
    s.running.map fun c => if command then s.holds c else (s.setState c .held).leave
  | .dispatchWakeup co => if s.ctl = .wakeup then s.dispatchWakeup co else none
  | .dispatchErrorQueue => if s.ctl = .errors then some s.dispatchErrorQueue else none
  | .forked c =>
    if s.ctl = .forks ∧ c ∈ s.forkQueue then
      some ({ s with forkQueue := s.forkQueue.erase c }.resume c .start)
    else none
  | .done => if s.ctl = .forks ∧ s.forkQueue = [] then some { s with ctl := .idle } else none

/-- The coroutines of a service from `skynet.start` on. -/
def machine [Inhabited α] : Machine (LuaService α) (LuaStep α) where
  init := init
  step s i := s.step i

end LuaService

end SkynetGame
