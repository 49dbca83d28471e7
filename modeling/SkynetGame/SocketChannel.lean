import SkynetGame.Lib.Run
import Mathlib.Data.Nat.Basic
import Mathlib.Logic.Function.Basic

/-!
# The channels of `lualib/socketchannel.lua`

Each connection of a channel has a socket and a dispatcher, both with the number of the connection.
Between two yields the code of the channel is not interrupted: a dispatcher yields in the response
function and where it waits for a request, a request while it waits for its response, and whoever
closes the socket may have to wait in `socket.close`. What the response functions return, and when,
is up to the peers.

The values other than nil and false that a response may hold have the type `α`.
-/

namespace SkynetGame

namespace SocketChannel

/-- Whether `__response` is there. -/
inductive Mode
  | session
  | order
deriving DecidableEq, Repr

/-- What `__result_data` has for a coroutine: one value, or a table of parts. -/
inductive Slot (α : Type*)
  | one (d : α)
  | parts (l : List α)
deriving DecidableEq, Repr

inductive Result
  | ok
  | notOk
  | socketError
deriving DecidableEq, Repr

/-- How `wait_for_response` ends: it returns, or it raises `socket_error` or something else. -/
inductive Outcome (α : Type*)
  | returns (data : Option (Slot α))
  | raises (data : Option (Slot α))
  | socketError
deriving DecidableEq, Repr

/-- What a response function returns; only in session mode a session comes first. -/
structure Reply (α : Type*) where
  session : ℕ
  ok : Bool
  data : Option α
  padding : Bool
deriving DecidableEq, Repr

/-- The dispatcher of a connection: forked, in the response function with the socket and, in order
mode, the coroutine that it pops, waiting for a request, or in `socket.close` with the error
message. -/
inductive Dispatcher (α : Type*)
  | forked
  | reading (sock : Option ℕ) (co : Option ℕ)
  | waiting
  | closing (errmsg : Option α) (co : Option ℕ)
  | dead
deriving DecidableEq, Repr

/-- What happens to a socket: a response is read from it, or it fails or is closed. -/
inductive Entry (α : Type*)
  | reply (e : ℕ) (r : Reply α)
  | fail (e : ℕ)
deriving DecidableEq, Repr

/-- A request that waits, or has waited, for its response: its connection, the number of such requests
of the connection before it, the entries in the log before it, and how it ended. -/
structure Request (α : Type*) where
  co : ℕ
  session : ℕ
  conn : ℕ
  index : ℕ
  since : ℕ
  outcomes : List (Outcome α)
deriving DecidableEq, Repr

structure State (α : Type*) where
  mode : Mode
  sock : Option ℕ
  closed : Bool
  dispatchThread : Option ℕ
  /-- `__thread` in session mode. -/
  threads : List (ℕ × ℕ)
  /-- `__request` and `__thread` in order mode, with `none` for the `true` and `false` of the close
  signal. -/
  request : List (Option ℕ)
  thread : List (Option ℕ)
  waitResponse : Option ℕ
  result : ℕ → Option Result
  resultData : ℕ → Option (Slot α)
  /-- The request that a coroutine waits for. -/
  asleep : ℕ → Option ℕ
  /-- The coroutines, and the dispatchers, in `wakeup_session`. -/
  woken : ℕ → Bool
  dwoken : ℕ → Bool
  disp : ℕ → Dispatcher α
  /-- The connections made. -/
  conns : ℕ
  /-- The coroutines of requests in `socket.close`, and the calls of `close` there, each with the
  dispatcher that it found. -/
  closers : List ℕ
  signals : List (Option ℕ)
  requests : ℕ → Request α
  nRequests : ℕ
  /-- The requests of each connection. -/
  pushed : ℕ → ℕ
  /-- The socket was closed by `close`, by `changehost` or after a failed `auth`. -/
  dropped : ℕ → Bool
  log : List (Entry α)

variable {α : Type*}

/-- Whether the dispatcher is in the `skynet.wait` of `pop_response`. -/
def Dispatcher.isWaiting : Dispatcher α → Bool
  | .waiting => true
  | _ => false

/-- `socket_channel.channel`. -/
def State.init (mode : Mode) : State α where
  mode := mode
  sock := none
  closed := false
  dispatchThread := none
  threads := []
  request := []
  thread := []
  waitResponse := none
  result _ := none
  resultData _ := none
  asleep _ := none
  woken _ := false
  dwoken _ := false
  disp _ := .dead
  conns := 0
  closers := []
  signals := []
  requests _ := ⟨0, 0, 0, 0, 0, []⟩
  nRequests := 0
  pushed _ := 0
  dropped _ := false
  log := []

def State.setDisp (s : State α) (d : ℕ) (st : Dispatcher α) : State α :=
  { s with disp := Function.update s.disp d st }

/-- `skynet.wakeup`, of the coroutine of a request. -/
def wakeup (s : State α) (co : ℕ) : State α :=
  if (s.asleep co).isSome ∧ s.woken co = false then
    { s with woken := Function.update s.woken co true }
  else s

/-- `skynet.wakeup`, of a dispatcher. -/
def wakeupDispatcher (s : State α) (d : ℕ) : State α :=
  if (s.disp d).isWaiting ∧ s.dwoken d = false then
    { s with dwoken := Function.update s.dwoken d true }
  else s

/-- The socket is given up, and to be closed. -/
def closeChannelSocket (s : State α) : State α :=
  match s.sock with
  | some e => { s with sock := none, log := s.log ++ [.fail e] }
  | none => s

/-- What a coroutine whose socket failed is woken with. -/
def lose (errmsg : Option α) (s : State α) (co : ℕ) : State α :=
  wakeup { s with
    result := Function.update s.result co (some .socketError)
    resultData := Function.update s.resultData co (errmsg.map .one) } co

def wakeupAll (s : State α) (errmsg : Option α) : State α :=
  match s.mode with
  | .session => (s.threads.map Prod.snd).foldl (lose errmsg) { s with threads := [] }
  -- the close signal is ignored
  | .order => (s.thread.filterMap id).foldl (lose errmsg) { s with request := [], thread := [] }

def exitThread (s : State α) (d : ℕ) : State α :=
  { s.setDisp d .dead with
    dispatchThread := if s.dispatchThread = some d then none else s.dispatchThread }

/-- With no request the dispatcher waits. The close signal ends it. -/
def popResponse (s : State α) (d : ℕ) : State α :=
  match s.request with
  | [] =>
    { s.setDisp d .waiting with
      thread := s.thread.tail
      waitResponse := some d }
  | _ :: request =>
    let co := s.thread.head?.join
    let s := { s with request := request, thread := s.thread.tail }
    match co with
    | some co => s.setDisp d (.reading s.sock (some co))
    | none => exitThread (wakeupAll s none) d

/-- `while self.__sock do`, in `dispatch_by_session` and `dispatch_by_order`. -/
def loopHead (s : State α) (d : ℕ) : State α :=
  match s.sock, s.mode with
  | some e, .session => s.setDisp d (.reading (some e) none)
  | some _, .order => popResponse s d
  | none, _ => exitThread s d

/-- `table.insert`, into the parts so far; it raises an error for what is no table. -/
def insertPart (old : Option (Slot α)) (data : Option α) : Option (Slot α) :=
  match old with
  | none => some (.parts data.toList)
  | some (.parts l) => some (.parts (l ++ data.toList))
  | some (.one _) => none

/-- The dispatcher goes on with what it got for a coroutine; an error that is raised ends it. -/
def dispatchTo (s : State α) (d co : ℕ) (r : Reply α) : State α :=
  if r.padding ∧ r.ok then
    match insertPart (s.resultData co) r.data with
    | some slot =>
      loopHead { s with resultData := Function.update s.resultData co (some slot) } d
    | none => s.setDisp d .dead
  else
    let s := { s with
      result := Function.update s.result co (some (if r.ok then .ok else .notOk)) }
    if r.ok ∧ (s.resultData co).isSome then
      match insertPart (s.resultData co) r.data with
      | some slot =>
        loopHead (wakeup { s with
          resultData := Function.update s.resultData co (some slot) } co) d
      | none => s.setDisp d .dead
    else
      loopHead (wakeup { s with
        resultData := Function.update s.resultData co (r.data.map .one) } co) d

/-- The entries of `__thread` for other sessions. -/
def otherThreads (s : State α) (session : ℕ) : List (ℕ × ℕ) :=
  s.threads.filter fun p => p.1 ≠ session

/-- A response in `dispatch_by_session`. -/
def dispatchBySession (s : State α) (d : ℕ) (r : Reply α) : State α :=
  match s.threads.find? fun p => p.1 = r.session with
  | some p =>
    if r.padding ∧ r.ok then dispatchTo s d p.2 r
    else dispatchTo { s with threads := otherThreads s r.session } d p.2 r
  -- unknown session
  | none => loopHead { s with threads := otherThreads s r.session } d

/-- The response function of a dispatcher failed, and the socket is closed. -/
def dispatchFailed (s : State α) (d : ℕ) (errmsg : Option α) (co : Option ℕ) : State α :=
  let s := match co with
    | some co => lose errmsg s co
    | none => s
  loopHead (wakeupAll s errmsg) d

/-- `push_response` in order mode: a request, or the close signal. -/
def pushResponse (s : State α) (f co : Option ℕ) : State α :=
  let s := { s with request := s.request ++ [f], thread := s.thread ++ [co] }
  match s.waitResponse with
  | some d => { wakeupDispatcher s d with waitResponse := none }
  | none => s

/-- A request of a coroutine is written to the socket `e`, and the coroutine waits. -/
def waitForResponse (s : State α) (e co session : ℕ) : State α :=
  let q := s.nRequests
  let s := { s with
    requests := Function.update s.requests q ⟨co, session, e, s.pushed e, s.log.length, []⟩
    nRequests := q + 1
    pushed := Function.update s.pushed e (s.pushed e + 1)
    asleep := Function.update s.asleep co (some q) }
  match s.mode with
  | .session => { s with threads := otherThreads s session ++ [(session, co)] }
  | .order => pushResponse s (some q) (some co)

/-- What `wait_for_response` makes of the result. -/
def outcome (s : State α) (co : ℕ) : Outcome α :=
  match s.result co, s.resultData co with
  | some .socketError, none => .socketError
  | some .ok, data => .returns data
  | _, data => .raises data

/-- The coroutine goes on in `wait_for_response`. -/
def goOn (s : State α) (co q : ℕ) : State α :=
  { s with
    woken := Function.update s.woken co false
    asleep := Function.update s.asleep co none
    result := Function.update s.result co none
    resultData := Function.update s.resultData co none
    requests := Function.update s.requests q { s.requests q with
      outcomes := (s.requests q).outcomes ++ [outcome s co] } }

/-- The end of `channel:close`, for the dispatcher that it found. -/
def closeSignal (s : State α) (thread : Option ℕ) : State α :=
  if s.mode = .order ∧ s.dispatchThread = thread ∧ thread.isSome then pushResponse s none none
  else s

/-- The socket is closed by somebody who is neither a request nor a dispatcher. -/
def dropSocket (s : State α) : State α :=
  match s.sock with
  | some e => { closeChannelSocket s with dropped := Function.update s.dropped e true }
  | none => s

/-- What happens to a channel: `connect_once` opens a socket; a dispatcher starts; a request is written
and waits, or cannot be written (`waits` where `socket.close` does not return at once), and
`socket.close` returns to it; a dispatcher's response function returns or raises an error, and
`socket.close` returns to it; a dispatcher goes on in `pop_response`; a coroutine goes on with its
response; `close` is called, and `socket.close` returns to it; the socket is closed for a new host or
a failed `auth`; and `connect` is called after `close`. -/
inductive Label (α : Type*)
  | connect
  | start (d : ℕ)
  | request (co session : ℕ)
  | writeFail (co : ℕ) (waits : Bool)
  | closed (co : ℕ)
  | reply (d : ℕ) (r : Reply α)
  | fail (d : ℕ) (errmsg : Option α) (waits : Bool)
  | failed (d : ℕ)
  | pop (d : ℕ)
  | resume (co : ℕ)
  | close (waits : Bool)
  | signal (thread : Option ℕ)
  | drop
  | reopen
deriving DecidableEq, Repr

/-- Whether a coroutine is at work. -/
def State.Free (s : State α) (co : ℕ) : Prop := s.asleep co = none ∧ co ∉ s.closers

instance (s : State α) (co : ℕ) : Decidable (s.Free co) :=
  inferInstanceAs (Decidable (s.asleep co = none ∧ co ∉ s.closers))

def step (s : State α) : Label α → Option (State α)
  | .connect =>
    if s.sock = none ∧ s.closed = false then
      some { s.setDisp s.conns .forked with
        sock := some s.conns
        dispatchThread := some s.conns
        conns := s.conns + 1 }
    else none
  | .start d =>
    match s.disp d with
    | .forked => some (loopHead s d)
    | _ => none
  | .request co session =>
    match s.sock with
    | some e => if s.Free co then some (waitForResponse s e co session) else none
    | none => none
  | .writeFail co waits =>
    if s.sock.isSome ∧ s.Free co then
      let s := closeChannelSocket s
      some (if waits then { s with closers := co :: s.closers } else wakeupAll s none)
    else none
  | .closed co =>
    if co ∈ s.closers then some (wakeupAll { s with closers := s.closers.erase co } none)
    else none
  | .reply d r =>
    match s.disp d with
    | .reading (some e) co =>
      let s := { s with log := s.log ++ [.reply e r] }
      match co with
      | some co => some (dispatchTo s d co r)
      | none => some (dispatchBySession s d r)
    | _ => none
  | .fail d errmsg waits =>
    match s.disp d with
    | .reading e co =>
      let s := { s with log := s.log ++ e.toList.map .fail }
      if s.sock.isSome ∧ waits = true then
        some ((closeChannelSocket s).setDisp d (.closing errmsg co))
      else some (dispatchFailed (closeChannelSocket s) d errmsg co)
    | _ => none
  | .failed d =>
    match s.disp d with
    | .closing errmsg co => some (dispatchFailed s d errmsg co)
    | _ => none
  | .pop d =>
    if (s.disp d).isWaiting ∧ s.dwoken d = true then
      some (popResponse { s with dwoken := Function.update s.dwoken d false } d)
    else none
  | .resume co =>
    match s.asleep co with
    | some q => if s.woken co then some (goOn s co q) else none
    | none => none
  | .close waits =>
    if s.closed then some s
    else
      let thread := s.dispatchThread
      let s' := dropSocket { s with closed := true }
      if s.sock.isSome ∧ waits = true then some { s' with signals := thread :: s.signals }
      else some (closeSignal s' thread)
  | .signal thread =>
    if thread ∈ s.signals then
      some (closeSignal { s with signals := s.signals.erase thread } thread)
    else none
  | .drop => some (dropSocket s)
  | .reopen =>
    if s.closed = true ∧ s.dispatchThread = none then some { s with closed := false } else none

def machine (mode : Mode) : Machine (State α) (Label α) := ⟨.init mode, step⟩

/-! ## What a request is to come to -/

/-- The responses that were read from a socket. -/
def replies (e : ℕ) (log : List (Entry α)) : List (Reply α) :=
  log.filterMap fun
    | .reply e' r => if e' = e then some r else none
    | .fail _ => none

/-- How a response ends whose parts before the last are there. -/
def finalOutcome (parts : Option (List α)) (r : Reply α) : Outcome α :=
  if r.ok then
    match parts with
    | some l => .returns (some (.parts (l ++ r.data.toList)))
    | none => .returns (r.data.map .one)
  else .raises (r.data.map .one)

/-- One more response after the complete ones and the parts of the next one. -/
def hear (st : List (Outcome α) × Option (List α)) (r : Reply α) :
    List (Outcome α) × Option (List α) :=
  if r.padding ∧ r.ok then (st.1, some (st.2.getD [] ++ r.data.toList))
  else (st.1 ++ [finalOutcome st.2 r], none)

/-- The complete responses, and the parts of one that is not complete. -/
def heard (rs : List (Reply α)) : List (Outcome α) × Option (List α) := rs.foldl hear ([], none)

/-- The responses for the session of a request since it was made, from its socket. -/
def Request.own (q : Request α) (log : List (Entry α)) : List (Reply α) :=
  (replies q.conn (log.drop q.since)).filter fun r => r.session = q.session

/-- The complete response of a request, if it is there: in session mode the first one for its session,
in order mode that of its place among the requests of its connection. -/
def Request.verdict (mode : Mode) (q : Request α) (log : List (Entry α)) : Option (Outcome α) :=
  match mode with
  | .session => (heard (q.own log)).1.head?
  | .order => (heard (replies q.conn log)).1[q.index]?

/-- An error that does not come from a response. -/
def Outcome.IsLost (o : Outcome α) : Prop := o = .socketError ∨ ∃ d, o = .raises (some (.one d))

/-- A request ends with its response, or with an error where its socket failed before that. -/
def Right (mode : Mode) (q : Request α) (log : List (Entry α)) (o : Outcome α) : Prop :=
  q.verdict mode log = some o
    ∨ o.IsLost ∧ ∃ before after, log = before ++ .fail q.conn :: after
      ∧ q.since ≤ before.length ∧ q.verdict mode before = none

/-- Nobody who closed the socket still has to go on, nor does a dispatcher. -/
def State.Quiet (s : State α) : Prop :=
  s.closers = [] ∧ s.signals = []
    ∧ ∀ d, s.disp d = .dead ∨ s.disp d = .waiting ∧ s.dwoken d = false

/-- No two requests that wait have the same session. A connection is made when no dispatcher is left
and no request has the others still to wake. No response has parts in order mode. A socket is not
closed by others than requests and dispatchers while requests wait whose dispatcher has not started,
and where it was, the dispatcher reads no response from it any more unless it is for the last one
that waits. In order mode a channel is not closed before its dispatcher has started, and a close
signal is not passed over by a response, or taken away by requests that are woken. -/
def Tame (s : State α) : Label α → Prop
  | .connect => (∀ d, s.disp d = .dead) ∧ s.closers = []
  | .request _ session => s.mode = .session → ∀ p ∈ s.threads, p.1 ≠ session
  | .closed _ => none ∉ s.thread
  | .reply d r =>
    (s.mode = .order → ¬ (r.padding = true ∧ r.ok = true) ∧ none ∉ s.thread)
      ∧ ∀ e co, s.disp d = .reading (some e) co → s.dropped e = true → s.thread = []
        ∧ ∀ p ∈ s.threads, p.1 = r.session ∧ ¬ (r.padding = true ∧ r.ok = true)
  | .close _ => (∃ d, s.disp d = .forked) → s.threads = [] ∧ s.mode = .session
  | .drop => (∃ d, s.disp d = .forked) → s.threads = [] ∧ s.thread = []
  | _ => True

end SocketChannel

end SkynetGame
