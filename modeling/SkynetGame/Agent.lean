import SkynetGame.Lib.Run
import SkynetGame.Lib.Bytes

/-!
# The request queue of an agent (`services/agent/agent.lua`)

Requests are posted to `message_queue`, and the coroutine that `startqueue` forked takes them off
one at a time. It goes to sleep on an empty queue, with itself in `thread_id` for `post_queue` to
wake up; a handler may yield too, with posts coming in meanwhile. `startqueue` runs once, from
`CMD.start`, so `message_queue_croutine_id` always is the consumer.
-/

namespace SkynetGame

namespace Agent

/-- A request as `host:dispatch` gives it: its name, and whether it comes with a `response`. What
its arguments are shows in the answer of its handler. -/
structure Request where
  name : Bytes
  response : Bool
deriving DecidableEq, Repr

/-- How `dispatchhandler.on_client_request` and `response` come out: an error, or a package of
`size` bytes. -/
inductive Answer
  | raise
  | pack (size : ℕ)
deriving DecidableEq, Repr

/-- What `pcall(dispatch_client_message, ..)` gives: an error, `nil`, or a package. -/
inductive Outcome
  | error
  | noResult
  | result (size : ℕ)
deriving DecidableEq, Repr

/-- `dispatch_client_message`. -/
def dispatchClientMessage (m : Request) (a : Answer) : Outcome :=
  if m.name.lower = Bytes.ascii "heartbeat" then .noResult
  -- `string.find(name, "_")` is `nil`, and adding 1 to it an error
  else if 95 ∉ m.name then .error
  else
    match a with
    | .raise => .error
    | .pack size => if m.response then .result size else .noResult

/-- Where the consumer is. -/
inductive Consumer
  -- at the head of its loop: forked, woken up, or through with a request
  | ready
  -- in `dispatch_client_message`
  | handling (m : Request)
  -- in `skynet.wait`
  | waiting
  -- left the loop, or died of an error
  | ended
deriving DecidableEq, Repr

end Agent

/-- The state of an agent; `posted`, `dispatched` and `outcomes` tell what has happened so far. -/
structure Agent where
  messageQueue : List Agent.Request
  -- whether `thread_id` is the consumer, or `nil`
  threadId : Bool
  curMessage : Option Agent.Request
  checkFlag : ℕ
  clientFd : Option ℕ
  lFd : Option ℕ
  consumer : Agent.Consumer
  posted : List Agent.Request
  dispatched : List Agent.Request
  outcomes : List Agent.Outcome

namespace Agent

/-- `skynet.wakeup(thread_id)`. -/
def wakeup (s : Agent) : Agent :=
  { s with consumer := if s.consumer = .waiting then .ready else s.consumer }

/-- `post_queue`. -/
def postQueue (s : Agent) (m : Request) : Agent :=
  let s := { s with messageQueue := s.messageQueue ++ [m], posted := s.posted ++ [m] }
  if s.threadId then { s.wakeup with threadId := false } else s

/-- The consumer from the head of its loop to where it yields, or ends. -/
def loop (s : Agent) : Agent :=
  if s.lFd = s.clientFd then
    match s.messageQueue with
    | [] => { s with threadId := true, consumer := .waiting }
    | m :: rest =>
      { s with
        messageQueue := rest
        curMessage := some m
        consumer := .handling m
        dispatched := s.dispatched ++ [m] }
  else { s with consumer := .ended }

/-- The global `send_package`, as far as it matters what calling it does: nothing sets it, since
the local function of that name is declared only after `startqueue`. -/
def sendPackage : Option (Agent → ℕ → Agent) := none

/-- The end of the loop's body. -/
def handled (s : Agent) : Agent :=
  { s with checkFlag := s.checkFlag + 1, curMessage := none, consumer := .ready }

/-- The consumer after the `pcall`. -/
def finish (s : Agent) (o : Outcome) : Agent :=
  let s := { s with outcomes := s.outcomes ++ [o] }
  if s.lFd ≠ s.clientFd then { s with consumer := .ended }
  else
    match o with
    | .result size =>
      -- the response is too large: the function returns
      if 0x8000 < size then { s with consumer := .ended }
      else
        match sendPackage with
        | some f => (f s size).handled
        -- calling `nil` is an error, here outside of the `pcall`
        | none => { s with consumer := .ended }
    | .noResult | .error => s.handled

/-- What a run may do next: a request comes in, the consumer goes on, a handler comes to its end,
`CMD.start` sets `client_fd`. -/
inductive Action
  | post (m : Request)
  | loop
  | finish (a : Answer)
  | clientFd (fd : Option ℕ)
deriving DecidableEq, Repr

def step (s : Agent) : Action → Option Agent
  | .post m => some (s.postQueue m)
  | .loop => if s.consumer = .ready then some s.loop else none
  | .finish a =>
    match s.consumer with
    | .handling m => some (s.finish (dispatchClientMessage m a))
    | _ => none
  | .clientFd fd => some { s with clientFd := fd }

/-- The agent as a machine, from where `startqueue` has forked the consumer. -/
def machine (clientFd : Option ℕ) : Machine Agent Action where
  init := ⟨[], false, none, 0, clientFd, clientFd, .ready, [], [], []⟩
  step := step

end Agent

end SkynetGame
