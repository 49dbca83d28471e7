import SkynetGame.Netpack

/-!
# The gate server (`lualib/snax/gateserver.lua`)

A service between two messages, in a handler of the user, at a pop of `dispatch_queue`, or in
`skynet.dispatch_message` between two coroutines. A handler may return, yield or raise an error, and
a coroutine that has yielded goes on with any later message, or between two coroutines of this one.
A queue is known by its capacity: the one that a larger one took the place of stays empty.
-/

namespace SkynetGame

namespace Gateserver

open Netpack (Delivery Event)

/-- `maxclient`, and which of the optional handlers there are. -/
structure Handler where
  maxclient : ℕ
  disconnect : Bool
  error : Bool
  warning : Bool
  deriving DecidableEq, Repr

/-- What a coroutine does when the handler that it called returns: nothing, the loop of
`dispatch_queue`, over a queue if it is in the loop already, or `close_fd`. -/
inductive Rest where
  | exit
  | loop (queue : Option ℕ)
  | closeFd (fd : ℕ)
  deriving DecidableEq, Repr

/-- What runs. A pop is the first one of `dispatch_queue`, or one of its loop over a queue. -/
inductive Phase where
  | idle
  | handler (rest : Rest)
  | pop (queue : Option ℕ)
  | forks
  deriving DecidableEq, Repr

/-- The variables of the server, with those of `netpack`; the forks of `dispatch_queue` that are to
run, and the coroutines that have yielded; what `dispatch_msg` was called with, and whether it called
`handler.message`; and the fds that were accepted and not yet reported closed. -/
structure State where
  net : Netpack.State
  socket : Option ℕ
  clientNumber : ℤ
  connection : ℕ → Option Bool
  phase : Phase
  forks : ℕ
  suspended : List Rest
  messages : List (Delivery × Bool)
  isOpen : ℕ → Bool

/-- `gateserver.closeclient`. -/
def closeclient (fd : ℕ) (s : State) : State :=
  if s.connection fd = some true then
    { s with connection := Function.update s.connection fd (some false) }
  else s

/-- `dispatch_msg`, where the coroutine has `rest` to do then, which begins with `next`. -/
def dispatchMsg (d : Delivery) (rest : Rest) (next : Phase) (s : State) : State :=
  if s.connection d.fd = some true then
    { s with messages := s.messages ++ [(d, true)], phase := .handler rest }
  else { s with messages := s.messages ++ [(d, false)], phase := next }

/-- The capacity of `queue`. -/
def State.cap (s : State) : ℕ := (Netpack.getQueue s.net.q).cap

/-- `netpack.pop(queue)`. -/
def State.pop (s : State) : Option (Delivery × State) :=
  (Netpack.lpop s.net.q).map fun r =>
    let d := ⟨false, r.1.id, r.1.buffer⟩
    (d, { s with net := { s.net with q := some r.2, delivered := s.net.delivered ++ [d] } })

/-- `dispatch_queue`, up to its loop. -/
def dispatchQueue (s : State) : State :=
  match s.pop with
  | none => { s with phase := .forks }
  | some (d, s) => dispatchMsg d (.loop none) (.pop (some s.cap)) { s with forks := s.forks + 1 }

/-- A round of the loop of `dispatch_queue` over a queue. -/
def loop (queue : ℕ) (s : State) : State :=
  if queue ≠ s.cap then { s with phase := .forks }
  else
    match s.pop with
    | none => { s with phase := .forks }
    | some (d, s) => dispatchMsg d (.loop (some queue)) (.pop (some queue)) s

/-- `MSG.open`. -/
def msgOpen (h : Handler) (fd : ℕ) (s : State) : State :=
  if s.clientNumber ≥ h.maxclient then { s with phase := .forks }
  else
    { s with
      connection := Function.update s.connection fd (some true)
      clientNumber := s.clientNumber + 1
      phase := .handler .exit }

/-- `close_fd`. -/
def closeFd (fd : ℕ) (s : State) : State :=
  if s.connection fd ≠ none then
    { s with
      connection := Function.update s.connection fd none
      clientNumber := s.clientNumber - 1 }
  else s

/-- `MSG.close`. -/
def msgClose (h : Handler) (fd : ℕ) (s : State) : State :=
  if s.socket ≠ some fd then
    if h.disconnect then { s with phase := .handler (.closeFd fd) }
    else { closeFd fd s with phase := .forks }
  else { s with socket := none, phase := .forks }

/-- `MSG.error`. -/
def msgError (h : Handler) (fd : ℕ) (s : State) : State :=
  if s.socket = some fd then { s with phase := .forks }
  else if h.error then { s with phase := .handler (.closeFd fd) }
  else { closeFd fd s with phase := .forks }

/-- The dispatch of the socket protocol. -/
def dispatch (h : Handler) (s : State) : Event → State
  | .none => { s with phase := .forks }
  | .data fd buffer => dispatchMsg ⟨true, fd, buffer⟩ .exit .forks s
  | .more => { s with phase := .pop none }
  | .opened fd => msgOpen h fd { s with isOpen := Function.update s.isOpen fd true }
  | .close fd => msgClose h fd { s with isOpen := Function.update s.isOpen fd false }
  | .error fd => msgError h fd { s with isOpen := Function.update s.isOpen fd false }
  | .warning _ => { s with phase := if h.warning then .handler .exit else .forks }

/-- A handler has returned. -/
def resume (s : State) : Rest → State
  | .exit => { s with phase := .forks }
  | .loop queue => { s with phase := .pop (some (queue.getD s.cap)) }
  | .closeFd fd => { closeFd fd s with phase := .forks }

inductive Label where
  | socket (m : Netpack.Message)
  | ret
  | yield
  | raise
  | wakeup (i : ℕ)
  | closeclient (fd : ℕ)
  | next
  deriving DecidableEq, Repr

/-- A message of the socket is dispatched, a handler returns, yields or raises an error, a coroutine
that has yielded goes on, the user closes a client, or the server goes on by itself. No connection has
the id of the socket that listens. -/
def step (h : Handler) (s : State) : Label → Option State
  | .socket m =>
    if s.phase = .idle ∧ ∀ fd ∈ s.socket, m ≠ .accept fd then
      (Netpack.step s.net (.message m)).map fun net =>
        dispatch h { s with net := net } (Netpack.lfilter s.net.q m).2
    else none
  | .ret =>
    match s.phase with
    | .handler rest => some (resume s rest)
    | _ => none
  | .yield =>
    match s.phase with
    | .handler rest => some { s with suspended := s.suspended ++ [rest], phase := .forks }
    | _ => none
  | .raise =>
    match s.phase with
    | .handler _ => some { s with phase := .forks }
    | _ => none
  | .wakeup i =>
    if s.phase = .idle ∨ s.phase = .forks then
      s.suspended[i]?.map fun rest =>
        { s with suspended := s.suspended.eraseIdx i, phase := .handler rest }
    else none
  | .closeclient fd => some (closeclient fd s)
  | .next =>
    match s.phase with
    | .pop none => some (dispatchQueue s)
    | .pop (some queue) => some (loop queue s)
    | .forks =>
      if s.forks = 0 then some { s with phase := .idle }
      else some { s with forks := s.forks - 1, phase := .pop none }
    | _ => none

/-- A server that listens. -/
def init (socket : ℕ) : State :=
  ⟨Netpack.init, some socket, 0, fun _ => none, .idle, 0, [], [], fun _ => false⟩

/-- The fd that is closed when the handler returns. -/
def Phase.closing : Phase → Option ℕ
  | .handler (.closeFd fd) => some fd
  | _ => none

/-- No fd is opened whose entry is there still; and where the handler of a close or of an error raises
an error, the fd has no entry, or is open again, or another such handler of it has still to return. -/
def Tame (h : Handler) (s : State) : Label → Prop
  | .socket (.accept fd) => s.clientNumber < h.maxclient → s.connection fd = none
  | .raise => ∀ fd ∈ s.phase.closing,
    s.connection fd = none ∨ s.isOpen fd = true ∨ .closeFd fd ∈ s.suspended
  | _ => True

instance (h : Handler) (s : State) : (l : Label) → Decidable (Tame h s l)
  | .socket (.accept fd) =>
    inferInstanceAs (Decidable (s.clientNumber < h.maxclient → s.connection fd = none))
  | .raise => inferInstanceAs (Decidable (∀ fd ∈ s.phase.closing,
      s.connection fd = none ∨ s.isOpen fd = true ∨ .closeFd fd ∈ s.suspended))
  | .socket (.data ..) | .socket (.connect _) | .socket (.close _) | .socket (.error _) |
    .socket (.warning _) | .ret | .yield | .wakeup _ | .closeclient _ | .next => .isTrue trivial

def machine (h : Handler) (socket : ℕ) : Machine State Label := ⟨init socket, step h⟩

end Gateserver

end SkynetGame
