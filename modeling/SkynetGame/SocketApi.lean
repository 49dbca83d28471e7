import SkynetGame.SocketBuffer
import SkynetGame.Lib.Run

/-!
# Reading from a socket (lualib/socket.lua)

The table of a connected socket without a limit, its buffer in the driver, and the one coroutine that
reads from it. A call that finds too little in the buffer stores what it waits for and sleeps; the
message with the data, or with the end of the stream, wakes it. It goes on when the queue of woken
coroutines is served, which is after the message unless another coroutine raised an error in it. What
came, and what the calls returned, is kept beside.
-/

namespace SkynetGame

namespace SocketApi

open SocketBuffer (lpushbuffer lpopbuffer lreadall lreadline lreadlineCheck)

/-- A call of the coroutine. -/
inductive Call where
  | read (sz : ℕ)
  | readSome
  | readall
  | readline (sep : Bytes)
  deriving DecidableEq, Repr

/-- What a call returns: a string, `false` and a string, no string at all, or it raises an error. -/
inductive Result where
  | str (s : Bytes)
  | failed (s : Bytes)
  | no
  | raised
  deriving DecidableEq, Repr

/-- `read_required`: nil or false, a number, a string or true. -/
inductive Required where
  | none
  | number (n : ℤ)
  | sep (s : Bytes)
  | all
  deriving DecidableEq, Repr

structure State where
  driver : SocketBuffer.State
  connected : Bool
  readRequired : Required
  /-- `s.co` is the coroutine. -/
  co : Bool
  /-- The coroutine is in `wakeup_session`. -/
  woken : Bool
  /-- The call in which the coroutine sleeps. -/
  sleeping : Option Call
  arrived : Bytes
  returned : List (Call × Result)
  /-- A call of the driver did not return. -/
  crashed : Bool

def State.init : State where
  driver := .init
  connected := true
  readRequired := .none
  co := false
  woken := false
  sleeping := none
  arrived := []
  returned := []
  crashed := false

def State.crash (s : State) : State := { s with crashed := true }

/-- `wakeup(s)`. -/
def wakeup (s : State) : State := if s.co then { s with co := false, woken := true } else s

/-- The call is over. -/
def ret (s : State) (c : Call) (r : Result) : State :=
  { s with sleeping := none, returned := s.returned ++ [(c, r)] }

/-- `assert(not s.read_required)`, what is waited for is stored, and `suspend(s)`. -/
def suspend (s : State) (c : Call) (rr : Required) : State :=
  if s.readRequired ≠ .none ∨ s.co then ret s c .raised
  else { s with readRequired := rr, co := true, sleeping := some c }

variable (id : ℕ)

/-- `driver.readall`, for what is done with all that is left. -/
def readallThen (s : State) (k : State → Bytes → State) : State :=
  match lreadall s.driver id with
  | none => s.crash
  | some (str, driver) => k { s with driver } str

/-- `return false, driver.readall(s.buffer, buffer_pool)`. -/
def failAll (s : State) (c : Call) : State := readallThen id s fun s str => ret s c (.failed str)

/-- `driver.pop`, or `driver.readline`, and to return what it gives; else `k` goes on. -/
def popOr (s : State) (c : Call) (sz : ℤ) (k : State → State) : State :=
  match lpopbuffer s.driver id sz with
  | none => s.crash
  | some (some str, _, driver) => ret { s with driver } c (.str str)
  | some (none, _, driver) => k { s with driver }

def readlineOr (s : State) (c : Call) (sep : Bytes) (k : State → State) : State :=
  match lreadline s.driver id sep with
  | none => s.crash
  | some (some str, driver) => ret { s with driver } c (.str str)
  | some (none, driver) => k { s with driver }

/-- A call, up to its end or to the point where it sleeps: `socket.read`, with a size and without,
`socket.readall` and `socket.readline`. -/
def start (s : State) : Call → State
  | .read sz => popOr id s (.read sz) sz fun s =>
    if s.connected then suspend s (.read sz) (.number sz) else failAll id s (.read sz)
  | .readSome => readallThen id s fun s str =>
    if str ≠ [] then ret s .readSome (.str str)
    else if s.connected then suspend s .readSome (.number 0)
    else ret s .readSome (.failed str)
  | .readall =>
    if s.connected then suspend s .readall .all
    else readallThen id s fun s str => ret s .readall (if str ≠ [] then .str str else .no)
  | .readline sep => readlineOr id s (.readline sep) sep fun s =>
    if s.connected then suspend s (.readline sep) (.sep sep) else failAll id s (.readline sep)

/-- What is left of a call after its `suspend(s)`. -/
def finish (s : State) : Call → State
  | .read sz => popOr id s (.read sz) sz fun s => failAll id s (.read sz)
  | .readSome => readallThen id s fun s str =>
    ret s .readSome (if str ≠ [] then .str str else .failed str)
  | .readall =>
    -- assert(s.connected == false)
    if s.connected then ret s .readall .raised
    else readallThen id s fun s str => ret s .readall (.str str)
  | .readline sep =>
    if s.connected then readlineOr id s (.readline sep) sep fun s => ret s (.readline sep) .no
    else failAll id s (.readline sep)

/-- The message with a chunk of data. -/
def onData (s : State) (data : Bytes) : State :=
  match lpushbuffer s.driver id data with
  | none => s.crash
  | some (sz, driver) =>
    let s := { s with driver, arrived := s.arrived ++ data }
    match s.readRequired with
    | .number rr => if sz ≥ rr then wakeup { s with readRequired := .none } else s
    | .sep rr =>
      match lreadlineCheck s.driver id rr with
      | none => s.crash
      | some found => if found then wakeup { s with readRequired := .none } else s
    | _ => s

/-- The message that the socket was closed, or the one of an error on it. -/
def onClose (s : State) : State := wakeup { s with connected := false }

/-- What happens: the coroutine calls, or goes on; data comes, or the stream ends. -/
inductive Label where
  | call (c : Call)
  | resume
  | data (chunk : Bytes)
  | close
  deriving DecidableEq, Repr

/-- After the end of the stream no data comes. -/
def step (s : State) : Label → Option State
  | .call c => if s.sleeping = none then some (start id s c) else none
  | .resume =>
    match s.sleeping with
    | some c => if s.woken then some (finish id { s with woken := false } c) else none
    | none => none
  | .data chunk => if s.connected ∧ chunk ≠ [] then some (onData id s chunk) else none
  | .close => some (onClose s)

def machine : Machine State Label := ⟨.init, step id⟩

end SocketApi

end SkynetGame
