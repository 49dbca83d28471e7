import SkynetGame.Lib.Run
import Mathlib.Data.Nat.Basic
import Mathlib.Logic.Function.Basic

/-!
# The lock of a socket (`lualib/socket.lua`)

One socket that stays in `socket_pool`, and the coroutines of its service. Between two yields the code
of a coroutine is not interrupted; a coroutine may sleep elsewhere, too, with the lock or without.
The calls of `socket.lock` are numbered as they come. Those that wait, those whose coroutine an unlock
woke, and those that returned are kept in their order.
-/

namespace SkynetGame

namespace SocketLock

/-- Where a coroutine is: at work, in a sleep of its own, or in the `skynet.wait()` of a call. -/
inductive Mode where
  | free
  | asleep
  | locking (n : ℕ)
  deriving DecidableEq, Repr

/-- What is in `lock_set`: `true`, or a coroutine. -/
inductive Entry where
  | mark
  | co (c : ℕ)
  deriving DecidableEq, Repr

structure State where
  lock : Option (List Entry)
  mode : ℕ → Mode
  wakeupSession : List ℕ
  /-- The coroutine of each call. -/
  calls : List ℕ
  waited : List ℕ
  woken : List ℕ
  obtained : List ℕ
  /-- The calls of a coroutine that returned, less its unlocks. -/
  holds : ℕ → ℕ

def State.init : State where
  lock := none
  mode _ := .free
  wakeupSession := []
  calls := []
  waited := []
  woken := []
  obtained := []
  holds _ := 0

/-- `skynet.wakeup`: `sleep_session` has the coroutines that sleep anywhere. -/
def wakeup (s : State) (co : ℕ) : State :=
  if s.mode co = .free ∨ co ∈ s.wakeupSession then s
  else { s with
    wakeupSession := s.wakeupSession ++ [co]
    woken := s.woken ++ match s.mode co with
      | .locking n => [n]
      | _ => [] }

/-- A call returns. -/
def obtain (s : State) (co n : ℕ) : State :=
  { s with
    obtained := s.obtained ++ [n]
    holds := Function.update s.holds co (s.holds co + 1) }

/-- `socket.lock`, up to its return or the `skynet.wait()`. -/
def lock (s : State) (co : ℕ) : State :=
  let lockSet := s.lock.getD []
  let n := s.calls.length
  let s := { s with calls := s.calls ++ [co] }
  if lockSet.length = 0 then obtain { s with lock := some [.mark] } co n
  else { s with
    lock := some (lockSet ++ [.co co])
    mode := Function.update s.mode co (.locking n)
    waited := s.waited ++ [n] }

/-- `socket.unlock`; none where an assertion fails. -/
def unlock (s : State) (co : ℕ) : Option State := do
  let lockSet ← s.lock
  let s := { s with
    lock := some lockSet.tail
    holds := Function.update s.holds co (s.holds co - 1) }
  match lockSet.tail.head? with
  | some (.co next) => some (wakeup s next)
  -- true is in no sleep
  | some .mark => some s
  | none => some s

/-- The steps: a coroutine calls `socket.lock` or `socket.unlock`, goes to sleep or ends its sleep, and
`dispatch_wakeup` resumes one. -/
inductive Label where
  | lock (co : ℕ)
  | unlock (co : ℕ)
  | sleep (co : ℕ)
  | awake (co : ℕ)
  | resume (co : ℕ)
  deriving DecidableEq, Repr

def step (s : State) : Label → Option State
  | .lock co => if s.mode co = .free then some (lock s co) else none
  | .unlock co => if s.mode co = .free then unlock s co else none
  | .sleep co =>
    if s.mode co = .free then some { s with mode := Function.update s.mode co .asleep } else none
  | .awake co =>
    if s.mode co = .asleep then some { s with mode := Function.update s.mode co .free } else none
  | .resume co =>
    if co ∈ s.wakeupSession then
      let s := { s with wakeupSession := s.wakeupSession.erase co }
      match s.mode co with
      | .free => some s
      | .asleep => some { s with mode := Function.update s.mode co .free }
      | .locking n => some (obtain { s with mode := Function.update s.mode co .free } co n)
    else none

def machine : Machine State Label := ⟨.init, step⟩

/-- Each unlock is made by the holder. -/
def ByHolder (s : State) : Label → Prop
  | .unlock co => 0 < s.holds co
  | _ => True

end SocketLock

end SkynetGame
