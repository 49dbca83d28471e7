import SkynetGame.Lib.Run
import Mathlib.Data.Nat.Basic
import Mathlib.Logic.Function.Basic

/-!
# The critical section of lualib/skynet/queue.lua

One queue and the coroutines of its service. A call of the queue has a frame on the coroutine's stack
from when its function starts to when it returned or raised an error; between two yields the code of
the queue is not interrupted. A coroutine may sleep elsewhere too, inside of the queue or outside.
The coroutines that had to wait, and those that went on from there, are kept in their order.
-/

namespace SkynetGame

namespace SkynetQueue

/-- Where a coroutine is: at work, in a sleep of its own, or in the `skynet.wait()` of the queue. -/
inductive Mode where
  | free
  | asleep
  | queued
  deriving DecidableEq, Repr

structure State where
  currentThread : Option ℕ
  ref : ℤ
  threadQueue : List ℕ
  mode : ℕ → Mode
  /-- The coroutine is in `wakeup_session`. -/
  wakeupSession : ℕ → Bool
  /-- The calls of the queue whose function the coroutine is in. -/
  frames : ℕ → ℕ
  /-- The coroutines that had to wait. -/
  waited : List ℕ
  /-- Those of them that went on. -/
  entered : List ℕ
  /-- `assert(ref == 0)` failed. -/
  failed : Bool

def State.init : State where
  currentThread := none
  ref := 0
  threadQueue := []
  mode _ := .free
  wakeupSession _ := false
  frames _ := 0
  waited := []
  entered := []
  failed := false

/-- `skynet.wakeup`: `sleep_session` has the coroutines that sleep anywhere. -/
def wakeup (s : State) (co : ℕ) : State :=
  if s.mode co ≠ .free ∧ s.wakeupSession co = false then
    { s with wakeupSession := Function.update s.wakeupSession co true }
  else s

/-- `current_thread = thread; ref = ref + 1`, and the function starts. -/
def enter (s : State) (thread : ℕ) : State :=
  { s with
    currentThread := some thread
    ref := s.ref + 1
    frames := Function.update s.frames thread (s.frames thread + 1) }

/-- A call of the queue, up to where its function starts or the coroutine waits. -/
def call (s : State) (thread : ℕ) : State :=
  if s.currentThread ≠ none ∧ s.currentThread ≠ some thread then
    { s with
      threadQueue := s.threadQueue ++ [thread]
      mode := Function.update s.mode thread .queued
      waited := s.waited ++ [thread] }
  else enter s thread

/-- What comes after the `skynet.wait()`. -/
def goOn (s : State) (thread : ℕ) : State :=
  -- assert(ref == 0)
  if s.ref ≠ 0 then { s with failed := true }
  else enter { s with entered := s.entered ++ [thread] } thread

/-- `xpcall_ret`: the function returned or raised an error. -/
def xpcallRet (s : State) (thread : ℕ) : State :=
  let s := { s with
    ref := s.ref - 1
    frames := Function.update s.frames thread (s.frames thread - 1) }
  if s.ref = 0 then
    match s.threadQueue with
    | [] => { s with currentThread := none }
    | co :: queue => wakeup { s with currentThread := some co, threadQueue := queue } co
  else s

/-- The steps: a coroutine calls the queue, the function of its last call returns or raises an error,
it goes to sleep, somebody wakes it, the time of its sleep is over, and `dispatch_wakeup` resumes
it. -/
inductive Label where
  | call (co : ℕ)
  | leave (co : ℕ)
  | sleep (co : ℕ)
  | wake (co : ℕ)
  | timeout (co : ℕ)
  | resume (co : ℕ)
  deriving DecidableEq, Repr

def step (s : State) : Label → Option State
  | .call co => if s.mode co = .free then some (call s co) else none
  | .leave co => if s.mode co = .free ∧ 0 < s.frames co then some (xpcallRet s co) else none
  | .sleep co =>
    if s.mode co = .free then some { s with mode := Function.update s.mode co .asleep } else none
  | .wake co => some (wakeup s co)
  | .timeout co =>
    if s.mode co = .asleep then some { s with mode := Function.update s.mode co .free } else none
  | .resume co =>
    if s.wakeupSession co then
      let s := { s with wakeupSession := Function.update s.wakeupSession co false }
      match s.mode co with
      | .free => some s
      | .asleep => some { s with mode := Function.update s.mode co .free }
      | .queued => some (goOn { s with mode := Function.update s.mode co .free } co)
    else none

def machine : Machine State Label := ⟨.init, step⟩

/-- A coroutine waiting in the queue is woken only by the queue: nobody else wakes it while it waits,
nor is it still to be woken for another sleep when it starts to wait. -/
def ByQueue (s : State) : Label → Prop
  | .call co =>
    s.currentThread ≠ none → s.currentThread ≠ some co → s.wakeupSession co = false
  | .wake co => s.mode co ≠ .queued
  | _ => True

end SkynetQueue

end SkynetGame
