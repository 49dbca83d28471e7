import SkynetGame.Lib.Run
import Mathlib.Data.Nat.Basic
import Mathlib.Logic.Function.Basic

/-!
# The timer (`skynet_timer.c`)

Five wheels of lists: `near` has a list for each of the next ticks, `t` has lists of ever coarser
spans. `timer_update` takes the lock, and gives it up while it pushes the messages of the lists it
took out, so a run may add timers between any two of these messages.
-/

namespace SkynetGame

/-- `struct timer_event`. -/
structure TimerEvent where
  handle : ℕ
  session : ℤ
deriving DecidableEq, Repr

/-- `struct timer_node` and the event behind it; `serial` counts the nodes that were made. -/
structure TimerNode where
  expire : UInt32
  event : TimerEvent
  serial : ℕ
deriving DecidableEq, Repr

/-- `struct timer`, what its clock is set by apart. -/
structure Timer where
  near : ℕ → List TimerNode
  t : ℕ → ℕ → List TimerNode
  time : UInt32

def timeNearShift : UInt32 := 8
def timeNear : UInt32 := 256
def timeLevelShift : UInt32 := 6
def timeNearMask : UInt32 := timeNear - 1
def timeLevelMask : UInt32 := 63

namespace Timer

/-- The `for` loop of `add_node`. -/
def addLevel (time currentTime : UInt32) : (n i : ℕ) → (mask : UInt32) → ℕ
  | 0, i, _ => i
  | n + 1, i, mask =>
    if time ||| (mask - 1) = currentTime ||| (mask - 1) then i
    else addLevel time currentTime n (i + 1) (mask <<< timeLevelShift)

/-- `link(&T->near[i], node)`. -/
def linkNear (T : Timer) (i : ℕ) (node : TimerNode) : Timer :=
  { T with near := Function.update T.near i (T.near i ++ [node]) }

/-- `link(&T->t[level][i], node)`. -/
def linkLevel (T : Timer) (level i : ℕ) (node : TimerNode) : Timer :=
  { T with
    t := Function.update T.t level (Function.update (T.t level) i (T.t level i ++ [node])) }

/-- `add_node`. -/
def addNode (T : Timer) (node : TimerNode) : Timer :=
  let time := node.expire
  if time ||| timeNearMask = T.time ||| timeNearMask then
    T.linkNear (time &&& timeNearMask).toNat node
  else
    let i := addLevel time T.time 3 0 (timeNear <<< timeLevelShift)
    T.linkLevel i
      ((time >>> (timeNearShift + i.toUInt32 * timeLevelShift)) &&& timeLevelMask).toNat node

/-- `move_list`. -/
def moveList (T : Timer) (level idx : ℕ) : Timer :=
  (T.t level idx).foldl addNode
    { T with t := Function.update T.t level (Function.update (T.t level) idx []) }

/-- The `while` loop of `timer_shift`. -/
def shiftLoop (T : Timer) (ct : UInt32) : (fuel : ℕ) → (mask time : UInt32) → (i : ℕ) → Option Timer
  | 0, _, _, _ => none
  | fuel + 1, mask, time, i =>
    if ct &&& (mask - 1) = 0 then
      let idx := time &&& timeLevelMask
      if idx ≠ 0 then some (T.moveList i idx.toNat)
      else shiftLoop T ct fuel (mask <<< timeLevelShift) (time >>> timeLevelShift) (i + 1)
    else some T

/-- `timer_shift`. -/
def timerShift (T : Timer) : Option Timer :=
  let ct := T.time + 1
  let T := { T with time := ct }
  if ct = 0 then some (T.moveList 3 0) else T.shiftLoop ct 4 timeNear (ct >>> timeNearShift) 0

/-- The test of the `while` loop of `timer_execute` and its `link_clear`. -/
def timerExecute (T : Timer) : Timer × List TimerNode :=
  let idx := (T.time &&& timeNearMask).toNat
  ({ T with near := Function.update T.near idx [] }, T.near idx)

/-- `timer_create_timer`. -/
def timerCreateTimer : Timer where
  near := fun _ => []
  t := fun _ _ => []
  time := 0

end Timer

/-- A message that the timer has pushed: in which update, and for which node if for one. -/
structure TimerPush where
  update : ℕ
  serial : Option ℕ
  event : TimerEvent
deriving DecidableEq, Repr

/-- A timer that was added: the tick then, the delay and the event. -/
structure TimerMade where
  tick : ℕ
  delay : ℕ
  event : TimerEvent
deriving DecidableEq, Repr

/-- Where `timer_update` stands: not running, or pushing the messages of a list it took out, in
its first or in its second `timer_execute`. -/
inductive TimerPhase
  | idle
  | dispatching (first : Bool) (current : List TimerNode)
deriving DecidableEq, Repr

/-- The timer in a run, with what was asked of it and what it did: the shifts and the updates so
far, the timers added, and the messages pushed. -/
structure TimerRun where
  timer : Timer
  phase : TimerPhase
  ticks : ℕ
  updates : ℕ
  made : List TimerMade
  pushed : List TimerPush

namespace TimerRun

/-- `timer_add`. -/
def timerAdd (s : TimerRun) (event : TimerEvent) (time : Int32) : TimerRun :=
  { s with
    timer := s.timer.addNode ⟨time.toUInt32 + s.timer.time, event, s.made.length⟩
    made := s.made ++ [⟨s.ticks, time.toInt.toNat, event⟩] }

/-- The second `timer_execute` of `timer_update`, up to where it gives up the lock. -/
def executeLast (s : TimerRun) : TimerRun :=
  match s.timer.timerExecute with
  | (_, []) => { s with phase := .idle }
  | (T, current) => { s with timer := T, phase := .dispatching false current }

/-- The first `timer_execute` of `timer_update`, up to where it gives up the lock. -/
def executeFirst (s : TimerRun) : Option TimerRun :=
  match s.timer.timerExecute with
  | (_, []) =>
    s.timer.timerShift.map fun T => executeLast { s with timer := T, ticks := s.ticks + 1 }
  | (T, current) => some { s with timer := T, phase := .dispatching true current }

/-- One message of `dispatch_list`, and what follows the last one. -/
def dispatch (s : TimerRun) (first : Bool) (node : TimerNode) (rest : List TimerNode) :
    Option TimerRun :=
  let s : TimerRun :=
    { s with pushed := s.pushed ++ [⟨s.updates, some node.serial, node.event⟩] }
  match rest with
  | [] => if first then s.executeFirst else some s.executeLast
  | rest => some { s with phase := .dispatching first rest }

/-- What a run may do next. -/
inductive Action
  /-- some thread calls `skynet_timeout` -/
  | timeout (event : TimerEvent) (time : Int32)
  /-- the timer thread calls `timer_update` -/
  | update
  /-- it pushes the next message -/
  | dispatch
deriving DecidableEq, Repr

/-- One step, up to the next point at which the lock is free. -/
def step (s : TimerRun) : Action → Option TimerRun
  | .timeout event time =>
    if time ≤ 0 then some { s with pushed := s.pushed ++ [⟨s.updates, none, event⟩] }
    else some (s.timerAdd event time)
  | .update =>
    match s.phase with
    | .idle => executeFirst { s with updates := s.updates + 1 }
    | .dispatching _ _ => none
  | .dispatch =>
    match s.phase with
    | .dispatching first (node :: rest) => s.dispatch first node rest
    | _ => none

/-- The timer as a machine. -/
def machine : Machine TimerRun Action where
  init := ⟨Timer.timerCreateTimer, .idle, 0, 0, [], []⟩
  step := step

end TimerRun

end SkynetGame
