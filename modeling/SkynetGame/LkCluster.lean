import SkynetGame.Lib.Run
import Mathlib.Data.Nat.Basic
import Mathlib.Logic.Function.Basic

/-!
# Calls with a timeout (`services/physical/cluster_mgr/lkcluster.lua`)

The coroutines of one service, whose `rawcall` and `mcall` wait in `skynet.wait()`, over the wakeups
of `lualib/skynet.lua`: a coroutine that yields or ends has `dispatch_wakeup` resume one that is in
`wakeup_session`, and so on until there is none; an error ends that at once. The closures that
`rawcall` and `mcall` fork, and the one that `rawcall` gives to `skynet.timeout`, run by themselves.
A call of the daemon comes to what `pcall` makes a table of; replies, failures and the timers come
when nothing runs, in any order. Calls are numbered as they come.
-/

namespace SkynetGame

namespace LkCluster

/-- Where a coroutine is: in no sleep, in a sleep of its own, or in the `skynet.wait()` of a
`rawcall` or of an `mcall`. -/
inductive Mode
  | free
  | asleep
  | waiting (i : ℕ)
  | gathering (j : ℕ)
deriving DecidableEq, Repr

/-- Whether nothing runs, a coroutine does, or `dispatch_wakeup` is to resume one. -/
inductive Ctl
  | idle
  | run (c : ℕ)
  | wakeup
deriving DecidableEq, Repr

/-- Where the coroutine is that `rawcall` forks. -/
inductive Fork
  | queued
  | calling
  | over
deriving DecidableEq, Repr

/-- How that coroutine starts: `skynet.pack` raises an error, the call fails at once, or it waits for
the reply. -/
inductive Sending (β : Type)
  | unpackable
  | refused (v : β)
  | sent
deriving DecidableEq, Repr

/-- A call of `rawcall` with its upvalues. `selfCo` is whether `self_co` is still there, `timer`
whether the timer is still to come, and `gather` what the caller is forked for by an `mcall`. What
came first is a result of `pcall` or the timer; `ends` is what was returned. -/
structure Rawcall (ν β : Type) where
  caller : ℕ
  selfCo : Bool
  r : Option β
  fork : Fork
  timer : Bool
  gather : Option (ℕ × ν)
  first : Option (Option β)
  ends : List (Option β)

/-- A call of `mcall` with its upvalues, where a result that is none is `{false, "timeout"}`; the
names whose coroutines have not started yet, and the calls of those that have and wait. -/
structure Mcall (ν β : Type) where
  caller : ℕ
  node : List ν
  count : ℕ
  results : ν → Option (Option β)
  forks : List ν
  waiting : List ℕ
  ends : List (Option (ν → Option (Option β)))

structure State (ν β : Type) where
  ctl : Ctl
  mode : ℕ → Mode
  wakeupSession : List ℕ
  -- the global variable `names`
  names : Option (List ν)
  rawcalls : ℕ → Rawcall ν β
  nRawcalls : ℕ
  mcalls : ℕ → Mcall ν β
  nMcalls : ℕ

namespace State

variable {ν β : Type}

def init : State ν β where
  ctl := .idle
  mode _ := .free
  wakeupSession := []
  names := none
  rawcalls _ := ⟨0, false, none, .over, false, none, none, []⟩
  nRawcalls := 0
  mcalls _ := ⟨0, [], 0, fun _ => none, [], [], []⟩
  nMcalls := 0

variable (s : State ν β)

def setMode (c : ℕ) (m : Mode) : State ν β := { s with mode := Function.update s.mode c m }

def setRawcall (i : ℕ) (x : Rawcall ν β) : State ν β :=
  { s with rawcalls := Function.update s.rawcalls i x }

def setMcall (j : ℕ) (m : Mcall ν β) : State ν β :=
  { s with mcalls := Function.update s.mcalls j m }

/-- `skynet.wakeup`: `sleep_session` has what is in a sleep. -/
def wakeup (co : ℕ) : State ν β :=
  if s.mode co ≠ .free ∧ co ∉ s.wakeupSession then
    { s with wakeupSession := s.wakeupSession ++ [co] }
  else s

/-- `cluster.rawcall` up to the `skynet.wait()`. -/
def rawcall (c : ℕ) (gather : Option (ℕ × ν)) : State ν β :=
  { (s.setRawcall s.nRawcalls ⟨c, true, none, .queued, true, gather, none, []⟩).setMode c
      (.waiting s.nRawcalls) with
    nRawcalls := s.nRawcalls + 1
    ctl := .wakeup }

/-- What both closures of `rawcall` end with. -/
def wakeCaller (i : ℕ) : State ν β :=
  let x := s.rawcalls i
  if x.selfCo then (s.wakeup x.caller).setRawcall i { x with selfCo := false } else s

/-- The result of `pcall` in the coroutine that `rawcall` forked, which ends. -/
def replied (i : ℕ) (v : β) : State ν β :=
  let x := s.rawcalls i
  { (s.setRawcall i { x with
      r := some v, fork := .over, first := x.first.or (some (some v)) }).wakeCaller i with
    ctl := .wakeup }

/-- The closure that `rawcall` gave to `skynet.timeout`. -/
def timedOut (i : ℕ) : State ν β :=
  let x := s.rawcalls i
  { (s.setRawcall i { x with timer := false, first := x.first.or (some none) }).wakeCaller i with
    ctl := .wakeup }

/-- The start of the coroutine that `rawcall` forked. -/
def started (i : ℕ) : Sending β → State ν β
  | .unpackable => { s.setRawcall i { s.rawcalls i with fork := .over } with ctl := .idle }
  | .refused v => s.replied i v
  | .sent => { s.setRawcall i { s.rawcalls i with fork := .calling } with ctl := .wakeup }

/-- `cluster.mcall` up to the `skynet.wait()`; it goes through the global variable `names`. -/
def mcall (c : ℕ) (node : List ν) : State ν β :=
  match s.names with
  | none => { s.setMcall s.nMcalls ⟨c, node, 0, fun _ => none, [], [], [none]⟩ with
      nMcalls := s.nMcalls + 1 }
  | some names =>
    if names.length = 0 then
      { s.setMcall s.nMcalls ⟨c, node, 0, fun _ => none, [], [], [none]⟩ with
        nMcalls := s.nMcalls + 1 }
    else
      { (s.setMcall s.nMcalls ⟨c, node, names.length, fun _ => none, names, [], []⟩).setMode c
          (.gathering s.nMcalls) with
        nMcalls := s.nMcalls + 1
        ctl := .wakeup }

variable [DecidableEq ν]

/-- A coroutine that `mcall` forked starts, in its `rawcall`. -/
def gather (j : ℕ) (n : ν) (g : ℕ) : State ν β :=
  let m := s.mcalls j
  (s.setMcall j { m with
    forks := m.forks.erase n, waiting := m.waiting ++ [s.nRawcalls] }).rawcall g (some (j, n))

/-- It goes on with what `rawcall` returned, and ends. -/
def collect (j : ℕ) (n : ν) (i : ℕ) (v : Option β) : State ν β :=
  let m := s.mcalls j
  let m' := { m with
    results := Function.update m.results n (some v), waiting := m.waiting.erase i }
  if m.count = 1 then (s.setMcall j m').wakeup m.caller
  else s.setMcall j { m' with count := m.count - 1 }

/-- `rawcall` returns. -/
def returned (c i : ℕ) : State ν β :=
  let x := s.rawcalls i
  let s := (s.setRawcall i { x with ends := x.ends ++ [x.r] }).setMode c .free
  match x.gather with
  | none => { s with ctl := .run c }
  | some (j, n) => { s.collect j n i x.r with ctl := .wakeup }

/-- `mcall` returns. -/
def gathered (c j : ℕ) : State ν β :=
  let m := s.mcalls j
  { (s.setMcall j { m with ends := m.ends ++ [some m.results] }).setMode c .free with
    ctl := .run c }

/-- `dispatch_wakeup`, with the coroutine that `next` gives. What is in no sleep is passed over. -/
def dispatchWakeup (co : Option ℕ) : Option (State ν β) :=
  match co with
  | none => if s.wakeupSession = [] then some { s with ctl := .idle } else none
  | some c =>
    if c ∈ s.wakeupSession then
      let s := { s with wakeupSession := s.wakeupSession.filter (· ≠ c) }
      match s.mode c with
      | .free => some { s with ctl := .idle }
      | .asleep => some { s.setMode c .free with ctl := .run c }
      | .waiting i => some (s.returned c i)
      | .gathering j => some (s.gathered c j)
    else none

end State

/-- What happens. A message, a fork or an end of a sleep has a coroutine run; it sleeps, wakes
another one, yields otherwise or ends, raises an error, assigns to the global variable, or calls
`rawcall` or `mcall`; and what the closures do. -/
inductive Label (ν β : Type)
  | start (c : ℕ)
  | timeout (c : ℕ)
  | sleep
  | wake (co : ℕ)
  | yield
  | raise
  | setNames (v : Option (List ν))
  | rawcall
  | mcall (node : List ν)
  | dispatchWakeup (co : Option ℕ)
  | fork (i : ℕ) (o : Sending β)
  | reply (i : ℕ) (v : β)
  | timer (i : ℕ)
  | gather (j : ℕ) (n : ν) (g : ℕ)

namespace State

variable {ν β : Type} [DecidableEq ν] (s : State ν β)

/-- The coroutine that runs. -/
def running : Option ℕ :=
  match s.ctl with
  | .run c => some c
  | _ => none

def step : Label ν β → Option (State ν β)
  | .start c => if s.ctl = .idle ∧ s.mode c = .free then some { s with ctl := .run c } else none
  | .timeout c =>
    if s.ctl = .idle ∧ s.mode c = .asleep then some { s.setMode c .free with ctl := .run c }
    else none
  | .sleep => s.running.map fun c => { s.setMode c .asleep with ctl := .wakeup }
  | .wake co => s.running.map fun _ => s.wakeup co
  | .yield => s.running.map fun _ => { s with ctl := .wakeup }
  | .raise => s.running.map fun _ => { s with ctl := .idle }
  | .setNames v => s.running.map fun _ => { s with names := v }
  | .rawcall => s.running.map fun c => s.rawcall c none
  | .mcall node => s.running.map fun c => s.mcall c node
  | .dispatchWakeup co => if s.ctl = .wakeup then s.dispatchWakeup co else none
  | .fork i o =>
    if s.ctl = .idle ∧ i < s.nRawcalls ∧ (s.rawcalls i).fork = .queued then some (s.started i o)
    else none
  | .reply i v =>
    if s.ctl = .idle ∧ i < s.nRawcalls ∧ (s.rawcalls i).fork = .calling then some (s.replied i v)
    else none
  | .timer i =>
    if s.ctl = .idle ∧ i < s.nRawcalls ∧ (s.rawcalls i).timer = true then some (s.timedOut i)
    else none
  | .gather j n g =>
    if s.ctl = .idle ∧ j < s.nMcalls ∧ n ∈ (s.mcalls j).forks ∧ s.mode g = .free then
      some (s.gather j n g)
    else none

def machine : Machine (State ν β) (Label ν β) where
  init := init
  step := step

end State

end LkCluster

end SkynetGame
