import SkynetGame.Lib.Run
import Mathlib.Logic.Function.Basic
import Mathlib.Algebra.Group.Nat.Defs

/-!
# The launcher (`service/launcher.lua`)

The launcher takes one message at a time, and no command about a launch yields. What `REMOVE`,
`ERROR` and `LAUNCHOK` are told, and by whom, may be anything, in any order. The messages are kept in
a log, so that what a caller is to be answered, and what is to be listed, can be read off it.
-/

namespace SkynetGame

namespace Launcher

/-- What the caller of a launch gets. -/
inductive Answer
  | handle (h : ℕ)
  | nil
  | failure
deriving DecidableEq, Repr

/-- A `LAUNCH` or `LOGLAUNCH`, with its source and session. Among its arguments what is no string or
number is `none`. -/
structure Request where
  address : ℕ
  session : ℕ
  service : Option String
  args : List (Option String)
deriving DecidableEq, Repr

/-- The messages that come in: a launch with what `skynet.launch` gives, a `KILL` with the number that
`handle_to_address` makes of its argument, a `REMOVE` of another service and the next one that the
launcher sent to itself, the notices of the service at an address, and that the service at an address
is down. A service ends when it exits, before or after it tells. -/
inductive Label
  | launch (r : Request) (inst : Option ℕ)
  | loglaunch (r : Request) (inst : Option ℕ)
  | kill (handle : Option ℕ)
  | remove (handle : ℕ) (kill : Bool)
  | own (handle : ℕ)
  | error (address : ℕ)
  | launchok (address : ℕ)
  | down (address : ℕ)
  | ends (handle : ℕ)
deriving DecidableEq, Repr

/-- A launch with its response closure: `f` is there until it is called. `since` is the number of the
messages up to the launch. -/
structure Launch where
  address : ℕ
  session : ℕ
  inst : Option ℕ
  f : Bool
  answers : List Answer
  since : ℕ
deriving DecidableEq, Repr

structure State where
  services : ℕ → Option String
  /-- `instance`, with the launch whose response it is. -/
  instances : ℕ → Option ℕ
  launches : ℕ → Launch
  nLaunches : ℕ
  watchingService : ℕ → ℕ
  deadService : ℕ → Bool
  /-- The handles in the `REMOVE`s with `kill` that the launcher sent to itself. -/
  mailbox : List ℕ
  /-- The services that `LOGON` was commanded for. -/
  logOn : List ℕ
  /-- The services that `skynet.launch` started and that have not ended. -/
  live : ℕ → Bool
  /-- "Can't response more than once" was raised. -/
  twice : Bool
  log : List Label

def State.init : State where
  services _ := none
  instances _ := none
  launches _ := ⟨0, 0, none, false, [], 0⟩
  nLaunches := 0
  watchingService _ := 0
  deadService _ := false
  mailbox := []
  logOn := []
  live _ := false
  twice := false
  log := []

/-- `table.concat(list, " ")`. -/
def concat (list : List (Option String)) : Option String :=
  (list.mapM id).map (String.intercalate " ")

/-- A launch whose response closure was called. Nothing is sent to a service that is down. -/
def Launch.called (r : Launch) (dead : Bool) (a : Answer) : Launch :=
  { r with
    f := false
    answers := if dead then r.answers else r.answers ++ [a] }

/-- A call of the response closure of a launch, an error when it was called before. -/
def response (s : State) (l : ℕ) (a : Answer) : Option State :=
  let r := s.launches l
  if r.f then
    some { s with
      launches := Function.update s.launches l (r.called (s.deadService r.address) a)
      watchingService :=
        Function.update s.watchingService r.address (s.watchingService r.address - 1) }
  else none

def raise (s : State) : State := { s with twice := true }

/-- The response of the launch that waits at a handle is called, and forgotten. -/
def confirm (s : State) (h : ℕ) (a : Answer) : Option State :=
  match s.instances h with
  | none => some s
  | some l =>
    (response s l a).map fun s => { s with instances := Function.update s.instances h none }

/-- `skynet.response()` in a launch. -/
def newResponse (s : State) (r : Request) (inst : Option ℕ) : State :=
  { s with
    launches := Function.update s.launches s.nLaunches
      ⟨r.address, r.session, inst, true, [], s.log.length + 1⟩
    nLaunches := s.nLaunches + 1
    watchingService :=
      Function.update s.watchingService r.address (s.watchingService r.address + 1) }

/-- An error that a launch raises before it has a response; `suspend` reports it to a caller. -/
def launchError (s : State) (r : Request) : State :=
  { s with
    launches := Function.update s.launches s.nLaunches
      ⟨r.address, r.session, none, false, if r.session = 0 then [] else [.failure],
        s.log.length + 1⟩
    nLaunches := s.nLaunches + 1 }

def launchService (s : State) (r : Request) (inst : Option ℕ) : State :=
  match r.service, concat r.args with
  | some service, some param =>
    let l := s.nLaunches
    let s := newResponse s r inst
    match inst with
    | some h =>
      { s with
        services := Function.update s.services h (some (service ++ " " ++ param))
        instances := Function.update s.instances h (some l)
        live := Function.update s.live h true }
    | none => (response s l .failure).getD (raise s)
  | _, _ => launchError s r

def LAUNCH (s : State) (r : Request) (inst : Option ℕ) : State := launchService s r inst

def LOGLAUNCH (s : State) (r : Request) (inst : Option ℕ) : State :=
  let s' := launchService s r inst
  match r.service, concat r.args, inst with
  | some _, some _, some h => { s' with logOn := s'.logOn ++ [h] }
  | _, _, _ => s'

/-- The `KILL` of a number, which is told to the launcher itself. The command `KILL` has the handle
in 32 bits. -/
def kill (s : State) (handle : ℕ) : State :=
  { s with
    mailbox := s.mailbox ++ [handle]
    live := Function.update s.live (handle % 2 ^ 32) false }

/-- With the handle and the description that its caller gets. -/
def KILL (s : State) (handle : ℕ) : State × ℕ × Option String :=
  let s := kill s handle
  ({ s with services := Function.update s.services handle none }, handle, s.services handle)

def REMOVE (s : State) (handle : ℕ) (kill : Bool) : State :=
  let s := { s with services := Function.update s.services handle none }
  (confirm s handle (if kill then .failure else .nil)).getD (raise s)

def ERROR (s : State) (address : ℕ) : State :=
  match confirm s address .failure with
  | some s => { s with services := Function.update s.services address none }
  | none => raise s

def LAUNCHOK (s : State) (address : ℕ) : State :=
  (confirm s address (.handle address)).getD (raise s)

/-- `_error_dispatch`, with the session 0. -/
def errorDispatch (s : State) (address : ℕ) : State :=
  if 0 < s.watchingService address then
    { s with deadService := Function.update s.deadService address true }
  else s

/-- A handle that `skynet.launch` gives has 32 bits and is that of no live service. -/
def State.Given (s : State) (inst : Option ℕ) : Prop :=
  ∀ h ∈ inst, h < 2 ^ 32 ∧ s.live h = false

instance (s : State) (inst : Option ℕ) : Decidable (s.Given inst) :=
  inferInstanceAs (Decidable (∀ h ∈ inst, h < 2 ^ 32 ∧ s.live h = false))

def handle (s : State) : Label → Option State
  | .launch r inst => if s.Given inst then some (LAUNCH s r inst) else none
  | .loglaunch r inst => if s.Given inst then some (LOGLAUNCH s r inst) else none
  -- without a number the command raises an error
  | .kill none => some s
  | .kill (some handle) => some (KILL s handle).1
  | .remove handle kill => some (REMOVE s handle kill)
  | .own handle =>
    match s.mailbox with
    | h :: mailbox =>
      if h = handle then some (REMOVE { s with mailbox := mailbox } handle true) else none
    | [] => none
  | .error address => some (ERROR s address)
  | .launchok address => some (LAUNCHOK s address)
  | .down address => some (errorDispatch s address)
  | .ends handle => some { s with live := Function.update s.live handle false }

def step (s : State) (i : Label) : Option State :=
  (handle s i).map fun s' => { s' with log := s.log ++ [i] }

def machine : Machine State Label := ⟨.init, step⟩

/-! ## What a caller is to be answered, and what is to be listed -/

/-- What a message says of a launch that waits at a handle. -/
def closing (h : ℕ) : Label → Option Answer
  | .launchok a => if a = h then some (.handle a) else none
  | .error a => if a = h then some .failure else none
  | .remove v kill => if v = h then some (if kill then .failure else .nil) else none
  | .own v => if v = h then some .failure else none
  | _ => none

/-- The messages since a launch. -/
def State.events (s : State) (l : ℕ) : List Label := s.log.drop (s.launches l).since

/-- The first message about its handle decides a launch; without a handle it failed at once. -/
def Launch.verdict (r : Launch) (events : List Label) : Option Answer :=
  match r.inst with
  | none => some .failure
  | some h => events.findSome? (closing h)

/-- What a launch puts into the list. -/
def Request.description (r : Request) : Option String :=
  match r.service, concat r.args with
  | some service, some param => some (service ++ " " ++ param)
  | _, _ => none

/-- What a message makes of the entry of a handle, if anything. -/
def relist (h : ℕ) : Label → Option (Option String)
  | .launch r inst => if inst = some h then r.description.map some else none
  | .loglaunch r inst => if inst = some h then r.description.map some else none
  | .kill (some v) => if v % 2 ^ 32 = h then some none else none
  | .remove v _ => if v = h then some none else none
  | .own v => if v = h then some none else none
  | .error a => if a = h then some none else none
  | _ => none

/-- The service at a handle that was launched and not removed, killed or failed since. -/
def listed (h : ℕ) (log : List Label) : Option String :=
  log.foldl (fun cur i => (relist h i).getD cur) none

/-- A launch does not get a handle that an earlier launch still waits at, nor does it come from an
address of a service that is down. A `KILL` is of a handle, or ends no service that is listed. -/
def Tame (s : State) : Label → Prop
  | .launch r inst | .loglaunch r inst =>
    (∀ h ∈ inst, s.instances h = none) ∧ s.deadService r.address = false
  | .kill (some v) => v < 2 ^ 32 ∨ s.services (v % 2 ^ 32) = none
  | _ => True

end Launcher

end SkynetGame
