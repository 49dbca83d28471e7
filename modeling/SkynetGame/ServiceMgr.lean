import SkynetGame.Lib.Run
import SkynetGame.Lib.Bytes

/-!
# The service manager (`service_mgr.lua`)

A table has a service by its name: its handle, the error of its launch, or the coroutines that wait
for it. The manager of the standalone node launches the services with global names; that of another
node calls it. A coroutine that `request` wakes up goes on before the next message is handled.
-/

namespace SkynetGame

namespace ServiceMgr

/-- A call that a coroutine makes under the launch flag of a name. -/
inductive Call
  | newservice (realname : Bytes) (args : List Bytes)
  | rawnewservice (args : List Bytes)
  -- `skynet.call("SERVICE", "lua", cmd, global_name, ...)`
  | remoteLaunch (globalName : Bytes) (args : List Bytes)
  | remoteQuery (globalName : Bytes) (args : List Bytes)
  deriving DecidableEq, Repr

def Call.launches : Call → Bool
  | .newservice _ _ | .rawnewservice _ | .remoteLaunch _ _ => true
  | .remoteQuery _ _ => false

/-- What such a call comes back with. A service that exits while it starts gives `nil`, and so does
a manager that answers an error. -/
inductive Outcome
  | handle (h : ℕ)
  | nil
  | error (e : Bytes)
  deriving DecidableEq, Repr

/-- `service[name]`. -/
inductive Service
  | handle (h : ℕ)
  | failed (s : Bytes)
  | waiting (launch : Bool) (s : List ℕ)
  deriving DecidableEq, Repr

/-- What a caller gets; `error` puts the line that it is on before its text. -/
inductive Answer
  | handle (h : ℕ)
  | nil
  | error (line : Option ℕ) (s : Bytes)
  deriving DecidableEq, Repr

inductive Request
  | launch (serviceName : Bytes) (args : List Bytes)
  | query (serviceName : Bytes) (args : List Bytes)
  | glaunch (name : Bytes) (args : List Bytes)
  | gquery (name : Bytes) (args : List Bytes)
  deriving DecidableEq, Repr

def Request.launches : Request → Bool
  | .launch _ _ | .glaunch _ _ => true
  | .query _ _ | .gquery _ _ => false

/-- `read_name`; 64 is `@`. -/
def readName (serviceName : Bytes) : Bytes :=
  if serviceName.head? = some 64 then serviceName.tail else serviceName

def snaxd : Bytes := Bytes.ascii "snaxd"

/-- The name with the snax service's behind it, where there is one. -/
def subName (serviceName : Bytes) (args : List Bytes) : Option Bytes :=
  args.head?.map fun subname => serviceName ++ 46 :: subname

/-- The arguments of `waitfor` in `cmd.LAUNCH`. -/
def launchFunc (serviceName : Bytes) (args : List Bytes) : Option (Bytes × Option Call) :=
  if readName serviceName = snaxd then
    (subName serviceName args).map fun name => (name, some (.rawnewservice args))
  else some (serviceName, some (.newservice (readName serviceName) args))

/-- The arguments of `waitfor` in `cmd.QUERY`. -/
def queryFunc (serviceName : Bytes) (args : List Bytes) : Option (Bytes × Option Call) :=
  if readName serviceName = snaxd then (subName serviceName args).map fun name => (name, none)
  else some (serviceName, none)

/-- The arguments of `waitfor` in `waitfor_remote`. -/
def remoteFunc (cmd : Bytes → List Bytes → Call) (name : Bytes) (args : List Bytes) :
    Option (Bytes × Option Call) :=
  let globalName := 64 :: name
  (if name = snaxd then subName globalName args else some globalName).map
    fun localName => (localName, some (cmd globalName args))

/-- The name that a request is about, and what may be called for it. Without a `subname` the
concatenation fails. -/
def Request.func (standalone : Bool) : Request → Option (Bytes × Option Call)
  | .launch serviceName args => launchFunc serviceName args
  | .query serviceName args => queryFunc serviceName args
  | .glaunch name args =>
    if standalone then launchFunc (64 :: name) args else remoteFunc .remoteLaunch name args
  | .gquery name args =>
    if standalone then queryFunc (64 :: name) args else remoteFunc .remoteQuery name args

end ServiceMgr

open ServiceMgr

/-- The manager. By name: the coroutines that are in a call; and, as a record, the calls that were
made, who asked, by coroutine and whether for a launch, and the answers. -/
structure ServiceMgr where
  service : Bytes → Option Service
  calls : Bytes → List (ℕ × ServiceMgr.Call)
  issued : Bytes → List ServiceMgr.Call
  asked : Bytes → List (ℕ × Bool)
  answers : Bytes → List (ℕ × Answer)
  running : ℕ

namespace ServiceMgr

variable (s : ServiceMgr)

def setService (name : Bytes) (v : Option Service) : ServiceMgr :=
  { s with service := Function.update s.service name v }

/-- The coroutine answers its caller. -/
def answer (name : Bytes) (co : ℕ) (a : Answer) : ServiceMgr :=
  { s with answers := Function.update s.answers name (s.answers name ++ [(co, a)]) }

def assertionFailed : Answer := .error none (Bytes.ascii "assertion failed!")

/-- The end of `waitfor`, for a coroutine that was woken up. -/
def woken (name : Bytes) : Answer :=
  match s.service name with
  | some (.failed s) => .error (some 54) s
  | some (.handle h) => .handle h
  | some (.waiting _ _) | none => assertionFailed

/-- `waitfor`, up to `skynet.wait` or the call. -/
def waitfor (name : Bytes) (func : Option Call) (co : ℕ) : ServiceMgr :=
  match s.service name with
  | some (.handle h) => s.answer name co (.handle h)
  | some (.failed e) => s.answer name co (.error (some 40) e)
  | some (.waiting launch q) => start launch q
  | none => start false []
where
  /-- With the table of the name. -/
  start (launch : Bool) (q : List ℕ) : ServiceMgr :=
    match launch, func with
    | false, some call => { s.setService name (some (.waiting true q)) with
        calls := Function.update s.calls name (s.calls name ++ [(co, call)])
        issued := Function.update s.issued name (s.issued name ++ [call]) }
    | _, _ => s.setService name (some (.waiting launch (q ++ [co])))

/-- A request comes in; a new coroutine handles it. -/
def request (standalone : Bool) (r : Request) : ServiceMgr :=
  let co := s.running
  let s := { s with running := s.running + 1 }
  match r.func standalone with
  | none => s
  | some (name, func) =>
    { s with asked := Function.update s.asked name (s.asked name ++ [(co, r.launches)]) }.waitfor
      name func co

/-- What `request` stores. -/
def Outcome.stored : Outcome → Option Service
  | .handle h => some (.handle h)
  | .nil => none
  | .error e => some (.failed e)

/-- What `request` returns. -/
def Outcome.answer : Outcome → Answer
  | .handle h => .handle h
  | .nil => .nil
  | .error e => .error (some 25) e

/-- `request` behind its `pcall`: the `i`-th coroutine that is in a call for the name. -/
def returned (name : Bytes) (i : ℕ) (out : Outcome) : Option ServiceMgr :=
  ((s.calls name)[i]?).map fun (co, _) =>
    let s := { s with calls := Function.update s.calls name ((s.calls name).eraseIdx i) }
    match s.service name with
    | some (.waiting _ q) =>
      let s := (s.setService name out.stored).answer name co out.answer
      q.foldl (fun s v => s.answer name v (s.woken name)) s
    | some (.handle _) | some (.failed _) | none => s.answer name co assertionFailed

inductive Action
  | request (r : Request)
  | returned (name : Bytes) (i : ℕ) (out : Outcome)
  deriving DecidableEq, Repr

def step (standalone : Bool) (s : ServiceMgr) : Action → Option ServiceMgr
  | .request r => some (s.request standalone r)
  | .returned name i out => s.returned name i out

/-- The manager of the standalone node, or of another. -/
def machine (standalone : Bool) : Machine ServiceMgr Action where
  init := ⟨fun _ => none, fun _ => [], fun _ => [], fun _ => [], fun _ => [], 0⟩
  step := step standalone

end ServiceMgr

end SkynetGame
