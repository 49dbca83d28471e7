import SkynetGame.Lib.Run
import Mathlib.Data.Int.Notation
import Mathlib.Data.List.Basic

/-!
# Multicast daemons (`multicastd.lua`)

Each node has a daemon, and two daemons a link each way that keeps order. A daemon that needs the
address of another asks the data center the first time (`node_address`), so a coroutine may wait
there as well as for the answer to its SUBR. A daemon registers in the data center when it starts,
before its node's services get it. The low byte of a channel is its owner's node.
-/

namespace SkynetGame

namespace Multicast

/-- The node that a channel belongs to. -/
def ownerOf (c : ℕ) : ℕ := c % 256

/-- What daemons send each other. `source` and `c` of a SUBR are the variables of the SUB that calls
it, which its session stands for. -/
inductive Packet
  | subr (source c : ℕ)
  | subrRet (source c : ℕ) (none_exist : Bool)
  | usubr (c : ℕ)
  | multicast (c msg : ℕ)
  deriving DecidableEq, Repr

/-- A coroutine that waits for `datacenter.get`, by where it goes on. -/
inductive Job
  | sub (source c : ℕ)
  | usubr (c : ℕ)
  | pub (c msg : ℕ)
  -- in the loop over `channel_remote[c]`, with the nodes behind this one
  | publish (c msg node : ℕ) (nodes : List ℕ)
  deriving DecidableEq, Repr

/-- The node whose address it waits for. -/
def Job.node : Job → ℕ
  | .sub _ c | .usubr c | .pub c _ => ownerOf c
  | .publish _ _ node _ => node

structure Daemon where
  channel : ℕ → Option (List ℕ)
  channelN : ℕ → Option ℤ
  channelRemote : ℕ → Option (List ℕ)
  nodeAddress : ℕ → Bool
  jobs : List Job

end Multicast

open Multicast

/-- The daemons, what is on its way, and which daemons the data center knows; `received` has which
service of which node got which published message. -/
structure Multicast where
  registered : ℕ → Bool
  daemon : ℕ → Daemon
  link : ℕ → ℕ → List Packet
  published : ℕ
  received : List (ℕ × ℕ × ℕ)

namespace Multicast

variable (s : Multicast)

def set (n : ℕ) (d : Daemon) : Multicast := { s with daemon := Function.update s.daemon n d }

def send (n node : ℕ) (p : Packet) : Multicast :=
  { s with
    link := Function.update s.link n
      (Function.update (s.link n) node (s.link n node ++ [p])) }

/-- A coroutine of the daemon waits. -/
def wait (n : ℕ) (job : Job) : Multicast :=
  s.set n { s.daemon n with jobs := (s.daemon n).jobs ++ [job] }

/-- `node_address[node]`, and the packet that is sent there. -/
def sendTo (n : ℕ) (job : Job) (p : Packet) : Multicast :=
  if (s.daemon n).nodeAddress job.node then s.send n job.node p else s.wait n job

/-- The end of `publish`: the local group. -/
def redirect (n c msg : ℕ) : Multicast :=
  { s with
    received := s.received ++
      (((s.daemon n).channel c).getD []).map fun source => (msg, n, source) }

/-- `publish`, from the loop over the remote nodes on. -/
def publishNodes (n c msg : ℕ) : List ℕ → Multicast → Multicast
  | [], s => s.redirect n c msg
  | node :: nodes, s =>
    -- unsubscribed while the loop waited
    if node ∉ ((s.daemon n).channelRemote c).getD [] then publishNodes n c msg nodes s
    else if (s.daemon n).nodeAddress node then
      publishNodes n c msg nodes (s.send n node (.multicast c msg))
    else s.wait n (.publish c msg node nodes)

def publish (n c msg : ℕ) : Multicast :=
  publishNodes n c msg (((s.daemon n).channelRemote c).getD []) s

/-- The end of `command.SUB`. -/
def Daemon.join (d : Daemon) (source c : ℕ) : Daemon :=
  match d.channel c with
  | some group =>
    if source ∈ group then d
    else { d with
      channelN := Function.update d.channelN c ((d.channelN c).map (· + 1))
      channel := Function.update d.channel c (some (group ++ [source])) }
  | none => d

/-- The daemon of `n` starts. -/
def start (n : ℕ) : Option Multicast :=
  -- `assert(datacenter.set("multicast", id, self) == nil)`
  if s.registered n then none
  else some { s with registered := Function.update s.registered n true }

/-- `command.NEW`, with the id that it finds. -/
def new (c : ℕ) : Option Multicast :=
  let d := s.daemon (ownerOf c)
  if d.channel c = none then
    some (s.set (ownerOf c) { d with
      channel := Function.update d.channel c (some [])
      channelN := Function.update d.channelN c (some 0) })
  else none

/-- `command.SUB`. -/
def sub (n source c : ℕ) : Multicast :=
  if ownerOf c ≠ n ∧ (s.daemon n).channel c = none then
    s.sendTo n (.sub source c) (.subr source c)
  else s.set n ((s.daemon n).join source c)

/-- `command.SUB` behind its `skynet.call`. -/
def subRet (n source c : ℕ) (none_exist : Bool) : Multicast :=
  if none_exist then s
  else
    let d := s.daemon n
    let d := if d.channel c = none then
        { d with
          channel := Function.update d.channel c (some [])
          channelN := Function.update d.channelN c (some 0) }
      else d
    s.set n (d.join source c)

/-- `command.SUBR`, called by the daemon of `node`. A failed assertion changes nothing. -/
def subr (n node source c : ℕ) : Multicast :=
  let d := s.daemon n
  if d.channel c = none then s.send n node (.subrRet source c true)
  else if node ≠ n ∧ ownerOf c = n then
    let group := (d.channelRemote c).getD []
    (s.set n { d with
      channelRemote := Function.update d.channelRemote c (some (group.insert node)) }).send n node
        (.subrRet source c false)
  else s

/-- `command.USUBR`, sent by the daemon of `node`. -/
def usubr (n node c : ℕ) : Multicast :=
  let d := s.daemon n
  if node ≠ n then
    match d.channelRemote c with
    | some group => s.set n { d with
        channelRemote := Function.update d.channelRemote c (some (group.erase node)) }
    | none => s
  else s

/-- `command.USUB`. -/
def usub (n source c : ℕ) : Multicast :=
  let d := s.daemon n
  match d.channel c with
  | none => s
  | some group =>
    if source ∈ group then
      let count := (d.channelN c).map (· - 1)
      if count = some 0 ∧ ownerOf c ≠ n then
        (s.set n { d with
          channel := Function.update d.channel c none
          channelN := Function.update d.channelN c none }).sendTo n (.usubr c) (.usubr c)
      else s.set n { d with
        channel := Function.update d.channel c (some (group.erase source))
        channelN := Function.update d.channelN c count }
    else s

/-- `command.PUB`, called by a service of the node. -/
def pub (n c : ℕ) : Multicast :=
  let msg := s.published
  let s := { s with published := s.published + 1 }
  if ownerOf c ≠ n then s.sendTo n (.pub c msg) (.multicast c msg) else s.publish n c msg

/-- What the coroutine does with the address. -/
def resume (n : ℕ) : Job → Multicast
  | .sub source c => s.send n (ownerOf c) (.subr source c)
  | .usubr c => s.send n (ownerOf c) (.usubr c)
  | .pub c msg => s.send n (ownerOf c) (.multicast c msg)
  | .publish c msg node nodes =>
    publishNodes n c msg nodes (s.send n node (.multicast c msg))

/-- The data center answers a coroutine, with an address or without. -/
def resolved (n i : ℕ) : Option Multicast :=
  let d := s.daemon n
  (d.jobs[i]?).map fun job =>
    let s := s.set n { d with jobs := d.jobs.eraseIdx i }
    -- `assert(datacenter.get("multicast", id))`
    if s.registered job.node then
      (s.set n { s.daemon n with
        nodeAddress := Function.update d.nodeAddress job.node true }).resume n job
    else s

/-- The daemon of `n` takes a packet of the daemon of `node`. -/
def take (n node : ℕ) : Packet → Multicast
  | .subr source c => s.subr n node source c
  | .subrRet source c none_exist => s.subRet n source c none_exist
  | .usubr c => s.usubr n node c
  | .multicast c msg => s.publish n c msg

/-- The first packet of a link comes in. -/
def deliver (node n : ℕ) : Option Multicast :=
  match s.link node n with
  | [] => none
  | p :: ps => some (({ s with
      link := Function.update s.link node (Function.update (s.link node) n ps) }).take n node p)

inductive Action
  | start (n : ℕ)
  | new (c : ℕ)
  | sub (n source c : ℕ)
  | usub (n source c : ℕ)
  | pub (n c : ℕ)
  | resolved (n i : ℕ)
  | deliver (node n : ℕ)
  deriving DecidableEq, Repr

def step (s : Multicast) : Action → Option Multicast
  | .start n => s.start n
  | .new c => if s.registered (ownerOf c) then s.new c else none
  | .sub n source c => if s.registered n then some (s.sub n source c) else none
  | .usub n source c => if s.registered n then some (s.usub n source c) else none
  | .pub n c => if s.registered n then some (s.pub n c) else none
  | .resolved n i => s.resolved n i
  | .deliver node n => s.deliver node n

def machine : Machine Multicast Action where
  init := ⟨fun _ => false, fun _ => ⟨fun _ => none, fun _ => none, fun _ => none, fun _ => false, []⟩,
    fun _ _ => [], 0, []⟩
  step := step

end Multicast

end SkynetGame
