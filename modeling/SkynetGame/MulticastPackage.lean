import SkynetGame.Multicast

/-!
# Packages of multicast messages (`lualib-src/lua-multicast.c`)

A node's daemon and the services of the node, with the packages that are made there: by a service
that publishes, or by the daemon for a message of another node. The pointer cell goes to the daemon,
and a copy of the pointer to each service of the group, which closes the package when it is done.
The daemon's loop over the other nodes comes first; their addresses are known, as they have registered
before. A message that has been handed over to another node is freed when it has been sent.
-/

namespace SkynetGame

namespace MulticastPackage

open Multicast (Daemon ownerOf)

/-- What must not happen: something freed is used, or one of the errors of `lua-multicast.c`. -/
inductive Fault
  | freed
  | bound
  | reference
deriving DecidableEq, Repr

/-- Where a package is: `mc.pack` has raised an error for its size, the daemon has its pointer cell, its
data are on the way to the channel's owner or have been sent there, or the daemon is in the loop over the
group, with these services to come. -/
inductive Stage
  | refused
  | publishing (c : ℕ)
  | forwarding
  | forwarded
  | sending (services : List ℕ)
deriving DecidableEq, Repr

/-- What has become of what a service was sent: it has not been taken yet, the service's coroutine is
in `__dispatch`, the package has been closed, `__unpack` has raised an error, or the service has exited. -/
inductive Use
  | pending
  | dispatching
  | closed
  | raised
  | exited
deriving DecidableEq, Repr

/-- `struct mc_package`, how many times it, its data and its pointer cell have been freed, and the
services that were sent it. -/
structure Package where
  reference : ℤ
  packageFrees : ℕ
  dataFrees : ℕ
  cellFrees : ℕ
  stage : Stage
  uses : List (ℕ × Use)
deriving DecidableEq, Repr

/-- The tables of the daemon, the services that have exited, and the packages. -/
structure State where
  daemon : Daemon
  exited : List ℕ
  packages : List Package

section Package

def pack (stage : Stage) : Package := ⟨0, 0, 0, 0, stage, []⟩

/-- What `__pack` gives is not packed. -/
def mc_packlocal (size : ℕ) (stage : Stage) : Package :=
  if size < 0x100000000 then pack stage else pack .refused

variable (p : Package)

/-- `mc_unpacklocal` and the reading of the data. -/
def mc_unpacklocal : Except Fault Unit :=
  if p.packageFrees = 0 ∧ p.dataFrees = 0 then .ok () else .error .freed

def mc_bindrefer (ref : ℤ) : Except Fault Package :=
  if p.packageFrees ≠ 0 ∨ p.cellFrees ≠ 0 then .error .freed
  else if p.reference ≠ 0 then .error .bound
  else .ok { p with reference := ref, cellFrees := p.cellFrees + 1 }

def mc_closelocal : Except Fault Package :=
  if p.packageFrees ≠ 0 then .error .freed
  else
    let ref := p.reference - 1
    if ref < 0 then .error .reference
    else if ref ≤ 0 then .ok { p with
      reference := ref, packageFrees := p.packageFrees + 1, dataFrees := p.dataFrees + 1 }
    else .ok { p with reference := ref }

def mc_remote : Except Fault Package :=
  if p.packageFrees ≠ 0 ∨ p.cellFrees ≠ 0 then .error .freed
  else .ok { p with packageFrees := p.packageFrees + 1, stage := .forwarding }

/-- The local group of `publish`. -/
def publishGroup (group : Option (List ℕ)) (channel_n : Option ℤ) : Except Fault Package := do
  mc_unpacklocal p
  match group with
  | none | some [] =>
    let p ← mc_bindrefer p 1
    let p ← mc_closelocal p
    .ok { p with stage := .sending [] }
  | some services =>
    let p ← mc_bindrefer p (channel_n.getD 0)
    .ok { p with stage := .sending services }

end Package

section Service

/-- How `dispatch_subscribe` goes on: there is no such channel, it has been unsubscribed, `__unpack`
raises an error, or `__dispatch` is called. -/
inductive Way
  | unknown
  | unsubscribed
  | raises
  | dispatches
deriving DecidableEq, Repr

/-- What the `i`th of those that were sent the package have done with it. -/
def Package.use (p : Package) (i : ℕ) (u : ℕ × Use) : Package := { p with uses := p.uses.set i u }

/-- `dispatch_subscribe`, up to the end of `__unpack`, with the protocol's `mc.unpack`. -/
def dispatch_subscribe (p : Package) (i service : ℕ) : Way → Except Fault Package
  | .unknown | .unsubscribed => do
    mc_unpacklocal p
    let p ← mc_closelocal p
    .ok (p.use i (service, .closed))
  | .raises => do
    mc_unpacklocal p
    .ok (p.use i (service, .raised))
  | .dispatches => do
    mc_unpacklocal p
    .ok (p.use i (service, .dispatching))

/-- The rest of `dispatch_subscribe`, whether `__dispatch` has raised an error or not. -/
def dispatchEnd (p : Package) (i service : ℕ) : Except Fault Package := do
  mc_unpacklocal p
  let p ← mc_closelocal p
  .ok (p.use i (service, .closed))

/-- What becomes of what a service was sent when the service `k` exits. -/
def Use.exit (k : ℕ) : ℕ × Use → ℕ × Use
  | (service, .pending) => (service, if service = k then .exited else .pending)
  | (service, .dispatching) => (service, if service = k then .exited else .dispatching)
  | u => u

end Service

section Tables

variable (d : Daemon) (c : ℕ)

/-- `command.NEW`, and `command.SUB` behind its call. -/
def openChannel : Daemon :=
  if d.channel c = none then
    { d with
      channel := Function.update d.channel c (some [])
      channelN := Function.update d.channelN c (some 0) }
  else d

/-- `command.DEL` and `command.DELR`. -/
def deleteChannel : Daemon :=
  { d with
    channel := Function.update d.channel c none
    channelN := Function.update d.channelN c none }

/-- `command.USUB` on the node `n`. -/
def leave (n source : ℕ) : Daemon :=
  match d.channel c with
  | none => d
  | some group =>
    if source ∈ group then
      let count := (d.channelN c).map (· - 1)
      if count = some 0 ∧ ownerOf c ≠ n then deleteChannel d c
      else { d with
        channel := Function.update d.channel c (some (group.erase source))
        channelN := Function.update d.channelN c count }
    else d

end Tables

/-- A channel is opened or deleted; a service subscribes or leaves; one publishes data of a size, or
another node does; the daemon comes to the local group of the package `p`, or to the next service; the
data of `p` have been sent; the `i`th that was sent `p` takes it, or is done with it; and a service
exits. -/
inductive Event
  | openChannel (c : ℕ)
  | deleteChannel (c : ℕ)
  | sub (source c : ℕ)
  | usub (source c : ℕ)
  | pub (c size : ℕ)
  | remote (c : ℕ)
  | group (p : ℕ)
  | next (p : ℕ)
  | forwarded (p : ℕ)
  | take (p i : ℕ) (way : Way)
  | done (p i : ℕ)
  | exit (service : ℕ)
deriving DecidableEq, Repr

variable (harbor_id : ℕ) (s : State)

/-- A step of the package `p`. -/
def State.setPackage (p : ℕ) (x : Except Fault Package) : Except Fault State :=
  x.map fun x => { s with packages := s.packages.set p x }

def State.add (x : Package) : State := { s with packages := s.packages ++ [x] }

/-- `command.PUB`. -/
def State.pub (c size : ℕ) : Except Fault State :=
  if ownerOf c = harbor_id then .ok (s.add (mc_packlocal size (.publishing c)))
  else if size < 0x100000000 then (mc_remote (pack (.publishing c))).map s.add
  else .ok (s.add (pack .refused))

def State.step : Event → Option (Except Fault State)
  | .openChannel c => some (.ok { s with daemon := openChannel s.daemon c })
  | .deleteChannel c => some (.ok { s with daemon := deleteChannel s.daemon c })
  | .sub source c => some (.ok { s with daemon := s.daemon.join source c })
  | .usub source c => some (.ok { s with daemon := leave s.daemon c harbor_id source })
  | .pub c size => some (s.pub harbor_id c size)
  | .remote c => some (.ok (s.add (pack (.publishing c))))
  | .group p => (s.packages[p]?).bind fun x =>
    match x.stage with
    | .publishing c =>
      some (s.setPackage p (publishGroup x (s.daemon.channel c) (s.daemon.channelN c)))
    | _ => none
  | .next p => (s.packages[p]?).bind fun x =>
    match x.stage with
    | .sending (service :: services) =>
      let use : Use := if service ∈ s.exited then .exited else .pending
      some (s.setPackage p (.ok
        { x with stage := .sending services, uses := x.uses ++ [(service, use)] }))
    | _ => none
  | .forwarded p => (s.packages[p]?).bind fun x =>
    if x.stage = .forwarding then
      some (s.setPackage p (.ok { x with stage := .forwarded, dataFrees := x.dataFrees + 1 }))
    else none
  | .take p i way => (s.packages[p]?).bind fun x =>
    match x.uses[i]? with
    | some (service, .pending) => some (s.setPackage p (dispatch_subscribe x i service way))
    | _ => none
  | .done p i => (s.packages[p]?).bind fun x =>
    match x.uses[i]? with
    | some (service, .dispatching) => some (s.setPackage p (dispatchEnd x i service))
    | _ => none
  | .exit k => some (.ok { s with
      exited := k :: s.exited
      packages := s.packages.map fun x => { x with uses := x.uses.map (Use.exit k) } })

/-- A node whose daemon has just started; a fault ends the run. -/
def machine : Machine (Except Fault State) Event where
  init := .ok ⟨⟨fun _ => none, fun _ => none, fun _ => none, fun _ => false, []⟩, [], []⟩
  step σ e := σ.toOption.bind fun s => s.step harbor_id e

end MulticastPackage

end SkynetGame
