import SkynetGame.LuaCluster
import SkynetGame.Lib.Run

/-!
# The cluster daemon of the project

`services/physical/cluster_mgr/lkclusterd.lua`, of the node that calls and of the nodes it calls,
with the channels between them. Each packet, run of a handler and answer is told which request it
is for (`origin`); a packet of any other peer has none.
-/

namespace SkynetGame

namespace LkClusterd

open LuaCluster

abbrev Node := Bytes

structure Channel where
  host : Bytes
  port : Bytes
  deriving DecidableEq, Repr

/-- The tables of the daemon; `nodeChannel` has the fields of `node_channel` itself. -/
structure Clusterd where
  nodeAddress : Node → Option Bytes
  nodeSession : Node → Option ℕ
  nodeChannel : Node → Option Channel

def Clusterd.init : Clusterd := ⟨fun _ => none, fun _ => none, fun _ => none⟩

/-- `string.match(address, "([^:]+):(.*)$")`. -/
def matchAddress (address : Bytes) : Option (Bytes × Bytes) :=
  let host := (address.dropWhile (· = 58)).takeWhile (· ≠ 58)
  match (address.dropWhile (· = 58)).dropWhile (· ≠ 58) with
  | [] => none
  | _ :: port => some (host, port)

/-- The functions that are a field of the metatable of `node_channel`. -/
inductive Metamethod where
  | openChannel
  deriving DecidableEq, Repr

/-- `open_channel`; `connects` tells whether the address leads to a connection. -/
def openChannel (connects : Bool) (d : Clusterd) (key : Node) :
    Except Bytes (Channel × Clusterd) :=
  match d.nodeAddress key with
  | none => .error (Bytes.ascii "bad argument #1 to 'match' (string expected, got nil)")
  | some address => match matchAddress address with
    | none => .error (Bytes.ascii "assertion failed!")
    | some (host, port) =>
      if connects then
        .ok (⟨host, port⟩,
          { d with nodeChannel := Function.update d.nodeChannel key (some ⟨host, port⟩) })
      else .error (Bytes.ascii "[Error: socket]")

/-- `setmetatable({}, {_index = open_channel})`. -/
def nodeChannelMeta : String → Option Metamethod
  | "_index" => some .openChannel
  | _ => none

/-- `node_channel[node]`: a field of the table, or else what the metamethod `__index` gives. -/
def indexChannel (connects : Bool) (d : Clusterd) (node : Node) :
    Except Bytes (Option Channel × Clusterd) :=
  match d.nodeChannel node with
  | some c => .ok (some c, d)
  | none => match nodeChannelMeta "__index" with
    | some .openChannel => (openChannel connects d node).map fun r => (some r.1, r.2)
    | none => .ok (none, d)

/-- One entry of a configuration. -/
def loadEntry (d : Clusterd) (e : Node × Bytes) : Clusterd :=
  if d.nodeAddress e.1 = some e.2 then d
  else { d with nodeChannel := Function.update d.nodeChannel e.1 none,
                nodeAddress := Function.update d.nodeAddress e.1 (some e.2) }

def loadconfig (d : Clusterd) (config : List (Node × Bytes)) : Clusterd :=
  config.foldl loadEntry d

/-- What `send_request` hands to a channel: the packets, and the session to wait for, if any. -/
structure Sent where
  node : Node
  packets : List Bytes
  response : Option ℕ
  deriving DecidableEq, Repr

/-- `node_session[node] or 1`. -/
def nodeSession (d : Clusterd) (node : Option Node) : ℕ := (node.bind d.nodeSession).getD 1

/-- The session of a packet: an even one wants no answer. -/
def dsession (noResponse : Bool) (session : ℕ) : ℕ :=
  if noResponse then session * 2 else session * 2 - 1

/-- The next session of a node is set. -/
def nextNodeSession (d : Clusterd) (n : Node) : Clusterd :=
  { d with nodeSession := Function.update d.nodeSession n
             (some (if nodeSession d (some n) < 0x3fffffff then nodeSession d (some n) + 1 else 1)) }

/-- `send_request`; it gives nothing where there is no node. -/
def sendRequest (connects : Bool) (noResponse : Bool) (node : Option Node) (addr : Addr)
    (msg : Bytes) (d : Clusterd) : Clusterd × Except Bytes (Option Sent) :=
  match lpackrequest addr (dsession noResponse (nodeSession d node)) msg with
  | .error e => (d, .error e)
  | .ok p => match node with
    | none => (d, .ok none)
    | some n => match indexChannel connects (nextNodeSession d n) n with
      | .error e => (nextNodeSession d n, .error e)
      | .ok (none, d') => (d', .error (Bytes.ascii "attempt to index a nil value (local 'c')"))
      | .ok (some _, d') => (d', .ok (some ⟨n, p.request :: p.multi,
          if noResponse then none else some (dsession noResponse (nodeSession d node))⟩))

/-- How a request stands: `answered` with the data that came for it. -/
inductive Outcome where
  | raised (err : Bytes)
  | nothing
  | sent
  | waiting (session : ℕ) (data : List Field)
  | answered (ok : Bool) (data : List Field)
  deriving DecidableEq, Repr

structure Call where
  noResponse : Bool
  node : Option Node
  addr : Addr
  msg : Bytes
  outcome : Outcome

/-- The run of a handler, with its result once it is there. -/
structure Handling where
  origin : Option ℕ
  session : ℕ
  addr : Addr
  msg : Bytes
  result : Option (Except Bytes Bytes)

/-- The daemon of a node that is called: what its handlers ran and what it wrote back, and for
which request. -/
structure Remote where
  handled : List Handling
  replies : List (Option ℕ × Bytes)

/-- The functions of `cluster.core`. -/
inductive CoreFunction where
  | packrequest | unpackrequest | packresponse | unpackresponse | concat
  deriving DecidableEq, Repr

/-- `luaopen_cluster_core`. -/
def clusterCore : String → Option CoreFunction
  | "packrequest" => some .packrequest
  | "unpackrequest" => some .unpackrequest
  | "packresponse" => some .packresponse
  | "unpackresponse" => some .unpackresponse
  | "concat" => some .concat
  | _ => none

/-- The end of `command.socket`: `cluster.pakcreponse` is called and what it returns is written;
to call a field that is not there raises an error. -/
def writeResponse (origin : Option ℕ) (session : ℕ) (result : Except Bytes Bytes) (r : Remote) : Remote :=
  match clusterCore "pakcreponse" with
  | some .packresponse =>
    let response := match result with
      | .ok msg =>
        if msg.length ≥ 0x10000 then
          lpackresponse (UInt32.ofNat session) false (Bytes.ascii "response too big")
        else lpackresponse (UInt32.ofNat session) true msg
      | .error msg => lpackresponse (UInt32.ofNat session) false msg
    match response with
    | .single s => { r with replies := r.replies ++ [(origin, s)] }
    | .multi l => { r with replies := r.replies ++ l.map fun s => (origin, s) }
  | _ => r

/-- `command.socket` with data: the message is handed to the service it is for. To send to no address
(of a part), to the address 0 or what is no message (of a head) raises, inside of `pcall` where
there is somebody to answer. -/
def commandSocket (origin : Option ℕ) (data : Bytes) (r : Remote) : Remote :=
  match lunpackrequest data with
  | .error _ => r
  | .ok u => match u.addr, u.msg with
    | some (.number 0), _ => raises u "Invalid service address 0"
    | some addr, .bytes msg =>
      { r with handled := r.handled ++ [⟨origin, u.session, addr, msg, none⟩] }
    | some _, .size _ => raises u "skynet.send invalid param number"
    | none, _ => raises u "dest address type (boolean) must be a string or number."
where
  raises (u : Request) (err : String) : Remote :=
    if u.session % 2 = 0 then r
    else writeResponse origin u.session (.error (Bytes.ascii err)) r

/-- The handler returns or raises; a request that wants no answer is done with that. -/
def handlerReturns (k : ℕ) (result : Except Bytes Bytes) (r : Remote) : Option Remote :=
  match r.handled[k]? with
  | some h =>
    if h.result.isSome then none
    else
      let r := { r with handled := r.handled.set k { h with result := some result } }
      some (if h.session % 2 = 0 then r else writeResponse h.origin h.session result r)
  | none => none

/-- The calling node, its requests, the packets on their way and the nodes that are called. -/
structure State where
  here : Clusterd
  calls : List Call
  wire : Node → List (ℕ × Bytes)
  there : Node → Remote

inductive Label where
  | reload (config : List (Node × Bytes))
  | request (noResponse connects : Bool) (node : Option Node) (addr : Addr) (msg : Bytes)
  | deliver (n : Node)
  | arrive (n : Node) (body : Bytes)
  | returns (n : Node) (k : ℕ) (result : Except Bytes Bytes)
  | reply (n : Node)

/-- `command.req` and `command.send`. -/
def request (noResponse connects : Bool) (node : Option Node) (addr : Addr) (msg : Bytes)
    (s : State) : State :=
  let call := Call.mk noResponse node addr msg
  match sendRequest connects noResponse node addr msg s.here with
  | (d, .error e) => { s with here := d, calls := s.calls ++ [call (.raised e)] }
  | (d, .ok none) => { s with here := d, calls := s.calls ++ [call .nothing] }
  | (d, .ok (some sent)) =>
    { s with here := d
             calls := s.calls ++ [call (match sent.response with
               | some session => .waiting session []
               | none => .sent)]
             wire := Function.update s.wire sent.node
               (s.wire sent.node ++ sent.packets.map fun p => (s.calls.length, p)) }

/-- `dispatch_by_session` with a response: it goes to the call that waits for its session. -/
def takeResponse (u : UnpackedResponse) (c : Call) : Call :=
  match c.outcome with
  | .waiting session data =>
    if session ≠ u.session then c
    else if u.padding ∧ u.ok then { c with outcome := .waiting session (data ++ [u.msg]) }
    else { c with outcome := .answered u.ok (if u.ok then data ++ [u.msg] else [u.msg]) }
  | _ => c

def dispatchResponse (n : Node) (u : UnpackedResponse) (calls : List Call) : List Call :=
  calls.map fun c => if c.node = some n then takeResponse u c else c

def step (s : State) : Label → Option State
  | .reload config => some { s with here := loadconfig s.here config }
  | .request noResponse connects node addr msg =>
    some (request noResponse connects node addr msg s)
  | .deliver n => match s.wire n with
    | [] => none
    | (i, p) :: rest => (unframe p).map fun body =>
      { s with wire := Function.update s.wire n rest
               there := Function.update s.there n (commandSocket (some i) body (s.there n)) }
  | .arrive n body =>
    some { s with there := Function.update s.there n (commandSocket none body (s.there n)) }
  | .returns n k result => (handlerReturns k result (s.there n)).map fun r =>
      { s with there := Function.update s.there n r }
  | .reply n => match (s.there n).replies with
    | [] => none
    | (none, _) :: rest =>
      some { s with there := Function.update s.there n { s.there n with replies := rest } }
    | (some _, p) :: rest => ((unframe p).bind lunpackresponse).map fun u =>
      { s with there := Function.update s.there n { s.there n with replies := rest }
               calls := dispatchResponse n u s.calls }

def init : State := ⟨Clusterd.init, [], fun _ => [], fun _ => ⟨[], []⟩⟩

/-- A calling node and the nodes it calls. -/
def machine : Machine State Label := ⟨init, step⟩

end LkClusterd

end SkynetGame
