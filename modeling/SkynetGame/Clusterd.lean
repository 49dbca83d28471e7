import SkynetGame.LuaCluster
import SkynetGame.Lib.Run

/-!
# The server side of the cluster daemon (`service/clusterd.lua`)

Clients send requests over connections, each as the packets that `packrequest` makes of it. The
packets of one request come in their order; those of different requests, of one connection or of
several, come in between one another in any way.
-/

namespace SkynetGame

namespace Clusterd

open LuaCluster

/-- `skynet.unpack`, of a message to the address 0, and `skynet.pack`, of an address. What is no key
of the table is `some none`; `none` stands for an error. -/
structure Codec where
  unpack : Bytes → Option (Option Addr)
  pack : Addr → Bytes

/-- An entry of `large_request`. -/
structure LargeRequest where
  addr : Option Addr
  fields : List Field
  deriving DecidableEq, Repr

/-- A request that is called or, at the address 0, looked up; its answer once it is there. -/
structure Dispatch where
  fd : ℕ
  session : ℕ
  addr : Option Addr
  msg : Field
  answer : Option (Bool × Bytes)
  deriving DecidableEq, Repr

/-- The state of the daemon, with the packets it wrote to each fd and the order of the answers. -/
structure Server where
  largeRequest : ℕ → Option LargeRequest
  registerName : Addr → Option Addr
  dispatched : List Dispatch
  answers : List ℕ
  written : List (ℕ × Bytes)

/-- `packresponse`, and the packets of it written to the fd. -/
def responsePackets (fd session : ℕ) (ok : Bool) (msg : Bytes) : List (ℕ × Bytes) :=
  (lpackresponse (UInt32.ofNat session) ok msg).packets.map fun p => (fd, p)

/-- The answer of a request. -/
def answer (k : ℕ) (d : Dispatch) (ok : Bool) (msg : Bytes) (s : Server) : Server :=
  { s with dispatched := s.dispatched.set k { d with answer := some (ok, msg) }
           answers := s.answers ++ [k]
           written := s.written ++ responsePackets d.fd d.session ok msg }

/-- A request goes to its address; the address 0 is a query for a name. -/
def dispatch (c : Codec) (fd session : ℕ) (addr : Option Addr) (msg : Field) (s : Server) :
    Server :=
  let d := Dispatch.mk fd session addr msg none
  let s' := { s with dispatched := s.dispatched ++ [d] }
  match addr, msg with
  | some (.number 0), .bytes b => match c.unpack b with
    | none => s'
    | some name => match name.bind s.registerName with
      | some a => answer s.dispatched.length d true (c.pack a) s'
      | none => answer s.dispatched.length d false (Bytes.ascii "name not found") s'
  | _, _ => s'

/-- `command.socket` with `"data"`. -/
def socketData (c : Codec) (fd : ℕ) (msg : Bytes) (s : Server) : Server :=
  match lunpackrequest msg with
  | .error _ => s
  | .ok u =>
    if u.padding then
      let req := (s.largeRequest u.session).getD ⟨u.addr, []⟩
      { s with largeRequest := Function.update s.largeRequest u.session
                 (some { req with fields := req.fields ++ [u.msg] }) }
    else match s.largeRequest u.session with
      | none => dispatch c fd u.session u.addr u.msg s
      | some req =>
        let s' := { s with largeRequest := Function.update s.largeRequest u.session none }
        match lconcat (req.fields ++ [u.msg]) with
        | some b => dispatch c fd u.session req.addr (.bytes b) s'
        | none => { s' with written := s'.written ++
                      responsePackets fd u.session false (Bytes.ascii "Invalid large req") }

/-- `command.socket` with `"close"`, `"error"` or `"warning"`. -/
def socketOther (s : Server) : Server := { s with largeRequest := fun _ => none }

/-- Whether `rawcall` can be called: it takes an address and a string. -/
def Dispatch.callable (d : Dispatch) : Bool :=
  match d.addr, d.msg with
  | some _, .bytes _ => true
  | _, _ => false

/-- `rawcall` returns, or raises, for a request that is not a query. -/
def callReturns (k : ℕ) (ok : Bool) (msg : Bytes) (s : Server) : Option Server :=
  match s.dispatched[k]? with
  | some d =>
    if d.answer.isSome ∨ d.addr = some (.number 0) ∨ (ok = true ∧ d.callable = false) then none
    else some (answer k d ok msg s)
  | none => none

/-- `command.register`. -/
def register (source : Addr) (name : Addr) (addr : Option Addr) (s : Server) : Server :=
  if (s.registerName name).isSome then s
  else
    let addr := addr.getD source
    let names := match s.registerName addr with
      | some old => Function.update s.registerName old none
      | none => s.registerName
    { s with registerName := Function.update (Function.update names addr (some name)) name
               (some addr) }

/-- A request of a client, on its connection. -/
structure Req where
  fd : ℕ
  addr : Addr
  session : ℤ
  msg : Bytes
  deriving DecidableEq, Repr

/-- A request that is being sent: its packets, and how many of them have come in. -/
structure Sending where
  req : Req
  packets : List Bytes
  next : ℕ

/-- What ends or disturbs a connection, as the gate tells it. -/
inductive Event where
  | close | error | warning
  deriving DecidableEq, Repr

/-- The daemon, the requests under way, the connections that are closed, and the requests all of
which came in. -/
structure State where
  server : Server
  sending : List Sending
  closed : List ℕ
  complete : List Req

inductive Label where
  | send (r : Req)
  | data (k : ℕ)
  | event (e : Event) (fd : ℕ)
  | returns (k : ℕ) (ok : Bool) (msg : Bytes)
  | register (source name : Addr) (addr : Option Addr)

/-- The next packet of a request under way comes in. -/
def data (c : Codec) (k : ℕ) (s : State) : Option State :=
  match s.sending[k]? with
  | none => none
  | some e => match (e.packets[e.next]?).bind unframe with
    | none => none
    | some body =>
      let server := socketData c e.req.fd body s.server
      if e.next + 1 = e.packets.length then
        some { s with server := server, sending := s.sending.eraseIdx k,
                      complete := s.complete ++ [e.req] }
      else
        some { s with server := server, sending := s.sending.set k { e with next := e.next + 1 } }

/-- A warning leaves the connection open. -/
def event (e : Event) (fd : ℕ) (s : State) : State :=
  match e with
  | .warning => { s with server := socketOther s.server }
  | _ => { s with server := socketOther s.server, closed := fd :: s.closed,
                  sending := s.sending.filter (·.req.fd ≠ fd) }

def step (c : Codec) (s : State) : Label → Option State
  | .send r =>
    -- a session is an `int`
    if r.fd ∈ s.closed ∨ 2 ^ 31 ≤ r.session then none
    else match lpackrequest r.addr r.session r.msg with
      | .ok p => some { s with sending := s.sending ++ [⟨r, p.request :: p.multi, 0⟩] }
      | .error _ => none
  | .data k => data c k s
  | .event e fd => some (event e fd s)
  | .returns k ok msg => (callReturns k ok msg s.server).map fun server =>
      { s with server := server }
  | .register source name addr =>
    some { s with server := Clusterd.register source name addr s.server }

def init : State := ⟨⟨fun _ => none, fun _ => none, [], [], []⟩, [], [], []⟩

def machine (c : Codec) : Machine State Label := ⟨init, step c⟩

end Clusterd

end SkynetGame
