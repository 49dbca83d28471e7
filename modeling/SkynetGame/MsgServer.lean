import SkynetGame.Lib.Run
import SkynetGame.Lib.LuaPattern

/-!
# The message server (`lualib/snax/msgserver.lua` over `lualib/snax/gateserver.lua`)

A run takes the socket messages of the gate, the calls of `server.login` and `server.logout`, and
the returns of `request_handler` in any order; whatever a handler does before it yields or after
shows as actions of its own. User records and cache entries are objects that outlive their place
in a table, so both are numbered. Sockets in use do not share an id.
-/

namespace SkynetGame

open LuaPattern (strMatch Capture)

/-- The configuration of `server.start`, with what Lua's numbers are and `crypt` computes: none
where the call is an error. Numbers that `tonumber` gives are ordered; it gives no NaN. -/
structure MsgConf (ν : Type*) where
  expiredNumber : ℕ
  maxclient : ℤ
  disconnectHandler : Bool
  tonumber : Bytes → Option ν
  b64decode : Bytes → Option Bytes
  hmacHash : Bytes → Bytes → Option Bytes

/-- An entry of a response cache, with the coroutine that is in `do_request` because of it. -/
structure MsgEntry (ν : Type*) where
  -- `p[1]` to `p[4]`; the last counts from where the response is ready
  returnFd : Option ℕ
  response : Option Bytes
  version : Option ν
  index : ℕ
  -- the locals of `do_request`
  user : ℕ
  session : ℕ
  fd : ℕ
  message : Bytes
  -- whether `request_handler` has still to return
  running : Bool
  -- the generation of the connection it was first received on, the connection that asked last,
  -- and the user's generation when it was last resent or answered
  first : ℕ
  asker : ℕ
  touched : Option ℕ

/-- A user record. `gen` counts its accepted handshakes, `out` says that it was logged out. -/
structure MsgUser (ν : Type*) where
  secret : Bytes
  version : ν
  index : ℕ
  username : Bytes
  response : List (ℕ × ℕ)
  fd : Option ℕ
  ip : Option Bytes
  gen : ℕ
  out : Bool

/-- A request packet that came in with a session on a connection of generation `gen`, and what came
of it. -/
structure MsgReceipt where
  user : ℕ
  -- whether the user was logged out before
  out : Bool
  session : ℕ
  fd : ℕ
  gen : ℕ
  -- the generation of the connection its entry in the cache was first received on
  first : Option ℕ
  -- the response in that entry
  cached : Option Bytes
  -- whether `request_handler` was called
  executed : Bool
  sent : List (ℕ × Bytes)
deriving DecidableEq, Repr

/-- What happened. -/
inductive MsgEvent (ν : Type*)
  -- a handshake was accepted
  | accepted (user fd : ℕ) (index : ν) (message : Bytes)
  -- `do_request` was called, on a connection whose handshake was accepted or not
  | passed (fd : ℕ) (authed : Bool)
  | received (r : MsgReceipt)
  -- a response got ready, with the connection that asked last open or not
  | completed (asker : ℕ) (connected : Bool) (response : Bytes) (sent : List (ℕ × Bytes))

/-- The state of a message server and of the gate under it. `authed`, `gen` and `conns` are about
the connections: whether the handshake was accepted, as which of the user's, and the accepted
ones that are not yet reported closed. -/
structure MsgServer (ν : Type*) where
  -- `connection` and `client_number` of the gate
  gate : ℕ → Option Bool
  clientNumber : ℤ
  userOnline : Bytes → Option ℕ
  handshake : ℕ → Option Bytes
  connection : ℕ → Option ℕ
  users : ℕ → MsgUser ν
  nUsers : ℕ
  entries : ℕ → MsgEntry ν
  nEntries : ℕ
  -- whether the `disconnect_handler` of an fd has still to return
  closing : ℕ → Bool
  -- the calls of `socketdriver.send`
  sent : List (ℕ × Bytes)
  authed : ℕ → Bool
  gen : ℕ → ℕ
  conns : List (ℕ × ℕ)
  log : List (MsgEvent ν)

namespace MsgServer

variable {ν : Type*} [LinearOrder ν] [Zero ν]

section Objects

variable (s : MsgServer ν)

def setUser (u : ℕ) (r : MsgUser ν) : MsgServer ν :=
  { s with users := Function.update s.users u r }

def setEntry (p : ℕ) (e : MsgEntry ν) : MsgServer ν :=
  { s with entries := Function.update s.entries p e }

def send (fd : ℕ) (b : Bytes) : MsgServer ν := { s with sent := s.sent ++ [(fd, b)] }

def note (e : MsgEvent ν) : MsgServer ν := { s with log := s.log ++ [e] }

end Objects

variable (conf : MsgConf ν) (s : MsgServer ν)

/-- `gateserver.closeclient`. -/
def closeclient (fd : ℕ) : MsgServer ν :=
  if s.gate fd = some true then { s with gate := Function.update s.gate fd (some false) } else s

/-- `server.login`; an error where the user is online. -/
def login (username secret : Bytes) : MsgServer ν :=
  if (s.userOnline username).isSome then s
  else
    { s with
      userOnline := Function.update s.userOnline username (some s.nUsers)
      users := Function.update s.users s.nUsers
        ⟨secret, 0, 0, username, [], none, none, 0, false⟩
      nUsers := s.nUsers + 1 }

/-- `server.logout`; an error where the user is not online. -/
def logout (username : Bytes) : MsgServer ν :=
  match s.userOnline username with
  | none => s
  | some u =>
    let r := s.users u
    let s := { s with userOnline := Function.update s.userOnline username none }
    let s := s.setUser u { r with out := true }
    match r.fd with
    | none => s
    | some fd =>
      let s := s.closeclient fd
      { s with connection := Function.update s.connection fd none }

/-- `MSG.open` with `handler.connect`. -/
def openClient (fd : ℕ) (addr : Bytes) : MsgServer ν :=
  if s.clientNumber ≥ conf.maxclient then s
  else
    { s with
      gate := Function.update s.gate fd (some true)
      clientNumber := s.clientNumber + 1
      handshake := Function.update s.handshake fd (some addr)
      authed := Function.update s.authed fd false }

/-- `close_fd` of the gate. -/
def closeFd (fd : ℕ) : MsgServer ν :=
  if (s.gate fd).isSome then
    { s with gate := Function.update s.gate fd none, clientNumber := s.clientNumber - 1 }
  else s

/-- `MSG.close` and `MSG.error` with `handler.disconnect`, up to where `disconnect_handler` is
called if it is. -/
def close (fd : ℕ) : MsgServer ν :=
  let s := { s with
    handshake := Function.update s.handshake fd none
    conns := s.conns.filter fun c => c.1 ≠ fd }
  match s.connection fd with
  | none => s.closeFd fd
  | some u =>
    let s := s.setUser u { s.users u with fd := none }
    let s := { s with connection := Function.update s.connection fd none }
    if conf.disconnectHandler then { s with closing := Function.update s.closing fd true }
    else s.closeFd fd

/-- The three fields of a handshake. -/
def fields (message : Bytes) : Option (Option (Bytes × Bytes × Bytes)) :=
  (strMatch message (Bytes.ascii "([^:]*):([^:]*):([^:]*)")).map fun
    | [.str username, .str index, .str hmac] => some (username, index, hmac)
    | _ => none

/-- `do_auth` up to the assignments: the user and the index of a handshake that passes the checks,
or else the text that is sent back, also for an error. -/
def checkAuth (message : Bytes) : Except Bytes (ℕ × ν) :=
  match fields message with
  | none => .error (Bytes.ascii "400 Bad Request")
  -- no match: `user_online[nil]` is `nil`
  | some none => .error (Bytes.ascii "404 User Not Found")
  | some (some (username, index, hmac)) =>
    match s.userOnline username with
    | none => .error (Bytes.ascii "404 User Not Found")
    | some u =>
      match conf.tonumber index, conf.b64decode hmac with
      | some idx, some hmac =>
        if idx ≤ (s.users u).version then .error (Bytes.ascii "403 Index Expired")
        else
          match conf.hmacHash (s.users u).secret (username ++ Bytes.ascii ":" ++ index) with
          | none => .error (Bytes.ascii "400 Bad Request")
          | some v => if v ≠ hmac then .error (Bytes.ascii "401 Unauthorized") else .ok (u, idx)
      | _, _ => .error (Bytes.ascii "400 Bad Request")

/-- The assignments of `do_auth`. -/
def accept (fd : ℕ) (addr message : Bytes) (u : ℕ) (idx : ν) : MsgServer ν :=
  let r := s.users u
  let s := s.setUser u { r with version := idx, fd := some fd, ip := some addr, gen := r.gen + 1 }
  { s with
    connection := Function.update s.connection fd (some u)
    authed := Function.update s.authed fd true
    gen := Function.update s.gen fd (r.gen + 1)
    conns := s.conns ++ [(fd, u)]
    log := s.log ++ [.accepted u fd idx message] }

/-- `netpack.pack`, of a text that is not too long. -/
def pack (b : Bytes) : Bytes := [(b.length / 256).toUInt8, b.length.toUInt8] ++ b

def auth (fd : ℕ) (addr message : Bytes) : MsgServer ν :=
  match s.checkAuth conf message with
  | .ok (u, idx) => (s.accept fd addr message u idx).send fd (pack (Bytes.ascii "200 OK"))
  | .error result => (s.send fd (pack result)).closeclient fd

/-- One round of the loop in `retire_response`, with `response`, the entries and `max`. -/
def retireOne (st : List (ℕ × ℕ) × (ℕ → MsgEntry ν) × ℕ) (k : ℕ × ℕ) :
    List (ℕ × ℕ) × (ℕ → MsgEntry ν) × ℕ :=
  let p := st.2.1 k.2
  if p.returnFd = none then
    if p.index < conf.expiredNumber then (st.1.filter fun e => e.1 ≠ k.1, st.2.1, st.2.2)
    else
      let i := p.index - conf.expiredNumber
      (st.1, Function.update st.2.1 k.2 { p with index := i }, if i > st.2.2 then i else st.2.2)
  else st

/-- `retire_response`. -/
def retireResponse (u : ℕ) : MsgServer ν :=
  let r := s.users u
  if r.index ≥ conf.expiredNumber * 2 then
    let st := r.response.foldl (retireOne conf) (r.response, s.entries, 0)
    let s := { s with entries := st.2.1 }
    s.setUser u { r with response := st.1, index := st.2.2 + 1 }
  else s

/-- `request`, where `do_request` has raised an error. -/
def requestFailed (fd : ℕ) : MsgServer ν :=
  if (s.connection fd).isSome then s.closeclient fd else s

/-- The send of a response, if the connection it is for is still there. -/
def deliver (e : MsgEntry ν) : MsgServer ν :=
  match e.returnFd, e.response with
  | some fd, some b => if (s.connection fd).isSome then s.send fd b else s
  | _, _ => s

/-- The end of `do_request`, the response being ready. -/
def respond (p : ℕ) : MsgServer ν :=
  let e := s.entries p
  let u := s.users e.user
  let s := s.setUser e.user { u with index := u.index + 1 }
  ((s.deliver e).setEntry p { e with returnFd := none }).retireResponse conf e.user

/-- The number in the last four bytes of a packet. -/
def sessionOf (message : Bytes) : Option ℕ :=
  if message.length < 4 then none
  else some ((message.drop (message.length - 4)).foldl (fun n b => n * 256 + b.toNat) 0)

/-- A packet whose session has no entry: a new one is made and `request_handler` called. -/
def execute (fd u session : ℕ) (message : Bytes) : MsgServer ν :=
  let r := s.users u
  let s := s.setUser u { r with
    response := (session, s.nEntries) :: r.response.filter fun e => e.1 ≠ session }
  let s := s.setEntry s.nEntries
    ⟨some fd, none, none, 0, u, session, fd, message.take (message.length - 4), true,
      s.gen fd, fd, none⟩
  { s with nEntries := s.nEntries + 1 }

/-- A packet whose session has an entry that stays. -/
def resend (fd u p : ℕ) : MsgServer ν :=
  let r := s.users u
  let e := s.entries p
  let s := s.setEntry p { e with
    returnFd := some fd
    version := some r.version
    index := r.index
    asker := fd
    touched := some r.gen }
  if e.response.isNone then s else s.respond conf p

/-- `do_request` up to where `request_handler` yields, from where the session is known; in `request`
where it raises an error. -/
def doRequest (fd u session : ℕ) (message : Bytes) : MsgServer ν :=
  let r := s.users u
  match r.response.lookup session with
  | none => s.execute fd u session message
  | some p =>
    -- session can be reuse in the same connection
    if (s.entries p).version = some r.version then
      if (s.entries p).response.isNone then
        (s.setUser u { r with
          response := r.response.filter fun e => e.1 ≠ session }).requestFailed fd
      else s.execute fd u session message
    else s.resend conf fd u p

/-- `request` up to where `request_handler` yields. -/
def request (fd : ℕ) (message : Bytes) : MsgServer ν :=
  let s := s.note (.passed fd (s.authed fd))
  match s.connection fd, sessionOf message with
  | some u, some session =>
    let e := ((s.users u).response.lookup session).map s.entries
    let s' := s.doRequest conf fd u session message
    s'.note <| .received
      { user := u
        out := (s.users u).out
        session := session
        fd := fd
        gen := s.gen fd
        first := e.map fun e => e.first
        cached := e.bind fun e => e.response
        executed := decide (s.nEntries < s'.nEntries)
        sent := s'.sent.drop s.sent.length }
  | _, _ => s.requestFailed fd

/-- `dispatch_msg` with `handler.message`. -/
def data (fd : ℕ) (message : Bytes) : MsgServer ν :=
  if s.gate fd = some true then
    match s.handshake fd with
    | some addr =>
      let s := s.auth conf fd addr message
      { s with handshake := Function.update s.handshake fd none }
    | none => s.request conf fd message
  else s

/-- What `request_handler` gives: an error, a string (an empty one for `nil`), or a value that is
neither string nor number. -/
inductive Result
  | raise
  | value (b : Bytes)
  | bad
deriving DecidableEq, Repr

/-- A number as four bytes, the highest first. -/
def be32 (n : ℕ) : Bytes :=
  [(n / 2 ^ 24).toUInt8, (n / 2 ^ 16).toUInt8, (n / 2 ^ 8).toUInt8, n.toUInt8]

/-- The response packet; none where making it is an error. -/
def packResult (session : ℕ) : Result → Option Bytes
  | .raise => some (pack (0 :: be32 session))
  | .value b =>
    if b.length + 5 < 2 ^ 16 then some (pack (b ++ 1 :: be32 session)) else none
  | .bad => none

/-- `do_request` from where `request_handler` returns. -/
def finish (p : ℕ) (r : Result) : MsgServer ν :=
  let e := s.entries p
  match packResult e.session r with
  | none => (s.setEntry p { e with running := false }).requestFailed e.fd
  | some b =>
    let u := s.users e.user
    let s' := (s.setEntry p { e with
      running := false
      response := some b
      version := some u.version
      index := u.index
      touched := some u.gen }).respond conf p
    s'.note (.completed e.asker (s.connection e.asker).isSome b (s'.sent.drop s.sent.length))

inductive Action
  | login (username secret : Bytes)
  | logout (username : Bytes)
  | open (fd : ℕ) (addr : Bytes)
  | data (fd : ℕ) (message : Bytes)
  | close (fd : ℕ)
  -- `disconnect_handler` returns, or raises an error
  | closed (fd : ℕ)
  | closeFailed (fd : ℕ)
  | finish (p : ℕ) (r : Result)
deriving DecidableEq, Repr

def step (s : MsgServer ν) : Action → Option (MsgServer ν)
  | .login username secret => some (s.login username secret)
  | .logout username => some (s.logout username)
  | .open fd addr => if s.gate fd = none then some (s.openClient conf fd addr) else none
  | .data fd message => some (s.data conf fd message)
  -- a socket is reported closed once
  | .close fd => if s.closing fd then none else some (s.close conf fd)
  | .closed fd =>
    if s.closing fd then
      some ({ s with closing := Function.update s.closing fd false }.closeFd fd)
    else none
  | .closeFailed fd =>
    if s.closing fd then some { s with closing := Function.update s.closing fd false } else none
  | .finish p r =>
    if p < s.nEntries ∧ (s.entries p).running then some (s.finish conf p r) else none

/-- A message server that has just been started. -/
def machine : Machine (MsgServer ν) Action where
  init :=
    ⟨fun _ => none, 0, fun _ => none, fun _ => none, fun _ => none,
      fun _ => ⟨[], 0, 0, [], [], none, none, 0, false⟩, 0,
      fun _ => ⟨none, none, none, 0, 0, 0, 0, [], false, 0, 0, none⟩, 0, fun _ => false, [],
      fun _ => false, fun _ => 0, [], []⟩
  step := step conf

end MsgServer

end SkynetGame
