import SkynetGame.Lib.Run
import SkynetGame.Lib.Bytes

/-!
# The socket server (`skynet_socket`'s `socket_server.c` over `socket_epoll.h`)

The socket thread takes one turn of the loop of `socket_server_poll` at a time; what the system
calls of that turn return comes with its label. Other threads reserve ids and write requests to the
control pipe in between. A step is undefined where an assertion fails or where the label has no
outcome for a call that is made. The contents of addresses of UDP peers are left out.
-/

namespace SkynetGame

/-- `MAX_SOCKET`. -/
def maxSocket : ℕ := 2 ^ 16

/-- `HASH_ID`. -/
def hashId (id : ℤ) : ℕ := (id % maxSocket).toNat

/-- `MIN_READ_BUFFER`. -/
def minReadBuffer : ℕ := 64

inductive SocketType
  | invalid | reserve | plisten | listen | connecting | connected | halfclose | paccept | bind
deriving DecidableEq, Repr

inductive Priority
  | high | low
deriving DecidableEq, Repr

inductive Protocol
  | tcp | udp | udpv6
deriving DecidableEq, Repr

/-- The `SOCKET_*` types of a message. -/
inductive MessageType
  | socketData | socketClose | socketOpen | socketAccept | socketError | socketExit | socketUdp
deriving DecidableEq, Repr

/-- What the `data` of a message points to. -/
inductive MessageData
  | null
  | text (t : String)
  | bytes (b : Bytes)
deriving DecidableEq, Repr

/-- `struct socket_message`; `owner` is its `opaque`. -/
structure SocketMessage where
  type : MessageType
  id : ℤ
  owner : ℕ
  ud : ℤ
  data : MessageData
deriving DecidableEq, Repr

/-- `struct socket_object_interface`, on addresses. -/
structure SocketObjectInterface where
  buffer : ℕ → ℕ
  size : ℕ → ℕ

/-- `struct send_object`, with what `send_object_init` returns: whether it is a user object. -/
structure SendObject where
  buffer : ℕ
  sz : ℕ
  userobject : Bool

/-- `send_object_init`. -/
def sendObjectInit (soi : SocketObjectInterface) (object : ℕ) (sz : ℤ) : SendObject :=
  if sz < 0 then ⟨soi.buffer object, soi.size object, true⟩ else ⟨object, sz.toNat, false⟩

/-- `struct write_buffer`. The `sz` bytes at `ptr` are `data`; `pkg` is the place of the package in
the order in which the socket took its packages. -/
structure WriteBuffer where
  buffer : ℕ
  ptr : ℕ
  data : Bytes
  userobject : Bool
  pkg : ℕ
deriving DecidableEq, Repr

/-- What happened to a socket since `new_fd` set it up. -/
structure SocketLife where
  -- whether `new_fd` has
  begun : Bool
  -- the packages it took, and the bytes that went to its fd
  accepted : List (Priority × Bytes)
  written : Bytes
  -- how many packages it had taken when it was first asked to close without shutdown
  closing : Option ℕ
  -- the services that asked it to close
  closers : List ℕ
  -- whether a request asked for shutdown, a write failed, and the fd had an end of file or an error
  shut : Bool
  failed : Bool
  ended : Bool
  -- the messages `SOCKET_CLOSE` and `SOCKET_ERROR` that reported its end
  finals : List SocketMessage
deriving DecidableEq, Repr

/-- The life of a socket that is about to begin. -/
def SocketLife.new (begun : Bool) : SocketLife where
  begun := begun
  accepted := []
  written := []
  closing := none
  closers := []
  shut := false
  failed := false
  ended := false
  finals := []

/-- `struct socket`; `owner` is its `opaque`. -/
structure Socket where
  owner : ℕ
  high : List WriteBuffer
  low : List WriteBuffer
  wbSize : ℤ
  fd : ℤ
  id : ℤ
  protocol : Protocol
  type : SocketType
  size : ℕ
  -- whether the fd is in the event poll, and whether writable events are asked for
  polled : Bool
  writing : Bool
  life : SocketLife

/-- What `write` and `sendto` return. -/
inductive WriteResult
  | wrote (n : ℕ)
  | intr
  | again
  | error

/-- What `read` returns; the text is that of the error. -/
inductive ReadResult
  | got (b : Bytes)
  | eof
  | intr
  | again
  | error (t : String)

/-- What `recvfrom` returns: a datagram with its sender's protocol and address. -/
inductive RecvResult
  | got (b : Bytes) (protocol : Protocol) (address : Bytes)
  | intr
  | again
  | error (t : String)

/-- How `getaddrinfo`, `socket` and `connect` end in `open_socket`. -/
inductive OpenResult
  | failed (t : String)
  | connected (fd : ℤ) (address : MessageData)
  | progress (fd : ℤ)

/-- What `accept` returns. -/
inductive AcceptResult
  | limit (t : String)
  | failed
  | accepted (fd : ℤ) (address : MessageData)

/-- `struct event`; the control pipe's event has no socket. -/
structure SocketEvent where
  s : Option ℕ
  read : Bool
  write : Bool

/-- What the system calls of one turn of the loop return. -/
structure SocketCalls where
  wait : List SocketEvent := []
  add : Option String := none
  opened : OpenResult := .failed ""
  accept : AcceptResult := .failed
  -- the error that `report_connect` finds, and the address of the peer
  soError : Option String := none
  peer : MessageData := .null
  read : ReadResult := .again
  recv : RecvResult := .again
  writes : List WriteResult := []

/-- `struct request_send`, with the bytes that the package has in memory. -/
structure SendRequest (soi : SocketObjectInterface) where
  id : ℤ
  sz : ℤ
  buffer : ℕ
  bytes : Bytes
  full : bytes.length = (sendObjectInit soi buffer sz).sz

/-- The requests in the control pipe, by the letter that comes with them. -/
inductive SocketRequest (soi : SocketObjectInterface)
  | S (id : ℤ) (owner : ℕ)
  | B (id : ℤ) (fd : ℤ) (owner : ℕ)
  | L (id : ℤ) (fd : ℤ) (owner : ℕ)
  | K (id : ℤ) (shutdown : Bool) (owner : ℕ)
  | O (id : ℤ) (owner : ℕ)
  | X
  | D (r : SendRequest soi)
  | P (r : SendRequest soi)
  | A (r : SendRequest soi)
  | C (id : ℤ) (protocol : Protocol)
  | T (id : ℤ)
  | U (id : ℤ) (fd : ℤ) (protocol : Protocol) (owner : ℕ)

namespace Socket

variable (s : Socket)

def list : Priority → List WriteBuffer
  | .high => s.high
  | .low => s.low

def setList (p : Priority) (l : List WriteBuffer) : Socket :=
  match p with
  | .high => { s with high := l }
  | .low => { s with low := l }

/-- The `result` that `force_close` fills in, with the type its caller returns. -/
def result (t : MessageType) (data : MessageData) : SocketMessage where
  type := t
  id := s.id
  owner := s.owner
  ud := 0
  data := data

/-- `force_close`. -/
def forceClose : Option Socket :=
  if s.type = .invalid then some s
  else if s.type = .reserve then none
  else some { s with
    high := []
    low := []
    polled := if s.type ≠ .paccept ∧ s.type ≠ .plisten then false else s.polled
    type := .invalid }

/-- `send_buffer_empty`. -/
def sendBufferEmpty : Bool := s.high.isEmpty && s.low.isEmpty

/-- A write took `n` bytes of the buffer at the head of a list, and not all. -/
def advance (p : Priority) (n : ℕ) (b : WriteBuffer) (bs : List WriteBuffer) : Socket :=
  { s.setList p ({ b with ptr := b.ptr + n, data := b.data.drop n } :: bs) with
    wbSize := s.wbSize - n
    life := { s.life with written := s.life.written ++ b.data.take n } }

/-- A write took the buffer at the head of a list, which is freed. -/
def pop (p : Priority) (b : WriteBuffer) (bs : List WriteBuffer) : Socket :=
  { s.setList p bs with
    wbSize := s.wbSize - b.data.length
    life := { s.life with written := s.life.written ++ b.data } }

def writeFailed : Socket := { s with life := { s.life with failed := true } }

def readEnded : Socket := { s with life := { s.life with ended := true } }

/-- `send_list_tcp`. -/
def sendListTcp (p : Priority) :
    Socket → List WriteResult → Option (Socket × Option SocketMessage × List WriteResult)
  | s, [] => if s.list p = [] then some (s, none, []) else none
  | s, w :: ws =>
    match s.list p with
    | [] => some (s, none, w :: ws)
    | b :: bs =>
      match w with
      | .intr => sendListTcp p s ws
      | .again => some (s, none, ws)
      | .error => s.writeFailed.forceClose.map fun s' => (s', some (s.result .socketClose .null), ws)
      | .wrote n =>
        if b.data.length < n then none
        else if n ≠ b.data.length then some (s.advance p n b bs, none, ws)
        else sendListTcp p (s.pop p b bs) ws

/-- `send_list_udp`; what `sendto` returns is not looked at unless it is an error. -/
def sendListUdp (p : Priority) :
    Socket → List WriteResult → Option (Socket × Option SocketMessage × List WriteResult)
  | s, [] => if s.list p = [] then some (s, none, []) else none
  | s, w :: ws =>
    match s.list p with
    | [] => some (s, none, w :: ws)
    | b :: bs =>
      match w with
      | .intr => some (s, none, ws)
      | .again => some (s, none, ws)
      | .error => some (s.writeFailed, none, ws)
      | .wrote _ => sendListUdp p (s.pop p b bs) ws

/-- `send_list`. -/
def sendList (p : Priority) (ws : List WriteResult) :
    Option (Socket × Option SocketMessage × List WriteResult) :=
  if s.protocol = .tcp then sendListTcp p s ws else sendListUdp p s ws

/-- `list_uncomplete`. -/
def listUncomplete : List WriteBuffer → Bool
  | [] => false
  | wb :: _ => wb.ptr != wb.buffer

/-- `raise_uncomplete`, with its assertion. -/
def raiseUncomplete : Option Socket :=
  match s.low with
  | [] => none
  | tmp :: l => if s.high = [] then some { s with high := [tmp], low := l } else none

/-- Step 4 of `send_buffer`. -/
def checkClose : Option (Socket × Option SocketMessage) :=
  if s.type = .halfclose then
    { s with writing := false }.forceClose.map fun s' => (s', some (s.result .socketClose .null))
  else some ({ s with writing := false }, none)

/-- `send_buffer` from its second step on. -/
def sendLow (ws : List WriteResult) : Option (Socket × Option SocketMessage) :=
  if s.low = [] then s.checkClose
  else
    match s.sendList .low ws with
    | none => none
    | some (s', some m, _) => some (s', some m)
    | some (s', none, _) =>
      if listUncomplete s'.low then s'.raiseUncomplete.map fun s'' => (s'', none)
      else some (s', none)

/-- `send_buffer`, with its assertion. -/
def sendBuffer (ws : List WriteResult) : Option (Socket × Option SocketMessage) :=
  if listUncomplete s.low then none
  else
    match s.sendList .high ws with
    | none => none
    | some (s', some m, _) => some (s', some m)
    | some (s', none, ws') => if s'.high = [] then s'.sendLow ws' else some (s', none)

variable {soi : SocketObjectInterface}

/-- `append_sendbuffer_` on a list of the socket, and the count of what it has to send. -/
def appendSendbuffer (l : Priority) (r : SendRequest soi) (n : ℕ) : Socket :=
  let so := sendObjectInit soi r.buffer r.sz
  let buf : WriteBuffer := {
    buffer := r.buffer
    ptr := so.buffer + n
    data := r.bytes.drop n
    userobject := so.userobject
    pkg := s.life.accepted.length }
  { s.setList l (s.list l ++ [buf]) with wbSize := s.wbSize + buf.data.length }

/-- The package is now one of those that the socket took. -/
def accept (p : Priority) (r : SendRequest soi) : Socket :=
  { s with life := { s.life with accepted := s.life.accepted ++ [(p, r.bytes)] } }

/-- The first `n` bytes of a package were written without it having been in a list. -/
def wroteDirect (r : SendRequest soi) (n : ℕ) : Socket :=
  { s with life := { s.life with written := s.life.written ++ r.bytes.take n } }

/-- `send_socket` where the buffers of a TCP socket are empty and `write` took `n` bytes. -/
def sendDirect (p : Priority) (r : SendRequest soi) (n : ℕ) : Socket :=
  let s' := s.wroteDirect r n
  if n = (sendObjectInit soi r.buffer r.sz).sz then s'.accept p r
  -- high priority, even where `p` is low
  else { (s'.appendSendbuffer .high r n).accept p r with writing := true }

/-- `send_socket` on the socket that the request names. -/
def sendSocket (p : Priority) (r : SendRequest soi) (ws : List WriteResult) :
    Option (Socket × Option SocketMessage) :=
  if s.type = .invalid ∨ s.id ≠ r.id ∨ s.type = .halfclose ∨ s.type = .paccept then some (s, none)
  else if s.type = .plisten ∨ s.type = .listen then some (s, none)
  else if s.sendBufferEmpty ∧ s.type = .connected then
    if s.protocol = .tcp then
      match ws with
      | .intr :: _ => some (s.sendDirect p r 0, none)
      | .again :: _ => some (s.sendDirect p r 0, none)
      | .error :: _ =>
        s.writeFailed.forceClose.map fun s' => (s', some (s.result .socketClose .null))
      | .wrote n :: _ =>
        if (sendObjectInit soi r.buffer r.sz).sz < n then none else some (s.sendDirect p r n, none)
      | [] => none
    else
      match ws with
      | .wrote _ :: _ => some ((s.wroteDirect r r.bytes.length).accept p r, none)
      | _ :: _ => some ({ (s.appendSendbuffer p r 0).accept p r with writing := true }, none)
      | [] => none
  else some ((s.appendSendbuffer p r 0).accept p r, none)

/-- A request to close came in. -/
def askClose (shutdown : Bool) (owner : ℕ) : Socket :=
  { s with life := { s.life with
      closing := s.life.closing.or (if shutdown then none else some s.life.accepted.length)
      closers := s.life.closers ++ [owner]
      shut := s.life.shut || shutdown } }

/-- The end of `close_socket`. -/
def closeRest (id : ℤ) (shutdown : Bool) (owner : ℕ) : Option (Socket × Option SocketMessage) :=
  if shutdown ∨ s.sendBufferEmpty then
    s.forceClose.map fun s' =>
      (s', some { s.result .socketClose .null with id := id, owner := owner })
  else some ({ s with type := .halfclose }, none)

/-- `close_socket` on the slot of the id. -/
def closeSocket (id : ℤ) (shutdown : Bool) (owner : ℕ) (ws : List WriteResult) :
    Option (Socket × Option SocketMessage) :=
  if s.type = .invalid ∨ s.id ≠ id then
    some (s, some ⟨.socketClose, id, owner, 0, .null⟩)
  else
    let s := s.askClose shutdown owner
    if s.sendBufferEmpty then s.closeRest id shutdown owner
    else
      match s.sendBuffer ws with
      | none => none
      | some (s', some m) => some (s', some m)
      | some (s', none) => s'.closeRest id shutdown owner

/-- `start_socket` on the slot of the id; `add` is the error of `sp_add`. -/
def startSocket (id : ℤ) (owner : ℕ) (add : Option String) :
    Option (Socket × Option SocketMessage) :=
  let result (t : MessageType) (text : String) : SocketMessage := ⟨t, id, owner, 0, .text text⟩
  if s.type = .invalid ∨ s.id ≠ id then some (s, some (result .socketError "invalid socket"))
  else if s.type = .paccept ∨ s.type = .plisten then
    match add with
    | some e => s.readEnded.forceClose.map fun s' => (s', some (s.result .socketError (.text e)))
    | none =>
      some ({ s with
        polled := true
        type := if s.type = .paccept then .connected else .listen
        owner := owner }, some (result .socketOpen "start"))
  else if s.type = .connected then
    some ({ s with owner := owner }, some (result .socketOpen "transfer"))
  else some (s, none)

/-- `set_udp_address` on the slot of the id. -/
def setUdpAddress (id : ℤ) (protocol : Protocol) : Option SocketMessage :=
  if s.type = .invalid ∨ s.id ≠ id then none
  else if protocol ≠ s.protocol then some (s.result .socketError (.text "protocol mismatch"))
  else none

/-- `forward_message_tcp`. -/
def forwardMessageTcp (r : ReadResult) : Option (Socket × Option SocketMessage) :=
  match r with
  | .intr => some (s, none)
  | .again => some (s, none)
  | .error e => s.readEnded.forceClose.map fun s' => (s', some (s.result .socketError (.text e)))
  | .eof => s.readEnded.forceClose.map fun s' => (s', some (s.result .socketClose .null))
  | .got b =>
    if b.length = 0 ∨ s.size < b.length then none
    else if s.type = .halfclose then some (s, none)
    else
      let size :=
        if b.length = s.size then s.size * 2
        else if minReadBuffer < s.size ∧ b.length * 2 < s.size then s.size / 2
        else s.size
      some ({ s with size := size },
        some { s.result .socketData (.bytes b) with ud := b.length })

/-- `forward_message_udp`. -/
def forwardMessageUdp (r : RecvResult) : Option (Socket × Option SocketMessage) :=
  match r with
  | .intr => some (s, none)
  | .again => some (s, none)
  | .error e => s.readEnded.forceClose.map fun s' => (s', some (s.result .socketError (.text e)))
  | .got b protocol address =>
    if protocol ≠ s.protocol then some (s, none)
    else some (s, some { s.result .socketUdp (.bytes (b ++ address)) with ud := b.length })

/-- `report_connect`. -/
def reportConnect (soError : Option String) (peer : MessageData) :
    Option (Socket × Option SocketMessage) :=
  match soError with
  | some e => s.readEnded.forceClose.map fun s' => (s', some (s.result .socketError (.text e)))
  | none =>
    some ({ s with
      type := .connected
      writing := if s.sendBufferEmpty then false else s.writing },
      some (s.result .socketOpen peer))

/-- The branch of `socket_server_poll` for a socket that can be read and written. The last part
says whether the event stays the next one, with its read flag. -/
def readWrite (e : SocketEvent) (c : SocketCalls) :
    Option (Socket × Option SocketMessage × Option Bool) :=
  if e.read then
    if s.protocol = .tcp then
      (s.forwardMessageTcp c.read).map fun (s', m) =>
        let closed := m.any fun m => m.type = .socketClose ∨ m.type = .socketError
        (s', m, if e.write ∧ ¬closed then some false else none)
    else
      (s.forwardMessageUdp c.recv).map fun (s', m) =>
        let closed := m.any fun m => m.type = .socketClose ∨ m.type = .socketError
        (s', m, if m.any fun m => m.type = .socketUdp then some true
          else if e.write ∧ ¬closed then some false else none)
  else if e.write then (s.sendBuffer c.writes).map fun (s', m) => (s', m, none)
  else some (s, none, none)

/-- The end of a socket is noted in its life: the message reports a close or an error under its id,
and the socket is not in use after it. Before it was in use, or no request was answered. -/
def note (asked : Bool) (before : Socket) (m : Option SocketMessage) : Socket :=
  match m with
  | none => s
  | some m =>
    if (m.type = .socketClose ∨ m.type = .socketError) ∧ s.type = .invalid ∧ s.id = m.id ∧
        (before.type ≠ .invalid ∨ asked = false) then
      { s with life := { s.life with finals := s.life.finals ++ [m] } }
    else s

end Socket

/-- `struct socket_server`. `ev` are the events that are not yet dispatched, `pipe` the requests in
the control pipe. -/
structure SocketServer (soi : SocketObjectInterface) where
  checkctrl : Bool
  allocId : ℤ
  ev : List SocketEvent
  slot : ℕ → Socket
  pipe : List (SocketRequest soi)

namespace SocketServer

variable {soi : SocketObjectInterface} (ss : SocketServer soi)

/-- `socket_server_create`. -/
def create : SocketServer soi where
  checkctrl := true
  allocId := 0
  ev := []
  slot := fun _ => {
    owner := 0
    high := []
    low := []
    wbSize := 0
    fd := -1
    id := 0
    protocol := .tcp
    type := .invalid
    size := 0
    polled := false
    writing := false
    life := .new false }
  pipe := []

def put (i : ℕ) (s : Socket) : SocketServer soi := { ss with slot := Function.update ss.slot i s }

/-- An operation on the socket in a slot. -/
def withSlot (i : ℕ) (f : Socket → Option (Socket × Option SocketMessage)) :
    Option (SocketServer soi × Option SocketMessage) :=
  (f (ss.slot i)).map fun (s', m) => (ss.put i s', m)

/-- `ATOM_INC` on an `int`. -/
def atomInc (n : ℤ) : ℤ := if n = 2 ^ 31 - 1 then -2 ^ 31 else n + 1

/-- The loop of `reserve_id`; `ATOM_AND` with `0x7fffffff` takes the sign off. -/
def reserveLoop : ℕ → SocketServer soi → SocketServer soi × Option ℤ
  | 0, ss => (ss, none)
  | i + 1, ss =>
    let id := if atomInc ss.allocId < 0 then atomInc ss.allocId % 2 ^ 31 else atomInc ss.allocId
    let ss := { ss with allocId := id }
    if (ss.slot (hashId id)).type = .invalid then
      (ss.put (hashId id) { ss.slot (hashId id) with
        type := .reserve
        id := id
        fd := -1
        life := .new false }, some id)
    else reserveLoop i ss

/-- `reserve_id`. -/
def reserveId : SocketServer soi × Option ℤ := reserveLoop maxSocket ss

/-- `new_fd` with its assertions, where `sp_add` does not fail or is not asked for. -/
def newFd (id fd : ℤ) (protocol : Protocol) (owner : ℕ) (add : Bool) : Option Socket :=
  let s := ss.slot (hashId id)
  if s.type ≠ .reserve ∨ ¬s.sendBufferEmpty then none
  else some {
    owner := owner
    high := []
    low := []
    wbSize := 0
    fd := fd
    id := id
    protocol := protocol
    type := s.type
    size := minReadBuffer
    polled := add
    writing := false
    life := .new true }

/-- What is left of a slot where an open failed: no socket. -/
def giveUp (id : ℤ) : SocketServer soi :=
  ss.put (hashId id) { ss.slot (hashId id) with type := .invalid, life := .new false }

/-- `open_socket`. -/
def openSocket (id : ℤ) (owner : ℕ) (c : SocketCalls) :
    Option (SocketServer soi × Option SocketMessage) :=
  let result (t : MessageType) (data : MessageData) : SocketMessage := ⟨t, id, owner, 0, data⟩
  match c.opened, c.add with
  | .failed e, _ => some (ss.giveUp id, some (result .socketError (.text e)))
  | .connected _ _, some _ | .progress _, some _ =>
    if (ss.slot (hashId id)).type ≠ .reserve then none
    else some (ss.giveUp id,
      some (result .socketError (.text "reach skynet socket number limit")))
  | .connected fd address, none =>
    (ss.newFd id fd .tcp owner true).map fun s =>
      (ss.put (hashId id) { s with type := .connected }, some (result .socketOpen address))
  | .progress fd, none =>
    (ss.newFd id fd .tcp owner true).map fun s =>
      (ss.put (hashId id) { s with type := .connecting, writing := true }, none)

/-- `listen_socket`; without `sp_add` its `new_fd` does not fail. -/
def listenSocket (id fd : ℤ) (owner : ℕ) : Option (SocketServer soi × Option SocketMessage) :=
  (ss.newFd id fd .tcp owner false).map fun s =>
    (ss.put (hashId id) { s with type := .plisten }, none)

/-- `bind_socket`. -/
def bindSocket (id fd : ℤ) (owner : ℕ) (add : Option String) :
    Option (SocketServer soi × Option SocketMessage) :=
  let result (t : MessageType) (text : String) : SocketMessage := ⟨t, id, owner, 0, .text text⟩
  match add with
  | some _ =>
    if (ss.slot (hashId id)).type ≠ .reserve then none
    else some (ss.giveUp id, some (result .socketError "reach skynet socket number limit"))
  | none =>
    (ss.newFd id fd .tcp owner true).map fun s =>
      (ss.put (hashId id) { s with type := .bind }, some (result .socketOpen "binding"))

/-- `add_udp_socket`. -/
def addUdpSocket (id fd : ℤ) (protocol : Protocol) (owner : ℕ) (add : Option String) :
    Option (SocketServer soi × Option SocketMessage) :=
  match add with
  | some _ =>
    if (ss.slot (hashId id)).type ≠ .reserve then none else some (ss.giveUp id, none)
  | none =>
    (ss.newFd id fd protocol owner true).map fun s =>
      (ss.put (hashId id) { s with type := .connected }, none)

/-- `report_accept` on the listening socket in slot `i`. -/
def reportAccept (i : ℕ) (a : AcceptResult) : Option (SocketServer soi × Option SocketMessage) :=
  match a with
  | .limit e => some (ss, some ((ss.slot i).result .socketError (.text e)))
  | .failed => some (ss, none)
  | .accepted fd address =>
    match ss.reserveId with
    | (ss', none) => some (ss', none)
    | (ss', some id) =>
      (ss'.newFd id fd .tcp (ss.slot i).owner false).map fun s =>
        (ss'.put (hashId id) { s with type := .paccept },
          some { (ss.slot i).result .socketAccept address with ud := id })

/-- The end of the socket in slot `i` is noted in its life. -/
def note (i : ℕ) (asked : Bool) (before : SocketServer soi) (m : Option SocketMessage) :
    SocketServer soi :=
  ss.put i ((ss.slot i).note asked (before.slot i) m)

/-- `clear_closed_event`. -/
def clearClosedEvent (m : Option SocketMessage) : SocketServer soi :=
  match m with
  | none => ss
  | some m =>
    if m.type = .socketClose ∨ m.type = .socketError then
      { ss with ev := clear m.id ss.ev }
    else ss
where
  clear (id : ℤ) : List SocketEvent → List SocketEvent
    | [] => []
    | e :: es =>
      match e.s with
      | none => e :: clear id es
      | some i =>
        if (ss.slot i).type = .invalid ∧ (ss.slot i).id = id then { e with s := none } :: es
        else e :: clear id es

/-- `ctrl_cmd` on the request that was read, which is about the slot that comes first. -/
def ctrlCmd (c : SocketCalls) :
    SocketRequest soi → ℕ × Option (SocketServer soi × Option SocketMessage)
  | .S id owner => (hashId id, ss.withSlot (hashId id) (·.startSocket id owner c.add))
  | .B id fd owner => (hashId id, ss.bindSocket id fd owner c.add)
  | .L id fd owner => (hashId id, ss.listenSocket id fd owner)
  | .K id shutdown owner =>
    (hashId id, ss.withSlot (hashId id) (·.closeSocket id shutdown owner c.writes))
  | .O id owner => (hashId id, ss.openSocket id owner c)
  | .X => (0, some (ss, some ⟨.socketExit, 0, 0, 0, .null⟩))
  | .D r => (hashId r.id, ss.withSlot (hashId r.id) (·.sendSocket .high r c.writes))
  | .P r => (hashId r.id, ss.withSlot (hashId r.id) (·.sendSocket .low r c.writes))
  | .A r => (hashId r.id, ss.withSlot (hashId r.id) (·.sendSocket .high r c.writes))
  | .C id protocol =>
    (hashId id, some (ss, (ss.slot (hashId id)).setUdpAddress id protocol))
  | .T id => (hashId id, some (ss, none))
  | .U id fd protocol owner => (hashId id, ss.addUdpSocket id fd protocol owner c.add)

/-- The part of `socket_server_poll` that takes an event, for the slot of its socket. -/
def dispatch (e : SocketEvent) (i : ℕ) (c : SocketCalls) :
    Option (SocketServer soi × Option SocketMessage) :=
  match (ss.slot i).type with
  | .connecting => ss.withSlot i (·.reportConnect c.soError c.peer)
  | .listen => ss.reportAccept i c.accept
  | .invalid => some (ss, none)
  | _ =>
    ((ss.slot i).readWrite e c).map fun (s', m, again) =>
      let ss := ss.put i s'
      (match again with
        | some read => { ss with ev := { e with read := read } :: ss.ev }
        | none => ss, m)

/-- Whether `sp_wait` can return the events: their fds are in the poll, and are waited for. -/
def waited (evs : List SocketEvent) : Bool :=
  evs.all fun e => match e.s with
    | none => true
    | some i => (ss.slot i).polled && (!e.write || (ss.slot i).writing)

/-- The next event is dispatched, after a wait where none is left. -/
def pollEvent (c : SocketCalls) : Option (SocketServer soi) :=
  if ss.ev = [] then
    if ss.waited c.wait then turn { ss with ev := c.wait, checkctrl := true } else none
  else turn ss
where
  turn (ss : SocketServer soi) : Option (SocketServer soi) :=
    match ss.ev with
    | [] => some ss
    | e :: es =>
      match e.s with
      | none => some { ss with ev := es }
      | some i =>
        (dispatch { ss with ev := es } e i c).map fun (ss', m) => ss'.note i false ss m

/-- One turn of the loop of `socket_server_poll`. -/
def poll (c : SocketCalls) : Option (SocketServer soi) :=
  if ss.checkctrl then
    match ss.pipe with
    | [] => pollEvent { ss with checkctrl := false } c
    | r :: rs =>
      match ctrlCmd { ss with pipe := rs } c r with
      | (_, none) => none
      | (i, some (ss', m)) => some ((ss'.clearClosedEvent m).note i true ss m)
  else ss.pollEvent c

/-- Another thread reserves an id and writes the request that opens a socket under it. -/
def openRequest (request : ℤ → SocketRequest soi) : SocketServer soi :=
  match ss.reserveId with
  | (ss', none) => ss'
  | (ss', some id) => { ss' with pipe := ss'.pipe ++ [request id] }

/-- Another thread writes a request to send, if the id is in use. -/
def sendRequest (id : ℤ) (request : SocketRequest soi) : SocketServer soi :=
  if (ss.slot (hashId id)).id ≠ id ∨ (ss.slot (hashId id)).type = .invalid then ss
  else { ss with pipe := ss.pipe ++ [request] }

end SocketServer

/-- What can happen: a turn of the socket thread with what its system calls return, and the calls
`socket_server_*` of other threads. -/
inductive SocketLabel (soi : SocketObjectInterface)
  | poll (c : SocketCalls)
  | connect (owner : ℕ)
  | listen (fd : ℤ) (owner : ℕ)
  | bind (fd : ℤ) (owner : ℕ)
  | udp (fd : ℤ) (protocol : Protocol) (owner : ℕ)
  | send (r : SendRequest soi)
  | sendLowpriority (r : SendRequest soi)
  | udpSend (r : SendRequest soi)
  | udpConnect (id : ℤ) (protocol : Protocol)
  | start (id : ℤ) (owner : ℕ)
  | close (id : ℤ) (owner : ℕ)
  | shutdown (id : ℤ) (owner : ℕ)
  | nodelay (id : ℤ)
  | exit

namespace SocketServer

variable {soi : SocketObjectInterface} (ss : SocketServer soi)

def request (r : SocketRequest soi) : SocketServer soi := { ss with pipe := ss.pipe ++ [r] }

def step : SocketLabel soi → Option (SocketServer soi)
  | .poll c => ss.poll c
  | .connect owner => some (ss.openRequest (.O · owner))
  | .listen fd owner => some (ss.openRequest (.L · fd owner))
  | .bind fd owner => some (ss.openRequest (.B · fd owner))
  | .udp fd protocol owner => some (ss.openRequest (.U · fd protocol owner))
  | .send r => some (ss.sendRequest r.id (.D r))
  | .sendLowpriority r => some (ss.sendRequest r.id (.P r))
  | .udpSend r => some (ss.sendRequest r.id (.A r))
  | .udpConnect id protocol => some (ss.request (.C id protocol))
  | .start id owner => some (ss.request (.S id owner))
  | .close id owner => some (ss.request (.K id false owner))
  | .shutdown id owner => some (ss.request (.K id true owner))
  | .nodelay id => some (ss.request (.T id))
  | .exit => some (ss.request .X)

def machine (soi : SocketObjectInterface) : Machine (SocketServer soi) (SocketLabel soi) where
  init := create
  step := step

end SocketServer

end SkynetGame
