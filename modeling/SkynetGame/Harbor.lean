import SkynetGame.Lib.Framing
import SkynetGame.Lib.Run

/-!
# The harbor service (`service-src/service_harbor.c`)

The ring of a queue is the list of its messages, and the hash map of the global names is a map. A
harbor is an index of `s`, a byte. What the service does outwards is what it writes in `log`; the
payload of each message that is to be sent has a pointer of its own.
-/

namespace SkynetGame

namespace Harbor

def GLOBALNAME_LENGTH : ℕ := 16

def HEADER_COOKIE_LENGTH : ℕ := 12

def HANDLE_MASK : UInt32 := 0xffffff

def HANDLE_REMOTE_SHIFT : UInt32 := 24

def UINT32_MAX : ℕ := 0xffffffff

def PTYPE_SYSTEM : UInt8 := 4

def PTYPE_HARBOR : UInt8 := 5

def PTYPE_SOCKET : UInt8 := 6

def PTYPE_ERROR : UInt8 := 7

/-- The harbor of a handle. -/
def harborOf (handle : UInt32) : UInt8 := (handle >>> HANDLE_REMOTE_SHIFT).toUInt8

/-- A byte in the place of the harbor. -/
def high (b : UInt8) : UInt32 := b.toUInt32 <<< HANDLE_REMOTE_SHIFT

/-- `struct remote_message_header`. -/
structure RemoteMessageHeader where
  source : UInt32
  destination : UInt32
  session : UInt32
  deriving DecidableEq, Repr

/-- The payload of a message. -/
structure Buffer where
  ptr : ℕ
  bytes : Bytes
  deriving DecidableEq, Repr

/-- `struct harbor_msg`. -/
structure HarborMsg where
  header : RemoteMessageHeader
  buffer : Buffer
  deriving DecidableEq, Repr

structure KeyValue where
  value : UInt32
  queue : Option (List HarborMsg)
  deriving DecidableEq, Repr

inductive Status where
  | wait
  | handshake
  | header
  | content
  | down
  deriving DecidableEq, Repr

/-- `struct slave`; `part` are the bytes that were read to `size`, or to `recv_buffer`. -/
structure Slave where
  fd : ℤ
  queue : Option (List HarborMsg)
  status : Status
  length : ℕ
  part : Bytes
  deriving DecidableEq, Repr

/-- What the service does outwards. -/
inductive Out where
  -- `send_remote`, on the connection of a harbor, and where it refuses
  | remote (id : UInt8) (fd : ℤ) (msg : HarborMsg)
  | tooLarge (msg : HarborMsg)
  -- `skynet_send`, of a message of this node, of one that came in, and of a `PTYPE_ERROR`
  | local (source destination : UInt32) (type : UInt8) (session : Int32) (buffer : Buffer)
  | forward (source destination : UInt32) (type : UInt8) (session : Int32) (msg : Bytes)
  | error (source destination : UInt32) (session : Int32)
  -- the cookie of a message that came in would start before it
  | short (sz : ℕ)
  -- `skynet_free` of a payload
  | free (buffer : Buffer)
  -- `skynet_socket_start`, the byte of `handshake`, and `skynet_socket_close`
  | start (fd : ℤ)
  | handshake (fd : ℤ)
  | close (fd : ℤ)
  -- to the slave
  | query (name : Bytes)
  | down (id : UInt8)
  deriving DecidableEq, Repr

/-- How a message names its destination. -/
inductive Addr where
  | handle (h : UInt32)
  | name (n : Bytes)
  deriving DecidableEq, Repr

/-- A message that came to be sent to another harbor, and whether its name was known then. -/
structure Sent where
  source : UInt32
  addr : Addr
  type : UInt8
  session : Int32
  bytes : Bytes
  known : Bool
  deriving DecidableEq, Repr

/-- `struct harbor`; and what happened so far, the messages that came, whose payloads are numbered
in that order, the harbors whose connection is closed, and the handle that made each name known. -/
structure State where
  id : UInt8
  slave : UInt32
  map : Bytes → KeyValue
  s : UInt8 → Slave
  log : List Out
  sent : List Sent
  closed : UInt8 → Bool
  first : Bytes → UInt32

def State.emit (h : State) (outs : List Out) : State := { h with log := h.log ++ outs }

def State.setSlave (h : State) (id : UInt8) (sl : Slave) : State :=
  { h with s := Function.update h.s id sl }

def State.setName (h : State) (name : Bytes) (node : KeyValue) : State :=
  { h with map := Function.update h.map name node }

/-- `release_queue`. -/
def releaseQueue (queue : Option (List HarborMsg)) : List Out :=
  (queue.getD []).map fun m => .free m.buffer

/-- `close_harbor`. -/
def closeHarbor (id : UInt8) (h : State) : State :=
  let s := h.s id
  let h := h.setSlave id { s with status := .down, queue := none }
  let h := h.emit ((if s.fd ≠ 0 then [.close s.fd] else []) ++ releaseQueue s.queue)
  { h with closed := Function.update h.closed id true }

/-- `header_to_message`. -/
def headerToMessage (header : RemoteMessageHeader) : Bytes :=
  Endian.be 4 header.source.toNat ++ Endian.be 4 header.destination.toNat ++
    Endian.be 4 header.session.toNat

/-- `message_to_header`. -/
def messageToHeader (message : Bytes) : RemoteMessageHeader where
  source := .ofNat (Endian.ofBe (message.take 4))
  destination := .ofNat (Endian.ofBe ((message.drop 4).take 4))
  session := .ofNat (Endian.ofBe ((message.drop 8).take 4))

/-- The bytes that `send_remote` writes for a message. -/
def sendbuf (m : HarborMsg) : Bytes :=
  Framing.frame 4 (m.buffer.bytes ++ headerToMessage m.header)

/-- `send_remote`. -/
def sendRemote (id : UInt8) (fd : ℤ) (m : HarborMsg) : List Out :=
  if m.buffer.bytes.length + HEADER_COOKIE_LENGTH > UINT32_MAX then [.tooLarge m]
  else [.remote id fd m]

/-- `forward_local_messsage`, where `fails` says which of the calls of `skynet_send` find nobody. -/
def forwardLocalMessage (fails : ℕ → Bool) (msg : Bytes) (h : State) : State :=
  if msg.length < HEADER_COOKIE_LENGTH then h.emit [.short msg.length]
  else
    let header := messageToHeader (msg.drop (msg.length - HEADER_COOKIE_LENGTH))
    let type := harborOf header.destination
    let destination := header.destination &&& HANDLE_MASK ||| high h.id
    let session := header.session.toInt32
    let msg := msg.take (msg.length - HEADER_COOKIE_LENGTH)
    h.emit (.forward header.source destination type session msg ::
      if fails h.log.length ∧ type ≠ PTYPE_ERROR then [.error destination header.source session]
      else [])

/-- What is written and freed of a queue for a harbor that is connected. -/
def drain (id : UInt8) (fd : ℤ) (queue : List HarborMsg) : List Out :=
  queue.flatMap fun m => sendRemote id fd m ++ [.free m.buffer]

/-- `dispatch_name_queue`, of the queue of a name. -/
def dispatchNameQueue (name : Bytes) (queue : List HarborMsg) (h : State) : State :=
  let node := h.map name
  let handle := node.value
  let id := harborOf handle
  let s := h.s id
  if s.fd = 0 then
    if s.status = .down then h
    else
      let all := s.queue.getD [] ++ queue
      let h := h.setName name { node with queue := if s.queue.isNone then none else some [] }
      -- the harbor_id is local
      if id = harborOf h.slave then
        (h.setSlave id { s with queue := none }).emit (all.map fun m =>
          .local m.header.source handle (harborOf m.header.destination) m.header.session.toInt32
            m.buffer)
      else h.setSlave id { s with queue := some all }
  else
    (h.setName name { node with queue := some [] }).emit (drain id s.fd (queue.map fun m =>
      { m with header.destination := m.header.destination ||| (handle &&& HANDLE_MASK) }))

/-- `dispatch_queue`; where it is called `fd` is not zero. -/
def dispatchQueue (id : UInt8) (h : State) : State :=
  let s := h.s id
  match s.queue with
  | none => h
  | some queue => (h.setSlave id { s with queue := none }).emit (drain id s.fd queue)

/-- The case of `STATUS_CONTENT`; what is left of the buffer, if the loop goes on. -/
def pushContent (fails : ℕ → Bool) (id : UInt8) (buffer : Bytes) (h : State) :
    State × Option Bytes :=
  let s := h.s id
  let need := s.length - s.part.length
  if buffer.length < need then (h.setSlave id { s with part := s.part ++ buffer }, none)
  else
    let h := forwardLocalMessage fails (s.part ++ buffer.take need) h
    (h.setSlave id { s with length := 0, part := [], status := .header },
      if buffer.drop need = [] then none else some (buffer.drop need))

/-- The case of `STATUS_HEADER`. -/
def pushHeader (fails : ℕ → Bool) (id : UInt8) (buffer : Bytes) (h : State) :
    State × Option Bytes :=
  let s := h.s id
  let need := 4 - s.part.length
  if buffer.length < need then (h.setSlave id { s with part := s.part ++ buffer }, none)
  else
    let size := s.part ++ buffer.take need
    let buffer := buffer.drop need
    -- big endian 4 bytes length, the first one must be 0
    if size.head? ≠ some 0 then (closeHarbor id (h.setSlave id { s with part := size }), none)
    else
      let length := Endian.ofBe size.tail
      let h := h.setSlave id { s with length := length, part := [], status := .content }
      if buffer = [] then (h, none) else pushContent fails id buffer h

/-- The case of `STATUS_HANDSHAKE`; the socket server gives no empty data. -/
def pushHandshake (fails : ℕ → Bool) (id : UInt8) (buffer : Bytes) (h : State) :
    State × Option Bytes :=
  match buffer with
  | [] => (h, none)
  | remoteId :: buffer =>
    if remoteId ≠ id then (closeHarbor id h, none)
    else
      let h := dispatchQueue id (h.setSlave id { h.s id with status := .header })
      if buffer = [] then (h, some []) else pushHeader fails id buffer h

/-- The loop of `push_socket_data`, with as many rounds as a buffer can need. -/
def pushLoop (fails : ℕ → Bool) (id : UInt8) : ℕ → Bytes → State → State
  | 0, _, h => h
  | fuel + 1, buffer, h =>
    let r := match (h.s id).status with
      | .handshake => pushHandshake fails id buffer h
      | .header => pushHeader fails id buffer h
      | .content => pushContent fails id buffer h
      | .wait | .down => (h, none)
    match r.2 with
    | none => r.1
    | some buffer => pushLoop fails id fuel buffer r.1

/-- `harbor_id`, and the search of `push_socket_data`. -/
def State.harborId (h : State) (fd : ℤ) : Option UInt8 :=
  ((List.range 255).map fun i => UInt8.ofNat (i + 1)).find? fun id => (h.s id).fd = fd

/-- `push_socket_data`. -/
def pushSocketData (fails : ℕ → Bool) (fd : ℤ) (buffer : Bytes) (h : State) : State :=
  match h.harborId fd with
  | none => h
  | some id => pushLoop fails id (buffer.length + 2) buffer h

/-- `update_name`. -/
def updateName (name : Bytes) (handle : UInt32) (h : State) : State :=
  let node := h.map name
  let h := { h with first := if node.value = 0 then Function.update h.first name handle else h.first }
  let h := h.setName name { node with value := handle }
  match node.queue with
  | none => h
  | some queue =>
    let h := dispatchNameQueue name queue h
    (h.emit (releaseQueue (h.map name).queue)).setName name { h.map name with queue := none }

/-- `remote_send_handle`, and whether it keeps the payload. -/
def remoteSendHandle (source destination : UInt32) (type : UInt8) (session : Int32)
    (buffer : Buffer) (h : State) : State × Bool :=
  let id := harborOf destination
  if id = h.id then
    -- local message
    (h.emit [.local source destination type session buffer], true)
  else
    let s := h.s id
    let header := ⟨source, high type ||| (destination &&& HANDLE_MASK), session.toUInt32⟩
    if s.fd = 0 ∨ s.status = .handshake then
      if s.status = .down then
        -- throw an error return to source
        (h.emit [.error destination source 0], false)
      else (h.setSlave id { s with queue := some (s.queue.getD [] ++ [⟨header, buffer⟩]) }, true)
    else (h.emit (sendRemote id s.fd ⟨header, buffer⟩), false)

/-- `remote_send_name`. -/
def remoteSendName (source : UInt32) (name : Bytes) (type : UInt8) (session : Int32)
    (buffer : Buffer) (h : State) : State × Bool :=
  let node := h.map name
  if node.value = 0 then
    let header := ⟨source, high type, session.toUInt32⟩
    ((h.setName name { node with queue := some (node.queue.getD [] ++ [⟨header, buffer⟩]) }).emit
      [.query (name.takeWhile (· ≠ 0))], true)
  else remoteSendHandle source node.value type session buffer h

/-- Whether the name of a message is known; a handle needs none. -/
def State.knows (h : State) : Addr → Bool
  | .handle _ => true
  | .name n => (h.map n).value ≠ 0

/-- The end of `mainloop`: a remote message out. -/
def send (source : UInt32) (addr : Addr) (type : UInt8) (session : Int32) (bytes : Bytes)
    (h : State) : State :=
  let buffer := ⟨h.sent.length, bytes⟩
  let h := { h with sent := h.sent ++ [⟨source, addr, type, session, bytes, h.knows addr⟩] }
  let r := match addr with
    | .handle destination => remoteSendHandle source destination type session buffer h
    | .name name => remoteSendName source name type session buffer h
  if r.2 then r.1 else r.1.emit [.free buffer]

/-- The commands `S` and `A` of `harbor_command`. -/
def connect (accept : Bool) (fd id : ℤ) (h : State) : State :=
  if fd = 0 ∨ id ≤ 0 ∨ id ≥ 256 then h
  else
    let id := UInt8.ofNat id.toNat
    let s := h.s id
    if s.fd ≠ 0 then h
    else
      let h := h.emit [.start fd, .handshake fd]
      if accept then dispatchQueue id (h.setSlave id { s with fd := fd, status := .header })
      else h.setSlave id { s with fd := fd, status := .handshake }

/-- A `SKYNET_SOCKET_TYPE_ERROR` or a `SKYNET_SOCKET_TYPE_CLOSE`. -/
def socketClose (fd : ℤ) (h : State) : State :=
  match h.harborId fd with
  | none => h
  | some id => { h.emit [.down id] with closed := Function.update h.closed id true }

inductive Label where
  | send (source : UInt32) (addr : Addr) (type : UInt8) (session : Int32) (bytes : Bytes)
  | name (name : Bytes) (source : UInt32)
  | connect (accept : Bool) (fd id : ℤ)
  | data (fd : ℤ) (buffer : Bytes)
  | close (fd : ℤ)
  deriving DecidableEq, Repr

/-- The key of a name, filled up with zeros. -/
def key (name : Bytes) : Bytes := name ++ List.replicate (GLOBALNAME_LENGTH - name.length) 0

/-- `mainloop`, for what the service can get: `skynet_harbor_send` refuses two types, the one of the
sockets is theirs alone, a handle of zero stands for a name, and neither the source of a message nor
the id of a socket is zero. -/
def step (fails : ℕ → Bool) (h : State) : Label → Option State
  | .send source addr type session bytes =>
    if type = PTYPE_SYSTEM ∨ type = PTYPE_HARBOR ∨ type = PTYPE_SOCKET ∨ addr = .handle 0 then none
    else some (send source addr type session bytes h)
  | .name name source =>
    if source = 0 then none
    else if name.length = 0 ∨ name.length ≥ GLOBALNAME_LENGTH then some h
    else some (updateName (key name) source h)
  | .connect accept fd id => some (connect accept fd id h)
  | .data fd buffer =>
    if fd = 0 ∨ buffer = [] then none else some (pushSocketData fails fd buffer h)
  | .close fd => if fd = 0 then none else some (socketClose fd h)

/-- `harbor_init`. -/
def init (id : UInt8) (slave : UInt32) : State :=
  ⟨id, slave, fun _ => ⟨0, none⟩, fun _ => ⟨0, none, .wait, 0, []⟩, [], [], fun _ => false,
    fun _ => 0⟩

def machine (fails : ℕ → Bool) (id : UInt8) (slave : UInt32) : Machine State Label :=
  ⟨init id slave, step fails⟩

end Harbor

/-!
## The ring of the harbor's messages (`service-src/service_harbor.c`)

What `malloc` gives has something in it, which comes with the call that asks for it. Where an `int`
overflows there is no next state.
-/

namespace Harbor

def DEFAULT_QUEUE_SIZE : ℕ := 1024

def INT_MAX : ℕ := 0x7fffffff

/-- `struct harbor_msg_queue`. -/
structure HarborMsgQueue where
  size : ℕ
  head : ℕ
  tail : ℕ
  data : ℕ → HarborMsg

/-- `new_queue`. -/
def newQueue (memory : ℕ → HarborMsg) : HarborMsgQueue := ⟨DEFAULT_QUEUE_SIZE, 0, 0, memory⟩

namespace HarborMsgQueue

variable (queue : HarborMsgQueue) (memory : ℕ → HarborMsg) (m : HarborMsg)

/-- The ring is copied to a larger buffer, without its free slot. -/
def expand : HarborMsgQueue where
  data i := if i < queue.size - 1 then queue.data ((i + queue.head) % queue.size) else memory i
  head := 0
  tail := queue.size - 1
  size := queue.size * 2

/-- The end of `push_queue_msg`. -/
def put : HarborMsgQueue :=
  { queue with
    data := Function.update queue.data queue.tail m
    tail := (queue.tail + 1) % queue.size }

/-- `push_queue_msg`. -/
def pushQueueMsg : Option HarborMsgQueue :=
  if (queue.tail + 1) % queue.size = queue.head then
    if INT_MAX < queue.size * 2 then none else some ((queue.expand memory).put m)
  else some (queue.put m)

/-- `push_queue`. -/
def pushQueue (buffer : Buffer) (header : RemoteMessageHeader) : Option HarborMsgQueue :=
  queue.pushQueueMsg memory ⟨header, buffer⟩

/-- `pop_queue`, with what the slot has that it gives. -/
def popQueue : Option HarborMsg × HarborMsgQueue :=
  if queue.head = queue.tail then (none, queue)
  else (some (queue.data queue.head), { queue with head := (queue.head + 1) % queue.size })

end HarborMsgQueue

/-- A call of `push_queue`, or of `pop_queue`. -/
inductive QueueOp
  | push (buffer : Buffer) (header : RemoteMessageHeader) (memory : ℕ → HarborMsg)
  | pop

/-- What the calls of `pop_queue` return. -/
def HarborMsgQueue.pops : HarborMsgQueue → List QueueOp → Option (List (Option HarborMsg))
  | _, [] => some []
  | queue, .push buffer header memory :: ops => do pops (← queue.pushQueue memory buffer header) ops
  | queue, .pop :: ops => do return queue.popQueue.1 :: (← pops queue.popQueue.2 ops)

end Harbor

end SkynetGame
