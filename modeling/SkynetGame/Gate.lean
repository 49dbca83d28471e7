import SkynetGame.Lib.Framing
import SkynetGame.Lib.Run

/-!
# The gate (`service-src/service_gate.c`, `service-src/databuffer.h`)

The chunks of a connection are in a chain of messages of a pool that all connections share. What
the socket threads do is left out, and `hashid` is a map of the ids of the connections. A failed
assertion, and the use of a message that is not there, end the run (`crashed`).
-/

namespace SkynetGame

namespace Gate

open Framing (packages rest)

def MESSAGEPOOL : ℕ := 1023

/-- `struct message`; its size is that of the buffer, and a buffer that was freed is empty. -/
structure Message where
  buffer : Bytes
  next : Option ℕ
  deriving DecidableEq, Repr, Inhabited

/-- `struct databuffer`. -/
structure Databuffer where
  header : ℤ
  offset : ℕ
  size : ℤ
  head : Option ℕ
  tail : Option ℕ
  deriving DecidableEq, Repr

/-- What `memset` makes of it. -/
def Databuffer.zero : Databuffer := ⟨0, 0, 0, none, none⟩

/-- `struct messagepool`, with the messages of the lists that were allocated, `count` of them. -/
structure Messagepool where
  mem : ℕ → Message
  count : ℕ
  freelist : Option ℕ

def Messagepool.next (mp : Messagepool) (m : ℕ) : Option ℕ := (mp.mem m).next

/-- An `int` of C. -/
def cint (n : ℤ) : ℤ := n.bmod (2 ^ 32)

/-- `_return_message`. -/
def returnMessage (db : Databuffer) (mp : Messagepool) : Option (Databuffer × Messagepool) :=
  match db.head with
  | none => none
  | some m =>
    let mp' := { mp with mem := Function.update mp.mem m ⟨[], mp.freelist⟩, freelist := some m }
    match mp.next m with
    | none =>
      -- assert(db->tail == m)
      if db.tail = some m then some ({ db with head := none, tail := none }, mp') else none
    | some n => some ({ db with head := some n }, mp')

/-- The loop of `databuffer_read`, over as many messages as there can be. -/
def readLoop : ℕ → Databuffer → Messagepool → ℕ → Option (Bytes × Databuffer × Messagepool)
  | 0, _, _, _ => none
  | fuel + 1, db, mp, sz =>
    match db.head with
    | none => none
    | some current =>
      let buffer := (mp.mem current).buffer.drop db.offset
      if buffer.length > sz then
        some (buffer.take sz, { db with offset := db.offset + sz }, mp)
      else if buffer.length = sz then
        (returnMessage { db with offset := 0 } mp).map fun r => (buffer, r)
      else
        (returnMessage db mp).bind fun r =>
          (readLoop fuel { r.1 with offset := 0 } r.2 (sz - buffer.length)).map fun r' =>
            (buffer ++ r'.1, r'.2)

def databufferRead (db : Databuffer) (mp : Messagepool) (sz : ℕ) :
    Option (Bytes × Databuffer × Messagepool) :=
  -- assert(db->size >= sz)
  if db.size ≥ sz then readLoop (mp.count + 1) { db with size := db.size - sz } mp sz else none

/-- A message of the free list, or the first one of a new list of them. -/
def allocMessage (mp : Messagepool) : ℕ × Messagepool :=
  match mp.freelist with
  | some m => (m, { mp with freelist := mp.next m })
  | none =>
    (mp.count,
      { mem := fun i => if mp.count ≤ i ∧ i < mp.count + MESSAGEPOOL then
          ⟨[], if i + 1 < mp.count + MESSAGEPOOL then some (i + 1) else none⟩ else mp.mem i
        count := mp.count + MESSAGEPOOL
        freelist := some (mp.count + 1) })

def databufferPush (db : Databuffer) (mp : Messagepool) (data : Bytes) :
    Option (Databuffer × Messagepool) :=
  let m := (allocMessage mp).1
  let mp := (allocMessage mp).2
  let mp := { mp with mem := Function.update mp.mem m ⟨data, none⟩ }
  let size := cint (db.size + data.length)
  match db.head, db.tail with
  | none, none => some ({ db with size := size, head := some m, tail := some m }, mp)
  -- assert(db->tail == NULL)
  | none, some _ => none
  | some _, none => none
  | some _, some t =>
    some ({ db with size := size, tail := some m },
      { mp with mem := Function.update mp.mem t { mp.mem t with next := some m } })

/-- `databuffer_readheader`. -/
def databufferReadheader (db : Databuffer) (mp : Messagepool) (headerSize : ℕ) :
    Option (ℤ × Databuffer × Messagepool) :=
  let pending (db : Databuffer) : ℤ := if db.size < db.header then -1 else db.header
  if db.header = 0 then
    if db.size < headerSize then some (-1, db, mp)
    else (databufferRead db mp headerSize).map fun r =>
      -- big-endian
      let db := { r.2.1 with header := cint (Endian.ofBe r.1) }
      (pending db, db, r.2.2)
  else some (pending db, db, mp)

def databufferReset (db : Databuffer) : Databuffer := { db with header := 0 }

/-- `databuffer_clear`, over as many messages as there can be. -/
def clearLoop : ℕ → Databuffer → Messagepool → Option Messagepool
  | 0, _, _ => none
  | fuel + 1, db, mp =>
    match db.head with
    | none => some mp
    | some _ => (returnMessage db mp).bind fun r => clearLoop fuel r.1 r.2

def databufferClear (db : Databuffer) (mp : Messagepool) : Option (Databuffer × Messagepool) :=
  (clearLoop (mp.count + 1) db mp).map fun mp => (Databuffer.zero, mp)

/-- Who gets the messages of a connection. -/
inductive Receiver where
  | broker (handle : ℕ)
  | agent (handle client : ℕ)
  | watchdog (handle : ℕ)
  deriving DecidableEq, Repr

/-- What stands before a frame in its message: the watchdog gets a text. -/
def Receiver.lead (fd : ℕ) : Receiver → Bytes
  | .watchdog _ => Bytes.ascii s!"{fd} data "
  | _ => []

/-- A message that was sent on for a connection. -/
structure Sent where
  fd : ℕ
  receiver : Receiver
  data : Bytes
  deriving DecidableEq, Repr

structure Connection where
  agent : ℕ
  client : ℕ
  buffer : Databuffer
  deriving DecidableEq, Repr

/-- `_forward`; with nobody to receive it nothing is read. -/
def forward (receiver : Option Receiver) (fd : ℕ) (db : Databuffer) (mp : Messagepool)
    (size : ℕ) : Option (List Sent × Databuffer × Messagepool) :=
  match receiver with
  | none => some ([], db, mp)
  | some r => (databufferRead db mp size).map fun x => ([⟨fd, r, r.lead fd ++ x.1⟩], x.2)

/-- What a call of `dispatch_message` comes to: the messages sent on, the buffer, the pool and
whether the connection is closed for a frame that is too long. -/
structure Dispatched where
  sent : List Sent
  db : Databuffer
  mp : Messagepool
  closed : Bool

/-- The loop of `dispatch_message`, which takes a byte at least each time it goes round. -/
def dispatchLoop (receiver : Option Receiver) (fd headerSize : ℕ) :
    ℕ → Databuffer → Messagepool → Option Dispatched
  | 0, _, _ => none
  | fuel + 1, db, mp =>
    (databufferReadheader db mp headerSize).bind fun r =>
      if r.1 < 0 then some ⟨[], r.2.1, r.2.2, false⟩
      else if r.1 = 0 then dispatchLoop receiver fd headerSize fuel r.2.1 r.2.2
      else if r.1 ≥ 0x1000000 then
        (databufferClear r.2.1 r.2.2).map fun x => ⟨[], x.1, x.2, true⟩
      else
        (forward receiver fd r.2.1 r.2.2 r.1.toNat).bind fun x =>
          (dispatchLoop receiver fd headerSize fuel (databufferReset x.2.1) x.2.2).map fun d =>
            { d with sent := x.1 ++ d.sent }

def dispatchMessage (receiver : Option Receiver) (fd headerSize : ℕ) (db : Databuffer)
    (mp : Messagepool) (data : Bytes) : Option Dispatched :=
  (databufferPush db mp data).bind fun r =>
    dispatchLoop receiver fd headerSize (r.1.size.toNat + 2) r.1 r.2

/-- The frames that are to be sent on: no empty ones, and those before one that is too long. -/
def frames (ps : List Bytes) : List Bytes :=
  (ps.takeWhile (·.length < 0x1000000)).filter (· ≠ [])

/-- The messages that frames of a connection make for who receives them; for nobody, none. -/
def messages (receiver : Option Receiver) (fd : ℕ) (ps : List Bytes) : List Sent :=
  receiver.elim [] fun r => ps.map fun p => ⟨fd, r, r.lead fd ++ p⟩

/-- The gate; and of each connection the bytes that came since it was opened, whether the gate
closed it, and the messages that are due for the frames that were whole so far, each for who was
set to receive it then. -/
structure State where
  broker : ℕ
  watchdog : ℕ
  headerSize : ℕ
  mp : Messagepool
  conn : ℕ → Option Connection
  sent : List Sent
  stream : ℕ → Bytes
  closed : ℕ → Bool
  due : ℕ → List Sent
  crashed : Bool

/-- Who receives the frames of a connection now. -/
def State.receiver (s : State) (c : Connection) : Option Receiver :=
  if s.broker ≠ 0 then some (.broker s.broker)
  else if c.agent ≠ 0 then some (.agent c.agent c.client)
  else if s.watchdog ≠ 0 then some (.watchdog s.watchdog)
  else none

inductive Label where
  | data (fd : ℕ) (chunk : Bytes)
  | accept (fd : ℕ)
  | close (fd : ℕ)
  | forward (fd agent client : ℕ)
  | broker (handle : ℕ)
  deriving DecidableEq, Repr

/-- The frames that a chunk completes. -/
def State.completed (s : State) (fd : ℕ) (chunk : Bytes) : List Bytes :=
  packages s.headerSize (rest s.headerSize (s.stream fd) ++ chunk)

/-- A chunk of a connection. -/
def data (fd : ℕ) (chunk : Bytes) (c : Connection) (s : State) : State :=
  match dispatchMessage (s.receiver c) fd s.headerSize c.buffer s.mp chunk with
  | none => { s with crashed := true }
  | some d =>
    { s with mp := d.mp
             conn := Function.update s.conn fd (some { c with buffer := d.db })
             sent := s.sent ++ d.sent
             stream := Function.update s.stream fd (s.stream fd ++ chunk)
             closed := Function.update s.closed fd (s.closed fd || d.closed)
             due := Function.update s.due fd
               (s.due fd ++ messages (s.receiver c) fd (frames (s.completed fd chunk))) }

def step (s : State) (l : Label) : Option State :=
  if s.crashed then none
  else match l with
    | .data fd chunk => some (match s.conn fd with
      | some c => data fd chunk c s
      | none => s)
    | .accept fd =>
      -- the ids of the socket server are unique
      if (s.conn fd).isSome then none
      else some { s with conn := Function.update s.conn fd (some ⟨0, 0, .zero⟩)
                         stream := Function.update s.stream fd []
                         closed := Function.update s.closed fd false }
    | .close fd => some (match s.conn fd with
      | none => s
      | some c => match databufferClear c.buffer s.mp with
        | none => { s with crashed := true }
        | some r => { s with mp := r.2, conn := Function.update s.conn fd none })
    | .forward fd agent client => some (match s.conn fd with
      | none => s
      | some c => { s with
          conn := Function.update s.conn fd (some { c with agent := agent, client := client }) })
    | .broker handle => some { s with broker := handle }

/-- `gate_init` has let a header size of 2 or 4 through. -/
def init (headerSize watchdog : ℕ) : State :=
  ⟨0, watchdog, headerSize, ⟨fun _ => default, 0, none⟩, fun _ => none, [], fun _ => [],
    fun _ => false, fun _ => [], false⟩

def machine (headerSize watchdog : ℕ) : Machine State Label := ⟨init headerSize watchdog, step⟩

end Gate

end SkynetGame
