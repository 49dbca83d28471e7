import SkynetGame.Lib.Bytes
import SkynetGame.Lib.Ring
import SkynetGame.Lib.Run

/-!
# Packages out of the chunks of sockets (`lualib-src/lua-netpack.c`)

A queue has the packages that wait to be popped, in a ring, and the unfinished package of each fd,
in a chain of the hash of the fd. The memory of a buffer is the list of its bytes. When a ring grows,
the old queue is left empty and nobody uses it any more.
-/

namespace SkynetGame

namespace Netpack

def QUEUESIZE : ℕ := 1024

def HASHSIZE : ℕ := 4096

/-- `struct netpack`; its size is that of the buffer. -/
structure Pack where
  id : ℕ
  buffer : Bytes
  deriving DecidableEq, Repr, Inhabited

/-- `struct uncomplete`; `buffer` has the `read` bytes that were copied so far. -/
structure Uncomplete where
  id : ℕ
  size : ℕ
  buffer : Bytes
  read : ℤ
  header : UInt8
  deriving DecidableEq, Repr

/-- `struct queue`. -/
structure Queue where
  cap : ℕ
  head : ℕ
  tail : ℕ
  hash : ℕ → List Uncomplete
  queue : ℕ → Pack

def hashFd (fd : ℕ) : ℕ := (((fd >>> 24) + (fd >>> 12) + fd) % 2 ^ 32) % HASHSIZE

/-- The search in a chain, which takes the entry out. -/
def unlink (fd : ℕ) : List Uncomplete → Option (Uncomplete × List Uncomplete)
  | [] => none
  | uc :: next =>
    if uc.id = fd then some (uc, next)
    else (unlink fd next).map fun r => (r.1, uc :: r.2)

def findUncomplete (q : Option Queue) (fd : ℕ) : Option (Uncomplete × Queue) :=
  match q with
  | none => none
  | some q => (unlink fd (q.hash (hashFd fd))).map fun r =>
      (r.1, { q with hash := Function.update q.hash (hashFd fd) r.2 })

def getQueue (q : Option Queue) : Queue := q.getD ⟨QUEUESIZE, 0, 0, fun _ => [], default⟩

def expandQueue (q : Queue) : Queue :=
  { cap := q.cap + QUEUESIZE
    head := 0
    tail := q.cap
    hash := q.hash
    queue := fun i => q.queue ((q.head + i) % q.cap) }

def pushData (q : Option Queue) (fd : ℕ) (buffer : Bytes) : Queue :=
  let q := getQueue q
  let q' := { q with queue := Function.update q.queue q.tail ⟨fd, buffer⟩
                     tail := if q.tail + 1 ≥ q.cap then q.tail + 1 - q.cap else q.tail + 1 }
  if q'.head = q'.tail then expandQueue q' else q'

/-- `save_uncomplete`, with what its callers then set; `filter_data_` puts an entry back the same
way. -/
def saveUncomplete (q : Option Queue) (uc : Uncomplete) : Queue :=
  let q := getQueue q
  { q with hash := Function.update q.hash (hashFd uc.id) (uc :: q.hash (hashFd uc.id)) }

def readSize (b₀ b₁ : UInt8) : ℕ := b₀.toNat <<< 8 ||| b₁.toNat

/-- `push_more`; it is called with a byte at least. -/
def pushMore (q : Option Queue) (fd : ℕ) (buffer : Bytes) : Option Queue :=
  match buffer with
  | [] => q
  | [b] => some (saveUncomplete q ⟨fd, 0, [], -1, b⟩)
  | b₀ :: b₁ :: buffer =>
    if buffer.length < readSize b₀ b₁ then
      some (saveUncomplete q ⟨fd, readSize b₀ b₁, buffer, buffer.length, 0⟩)
    else
      let q := pushData q fd (buffer.take (readSize b₀ b₁))
      if buffer.drop (readSize b₀ b₁) = [] then some q
      else pushMore (some q) fd (buffer.drop (readSize b₀ b₁))
termination_by buffer.length
decreasing_by
  rw [List.length_drop, List.length_cons, List.length_cons]
  omega

/-- What `filter` returns next to the queue. -/
inductive Event where
  | none
  | data (fd : ℕ) (buffer : Bytes)
  | more
  | error (fd : ℕ)
  | opened (fd : ℕ)
  | close (fd : ℕ)
  | warning (fd : ℕ)
  deriving DecidableEq, Repr

def closeUncomplete (q : Option Queue) (fd : ℕ) : Option Queue :=
  match findUncomplete q fd with
  | some (_, q') => some q'
  | none => q

/-- A header of which one byte was there is read to its end. -/
def takeHeader (uc : Uncomplete) (buffer : Bytes) : Uncomplete × Bytes :=
  if uc.read < 0 then
    ({ uc with size := readSize uc.header (buffer.headD 0), buffer := [], read := 0 },
      buffer.drop 1)
  else (uc, buffer)

/-- `filter_data_` with an unfinished package, whose header is there. -/
def fillUncomplete (q : Queue) (uc : Uncomplete) (fd : ℕ) (buffer : Bytes) :
    Option Queue × Event :=
  let need := uc.size - uc.read.toNat
  if buffer.length < need then
    (some (saveUncomplete (some q)
      { uc with buffer := uc.buffer ++ buffer, read := uc.read + buffer.length }), .none)
  else
    let pack := uc.buffer ++ buffer.take need
    if buffer.drop need = [] then (some q, .data fd pack)
    else (pushMore (some (pushData (some q) fd pack)) fd (buffer.drop need), .more)

/-- `filter_data_`, with a chunk that is not empty. -/
def filterData (q : Option Queue) (fd : ℕ) (buffer : Bytes) : Option Queue × Event :=
  match findUncomplete q fd with
  | some (uc, q') =>
    fillUncomplete q' (takeHeader uc buffer).1 fd (takeHeader uc buffer).2
  | none => match buffer with
    | [] => (q, .none)
    | [b] => (some (saveUncomplete q ⟨fd, 0, [], -1, b⟩), .none)
    | b₀ :: b₁ :: buffer =>
      if buffer.length < readSize b₀ b₁ then
        (some (saveUncomplete q ⟨fd, readSize b₀ b₁, buffer, buffer.length, 0⟩), .none)
      else if buffer.length = readSize b₀ b₁ then (q, .data fd buffer)
      else (pushMore (some (pushData q fd (buffer.take (readSize b₀ b₁)))) fd
        (buffer.drop (readSize b₀ b₁)), .more)

/-- The messages of a socket. -/
inductive Message where
  | data (fd : ℕ) (buffer : Bytes)
  | connect (fd : ℕ)
  | close (fd : ℕ)
  | accept (fd : ℕ)
  | error (fd : ℕ)
  | warning (fd : ℕ)
  deriving DecidableEq, Repr

def lfilter (q : Option Queue) : Message → Option Queue × Event
  | .data fd buffer => filterData q fd buffer
  | .connect _ => (q, .none)
  | .close fd => (closeUncomplete q fd, .close fd)
  | .accept fd => (q, .opened fd)
  | .error fd => (closeUncomplete q fd, .error fd)
  | .warning fd => (q, .warning fd)

def lpop (q : Option Queue) : Option (Pack × Queue) :=
  match q with
  | none => none
  | some q =>
    if q.head = q.tail then none
    else some (q.queue q.head, { q with head := if q.head + 1 ≥ q.cap then 0 else q.head + 1 })

/-- `write_size` -/
def writeSize (len : ℕ) : Bytes := [UInt8.ofNat (len >>> 8 &&& 0xff), UInt8.ofNat (len &&& 0xff)]

/-- `lpack`: what it puts into its buffer. -/
def lpack (msg : Bytes) : Except String Bytes :=
  if 0x10000 ≤ msg.length then
    .error s!"Invalid size (too long) of data : {(BitVec.ofNat 32 msg.length).toInt}"
  else .ok (writeSize msg.length ++ msg)

/-- A package that was delivered, by `data` or out of the queue. -/
structure Delivery where
  direct : Bool
  fd : ℕ
  package : Bytes
  deriving DecidableEq, Repr

/-- The queue, the bytes of each fd since it was opened, those of its ended streams, and the
deliveries so far. -/
structure State where
  q : Option Queue
  stream : ℕ → Bytes
  ended : ℕ → List Bytes
  delivered : List Delivery

inductive Label where
  | message (m : Message)
  | pop
  deriving DecidableEq, Repr

/-- What a message delivers. -/
def Event.delivery : Event → List Delivery
  | .data fd buffer => [⟨true, fd, buffer⟩]
  | _ => []

def step (s : State) : Label → Option State
  | .message m =>
    let s' := { s with q := (lfilter s.q m).1
                       delivered := s.delivered ++ (lfilter s.q m).2.delivery }
    match m with
    | .data fd buffer =>
      if buffer = [] then none
      else some { s' with stream := Function.update s.stream fd (s.stream fd ++ buffer) }
    | .close fd | .error fd =>
      some { s' with stream := Function.update s.stream fd []
                     ended := Function.update s.ended fd (s.ended fd ++ [s.stream fd]) }
    | _ => some s'
  | .pop => (lpop s.q).map fun r =>
      { s with q := some r.2, delivered := s.delivered ++ [⟨false, r.1.id, r.1.buffer⟩] }

def init : State := ⟨none, fun _ => [], fun _ => [], []⟩

def machine : Machine State Label := ⟨init, step⟩

end Netpack

end SkynetGame
