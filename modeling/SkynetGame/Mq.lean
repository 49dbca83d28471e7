import SkynetGame.Lib.Ring
import SkynetGame.Lib.LinkedQueue

/-!
# Message queues (`skynet_mq.c`)

The queues live in a memory addressed by queue pointers, next to the global list that is threaded
through their `next` fields. Each locked section of the source is one function here. A failed
assertion, a read or write of a queue outside the memory's live ones and an `int` that overflows
are recorded as the memory's `fault`; the first one stays.
-/

namespace SkynetGame

/-- `struct skynet_message`. -/
structure SkynetMessage where
  source : ℕ
  session : ℤ
  data : ℕ
  sz : ℕ
deriving DecidableEq, Repr, Inhabited

/-- `DEFAULT_QUEUE_SIZE`. -/
def defaultQueueSize : ℕ := 64

/-- `MQ_IN_GLOBAL`. -/
def mqInGlobal : ℕ := 1

/-- `MQ_OVERLOAD`. -/
def mqOverload : ℕ := 1024

/-- `INT_MAX`. -/
def intMax : ℕ := 2 ^ 31 - 1

/-- `struct message_queue`; `freed` says that its memory was given back. -/
structure MessageQueue where
  handle : ℕ
  cap : ℕ
  head : ℕ
  tail : ℕ
  release : ℕ
  inGlobal : ℕ
  overload : ℕ
  overloadThreshold : ℕ
  queue : ℕ → SkynetMessage
  next : Option ℕ
  freed : Bool

/-- What an assertion, the allocator or the arithmetic of the C code would stop at. -/
inductive Fault
  /-- `assert(queue->next == NULL)` of `skynet_globalmq_push` -/
  | pushNext
  /-- `assert(mq == q->tail)` of `skynet_globalmq_pop` -/
  | popTail
  /-- `assert(queue->next == NULL)` of `_release` -/
  | releaseNext
  /-- `assert(q->release == 0)` of `skynet_mq_mark_release` -/
  | releaseTwice
  /-- `assert(ctx->init)` of `dispatch_message` -/
  | notInit
  /-- `assert(q == ctx->queue)` of `skynet_context_message_dispatch` -/
  | otherQueue
  /-- a queue that was freed, or never made, is read or written -/
  | deadQueue
  /-- `q->cap *= 2` of `expand_queue` leaves the `int` range -/
  | capOverflow
deriving DecidableEq, Repr

/-- The queues made so far, `nmq` of them, and the global list `Q`. -/
structure MqMem where
  mq : ℕ → MessageQueue
  nmq : ℕ
  head : Option ℕ
  tail : Option ℕ
  fault : Option Fault

namespace MessageQueue

/-- The messages waiting in the queue, first to leave first. -/
def waiting (q : MessageQueue) : List SkynetMessage := ringList q.queue q.cap q.head q.tail

/-- `skynet_mq_length`. -/
def length (q : MessageQueue) : ℕ := ringLen q.cap q.head q.tail

/-- The queue but for its link in the global list. -/
def unlinked (q : MessageQueue) : MessageQueue := { q with next := none }

/-- The `while` of `skynet_mq_pop`: double the threshold until it is no longer exceeded. -/
def raise : ℕ → (len overload threshold : ℕ) → ℕ × ℕ
  | 0, _, o, t => (o, t)
  | fuel + 1, len, o, t => if len > t then raise fuel len len (t * 2) else (o, t)

/-- The locked section of `skynet_mq_pop`. -/
def pop (q : MessageQueue) : MessageQueue × Option SkynetMessage :=
  if q.head ≠ q.tail then
    let head := ringNext q.cap q.head
    let r := raise (ringLen q.cap head q.tail) (ringLen q.cap head q.tail) q.overload
      q.overloadThreshold
    ({ q with head := head, overload := r.1, overloadThreshold := r.2 }, some (q.queue q.head))
  else
    -- reset overload_threshold when queue is empty
    ({ q with overloadThreshold := mqOverload, inGlobal := 0 }, none)

/-- `expand_queue`: the entries in order from cell zero, in twice the room. -/
def expandQueue (q : MessageQueue) : MessageQueue :=
  { q with
    queue := fun i => q.queue ((q.head + i) % q.cap)
    head := 0
    tail := q.cap
    cap := q.cap * 2 }

/-- The ring's part of `skynet_mq_push`, up to the check whether the ring is full. -/
def store (q : MessageQueue) (message : SkynetMessage) : MessageQueue :=
  { q with queue := Function.update q.queue q.tail message, tail := ringNext q.cap q.tail }

/-- The ring's part of `skynet_mq_push`. -/
def put (q : MessageQueue) (message : SkynetMessage) : MessageQueue :=
  if (q.store message).head = (q.store message).tail then (q.store message).expandQueue
  else q.store message

/-- `skynet_mq_overload`. -/
def takeOverload (q : MessageQueue) : MessageQueue × ℕ :=
  if q.overload ≠ 0 then ({ q with overload := 0 }, q.overload) else (q, 0)

/-- What `skynet_mq_create` puts into a new queue. -/
def create (handle : ℕ) : MessageQueue where
  handle := handle
  cap := defaultQueueSize
  head := 0
  tail := 0
  -- set in_global flag to avoid push it to global queue: skynet_context_new will do that
  inGlobal := mqInGlobal
  release := 0
  overload := 0
  overloadThreshold := mqOverload
  queue := fun _ => default
  next := none
  freed := false

/-- The indices of a queue stay inside its ring. -/
structure Fits (q : MessageQueue) : Prop where
  head_lt : q.head < q.cap
  tail_lt : q.tail < q.cap

end MessageQueue

namespace MqMem

/-- Record `f` unless `b` holds or something was recorded before. -/
def check (m : MqMem) (b : Bool) (f : Fault) : MqMem :=
  if b ∨ m.fault.isSome then m else { m with fault := some f }

/-- Queue `q` is there to be read and written. -/
def alive (m : MqMem) (q : ℕ) : Bool := decide (q < m.nmq) && !(m.mq q).freed

/-- Every access through a queue pointer. -/
def touch (m : MqMem) (q : ℕ) : MqMem := m.check (m.alive q) .deadQueue

/-- Overwrite queue `q`. -/
def write (m : MqMem) (q : ℕ) (x : MessageQueue) : MqMem :=
  { m with mq := Function.update m.mq q x }

/-- `skynet_globalmq_push`. -/
def skynetGlobalmqPush (m : MqMem) (q : ℕ) : MqMem :=
  let m := (m.touch q).check ((m.mq q).next = none) .pushNext
  match m.tail with
  | some t =>
    let m := m.touch t
    { m.write t { m.mq t with next := some q } with tail := some q }
  | none => { m with head := some q, tail := some q }

/-- `skynet_globalmq_pop`. -/
def skynetGlobalmqPop (m : MqMem) : MqMem × Option ℕ :=
  match m.head with
  | none => (m, none)
  | some q =>
    let m := m.touch q
    let n := (m.mq q).next
    let m := if n = none then { m.check (m.tail = some q) .popTail with tail := none } else m
    ({ m.write q { m.mq q with next := none } with head := n }, some q)

/-- `skynet_mq_create`. -/
def skynetMqCreate (m : MqMem) (handle : ℕ) : MqMem × ℕ :=
  ({ m.write m.nmq (.create handle) with nmq := m.nmq + 1 }, m.nmq)

/-- `skynet_mq_pop`. -/
def skynetMqPop (m : MqMem) (q : ℕ) : MqMem × Option SkynetMessage :=
  let m := m.touch q
  (m.write q (m.mq q).pop.1, (m.mq q).pop.2)

/-- `skynet_mq_push`. -/
def skynetMqPush (m : MqMem) (q : ℕ) (message : SkynetMessage) : MqMem :=
  let m := m.touch q
  let m := m.check (((m.mq q).put message).cap ≤ intMax) .capOverflow
  let x := (m.mq q).put message
  if x.inGlobal = 0 then (m.write q { x with inGlobal := mqInGlobal }).skynetGlobalmqPush q
  else m.write q x

/-- `skynet_mq_mark_release`. -/
def skynetMqMarkRelease (m : MqMem) (q : ℕ) : MqMem :=
  let m := (m.touch q).check ((m.mq q).release = 0) .releaseTwice
  let m := m.write q { m.mq q with release := 1 }
  if (m.mq q).inGlobal ≠ mqInGlobal then m.skynetGlobalmqPush q else m

/-- The locked section of `skynet_mq_release`: whether the caller is to drop the queue, which is
otherwise put back into the global list. -/
def skynetMqRelease (m : MqMem) (q : ℕ) : MqMem × Bool :=
  let m := m.touch q
  if (m.mq q).release ≠ 0 then (m, true) else (m.skynetGlobalmqPush q, false)

/-- `_release`. -/
def release (m : MqMem) (q : ℕ) : MqMem :=
  let m := (m.touch q).check ((m.mq q).next = none) .releaseNext
  m.write q { m.mq q with freed := true }

/-- `skynet_mq_overload`. -/
def skynetMqOverload (m : MqMem) (q : ℕ) : MqMem × ℕ :=
  let m := m.touch q
  (m.write q (m.mq q).takeOverload.1, (m.mq q).takeOverload.2)

/-- Before `skynet_mq_init` has handed out anything: no queue, an empty global list. -/
def skynetMqInit : MqMem where
  mq := fun _ => { MessageQueue.create 0 with freed := true }
  nmq := 0
  head := none
  tail := none
  fault := none

end MqMem

end SkynetGame
