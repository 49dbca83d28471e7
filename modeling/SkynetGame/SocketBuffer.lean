import SkynetGame.Lib.Bytes
import SkynetGame.Lib.NodePool

/-!
# The socket buffers of lualib-src/lua-socket.c

The bytes that came for a socket and were not read yet are in a chain of nodes, each with a message
block. The nodes come from a table that all sockets of a service share (`pool`): its first index has
the free ones. What a socket has is `struct socket_buffer`. A call that reads through a null pointer,
that fails an assertion or that asks Lua for a string of a negative length gives `none`.
-/

namespace SkynetGame

namespace SocketBuffer

def LARGE_PAGE_NODE : ℕ := 12

/-- `struct socket_buffer`. -/
structure Buffer where
  size : ℤ
  offset : ℕ
  head : Option ℕ
  tail : Option ℕ
  deriving DecidableEq, Repr

/-- `lnewbuffer`. -/
def Buffer.new : Buffer := ⟨0, 0, none, none⟩

/-- The buffers of the sockets, the nodes, and the length of the table `pool`. A node's value is its
message block, which is empty once it was freed. -/
structure State where
  sb : ℕ → Buffer
  pool : Pool Bytes
  tsz : ℕ

def State.init : State := ⟨fun _ => .new, .empty [], 0⟩

/-- A number stored into an `int`. -/
def toInt (n : ℤ) : ℤ := n.bmod (2 ^ 32)

def State.setBuffer (s : State) (id : ℕ) (b : Buffer) : State :=
  { s with sb := Function.update s.sb id b }

/-- The part of `lpushbuffer` that gets more nodes when none is free. -/
def refill (s : State) : State :=
  match s.pool.free with
  | some _ => s
  | none =>
    let tsz := if s.tsz = 0 then 1 else s.tsz
    let size := if tsz ≤ LARGE_PAGE_NODE - 3 then 8 <<< tsz else 8 <<< (LARGE_PAGE_NODE - 3)
    { s with pool := s.pool.grow [] size, tsz := tsz + 1 }

def lpushbuffer (s : State) (id : ℕ) (msg : Bytes) : Option (ℤ × State) :=
  let s := refill s
  let sb := s.sb id
  let size := toInt (sb.size + msg.length)
  match s.pool.free with
  | none => none
  | some freeNode =>
    let pool := s.pool.take freeNode msg
    match sb.head, sb.tail with
    | none, none =>
      some (size, { s with
        sb := Function.update s.sb id { sb with size, head := some freeNode, tail := some freeNode }
        pool })
    -- assert(sb->tail == NULL)
    | none, some _ => none
    | some _, none => none
    | some _, some t =>
      some (size, { s with
        sb := Function.update s.sb id { sb with size, tail := some freeNode }
        pool := pool.link t freeNode })

/-- `return_free_node`. -/
def returnFreeNode (s : State) (id : ℕ) : Option State :=
  let sb := s.sb id
  match sb.head with
  | none => none
  | some freeNode =>
    let head := s.pool.next freeNode
    some { s with
      sb := Function.update s.sb id
        { sb with offset := 0, head, tail := if head = none then none else sb.tail }
      pool := s.pool.release [] freeNode }

/-- `lua_pushlstring` of the first `n` bytes of a message. -/
def pushlstring (msg : Bytes) (n : ℤ) : Option Bytes := if n < 0 then none else some (msg.take n.toNat)

/-- `sb->offset += sz`. -/
def advance (s : State) (id : ℕ) (sz : ℤ) : State :=
  s.setBuffer id { s.sb id with offset := (s.sb id).offset + sz.toNat }

/-- The loop of `pop_lstring`, over as many nodes as there can be. -/
def popLoop : ℕ → State → ℕ → ℤ → ℤ → Option (Bytes × State)
  | 0, _, _, _, _ => none
  | fuel + 1, s, id, sz, skip =>
    match (s.sb id).head with
    -- assert(current)
    | none => none
    | some current =>
      let msg := (s.pool.val current).drop (s.sb id).offset
      let bytes : ℤ := msg.length
      if bytes ≥ sz then
        let out := if sz > skip then msg.take (sz - skip).toNat else []
        let s := advance s id sz
        if bytes = sz then (returnFreeNode s id).map fun s => (out, s) else some (out, s)
      else
        let realSz := sz - skip
        let out := if realSz > 0 then
          msg.take (if realSz < bytes then realSz else bytes).toNat else []
        (returnFreeNode s id).bind fun s =>
          if sz - bytes = 0 then some (out, s)
          else (popLoop fuel s id (sz - bytes) skip).map fun r => (out ++ r.1, r.2)

/-- `pop_lstring`. -/
def popLstring (s : State) (id : ℕ) (sz skip : ℤ) : Option (Bytes × State) :=
  match (s.sb id).head with
  | none => none
  | some current =>
    let msg := (s.pool.val current).drop (s.sb id).offset
    if sz < msg.length then
      (pushlstring msg (sz - skip)).map fun str => (str, advance s id sz)
    else if sz = msg.length then
      (pushlstring msg (sz - skip)).bind fun str => (returnFreeNode s id).map fun s => (str, s)
    else popLoop (s.pool.count + 1) s id sz skip

/-- `sb->size -= n`. -/
def shrink (s : State) (id : ℕ) (n : ℤ) : State :=
  s.setBuffer id { s.sb id with size := toInt ((s.sb id).size - n) }

/-- `lpopbuffer`: the string or nil, and the size. -/
def lpopbuffer (s : State) (id : ℕ) (sz : ℤ) : Option (Option Bytes × ℤ × State) :=
  let sz := toInt sz
  if (s.sb id).size < sz ∨ sz = 0 then some (none, (s.sb id).size, s)
  else (popLstring s id sz 0).map fun r =>
    let s := shrink r.2 id sz
    (some r.1, (s.sb id).size, s)

/-- `while(sb->head) return_free_node(L,2,sb)`, over as many nodes as there can be, with the bytes
that were in them. -/
def drain : ℕ → State → ℕ → Option (Bytes × State)
  | 0, _, _ => none
  | fuel + 1, s, id =>
    match (s.sb id).head with
    | none => some ([], s)
    | some current =>
      (returnFreeNode s id).bind fun s' =>
        (drain fuel s' id).map fun r => ((s.pool.val current).drop (s.sb id).offset ++ r.1, r.2)

def lclearbuffer (s : State) (id : ℕ) : Option State :=
  (drain (s.pool.count + 1) s id).map fun r => r.2.setBuffer id { r.2.sb id with size := 0 }

def lreadall (s : State) (id : ℕ) : Option (Bytes × State) :=
  (drain (s.pool.count + 1) s id).map fun r => (r.1, r.2.setBuffer id { r.2.sb id with size := 0 })

/-- `check_sep`, over as many nodes as there can be. -/
def checkSep (pool : Pool Bytes) : ℕ → Option ℕ → ℕ → Bytes → ℤ → Option Bool
  | 0, _, _, _, _ => none
  | _ + 1, none, _, _, _ => none
  | fuel + 1, some node, start, sep, seplen =>
    let msg := (pool.val node).drop start
    if msg.length ≥ seplen then
      if seplen < 0 then none else some (msg.take seplen.toNat = sep.take seplen.toNat)
    else if 0 < msg.length ∧ msg ≠ sep.take msg.length then some false
    else checkSep pool fuel (pool.next node) 0 (sep.drop msg.length) (seplen - msg.length)

/-- The loop of `lreadline` for the values of `i` that are left: the one where the separator is. -/
def findLoop (pool : Pool Bytes) (sep : Bytes) : ℕ → ℕ → ℕ → ℤ → ℕ → Option (Option ℕ)
  | 0, _, _, _, _ => some none
  | n + 1, current, start, bytes, i =>
    (checkSep pool (pool.count + 1) (some current) start sep (toInt sep.length)).bind fun found =>
      if found then some (some i)
      else if bytes - 1 = 0 then
        match pool.next current with
        | none => some none
        | some current => findLoop pool sep n current 0 (pool.val current).length (i + 1)
      else findLoop pool sep n current (start + 1) (bytes - 1) (i + 1)

/-- What `lreadline` finds: how many bytes are before the separator. -/
def findLine (s : State) (id : ℕ) (sep : Bytes) : Option (Option ℕ) :=
  let sb := s.sb id
  match sb.head with
  | none => some none
  | some current =>
    findLoop s.pool sep (toInt (sb.size - toInt sep.length) + 1).toNat current sb.offset
      ((s.pool.val current).length - sb.offset) 0

/-- `lreadline` with a pool: the line, or nothing. -/
def lreadline (s : State) (id : ℕ) (sep : Bytes) : Option (Option Bytes × State) :=
  (findLine s id sep).bind fun
    | none => some (none, s)
    | some i =>
      (popLstring s id (toInt (i + sep.length)) (toInt sep.length)).map fun r =>
        (some r.1, shrink r.2 id (i + sep.length))

/-- `lreadline` without a pool, which only checks. -/
def lreadlineCheck (s : State) (id : ℕ) (sep : Bytes) : Option Bool :=
  (findLine s id sep).map Option.isSome

/-- The calls of a service on the buffer of a socket. -/
inductive Op where
  | push (msg : Bytes)
  | pop (sz : ℤ)
  | readline (sep : Bytes)
  | check (sep : Bytes)
  | readall
  | clear
  deriving DecidableEq, Repr

/-- What they return. -/
inductive Reply where
  | size (n : ℤ)
  | popped (str : Option Bytes) (size : ℤ)
  | line (str : Option Bytes)
  | found (b : Bool)
  | all (str : Bytes)
  | nothing
  deriving DecidableEq, Repr

def step (s : State) (id : ℕ) : Op → Option (Reply × State)
  | .push msg => (lpushbuffer s id msg).map fun r => (.size r.1, r.2)
  | .pop sz => (lpopbuffer s id sz).map fun r => (.popped r.1 r.2.1, r.2.2)
  | .readline sep => (lreadline s id sep).map fun r => (.line r.1, r.2)
  | .check sep => (lreadlineCheck s id sep).map fun b => (.found b, s)
  | .readall => (lreadall s id).map fun r => (.all r.1, r.2)
  | .clear => (lclearbuffer s id).map fun s => (.nothing, s)

/-- Calls one after the other, on the buffers of any sockets. -/
def run : State → List (ℕ × Op) → Option (List Reply × State)
  | s, [] => some ([], s)
  | s, (id, op) :: ops =>
    (step s id op).bind fun r => (run r.2 ops).map fun r' => (r.1 :: r'.1, r'.2)

section Purpose

/-- How many bytes are before the first separator. -/
def findSep (sep : Bytes) : Bytes → Option ℕ
  | [] => none
  | c :: b => if sep.isPrefixOf (c :: b) then some 0 else (findSep sep b).map (· + 1)

/-- What a call is for: the same on the bytes that were not read yet. -/
def meant (u : Bytes) : Op → Reply × Bytes
  | .push msg => (.size (u.length + msg.length), u ++ msg)
  | .pop sz =>
    if 0 < sz ∧ sz ≤ u.length then
      (.popped (some (u.take sz.toNat)) (u.length - sz), u.drop sz.toNat)
    else (.popped none u.length, u)
  | .readline sep =>
    match findSep sep u with
    | none => (.line none, u)
    | some i => (.line (some (u.take i)), u.drop (i + sep.length))
  | .check sep => (.found (findSep sep u).isSome, u)
  | .readall => (.all u, [])
  | .clear => (.nothing, [])

/-- The calls one after the other on the unread bytes of the sockets. -/
def meantRun : (ℕ → Bytes) → List (ℕ × Op) → List Reply × (ℕ → Bytes)
  | u, [] => ([], u)
  | u, (id, op) :: ops =>
    let r := meant (u id) op
    let r' := meantRun (Function.update u id r.2) ops
    (r.1 :: r'.1, r'.2)

end Purpose

end SocketBuffer

end SkynetGame
