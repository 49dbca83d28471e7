import SkynetGame.Harbor
import SkynetGame.Lib.Ledger

/-!
# The buffers of the harbor service (`push_socket_data`, `mainloop`)

What is allocated and freed while the service does what `Harbor.step` says: the buffer of each
message of the socket, and a `recv_buffer` for each body. Nothing frees a `recv_buffer`: neither
`close_harbor` does, nor the release of the service.
-/

namespace SkynetGame

namespace Harbor

/-- The service with its memory. The messages of data are numbered, and so are the `recv_buffer`s
that were allocated; `freed` are the calls of `skynet_free` for the buffers of messages, the frames
that are spent went to `skynet_send`, and `torn` are those whose connection was closed meanwhile. -/
structure Memory where
  h : State
  msgs : ℕ
  freed : List ℕ
  frames : Ledger UInt8
  torn : List ℕ

/-- `skynet_free(message->buffer)`, of the last message. -/
def Memory.freeMessage (m : Memory) : Memory := { m with freed := m.freed ++ [m.msgs - 1] }

namespace Memory

/-- The case of `STATUS_CONTENT`. -/
def pushContent (fails : ℕ → Bool) (id : UInt8) (buffer : Bytes) (m : Memory) :
    Memory × Option Bytes :=
  let s := m.h.s id
  let need := s.length - s.part.length
  if buffer.length < need then
    ({ m with h := m.h.setSlave id { s with part := s.part ++ buffer } }, none)
  else
    let h := forwardLocalMessage fails (s.part ++ buffer.take need) m.h
    let h := h.setSlave id { s with length := 0, part := [], status := .header }
    ({ m with h := h, frames := m.frames.spend id },
      if buffer.drop need = [] then none else some (buffer.drop need))

/-- The case of `STATUS_HEADER`. -/
def pushHeader (fails : ℕ → Bool) (id : UInt8) (buffer : Bytes) (m : Memory) :
    Memory × Option Bytes :=
  let s := m.h.s id
  let need := 4 - s.part.length
  if buffer.length < need then
    ({ m with h := m.h.setSlave id { s with part := s.part ++ buffer } }, none)
  else
    let size := s.part ++ buffer.take need
    let buffer := buffer.drop need
    if size.head? ≠ some 0 then
      ({ m with h := closeHarbor id (m.h.setSlave id { s with part := size }) }, none)
    else
      let length := Endian.ofBe size.tail
      let h := m.h.setSlave id { s with length := length, part := [], status := .content }
      let m := { m with h := h, frames := m.frames.issue id }
      if buffer = [] then (m, none) else pushContent fails id buffer m

/-- The case of `STATUS_HANDSHAKE`. -/
def pushHandshake (fails : ℕ → Bool) (id : UInt8) (buffer : Bytes) (m : Memory) :
    Memory × Option Bytes :=
  match buffer with
  | [] => (m, none)
  | remoteId :: buffer =>
    if remoteId ≠ id then ({ m with h := closeHarbor id m.h }, none)
    else
      let m := { m with
        h := dispatchQueue id (m.h.setSlave id { m.h.s id with status := .header }) }
      if buffer = [] then (m, some []) else pushHeader fails id buffer m

def pushLoop (fails : ℕ → Bool) (id : UInt8) : ℕ → Bytes → Memory → Memory
  | 0, _, m => m
  | fuel + 1, buffer, m =>
    let r := match (m.h.s id).status with
      | .handshake => pushHandshake fails id buffer m
      | .header => pushHeader fails id buffer m
      | .content => pushContent fails id buffer m
      | .wait | .down => (m, none)
    match r.2 with
    | none => r.1
    | some buffer => pushLoop fails id fuel buffer r.1

/-- `push_socket_data`; an invalid fd has its buffer freed here. -/
def pushSocketData (fails : ℕ → Bool) (fd : ℤ) (buffer : Bytes) (m : Memory) : Memory :=
  match m.h.harborId fd with
  | none => m.freeMessage
  | some id => pushLoop fails id (buffer.length + 2) buffer m

/-- A `SKYNET_SOCKET_TYPE_ERROR` or a `SKYNET_SOCKET_TYPE_CLOSE`. -/
def socketClose (fd : ℤ) (m : Memory) : Memory :=
  { m with
    h := Harbor.socketClose fd m.h
    torn := m.torn ++ ((m.h.harborId fd).bind m.frames.held).toList }

/-- `mainloop`, which frees the buffer of every message of data. -/
def step (fails : ℕ → Bool) (m : Memory) : Label → Option Memory
  | .data fd buffer =>
    if fd = 0 ∨ buffer = [] then none
    else some (pushSocketData fails fd buffer { m with msgs := m.msgs + 1 }).freeMessage
  | .close fd => if fd = 0 then none else some (m.socketClose fd)
  | l => (Harbor.step fails m.h l).map fun h => { m with h := h }

def init (id : UInt8) (slave : UInt32) : Memory := ⟨Harbor.init id slave, 0, [], .empty, []⟩

def machine (fails : ℕ → Bool) (id : UInt8) (slave : UInt32) : Machine Memory Label :=
  ⟨init id slave, step fails⟩

/-- The message is for a connection that is known, which is not closed inside a frame. -/
def Tame (m : Memory) : Label → Prop
  | .data fd _ => (m.h.harborId fd).isSome
  | .close fd => ∀ id ∈ m.h.harborId fd, (m.h.s id).status ≠ .content
  | _ => True

instance (m : Memory) : (l : Label) → Decidable (m.Tame l)
  | .data fd _ => inferInstanceAs (Decidable ((m.h.harborId fd).isSome = true))
  | .close fd =>
    inferInstanceAs (Decidable (∀ id ∈ m.h.harborId fd, (m.h.s id).status ≠ .content))
  | .send .. => .isTrue trivial
  | .name .. => .isTrue trivial
  | .connect .. => .isTrue trivial

end Memory

end Harbor

end SkynetGame
