import SkynetGame.Lib.Endian

/-!
# The packets of a cluster

`lualib-src/lua-cluster.c`. A packet is the two bytes of `fill_header` and a body of that many
bytes; a message that is too long for one packet goes out as a head and parts. A buffer and its
`uint32_t` size are here the list of its bytes, a session the `int` that C makes of it.
-/

namespace SkynetGame

namespace LuaCluster

/-- The address of a request: the handle of a service, or its name. -/
inductive Addr where
  | number (n : UInt32)
  | name (s : Bytes)
  deriving DecidableEq, Repr

def MULTI_PART : ℕ := 0x8000

def fillUint32 (n : ℕ) : Bytes := Endian.le 4 n

/-- `fill_header`; that `sz` is below `0x10000`, which it asserts, is `unframe_packet`. -/
def fillHeader (sz : ℕ) : Bytes := Endian.be 2 sz

/-- `luaL_error` writes a C string, up to the first zero. -/
def cstr (s : Bytes) : Bytes := s.takeWhile (· ≠ 0)

/-- How many parts a long message has. -/
def parts (sz : ℕ) : ℕ := (sz - 1) / MULTI_PART + 1

/-- The loop of `packreq_multi` and of `lpackresponse`: every part but the last is full. -/
def packMulti (pack : Bool → Bytes → Bytes) : ℕ → Bytes → List Bytes
  | 0, _ => []
  | part + 1, ptr =>
    if ptr.length > MULTI_PART then
      pack false (ptr.take MULTI_PART) :: packMulti pack part (ptr.drop MULTI_PART)
    else pack true ptr :: packMulti pack part []

/-- A packed request, and the number of its parts. -/
def packreqNumber (addr : UInt32) (session : ℕ) (msg : Bytes) : Bytes × ℕ :=
  if msg.length < MULTI_PART then
    (fillHeader (msg.length + 9) ++ [0] ++ fillUint32 addr.toNat ++ fillUint32 session ++ msg, 0)
  else
    (fillHeader 13 ++ [1] ++ fillUint32 addr.toNat ++ fillUint32 session ++ fillUint32 msg.length,
      parts msg.length)

def packreqString (name : Bytes) (session : ℕ) (msg : Bytes) : Except Bytes (Bytes × ℕ) :=
  if name.length < 1 ∨ name.length > 255 then
    .error (Bytes.ascii "name is too long " ++ cstr name)
  else if msg.length < MULTI_PART then
    .ok (fillHeader (msg.length + 6 + name.length) ++ [0x80, UInt8.ofNat name.length] ++ name ++
      fillUint32 session ++ msg, 0)
  else
    .ok (fillHeader (10 + name.length) ++ [0x81, UInt8.ofNat name.length] ++ name ++
      fillUint32 session ++ fillUint32 msg.length, parts msg.length)

/-- One part of a request. -/
def packreqPart (session : ℕ) (last : Bool) (msg : Bytes) : Bytes :=
  fillHeader (msg.length + 5) ++ [if last then 3 else 2] ++ fillUint32 session ++ msg

def packreqMulti (session : ℕ) (msg : Bytes) : List Bytes :=
  packMulti (packreqPart session) (parts msg.length) msg

/-- What `packrequest` returns: the request, the next session and the parts, if any. -/
structure PackedRequest where
  request : Bytes
  session : ℤ
  multi : List Bytes
  deriving DecidableEq, Repr

/-- The session after one, from 1 on again once it does not fit an `int`. -/
def nextSession (session : ℤ) : ℤ := if session = 2 ^ 31 - 1 then 1 else session + 1

/-- The branch of `lpackrequest` on the type of the address. -/
def packreq (addr : Addr) (session : ℕ) (msg : Bytes) : Except Bytes (Bytes × ℕ) :=
  match addr with
  | .number n => .ok (packreqNumber n session msg)
  | .name s => packreqString s session msg

def lpackrequest (addr : Addr) (session : ℤ) (msg : Bytes) : Except Bytes PackedRequest := do
  if session ≤ 0 then
    throw (Bytes.ascii s!"Invalid request session {session}")
  let packed ← packreq addr session.toNat msg
  if packed.2 = 0 then
    return { request := packed.1, session := nextSession session, multi := [] }
  else
    return { request := packed.1, session := nextSession session,
             multi := packreqMulti session.toNat msg }

/-- A field of an unpacked packet: bytes of a message, or the size that a head announces. -/
inductive Field where
  | bytes (b : Bytes)
  | size (n : ℕ)
  deriving DecidableEq, Repr

/-- What `unpackrequest` returns, `addr` being `none` for `false` and `nil`. -/
structure Request where
  addr : Option Addr
  session : ℕ
  msg : Field
  padding : Bool
  deriving DecidableEq, Repr

def unpackUint32 (buf : Bytes) : ℕ := Endian.ofLe (buf.take 4)

def invalidSize (sz : ℕ) : Bytes := Bytes.ascii s!"Invalid cluster message (size={sz})"

def unpackreqNumber (buf : Bytes) : Except Bytes Request :=
  if buf.length < 9 then .error (invalidSize buf.length)
  else .ok { addr := some (.number (UInt32.ofNat (unpackUint32 (buf.drop 1)))),
             session := unpackUint32 (buf.drop 5), msg := .bytes (buf.drop 9), padding := false }

def unpackmreqNumber (buf : Bytes) : Except Bytes Request :=
  if buf.length ≠ 13 then
    .error (Bytes.ascii
      s!"Invalid cluster message size {buf.length} (multi req must be 13)")
  else .ok { addr := some (.number (UInt32.ofNat (unpackUint32 (buf.drop 1)))),
             session := unpackUint32 (buf.drop 5), msg := .size (unpackUint32 (buf.drop 9)),
             padding := true }

def unpackmreqPart (buf : Bytes) : Except Bytes Request :=
  if buf.length < 5 then .error (Bytes.ascii "Invalid cluster multi part message")
  else .ok { addr := none, session := unpackUint32 (buf.drop 1), msg := .bytes (buf.drop 5),
             padding := buf.head? == some 2 }

/-- The length byte of a name. -/
def nameSize (buf : Bytes) : ℕ := (buf.getD 1 0).toNat

def unpackreqString (buf : Bytes) : Except Bytes Request :=
  if buf.length < 2 then .error (invalidSize buf.length)
  else if buf.length < nameSize buf + 6 then .error (invalidSize buf.length)
  else .ok { addr := some (.name ((buf.drop 2).take (nameSize buf))),
             session := unpackUint32 (buf.drop (nameSize buf + 2)),
             msg := .bytes (buf.drop (2 + nameSize buf + 4)), padding := false }

def unpackmreqString (buf : Bytes) : Except Bytes Request :=
  if buf.length < 2 then .error (invalidSize buf.length)
  else if buf.length < nameSize buf + 10 then .error (invalidSize buf.length)
  else .ok { addr := some (.name ((buf.drop 2).take (nameSize buf))),
             session := unpackUint32 (buf.drop (nameSize buf + 2)),
             msg := .size (unpackUint32 (buf.drop (nameSize buf + 6))), padding := true }

/-- `unpackrequest`; `msg[0]` of an empty string is the zero that ends it. -/
def lunpackrequest (msg : Bytes) : Except Bytes Request :=
  match (msg.headD 0).toNat with
  | 0 => unpackreqNumber msg
  | 1 => unpackmreqNumber msg
  | 2 | 3 => unpackmreqPart msg
  | 0x80 => unpackreqString msg
  | 0x81 => unpackmreqString msg
  | t => .error (Bytes.ascii s!"Invalid req package type {Int.bmod t 256}")

/-- One packet of a response: `kind` is 0 for an error, 1 for a whole message, 2 for the head of a long
one, 3 for a part and 4 for the last part. -/
def packresPacket (session : ℕ) (kind : UInt8) (msg : Bytes) : Bytes :=
  fillHeader (msg.length + 5) ++ fillUint32 session ++ [kind] ++ msg

/-- What `packresponse` returns: a string or a table of strings. -/
inductive Response where
  | single (s : Bytes)
  | multi (l : List Bytes)
  deriving DecidableEq, Repr

/-- The packets of a response. -/
def Response.packets : Response → List Bytes
  | .single s => [s]
  | .multi l => l

def lpackresponse (session : UInt32) (ok : Bool) (msg : Bytes) : Response :=
  if ok = false then
    -- an error message is cut
    .single (packresPacket session.toNat 0 (msg.take MULTI_PART))
  else if msg.length > MULTI_PART then
    .multi (packresPacket session.toNat 2 (fillUint32 msg.length) ::
      packMulti (fun last => packresPacket session.toNat (if last then 4 else 3))
        (parts msg.length) msg)
  else .single (packresPacket session.toNat 1 msg)

/-- What `unpackresponse` returns. -/
structure UnpackedResponse where
  session : ℕ
  ok : Bool
  msg : Field
  padding : Bool
  deriving DecidableEq, Repr

/-- `unpackresponse`; `none` where it returns no `ok`. -/
def lunpackresponse (buf : Bytes) : Option UnpackedResponse :=
  if buf.length < 5 then none
  else match (buf.getD 4 0).toNat with
    | 0 => some { session := unpackUint32 buf, ok := false, msg := .bytes (buf.drop 5),
                  padding := false }
    | 1 | 4 => some { session := unpackUint32 buf, ok := true, msg := .bytes (buf.drop 5),
                      padding := false }
    | 2 => if buf.length ≠ 9 then none
           else some { session := unpackUint32 buf, ok := true,
                       msg := .size (unpackUint32 (buf.drop 5)), padding := true }
    | 3 => some { session := unpackUint32 buf, ok := true, msg := .bytes (buf.drop 5),
                  padding := true }
    | _ => none

/-- The loop of `lconcat`, `buff` being filled so far. -/
def concatParts (sz : ℕ) : Bytes → List Field → Option Bytes
  | buff, .bytes s :: t =>
    if s.length + buff.length > sz then none else concatParts sz (buff ++ s) t
  | buff, _ => if buff.length ≠ sz then none else some buff

/-- `concat`, on the list part of a table; a size that is no `int` cannot be allocated. -/
def lconcat : List Field → Option Bytes
  | .size sz :: t => if sz < 2 ^ 31 then concatParts sz [] t else none
  | _ => none

/-- The body of a packet that came in whole. -/
def unframe (packet : Bytes) : Option Bytes :=
  if Endian.ofBe (packet.take 2) = (packet.drop 2).length then some (packet.drop 2) else none

/-- The message of a packet alone, or of a head and parts. -/
def assemble : List Field → Option Bytes
  | [.bytes b] => some b
  | l => lconcat l

end LuaCluster

end SkynetGame
