import SkynetGame.Handle
import SkynetGame.Harbor
import SkynetGame.Mq

/-!
# Sending a message (`skynet_send`, `skynet_sendname` and `skynet_harbor_send`)

A call returns what the C function returns, and in `log` what became of the payload. It does not
return where an assertion fails or `skynet_malloc` finds no memory. Pointers are numbers, and 0 is
`NULL`.
-/

namespace SkynetGame

namespace Send

open Harbor (HANDLE_MASK HANDLE_REMOTE_SHIFT GLOBALNAME_LENGTH PTYPE_SYSTEM PTYPE_HARBOR)

def PTYPE_TAG_DONTCOPY : Int32 := 0x10000

def PTYPE_TAG_ALLOCSESSION : Int32 := 0x20000

def MESSAGE_TYPE_MASK : UInt64 := (0xffffffffffffffff : UInt64) >>> 8

def MESSAGE_TYPE_SHIFT : UInt64 := (8 - 1) * 8

/-- `sizeof(struct remote_message)`. -/
def sizeofRemoteMessage : UInt64 := 40

/-- `struct remote_message`; `name` is `none` where it is not written. -/
structure RemoteMessage where
  name : Option Bytes
  handle : UInt32
  message : ℕ
  sz : UInt64
  deriving DecidableEq, Repr

/-- The fields of `struct skynet_context` that are used. -/
structure Context where
  handle : UInt32
  sessionId : Int32
  deriving DecidableEq, Repr

/-- `skynet_context_newsession`. -/
def Context.newsession (ctx : Context) : Context × Int32 :=
  let session := ctx.sessionId + 1
  if session ≤ 0 then ({ ctx with sessionId := 1 }, 1)
  else ({ ctx with sessionId := session }, session)

/-- The node: the handle table, `HARBOR` and `REMOTE`, and `skynet_malloc`, which aborts rather
than return `NULL`. -/
structure Node where
  handles : Handles
  harbor : UInt32
  remote : Option ℕ
  malloc : UInt64 → Option { p : ℕ // p ≠ 0 }

/-- What a call does with payloads. -/
inductive Event
  -- `skynet_error`: "The message to %x is too large"
  | tooLarge (destination : UInt32)
  | copied (data msg : ℕ) (sz : UInt64)
  -- to the queue of a context
  | pushed (ctx : ℕ) (message : SkynetMessage)
  -- to the queue of the harbor's context
  | harbor (ctx : ℕ) (rmsg : RemoteMessage) (source : UInt32) (type : UInt8) (session : Int32)
  | freed (data : ℕ)
  deriving DecidableEq, Repr

/-- What a call returns. -/
structure Sent where
  result : Int32
  context : Context
  log : List Event
  deriving DecidableEq, Repr

/-- What `_filter_args` leaves in the variables of its caller. -/
structure Filtered where
  context : Context
  session : Int32
  data : ℕ
  sz : UInt64
  log : List Event
  deriving DecidableEq, Repr

/-- `strtoul(s, NULL, 16)`. -/
def strtoul (s : Bytes) : UInt64 :=
  let s := s.dropWhile fun c => c = 32 || 9 ≤ c && c ≤ 13
  let neg := s.head? = some 45
  let s := if neg ∨ s.head? = some 43 then s.tail else s
  let s := if s.take 2 = Bytes.ascii "0x" ∨ s.take 2 = Bytes.ascii "0X" then s.drop 2 else s
  let digit : UInt8 → Option ℕ := fun c =>
    if 48 ≤ c ∧ c ≤ 57 then some (c.toNat - 48)
    else if 65 ≤ c ∧ c ≤ 70 then some (c.toNat - 55)
    else if 97 ≤ c ∧ c ≤ 102 then some (c.toNat - 87)
    else none
  let n := ((s.takeWhile fun c => (digit c).isSome).filterMap digit).foldl
    (fun n d => n * 16 + d) 0
  if UInt64.size ≤ n then 0xffffffffffffffff
  else if neg then -n.toUInt64
  else n.toUInt64

/-- The search of `skynet_handle_findname`, between `first` and `last`. -/
def findnameLoop (names : List (Bytes × ℕ)) (name : Bytes) (first last : ℤ) : ℕ :=
  if first ≤ last then
    let mid := (first + last) / 2
    match names[mid.toNat]? with
    | none => 0
    | some n =>
      if n.1 = name then n.2
      else if n.1 < name then findnameLoop names name (mid + 1) last
      else findnameLoop names name first (mid - 1)
  else 0
termination_by (last + 1 - first).toNat

/-- `skynet_handle_findname`. -/
def findname (s : HandleStorage) (name : Bytes) : UInt32 :=
  (findnameLoop s.name name 0 (s.name.length - 1)).toUInt32

def copyName (addr : Bytes) : Bytes :=
  addr.take GLOBALNAME_LENGTH ++ List.replicate (GLOBALNAME_LENGTH - addr.length) 0

/-- `skynet_harbor_message_isremote`. -/
def messageIsremote (node : Node) (handle : UInt32) : Option Bool :=
  if node.harbor = 0xffffffff then none
  else
    let h := handle &&& ~~~HANDLE_MASK
    some (h ≠ node.harbor ∧ h ≠ 0)

/-- `skynet_harbor_send`, with `skynet_context_send`. -/
def harborSend (node : Node) (rmsg : RemoteMessage) (source : UInt32) (session : Int32) :
    Option Event :=
  let type := (rmsg.sz >>> MESSAGE_TYPE_SHIFT).toUInt8
  let rmsg := { rmsg with sz := rmsg.sz &&& MESSAGE_TYPE_MASK }
  if type ≠ PTYPE_SYSTEM ∧ type ≠ PTYPE_HARBOR then
    node.remote.map fun ctx => .harbor ctx rmsg source type session
  else none

/-- The test of `PTYPE_TAG_DONTCOPY`. -/
def Dontcopy (type : Int32) : Prop := type &&& PTYPE_TAG_DONTCOPY ≠ 0

instance (type : Int32) : Decidable (Dontcopy type) := inferInstanceAs (Decidable (_ ≠ _))

/-- The size leaves the bits of the type alone. -/
def Fits (sz : UInt64) : Prop := sz &&& MESSAGE_TYPE_MASK = sz

instance (sz : UInt64) : Decidable (Fits sz) := inferInstanceAs (Decidable (_ = _))

/-- `_filter_args`. -/
def filterArgs (node : Node) (context : Context) (type session : Int32) (data : ℕ) (sz : UInt64) :
    Option Filtered :=
  let allocsession := type &&& PTYPE_TAG_ALLOCSESSION ≠ 0
  if allocsession ∧ session ≠ 0 then none
  else
    let c := if allocsession then context.newsession else (context, session)
    let merged := sz ||| (type &&& 0xff).toUInt32.toUInt64 <<< MESSAGE_TYPE_SHIFT
    if ¬ Dontcopy type ∧ data ≠ 0 then
      (node.malloc (sz + 1)).map fun msg =>
        ⟨c.1, c.2, msg.1, merged, [.copied data msg.1 sz]⟩
    else some ⟨c.1, c.2, data, merged, []⟩

/-- `skynet_send`. -/
def skynetSend (node : Node) (context : Context) (source destination : UInt32)
    (type session : Int32) (data : ℕ) (sz : UInt64) : Option Sent :=
  if ¬ Fits sz then
    some ⟨-1, context, .tooLarge destination :: if Dontcopy type then [.freed data] else []⟩
  else
    (filterArgs node context type session data sz).bind fun f =>
      let source := if source = 0 then context.handle else source
      if destination = 0 then some ⟨f.session, f.context, f.log⟩
      else
        (messageIsremote node destination).bind fun isremote =>
          if isremote then
            (node.malloc sizeofRemoteMessage).bind fun _ =>
              (harborSend node ⟨none, destination, f.data, f.sz⟩ source f.session).map fun e =>
                ⟨f.session, f.context, f.log ++ [e]⟩
          else
            let smsg : SkynetMessage := ⟨source.toNat, f.session.toInt, f.data, f.sz.toNat⟩
            -- `skynet_context_push`
            match node.handles.grab destination.toNat with
            | some ctx => some ⟨f.session, f.context, f.log ++ [.pushed ctx smsg]⟩
            | none => some ⟨-1, f.context, f.log ++ [.freed f.data]⟩

/-- `skynet_sendname`. -/
def skynetSendname (node : Node) (context : Context) (source : UInt32) (addr : Bytes)
    (type session : Int32) (data : ℕ) (sz : UInt64) : Option Sent :=
  let source := if source = 0 then context.handle else source
  if addr.head? = some 58 then
    skynetSend node context source (strtoul addr.tail).toUInt32 type session data sz
  else if addr.head? = some 46 then
    let des := findname node.handles.storage addr.tail
    if des = 0 then some ⟨-1, context, if Dontcopy type then [.freed data] else []⟩
    else skynetSend node context source des type session data sz
  else
    (filterArgs node context type session data sz).bind fun f =>
      (node.malloc sizeofRemoteMessage).bind fun _ =>
        (harborSend node ⟨some (copyName addr), 0, f.data, f.sz⟩ source f.session).map fun e =>
          ⟨f.session, f.context, f.log ++ [e]⟩

/-- Where a call sends to. -/
inductive Address
  | handle (destination : UInt32)
  | name (addr : Bytes)
  deriving DecidableEq, Repr

/-- A call of the two functions. -/
def call (node : Node) (context : Context) (source : UInt32) (address : Address)
    (type session : Int32) (data : ℕ) (sz : UInt64) : Option Sent :=
  match address with
  | .handle destination => skynetSend node context source destination type session data sz
  | .name addr => skynetSendname node context source addr type session data sz

end Send

end SkynetGame
