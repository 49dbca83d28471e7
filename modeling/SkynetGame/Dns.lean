import SkynetGame.Lib.Endian
import SkynetGame.Lib.LuaNumber

/-!
# The packets of `lualib/dns.lua`

Places in a packet are counted from 1, as Lua does. A name is read by a loop that follows pointers;
`none` is a loop that has not ended after so many rounds, and an error is one that Lua raises.
-/

namespace SkynetGame

namespace Dns

open Endian (ofBe be)
open LuaNumber (numeral)

section Unpack

/-- An unsigned number of so many bytes (`B`, `>H`, `>I4`) at a place, and the place behind it. -/
def unpackUint (size : ℕ) (chunk : Bytes) (left : ℕ) : Except Unit (ℕ × ℕ) :=
  if left - 1 + size ≤ chunk.length then
    .ok (ofBe ((chunk.drop (left - 1)).take size), left + size)
  else .error ()

/-- A string behind its length, a number of so many bytes (`s1`, `>s2`). -/
def unpackString (size : ℕ) (chunk : Bytes) (left : ℕ) : Except Unit (Bytes × ℕ) := do
  let (len, left) ← unpackUint size chunk left
  if left - 1 + len ≤ chunk.length then .ok ((chunk.drop (left - 1)).take len, left + len)
  else .error ()

end Unpack

/-- What a loop comes to that may not end. -/
abbrev Looped (α : Type) := Option (Except Unit α)

section Name

variable (chunk : Bytes)

/-- What a round of the loop of `unpack_name` does at a place. -/
inductive Round
  | jump (behind target : ℕ)
  | label (text : Bytes) (left : ℕ)
  | done (left : ℕ)
deriving DecidableEq, Repr

/-- The body of the loop of `unpack_name`. -/
def nameRound (left : ℕ) : Except Unit Round := do
  let (tag, left) ← unpackUint 1 chunk left
  if tag &&& 0xc0 = 0xc0 then do
    let (offset, left) ← unpackUint 2 chunk (left - 1)
    .ok (.jump left ((offset &&& 0x3fff) + 1))
  else if tag = 0 then .ok (.done left)
  else do
    let (label, left) ← unpackString 1 chunk (left - 1)
    .ok (.label label left)

/-- `table.concat(t, ".")`. -/
def concat (t : List Bytes) : Bytes := (t.intersperse (Bytes.ascii ".")).flatten

/-- The loop of `unpack_name`. -/
def nameLoop (jump_pointer : Option ℕ) (t : List Bytes) : ℕ → ℕ → Looped (Bytes × ℕ)
  | 0, _ => none
  | n + 1, left =>
    match nameRound chunk left with
    | .error () => some (.error ())
    | .ok (.jump behind target) => nameLoop (some (jump_pointer.getD behind)) t n target
    | .ok (.label label left) => nameLoop jump_pointer (t ++ [label]) n left
    | .ok (.done left) => some (.ok (concat t, jump_pointer.getD left))

/-- `unpack_name`, in so many rounds. -/
def unpack_name (rounds left : ℕ) : Looped (Bytes × ℕ) := nameLoop chunk none [] rounds left

end Name

/-- What a record says. -/
structure Answer where
  name : Bytes
  atype : ℕ
  class' : ℕ
  ttl : ℕ
  rdata : Bytes
deriving DecidableEq, Repr

/-- The question of a packet. -/
structure Question where
  name : Bytes
  atype : ℕ
  class' : ℕ
deriving DecidableEq, Repr

section Sections

variable (rounds : ℕ) (chunk : Bytes)

/-- What stands behind the name of a question. -/
def questionTail (left : ℕ) : Except Unit (ℕ × ℕ × ℕ) := do
  let (atype, left) ← unpackUint 2 chunk left
  let (class', left) ← unpackUint 2 chunk left
  .ok (atype, class', left)

/-- What stands behind the name of a record. -/
def answerTail (left : ℕ) : Except Unit (ℕ × ℕ × ℕ × Bytes × ℕ) := do
  let (atype, left) ← unpackUint 2 chunk left
  let (class', left) ← unpackUint 2 chunk left
  let (ttl, left) ← unpackUint 4 chunk left
  let (rdata, left) ← unpackString 2 chunk left
  .ok (atype, class', ttl, rdata, left)

def unpack_question (left : ℕ) : Looped (Question × ℕ) :=
  (unpack_name chunk rounds left).map fun r => do
    let (name, left) ← r
    let (atype, class', left) ← questionTail chunk left
    .ok (⟨name, atype, class'⟩, left)

def unpack_answer (left : ℕ) : Looped (Answer × ℕ) :=
  (unpack_name chunk rounds left).map fun r => do
    let (name, left) ← r
    let (atype, class', ttl, rdata, left) ← answerTail chunk left
    .ok (⟨name, atype, class', ttl, rdata⟩, left)

end Sections

/-- `QTYPE`, as far as addresses are of it. -/
inductive QType
  | A
  | AAAA
deriving DecidableEq, Repr

/-- The type that a number stands for. -/
def QType.ofAtype : ℕ → Option QType
  | 1 => some .A
  | 28 => some .AAAA
  | _ => none

def QType.atype : QType → ℕ
  | .A => 1
  | .AAAA => 28

/-- Numbers of so many bytes, one behind the other from the start. -/
def unpackUints (size : ℕ) (chunk : Bytes) : ℕ → ℕ → Except Unit (List ℕ)
  | 0, _ => .ok []
  | n + 1, left => do
    let (a, left) ← unpackUint size chunk left
    let as ← unpackUints size chunk n left
    .ok (a :: as)

/-- `unpack_rdata`: `%d.%d.%d.%d`, or eight times `%x` with colons. -/
def unpack_rdata (qtype : QType) (chunk : Bytes) : Except Unit Bytes :=
  match qtype with
  | .A => (unpackUints 1 chunk 4 1).map fun as => concat (as.map (numeral 10))
  | .AAAA => (unpackUints 2 chunk 8 1).map fun as =>
    ((as.map (numeral 16)).intersperse (Bytes.ascii ":")).flatten

/-- What the records of a packet come to: the least time to live, and the addresses of each type. -/
structure Addresses where
  ttl : Option ℕ
  ipv4 : List Bytes
  ipv6 : List Bytes
deriving DecidableEq, Repr

/-- The addresses of a type. -/
def Addresses.of (a : Addresses) : QType → List Bytes
  | .A => a.ipv4
  | .AAAA => a.ipv6

/-- A record is added to the addresses. -/
def addAnswer (a : Addresses) (answer : Answer) : Except Unit Addresses :=
  match QType.ofAtype answer.atype with
  | none => .ok a
  | some qtype => do
    let ip ← unpack_rdata qtype answer.rdata
    let ttl := (a.ttl.map fun ttl => min ttl answer.ttl).getD answer.ttl
    match qtype with
    | .A => .ok { a with ttl := some ttl, ipv4 := a.ipv4 ++ [ip] }
    | .AAAA => .ok { a with ttl := some ttl, ipv6 := a.ipv6 ++ [ip] }

/-- The loop of `resolve` over so many records. -/
def readAnswers (rounds : ℕ) (chunk : Bytes) (a : Addresses) : ℕ → ℕ → Looped Addresses
  | 0, _ => some (.ok a)
  | n + 1, left =>
    (unpack_answer rounds chunk left).bind fun
      | .error () => some (.error ())
      | .ok (answer, left) =>
        match addAnswer a answer with
        | .error () => some (.error ())
        | .ok a => readAnswers rounds chunk a n left

/-- What `resolve` reads of a packet. -/
structure Packet where
  tid : ℕ
  question : Question
  addresses : Addresses
deriving DecidableEq, Repr

def DNS_HEADER_LEN : ℕ := 12

/-- The number at a place of the header, from 0 on. -/
def headerField (content : Bytes) (i : ℕ) : ℕ := ofBe ((content.drop (2 * i)).take 2)

/-- `resolve` up to where it has read the packet; a packet that is too short is dropped. -/
def readPacket (rounds : ℕ) (content : Bytes) : Looped (Option Packet) :=
  if content.length < DNS_HEADER_LEN then some (.ok none)
  else if headerField content 2 ≠ 1 then some (.error ())
  else
    (unpack_question rounds content 13).bind fun
      | .error () => some (.error ())
      | .ok (question, left) =>
        (readAnswers rounds content ⟨none, [], []⟩ (headerField content 3) left).map fun r =>
          r.map fun a => some ⟨headerField content 0, question, a⟩

end Dns

end SkynetGame
