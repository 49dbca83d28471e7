import SkynetGame.MsgServer
import SkynetGame.Crypt

/-!
# User names (`server.username` and `server.userid` of `lualib/snax/msgserver.lua`)

The names a message server knows its users by: three fields in base64, which `userid` takes apart
again. `none` is a call that fails: a code whose size is no `int`, a name that is none, or a field that
is no base64.
-/

namespace SkynetGame

namespace UserName

open Base64 (lb64encode lb64decode)
open LuaPattern (strMatch)

/-- `server.username`. -/
def username (uid subid servername : Bytes) : Option Bytes := do
  let uid ← lb64encode uid
  let servername ← lb64encode servername
  let subid ← lb64encode subid
  some (uid ++ Bytes.ascii "@" ++ servername ++ Bytes.ascii "#" ++ subid)

/-- `crypt.base64decode`, where an error fails as well. -/
def b64decode (text : Bytes) : Option Bytes := (lb64decode text).bind Except.toOption

/-- `server.userid`: the uid, the subid and the server's name. -/
def userid (username : Bytes) : Option (Bytes × Bytes × Bytes) := do
  match ← strMatch username (Bytes.ascii "([^@]*)@([^#]*)#(.*)") with
  | [.str uid, .str servername, .str subid] => do
    let uid ← b64decode uid
    let subid ← b64decode subid
    let servername ← b64decode servername
    some (uid, subid, servername)
  | _ => none

/-- The name has no colon, and `do_auth` gets the whole of it from a handshake. -/
def Recovered (name : Bytes) : Prop :=
  58 ∉ name ∧ ∀ index hmac : Bytes, ∃ index' hmac', MsgServer.fields
    (name ++ Bytes.ascii ":" ++ index ++ Bytes.ascii ":" ++ hmac) = some (some (name, index', hmac'))

/-- The triple has a name that gives it back, that no other triple has, and that is recovered. -/
def Coded (uid subid servername : Bytes) : Prop :=
  ∃ name, username uid subid servername = some name ∧ userid name = some (uid, subid, servername) ∧
    (∀ uid' subid' servername', username uid' subid' servername' = some name →
      uid' = uid ∧ subid' = subid ∧ servername' = servername) ∧
    Recovered name

end UserName

end SkynetGame
