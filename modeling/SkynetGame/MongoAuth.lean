import SkynetGame.Form
import SkynetGame.Http
import SkynetGame.LuaValue

/-!
# SCRAM (`auth_scram_sha1` of `lualib/mongo.lua`)

The client sends two commands or three, and the server answers each of them. What it answers may be
anything, and may depend on all that it has got so far. `none` is an error that was raised, or a loop
that never ends.
-/

namespace SkynetGame

namespace MongoAuth

open Form (StringTable)
open Http (sub)
open LuaNumber (Number tonumber decimal)
open LuaPattern (gmatch Capture)

/-- The libraries: hashes and codes, and what Lua does with floats, which are known by their bits. -/
structure Library where
  hmac_sha1 : Bytes → Bytes → Bytes
  sha1 : Bytes → Bytes
  base64encode : Bytes → Bytes
  base64decode : Bytes → Option Bytes
  sumhexa : Bytes → Bytes
  l_str2d : Bytes → Option UInt64
  -- the limit of a `for` loop over integers
  forlimit : UInt64 → ℤ
  number2str : UInt64 → Bytes

inductive Command
  | saslStart (payload : Bytes)
  | saslContinue (conversationId : LuaValue) (payload : Bytes)

/-- The fields of a reply that are read. -/
structure Reply where
  ok : LuaValue
  conversationId : LuaValue
  payload : LuaValue
  done : LuaValue

/-- The reply to the last of the commands, if there is one. -/
abbrev Server := List Command → Option Reply

section Values

/-- Anything but `nil` and `false`. -/
def truthy : LuaValue → Bool
  | .nil | .boolean false => false
  | _ => true

/-- `v == 1`. -/
def isOne : LuaValue → Bool
  | .integer n => n == 1
  | .number x => x == 0x3ff0000000000000
  | _ => false

/-- `luaL_checklstring`. -/
def checkstring (lib : Library) : LuaValue → Option Bytes
  | .string s => some s
  | .integer n => some (decimal n.toInt)
  | .number x => some (lib.number2str x)
  | _ => none

/-- `lxor_str`. -/
def xor_str (s₁ s₂ : Bytes) : Option Bytes :=
  if s₂.length = 0 then none
  else some (s₁.mapIdx fun i c => c ^^^ s₂.getD (i % s₂.length) 0)

/-- `string.gsub` of a byte that no pattern takes for anything else. -/
def replaceByte (c : UInt8) (text s : Bytes) : Bytes :=
  s.flatMap fun b => if b = c then text else [b]

end Values

variable (lib : Library)

section Salt

/-- The loop of `salt_password`. -/
def saltLoop (password : Bytes) : ℕ → Bytes → Bytes → Option Bytes
  | 0, _, output => some output
  | n + 1, inter, output => do
    let inter := lib.hmac_sha1 password inter
    let output ← xor_str output inter
    saltLoop password n inter output

/-- `salt_password`; up to the greatest integer there is no end to the loop. -/
def salt_password (password salt : Bytes) (iter : ℤ) : Option Bytes :=
  let output := lib.hmac_sha1 password (salt ++ [0, 0, 0, 1])
  if iter = 0x7fffffffffffffff then none
  else saltLoop lib password (iter - 1).toNat output output

end Salt

section Messages

/-- The loop over the attributes of a message. -/
def attributes (parsed_s : Bytes) : Option StringTable := do
  let fields ← gmatch parsed_s (Bytes.ascii "(%w+)=([^,]*)")
  fields.foldlM (fun parsed_t fs =>
    match fs with
    | [.str k, .str v] => some (parsed_t.insert k v)
    | _ => none) ∅

/-- What the server's first message says. -/
structure ServerFirst where
  parsed_s : Bytes
  iterations : Option (Number UInt64)
  salt : Option Bytes
  rnonce : Bytes

/-- From the first payload to its `r`, without which `string.sub` fails. -/
def serverFirst (payload : LuaValue) : Option ServerFirst := do
  let parsed_s ← lib.base64decode (← checkstring lib payload)
  let parsed_t ← attributes parsed_s
  let iterations := (parsed_t.lookup (Bytes.ascii "i")).bind (tonumber lib.l_str2d)
  let rnonce ← parsed_t.lookup (Bytes.ascii "r")
  some ⟨parsed_s, iterations, parsed_t.lookup (Bytes.ascii "s"), rnonce⟩

/-- `not string.sub(rnonce, 1, 12) == nonce`: the `not` is about the part of `rnonce`. -/
def invalidNonce (rnonce nonce : Bytes) : Bool :=
  (LuaValue.boolean (!truthy (.string (sub rnonce 1 12)))).rawEqual (.string nonce)

/-- The limit of a loop, which must be a number. -/
def limit : Option (Number UInt64) → Option ℤ
  | none => none
  | some (.int n) => some n
  | some (.float x) => some (lib.forlimit x)

/-- From `without_proof` to `server_sig`: the client's last message, and what the server is to sign
it with. -/
def clientFinal (username password first_bare : Bytes) (m : ServerFirst) :
    Option (Bytes × Bytes) := do
  let without_proof := Bytes.ascii "c=biws,r=" ++ m.rnonce
  let pbkdf2_key := lib.sumhexa (username ++ Bytes.ascii ":mongo:" ++ password)
  let salt ← lib.base64decode (← m.salt)
  let salted_pass ← salt_password lib pbkdf2_key salt (← limit lib m.iterations)
  let client_key := lib.hmac_sha1 salted_pass (Bytes.ascii "Client Key")
  let stored_key := lib.sha1 client_key
  let auth_msg := first_bare ++ Bytes.ascii "," ++ m.parsed_s ++ Bytes.ascii "," ++ without_proof
  let client_sig := lib.hmac_sha1 stored_key auth_msg
  let client_key_xor_sig ← xor_str client_key client_sig
  let client_proof := Bytes.ascii "p=" ++ lib.base64encode client_key_xor_sig
  let client_final := lib.base64encode (without_proof ++ Bytes.ascii "," ++ client_proof)
  let server_key := lib.hmac_sha1 salted_pass (Bytes.ascii "Server Key")
  some (client_final, lib.base64encode (lib.hmac_sha1 server_key auth_msg))

/-- The `v` of the second payload. -/
def serverSignature (payload : LuaValue) : Option (Option Bytes) := do
  let parsed_s ← lib.base64decode (← checkstring lib payload)
  let parsed_t ← attributes parsed_s
  some (parsed_t.lookup (Bytes.ascii "v"))

end Messages

section Auth

variable (key username : Bytes)

/-- `nonce`, for what `crypt.randomkey` has given. -/
def clientNonce : Bytes := lib.base64encode key

def firstBare : Bytes :=
  let user := replaceByte 44 (Bytes.ascii "=2C") (replaceByte 61 (Bytes.ascii "=3D") username)
  Bytes.ascii "n=" ++ user ++ Bytes.ascii ",r=" ++ clientNonce lib key

def saslStart : Command :=
  .saslStart (lib.base64encode (Bytes.ascii "n,," ++ firstBare lib key username))

/-- `mongo_client:auth_scram_sha1`. -/
def auth_scram_sha1 (server : Server) (password : Bytes) : Option Bool := do
  let start := saslStart lib key username
  let r ← server [start]
  if !isOne r.ok then some false
  else do
    let conversationId := r.conversationId
    let m ← serverFirst lib r.payload
    if invalidNonce m.rnonce (clientNonce lib key) then some false
    else do
      let (client_final, server_sig) ←
        clientFinal lib username password (firstBare lib key username) m
      let final := Command.saslContinue conversationId client_final
      let r ← server [start, final]
      if !isOne r.ok then some false
      else do
        let v ← serverSignature lib r.payload
        if v ≠ some server_sig then some false
        else if truthy r.done then some true
        else do
          let r ← server [start, final, .saslContinue conversationId []]
          if !isOne r.ok then some false else some (truthy r.done)

end Auth

end MongoAuth

end SkynetGame
