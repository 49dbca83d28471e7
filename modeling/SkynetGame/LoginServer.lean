import SkynetGame.Crypt
import SkynetGame.Des
import SkynetGame.Lib.Run

/-!
# The login server of lualib/snax/loginserver.lua

For each connection the master calls a slave, which reads three lines from the socket and asks
`auth_handler`, and then goes on with the slave's reply. Connections share nothing but `user_login`.
Where one of them yields, in `readline`, in the handlers and in the call of the slave, the others may
go on.

What `auth_handler` returns for the server has the type `σ`. Where the uid is a key of a table it has
the type `κ`; nil and NaN are none.
-/

namespace SkynetGame

namespace LoginServer

open Base64 (base64encode base64decode Encodable)

/-- What `ret_pack` makes of the end of `auth`, or that the call of the slave raises an error. -/
inductive Reply (σ κ : Type*)
  | accepted (server : σ) (uid : Option κ) (secret : Bytes)
  | rejected
  | socketError
  | dead

/-- Where a connection is: `socket.start`, the three calls of `readline`, `auth_handler`, the slave's
reply on its way, and `login_handler`. -/
inductive Phase (σ κ : Type*)
  | idle
  | starting
  | handshake
  | response (secret : Bytes)
  | token (secret : Bytes)
  | auth (token secret : Bytes)
  | replied (r : Reply σ κ)
  | login (server : σ) (uid : Option κ) (secret : Bytes)
  | closed

/-- A connection. The lines that were read and written, the tokens that `auth_handler` accepted with
what it returned, and the calls of `login_handler` are kept beside. -/
structure Conn (σ κ : Type*) where
  phase : Phase σ κ
  challenge : Bytes
  serverkey : Bytes
  lost : Bool
  lines : List Bytes
  written : List Bytes
  accepted : List (Bytes × σ × Option κ)
  called : List (σ × Option κ × Bytes)

/-- How `auth_handler` ends: with an error, with a server and a uid, or with something that
`skynet.pack` raises an error for. -/
inductive AuthResult (σ κ : Type*)
  | raises
  | returns (server : σ) (uid : Option κ)
  | unpackable

/-- How `login_handler` ends: with an error, or with nil or false, with a string or a number, or with
anything else. -/
inductive LoginResult
  | raises
  | empty
  | text (s : Bytes)
  | other
deriving DecidableEq, Repr

variable {σ κ : Type*}

/-- `lrandomkey`, of eight bytes at random -/
def randomkey (random : Bytes) : Bytes :=
  if random.foldl (· ^^^ ·) 0 = 0 then random.modifyHead (· ||| 1) else random

/-- What follows the base64 text of a line. -/
def newline : Bytes := Bytes.ascii "\n"

namespace Conn

variable (c : Conn σ κ)

/-- The slave's coroutine ends. -/
def reply (r : Reply σ κ) : Conn σ κ := { c with phase := .replied r }

/-- `write` in the slave, and what follows it; an error is raised where the socket is not there. -/
def write (up : Bool) (text : Bytes) (k : Conn σ κ → Conn σ κ) : Conn σ κ :=
  if up then k { c with written := c.written ++ [text] } else c.reply .socketError

/-- `auth` up to the first `readline` -/
def authStart (random : Bytes) (up : Bool) : Conn σ κ :=
  let challenge := randomkey random
  c.write up (base64encode challenge ++ newline) fun c =>
    { c with challenge := challenge, phase := .handshake }

/-- `auth` with the first line, up to the second `readline`. A random key is no 0, for which the key
exchange would raise an error. -/
def authHandshake (handshake random : Bytes) (up : Bool) : Conn σ κ :=
  match base64decode handshake with
  | .error _ => c.reply .rejected
  | .ok clientkey =>
    if clientkey.length ≠ 8 then c.reply .rejected
    else
      let serverkey := randomkey random
      match Crypt.dhexchange serverkey with
      | some (.ok e) => c.write up (base64encode e ++ newline) fun c =>
        match Crypt.dhsecret clientkey serverkey with
        | some (.ok secret) => { c with serverkey := serverkey, phase := .response secret }
        | _ => c.reply .rejected
      | _ => c.reply .rejected

/-- `auth` with the second line, up to the third `readline` -/
def authResponse (secret response : Bytes) (up : Bool) : Conn σ κ :=
  match Hmac.hmac64 c.challenge secret with
  | .error _ => c.reply .rejected
  | .ok hmac =>
    match base64decode response with
    | .error _ => c.reply .rejected
    | .ok r =>
      if hmac ≠ r then c.write up (Bytes.ascii "400 Bad Request\n") fun c => c.reply .rejected
      else { c with phase := .token secret }

/-- `crypt.desdecode`, which raises an error also where it reads in front of its buffer: a block of
zeros has more padding than there may be, wherever the zeros end. -/
def decrypt (secret etoken : Bytes) : Option Bytes :=
  match Des.desdecode (fun _ => 0) secret etoken with
  | some (.ok token) => some token
  | _ => none

/-- `auth` with the third line, up to the call of `auth_handler` -/
def authToken (secret etoken : Bytes) : Conn σ κ :=
  match base64decode etoken with
  | .error _ => c.reply .rejected
  | .ok text =>
    match decrypt secret text with
    | some token => { c with phase := .auth token secret }
    | none => c.reply .rejected

/-- `auth` and `ret_pack` with what `auth_handler` did -/
def authReturn (token secret : Bytes) : AuthResult σ κ → Conn σ κ
  | .raises => c.reply .rejected
  | .returns server uid => { c with
      accepted := c.accepted ++ [(token, server, uid)]
      phase := .replied (.accepted server uid secret) }
  | .unpackable => c.reply .rejected

/-- The slave goes on with a line. -/
def read (line random : Bytes) (up : Bool) : Option (Conn σ κ) :=
  let c := { c with lines := c.lines ++ [line] }
  match c.phase with
  | .handshake => some (c.authHandshake line random up)
  | .response secret => some (c.authResponse secret line up)
  | .token secret => some (c.authToken secret line)
  | _ => none

/-- `write` in the master, at the end or with an error to follow, and `socket.close_fd` -/
def answer (up : Bool) (text : Bytes) : Conn σ κ :=
  { c with written := if up then c.written ++ [text] else c.written, phase := .closed }

/-- `login_handler` is called. -/
def call (server : σ) (uid : Option κ) (secret : Bytes) : Conn σ κ :=
  { c with called := c.called ++ [(server, uid, secret)], phase := .login server uid secret }

/-- The end of `accept`. What cannot be encoded raises an error, and there is no saying what becomes of
a text that is not `Encodable`. -/
def loginReturn (up : Bool) : LoginResult → Conn σ κ
  | .raises => c.answer up (Bytes.ascii "403 Forbidden\n")
  | .empty => c.answer up (Bytes.ascii "200 " ++ base64encode [] ++ newline)
  | .text err =>
    if Encodable err then c.answer up (Bytes.ascii "200 " ++ base64encode err ++ newline)
    else { c with phase := .closed }
  | .other => { c with phase := .closed }

end Conn

structure State (σ κ : Type*) where
  multilogin : Bool
  userLogin : κ → Bool
  conns : ℕ → Conn σ κ

def State.init (multilogin : Bool) : State σ κ where
  multilogin := multilogin
  userLogin _ := false
  conns _ := ⟨.idle, [], [], false, [], [], [], []⟩

def State.setConn (s : State σ κ) (fd : ℕ) (c : Conn σ κ) : State σ κ :=
  { s with conns := Function.update s.conns fd c }

variable [DecidableEq κ]

/-- `accept` with the slave's reply, up to the call of `login_handler`. An index that is nil raises an
error. -/
def accept (s : State σ κ) (fd : ℕ) (up : Bool) : Reply σ κ → State σ κ
  | .accepted server uid secret =>
    let c := s.conns fd
    if s.multilogin then s.setConn fd (c.call server uid secret)
    else
      match uid with
      | none => s.setConn fd { c with phase := .closed }
      | some k =>
        if s.userLogin k then s.setConn fd (c.answer up (Bytes.ascii "406 Not Acceptable\n"))
        else { s.setConn fd (c.call server uid secret) with
          userLogin := Function.update s.userLogin k true }
  | .rejected => s.setConn fd ((s.conns fd).answer up (Bytes.ascii "401 Unauthorized\n"))
  | _ => s.setConn fd { s.conns fd with phase := .closed }

/-- `accept` with what `login_handler` did: the uid is unlocked, and a line is written. -/
def unlock (s : State σ κ) (fd : ℕ) (uid : Option κ) (r : LoginResult) (up : Bool) : State σ κ :=
  match uid with
  | none => s.setConn fd { s.conns fd with phase := .closed }
  | some k => { s.setConn fd ((s.conns fd).loginReturn up r) with
      userLogin := Function.update s.userLogin k false }

/-- `socket.limit`, with the end of a line -/
def bufferLimit : ℕ := 8192

/-- A connection comes in; `socket.start` raises an error or not; a line is read; `readline` returns
false; the connection is lost; `auth_handler` ends; the slave is gone; the reply reaches the master;
`login_handler` ends. With `up` a write on the way is accepted. -/
inductive Label (σ κ : Type*)
  | connect (fd : ℕ)
  | startFails (fd : ℕ)
  | start (fd : ℕ) (random : Bytes) (up : Bool)
  | line (fd : ℕ) (text random : Bytes) (up : Bool)
  | eof (fd : ℕ)
  | lose (fd : ℕ)
  | authed (fd : ℕ) (r : AuthResult σ κ)
  | slaveDied (fd : ℕ)
  | replied (fd : ℕ) (up : Bool)
  | loggedIn (fd : ℕ) (r : LoginResult) (up : Bool)

/-- Whether the slave is at work for a connection. -/
def Phase.inSlave : Phase σ κ → Bool
  | .starting | .handshake | .response _ | .token _ | .auth _ _ => true
  | _ => false

/-- Whether the slave waits for a line. -/
def Phase.reads : Phase σ κ → Bool
  | .handshake | .response _ | .token _ => true
  | _ => false

/-- Whether a write may go as `up` says. -/
def Conn.MayWrite (c : Conn σ κ) (up : Bool) : Prop := up = true ∨ c.lost = true

instance (c : Conn σ κ) (up : Bool) : Decidable (c.MayWrite up) :=
  inferInstanceAs (Decidable (up = true ∨ c.lost = true))

def step (s : State σ κ) : Label σ κ → Option (State σ κ)
  | .connect fd =>
    match (s.conns fd).phase with
    | .idle => some (s.setConn fd { s.conns fd with phase := .starting })
    | _ => none
  | .startFails fd =>
    match (s.conns fd).phase with
    | .starting => some (s.setConn fd ((s.conns fd).reply .rejected))
    | _ => none
  | .start fd random up =>
    match (s.conns fd).phase with
    | .starting =>
      if random.length = 8 ∧ (s.conns fd).MayWrite up then
        some (s.setConn fd ((s.conns fd).authStart random up))
      else none
    | _ => none
  | .line fd text random up =>
    if text.length < bufferLimit ∧ random.length = 8 ∧ (s.conns fd).MayWrite up then
      ((s.conns fd).read text random up).map (s.setConn fd)
    else none
  | .eof fd =>
    if (s.conns fd).phase.reads ∧ (s.conns fd).lost = true then
      some (s.setConn fd ((s.conns fd).reply .socketError))
    else none
  | .lose fd => some (s.setConn fd { s.conns fd with lost := true })
  | .authed fd r =>
    match (s.conns fd).phase with
    | .auth token secret => some (s.setConn fd ((s.conns fd).authReturn token secret r))
    | _ => none
  | .slaveDied fd =>
    if (s.conns fd).phase.inSlave then some (s.setConn fd ((s.conns fd).reply .dead)) else none
  | .replied fd up =>
    match (s.conns fd).phase with
    | .replied r => if (s.conns fd).MayWrite up then some (accept s fd up r) else none
    | _ => none
  | .loggedIn fd r up =>
    match (s.conns fd).phase with
    | .login _ uid _ => if (s.conns fd).MayWrite up then some (unlock s fd uid r up) else none
    | _ => none

def machine (multilogin : Bool) : Machine (State σ κ) (Label σ κ) := ⟨.init multilogin, step⟩

/-! ## What a login is to be -/

/-- Whether a line is a status line. -/
def isStatus (line : Bytes) : Bool :=
  ["200 ", "400 ", "401 ", "403 ", "406 "].any fun code => (Bytes.ascii code).isPrefixOf line

/-- The client's key came with the first line, and the secret is that of both keys. -/
def Agreed (c : Conn σ κ) (handshake secret : Bytes) : Prop :=
  ∃ clientkey e, base64decode handshake = .ok clientkey ∧ clientkey.length = 8
    ∧ Crypt.dhexchange c.serverkey = some (.ok e)
    ∧ [base64encode c.challenge ++ newline, base64encode e ++ newline] <+: c.written
    ∧ Crypt.dhsecret clientkey c.serverkey = some (.ok secret)

/-- A line has the authentication code of the challenge. -/
def Proved (c : Conn σ κ) (response secret : Bytes) : Prop :=
  ∃ hmac, Hmac.hmac64 c.challenge secret = .ok hmac ∧ base64decode response = .ok hmac

/-- A line has the token. -/
def Decrypted (etoken secret token : Bytes) : Prop :=
  ∃ text, base64decode etoken = .ok text ∧ Conn.decrypt secret text = some token

/-- The lines of a connection allow for a call of `login_handler`. -/
def Justified (c : Conn σ κ) (server : σ) (uid : Option κ) (secret : Bytes) : Prop :=
  ∃ handshake response etoken token, c.lines = [handshake, response, etoken]
    ∧ Agreed c handshake secret ∧ Proved c response secret ∧ Decrypted etoken secret token
    ∧ (token, server, uid) ∈ c.accepted

/-- `login_handler` is at work for a uid. -/
def Conn.LogsIn (c : Conn σ κ) (uid : κ) : Prop :=
  ∃ server secret, c.phase = .login server (some uid) secret

/-- `login_handler` is called where it may be and once for a connection; a uid is locked only while it is
at work, which it is for one connection at a time; and a connection that is not lost has one status
line, at its end. -/
structure Sound (s : State σ κ) : Prop where
  justified : ∀ fd, ∀ p ∈ (s.conns fd).called, Justified (s.conns fd) p.1 p.2.1 p.2.2
  once : ∀ fd, (s.conns fd).called.length ≤ 1
  alone : s.multilogin = false → ∀ fd fd' uid, (s.conns fd).LogsIn uid →
    (s.conns fd').LogsIn uid → fd = fd'
  unlocked : ∀ uid, s.userLogin uid = true → ∃ fd, (s.conns fd).LogsIn uid
  closed : ∀ fd, (s.conns fd).lost = false → (s.conns fd).phase = .closed →
    ((s.conns fd).written.filter isStatus).length = 1
  before : ∀ fd, (s.conns fd).lost = false → (s.conns fd).phase ≠ .closed →
    (s.conns fd).written.filter isStatus = []

/-- A second line that is decoded has the authentication code, a slave is not gone, `auth_handler`
returns a uid that is a key of a table, and `login_handler` what can be encoded, or the connection is
lost. -/
def Tame (s : State σ κ) : Label σ κ → Prop
  | .line fd text _ _ => ∀ secret hmac r, (s.conns fd).phase = .response secret →
      Hmac.hmac64 (s.conns fd).challenge secret = .ok hmac → base64decode text = .ok r →
      r = hmac ∨ (s.conns fd).lost = true
  | .authed fd (.returns _ uid) => uid.isSome = true ∨ (s.conns fd).lost = true
  | .slaveDied fd => (s.conns fd).lost = true
  | .loggedIn fd (.text err) _ => Encodable err ∨ (s.conns fd).lost = true
  | .loggedIn fd .other _ => (s.conns fd).lost = true
  | _ => True

/-! ## The client of examples/login/client.lua -/

/-- `unpack_line` -/
def unpackLine : Bytes → Option (Bytes × Bytes)
  | [] => none
  | ch :: text =>
    if ch = 10 then some ([], text) else (unpackLine text).map fun r => (ch :: r.1, r.2)

/-- The client: what its key is made of, and what `encode_token` returns. -/
structure Client where
  random : Bytes
  token : Bytes

namespace Client

variable (c : Client)

def clientkey : Bytes := randomkey c.random

/-- `secret`, with the line that the server's key is in -/
def secret (line : Bytes) : Option Bytes :=
  match base64decode line with
  | .error _ => none
  | .ok serverkey =>
    match Crypt.dhsecret serverkey c.clientkey with
    | some (.ok secret) => some secret
    | _ => none

/-- The challenge and the secret, from what has come of the server. -/
def agreed (text : Bytes) : Option (Bytes × Bytes) :=
  (unpackLine text).bind fun (line, text) =>
    match base64decode line with
    | .error _ => none
    | .ok challenge => (unpackLine text).bind fun (line, _) =>
      (c.secret line).map fun secret => (challenge, secret)

/-- The lines that are sent with the secret. -/
def answers (challenge secret : Bytes) : List Bytes :=
  match Hmac.hmac64 challenge secret with
  | .error _ => []
  | .ok hmac => base64encode hmac ::
    match Des.desencode (fun _ => 0) secret c.token with
    | some (.ok etoken) => [base64encode etoken]
    | _ => []

/-- The lines that the client has sent once it has got `text`. An error is the end of it. -/
def sent (text : Bytes) : List Bytes :=
  match unpackLine text with
  | none => []
  | some (line, _) =>
    match base64decode line, Crypt.dhexchange c.clientkey with
    | .ok _, some (.ok e) => base64encode e ::
      match c.agreed text with
      | some (challenge, secret) => c.answers challenge secret
      | none => []
    | _, _ => []

/-- `subid`, from the third line. -/
def subid (text : Bytes) : Option Bytes :=
  (unpackLine text).bind fun (_, text) => (unpackLine text).bind fun (_, text) =>
    (unpackLine text).bind fun (result, _) =>
      if result.take 3 = Bytes.ascii "200" then (base64decode (result.drop 4)).toOption else none

end Client

/-- Whether a line says that the handshake failed. -/
def refused (line : Bytes) : Bool :=
  ["400 ", "401 "].any fun code => (Bytes.ascii code).isPrefixOf line

/-- A connection whose client is honest: `login_handler` is called for its token and with its secret,
and what it returns gets there. None is refused, and while the server waits for a line it is sent. -/
structure Served (client : Client) (c : Conn σ κ) : Prop where
  accepted : ∀ p ∈ c.accepted, p.1 = client.token
  secret : ∀ p ∈ c.called, client.agreed c.written.flatten = some (c.challenge, p.2.2)
  notRefused : ∀ line ∈ c.written, refused line = false
  answered : c.phase.reads = true → ∃ line,
    (client.sent c.written.flatten)[c.lines.length]? = some line ∧ line.length < bufferLimit
  subid : ∀ server uid secret err, c.phase = .login server uid secret → Base64.Encodable err →
    Client.subid (c.loginReturn true (.text err)).written.flatten = some err

end LoginServer

end SkynetGame
