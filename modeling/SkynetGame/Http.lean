import SkynetGame.Lib.LuaNumber

/-!
# HTTP (`lualib/http/internal.lua` and `lualib/http/httpd.lua`)

Bytes come from `readbytes`: it gives just as many as it is asked for, or else those that are there,
one at least, and raises an error when the stream has ended. How a stream is split is told by how
many bytes there are at once (less one) when so many are left. Each loop takes something from what is
left or is in the buffer, which bounds its rounds; in the last one the stream has ended.
-/

namespace SkynetGame

namespace Http

open LuaNumber
open LuaPattern (memFind strMatch)

/-- What ends a call that returns nothing. -/
inductive Fail
  | socketError
  | negative
  | raised
deriving DecidableEq, Repr

section Strings

def crln : Bytes := Bytes.ascii "\r\n"

/-- The end of a header: `"\r\n\r\n"`. -/
def blank : Bytes := Bytes.ascii "\r\n\r\n"

/-- `posrelat` of `3rd/lua/lstrlib.c`. -/
def posrelat (pos : ℤ) (len : ℕ) : ℤ :=
  if 0 ≤ pos then pos else if len < -pos then 0 else len + pos + 1

/-- `string.sub`. -/
def sub (s : Bytes) (i j : ℤ) : Bytes :=
  let start := max (posrelat i s.length) 1
  let stop := min (posrelat j s.length) s.length
  (s.drop (start - 1).toNat).take (stop - start + 1).toNat

/-- A plain `string.find` behind the first `n` bytes: how many bytes are in front of the text. -/
def findFrom (s : Bytes) (n : ℕ) (text : Bytes) : Option ℕ :=
  (memFind (s.drop n) text).map (· + n)

/-- The lines that `gmatch("(.-)\r\n")` gives, up to the first empty one. -/
def headerLines (line : Bytes) : Bytes → List Bytes
  | 13 :: 10 :: r => if line = [] then [] else line :: headerLines [] r
  | c :: r => headerLines (line ++ [c]) r
  | [] => []

end Strings

/-- The value of a field of a header; there are several when its name is repeated. -/
inductive Field
  | str (value : Bytes)
  | list (values : List Bytes)
deriving DecidableEq, Repr

/-- The table of a header. -/
abbrev Header := Bytes → Option Field

section Internal

variable (cut : ℕ → ℕ)

/-- `readbytes()`. -/
def readsome (left : Bytes) : Except Fail (Bytes × Bytes) :=
  if left = [] then .error .socketError
  else .ok (left.take (cut left.length + 1), left.drop (cut left.length + 1))

/-- `readbytes(sz)`. -/
def readbytes (sz : ℤ) (left : Bytes) : Except Fail (Bytes × Bytes) :=
  if sz < 0 then .error .negative
  else if left.length < sz then .error .socketError
  else .ok (left.take sz.toNat, left.drop sz.toNat)

/-- `chunksize`: the size, and what is left of the buffer; nothing where no size is returned. -/
def chunksize (body left : Bytes) (n : ℕ) : Except Fail (Option (ℤ × Bytes) × Bytes) :=
  match memFind body crln with
  | some f => .ok ((tonumberBase 16 (body.take f)).map fun sz => (sz, body.drop (f + 2)), left)
  | none =>
    if 128 < body.length then .ok (none, left)
    else
      match n with
      | 0 => .error .socketError
      | n + 1 => do
        let (bytes, left) ← readsome cut left
        chunksize (body ++ bytes) left n

def readcrln (body left : Bytes) : Except Fail (Option Bytes × Bytes) :=
  if 2 ≤ body.length then
    if body.take 2 = crln then .ok (some (body.drop 2), left) else .ok (none, left)
  else do
    let (bytes, left) ← readbytes (2 - body.length) left
    if body ++ bytes = crln then .ok (some [], left) else .ok (none, left)

/-- The loop of `recvheader`. -/
def recvheaderLoop (header left : Bytes) : ℕ → Except Fail (Option (List Bytes × Bytes) × Bytes)
  | 0 => .error .socketError
  | n + 1 => do
    let (bytes, left) ← readsome cut left
    let header := header ++ bytes
    if 8192 < header.length then .ok (none, left)
    else
      match findFrom header (header.length - (bytes.length + 3)) blank with
      | some e => .ok (some (headerLines [] header, header.drop (e + 4)), left)
      | none =>
        if header.take 2 = crln then .ok (some ([], header.drop 2), left)
        else recvheaderLoop header left n

/-- `recvheader`: the lines it finds, and what is left of the buffer. -/
def recvheader (header left : Bytes) : Except Fail (Option (List Bytes × Bytes) × Bytes) :=
  if 2 ≤ header.length ∧ header.take 2 = crln then .ok (some ([], header.drop 2), left)
  else
    match memFind header blank with
    | some e => .ok (some (headerLines [] header, header.drop (e + 4)), left)
    | none => recvheaderLoop cut header left left.length

/-- `parseheader`, with the name of the last field. -/
def parseheader (name : Option Bytes) (header : Header) : List Bytes → Except Fail (Option Header)
  | [] => .ok (some header)
  | line :: lines =>
    if line.head? = some 9 then
      match name with
      | none => .ok none
      | some n =>
        match header n with
        | some (.str v) =>
          parseheader name (Function.update header n (some (.str (v ++ line.drop 1)))) lines
        | _ => .error .raised
    else
      match strMatch line (Bytes.ascii "^(.-):%s*(.*)") with
      | none => .error .raised
      | some [.str name, .str value] =>
        let name := Bytes.lower name
        let field : Field :=
          match header name with
          | some (.list vs) => .list (vs ++ [value])
          | some (.str v) => .list [v, value]
          | none => .str value
        parseheader (some name) (Function.update header name (some field)) lines
      | some _ => .ok none

/-- `bodylimit and size > bodylimit`. -/
def exceeds (bodylimit : Option ℕ) (size : ℤ) : Bool :=
  bodylimit.any fun limit : ℕ => (limit : ℤ) < size

/-- The loop of `recvchunkedbody`: the body, and what is left of the buffer. -/
def chunkedLoop (bodylimit : Option ℕ) (result : Bytes) (size : ℤ) (body left : Bytes) :
    ℕ → Except Fail (Option (Bytes × Bytes) × Bytes)
  | 0 => .error .socketError
  | n + 1 => do
    match ← chunksize cut body left left.length with
    | (none, left) => .ok (none, left)
    | (some (sz, body), left) =>
      if sz = 0 then .ok (some (result, body), left)
      else
        let size := wrap (size + sz)
        if exceeds bodylimit size then .ok (none, left)
        else do
          let ((result, body), left) ←
            if sz ≤ body.length then
              .ok ((result ++ sub body 1 sz, sub body (sz + 1) (-1)), left)
            else do
              let (bytes, left) ← readbytes (sz - body.length) left
              .ok ((result ++ body ++ bytes, []), left)
          match ← readcrln body left with
          | (none, left) => .ok (none, left)
          | (some body, left) => chunkedLoop bodylimit result size body left n

/-- `recvchunkedbody`: the body, and the header if its end can be parsed. -/
def recvchunkedbody (bodylimit : Option ℕ) (header : Header) (body left : Bytes) :
    Except Fail (Option (Bytes × Option Header) × Bytes) := do
  match ← chunkedLoop cut bodylimit [] 0 body left (body.length + left.length) with
  | (none, left) => .ok (none, left)
  | (some (result, body), left) =>
    match ← recvheader cut body left with
    | (none, left) => .ok (none, left)
    | (some (tmpline, _), left) => do
      let header ← parseheader none header tmpline
      .ok (some (result, header), left)

end Internal

section Httpd

/-- What the code uses of floats. -/
structure Floats where
  φ : Type
  /-- `l_str2d` of `3rd/lua/lobject.c` -/
  l_str2d : Bytes → Option φ
  gt : φ → ℕ → Bool
  le : φ → ℕ → Bool
  minus : φ → ℕ → φ
  /-- The integer that a float is, if it is one. -/
  toInteger : φ → Option ℤ
  /-- A version from 1.0 to 1.1. -/
  version : Number φ → Bool

section Lengths

variable (F : Floats)

/-- `length > n`. -/
def Floats.numGt : Number F.φ → ℕ → Bool
  | .int k, n => n < k
  | .float x, n => F.gt x n

/-- `n >= length`. -/
def Floats.numLe : Number F.φ → ℕ → Bool
  | .int k, n => k ≤ n
  | .float x, n => F.le x n

/-- `length - n`. -/
def Floats.numMinus : Number F.φ → ℕ → Number F.φ
  | .int k, n => .int (k - n)
  | .float x, n => .float (F.minus x n)

/-- An argument that has to be an integer. -/
def Floats.integer : Number F.φ → Except Fail ℤ
  | .int k => .ok k
  | .float x =>
    match F.toInteger x with
    | some k => .ok k
    | none => .error .raised

/-- `tonumber` of what a header has under a name; it is nil for a table. -/
def Floats.fieldNumber : Option Field → Option (Number F.φ)
  | some (.str v) => tonumber F.l_str2d v
  | some (.list _) | none => none

end Lengths

/-- What a request is answered with, or what was read of it. -/
inductive Reply
  | status (code : ℕ)
  | request (url method : Bytes) (header : Option Header) (body : Bytes)

variable (F : Floats) (cut : ℕ → ℕ) (bodylimit : Option ℕ)

/-- The identity mode of `readall`; nothing is returned for a body that is too large. -/
def identityBody (length : Option (Number F.φ)) (body left : Bytes) : Except Fail (Option Bytes × Bytes) :=
  match length with
  | none => .ok (some body, left)
  | some length =>
    if bodylimit.any fun limit : ℕ => F.numGt length limit then .ok (none, left)
    else if F.numLe length body.length then do
      let stop ← F.integer length
      .ok (some (sub body 1 stop), left)
    else do
      let sz ← F.integer (F.numMinus length body.length)
      let (padding, left) ← readbytes sz left
      .ok (some (body ++ padding), left)

def contentLength : Bytes := Bytes.ascii "content-length"

def transferEncoding : Bytes := Bytes.ascii "transfer-encoding"

/-- `readall` behind the header. -/
def readbody (url method : Bytes) (header : Header) (body left : Bytes) : Except Fail (Reply × Bytes) :=
  let mode := header transferEncoding
  if mode = some (.str (Bytes.ascii "chunked")) then do
    match ← recvchunkedbody cut bodylimit header body left with
    | (none, left) => .ok (.status 413, left)
    | (some (body, header), left) => .ok (.request url method header body, left)
  else if mode = none ∨ mode = some (.str (Bytes.ascii "identity")) then do
    match ← identityBody F bodylimit (F.fieldNumber (header contentLength)) body left with
    | (none, left) => .ok (.status 413, left)
    | (some body, left) => .ok (.request url method (some header) body, left)
  else .ok (.status 501, left)

/-- `readall`; `read_request` returns nil for an error. -/
def readall (left : Bytes) : Except Fail (Reply × Bytes) := do
  match ← recvheader cut [] left with
  | (none, left) => .ok (.status 413, left)
  | (some ([], _), _) => .error .raised
  | (some (request :: lines, body), left) =>
    match strMatch request (Bytes.ascii "^(%a+)%s+(.-)%s+HTTP/([%d%.]+)$") with
    | some [.str method, .str url, .str httpver] =>
      match tonumber F.l_str2d httpver with
      | none => .error .raised
      | some httpver =>
        if F.version httpver then do
          match ← parseheader none (fun _ => none) lines with
          | none => .ok (.status 400, left)
          | some header => readbody F cut bodylimit url method header body left
        else .ok (.status 505, left)
    | _ => .error .raised

def http_status_msg : List (ℕ × String) := [
  (100, "Continue"), (101, "Switching Protocols"), (200, "OK"), (201, "Created"),
  (202, "Accepted"), (203, "Non-Authoritative Information"), (204, "No Content"),
  (205, "Reset Content"), (206, "Partial Content"), (300, "Multiple Choices"),
  (301, "Moved Permanently"), (302, "Found"), (303, "See Other"), (304, "Not Modified"),
  (305, "Use Proxy"), (307, "Temporary Redirect"), (400, "Bad Request"), (401, "Unauthorized"),
  (402, "Payment Required"), (403, "Forbidden"), (404, "Not Found"), (405, "Method Not Allowed"),
  (406, "Not Acceptable"), (407, "Proxy Authentication Required"), (408, "Request Time-out"),
  (409, "Conflict"), (410, "Gone"), (411, "Length Required"), (412, "Precondition Failed"),
  (413, "Request Entity Too Large"), (414, "Request-URI Too Large"),
  (415, "Unsupported Media Type"), (416, "Requested range not satisfiable"),
  (417, "Expectation Failed"), (500, "Internal Server Error"), (501, "Not Implemented"),
  (502, "Bad Gateway"), (503, "Service Unavailable"), (504, "Gateway Time-out"),
  (505, "HTTP Version not supported")]

/-- What `write_response` takes for a body: a string, what a function gives until it gives nil, or
nil. -/
inductive BodyFunc
  | str (s : Bytes)
  | func (ss : List Bytes)
  | none

/-- `HTTP/1.1 %03d %s`. -/
def statusLine (statuscode : ℕ) : Bytes :=
  let code := numeral 10 statuscode
  Bytes.ascii "HTTP/1.1 " ++ List.replicate (3 - code.length) 48 ++ code ++ Bytes.ascii " " ++
    Bytes.ascii ((http_status_msg.lookup statuscode).getD "") ++ crln

/-- `%s: %s` -/
def fieldLine (k v : Bytes) : Bytes := k ++ Bytes.ascii ": " ++ v ++ crln

/-- The lines of a field. -/
def fieldLines : Bytes × Field → List Bytes
  | (k, .str v) => [fieldLine k v]
  | (k, .list vs) => vs.map (fieldLine k)

/-- What is written of a string that the function gives. -/
def chunk (s : Bytes) : List Bytes :=
  if s = [] then [] else [crln ++ numeral 16 s.length ++ crln, s]

/-- What is written for the body. -/
def bodyLines : BodyFunc → List Bytes
  | .str s => [Bytes.ascii "content-length: " ++ numeral 10 s.length ++ blank, s]
  | .func ss => Bytes.ascii "transfer-encoding: chunked\r\n" :: ss.flatMap chunk ++
      [Bytes.ascii "\r\n0\r\n\r\n"]
  | .none => [crln]

/-- `writeall`: what is written, with the fields of the header in the order they come in. -/
def writeall (statuscode : ℕ) (header : List (Bytes × Field)) (bodyfunc : BodyFunc) : List Bytes :=
  statusLine statuscode :: header.flatMap fieldLines ++ bodyLines bodyfunc

end Httpd

end Http

end SkynetGame
