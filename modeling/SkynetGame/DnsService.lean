import SkynetGame.Dns
import SkynetGame.Lib.Run

/-!
# The queries of `lualib/dns.lua`

A query is sent and put into the pool under its id; its coroutine waits until an answer with this id
or its timer wakes it. `skynet.wakeup` only marks a coroutine, which is resumed later. A request is
known by when it was put into the pool: the pool and the coroutine share the table.
-/

namespace SkynetGame

namespace Dns

open Endian (be)

section Names

/-- A character of `[_%l%d%-%.]`. -/
def nameChar (c : UInt8) : Bool :=
  c = 95 || LuaPattern.islower c || LuaPattern.isdigit c || c = 45 || c = 46

/-- A character of `[_%w%-]`. -/
def labelChar (c : UInt8) : Bool := c = 95 || LuaPattern.isalnum c || c = 45

/-- What `gmatch("([_%w%-]+)%.?")` gives. -/
def labels (name : Bytes) : List Bytes :=
  (name.splitOnP fun c => !labelChar c).filter (· ≠ [])

def verify_domain_name (name : Bytes) : Bool :=
  name.length ≤ 1024 && name ≠ [] && name.all nameChar && (labels name).all fun w => w.length ≤ 63

end Names

section Query

/-- `>H` of `string.pack`, which raises an error for a number that is too large. -/
def packUint16 (n : ℕ) : Option Bytes := if n < 0x10000 then some (be 2 n) else none

/-- `pack_header` of a query: flags 0x100, one question, and nothing else. -/
def pack_header (tid : ℕ) : Option Bytes :=
  (packUint16 tid).map fun b => b ++ be 2 0x100 ++ be 2 1 ++ be 2 0 ++ be 2 0 ++ be 2 0

/-- `pack_question`, for the class `IN`. -/
def pack_question (name : Bytes) (qtype : QType) : Bytes :=
  (labels name).flatMap (fun w => be 1 w.length ++ w) ++ [0] ++ be 2 qtype.atype ++ be 2 1

end Query

/-- An entry of a cache, with the time it is good until. -/
structure Entry where
  answers : List Bytes
  ttl : ℕ
deriving DecidableEq, Repr

/-- A request, with what has come of it. -/
structure Request where
  name : Bytes
  tid : ℕ
  qtype : QType
  answers : Option (List Bytes)
  /-- The coroutine is in `sleep_session`. -/
  asleep : Bool
  /-- The coroutine is in `wakeup_session`. -/
  woken : Bool
  /-- The timer has not fired yet. -/
  timer : Bool
  resumed : ℕ
deriving DecidableEq, Repr

/-- What a call of `dns.resolve` ends with. -/
inductive Outcome
  | answers (as : List Bytes)
  | illegalName
  | unsignedOverflow
  | noServer
  | noAnswer
deriving DecidableEq, Repr

structure State where
  dns_server : Bool
  next_tid : ℕ
  CACHE : QType → Bytes → Option Entry
  now : ℕ
  requests : List Request
  request_pool : ℕ → Option ℕ
  sent : List Bytes
  /-- The calls that have ended, with the name and type that were asked for. -/
  ended : List (Bytes × QType × Outcome)

def State.init : State where
  dns_server := false
  next_tid := 1
  CACHE _ _ := none
  now := 0
  requests := []
  request_pool _ := none
  sent := []
  ended := []

section Operations

variable (s : State)

/-- `CACHE[qtype][name] = e` -/
def State.setEntry (qtype : QType) (name : Bytes) (e : Option Entry) : State :=
  let cache := Function.update s.CACHE qtype (Function.update (s.CACHE qtype) name e)
  { s with CACHE := cache }

def lookup_cache (name : Bytes) (qtype : QType) (ignorettl : Bool) : Option (List Bytes) :=
  match s.CACHE qtype name with
  | some result => if ignorettl || s.now < result.ttl then some result.answers else none
  | none => none

/-- A call ends. -/
def State.finish (name : Bytes) (qtype : QType) (o : Outcome) : State :=
  { s with ended := s.ended ++ [(name, qtype, o)] }

/-- `suspend` up to where the coroutine waits. -/
def suspend (tid : ℕ) (name : Bytes) (qtype : QType) : State :=
  { s with
    requests := s.requests ++ [⟨name, tid, qtype, none, true, false, true, 0⟩]
    request_pool := Function.update s.request_pool tid (some s.requests.length) }

/-- The type that `dns.resolve` asks for. -/
def qtypeOf (ipv6 : Bool) : QType := if ipv6 then .AAAA else .A

/-- `dns.resolve` up to where it waits or ends. -/
def resolve (name : Bytes) (ipv6 : Bool) : State :=
  let qtype := qtypeOf ipv6
  let name := Bytes.lower name
  if !verify_domain_name name then s.finish name qtype .illegalName
  else
    match lookup_cache s name qtype false with
    | some as => s.finish name qtype (.answers as)
    | none =>
      let tid := s.next_tid
      let s := { s with next_tid := s.next_tid + 1 }
      match pack_header tid with
      | none => s.finish name qtype .unsignedOverflow
      | some header =>
        if s.dns_server then
          suspend { s with sent := s.sent ++ [header ++ pack_question name qtype] } tid name qtype
        else s.finish name qtype .noServer

/-- The request's coroutine is marked, if it sleeps. -/
def Request.wake (r : Request) : Request := if r.asleep then { r with woken := true } else r

/-- `skynet.wakeup` of the coroutine of a request. -/
def wakeup (i : ℕ) : State := { s with requests := s.requests.modify i Request.wake }

/-- The cache keeps the addresses of a type, if there are any. -/
def State.keep (name : Bytes) (a : Addresses) (qtype : QType) : State :=
  if a.of qtype = [] then s
  else
    s.setEntry qtype name (some ⟨a.of qtype, s.now + a.ttl.getD 0 * 100⟩)

/-- The caches keep the addresses of a packet. -/
def State.store (p : Packet) : State :=
  (s.keep p.question.name p.addresses .A).keep p.question.name p.addresses .AAAA

/-- The request gets what the cache has for it. -/
def takeAnswers (r : Request) : Request :=
  match s.CACHE r.qtype r.name with
  | some e => { r with answers := some e.answers }
  | none => r

/-- `resolve` of a packet that has been read. -/
def answer (p : Packet) : State :=
  let s := s.store p
  match s.request_pool p.tid with
  | none => s
  | some i =>
    -- a name that is another one is only logged
    wakeup { s with requests := s.requests.modify i (takeAnswers s) } i

/-- The timer of a request has fired: what the pool has under its id is cancelled. -/
def timeout (r : Request) : State :=
  match s.request_pool r.tid with
  | none => s
  | some j => wakeup { s with request_pool := Function.update s.request_pool r.tid none } j

/-- `suspend` from where the coroutine is resumed. -/
def resume (r : Request) : State :=
  let s := { s with request_pool := Function.update s.request_pool r.tid none }
  match r.answers with
  | some as => s.finish r.name r.qtype (.answers as)
  | none =>
    match lookup_cache s r.name r.qtype true with
    | some as => s.finish r.name r.qtype (.answers as)
    | none => s.finish r.name r.qtype .noAnswer

end Operations

/-- What happens: `dns.server` and `dns.resolve` are called, a packet comes, the timer of a request
fires, `dispatch_wakeup` resumes its coroutine, time goes on, and a weak table loses an entry. -/
inductive Event
  | server
  | resolve (name : Bytes) (ipv6 : Bool)
  | recv (content : Bytes)
  | timeout (i : ℕ)
  | resume (i : ℕ)
  | tick
  | collect (qtype : QType) (name : Bytes)
deriving DecidableEq, Repr

/-- What a packet is read as, if it is read to an end. -/
def received (content : Bytes) : Looped (Option Packet) := readPacket (content.length + 2) content

def step (s : State) : Event → Option State
  | .server => some { s with dns_server := true }
  | .resolve name ipv6 => some (resolve s name ipv6)
  | .recv content =>
    (received content).map fun
      | .ok (some p) => answer s p
      | .ok none | .error () => s
  | .timeout i =>
    match s.requests[i]? with
    | some r =>
      if r.timer then
        some (timeout { s with requests := s.requests.set i { r with timer := false } } r)
      else none
    | none => none
  | .resume i =>
    match s.requests[i]? with
    | some r =>
      if r.woken then
        let r' := { r with woken := false, asleep := false, resumed := r.resumed + 1 }
        some (resume { s with requests := s.requests.set i r' } r)
      else none
    | none => none
  | .tick => some { s with now := s.now + 1 }
  | .collect qtype name => some (s.setEntry qtype name none)

/-- The service. -/
def machine : Machine State Event where
  init := State.init
  step := step

end Dns

end SkynetGame
