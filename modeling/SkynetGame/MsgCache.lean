import SkynetGame.MsgServer

/-!
# The response cache of the message server (`retire_response`, `do_request`)

Beside a message server stand the responses of each user that were completed or resent, and for each
entry how many there were with its last one, the connection on which its session was asked last, and
how it left the cache if a packet with its session did it.
-/

namespace SkynetGame

namespace MsgServer

variable {ν : Type*} [LinearOrder ν] [Zero ν]

/-- Whether the cache of its user has an entry. -/
def Holds (s : MsgServer ν) (p : ℕ) : Prop :=
  ((s.entries p).session, p) ∈ (s.users (s.entries p).user).response

instance (s : MsgServer ν) (p : ℕ) : Decidable (s.Holds p) := inferInstanceAs (Decidable (_ ∈ _))

/-- The user and the session of a packet that gets to the cache. -/
def asking (s : MsgServer ν) (fd : ℕ) (message : Bytes) : Option (ℕ × ℕ) :=
  if s.gate fd = some true ∧ s.handshake fd = none then
    match s.connection fd, sessionOf message with
    | some u, some session => some (u, session)
    | _, _ => none
  else none

/-- A message server with what happened to its caches. An entry has a stamp once its response was
completed or resent while it was in the cache. A connection is known by its generation. -/
structure Cache (ν : Type*) where
  s : MsgServer ν
  answered : ℕ → ℕ
  stamp : ℕ → Option ℕ
  asked : ℕ → ℕ
  -- asked again on the same connection, and asked again while its response was pending
  reused : ℕ → Bool
  conflicted : ℕ → Bool

namespace Cache

/-- The response of an entry is completed or resent. -/
def answer (c : Cache ν) (p : ℕ) : Cache ν :=
  let u := (c.s.entries p).user
  { c with
    answered := Function.update c.answered u (c.answered u + 1)
    stamp := if c.s.Holds p then Function.update c.stamp p (some (c.answered u + 1)) else c.stamp }

/-- A packet gets to the cache: its session has no entry, it has one with the version of the user,
or one that stays. -/
def ask (c : Cache ν) (fd u session : ℕ) : Cache ν :=
  match (c.s.users u).response.lookup session with
  | none => { c with asked := Function.update c.asked c.s.nEntries (c.s.gen fd) }
  | some p =>
    if (c.s.entries p).version = some (c.s.users u).version then
      let c := { c with
        reused := Function.update c.reused p (decide (c.s.gen fd = c.asked p)) }
      if (c.s.entries p).response.isNone then
        { c with conflicted := Function.update c.conflicted p true }
      else { c with asked := Function.update c.asked c.s.nEntries (c.s.gen fd) }
    else
      let c := { c with asked := Function.update c.asked p (c.s.gen fd) }
      if (c.s.entries p).response.isNone then c else c.answer p

/-- What an action adds to the record. -/
def note (c : Cache ν) : Action → Cache ν
  | .data fd message =>
    match c.s.asking fd message with
    | some (u, session) => c.ask fd u session
    | none => c
  | .finish p r => if (packResult (c.s.entries p).session r).isSome then c.answer p else c
  | _ => c

def step (conf : MsgConf ν) (c : Cache ν) (a : Action) : Option (Cache ν) :=
  (MsgServer.step conf c.s a).map fun s => { c.note a with s := s }

def init (conf : MsgConf ν) : Cache ν :=
  ⟨(MsgServer.machine conf).init, fun _ => 0, fun _ => none, fun _ => 0, fun _ => false,
    fun _ => false⟩

def machine (conf : MsgConf ν) : Machine (Cache ν) Action := ⟨init conf, step conf⟩

/-- A packet whose session has a complete entry with the version of the user comes on the connection
on which the session was asked last, or when the entry has been there for long enough. -/
def Tame (conf : MsgConf ν) (c : Cache ν) : Action → Prop
  | .data fd message => ∀ a ∈ c.s.asking fd message, ∀ p ∈ (c.s.users a.1).response.lookup a.2,
    (c.s.entries p).response.isSome →
    (c.s.entries p).version = some (c.s.users a.1).version →
      c.s.gen fd = c.asked p ∨ ∀ n ∈ c.stamp p, n + conf.expiredNumber ≤ c.answered a.1
  | _ => True

instance (conf : MsgConf ν) (c : Cache ν) : (a : Action) → Decidable (Tame conf c a)
  | .data fd message => inferInstanceAs (Decidable (∀ a ∈ c.s.asking fd message,
      ∀ p ∈ (c.s.users a.1).response.lookup a.2, (c.s.entries p).response.isSome →
      (c.s.entries p).version = some (c.s.users a.1).version →
        c.s.gen fd = c.asked p ∨ ∀ n ∈ c.stamp p, n + conf.expiredNumber ≤ c.answered a.1))
  | .login .. | .logout _ | .open .. | .close _ | .closed _ | .closeFailed _ | .finish .. =>
    .isTrue trivial

end Cache

end MsgServer

end SkynetGame
