import SkynetGame.Lib.Run
import SkynetGame.Lib.Tally
import Mathlib.Data.List.AList

/-!
# The watchdog (`servers/gameserver/watchdog.lua`)

A handler runs until it yields in `skynet.call` or `skynet.newservice`; it is then suspended until
the reply comes, while others run. A handler that raises an error ends there: for the commands
`skynet_util.lua_docmd` catches it, for socket events `skynet.dispatch` does. What a handler sends
to the gate and the agents is not kept, only what comes back.
-/

namespace SkynetGame

/-- `sock_type` after the default was put in. -/
inductive SockType
  | bsd
  | websocket
  | other
deriving DecidableEq, Repr

namespace Watchdog

/-- Where a handler is suspended. -/
inductive Handler
  -- in `skynet.newservice("agent")`
  | newAgent (fd : ℕ) (sock : SockType)
  -- in the call of "start"
  | starting (fd : ℕ)
  -- in a call after which nothing is left to do
  | last
  -- in `close_agent`, in the call of "exit"
  | exiting (fd a : ℕ)
  -- in `CMD.kick`, in the call of the gate
  | kicking (fd : ℕ)
  -- in `CMD.kick`, in the call of the agent
  | kickUser (fd : ℕ)
  -- in `CMD.redirect_agent`, in the call of the gate
  | redirectKick (a : ℕ)
  -- in `CMD.redirect_agent`, in the call of "on_socket_redirect"
  | redirecting
  | done
deriving DecidableEq, Repr

/-- What comes back: an error, or a value (the new address, or the `errCode` of an exit). -/
inductive Reply
  | raise
  | ok (v : ℕ)
deriving DecidableEq, Repr

end Watchdog

/-- The state of the watchdog; `moved` counts the agents that `redirect_agent` took out of the
table and `forward` has not put back. -/
structure Watchdog where
  agent : AList (fun _ : ℕ => ℕ)
  clientNumber : ℤ
  maxclient : ℕ
  handlers : List Watchdog.Handler
  moved : ℤ

namespace Watchdog

/-- `close_agent`, up to its call. -/
def closeAgent (s : Watchdog) (fd : ℕ) : Watchdog × Handler :=
  match s.agent.lookup fd with
  | some a => (s, .exiting fd a)
  | none => (s, .done)

/-- `SOCKET.open`, up to its first call. -/
def socketOpen (s : Watchdog) (fd : ℕ) (sock : SockType) : Watchdog × Handler :=
  if s.clientNumber + 1 < s.maxclient then (s, .newAgent fd sock)
  else (s, if sock = .other then .done else .last)

/-- `SOCKET.close`, and `SOCKET.error`, which does the same. -/
def socketClose (s : Watchdog) (fd : ℕ) : Watchdog :=
  { s with
    clientNumber := if (s.agent.lookup fd).isSome then s.clientNumber - 1 else s.clientNumber
    agent := s.agent.erase fd }

/-- `CMD.redirect_agent`, up to its first call. -/
def redirectAgent (s : Watchdog) (oldFd : ℕ) (sock : SockType) : Watchdog × Handler :=
  match s.agent.lookup oldFd with
  | some a =>
    ({ s with agent := s.agent.erase oldFd, moved := s.moved + 1 },
      if sock = .other then .redirecting else .redirectKick a)
  | none => (s, .done)

/-- `CMD.kick` from the look at the table on. -/
def kickAgent (s : Watchdog) (fd : ℕ) : Watchdog × Handler :=
  match s.agent.lookup fd with
  | some _ => (s, .kickUser fd)
  | none => s.closeAgent fd

/-- `CMD.kick`, up to its first call. -/
def kick (s : Watchdog) (fd : ℕ) (sock : SockType) : Watchdog × Handler :=
  if sock = .other then s.kickAgent fd else (s, .kicking fd)

/-- `CMD.forward`; no `source` is `nil`. -/
def forward (s : Watchdog) (source : Option ℕ) (fd : ℕ) : Watchdog :=
  match s.agent.lookup fd, source with
  | none, some a => { s with agent := s.agent.insert fd a, moved := s.moved - 1 }
  | _, _ => s

/-- `CMD.unforward`. -/
def unforward (s : Watchdog) (fd : ℕ) : Watchdog :=
  { s with clientNumber := s.clientNumber - 1, agent := s.agent.erase fd }

/-- A suspended handler goes on with a reply. -/
def resume (s : Watchdog) : Handler → Reply → Watchdog × Handler
  | .newAgent fd sock, .ok a =>
    let s := { s with agent := s.agent.insert fd a }
    if sock = .other then ({ s with clientNumber := s.clientNumber + 1 }, .done)
    else (s, .starting fd)
  | .starting _, .ok _ => ({ s with clientNumber := s.clientNumber + 1 }, .done)
  | .exiting fd _, .ok errCode =>
    if errCode = 0 then
      ({ s with clientNumber := s.clientNumber - 1, agent := s.agent.erase fd }, .done)
    else (s, .done)
  | .kicking fd, .ok _ => s.kickAgent fd
  | .kickUser fd, .ok _ => s.closeAgent fd
  | .redirectKick _, .ok _ => (s, .redirecting)
  | .redirecting, .ok _ | .last, .ok _ | .done, .ok _ => (s, .done)
  | _, .raise => (s, .done)

/-- What a run may do next: a message comes in, or a reply. -/
inductive Action
  | open (fd : ℕ) (sock : SockType)
  | close (fd : ℕ)
  | error (fd : ℕ)
  | kick (fd : ℕ) (sock : SockType)
  | closeAgent (fd : ℕ)
  | redirectAgent (oldFd : ℕ) (sock : SockType)
  | forward (source : Option ℕ) (fd : ℕ)
  | unforward (fd : ℕ)
  | reply (t : ℕ) (r : Reply)
deriving DecidableEq, Repr

/-- A new handler. -/
def start (r : Watchdog × Handler) : Watchdog :=
  { r.1 with handlers := r.1.handlers ++ [r.2] }

/-- One step, up to where a handler yields or ends. -/
def step (s : Watchdog) : Action → Option Watchdog
  | .open fd sock => some (start (s.socketOpen fd sock))
  | .close fd | .error fd => some (s.socketClose fd)
  | .kick fd sock => some (start (s.kick fd sock))
  | .closeAgent fd => some (start (s.closeAgent fd))
  | .redirectAgent oldFd sock => some (start (s.redirectAgent oldFd sock))
  | .forward source fd => some (s.forward source fd)
  | .unforward fd => some (s.unforward fd)
  | .reply t r =>
    (s.handlers[t]?).map fun h =>
      { (s.resume h r).1 with handlers := s.handlers.set t (s.resume h r).2 }

/-- The watchdog as a machine, with the `maxclient` it was started with. -/
def machine (maxclient : ℕ) : Machine Watchdog Action where
  init := ⟨∅, 0, maxclient, [], 0⟩
  step := step

end Watchdog

end SkynetGame
