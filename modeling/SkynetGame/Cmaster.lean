import SkynetGame.Lib.Endian
import SkynetGame.Lib.Run

/-!
# The global names (`service/cmaster.lua`, `service/cslave.lua`)

The master has one list of the slaves and one table of the names, and a link to and from each slave,
named by its fd. A package stands for what `skynet.unpack` makes of it, and its size for what
`skynet.packstring` (`lualib-src/lua-seri.c`) needs. The connections between the slaves, and the
tables that are about them, are left out.
-/

namespace SkynetGame

namespace Cmaster

/-- The handle of a service, a Lua integer. -/
abbrev Address := ℤ

/-- The bytes of `wb_string`. -/
def stringLength (s : Bytes) : ℕ :=
  if s.length < 32 then 1 + s.length
  else if s.length < 0x10000 then 3 + s.length else 5 + s.length

/-- The bytes of `wb_integer`. -/
def integerLength (v : ℤ) : ℕ :=
  if v = 0 then 1
  else if v < -2 ^ 31 ∨ v ≥ 2 ^ 31 then 9
  else if v < 0 then 5
  else if v < 0x100 then 2
  else if v < 0x10000 then 3
  else 5

/-- What a slave sends to the master. -/
inductive Up where
  | handshake (id : ℕ) (addr : Bytes)
  | register (name : Bytes) (address : Address)
  | query (name : Bytes)
  deriving DecidableEq, Repr

/-- What the master sends to a slave. -/
inductive Down where
  | wait (n : ℕ)
  | connect (id : ℕ) (addr : Bytes)
  | name (name : Bytes) (address : Address)
  | disconnect (id : ℕ)
  deriving DecidableEq, Repr

/-- `#message` in `pack_package`; the type of a package takes two bytes. -/
def Up.size : Up → ℕ
  | .handshake id addr => 2 + integerLength id + stringLength addr
  | .register name address => 2 + stringLength name + integerLength address
  | .query name => 2 + stringLength name

def Down.size : Down → ℕ
  | .wait n => 2 + integerLength n
  | .connect id addr => 2 + integerLength id + stringLength addr
  | .name globalname address => 2 + stringLength globalname + integerLength address
  | .disconnect id => 2 + integerLength id

/-- A slave; `queryname` has how many wait for a name, `ready` is that `connect_queue` is nil, and
`told` is the address that the harbor service was last told of a name. -/
structure Slave where
  globalname : Bytes → Option Address
  queryname : Bytes → ℕ
  ready : Bool
  told : Bytes → Option Address

/-- An entry of `slave_node`. -/
structure Node where
  fd : ℕ
  id : ℕ
  addr : Bytes
  deriving DecidableEq, Repr

structure State where
  slaveNode : List Node
  globalName : Bytes → Option Address
  slaves : ℕ → Option Slave
  up : ℕ → List Up
  down : ℕ → List Down
  closed : ℕ → Bool

/-- A slave that is in the list of the master. -/
def State.Connected (s : State) (fd : ℕ) : Prop := fd ≠ 0 ∧ ∃ node ∈ s.slaveNode, node.fd = fd

instance (s : State) (fd : ℕ) : Decidable (s.Connected fd) :=
  inferInstanceAs (Decidable (_ ∧ ∃ node ∈ s.slaveNode, node.fd = fd))

section Links

/-- `socket.write` of the master, to one slave and to all of `slave_node`. -/
def State.write (s : State) (fd : ℕ) (m : Down) : State :=
  { s with down := Function.update s.down fd (s.down fd ++ [m]) }

def State.broadcast (s : State) (m : Down) : State :=
  { s with down := fun fd => if s.Connected fd then s.down fd ++ [m] else s.down fd }

/-- `socket.write` of a slave. -/
def State.writeUp (s : State) (fd : ℕ) (m : Up) : State :=
  if s.closed fd then s else { s with up := Function.update s.up fd (s.up fd ++ [m]) }

def State.setSlave (s : State) (fd : ℕ) (sl : Slave) : State :=
  { s with slaves := Function.update s.slaves fd (some sl) }

/-- `socket.close` of the master. -/
def State.close (s : State) (fd : ℕ) : State :=
  { s with
    up := Function.update s.up fd []
    closed := Function.update s.closed fd true }

end Links

section Master

/-- `report_slave`. -/
def reportSlave (fd id : ℕ) (addr : Bytes) (s : State) : State :=
  (s.broadcast (.connect id addr)).write fd (.wait (s.slaveNode.countP (·.fd ≠ 0)))

/-- `handshake`, and what becomes of a connection where it raises. -/
def handshake (fd : ℕ) (m : Up) (s : State) : State :=
  match m with
  | .handshake id addr =>
    if id = 0 ∨ s.slaveNode.any (·.id = id) then s.close fd
    else
      let s := reportSlave fd id addr s
      { s with slaveNode := s.slaveNode ++ [⟨fd, id, addr⟩] }
  | _ => s.close fd

/-- The end of `monitor_slave`. -/
def monitorEnd (fd : ℕ) (s : State) : State :=
  let down := s.slaveNode.filter (·.fd = fd)
  let slaveNode := s.slaveNode.map fun node =>
    if node.fd = fd then { node with fd := 0 } else node
  let s := { s with slaveNode := slaveNode }
  (down.foldl (fun s node => s.broadcast (.disconnect node.id)) s).close fd

/-- `dispatch_slave`; where it raises, the loop of `monitor_slave` ends. -/
def dispatchSlave (fd : ℕ) (m : Up) (s : State) : State :=
  match m with
  | .register name address =>
    let globalName := if s.globalName name = none then
      Function.update s.globalName name (some address) else s.globalName
    let s := { s with globalName := globalName }
    let message := Down.name name address
    if message.size > 255 then monitorEnd fd s else s.broadcast message
  | .query name =>
    match s.globalName name with
    | none => s
    | some address =>
      let message := Down.name name address
      if message.size > 255 then monitorEnd fd s else s.write fd message
  -- the type is not valid
  | .handshake _ _ => s

end Master

section Slave

/-- `response_name`. -/
def responseName (name : Bytes) (sl : Slave) : Slave :=
  { sl with queryname := Function.update sl.queryname name 0 }

/-- `skynet.redirect` to the harbor service. -/
def Slave.tell (sl : Slave) (name : Bytes) (address : Address) : Slave :=
  { sl with told := Function.update sl.told name (some address) }

/-- `monitor_master`, of one package. -/
def monitorMaster (m : Down) (sl : Slave) : Slave :=
  match m with
  | .name name address =>
    let sl := { sl with globalname := Function.update sl.globalname name (some address) }
    let sl := responseName name sl
    if sl.ready then sl.tell name address else sl
  | _ => sl

/-- `harbor.REGISTER`; a package that is too long raises when the name is already in the table. -/
def register (fd : ℕ) (name : Bytes) (handle : Address) (sl : Slave) (s : State) : State :=
  if sl.globalname name ≠ none then s
  else
    let sl := { sl with globalname := Function.update sl.globalname name (some handle) }
    let sl := responseName name sl
    let message := Up.register name handle
    if message.size > 255 then s.setSlave fd sl
    else (s.setSlave fd (sl.tell name handle)).writeUp fd message

/-- `harbor.QUERYNAME`; a name with a dot is one of the node. -/
def queryName (fd : ℕ) (name : Bytes) (sl : Slave) (s : State) : State :=
  if name.head? = some 46 ∨ sl.globalname name ≠ none then s
  else
    let queryname := Function.update sl.queryname name (sl.queryname name + 1)
    let asked := { sl with queryname := queryname }
    if sl.queryname name ≠ 0 then s.setSlave fd asked
    else if (Up.query name).size > 255 then s
    else (s.setSlave fd asked).writeUp fd (.query name)

/-- The query of the harbor service, in `monitor_harbor`. -/
def query (fd : ℕ) (name : Bytes) (sl : Slave) (s : State) : State :=
  match sl.globalname name with
  | some address => s.setSlave fd (sl.tell name address)
  | none => if (Up.query name).size > 255 then s else s.writeUp fd (.query name)

/-- `ready`. -/
def Slave.getReady (sl : Slave) : Slave :=
  { sl with
    ready := true
    told := fun name => (sl.globalname name).or (sl.told name) }

end Slave

inductive Label where
  -- a slave starts and connects
  | start (fd id : ℕ) (addr : Bytes)
  -- the next package of a link comes in, and a link fails
  | master (fd : ℕ)
  | slave (fd : ℕ)
  | fail (fd : ℕ)
  -- what the services of a slave ask for
  | register (fd : ℕ) (name : Bytes) (handle : Address)
  | queryName (fd : ℕ) (name : Bytes)
  | query (fd : ℕ) (name : Bytes)
  | ready (fd : ℕ)
  deriving DecidableEq, Repr

def step (s : State) : Label → Option State
  | .start fd id addr =>
    if fd = 0 ∨ s.slaves fd ≠ none ∨ (Up.handshake id addr).size > 255 then none
    else some ((s.setSlave fd ⟨fun _ => none, fun _ => 0, false, fun _ => none⟩).writeUp fd
      (.handshake id addr))
  | .master fd =>
    match s.up fd with
    | [] => none
    | m :: up =>
      let s := { s with up := Function.update s.up fd up }
      if s.closed fd then none
      else some (if s.Connected fd then dispatchSlave fd m s else handshake fd m s)
  | .slave fd =>
    match s.slaves fd, s.down fd with
    | some sl, m :: down =>
      some ({ s with down := Function.update s.down fd down }.setSlave fd (monitorMaster m sl))
    | _, _ => none
  | .fail fd =>
    if s.slaves fd = none ∨ s.closed fd then none
    else some (if s.Connected fd then monitorEnd fd s else s.close fd)
  | .register fd name handle => (s.slaves fd).map fun sl => register fd name handle sl s
  | .queryName fd name => (s.slaves fd).map fun sl => queryName fd name sl s
  | .query fd name => (s.slaves fd).map fun sl => query fd name sl s
  | .ready fd => (s.slaves fd).map fun sl => s.setSlave fd sl.getReady

def init : State := ⟨[], fun _ => none, fun _ => none, fun _ => [], fun _ => [], fun _ => false⟩

def machine : Machine State Label := ⟨init, step⟩

end Cmaster

end SkynetGame
