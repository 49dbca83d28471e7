import SkynetGame.Lib.Bytes
import SkynetGame.Lib.Run
import Mathlib.Data.Finmap

/-!
# The store of endpoints (`services/physical/cluster_mgr/cluster_cfg_mgr.lua`)

A map is a table, known by its address, since the map in the store may be one that the caller has
too. `pairs` may go through a table in any order, which comes with the call. What a file does when
it is loaded with an empty table as its environment is a parameter.
-/

namespace SkynetGame

namespace ClusterCfgMgr

/-- What is in a table. -/
abbrev Nodes := Finmap fun _ : Bytes => Bytes

abbrev Entry := Sigma fun _ : Bytes => Bytes

/-- An order in which `pairs` may go through a table. -/
def IsOrder (order : List Entry) (t : Nodes) : Prop := (order : Multiset Entry) = t.entries

instance (order : List Entry) (t : Nodes) : Decidable (IsOrder order t) :=
  inferInstanceAs (Decidable ((order : Multiset Entry) = t.entries))

/-- The fields of `self`, where `_nodes` is the address of a table, and `_changed` is also `nil`. -/
structure Mgr where
  path : Option Bytes
  pathm : Option Bytes
  nodes : ℕ
  changed : Option Bool

/-- The tables by their addresses, the files by their names, and the store. -/
structure State where
  tables : List Nodes
  files : Bytes → Option Bytes
  mgr : Mgr

namespace State

def table (s : State) (r : ℕ) : Nodes := s.tables.getD r ∅

def setTable (s : State) (r : ℕ) (t : Nodes) : State := { s with tables := s.tables.set r t }

def setChanged (s : State) (changed : Option Bool) : State :=
  { s with mgr := { s.mgr with changed := changed } }

/-- The map in the store. -/
def stored (s : State) : Nodes := s.table s.mgr.nodes

end State

/-- `string.format('%s = "%s"\n', k, v)`. -/
def line (e : Entry) : Bytes := e.1 ++ Bytes.ascii " = " ++ 34 :: (e.2 ++ [34, 10])

/-- `mgr:sync`. To open a file whose name is `nil` raises an error, which is `none`. -/
def sync (force : Bool) (written : List Entry) (s : State) : Option State :=
  if s.mgr.path.isSome ∧ (force = true ∨ s.mgr.changed = some true) then
    s.mgr.pathm.map fun path =>
      { s with files := Function.update s.files path (some (written.flatMap line)) }.setChanged none
  else some (s.setChanged none)

/-- How a call ends: it returns `changed`, or raises an error. -/
inductive Outcome
  | returned (changed : Option Bool)
  | raised

/-- Lua's `or`. -/
def lor (a b : Option Bool) : Option Bool := if a = some true then a else b

/-- The last lines of `mgr:set`, `mgr:set_all` and `mgr:mset`. -/
def finish (changed : Option Bool) (noSync : Bool) (written : List Entry) (s : State) :
    Outcome × State :=
  let s := s.setChanged (lor s.mgr.changed changed)
  if noSync then (.returned changed, s)
  else
    match sync false written s with
    | some s => (.returned changed, s)
    | none => (.raised, s)

/-- `mgr:set`; an endpoint that is `nil` is `none`. -/
def set (name : Bytes) (endpoit : Option Bytes) (noSync : Bool) (written : List Entry)
    (s : State) : Outcome × State :=
  if s.stored.lookup name ≠ endpoit then
    match endpoit with
    | none => (.raised, s)
    | some endpoit =>
      finish (some true) noSync written
        (s.setTable s.mgr.nodes (s.stored.insert name endpoit))
  else finish none noSync written s

/-- The loop of `mgr:set_all`, with `changed` and what it leaves of `old_nodes`. Where the map is
`old_nodes` itself, only entries that have been visited are taken out of it. -/
def setAllLoop : List Entry → Nodes → Bool × Nodes
  | [], old => (false, old)
  | e :: order, old =>
    if old.lookup e.1 ≠ some e.2 then (true, old) else setAllLoop order (old.erase e.1)

/-- `mgr:set_all`; the map is a table's address. -/
def setAll (nodes : Option ℕ) (order : List Entry) (noSync : Bool) (written : List Entry)
    (s : State) : Outcome × State :=
  let old := s.mgr.nodes
  let s := match nodes with
    | some r => { s with mgr := { s.mgr with nodes := r } }
    | none => { s with
        tables := s.tables ++ [∅]
        mgr := { s.mgr with nodes := s.tables.length } }
  let (changed, left) := setAllLoop order (s.table old)
  let s := s.setTable old left
  finish (if changed ∨ left ≠ ∅ then some true else none) noSync written s

/-- The loop of `mgr:mset`. -/
def msetLoop : List Entry → Option Bool → Nodes → Option Bool × Nodes
  | [], changed, t => (changed, t)
  | e :: order, changed, t =>
    msetLoop order (if changed = some true then changed else some (t.lookup e.1 ≠ some e.2))
      (t.insert e.1 e.2)

/-- `mgr:mset`. -/
def mset (nodes : Option ℕ) (order : List Entry) (noSync : Bool) (written : List Entry)
    (s : State) : Outcome × State :=
  match nodes with
  | none => (.returned none, s)
  | some _ =>
    let (changed, t) := msetLoop order none s.stored
    finish changed noSync written (s.setTable s.mgr.nodes t)

inductive Call
  | set (name : Bytes) (endpoit : Option Bytes)
  | setAll (nodes : Option ℕ) (order : List Entry)
  | mset (nodes : Option ℕ) (order : List Entry)

/-- The map that a call is given. -/
def Call.nodes : Call → Option ℕ
  | .set _ _ => none
  | .setAll nodes _ => nodes
  | .mset nodes _ => nodes

/-- The map is a table, and the order is one of it. -/
def Call.Valid (s : State) : Call → Prop
  | .set _ _ => True
  | .setAll none order => order = []
  | .setAll (some r) order => r < s.tables.length ∧ IsOrder order (s.table r)
  | .mset none _ => True
  | .mset (some r) order => r < s.tables.length ∧ IsOrder order (s.table r)

instance (s : State) : ∀ c : Call, Decidable (c.Valid s)
  | .set _ _ => inferInstanceAs (Decidable True)
  | .setAll none order => inferInstanceAs (Decidable (order = []))
  | .setAll (some r) order =>
    inferInstanceAs (Decidable (r < s.tables.length ∧ IsOrder order (s.table r)))
  | .mset none _ => inferInstanceAs (Decidable True)
  | .mset (some r) order =>
    inferInstanceAs (Decidable (r < s.tables.length ∧ IsOrder order (s.table r)))

/-- The call itself. -/
def Call.run (noSync : Bool) (written : List Entry) (s : State) : Call → Outcome × State
  | .set name endpoit => ClusterCfgMgr.set name endpoit noSync written s
  | .setAll nodes order => ClusterCfgMgr.setAll nodes order noSync written s
  | .mset nodes order => ClusterCfgMgr.mset nodes order noSync written s

/-- `mgr:get_all`: the map in the store, or a copy of it. -/
def getAll (clone : Bool) (s : State) : ℕ × State :=
  if clone then (s.tables.length, { s with tables := s.tables ++ [s.stored] })
  else (s.mgr.nodes, s)

section Load

variable (load : Bytes → Option Nodes)

/-- What `loadconfig` puts into an empty table, unless it raises an error. -/
def loadconfig (path : Option Bytes) (files : Bytes → Option Bytes) : Option Nodes :=
  match path with
  | none => some ∅
  | some path =>
    match files path with
    | none => some ∅
    | some source => load source

/-- `mgr.new`. -/
def new (path : Option Bytes) (nodes : Option Nodes) (files : Bytes → Option Bytes)
    (written : List Entry) : Option State :=
  match nodes with
  | some t => sync true written ⟨[t], files, path, none, 0, some false⟩
  | none => (loadconfig load path files).map fun t => ⟨[t], files, path, none, 0, some false⟩

end Load

/-- What happens: a call, with what `pairs` gives where the map is written to the file; a call of
`mgr:get_all`; and the caller makes a table. -/
inductive Label
  | call (c : Call) (noSync : Bool) (written : List Entry)
  | getAll (clone : Bool)
  | table (t : Nodes)

def step (s : State) : Label → Option State
  | .call c noSync written =>
    if c.Valid s ∧ IsOrder written (c.run noSync written s).2.stored then
      some (c.run noSync written s).2
    else none
  | .getAll clone => some (getAll clone s).2
  | .table t => some { s with tables := s.tables ++ [t] }

def machine (init : State) : Machine State Label := ⟨init, step⟩

end ClusterCfgMgr

end SkynetGame
