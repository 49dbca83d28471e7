import SkynetGame.Lib.LuaPattern

/-!
# The registry of nodes (`services/physical/cluster_mgr/clustermgr.lua`)

Every node writes its endpoint and the time into a redis hash for each of its groups, and reads
the entries of the others from there. What Lua's numbers are, and how they are read and written,
is a parameter.
-/

namespace SkynetGame

open LuaPattern (strMatch Capture)

namespace ClusterMgr

/-- Lua's numbers: `tonumber` of a text, `tostring`, and `now - t < 60`. -/
structure Numbers (ν : Type*) where
  tonumber : Bytes → Option ν
  tostring : ν → Bytes
  younger : ν → ν → Bool

/-- The hashes of redis, with their fields in the order `hgetall` gives them. -/
abbrev Registry := Bytes → List (Bytes × Bytes)

def hset (reg : Registry) (key field value : Bytes) : Registry :=
  let hash := reg key
  Function.update reg key <|
    if hash.any (·.1 = field) then
      hash.map fun e => if e.1 = field then (field, value) else e
    else hash ++ [(field, value)]

def hgetall (reg : Registry) (key : Bytes) : List Bytes := (reg key).flatMap fun e => [e.1, e.2]

/-- A table from names to endpoints. -/
abbrev Conf := Bytes → Option Bytes

variable {ν : Type*} (N : Numbers ν)

/-- What `regSelf` writes, `string.format("%s;%s", nodeEndpoint, now)`. -/
def regValue (nodeEndpoint : Bytes) (now : ν) : Bytes :=
  nodeEndpoint ++ Bytes.ascii ";" ++ N.tostring now

def regSelf (configKeys : List Bytes) (nodeName nodeEndpoint : Bytes) (now : ν)
    (reg : Registry) : Registry :=
  configKeys.foldl (fun reg key => hset reg key nodeName (regValue N nodeEndpoint now)) reg

/-- The pattern of `updateCluster`. -/
def entryPattern : Bytes := Bytes.ascii "(^;]*);?(.*)$"

/-- The `address` and the `t` that `updateCluster` reads from an entry; none if `string.match` is
an error. A match that fails gives `nil` for both. -/
def readEntry (value : Bytes) : Option (Option Bytes × Option ν) :=
  (strMatch value entryPattern).map fun
    | [.str address, .str t] => (some address, N.tonumber t)
    | _ => (none, none)

/-- The loop of `updateCluster` over what `hgetall` gave, with `allConf` and `expired_nodes`. An
entry that is not expired sets `allConf[name]`, to `nil` where there is no address. -/
def readEntries (nodeName : Option Bytes) (now : ν) :
    List Bytes → Conf → List Bytes → Option (Conf × List Bytes)
  | [], allConf, expired => some (allConf, expired)
  | [_], _, _ => none
  | name :: value :: r, allConf, expired =>
    if nodeName = some name then readEntries nodeName now r allConf expired
    else
      match readEntry N value with
      | none => none
      | some (address, t) =>
        if t.all (N.younger now) then
          readEntries nodeName now r (Function.update allConf name address) expired
        else readEntries nodeName now r allConf (expired ++ [name])

/-- The loop of `updateCluster` over the groups, with what it has deleted so far. -/
def readGroups (nodeName : Option Bytes) (now : ν) (reg : Registry) :
    List Bytes → Conf → List (Bytes × List Bytes) → Option (Conf × List (Bytes × List Bytes))
  | [], allConf, deleted => some (allConf, deleted)
  | key :: keys, allConf, deleted =>
    match readEntries N nodeName now (hgetall reg key) allConf [] with
    | none => none
    | some (allConf, expired) =>
      readGroups nodeName now reg keys allConf
        (if expired.length > 0 then deleted ++ [(key, expired)] else deleted)

/-- A node: its name and its endpoint, unless it is not part of the cluster. -/
abbrev Node := Option (Bytes × Bytes)

/-- `updateCluster`: the configuration it installs, and what it deletes from which group. -/
def updateCluster (configKeys : List Bytes) (node : Node) (now : ν) (reg : Registry) :
    Option (Conf × List (Bytes × List Bytes)) :=
  let allConf : Conf :=
    match node with
    | some (nodeName, nodeEndpoint) => Function.update (fun _ => none) nodeName (some nodeEndpoint)
    | none => fun _ => none
  readGroups N (node.map (·.1)) now reg configKeys allConf []

end ClusterMgr

end SkynetGame
