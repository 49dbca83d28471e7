import SkynetGame.LuaValue

/-!
# Shared configuration objects (`lualib-src/lua-sharedata.c`)

`new` makes a Lua table into C ones, which any number of Lua states read: the keys from 1 to the
border are an array, the others a hash table with as many slots as keys, and a string is its place
on the stack of a Lua state that all the tables of an object have. `new` reads a table twice: first
every key goes into its main slot while that is free, then the others go into what slots are left.
-/

namespace SkynetGame

namespace SharedataCore

/-- The errors that are raised, and what must not happen. -/
inductive Fault
  | memoryError
  | stackOverflow
  | badArgument
  -- "Invalid key %f"
  | invalidKey (n : UInt64)
  -- "Invalid key type %s"
  | invalidKeyType (name : String)
  -- "Unsupport value type %s"
  | unsupportValueType (name : String)
  | assertion
  | pointer
  -- a search that does not end
  | running
deriving DecidableEq, Repr

/-- `keytype` and `key` of a node; a string by its place, which the stack counts from 2. -/
inductive NodeKey
  | integer (key : Int32)
  | string (index : ℕ)
deriving DecidableEq, Repr

/-- `struct node` without its value; `next` is -1 for none. -/
structure Node where
  key : NodeKey
  next : Option ℕ
  keyhash : UInt32
  nocolliding : Bool
deriving DecidableEq, Repr

/-- `union value` with its type. -/
inductive ValueOf (α : Type)
  | nil
  | real (n : UInt64)
  | string (index : ℕ)
  | boolean (b : Bool)
  | table (tbl : α)
  | integer (d : Int64)
deriving Repr

/-- `struct table`, whose slots are nodes with their values. -/
structure Table where
  array : List (ValueOf Table)
  hash : List (Node × ValueOf Table)

abbrev Value := ValueOf Table

/-- Where `VALUETYPE_NIL` is. -/
def ValueOf.isNil {α : Type} : ValueOf α → Bool
  | .nil => true
  | _ => false

/-- `struct context`: the table that is filled, and the strings in the order of their places. -/
structure Context where
  tbl : Table
  strings : List Bytes

/-- What a table is asked for. -/
inductive ConfKey
  | integer (key : Int32)
  | string (s : Bytes)
deriving DecidableEq, Repr

/-- `lua_typename`. -/
def typename : LuaValue → String
  | .nil => "nil"
  | .boolean _ => "boolean"
  | .integer _ | .number _ => "number"
  | .lightuserdata _ => "userdata"
  | .string _ => "string"
  | .table .. => "table"

/-- `lua_tolstring`, of a key that is no number; a table is none and has no bytes. -/
def tolstring : LuaValue → Bytes
  | .string s => s
  | _ => []

/-- The body of `countsize`: whether a key is outside of the array. -/
def countkey (sizearray n : ℕ) : LuaValue → Except Fault ℕ
  | .integer nkey => .ok (if 0 < nkey.toInt ∧ nkey.toInt ≤ sizearray then n else n + 1)
  | .number v => .error (.invalidKey v)
  | .string _ | .table .. => .ok (n + 1)
  | k => .error (.invalidKeyType (typename k))

def countsize (sizearray : ℕ) (t : LuaValue.Entries) : Except Fault ℕ :=
  t.foldlM (fun n p => countkey sizearray n p.1) 0

/-- `calchash`; the loop is at `l - i * step`. -/
def calchash (str : Bytes) : UInt32 :=
  let l := str.length
  let step := l / 32 + 1
  (List.range (l / step)).foldl (fun h i =>
    h ^^^ ((h <<< 5) + (h >>> 2) + (str.getD (l - i * step - 1) 0).toUInt32)) (UInt32.ofNat l)

def stringindex (strings : List Bytes) (str : Bytes) : ℕ × List Bytes :=
  match strings.findIdx? (· == str) with
  | some index => (index, strings)
  | none => (strings.length, strings ++ [str])

/-- An `int` that is an index of the array. -/
def inArray (sizearray : ℕ) (key : Int32) : Prop := 0 < key.toInt ∧ key.toInt ≤ sizearray

instance (sizearray : ℕ) (key : Int32) : Decidable (inArray sizearray key) :=
  inferInstanceAs (Decidable (_ ∧ _))

/-- Where `ishashkey` says that a key goes. -/
inductive Place
  | array (key : Int32)
  | hash (key : NodeKey) (keyhash : UInt32)
deriving DecidableEq, Repr

def ishashkey (sizearray : ℕ) (strings : List Bytes) : LuaValue → Place × List Bytes
  | .integer k =>
    let key := k.toInt32
    if inArray sizearray key then (.array key, strings)
    else (.hash (.integer key) key.toUInt32, strings)
  | k =>
    let s := tolstring k
    let (index, strings) := stringindex strings s
    (.hash (.string index) (calchash s), strings)

/-- What `fillcolliding` writes: the slot `s` comes behind the main one `i`, in front of what was
there. -/
def linked (hash : List (Node × Value)) (i s : ℕ) (next : Option ℕ) (key : NodeKey)
    (keyhash : UInt32) (y : Value) : List (Node × Value) :=
  ((hash.modify s fun n => ({ n.1 with next := next }, n.2)).modify
    i fun n => ({ n.1 with next := some s, nocolliding := false }, n.2)).modify
      s fun n => (⟨key, n.1.next, keyhash, false⟩, y)

section Fill

variable (convtable : List Bytes → ℕ → LuaValue.Entries → Except Fault Context)

def setvalue (strings : List Bytes) : LuaValue → Except Fault (Value × List Bytes)
  | .nil => .ok (.nil, strings)
  | .integer d => .ok (.integer d, strings)
  | .number n => .ok (.real n, strings)
  | .string s =>
    let (index, strings) := stringindex strings s
    .ok (.string index, strings)
  | .boolean b => .ok (.boolean b, strings)
  | .table rawlen entries => do
    let ctx ← convtable strings rawlen entries
    .ok (.table ctx.tbl, ctx.strings)
  | .lightuserdata p => .error (.unsupportValueType (typename (.lightuserdata p)))

variable (ctx : Context) (p : LuaValue × LuaValue)

def setarray (key : ℕ) (v : LuaValue) : Except Fault Context := do
  let (y, strings) ← setvalue convtable ctx.strings v
  .ok ⟨{ ctx.tbl with array := ctx.tbl.array.set (key - 1) y }, strings⟩

/-- The body of `fillnocolliding`. -/
def fillnocolliding : Except Fault Context :=
  match ishashkey ctx.tbl.array.length ctx.strings p.1 with
  | (.array key, strings) => setarray convtable ⟨ctx.tbl, strings⟩ key.toInt.toNat p.2
  | (.hash key keyhash, strings) =>
    let i := keyhash.toNat % ctx.tbl.hash.length
    match ctx.tbl.hash[i]? with
    | none => .error .pointer
    | some n =>
      if n.2.isNil then do
        let (y, strings) ← setvalue convtable strings p.2
        .ok ⟨{ ctx.tbl with hash := ctx.tbl.hash.set i (⟨key, none, keyhash, true⟩, y) }, strings⟩
      else .ok ⟨ctx.tbl, strings⟩

/-- The body of `fillcolliding`. -/
def fillcolliding : Except Fault Context :=
  match ishashkey ctx.tbl.array.length ctx.strings p.1 with
  | (.array _, strings) => .ok ⟨ctx.tbl, strings⟩
  | (.hash key keyhash, strings) =>
    let i := keyhash.toNat % ctx.tbl.hash.length
    match ctx.tbl.hash[i]? with
    | none => .error .pointer
    | some mainpos =>
      if mainpos.1.key = key then .ok ⟨ctx.tbl, strings⟩
      else match ctx.tbl.hash.findIdx? fun n => n.2.isNil with
        | none => .error .assertion
        | some s => do
          let (y, strings) ← setvalue convtable strings p.2
          .ok ⟨{ ctx.tbl with hash := linked ctx.tbl.hash i s mainpos.1.next key keyhash y },
            strings⟩

variable (garbage : ℕ → Node)

/-- The body of `convtable`; what `malloc` gives has `garbage` in it, and it gives nothing for a
size that is negative as an `int`. -/
def convert (strings : List Bytes) (rawlen : ℕ) (t : LuaValue.Entries) : Except Fault Context := do
  let sizearray := (Int32.ofNat rawlen).toInt
  if sizearray < 0 then .error .memoryError
  else do
    let array := List.replicate sizearray.toNat .nil
    let sizehash ← countsize sizearray.toNat t
    if 2 ^ 31 ≤ sizehash then .error .memoryError
    else if 0 < sizehash then do
      let hash := (List.range sizehash).map fun i => ({ garbage i with nocolliding := false }, .nil)
      let ctx ← t.foldlM (fillnocolliding convtable) ⟨⟨array, hash⟩, strings⟩
      t.foldlM (fillcolliding convtable) ctx
    else
      (List.range' 1 sizearray.toNat).foldlM (fun ctx i =>
        setarray convtable ctx i (LuaValue.rawgeti t i)) ⟨⟨array, []⟩, strings⟩

end Fill

/-- `convtable`, that many C calls deep at most. -/
def convtable (garbage : ℕ → Node) : ℕ → List Bytes → ℕ → LuaValue.Entries → Except Fault Context
  | 0 => fun _ _ _ => .error .stackOverflow
  | calls + 1 => convert (convtable garbage calls) garbage

/-- A table with the strings of the Lua state that it has. -/
structure Conf where
  tbl : Table
  L : List Bytes

/-- What a function pushes. -/
inductive Pushed
  | value (v : LuaValue)
  | conf (c : Conf)

/-- `lnewconf`; the stack of the Lua state has room for that many strings. -/
def lnewconf (garbage : ℕ → Node) (calls room : ℕ) : LuaValue → Except Fault Conf
  | .table rawlen entries => do
    let ctx ← convtable garbage calls [] rawlen entries
    if room < ctx.strings.length then .error .stackOverflow
    else .ok ⟨ctx.tbl, ctx.strings⟩
  | _ => .error .badArgument

namespace Conf

variable (c : Conf)

/-- The bytes of a string; without one there are none. -/
def tolstring (index : ℕ) : Bytes := c.L.getD index []

def pushvalue : Value → Pushed
  | .nil => .value .nil
  | .real n => .value (.number n)
  | .string index => .value (.string (c.tolstring index))
  | .boolean b => .value (.boolean b)
  | .table tbl => .conf ⟨tbl, c.L⟩
  | .integer d => .value (.integer d)

/-- The key of a node is the one that is asked for. -/
def isKey : NodeKey → ConfKey → Bool
  | .integer a, .integer b => a == b
  | .string index, .string s => c.tolstring index == s
  | _, _ => false

/-- The loop of `lookup_key`, for that many slots at most. -/
def lookup (keyhash : UInt32) (key : ConfKey) : ℕ → ℕ → Except Fault (Option ℕ)
  | 0, _ => .error .running
  | fuel + 1, i =>
    match c.tbl.hash[i]? with
    | none => .error .pointer
    | some n =>
      if keyhash = n.1.keyhash ∧ c.isKey n.1.key key then .ok (some i)
      else match n.1.next with
        | none => .ok none
        | some j => lookup keyhash key fuel j

def lookup_key (keyhash : UInt32) (key : ConfKey) : Except Fault (Option ℕ) :=
  if c.tbl.hash.length = 0 then .ok none
  else
    let i := keyhash.toNat % c.tbl.hash.length
    match c.tbl.hash[i]? with
    | none => .error .pointer
    | some n =>
      if keyhash ≠ n.1.keyhash ∧ n.1.nocolliding then .ok none
      else c.lookup keyhash key c.tbl.hash.length i

/-- The end of `lindexconf`. -/
def indexhash (keyhash : UInt32) (key : ConfKey) : Except Fault (Option Pushed) := do
  match ← c.lookup_key keyhash key with
  | none => .ok none
  | some i => .ok ((c.tbl.hash[i]?).map fun n => c.pushvalue n.2)

def lindexconf : LuaValue → Except Fault (Option Pushed)
  | .integer k =>
    let key := k.toInt32
    if inArray c.tbl.array.length key then
      .ok ((c.tbl.array[key.toInt.toNat - 1]?).map c.pushvalue)
    else c.indexhash key.toUInt32 (.integer key)
  | .number n => .error (.invalidKey n)
  | .string s => c.indexhash (calchash s) (.string s)
  | _ => .error .badArgument

def pushkey : NodeKey → LuaValue
  | .integer key => .integer key.toInt64
  | .string index => .string (c.tolstring index)

/-- The key of a slot, if there is one. -/
def pushslot (i : ℕ) : Option LuaValue := (c.tbl.hash[i]?).map fun n => c.pushkey n.1.key

/-- The first index of the array from `i` on, or else `pushfirsthash`. -/
def nextindex (i : ℕ) : Option LuaValue :=
  match (c.tbl.array.drop i).findIdx? fun y => !y.isNil with
  | some j => some (.integer (Int32.ofNat (i + j + 1)).toInt64)
  | none => c.pushslot 0

/-- The end of `lnextkey`. -/
def nexthash (keyhash : UInt32) (key : ConfKey) : Except Fault (Option LuaValue) := do
  match ← c.lookup_key keyhash key with
  | none => .ok none
  | some i => .ok (c.pushslot (i + 1))

def lnextkey : LuaValue → Except Fault (Option LuaValue)
  | .nil => .ok (c.nextindex 0)
  | .integer k =>
    let key := k.toInt32
    if inArray c.tbl.array.length key then .ok (c.nextindex key.toInt.toNat)
    else c.nexthash key.toUInt32 (.integer key)
  | .number _ => .ok none
  | .string s => c.nexthash (calchash s) (.string s)
  | _ => .error .badArgument

def llen : ℕ := c.tbl.array.length

end Conf

end SharedataCore

end SkynetGame
