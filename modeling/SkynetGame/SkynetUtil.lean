import SkynetGame.LuaSeri

/-!
# Dispatching commands (`util.lua_docmd` of `services/utils/skynet_util.lua`)

A handler changes the state of the service, and gives its results or raises an error. An entry of a
command table that is neither `nil` nor `false` and cannot be called is a handler that raises one.
-/

namespace SkynetGame

namespace SkynetUtil

/-- A value, or a function, a thread or a full userdata, which cannot be packed. -/
inductive Value
  | value (v : LuaValue)
  | object (id : ℕ)

namespace Value

def nil : Value := .value .nil

def string (s : Bytes) : Value := .value (.string s)

def false : Value := .value (.boolean Bool.false)

def isNil : Value → Bool
  | .value v => v.isNil
  | .object _ => Bool.false

end Value

/-- `skynet.pack`. -/
def pack (vs : List Value) : Option Bytes := do
  let vs ← vs.mapM fun v => match v with
    | .value v => some v
    | .object _ => none
  LuaSeri.luaseriPack vs

section Array

/-- The binary search of `luaH_getn`; each round halves what is left. -/
def boundary (t : List Value) : ℕ → ℕ → ℕ → ℕ
  | 0, i, _ => i
  | fuel + 1, i, j =>
    if 1 < j - i then
      let m := (i + j) / 2
      if (t.getD (m - 1) .nil).isNil then boundary t fuel i m else boundary t fuel m j
    else i

/-- `luaH_getn` of a table that has these values in its array, and nothing else. -/
def luaH_getn (t : List Value) : ℕ :=
  if 0 < t.length ∧ (t.getD (t.length - 1) .nil).isNil then boundary t t.length 0 t.length
  else t.length

/-- `table.unpack`. -/
def unpack (t : List Value) : List Value := t.take (luaH_getn t)

end Array

section Command

variable {σ : Type}

/-- What a handler gives for its arguments, unless it raises an error. -/
abbrev Handler (σ : Type) := List Value → σ → Option (List Value) × σ

inductive CmdHandler (σ : Type)
  | table (t : Value → Option (Handler σ))
  | function (f : Handler σ)

def CmdHandler.find : CmdHandler σ → Value → Option (Handler σ)
  | .table t, cmd => t cmd
  | .function f, _ => some f

/-- How `lua_docmd` ends: with values for its caller, with a reply, or with an error. -/
inductive Outcome
  | returned (vs : List Value)
  | replied (vs : List Value) (msg : Bytes)
  | raised

/-- Its last lines. -/
def finish (session : ℤ) (res : List Value) : Outcome :=
  if session = 0 then .returned (unpack res)
  else
    match pack (unpack res) with
    | some msg => .replied (unpack res) msg
    | none => .raised

def unknownCommand (tostring : Value → Bytes) (cmd : Value) : Bytes :=
  Bytes.ascii "Unknow command " ++ tostring cmd

def raiseError : Bytes := Bytes.ascii "raise error"

/-- `util.lua_docmd`; a `cmdhandler` of another type is `none`. What `xpcall` calls after an error
raises one itself, and so `xpcall` gives `false` all the same. -/
def lua_docmd (tostring : Value → Bytes) (cmdhandler : Option (CmdHandler σ)) (session : ℤ)
    (cmd : Value) (args : List Value) (s : σ) : Outcome × σ :=
  match cmdhandler with
  | none => (finish session [], s)
  | some cmdhandler =>
    match cmdhandler.find cmd with
    | none => (finish session [.false, .string (unknownCommand tostring cmd)], s)
    | some f =>
      let (l_rst, s) := f args s
      match l_rst with
      | none => (finish session [.false, .string raiseError], s)
      -- the first of `l_rst` is the `true` of `xpcall`
      | some rs => (finish session [rs.getD 0 .nil, rs.getD 1 .nil, rs.getD 2 .nil], s)

end Command

end SkynetUtil

end SkynetGame
