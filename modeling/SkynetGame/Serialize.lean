import SkynetGame.Lib.LuaLex
import SkynetGame.LuaValue

/-!
# Tables as texts (`services/utils/serialize.lua`)

A table is written as a constructor, entry by entry in the order of `pairs`, and read back by Lua's
loader. Of the loader there is what constructors of strings take. No global is set, so a name is
`nil`.
-/

namespace SkynetGame

namespace Serialize

open LuaLex
open LuaNumber (Number decimal)
open LuaValue (Entries rawset)

/-- What the C library makes of floats, which are known by their bits, and the texts of other
values. -/
structure Library where
  l_str2d : Bytes → Option UInt64
  -- `"%.14g"`
  number2str : UInt64 → Bytes
  pointer : LuaValue → Bytes

section Encode

variable (lib : Library)

def tostring : LuaValue → Bytes
  | .nil => Bytes.ascii "nil"
  | .boolean b => if b then Bytes.ascii "true" else Bytes.ascii "false"
  | .integer n => decimal n.toInt
  | .number x => lib.number2str x
  | .string s => s
  | v => lib.pointer v

/-- What stands between the brackets. -/
def keytext : LuaValue → Bytes
  | .string s => addquoted s
  | k => tostring lib k

def keystr (k : LuaValue) : Bytes := Bytes.ascii "[" ++ keytext lib k ++ Bytes.ascii "]"

/-- The loop of `serialize.encode`. For a table it calls the field `encode` of the table that it goes
through, where no function is: an error. -/
def encodeLoop : Entries → Option (List Bytes)
  | [] => some []
  | (k, .string s) :: t =>
    (encodeLoop t).map ((keystr lib k ++ Bytes.ascii "=" ++ addquoted s) :: ·)
  | (_, .table _ _) :: _ => none
  | _ :: t => encodeLoop t

/-- `serialize.encode`. -/
def encode (seritable : Entries) : Option Bytes := do
  let seri ← encodeLoop lib seritable
  some (Bytes.ascii "\x7b" ++ (Bytes.ascii ",").intercalate seri ++ Bytes.ascii "\x7d")

end Encode

section Load

inductive Expr
  | string (s : Bytes)
  | number (n : Number UInt64)
  | boolean (b : Bool)
  | name (s : Bytes)
  | minus (e : Expr)
deriving DecidableEq, Repr

/-- An entry of a constructor: a key, and a string. -/
abbrev Field := Expr × Bytes

variable (l_str2d : Bytes → Option UInt64)

/-- `checknext`, for a token of one byte. -/
def checknext (c : UInt8) (s : Bytes) : Option Bytes :=
  match llex l_str2d s with
  | some (.symbol b, r) => if b = c then some r else none
  | _ => none

/-- A key without a sign. -/
def simpleexp (s : Bytes) : Option (Expr × Bytes) :=
  match llex l_str2d s with
  | some (.string s, r) => some (.string s, r)
  | some (.number n, r) => some (.number n, r)
  | some (.name s, r) =>
    if s = Bytes.ascii "true" then some (.boolean true, r)
    else if s = Bytes.ascii "false" then some (.boolean false, r)
    else some (.name s, r)
  | _ => none

/-- A key. -/
def expr (s : Bytes) : Option (Expr × Bytes) :=
  match checknext l_str2d 45 s with
  | some r => (simpleexp l_str2d r).map fun (e, r) => (.minus e, r)
  | none => simpleexp l_str2d s

/-- `recfield`, with a string as the value. -/
def recfield (s : Bytes) : Option (Field × Bytes) := do
  let r ← checknext l_str2d 91 s
  let (k, r) ← expr l_str2d r
  let r ← checknext l_str2d 93 r
  let r ← checknext l_str2d 61 r
  match ← llex l_str2d r with
  | (.string v, r) => some ((k, v), r)
  | _ => none

/-- The loop of `constructor`; each field takes some bytes. -/
def constructorLoop : ℕ → Bytes → Option (List Field × Bytes)
  | 0, _ => none
  | fuel + 1, s =>
    match checknext l_str2d 125 s with
    | some r => some ([], r)
    | none => do
      let (f, r) ← recfield l_str2d s
      match checknext l_str2d 44 r with
      | some r => (constructorLoop fuel r).map fun (fs, r) => (f :: fs, r)
      | none => (checknext l_str2d 125 r).map fun r => ([f], r)

/-- The constant that an expression puts into the function; the sign of a number is part of it. -/
def constant : Expr → Expr
  | .minus (.number (.int n)) => .number (.int (-n))
  | .minus (.number (.float x)) => .number (.float (x ^^^ 0x8000000000000000))
  | .minus (.name s) | .name s => .string s
  | e => e

/-- `MAXARG_Ax`. -/
def maxConstants : ℕ := 0x3ffffff

def maxInt : ℕ := 0x7fffffff

/-- The limits of the loader: so many constants, and less lines. -/
def Loadable (source : Bytes) (fs : List Field) : Prop :=
  (fs.flatMap fun f => [constant f.1, .string f.2]).dedup.length ≤ maxConstants ∧
    source.count 10 + 1 < maxInt

instance (source : Bytes) (fs : List Field) : Decidable (Loadable source fs) :=
  inferInstanceAs (Decidable (_ ∧ _))

/-- `load`, for a source that returns a constructor; `none` is a source that cannot be loaded. -/
def load (source : Bytes) : Option (List Field) :=
  match llex l_str2d source with
  | some (.name s, r) =>
    if s = Bytes.ascii "return" then do
      let r ← checknext l_str2d 123 (r.dropWhile LuaPattern.isspace)
      let (fs, r) ← constructorLoop l_str2d (r.length + 1) r
      if r = [] ∧ Loadable source fs then some fs else none
    else none
  | _ => none

end Load

section Decode

/-- The value of a key, if it has one. -/
def eval : Expr → Option LuaValue
  | .string s => some (.string s)
  | .number (.int n) => some (.integer (Int64.ofInt n))
  | .number (.float x) => some (.number x)
  | .boolean b => some (.boolean b)
  | .name _ => some .nil
  | .minus e =>
    match eval e with
    | some (.integer n) => some (.integer (-n))
    | some (.number x) => some (.number (x ^^^ 0x8000000000000000))
    | _ => none

/-- A field of the constructor is put into the table. -/
def setField (t : Entries) (f : Field) : Option Entries := do
  let k ← eval f.1
  rawset t k (.string f.2)

/-- `serialize.decode`, where `rawlen` is the length that a table comes to have; `none` is an error
that was raised. -/
def decode (l_str2d : Bytes → Option UInt64) (rawlen : Entries → ℕ) (seristr : Bytes) :
    Option LuaValue :=
  match load l_str2d (Bytes.ascii "return " ++ seristr) with
  | none => some .nil
  | some fs => (fs.foldlM setField []).map fun t => .table (rawlen t) t

end Decode

end Serialize

end SkynetGame
