import SkynetGame.Lib.LuaGmatch
import SkynetGame.Lib.LuaNumber
import Mathlib.Data.List.AList

/-!
# Forms (`httpc.post` of `lualib/http/httpc.lua`, `lualib/http/url.lua`)

A form is put into the body of a request, and a query is taken apart. A table is told by its entries,
in the order in which `pairs` goes through them. `none` is an error that was raised.
-/

namespace SkynetGame

namespace Form

open LuaPattern
open LuaNumber (tonumberBase)

/-- A table from strings to strings. -/
abbrev StringTable := AList fun _ : Bytes => Bytes

/-- A digit of `%02X`. -/
def hexDigit (n : ℕ) : UInt8 := if n < 10 then (48 + n).toUInt8 else (55 + n).toUInt8

/-- `string.format("%%%02X", string.byte(c))`, for a capture of one byte or more. -/
def escapeFunc : Capture → Option Bytes
  | .str (c :: _) => some [37, hexDigit (c.toNat / 16), hexDigit (c.toNat % 16)]
  | .str [] | .pos _ => none

def escape (s : Bytes) : Option Bytes :=
  gsubFunction s (Bytes.ascii "([^A-Za-z0-9_])") escapeFunc

/-- The body of the request of `httpc.post`. -/
def postBody (form : StringTable) : Option Bytes := do
  let body ← form.entries.mapM fun e => do
    return (← escape e.1) ++ Bytes.ascii "=" ++ (← escape e.2)
  return (Bytes.ascii "&").intercalate body

/-- `decode_func`; `string.char` takes a byte. -/
def decode_func : Capture → Option Bytes
  | .str c => do
    let n ← tonumberBase 16 c
    if 0 ≤ n ∧ n ≤ 255 then some [n.toNat.toUInt8] else none
  | .pos _ => none

def decode (str : Bytes) : Option Bytes := do
  let str ← gsubFunction str (Bytes.ascii "+") fun _ => some (Bytes.ascii " ")
  gsubFunction str (Bytes.ascii "%%(..)") decode_func

/-- The body of the loop of `url.parse_query`. -/
def addField (r : StringTable) : List Capture → Option StringTable
  | [.str k, .str v] => do
    let v ← decode v
    return r.insert (← decode k) v
  | _ => none

/-- `url.parse_query`. -/
def parse_query (q : Bytes) : Option StringTable := do
  let fields ← gmatch q (Bytes.ascii "(.-)=([^&]*)&?")
  fields.foldlM addField ∅

end Form

end SkynetGame
