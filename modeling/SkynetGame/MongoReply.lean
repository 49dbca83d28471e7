import SkynetGame.Lib.Endian

/-!
# Replies of a mongo server, `op_reply` of lualib-src/lua-mongo.c

A position in the reply is counted from its first byte, and may get in front of it. The loop over the
documents has no bound, so it gets some fuel. Nothing is said of a run that reads outside of the
reply, or in which an `int` overflows.
-/

namespace SkynetGame

namespace Mongo

def INT_MAX : ℤ := 0x7fffffff

def REPLY_QUERYFAILURE : ℕ := 2

/-- `int32_t` from whatever is stored into it -/
def toInt (n : ℤ) : ℤ := n.bmod 0x100000000

/-- `get_length`, and what `little_endian` gives for a field of the header. -/
def get_length (data : Bytes) (doc : ℕ) : ℤ := toInt (Endian.ofLe ((data.drop doc).take 4))

/-- `sizeof(*reply)` -/
def header : ℕ := 32

def response_id (data : Bytes) : ℤ := get_length data 4

def flags (data : Bytes) : ℤ := get_length data 12

def cursor_id (data : Bytes) : Bytes := (data.drop 16).take 8

def starting (data : Bytes) : ℤ := get_length data 24

def number (data : Bytes) : ℤ := get_length data 28

/-- `flags & REPLY_QUERYFAILURE` -/
def failed (data : Bytes) : Bool :=
  (flags data % 0x100000000).toNat &&& REPLY_QUERYFAILURE != 0

/-- A key of a table -/
inductive Key
  | index (i : ℕ)
  | other (key : ℕ)
deriving DecidableEq

/-- What a table holds: a pointer to a document, as `lightuserdata`, or something else. -/
inductive Value
  | document (doc : ℤ)
  | other
deriving DecidableEq

abbrev Table := Key → Option Value

/-- `lua_rawseti` -/
def rawseti (t : Table) (i : ℕ) (v : Option Value) : Table :=
  fun k => if k = .index i then v else t k

/-- What becomes of a run. -/
inductive Outcome (α : Type)
  | done (a : α)
  | undefined
  | running

/-- What the loop keeps. -/
structure Walker where
  table : Table
  doc : ℤ
  sz : ℤ
  i : ℕ

/-- `while (sz > 4)` -/
def docLoop (data : Bytes) : ℕ → Walker → Outcome Walker
  | 0, _ => .running
  | fuel + 1, w =>
    if 4 < w.sz then
      if w.doc < 0 ∨ data.length < w.doc + 4 then .undefined
      else
        let doc_len := get_length data w.doc.toNat
        if INT_MAX < w.sz - doc_len ∨ INT_MAX ≤ w.i then .undefined
        else docLoop data fuel {
          table := rawseti w.table w.i (some (.document w.doc))
          doc := w.doc + doc_len
          sz := w.sz - doc_len
          i := w.i + 1 }
    else .done w

/-- `for (;i<=c;i++)`, with how often. -/
def trimLoop : ℕ → ℕ → Table → Table
  | 0, _, t => t
  | n + 1, i, t => trimLoop n (i + 1) (rawseti t i none)

/-- What `op_reply` returns. -/
inductive Reply
  | short
  | failure (id : ℤ) (document : ℤ)
  | mismatch (id : ℤ)
  | success (id : ℤ) (document : Option ℤ) (cursor_id : Option Bytes) (startfrom : ℤ)
deriving DecidableEq

/-- From the test of what is left on. -/
def finish (data : Bytes) (sz : ℤ) : Except String Reply :=
  if sz ≠ 0 then .error "Invalid result bson document"
  else .ok (.success (response_id data) (if number data = 0 then none else some header)
    (if (cursor_id data).all (· == 0) then none else some (cursor_id data)) (starting data))

/-- `op_reply`, where `rawlen` is what the length of a table is. -/
def op_reply (rawlen : Table → ℕ) (fuel : ℕ) (data : Bytes) (result : Option Table) :
    Outcome (Except String Reply × Option Table) :=
  if data.length < header then .done (.ok .short, result)
  else if failed data then .done (.ok (.failure (response_id data) header), result)
  else
    let sz := toInt (data.length - header)
    match result with
    | some t =>
      match docLoop data fuel { table := t, doc := header, sz, i := 1 } with
      | .running => .running
      | .undefined => .undefined
      | .done w =>
        if INT_MAX ≤ number data then .undefined
        else if w.i ≠ number data + 1 then
          .done (.ok (.mismatch (response_id data)), some w.table)
        else
          let c := rawlen w.table
          .done (finish data w.sz, some (trimLoop (c + 1 - w.i) w.i w.table))
    | none =>
      if sz < 4 then .done (finish data sz, none)
      else if data.length < header + 4 ∨ INT_MAX < sz - get_length data header then .undefined
      else .done (finish data (sz - get_length data header), none)

end Mongo

end SkynetGame
