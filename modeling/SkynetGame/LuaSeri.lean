import SkynetGame.LuaValue
import SkynetGame.Lib.Endian

/-!
# Serialized Lua values (`lua-seri.c`)

A value is a byte with its type in the three low bits and a cookie above them, and what the type
needs behind it. They are written to a chain of blocks whose total is an `int`, and then copied to
one buffer. A failed allocation and an error are `none`.
-/

namespace SkynetGame

namespace LuaSeri

open LuaValue

def blockSize : ℕ := 128

def maxDepth : ℕ := 32

def maxCookie : ℕ := 32

/-- `COMBINE_TYPE`. -/
def combineType (t v : ℕ) : UInt8 := UInt8.ofNat (t + v * 8)

/-- The blocks that are full, the current one up to `ptr`, and the total. -/
structure WriteBlock where
  full : List Bytes
  buffer : Bytes
  len : Int32

namespace WriteBlock

def init : WriteBlock := ⟨[], [], 0⟩

/-- `blk_alloc` for the next block. -/
def newBlock (b : WriteBlock) : WriteBlock :=
  { b with
    full := b.full ++ [b.buffer]
    buffer := [] }

/-- `wb_push` behind its first test. -/
def copy (b : WriteBlock) (buf : Bytes) : WriteBlock :=
  if b.buffer.length + buf.length ≤ blockSize then
    { b with
      buffer := b.buffer ++ buf
      len := b.len + Int32.ofNat buf.length }
  else
    let n := blockSize - b.buffer.length
    copy { newBlock { b with buffer := b.buffer ++ buf.take n } with
      len := b.len + Int32.ofNat n } (buf.drop n)
termination_by (buf.length, b.buffer.length)
decreasing_by
  simp only [newBlock, List.length_drop, List.length_nil, blockSize] at *
  by_cases hn : b.buffer.length < 128
  · exact Prod.Lex.left _ _ (by omega)
  · have hz : 128 - b.buffer.length = 0 := by omega
    rw [hz]
    exact Prod.Lex.right _ (by omega)

/-- `wb_push`. -/
def push (b : WriteBlock) (buf : Bytes) : WriteBlock :=
  copy (if b.buffer.length = blockSize then b.newBlock else b) buf

variable (b : WriteBlock)

/-- `wb_nil`. -/
def nil : WriteBlock := b.push [0]

/-- `wb_boolean`. -/
def boolean (v : Bool) : WriteBlock := b.push [combineType 1 v.toNat]

/-- `wb_integer`. -/
def integer (v : Int64) : WriteBlock :=
  if v = 0 then b.push [combineType 2 0]
  else if v ≠ v.toInt32.toInt64 then
    (b.push [combineType 2 6]).push (Endian.le 8 v.toUInt64.toNat)
  else if v < 0 then (b.push [combineType 2 4]).push (Endian.le 4 v.toInt32.toUInt32.toNat)
  else if v < 0x100 then (b.push [combineType 2 1]).push [v.toUInt64.toUInt8]
  else if v < 0x10000 then
    (b.push [combineType 2 2]).push (Endian.le 2 v.toUInt64.toUInt16.toNat)
  else (b.push [combineType 2 4]).push (Endian.le 4 v.toUInt64.toUInt32.toNat)

/-- `wb_real`. -/
def real (v : UInt64) : WriteBlock := (b.push [combineType 2 8]).push (Endian.le 8 v.toNat)

/-- `wb_pointer`. -/
def pointer (v : UInt64) : WriteBlock := (b.push [3]).push (Endian.le 8 v.toNat)

/-- `wb_string`. -/
def string (str : Bytes) : WriteBlock :=
  let len := str.length
  if len < maxCookie then
    let b := b.push [combineType 4 len]
    if 0 < len then b.push str else b
  else if len < 0x10000 then ((b.push [combineType 5 2]).push (Endian.le 2 len)).push str
  else ((b.push [combineType 5 4]).push (Endian.le 4 len)).push str

/-- The start of `wb_table_array`. -/
def tableArray (arraySize : ℕ) : WriteBlock :=
  if maxCookie - 1 ≤ arraySize then
    (b.push [combineType 6 (maxCookie - 1)]).integer (Int64.ofNat arraySize)
  else b.push [combineType 6 arraySize]

end WriteBlock

/-- The entry was written by `wb_table_array`. -/
def inArray (arraySize : ℕ) : LuaValue → Bool
  | .integer x => 0 < x && x.toInt ≤ arraySize
  | _ => false

/-- `pack_one`, with `wb_table`. -/
def packOne (b : WriteBlock) (depth : ℕ) (v : LuaValue) : Option WriteBlock :=
  if maxDepth < depth then none
  else match v with
    | .nil => some b.nil
    | .boolean v => some (b.boolean v)
    | .integer v => some (b.integer v)
    | .number v => some (b.real v)
    | .lightuserdata p => some (b.pointer p)
    | .string s => some (b.string s)
    | .table arraySize t => do
      let b ← (List.range arraySize).foldlM (fun b i =>
        packOne b (depth + 1) (rawgeti t (i + 1))) (b.tableArray arraySize)
      let b ← t.attach.foldlM (fun b p =>
        if inArray arraySize p.1.1 then some b
        else (packOne b (depth + 1) p.1.1).bind fun b => packOne b (depth + 1) p.1.2) b
      some b.nil
termination_by sizeOf v
decreasing_by
  · have := sizeOf_rawget t (.integer (Int64.ofNat (i + 1)))
    simp only [rawgeti, table.sizeOf_spec]
    omega
  all_goals
    have := List.sizeOf_lt_of_mem p.2
    rcases p with ⟨⟨k, v⟩, hp⟩
    simp at this ⊢
    omega

/-- `pack_from`. -/
def packFrom (b : WriteBlock) (vs : List LuaValue) : Option WriteBlock :=
  vs.foldlM (fun b v => packOne b 0 v) b

/-- The loop of `seri`. -/
def copyBlocks : List Bytes → ℕ → Bytes
  | [], _ => []
  | blk :: blks, len =>
    if blockSize ≤ len then blk.take blockSize ++ copyBlocks blks (len - blockSize)
    else blk.take len

/-- `seri`; no block of memory is as large as a negative `len`. -/
def seri (b : WriteBlock) : Option Bytes :=
  if b.len < 0 then none else some (copyBlocks (b.full ++ [b.buffer]) b.len.toInt.toNat)

/-- `luaseri_pack`. -/
def luaseriPack (vs : List LuaValue) : Option Bytes := (packFrom .init vs).bind seri

/-- `rb_read`: the bytes, and those behind them. -/
def read (rb : Bytes) (sz : ℕ) : Option (Bytes × Bytes) :=
  if rb.length < sz then none else some (rb.take sz, rb.drop sz)

/-- `get_integer`. -/
def getInteger (rb : Bytes) (cookie : ℕ) : Option (Int64 × Bytes) :=
  match cookie with
  | 0 => some (0, rb)
  | 1 => (read rb 1).map fun (n, rb) => (Int64.ofNat (Endian.ofLe n), rb)
  | 2 => (read rb 2).map fun (n, rb) => (Int64.ofNat (Endian.ofLe n), rb)
  | 4 => (read rb 4).map fun (n, rb) => ((UInt32.ofNat (Endian.ofLe n)).toInt32.toInt64, rb)
  | 6 => (read rb 8).map fun (n, rb) => ((UInt64.ofNat (Endian.ofLe n)).toInt64, rb)
  | _ => none

/-- `get_real`, and `get_pointer`. -/
def getQword (rb : Bytes) : Option (UInt64 × Bytes) :=
  (read rb 8).map fun (n, rb) => (UInt64.ofNat (Endian.ofLe n), rb)

/-- `get_buffer`; a length from `2 ^ 31` on is a negative `int`. -/
def getBuffer (rb : Bytes) (len : ℕ) : Option (Bytes × Bytes) :=
  if len < 2 ^ 31 then read rb len else none

section Unpack

-- what `lua_rawlen` says of a table that is built from these entries
variable (rawlen : Entries → ℕ)

section Table

-- `unpack_one`
variable (one : Bytes → Option (LuaValue × Bytes))

/-- The loop of `unpack_table` over the array, from the index `i` on. -/
def unpackArray : ℕ → ℕ → Entries → Bytes → Option (Entries × Bytes)
  | 0, _, t, rb => some (t, rb)
  | n + 1, i, t, rb => do
    let (v, rb) ← one rb
    let t ← rawset t (.integer (Int64.ofNat i)) v
    unpackArray n (i + 1) t rb

/-- Its loop over the hash; each round takes a byte at least. -/
def unpackHash : ℕ → Entries → Bytes → Option (Entries × Bytes)
  | 0, _, _ => none
  | fuel + 1, t, rb => do
    let (k, rb) ← one rb
    if k.isNil then some (t, rb)
    else
      let (v, rb) ← one rb
      let t ← rawset t k v
      unpackHash fuel t rb

/-- The size of the array in `unpack_table`. -/
def arraySize (rb : Bytes) (cookie : ℕ) : Option (ℕ × Bytes) :=
  if cookie = maxCookie - 1 then do
    let (t, rb) ← read rb 1
    let type := Endian.ofLe t
    let cookie := type / 8
    if type % 8 ≠ 2 ∨ cookie = 8 then none
    else (getInteger rb cookie).map fun (n, rb) => (n.toInt32.toInt.toNat, rb)
  else some (cookie, rb)

/-- `unpack_table`. -/
def unpackTable (rb : Bytes) (cookie : ℕ) : Option (LuaValue × Bytes) := do
  let (n, rb) ← arraySize rb cookie
  let (t, rb) ← unpackArray one n 1 [] rb
  let (t, rb) ← unpackHash one (rb.length + 1) t rb
  some (.table (rawlen t) t, rb)

/-- `push_value`. -/
def pushValue (rb : Bytes) (type cookie : ℕ) : Option (LuaValue × Bytes) :=
  match type with
  | 0 => some (.nil, rb)
  | 1 => some (.boolean (cookie ≠ 0), rb)
  | 2 =>
    if cookie = 8 then (getQword rb).map fun (v, rb) => (.number v, rb)
    else (getInteger rb cookie).map fun (v, rb) => (.integer v, rb)
  | 3 => (getQword rb).map fun (p, rb) => (.lightuserdata p, rb)
  | 4 => (getBuffer rb cookie).map fun (s, rb) => (.string s, rb)
  | 5 =>
    (if cookie = 2 then read rb 2 else if cookie = 4 then read rb 4 else none).bind fun (n, rb) =>
      (getBuffer rb (Endian.ofLe n)).map fun (s, rb) => (.string s, rb)
  | 6 => unpackTable rawlen one rb cookie
  | _ => none

end Table

/-- `unpack_one`, in tables at most that deep: each takes a byte. -/
def unpackOne : ℕ → Bytes → Option (LuaValue × Bytes)
  | 0, _ => none
  | fuel + 1, rb => do
    let (t, rb) ← read rb 1
    let type := Endian.ofLe t
    pushValue rawlen (unpackOne fuel) rb (type % 8) (type / 8)

/-- The loop of `luaseri_unpack`. -/
def unpackFrom (one : Bytes → Option (LuaValue × Bytes)) :
    ℕ → Bytes → Option (List LuaValue)
  | 0, _ => none
  | fuel + 1, rb =>
    if rb = [] then some []
    else do
      let (v, rb) ← one rb
      let vs ← unpackFrom one fuel rb
      some (v :: vs)

/-- `luaseri_unpack`. -/
def luaseriUnpack (buffer : Bytes) : Option (List LuaValue) :=
  unpackFrom (unpackOne rawlen buffer.length) (buffer.length + 1) buffer

end Unpack

end LuaSeri

end SkynetGame
