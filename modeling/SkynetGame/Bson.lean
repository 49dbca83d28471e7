import SkynetGame.LuaValue
import SkynetGame.Lib.Endian
import SkynetGame.Lib.Walk

/-!
# BSON documents (`lua-bson.c`)

`unpack_dict` and `lmakeindex` over a block of memory, with readers of a position and a size, both
`int`. A loop that has gone round `fuel` times is still running. How C's stack grows with nested
documents is left out.
-/

namespace SkynetGame

namespace Bson

open LuaValue Cursor

/-- The types of `BSON_REAL` to `BSON_MINKEY` that are unpacked. -/
inductive Kind
  | real | string | document | array | binary | objectid | boolean | date | null | regex
  | dbpointer | jscode | symbol | codews | int32 | timestamp | int64 | minkey | maxkey
  deriving DecidableEq

namespace Kind

def byte : Kind → UInt8
  | real => 1
  | string => 2
  | document => 3
  | array => 4
  | binary => 5
  | objectid => 7
  | boolean => 8
  | date => 9
  | null => 10
  | regex => 11
  | dbpointer => 12
  | jscode => 13
  | symbol => 14
  | codews => 15
  | int32 => 16
  | timestamp => 17
  | int64 => 18
  | minkey => 255
  | maxkey => 127

def all : List Kind :=
  [real, string, document, array, binary, objectid, boolean, date, null, regex, dbpointer, jscode,
    symbol, codews, int32, timestamp, int64, minkey, maxkey]

/-- The kind of a type, if it is supported. -/
def ofByte (bt : UInt8) : Option Kind := all.find? fun k => k.byte == bt

end Kind

/-- To an `int`. -/
def toInt (n : ℤ) : ℤ := n.bmod 0x100000000

/-- `get_length`. -/
def getLength (data : Bytes) : ℤ := toInt (Endian.ofLe (data.take 4))

section Reader

variable (block : Bytes)

/-- `read_bytes`, with `check_reader`. -/
def readBytes (sz : ℤ) : Reader Bytes := do
  let r ← take block sz
  ofOption r

/-- `read_byte`. -/
def readByte : Reader UInt8 := do
  let b ← readBytes block 1
  pure (b.headD 0)

/-- `read_int32`. -/
def readInt32 : Reader Int32 := do
  let b ← readBytes block 4
  pure (UInt32.ofNat (Endian.ofLe b)).toInt32

/-- `read_int64`; `read_double` reads the same bits. -/
def readInt64 : Reader Int64 := do
  let b ← readBytes block 8
  pure (UInt64.ofNat (Endian.ofLe b)).toInt64

/-- The loop of `read_cstring`, in front of the bytes `rest` that are `i` behind the position. -/
def cstringLoop (c : Cursor) : Bytes → ℕ → Result Bytes
  | rest, i =>
    if (i : ℤ) = c.len then .error
    else match rest with
      | [] => .outside
      | b :: rest =>
        if b = 0 then
          .ok ((block.drop c.ptr.toNat).take i) ⟨c.ptr + (i + 1 : ℕ), c.len - (i + 1 : ℕ)⟩
        else cstringLoop c rest (i + 1)

/-- `read_cstring`. -/
def readCstring : Reader Bytes := fun c =>
  if c.ptr < 0 then .outside else cstringLoop block c (block.drop c.ptr.toNat) 0

/-- Strings that stand for values Lua does not have; `make_object`. -/
def object (k : Kind) (b : Bytes) : LuaValue := .string (0 :: k.byte :: b)

/-- What `isspace` is true of in the C locale. -/
def isSpace (b : UInt8) : Bool := b = 32 || 9 ≤ b && b ≤ 13

/-- `strtol` in base ten. -/
def strtol (s : Bytes) : ℤ :=
  let s := s.dropWhile isSpace
  let neg := s.head? = some 45
  let s := if s.head? = some 45 ∨ s.head? = some 43 then s.tail else s
  let digits := s.takeWhile fun b => 48 ≤ b && b ≤ 57
  let n : ℤ := digits.foldl (fun n b => 10 * n + (b.toNat - 48)) (0 : ℕ)
  if neg then max (-n) (-0x8000000000000000) else min n 0x7fffffffffffffff

-- what `lua_rawlen` says of a table that is built from these entries
variable (rawlen : Entries → ℕ)

section Document

-- `unpack_dict`
variable (dict : Bool → Reader LuaValue)

/-- The value of an element in `unpack_dict`. -/
def unpackValue : Kind → Reader LuaValue
  | .real => do
    let v ← readInt64 block
    pure (.number v.toUInt64)
  | .boolean => do
    let b ← readByte block
    pure (.boolean (b ≠ 0))
  | .string => do
    let sz ← readInt32 block
    if sz.toInt ≤ 0 then fail
    else do
      let s ← readBytes block sz.toInt
      pure (.string s.dropLast)
  | .document => dict false
  | .array => dict true
  | .binary => do
    let sz ← readInt32 block
    let subtype ← readByte block
    let s ← readBytes block sz.toInt
    pure (object .binary (subtype :: s))
  | .objectid => do
    let s ← readBytes block 12
    pure (object .objectid s)
  | .date => do
    let date ← readInt64 block
    pure (object .date (Endian.le 4 (date / 1000).toUInt64.toNat))
  | .minkey => pure (object .minkey [])
  | .maxkey => pure (object .maxkey [])
  | .null => pure (object .null [])
  | .regex => do
    let r1 ← readCstring block
    let r2 ← readCstring block
    pure (object .regex (r1 ++ [0] ++ r2 ++ [0]))
  | .int32 => do
    let i ← readInt32 block
    pure (.integer i.toInt64)
  | .timestamp => do
    let inc ← readInt32 block
    let ts ← readInt32 block
    pure (object .timestamp (Endian.le 4 inc.toUInt32.toNat ++ Endian.le 4 ts.toUInt32.toNat))
  | .int64 => do
    let i ← readInt64 block
    pure (.integer i)
  | .dbpointer => do
    let sz ← readInt32 block
    let s ← readBytes block (toInt (sz.toInt + 12))
    pure (object .dbpointer (Endian.le 4 sz.toUInt32.toNat ++ s))
  | .jscode => do
    let sz ← readInt32 block
    let s ← readBytes block sz.toInt
    pure (object .jscode (Endian.le 4 sz.toUInt32.toNat ++ s))
  | .symbol => do
    let sz ← readInt32 block
    let s ← readBytes block sz.toInt
    pure (object .symbol (Endian.le 4 sz.toUInt32.toNat ++ s))
  | .codews => do
    let sz ← readInt32 block
    let s ← readBytes block (toInt (sz.toInt - 4))
    pure (object .codews (Endian.le 4 sz.toUInt32.toNat ++ s))

/-- The loop of `unpack_dict`, with the table so far. -/
def unpackElements (array : Bool) : ℕ → Entries → Reader LuaValue
  | 0, _ => running
  | fuel + 1, t => do
    let c ← cursor
    if c.len = 0 then pure (.table (rawlen t) t)
    else do
      let bt ← readByte block
      let key ← readCstring block
      let k : LuaValue :=
        if array then .integer (Int64.ofInt (toInt (strtol key + 1))) else .string key
      let kind ← ofOption (Kind.ofByte bt)
      let v ← unpackValue block dict kind
      unpackElements array fuel (rawset.set t k v)

end Document

/-- `unpack_dict`. -/
def unpackDict : ℕ → Bool → Reader LuaValue
  | 0, _ => running
  | fuel + 1, array => do
    let sz ← readInt32 block
    let bytes ← cursor
    let _ ← readBytes block (toInt (sz.toInt - 5))
    let last ← readByte block
    if last ≠ 0 then fail
    else
      within ⟨bytes.ptr, toInt (sz.toInt - 5)⟩
        (unpackElements block rawlen (unpackDict fuel) array fuel [])

/-- `ldecode` of a block. -/
def decode : Result LuaValue :=
  unpackDict block rawlen (block.length + 1) false ⟨0, getLength block⟩

/-- What `lmakeindex` skips of a value, and the size of a field that it puts in the index. -/
def skipValue : Kind → Reader ℕ
  | .int64 | .timestamp | .date | .real => pure 8
  | .boolean => pure 1
  | .jscode | .symbol | .string => do
    let sz ← readInt32 block
    let _ ← readBytes block sz.toInt
    pure 0
  | .codews | .array | .document => do
    let sz ← readInt32 block
    let _ ← readBytes block (toInt (sz.toInt - 4))
    pure 0
  | .binary => do
    let sz ← readInt32 block
    let _ ← readBytes block (toInt (sz.toInt + 1))
    pure 0
  | .objectid => pure 12
  | .minkey | .maxkey | .null => pure 0
  | .regex => do
    let _ ← readCstring block
    let _ ← readCstring block
    pure 0
  | .int32 => pure 4
  | .dbpointer => do
    let sz ← readInt32 block
    let _ ← readBytes block (toInt (sz.toInt + 12))
    pure 0

/-- The type and the place of a field, in one `int`. -/
def indexId (bt : UInt8) (place : ℤ) : LuaValue :=
  .integer (Int64.ofInt (toInt (bt.toNat + 32 * place)))

/-- The loop of `lmakeindex`, with the index so far. -/
def indexLoop : ℕ → Entries → Reader Entries
  | 0, _ => running
  | fuel + 1, t => do
    let c ← cursor
    if c.len = 0 then pure t
    else do
      let bt ← readByte block
      let key ← readCstring block
      let kind ← ofOption (Kind.ofByte bt)
      let fieldSize ← skipValue block kind
      if 0 < fieldSize then do
        let c ← cursor
        let _ ← readBytes block fieldSize
        indexLoop fuel (rawset.set t (.string key) (indexId bt c.ptr))
      else indexLoop fuel t

/-- `lmakeindex`: the index of a block. -/
def makeindex : Result Entries :=
  indexLoop block (block.length + 1) [] ⟨4, getLength block - 5⟩

end Reader

end Bson

/-!
## How far an element of a document goes

The layout of each kind of value, once as `unpack_dict` goes through it and once as `lmakeindex`
skips it, and the walk over a document by these layouts. A length is too short where less than nothing
is left of it for what it counts.
-/

namespace Bson

open Walk

inductive Layout
  | fixed (n : ℕ)
  | cstrings
  -- a length that must not be negative or zero, and so many bytes
  | text
  -- a length, `pre` bytes, and as many as the length and `adj` make
  | sized (pre : ℕ) (adj : ℤ)
  | document

/-- A byte. -/
def byte : Bytes → Option (UInt8 × Bytes)
  | [] => none
  | b :: r => some (b, r)

/-- The length at the start. -/
def word (rest : Bytes) : Option (Int32 × Bytes) :=
  if rest.length < 4 then none
  else some ((UInt32.ofNat (Endian.ofLe (rest.take 4))).toInt32, rest.drop 4)

/-- A string, up to its zero. -/
def cstring : Bytes → Option (Bytes × Bytes)
  | [] => none
  | b :: r => if b = 0 then some ([], r) else (cstring r).map fun p => (b :: p.1, p.2)

/-- A block of this size with a zero behind it. -/
def enclosed (inner : Bytes → Walk) (sz : ℤ) (rest : Bytes) : Walk :=
  (counted sz rest).next (read byte fun b r =>
    if b = 0 then (inner (rest.take sz.toNat)).next fun _ => .leaves r else .malformed)

/-- A value of this layout, with `inner` for the elements of a document. -/
def walkValue (inner : Bytes → Walk) : Layout → Bytes → Walk
  | .fixed n => counted n
  | .cstrings => read cstring fun _ => read cstring fun _ => .leaves
  | .text => read word fun w => if w.toInt ≤ 0 then fun _ => .malformed else counted w.toInt
  | .sized pre adj => read word fun w r => (counted pre r).next (counted (toInt (w.toInt + adj)))
  | .document => read word fun w => enclosed inner (toInt (w.toInt - 5))

/-- The elements of a document; each takes two bytes at least. -/
def walk (layout : Kind → Layout) : ℕ → Bytes → Walk
  | 0, _ => .malformed
  | fuel + 1, rest =>
    if rest = [] then .leaves []
    else read byte (fun bt => read cstring fun _ => given (Kind.ofByte bt) fun k r =>
      (walkValue (walk layout fuel) (layout k) r).next (walk layout fuel)) rest

/-- A reader ended with a value or an error, and went through the block only forwards. -/
def Ended {α : Type} (r : Cursor.Result α) : Prop := r = .error ∨ ∃ a c, r = .ok a c

/-- Both readers of the block end so. -/
def InBounds (rawlen : LuaValue.Entries → ℕ) (block : Bytes) : Prop :=
  Ended (decode block rawlen) ∧ Ended (makeindex block)

end Bson

end SkynetGame
