import SkynetGame.LuaSeri
import SkynetGame.Lib.Cursor

/-!
# The read block (`lua-seri.c`)

`luaseri_unpack` as it runs over the buffer, with the position and the length of its read block. The
length of a long string goes to an `int`. A loop that has gone round `fuel` times is still running.
-/

namespace SkynetGame

namespace LuaSeri

open LuaValue Cursor

/-- To an `int`. -/
def toInt (n : ℤ) : ℤ := n.bmod 0x100000000

namespace ReadBlock

variable (buffer : Bytes)

/-- `rb_read`, with `invalid_stream` where it gives nothing. -/
def read (sz : ℤ) : Reader Bytes := do
  let p ← take buffer sz
  ofOption p

/-- `get_integer`. -/
def getInteger (cookie : ℕ) : Reader Int64 :=
  match cookie with
  | 0 => pure 0
  | 1 => do
    let n ← read buffer 1
    pure (Int64.ofNat (Endian.ofLe n))
  | 2 => do
    let n ← read buffer 2
    pure (Int64.ofNat (Endian.ofLe n))
  | 4 => do
    let n ← read buffer 4
    pure (UInt32.ofNat (Endian.ofLe n)).toInt32.toInt64
  | 6 => do
    let n ← read buffer 8
    pure (UInt64.ofNat (Endian.ofLe n)).toInt64
  | _ => fail

/-- `get_real`, and `get_pointer`. -/
def getQword : Reader UInt64 := do
  let n ← read buffer 8
  pure (UInt64.ofNat (Endian.ofLe n))

/-- `get_buffer`, whose length is an `int`. -/
def getBuffer (len : ℕ) : Reader Bytes := read buffer (toInt len)

section Table

-- `unpack_one`
variable (one : Reader LuaValue)

/-- The loop of `unpack_table` over the array, from the index `i` on. -/
def unpackArray : ℕ → ℕ → Entries → Reader Entries
  | 0, _, t => pure t
  | n + 1, i, t => do
    let v ← one
    let t ← ofOption (rawset t (.integer (Int64.ofNat i)) v)
    unpackArray n (i + 1) t

/-- Its loop over the hash. -/
def unpackHash : ℕ → Entries → Reader Entries
  | 0, _ => running
  | fuel + 1, t => do
    let k ← one
    if k.isNil then pure t
    else do
      let v ← one
      let t ← ofOption (rawset t k v)
      unpackHash fuel t

/-- The size of the array in `unpack_table`. -/
def arraySize (cookie : ℕ) : Reader ℕ :=
  if cookie = maxCookie - 1 then do
    let t ← read buffer 1
    if Endian.ofLe t % 8 ≠ 2 ∨ Endian.ofLe t / 8 = 8 then fail
    else do
      let n ← getInteger buffer (Endian.ofLe t / 8)
      pure n.toInt32.toInt.toNat
  else pure cookie

-- what `lua_rawlen` says of a table that is built from these entries
variable (rawlen : Entries → ℕ) (fuel : ℕ)

/-- `unpack_table`. -/
def unpackTable (cookie : ℕ) : Reader LuaValue := do
  let n ← arraySize buffer cookie
  let t ← unpackArray one n 1 []
  let t ← unpackHash one fuel t
  pure (.table (rawlen t) t)

/-- `push_value`. -/
def pushValue (type cookie : ℕ) : Reader LuaValue :=
  match type with
  | 0 => pure .nil
  | 1 => pure (.boolean (cookie ≠ 0))
  | 2 =>
    if cookie = 8 then do
      let v ← getQword buffer
      pure (.number v)
    else do
      let v ← getInteger buffer cookie
      pure (.integer v)
  | 3 => do
    let p ← getQword buffer
    pure (.lightuserdata p)
  | 4 => do
    let s ← getBuffer buffer cookie
    pure (.string s)
  | 5 => do
    let n ← if cookie = 2 then read buffer 2 else if cookie = 4 then read buffer 4 else fail
    let s ← getBuffer buffer (Endian.ofLe n)
    pure (.string s)
  | 6 => unpackTable buffer one rawlen fuel cookie
  | _ => fail

end Table

variable (rawlen : Entries → ℕ)

/-- `unpack_one`. -/
def unpackOne : ℕ → Reader LuaValue
  | 0 => running
  | fuel + 1 => do
    let t ← read buffer 1
    pushValue buffer (unpackOne fuel) rawlen fuel (Endian.ofLe t % 8) (Endian.ofLe t / 8)

/-- The loop of `luaseri_unpack`. -/
def unpackFrom : ℕ → Reader (List LuaValue)
  | 0 => running
  | fuel + 1 => do
    let t ← take buffer 1
    match t with
    | none => pure []
    | some t => do
      let v ← pushValue buffer (unpackOne buffer rawlen fuel) rawlen fuel (Endian.ofLe t % 8)
        (Endian.ofLe t / 8)
      let vs ← unpackFrom fuel
      pure (v :: vs)

/-- `luaseri_unpack` of a string: its values, and the read block behind them. -/
def luaseriUnpack : Result (List LuaValue) :=
  let len := toInt buffer.length
  if len = 0 then .ok [] ⟨0, 0⟩
  else unpackFrom buffer rawlen (buffer.length + 1) ⟨0, len⟩

/-- The part of the buffer that `len` says. -/
def counted : Bytes := buffer.take (toInt buffer.length).toNat

/-- No byte outside of the buffer is read, the position never goes backwards, and it ends with an
error or with the whole buffer consumed. -/
def InBounds : Prop :=
  luaseriUnpack buffer rawlen = .error ∨
    ∃ vs c, luaseriUnpack buffer rawlen = .ok vs c ∧ c.ptr = buffer.length

end ReadBlock

/-!
### Where a length is no `int`
-/

/-- The length of a long string is from `2 ^ 31` on. -/
def LongString (rb : Bytes) (cookie : ℕ) : Prop :=
  cookie = 4 ∧ ∃ n r, read rb 4 = some (n, r) ∧ 0x80000000 ≤ Endian.ofLe n

section Table

variable (one : Bytes → Option (LuaValue × Bytes)) (long : Bytes → Prop)

/-- The elements of the array come to such a string. -/
def LongInArray : ℕ → ℕ → Entries → Bytes → Prop
  | 0, _, _, _ => False
  | n + 1, i, t, rb => long rb ∨ ∃ v r t', one rb = some (v, r) ∧
      rawset t (.integer (Int64.ofNat i)) v = some t' ∧ LongInArray n (i + 1) t' r

/-- The keys and values of the hash come to such a string. -/
def LongInHash : ℕ → Entries → Bytes → Prop
  | 0, _, _ => False
  | fuel + 1, t, rb => long rb ∨ ∃ k r, one rb = some (k, r) ∧ k.isNil = false ∧
      (long r ∨ ∃ v r' t', one r = some (v, r') ∧ rawset t k v = some t' ∧ LongInHash fuel t' r')

/-- The table comes to such a string. -/
def LongInTable (rb : Bytes) (cookie : ℕ) : Prop :=
  ∃ n r, arraySize rb cookie = some (n, r) ∧ (LongInArray one long n 1 [] r ∨
    ∃ t r', unpackArray one n 1 [] r = some (t, r') ∧ LongInHash one long (r'.length + 1) t r')

def LongInValue (rb : Bytes) (type cookie : ℕ) : Prop :=
  type = 5 ∧ LongString rb cookie ∨ type = 6 ∧ LongInTable one long rb cookie

end Table

variable (rawlen : Entries → ℕ)

/-- The value at the start of these bytes is or comes to a long string from `2 ^ 31` on, in tables
at most that deep. -/
def LongInOne : ℕ → Bytes → Prop
  | 0, _ => False
  | fuel + 1, rb => ∃ t r, read rb 1 = some (t, r) ∧
      LongInValue (unpackOne rawlen fuel) (LongInOne fuel) r (Endian.ofLe t % 8) (Endian.ofLe t / 8)

def LongFrom (one : Bytes → Option (LuaValue × Bytes)) (long : Bytes → Prop) : ℕ → Bytes → Prop
  | 0, _ => False
  | fuel + 1, rb => long rb ∨ ∃ v r, one rb = some (v, r) ∧ LongFrom one long fuel r

/-- The values come to the length of a long string that is no `int`. -/
def MeetsLong (buffer : Bytes) : Prop :=
  LongFrom (unpackOne rawlen buffer.length) (LongInOne rawlen buffer.length) (buffer.length + 1)
    buffer

end LuaSeri

end SkynetGame
