import SkynetGame.Lib.Bytes

/-!
# Types and records (`import_type`, `findtag` and `sproto_encode` of `sproto.c`)

A type is loaded from a block of memory, and says how many records an object of it may have. An
object is encoded field by field: what a callback gives for a field makes a record, with one more in
front of it for the tags that are passed over. The bytes of the data area are left out, but for how
many they are.
-/

namespace SkynetGame

namespace SprotoEncode

/-- `SPROTO_TINTEGER` to `SPROTO_TSTRUCT`, the last with the index of its type. -/
inductive Kind
  | integer
  | boolean
  | string
  | struct (st : ℕ)
deriving DecidableEq, Repr

/-- `struct field`; `key` is -1 for none. -/
structure Field where
  tag : ℕ
  type : Kind
  array : Bool
  name : Bytes
  key : Option ℕ
deriving DecidableEq, Repr

/-- `struct sproto_type`, whose `n` is the length of `f`. -/
structure SprotoType where
  name : Bytes
  base : ℤ
  maxn : ℕ
  f : List Field
deriving DecidableEq, Repr

section Load

variable (mem : ℕ → UInt8)

def toword (p : ℕ) : ℕ := (mem p).toNat + (mem (p + 1)).toNat * 0x100

def todword (p : ℕ) : ℕ := toword mem p + toword mem (p + 2) * 0x10000

/-- The loop of `count_array`; a size that wraps around to 0 is gone through for ever. -/
def countArrayLoop : ℕ → ℕ → ℕ → ℕ → Option ℕ
  | 0, _, _, _ => none
  | fuel + 1, stream, length, n =>
    if length = 0 then some n
    else if length < 4 then none
    else
      let nsz := (todword mem stream + 4) % 0x100000000
      if length < nsz then none else countArrayLoop fuel (stream + nsz) (length - nsz) (n + 1)

def count_array (stream : ℕ) : Option ℕ :=
  countArrayLoop mem (todword mem stream + 1) (stream + 4) (todword mem stream) 0

/-- The loop of `struct_field`: the data of the fields that have some fit. -/
def structFieldLoop (field : ℕ) : ℕ → ℕ → ℕ → ℕ → Bool
  | 0, _, _, _ => true
  | n + 1, i, stream, sz =>
    if toword mem (field + i * 2) ≠ 0 then structFieldLoop field n (i + 1) stream sz
    else if sz < 4 then false
    else
      let dsz := (todword mem stream + 4) % 0x100000000
      if sz < dsz then false else structFieldLoop field n (i + 1) (stream + dsz) (sz - dsz)

/-- `struct_field`: how many fields there are. -/
def struct_field (stream sz : ℕ) : Option ℕ :=
  let fn := toword mem stream
  let header := 2 + 2 * fn
  if sz < 4 ∨ sz < header then none
  else if structFieldLoop mem (stream + 2) fn 0 (stream + header) (sz - header) then some fn
  else none

def import_string (stream : ℕ) : Bytes :=
  (List.range (todword mem stream)).map fun i => mem (stream + 4 + i)

/-- The fields of a field, as far as they are known. -/
structure Partial where
  tag : Option ℕ
  type : Option Kind
  name : Option Bytes
  key : Option ℕ
  array : Bool

/-- The body of the loop of `import_field`, for the field `tag` with an even value. -/
def importValue (type_n : ℕ) (f : Partial) (tag value : ℕ) (name : Bytes) : Option Partial :=
  if tag = 0 then if value ≠ 0 then none else some { f with name := some name }
  else if value = 0 then none
  else
    let value := value / 2 - 1
    match tag with
    | 1 => match value with
      | 0 => some { f with type := some .integer }
      | 1 => some { f with type := some .boolean }
      | 2 => some { f with type := some .string }
      | _ => none
    | 2 =>
      if type_n ≤ value then none
      else if f.type.isSome then none
      else some { f with type := some (.struct value) }
    | 3 => some { f with tag := some value }
    | 4 => some (if value ≠ 0 then { f with array := true } else f)
    | 5 => some { f with key := some value }
    | _ => none

/-- The loop of `import_field`, with the tag in front of the next one. -/
def importFieldLoop (type_n stream fn : ℕ) : ℕ → ℕ → ℕ → Partial → Option Partial
  | 0, _, _, f => some f
  | n + 1, i, tag, f =>
    let value := toword mem (stream + 2 * i)
    if value % 2 = 1 then importFieldLoop type_n stream fn n (i + 1) (tag + 1 + value / 2) f
    else do
      let f ← importValue type_n f tag value (import_string mem (stream + fn * 2))
      importFieldLoop type_n stream fn n (i + 1) (tag + 1) f

/-- `import_field`: the field, and where the next one is. -/
def import_field (type_n stream : ℕ) : Option (Field × ℕ) := do
  let sz := todword mem stream
  let fn ← struct_field mem (stream + 4) sz
  let f ← importFieldLoop mem type_n (stream + 6) fn fn 0 0 ⟨none, none, none, none, false⟩
  let tag ← f.tag
  let type ← f.type
  let name ← f.name
  some (⟨tag, type, f.array, name, f.key⟩, stream + 4 + sz)

/-- The loop of `import_type`: the fields, and how many more than them the records may be. -/
def importFields (type_n : ℕ) : ℕ → ℕ → ℤ → Option (List Field × ℕ)
  | 0, _, _ => some ([], 0)
  | n + 1, stream, last => do
    let (f, stream) ← import_field mem type_n stream
    if f.tag ≤ last then none
    else do
      let (fs, gaps) ← importFields type_n n stream f.tag
      some (f :: fs, if last + 1 < f.tag then gaps + 1 else gaps)

/-- `import_type`: the type, and where the next one is. Without fields the tags at both ends are
whatever is in the memory there. -/
def import_type (garbage : ℤ × ℤ) (type_n stream : ℕ) : Option (SprotoType × ℕ) := do
  let sz := todword mem stream
  let result := stream + 4 + sz
  let fn ← struct_field mem (stream + 4) sz
  if fn = 0 ∨ 2 < fn then none
  else if (List.range fn).any fun i => toword mem (stream + 6 + i * 2) ≠ 0 then none
  else do
    let stream := stream + 6 + fn * 2
    let name := import_string mem stream
    if fn = 1 then some (⟨name, 0, 0, []⟩, result)
    else do
      let stream := stream + (todword mem stream + 4) % 0x100000000
      let n ← count_array mem stream
      let (f, gaps) ← importFields mem type_n n (stream + 4) (-1)
      let base := (f.head?.map fun f => (f.tag : ℤ)).getD garbage.1
      let last := (f.getLast?.map fun f => (f.tag : ℤ)).getD garbage.2
      some (⟨name, if last - base + 1 = n then base else -1, n + gaps, f⟩, result)

end Load

section Find

/-- The loop of `findtag`. -/
def searchTag (f : List Field) (tag : ℤ) : ℕ → ℕ → ℕ → Option Field
  | 0, _, _ => none
  | fuel + 1, begin, last =>
    if begin < last then
      let mid := (begin + last) / 2
      match f[mid]? with
      | none => none
      | some field =>
        if field.tag = tag then some field
        else if field.tag < tag then searchTag f tag fuel (mid + 1) last
        else searchTag f tag fuel begin mid
    else none

/-- The binary search of `findtag`. -/
def binarySearch (st : SprotoType) (tag : ℤ) : Option Field :=
  searchTag st.f tag (st.f.length + 1) 0 st.f.length

/-- `findtag`; the difference is an `int`. -/
def findtag (st : SprotoType) (tag : Int32) : Option Field :=
  if 0 ≤ st.base then
    let tag := (tag.toInt - st.base).bmod 0x100000000
    if tag < 0 ∨ st.f.length ≤ tag then none else st.f[tag.toNat]?
  else binarySearch st tag.toInt

end Find

/-- `sproto_arg`, without the place of the value. -/
structure Arg where
  field : Field
  index : ℕ
  length : ℤ

/-- What the callback returns, with the value that it has written. -/
structure Reply where
  sz : ℤ
  u64 : UInt64

def SPROTO_CB_NIL : ℤ := -2

def SPROTO_CB_NOARRAY : ℤ := -3

/-- How `sproto_encode` ends, unless its callback goes on for ever. -/
inductive Outcome
  | finished
  | returned (n : ℤ)
  | running
deriving DecidableEq, Repr

/-- What an array comes to. -/
inductive Content
  | size (sz : ℤ)
  | noarray
  | error
  | running
deriving DecidableEq, Repr

/-- What a field comes to: the size of its data, or a value for its record. -/
inductive Encoded
  | next
  | stop (o : Outcome)
  | data (sz : ℤ)
  | value (v : ℕ)
deriving DecidableEq, Repr

section Encode

variable {σ : Type} (cb : Arg → σ → Reply × σ)

/-- An `int` is compared with a `size_t`. -/
def below (size : ℤ) (n : ℕ) : Prop := size % 0x10000000000000000 < n

instance (size : ℤ) (n : ℕ) : Decidable (below size n) := inferInstanceAs (Decidable (_ < _))

/-- The loop of `encode_integer_array`: `len` bytes have been written behind the length of an
integer. -/
def integerArray (f : Field) : ℕ → ℕ → ℕ → ℤ → ℤ → σ → Content × σ
  | 0, _, _, _, _, ud => (.running, ud)
  | fuel + 1, index, intlen, size, len, ud =>
    let (r, ud) := cb ⟨f, index, 8⟩ ud
    if r.sz ≤ 0 then
      if r.sz = SPROTO_CB_NIL then (.size (if len = 0 then 0 else len + 1), ud)
      else if r.sz = SPROTO_CB_NOARRAY then (.noarray, ud)
      else (.error, ud)
    else if below size 8 then (.error, ud)
    else if r.sz = 4 then integerArray f fuel (index + 1) intlen (size - intlen) (len + intlen) ud
    else if r.sz ≠ 8 then (.error, ud)
    else if intlen = 4 then
      -- the integers before it get eight bytes each, too
      let size := size - (index - 1) * 4
      if below size 8 then (.error, ud)
      else integerArray f fuel (index + 1) 8 (size - 8) (len + (index - 1) * 4 + 8) ud
    else integerArray f fuel (index + 1) intlen (size - intlen) (len + intlen) ud

/-- The loop of `encode_array` over booleans. -/
def booleanArray (f : Field) : ℕ → ℕ → ℤ → ℤ → σ → Content × σ
  | 0, _, _, _, ud => (.running, ud)
  | fuel + 1, index, size, len, ud =>
    let (r, ud) := cb ⟨f, index, 4⟩ ud
    if r.sz < 0 then
      if r.sz = SPROTO_CB_NIL then (.size len, ud)
      else if r.sz = SPROTO_CB_NOARRAY then (.noarray, ud)
      else (.error, ud)
    else if size < 1 then (.error, ud)
    else booleanArray f fuel (index + 1) (size - 1) (len + 1) ud

/-- The loop of `encode_array` over strings and structs. -/
def objectArray (f : Field) : ℕ → ℕ → ℤ → ℤ → σ → Content × σ
  | 0, _, _, _, ud => (.running, ud)
  | fuel + 1, index, size, len, ud =>
    if size < 4 then (.error, ud)
    else
      let (r, ud) := cb ⟨f, index, size - 4⟩ ud
      if r.sz < 0 then
        if r.sz = SPROTO_CB_NIL then (.size len, ud)
        else if r.sz = SPROTO_CB_NOARRAY then (.noarray, ud)
        else (.error, ud)
      else objectArray f fuel (index + 1) (size - 4 - r.sz) (len + 4 + r.sz) ud

/-- `encode_array`, whose callback is asked for `fuel` elements at most. -/
def encode_array (fuel : ℕ) (f : Field) (size : ℤ) (ud : σ) : Encoded × σ :=
  if size < 4 then (.stop (.returned (-1)), ud)
  else
    let (content, ud) : Content × σ := match f.type with
      | .integer =>
        if size - 4 < 1 then (.error, ud) else integerArray cb f fuel 1 4 (size - 5) 0 ud
      | .boolean => booleanArray cb f fuel 1 (size - 4) 0 ud
      | .string | .struct _ => objectArray cb f fuel 1 (size - 4) 0 ud
    match content with
    | .size sz => (.data (sz + 4), ud)
    | .noarray => (.next, ud)
    | .error => (.stop (.returned (-1)), ud)
    | .running => (.stop .running, ud)

/-- What `sproto_encode` does with a field, up to its record. -/
def encodeField (fuel : ℕ) (f : Field) (size : ℤ) (ud : σ) : Encoded × σ :=
  if f.array then encode_array cb fuel f size ud
  else match f.type with
    | .integer | .boolean =>
      let (r, ud) := cb ⟨f, 0, 8⟩ ud
      if r.sz < 0 then
        if r.sz = SPROTO_CB_NIL then (.next, ud)
        else if r.sz = SPROTO_CB_NOARRAY then (.stop (.returned 0), ud)
        else (.stop (.returned (-1)), ud)
      else if r.sz = 4 then
        let u32 := r.u64.toNat % 0x100000000
        if u32 < 0x7fff then (.value ((u32 + 1) * 2), ud)
        else if below size 8 then (.stop (.returned (-1)), ud)
        else (.data 8, ud)
      else if r.sz = 8 then
        if below size 12 then (.stop (.returned (-1)), ud) else (.data 12, ud)
      else (.stop (.returned (-1)), ud)
    | .string | .struct _ =>
      -- `encode_object`
      if size < 4 then (.stop (.returned (-1)), ud)
      else
        let (r, ud) := cb ⟨f, 0, size - 4⟩ ud
        if r.sz < 0 then
          if r.sz = SPROTO_CB_NIL then (.next, ud) else (.stop (.returned (-1)), ud)
        else (.data (r.sz + 4), ud)

/-- What has been written: the records, and how many bytes of data. -/
structure Writer where
  records : List ℕ
  datasz : ℤ
  size : ℤ
  lasttag : ℤ
deriving DecidableEq, Repr

/-- The record of a field, behind one for the tags that have no value. -/
def Writer.record (w : Writer) (f : Field) (sz : ℤ) (value : ℕ) : Option Writer :=
  let w := if value = 0 then { w with datasz := w.datasz + sz, size := w.size - sz } else w
  let tag := f.tag - w.lasttag - 1
  if 0 < tag then
    let tag := (tag - 1) * 2 + 1
    if 0xffff < tag then none
    else some { w with records := w.records ++ [tag.toNat, value], lasttag := f.tag }
  else some { w with records := w.records ++ [value], lasttag := f.tag }

/-- The loop of `sproto_encode`. -/
def encodeFields (fuel : ℕ) : List Field → Writer → σ → Outcome × Writer
  | [], w, _ => (.finished, w)
  | f :: fs, w, ud =>
    match encodeField cb fuel f w.size ud with
    | (.next, ud) => encodeFields fuel fs w ud
    | (.stop o, _) => (o, w)
    | (.data sz, ud) =>
      match w.record f sz 0 with
      | some w => encodeFields fuel fs w ud
      | none => (.returned (-1), w)
    | (.value v, ud) =>
      match w.record f 2 v with
      | some w => encodeFields fuel fs w ud
      | none => (.returned (-1), w)

/-- Where the data are, until they are moved to the records. -/
def headerSz (st : SprotoType) : ℤ := 2 + st.maxn * 2

/-- `sproto_encode`: what it returns, unless it is still running, and the records that it has
written. -/
def sproto_encode (fuel : ℕ) (st : SprotoType) (size : ℤ) (ud : σ) : Option ℤ × List ℕ :=
  if size < headerSz st then (some (-1), [])
  else
    let (o, w) := encodeFields cb fuel st.f ⟨[], 0, size - headerSz st, -1⟩ ud
    match o with
    | .finished => (some (2 + w.records.length * 2 + w.datasz), w.records)
    | .returned n => (some n, w.records)
    | .running => (none, w.records)

end Encode

end SprotoEncode

end SkynetGame
