import SkynetGame.Lib.Endian
import SkynetGame.Lib.Slice

/-!
# SHA-1 and HMAC-SHA-1 (lualib-src/lsha1.c)

The hash takes its text in pieces: what fills no block of 64 bytes yet waits in a buffer, whose bytes
are anything before. Words are read as on a little-endian machine, and `size_t` has 64 bits.
-/

namespace SkynetGame

namespace Sha1

/-- `uint32_t` -/
abbrev Word := BitVec 32

/-- `rol` -/
def rol (value : Word) (bits : ℕ) : Word := value <<< bits ||| value >>> (32 - bits)

/-- `state[5]` -/
structure Chain where
  a : Word
  b : Word
  c : Word
  d : Word
  e : Word
deriving DecidableEq, Repr

/-- The arguments of the macros `R0` to `R4`, and `block.l`. -/
structure Vars where
  v : Word
  w : Word
  x : Word
  y : Word
  z : Word
  l : ℕ → Word

/-- `blk0` -/
def blk0 (l : ℕ → Word) (i : ℕ) : Word := rol (l i) 24 &&& 0xff00ff00 ||| rol (l i) 8 &&& 0x00ff00ff

/-- `blk` -/
def blk (l : ℕ → Word) (i : ℕ) : Word :=
  rol (l ((i + 13) &&& 15) ^^^ l ((i + 8) &&& 15) ^^^ l ((i + 2) &&& 15) ^^^ l (i &&& 15)) 1

/-- The macro of round `i`; its arguments move on by one in the next round. -/
def round (s : Vars) (i : ℕ) : Vars :=
  let m := if i < 16 then blk0 s.l i else blk s.l i
  let f :=
    if i < 20 then ((s.w &&& (s.x ^^^ s.y)) ^^^ s.y) + m + 0x5a827999
    else if i < 40 then (s.w ^^^ s.x ^^^ s.y) + m + 0x6ed9eba1
    else if i < 60 then ((s.w ||| s.x) &&& s.y ||| s.w &&& s.x) + m + 0x8f1bbcdc
    else (s.w ^^^ s.x ^^^ s.y) + m + 0xca62c1d6
  ⟨s.z + (f + rol s.v 5), s.v, rol s.w 30, s.x, s.y, Function.update s.l (i &&& 15) m⟩

/-- `SHA1_Transform` -/
def transform (s : Chain) (buffer : Bytes) : Chain :=
  let l i := BitVec.ofNat 32 (Endian.ofLe ((buffer.drop (4 * i)).take 4))
  let t := (List.range 80).foldl round ⟨s.a, s.b, s.c, s.d, s.e, l⟩
  ⟨s.a + t.v, s.b + t.w, s.c + t.x, s.d + t.y, s.e + t.z⟩

/-- `SHA1_CTX`; `count` has `count[0]` and `count[1]`. -/
structure Ctx where
  state : Chain
  count : Word × Word
  buffer : ℕ → UInt8

/-- `sat_SHA1_Init` -/
def init (garbage : ℕ → UInt8) : Ctx where
  state := ⟨0x67452301, 0xefcdab89, 0x98badcfe, 0x10325476, 0xc3d2e1f0⟩
  count := (0, 0)
  buffer := garbage

/-- The loop of `sat_SHA1_Update` over the whole blocks of what is left, and what is left then. -/
def blockLoop (s : Chain) (data : Bytes) : Chain × Bytes :=
  if _h : data.length < 64 then (s, data) else blockLoop (transform s (data.take 64)) (data.drop 64)
termination_by data.length
decreasing_by rw [List.length_drop]; omega

/-- `sat_SHA1_Update` -/
def update (ctx : Ctx) (data : Bytes) : Ctx :=
  let len := BitVec.ofNat 64 data.length
  let j := (ctx.count.1 >>> 3 &&& 63).toNat
  let low := ctx.count.1 + (len <<< 3).setWidth 32
  let high := if low.setWidth 64 < len <<< 3 then ctx.count.2 + 1 else ctx.count.2
  let ctx := { ctx with count := (low, high + (len >>> 29).setWidth 32) }
  if j + data.length > 63 then
    let buffer := blit ctx.buffer j (data.take (64 - j))
    let (state, rest) := blockLoop (transform ctx.state (slice buffer 0 64)) (data.drop (64 - j))
    { ctx with state := state, buffer := blit buffer 0 rest }
  else { ctx with buffer := blit ctx.buffer j data }

/-- `finalcount` -/
def finalcount (count : Word × Word) : Bytes :=
  (List.range 8).map fun i =>
    UInt8.ofNat ((if 4 ≤ i then count.1 else count.2) >>> ((3 - (i &&& 3)) * 8)).toNat

/-- The loop of `sat_SHA1_Final`, so many times at most. -/
def zeroLoop : ℕ → Ctx → Option Ctx
  | 0, _ => none
  | n + 1, ctx => if ctx.count.1 &&& 504 = 448 then some ctx else zeroLoop n (update ctx [0])

/-- `sat_SHA1_Final`; `none` if its loop does not end. -/
def final (ctx : Ctx) : Option Bytes :=
  (zeroLoop 64 (update ctx [0x80])).map fun padded =>
    let s := (update padded (finalcount ctx.count)).state
    (List.range 20).map fun i =>
      UInt8.ofNat (([s.a, s.b, s.c, s.d, s.e].getD (i >>> 2) 0) >>> ((3 - (i &&& 3)) * 8)).toNat

/-- `lsha1` -/
def sha1 (garbage : ℕ → UInt8) (buffer : Bytes) : Option Bytes := final (update (init garbage) buffer)

/-- `xor_key`: each byte of the key with the one of the word that it meets. -/
def xor_key (key : Bytes) (x : Word) : Bytes :=
  key.mapIdx fun i c => c ^^^ (Endian.le 4 x.toNat).getD (i % 4) 0

/-- `lhmac_sha1` -/
def hmac_sha1 (garbage : ℕ → UInt8) (key text : Bytes) : Option Bytes :=
  (if 64 < key.length then sha1 garbage key else some key).bind fun key =>
    let rkey := xor_key (key ++ List.replicate (64 - key.length) 0) 0x5c5c5c5c
    let ctx1 := update (init garbage) rkey
    let rkey := xor_key rkey (0x5c5c5c5c ^^^ 0x36363636)
    (final (update (update (init garbage) rkey) text)).bind fun digest2 => final (update ctx1 digest2)

end Sha1

end SkynetGame
