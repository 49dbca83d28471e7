import SkynetGame.Lib.Endian

/-!
# The key exchange of lualib-src/lua-crypt.c

`dhexchange` raises the generator to a private key and `dhsecret` raises what the other side sent to
the own key, both modulo the largest prime of 64 bits. Keys and results are strings of 8 bytes, the
lowest byte first. All arithmetic is that of `uint64_t`, which wraps.
-/

namespace SkynetGame

namespace Crypt

/-- `uint64_t` -/
abbrev QWord := BitVec 64

/-- `P`, the biggest 64bit prime -/
def P : QWord := 0xffffffffffffffc5

def G : QWord := 5

/-- `m += a` modulo `P`, by way of what is left up to `P`. -/
def addModP (m a : QWord) : QWord :=
  let t := P - a
  if m ≥ t then m - t else m + a

/-- `a = a * 2` modulo `P` -/
def doubleModP (a : QWord) : QWord :=
  if a ≥ P - a then a * 2 - P else a * 2

theorem shiftRight_lt {b : QWord} (hb : b ≠ 0) : (b >>> 1).toNat < b.toNat := by
  have hpos : 0 < b.toNat := Nat.pos_of_ne_zero fun h => hb (BitVec.eq_of_toNat_eq h)
  rw [BitVec.toNat_ushiftRight, Nat.shiftRight_eq_div_pow]
  omega

/-- The loop of `mul_mod_p` -/
def mulModPLoop (a b m : QWord) : QWord :=
  if _h : b = 0 then m
  else mulModPLoop (doubleModP a) (b >>> 1) (if b &&& 1 ≠ 0 then addModP m a else m)
termination_by b.toNat
decreasing_by exact shiftRight_lt _h

/-- `mul_mod_p` -/
def mulModP (a b : QWord) : QWord := mulModPLoop a b 0

/-- `pow_mod_p`; with `b == 0` it calls itself for ever. -/
def powModPRec (a b : QWord) : Option QWord :=
  if _h : b = 0 then none
  else if b = 1 then some a
  else (powModPRec a (b >>> 1)).map fun t =>
    let t := mulModP t t
    if b % 2 ≠ 0 then mulModP t a else t
termination_by b.toNat
decreasing_by exact shiftRight_lt _h

/-- `powmodp`, `a^b % P` -/
def powModP (a b : QWord) : Option QWord := powModPRec (if a > P then a % P else a) b

/-- `read64`: the word of a string of 8 bytes. -/
def read64 (x : Bytes) : QWord := BitVec.ofNat 64 (Endian.ofLe x)

def push64 (r : QWord) : Bytes := Endian.le 8 r.toNat

/-- What calling one of the functions from Lua gives: an error raised, or a string. -/
abbrev Result := Except String Bytes

/-- `ldhsecret`; `none` where it never returns. -/
def dhsecret (x y : Bytes) : Option Result :=
  if x.length ≠ 8 then some (.error "Invalid uint64 x")
  else if y.length ≠ 8 then some (.error "Invalid uint64 y")
  else if read64 x = 0 ∨ read64 y = 0 then some (.error "Can't be 0")
  else (powModP (read64 x) (read64 y)).map fun r => .ok (push64 r)

/-- `ldhexchange`; `none` where it never returns. -/
def dhexchange (x : Bytes) : Option Result :=
  if x.length ≠ 8 then some (.error "Invalid dh uint64 key")
  else if read64 x = 0 then some (.error "Can't be 0")
  else (powModP G (read64 x)).map fun r => .ok (push64 r)

end Crypt

/-!
## Hexadecimal texts, of lualib-src/lua-crypt.c

The loops count in an `int`, and `none` stands for one that overflows. Behind the end of a string of
Lua there is a zero.
-/

namespace Hex

def INT_MAX : ℕ := 0x7fffffff

def hex : Bytes := Bytes.ascii "0123456789abcdef"

/-- The loop of `ltohex` from `i` on. -/
def encodeLoop : ℕ → Bytes → Option Bytes
  | _, [] => some []
  | i, b :: text =>
    if INT_MAX < i * 2 + 1 then none
    else (encodeLoop (i + 1) text).map fun out =>
      hex.getD (b >>> 4).toNat 0 :: hex.getD (b &&& 0xf).toNat 0 :: out

/-- `ltohex` -/
def hexencode (text : Bytes) : Option Bytes := encodeLoop 0 text

/-- `HEX`, into a `uint8_t` -/
def HEX (c : UInt8) : UInt8 := if 48 ≤ c ∧ c ≤ 57 then c - 48 else c - 97 + 10

/-- What a turn of the loop writes for two characters, or none where it raises an error. -/
def pair (c d : UInt8) : Option UInt8 :=
  if HEX c > 16 ∨ HEX d > 16 then none else some (HEX c <<< 4 ||| HEX d)

/-- What calling one of the functions from Lua gives: an error raised, or a string. -/
abbrev Result := Except String Bytes

/-- The loop of `lfromhex` from `i` on, with how far the text was read. -/
def decodeLoop : ℕ → Bytes → Option (ℕ × Result)
  | i, [] => some (i, .ok [])
  | i, [c] =>
    match pair c 0 with
    | none => some (i + 2, .error "Invalid hex text")
    | some b => if INT_MAX < i + 2 then none else some (i + 2, .ok [b])
  | i, c :: d :: text =>
    match pair c d with
    | none => some (i + 2, .error "Invalid hex text")
    | some b =>
      if INT_MAX < i + 2 then none
      else (decodeLoop (i + 2) text).map fun r => (r.1, r.2.map fun out => b :: out)

/-- `lfromhex`, with how far the text was read. -/
def hexdecode (text : Bytes) : Option (ℕ × Result) :=
  if text.length &&& 2 ≠ 0 then
    some (0, .error s!"Invalid hex text size {(text.length : ℤ).bmod 0x100000000}")
  else decodeLoop 0 text

end Hex

/-!
## Base64, of lualib-src/lua-crypt.c

The loops count in an `int`: the texts are those whose lengths, and whose codes, fit one.
-/

namespace Base64

def encoding : Bytes :=
  Bytes.ascii "ABCDEFGHIJKLMNOPQRSTUVWXYZabcdefghijklmnopqrstuvwxyz0123456789+/"

def char (n : ℕ) : UInt8 := encoding.getD n 0

/-- `=` -/
def equals : UInt8 := 61

/-- `encode_sz` fits an `int`. -/
def Encodable (text : Bytes) : Prop := (text.length + 2) / 3 * 4 < 2 ^ 31

instance (text : Bytes) : Decidable (Encodable text) :=
  inferInstanceAs (Decidable ((text.length + 2) / 3 * 4 < 2 ^ 31))

/-- `lb64encode` of a text that is `Encodable` -/
def base64encode : Bytes → Bytes
  | x :: y :: z :: text =>
    let v := x.toNat <<< 16 ||| y.toNat <<< 8 ||| z.toNat
    [char (v >>> 18), char (v >>> 12 &&& 0x3f), char (v >>> 6 &&& 0x3f), char (v &&& 0x3f)]
      ++ base64encode text
  | [x, y] =>
    let v := x.toNat <<< 8 ||| y.toNat
    [char (v >>> 10), char (v >>> 4 &&& 0x3f), char ((v &&& 0xf) <<< 2), equals]
  | [x] =>
    let v := x.toNat
    [char (v >>> 2), char ((v &&& 3) <<< 4), equals, equals]
  | [] => []

def decoding : List ℤ := [62, -1, -1, -1, 63, 52, 53, 54, 55, 56, 57, 58, 59, 60, 61, -1, -1, -1, -2,
  -1, -1, -1, 0, 1, 2, 3, 4, 5, 6, 7, 8, 9, 10, 11, 12, 13, 14, 15, 16, 17, 18, 19, 20, 21, 22, 23,
  24, 25, -1, -1, -1, -1, -1, -1, 26, 27, 28, 29, 30, 31, 32, 33, 34, 35, 36, 37, 38, 39, 40, 41, 42,
  43, 44, 45, 46, 47, 48, 49, 50, 51]

def b64index (c : UInt8) : ℤ :=
  if c < 43 then -1 else decoding.getD (c - 43).toNat (-1)

/-- The bytes for four characters, some of them `=`; `none` where an error is raised. -/
def decodeGroup (c : List ℤ) : Option Bytes :=
  let c' (i : ℕ) : ℤ := c.getD i 0
  let n (i : ℕ) : ℕ := (c' i).toNat
  match c.count (-2) with
  | 0 =>
    let v := n 0 <<< 18 ||| n 1 <<< 12 ||| n 2 <<< 6 ||| n 3
    some [(v >>> 16).toUInt8, (v >>> 8 &&& 0xff).toUInt8, (v &&& 0xff).toUInt8]
  | 1 =>
    if c' 3 ≠ -2 ∨ n 2 &&& 3 ≠ 0 then none
    else
      let v := n 0 <<< 10 ||| n 1 <<< 4 ||| n 2 >>> 2
      some [(v >>> 8).toUInt8, (v &&& 0xff).toUInt8]
  | 2 =>
    if c' 3 ≠ -2 ∨ c' 2 ≠ -2 ∨ n 1 &&& 0xf ≠ 0 then none
    else some [(n 0 <<< 2 ||| n 1 >>> 4).toUInt8]
  | _ => none

/-- The loops of `lb64decode`, with what is there of the four characters where the inner one has begun:
the end of the text is an error in the inner loop. -/
def decodeLoop : Option (List ℤ) → Bytes → Option Bytes
  | none, [] => some []
  | some _, [] => none
  | group, ch :: text =>
    let c := group.getD []
    if b64index ch = -1 then decodeLoop (some c) text
    else if c.length < 3 then decodeLoop (some (c ++ [b64index ch])) text
    else (decodeGroup (c ++ [b64index ch])).bind fun out =>
      (decodeLoop none text).map fun rest => out ++ rest

/-- `lb64decode` of a text shorter than 2^31 -/
def base64decode (text : Bytes) : Except String Bytes :=
  match decodeLoop none text with
  | some x => .ok x
  | none => .error "Invalid base64 text"

/-- `lb64encode`; `none` where the size of the code is no `int`. -/
def lb64encode (text : Bytes) : Option Bytes :=
  if Encodable text then some (base64encode text) else none

/-- `decode_sz`, the size of the buffer -/
def decode_sz (text : Bytes) : ℕ := (text.length + 3) / 4 * 3

/-- `lb64decode`; `none` where an `int` does not get to the end of the text. -/
def lb64decode (text : Bytes) : Option (Except String Bytes) :=
  if text.length < 0x80000000 then some (base64decode text) else none

end Base64

/-!
## The authentication code of lualib-src/lua-crypt.c

`hmac64` of two words of 8 bytes is what the rounds of MD5 make of a block with the words repeated.
-/

namespace Hmac

/-- `uint32_t` -/
abbrev Word := BitVec 32

def k : Array Word := #[
  0xd76aa478, 0xe8c7b756, 0x242070db, 0xc1bdceee, 0xf57c0faf, 0x4787c62a, 0xa8304613, 0xfd469501,
  0x698098d8, 0x8b44f7af, 0xffff5bb1, 0x895cd7be, 0x6b901122, 0xfd987193, 0xa679438e, 0x49b40821,
  0xf61e2562, 0xc040b340, 0x265e5a51, 0xe9b6c7aa, 0xd62f105d, 0x02441453, 0xd8a1e681, 0xe7d3fbc8,
  0x21e1cde6, 0xc33707d6, 0xf4d50d87, 0x455a14ed, 0xa9e3e905, 0xfcefa3f8, 0x676f02d9, 0x8d2a4c8a,
  0xfffa3942, 0x8771f681, 0x6d9d6122, 0xfde5380c, 0xa4beea44, 0x4bdecfa9, 0xf6bb4b60, 0xbebfbc70,
  0x289b7ec6, 0xeaa127fa, 0xd4ef3085, 0x04881d05, 0xd9d4d039, 0xe6db99e5, 0x1fa27cf8, 0xc4ac5665,
  0xf4292244, 0x432aff97, 0xab9423a7, 0xfc93a039, 0x655b59c3, 0x8f0ccc92, 0xffeff47d, 0x85845dd1,
  0x6fa87e4f, 0xfe2ce6e0, 0xa3014314, 0x4e0811a1, 0xf7537e82, 0xbd3af235, 0x2ad7d2bb, 0xeb86d391]

def r : Array ℕ := #[
  7, 12, 17, 22, 7, 12, 17, 22, 7, 12, 17, 22, 7, 12, 17, 22,
  5, 9, 14, 20, 5, 9, 14, 20, 5, 9, 14, 20, 5, 9, 14, 20,
  4, 11, 16, 23, 4, 11, 16, 23, 4, 11, 16, 23, 4, 11, 16, 23,
  6, 10, 15, 21, 6, 10, 15, 21, 6, 10, 15, 21, 6, 10, 15, 21]

/-- `LEFTROTATE` -/
def leftRotate (x : Word) (c : ℕ) : Word := x <<< c ||| x >>> (32 - c)

/-- The variables of the loop of `hmac` -/
structure Vars where
  a : Word
  b : Word
  c : Word
  d : Word

/-- `f` and `g` in the pass `i` of the loop -/
def mix (i : ℕ) (v : Vars) : Word × ℕ :=
  if i < 16 then (v.b &&& v.c ||| ~~~v.b &&& v.d, i)
  else if i < 32 then (v.d &&& v.b ||| ~~~v.d &&& v.c, (5 * i + 1) % 16)
  else if i < 48 then (v.b ^^^ v.c ^^^ v.d, (3 * i + 5) % 16)
  else (v.c ^^^ (v.b ||| ~~~v.d), 7 * i % 16)

/-- The pass `i` of the loop of `hmac` -/
def pass (w : ℕ → Word) (v : Vars) (i : ℕ) : Vars :=
  let (f, g) := mix i v
  ⟨v.d, v.b + leftRotate (v.a + f + k.getD i 0 + w g) (r.getD i 0), v.b, v.c⟩

/-- `hmac`, with each number as its low and its high word -/
def hmac (x y : Word × Word) : Word × Word :=
  let w (i : ℕ) : Word := [x.2, x.1, y.2, y.1].getD (i % 4) 0
  let v := (List.range 64).foldl (pass w) ⟨0x67452301, 0xefcdab89, 0x98badcfe, 0x10325476⟩
  (v.c ^^^ v.d, v.a ^^^ v.b)

/-- One of the numbers of `read64` -/
def read64 (x : Bytes) : Word × Word :=
  (BitVec.ofNat 32 (Endian.ofLe (x.take 4)), BitVec.ofNat 32 (Endian.ofLe (x.drop 4)))

/-- `lhmac64` -/
def hmac64 (x y : Bytes) : Except String Bytes :=
  if x.length ≠ 8 then .error "Invalid uint64 x"
  else if y.length ≠ 8 then .error "Invalid uint64 y"
  else
    let result := hmac (read64 x) (read64 y)
    .ok (Endian.le 4 result.1.toNat ++ Endian.le 4 result.2.toNat)

end Hmac

end SkynetGame
