import SkynetGame.Lib.Bytes

/-!
# DES, of lualib-src/lua-crypt.c

`desencode` pads a text and encrypts it in blocks of 8 bytes, `desdecode` decrypts and takes the
padding off. The loops of both count in an `int`, which is taken to wrap, while the length of the
text is a `size_t`; what has not been written of the buffer holds whatever was in the memory before
(`mem`). A run that reads outside of its buffers gives `none`.
-/

namespace SkynetGame

namespace Des

/-- `uint32_t` -/
abbrev Word := BitVec 32

def SB1 : Array Word := #[
  0x01010400, 0x00000000, 0x00010000, 0x01010404, 0x01010004, 0x00010404, 0x00000004, 0x00010000,
  0x00000400, 0x01010400, 0x01010404, 0x00000400, 0x01000404, 0x01010004, 0x01000000, 0x00000004,
  0x00000404, 0x01000400, 0x01000400, 0x00010400, 0x00010400, 0x01010000, 0x01010000, 0x01000404,
  0x00010004, 0x01000004, 0x01000004, 0x00010004, 0x00000000, 0x00000404, 0x00010404, 0x01000000,
  0x00010000, 0x01010404, 0x00000004, 0x01010000, 0x01010400, 0x01000000, 0x01000000, 0x00000400,
  0x01010004, 0x00010000, 0x00010400, 0x01000004, 0x00000400, 0x00000004, 0x01000404, 0x00010404,
  0x01010404, 0x00010004, 0x01010000, 0x01000404, 0x01000004, 0x00000404, 0x00010404, 0x01010400,
  0x00000404, 0x01000400, 0x01000400, 0x00000000, 0x00010004, 0x00010400, 0x00000000, 0x01010004]

def SB2 : Array Word := #[
  0x80108020, 0x80008000, 0x00008000, 0x00108020, 0x00100000, 0x00000020, 0x80100020, 0x80008020,
  0x80000020, 0x80108020, 0x80108000, 0x80000000, 0x80008000, 0x00100000, 0x00000020, 0x80100020,
  0x00108000, 0x00100020, 0x80008020, 0x00000000, 0x80000000, 0x00008000, 0x00108020, 0x80100000,
  0x00100020, 0x80000020, 0x00000000, 0x00108000, 0x00008020, 0x80108000, 0x80100000, 0x00008020,
  0x00000000, 0x00108020, 0x80100020, 0x00100000, 0x80008020, 0x80100000, 0x80108000, 0x00008000,
  0x80100000, 0x80008000, 0x00000020, 0x80108020, 0x00108020, 0x00000020, 0x00008000, 0x80000000,
  0x00008020, 0x80108000, 0x00100000, 0x80000020, 0x00100020, 0x80008020, 0x80000020, 0x00100020,
  0x00108000, 0x00000000, 0x80008000, 0x00008020, 0x80000000, 0x80100020, 0x80108020, 0x00108000]

def SB3 : Array Word := #[
  0x00000208, 0x08020200, 0x00000000, 0x08020008, 0x08000200, 0x00000000, 0x00020208, 0x08000200,
  0x00020008, 0x08000008, 0x08000008, 0x00020000, 0x08020208, 0x00020008, 0x08020000, 0x00000208,
  0x08000000, 0x00000008, 0x08020200, 0x00000200, 0x00020200, 0x08020000, 0x08020008, 0x00020208,
  0x08000208, 0x00020200, 0x00020000, 0x08000208, 0x00000008, 0x08020208, 0x00000200, 0x08000000,
  0x08020200, 0x08000000, 0x00020008, 0x00000208, 0x00020000, 0x08020200, 0x08000200, 0x00000000,
  0x00000200, 0x00020008, 0x08020208, 0x08000200, 0x08000008, 0x00000200, 0x00000000, 0x08020008,
  0x08000208, 0x00020000, 0x08000000, 0x08020208, 0x00000008, 0x00020208, 0x00020200, 0x08000008,
  0x08020000, 0x08000208, 0x00000208, 0x08020000, 0x00020208, 0x00000008, 0x08020008, 0x00020200]

def SB4 : Array Word := #[
  0x00802001, 0x00002081, 0x00002081, 0x00000080, 0x00802080, 0x00800081, 0x00800001, 0x00002001,
  0x00000000, 0x00802000, 0x00802000, 0x00802081, 0x00000081, 0x00000000, 0x00800080, 0x00800001,
  0x00000001, 0x00002000, 0x00800000, 0x00802001, 0x00000080, 0x00800000, 0x00002001, 0x00002080,
  0x00800081, 0x00000001, 0x00002080, 0x00800080, 0x00002000, 0x00802080, 0x00802081, 0x00000081,
  0x00800080, 0x00800001, 0x00802000, 0x00802081, 0x00000081, 0x00000000, 0x00000000, 0x00802000,
  0x00002080, 0x00800080, 0x00800081, 0x00000001, 0x00802001, 0x00002081, 0x00002081, 0x00000080,
  0x00802081, 0x00000081, 0x00000001, 0x00002000, 0x00800001, 0x00002001, 0x00802080, 0x00800081,
  0x00002001, 0x00002080, 0x00800000, 0x00802001, 0x00000080, 0x00800000, 0x00002000, 0x00802080]

def SB5 : Array Word := #[
  0x00000100, 0x02080100, 0x02080000, 0x42000100, 0x00080000, 0x00000100, 0x40000000, 0x02080000,
  0x40080100, 0x00080000, 0x02000100, 0x40080100, 0x42000100, 0x42080000, 0x00080100, 0x40000000,
  0x02000000, 0x40080000, 0x40080000, 0x00000000, 0x40000100, 0x42080100, 0x42080100, 0x02000100,
  0x42080000, 0x40000100, 0x00000000, 0x42000000, 0x02080100, 0x02000000, 0x42000000, 0x00080100,
  0x00080000, 0x42000100, 0x00000100, 0x02000000, 0x40000000, 0x02080000, 0x42000100, 0x40080100,
  0x02000100, 0x40000000, 0x42080000, 0x02080100, 0x40080100, 0x00000100, 0x02000000, 0x42080000,
  0x42080100, 0x00080100, 0x42000000, 0x42080100, 0x02080000, 0x00000000, 0x40080000, 0x42000000,
  0x00080100, 0x02000100, 0x40000100, 0x00080000, 0x00000000, 0x40080000, 0x02080100, 0x40000100]

def SB6 : Array Word := #[
  0x20000010, 0x20400000, 0x00004000, 0x20404010, 0x20400000, 0x00000010, 0x20404010, 0x00400000,
  0x20004000, 0x00404010, 0x00400000, 0x20000010, 0x00400010, 0x20004000, 0x20000000, 0x00004010,
  0x00000000, 0x00400010, 0x20004010, 0x00004000, 0x00404000, 0x20004010, 0x00000010, 0x20400010,
  0x20400010, 0x00000000, 0x00404010, 0x20404000, 0x00004010, 0x00404000, 0x20404000, 0x20000000,
  0x20004000, 0x00000010, 0x20400010, 0x00404000, 0x20404010, 0x00400000, 0x00004010, 0x20000010,
  0x00400000, 0x20004000, 0x20000000, 0x00004010, 0x20000010, 0x20404010, 0x00404000, 0x20400000,
  0x00404010, 0x20404000, 0x00000000, 0x20400010, 0x00000010, 0x00004000, 0x20400000, 0x00404010,
  0x00004000, 0x00400010, 0x20004010, 0x00000000, 0x20404000, 0x20000000, 0x00400010, 0x20004010]

def SB7 : Array Word := #[
  0x00200000, 0x04200002, 0x04000802, 0x00000000, 0x00000800, 0x04000802, 0x00200802, 0x04200800,
  0x04200802, 0x00200000, 0x00000000, 0x04000002, 0x00000002, 0x04000000, 0x04200002, 0x00000802,
  0x04000800, 0x00200802, 0x00200002, 0x04000800, 0x04000002, 0x04200000, 0x04200800, 0x00200002,
  0x04200000, 0x00000800, 0x00000802, 0x04200802, 0x00200800, 0x00000002, 0x04000000, 0x00200800,
  0x04000000, 0x00200800, 0x00200000, 0x04000802, 0x04000802, 0x04200002, 0x04200002, 0x00000002,
  0x00200002, 0x04000000, 0x04000800, 0x00200000, 0x04200800, 0x00000802, 0x00200802, 0x04200800,
  0x00000802, 0x04000002, 0x04200802, 0x04200000, 0x00200800, 0x00000000, 0x00000002, 0x04200802,
  0x00000000, 0x00200802, 0x04200000, 0x00000800, 0x04000002, 0x04000800, 0x00000800, 0x00200002]

def SB8 : Array Word := #[
  0x10001040, 0x00001000, 0x00040000, 0x10041040, 0x10000000, 0x10001040, 0x00000040, 0x10000000,
  0x00040040, 0x10040000, 0x10041040, 0x00041000, 0x10041000, 0x00041040, 0x00001000, 0x00000040,
  0x10040000, 0x10000040, 0x10001000, 0x00001040, 0x00041000, 0x00040040, 0x10040040, 0x10041000,
  0x00001040, 0x00000000, 0x00000000, 0x10040040, 0x10000040, 0x10001000, 0x00041040, 0x00040000,
  0x00041040, 0x00040000, 0x10041000, 0x00001000, 0x00000040, 0x10040040, 0x00001000, 0x00041040,
  0x10001000, 0x00000040, 0x10000040, 0x10040000, 0x10040040, 0x10000000, 0x00040000, 0x10001040,
  0x00000000, 0x10041040, 0x00040040, 0x10000040, 0x10040000, 0x10001000, 0x10001040, 0x00000000,
  0x10041040, 0x00041000, 0x00041000, 0x00001040, 0x00001040, 0x00040040, 0x10000000, 0x10041000]

def LHs : Array Word := #[
  0x00000000, 0x00000001, 0x00000100, 0x00000101, 0x00010000, 0x00010001, 0x00010100, 0x00010101,
  0x01000000, 0x01000001, 0x01000100, 0x01000101, 0x01010000, 0x01010001, 0x01010100, 0x01010101]

def RHs : Array Word := #[
  0x00000000, 0x01000000, 0x00010000, 0x01010000, 0x00000100, 0x01000100, 0x00010100, 0x01010100,
  0x00000001, 0x01000001, 0x00010001, 0x01010001, 0x00000101, 0x01000101, 0x00010101, 0x01010101]

/-- `GET_UINT32(n, b, i)` -/
def getUint32 (b : Bytes) (i : ℕ) : Word :=
  let byte (j : ℕ) : Word := BitVec.ofNat 32 (b.getD j 0).toNat
  byte i <<< 24 ||| byte (i + 1) <<< 16 ||| byte (i + 2) <<< 8 ||| byte (i + 3)

/-- `PUT_UINT32(n, b, i)`, the four bytes it writes. -/
def putUint32 (n : Word) : Bytes :=
  [n >>> 24, n >>> 16, n >>> 8, n].map fun w => UInt8.ofNat w.toNat

/-- A line of `DES_IP` or `DES_FP`: `T = ((X >> n) ^ Y) & m; Y ^= T; X ^= (T << n)`. -/
def exchange (n : ℕ) (m : Word) (p : Word × Word) : Word × Word :=
  let t := (p.1 >>> n ^^^ p.2) &&& m
  (p.1 ^^^ t <<< n, p.2 ^^^ t)

/-- `T = (X ^ Y) & 0xAAAAAAAA; Y ^= T; X ^= T` -/
def exchangeOdd (p : Word × Word) : Word × Word := exchange 0 0xAAAAAAAA p

/-- `((Y << 1) | (Y >> 31)) & 0xFFFFFFFF` -/
def rotate1 (y : Word) : Word := (y <<< 1 ||| y >>> 31) &&& 0xFFFFFFFF

/-- `((X << 31) | (X >> 1)) & 0xFFFFFFFF` -/
def rotate31 (x : Word) : Word := (x <<< 31 ||| x >>> 1) &&& 0xFFFFFFFF

/-- `DES_IP(X, Y)` -/
def desIP (p : Word × Word) : Word × Word :=
  let p := exchange 4 0x0F0F0F0F p
  let p := exchange 16 0x0000FFFF p
  let q := exchange 2 0x33333333 p.swap
  let q := exchange 8 0x00FF00FF q
  let p := exchangeOdd (q.2, rotate1 q.1)
  (rotate1 p.1, p.2)

/-- `DES_FP(X, Y)` -/
def desFP (p : Word × Word) : Word × Word :=
  let p := exchangeOdd (rotate31 p.1, p.2)
  let q := exchange 8 0x00FF00FF (rotate31 p.2, p.1)
  let q := exchange 2 0x33333333 q
  let p := exchange 16 0x0000FFFF q.swap
  exchange 4 0x0F0F0F0F p

/-- `SB[(T >> n) & 0x3F]` -/
def box (sb : Array Word) (t : Word) (n : ℕ) : Word := sb.getD ((t >>> n) &&& 0x3F).toNat 0

/-- The two words of `SK` that a round takes. -/
abbrev Subkey := Word × Word

/-- What `DES_ROUND(X, Y)` mixes into `Y`. -/
def roundMask (sk : Subkey) (x : Word) : Word :=
  let t := sk.1 ^^^ x
  let y := box SB8 t 0 ^^^ box SB6 t 8 ^^^ box SB4 t 16 ^^^ box SB2 t 24
  let t := sk.2 ^^^ (x <<< 28 ||| x >>> 4)
  y ^^^ box SB7 t 0 ^^^ box SB5 t 8 ^^^ box SB3 t 16 ^^^ box SB1 t 24

/-- `DES_ROUND(Y, X); DES_ROUND(X, Y);` as often as there are subkeys for both. -/
def desRounds : List Subkey → Word × Word → Word × Word
  | k₁ :: k₂ :: ks, (x, y) =>
    let x := x ^^^ roundMask k₁ y
    let y := y ^^^ roundMask k₂ x
    desRounds ks (x, y)
  | _, p => p

/-- `LHs[(X >> n) & 0xF] << s`, or `RHs` -/
def choice (hs : Array Word) (x : Word) (n s : ℕ) : Word :=
  hs.getD ((x >>> n) &&& 0xF).toNat 0 <<< s

/-- Permuted Choice 1 -/
def permutedChoice (x y : Word) : Word × Word :=
  let t := (y >>> 4 ^^^ x) &&& 0x0F0F0F0F
  let x := x ^^^ t
  let y := y ^^^ t <<< 4
  let t := (y ^^^ x) &&& 0x10101010
  let x := x ^^^ t
  let y := y ^^^ t
  let x := choice LHs x 0 3 ||| choice LHs x 8 2 ||| choice LHs x 16 1 ||| choice LHs x 24 0
    ||| choice LHs x 5 7 ||| choice LHs x 13 6 ||| choice LHs x 21 5 ||| choice LHs x 29 4
  let y := choice RHs y 1 3 ||| choice RHs y 9 2 ||| choice RHs y 17 1 ||| choice RHs y 25 0
    ||| choice RHs y 4 7 ||| choice RHs y 12 6 ||| choice RHs y 20 5 ||| choice RHs y 28 4
  (x &&& 0x0FFFFFFF, y &&& 0x0FFFFFFF)

/-- The shift of the halves before the subkeys of round `i` -/
def shiftHalf (i : ℕ) (x : Word) : Word :=
  if i < 2 ∨ i = 8 ∨ i = 15 then (x <<< 1 ||| x >>> 27) &&& 0x0FFFFFFF
  else (x <<< 2 ||| x >>> 26) &&& 0x0FFFFFFF

/-- The two subkeys of a round -/
def subkey (x y : Word) : Subkey :=
  ((x <<< 4 &&& 0x24000000) ||| (x <<< 28 &&& 0x10000000)
    ||| (x <<< 14 &&& 0x08000000) ||| (x <<< 18 &&& 0x02080000)
    ||| (x <<< 6 &&& 0x01000000) ||| (x <<< 9 &&& 0x00200000)
    ||| (x >>> 1 &&& 0x00100000) ||| (x <<< 10 &&& 0x00040000)
    ||| (x <<< 2 &&& 0x00020000) ||| (x >>> 10 &&& 0x00010000)
    ||| (y >>> 13 &&& 0x00002000) ||| (y >>> 4 &&& 0x00001000)
    ||| (y <<< 6 &&& 0x00000800) ||| (y >>> 1 &&& 0x00000400)
    ||| (y >>> 14 &&& 0x00000200) ||| (y &&& 0x00000100)
    ||| (y >>> 5 &&& 0x00000020) ||| (y >>> 10 &&& 0x00000010)
    ||| (y >>> 3 &&& 0x00000008) ||| (y >>> 18 &&& 0x00000004)
    ||| (y >>> 26 &&& 0x00000002) ||| (y >>> 24 &&& 0x00000001),
   (x <<< 15 &&& 0x20000000) ||| (x <<< 17 &&& 0x10000000)
    ||| (x <<< 10 &&& 0x08000000) ||| (x <<< 22 &&& 0x04000000)
    ||| (x >>> 2 &&& 0x02000000) ||| (x <<< 1 &&& 0x01000000)
    ||| (x <<< 16 &&& 0x00200000) ||| (x <<< 11 &&& 0x00100000)
    ||| (x <<< 3 &&& 0x00080000) ||| (x >>> 6 &&& 0x00040000)
    ||| (x <<< 15 &&& 0x00020000) ||| (x >>> 4 &&& 0x00010000)
    ||| (y >>> 2 &&& 0x00002000) ||| (y <<< 8 &&& 0x00001000)
    ||| (y >>> 14 &&& 0x00000808) ||| (y >>> 9 &&& 0x00000400)
    ||| (y &&& 0x00000200) ||| (y <<< 7 &&& 0x00000100)
    ||| (y >>> 7 &&& 0x00000020) ||| (y >>> 3 &&& 0x00000011)
    ||| (y <<< 2 &&& 0x00000004) ||| (y >>> 21 &&& 0x00000002))

/-- The loop of `des_main_ks` over the rounds that are left -/
def subkeys : List ℕ → Word → Word → List Subkey
  | [], _, _ => []
  | i :: is, x, y =>
    let x := shiftHalf i x
    let y := shiftHalf i y
    subkey x y :: subkeys is x y

/-- `des_main_ks` -/
def desMainKs (key : Bytes) : List Subkey :=
  let p := permutedChoice (getUint32 key 0) (getUint32 key 4)
  subkeys (List.range 16) p.1 p.2

/-- `des_crypt` -/
def desCrypt (sk : List Subkey) (input : Bytes) : Bytes :=
  let p := desIP (getUint32 input 0, getUint32 input 4)
  let p := desRounds sk p
  let q := desFP p.swap
  putUint32 q.1 ++ putUint32 q.2

/-- An `int` from whatever is stored into it -/
def toInt (n : ℤ) : ℤ := n.bmod (2 ^ 32)

/-- An `int` where a `size_t` is expected -/
def toSize (i : ℤ) : ℤ := i % 2 ^ 64

/-- `for (i=0;i<(int)textsz-7;i+=8) des_crypt(SK, text+i, buffer+i);` from `i` on, with what is left
of the text there: what it writes, the `i` it ends with and what is then left. -/
def encodeLoop (sk : List Subkey) (bound i : ℤ) (rest : Bytes) : Option (Bytes × ℤ × Bytes) :=
  if i < bound then
    if _h : i < 0 ∨ rest.length < 8 then none
    else (encodeLoop sk bound (toInt (i + 8)) (rest.drop 8)).map fun r =>
      (desCrypt sk (rest.take 8) ++ r.1, r.2)
  else some ([], i, rest)
termination_by rest.length
decreasing_by rw [List.length_drop]; omega

/-- The last block: the `bytes` bytes that are left, `0x80` and zeros. -/
def tail (rest : Bytes) (bytes : ℤ) : Bytes :=
  (List.range 8).map fun j : ℕ =>
    if (j : ℤ) < bytes then rest.getD j 0 else if (j : ℤ) = bytes then 0x80 else 0

/-- A buffer of `n` bytes once the first of them have been written. -/
def filled (mem : ℕ → UInt8) (written : Bytes) (n : ℕ) : Bytes :=
  written ++ (List.range' written.length (n - written.length)).map mem

/-- What calling one of the functions from Lua gives: an error raised, or a string. -/
abbrev Result := Except String Bytes

/-- `ldesencode` -/
def desencode (mem : ℕ → UInt8) (key text : Bytes) : Option Result :=
  if key.length ≠ 8 then some (.error s!"Invalid key size {toInt key.length}, need 8 bytes")
  else
    let sk := desMainKs key
    let chunksz := (text.length + 8) / 8 * 8
    (encodeLoop sk (toInt (toInt text.length - 7)) 0 text).map fun (out, i, rest) =>
      let bytes := toInt (text.length - i)
      .ok (filled mem (out ++ desCrypt sk (tail rest bytes)) chunksz)

/-- `for (i=0;i<textsz;i+=8) des_crypt(SK, text+i, buffer+i);` from `i` on. -/
def decodeLoop (sk : List Subkey) (textsz i : ℤ) (rest : Bytes) : Option Bytes :=
  if toSize i < textsz then
    if _h : i < 0 ∨ rest.length < 8 then none
    else (decodeLoop sk textsz (toInt (i + 8)) (rest.drop 8)).map fun r =>
      desCrypt sk (rest.take 8) ++ r
  else some []
termination_by rest.length
decreasing_by rw [List.length_drop]; omega

/-- `for (i=textsz-1;i>=textsz-8;i--)` from `i` on, which is one less than the number given: how many
bytes of padding are found. Below zero it reads in front of the buffer. -/
def paddingLoop (buffer : Bytes) (textsz : ℕ) : ℕ → ℕ → Option (Except String ℕ)
  | 0, _ => none
  | i + 1, padding =>
    if i + 8 ≥ textsz then
      if buffer.getD i 0 = 0 then paddingLoop buffer textsz i (padding + 1)
      else if buffer.getD i 0 = 0x80 then some (.ok padding)
      else some (.error "Invalid des crypt text")
    else some (.ok padding)

/-- `ldesdecode` -/
def desdecode (mem : ℕ → UInt8) (key text : Bytes) : Option Result :=
  if key.length ≠ 8 then some (.error s!"Invalid key size {toInt key.length}, need 8 bytes")
  else
    let sk := (desMainKs key).reverse
    let textsz := text.length
    if textsz % 8 ≠ 0 ∨ textsz = 0 then
      some (.error s!"Invalid des crypt text length {toInt textsz}")
    else
      (decodeLoop sk textsz 0 text).bind fun out =>
        let buffer := filled mem out textsz
        (paddingLoop buffer textsz (toInt (textsz - 1) + 1).toNat 1).map fun
          | .error e => .error e
          | .ok padding =>
            if padding > 8 then .error "Invalid des crypt text"
            else .ok (buffer.take (textsz - padding))

end Des

end SkynetGame
