import SkynetGame.Lib.Bytes
import SkynetGame.Lib.Run
import SkynetGame.Lib.Slice

/-!
# Zero packing (`sproto_pack` and `sproto_unpack` of `sproto.c`)

A memory is what its addresses hold, from where the pointer of the caller points. `none` stands for
a signed overflow, which has no meaning in C. A buffer is only written below its size.
-/

namespace SkynetGame

namespace SprotoPack

def INT_MAX : ℕ := 0x7fffffff

/-- The bytes from the start of `x` on; behind it there is something else. -/
def source (x : Bytes) (behind : ℕ → UInt8) (k : ℕ) : UInt8 := x.getD k (behind (k - x.length))

/-- The variables of the loop of `pack_seg`. -/
structure Seg where
  header : UInt8
  notzero : ℕ
  pos : ℕ
  sz : ℤ
  buffer : ℕ → UInt8

/-- The loop's body. -/
def Seg.put (s : Seg) (i : ℕ) (b : UInt8) : Seg :=
  if b ≠ 0 then
    let s := { s with
      notzero := s.notzero + 1
      header := s.header ||| 1 <<< i.toUInt8 }
    if 0 < s.sz then
      { s with
        buffer := Function.update s.buffer s.pos b
        pos := s.pos + 1
        sz := s.sz - 1 }
    else s
  else s

/-- `pack_seg`, with the buffer at `pos`. -/
def packSeg (src : ℕ → UInt8) (buffer : ℕ → UInt8) (pos : ℕ) (sz : ℤ) (n : ℕ) :
    (ℕ → UInt8) × ℕ :=
  let s := (List.range 8).foldl (fun s i => s.put i (src i)) (⟨0, 0, pos + 1, sz - 1, buffer⟩ : Seg)
  let notzero := if (s.notzero = 7 ∨ s.notzero = 6) ∧ 0 < n then 8 else s.notzero
  if notzero = 8 then (s.buffer, if 0 < n then 8 else 10)
  else (if sz - 1 < 0 then s.buffer else Function.update s.buffer pos s.header, notzero + 1)

/-- `write_ff`, with the source at `start` and the destination at `des`. -/
def writeFf (src : ℕ → UInt8) (start : ℕ) (buffer : ℕ → UInt8) (des n : ℕ) : ℕ → UInt8 :=
  let align8 := (n + 7) / 8 * 8
  let buffer := Function.update buffer des 0xff
  let buffer := Function.update buffer (des + 1) (align8 / 8 - 1).toUInt8
  let buffer := blit buffer (des + 2) (slice src start n)
  blit buffer (des + 2 + n) (List.replicate (align8 - n) 0)

/-- The variables of `sproto_pack`. `ffSrc` and `ffDes` are offsets into the source and the buffer:
a run never starts in `tmp`, which ends in a zero byte. `readEnd` is where what was read ends. -/
structure Pack where
  ffSrc : ℕ
  ffDes : ℕ
  ffN : ℕ
  size : ℕ
  bufsz : ℤ
  buffer : ℕ → UInt8
  readEnd : ℕ

section Pack

variable (x : Bytes) (behind : ℕ → UInt8)

/-- `write_ff` for the run, where the buffer has room. -/
def Pack.flush (s : Pack) (n : ℕ) : Pack :=
  if 0 ≤ s.bufsz then
    { s with
      buffer := writeFf (source x behind) s.ffSrc s.buffer s.ffDes n
      readEnd := max s.readEnd (s.ffSrc + n) }
  else s

/-- The segment at `i`, or `tmp`. -/
def segment (i : ℕ) : ℕ → UInt8 := fun k =>
  if x.length < i + 8 ∧ 8 - (i + 8 - x.length) ≤ k then 0 else source x behind (i + k)

/-- The loop's body at `i`. -/
def Pack.step (s : Pack) (i : ℕ) : Option Pack :=
  if INT_MAX < i + 8 then none
  else
    let r := packSeg (segment x behind i) s.buffer s.size s.bufsz s.ffN
    let n : ℕ := r.2
    let desstart := s.size
    let s := { s with
      buffer := r.1
      bufsz := s.bufsz - n
      size := s.size + n
      readEnd := max s.readEnd (min (i + 8) x.length) }
    if INT_MAX < s.size then none
    else if n = 10 then some { s with ffSrc := i, ffDes := desstart, ffN := 1 }
    else if n = 8 ∧ 0 < s.ffN then
      if s.ffN + 1 = 256 then some { s.flush x behind (256 * 8) with ffN := 0 }
      else some { s with ffN := s.ffN + 1 }
    else if 0 < s.ffN then some { s.flush x behind (s.ffN * 8) with ffN := 0 }
    else some s

/-- The loop over the first `k` segments. -/
def packLoop (bufsz : ℕ) (buffer : ℕ → UInt8) (k : ℕ) : Option Pack :=
  (List.range k).foldlM (fun s k => s.step x behind (8 * k)) ⟨0, 0, 0, 0, bufsz, buffer, 0⟩

/-- `sproto_pack`. -/
def sprotoPack (bufsz : ℕ) (buffer : ℕ → UInt8) : Option Pack :=
  (packLoop x behind bufsz buffer ((x.length + 7) / 8)).map fun s =>
    if s.ffN = 1 then s.flush x behind 8
    else if 1 < s.ffN then s.flush x behind (x.length - s.ffSrc)
    else s

end Pack

section Lpack

/-- The size that the upvalue of `sproto.pack` starts with. -/
def ENCODE_BUFFERSIZE : ℕ := 2050

def ENCODE_MAXSIZE : ℕ := 0x1000000

inductive PackError
  -- "object is too large (>%d)"
  | tooLarge (limit : ℕ)
  -- "packing error, return size = %d"
  | packing (bytes : ℕ)
deriving DecidableEq, Repr

/-- The worst-case space overhead is 2 bytes per 2 KiB. -/
def maxsz (sz : ℕ) : ℕ := (sz + 2047) / 2048 * 2 + sz + 2

/-- The loop of `expand_buffer`. -/
def double (nsz : ℕ) : ℕ → ℕ → Option ℕ
  | 0, _ => none
  | fuel + 1, osz =>
    if INT_MAX < osz * 2 then none
    else if osz * 2 < nsz then double nsz fuel (osz * 2)
    else some (osz * 2)

/-- `expand_buffer`; an `int` is doubled less than 32 times. -/
def expandBuffer (osz nsz : ℕ) : Option (Except PackError ℕ) := do
  let osz ← double nsz 32 osz
  if ENCODE_MAXSIZE < osz then return .error (.tooLarge ENCODE_MAXSIZE) else return .ok osz

/-- The size of the buffer that `lpack` takes. -/
def outputSize (osz sz : ℕ) : Option (Except PackError ℕ) :=
  if osz < maxsz sz then expandBuffer osz (maxsz sz) else some (.ok osz)

/-- `lpack`, whose buffer of `osz` bytes, or a new one, has something in it, with what `osz` is then.
A size that does not fit an `int` overflows. -/
def lpack (x : Bytes) (behind : ℕ → UInt8) (osz : ℕ) (buffer : ℕ → UInt8) :
    Option (Except PackError (ℕ × Pack)) :=
  if INT_MAX < maxsz x.length then none
  else do
    match ← outputSize osz x.length with
    | .error e => return .error e
    | .ok osz =>
      let s ← sprotoPack x behind (maxsz x.length) buffer
      if maxsz x.length < s.size then return .error (.packing s.size) else return .ok (osz, s)

/-- The upvalue of `sproto.pack`, from call to call. -/
def packer : Machine ℕ (Bytes × (ℕ → UInt8) × (ℕ → UInt8)) where
  init := ENCODE_BUFFERSIZE
  step osz call := (lpack call.1 call.2.1 osz call.2.2).map fun r =>
    match r with
    | .ok p => p.1
    | .error _ => osz

end Lpack

/-- The variables of `sproto_unpack`. -/
structure Unpack where
  src : ℕ
  srcsz : ℤ
  pos : ℕ
  bufsz : ℤ
  size : ℕ
  buffer : ℕ → UInt8

section Unpack

variable (src : ℕ → UInt8)

/-- The body of the inner loop; `none` where the function returns -1. -/
def Unpack.bit (header : UInt8) (s : Unpack) (i : ℕ) : Option Unpack :=
  let put (s : Unpack) (b : UInt8) : Unpack :=
    if 0 < s.bufsz then
      { s with
        buffer := Function.update s.buffer s.pos b
        pos := s.pos + 1
        bufsz := s.bufsz - 1 }
    else s
  if header >>> i.toUInt8 &&& 1 ≠ 0 then
    if s.srcsz < 0 then none
    else
      let s := put s (src s.src)
      some { s with
        src := s.src + 1
        srcsz := s.srcsz - 1
        size := s.size + 1 }
  else
    let s := put s 0
    some { s with size := s.size + 1 }

/-- The body of the outer loop; `some none` where the function returns -1. -/
def Unpack.step (s : Unpack) : Option (Option Unpack) :=
  let header := src s.src
  let s := { s with
    src := s.src + 1
    srcsz := s.srcsz - 1 }
  if header = 0xff then
    if s.srcsz < 0 then some none
    else
      let n : ℕ := ((src s.src).toNat + 1) * 8
      if s.srcsz < (n : ℤ) + 1 then some none
      else if INT_MAX < s.size + n then none
      else
        let buffer := if (n : ℤ) ≤ s.bufsz then blit s.buffer s.pos (slice src (s.src + 1) n)
          else s.buffer
        some (some ⟨s.src + 1 + n, s.srcsz - (n + 1), s.pos + n, s.bufsz - n, s.size + n, buffer⟩)
  else if INT_MAX < s.size + 8 then none
  else some ((List.range 8).foldlM (fun s i => s.bit src header i) s)

/-- The outer loop, at most so many times. -/
def unpackLoop : ℕ → Unpack → Option (Option Unpack)
  | 0, s => some (some s)
  | fuel + 1, s =>
    if 0 < s.srcsz then
      match s.step src with
      | some (some s) => unpackLoop fuel s
      | r => r
    else some (some s)

/-- `sproto_unpack`: what it returns with the buffer, or `none` for -1. Each turn of the loop takes
a byte. -/
def sprotoUnpack (srcsz bufsz : ℕ) (buffer : ℕ → UInt8) : Option (Option (ℕ × (ℕ → UInt8))) :=
  (unpackLoop src srcsz ⟨0, srcsz, 0, bufsz, 0, buffer⟩).map fun r =>
    r.map fun s => (s.size, s.buffer)

/-- Where the reads of some of the code end in the source, and its writes in the buffer. -/
abbrev Ends := ℕ × ℕ

def Ends.join (a b : Ends) : Ends := (max a.1 b.1, max a.2 b.2)

/-- What the body of the inner loop touches. -/
def Unpack.bitEnds (header : UInt8) (s : Unpack) (i : ℕ) : Ends :=
  if header >>> i.toUInt8 &&& 1 ≠ 0 then
    if s.srcsz < 0 then (0, 0)
    else if 0 < s.bufsz then (s.src + 1, s.pos + 1) else (0, 0)
  else if 0 < s.bufsz then (0, s.pos + 1) else (0, 0)

/-- What the inner loop touches, for these bits. -/
def Unpack.bitsEnds (header : UInt8) : List ℕ → Unpack → Ends
  | [], _ => (0, 0)
  | i :: is, s => (s.bitEnds header i).join
      (match s.bit src header i with
        | some t => Unpack.bitsEnds header is t
        | none => (0, 0))

/-- What the body of the outer loop touches. -/
def Unpack.stepEnds (s : Unpack) : Ends :=
  let header := src s.src
  let t := { s with
    src := s.src + 1
    srcsz := s.srcsz - 1 }
  Ends.join (s.src + 1, 0) <|
    if header = 0xff then
      if t.srcsz < 0 then (0, 0)
      else
        let n : ℕ := ((src t.src).toNat + 1) * 8
        Ends.join (t.src + 1, 0) <|
          if t.srcsz < (n : ℤ) + 1 then (0, 0)
          else if (n : ℤ) ≤ t.bufsz then (t.src + 1 + n, t.pos + n) else (0, 0)
    else t.bitsEnds src header (List.range 8)

/-- What the outer loop touches. -/
def unpackEnds : ℕ → Unpack → Ends
  | 0, _ => (0, 0)
  | fuel + 1, s =>
    if 0 < s.srcsz then
      (s.stepEnds src).join
        (match s.step src with
          | some (some t) => unpackEnds fuel t
          | _ => (0, 0))
    else (0, 0)

/-- What `sproto_unpack` touches. -/
def sprotoUnpackEnds (srcsz bufsz : ℕ) (buffer : ℕ → UInt8) : Ends :=
  unpackEnds src srcsz ⟨0, srcsz, 0, bufsz, 0, buffer⟩

end Unpack

end SprotoPack

end SkynetGame
