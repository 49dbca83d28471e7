import SkynetGame.Sha1
import Mathlib.Tactic.IntervalCases

/-!
# What is hashed piece by piece is SHA-1 of the whole

The ring of 16 words always has the last ones of the message schedule, so a round of the code is a
step of the standard (`transform_eq`). The blocks that a text has gone through and what it left in the
buffer do not depend on where it was cut (`blockLoop_append`), and the counters hold its length as
long as no piece has 2^29 bytes.
-/

namespace SkynetGame

namespace Sha1

open Function List

/-! ## The standard -/

/-- The words of a block, and of its message schedule. -/
def schedule (block : Bytes) (t : ℕ) : Word :=
  if t < 16 then BitVec.ofNat 32 (Endian.ofBe ((block.drop (4 * t)).take 4))
  else rol (schedule block (t - 3) ^^^ schedule block (t - 8) ^^^ schedule block (t - 14)
    ^^^ schedule block (t - 16)) 1

/-- `Ch`, `Parity` and `Maj` with their constants. -/
def fk (t : ℕ) (x y z : Word) : Word :=
  if t < 20 then (x &&& y ^^^ ~~~x &&& z) + 0x5a827999
  else if t < 40 then (x ^^^ y ^^^ z) + 0x6ed9eba1
  else if t < 60 then (x &&& y ^^^ x &&& z ^^^ y &&& z) + 0x8f1bbcdc
  else (x ^^^ y ^^^ z) + 0xca62c1d6

def step (block : Bytes) (s : Chain) (t : ℕ) : Chain :=
  ⟨rol s.a 5 + fk t s.b s.c s.d + s.e + schedule block t, s.a, rol s.b 30, s.c, s.d⟩

def compress (s : Chain) (block : Bytes) : Chain :=
  let t := (List.range 80).foldl (step block) s
  ⟨s.a + t.a, s.b + t.b, s.c + t.c, s.d + t.d, s.e + t.e⟩

/-- A text, the byte 0x80, zeros, and a length in bits: a number of whole blocks. -/
def padded (text : Bytes) (bits : ℕ) : Bytes :=
  text ++ 0x80 :: List.replicate ((119 - text.length % 64) % 64) 0 ++ Endian.be 8 bits

/-- The blocks one after the other. -/
def digest (text : Bytes) (bits : ℕ) : Bytes :=
  let m := padded text bits
  let s := (List.range (m.length / 64)).foldl (fun s i => compress s ((m.drop (64 * i)).take 64))
    (init fun _ => 0).state
  [s.a, s.b, s.c, s.d, s.e].flatMap fun w => Endian.be 4 w.toNat

/-- SHA-1 as it is published. -/
def standard (text : Bytes) : Bytes := digest text (8 * text.length)

/-- HMAC as it is published. -/
def hmac (hash : Bytes → Bytes) (key text : Bytes) : Bytes :=
  let key := if 64 < key.length then hash key else key
  let key := key ++ List.replicate (64 - key.length) 0
  hash (key.map (· ^^^ 0x5c) ++ hash (key.map (· ^^^ 0x36) ++ text))

/-! ## One block -/

theorem getLsbD_bytes (a b c d : BitVec 8) (i : ℕ) : (a ++ b ++ c ++ d).getLsbD i =
    if i < 8 then d.getLsbD i else if i < 16 then c.getLsbD (i - 8)
    else if i < 24 then b.getLsbD (i - 16) else a.getLsbD (i - 24) := by
  rw [BitVec.getLsbD_append, BitVec.getLsbD_append, BitVec.getLsbD_append]
  grind

theorem ofLe_four (a b c d : UInt8) : BitVec.ofNat 32 (Endian.ofLe [a, b, c, d]) =
    d.toBitVec ++ c.toBitVec ++ b.toBitVec ++ a.toBitVec := by
  apply BitVec.eq_of_toNat_eq
  have ha := a.toNat_lt
  have hb := b.toNat_lt
  have hc := c.toNat_lt
  have hd := d.toNat_lt
  have hnil : Endian.ofLe [] = 0 := rfl
  simp only [BitVec.toNat_append, BitVec.toNat_ofNat, Endian.ofLe_cons, UInt8.toNat_toBitVec]
  rw [← Nat.shiftLeft_add_eq_or_of_lt hc, ← Nat.shiftLeft_add_eq_or_of_lt hb,
    ← Nat.shiftLeft_add_eq_or_of_lt ha]
  simp only [Nat.shiftLeft_eq]
  omega

/-- `blk0` reads the word of a little-endian machine as the standard does. -/
theorem swap_eq (a b c d : UInt8) (l : ℕ → Word) (i : ℕ)
    (hl : l i = BitVec.ofNat 32 (Endian.ofLe [a, b, c, d])) :
    blk0 l i = BitVec.ofNat 32 (Endian.ofBe [a, b, c, d]) := by
  rw [blk0, hl, ofLe_four, Endian.ofBe, show [a, b, c, d].reverse = [d, c, b, a] from rfl, ofLe_four]
  refine BitVec.eq_of_getLsbD_eq fun i hi => ?_
  simp only [rol, BitVec.getLsbD_or, BitVec.getLsbD_and, BitVec.getLsbD_shiftLeft,
    BitVec.getLsbD_ushiftRight, getLsbD_bytes]
  interval_cases i <;> simp

/-- What the macros compute of the three words is what the standard does. -/
theorem choose_eq (x y z : Word) : (x &&& (y ^^^ z)) ^^^ z = x &&& y ^^^ ~~~x &&& z := by
  ext i hi
  simp only [BitVec.getElem_xor, BitVec.getElem_and, BitVec.getElem_not]
  cases x[i] <;> cases y[i] <;> cases z[i] <;> rfl

theorem majority_eq (x y z : Word) :
    (x ||| y) &&& z ||| x &&& y = x &&& y ^^^ x &&& z ^^^ y &&& z := by
  ext i hi
  simp only [BitVec.getElem_xor, BitVec.getElem_and, BitVec.getElem_or]
  cases x[i] <;> cases y[i] <;> cases z[i] <;> rfl

/-- Before round `t` the ring has the last 16 words, or those of the block that are still to come. -/
structure Ring (block : Bytes) (t : ℕ) (s : Vars) (c : Chain) : Prop where
  chain : c = ⟨s.v, s.w, s.x, s.y, s.z⟩
  done : ∀ u < t, t ≤ u + 16 → s.l (u % 16) = schedule block u
  todo : ∀ u < 16, t ≤ u → s.l u = BitVec.ofNat 32 (Endian.ofLe ((block.drop (4 * u)).take 4))

theorem Ring.round {block : Bytes} {t : ℕ} {s : Vars} {c : Chain} (h : Ring block t s c)
    (hblock : block.length = 64) : Ring block (t + 1) (round s t) (step block c t) := by
  have hand (i : ℕ) : i &&& 15 = i % 16 := Nat.and_two_pow_sub_one_eq_mod i 4
  have hword : (if t < 16 then blk0 s.l t else blk s.l t) = schedule block t := by
    rw [schedule]
    split_ifs with ht
    · obtain ⟨a, b, c, d, hw⟩ : ∃ a b c d, (block.drop (4 * t)).take 4 = [a, b, c, d] := by
        have hlen : ((block.drop (4 * t)).take 4).length = 4 := by simp [hblock]; omega
        match (block.drop (4 * t)).take 4, hlen with
        | [a, b, c, d], _ => exact ⟨a, b, c, d, rfl⟩
      have hl := h.todo t ht le_rfl
      rw [hw] at hl ⊢
      exact swap_eq a b c d s.l t hl
    · have hget (k : ℕ) (hk : 0 < k) (hk' : k ≤ 16) :
          s.l ((t + (16 - k)) &&& 15) = schedule block (t - k) := by
        rw [hand, show (t + (16 - k)) % 16 = (t - k) % 16 by omega]
        exact h.done _ (by omega) (by omega)
      have h₁₆ := hget 16 (by omega) le_rfl
      rw [blk, hget 3 (by omega) (by omega), hget 8 (by omega) (by omega),
        hget 14 (by omega) (by omega)]
      exact congrArg (fun w => rol (_ ^^^ w) 1) h₁₆
  have hl : (Sha1.round s t).l = Function.update s.l (t % 16) (schedule block t) := by
    rw [Sha1.round, hword, hand]
  refine ⟨?_, fun u hu hle => ?_, fun u hu hle => ?_⟩
  · rw [h.chain, Sha1.round, hword, step, fk]
    simp only [Chain.mk.injEq, and_self, and_true]
    split_ifs
    · rw [choose_eq]
      ac_rfl
    · ac_rfl
    · rw [majority_eq]
      ac_rfl
    · ac_rfl
  · rw [hl]
    rcases Nat.lt_succ_iff_lt_or_eq.1 hu with hlt | rfl
    · rw [update_of_ne (by omega)]
      exact h.done u hlt (by omega)
    · exact update_self ..
  · rw [hl, update_of_ne (by omega)]
    exact h.todo u hu (by omega)

theorem transform_eq (s : Chain) {block : Bytes} (hblock : block.length = 64) :
    transform s block = compress s block := by
  have hrun : ∀ n, Ring block n ((List.range n).foldl Sha1.round ⟨s.a, s.b, s.c, s.d, s.e, fun i =>
      BitVec.ofNat 32 (Endian.ofLe ((block.drop (4 * i)).take 4))⟩)
      ((List.range n).foldl (step block) s) := by
    intro n
    induction n with
    | zero => exact ⟨rfl, fun _ hu => absurd hu (Nat.not_lt_zero _), fun _ _ _ => rfl⟩
    | succ n ih =>
      rw [range_succ, foldl_concat, foldl_concat]
      exact ih.round hblock
  rw [compress, (hrun 80).chain]
  rfl

/-! ## The blocks of a text -/

variable {s : Chain} {text : Bytes} {ctx : Ctx}

theorem length_blockLoop (s : Chain) (data : Bytes) :
    (blockLoop s data).2.length = data.length % 64 := by
  fun_induction blockLoop s data with
  | case1 s data h => exact (Nat.mod_eq_of_lt h).symm
  | case2 s data h ih =>
    rw [ih, length_drop]
    omega

/-- Where a text is cut makes no difference to its blocks, nor to what is left of it. -/
theorem blockLoop_append (s : Chain) (data more : Bytes) : blockLoop s (data ++ more) =
    blockLoop (blockLoop s data).1 ((blockLoop s data).2 ++ more) := by
  fun_induction blockLoop s data with
  | case1 => rfl
  | case2 s data h ih =>
    have hlen : ¬ (data ++ more).length < 64 := by
      rw [length_append]
      omega
    rw [blockLoop, dif_neg hlen, take_append_of_le_length (by omega),
      drop_append_of_le_length (by omega), ih]

theorem blockLoop_eq (s : Chain) (data : Bytes) : (blockLoop s data).1 =
    (List.range (data.length / 64)).foldl
      (fun s i => compress s ((data.drop (64 * i)).take 64)) s := by
  fun_induction blockLoop s data with
  | case1 s data h =>
    rw [Nat.div_eq_of_lt h]
    rfl
  | case2 s data h ih =>
    have hdiv : data.length / 64 = (data.drop 64).length / 64 + 1 := by
      rw [length_drop]
      omega
    rw [ih, hdiv, range_succ_eq_map, foldl_cons, foldl_map,
      transform_eq s (by rw [length_take]; omega), Nat.mul_zero, drop_zero]
    refine foldl_ext _ _ _ fun s i _ => ?_
    rw [drop_drop, Nat.mul_succ, Nat.add_comm]

/-- The number that the two counters hold. -/
def Ctx.bits (ctx : Ctx) : ℕ := ctx.count.2.toNat * 2 ^ 32 + ctx.count.1.toNat

/-- The context after `text`, whatever its counters say beyond the place in the buffer. -/
structure Holds (text : Bytes) (ctx : Ctx) : Prop where
  state : (blockLoop (init fun _ => 0).state text).1 = ctx.state
  rest : (blockLoop (init fun _ => 0).state text).2 = slice ctx.buffer 0 (text.length % 64)
  place : ctx.bits / 8 % 64 = text.length % 64

theorem bits_init (garbage : ℕ → UInt8) : (init garbage).bits = 0 := by simp [Ctx.bits, init]

theorem holds_init (garbage : ℕ → UInt8) : Holds [] (init garbage) := by
  refine ⟨?_, ?_, by rw [bits_init]; rfl⟩ <;> rw [blockLoop] <;> rfl

theorem bits_update_eq (ctx : Ctx) (data : Bytes) (h : data.length < 2 ^ 61) :
    (update ctx data).bits = (ctx.bits + 8 * data.length + if data.length < 2 ^ 29 then 0
      else if 2 ^ 32 ≤ ctx.count.1.toNat + 8 * data.length % 2 ^ 32 then 0 else 2 ^ 32) % 2 ^ 64 := by
  have hcount : (update ctx data).bits =
      (let low := ctx.count.1 + (BitVec.ofNat 64 data.length <<< 3).setWidth 32
      let high := if low.setWidth 64 < BitVec.ofNat 64 data.length <<< 3 then ctx.count.2 + 1
        else ctx.count.2
      (high + (BitVec.ofNat 64 data.length >>> 29).setWidth 32).toNat * 2 ^ 32 + low.toNat) := by
    rw [update]
    simp only
    split_ifs <;> rfl
  have h₁ := ctx.count.1.isLt
  have h₂ := ctx.count.2.isLt
  have hone : (1 : Word).toNat = 1 := rfl
  rw [hcount, Ctx.bits]
  simp only [BitVec.lt_def, BitVec.toNat_add, BitVec.toNat_setWidth, BitVec.toNat_shiftLeft,
    BitVec.toNat_ushiftRight, BitVec.toNat_ofNat, Nat.shiftLeft_eq, Nat.shiftRight_eq_div_pow,
    apply_ite BitVec.toNat, Nat.mod_eq_of_lt (h.trans (by decide : 2 ^ 61 < 2 ^ 64)),
    Nat.mod_eq_of_lt (show data.length * 2 ^ 3 < 2 ^ 64 by omega)]
  split_ifs <;> omega

theorem Holds.place_eq (h : Holds text ctx) :
    (ctx.count.1 >>> 3 &&& 63).toNat = text.length % 64 := by
  have := Nat.and_two_pow_sub_one_eq_mod (ctx.count.1.toNat / 2 ^ 3) 6
  have hlt := ctx.count.1.isLt
  rw [← h.place, Ctx.bits, BitVec.toNat_and, BitVec.toNat_ushiftRight, Nat.shiftRight_eq_div_pow,
    show (63 : BitVec 32).toNat = 2 ^ 6 - 1 from rfl, this]
  omega

/-- A piece that continues the text. -/
theorem Holds.update (h : Holds text ctx) (data : Bytes) (hsize : data.length < 2 ^ 61) :
    Holds (text ++ data) (update ctx data) := by
  have hlen := length_blockLoop (init fun _ => 0).state text
  have hj := h.place_eq
  have hplace : (Sha1.update ctx data).bits / 8 % 64 = (text ++ data).length % 64 := by
    have := h.place
    rw [bits_update_eq ctx data hsize, length_append]
    split_ifs <;> omega
  have happ := blockLoop_append (init fun _ => 0).state text data
  rw [h.state, h.rest] at happ
  by_cases hfull : text.length % 64 + data.length > 63
  · have hbuffer : slice (blit ctx.buffer (text.length % 64) (data.take (64 - text.length % 64))) 0 64
        = slice ctx.buffer 0 (text.length % 64) ++ data.take (64 - text.length % 64) := by
      rw [← slice_blit_append, length_take]
      congr 1
      omega
    have hlong : ¬ (slice ctx.buffer 0 (text.length % 64) ++ data).length < 64 := by
      rw [length_append, length_slice]
      omega
    conv_rhs at happ => rw [blockLoop, dif_neg hlong, take_append, drop_append, length_slice,
      take_of_length_le (by rw [length_slice]; omega),
      drop_of_length_le (by rw [length_slice]; omega), nil_append, ← hbuffer]
    have hrest : (blockLoop (init fun _ => 0).state (text ++ data)).2.length =
        (text ++ data).length % 64 := length_blockLoop ..
    refine ⟨?_, ?_, hplace⟩
    · rw [happ, Sha1.update]
      simp only [hj, if_pos hfull]
    · rw [← hrest, happ, Sha1.update]
      simp only [hj, if_pos hfull]
      exact (slice_blit ..).symm
  · have hshort : (slice ctx.buffer 0 (text.length % 64) ++ data).length < 64 := by
      rw [length_append, length_slice]
      omega
    have hlen : (text ++ data).length % 64 = text.length % 64 + data.length := by
      rw [length_append]
      omega
    conv_rhs at happ => rw [blockLoop, dif_pos hshort]
    refine ⟨?_, ?_, hplace⟩
    · rw [happ, Sha1.update]
      simp only [hj, if_neg hfull]
    · rw [happ, hlen, Sha1.update]
      simp only [hj, if_neg hfull]
      exact (slice_blit_append ..).symm

/-! ## The end of a text -/

theorem finalcount_eq (ctx : Ctx) : finalcount ctx.count = Endian.be 8 ctx.bits := by
  have h₁ := ctx.count.1.isLt
  have h₂ := ctx.count.2.isLt
  rw [finalcount, Ctx.bits, show List.range 8 = [0, 1, 2, 3, 4, 5, 6, 7] from rfl]
  simp only [Endian.be, Endian.le, map_cons, map_nil, reverse_cons, reverse_nil,
    nil_append, cons_append, List.cons.injEq, ← UInt8.toNat_inj, UInt8.toNat_ofNat',
    BitVec.toNat_ushiftRight, Nat.shiftRight_eq_div_pow]
  refine ⟨?_, ?_, ?_, ?_, ?_, ?_, ?_, ?_, trivial⟩ <;> simp <;> omega

/-- The zeros that bring the text to 56 bytes in the last block. -/
theorem zeroLoop_spec : ∀ {n k : ℕ} {text : Bytes} {ctx : Ctx}, Holds text ctx → k < n →
    (text.length + k) % 64 = 56 → (∀ j < k, (text.length + j) % 64 ≠ 56) →
    ∃ ctx', zeroLoop n ctx = some ctx' ∧ Holds (text ++ List.replicate k 0) ctx' := by
  intro n
  induction n with
  | zero => exact fun _ hk => absurd hk (Nat.not_lt_zero _)
  | succ n ih =>
    intro k text ctx h hk hend hbefore
    have hstop : ctx.count.1 &&& 504 = 448 ↔ text.length % 64 = 56 := by
      have hshift : ctx.count.1 &&& (504 : Word) = (ctx.count.1 >>> 3 &&& 63) <<< 3 := by
        refine BitVec.eq_of_getLsbD_eq fun i hi => ?_
        interval_cases i <;> simp
      rw [hshift, ← BitVec.toNat_inj, BitVec.toNat_shiftLeft, h.place_eq, Nat.shiftLeft_eq,
        show (448 : Word).toNat = 448 from rfl]
      omega
    rw [zeroLoop]
    cases k with
    | zero => exact ⟨ctx, if_pos (hstop.2 hend), by simpa using h⟩
    | succ k =>
      rw [if_neg fun hs => hbefore 0 (Nat.succ_pos k) (hstop.1 hs)]
      obtain ⟨ctx', hloop, h'⟩ := ih (h.update [0] (by decide)) (k := k) (by omega)
        (by rw [length_append, ← hend, length_singleton]; congr 1; omega)
        fun j hj => by
          have := hbefore (j + 1) (by omega)
          rwa [length_append, length_singleton, Nat.add_assoc, Nat.add_comm 1]
      refine ⟨ctx', hloop, ?_⟩
      rwa [append_assoc, singleton_append, ← replicate_succ] at h'

theorem output_eq (s : Chain) : ((List.range 20).map fun i =>
      UInt8.ofNat (([s.a, s.b, s.c, s.d, s.e].getD (i >>> 2) 0) >>> ((3 - (i &&& 3)) * 8)).toNat) =
    [s.a, s.b, s.c, s.d, s.e].flatMap fun w => Endian.be 4 w.toNat := by
  have hword (w : Word) : Endian.be 4 w.toNat = [3, 2, 1, 0].map fun k =>
      UInt8.ofNat (w >>> (k * 8)).toNat := by
    have := w.isLt
    simp only [Endian.be, Endian.le, map_cons, map_nil, reverse_cons, reverse_nil,
      nil_append, cons_append, List.cons.injEq, ← UInt8.toNat_inj, UInt8.toNat_ofNat',
      BitVec.toNat_ushiftRight, Nat.shiftRight_eq_div_pow]
    refine ⟨?_, ?_, ?_, ?_, trivial⟩ <;> simp <;> omega
  simp only [hword]
  rfl

theorem final_eq (h : Holds text ctx) : final ctx = some (digest text ctx.bits) := by
  obtain ⟨ctx', hloop, h'⟩ := zeroLoop_spec (n := 64) (k := (119 - text.length % 64) % 64)
    (h.update [0x80] (by decide)) (by omega)
    (by rw [length_append, length_singleton]; omega)
    fun j hj => by rw [length_append, length_singleton]; omega
  have hend := (h'.update (finalcount ctx.count) (by simp [finalcount])).state
  rw [finalcount_eq, append_assoc text, singleton_append] at hend
  rw [final, hloop, Option.map_some, finalcount_eq, output_eq, ← hend]
  simp only [blockLoop_eq]
  rfl

theorem be_mod (n : ℕ) : Endian.be 8 (n % 2 ^ 64) = Endian.be 8 n := by
  have := Endian.be_ofBe (Endian.be 8 n)
  rwa [Endian.length_be, Endian.ofBe_be] at this

theorem final_init (garbage : ℕ → UInt8) (h : text.length < 2 ^ 61) :
    final (update (init garbage) text) = some (digest text
      (8 * text.length + if text.length < 2 ^ 29 then 0 else 2 ^ 32)) := by
  have hlow : ¬ 2 ^ 32 ≤ (init garbage).count.1.toNat + 8 * text.length % 2 ^ 32 := by
    rw [show (init garbage).count.1.toNat = 0 from rfl]
    omega
  have hbits := bits_update_eq (init garbage) text h
  rw [if_neg hlow, bits_init, Nat.zero_add] at hbits
  rw [final_eq ((holds_init garbage).update text h), hbits, digest, digest, padded, padded, be_mod]
  rfl

/-- `lsha1` is SHA-1 of every string below 2^29 bytes. From there on the length that it appends to the
text is too large by 2^32, as a carry is seen where there was none. -/
theorem sha1_eq (garbage : ℕ → UInt8) (h : text.length < 2 ^ 61) : sha1 garbage text = some (digest
    text (8 * text.length + if text.length < 2 ^ 29 then 0 else 2 ^ 32)) :=
  final_init garbage h

/-- The first test vector of the source. -/
theorem sha1_eq_abc : standard (Bytes.ascii "abc") = [0xa9, 0x99, 0x3e, 0x36, 0x47, 0x06, 0x81, 0x6a,
    0xba, 0x3e, 0x25, 0x71, 0x78, 0x50, 0xc2, 0x6c, 0x9c, 0xd0, 0xd8, 0x9d] :=
  Option.some.inj ((sha1_eq (fun _ => 0) (by decide)).symm.trans (by decide +kernel))

/-- What follows in a text that is hashed in two pieces. -/
theorem final_update (garbage : ℕ → UInt8) {key : Bytes} (hkey : key.length = 64)
    (htext : text.length < 2 ^ 29) :
    final (update (update (init garbage) key) text) = some (standard (key ++ text)) := by
  have h₁ := (holds_init garbage).update key (by omega)
  have hbits₁ := bits_update_eq (init garbage) key (by omega)
  have hbits := bits_update_eq (update (init garbage) key) text (by omega)
  rw [hkey, if_pos (by decide), bits_init] at hbits₁
  rw [if_pos htext, hbits₁] at hbits
  rw [final_eq (h₁.update text (by omega)), standard, nil_append, length_append, hkey, hbits]
  congr 3
  omega

theorem xor_key_eq {x : Word} {c : UInt8} (h : Endian.le 4 x.toNat = List.replicate 4 c)
    (key : Bytes) : xor_key key x = key.map (· ^^^ c) := by
  have hget (i : ℕ) : (Endian.le 4 x.toNat).getD (i % 4) 0 = c := by
    rw [h, List.getD_eq_getElem?_getD, List.getElem?_replicate, if_pos (Nat.mod_lt i (by decide))]
    rfl
  simp only [xor_key, hget]
  exact ext_getElem (by simp) fun i _ _ => by simp

theorem length_standard (text : Bytes) : (standard text).length = 20 := by simp [standard, digest]

/-- `lhmac_sha1` is HMAC with SHA-1, for keys and texts below 2^29 bytes. -/
theorem hmac_sha1_eq (garbage : ℕ → UInt8) {key : Bytes} (hkey : key.length < 2 ^ 29)
    (htext : text.length < 2 ^ 29) : hmac_sha1 garbage key text = some (hmac standard key text) := by
  have hshort : (if 64 < key.length then sha1 garbage key else some key) =
      some (if 64 < key.length then standard key else key) := by
    split_ifs
    · rw [sha1, final_init garbage (by omega), if_pos hkey]
      rfl
    · rfl
  rw [hmac_sha1, hshort, Option.bind_some, hmac]
  generalize hk : (if 64 < key.length then standard key else key) = k
  have hlen : (k ++ List.replicate (64 - k.length) 0).length = 64 := by
    have : k.length ≤ 64 := by
      rw [← hk]
      split_ifs with h
      · exact (length_standard key).trans_le (by decide)
      · exact not_lt.1 h
    rw [length_append, length_replicate]
    omega
  have hinner (c : UInt8) : ((c ^^^ 0x5c) ^^^ 0x6a) = c ^^^ 0x36 := by
    rw [UInt8.xor_assoc]
    rfl
  simp only [xor_key_eq (x := 0x5c5c5c5c) (c := 0x5c) rfl,
    xor_key_eq (x := 0x5c5c5c5c ^^^ 0x36363636) (c := 0x6a) rfl, List.map_map, Function.comp_def, hinner]
  rw [final_update garbage (by rwa [length_map]) htext, Option.bind_some,
    final_update garbage (by rwa [length_map]) (by rw [length_standard]; decide)]

theorem hmac_sha1_eq_key : hmac standard (Bytes.ascii "key") (Bytes.ascii "text") = [0x36, 0x9e, 0x29,
    0x59, 0xeb, 0x49, 0x45, 0x03, 0x38, 0xb2, 0x12, 0x74, 0x8f, 0x77, 0xd8, 0xde, 0xd7, 0x48, 0x47, 0xbb] :=
  Option.some.inj ((hmac_sha1_eq (fun _ => 0) (by decide) (by decide)).symm.trans (by decide +kernel))

end Sha1

end SkynetGame
