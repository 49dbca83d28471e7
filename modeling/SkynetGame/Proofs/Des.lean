import SkynetGame.Des
import SkynetGame.Lib.Feistel
import SkynetGame.Lib.Mask
import Mathlib.Tactic.IntervalCases

/-!
# What DES encrypts it decrypts

The lines of the initial permutation undo themselves, so the final one is its inverse, and the
rounds are those of a Feistel network. So a block comes back under the subkeys the other way round.
A text shorter than `2 ^ 31` bytes is encrypted as its padded blocks, which decrypt to it and to a
padding that is found again. From that length on the `int` of the loops does not hold the length:
what comes back then depends on what was in the memory.
-/

namespace SkynetGame

open List Option

namespace Des

section Block

theorem getUint32_toNat {b : Bytes} {i : ℕ} :
    (getUint32 b i).toNat = (b.getD i 0).toNat * 2 ^ 24 + ((b.getD (i + 1) 0).toNat * 2 ^ 16
      + ((b.getD (i + 2) 0).toNat * 2 ^ 8 + (b.getD (i + 3) 0).toNat)) := by
  have hlt : ∀ j, (b.getD j 0).toNat < 256 := fun j => UInt8.toNat_lt _
  have h₀ := hlt i
  have h₁ := hlt (i + 1)
  have h₂ := hlt (i + 2)
  have h₃ := hlt (i + 3)
  have hshift : ∀ c k, c < 256 → k ≤ 24 →
      (BitVec.ofNat 32 c <<< k).toNat = c <<< k := by
    intro c k hc hk
    have hpow : 2 ^ k ≤ 2 ^ 24 := Nat.pow_le_pow_right (by decide) hk
    have hfits : c <<< k < 2 ^ 32 := by
      rw [Nat.shiftLeft_eq]
      calc c * 2 ^ k ≤ 255 * 2 ^ 24 := Nat.mul_le_mul (by omega) hpow
        _ < 2 ^ 32 := by decide
    have hc' : c % 2 ^ 32 = c := Nat.mod_eq_of_lt (by omega)
    rw [BitVec.toNat_shiftLeft, BitVec.toNat_ofNat, hc', Nat.mod_eq_of_lt hfits]
  have hlow : (BitVec.ofNat 32 (b.getD (i + 3) 0).toNat).toNat = (b.getD (i + 3) 0).toNat := by
    rw [BitVec.toNat_ofNat, Nat.mod_eq_of_lt (by omega)]
  rw [getUint32]
  simp only [BitVec.toNat_or, hshift _ 24 h₀ (by decide), hshift _ 16 h₁ (by decide),
    hshift _ 8 h₂ (by decide), hlow]
  rw [Nat.or_assoc, Nat.or_assoc, Nat.or_comm, Nat.or_comm (_ <<< 16), Nat.or_comm (_ <<< 8),
    or_shiftLeft (k := 8) h₃, or_shiftLeft (k := 16) (by omega), or_shiftLeft (k := 24) (by omega)]

theorem putUint32_getUint32 (a b c d : UInt8) (t : Bytes) :
    putUint32 (getUint32 (a :: b :: c :: d :: t) 0) = [a, b, c, d] := by
  have ha := a.toNat_lt
  have hb := b.toNat_lt
  have hc := c.toNat_lt
  have hd := d.toNat_lt
  have hbyte : ∀ (n : ℕ) (e : UInt8), n % 256 = e.toNat → UInt8.ofNat n = e := by
    intro n e h
    rw [← UInt8.toNat_inj, UInt8.toNat_ofNat', ← h]
  have hw : (getUint32 (a :: b :: c :: d :: t) 0).toNat
      = a.toNat * 2 ^ 24 + (b.toNat * 2 ^ 16 + (c.toNat * 2 ^ 8 + d.toNat)) := getUint32_toNat
  simp only [putUint32, map_cons, map_nil, BitVec.toNat_ushiftRight, hw,
    Nat.shiftRight_eq_div_pow]
  rw [hbyte _ a (by omega), hbyte _ b (by omega), hbyte _ c (by omega), hbyte _ d (by omega)]

theorem getUint32_putUint32 (n : Word) (t : Bytes) : getUint32 (putUint32 n ++ t) 0 = n := by
  have hn := n.isLt
  refine BitVec.eq_of_toNat_eq ?_
  rw [getUint32_toNat]
  simp only [putUint32, map_cons, map_nil, cons_append, getD_cons_zero,
    getD_cons_succ, Nat.zero_add, UInt8.toNat_ofNat', BitVec.toNat_ushiftRight,
    Nat.shiftRight_eq_div_pow]
  omega

theorem getUint32_drop (b t : Bytes) (hb : b.length = 4) :
    getUint32 (b ++ t) 4 = getUint32 t 0 := by
  obtain ⟨a₀, a₁, a₂, a₃, rfl⟩ := length_eq_four.1 hb
  rfl

@[simp] theorem length_putUint32 (n : Word) : (putUint32 n).length = 4 := rfl

@[simp] theorem length_desCrypt (sk : List Subkey) (b : Bytes) : (desCrypt sk b).length = 8 := rfl

theorem exchange_exchange {n : ℕ} {m : Word} (hm : m <<< n >>> n = m) (p : Word × Word) :
    exchange n m (exchange n m p) = p := by
  obtain ⟨x, y⟩ := p
  have hkept : ∀ u : Word, (u &&& m) <<< n >>> n = u &&& m := by
    intro u
    conv_rhs => rw [← hm]
    ext i hi
    simp only [BitVec.getElem_ushiftRight, BitVec.getLsbD_shiftLeft, BitVec.getLsbD_and,
      BitVec.getElem_and]
    have hlow : n + i - n = i := Nat.add_sub_cancel_left n i
    rw [hlow, BitVec.getLsbD_eq_getElem hi]
    rcases hu : u[i] <;> simp
  have hmask : ((x ^^^ ((x >>> n ^^^ y) &&& m) <<< n) >>> n ^^^ (y ^^^ (x >>> n ^^^ y) &&& m)) &&& m
      = (x >>> n ^^^ y) &&& m := by
    rw [BitVec.ushiftRight_xor_distrib, hkept]
    ext i hi
    simp only [BitVec.getElem_and, BitVec.getElem_xor]
    rcases (x >>> n)[i] <;> rcases y[i] <;> rcases m[i] <;> rfl
  simp only [exchange, hmask, BitVec.xor_assoc, BitVec.xor_self, BitVec.xor_zero]

theorem exchangeOdd_exchangeOdd (p : Word × Word) : exchangeOdd (exchangeOdd p) = p :=
  exchange_exchange rfl p

theorem rotate31_rotate1 (y : Word) : rotate31 (rotate1 y) = y := by
  ext i hi
  interval_cases i <;> simp [rotate31, rotate1]

theorem rotate1_rotate31 (y : Word) : rotate1 (rotate31 y) = y := by
  ext i hi
  interval_cases i <;> simp [rotate31, rotate1]

theorem desIP_desFP (p : Word × Word) : desIP (desFP p) = p := by
  simp only [desIP, desFP, exchange_exchange (n := 4) (m := 0x0F0F0F0F) rfl,
    exchange_exchange (n := 16) (m := 0x0000FFFF) rfl, Prod.swap_swap,
    exchange_exchange (n := 2) (m := 0x33333333) rfl,
    exchange_exchange (n := 8) (m := 0x00FF00FF) rfl, rotate1_rotate31, Prod.mk.eta,
    exchangeOdd_exchangeOdd]

theorem desFP_desIP (p : Word × Word) : desFP (desIP p) = p := by
  simp only [desIP, desFP, rotate31_rotate1, Prod.mk.eta, exchangeOdd_exchangeOdd,
    exchange_exchange (n := 8) (m := 0x00FF00FF) rfl,
    exchange_exchange (n := 2) (m := 0x33333333) rfl, Prod.swap_swap,
    exchange_exchange (n := 16) (m := 0x0000FFFF) rfl,
    exchange_exchange (n := 4) (m := 0x0F0F0F0F) rfl]

theorem desRounds_eq : ∀ (sk : List Subkey) (p : Word × Word), sk.length % 2 = 0 →
    desRounds sk p = Feistel.rounds (· ^^^ ·) roundMask sk p
  | [], _, _ => rfl
  | [_], _, h => by
    rw [length_singleton] at h
    omega
  | k₁ :: k₂ :: ks, (x, y), h => by
    rw [desRounds, desRounds_eq ks _ (by simp only [length_cons] at h; omega)]
    rfl

theorem desCrypt_desCrypt (sk : List Subkey) (hsk : sk.length % 2 = 0) {b : Bytes}
    (hb : b.length = 8) : desCrypt sk.reverse (desCrypt sk b) = b := by
  have hcancel : ∀ u v : Word, (u ^^^ v) ^^^ v = u := fun u v => by
    rw [BitVec.xor_assoc, BitVec.xor_self, BitVec.xor_zero]
  have hrev : sk.reverse.length % 2 = 0 := by rwa [length_reverse]
  have hget : ∀ q : Word × Word,
      (getUint32 (putUint32 q.1 ++ putUint32 q.2) 0, getUint32 (putUint32 q.1 ++ putUint32 q.2) 4)
        = q := by
    intro q
    have h := getUint32_putUint32 q.2 []
    rw [append_nil] at h
    rw [getUint32_putUint32, getUint32_drop _ _ (length_putUint32 _), h]
  have hput : putUint32 (getUint32 b 0) ++ putUint32 (getUint32 b 4) = b := by
    match b, hb with
    | [a₀, a₁, a₂, a₃, a₄, a₅, a₆, a₇], _ =>
      have h := putUint32_getUint32 a₄ a₅ a₆ a₇ []
      have hdrop : getUint32 [a₀, a₁, a₂, a₃, a₄, a₅, a₆, a₇] 4 = getUint32 [a₄, a₅, a₆, a₇] 0 := rfl
      rw [putUint32_getUint32, hdrop, h]
      rfl
  rw [desCrypt]
  conv_lhs => rw [desCrypt]
  simp only [hget, desIP_desFP, desRounds_eq _ _ hsk, desRounds_eq _ _ hrev]
  rw [Feistel.rounds_reverse roundMask hcancel, Prod.swap_swap, desFP_desIP, hput]

example : desCrypt (desMainKs [0x13, 0x34, 0x57, 0x79, 0x9b, 0xbc, 0xdf, 0xf1])
    [0x01, 0x23, 0x45, 0x67, 0x89, 0xab, 0xcd, 0xef]
    = [0x85, 0xe8, 0x13, 0x54, 0x0f, 0x0a, 0xb4, 0x05] := by
  decide

theorem length_subkeys : ∀ (is : List ℕ) (x y : Word), (subkeys is x y).length = is.length
  | [], _, _ => rfl
  | _ :: is, _, _ => congrArg (· + 1) (length_subkeys is _ _)

@[simp] theorem length_desMainKs (key : Bytes) : (desMainKs key).length = 16 :=
  length_subkeys _ _ _

end Block

section Text

/-- A function of blocks applied to the `n` first blocks of a text. -/
def eachBlock (f : Bytes → Bytes) : ℕ → Bytes → Bytes
  | 0, _ => []
  | n + 1, t => f (t.take 8) ++ eachBlock f n (t.drop 8)

theorem length_eachBlock {f : Bytes → Bytes} (hf : ∀ b, (f b).length = 8) :
    ∀ n t, (eachBlock f n t).length = 8 * n
  | 0, _ => rfl
  | n + 1, t => by
    rw [eachBlock, length_append, hf, length_eachBlock hf n]
    omega

theorem eachBlock_eachBlock {f g : Bytes → Bytes} (hf : ∀ b, (f b).length = 8)
    (hg : ∀ b : Bytes, b.length = 8 → g (f b) = b) :
    ∀ (n : ℕ) (t : Bytes), t.length = 8 * n → eachBlock g n (eachBlock f n t) = t
  | 0, t, h => (length_eq_zero_iff.1 h).symm
  | n + 1, t, h => by
    have hblock : (t.take 8).length = 8 := by rw [length_take]; omega
    rw [eachBlock, eachBlock, take_left' (hf _), drop_left' (hf _), hg _ hblock,
      eachBlock_eachBlock hf hg n _ (by rw [length_drop]; omega), take_append_drop]

theorem eachBlock_append (f : Bytes → Bytes) :
    ∀ (n m : ℕ) (t u : Bytes), t.length = 8 * n →
      eachBlock f (n + m) (t ++ u) = eachBlock f n t ++ eachBlock f m u
  | 0, m, t, u, h => by
    rw [length_eq_zero_iff.1 h, Nat.zero_add]
    rfl
  | n + 1, m, t, u, h => by
    rw [Nat.add_right_comm, eachBlock, eachBlock, take_append_of_le_length (by omega),
      drop_append_of_le_length (by omega),
      eachBlock_append f n m _ u (by rw [length_drop]; omega), append_assoc]

theorem toInt_of_lt {n : ℤ} (h₀ : -2 ^ 31 ≤ n) (h : n < 2 ^ 31) : toInt n = n := by
  rw [toInt, Int.bmod_eq_of_le (by omega) (by omega)]

/-- The padding of a text: `0x80` and zeros up to the next multiple of 8. -/
def pad (x : Bytes) : Bytes := 0x80 :: List.replicate (7 - x.length % 8) 0

theorem length_pad (x : Bytes) : (x ++ pad x).length = (x.length + 8) / 8 * 8 := by
  rw [length_append, pad, length_cons, length_replicate]
  omega

theorem tail_eq {x rest : Bytes} (hlt : rest.length < 8) (hmod : x.length % 8 = rest.length) :
    tail rest rest.length = rest ++ pad x := by
  have hlen : (rest ++ pad x).length = 8 := by
    rw [length_append, pad, length_cons, length_replicate]
    omega
  refine ext_getElem (by rw [hlen]; rfl) fun j hj _ => ?_
  have hj₈ : j < 8 := by simpa [tail] using hj
  simp only [tail, getElem_map, getElem_range]
  rcases Nat.lt_trichotomy j rest.length with h | h | h
  · rw [if_pos (by omega), getElem_append_left h, getD_eq_getElem _ _ h]
  · subst h
    rw [if_neg (by omega), if_pos rfl, getElem_append_right (Nat.le_refl _)]
    simp only [Nat.sub_self, pad, getElem_cons_zero]
  · rw [if_neg (by omega), if_neg (by omega), getElem_append_right (by omega)]
    obtain ⟨k, hk⟩ : ∃ k, j - rest.length = k + 1 := ⟨j - rest.length - 1, by omega⟩
    simp only [hk, pad, getElem_cons_succ, getElem_replicate]

theorem encodeLoop_eq (sk : List Subkey) {textsz : ℕ} (hsz : textsz < 2 ^ 31) :
    ∀ (rest : Bytes) (i : ℕ), i + rest.length = textsz →
      encodeLoop sk ((textsz : ℤ) - 7) i rest
        = some (eachBlock (desCrypt sk) (rest.length / 8) rest,
            ((i + rest.length / 8 * 8 : ℕ) : ℤ), rest.drop (rest.length / 8 * 8)) := by
  intro rest
  induction hn : rest.length / 8 generalizing rest with
  | zero =>
    intro i hi
    rw [encodeLoop, if_neg (by omega)]
    rfl
  | succ n ih =>
    intro i hi
    have hnext : toInt ((i : ℤ) + 8) = ((i + 8 : ℕ) : ℤ) := by
      rw [toInt_of_lt (by omega) (by omega)]
      rfl
    rw [encodeLoop, if_pos (by omega), dif_neg (by omega), hnext,
      ih (rest.drop 8) (by rw [length_drop]; omega) (i + 8)
        (by rw [length_drop]; omega)]
    simp only [map_some, eachBlock, drop_drop]
    rw [show i + 8 + n * 8 = i + (n + 1) * 8 by omega, show 8 + n * 8 = (n + 1) * 8 by omega]

theorem filled_of_length {mem : ℕ → UInt8} {w : Bytes} {n : ℕ} (h : w.length = n) :
    filled mem w n = w := by
  rw [filled, h, Nat.sub_self, range'_zero, map_nil, append_nil]

theorem desencode_eq {mem : ℕ → UInt8} {key x : Bytes} (hkey : key.length = 8)
    (hx : x.length < 2 ^ 31) :
    desencode mem key x = some (.ok
      (eachBlock (desCrypt (desMainKs key)) (x.length / 8 + 1) (x ++ pad x))) := by
  have hlen : toInt (x.length : ℤ) = x.length := toInt_of_lt (by omega) (by omega)
  have hbound : toInt ((x.length : ℤ) - 7) = (x.length : ℤ) - 7 := toInt_of_lt (by omega) (by omega)
  have hloop := encodeLoop_eq (desMainKs key) hx x 0 (Nat.zero_add _)
  rw [Nat.cast_zero, Nat.zero_add] at hloop
  have hrest : (x.drop (x.length / 8 * 8)).length = x.length % 8 := by
    rw [length_drop]
    omega
  have hbytes : toInt ((x.length : ℤ) - ((x.length / 8 * 8 : ℕ) : ℤ))
      = ((x.drop (x.length / 8 * 8)).length : ℤ) := by
    rw [toInt_of_lt (by omega) (by omega), hrest]
    omega
  have hsplit : x ++ pad x
      = x.take (x.length / 8 * 8) ++ (x.drop (x.length / 8 * 8) ++ pad x) := by
    rw [← append_assoc, take_append_drop]
  have hcut : eachBlock (desCrypt (desMainKs key)) (x.length / 8) x
      = eachBlock (desCrypt (desMainKs key)) (x.length / 8) (x.take (x.length / 8 * 8)) := by
    have h := eachBlock_append (desCrypt (desMainKs key)) (x.length / 8) 0
      (x.take (x.length / 8 * 8)) (x.drop (x.length / 8 * 8)) (by rw [length_take]; omega)
    rwa [take_append_drop, Nat.add_zero, eachBlock, append_nil] at h
  have hlast : eachBlock (desCrypt (desMainKs key)) 1 (x.drop (x.length / 8 * 8) ++ pad x)
      = desCrypt (desMainKs key) (x.drop (x.length / 8 * 8) ++ pad x) := by
    have hl : (x.drop (x.length / 8 * 8) ++ pad x).length = 8 := by
      rw [length_append, hrest, pad, length_cons, length_replicate]
      omega
    rw [eachBlock, eachBlock, append_nil, take_of_length_le (Nat.le_of_eq hl)]
  rw [desencode, if_neg (not_not.2 hkey), hlen, hbound]
  simp only [hloop, map_some, some.injEq, Except.ok.injEq]
  rw [hbytes, tail_eq (x := x) (by omega) hrest.symm, hsplit,
    eachBlock_append _ _ _ _ _ (by rw [length_take]; omega), hlast, ← hcut]
  refine filled_of_length ?_
  rw [length_append, length_eachBlock (length_desCrypt _), length_desCrypt]
  omega

/-- The loop of `desdecode` decrypts every block of a text of at most `2 ^ 31` bytes; where the last
step wraps it stops as well. -/
theorem decodeLoop_eq (sk : List Subkey) {textsz : ℕ} (hsz : textsz ≤ 2 ^ 31) :
    ∀ (n : ℕ) (rest : Bytes), rest.length = 8 * n → 8 * n ≤ textsz →
      decodeLoop sk textsz (toInt ((textsz : ℤ) - 8 * n)) rest
        = some (eachBlock (desCrypt sk) n rest)
  | 0, rest, _, _ => by
    have hstop : ¬ toSize (toInt ((textsz : ℤ) - 8 * (0 : ℕ))) < textsz := by
      rw [toSize, toInt, Int.bmod_def]
      split_ifs <;> omega
    rw [decodeLoop, if_neg hstop]
    rfl
  | n + 1, rest, hn, hle => by
    have hi : toInt ((textsz : ℤ) - 8 * (n + 1 : ℕ)) = (textsz : ℤ) - 8 * (n + 1 : ℕ) :=
      toInt_of_lt (by omega) (by omega)
    have hnext : (textsz : ℤ) - 8 * (n + 1 : ℕ) + 8 = (textsz : ℤ) - 8 * (n : ℕ) := by omega
    rw [decodeLoop, hi, if_pos (by rw [toSize]; omega), dif_neg (by omega), hnext,
      decodeLoop_eq sk hsz n (rest.drop 8) (by rw [length_drop]; omega) (by omega)]
    rfl

theorem paddingLoop_eq {x : Bytes} {k textsz : ℕ} (hk : k < 8) (hsz : textsz = x.length + 1 + k) :
    ∀ j ≤ k, ∀ padding, paddingLoop (x ++ 0x80 :: List.replicate k 0) textsz (x.length + 1 + j)
      padding = some (.ok (padding + j))
  | 0, _, padding => by
    have hbyte : (x ++ 0x80 :: List.replicate k 0).getD x.length 0 = 0x80 := by
      rw [getD_append_right _ _ _ _ (Nat.le_refl _), Nat.sub_self, getD_cons_zero]
    rw [Nat.add_zero, paddingLoop, if_pos (by omega), hbyte, if_neg (by decide), if_pos rfl,
      Nat.add_zero]
  | j + 1, hj, padding => by
    have hbyte : (x ++ 0x80 :: List.replicate k 0).getD (x.length + 1 + j) 0 = 0 := by
      rw [getD_append_right _ _ _ _ (by omega),
        show x.length + 1 + j - x.length = j + 1 by omega, getD_cons_succ,
        getD_eq_getElem?_getD, getElem?_replicate]
      split <;> rfl
    rw [← Nat.add_assoc, paddingLoop, if_pos (by omega), if_pos hbyte,
      paddingLoop_eq hk hsz j (by omega), Nat.add_right_comm, Nat.add_assoc]

theorem desdecode_eq {mem : ℕ → UInt8} {key x : Bytes} (hkey : key.length = 8)
    (hx : x.length < 2 ^ 31) :
    desdecode mem key (eachBlock (desCrypt (desMainKs key)) (x.length / 8 + 1) (x ++ pad x))
      = some (.ok x) := by
  have hlen := length_eachBlock (length_desCrypt (desMainKs key)) (x.length / 8 + 1) (x ++ pad x)
  have hpadded : (x ++ pad x).length = 8 * (x.length / 8 + 1) := by rw [length_pad]; omega
  have hblocks := eachBlock_eachBlock (length_desCrypt (desMainKs key))
    (fun b hb => desCrypt_desCrypt (desMainKs key) (by rw [length_desMainKs]) hb)
    (x.length / 8 + 1) (x ++ pad x) hpadded
  generalize eachBlock (desCrypt (desMainKs key)) (x.length / 8 + 1) (x ++ pad x) = c at hlen hblocks
  have hsz : c.length ≤ 2 ^ 31 := by omega
  have hloop := decodeLoop_eq (desMainKs key).reverse hsz
    (x.length / 8 + 1) c hlen (by omega)
  have hstart : toInt ((c.length : ℤ) - 8 * (x.length / 8 + 1 : ℕ)) = 0 := by
    rw [toInt_of_lt (by omega) (by omega)]
    omega
  have hlast : (toInt ((c.length : ℤ) - 1) + 1).toNat = x.length + 1 + (7 - x.length % 8) := by
    rw [toInt_of_lt (by omega) (by omega)]
    omega
  have htextsz : c.length = x.length + 1 + (7 - x.length % 8) := by omega
  have hsearch := paddingLoop_eq (x := x) (k := 7 - x.length % 8) (by omega) htextsz
    (7 - x.length % 8) (Nat.le_refl _) 1
  rw [hstart, hblocks] at hloop
  rw [desdecode, if_neg (not_not.2 hkey)]
  simp only []
  rw [if_neg (by omega), hloop, bind_some, filled_of_length (by omega), hlast, pad, hsearch,
    map_some]
  simp only []
  rw [if_neg (by omega), take_append_of_le_length (by omega), take_of_length_le (by omega)]

end Text

section Large

theorem encodeLoop_length {sk : List Subkey} {bound : ℤ} :
    ∀ (n : ℕ) (rest : Bytes) (i : ℤ) (r : Bytes × ℤ × Bytes), rest.length ≤ n →
      encodeLoop sk bound i rest = some r →
      r.1.length + r.2.2.length = rest.length ∧ r.1.length % 8 = 0
  | n, rest, i, r, hn, h => by
    rw [encodeLoop] at h
    split_ifs at h with hi hf
    · obtain ⟨r', hr', rfl⟩ := map_eq_some_iff.1 h
      have hlt : (rest.drop 8).length + 8 = rest.length := by rw [length_drop]; omega
      match n with
      | 0 => omega
      | n + 1 =>
        obtain ⟨h₁, h₂⟩ := encodeLoop_length n _ _ r' (by omega) hr'
        simp only [length_append, length_desCrypt]
        omega
    · cases h
      exact ⟨Nat.zero_add _, rfl⟩

theorem desencode_length {mem : ℕ → UInt8} {key x c : Bytes}
    (h : desencode mem key x = some (.ok c)) : c.length = (x.length + 8) / 8 * 8 := by
  rw [desencode] at h
  split_ifs at h
  · cases h
  obtain ⟨⟨out, i, rest⟩, hr, hc⟩ := map_eq_some_iff.1 h
  cases hc
  obtain ⟨hsum, hmod⟩ := encodeLoop_length _ _ _ _ (Nat.le_refl _) hr
  simp only [filled, length_append, length_desCrypt, length_map, length_range'] at *
  omega

theorem decodeLoop_length {sk : List Subkey} {textsz : ℤ} (n i : ℕ) (rest out : Bytes)
    (hn : i + 8 * n = 2 ^ 31) (h : decodeLoop sk textsz (toInt i) rest = some out) :
    i + out.length ≤ 2 ^ 31 := by
  induction n generalizing i rest out with
  | zero =>
    have hi : toInt (i : ℤ) < 0 := by
      rw [toInt, Int.bmod_def]
      split_ifs <;> omega
    rw [decodeLoop] at h
    split_ifs at h with hc hf
    · exact absurd (.inl hi) hf
    · cases h
      exact Nat.le_of_eq hn
  | succ n ih =>
    have hi : toInt (i : ℤ) + 8 = ((i + 8 : ℕ) : ℤ) := by
      rw [toInt_of_lt (by omega) (by omega)]
      rfl
    rw [decodeLoop] at h
    split_ifs at h with hc hf
    · obtain ⟨r, hr, rfl⟩ := map_eq_some_iff.1 h
      rw [hi] at hr
      have hle := ih (i + 8) _ r (by omega) hr
      rw [length_append, length_desCrypt]
      omega
    · cases h
      rw [length_nil]
      omega

theorem getD_filled (mem : ℕ → UInt8) {w : Bytes} {n i : ℕ} (hw : w.length ≤ i) (hi : i < n) :
    (filled mem w n).getD i 0 = mem i := by
  have hlen : i - w.length < ((List.range' w.length (n - w.length)).map mem).length := by
    rw [length_map, length_range']
    omega
  rw [filled, getD_append_right _ _ _ _ hw, getD_eq_getElem _ _ hlen, getElem_map,
    getElem_range', Nat.one_mul, Nat.add_sub_cancel' hw]

/-- A text of more than `2 ^ 31` bytes is decrypted to a string only with its last byte alone taken
for padding, and with what was in the memory behind the first `2 ^ 31` bytes. -/
theorem desdecode_large {mem : ℕ → UInt8} {key c x : Bytes} (hc : 2 ^ 31 < c.length)
    (h : desdecode mem key c = some (.ok x)) :
    2 ^ 31 < x.length ∧ x.getD (2 ^ 31) 0 = mem (2 ^ 31) := by
  rw [desdecode] at h
  split_ifs at h
  · cases h
  simp only [] at h
  split_ifs at h with hmod
  · cases h
  obtain ⟨out, hout, h⟩ := bind_eq_some_iff.1 h
  have hle := decodeLoop_length (2 ^ 28) 0 _ _ (by decide) hout
  obtain ⟨r, hr, hx⟩ := map_eq_some_iff.1 h
  obtain ⟨k, hk⟩ : ∃ k, (toInt ((c.length : ℤ) - 1) + 1).toNat = k := ⟨_, rfl⟩
  rw [hk] at hr
  match k, hr with
  | k + 1, hr =>
    have hkval : (k : ℤ) = toInt ((c.length : ℤ) - 1) := by omega
    have hlow : k + 8 < c.length ∧ 2 ^ 31 < c.length - 1 := by
      rw [toInt, Int.bmod_def] at hkval
      split_ifs at hkval <;> omega
    rw [paddingLoop, if_neg (by omega)] at hr
    cases hr
    simp only [] at hx
    rw [if_neg (by decide)] at hx
    cases hx
    have hlen : c.length ≤ (filled mem out c.length).length := by
      rw [filled, length_append, length_map, length_range']
      omega
    have hget := getD_filled mem (w := out) (n := c.length) (i := 2 ^ 31) (by omega) hc
    rw [getD_eq_getElem?_getD] at hget ⊢
    rw [length_take, getElem?_take_of_lt hlow.2]
    exact ⟨by omega, hget⟩

end Large

/-- The text comes back from its cipher text, whose length is the least multiple of 8 above that of
the text, whatever was in the memory before. -/
def RoundTrip (key x : Bytes) : Prop :=
  ∀ mem mem' : ℕ → UInt8, ∃ c, desencode mem key x = some (.ok c)
    ∧ IsLeast {n | 8 ∣ n ∧ x.length < n} c.length ∧ desdecode mem' key c = some (.ok x)

theorem not_roundTrip_of_large {key x : Bytes} (hx : 2 ^ 31 ≤ x.length) : ¬ RoundTrip key x := by
  intro h
  obtain ⟨c, hc, -, hdec⟩ := h (fun _ => 0) (fun _ => x.getD (2 ^ 31) 0 + 1)
  have hlen := desencode_length hc
  obtain ⟨-, hbyte⟩ := desdecode_large (by omega) hdec
  have : x.getD (2 ^ 31) 0 ≠ x.getD (2 ^ 31) 0 + 1 := by
    intro heq
    have := congrArg UInt8.toNat heq
    rw [UInt8.toNat_add] at this
    have hlt := (x.getD (2 ^ 31) 0).toNat_lt
    have hone : (1 : UInt8).toNat = 1 := rfl
    omega
  exact this hbyte

/-- Texts come back exactly up to the length that an `int` holds. -/
theorem roundTrip_iff_length {key : Bytes} (hkey : key.length = 8) (x : Bytes) :
    RoundTrip key x ↔ x.length < 2 ^ 31 := by
  constructor
  · intro h
    by_contra hx
    exact not_roundTrip_of_large (by omega) h
  · intro hx mem mem'
    refine ⟨_, desencode_eq hkey hx, ⟨⟨?_, ?_⟩, ?_⟩, desdecode_eq hkey hx⟩
    · rw [length_eachBlock (length_desCrypt _)]
      exact ⟨_, rfl⟩
    · rw [length_eachBlock (length_desCrypt _)]
      omega
    · rintro n ⟨⟨m, rfl⟩, hm⟩
      rw [length_eachBlock (length_desCrypt _)]
      omega

theorem roundTrip_iff_length_short :
    RoundTrip [1, 2, 3, 4, 5, 6, 7, 8] [104, 105, 128, 0]
      ↔ ([104, 105, 128, 0] : Bytes).length < 2 ^ 31 :=
  roundTrip_iff_length rfl _

/-- Zeros, one more than an `int` counts. -/
theorem not_roundTrip_zeros :
    ¬ RoundTrip [1, 2, 3, 4, 5, 6, 7, 8] (List.replicate (2 ^ 31) 0) :=
  not_roundTrip_of_large (by rw [List.length_replicate])

end Des

/-!
## The padding that `desdecode` takes off

The search goes back from the last byte over zeros to a `0x80`. That it looks at no more than 8 bytes
is tested with a `size_t`, which no index is below where the text is a single block: if that block
decrypts to zeros, the search reads on in front of the buffer.
-/

namespace Des

/-- The text is the `desencode` of `x`, whatever was in the memory before. -/
def Encodes (key x c : Bytes) : Prop := ∀ mem, desencode mem key x = some (.ok c)

/-- Nothing outside of the buffers is read, and a plain text comes out just if this is its code. -/
def Faithful (key c : Bytes) : Prop :=
  ∀ mem, ∃ r, desdecode mem key c = some r ∧ ∀ x, r = .ok x ↔ Encodes key x c

def zeroBlock (key : Bytes) : Bytes := desCrypt (desMainKs key) (List.replicate 8 0)

section Search

theorem zeros_or (b : Bytes) : ∀ n ≤ b.length, (∃ p, b = p ++ List.replicate n 0) ∨
    ∃ k < n, ∃ p v, v ≠ 0 ∧ b = p ++ v :: List.replicate k 0
  | 0, _ => .inl ⟨b, (append_nil b).symm⟩
  | n + 1, hn => by
    rcases zeros_or b n (by omega) with ⟨p, hp⟩ | ⟨k, hk, p, v, hv, hb⟩
    · rcases eq_nil_or_concat p with rfl | ⟨p, v, rfl⟩
      · rw [hp, length_append, length_replicate, length_nil] at hn
        omega
      · rw [concat_append] at hp
        by_cases hv : v = 0
        · exact .inl ⟨p, by rw [hp, hv, replicate_succ]⟩
        · exact .inr ⟨n, by omega, p, v, hv, hp⟩
    · exact .inr ⟨k, by omega, p, v, hv, hb⟩

theorem paddingLoop_zeros {p : Bytes} {k textsz : ℕ} (hk : k ≤ 8) (hsz : textsz = p.length + k) :
    ∀ j ≤ k, ∀ padding, paddingLoop (p ++ List.replicate k 0) textsz (p.length + j) padding =
      paddingLoop (p ++ List.replicate k 0) textsz p.length (padding + j)
  | 0, _, _ => rfl
  | j + 1, hj, padding => by
    have hbyte : (p ++ List.replicate k (0 : UInt8)).getD (p.length + j) 0 = 0 := by
      rw [getD_append_right _ _ _ _ (by omega), getD_eq_getElem?_getD,
        getElem?_replicate]
      split <;> rfl
    rw [← Nat.add_assoc, paddingLoop, if_pos (by omega), if_pos hbyte,
      paddingLoop_zeros hk hsz j (by omega), Nat.add_right_comm, Nat.add_assoc]

theorem paddingLoop_cases {b : Bytes} (hb : 8 ≤ b.length) (hne : b ≠ List.replicate 8 0) :
    (∃ k < 8, ∃ p, b = p ++ 0x80 :: List.replicate k 0 ∧
      paddingLoop b b.length b.length 1 = some (.ok (1 + k))) ∨
    paddingLoop b b.length b.length 1 = some (.ok 9) ∨
    ∃ msg, paddingLoop b b.length b.length 1 = some (.error msg) := by
  rcases zeros_or b 8 hb with ⟨p, hp⟩ | ⟨k, hk, p, v, hv, hb'⟩
  · -- eight zeros, and something in front of them
    have hlen : b.length = p.length + 8 := by rw [hp, length_append, length_replicate]
    have hpos : p.length ≠ 0 := by
      intro h0
      rw [length_eq_zero_iff.1 h0] at hp
      exact hne hp
    obtain ⟨i, hi⟩ := Nat.exists_eq_succ_of_ne_zero hpos
    refine .inr (.inl ?_)
    have h := paddingLoop_zeros (Nat.le_refl 8) hlen 8 (Nat.le_refl 8) 1
    rw [← hp, ← hlen] at h
    rw [h, hi, paddingLoop, if_neg (by omega)]
  · have hlen : b.length = p.length + 1 + k := by
      rw [hb', length_append, length_cons, length_replicate]
      omega
    by_cases h80 : v = 0x80
    · refine .inl ⟨k, hk, p, by rw [hb', h80], ?_⟩
      have h := paddingLoop_eq hk hlen k (Nat.le_refl k) 1
      rwa [← h80, ← hb', ← hlen] at h
    · refine .inr (.inr ⟨"Invalid des crypt text", ?_⟩)
      have hsplit : b = (p ++ [v]) ++ List.replicate k 0 := by
        rw [hb', append_assoc, singleton_append]
      have hl : (p ++ [v]).length = p.length + 1 := by simp
      have hbyte : b.getD p.length 0 = v := by
        rw [hb', getD_append_right _ _ _ _ (Nat.le_refl _), Nat.sub_self, getD_cons_zero]
      have hsz : b.length = (p ++ [v]).length + k := by rw [hl, hlen]
      have h := paddingLoop_zeros (by omega) hsz k (Nat.le_refl k) 1
      rw [← hsplit, hl, ← hlen] at h
      rw [h, paddingLoop, if_pos (by omega), hbyte, if_neg hv, if_neg h80]

theorem paddingLoop_block : paddingLoop (List.replicate 8 0) 8 8 1 = none := by decide

end Search

section Blocks

variable {key c : Bytes}

theorem desCrypt_reverse {b : Bytes} (hb : b.length = 8) :
    desCrypt (desMainKs key) (desCrypt (desMainKs key).reverse b) = b := by
  have h := desCrypt_desCrypt (desMainKs key).reverse
    (by rw [length_reverse, length_desMainKs]) hb
  rwa [reverse_reverse] at h

def decrypted (key c : Bytes) : Bytes :=
  eachBlock (desCrypt (desMainKs key).reverse) (c.length / 8) c

theorem length_decrypted (h : c.length % 8 = 0) : (decrypted key c).length = c.length := by
  rw [decrypted, length_eachBlock (length_desCrypt _)]
  omega

theorem eachBlock_decrypted (h : c.length % 8 = 0) :
    eachBlock (desCrypt (desMainKs key)) (c.length / 8) (decrypted key c) = c :=
  eachBlock_eachBlock (length_desCrypt _) (fun _ => desCrypt_reverse) _ _ (by omega)

/-- What the last lines of `ldesdecode` make of what the search finds. -/
def takeOff (b : Bytes) : Except String ℕ → Result
  | .error e => .error e
  | .ok padding =>
    if padding > 8 then .error "Invalid des crypt text" else .ok (b.take (b.length - padding))

theorem desdecode_blocks (mem : ℕ → UInt8) (hkey : key.length = 8) (hmod : c.length % 8 = 0)
    (h0 : c.length ≠ 0) (hsz : c.length ≤ 2 ^ 31) :
    desdecode mem key c =
      (paddingLoop (decrypted key c) c.length c.length 1).map (takeOff (decrypted key c)) := by
  have hloop := decodeLoop_eq (desMainKs key).reverse hsz (c.length / 8) c (by omega) (by omega)
  have hstart : toInt ((c.length : ℤ) - 8 * (c.length / 8 : ℕ)) = 0 := by
    rw [toInt_of_lt (by omega) (by omega)]
    omega
  have hlast : (toInt ((c.length : ℤ) - 1) + 1).toNat = c.length := by
    rw [toInt_of_lt (by omega) (by omega)]
    omega
  rw [hstart, ← decrypted] at hloop
  rw [desdecode, if_neg (not_not.2 hkey)]
  simp only []
  rw [if_neg (by omega), hloop, bind_some, filled_of_length (length_decrypted hmod), hlast]
  rcases paddingLoop (decrypted key c) c.length c.length 1 with _ | msg | padding
  · rfl
  · rfl
  · rw [map_some, map_some, takeOff, length_decrypted hmod]

theorem encodes_short {x : Bytes} (hsz : c.length ≤ 2 ^ 31) (h : Encodes key x c) :
    x.length < 2 ^ 31 := by
  have hlen := desencode_length (h fun _ => 0)
  omega

theorem desdecode_of_encodes {x : Bytes} (hkey : key.length = 8) (hsz : c.length ≤ 2 ^ 31)
    (h : Encodes key x c) (mem : ℕ → UInt8) : desdecode mem key c = some (.ok x) := by
  have hx := encodes_short hsz h
  have henc := h mem
  rw [desencode_eq hkey hx, some.injEq, Except.ok.injEq] at henc
  rw [← henc]
  exact desdecode_eq hkey hx

theorem encodes_of_decrypted {x : Bytes} {k : ℕ} (hkey : key.length = 8) (hk : k < 8)
    (hmod : c.length % 8 = 0) (hsz : c.length ≤ 2 ^ 31)
    (h : decrypted key c = x ++ 0x80 :: List.replicate k 0) : Encodes key x c := by
  have hlen := congrArg List.length h
  rw [length_decrypted hmod, length_append, length_cons, length_replicate] at hlen
  have hpad : decrypted key c = x ++ pad x := by
    rw [h, pad, show 7 - x.length % 8 = k by omega]
  intro mem
  rw [desencode_eq hkey (by omega), ← hpad, show x.length / 8 + 1 = c.length / 8 by omega,
    eachBlock_decrypted hmod]

theorem faithful_of (hkey : key.length = 8) (hsz : c.length ≤ 2 ^ 31)
    (h : ∀ mem, ∃ r, desdecode mem key c = some r ∧ ∀ x, r = .ok x → Encodes key x c) :
    Faithful key c := by
  intro mem
  obtain ⟨r, hr, hx⟩ := h mem
  refine ⟨r, hr, fun x => ⟨hx x, fun henc => ?_⟩⟩
  rw [desdecode_of_encodes hkey hsz henc, some.injEq] at hr
  exact hr.symm

theorem desdecode_misaligned (mem : ℕ → UInt8) (hkey : key.length = 8)
    (h : c.length % 8 ≠ 0 ∨ c.length = 0) : ∃ msg, desdecode mem key c = some (.error msg) := by
  rw [desdecode, if_neg (not_not.2 hkey)]
  exact ⟨_, if_pos h⟩

theorem encodes_aligned {x : Bytes} (h : Encodes key x c) : ¬ (c.length % 8 ≠ 0 ∨ c.length = 0) := by
  have hlen := desencode_length (h fun _ => 0)
  omega

theorem faithful_misaligned (hkey : key.length = 8) (h : c.length % 8 ≠ 0 ∨ c.length = 0) :
    Faithful key c := by
  intro mem
  obtain ⟨msg, hm⟩ := desdecode_misaligned mem hkey h
  refine ⟨_, hm, fun x => ⟨fun hx => ?_, fun henc => absurd h (encodes_aligned henc)⟩⟩
  cases hx

theorem decrypted_block (hc : c.length = 8) :
    decrypted key c = List.replicate 8 0 ↔ c = zeroBlock key := by
  have hd : decrypted key c = desCrypt (desMainKs key).reverse c := by
    rw [decrypted, hc, eachBlock, eachBlock, append_nil,
      take_of_length_le (Nat.le_of_eq hc)]
  rw [hd, zeroBlock]
  constructor
  · intro h
    rw [← h, desCrypt_reverse hc]
  · intro h
    rw [h]
    exact desCrypt_desCrypt (desMainKs key) (by rw [length_desMainKs]) (length_replicate ..)

theorem faithful_blocks (hkey : key.length = 8) (hmod : c.length % 8 = 0) (h0 : c.length ≠ 0)
    (hsz : c.length ≤ 2 ^ 31) : Faithful key c ↔ c ≠ zeroBlock key := by
  have hlen : (decrypted key c).length = c.length := length_decrypted hmod
  by_cases hz : c = zeroBlock key
  · refine iff_of_false (fun h => ?_) (not_not.2 hz)
    have hc : c.length = 8 := by rw [hz, zeroBlock, length_desCrypt]
    obtain ⟨r, hr, -⟩ := h fun _ => 0
    rw [desdecode_blocks _ hkey hmod h0 hsz, (decrypted_block hc).2 hz, hc, paddingLoop_block] at hr
    cases hr
  · refine iff_of_true (faithful_of hkey hsz fun mem => ?_) hz
    have hne : decrypted key c ≠ List.replicate 8 0 := by
      intro h
      have hc : c.length = 8 := by rw [← hlen, h, length_replicate]
      exact hz ((decrypted_block hc).1 h)
    rw [desdecode_blocks mem hkey hmod h0 hsz]
    have hcases := paddingLoop_cases (by omega) hne
    rw [hlen] at hcases
    rcases hcases with ⟨k, hk, p, hp, hs⟩ | hs | ⟨msg, hs⟩
    · refine ⟨.ok p, ?_, fun x hx => ?_⟩
      · have hl := congrArg List.length hp
        rw [hlen, length_append, length_cons, length_replicate] at hl
        rw [hs, map_some, takeOff, if_neg (by omega), hlen, hp, take_append_of_le_length (by omega),
          take_of_length_le (by omega)]
      · obtain rfl : p = x := by injection hx
        exact encodes_of_decrypted hkey hk hmod hsz hp
    · refine ⟨.error "Invalid des crypt text", by rw [hs]; rfl, fun x hx => ?_⟩
      cases hx
    · refine ⟨.error msg, by rw [hs]; rfl, fun x hx => ?_⟩
      cases hx

theorem paddingLoop_large {b : Bytes} {textsz p : ℕ} {s : Except String ℕ} (hsz : 2 ^ 31 < textsz)
    (h : paddingLoop b textsz (toInt ((textsz : ℤ) - 1) + 1).toNat p = some s) : s = .ok p := by
  obtain ⟨k, hk⟩ : ∃ k, (toInt ((textsz : ℤ) - 1) + 1).toNat = k := ⟨_, rfl⟩
  rw [hk] at h
  cases k with
  | zero => cases h
  | succ k =>
    have hkval : (k : ℤ) = toInt ((textsz : ℤ) - 1) := by omega
    have hlow : k + 8 < textsz := by
      rw [toInt, Int.bmod_def] at hkval
      split_ifs at hkval <;> omega
    rw [paddingLoop, if_neg (by omega), some.injEq] at h
    exact h.symm

theorem not_faithful_large (hkey : key.length = 8) (hmod : c.length % 8 = 0)
    (hc : 2 ^ 31 < c.length) : ¬ Faithful key c := by
  intro h
  have hok : ∀ mem, ∃ x, desdecode mem key c = some (.ok x) ∧ Encodes key x c := by
    intro mem
    obtain ⟨r, hr, hx⟩ := h mem
    have hr' := hr
    rw [desdecode, if_neg (not_not.2 hkey)] at hr'
    simp only [] at hr'
    rw [if_neg (by omega), bind_eq_some_iff] at hr'
    obtain ⟨out, -, hr'⟩ := hr'
    obtain ⟨s, hs, hr'⟩ := map_eq_some_iff.1 hr'
    rw [paddingLoop_large hc hs] at hr'
    simp only [] at hr'
    rw [if_neg (by decide)] at hr'
    rw [← hr'] at hr
    exact ⟨_, hr, (hx _).1 hr'.symm⟩
  obtain ⟨x, hx, henc⟩ := hok fun _ => 0
  obtain ⟨r, hr, hiff⟩ := h fun _ => 1
  rw [(hiff x).2 henc] at hr
  have h0 := (desdecode_large hc hx).2
  have h1 := (desdecode_large hc hr).2
  rw [h0] at h1
  exact absurd h1 (by decide)

end Blocks

/-- Just which texts are decoded as they should be. -/
theorem faithful_iff {key : Bytes} (hkey : key.length = 8) (c : Bytes) :
    Faithful key c ↔ c.length % 8 ≠ 0 ∨ c.length ≤ 2 ^ 31 ∧ c ≠ zeroBlock key := by
  by_cases hmod : c.length % 8 = 0
  · rw [or_iff_right (not_not.2 hmod)]
    by_cases hsz : c.length ≤ 2 ^ 31
    · rw [and_iff_right hsz]
      by_cases h0 : c.length = 0
      · refine iff_of_true (faithful_misaligned hkey (.inr h0)) fun h => ?_
        rw [h, zeroBlock, length_desCrypt] at h0
        cases h0
      · exact faithful_blocks hkey hmod h0 hsz
    · exact iff_of_false (not_faithful_large hkey hmod (by omega)) fun h => hsz h.1
  · exact iff_of_true (faithful_misaligned hkey (.inl hmod)) (.inl hmod)

theorem faithful_iff_short : Faithful [1, 2, 3, 4, 5, 6, 7, 8] [0, 0, 0] ↔
    ([0, 0, 0] : Bytes).length % 8 ≠ 0 ∨ ([0, 0, 0] : Bytes).length ≤ 2 ^ 31 ∧
      [0, 0, 0] ≠ zeroBlock [1, 2, 3, 4, 5, 6, 7, 8] :=
  faithful_iff rfl _

theorem not_faithful_zeroBlock :
    ¬ Faithful [1, 2, 3, 4, 5, 6, 7, 8] (zeroBlock [1, 2, 3, 4, 5, 6, 7, 8]) := by
  have hlen : (zeroBlock [1, 2, 3, 4, 5, 6, 7, 8]).length = 8 := rfl
  rw [faithful_blocks rfl (by rw [hlen]) (by rw [hlen]; decide) (by rw [hlen]; decide)]
  exact fun h => h rfl

end Des

end SkynetGame
