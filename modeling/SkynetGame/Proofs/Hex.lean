import SkynetGame.Crypt
import Mathlib.Data.List.GetD

/-!
# What the hexadecimal codec takes

`lfromhex` tests the size for the wrong bit, and its range test lets the characters from `W` to `g`
through, the digits from `a` to `f` among them. So it accepts texts that are no output of `ltohex`,
and half of the outputs it rejects.
-/

namespace SkynetGame

open List

namespace Hex

/-- An even number of digits. -/
def IsHex (s : Bytes) : Prop := Even s.length ∧ ∀ c ∈ s, c ∈ hex

/-- What comes out of `ltohex` is read back. -/
def RoundTrip (x : Bytes) : Prop :=
  ∃ s e, hexencode x = some s ∧ hexdecode s = some (e, .ok x)

/-- Of all texts just those that `ltohex` may have written are taken, for the bytes they were
written for, and no text is read beyond its end. -/
def Accepts (s : Bytes) : Prop :=
  ∃ e r, hexdecode s = some (e, r) ∧ e ≤ s.length ∧ ((∃ y, r = .ok y) ↔ IsHex s) ∧
    ∀ y, r = .ok y → hexencode y = some s

/-- A character that `lfromhex` does not take, among the first `n`, and where an `int` gets to. -/
def Bad (s : Bytes) (n : ℕ) : Prop := ∃ k < n, k ≤ INT_MAX ∧ 16 < HEX (s.getD k 0)

/-- The texts of which all of that holds. -/
def Proper (s : Bytes) : Prop :=
  (s.length % 4 = 0 → (s.length ≤ INT_MAX ∧ ∀ c ∈ s, c ∈ hex) ∨ Bad s s.length) ∧
  (s.length % 4 = 1 → Bad s (s.length - 1)) ∧
  (s.length % 4 = 2 → ∃ c ∈ s, c ∉ hex)

section Digits

theorem digit_cases : ∀ n < 256, UInt8.ofNat n ∈ hex → HEX (UInt8.ofNat n) < 16 ∧
    hex.getD (HEX (UInt8.ofNat n)).toNat 0 = UInt8.ofNat n := by decide +kernel

theorem HEX_digit {c : UInt8} (hc : c ∈ hex) : HEX c < 16 ∧ hex.getD (HEX c).toNat 0 = c := by
  have h := digit_cases c.toNat c.toNat_lt
  rw [UInt8.ofNat_toNat] at h
  exact h hc

theorem hex_getD : ∀ n < 16, hex.getD n 0 ∈ hex ∧ HEX (hex.getD n 0) = UInt8.ofNat n := by
  decide

theorem pair_halves : ∀ n < 256,
    pair (hex.getD (UInt8.ofNat n >>> 4).toNat 0) (hex.getD (UInt8.ofNat n &&& 0xf).toNat 0) =
      some (UInt8.ofNat n) := by decide +kernel

theorem pair_encode (b : UInt8) :
    pair (hex.getD (b >>> 4).toNat 0) (hex.getD (b &&& 0xf).toNat 0) = some b := by
  have h := pair_halves b.toNat b.toNat_lt
  rwa [UInt8.ofNat_toNat] at h

theorem halves_pair : ∀ m < 16, ∀ n < 16,
    (UInt8.ofNat m <<< 4 ||| UInt8.ofNat n) >>> 4 = UInt8.ofNat m ∧
      (UInt8.ofNat m <<< 4 ||| UInt8.ofNat n) &&& 0xf = UInt8.ofNat n := by decide

theorem encode_pair {c d b : UInt8} (hc : c ∈ hex) (hd : d ∈ hex) (h : pair c d = some b) :
    hex.getD (b >>> 4).toNat 0 = c ∧ hex.getD (b &&& 0xf).toNat 0 = d := by
  obtain ⟨hc₁, hc₂⟩ := HEX_digit hc
  obtain ⟨hd₁, hd₂⟩ := HEX_digit hd
  unfold pair at h
  split_ifs at h
  obtain rfl := Option.some.inj h
  have hh := halves_pair (HEX c).toNat (UInt8.lt_iff_toNat_lt.1 hc₁) (HEX d).toNat
    (UInt8.lt_iff_toNat_lt.1 hd₁)
  rw [UInt8.ofNat_toNat, UInt8.ofNat_toNat] at hh
  rw [hh.1, hh.2]
  exact ⟨hc₂, hd₂⟩

theorem pair_eq_none {c d : UInt8} : pair c d = none ↔ 16 < HEX c ∨ 16 < HEX d := by
  unfold pair
  by_cases h : 16 < HEX c ∨ 16 < HEX d
  · rw [if_pos h]
    exact iff_of_true rfl h
  · rw [if_neg h]
    exact iff_of_false (Option.some_ne_none _) h

theorem pair_zero (c : UInt8) : pair c 0 = none := pair_eq_none.2 (.inr (by decide))

end Digits

section Loops

/-- What `ltohex` writes. -/
def written (x : Bytes) : Bytes :=
  x.flatMap fun b : UInt8 => [hex.getD (b >>> 4).toNat 0, hex.getD (b &&& 0xf).toNat 0]

theorem length_written (x : Bytes) : (written x).length = 2 * x.length := by
  simp [written, Nat.mul_comm]

theorem encodeLoop_eq_some : ∀ (text : Bytes) (i : ℕ) {y : Bytes}, i * 2 ≤ INT_MAX + 1 →
    (encodeLoop i text = some y ↔ (i + text.length) * 2 ≤ INT_MAX + 1 ∧ y = written text)
  | [], i, y, hi => by simp [encodeLoop, written, hi, eq_comm]
  | b :: text, i, y, hi => by
    rw [encodeLoop]
    split_ifs with hlt
    · refine iff_of_false (by simp) fun h => ?_
      rw [length_cons] at h
      omega
    · rw [Option.map_eq_some_iff]
      have ih := fun z => encodeLoop_eq_some text (i + 1) (y := z) (by omega)
      simp only [ih, length_cons]
      constructor
      · rintro ⟨_, ⟨hle, rfl⟩, rfl⟩
        exact ⟨by omega, rfl⟩
      · rintro ⟨hle, rfl⟩
        exact ⟨written text, ⟨by omega, rfl⟩, rfl⟩

theorem decodeLoop_bad : ∀ (l : Bytes) (i : ℕ) {k : ℕ}, k < l.length / 2 * 2 → i + k ≤ INT_MAX →
    16 < HEX (l.getD k 0) → ∃ e msg, decodeLoop i l = some (e, .error msg) ∧ e ≤ i + l.length
  | [], i, k, hk, _, _ => by simp at hk
  | [c], i, k, hk, _, _ => by simp at hk
  | c :: d :: l, i, k, hk, hi, hb => by
    rcases hp : pair c d with _ | b
    · refine ⟨i + 2, "Invalid hex text", by simp only [decodeLoop, hp], ?_⟩
      simp only [length_cons]
      omega
    · have hcd : ¬ (16 < HEX c ∨ 16 < HEX d) := by
        rw [← pair_eq_none, hp]
        simp
      rcases k with _ | _ | k
      · exact absurd (.inl hb) hcd
      · exact absurd (.inr hb) hcd
      · simp only [length_cons] at hk ⊢
        obtain ⟨e, msg, he, hle⟩ := decodeLoop_bad l (i + 2) (k := k) (by omega) (by omega) hb
        refine ⟨e, msg, ?_, by omega⟩
        simp only [decodeLoop, hp]
        rw [if_neg (by omega), he]
        rfl

theorem decodeLoop_good : ∀ (l : Bytes) (i : ℕ), i < INT_MAX → i % 2 = 0 →
    (∀ k < l.length / 2 * 2, i + k ≤ INT_MAX → ¬ 16 < HEX (l.getD k 0)) →
    (INT_MAX < i + l.length / 2 * 2 → decodeLoop i l = none) ∧
    (i + l.length / 2 * 2 ≤ INT_MAX → l.length % 2 = 1 →
      ∃ msg, decodeLoop i l = some (i + l.length + 1, .error msg)) ∧
    (i + l.length / 2 * 2 ≤ INT_MAX → l.length % 2 = 0 →
      ∃ y, decodeLoop i l = some (i + l.length, .ok y) ∧ ((∀ c ∈ l, c ∈ hex) → written y = l))
  | [], i, hi, _, _ => by
    refine ⟨fun h => ?_, fun _ h => ?_, fun _ _ => ⟨[], rfl, fun _ => rfl⟩⟩
    · simp at h
      omega
    · simp at h
  | [c], i, hi, _, _ => by
    refine ⟨fun h => ?_, fun _ _ => ⟨"Invalid hex text", ?_⟩, fun _ h => ?_⟩
    · simp at h
      omega
    · simp only [decodeLoop, pair_zero]
      rfl
    · simp at h
  | c :: d :: l, i, hi, heven, hg => by
    have hmax : INT_MAX % 2 = 1 := rfl
    simp only [length_cons] at hg ⊢
    have hlen : (l.length + 1 + 1) / 2 * 2 = l.length / 2 * 2 + 2 := by omega
    rw [hlen] at hg ⊢
    obtain ⟨b, hp⟩ : ∃ b, pair c d = some b := by
      rw [← Option.ne_none_iff_exists', ne_eq, pair_eq_none, not_or]
      exact ⟨hg 0 (by omega) (by omega), hg 1 (by omega) (by omega)⟩
    simp only [decodeLoop, hp]
    by_cases hover : INT_MAX < i + 2
    · rw [if_pos hover]
      exact ⟨fun _ => rfl, fun h => by omega, fun h => by omega⟩
    · rw [if_neg hover]
      obtain ⟨h₁, h₂, h₃⟩ := decodeLoop_good l (i + 2) (by omega) (by omega) fun k hk hik =>
        hg (k + 2) (by omega) (by omega)
      refine ⟨fun h => ?_, fun h hodd => ?_, fun h hev => ?_⟩
      · rw [h₁ (by omega)]
        rfl
      · obtain ⟨msg, hm⟩ := h₂ (by omega) (by omega)
        refine ⟨msg, ?_⟩
        rw [hm, Option.map_some]
        congr 2
        omega
      · obtain ⟨y, hy, hw⟩ := h₃ (by omega) (by omega)
        refine ⟨b :: y, ?_, fun hhex => ?_⟩
        · rw [hy, Option.map_some]
          congr 2
          omega
        · obtain ⟨hc, hd⟩ := encode_pair (hhex c (by simp)) (hhex d (by simp)) hp
          have hrest := hw fun c hc => hhex c (by simp [hc])
          rw [written, flatMap_cons, hc, hd, ← written, hrest]
          rfl

theorem decodeLoop_written : ∀ (x : Bytes) (i : ℕ), i + 2 * x.length ≤ INT_MAX →
    decodeLoop i (written x) = some (i + 2 * x.length, .ok x)
  | [], i, _ => rfl
  | b :: x, i, hi => by
    rw [length_cons] at hi
    have hw : written (b :: x) =
        hex.getD (b >>> 4).toNat 0 :: hex.getD (b &&& 0xf).toNat 0 :: written x := rfl
    simp only [hw, decodeLoop, pair_encode]
    rw [if_neg (by omega), decodeLoop_written x (i + 2) (by omega), Option.map_some,
      length_cons]
    congr 2
    omega

end Loops

theorem and_two (n : ℕ) : n &&& 2 ≠ 0 ↔ n % 4 = 2 ∨ n % 4 = 3 := by
  have h : n &&& 2 = n % 4 &&& 2 := by
    rw [show n % 4 = n &&& 3 from (Nat.and_two_pow_sub_one_eq_mod n 2).symm, Nat.and_assoc]
    rfl
  have hlt := Nat.mod_lt n (show 0 < 4 by decide)
  rw [h]
  generalize n % 4 = m at hlt ⊢
  interval_cases m <;> decide

theorem hexdecode_eq {s : Bytes} (h : s.length % 4 = 0 ∨ s.length % 4 = 1) :
    hexdecode s = decodeLoop 0 s := by
  rw [hexdecode]
  exact if_neg fun ht => by
    have := (and_two _).1 ht
    omega

theorem hexdecode_size {s : Bytes} (h : s.length % 4 = 2 ∨ s.length % 4 = 3) :
    ∃ msg, hexdecode s = some (0, .error msg) := by
  rw [hexdecode]
  exact ⟨_, if_pos ((and_two _).2 h)⟩

theorem hexencode_eq_some {x s : Bytes} :
    hexencode x = some s ↔ 2 * x.length ≤ INT_MAX + 1 ∧ s = written x := by
  rw [hexencode, encodeLoop_eq_some x 0 (Nat.zero_le _)]
  exact and_congr_left' (by omega)

theorem mem_hex_of_mem_written {x : Bytes} {c : UInt8} (hc : c ∈ written x) : c ∈ hex := by
  obtain ⟨b, -, hc⟩ := mem_flatMap.1 hc
  rcases mem_cons.1 hc with rfl | hc
  · refine (hex_getD _ ?_).1
    have := b.toNat_lt
    rw [UInt8.toNat_shiftRight]
    change b.toNat >>> 4 < 16
    rw [Nat.shiftRight_eq_div_pow]
    omega
  · rw [mem_singleton.1 hc]
    refine (hex_getD _ ?_).1
    rw [UInt8.toNat_and]
    exact Nat.lt_succ_of_le Nat.and_le_right

theorem not_lt_HEX {c : UInt8} (hc : c ∈ hex) : ¬ 16 < HEX c :=
  fun h => absurd (UInt8.lt_trans h (HEX_digit hc).1) (by decide)

theorem good_of_hex {s : Bytes} (hs : ∀ c ∈ s, c ∈ hex) (k : ℕ) (hk : k < s.length) :
    ¬ 16 < HEX (s.getD k 0) := by
  rw [getD_eq_getElem _ _ hk]
  exact not_lt_HEX (hs _ (getElem_mem hk))

theorem roundTrip_iff_even (x : Bytes) : RoundTrip x ↔ x.length % 2 = 0 ∧ 2 * x.length ≤ INT_MAX := by
  have hlen := length_written x
  constructor
  · rintro ⟨s, e, hs, hd⟩
    obtain ⟨hle, rfl⟩ := hexencode_eq_some.1 hs
    have hev : x.length % 2 = 0 := by
      by_contra hodd
      obtain ⟨msg, hm⟩ := hexdecode_size (s := written x) (by omega)
      rw [hm] at hd
      cases hd
    refine ⟨hev, ?_⟩
    by_contra hlt
    -- twice the length is the first number that is no `int`
    rw [hexdecode_eq (by omega), (decodeLoop_good (written x) 0 (by decide) rfl fun k hk _ =>
      good_of_hex (fun c => mem_hex_of_mem_written) k (by omega)).1 (by omega)] at hd
    cases hd
  · rintro ⟨hev, hle⟩
    refine ⟨written x, 2 * x.length, hexencode_eq_some.2 ⟨by omega, rfl⟩, ?_⟩
    have h := decodeLoop_written x 0 (by omega)
    rwa [Nat.zero_add, ← hexdecode_eq (by omega)] at h

section Accepts

variable {s : Bytes}

theorem accepts_error {e : ℕ} {msg : String} (h : hexdecode s = some (e, .error msg)) :
    Accepts s ↔ e ≤ s.length ∧ ¬ IsHex s := by
  constructor
  · rintro ⟨e', r, hd, hle, hiff, -⟩
    rw [h, Option.some.injEq, Prod.mk.injEq] at hd
    obtain ⟨rfl, rfl⟩ := hd
    refine ⟨hle, fun hs => ?_⟩
    obtain ⟨y, hy⟩ := hiff.2 hs
    cases hy
  · rintro ⟨hle, hs⟩
    refine ⟨e, _, h, hle, ⟨?_, fun h => absurd h hs⟩, ?_⟩
    · rintro ⟨y, hy⟩
      cases hy
    · intro y hy
      cases hy

theorem not_isHex_of_bad {n : ℕ} (hn : n ≤ s.length) (h : Bad s n) : ¬ IsHex s := by
  rintro ⟨-, hs⟩
  obtain ⟨k, hk, -, hb⟩ := h
  exact good_of_hex hs k (by omega) hb

theorem accepts_of_bad (h : s.length % 4 = 0 ∨ s.length % 4 = 1)
    (hb : Bad s (s.length / 2 * 2)) : Accepts s := by
  have hnot := not_isHex_of_bad (by omega) hb
  obtain ⟨k, hk, hmax, hbad⟩ := hb
  obtain ⟨e, msg, he, hle⟩ := decodeLoop_bad s 0 hk (by omega) hbad
  rw [← hexdecode_eq h] at he
  exact (accepts_error he).2 ⟨by omega, hnot⟩

theorem accepts_zero (h : s.length % 4 = 0) :
    Accepts s ↔ (s.length ≤ INT_MAX ∧ ∀ c ∈ s, c ∈ hex) ∨ Bad s s.length := by
  have hlen : s.length / 2 * 2 = s.length := by omega
  by_cases hb : Bad s s.length
  · exact iff_of_true (accepts_of_bad (.inl h) (by rwa [hlen])) (.inr hb)
  · rw [or_iff_left hb]
    obtain ⟨h₁, -, h₃⟩ := decodeLoop_good s 0 (by decide) rfl fun k hk hmax h =>
      hb ⟨k, by omega, by omega, h⟩
    rw [← hexdecode_eq (.inl h)] at h₁ h₃
    by_cases hmax : s.length ≤ INT_MAX
    · rw [and_iff_right hmax]
      obtain ⟨y, hy, hw⟩ := h₃ (by omega) (by omega)
      have hen : hexencode y = some s ↔ ∀ c ∈ s, c ∈ hex := by
        rw [hexencode_eq_some]
        constructor
        · rintro ⟨-, hs⟩ c hc
          rw [hs] at hc
          exact mem_hex_of_mem_written hc
        · intro hs
          have hys := congrArg List.length (hw hs)
          rw [length_written] at hys
          exact ⟨by omega, (hw hs).symm⟩
      constructor
      · rintro ⟨e, r, hd, -, -, hall⟩
        rw [hy, Option.some.injEq, Prod.mk.injEq] at hd
        exact hen.1 (hall y hd.2.symm)
      · intro hs
        refine ⟨_, _, hy, by omega, iff_of_true ⟨y, rfl⟩ ⟨?_, hs⟩, ?_⟩
        · rw [Nat.even_iff]
          omega
        · intro y' hy'
          obtain rfl : y = y' := by injection hy'
          exact hen.2 hs
    · refine iff_of_false ?_ fun hle => hmax hle.1
      rintro ⟨e, r, hd, -⟩
      rw [h₁ (by omega)] at hd
      cases hd

theorem accepts_one (h : s.length % 4 = 1) : Accepts s ↔ Bad s (s.length - 1) := by
  have hlen : s.length / 2 * 2 = s.length - 1 := by omega
  by_cases hb : Bad s (s.length - 1)
  · exact iff_of_true (accepts_of_bad (.inr h) (by rwa [hlen])) hb
  · refine iff_of_false ?_ hb
    -- the last digit is taken together with what is behind the text
    obtain ⟨h₁, h₂, -⟩ := decodeLoop_good s 0 (by decide) rfl fun k hk hmax h =>
      hb ⟨k, by omega, by omega, h⟩
    rw [← hexdecode_eq (.inr h)] at h₁ h₂
    by_cases hmax : s.length - 1 ≤ INT_MAX
    · obtain ⟨msg, hm⟩ := h₂ (by omega) (by omega)
      rw [accepts_error hm]
      omega
    · rintro ⟨e, r, hd, -⟩
      rw [h₁ (by omega)] at hd
      cases hd

theorem accepts_size (h : s.length % 4 = 2 ∨ s.length % 4 = 3) : Accepts s ↔ ¬ IsHex s := by
  obtain ⟨msg, hm⟩ := hexdecode_size h
  rw [accepts_error hm, and_iff_right (Nat.zero_le _)]

theorem accepts_iff (s : Bytes) : Accepts s ↔ Proper s := by
  unfold Proper
  obtain h | h | h | h : s.length % 4 = 0 ∨ s.length % 4 = 1 ∨ s.length % 4 = 2 ∨
    s.length % 4 = 3 := by omega
  · simp [accepts_zero h, h]
  · simp [accepts_one h, h]
  · have hev : Even s.length := Nat.even_iff.2 (by omega)
    simp [accepts_size (.inl h), h, IsHex, hev]
  · have hodd : ¬ Even s.length := by
      rw [Nat.even_iff]
      omega
    simp [accepts_size (.inr h), h, IsHex, hodd]

end Accepts

/-- Just which strings come back from their hexadecimal text, and just for which texts the decoder
takes the right ones. -/
theorem hexdecode_hexencode_iff (x s : Bytes) :
    (RoundTrip x ↔ x.length % 2 = 0 ∧ 2 * x.length ≤ INT_MAX) ∧ (Accepts s ↔ Proper s) :=
  ⟨roundTrip_iff_even x, accepts_iff s⟩

/-- A string of one byte does not come back, four letters too many are a text, and a single digit is
read past its end. -/
theorem not_codec_ascii : ¬ RoundTrip (Bytes.ascii "a") ∧ ¬ Accepts (Bytes.ascii "gggg") ∧
    ¬ Accepts (Bytes.ascii "a") := by
  rw [roundTrip_iff_even, accepts_iff, accepts_iff]
  refine ⟨fun h => absurd h.1 (by decide), fun h => ?_, fun h => ?_⟩
  · rcases h.1 rfl with h | ⟨k, hk, -, hb⟩
    · exact absurd h.2 (by decide +kernel)
    · exact absurd hb ((by decide +kernel : ∀ k < 4, ¬ 16 < HEX ((Bytes.ascii "gggg").getD k 0)) k hk)
  · obtain ⟨k, hk, -⟩ := h.2.1 rfl
    exact absurd hk (Nat.not_lt_zero k)

end Hex

end SkynetGame
