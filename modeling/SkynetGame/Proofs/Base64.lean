import SkynetGame.Crypt
import Mathlib.Data.List.GetD

/-!
# Texts with foreign characters

A character that is none of the code is passed over inside of a group only: behind the last group it
begins another one, which the end of the text breaks off. A `=` is never passed over, and with one
more of them a text stands for fewer bytes.
-/

namespace SkynetGame

open List Option

namespace Base64

/-- The second is the first with characters inserted that are none of the alphabet. -/
inductive Inserted : Bytes → Bytes → Prop
  | nil : Inserted [] []
  | keep (c : UInt8) {e s : Bytes} (h : Inserted e s) : Inserted (c :: e) (c :: s)
  | insert {c : UInt8} {e s : Bytes} (hc : c ∉ encoding) (h : Inserted e s) : Inserted e (c :: s)

def Returned (x s : Bytes) : Prop :=
  lb64encode x = some (base64encode x) ∧ lb64decode s = some (.ok x)

/-- An `int` counts the text, no `=` was inserted, and nothing at the end. -/
def Clean (x s : Bytes) : Prop :=
  s.length < 0x80000000 ∧ s.count equals = (base64encode x).count equals ∧
    ∀ c ∈ s.getLast?, c ∈ encoding ∨ c = equals

section Index

theorem b64index_char : ∀ n < 64, b64index (char n) = n := by decide +kernel

theorem b64index_cases : ∀ n < 256, b64index (UInt8.ofNat n) = -1 ∧ UInt8.ofNat n ≠ equals ∨
    b64index (UInt8.ofNat n) = -2 ∧ UInt8.ofNat n = equals ∨
    (b64index (UInt8.ofNat n)).toNat < 64 ∧
      char (b64index (UInt8.ofNat n)).toNat = UInt8.ofNat n := by decide +kernel

theorem char_mem {n : ℕ} (h : n < 64) : char n ∈ encoding := by
  have hlen : encoding.length = 64 := rfl
  rw [char, getD_eq_getElem _ _ (by omega)]
  exact getElem_mem _

theorem exists_char {c : UInt8} (hc : c ∈ encoding) : ∃ n < 64, char n = c := by
  obtain ⟨n, hn, rfl⟩ := mem_iff_getElem.1 hc
  exact ⟨n, hn, getD_eq_getElem _ _ hn⟩

theorem b64index_cases_of (c : UInt8) : b64index c = -1 ∧ c ∉ encoding ∧ c ≠ equals ∨
    b64index c = -2 ∧ c = equals ∨ 0 ≤ b64index c ∧ c ∈ encoding ∧ c ≠ equals := by
  have h := b64index_cases c.toNat c.toNat_lt
  rw [UInt8.ofNat_toNat] at h
  rcases h with ⟨h, hne⟩ | h | ⟨hlt, hc⟩
  · refine .inl ⟨h, fun hc => ?_, hne⟩
    obtain ⟨n, hn, rfl⟩ := exists_char hc
    rw [b64index_char n hn] at h
    omega
  · exact .inr (.inl h)
  · have hi := b64index_char _ hlt
    rw [hc] at hi
    refine .inr (.inr ⟨by omega, hc ▸ char_mem hlt, ?_⟩)
    rintro rfl
    exact absurd hi (by decide)

theorem b64index_eq_neg_one {c : UInt8} : b64index c = -1 ↔ c ∉ encoding ∧ c ≠ equals := by
  rcases b64index_cases_of c with ⟨h, hc⟩ | ⟨h, hc⟩ | ⟨h, hc⟩
  · exact iff_of_true h hc
  · exact iff_of_false (by omega) fun hn => hn.2 hc
  · exact iff_of_false (by omega) fun hn => hn.1 hc.1

theorem b64index_eq_neg_two {c : UInt8} : b64index c = -2 ↔ c = equals := by
  rcases b64index_cases_of c with ⟨h, hc⟩ | ⟨h, hc⟩ | ⟨h, hc⟩
  · exact iff_of_false (by omega) hc.2
  · exact iff_of_true h hc
  · exact iff_of_false (by omega) hc.2

def significant (c : UInt8) : Bool := b64index c != -1

theorem significant_iff {c : UInt8} : significant c = true ↔ b64index c ≠ -1 := bne_iff_ne

end Index

section Loop

theorem decodeLoop_some_getD (g : Option (List ℤ)) {t : Bytes} (ht : t ≠ []) :
    decodeLoop (some (g.getD [])) t = decodeLoop g t := by
  cases t with
  | nil => exact absurd rfl ht
  | cons ch t => cases g <;> rfl

theorem decodeLoop_filter : ∀ (s : Bytes) (g : Option (List ℤ)),
    (∀ c ∈ s.getLast?, b64index c ≠ -1) → decodeLoop g s = decodeLoop g (s.filter significant)
  | [], g, _ => rfl
  | ch :: s, g, hlast => by
    have hlast' : ∀ c ∈ s.getLast?, b64index c ≠ -1 := by
      intro c hc
      refine hlast c ?_
      rw [getLast?_cons, mem_def.1 hc]
      rfl
    by_cases hch : b64index ch = -1
    · have hs : s ≠ [] := by
        rintro rfl
        exact hlast ch rfl hch
      have hf : s.filter significant ≠ [] := by
        intro hnil
        have hmem := getLast_mem hs
        have hc := hlast' _ (getLast?_eq_getLast_of_ne_nil hs)
        have hin := mem_filter.2 ⟨hmem, significant_iff.2 hc⟩
        rw [hnil] at hin
        cases hin
      rw [filter_cons_of_neg (by simp [significant, hch]), ← decodeLoop_some_getD g hf,
        ← decodeLoop_filter s _ hlast', decodeLoop]
      exact if_pos hch
    · rw [filter_cons_of_pos (significant_iff.2 hch)]
      simp only [decodeLoop, if_neg hch, ← decodeLoop_filter s _ hlast']

theorem decodeLoop_foreign : ∀ (s : Bytes) (g : Option (List ℤ)) {c : UInt8},
    c ∈ s.getLast? → b64index c = -1 → decodeLoop g s = none
  | [], g, c, hc, _ => by cases hc
  | [ch], g, c, hc, hb => by
    obtain rfl : ch = c := some.inj hc
    simp only [decodeLoop, if_pos hb]
  | ch :: ch' :: s, g, c, hc, hb => by
    have hc' : c ∈ (ch' :: s).getLast? := hc
    have hrec := fun g => decodeLoop_foreign (ch' :: s) g hc' hb
    rw [decodeLoop]
    split_ifs with h₁ h₂
    · exact hrec _
    · exact hrec _
    · rw [hrec none]
      cases decodeGroup _ <;> rfl

theorem decodeGroup_length {c : List ℤ} {out : Bytes} (h : decodeGroup c = some out) :
    out.length + c.count (-2) = 3 := by
  unfold decodeGroup at h
  dsimp only at h
  split at h
  · obtain rfl := some.inj h
    simp [*]
  · split_ifs at h
    obtain rfl := some.inj h
    simp [*]
  · split_ifs at h
    obtain rfl := some.inj h
    simp [*]
  · cases h

theorem decodeLoop_length : ∀ (s : Bytes) (g : Option (List ℤ)) {y : Bytes},
    decodeLoop g s = some y → (g.getD []).length ≤ 3 →
    4 * (y.length + s.count equals + (g.getD []).count (-2)) =
      3 * (s.countP significant + (g.getD []).length)
  | [], g, y, h, _ => by
    cases g with
    | none =>
      obtain rfl := some.inj h
      rfl
    | some c => cases h
  | ch :: s, g, y, h, hg => by
    simp only [decodeLoop] at h
    by_cases hch : b64index ch = -1
    · rw [if_pos hch] at h
      have ih := decodeLoop_length s _ h hg
      rw [countP_cons_of_neg (by simp [significant, hch]),
        count_cons_of_ne (b64index_eq_neg_one.1 hch).2]
      exact ih
    · have hcount : s.count equals + (g.getD [] ++ [b64index ch]).count (-2) =
          (ch :: s).count equals + (g.getD []).count (-2) := by
        rw [count_append]
        by_cases he : ch = equals
        · have h1 : (ch :: s).count equals = s.count equals + 1 := by
            rw [he, count_cons_self]
          have h2 : [b64index ch].count (-2) = 1 := by
            rw [b64index_eq_neg_two.2 he]
            rfl
          omega
        · have hne : b64index ch ≠ -2 := fun h => he (b64index_eq_neg_two.1 h)
          have h0 : [b64index ch].count (-2) = 0 :=
            count_eq_zero_of_not_mem (by simpa using hne.symm)
          rw [count_cons_of_ne he, h0]
          rfl
      rw [if_neg hch] at h
      rw [countP_cons_of_pos (significant_iff.2 hch)]
      by_cases hlen : (g.getD []).length < 3
      · rw [if_pos hlen] at h
        have ih := decodeLoop_length s _ h (by simp; omega)
        simp only [getD_some, length_append, length_singleton] at ih
        omega
      · rw [if_neg hlen, bind_eq_some_iff] at h
        obtain ⟨out, hout, h⟩ := h
        obtain ⟨rest, hrest, rfl⟩ := map_eq_some_iff.1 h
        have ih := decodeLoop_length s none hrest (by simp)
        have ho := decodeGroup_length hout
        simp only [getD_none, count_nil, length_nil, length_append] at ih ⊢
        omega

end Loop

section RoundTrip

theorem decodeLoop_group {a b c d : UInt8} {text : Bytes}
    (h : ∀ ch ∈ a :: b :: c :: d :: text, b64index ch ≠ -1) :
    decodeLoop none (a :: b :: c :: d :: text) =
      (decodeGroup [b64index a, b64index b, b64index c, b64index d]).bind fun out =>
        (decodeLoop none text).map fun rest => out ++ rest := by
  simp [decodeLoop, h a, h b, h c, h d]

theorem b64index_char_ne {n : ℕ} (h : n < 64) : b64index (char n) ≠ -1 := by
  rw [b64index_char n h]
  omega

theorem b64index_equals : b64index equals = -2 := by decide

theorem shiftLeft_or {n k : ℕ} (m : ℕ) (hn : n < 2 ^ k) : m <<< k ||| n = m * 2 ^ k + n := by
  rw [← Nat.shiftLeft_add_eq_or_of_lt hn, Nat.shiftLeft_eq]

theorem and_low (n k : ℕ) : n &&& (2 ^ k - 1) = n % 2 ^ k := Nat.and_two_pow_sub_one_eq_mod n k

theorem toUInt8_eq {n : ℕ} {b : UInt8} (h : n % 2 ^ 8 = b.toNat) : n.toUInt8 = b := by
  rw [← UInt8.toNat_inj]
  exact h

theorem decodeGroup_full (a b c d : ℕ) :
    decodeGroup [a, b, c, d] =
      let v := a <<< 18 ||| b <<< 12 ||| c <<< 6 ||| d
      some [(v >>> 16).toUInt8, (v >>> 8 &&& 0xff).toUInt8, (v &&& 0xff).toUInt8] := by
  simp [decodeGroup]

theorem decodeGroup_padding (a b c : ℕ) (hc : c &&& 3 = 0) :
    decodeGroup [a, b, c, -2] =
      let v := a <<< 10 ||| b <<< 4 ||| c >>> 2
      some [(v >>> 8).toUInt8, (v &&& 0xff).toUInt8] := by
  simp [decodeGroup, hc]

theorem decodeGroup_paddings (a b : ℕ) (hb : b &&& 0xf = 0) :
    decodeGroup [a, b, -2, -2] = some [(a <<< 2 ||| b >>> 4).toUInt8] := by
  simp [decodeGroup, hb]

theorem toNat_three (x y z : UInt8) : x.toNat <<< 16 ||| y.toNat <<< 8 ||| z.toNat =
    x.toNat * 2 ^ 16 + (y.toNat * 2 ^ 8 + z.toNat) := by
  have hy := y.toNat_lt
  have hz := z.toNat_lt
  rw [Nat.or_assoc, shiftLeft_or y.toNat (by omega), shiftLeft_or x.toNat (by omega)]

theorem decodeGroup_three (x y z : UInt8) :
    let v := x.toNat <<< 16 ||| y.toNat <<< 8 ||| z.toNat
    decodeGroup [b64index (char (v >>> 18)), b64index (char (v >>> 12 &&& 0x3f)),
      b64index (char (v >>> 6 &&& 0x3f)), b64index (char (v &&& 0x3f))] = some [x, y, z] := by
  intro v
  have hx := x.toNat_lt
  have hy := y.toNat_lt
  have hz := z.toNat_lt
  have hv : v = x.toNat * 2 ^ 16 + (y.toNat * 2 ^ 8 + z.toNat) := toNat_three x y z
  simp only [show (0x3f : ℕ) = 2 ^ 6 - 1 from rfl, and_low, Nat.shiftRight_eq_div_pow]
  rw [b64index_char _ (by omega), b64index_char _ (by omega), b64index_char _ (by omega),
    b64index_char _ (by omega), decodeGroup_full]
  have hw : (v / 2 ^ 18) <<< 18 ||| (v / 2 ^ 12 % 2 ^ 6) <<< 12 ||| (v / 2 ^ 6 % 2 ^ 6) <<< 6 |||
      v % 2 ^ 6 = v := by
    rw [Nat.or_assoc, Nat.or_assoc, shiftLeft_or (v / 2 ^ 6 % 2 ^ 6) (by omega),
      shiftLeft_or (v / 2 ^ 12 % 2 ^ 6) (by omega), shiftLeft_or _ (by omega)]
    omega
  simp only [hw, show (0xff : ℕ) = 2 ^ 8 - 1 from rfl, and_low, Nat.shiftRight_eq_div_pow]
  rw [toUInt8_eq (b := x) (by omega), toUInt8_eq (b := y) (by omega),
    toUInt8_eq (b := z) (by omega)]

theorem decodeGroup_two (x y : UInt8) :
    let v := x.toNat <<< 8 ||| y.toNat
    decodeGroup [b64index (char (v >>> 10)), b64index (char (v >>> 4 &&& 0x3f)),
      b64index (char ((v &&& 0xf) <<< 2)), b64index equals] = some [x, y] := by
  intro v
  have hx := x.toNat_lt
  have hy := y.toNat_lt
  have hv : v = x.toNat * 2 ^ 8 + y.toNat := shiftLeft_or _ (by omega)
  simp only [show (0x3f : ℕ) = 2 ^ 6 - 1 from rfl, show (0xf : ℕ) = 2 ^ 4 - 1 from rfl, and_low,
    Nat.shiftRight_eq_div_pow, Nat.shiftLeft_eq]
  rw [b64index_char _ (by omega), b64index_char _ (by omega), b64index_char _ (by omega),
    b64index_equals, decodeGroup_padding]
  · have hw : (v / 2 ^ 10) <<< 10 ||| (v / 2 ^ 4 % 2 ^ 6) <<< 4 ||| v % 2 ^ 4 * 2 ^ 2 / 2 ^ 2 =
        v := by
      rw [Nat.or_assoc, shiftLeft_or (v / 2 ^ 4 % 2 ^ 6) (by omega), shiftLeft_or _ (by omega)]
      omega
    simp only [show (0xff : ℕ) = 2 ^ 8 - 1 from rfl, and_low, Nat.shiftRight_eq_div_pow, hw]
    rw [toUInt8_eq (b := x) (by omega), toUInt8_eq (b := y) (by omega)]
  · rw [show (3 : ℕ) = 2 ^ 2 - 1 from rfl, and_low]
    omega

theorem decodeGroup_one (x : UInt8) :
    let v := x.toNat
    decodeGroup [b64index (char (v >>> 2)), b64index (char ((v &&& 3) <<< 4)), b64index equals,
      b64index equals] = some [x] := by
  intro v
  have hx : v < 256 := x.toNat_lt
  simp only [show (3 : ℕ) = 2 ^ 2 - 1 from rfl, and_low, Nat.shiftRight_eq_div_pow,
    Nat.shiftLeft_eq]
  rw [b64index_char _ (by omega), b64index_char _ (by omega), b64index_equals,
    decodeGroup_paddings]
  · rw [Nat.shiftRight_eq_div_pow, shiftLeft_or _ (by omega), toUInt8_eq (b := x)]
    change _ = v
    omega
  · rw [show (0xf : ℕ) = 2 ^ 4 - 1 from rfl, and_low]
    omega

theorem and_lt (n k : ℕ) : n &&& k < k + 1 := Nat.lt_succ_of_le Nat.and_le_right

theorem b64index_base64encode : ∀ (x : Bytes), ∀ c ∈ base64encode x, b64index c ≠ -1
  | x :: y :: z :: text, c, hc => by
    rw [base64encode] at hc
    rcases mem_append.1 hc with hc | hc
    · have hx := x.toNat_lt
      have hy := y.toNat_lt
      have hz := z.toNat_lt
      simp only [mem_cons, not_mem_nil, or_false] at hc
      rcases hc with rfl | rfl | rfl | rfl
      · refine b64index_char_ne ?_
        rw [toNat_three, Nat.shiftRight_eq_div_pow]
        omega
      all_goals exact b64index_char_ne (and_lt _ 0x3f)
    · exact b64index_base64encode text c hc
  | [x, y], c, hc => by
    have hx := x.toNat_lt
    have hy := y.toNat_lt
    rw [base64encode] at hc
    simp only [mem_cons, not_mem_nil, or_false] at hc
    rcases hc with rfl | rfl | rfl | rfl
    · refine b64index_char_ne ?_
      rw [shiftLeft_or _ (by omega), Nat.shiftRight_eq_div_pow]
      omega
    · exact b64index_char_ne (and_lt _ 0x3f)
    · refine b64index_char_ne ?_
      have := and_lt (x.toNat <<< 8 ||| y.toNat) 0xf
      rw [Nat.shiftLeft_eq]
      omega
    · rw [b64index_equals]
      decide
  | [x], c, hc => by
    have hx := x.toNat_lt
    rw [base64encode] at hc
    simp only [mem_cons, not_mem_nil, or_false] at hc
    rcases hc with rfl | rfl | rfl | rfl
    · refine b64index_char_ne ?_
      rw [Nat.shiftRight_eq_div_pow]
      omega
    · refine b64index_char_ne ?_
      have := and_lt x.toNat 3
      rw [Nat.shiftLeft_eq]
      omega
    all_goals
      rw [b64index_equals]
      decide
  | [], c, hc => by cases hc

theorem decodeLoop_base64encode : ∀ x : Bytes, decodeLoop none (base64encode x) = some x
  | x :: y :: z :: text => by
    have h := b64index_base64encode (x :: y :: z :: text)
    rw [base64encode] at h ⊢
    dsimp only [cons_append, nil_append] at h ⊢
    rw [decodeLoop_group h, decodeGroup_three, decodeLoop_base64encode text]
    rfl
  | [x, y] => by
    have h := b64index_base64encode [x, y]
    rw [base64encode] at h ⊢
    rw [decodeLoop_group h, decodeGroup_two]
    rfl
  | [x] => by
    have h := b64index_base64encode [x]
    rw [base64encode] at h ⊢
    rw [decodeLoop_group h, decodeGroup_one]
    rfl
  | [] => rfl

end RoundTrip

section Inserted

theorem Inserted.sublist {e s : Bytes} (h : Inserted e s) : e.Sublist s := by
  induction h with
  | nil => exact .slnil
  | keep c _ ih => exact ih.cons_cons c
  | insert _ _ ih => exact ih.cons _

theorem Inserted.filter_eq {e s : Bytes} (h : Inserted e s) (he : ∀ c ∈ e, b64index c ≠ -1)
    (hcount : s.count equals = e.count equals) : s.filter significant = e := by
  induction h with
  | nil => rfl
  | keep c h ih =>
    rw [count_cons, count_cons] at hcount
    rw [filter_cons_of_pos (significant_iff.2 (he c (by simp))),
      ih (fun c hc => he c (by simp [hc])) (by omega)]
  | @insert c e s hc h ih =>
    have hle := h.sublist.count_le equals
    by_cases heq : c = equals
    · rw [heq, count_cons_self] at hcount
      omega
    · rw [count_cons_of_ne heq] at hcount
      have hnot : significant c = false := by
        simpa [significant] using b64index_eq_neg_one.2 ⟨hc, heq⟩
      rw [filter_cons_of_neg (by simp [hnot]), ih he hcount]

theorem Inserted.countP_eq {e s : Bytes} (h : Inserted e s) :
    s.countP significant + e.count equals = e.countP significant + s.count equals := by
  induction h with
  | nil => rfl
  | keep c h ih =>
    rw [countP_cons, countP_cons, count_cons, count_cons]
    omega
  | @insert c e s hc h ih =>
    rw [countP_cons, count_cons]
    by_cases heq : c = equals
    · have hsig : significant c = true := by
        rw [significant_iff, heq, b64index_equals]
        decide
      rw [if_pos hsig, if_pos (by simpa using heq)]
      omega
    · have hnot : significant c = false := by
        simpa [significant] using b64index_eq_neg_one.2 ⟨hc, heq⟩
      rw [if_neg (by simp [hnot]), if_neg (by simpa using heq)]
      exact ih

end Inserted

theorem length_base64encode : ∀ x : Bytes, (base64encode x).length = (x.length + 2) / 3 * 4
  | x :: y :: z :: text => by
    rw [base64encode, length_append, length_base64encode text]
    simp only [length_cons, length_nil]
    omega
  | [x, y] => by simp [base64encode]
  | [x] => by simp [base64encode]
  | [] => rfl

theorem lb64decode_eq_some {s y : Bytes} :
    lb64decode s = some (.ok y) ↔ s.length < 0x80000000 ∧ decodeLoop none s = some y := by
  rw [lb64decode, base64decode]
  by_cases hlt : s.length < 0x80000000
  · rw [if_pos hlt, and_iff_right hlt]
    cases decodeLoop none s with
    | none => simp
    | some x => simp
  · rw [if_neg hlt]
    exact iff_of_false (by simp) fun h => hlt h.1

theorem returned_iff {x s : Bytes} (h : Inserted (base64encode x) s) :
    Returned x s ↔ Clean x s := by
  have hlen := h.sublist.length_le
  rw [length_base64encode] at hlen
  constructor
  · rintro ⟨-, hd⟩
    obtain ⟨hlt, hd⟩ := lb64decode_eq_some.1 hd
    refine ⟨hlt, ?_, fun c hc => ?_⟩
    · -- one more `=` is one more character, and a byte less
      have h₁ := decodeLoop_length _ none hd (by simp)
      have h₂ := decodeLoop_length _ none (decodeLoop_base64encode x) (by simp)
      have h₃ := h.countP_eq
      simp only [getD_none, count_nil, length_nil] at h₁ h₂
      omega
    · by_contra hnot
      rw [not_or] at hnot
      rw [decodeLoop_foreign s none hc (b64index_eq_neg_one.2 hnot)] at hd
      cases hd
  · rintro ⟨hlt, hcount, hlast⟩
    refine ⟨if_pos ?_, lb64decode_eq_some.2 ⟨hlt, ?_⟩⟩
    · exact lt_of_le_of_lt hlen hlt
    · rw [decodeLoop_filter s none, h.filter_eq (b64index_base64encode x) hcount,
        decodeLoop_base64encode]
      intro c hc hb
      have hnot := b64index_eq_neg_one.1 hb
      exact (hlast c hc).elim hnot.1 hnot.2

theorem length_le_decode_sz {s y : Bytes} (h : lb64decode s = some (.ok y)) :
    y.length ≤ decode_sz s := by
  have h₁ := decodeLoop_length s none (lb64decode_eq_some.1 h).2 (by simp)
  have h₂ := countP_le_length (p := significant) (l := s)
  simp only [getD_none, count_nil, length_nil] at h₁
  rw [decode_sz]
  omega

/-- Just the texts that come back, of those that were made from a code, and the size of any. -/
theorem returned_iff_of_inserted {x s : Bytes} (h : Inserted (base64encode x) s) (t : Bytes) :
    (Returned x s ↔ Clean x s) ∧ ∀ y, lb64decode t = some (.ok y) → y.length ≤ decode_sz t :=
  ⟨returned_iff h, fun _ => length_le_decode_sz⟩

theorem base64encode_zero : base64encode [0] = Bytes.ascii "AA==" := by
  rw [base64encode]
  decide

/-- With a line break inside it comes back, -/
theorem returned_of_inside : Returned [0] (Bytes.ascii "A\nA==") := by
  have h : Inserted (base64encode [0]) (Bytes.ascii "A\nA==") := by
    rw [base64encode_zero]
    exact .keep _ (.insert (by decide) (.keep _ (.keep _ (.keep _ .nil))))
  refine ((returned_iff_of_inserted h []).1).2 ?_
  unfold Clean
  rw [base64encode_zero]
  decide +kernel

/-- and with one at the end it does not. -/
theorem not_returned_of_end :
    Inserted (base64encode [0]) (Bytes.ascii "AA==\n") ∧ ¬ Returned [0] (Bytes.ascii "AA==\n") := by
  have h : Inserted (base64encode [0]) (Bytes.ascii "AA==\n") := by
    rw [base64encode_zero]
    exact .keep _ (.keep _ (.keep _ (.keep _ (.insert (by decide) .nil))))
  refine ⟨h, fun hr => ?_⟩
  have hlast := ((returned_iff h).1 hr).2.2 10 rfl
  exact absurd hlast (by decide)

end Base64

end SkynetGame
