import SkynetGame.Crypt

/-!
# Both sides of a key exchange get the same secret

One addition and one doubling next to the modulus are exact, although the words wrap. So the loop of
`mul_mod_p` multiplies modulo `P` and `pow_mod_p` raises to a power. A power of the generator is
prime to `P`, hence never zero, and what is sent is always a key that the other side takes.
-/

namespace SkynetGame

namespace Crypt

theorem P_toNat : P.toNat = 2 ^ 64 - 59 := rfl

@[simp] theorem zero_toNat : (0 : QWord).toNat = 0 := rfl

@[simp] theorem one_toNat : (1 : QWord).toNat = 1 := rfl

theorem addModP_toNat {m a : QWord} (hm : m < P) (ha : a < P) :
    (addModP m a).toNat = (m.toNat + a.toNat) % P.toNat := by
  have hP := P_toNat
  rw [BitVec.lt_def] at hm ha
  have ht : (P - a).toNat = P.toNat - a.toNat := BitVec.toNat_sub_of_le (Nat.le_of_lt ha)
  rw [addModP]
  split_ifs with h
  · rw [ge_iff_le, BitVec.le_def, ht] at h
    rw [BitVec.toNat_sub_of_le (by rwa [BitVec.le_def, ht]), ht, Nat.mod_eq_sub_mod (by omega),
      Nat.mod_eq_of_lt (by omega)]
    omega
  · rw [ge_iff_le, BitVec.le_def, ht] at h
    rw [BitVec.toNat_add, Nat.mod_eq_of_lt (by omega), Nat.mod_eq_of_lt (by omega)]

/-- Doubling and taking `P` off is what adding the number to itself comes to, also where the double
does not fit the word. -/
theorem doubleModP_eq (a : QWord) : doubleModP a = addModP a a := by
  have htwo : a * 2 = a + a := BitVec.mul_two
  have hsub : a + a - P = a - (P - a) := by bv_omega
  rw [doubleModP, addModP, htwo, hsub]

theorem lt_P_of_toNat {a : QWord} {n : ℕ} (h : a.toNat = n % P.toNat) : a < P := by
  rw [BitVec.lt_def, h]
  exact Nat.mod_lt _ (by rw [P_toNat]; norm_num)

theorem addModP_lt {m a : QWord} (hm : m < P) (ha : a < P) : addModP m a < P :=
  lt_P_of_toNat (addModP_toNat hm ha)

theorem mulModPLoop_toNat (a b m : QWord) (ha : a < P) (hm : m < P) :
    (mulModPLoop a b m).toNat = (m.toNat + a.toNat * b.toNat) % P.toNat := by
  induction a, b, m using mulModPLoop.induct with
  | case1 a m =>
    rw [mulModPLoop, dif_pos rfl, zero_toNat, Nat.mul_zero, Nat.add_zero,
      Nat.mod_eq_of_lt (BitVec.lt_def.1 hm)]
  | case2 a b m hb ih =>
    have hdouble : (doubleModP a).toNat = (a.toNat + a.toNat) % P.toNat := by
      rw [doubleModP_eq, addModP_toNat ha ha]
    have hshift : (b >>> 1).toNat = b.toNat / 2 := by
      rw [BitVec.toNat_ushiftRight, Nat.shiftRight_eq_div_pow, pow_one]
    have hbit : (b &&& 1 ≠ 0) ↔ b.toNat % 2 = 1 := by
      rw [Ne, ← BitVec.toNat_inj, BitVec.toNat_and, one_toNat,
        Nat.and_one_is_mod, zero_toNat]
      omega
    simp only [dite_eq_ite] at ih
    rw [mulModPLoop, dif_neg hb, ih (lt_P_of_toNat hdouble) (by split_ifs; exacts [addModP_lt hm ha, hm]), hdouble, hshift]
    have hmul : (a.toNat + a.toNat) % P.toNat * (b.toNat / 2)
        ≡ a.toNat * (2 * (b.toNat / 2)) [MOD P.toNat] := by
      refine ((Nat.mod_modEq _ _).mul_right _).trans ?_
      rw [show (a.toNat + a.toNat) * (b.toNat / 2) = a.toNat * (2 * (b.toNat / 2)) by ring]
    split_ifs with hodd
    · have hsum : (addModP m a).toNat ≡ m.toNat + a.toNat [MOD P.toNat] := by
        rw [addModP_toNat hm ha]
        exact Nat.mod_modEq _ _
      have hval : m.toNat + a.toNat + a.toNat * (2 * (b.toNat / 2))
          = m.toNat + a.toNat * b.toNat := by
        have hb₂ : b.toNat = 2 * (b.toNat / 2) + 1 := by have := hbit.1 hodd; omega
        conv_rhs => rw [hb₂]
        ring
      have := hsum.add hmul
      rwa [hval] at this
    · have hval : m.toNat + a.toNat * (2 * (b.toNat / 2)) = m.toNat + a.toNat * b.toNat := by
        rw [show 2 * (b.toNat / 2) = b.toNat by have := hbit.not.1 hodd; omega]
      have := (Nat.ModEq.refl m.toNat).add hmul
      rwa [hval] at this

theorem mulModP_toNat {a : QWord} (ha : a < P) (b : QWord) :
    (mulModP a b).toNat = a.toNat * b.toNat % P.toNat := by
  rw [mulModP, mulModPLoop_toNat a b 0 ha (by decide), zero_toNat, Nat.zero_add]

theorem powModPRec_eq {a : QWord} (ha : a < P) {b : QWord} (hb : b ≠ 0) :
    ∃ r, powModPRec a b = some r ∧ r.toNat = a.toNat ^ b.toNat % P.toNat := by
  induction b using powModPRec.induct with
  | case1 => exact absurd rfl hb
  | case2 _ =>
    refine ⟨a, by rw [powModPRec, dif_neg hb, if_pos rfl], ?_⟩
    rw [one_toNat, pow_one, Nat.mod_eq_of_lt (BitVec.lt_def.1 ha)]
  | case3 b _ hone ih =>
    have hshift : (b >>> 1).toNat = b.toNat / 2 := by
      rw [BitVec.toNat_ushiftRight, Nat.shiftRight_eq_div_pow, pow_one]
    have hne : b >>> 1 ≠ 0 := by
      intro h
      have h₁ : b.toNat ≠ 1 := fun h₁ => hone (BitVec.eq_of_toNat_eq h₁)
      have h₀ : b.toNat ≠ 0 := fun h₀ => hb (BitVec.eq_of_toNat_eq h₀)
      have : b.toNat / 2 = 0 := by rw [← hshift, h, zero_toNat]
      omega
    obtain ⟨t, ht, htv⟩ := ih hne
    have hsq : (mulModP t t).toNat = a.toNat ^ (2 * (b.toNat / 2)) % P.toNat := by
      rw [mulModP_toNat (lt_P_of_toNat htv), htv, ← Nat.mul_mod, hshift, ← pow_add, Nat.two_mul]
    have hbit : (b % 2 ≠ 0) ↔ b.toNat % 2 = 1 := by
      rw [Ne, ← BitVec.toNat_inj, BitVec.toNat_umod, zero_toNat,
        show (2 : QWord).toNat = 2 from rfl]
      omega
    rw [powModPRec, dif_neg hb, if_neg hone, ht]
    refine ⟨_, rfl, ?_⟩
    simp only []
    split_ifs with hodd
    · have hb₂ : b.toNat = 2 * (b.toNat / 2) + 1 := by have := hbit.1 hodd; omega
      conv_rhs => rw [hb₂, pow_succ]
      rw [mulModP_toNat (lt_P_of_toNat hsq), hsq, Nat.mod_mul_mod]
    · rw [hsq, show 2 * (b.toNat / 2) = b.toNat by have := hbit.not.1 hodd; omega]

theorem powModP_eq {a b : QWord} (ha : a < P) (hb : b ≠ 0) :
    ∃ r, powModP a b = some r ∧ r.toNat = a.toNat ^ b.toNat % P.toNat := by
  have hle : ¬ a > P := by rw [gt_iff_lt, BitVec.lt_def] at *; omega
  rw [powModP, if_neg hle]
  exact powModPRec_eq ha hb

@[simp] theorem length_push64 (r : QWord) : (push64 r).length = 8 := Endian.length_le 8 _

@[simp] theorem read64_push64 (r : QWord) : read64 (push64 r) = r := by
  rw [read64, push64, Endian.ofLe_le_of_lt r.isLt, BitVec.ofNat_toNat, BitVec.setWidth_eq]

theorem read64_toNat {x : Bytes} (hx : x.length = 8) : (read64 x).toNat = Endian.ofLe x := by
  rw [read64, BitVec.toNat_ofNat, Nat.mod_eq_of_lt]
  have := Endian.ofLe_lt x
  rwa [hx] at this

theorem read64_ne_zero {x : Bytes} (hx : x.length = 8) (h : Endian.ofLe x ≠ 0) : read64 x ≠ 0 := by
  intro hr
  rw [← read64_toNat hx, hr] at h
  exact h rfl

theorem pow_G_mod_ne_zero (n : ℕ) : 5 ^ n % P.toNat ≠ 0 := by
  intro h
  have hcop : Nat.Coprime P.toNat (5 ^ n) := Nat.Coprime.pow_right n (by rw [P_toNat]; decide)
  have hone : P.toNat = 1 := Nat.eq_one_of_dvd_coprimes hcop dvd_rfl (Nat.dvd_of_mod_eq_zero h)
  rw [P_toNat] at hone
  omega

theorem dhexchange_eq {x : Bytes} (hx : x.length = 8) (h : Endian.ofLe x ≠ 0) :
    ∃ r, dhexchange x = some (.ok (push64 r)) ∧ r.toNat = 5 ^ Endian.ofLe x % P.toNat := by
  have hne := read64_ne_zero hx h
  obtain ⟨r, hr, hv⟩ := powModP_eq (a := G) (by decide) hne
  refine ⟨r, ?_, ?_⟩
  · rw [dhexchange, if_neg (not_not.2 hx), if_neg hne, hr]
    rfl
  · rw [hv, read64_toNat hx]
    rfl

theorem dhsecret_eq {r : QWord} {m : ℕ} (hr : r.toNat = 5 ^ m % P.toNat) {y : Bytes}
    (hy : y.length = 8) (h : Endian.ofLe y ≠ 0) :
    ∃ s, dhsecret (push64 r) y = some (.ok (push64 s))
      ∧ s.toNat = 5 ^ (m * Endian.ofLe y) % P.toNat := by
  have hne := read64_ne_zero hy h
  have hr₀ : r ≠ 0 := by
    rintro rfl
    exact pow_G_mod_ne_zero m hr.symm
  obtain ⟨s, hs, hv⟩ := powModP_eq (lt_P_of_toNat hr) hne
  refine ⟨s, ?_, ?_⟩
  · rw [dhsecret, if_neg (by rw [length_push64]; decide), if_neg (not_not.2 hy), read64_push64,
      if_neg (not_or.2 ⟨hr₀, hne⟩), hs]
    rfl
  · rw [hv, hr, read64_toNat hy, ← Nat.pow_mod, pow_mul]

/-- For all nonzero keys of 64 bits neither side raises an error, and both get the generator to the
product of the keys. -/
theorem secret_agreed {x y : Bytes} (hx : x.length = 8) (hy : y.length = 8)
    (hx₀ : Endian.ofLe x ≠ 0) (hy₀ : Endian.ofLe y ≠ 0) :
    ∃ ex ey secret, dhexchange x = some (.ok ex) ∧ dhexchange y = some (.ok ey)
      ∧ dhsecret ex y = some (.ok secret) ∧ dhsecret ey x = some (.ok secret)
      ∧ secret.length = 8
      ∧ Endian.ofLe secret = 5 ^ (Endian.ofLe x * Endian.ofLe y) % (2 ^ 64 - 59) := by
  obtain ⟨rx, hex, hrx⟩ := dhexchange_eq hx hx₀
  obtain ⟨ry, hey, hry⟩ := dhexchange_eq hy hy₀
  obtain ⟨s, hs, hsv⟩ := dhsecret_eq hrx hy hy₀
  obtain ⟨s', hs', hsv'⟩ := dhsecret_eq hry hx hx₀
  have heq : s' = s := by
    rw [← BitVec.toNat_inj, hsv, hsv', Nat.mul_comm]
  subst heq
  refine ⟨_, _, _, hex, hey, hs, hs', length_push64 _, ?_⟩
  rw [push64, Endian.ofLe_le_of_lt s'.isLt, hsv]
  rfl

theorem secret_agreed_small :
    ∃ ex ey secret, dhexchange [2, 0, 0, 0, 0, 0, 0, 0] = some (.ok ex)
      ∧ dhexchange [0, 0, 0, 0, 0, 0, 0, 128] = some (.ok ey)
      ∧ dhsecret ex [0, 0, 0, 0, 0, 0, 0, 128] = some (.ok secret)
      ∧ dhsecret ey [2, 0, 0, 0, 0, 0, 0, 0] = some (.ok secret) ∧ secret.length = 8
      ∧ Endian.ofLe secret = 5 ^ (Endian.ofLe [2, 0, 0, 0, 0, 0, 0, 0]
        * Endian.ofLe [0, 0, 0, 0, 0, 0, 0, 128]) % (2 ^ 64 - 59) :=
  secret_agreed rfl rfl (by decide) (by decide)

end Crypt

end SkynetGame
