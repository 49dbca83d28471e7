import SkynetGame.Proofs.Crypt

/-!
# Modular powers of any word

A word above `P` is reduced first, `P` itself is not. Next to it the arithmetic of the loop is still
exact: `P` is doubled to itself, and adding it changes nothing. So the powers of `P` are right from
the second one on, and only the first is the number itself.
-/

namespace SkynetGame

namespace Crypt

/-- The states in which the loop of `mul_mod_p` takes a turn. -/
def loopStates (a b m : QWord) : List (QWord × QWord × QWord) :=
  if _h : b = 0 then []
  else (a, b, m) :: loopStates (doubleModP a) (b >>> 1) (if b &&& 1 ≠ 0 then addModP m a else m)
termination_by b.toNat
decreasing_by exact shiftRight_lt _h

/-- The calls of `mul_mod_p` that `pow_mod_p` makes. -/
def mulCalls (a b : QWord) : List (QWord × QWord) :=
  if _h : b = 0 ∨ b = 1 then []
  else mulCalls a (b >>> 1) ++ (powModPRec a (b >>> 1)).toList.flatMap fun t =>
    (t, t) :: if b % 2 ≠ 0 then [(mulModP t t, a)] else []
termination_by b.toNat
decreasing_by exact shiftRight_lt fun h => _h (.inl h)

/-- Neither the addition nor the doubling of a turn changes the residue. -/
def Exact (st : QWord × QWord × QWord) : Prop :=
  (doubleModP st.1).toNat ≡ 2 * st.1.toNat [MOD P.toNat] ∧
    (st.2.1 &&& 1 ≠ 0 → (addModP st.2.2 st.1).toNat ≡ st.2.2.toNat + st.1.toNat [MOD P.toNat])

/-- What is claimed of `powmodp`: the canonical residue, and no carry lost on the way. -/
def Canonical (a b : QWord) : Prop :=
  (∃ r, powModP a b = some r ∧ r.toNat < P.toNat ∧ r.toNat = a.toNat ^ b.toNat % P.toNat) ∧
    ∀ c ∈ mulCalls (if a > P then a % P else a) b, ∀ st ∈ loopStates c.1 c.2 0, Exact st

variable {a b m : QWord}

theorem addModP_P (m : QWord) : addModP m P = m := by
  have ht : P - P = 0 := by decide
  rw [addModP, ht]
  simp

theorem doubleModP_P : doubleModP P = P := by decide

theorem le_P_cases (ha : a ≤ P) : a < P ∨ a = P := by
  rw [BitVec.le_def] at ha
  rcases Nat.lt_or_eq_of_le ha with h | h
  · exact .inl h
  · exact .inr (BitVec.eq_of_toNat_eq h)

theorem turn_spec (ha : a ≤ P) (hm : m < P) : doubleModP a ≤ P ∧ addModP m a < P ∧
    (doubleModP a).toNat ≡ 2 * a.toNat [MOD P.toNat] ∧
    (addModP m a).toNat ≡ m.toNat + a.toNat [MOD P.toNat] := by
  rcases le_P_cases ha with ha | rfl
  · have hd : (doubleModP a).toNat = (a.toNat + a.toNat) % P.toNat := by
      rw [doubleModP_eq, addModP_toNat ha ha]
    refine ⟨BitVec.le_of_lt (lt_P_of_toNat hd), addModP_lt hm ha, ?_, ?_⟩
    · rw [hd, ← Nat.two_mul]
      exact Nat.mod_modEq _ _
    · rw [addModP_toNat hm ha]
      exact Nat.mod_modEq _ _
  · rw [doubleModP_P, addModP_P]
    have hzero : P.toNat ≡ 0 [MOD P.toNat] := Nat.modEq_zero_iff_dvd.2 dvd_rfl
    refine ⟨BitVec.le_refl _, hm, ?_, ?_⟩
    · exact hzero.trans (hzero.mul_left 2).symm
    · exact (hzero.add_left _).symm

theorem exact_of_mem_loopStates (a b m : QWord) (ha : a ≤ P) (hm : m < P) :
    ∀ st ∈ loopStates a b m, Exact st := by
  induction a, b, m using loopStates.induct with
  | case1 a m => simp [loopStates]
  | case2 a b m hb ih =>
    obtain ⟨hd, hs, hde, hse⟩ := turn_spec ha hm
    intro st hst
    rw [loopStates, dif_neg hb, List.mem_cons] at hst
    rcases hst with rfl | hst
    · exact ⟨hde, fun _ => hse⟩
    · refine ih hd ?_ st hst
      split_ifs
      · exact hs
      · exact hm

theorem mulModPLoop_P (b m : QWord) : mulModPLoop P b m = m := by
  induction hb : b.toNat using Nat.strong_induction_on generalizing b with
  | _ n ih =>
    rw [mulModPLoop]
    split_ifs with hz hodd
    · rfl
    · rw [addModP_P, doubleModP_P]
      exact ih _ (hb ▸ shiftRight_lt hz) _ rfl
    · rw [doubleModP_P]
      exact ih _ (hb ▸ shiftRight_lt hz) _ rfl

theorem mulModP_lt (ha : a ≤ P) (b : QWord) : mulModP a b < P := by
  rcases le_P_cases ha with ha | rfl
  · exact lt_P_of_toNat (mulModP_toNat ha b)
  · rw [mulModP, mulModPLoop_P]
    decide

theorem mulModP_zero (b : QWord) : mulModP 0 b = 0 := by
  have h := mulModP_toNat (a := 0) (by decide) b
  rw [zero_toNat, Nat.zero_mul, Nat.zero_mod] at h
  exact BitVec.eq_of_toNat_eq h

theorem shiftRight_ne_zero (hb : b ≠ 0) (hone : b ≠ 1) : b >>> 1 ≠ 0 := by
  intro h
  have hshift : (b >>> 1).toNat = b.toNat / 2 := by
    rw [BitVec.toNat_ushiftRight, Nat.shiftRight_eq_div_pow, pow_one]
  have h₁ : b.toNat ≠ 1 := fun h₁ => hone (BitVec.eq_of_toNat_eq h₁)
  have h₀ : b.toNat ≠ 0 := fun h₀ => hb (BitVec.eq_of_toNat_eq h₀)
  rw [h, zero_toNat] at hshift
  omega

theorem powModPRec_P (hb : b ≠ 0) : powModPRec P b = some (if b = 1 then P else 0) := by
  induction hn : b.toNat using Nat.strong_induction_on generalizing b with
  | _ n ih =>
    rw [powModPRec, dif_neg hb]
    by_cases hone : b = 1
    · rw [if_pos hone, if_pos hone]
    · have hsq : ∀ t : QWord, t = P ∨ t = 0 → mulModP t t = 0 := by
        rintro t (rfl | rfl)
        · exact mulModPLoop_P P 0
        · exact mulModP_zero 0
      rw [if_neg hone, if_neg hone, ih _ (hn ▸ shiftRight_lt hb) (shiftRight_ne_zero hb hone) rfl,
        Option.map_some]
      have ht : (if b >>> 1 = 1 then P else 0) = P ∨ (if b >>> 1 = 1 then P else 0) = 0 := by
        split_ifs
        · exact .inl rfl
        · exact .inr rfl
      simp only [hsq _ ht, mulModP_zero, ite_self]

theorem powModPRec_le (ha : a ≤ P) {r : QWord} (h : powModPRec a b = some r) : r ≤ P := by
  have hb : b ≠ 0 := by
    rintro rfl
    rw [powModPRec, dif_pos rfl] at h
    cases h
  rcases le_P_cases ha with ha | rfl
  · obtain ⟨r', hr, hv⟩ := powModPRec_eq ha hb
    rw [h] at hr
    obtain rfl := Option.some.inj hr
    exact BitVec.le_of_lt (lt_P_of_toNat hv)
  · rw [powModPRec_P hb] at h
    obtain rfl := Option.some.inj h
    split_ifs
    · exact BitVec.le_refl _
    · decide

theorem le_P_of_mem_mulCalls (ha : a ≤ P) (b : QWord) : ∀ c ∈ mulCalls a b, c.1 ≤ P := by
  induction hn : b.toNat using Nat.strong_induction_on generalizing b with
  | _ n ih =>
    intro c hc
    rw [mulCalls] at hc
    split_ifs at hc with hz hodd
    · cases hc
    · rw [not_or] at hz
      rcases List.mem_append.1 hc with hc | hc
      · exact ih _ (hn ▸ shiftRight_lt hz.1) _ rfl c hc
      · obtain ⟨t, ht, hc⟩ := List.mem_flatMap.1 hc
        have hle := powModPRec_le ha (Option.mem_toList.1 ht)
        simp only [List.mem_cons, List.not_mem_nil, or_false] at hc
        rcases hc with rfl | rfl
        · exact hle
        · exact BitVec.le_of_lt (mulModP_lt hle t)
    · rw [not_or] at hz
      rcases List.mem_append.1 hc with hc | hc
      · exact ih _ (hn ▸ shiftRight_lt hz.1) _ rfl c hc
      · obtain ⟨t, ht, hc⟩ := List.mem_flatMap.1 hc
        have hle := powModPRec_le ha (Option.mem_toList.1 ht)
        obtain rfl := List.mem_singleton.1 hc
        exact hle

theorem reduced_spec (a : QWord) : (if a > P then a % P else a) ≤ P ∧
    (if a > P then a % P else a).toNat ≡ a.toNat [MOD P.toNat] := by
  split_ifs with h
  · refine ⟨BitVec.le_of_lt ?_, ?_⟩
    · rw [BitVec.lt_def, BitVec.toNat_umod]
      exact Nat.mod_lt _ (by rw [P_toNat]; norm_num)
    · rw [BitVec.toNat_umod]
      exact Nat.mod_modEq _ _
  · refine ⟨?_, Nat.ModEq.refl _⟩
    rw [BitVec.le_def]
    rw [gt_iff_lt, BitVec.lt_def] at h
    omega

/-- The result is the canonical residue for all words and exponents but `P` and 1. -/
theorem canonical_iff (a : QWord) (hb : b ≠ 0) : Canonical a b ↔ ¬ (a = P ∧ b = 1) := by
  obtain ⟨hle, hmod⟩ := reduced_spec a
  have hexact : ∀ c ∈ mulCalls (if a > P then a % P else a) b, ∀ st ∈ loopStates c.1 c.2 0,
      Exact st := fun c hc =>
    exact_of_mem_loopStates _ _ _ (le_P_of_mem_mulCalls hle b c hc) (by decide)
  constructor
  · rintro ⟨⟨r, hr, hlt, -⟩, -⟩ ⟨rfl, rfl⟩
    rw [powModP, if_neg (by decide), powModPRec_P (by decide), if_pos rfl] at hr
    obtain rfl := Option.some.inj hr
    exact lt_irrefl _ hlt
  · intro hne
    refine ⟨?_, hexact⟩
    rcases le_P_cases hle with hlt | heq
    · obtain ⟨r, hr, hv⟩ := powModPRec_eq hlt hb
      refine ⟨r, hr, BitVec.lt_def.1 (lt_P_of_toNat hv), ?_⟩
      rw [hv]
      exact hmod.pow _
    · have ha : a = P := by
        split_ifs at heq with h
        · have hlt : (a % P).toNat < P.toNat := by
            rw [BitVec.toNat_umod]
            exact Nat.mod_lt _ (by rw [P_toNat]; norm_num)
          rw [heq] at hlt
          exact absurd hlt (lt_irrefl _)
        · exact heq
      have hone : b ≠ 1 := fun hone => hne ⟨ha, hone⟩
      refine ⟨0, ?_, by decide, ?_⟩
      · rw [powModP, heq, powModPRec_P hb, if_neg hone]
      · have hpos : b.toNat ≠ 0 := fun h => hb (BitVec.eq_of_toNat_eq h)
        rw [ha, zero_toNat, eq_comm, ← Nat.dvd_iff_mod_eq_zero]
        exact dvd_pow_self _ hpos

theorem canonical_iff_above : Canonical (P + 1) 3 ↔ ¬ (P + 1 = P ∧ (3 : QWord) = 1) :=
  canonical_iff _ (by decide)

/-- The modulus to the power of one. -/
theorem not_canonical_P : ¬ ∀ a b : QWord, b ≠ 0 → Canonical a b := by
  intro h
  obtain ⟨⟨r, hr, hlt, -⟩, -⟩ := h P 1 (by decide)
  rw [powModP, if_neg (by decide), powModPRec, dif_neg (by decide), if_pos rfl] at hr
  obtain rfl := Option.some.inj hr
  exact lt_irrefl _ hlt

end Crypt

end SkynetGame
