import Mathlib.Data.Nat.ModEq

/-!
# Hierarchical timing wheels

An entry due at `D` is filed, at time `N`, by the first level whose blocks the two share: level `j`
has blocks of `2 ^ (a + b * j)` ticks, and level `top` takes what shares no block. The slot within
the level is the digit of `D` below that block. One tick later an entry is due for another slot
only if it stands in the slot that the tick carries into (`wheelSlot_succ`).
-/

namespace SkynetGame

/-- The first of the `n` numbers from `j` on that meets `p`, or `j + n`. -/
def firstFrom (p : ℕ → Prop) [DecidablePred p] : (n j : ℕ) → ℕ
  | 0, j => j
  | n + 1, j => if p j then j else firstFrom p n (j + 1)

theorem firstFrom_spec (p : ℕ → Prop) [DecidablePred p] : ∀ n j : ℕ,
    firstFrom p n j ≤ j + n ∧ (∀ i, j ≤ i → i < firstFrom p n j → ¬ p i) ∧
      (firstFrom p n j < j + n → p (firstFrom p n j))
  | 0, j => ⟨le_rfl, fun i h1 h2 => absurd h2 (by simp only [firstFrom]; omega),
      fun h => absurd h (by simp [firstFrom])⟩
  | n + 1, j => by
    simp only [firstFrom]
    split_ifs with h
    · exact ⟨by omega, fun i h1 h2 => by omega, fun _ => h⟩
    · obtain ⟨h1, h2, h3⟩ := firstFrom_spec p n (j + 1)
      refine ⟨by omega, fun i hi hlt => ?_, fun hlt => h3 (by omega)⟩
      by_cases hij : i = j
      · rwa [hij]
      · exact h2 i (by omega) hlt

theorem firstFrom_eq {p : ℕ → Prop} [DecidablePred p] {n k : ℕ} (hk : k ≤ n)
    (hlt : ∀ i, i < k → ¬ p i) (hp : k < n → p k) : firstFrom p n 0 = k := by
  obtain ⟨h1, h2, h3⟩ := firstFrom_spec p n 0
  rcases Nat.lt_trichotomy (firstFrom p n 0) k with h | h | h
  · exact absurd (h3 (by omega)) (hlt _ h)
  · exact h
  · exact absurd (hp (by omega)) (h2 k (Nat.zero_le k) h)

variable (a b top : ℕ)

/-- The blocks of level `j` that `N` and `D` lie in are the same. -/
def SameBlock (N D j : ℕ) : Prop := N / 2 ^ (a + b * j) = D / 2 ^ (a + b * j)

instance (N D : ℕ) : DecidablePred (SameBlock a b N D) := fun _ => inferInstanceAs (Decidable (_ = _))

/-- The slot, within its level `j`, of an entry due at `D`. -/
def wheelDigit (D : ℕ) : (j : ℕ) → ℕ
  | 0 => D % 2 ^ a
  | j + 1 => D / 2 ^ (a + b * j) % 2 ^ b

/-- The level at which an entry due at `D` is filed at time `N`. -/
def wheelLevel (N D : ℕ) : ℕ := firstFrom (SameBlock a b N D) top 0

/-- Where an entry due at `D` is filed at time `N`. -/
def wheelSlot (N D : ℕ) : ℕ × ℕ :=
  (wheelLevel a b top N D, wheelDigit a b D (wheelLevel a b top N D))

/-- The level that the tick to `M` carries into: the first whose digit it does not set to zero. -/
def wheelCarry (M : ℕ) : ℕ := firstFrom (fun j => wheelDigit a b M j ≠ 0) top 0

variable {a b top} {N D : ℕ}

theorem SameBlock.mono {i j : ℕ} (h : SameBlock a b N D i) (hij : i ≤ j) : SameBlock a b N D j := by
  obtain ⟨k, rfl⟩ := Nat.exists_eq_add_of_le hij
  unfold SameBlock at h ⊢
  have hpow : 2 ^ (a + b * (i + k)) = 2 ^ (a + b * i) * 2 ^ (b * k) := by
    rw [← pow_add, Nat.mul_add, Nat.add_assoc]
  rw [hpow, ← Nat.div_div_eq_div_mul, ← Nat.div_div_eq_div_mul, h]

/-- Two times in one block agree with every time between them. -/
theorem SameBlock.between {M j : ℕ} (h : SameBlock a b N D j) (h1 : N ≤ M) (h2 : M ≤ D) :
    SameBlock a b N M j := by
  unfold SameBlock at h ⊢
  have h3 := Nat.div_le_div_right (c := 2 ^ (a + b * j)) h1
  have h4 := Nat.div_le_div_right (c := 2 ^ (a + b * j)) h2
  omega

/-- A tick that enters another block of level `j` sets the digits up to that level to zero. -/
theorem wheelDigit_eq_zero {j i : ℕ} (h : ¬ SameBlock a b N (N + 1) j) (hij : i ≤ j) :
    wheelDigit a b (N + 1) i = 0 := by
  have hdvd : 2 ^ (a + b * j) ∣ N + 1 := by
    by_contra hd
    apply h
    unfold SameBlock
    rw [Nat.succ_div, if_neg hd, Nat.add_zero]
  cases i with
  | zero =>
    refine Nat.mod_eq_zero_of_dvd ((pow_dvd_pow 2 ?_).trans hdvd)
    omega
  | succ i =>
    refine Nat.mod_eq_zero_of_dvd (Nat.dvd_div_of_mul_dvd ?_)
    rw [← pow_add]
    refine (pow_dvd_pow 2 ?_).trans hdvd
    have : b * i + b ≤ b * j := by
      rw [← Nat.mul_succ]
      exact Nat.mul_le_mul_left b hij
    omega

/-- Conversely, where all digits up to a level are zero the tick entered another block of it. -/
theorem not_sameBlock_of_digits {j : ℕ} (h : ∀ i, i ≤ j → wheelDigit a b (N + 1) i = 0) :
    ¬ SameBlock a b N (N + 1) j := by
  have hdvd : ∀ j, (∀ i, i ≤ j → wheelDigit a b (N + 1) i = 0) → 2 ^ (a + b * j) ∣ N + 1 := by
    intro j
    induction j with
    | zero => exact fun h => Nat.dvd_of_mod_eq_zero (h 0 le_rfl)
    | succ j ih =>
      intro h
      have h1 := ih fun i hi => h i (by omega)
      have h2 := Nat.dvd_of_mod_eq_zero (h (j + 1) le_rfl)
      have := Nat.mul_dvd_of_dvd_div h1 h2
      rwa [← pow_add, Nat.add_assoc, ← Nat.mul_succ] at this
  unfold SameBlock
  rw [Nat.succ_div, if_pos (hdvd j h)]
  omega

theorem wheelLevel_eq {k : ℕ} (hk : k ≤ top) (hlt : ∀ i, i < k → ¬ SameBlock a b N D i)
    (hp : k < top → SameBlock a b N D k) : wheelLevel a b top N D = k := firstFrom_eq hk hlt hp

theorem wheelCarry_eq {M k : ℕ} (hk : k ≤ top) (hlt : ∀ i, i < k → wheelDigit a b M i = 0)
    (hp : k < top → wheelDigit a b M k ≠ 0) : wheelCarry a b top M = k :=
  firstFrom_eq hk (fun i hi => not_not.2 (hlt i hi)) hp

theorem wheelLevel_le (top N D : ℕ) : wheelLevel a b top N D ≤ top := by
  have := (firstFrom_spec (SameBlock a b N D) top 0).1
  rwa [Nat.zero_add] at this

theorem not_sameBlock_of_lt (top : ℕ) {i : ℕ} (h : i < wheelLevel a b top N D) : ¬ SameBlock a b N D i :=
  (firstFrom_spec (SameBlock a b N D) top 0).2.1 i (Nat.zero_le i) h

theorem sameBlock_of_le (top : ℕ) {i : ℕ} (h : wheelLevel a b top N D ≤ i) (hi : i < top) :
    SameBlock a b N D i := by
  refine SameBlock.mono ((firstFrom_spec (SameBlock a b N D) top 0).2.2 ?_) h
  have : wheelLevel a b top N D < top := by omega
  rwa [Nat.zero_add]

/-- One tick later every entry is where it was, but for those in the slot carried into, which is
not one of level zero. -/
theorem wheelSlot_succ (h : N < D) (hne : wheelSlot a b top (N + 1) D ≠ wheelSlot a b top N D) :
    wheelCarry a b top (N + 1) ≠ 0 ∧ wheelSlot a b top N D = (wheelCarry a b top (N + 1),
      wheelDigit a b (N + 1) (wheelCarry a b top (N + 1))) := by
  have hlev : wheelLevel a b top (N + 1) D < wheelLevel a b top N D := by
    rcases Nat.lt_trichotomy (wheelLevel a b top (N + 1) D) (wheelLevel a b top N D) with hlt | he |
      hgt
    · exact hlt
    · exact absurd (by rw [wheelSlot, wheelSlot, he]) hne
    · have hle := wheelLevel_le (a := a) (b := b) top (N + 1) D
      have hN := sameBlock_of_le top (le_refl (wheelLevel a b top N D)) (by omega)
      exact absurd ((hN.between (by omega) (by omega)).symm.trans hN) (not_sameBlock_of_lt top hgt)
  obtain ⟨j, hj⟩ : ∃ j, wheelLevel a b top N D = j + 1 := ⟨_, (Nat.succ_pred (by omega)).symm⟩
  have hjtop : j + 1 ≤ top := hj ▸ wheelLevel_le top N D
  have hD : SameBlock a b (N + 1) D j := sameBlock_of_le top (by omega) (by omega)
  have hN : ¬ SameBlock a b N (N + 1) j := fun hs =>
    not_sameBlock_of_lt top (by omega) (hs.trans hD)
  have hcarry : wheelCarry a b top (N + 1) = j + 1 := by
    refine wheelCarry_eq hjtop (fun i hi => wheelDigit_eq_zero hN (by omega)) fun hlt hz => ?_
    refine not_sameBlock_of_digits (fun i hi => ?_)
      ((sameBlock_of_le top hj.le hlt).between (by omega) (by omega))
    by_cases hij : i = j + 1
    · rwa [hij]
    · exact wheelDigit_eq_zero hN (by omega)
  rw [hcarry]
  refine ⟨by omega, ?_⟩
  rw [wheelSlot, hj]
  unfold SameBlock at hD
  simp only [wheelDigit, hD]

/-- The entries of the level-zero slot at which a time stands are those due then. -/
theorem due_of_wheelSlot (h : wheelSlot a b (top + 1) N D = (0, N % 2 ^ a)) :
    D = N := by
  simp only [wheelSlot, Prod.mk.injEq] at h
  obtain ⟨h1, h2⟩ := h
  rw [h1] at h2
  have hs := sameBlock_of_le (top + 1) (le_of_eq h1) (by omega : 0 < top + 1)
  unfold SameBlock at hs
  rw [Nat.mul_zero, Nat.add_zero] at hs
  rw [← Nat.div_add_mod D (2 ^ a), ← hs, show D % 2 ^ a = N % 2 ^ a from h2, Nat.div_add_mod]

theorem wheelSlot_self : wheelSlot a b (top + 1) N N = (0, N % 2 ^ a) := by
  have h : wheelLevel a b (top + 1) N N = 0 :=
    wheelLevel_eq (Nat.zero_le _) (fun i hi => absurd hi (Nat.not_lt_zero i)) fun _ => rfl
  rw [wheelSlot, h]
  rfl

end SkynetGame
