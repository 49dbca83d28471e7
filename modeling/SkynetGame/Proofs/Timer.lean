import SkynetGame.Lib.Wheel
import SkynetGame.Timer
import Mathlib.Tactic.IntervalCases

/-!
# The lists of the timer are a timing wheel

`Timer.list` numbers the lists as the slots of a wheel of five levels. `add_node` files a node by
its 32-bit expiry where the wheel files its unbounded due tick (`Timer.fileSlot_eq`), also across
the wrap, and `timer_shift` moves the list that the tick carries into (`Timer.timerShift_eq`).
-/

namespace SkynetGame

namespace Timer

variable {T : Timer} {N D : ℕ}

/-- The lists of the timer, level by level. -/
def list (T : Timer) : ℕ × ℕ → List TimerNode
  | (0, i) => T.near i
  | (j + 1, i) => T.t j i

/-- The list that `add_node` links a node into. -/
def fileSlot (now expire : UInt32) : ℕ × ℕ :=
  if expire ||| timeNearMask = now ||| timeNearMask then (0, (expire &&& timeNearMask).toNat)
  else
    let i := addLevel expire now 3 0 (timeNear <<< timeLevelShift)
    (i + 1, ((expire >>> (timeNearShift + i.toUInt32 * timeLevelShift)) &&& timeLevelMask).toNat)

section Words

theorem or_mask_iff {x y m : UInt32} {k : ℕ} (hm : m.toNat = 2 ^ k - 1) :
    x ||| m = y ||| m ↔ x.toNat / 2 ^ k = y.toNat / 2 ^ k := by
  rw [← UInt32.toNat_inj, UInt32.toNat_or, UInt32.toNat_or, hm]
  constructor
  · intro h
    apply Nat.eq_of_testBit_eq
    intro i
    have := congrArg (fun n => n.testBit (i + k)) h
    simpa [Nat.testBit_div_two_pow, Nat.testBit_or, Nat.testBit_two_pow_sub_one] using this
  · intro h
    apply Nat.eq_of_testBit_eq
    intro i
    rw [Nat.testBit_or, Nat.testBit_or, Nat.testBit_two_pow_sub_one]
    by_cases hi : i < k
    · simp [hi]
    · obtain ⟨j, rfl⟩ := Nat.exists_eq_add_of_le (Nat.le_of_not_lt hi)
      have := congrArg (fun n => n.testBit j) h
      simp only [Nat.testBit_div_two_pow, Nat.add_comm j k] at this
      rw [this]

theorem and_mask {x m : UInt32} {k : ℕ} (hm : m.toNat = 2 ^ k - 1) :
    (x &&& m).toNat = x.toNat % 2 ^ k := by
  rw [UInt32.toNat_and, hm, Nat.and_two_pow_sub_one_eq_mod]

theorem shiftRight_eq {x s : UInt32} {k : ℕ} (hs : s.toNat = k) (hk : k < 32) :
    (x >>> s).toNat = x.toNat / 2 ^ k := by
  rw [UInt32.toNat_shiftRight, hs, Nat.mod_eq_of_lt hk, Nat.shiftRight_eq_div_pow]

end Words

theorem fileSlot_eq {now expire : UInt32} (hn : now.toNat = N % 2 ^ 32)
    (he : expire.toNat = D % 2 ^ 32) (hle : N ≤ D) (hlt : D < N + 2 ^ 31) :
    fileSlot now expire = wheelSlot 8 6 4 N D := by
  have h0 : (expire ||| timeNearMask = now ||| timeNearMask) ↔ SameBlock 8 6 N D 0 := by
    rw [or_mask_iff (k := 8) rfl, hn, he]
    simp only [SameBlock]
    omega
  have h1 : (expire ||| (timeNear <<< timeLevelShift - 1)
      = now ||| (timeNear <<< timeLevelShift - 1)) ↔ SameBlock 8 6 N D 1 := by
    rw [or_mask_iff (k := 14) rfl, hn, he]
    simp only [SameBlock]
    omega
  have h2 : (expire ||| (timeNear <<< timeLevelShift <<< timeLevelShift - 1)
      = now ||| (timeNear <<< timeLevelShift <<< timeLevelShift - 1)) ↔ SameBlock 8 6 N D 2 := by
    rw [or_mask_iff (k := 20) rfl, hn, he]
    simp only [SameBlock]
    omega
  have h3 : (expire ||| (timeNear <<< timeLevelShift <<< timeLevelShift <<< timeLevelShift - 1)
      = now ||| (timeNear <<< timeLevelShift <<< timeLevelShift <<< timeLevelShift - 1)) ↔
      SameBlock 8 6 N D 3 := by
    rw [or_mask_iff (k := 26) rfl, hn, he]
    simp only [SameBlock]
    omega
  have hdig : ∀ i, i < 4 →
      ((expire >>> (timeNearShift + i.toUInt32 * timeLevelShift)) &&& timeLevelMask).toNat
        = wheelDigit 8 6 D (i + 1) := by
    intro i hi
    rw [and_mask (k := 6) rfl]
    interval_cases i
    · rw [shiftRight_eq (k := 8) rfl (by omega), he]
      simp only [wheelDigit]
      omega
    · rw [shiftRight_eq (k := 14) rfl (by omega), he]
      simp only [wheelDigit]
      omega
    · rw [shiftRight_eq (k := 20) rfl (by omega), he]
      simp only [wheelDigit]
      omega
    · rw [shiftRight_eq (k := 26) rfl (by omega), he]
      simp only [wheelDigit]
      omega
  have hnear : (expire &&& timeNearMask).toNat = wheelDigit 8 6 D 0 := by
    rw [and_mask (k := 8) rfl, he]
    simp only [wheelDigit]
    omega
  simp only [fileSlot, wheelSlot, wheelLevel, firstFrom, addLevel, h0, h1, h2, h3]
  split_ifs
  · rw [hnear]
  all_goals rw [hdig _ (by omega)]

section Lists

variable {node : TimerNode} {j i : ℕ}

theorem linkNear_list (σ : ℕ × ℕ) :
    (T.linkNear i node).list σ = if (0, i) = σ then T.list σ ++ [node] else T.list σ := by
  rcases σ with ⟨_ | l, k⟩
  · by_cases hk : k = i
    · simp [list, linkNear, hk]
    · simp [list, linkNear, hk, Ne.symm hk]
  · simp [list, linkNear]

theorem linkLevel_list (σ : ℕ × ℕ) :
    (T.linkLevel j i node).list σ = if (j + 1, i) = σ then T.list σ ++ [node] else T.list σ := by
  rcases σ with ⟨_ | l, k⟩
  · simp [list, linkLevel]
  · by_cases hl : l = j
    · subst hl
      by_cases hk : k = i
      · simp [list, linkLevel, hk]
      · simp [list, linkLevel, hk, Ne.symm hk]
    · simp [list, linkLevel, hl, Ne.symm hl]

theorem addNode_list (σ : ℕ × ℕ) : (T.addNode node).list σ
    = if fileSlot T.time node.expire = σ then T.list σ ++ [node] else T.list σ := by
  unfold addNode fileSlot
  dsimp only
  by_cases h : node.expire ||| timeNearMask = T.time ||| timeNearMask
  · rw [if_pos h, if_pos h, linkNear_list]
  · rw [if_neg h, if_neg h, linkLevel_list]

@[simp] theorem addNode_time : (T.addNode node).time = T.time := by
  unfold addNode
  dsimp only
  split_ifs <;> rfl

theorem foldl_addNode_list (σ : ℕ × ℕ) : ∀ (nodes : List TimerNode) (T : Timer),
    (nodes.foldl addNode T).list σ
      = T.list σ ++ nodes.filter fun n => fileSlot T.time n.expire = σ
  | [], T => by simp
  | n :: nodes, T => by
    rw [List.foldl_cons, foldl_addNode_list σ nodes, addNode_list, addNode_time]
    by_cases h : fileSlot T.time n.expire = σ <;> simp [h]

theorem foldl_addNode_time : ∀ (nodes : List TimerNode) (T : Timer),
    (nodes.foldl addNode T).time = T.time
  | [], _ => rfl
  | n :: nodes, T => by rw [List.foldl_cons, foldl_addNode_time nodes, addNode_time]

theorem moveList_list (σ : ℕ × ℕ) : (T.moveList j i).list σ
    = (if (j + 1, i) = σ then [] else T.list σ) ++
      (T.list (j + 1, i)).filter fun n => fileSlot T.time n.expire = σ := by
  unfold moveList
  rw [foldl_addNode_list]
  refine congrArg₂ (· ++ ·) ?_ rfl
  rcases σ with ⟨_ | l, k⟩
  · simp [list]
  · by_cases hl : l = j
    · subst hl
      by_cases hk : k = i
      · simp [list, hk]
      · simp [list, hk, Ne.symm hk]
    · simp [list, hl, Ne.symm hl]

theorem moveList_time : (T.moveList j i).time = T.time := foldl_addNode_time _ _

end Lists

theorem timerShift_eq (hn : T.time.toNat = N % 2 ^ 32) :
    T.timerShift = some (if wheelCarry 8 6 4 (N + 1) = 0 then { T with time := T.time + 1 }
      else { T with time := T.time + 1 }.moveList (wheelCarry 8 6 4 (N + 1) - 1)
        (wheelDigit 8 6 (N + 1) (wheelCarry 8 6 4 (N + 1)))) := by
  have hct : (T.time + 1).toNat = (N + 1) % 2 ^ 32 := by
    rw [UInt32.toNat_add, hn]
    simp
  unfold timerShift
  dsimp only
  generalize N + 1 = M at hct ⊢
  generalize T.time + 1 = ct at hct ⊢
  generalize ({ T with time := ct } : Timer) = T'
  have hmask : ∀ (m : UInt32) (k : ℕ), m.toNat = 2 ^ k - 1 → k ≤ 26 →
      ((ct &&& m = 0) ↔ M % 2 ^ k = 0) := by
    intro m k hm hk
    rw [← UInt32.toNat_inj, and_mask hm, hct, Nat.mod_mod_of_dvd _ (pow_dvd_pow 2 (by omega))]
    rfl
  have hidx : ∀ (x : UInt32) (j : ℕ), x.toNat = M % 2 ^ 32 / 2 ^ (8 + 6 * j) → j ≤ 3 →
      (x &&& timeLevelMask).toNat = wheelDigit 8 6 M (j + 1) := by
    intro x j hx hj
    rw [and_mask (k := 6) rfl, hx]
    simp only [wheelDigit]
    interval_cases j <;> omega
  have hsh : ∀ (x : UInt32) (k : ℕ), x.toNat = M % 2 ^ 32 / 2 ^ k →
      (x >>> timeLevelShift).toNat = M % 2 ^ 32 / 2 ^ (k + 6) := by
    intro x k hx
    rw [shiftRight_eq (k := 6) rfl (by omega), hx, Nat.div_div_eq_div_mul, ← pow_add]
  have ht1 : (ct >>> timeNearShift).toNat = M % 2 ^ 32 / 2 ^ 8 := by
    rw [shiftRight_eq (k := 8) rfl (by omega), hct]
  have ht2 := hsh _ _ ht1
  have ht3 := hsh _ _ ht2
  have ht4 := hsh _ _ ht3
  have hd1 := hidx _ 0 ht1 (by omega)
  have hd2 := hidx _ 1 ht2 (by omega)
  have hd3 := hidx _ 2 ht3 (by omega)
  have hd4 := hidx _ 3 ht4 (by omega)
  have hz : ct = 0 ↔ M % 2 ^ 32 = 0 := by
    rw [← UInt32.toNat_inj, hct]
    rfl
  have hne : ∀ x : UInt32, x ≠ 0 ↔ x.toNat ≠ 0 := fun x => by
    rw [ne_eq, ← UInt32.toNat_inj]
    rfl
  have hm1 := hmask (timeNear - 1) 8 (by decide) (by omega)
  have hm2 := hmask (timeNear <<< timeLevelShift - 1) 14 (by decide) (by omega)
  have hm3 := hmask (timeNear <<< timeLevelShift <<< timeLevelShift - 1) 20 (by decide) (by omega)
  have hm4 := hmask (timeNear <<< timeLevelShift <<< timeLevelShift <<< timeLevelShift - 1) 26
    (by decide) (by omega)
  -- the conditions of the loop in terms of the digits of the tick
  have e1 : M % 2 ^ 8 = 0 ↔ wheelDigit 8 6 M 0 = 0 := Iff.rfl
  have e2 : M % 2 ^ 14 = 0 ↔ M % 2 ^ 8 = 0 ∧ wheelDigit 8 6 M 1 = 0 := by
    simp only [wheelDigit]; omega
  have e3 : M % 2 ^ 20 = 0 ↔ M % 2 ^ 14 = 0 ∧ wheelDigit 8 6 M 2 = 0 := by
    simp only [wheelDigit]; omega
  have e4 : M % 2 ^ 26 = 0 ↔ M % 2 ^ 20 = 0 ∧ wheelDigit 8 6 M 3 = 0 := by
    simp only [wheelDigit]; omega
  have e5 : M % 2 ^ 32 = 0 ↔ M % 2 ^ 26 = 0 ∧ wheelDigit 8 6 M 4 = 0 := by
    simp only [wheelDigit]; omega
  simp only [shiftLoop, hz, hne, hd1, hd2, hd3, hd4, hm1, hm2, hm3, hm4, e5, e4, e3, e2, e1,
    wheelCarry, firstFrom]
  by_cases d0 : wheelDigit 8 6 M 0 = 0
  · by_cases d1 : wheelDigit 8 6 M 1 = 0
    · by_cases d2 : wheelDigit 8 6 M 2 = 0
      · by_cases d3 : wheelDigit 8 6 M 3 = 0
        · by_cases d4 : wheelDigit 8 6 M 4 = 0 <;> simp [d0, d1, d2, d3, d4]
        · simp [d0, d1, d2, d3]
      · simp [d0, d1, d2]
    · simp [d0, d1]
  · simp [d0]

end Timer

end SkynetGame
