import Mathlib.Data.Nat.Bitwise
import Mathlib.Data.Nat.ModEq

/-!
# Numbers masked to a power of two

A mask of `k` ones keeps the remainder modulo `2 ^ k`. As many consecutive numbers as there are
remainders meet each of them, also when they are wrapped around first (`exists_add_mod`), and a
remainder modulo twice the size tells the one modulo the size (`mod_two_mul_cases`).
-/

namespace SkynetGame

theorem and_mask (x k : ℕ) : x &&& (2 ^ k - 1) = x % 2 ^ k := Nat.and_two_pow_sub_one_eq_mod x k

theorem exists_add_mod {n m : ℕ} (hn : 0 < n) (h : n ∣ m) (a : ℕ) {j : ℕ} (hj : j < n) :
    ∃ i < n, (i + a) % m % n = j := by
  refine ⟨(j + (n - a % n)) % n, Nat.mod_lt _ hn, ?_⟩
  have ha : a % n < n := Nat.mod_lt _ hn
  rw [Nat.mod_mod_of_dvd _ h, Nat.mod_add_mod, Nat.add_assoc, Nat.add_mod]
  have : (n - a % n + a) % n = 0 := by
    rw [← Nat.add_mod_mod, Nat.sub_add_cancel ha.le, Nat.mod_self]
  rw [this, Nat.add_zero, Nat.mod_mod, Nat.mod_eq_of_lt hj]

theorem mod_mod_two_mul (x n : ℕ) : x % (n * 2) % n = x % n :=
  Nat.mod_mod_of_dvd _ ⟨2, rfl⟩

theorem or_shiftLeft {x k : ℕ} (hx : x < 2 ^ k) (b : ℕ) : x ||| b <<< k = b * 2 ^ k + x := by
  rw [Nat.or_comm, ← Nat.shiftLeft_add_eq_or_of_lt hx, Nat.shiftLeft_eq]

theorem or_shiftLeft_mod {x k j : ℕ} (hx : x < 2 ^ k) (hj : j ≤ k) (b : ℕ) :
    (x ||| b <<< k) % 2 ^ j = x % 2 ^ j := by
  rw [or_shiftLeft hx, Nat.add_mod,
    Nat.mod_eq_zero_of_dvd ((Nat.pow_dvd_pow 2 hj).trans (Nat.dvd_mul_left _ _)), Nat.zero_add,
    Nat.mod_mod]

theorem or_shiftLeft_shiftRight {x k : ℕ} (hx : x < 2 ^ k) (b : ℕ) :
    (x ||| b <<< k) >>> k = b := by
  rw [or_shiftLeft hx, Nat.shiftRight_eq_div_pow, Nat.add_comm,
    Nat.add_mul_div_right _ _ (Nat.two_pow_pos k), Nat.div_eq_of_lt hx, Nat.zero_add]

end SkynetGame
