import SkynetGame.Lib.Bytes
import Mathlib.Data.Nat.Digits.Lemmas

/-!
# Numbers as bytes

A number in a fixed count of bytes, the least or the most significant one first, and the number that
bytes stand for.
-/

namespace SkynetGame

open List

namespace Endian

/-- The `w` low bytes of a number, the least significant one first. -/
def le : ℕ → ℕ → Bytes
  | 0, _ => []
  | w + 1, n => UInt8.ofNat n :: le w (n / 256)

/-- The number that bytes stand for, the least significant one first. -/
def ofLe (b : Bytes) : ℕ := Nat.ofDigits 256 (b.map UInt8.toNat)

/-- The `w` low bytes of a number, the most significant one first. -/
def be (w n : ℕ) : Bytes := (le w n).reverse

/-- The number that bytes stand for, the most significant one first. -/
def ofBe (b : Bytes) : ℕ := ofLe b.reverse

@[simp] theorem length_le : ∀ w n, (le w n).length = w
  | 0, _ => rfl
  | w + 1, n => congrArg (· + 1) (length_le w (n / 256))

@[simp] theorem length_be (w n : ℕ) : (be w n).length = w := by
  rw [be, length_reverse, length_le]

theorem ofLe_cons (c : UInt8) (b : Bytes) : ofLe (c :: b) = c.toNat + 256 * ofLe b := by
  rw [ofLe, map_cons, Nat.ofDigits_cons, ofLe]

theorem ofLe_append (a b : Bytes) : ofLe (a ++ b) = ofLe a + 256 ^ a.length * ofLe b := by
  rw [ofLe, map_append, Nat.ofDigits_append, length_map, ofLe, ofLe]

theorem ofBe_cons (c : UInt8) (b : Bytes) :
    ofBe (c :: b) = c.toNat * 256 ^ b.length + ofBe b := by
  have hone : ofLe [c] = c.toNat := ofLe_cons c []
  rw [ofBe, reverse_cons, ofLe_append, length_reverse, hone, Nat.add_comm, Nat.mul_comm,
    ofBe]

theorem ofLe_lt (b : Bytes) : ofLe b < 256 ^ b.length := by
  have h := Nat.ofDigits_lt_base_pow_length (b := 256) (l := b.map UInt8.toNat) (by norm_num)
    fun d hd => by
      obtain ⟨c, -, rfl⟩ := List.mem_map.1 hd
      exact c.toNat_lt
  rwa [length_map] at h

/-- What is read back is the number, up to what the bytes cannot hold. -/
theorem ofLe_le : ∀ w n, ofLe (le w n) = n % 256 ^ w
  | 0, n => by rw [pow_zero, Nat.mod_one]; rfl
  | w + 1, n => by
    rw [le, ofLe_cons, ofLe_le w, pow_succ', Nat.mod_mul]
    rfl

theorem ofLe_le_of_lt {w n : ℕ} (h : n < 256 ^ w) : ofLe (le w n) = n := by
  rw [ofLe_le, Nat.mod_eq_of_lt h]

theorem ofBe_be (w n : ℕ) : ofBe (be w n) = n % 256 ^ w := by
  rw [ofBe, be, reverse_reverse, ofLe_le]

theorem ofBe_be_of_lt {w n : ℕ} (h : n < 256 ^ w) : ofBe (be w n) = n := by
  rw [ofBe_be, Nat.mod_eq_of_lt h]

theorem ofBe_lt (b : Bytes) : ofBe b < 256 ^ b.length := by
  have h := ofLe_lt b.reverse
  rwa [length_reverse] at h

theorem le_ofLe : ∀ b : Bytes, le b.length (ofLe b) = b
  | [] => rfl
  | c :: b => by
    have hc := c.toNat_lt
    have hmod : UInt8.ofNat (c.toNat + 256 * ofLe b) = c := by
      rw [← UInt8.toNat_inj, UInt8.toNat_ofNat']
      omega
    have hdiv : (c.toNat + 256 * ofLe b) / 256 = ofLe b := by omega
    rw [ofLe_cons, length_cons, le, hmod, hdiv, le_ofLe b]

theorem be_ofBe (b : Bytes) : be b.length (ofBe b) = b := by
  have h := le_ofLe b.reverse
  rw [length_reverse] at h
  rw [be, ofBe, h, reverse_reverse]

end Endian

end SkynetGame
