import Mathlib.Data.List.Range

/-!
# Blocks of a memory

`slice m a n` reads `n` places of a memory from `a` on, and `blit m a bs` writes a list there. What
is written is what is read back, two adjacent writes are one, and a write changes no slice before
it.
-/

namespace SkynetGame

open Function List

variable {α : Type*}

def slice (m : ℕ → α) (a n : ℕ) : List α := (List.range' a n).map m

def blit (m : ℕ → α) : ℕ → List α → ℕ → α
  | _, [] => m
  | a, b :: bs => Function.update (blit m (a + 1) bs) a b

@[simp] theorem length_slice (m : ℕ → α) (a n : ℕ) : (slice m a n).length = n := by simp [slice]

@[simp] theorem slice_zero (m : ℕ → α) (a : ℕ) : slice m a 0 = [] := rfl

theorem slice_succ (m : ℕ → α) (a n : ℕ) : slice m a (n + 1) = m a :: slice m (a + 1) n := by
  simp [slice, range'_succ]

theorem slice_add (m : ℕ → α) (a k n : ℕ) :
    slice m a (k + n) = slice m a k ++ slice m (a + k) n := by
  rw [slice, ← range'_append_1, map_append, slice, slice]

theorem slice_congr {m m' : ℕ → α} {a n : ℕ} (h : ∀ k, a ≤ k → k < a + n → m k = m' k) :
    slice m a n = slice m' a n :=
  map_congr_left fun k hk => by
    have := mem_range'_1.1 hk
    exact h k this.1 this.2

theorem blit_of_lt (m : ℕ → α) : ∀ (bs : List α) {a k : ℕ}, k < a → blit m a bs k = m k
  | [], _, _, _ => rfl
  | b :: bs, a, k, h => by
    rw [blit, update_of_ne (by omega), blit_of_lt m bs (by omega)]

theorem blit_of_le (m : ℕ → α) :
    ∀ (bs : List α) {a k : ℕ}, a + bs.length ≤ k → blit m a bs k = m k
  | [], _, _, _ => rfl
  | b :: bs, a, k, h => by
    rw [length_cons] at h
    rw [blit, update_of_ne (by omega), blit_of_le m bs (by omega)]

theorem blit_at (m : ℕ → α) : ∀ (bs : List α) {a j : ℕ} (h : j < bs.length),
    blit m a bs (a + j) = bs[j]
  | b :: bs, a, 0, _ => update_self ..
  | b :: bs, a, j + 1, h => by
    have hrec := blit_at m bs (a := a + 1) (j := j) (Nat.lt_of_succ_lt_succ h)
    rw [blit, update_of_ne (by omega), getElem_cons_succ, ← hrec]
    congr 1
    omega

theorem slice_blit (m : ℕ → α) : ∀ (bs : List α) (a : ℕ), slice (blit m a bs) a bs.length = bs
  | [], _ => rfl
  | b :: bs, a => by
    rw [length_cons, slice_succ, blit, update_self]
    have hrest : slice (update (blit m (a + 1) bs) a b) (a + 1) bs.length =
        slice (blit m (a + 1) bs) (a + 1) bs.length :=
      slice_congr fun k hk _ => update_of_ne (by omega) _ _
    rw [hrest, slice_blit m bs (a + 1)]

theorem slice_blit_of_le (m : ℕ → α) (bs : List α) {a b n : ℕ} (h : b + n ≤ a) :
    slice (blit m a bs) b n = slice m b n :=
  slice_congr fun _ _ hk => blit_of_lt m bs (by omega)

theorem slice_blit_of_ge (m : ℕ → α) (bs : List α) {a b : ℕ} (n : ℕ) (h : a + bs.length ≤ b) :
    slice (blit m a bs) b n = slice m b n :=
  slice_congr fun _ hk _ => blit_of_le m bs (by omega)

theorem slice_blit_append (m : ℕ → α) (bs : List α) (a : ℕ) :
    slice (blit m a bs) 0 (a + bs.length) = slice m 0 a ++ bs := by
  rw [slice_add, Nat.zero_add, slice_blit, slice_blit_of_le m bs (Nat.zero_add a).le]

theorem blit_update (m : ℕ → α) {a : ℕ} (b : α) :
    ∀ (bs : List α) {c : ℕ}, a < c →
      blit (update m a b) c bs = update (blit m c bs) a b
  | [], _, _ => rfl
  | b' :: bs, c, h => by
    rw [blit, blit_update m b bs (h.trans (Nat.lt_succ_self c)), blit,
      update_comm (by omega)]

theorem blit_blit (m : ℕ → α) (bs' : List α) :
    ∀ (bs : List α) (a : ℕ), blit (blit m a bs) (a + bs.length) bs' = blit m a (bs ++ bs')
  | [], _ => rfl
  | b :: bs, a => by
    rw [blit, blit_update _ _ _ (by rw [length_cons]; omega), length_cons,
      show a + (bs.length + 1) = a + 1 + bs.length by omega, blit_blit m bs' bs (a + 1),
      cons_append, blit]

end SkynetGame
