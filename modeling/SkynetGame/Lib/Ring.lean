import Mathlib.Data.List.Basic
import Mathlib.Data.Nat.ModEq

/-!
# Rings

A ring of `cap` cells holds the entries from `head` up to `tail`, cyclically; it is empty exactly
when the two meet. Writing at `tail` appends (`ringList_write`), reading at `head` takes the
front (`ringList_read`), and a ring that fills up with a write is laid out anew, from cell zero,
in twice the room (`ringList_grow`).
-/

namespace SkynetGame

open Function

variable {α : Type*}

/-- The next cell of a ring, as a C loop counter computes it. -/
def ringNext (cap i : ℕ) : ℕ := if i + 1 ≥ cap then 0 else i + 1

/-- How many entries lie between `head` and `tail`. -/
def ringLen (cap head tail : ℕ) : ℕ := if head ≤ tail then tail - head else tail + cap - head

/-- The `n` entries from `head` on. -/
def ringSeg (buf : ℕ → α) (cap head n : ℕ) : List α :=
  (List.range n).map fun i => buf ((head + i) % cap)

/-- The entries of a ring, front first. -/
def ringList (buf : ℕ → α) (cap head tail : ℕ) : List α :=
  ringSeg buf cap head (ringLen cap head tail)

variable {cap head tail : ℕ}

theorem ringNext_lt (h : 0 < cap) (i : ℕ) : ringNext cap i < cap := by
  unfold ringNext
  split <;> omega

/-- The same as C computes it with a remainder. -/
theorem ringNext_eq_mod {i : ℕ} (h : i < cap) : ringNext cap i = (i + 1) % cap := by
  unfold ringNext
  split
  · rw [show i + 1 = cap by omega, Nat.mod_self]
  · rw [Nat.mod_eq_of_lt (by omega)]

theorem ringLen_lt (hh : head < cap) (ht : tail < cap) : ringLen cap head tail < cap := by
  unfold ringLen
  split <;> omega

theorem ringLen_eq_zero (hh : head < cap) : ringLen cap head tail = 0 ↔ head = tail := by
  unfold ringLen
  split <;> omega

theorem add_ringLen_mod (hh : head < cap) (ht : tail < cap) :
    (head + ringLen cap head tail) % cap = tail := by
  unfold ringLen
  split
  · rw [show head + (tail - head) = tail by omega, Nat.mod_eq_of_lt ht]
  · rw [show head + (tail + cap - head) = tail + cap by omega, Nat.add_mod_right,
      Nat.mod_eq_of_lt ht]

@[simp] theorem length_ringSeg (buf : ℕ → α) (n : ℕ) : (ringSeg buf cap head n).length = n := by
  simp [ringSeg]

@[simp] theorem length_ringList (buf : ℕ → α) :
    (ringList buf cap head tail).length = ringLen cap head tail := by simp [ringList]

theorem ringList_eq_nil (hh : head < cap) (buf : ℕ → α) :
    ringList buf cap head tail = [] ↔ head = tail := by
  rw [← List.length_eq_zero_iff, length_ringList, ringLen_eq_zero hh]

theorem ringSeg_succ (buf : ℕ → α) (n : ℕ) :
    ringSeg buf cap head (n + 1) = ringSeg buf cap head n ++ [buf ((head + n) % cap)] := by
  simp [ringSeg, List.range_succ]

theorem ringSeg_update (buf : ℕ → α) (x : α) {n : ℕ} (hn : n < cap) :
    ringSeg (update buf ((head + n) % cap) x) cap head n = ringSeg buf cap head n := by
  refine List.map_congr_left fun i hi => ?_
  rw [List.mem_range] at hi
  refine update_of_ne (fun h => ?_) x buf
  have hmod : i ≡ n [MOD cap] := Nat.ModEq.add_left_cancel' head h
  rw [Nat.ModEq, Nat.mod_eq_of_lt (Nat.lt_trans hi hn), Nat.mod_eq_of_lt hn] at hmod
  omega

/-- Writing at `tail` puts one more entry behind the others. -/
theorem ringSeg_write (buf : ℕ → α) (x : α) (hh : head < cap) (ht : tail < cap) :
    ringSeg (update buf tail x) cap head (ringLen cap head tail + 1)
      = ringList buf cap head tail ++ [x] := by
  have hmod := add_ringLen_mod hh ht
  have hkeep : ringSeg (update buf ((head + ringLen cap head tail) % cap) x) cap head
      (ringLen cap head tail) = ringList buf cap head tail :=
    ringSeg_update buf x (ringLen_lt hh ht)
  rw [ringSeg_succ, hmod, update_self, ← hkeep, hmod]

theorem ringLen_next (hh : head < cap) (ht : tail < cap) (hne : head ≠ ringNext cap tail) :
    ringLen cap head (ringNext cap tail) = ringLen cap head tail + 1 := by
  unfold ringNext at hne ⊢
  unfold ringLen
  split at hne <;> rename_i hw
  · rw [if_pos hw]
    split <;> split <;> omega
  · rw [if_neg hw]
    split <;> split <;> omega

theorem ringLen_full (hh : head < cap) (ht : tail < cap) (he : head = ringNext cap tail) :
    ringLen cap head tail + 1 = cap := by
  unfold ringNext at he
  unfold ringLen
  split at he <;> split <;> omega

theorem ringList_write (buf : ℕ → α) (x : α) (hh : head < cap) (ht : tail < cap)
    (hne : head ≠ ringNext cap tail) :
    ringList (update buf tail x) cap head (ringNext cap tail)
      = ringList buf cap head tail ++ [x] := by
  rw [ringList, ringLen_next hh ht hne, ringSeg_write buf x hh ht]

theorem ringList_lay {buf buf' : ℕ → α} {cap' n : ℕ} (hn : n < cap')
    (hcopy : ∀ i < n, buf' i = buf ((head + i) % cap)) :
    ringList buf' cap' 0 n = ringSeg buf cap head n := by
  unfold ringList ringSeg
  rw [show ringLen cap' 0 n = n by simp [ringLen]]
  refine List.map_congr_left fun i hi => ?_
  rw [List.mem_range] at hi
  rw [Nat.zero_add, Nat.mod_eq_of_lt (Nat.lt_trans hi hn), hcopy i hi]

theorem ringList_grow (buf : ℕ → α) {cap' : ℕ} (hle : cap < cap') :
    ringList (fun i => buf ((head + i) % cap)) cap' 0 cap = ringSeg buf cap head cap :=
  ringList_lay hle fun _ _ => rfl

/-- A write that fills the ring, and the copy to a larger one that follows it. -/
theorem ringList_write_grow (buf : ℕ → α) (x : α) {cap' : ℕ} (hh : head < cap) (ht : tail < cap)
    (he : head = ringNext cap tail) (hle : cap < cap') :
    ringList (fun i => update buf tail x ((head + i) % cap)) cap' 0 cap
      = ringList buf cap head tail ++ [x] := by
  rw [ringList_grow _ hle, ← ringSeg_write buf x hh ht, ringLen_full hh ht he]

theorem ringSeg_cons (buf : ℕ → α) (hh : head < cap) (n : ℕ) :
    ringSeg buf cap head (n + 1) = buf head :: ringSeg buf cap (ringNext cap head) n := by
  unfold ringSeg
  rw [List.range_succ_eq_map, List.map_cons, List.map_map]
  congr 1
  · rw [Nat.add_zero, Nat.mod_eq_of_lt hh]
  · refine List.map_congr_left fun i _ => ?_
    simp only [Function.comp_apply]
    congr 1
    unfold ringNext
    split <;> rename_i hw
    · rw [show head + (i + 1) = i + cap by omega, Nat.add_mod_right, Nat.zero_add]
    · congr 1
      omega

/-- Reading at `head` and moving it on takes the front entry off. -/
theorem ringList_read (buf : ℕ → α) (hh : head < cap) (ht : tail < cap) (hne : head ≠ tail) :
    ringList buf cap head tail = buf head :: ringList buf cap (ringNext cap head) tail := by
  have hlen : ringLen cap head tail = ringLen cap (ringNext cap head) tail + 1 := by
    unfold ringNext ringLen
    split
    · split <;> split <;> omega
    · split <;> split <;> omega
  rw [ringList, hlen, ringSeg_cons buf hh, ringList]

end SkynetGame
