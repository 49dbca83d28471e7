import Mathlib.Data.Int.Notation
import Mathlib.Data.Nat.Notation
import Mathlib.Tactic.ByContra
import Mathlib.Tactic.SplitIfs

/-!
# Binary search

`bisect c` looks for a place where `c` is `eq`, in an interval closed on both sides, where each place
says on which side of it the search is to go on. It finds such a place, or where one would have to be
(`bisect_found`, `bisect_missed`), if a place is `gt` as soon as one before it is not `lt` (`Splits`).
-/

namespace SkynetGame

/-- The place that is `eq`, or the first that is not `lt`; the first argument bounds the rounds. -/
def bisect (c : ℕ → Ordering) : ℕ → ℤ → ℤ → ℕ ⊕ ℕ
  | 0, begin, _ => .inr begin.toNat
  | fuel + 1, begin, last =>
    if begin ≤ last then
      let mid := ((begin + last) / 2).toNat
      match c mid with
      | .eq => .inl mid
      | .lt => bisect c fuel (mid + 1) last
      | .gt => bisect c fuel begin (mid - 1)
    else .inr begin.toNat

/-- The places below `n` are `lt` up to one, and `gt` after it. -/
def Splits (c : ℕ → Ordering) (n : ℕ) : Prop := ∀ i j, i < j → j < n → c i ≠ .lt → c j = .gt

/-- What the search has come to. -/
structure Narrowed (c : ℕ → Ordering) (n : ℕ) (begin last : ℤ) : Prop where
  nonneg : 0 ≤ begin
  lt : last < n
  le : begin ≤ last + 1
  below : ∀ i : ℕ, i < begin → c i = .lt
  above : ∀ i : ℕ, last < i → i < n → c i = .gt

variable {c : ℕ → Ordering} {n fuel : ℕ} {begin last : ℤ}

theorem Narrowed.start (c : ℕ → Ordering) (n : ℕ) : Narrowed c n 0 (n - 1) :=
  ⟨Int.le_refl 0, by omega, by omega, fun i hi => by omega, fun i hi hn => by omega⟩

/-- The search narrows to the interval right or left of a place that is not `eq`. -/
theorem Narrowed.right (h : Narrowed c n begin last) (hc : Splits c n) {mid : ℕ}
    (hb : begin ≤ mid) (hl : mid ≤ last) (hlt : c mid = .lt) : Narrowed c n (mid + 1) last := by
  have hn := h.nonneg
  have hlast := h.lt
  refine ⟨by omega, h.lt, by omega, fun i hi => ?_, h.above⟩
  rcases Nat.lt_or_eq_of_le (show i ≤ mid by omega) with hi | rfl
  · by_contra hne
    cases hlt.symm.trans (hc i mid hi (by omega) hne)
  · exact hlt

theorem Narrowed.left (h : Narrowed c n begin last) (hc : Splits c n) {mid : ℕ}
    (hb : begin ≤ mid) (hl : mid ≤ last) (hgt : c mid = .gt) : Narrowed c n begin (mid - 1) := by
  have hlast := h.lt
  refine ⟨h.nonneg, by omega, by omega, h.below, fun i hi hin => ?_⟩
  rcases Nat.lt_or_eq_of_le (show mid ≤ i by omega) with hi | rfl
  · exact hc mid i hi hin (by rw [hgt]; decide)
  · exact hgt

/-- Where no interval is left, the place is known. -/
theorem Narrowed.empty (h : Narrowed c n begin last) (hlt : ¬ begin ≤ last) :
    begin.toNat ≤ n ∧ (∀ i < begin.toNat, c i = .lt) ∧ ∀ i, begin.toNat ≤ i → i < n → c i = .gt := by
  have hn := h.nonneg
  have hlast := h.lt
  have hle := h.le
  exact ⟨by omega, fun i hi => h.below i (by omega), fun i hi hin => h.above i (by omega) hin⟩

theorem bisect_spec (hc : Splits c n) : ∀ (fuel : ℕ) {begin last : ℤ}, Narrowed c n begin last →
    last + 1 - begin < fuel →
      (∀ i, bisect c fuel begin last = .inl i → i < n ∧ c i = .eq)
      ∧ ∀ k, bisect c fuel begin last = .inr k →
        k ≤ n ∧ (∀ i < k, c i = .lt) ∧ ∀ i, k ≤ i → i < n → c i = .gt
  | 0, begin, last, h, hfuel => by
    have := h.le
    omega
  | fuel + 1, begin, last, h, hfuel => by
    rw [bisect]
    split_ifs with hle
    · have hlast := h.lt
      have hn := h.nonneg
      obtain ⟨mid, hmid⟩ : ∃ mid, mid = ((begin + last) / 2).toNat := ⟨_, rfl⟩
      rw [← hmid]
      have hb : begin ≤ mid := by omega
      have hl : mid ≤ last := by omega
      dsimp only
      cases hcmp : c mid with
      | eq =>
        refine ⟨fun i hi => ?_, fun k hk => ?_⟩
        · obtain rfl := Sum.inl.inj hi
          exact ⟨by omega, hcmp⟩
        · cases hk
      | lt => exact bisect_spec hc fuel (h.right hc hb hl hcmp) (by omega)
      | gt => exact bisect_spec hc fuel (h.left hc hb hl hcmp) (by omega)
    · refine ⟨fun i hi => ?_, fun k hk => ?_⟩
      · cases hi
      · obtain rfl := Sum.inr.inj hk
        exact h.empty hle

theorem bisect_found (hc : Splits c n) {i : ℕ} (h : bisect c (n + 1) 0 (n - 1) = .inl i) :
    i < n ∧ c i = .eq :=
  (bisect_spec hc (n + 1) (Narrowed.start c n) (by omega)).1 i h

theorem bisect_missed (hc : Splits c n) {k : ℕ} (h : bisect c (n + 1) 0 (n - 1) = .inr k) :
    k ≤ n ∧ (∀ i < k, c i = .lt) ∧ ∀ i, k ≤ i → i < n → c i = .gt :=
  (bisect_spec hc (n + 1) (Narrowed.start c n) (by omega)).2 k h

end SkynetGame
