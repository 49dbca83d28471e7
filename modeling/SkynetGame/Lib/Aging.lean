import Mathlib.Data.List.Nodup
import Mathlib.Data.List.Perm.Subperm

/-!
# Marks of a counter that is set back

What is used gets the mark that a counter shows, and the counter goes on. From time to time all
marks are taken down by the same amount, those that are too small for it are lost, and the counter
is set behind the largest one. As the distance of a mark from the counter does not grow by that, a
mark can be lost only after as many uses as were allowed (`Aged.outlived`).
-/

namespace SkynetGame

open Function

variable {κ : Type*}

/-- The marks lie below the counter, each on its own, and none is further from it than there were
uses since its own; `stamp` tells the number of uses there had been with it. -/
structure Aged (mark : κ → Option ℕ) (top uses : ℕ) (stamp : κ → Option ℕ) : Prop where
  below : ∀ {k i}, mark k = some i → i < top
  inj : ∀ {k k' i}, mark k = some i → mark k' = some i → k = k'
  dist : ∀ {k i}, mark k = some i → ∃ n, stamp k = some n ∧ top + n ≤ uses + 1 + i

namespace Aged

variable {mark mark' stamp stamp' : κ → Option ℕ} {top uses N : ℕ} {k : κ}

theorem nil : Aged (fun _ : κ => none) top uses stamp := by
  refine ⟨?_, ?_, ?_⟩
  · rintro k i ⟨⟩
  · rintro k k' i ⟨⟩
  · rintro k i ⟨⟩

/-- Some marks are dropped. -/
theorem mono (h : Aged mark top uses stamp) (hsub : ∀ {k i}, mark' k = some i → mark k = some i)
    (hstamp : ∀ {k i}, mark' k = some i → stamp' k = stamp k) : Aged mark' top uses stamp' := by
  refine ⟨fun hk => h.below (hsub hk), fun hk hk' => h.inj (hsub hk) (hsub hk'), fun hk => ?_⟩
  rw [hstamp hk]
  exact h.dist (hsub hk)

/-- A use of something that has no mark any more. -/
theorem pass (h : Aged mark top uses stamp) : Aged mark (top + 1) (uses + 1) stamp := by
  refine ⟨fun hk => Nat.lt_succ_of_lt (h.below hk), h.inj, fun hk => ?_⟩
  obtain ⟨n, hn, hle⟩ := h.dist hk
  exact ⟨n, hn, by omega⟩

/-- A use. -/
theorem touch [DecidableEq κ] (h : Aged mark top uses stamp) (k : κ) :
    Aged (update mark k (some top)) (top + 1) (uses + 1)
      (update stamp k (some (uses + 1))) := by
  have hmark : ∀ {k' i}, update mark k (some top) k' = some i →
      k' = k ∧ i = top ∨ k' ≠ k ∧ mark k' = some i := by
    intro k' i hk
    by_cases he : k' = k
    · rw [he, update_self] at hk
      exact .inl ⟨he, (Option.some.inj hk).symm⟩
    · rw [update_of_ne he] at hk
      exact .inr ⟨he, hk⟩
  refine ⟨fun hk => ?_, fun hk hk' => ?_, fun hk => ?_⟩
  · rcases hmark hk with ⟨-, rfl⟩ | ⟨-, hold⟩
    · exact Nat.lt_succ_self _
    · exact Nat.lt_succ_of_lt (h.below hold)
  · rcases hmark hk with ⟨h₁, hi⟩ | ⟨-, hold⟩
    · rcases hmark hk' with ⟨h₂, -⟩ | ⟨-, hold'⟩
      · rw [h₁, h₂]
      · exact absurd (h.below hold') (hi ▸ Nat.lt_irrefl _)
    · rcases hmark hk' with ⟨-, hi⟩ | ⟨-, hold'⟩
      · exact absurd (h.below hold) (hi ▸ Nat.lt_irrefl _)
      · exact h.inj hold hold'
  · rcases hmark hk with ⟨he, rfl⟩ | ⟨he, hold⟩
    · exact ⟨uses + 1, by rw [he, update_self], by omega⟩
    · obtain ⟨n, hn, hle⟩ := h.dist hold
      exact ⟨n, by rw [update_of_ne he, hn], by omega⟩

/-- All marks are taken down, and the counter by no less. -/
theorem shift (h : Aged mark top uses stamp) {top' : ℕ}
    (hmark : ∀ {k i}, mark' k = some i → mark k = some (i + N))
    (hbelow : ∀ {k i}, mark' k = some i → i < top') (htop : top' + N ≤ top) :
    Aged mark' top' uses stamp := by
  refine ⟨hbelow, fun hk hk' => h.inj (hmark hk) (hmark hk'), fun hk => ?_⟩
  obtain ⟨n, hn, hle⟩ := h.dist (hmark hk)
  exact ⟨n, hn, by omega⟩

theorem outlived (h : Aged mark top uses stamp) {i n : ℕ} (hk : mark k = some i)
    (hn : stamp k = some n) (hlt : i < N) (htop : N * 2 ≤ top) : n + N ≤ uses := by
  obtain ⟨n', hn', hle⟩ := h.dist hk
  rw [hn] at hn'
  obtain rfl := Option.some.inj hn'
  omega

/-- There are not more marks than the counter shows. -/
theorem length_le (h : Aged mark top uses stamp) {l : List κ} (hnd : l.Nodup)
    (hl : ∀ k ∈ l, mark k ≠ none) : l.length ≤ top := by
  have hsub : l.map (fun k => (mark k).getD 0) ⊆ List.range top := by
    intro i hi
    obtain ⟨k, hk, rfl⟩ := List.mem_map.1 hi
    obtain ⟨j, hj⟩ := Option.ne_none_iff_exists'.1 (hl k hk)
    rw [hj]
    exact List.mem_range.2 (h.below hj)
  have hnd' : (l.map fun k => (mark k).getD 0).Nodup := by
    refine List.Nodup.map_on (fun k hk k' hk' heq => ?_) hnd
    obtain ⟨j, hj⟩ := Option.ne_none_iff_exists'.1 (hl k hk)
    obtain ⟨j', hj'⟩ := Option.ne_none_iff_exists'.1 (hl k' hk')
    rw [hj, hj'] at heq
    obtain rfl : j = j' := heq
    exact h.inj hj hj'
  have hle := (hnd'.subperm hsub).length_le
  rwa [List.length_map, List.length_range] at hle

end Aged

end SkynetGame
