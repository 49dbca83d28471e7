import Mathlib.Combinatorics.Pigeonhole

/-!
# Following a partial function

From a place `f` leads to the next one, or nowhere. Where only finitely many places lead anywhere,
the way from a place ends, within so many steps, or it comes to a place that it leads back to.
-/

namespace SkynetGame

namespace Orbit

variable {α : Type*} (f : α → Option α)

/-- Where `n` steps lead. -/
def steps : ℕ → α → Option α
  | 0, a => some a
  | n + 1, a => (f a).bind (steps n)

/-- One step. -/
def Next (a b : α) : Prop := f a = some b

/-- The way from here comes to a place that it leads back to. -/
def Circular (a : α) : Prop :=
  ∃ b, Relation.ReflTransGen (Next f) a b ∧ Relation.TransGen (Next f) b b

/-- The way from here ends at `b`. -/
def EndsAt (a b : α) : Prop := Relation.ReflTransGen (Next f) a b ∧ f b = none

variable {f} {a b c : α}

theorem steps_succ (n : ℕ) : ∀ a : α, steps f (n + 1) a = (steps f n a).bind f := by
  induction n with
  | zero =>
    intro a
    simp [steps]
  | succ n ih =>
    intro a
    rw [steps]
    rcases h : f a with _ | b
    · simp [steps, h]
    · simp [steps, h, ← ih]

theorem steps_add (m n : ℕ) (a : α) : steps f (m + n) a = (steps f m a).bind (steps f n) := by
  induction n with
  | zero => simp [steps]
  | succ n ih =>
    rw [← Nat.add_assoc, steps_succ, ih]
    rcases steps f m a with _ | b
    · rfl
    · exact (steps_succ n b).symm

theorem reflTransGen_of_steps {n : ℕ} (h : steps f n a = some b) :
    Relation.ReflTransGen (Next f) a b := by
  induction n generalizing b with
  | zero =>
    cases h
    exact .refl
  | succ n ih =>
    rw [steps_succ, Option.bind_eq_some_iff] at h
    obtain ⟨c, hc, hb⟩ := h
    exact (ih hc).tail hb

theorem Circular.step (h : Circular f a) : ∃ b, f a = some b ∧ Circular f b := by
  obtain ⟨c, hac, hcc⟩ := h
  rcases Relation.ReflTransGen.cases_head hac with rfl | ⟨b, hab, hbc⟩
  · obtain ⟨b, hb, hbc⟩ := Relation.TransGen.head'_iff.1 hcc
    exact ⟨b, hb, a, hbc, hcc⟩
  · exact ⟨b, hab, c, hbc, hcc⟩

theorem circular_of_steps {i j : ℕ} (hlt : i < j) (hi : steps f i a = some b)
    (hj : steps f j a = some b) : Circular f a := by
  refine ⟨b, reflTransGen_of_steps hi, ?_⟩
  obtain ⟨k, rfl⟩ : ∃ k, j = i + (1 + k) := ⟨j - i - 1, by omega⟩
  rw [steps_add, hi, Option.bind_some, steps_add, Option.bind_eq_some_iff] at hj
  obtain ⟨c, hc, hb⟩ := hj
  have hstep : f b = some c := by simpa [steps] using hc
  exact .head' hstep (reflTransGen_of_steps hb)

/-- Where only the places of `s` lead anywhere, a way that is not circular ends soon. -/
theorem exists_endsAt {s : Finset α} (hs : ∀ a, (f a).isSome → a ∈ s) (h : ¬ Circular f a) :
    ∃ n ≤ s.card, ∃ b, steps f n a = some b ∧ f b = none := by
  by_contra hnot
  -- then each of the first places leads on
  have hon : ∀ n ≤ s.card, ∀ b, steps f n a = some b → f b ≠ none := fun n hn b hb hnone =>
    hnot ⟨n, hn, b, hb, hnone⟩
  have hsome : ∀ n ≤ s.card + 1, ∃ b, steps f n a = some b := by
    intro n
    induction n with
    | zero => exact fun _ => ⟨a, rfl⟩
    | succ n ih =>
      intro hn
      obtain ⟨b, hb⟩ := ih (by omega)
      obtain ⟨c, hc⟩ := Option.ne_none_iff_exists'.1 (hon n (by omega) b hb)
      exact ⟨c, by rw [steps_succ, hb]; exact hc⟩
  have hplace : ∀ n ≤ s.card + 1, steps f n a = some ((steps f n a).getD a) := by
    intro n hn
    obtain ⟨b, hb⟩ := hsome n hn
    rw [hb, Option.getD_some]
  have hmaps : ∀ n ∈ Finset.range (s.card + 1), (steps f n a).getD a ∈ s := by
    intro n hn
    rw [Finset.mem_range] at hn
    exact hs _ (Option.isSome_iff_ne_none.2 (hon n (by omega) _ (hplace n (by omega))))
  obtain ⟨i, hi, j, hj, hne, heq⟩ :=
    Finset.exists_ne_map_eq_of_card_lt_of_maps_to (by simp) hmaps
  rw [Finset.mem_range] at hi hj
  have hsame : steps f i a = steps f j a := by
    rw [hplace i (by omega), hplace j (by omega), heq]
  rcases Nat.lt_or_gt_of_ne hne with hlt | hlt
  · exact h (circular_of_steps hlt (hplace i (by omega)) (hsame ▸ hplace i (by omega)))
  · exact h (circular_of_steps hlt (hplace j (by omega)) (hsame ▸ hplace j (by omega)))

end Orbit

end SkynetGame
