import Mathlib.Algebra.BigOperators.Group.List.Basic
import Mathlib.Algebra.GroupWithZero.Nat
import Mathlib.Data.Nat.Count

/-!
# What a list of processes holds together

`tally f l` adds up what `f` counts of each entry of `l`. Replacing one entry changes the sum by
that entry alone, so a resource that is counted process by process moves with the process that
takes the step (`tally_set`). `count_update` is the same for a table's first places.
-/

namespace SkynetGame

variable {α β : Type*}

/-- What `f` counts over the entries of `l`. -/
def tally (f : α → ℕ) (l : List α) : ℕ := (l.map f).sum

@[simp] theorem tally_nil (f : α → ℕ) : tally f [] = 0 := rfl

@[simp] theorem tally_cons (f : α → ℕ) (a : α) (l : List α) :
    tally f (a :: l) = f a + tally f l := by simp [tally]

@[simp] theorem tally_append (f : α → ℕ) (l₁ l₂ : List α) :
    tally f (l₁ ++ l₂) = tally f l₁ + tally f l₂ := by simp [tally]

theorem tally_set (f : α → ℕ) : ∀ {l : List α} {i : ℕ} {a : α}, l[i]? = some a → ∀ b,
    tally f (l.set i b) + f a = tally f l + f b
  | [], _, _, h, _ => by simp at h
  | x :: l, 0, a, h, b => by
    simp only [List.getElem?_cons_zero, Option.some.injEq] at h
    subst h
    simp only [List.set_cons_zero, tally_cons]
    omega
  | x :: l, i + 1, a, h, b => by
    simp only [List.getElem?_cons_succ] at h
    have := tally_set f h b
    simp only [List.set_cons_succ, tally_cons]
    omega

theorem le_tally (f : α → ℕ) {l : List α} {i : ℕ} {a : α} (h : l[i]? = some a) :
    f a ≤ tally f l := by
  induction l generalizing i with
  | nil => simp at h
  | cons x l ih =>
    rw [tally_cons]
    cases i with
    | zero =>
      simp only [List.getElem?_cons_zero, Option.some.injEq] at h
      subst h
      omega
    | succ i =>
      simp only [List.getElem?_cons_succ] at h
      have := ih h
      omega

theorem le_tally_of_mem (f : α → ℕ) {l : List α} {a : α} (h : a ∈ l) : f a ≤ tally f l := by
  obtain ⟨i, hi, rfl⟩ := List.getElem_of_mem h
  exact le_tally f (List.getElem?_eq_getElem hi)

/-- Two entries at different places count at most the whole between them. -/
theorem add_le_tally (f : α → ℕ) : ∀ {l : List α} {i j : ℕ} {a b : α}, i ≠ j →
    l[i]? = some a → l[j]? = some b → f a + f b ≤ tally f l
  | [], _, _, _, _, _, h, _ => by simp at h
  | x :: l, 0, 0, _, _, hne, _, _ => absurd rfl hne
  | x :: l, 0, j + 1, a, b, _, hi, hj => by
    simp only [List.getElem?_cons_zero, Option.some.injEq, List.getElem?_cons_succ] at hi hj
    have := le_tally f hj
    subst hi
    rw [tally_cons]
    omega
  | x :: l, i + 1, 0, a, b, _, hi, hj => by
    simp only [List.getElem?_cons_zero, Option.some.injEq, List.getElem?_cons_succ] at hi hj
    have := le_tally f hi
    subst hj
    rw [tally_cons]
    omega
  | x :: l, i + 1, j + 1, a, b, hne, hi, hj => by
    simp only [List.getElem?_cons_succ] at hi hj
    have := add_le_tally f (by omega) hi hj
    rw [tally_cons]
    omega

theorem tally_pos {f : α → ℕ} {l : List α} (h : 0 < tally f l) : ∃ a ∈ l, 0 < f a := by
  induction l with
  | nil => simp at h
  | cons x l ih =>
    rw [tally_cons] at h
    rcases Nat.eq_zero_or_pos (f x) with hx | hx
    · obtain ⟨a, ha, hfa⟩ := ih (by omega)
      exact ⟨a, List.mem_cons_of_mem _ ha, hfa⟩
    · exact ⟨x, List.mem_cons_self, hx⟩

theorem tally_le_tally {f g : α → ℕ} (h : ∀ a, f a ≤ g a) (l : List α) :
    tally f l ≤ tally g l := by
  induction l with
  | nil => simp
  | cons x l ih =>
    have := h x
    simp only [tally_cons]
    omega

theorem count_update (p : α → Prop) [DecidablePred p] (f : ℕ → α) {i n : ℕ} (hi : i < n) (a : α) :
    Nat.count (fun k => p (Function.update f i a k)) n + (if p (f i) then 1 else 0)
      = Nat.count (fun k => p (f k)) n + if p a then 1 else 0 := by
  induction n with
  | zero => omega
  | succ n ih =>
    simp only [Nat.count_succ]
    rcases Nat.lt_succ_iff_lt_or_eq.1 hi with hi | rfl
    · have hne : n ≠ i := by omega
      have := ih hi
      simp only [Function.update_of_ne hne]
      omega
    · have hsame : Nat.count (fun k => p (Function.update f i a k)) i
          = Nat.count (fun k => p (f k)) i := by
        apply le_antisymm
        · refine Nat.count_mono_left fun k hk h => ?_
          rwa [Function.update_of_ne (by omega)] at h
        · refine Nat.count_mono_left fun k hk h => ?_
          rwa [Function.update_of_ne (by omega)]
      simp only [hsame, Function.update_self]
      omega

theorem flatMap_set_of_alone (f : α → List β) : ∀ {l : List α} {i : ℕ} {a : α},
    l[i]? = some a → (∀ j b, j ≠ i → l[j]? = some b → f b = []) → ∀ b,
    l.flatMap f = f a ∧ (l.set i b).flatMap f = f b
  | [], _, _, h, _, _ => by simp at h
  | x :: l, 0, a, h, hal, b => by
    simp only [List.getElem?_cons_zero, Option.some.injEq] at h
    subst h
    have hl : l.flatMap f = [] := by
      rw [List.flatMap_eq_nil_iff]
      intro y hy
      obtain ⟨j, hj, rfl⟩ := List.getElem_of_mem hy
      exact hal (j + 1) _ (by omega) (by simp [hj])
    simp [hl]
  | x :: l, i + 1, a, h, hal, b => by
    simp only [List.getElem?_cons_succ] at h
    have hx : f x = [] := hal 0 x (by omega) (by simp)
    have := flatMap_set_of_alone f h
      (fun j c hj hc => hal (j + 1) c (by omega) (by simpa using hc)) b
    simpa [hx] using this

theorem flatMap_set_of_eq (f : α → List β) : ∀ {l : List α} {i : ℕ} {a : α},
    l[i]? = some a → ∀ {b}, f b = f a → (l.set i b).flatMap f = l.flatMap f
  | [], _, _, h, _, _ => by simp at h
  | x :: l, 0, a, h, b, hb => by
    simp only [List.getElem?_cons_zero, Option.some.injEq] at h
    subst h
    simp [hb]
  | x :: l, i + 1, a, h, b, hb => by
    simp only [List.getElem?_cons_succ] at h
    simp [flatMap_set_of_eq f h hb]

end SkynetGame
