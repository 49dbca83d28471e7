import Mathlib.Data.List.Nodup

/-!
# Singly linked queues

A queue threaded through its own members: `next` gives each member the one behind it, `head` and
`tail` the two ends. `LinkedQueue next head tail l` says that the three lay out the list `l` and
that nothing outside it points anywhere. A member is put in behind the tail (`LinkedQueue.push_some`)
and taken out at the head (`LinkedQueue.pop`).
-/

namespace SkynetGame

open Function List

variable {κ : Type*}

/-- `head`, `tail` and `next` lay out `l`. -/
structure LinkedQueue (next : κ → Option κ) (head tail : Option κ) (l : List κ) : Prop where
  nodup : l.Nodup
  head_eq : head = l.head?
  tail_eq : tail = l.getLast?
  next_eq : ∀ l₁ x l₂, l = l₁ ++ x :: l₂ → next x = l₂.head?
  off : ∀ x, x ∉ l → next x = none

namespace LinkedQueue

variable {next : κ → Option κ} {head tail : Option κ} {l : List κ}

theorem empty {next : κ → Option κ} (h : ∀ x, next x = none) : LinkedQueue next none none [] where
  nodup := nodup_nil
  head_eq := rfl
  tail_eq := rfl
  next_eq := fun l₁ x l₂ hl => by simp at hl
  off := fun x _ => h x

theorem next_of_cons {x : κ} (h : LinkedQueue next head tail (x :: l)) : next x = l.head? :=
  h.next_eq [] x l rfl

theorem tail_of_next {x : κ} (h : LinkedQueue next head tail (x :: l)) (hn : next x = none) :
    l = [] ∧ tail = some x := by
  rw [h.next_of_cons, head?_eq_none_iff] at hn
  subst hn
  exact ⟨rfl, by simpa using h.tail_eq⟩

theorem push_none (h : LinkedQueue next head none l) {x : κ} (hx : x ∉ l) :
    LinkedQueue next (some x) (some x) (l ++ [x]) := by
  have hl : l = [] := getLast?_eq_none_iff.1 h.tail_eq.symm
  subst hl
  refine ⟨by simp, by simp, by simp, ?_, fun y _ => h.off y (by simp)⟩
  intro l₁ y l₂ hl
  rcases l₁ with _ | ⟨z, l₁⟩
  · simp only [nil_append, List.cons.injEq] at hl
    obtain ⟨rfl, rfl⟩ := hl
    exact h.off x hx
  · simp at hl

variable [DecidableEq κ]

theorem push_some {t : κ} (h : LinkedQueue next head (some t) l) {x : κ} (hx : x ∉ l) :
    LinkedQueue (update next t (some x)) head (some x) (l ++ [x]) := by
  have hnx : next x = none := h.off x hx
  obtain ⟨l', rfl⟩ : ∃ l', l = l' ++ [t] := getLast?_eq_some_iff.1 h.tail_eq.symm
  have htx : x ≠ t := fun he => hx (by simp [he])
  refine ⟨?_, ?_, by simp, ?_, ?_⟩
  · rw [nodup_append]
    refine ⟨h.nodup, by simp, ?_⟩
    rintro a ha b hb rfl
    simp only [mem_singleton] at hb
    exact hx (hb ▸ ha)
  · rw [head?_append]
    simp [h.head_eq]
  · intro l₁ y l₂ hl
    rcases eq_nil_or_concat l₂ with rfl | ⟨l₃, z, rfl⟩
    · -- the new member itself
      have hl' := append_inj' hl rfl
      simp only [List.cons.injEq, and_true] at hl'
      obtain ⟨-, rfl⟩ := hl'
      rw [update_of_ne htx, hnx]
      rfl
    · have happ : (l' ++ [t]) ++ [x] = (l₁ ++ y :: l₃) ++ [z] := by simpa using hl
      obtain ⟨hl', hz⟩ := append_inj' happ rfl
      simp only [List.cons.injEq, and_true] at hz
      subst hz
      have hy := h.next_eq l₁ y l₃ hl'
      rcases l₃ with _ | ⟨w, l₃⟩
      · -- the old tail
        have hyt := (append_inj' hl' rfl).2
        simp only [List.cons.injEq, and_true] at hyt
        subst hyt
        simp
      · have hyt : y ≠ t := by
          rintro rfl
          have hnd := h.nodup
          rw [hl', nodup_append] at hnd
          have hmem : y ∈ w :: l₃ := by
            have hlast := congrArg List.getLast? hl'
            simp only [getLast?_append, getLast?_singleton, Option.some_or] at hlast
            exact mem_of_getLast? (by simpa using hlast.symm)
          exact (nodup_cons.1 hnd.2.1).1 hmem
        rw [update_of_ne hyt, hy]
        simp
  · intro y hy
    have hyt : y ≠ t := fun he => hy (by simp [he])
    rw [update_of_ne hyt]
    exact h.off y fun hm => hy (mem_append_left _ hm)

/-- Taking the head out, and cutting it loose. -/
theorem pop {x : κ} (h : LinkedQueue next head tail (x :: l)) :
    LinkedQueue (update next x none) (next x) (if next x = none then none else tail) l := by
  have hnd := nodup_cons.1 h.nodup
  refine ⟨hnd.2, h.next_of_cons, ?_, ?_, ?_⟩
  · rw [h.next_of_cons, h.tail_eq]
    rcases l with _ | ⟨y, l⟩
    · simp
    · simp
  · rintro l₁ y l₂ rfl
    have hyx : y ≠ x := by
      rintro rfl
      exact hnd.1 (by simp)
    rw [update_of_ne hyx]
    exact h.next_eq (x :: l₁) y l₂ rfl
  · intro y hy
    by_cases hyx : y = x
    · rw [hyx, update_self]
    · rw [update_of_ne hyx]
      exact h.off y (by simp [hyx, hy])

end LinkedQueue

end SkynetGame
