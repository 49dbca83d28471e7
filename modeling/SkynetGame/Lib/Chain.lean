import Mathlib.Data.List.Nodup
import Mathlib.Data.List.Range

/-!
# Lists in a memory they share

Members of several lists live in one memory, where `next` gives each the one behind it. A list is
known by its first member (`Chain`); what is written outside of a list leaves it alone
(`Chain.frame`).
-/

namespace SkynetGame

open Function List

variable {κ : Type*}

/-- From `p` on the members `l` follow each other, up to the end. -/
def Chain (next : κ → Option κ) : Option κ → List κ → Prop
  | p, [] => p = none
  | p, x :: l => p = some x ∧ Chain next (next x) l

namespace Chain

variable {next next' : κ → Option κ} {p : Option κ} {l : List κ} {x t : κ}

theorem frame : ∀ {p : Option κ} {l : List κ}, Chain next p l → (∀ y ∈ l, next' y = next y) →
    Chain next' p l
  | _, [], h, _ => h
  | _, x :: l, h, heq => by
    refine ⟨h.1, ?_⟩
    rw [heq x mem_cons_self]
    exact frame h.2 fun y hy => heq y (mem_cons_of_mem x hy)

theorem eq_nil (h : Chain next none l) : l = [] := by
  cases l with
  | nil => rfl
  | cons x l => cases h.1

theorem eq_cons (h : Chain next (some x) l) : ∃ l', l = x :: l' ∧ Chain next (next x) l' := by
  cases l with
  | nil => cases h
  | cons y l =>
    obtain ⟨heq, hrest⟩ := h
    cases heq
    exact ⟨l, rfl, hrest⟩

/-- From a member on. -/
theorem suffix : ∀ {p : Option κ} {before : List κ}, Chain next p (before ++ x :: l) →
    Chain next (some x) (x :: l)
  | _, [], h => ⟨rfl, h.2⟩
  | _, _ :: _, h => suffix h.2

/-- A list of one member. -/
theorem single (h : next x = none) : Chain next (some x) [x] := ⟨rfl, h⟩

variable [DecidableEq κ]

/-- One more member before the first one. -/
theorem push (h : Chain next p l) (hx : x ∉ l) :
    Chain (update next x p) (some x) (x :: l) := by
  refine ⟨rfl, ?_⟩
  rw [update_self]
  refine h.frame fun y hy => update_of_ne ?_ ..
  rintro rfl
  exact hx hy

/-- The member behind `t` is taken out. -/
theorem unlink : ∀ {p : Option κ} {before : List κ}, Chain next p (before ++ t :: x :: l) →
    (before ++ t :: x :: l).Nodup → Chain (update next t (next x)) p (before ++ t :: l)
  | _, [], h, hnd => by
    obtain ⟨hp, hx, hrest⟩ := h
    refine ⟨hp, ?_⟩
    rw [update_self]
    refine hrest.frame fun y hy => update_of_ne ?_ ..
    rintro rfl
    exact (nodup_cons.1 hnd).1 (mem_cons_of_mem x hy)
  | _, y :: before, h, hnd => by
    obtain ⟨hy, hnd'⟩ := nodup_cons.1 hnd
    have hne : y ≠ t := by
      rintro rfl
      exact hy (mem_append_right _ mem_cons_self)
    refine ⟨h.1, ?_⟩
    rw [update_of_ne hne]
    exact unlink h.2 hnd'

/-- One more member behind the last one. -/
theorem concat : ∀ {p : Option κ} {l : List κ}, Chain next p l → l.getLast? = some t → l.Nodup →
    x ∉ l → next x = none → Chain (update next t (some x)) p (l ++ [x])
  | _, [], _, ht, _, _, _ => by cases ht
  | _, [y], h, ht, _, hx, hnext => by
    rw [List.getLast?_singleton, Option.some.injEq] at ht
    subst ht
    have hne : x ≠ y := fun he => hx (mem_singleton.2 he)
    refine ⟨h.1, ?_⟩
    rw [update_self]
    refine single ?_
    rw [update_of_ne hne]
    exact hnext
  | _, y :: z :: l, h, ht, hnd, hx, hnext => by
    rw [List.getLast?_cons_cons] at ht
    obtain ⟨hy, hnd'⟩ := nodup_cons.1 hnd
    have hne : y ≠ t := fun he => hy (he ▸ List.mem_of_getLast? ht)
    refine ⟨h.1, ?_⟩
    rw [update_of_ne hne]
    exact concat h.2 ht hnd' (fun hm => hx (mem_cons_of_mem y hm)) hnext

/-- Members that lie side by side. -/
theorem range {next : ℕ → Option ℕ} : ∀ {n a : ℕ},
    (∀ i < n, next (a + i) = if i + 1 < n then some (a + i + 1) else none) →
      Chain next (if 0 < n then some a else none) (List.range' a n)
  | 0, _, _ => rfl
  | n + 1, a, h => by
    refine ⟨if_pos n.succ_pos, ?_⟩
    have h₀ := h 0 n.succ_pos
    rw [Nat.add_zero, Nat.zero_add] at h₀
    rw [h₀, if_congr (show 1 < n + 1 ↔ 0 < n by omega) rfl rfl]
    refine range fun i hi => ?_
    have hi' := h (i + 1) (by omega)
    rw [show a + 1 + i = a + (i + 1) by omega, hi',
      if_congr (show i + 1 + 1 < n + 1 ↔ i + 1 < n by omega) rfl rfl]

end Chain

end SkynetGame
