import Mathlib.Data.List.Basic

/-!
# How a computation that may fail ends

Either with a result that something is true of, or with an error that there is a reason for. Where
the reason is that a condition does not hold, the computation succeeds under the condition
(`Ends.exists_ok`). A loop keeps what is true of its state, and fails where one of its steps does
(`Ends.foldlM`).
-/

namespace SkynetGame

variable {ε α β σ : Type}

/-- A result meets `post`, and an error is there for the reason `bad`. -/
def Ends (post : α → Prop) (bad : Prop) : Except ε α → Prop
  | .ok a => post a
  | .error _ => bad

namespace Ends

variable {post : α → Prop} {bad : Prop} {r : Except ε α}

theorem mono (h : Ends post bad r) {post' : α → Prop} {bad' : Prop} (hpost : ∀ a, post a → post' a)
    (hbad : bad → bad') : Ends post' bad' r := by
  cases r with
  | ok a => exact hpost a h
  | error e => exact hbad h

theorem bind (h : Ends post bad r) {post' : β → Prop} {f : α → Except ε β}
    (hf : ∀ a, post a → Ends post' bad (f a)) : Ends post' bad (r >>= f) := by
  cases r with
  | ok a => exact hf a h
  | error e => exact h

theorem exists_ok (h : Ends post bad r) (hbad : ¬ bad) : ∃ a, r = .ok a ∧ post a := by
  cases r with
  | ok a => exact ⟨a, rfl, h⟩
  | error e => exact absurd h hbad

/-- The invariant speaks of the part of the list that the loop has been through. -/
theorem foldlM {f : σ → β → Except ε σ} (inv : List β → σ → Prop) {l : List β} {s : σ}
    (hs : inv [] s) (hf : ∀ before x after s, l = before ++ x :: after → inv before s →
      Ends (inv (before ++ [x])) bad (f s x)) : Ends (inv l) bad (l.foldlM f s) := by
  have hrun : ∀ (before after : List β) (s : σ), l = before ++ after → inv before s →
      Ends (inv l) bad (after.foldlM f s) := by
    intro before after
    induction after generalizing before with
    | nil =>
      intro s hl h
      rw [List.append_nil] at hl
      rwa [hl]
    | cons x after ih =>
      intro s hl h
      rw [List.foldlM_cons]
      refine bind (hf before x after s hl h) fun s' h' => ?_
      refine ih (before ++ [x]) s' ?_ h'
      rw [hl, List.append_assoc, List.singleton_append]
  exact hrun [] l s rfl hs

end Ends

end SkynetGame
