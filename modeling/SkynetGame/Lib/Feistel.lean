import Mathlib.Data.List.Basic

/-!
# Feistel networks

A round keeps one half of a block and mixes a function of it, and of the round's key, into the other
one. Where mixing the same in twice undoes it, the rounds with the keys the other way round, on the
block with its halves changed over, undo the rounds (`rounds_reverse`), whatever the function is.
-/

namespace SkynetGame

namespace Feistel

variable {α κ : Type*} (mix : α → α → α) (f : κ → α → α)

/-- One round: the left half gets the function of the right one mixed in, and they change sides. -/
def round (p : α × α) (k : κ) : α × α := (p.2, mix p.1 (f k p.2))

/-- A round for each key. -/
def rounds (keys : List κ) (p : α × α) : α × α := keys.foldl (round mix f) p

@[simp] theorem rounds_nil (p : α × α) : rounds mix f [] p = p := rfl

@[simp] theorem rounds_cons (k : κ) (keys : List κ) (p : α × α) :
    rounds mix f (k :: keys) p = rounds mix f keys (round mix f p k) := rfl

theorem rounds_append (ks ls : List κ) (p : α × α) :
    rounds mix f (ks ++ ls) p = rounds mix f ls (rounds mix f ks p) := List.foldl_append

variable {mix} (hmix : ∀ a b, mix (mix a b) b = a)
include hmix

theorem round_swap_round (p : α × α) (k : κ) :
    round mix f (round mix f p k).swap k = p.swap := by
  simp only [round, Prod.swap_prod_mk, hmix]
  rfl

theorem rounds_reverse : ∀ (keys : List κ) (p : α × α),
    rounds mix f keys.reverse (rounds mix f keys p).swap = p.swap
  | [], p => rfl
  | k :: keys, p => by
    rw [List.reverse_cons, rounds_append, rounds_cons mix f k keys p, rounds_reverse keys,
      rounds_cons, rounds_nil, round_swap_round f hmix]

end Feistel

end SkynetGame
