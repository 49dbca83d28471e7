import Mathlib.Data.List.Nodup

/-!
# Where what was issued is

Items are issued one after the other, each to a holder that has none; a holder gives his away for
good. In a ledger in which everyone took only with empty hands each item is in one place
(`Ledger.Balanced.place`).
-/

namespace SkynetGame

variable {κ : Type*}

/-- What each holder has, the number of items issued, and those given away, the first one first. -/
structure Ledger (κ : Type*) where
  held : κ → Option ℕ
  issued : ℕ
  spent : List ℕ

namespace Ledger

def empty : Ledger κ := ⟨fun _ => none, 0, []⟩

section Moves

variable [DecidableEq κ]

/-- The next item is issued to `k`. -/
def issue (k : κ) (l : Ledger κ) : Ledger κ :=
  { l with held := Function.update l.held k (some l.issued), issued := l.issued + 1 }

/-- What `k` has is given away. -/
def spend (k : κ) (l : Ledger κ) : Ledger κ :=
  { l with held := Function.update l.held k none, spent := l.spent ++ (l.held k).toList }

end Moves

/-- Nobody has what another one has or what was given away, and nothing is lost. -/
structure Balanced (l : Ledger κ) : Prop where
  inj : ∀ {k k' p}, l.held k = some p → l.held k' = some p → k = k'
  issued_held : ∀ {k p}, l.held k = some p → p < l.issued
  unspent : ∀ {k p}, l.held k = some p → p ∉ l.spent
  issued_spent : ∀ p ∈ l.spent, p < l.issued
  nodup : l.spent.Nodup
  cover : ∀ p < l.issued, p ∈ l.spent ∨ ∃ k, l.held k = some p

variable {l : Ledger κ} {p : ℕ}

section Held

variable [DecidableEq κ] {k k' : κ}

@[simp] theorem issue_held_self : (l.issue k).held k = some l.issued := Function.update_self ..

theorem issue_held_of_ne (hne : k' ≠ k) : (l.issue k).held k' = l.held k' :=
  Function.update_of_ne hne ..

@[simp] theorem spend_held_self : (l.spend k).held k = none := Function.update_self ..

theorem spend_held_of_ne (hne : k' ≠ k) : (l.spend k).held k' = l.held k' :=
  Function.update_of_ne hne ..

theorem issue_held (h : (l.issue k).held k' = some p) :
    k' = k ∧ p = l.issued ∨ k' ≠ k ∧ l.held k' = some p := by
  by_cases hk : k' = k
  · subst hk
    rw [issue_held_self] at h
    exact .inl ⟨rfl, (Option.some.inj h).symm⟩
  · rw [issue_held_of_ne hk] at h
    exact .inr ⟨hk, h⟩

theorem spend_held (h : (l.spend k).held k' = some p) : k' ≠ k ∧ l.held k' = some p := by
  by_cases hk : k' = k
  · subst hk
    rw [spend_held_self] at h
    cases h
  · rw [spend_held_of_ne hk] at h
    exact ⟨hk, h⟩

end Held

namespace Balanced

theorem empty : (Ledger.empty : Ledger κ).Balanced := by
  refine ⟨?_, ?_, ?_, fun p hp => ?_, List.nodup_nil, fun p hp => absurd hp (Nat.not_lt_zero p)⟩
  · rintro k k' p ⟨⟩
  · rintro k p ⟨⟩
  · rintro k p ⟨⟩
  · cases hp

theorem issue [DecidableEq κ] {k : κ} (hb : l.Balanced) (hk : l.held k = none) : (l.issue k).Balanced := by
  refine ⟨?_, ?_, ?_, fun p hp => ?_, hb.nodup, fun p hp => ?_⟩
  · intro k₁ k₂ p h₁ h₂
    rcases issue_held h₁ with ⟨hk₁, hp₁⟩ | ⟨-, hold₁⟩
    · rcases issue_held h₂ with ⟨hk₂, -⟩ | ⟨-, hold₂⟩
      · rw [hk₁, hk₂]
      · exact absurd (hb.issued_held hold₂) (hp₁ ▸ Nat.lt_irrefl _)
    · rcases issue_held h₂ with ⟨-, hp₂⟩ | ⟨-, hold₂⟩
      · exact absurd (hb.issued_held hold₁) (hp₂ ▸ Nat.lt_irrefl _)
      · exact hb.inj hold₁ hold₂
  · intro k' p h
    rcases issue_held h with ⟨-, rfl⟩ | ⟨-, h⟩
    · exact Nat.lt_succ_self _
    · exact Nat.lt_succ_of_lt (hb.issued_held h)
  · intro k' p h hp
    rcases issue_held h with ⟨-, rfl⟩ | ⟨-, h⟩
    · exact Nat.lt_irrefl _ (hb.issued_spent _ hp)
    · exact hb.unspent h hp
  · exact Nat.lt_succ_of_lt (hb.issued_spent p hp)
  · rcases Nat.lt_succ_iff_lt_or_eq.1 hp with hp | rfl
    · rcases hb.cover p hp with h | ⟨k', h⟩
      · exact .inl h
      · have hne : k' ≠ k := by
          rintro rfl
          rw [hk] at h
          cases h
        exact .inr ⟨k', (issue_held_of_ne hne).trans h⟩
    · exact .inr ⟨k, issue_held_self⟩

theorem spend [DecidableEq κ] (hb : l.Balanced) (k : κ) : (l.spend k).Balanced := by
  have hmem : ∀ {p}, p ∈ (l.spend k).spent ↔ p ∈ l.spent ∨ l.held k = some p := fun {p} =>
    List.mem_append.trans (or_congr_right Option.mem_toList)
  refine ⟨?_, ?_, ?_, fun p hp => ?_, ?_, fun p hp => ?_⟩
  · intro k₁ k₂ p h₁ h₂
    exact hb.inj (spend_held h₁).2 (spend_held h₂).2
  · intro k' p h
    exact hb.issued_held (spend_held h).2
  · intro k' p h hp
    obtain ⟨hne, h⟩ := spend_held h
    rcases hmem.1 hp with hp | hp
    · exact hb.unspent h hp
    · exact hne (hb.inj h hp)
  · rcases hmem.1 hp with hp | hp
    · exact hb.issued_spent p hp
    · exact hb.issued_held hp
  · refine List.nodup_append'.2 ⟨hb.nodup, ?_, fun p hp hp' => ?_⟩
    · cases l.held k with
      | none => exact List.nodup_nil
      | some p => exact List.nodup_singleton p
    · exact hb.unspent (Option.mem_toList.1 hp') hp
  · rcases hb.cover p hp with h | ⟨k', h⟩
    · exact .inl (hmem.2 (.inl h))
    · by_cases hk : k' = k
      · exact .inl (hmem.2 (.inr (hk ▸ h)))
      · exact .inr ⟨k', (spend_held_of_ne hk).trans h⟩

/-- An item is given away, once, and nobody has it, or exactly one holder has it. -/
theorem place (hb : l.Balanced) (hp : p < l.issued) :
    (l.spent.count p = 1 ∧ ∀ k, l.held k ≠ some p) ∨ p ∉ l.spent ∧ ∃! k, l.held k = some p := by
  rcases hb.cover p hp with h | ⟨k, h⟩
  · exact .inl ⟨List.count_eq_one_of_mem hb.nodup h, fun k hk => hb.unspent hk h⟩
  · exact .inr ⟨hb.unspent h, k, h, fun k' h' => hb.inj h' h⟩

end Balanced

end Ledger

end SkynetGame
