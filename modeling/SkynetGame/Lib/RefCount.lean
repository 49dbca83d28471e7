import SkynetGame.Lib.Tally

/-!
# Reference counts

A cell is allocated with one reference. Who has a reference may take another one for somebody else,
and gives his own back; the last one frees the cell. A cell that has been freed cannot be used. As
long as the count is the number of those who have a reference, a cell is freed once and as soon as
nobody has one (`Counted.grab`, `Counted.release`).
-/

namespace SkynetGame

variable {α : Type}

/-- A value with its reference count, and how many times it has been freed. -/
structure Cell (α : Type) where
  value : α
  reference : ℕ
  frees : ℕ
deriving DecidableEq, Repr

namespace Cell

/-- A cell that has just been allocated. -/
def alloc (a : α) : Cell α := ⟨a, 1, 0⟩

/-- The count goes up. -/
def grab (k : Cell α) : Option (Cell α) :=
  if k.frees = 0 then some { k with reference := k.reference + 1 } else none

/-- The count goes down, and at 0 the cell is freed. -/
def release (k : Cell α) : Option (Cell α) :=
  if k.frees = 0 then
    some { k with
      reference := k.reference - 1, frees := if k.reference = 1 then k.frees + 1 else k.frees }
  else none

/-- There are `n` references to the cell, and without one it has been freed, once. -/
structure Counts (k : Cell α) (n : ℕ) : Prop where
  reference : k.reference = n
  frees : k.frees = if n = 0 then 1 else 0

namespace Counts

variable {k : Cell α} {n : ℕ}

theorem live (h : k.Counts n) (hn : n ≠ 0) : k.frees = 0 := by
  rw [h.frees, if_neg hn]

theorem alloc (a : α) : (Cell.alloc a).Counts 1 := ⟨rfl, rfl⟩

theorem grab (h : k.Counts n) (hn : n ≠ 0) :
    ∃ k', k.grab = some k' ∧ k'.Counts (n + 1) ∧ k'.value = k.value := by
  refine ⟨_, if_pos (h.live hn), ⟨?_, ?_⟩, rfl⟩
  · rw [h.reference]
  · rw [if_neg (Nat.succ_ne_zero n)]
    exact h.live hn

theorem release (h : k.Counts n) (hn : n ≠ 0) :
    ∃ k', k.release = some k' ∧ k'.Counts (n - 1) ∧ k'.value = k.value := by
  refine ⟨_, if_pos (h.live hn), ⟨?_, ?_⟩, rfl⟩
  · rw [h.reference]
  · dsimp only
    rw [h.live hn, h.reference]
    split_ifs <;> omega

end Counts

end Cell

/-- The count of the cell `c` goes up. -/
def grabAt (c : ℕ) (cells : List (Cell α)) : Option (List (Cell α)) :=
  (cells[c]?).bind fun k => k.grab.map fun k => cells.set c k

/-- The count of the cell `c` goes down. -/
def releaseAt (c : ℕ) (cells : List (Cell α)) : Option (List (Cell α)) :=
  (cells[c]?).bind fun k => k.release.map fun k => cells.set c k

/-- There are `n c` references to the cell `c`, and none to a cell that has not been allocated. -/
structure Counted (cells : List (Cell α)) (n : ℕ → ℕ) : Prop where
  counts : ∀ {c : ℕ} {k : Cell α}, cells[c]? = some k → k.Counts (n c)
  known : ∀ {c : ℕ}, n c ≠ 0 → c < cells.length

namespace Counted

variable {cells : List (Cell α)} {n m : ℕ → ℕ} {c : ℕ}

theorem exists_cell (h : Counted cells n) (hc : n c ≠ 0) :
    ∃ k, cells[c]? = some k ∧ k.Counts (n c) :=
  ⟨_, List.getElem?_eq_getElem (h.known hc), h.counts (List.getElem?_eq_getElem (h.known hc))⟩

theorem alloc (h : Counted cells n) (a : α) (hc : m cells.length = 1)
    (hm : ∀ d < cells.length, m d = n d) (hlast : ∀ d > cells.length, m d = 0) :
    Counted (cells ++ [.alloc a]) m := by
  refine ⟨fun {d k} hk => ?_, fun {d} hd => ?_⟩
  · rcases lt_trichotomy d cells.length with hlt | rfl | hgt
    · rw [List.getElem?_append_left hlt] at hk
      rw [hm d hlt]
      exact h.counts hk
    · rw [List.getElem?_concat_length, Option.some.injEq] at hk
      rw [hc, ← hk]
      exact .alloc a
    · rw [List.getElem?_eq_none (by rw [List.length_append, List.length_singleton]; omega)] at hk
      cases hk
  · rw [List.length_append, List.length_singleton]
    by_contra hge
    exact hd (hlast d (by omega))

/-- The cells behind a change of one of them. -/
theorem set (h : Counted cells n) {k' : Cell α} (hk : k'.Counts (m c)) (hc : c < cells.length)
    (hm : ∀ d, d ≠ c → m d = n d) : Counted (cells.set c k') m := by
  refine ⟨fun {d k} hd => ?_, fun {d} hd => ?_⟩
  · by_cases hne : d = c
    · subst hne
      rw [List.getElem?_set_self hc, Option.some.injEq] at hd
      exact hd ▸ hk
    · rw [List.getElem?_set_ne (Ne.symm hne)] at hd
      rw [hm d hne]
      exact h.counts hd
  · rw [List.length_set]
    by_cases hne : d = c
    · exact hne ▸ hc
    · exact h.known (hm d hne ▸ hd)

theorem map_set {k k' : Cell α} (hk : cells[c]? = some k) (hv : k'.value = k.value) :
    (cells.set c k').map Cell.value = cells.map Cell.value := by
  obtain ⟨hc, rfl⟩ := List.getElem?_eq_some_iff.1 hk
  rw [List.map_set, hv]
  refine List.ext_getElem (by simp) fun i _ _ => ?_
  rw [List.getElem_set]
  split_ifs with hi
  · simp [hi]
  · rfl

/-- Who has a reference can take another one. -/
theorem grab (h : Counted cells n) (hc : n c ≠ 0) (hself : m c = n c + 1)
    (hm : ∀ d, d ≠ c → m d = n d) : ∃ cells', grabAt c cells = some cells' ∧ Counted cells' m ∧
      cells'.map Cell.value = cells.map Cell.value := by
  obtain ⟨k, hk, hcounts⟩ := h.exists_cell hc
  obtain ⟨k', hgrab, hcounts', hv⟩ := hcounts.grab hc
  refine ⟨cells.set c k', ?_, h.set (hself ▸ hcounts') (h.known hc) hm, map_set hk hv⟩
  rw [grabAt, hk, Option.bind_some, hgrab, Option.map_some]

/-- Who has a reference can give it back. -/
theorem release (h : Counted cells n) (hself : m c + 1 = n c) (hm : ∀ d, d ≠ c → m d = n d) :
    ∃ cells', releaseAt c cells = some cells' ∧ Counted cells' m ∧
      cells'.map Cell.value = cells.map Cell.value := by
  have hc : n c ≠ 0 := by omega
  obtain ⟨k, hk, hcounts⟩ := h.exists_cell hc
  obtain ⟨k', hrelease, hcounts', hv⟩ := hcounts.release hc
  have hpred : n c - 1 = m c := by omega
  refine ⟨cells.set c k', ?_, h.set (hpred ▸ hcounts') (h.known hc) hm, map_set hk hv⟩
  rw [releaseAt, hk, Option.bind_some, hrelease, Option.map_some]

end Counted

end SkynetGame
