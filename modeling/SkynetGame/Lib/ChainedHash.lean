import SkynetGame.Lib.Chain
import Mathlib.Data.List.Perm.Subperm

/-!
# Chained hash tables

Keys in the slots of one array, each with the slot behind it. A key's main slot is where its hash
says, or it is behind a key that is: the keys of one main slot are a chain from there, and no key is
outside of its chain. A key goes into its main slot while that is free (`put`), and else into any
free slot, right behind the main one (`link`). With as many slots as keys none is free in the end,
so that any search ends (`walk`).
-/

namespace SkynetGame

open Function List

variable {κ : Type*}

/-- The slots below `size` that have a key are chained. -/
structure ChainedHash (main : κ → ℕ) (size : ℕ) (key : ℕ → Option κ) (next : ℕ → Option ℕ) :
    Prop where
  inj : ∀ i j k, key i = some k → key j = some k → i = j
  bound : ∀ i k, key i = some k → i < size
  chain : ∀ i k, key i = some k → ∃ l, Chain next (some (main k)) l ∧ l.Nodup ∧
    ∀ j, j ∈ l ↔ ∃ k', key j = some k' ∧ main k' = main k

namespace ChainedHash

variable {main : κ → ℕ} {size : ℕ} {key : ℕ → Option κ} {next next' : ℕ → Option ℕ}
variable {k k₀ : κ} {s : ℕ}

theorem empty : ChainedHash main size (fun _ => none) next where
  inj i j k h := by cases h
  bound i k h := by cases h
  chain i k h := by cases h

/-- Where a free slot points to does not matter. -/
theorem congr (h : ChainedHash main size key next)
    (heq : ∀ i k, key i = some k → next' i = next i) : ChainedHash main size key next' where
  inj := h.inj
  bound := h.bound
  chain i k hk := by
    obtain ⟨l, hl, hnd, hmem⟩ := h.chain i k hk
    refine ⟨l, hl.frame fun j hj => ?_, hnd, hmem⟩
    obtain ⟨k', hk', -⟩ := (hmem j).1 hj
    exact heq j k' hk'

/-- The first of a chain is in its main slot. -/
theorem home (h : ChainedHash main size key next) {i : ℕ} (hk : key i = some k) :
    ∃ k', key (main k) = some k' ∧ main k' = main k := by
  obtain ⟨l, hl, -, hmem⟩ := h.chain i k hk
  cases l with
  | nil => cases (hmem i).2 ⟨k, hk, rfl⟩
  | cons j l =>
    have hj : main k = j := Option.some.inj hl.1
    refine (hmem (main k)).1 ?_
    rw [hj]
    exact mem_cons_self

theorem update_inj (h : ∀ i j k, key i = some k → key j = some k → i = j)
    (hk : ∀ i, key i ≠ some k) (i j : ℕ) (k' : κ) (hi : update key s (some k) i = some k')
    (hj : update key s (some k) j = some k') : i = j := by
  by_cases hi₀ : i = s
  · by_cases hj₀ : j = s
    · rw [hi₀, hj₀]
    · rw [hi₀, update_self] at hi
      rw [update_of_ne hj₀, ← hi] at hj
      exact absurd hj (hk j)
  · rw [update_of_ne hi₀] at hi
    by_cases hj₀ : j = s
    · rw [hj₀, update_self] at hj
      rw [← hj] at hi
      exact absurd hi (hk i)
    · rw [update_of_ne hj₀] at hj
      exact h i j k' hi hj

theorem update_bound (h : ∀ i k, key i = some k → i < size) (hs : s < size) (i : ℕ) (k' : κ)
    (hi : update key s (some k) i = some k') : i < size := by
  by_cases hi₀ : i = s
  · rwa [hi₀]
  · rw [update_of_ne hi₀] at hi
    exact h i k' hi

theorem mem_update_of_ne {m : ℕ} (hm : main k ≠ m) (hs : key s = none) (j : ℕ) :
    (∃ k', update key s (some k) j = some k' ∧ main k' = m) ↔
      ∃ k', key j = some k' ∧ main k' = m := by
  by_cases hj : j = s
  · rw [hj, update_self, hs]
    constructor
    · rintro ⟨k', hk', hm'⟩
      rw [← Option.some.inj hk'] at hm'
      exact absurd hm' hm
    · rintro ⟨k', hk', -⟩
      cases hk'
  · rw [update_of_ne hj]

/-- A new key in its main slot, which was free. -/
theorem put (h : ChainedHash main size key next) (hk : ∀ i, key i ≠ some k) (hs : main k < size)
    (hfree : key (main k) = none) :
    ChainedHash main size (update key (main k) (some k))
      (update next (main k) none) where
  inj := update_inj h.inj hk
  bound := update_bound h.bound hs
  chain i k' hk' := by
    -- nobody was in the chain of a main slot that was free
    have hne : ∀ j k'', key j = some k'' → main k ≠ main k'' := by
      intro j k'' hj he
      obtain ⟨k₁, hk₁, -⟩ := h.home hj
      rw [← he, hfree] at hk₁
      cases hk₁
    by_cases hi : i = main k
    · rw [hi, update_self] at hk'
      cases hk'
      refine ⟨[main k], Chain.single (update_self ..), nodup_singleton _, fun j => ?_⟩
      rw [mem_singleton]
      constructor
      · rintro rfl
        exact ⟨k, update_self .., rfl⟩
      · rintro ⟨k'', hk'', hm⟩
        by_contra hj
        rw [update_of_ne hj] at hk''
        exact hne j k'' hk'' hm.symm
    · rw [update_of_ne hi] at hk'
      obtain ⟨l, hl, hnd, hmem⟩ := h.chain i k' hk'
      refine ⟨l, hl.frame fun j hj => update_of_ne ?_ .., hnd, fun j => ?_⟩
      · rintro rfl
        obtain ⟨k'', hk'', -⟩ := (hmem _).1 hj
        rw [hfree] at hk''
        cases hk''
      · rw [mem_update_of_ne (hne i k' hk') hfree]
        exact hmem j

/-- A new key in a free slot, right behind its main one. -/
theorem link (h : ChainedHash main size key next) (hk : ∀ i, key i ≠ some k) (hs : s < size)
    (hfree : key s = none) (h₀ : key (main k) = some k₀) (hm₀ : main k₀ = main k) :
    ChainedHash main size (update key s (some k))
      (update (update next s (next (main k))) (main k) (some s)) where
  inj := update_inj h.inj hk
  bound := update_bound h.bound hs
  chain i k' hk' := by
    have hsm : s ≠ main k := by
      rintro rfl
      rw [hfree] at h₀
      cases h₀
    by_cases hm : main k = main k'
    · -- the chain of the new key: its main slot, the new one, and the rest
      obtain ⟨l, hl, hnd, hmem⟩ := h.chain (main k) k₀ h₀
      rw [hm₀] at hl hmem
      obtain ⟨rest, rfl, hrest⟩ := hl.eq_cons
      obtain ⟨hnot, hnd'⟩ := nodup_cons.1 hnd
      have hs' : s ∉ main k :: rest := by
        intro hj
        obtain ⟨k'', hk'', -⟩ := (hmem s).1 hj
        rw [hfree] at hk''
        cases hk''
      have hsr : s ∉ rest := fun hj => hs' (mem_cons_of_mem _ hj)
      refine ⟨main k :: s :: rest, ⟨by rw [hm], ?_⟩, ?_, fun j => ?_⟩
      · rw [update_self]
        refine ⟨rfl, ?_⟩
        rw [update_of_ne hsm, update_self]
        refine hrest.frame fun j hj => ?_
        rw [update_of_ne (ne_of_mem_of_not_mem hj hnot),
          update_of_ne (ne_of_mem_of_not_mem hj hsr)]
      · refine nodup_cons.2 ⟨?_, nodup_cons.2 ⟨hsr, hnd'⟩⟩
        rintro (_ | ⟨_, hj⟩)
        · exact hsm rfl
        · exact hnot hj
      · rw [← hm]
        by_cases hj : j = s
        · rw [hj, update_self]
          simp
        · rw [update_of_ne hj, ← hmem j]
          simp [hj]
    · have hi : i ≠ s := by
        rintro rfl
        rw [update_self] at hk'
        cases hk'
        exact hm rfl
      rw [update_of_ne hi] at hk'
      obtain ⟨l, hl, hnd, hmem⟩ := h.chain i k' hk'
      refine ⟨l, hl.frame fun j hj => ?_, hnd, fun j => ?_⟩
      · obtain ⟨k'', hk'', hm''⟩ := (hmem j).1 hj
        have hj₁ : j ≠ main k := by
          rintro rfl
          rw [h₀] at hk''
          cases hk''
          exact hm (hm₀.symm.trans hm'')
        have hj₂ : j ≠ s := by
          rintro rfl
          rw [hfree] at hk''
          cases hk''
        rw [update_of_ne hj₁, update_of_ne hj₂]
      · rw [mem_update_of_ne hm hfree]
        exact hmem j

/-- A search from a slot with a key goes over slots with keys, and finds the key whose main slot it
is from. -/
theorem walk (h : ChainedHash main size key next) (hk : key (main k) ≠ none) :
    ∃ l, Chain next (some (main k)) l ∧ l.length ≤ size ∧ (∀ j ∈ l, key j ≠ none) ∧
      ∀ i, key i = some k → i ∈ l := by
  obtain ⟨k₀, h₀⟩ := Option.ne_none_iff_exists'.1 hk
  -- the slot is somewhere in the chain of the key that it has
  obtain ⟨l, hl, hnd, hmem⟩ := h.chain _ k₀ h₀
  obtain ⟨before, after, rfl⟩ := append_of_mem ((hmem (main k)).2 ⟨k₀, h₀, rfl⟩)
  have hocc : ∀ j ∈ before ++ main k :: after, key j ≠ none := by
    intro j hj
    obtain ⟨k', hk', -⟩ := (hmem j).1 hj
    rw [hk']
    exact Option.some_ne_none k'
  refine ⟨main k :: after, hl.suffix, ?_, fun j hj => hocc j (mem_append_right _ hj), ?_⟩
  · have hsub : main k :: after ⊆ List.range size := by
      intro j hj
      obtain ⟨k', hk', -⟩ := (hmem j).1 (mem_append_right _ hj)
      exact mem_range.2 (h.bound j k' hk')
    have hle := (subperm_of_subset (nodup_append.1 hnd).2.1 hsub).length_le
    rwa [length_range] at hle
  · intro i hi
    -- a key that is there has its main slot at the front of its chain
    obtain ⟨k', hk', hm'⟩ := h.home hi
    rw [h₀] at hk'
    cases hk'
    have hi' := (hmem i).2 ⟨k, hi, hm'.symm⟩
    cases before with
    | nil => exact hi'
    | cons j before =>
      have hj : j = main k := by
        rw [← hm']
        exact (Option.some.inj hl.1).symm
      rw [hj] at hnd
      exact absurd (mem_append_right before mem_cons_self) (nodup_cons.1 hnd).1

section Count

variable {l : List κ}

theorem nodup_keys (h : ChainedHash main size key next) : ((List.range size).filterMap key).Nodup :=
  nodup_range.filterMap fun i j k hi hj => h.inj i j k hi hj

theorem mem_keys (h : ChainedHash main size key next) :
    k ∈ (List.range size).filterMap key ↔ ∃ i, key i = some k := by
  rw [mem_filterMap]
  constructor
  · rintro ⟨i, -, hi⟩
    exact ⟨i, hi⟩
  · rintro ⟨i, hi⟩
    exact ⟨i, mem_range.2 (h.bound i k hi), hi⟩

theorem length_keys_lt :
    ((List.range size).filterMap key).length < size ↔ ∃ i, i < size ∧ key i = none := by
  have h : ((List.range size).filterMap key).length < (List.range size).length ↔
      ∃ (i : ℕ) (_ : i ∈ List.range size), key i = none :=
    length_filterMap_lt_length_iff_exists
  rw [length_range] at h
  simpa only [mem_range, exists_prop] using h

/-- A key that is missing has a free slot. -/
theorem exists_free (h : ChainedHash main size key next) (hl : ∀ i k, key i = some k → k ∈ l)
    (hlen : l.length ≤ size) (hk : k ∈ l) (hnot : ∀ i, key i ≠ some k) :
    ∃ i, i < size ∧ key i = none := by
  refine length_keys_lt.1 ?_
  have hnd : (k :: (List.range size).filterMap key).Nodup := by
    refine nodup_cons.2 ⟨fun hm => ?_, h.nodup_keys⟩
    obtain ⟨i, hi⟩ := h.mem_keys.1 hm
    exact hnot i hi
  have hsub : k :: (List.range size).filterMap key ⊆ l := by
    refine cons_subset.2 ⟨hk, fun k' hk' => ?_⟩
    obtain ⟨i, hi⟩ := h.mem_keys.1 hk'
    exact hl i k' hi
  have hle := (subperm_of_subset hnd hsub).length_le
  rw [length_cons] at hle
  omega

/-- With as many keys no slot is free. -/
theorem full (h : ChainedHash main size key next) (hnd : l.Nodup)
    (hl : ∀ k ∈ l, ∃ i, key i = some k) (hlen : size ≤ l.length) {i : ℕ} (hi : i < size) :
    key i ≠ none := by
  intro hnone
  have hlt := length_keys_lt.2 ⟨i, hi, hnone⟩
  have hsub : l ⊆ (List.range size).filterMap key := fun k hk => h.mem_keys.2 (hl k hk)
  have hle := (subperm_of_subset hnd hsub).length_le
  omega

/-- The keys in the order of their slots. -/
theorem perm (h : ChainedHash main size key next) (hnd : l.Nodup)
    (hmem : ∀ k, k ∈ l ↔ ∃ i, key i = some k) : ((List.range size).filterMap key).Perm l :=
  (perm_ext_iff_of_nodup h.nodup_keys hnd).2 fun k => h.mem_keys.trans (hmem k).symm

end Count

end ChainedHash

end SkynetGame
