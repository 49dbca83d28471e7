import SkynetGame.Handle
import SkynetGame.Lib.Mask

/-!
# What the handle table holds

Each context of the table sits in the slot of the handle it was given
(`HandleStorage.Holds`), also when the table is doubled, provided that its `handle` field hashes
there as that handle does (`HandleStorage.Holds.grow`).
-/

namespace SkynetGame

open Function List

namespace HandleStorage

variable (t : HandleStorage)

/-- The table of a node whose harbor is `hb` has the contexts of `live`, each in the slot of the
handle it was given. -/
structure Holds (hb : ℕ) (live : ℕ → ℕ → Prop) : Prop where
  harbor : t.harbor = hb <<< handleRemoteShift
  pow : ∃ k ≤ 24, t.slotSize = 2 ^ k
  index : 0 < t.handleIndex ∧ t.handleIndex ≤ 2 ^ 24
  slot : ∀ {i}, i < t.slotSize → ∀ c, t.slot i = some c ↔ ∃ h, live c h ∧ t.hash h = i

/-- The handles up to the last one hash to slots that are taken, slot zero is free, and one round
gets that far. -/
def Wraps : Prop :=
  2 ^ 24 < t.handleIndex + t.slotSize ∧ t.slot 0 = none ∧
    ∀ h < 2 ^ 24, t.handleIndex ≤ h → t.slot (t.hash h) ≠ none

variable {t} {hb : ℕ} {live : ℕ → ℕ → Prop} {handle : ℕ → ℕ}

namespace Holds

theorem size_pos (H : t.Holds hb live) : 0 < t.slotSize := by
  obtain ⟨k, -, hk⟩ := H.pow
  rw [hk]
  exact Nat.two_pow_pos k

theorem size_dvd (H : t.Holds hb live) : t.slotSize ∣ 2 ^ 24 := by
  obtain ⟨k, hk, hs⟩ := H.pow
  rw [hs]
  exact Nat.pow_dvd_pow 2 hk

theorem size_le (H : t.Holds hb live) : t.slotSize ≤ 2 ^ 24 :=
  Nat.le_of_dvd (Nat.two_pow_pos 24) H.size_dvd

theorem hash_eq (H : t.Holds hb live) (h : ℕ) : t.hash h = h % t.slotSize := by
  obtain ⟨k, -, hs⟩ := H.pow
  rw [hash, hs, and_mask]

theorem hash_lt (H : t.Holds hb live) (h : ℕ) : t.hash h < t.slotSize := by
  rw [H.hash_eq]
  exact Nat.mod_lt _ H.size_pos

theorem hash_or_harbor (H : t.Holds hb live) {x : ℕ} (hx : x < 2 ^ 24) :
    t.hash (x ||| t.harbor) = t.hash x := by
  obtain ⟨k, hk, hs⟩ := H.pow
  rw [H.hash_eq, H.hash_eq, H.harbor, hs]
  exact or_shiftLeft_mod hx hk hb

end Holds

theorem mem_candidates {h : ℕ} :
    h ∈ t.candidates ↔ ∃ i < t.slotSize, (i + t.handleIndex) % 2 ^ 24 = h := by
  have hm : ∀ x, x &&& handleMask = x % 2 ^ 24 := fun x => and_mask x 24
  simp [candidates, hm]

theorem probe_some {x : ℕ} (h : t.probe = some x) : x < 2 ^ 24 ∧ t.slot (t.hash x) = none := by
  obtain ⟨i, -, hi⟩ := mem_candidates.1 (mem_of_find?_eq_some h)
  have hx := find?_some h
  exact ⟨hi ▸ Nat.mod_lt _ (Nat.two_pow_pos 24), by simpa using hx⟩

namespace Holds

variable (H : t.Holds hb live)

include H

theorem exists_candidate {j : ℕ} (hj : j < t.slotSize) : ∃ h ∈ t.candidates, t.hash h = j := by
  obtain ⟨i, hi, h⟩ := exists_add_mod H.size_pos H.size_dvd t.handleIndex hj
  exact ⟨_, mem_candidates.2 ⟨i, hi, rfl⟩, by rw [H.hash_eq, h]⟩

theorem full_of_probe (h : t.probe = none) {i : ℕ} (hi : i < t.slotSize) :
    ∃ c, t.slot i = some c := by
  obtain ⟨x, hx, rfl⟩ := H.exists_candidate hi
  have := find?_eq_none.1 h x hx
  simpa [Option.isNone_iff_eq_none, Option.ne_none_iff_exists'] using this

theorem probe_of_free {j : ℕ} (hj : j < t.slotSize) (hn : t.slot j = none) :
    ∃ x, t.probe = some x := by
  by_contra hp
  have hp : t.probe = none := by
    rw [Option.eq_none_iff_forall_not_mem]
    exact fun x hx => hp ⟨x, hx⟩
  obtain ⟨c, hc⟩ := H.full_of_probe hp hj
  rw [hn] at hc
  cases hc

theorem wraps_of_probe (h : t.probe = some 0) : t.Wraps := by
  have hm : ∀ x, x &&& handleMask = x % 2 ^ 24 := fun x => and_mask x 24
  obtain ⟨-, hfree⟩ := probe_some h
  rw [H.hash_eq, Nat.zero_mod] at hfree
  obtain ⟨-, as, bs, hl, has⟩ := find?_eq_some_iff_append.1 h
  have hlen : as.length < t.slotSize := by
    have := congrArg List.length hl
    simp only [candidates, length_map, length_range, length_append,
      length_cons] at this
    omega
  have hget : ∀ i < t.slotSize, t.candidates[i]? = some ((i + t.handleIndex) % 2 ^ 24) := by
    intro i hi
    simp [candidates, hm, hi]
  -- the round comes to handle 0 where the sum reaches `2 ^ 24`
  have hz : (as.length + t.handleIndex) % 2 ^ 24 = 0 := by
    have := hget _ hlen
    rw [hl] at this
    simpa using this.symm
  obtain ⟨hi, hle⟩ := H.index
  have hs := H.size_le
  have hsum : as.length + t.handleIndex = 2 ^ 24 := by omega
  refine ⟨by omega, hfree, fun x hx hix => ?_⟩
  have hlt : x - t.handleIndex < as.length := by omega
  have hx' := hget (x - t.handleIndex) (by omega)
  rw [hl, getElem?_append_left hlt, Nat.sub_add_cancel hix, Nat.mod_eq_of_lt hx] at hx'
  have := has x (mem_of_getElem? hx')
  simpa [← Option.isSome_iff_ne_none] using this

end Holds

theorem rehash_ok (handle key : ℕ → ℕ) : ∀ (is : List ℕ) (u : ℕ → Option ℕ),
    (∀ i ∈ is, ∃ c, t.slot i = some c ∧ handle c &&& (t.slotSize * 2 - 1) = key i) →
    (is.map key).Nodup → (∀ i ∈ is, u (key i) = none) →
    ∃ u', t.rehash handle is u = .ok u' ∧
      ∀ j c, u' j = some c ↔ u j = some c ∨ ∃ i ∈ is, t.slot i = some c ∧ key i = j
  | [], u, _, _, _ => ⟨u, rfl, by simp⟩
  | i :: is, u, hfull, hnd, hfree => by
    obtain ⟨c, hc, hk⟩ := hfull i (by simp)
    rw [map_cons, nodup_cons] at hnd
    obtain ⟨hni, hnd⟩ := hnd
    have hne : ∀ i' ∈ is, key i' ≠ key i := fun i' hi' he => hni (he ▸ mem_map_of_mem hi')
    obtain ⟨u', hu', hslot⟩ := rehash_ok handle key is (update u (key i) (some c))
      (fun i' hi' => hfull i' (by simp [hi'])) hnd
      (fun i' hi' => by
        rw [update_of_ne (hne i' hi')]
        exact hfree i' (by simp [hi']))
    refine ⟨u', by simp only [rehash, hc, hk, hfree i (by simp), hu'], fun j c' => ?_⟩
    rw [hslot]
    by_cases hj : j = key i
    · subst hj
      have hn : ¬ ∃ i' ∈ is, t.slot i' = some c' ∧ key i' = key i := by
        rintro ⟨i', hi', -, he⟩
        exact hne i' hi' he
      simp [hn, hfree i, hc]
    · rw [update_of_ne hj]
      simp [Ne.symm hj]

namespace Holds

theorem grow (H : t.Holds hb live) (hp : t.probe = none) (hcap : t.slotSize * 2 - 1 ≤ handleMask)
    (hh : ∀ c h, live c h → handle c &&& (t.slotSize * 2 - 1) = h &&& (t.slotSize * 2 - 1)) :
    ∃ t', t.grow handle = .ok t' ∧ t'.Holds hb live ∧ ∃ x, t'.probe = some x := by
  have hpos := H.size_pos
  obtain ⟨k, hk, hs⟩ := H.pow
  have hs2 : t.slotSize * 2 = 2 ^ (k + 1) := by rw [hs, pow_succ]
  have hmask : ∀ x, x &&& (t.slotSize * 2 - 1) = x % (t.slotSize * 2) := by
    rw [hs2]
    exact fun x => and_mask x (k + 1)
  simp only [hmask] at hh
  -- where the occupant of a slot moves
  let key : ℕ → ℕ := fun i => (t.slot i).elim 0 fun c => handle c % (t.slotSize * 2)
  have hkey : ∀ i < t.slotSize, ∃ c, t.slot i = some c ∧ handle c % (t.slotSize * 2) = key i ∧
      key i % t.slotSize = i := by
    intro i hi
    obtain ⟨c, hc⟩ := H.full_of_probe hp hi
    obtain ⟨h, hl, hi'⟩ := (H.slot hi c).1 hc
    refine ⟨c, hc, by simp [key, hc], ?_⟩
    simp only [key, hc, Option.elim_some, hh c h hl, mod_mod_two_mul]
    rw [← H.hash_eq, hi']
  obtain ⟨u, hu, hslot⟩ := rehash_ok (t := t) handle key (List.range t.slotSize)
    (fun _ => none)
    (fun i hi => by
      obtain ⟨c, hc, hk, -⟩ := hkey i (mem_range.1 hi)
      exact ⟨c, hc, by rw [hmask, hk]⟩)
    (by
      refine Nodup.map_on (fun i hi j hj he => ?_) nodup_range
      obtain ⟨-, -, -, hi'⟩ := hkey i (mem_range.1 hi)
      obtain ⟨-, -, -, hj'⟩ := hkey j (mem_range.1 hj)
      rw [← hi', ← hj', he])
    (fun _ _ => rfl)
  have hcap' : t.slotSize * 2 - 1 ≤ handleMask := hcap
  have hk1 : k + 1 ≤ 24 := by
    have h1 : 2 ^ (k + 1) ≤ 2 ^ 24 := by
      have : handleMask = 2 ^ 24 - 1 := rfl
      omega
    exact (Nat.pow_le_pow_iff_right (by omega)).1 h1
  let t' : HandleStorage := { t with slot := u, slotSize := t.slotSize * 2 }
  have hhash : ∀ h, t'.hash h = h % (t.slotSize * 2) := fun h => hmask h
  have hin : ∀ j c, u j = some c ↔ ∃ i < t.slotSize, t.slot i = some c ∧ key i = j := by
    intro j c
    simp [hslot]
  have H' : t'.Holds hb live := by
    refine ⟨H.harbor, ⟨k + 1, hk1, hs2⟩, H.index, fun {j} hj c => ?_⟩
    simp only [hhash]
    refine (hin j c).trans ⟨?_, ?_⟩
    · rintro ⟨i, hi, hc, rfl⟩
      obtain ⟨h, hl, -⟩ := (H.slot hi c).1 hc
      exact ⟨h, hl, by simp [key, hc, hh c h hl]⟩
    · rintro ⟨h, hl, rfl⟩
      have hc := (H.slot (H.hash_lt h) c).2 ⟨h, hl, rfl⟩
      exact ⟨t.hash h, H.hash_lt h, hc, by simp [key, hc, hh c h hl]⟩
  refine ⟨t', by simp only [HandleStorage.grow, hcap, ↓reduceIte, hu, Except.map, t'], H', ?_⟩
  -- the occupant of slot zero has moved to one of two slots, and the other one is free
  have h0 := (hkey 0 hpos).choose_spec.2.2
  let j : ℕ := if key 0 = 0 then t.slotSize else 0
  have hjlt : j < t.slotSize * 2 := by
    simp only [j]
    split <;> omega
  have hj0 : j % t.slotSize = 0 := by
    simp only [j]
    split <;> simp
  refine H'.probe_of_free hjlt ?_
  rw [Option.eq_none_iff_forall_ne_some]
  intro c hc
  obtain ⟨i, hi, -, hij⟩ := (hin j c).1 hc
  obtain ⟨-, -, -, hi'⟩ := hkey i hi
  rw [hij, hj0] at hi'
  subst hi'
  simp only [j] at hij
  split at hij <;> omega

theorem take (H : t.Holds hb live) {x : ℕ} (hp : t.probe = some x) (c : ℕ) :
    { t with slot := update t.slot (t.hash x) (some c), handleIndex := x + 1 }.Holds hb
      fun c' h => live c' h ∨ (c' = c ∧ h = x ||| t.harbor) := by
  obtain ⟨hx, hfree⟩ := probe_some hp
  refine ⟨H.harbor, H.pow, ⟨by simp, hx⟩, fun {i} (hi : i < t.slotSize) c' => ?_⟩
  change update t.slot (t.hash x) (some c) i = some c' ↔ ∃ h, _ ∧ t.hash h = i
  by_cases hix : i = t.hash x
  · subst hix
    have hn : ¬ ∃ h, live c' h ∧ t.hash h = t.hash x := by
      rw [← H.slot hi c', hfree]
      simp
    have hr : (∃ h, (live c' h ∨ (c' = c ∧ h = x ||| t.harbor)) ∧ t.hash h = t.hash x) ↔
        c' = c := by
      constructor
      · rintro ⟨h, hl | ⟨rfl, -⟩, hh⟩
        · exact absurd ⟨h, hl, hh⟩ hn
        · rfl
      · rintro rfl
        exact ⟨_, .inr ⟨rfl, rfl⟩, H.hash_or_harbor hx⟩
    rw [hr, update_self]
    simp [eq_comm]
  · rw [update_of_ne hix, H.slot hi c']
    constructor
    · rintro ⟨h, hl, hh⟩
      exact ⟨h, .inl hl, hh⟩
    · rintro ⟨h, hl | ⟨-, rfl⟩, hh⟩
      · exact ⟨h, hl, hh⟩
      · rw [H.hash_or_harbor hx] at hh
        exact absurd hh.symm hix

theorem clear (H : t.Holds hb live) (hu : ∀ {c h h'}, live c h → live c h' → h = h') {j c : ℕ}
    (hj : j < t.slotSize) (hc : t.slot j = some c) (names : List (Bytes × ℕ)) :
    { t with slot := update t.slot j none, name := names }.Holds hb
      fun c' h => live c' h ∧ c' ≠ c := by
  refine ⟨H.harbor, H.pow, H.index, fun {i} (hi : i < t.slotSize) c' => ?_⟩
  change update t.slot j none i = some c' ↔ ∃ h, _ ∧ t.hash h = i
  by_cases hij : i = j
  · subst hij
    rw [update_self]
    refine ⟨by simp, ?_⟩
    rintro ⟨h, ⟨hl, hne⟩, hh⟩
    have := (H.slot hi c').2 ⟨h, hl, hh⟩
    rw [hc, Option.some.injEq] at this
    exact absurd this.symm hne
  · rw [update_of_ne hij, H.slot hi c']
    constructor
    · rintro ⟨h, hl, hh⟩
      refine ⟨h, ⟨hl, ?_⟩, hh⟩
      rintro rfl
      obtain ⟨h', hl', hh'⟩ := (H.slot hj c').1 hc
      rw [hu hl hl', hh'] at hh
      exact hij hh.symm
    · rintro ⟨h, ⟨hl, -⟩, hh⟩
      exact ⟨h, hl, hh⟩

theorem register_of_probe (H : t.Holds hb live) {x : ℕ} (hp : t.probe = some x)
    (handle : ℕ → ℕ) (c fuel : ℕ) :
    ∃ t', registerLoop handle c (fuel + 1) t = .ok (t', x ||| hb <<< handleRemoteShift) ∧
      t'.Holds hb fun c' h => live c' h ∨ (c' = c ∧ h = x ||| hb <<< handleRemoteShift) := by
  refine ⟨_, ?_, H.harbor ▸ H.take hp c⟩
  simp only [registerLoop, hp, H.harbor]

theorem register (H : t.Holds hb live)
    (hh : t.probe = none → t.slotSize * 2 - 1 ≤ handleMask → ∀ c h, live c h →
      handle c &&& (t.slotSize * 2 - 1) = h &&& (t.slotSize * 2 - 1)) (c : ℕ) :
    (∃ t' x, t.register handle c = .ok (t', x ||| hb <<< handleRemoteShift) ∧ x < 2 ^ 24 ∧
      t'.Holds hb (fun c' h => live c' h ∨ (c' = c ∧ h = x ||| hb <<< handleRemoteShift)) ∧
      (x = 0 → t.Wraps ∨ ∃ u, t.probe = none ∧ t.grow handle = .ok u ∧ u.Wraps)) ∨
    (t.register handle c = .error .full ∧ t.probe = none ∧ handleMask < t.slotSize * 2 - 1) := by
  rcases hp : t.probe with _ | x
  · by_cases hcap : t.slotSize * 2 - 1 ≤ handleMask
    · obtain ⟨u, hu, Hu, x, hx⟩ := H.grow hp hcap (hh hp hcap)
      obtain ⟨t', ht', H'⟩ := Hu.register_of_probe hx handle c 21
      refine .inl ⟨t', x, ?_, (probe_some hx).1, H', ?_⟩
      · rw [HandleStorage.register, registerLoop, hp]
        simp only [hu, Except.bind, ht']
      · rintro rfl
        exact .inr ⟨u, rfl, hu, Hu.wraps_of_probe hx⟩
    · refine .inr ⟨?_, rfl, by omega⟩
      rw [HandleStorage.register, registerLoop, hp]
      simp only [HandleStorage.grow, hcap, ↓reduceIte, Except.bind]
  · obtain ⟨t', ht', H'⟩ := H.register_of_probe hp handle c 22
    refine .inl ⟨t', x, ht', (probe_some hp).1, H', ?_⟩
    rintro rfl
    exact .inl (H.wraps_of_probe hp)

theorem grab_iff (H : t.Holds hb live) {h c : ℕ} :
    t.grab handle h = some c ↔ (∃ h', live c h' ∧ t.hash h' = t.hash h) ∧ handle c = h := by
  rw [← H.slot (H.hash_lt h) c, HandleStorage.grab]
  rcases hc : t.slot (t.hash h) with _ | c'
  · simp
  · simp only [Option.some.injEq]
    split_ifs with he
    · rw [Option.some.injEq]
      refine ⟨?_, fun h => h.1⟩
      rintro rfl
      exact ⟨rfl, he⟩
    · refine ⟨by simp, ?_⟩
      rintro ⟨rfl, he'⟩
      exact absurd he' he

end Holds

theorem retire_snd (h : ℕ) : (t.retire handle h).2 = t.grab handle h := by
  unfold retire grab
  split
  · split_ifs <;> rfl
  · rfl

theorem retire_fst_of_none {h : ℕ} (hg : t.grab handle h = none) :
    (t.retire handle h).1 = t := by
  unfold retire
  unfold grab at hg
  split
  · simp_all
  · rfl

theorem retire_of_some {h c : ℕ} (hg : t.grab handle h = some c) :
    t.slot (t.hash h) = some c ∧ handle c = h ∧
      (t.retire handle h).1 = { t with
        slot := update t.slot (t.hash h) none
        name := t.name.filter fun n => n.2 ≠ h } := by
  unfold retire
  unfold grab at hg
  split at hg
  · rename_i c' hc
    split_ifs at hg with he
    obtain rfl : c' = c := by simpa using hg
    simp [hc, he]
  · cases hg

namespace Holds

theorem retire (H : t.Holds hb live) (hu : ∀ {c h h'}, live c h → live c h' → h = h') (h : ℕ) :
    (t.retire handle h).1.Holds hb fun c' h' => live c' h' ∧ t.grab handle h ≠ some c' := by
  rcases hg : t.grab handle h with _ | c
  · rw [retire_fst_of_none hg]
    simpa using H
  · obtain ⟨hc, -, hr⟩ := retire_of_some hg
    rw [hr]
    have hne : (fun c' h' => live c' h' ∧ some c ≠ some c') = fun c' h' => live c' h' ∧ c' ≠ c := by
      funext c' h'
      simp [eq_comm]
    rw [hne]
    exact H.clear hu (H.hash_lt h) hc _

end Holds

end HandleStorage

namespace Handles

variable (s : Handles)

/-- The contexts with the handle that each was given. -/
def given : List (ℕ × ℕ) := s.pending ++ s.created

/-- A context that was given `h` and is not yet retired. -/
def Given (c h : ℕ) : Prop := (c, h) ∈ s.given ∧ c ∉ s.retired

/-- A context that is registered and not yet retired. -/
def Live (c : ℕ) : Prop := c < s.launched ∧ c ∉ s.retired

/-- The table is full, but not yet as large as it may get. -/
def HasRoom : Prop := s.storage.probe = none → s.storage.slotSize * 2 - 1 ≤ handleMask

/-- If the table is full, each context whose handle is not yet stored would go to slot zero of
the doubled table anyway. -/
def GrowsSafely : Prop :=
  s.storage.probe = none → ∀ p ∈ s.pending, p.1 ∉ s.retired →
    p.2 &&& (s.storage.slotSize * 2 - 1) = 0

instance : Decidable s.HasRoom := inferInstanceAs (Decidable (_ → _))

instance : Decidable s.GrowsSafely := inferInstanceAs (Decidable (_ → _))

/-- A registration comes past the last handle, in the table or in the doubled one. -/
def WrapsAround : Prop :=
  s.storage.Wraps ∨ ∃ u, s.storage.probe = none ∧
    s.storage.grow (Function.update s.handle s.launched 0) = .ok u ∧ u.Wraps

structure Inv (hb : ℕ) : Prop where
  holds : s.storage.Holds hb s.Given
  nodup : (s.given.map Prod.fst).Nodup
  given : ∀ p ∈ s.given, p.1 < s.launched ∧ ∃ x < 2 ^ 24, p.2 = x ||| hb <<< handleRemoteShift
  launched : ∀ c < s.launched, ∃ h, (c, h) ∈ s.given
  created : ∀ p ∈ s.created, s.handle p.1 = p.2
  pending : ∀ p ∈ s.pending, s.handle p.1 = 0
  retired : ∀ c ∈ s.retired, c < s.launched

variable {s} {hb : ℕ}

theorem Inv.unique (H : s.Inv hb) {c h h' : ℕ} (h₁ : (c, h) ∈ s.given) (h₂ : (c, h') ∈ s.given) :
    h = h' := by
  have := inj_on_of_nodup_map H.nodup h₁ h₂ rfl
  simpa using this

theorem Inv.register (H : s.Inv hb) (hg : s.GrowsSafely) :
    s.register.Inv hb ∧
      (s.register.failed = s.failed ∨ (s.register.failed = some .full ∧ ¬ s.HasRoom)) ∧
      ∀ p ∈ s.register.given, p ∈ s.given ∨ (p.2 &&& handleMask = 0 → s.WrapsAround) := by
  have hfield : ∀ c h, (c, h) ∈ s.given →
      update s.handle s.launched 0 c = s.handle c := fun c h hc =>
    update_of_ne (H.given _ hc).1.ne _ _
  have hh : s.storage.probe = none → s.storage.slotSize * 2 - 1 ≤ handleMask → ∀ c h,
      s.Given c h → update s.handle s.launched 0 c &&& (s.storage.slotSize * 2 - 1) =
        h &&& (s.storage.slotSize * 2 - 1) := by
    rintro hp - c h ⟨hc, hr⟩
    rw [hfield c h hc]
    rcases mem_append.1 hc with hc | hc
    · rw [H.pending _ hc, hg hp _ hc hr, Nat.zero_and]
    · rw [H.created _ hc]
  rcases H.holds.register hh s.launched with ⟨t, x, ht, hx, Ht, hw⟩ | ⟨ht, hp, hcap⟩
  · have hreg : s.register = { s with
        storage := t
        handle := update s.handle s.launched 0
        launched := s.launched + 1
        pending := s.pending ++ [(s.launched, x ||| hb <<< handleRemoteShift)] } := by
      simp only [Handles.register, ht]
    rw [hreg]
    have hmem : ∀ p, p ∈ s.pending ++ [(s.launched, x ||| hb <<< handleRemoteShift)] ++ s.created ↔
        p ∈ s.given ∨ p = (s.launched, x ||| hb <<< handleRemoteShift) := by
      intro p
      simp [Handles.given, or_assoc, or_comm]
    have hperm : (s.pending ++ [(s.launched, x ||| hb <<< handleRemoteShift)] ++ s.created).Perm
        ((s.launched, x ||| hb <<< handleRemoteShift) :: s.given) := by
      rw [append_assoc]
      exact perm_middle
    refine ⟨⟨?_, ?_, ?_, ?_, ?_, ?_, ?_⟩, .inl rfl, ?_⟩
    · convert Ht using 1
      funext c h
      simp only [Given, Handles.given, hmem, Prod.mk.injEq, eq_iff_iff]
      refine ⟨?_, ?_⟩
      · rintro ⟨hc | hc, hr⟩
        · exact .inl ⟨hc, hr⟩
        · exact .inr hc
      · rintro (⟨hc, hr⟩ | hc)
        · exact ⟨.inl hc, hr⟩
        · exact ⟨.inr hc, fun hr => absurd (H.retired _ hr) (by omega)⟩
    · rw [Handles.given, (hperm.map _).nodup_iff, map_cons, nodup_cons]
      refine ⟨fun hm => ?_, H.nodup⟩
      obtain ⟨p, hp, he⟩ := mem_map.1 hm
      have := (H.given p hp).1
      omega
    · intro p hp
      rcases (hmem p).1 hp with hp | rfl
      · exact ⟨Nat.lt_succ_of_lt (H.given p hp).1, (H.given p hp).2⟩
      · exact ⟨Nat.lt_succ_self _, x, hx, rfl⟩
    · intro c hc
      rcases Nat.lt_succ_iff_lt_or_eq.1 hc with hc | rfl
      · obtain ⟨h, hm⟩ := H.launched c hc
        exact ⟨h, (hmem _).2 (.inl hm)⟩
      · exact ⟨_, (hmem _).2 (.inr rfl)⟩
    · intro p hp
      rw [← H.created p hp]
      exact hfield p.1 p.2 (mem_append_right _ hp)
    · intro p hp
      rcases mem_append.1 hp with hp | hp
      · exact (hfield p.1 p.2 (mem_append_left _ hp)).trans (H.pending p hp)
      · rw [mem_singleton.1 hp]
        exact update_self ..
    · exact fun c hc => Nat.lt_succ_of_lt (H.retired c hc)
    · intro p hp
      rcases (hmem p).1 hp with hp | rfl
      · exact .inl hp
      · refine .inr fun hz => hw ?_
        have hm : (x ||| hb <<< handleRemoteShift) &&& handleMask = x % 2 ^ 24 :=
          (and_mask _ 24).trans (or_shiftLeft_mod hx le_rfl hb)
        rw [hm, Nat.mod_eq_of_lt hx] at hz
        exact hz
  · have hreg : s.register = { s with failed := some .full } := by
      simp only [Handles.register, ht]
    rw [hreg]
    exact ⟨⟨H.holds, H.nodup, H.given, H.launched, H.created, H.pending, H.retired⟩,
      .inr ⟨rfl, fun hr => by have := hr hp; omega⟩, fun p hp => .inl hp⟩

theorem Inv.store (H : s.Inv hb) {c h : ℕ} (hp : (c, h) ∈ s.pending) : (s.store c h).Inv hb := by
  have hperm : (s.store c h).given.Perm s.given := by
    change (s.pending.erase (c, h) ++ (s.created ++ [(c, h)])).Perm (s.pending ++ s.created)
    rw [← append_assoc]
    refine (perm_append_singleton _ _).trans ?_
    rw [← cons_append]
    exact (perm_cons_erase hp).symm.append_right _
  have hmem : ∀ p, p ∈ (s.store c h).given ↔ p ∈ s.given := fun p => hperm.mem_iff
  have hsplit := H.nodup
  rw [Handles.given, map_append, nodup_append] at hsplit
  obtain ⟨hnp, -, hdisj⟩ := hsplit
  have hother : ∀ p : ℕ × ℕ, p.1 ≠ c → (s.store c h).handle p.1 = s.handle p.1 := fun p hne =>
    update_of_ne hne _ _
  refine ⟨?_, ?_, ?_, ?_, ?_, ?_, H.retired⟩
  · have hl : (s.store c h).Given = s.Given := by
      funext c' h'
      simp only [Given, hmem]
      rfl
    rw [hl]
    exact H.holds
  · exact (hperm.map _).nodup_iff.2 H.nodup
  · exact fun p hp => H.given p ((hmem p).1 hp)
  · intro c' hc'
    obtain ⟨h', hm⟩ := H.launched c' hc'
    exact ⟨h', (hmem _).2 hm⟩
  · intro p hp'
    rcases mem_append.1 hp' with hp' | hp'
    · have hne : c ≠ p.1 := hdisj c (mem_map_of_mem (f := Prod.fst) hp) p.1
        (mem_map_of_mem hp')
      rw [hother p hne.symm, H.created p hp']
    · rw [mem_singleton.1 hp']
      exact update_self ..
  · intro p hp'
    have hpm : p ∈ s.pending := mem_of_mem_erase hp'
    have hne : p.1 ≠ c := by
      intro he
      have hpe : p = (c, h) := inj_on_of_nodup_map hnp hpm hp he
      have hnd : s.pending.Nodup := hnp.of_map _
      exact (hnd.mem_erase_iff.1 hp').1 hpe
    rw [hother p hne, H.pending p hpm]

theorem Inv.retire (H : s.Inv hb) (h : ℕ) : (s.retire h).Inv hb := by
  have hg : (s.storage.retire s.handle h).2 = s.grab h := HandleStorage.retire_snd h
  refine ⟨?_, H.nodup, H.given, H.launched, H.created, H.pending, ?_⟩
  · have hu : ∀ {c h h'}, s.Given c h → s.Given c h' → h = h' := fun h₁ h₂ =>
      H.unique h₁.1 h₂.1
    have hl : (s.retire h).Given = fun c' h' => s.Given c' h' ∧ s.grab h ≠ some c' := by
      funext c' h'
      simp only [Given, Handles.retire, hg, mem_append, Option.mem_toList, not_or,
        Handles.given, and_assoc, ne_eq]
    rw [hl]
    exact H.holds.retire hu h
  · intro c hc
    rcases mem_append.1 hc with hc | hc
    · exact H.retired c hc
    · rw [Option.mem_toList, hg] at hc
      obtain ⟨⟨h', hl, -⟩, -⟩ := H.holds.grab_iff.1 hc
      exact (H.given _ hl.1).1

theorem Inv.retireAllStep (H : s.Inv hb) (t : ℕ) (r : RetireAll) :
    (s.retireAllStep t r).Inv hb := by
  have hset : ∀ (u : Handles) l, u.Inv hb → { u with retireall := l }.Inv hb := fun u l H =>
    ⟨H.holds, H.nodup, H.given, H.launched, H.created, H.pending, H.retired⟩
  cases r with
  | look n i =>
    simp only [Handles.retireAllStep]
    split
    · split
      · split <;> exact hset _ _ H
      · exact hset _ _ H
    · exact hset _ _ H
  | retire n i h => exact hset _ _ (H.retire h)
  | done => exact H

theorem Inv.step (H : s.Inv hb) {a : Action} {s' : Handles}
    (hg : a = .register → s.GrowsSafely) (hst : Handles.step s a = some s') : s'.Inv hb := by
  unfold Handles.step at hst
  split_ifs at hst
  cases a with
  | register =>
    obtain rfl := Option.some.inj hst
    exact (H.register (hg rfl)).1
  | store c h =>
    dsimp only at hst
    split_ifs at hst with hp
    obtain rfl := Option.some.inj hst
    exact H.store hp
  | retire h =>
    obtain rfl := Option.some.inj hst
    exact H.retire h
  | retireall =>
    obtain rfl := Option.some.inj hst
    exact ⟨H.holds, H.nodup, H.given, H.launched, H.created, H.pending, H.retired⟩
  | retireallStep t =>
    obtain ⟨r, -, rfl⟩ := Option.map_eq_some_iff.1 hst
    exact H.retireAllStep t r

theorem step_failed {a : Action} {s' : Handles} (hst : Handles.step s a = some s') :
    s.failed = none ∧ (s'.failed = none ∨ (a = .register ∧ s' = s.register)) := by
  unfold Handles.step at hst
  split_ifs at hst with hf
  rw [Bool.not_eq_true, Option.isSome_eq_false_iff, Option.isNone_iff_eq_none] at hf
  refine ⟨hf, ?_⟩
  cases a with
  | register => exact .inr ⟨rfl, (Option.some.inj hst).symm⟩
  | store c h =>
    dsimp only at hst
    split_ifs at hst
    obtain rfl := Option.some.inj hst
    exact .inl hf
  | retire h =>
    obtain rfl := Option.some.inj hst
    exact .inl hf
  | retireall =>
    obtain rfl := Option.some.inj hst
    exact .inl hf
  | retireallStep t =>
    obtain ⟨r, -, rfl⟩ := Option.map_eq_some_iff.1 hst
    left
    cases r with
    | look n i =>
      simp only [Handles.retireAllStep]
      split
      · split
        · split <;> exact hf
        · exact hf
      · exact hf
    | retire n i h => exact hf
    | done => exact hf

theorem inv_init (harbor : ℤ) : (machine harbor).init.Inv (harbor % 256).toNat where
  holds :=
    { harbor := rfl
      pow := ⟨2, by omega, rfl⟩
      index := ⟨by simp [machine, HandleStorage.init], by simp [machine, HandleStorage.init]⟩
      slot := by simp [machine, HandleStorage.init, Given, Handles.given] }
  nodup := nodup_nil
  given := by simp [machine, Handles.given]
  launched := by simp [machine]
  created := by simp [machine]
  pending := by simp [machine]
  retired := by simp [machine]

/-- With no launch between its two steps, a live context is one that is in the table under the
handle in its `handle` field. -/
theorem Inv.grab_iff (H : s.Inv hb) (hp : s.pending = []) {h c : ℕ} :
    s.grab h = some c ↔ s.Live c ∧ s.handle c = h := by
  have hgiven : s.given = s.created := by simp [Handles.given, hp]
  refine H.holds.grab_iff.trans ⟨?_, ?_⟩
  · rintro ⟨⟨h', ⟨hm, hr⟩, -⟩, he⟩
    exact ⟨⟨(H.given _ hm).1, hr⟩, he⟩
  · rintro ⟨⟨hc, hr⟩, rfl⟩
    obtain ⟨h, hm⟩ := H.launched c hc
    have he : s.handle c = h := H.created _ (hgiven ▸ hm)
    exact ⟨⟨h, ⟨hm, hr⟩, by rw [he]⟩, rfl⟩

theorem Inv.live_retire (H : s.Inv hb) (hp : s.pending = []) {h c : ℕ} :
    (s.retire h).Live c ↔ s.Live c ∧ s.handle c ≠ h := by
  have hg : (s.storage.retire s.handle h).2 = s.grab h := HandleStorage.retire_snd h
  simp only [Live, Handles.retire, hg, mem_append, Option.mem_toList, not_or,
    ← and_assoc, H.grab_iff hp]
  refine and_congr_right fun hl => ?_
  rw [not_and]
  exact ⟨fun hn => hn hl, fun hn _ => hn⟩

/-- The claims of the table, once every launch has stored its handle. -/
structure Sound (s : Handles) (hb : ℕ) : Prop where
  handle : ∀ c, s.Live c → s.handle c >>> handleRemoteShift = hb ∧ s.handle c &&& handleMask ≠ 0
  distinct : ∀ c c', s.Live c → s.Live c' → s.handle c = s.handle c' → c = c'
  grab : ∀ h c, s.grab h = some c ↔ s.Live c ∧ s.handle c = h
  retire : ∀ h c, (s.retire h).Live c ↔ s.Live c ∧ s.handle c ≠ h
  grab_retire : ∀ h h', (s.retire h).grab h' = if h' = h then none else s.grab h'
  grows : s.failed = none ∨ s.failed = some .full

/-- Each launch stores its handle before anything else happens. -/
def Sequential (s : Handles) : Action → Prop
  | .store _ _ => True
  | _ => s.pending = []

/-- Every handle in use has a local part. -/
def Nonzero (s : Handles) : Prop := ∀ p ∈ s.given, p.2 &&& handleMask ≠ 0

theorem Inv.sound (H : s.Inv hb) (hn : s.Nonzero) (hp : s.pending = [])
    (hf : s.failed = none ∨ s.failed = some .full) : s.Sound hb where
  handle c hl := by
    obtain ⟨h, hm⟩ := H.launched c hl.1
    have hc : (c, h) ∈ s.created := by simpa [Handles.given, hp] using hm
    have he : s.handle c = h := H.created _ hc
    obtain ⟨-, x, hx, rfl⟩ := H.given _ hm
    exact ⟨he ▸ or_shiftLeft_shiftRight hx hb, he ▸ hn _ hm⟩
  distinct c c' hl hl' he := by
    have h₁ := (H.grab_iff hp).2 ⟨hl, rfl⟩
    have h₂ := (H.grab_iff hp).2 ⟨hl', rfl⟩
    rw [he, h₂] at h₁
    exact (Option.some.inj h₁).symm
  grab h c := H.grab_iff hp
  retire h c := H.live_retire hp
  grab_retire h h' := by
    refine Option.ext fun c => ?_
    rw [(H.retire h).grab_iff hp, H.live_retire hp]
    change (s.Live c ∧ s.handle c ≠ h) ∧ s.handle c = h' ↔ _
    split_ifs with he
    · subst he
      simp +contextual
    · rw [H.grab_iff hp]
      refine ⟨fun hl => ⟨hl.1.1, hl.2⟩, fun hl => ⟨⟨hl.1, ?_⟩, hl.2⟩⟩
      rw [hl.2]
      exact he
  grows := hf

theorem Sequential.growsSafely (h : s.Sequential .register) : s.GrowsSafely := by
  have hp : s.pending = [] := h
  intro _ p hm
  rw [hp] at hm
  cases hm

theorem Nonzero.step (hn : s.Nonzero) (H : s.Inv hb) {a : Action} {s' : Handles}
    (hg : a = .register → s.GrowsSafely) (hw : a = .register → ¬ s.WrapsAround)
    (hst : Handles.step s a = some s') : s'.Nonzero := by
  unfold Handles.step at hst
  split_ifs at hst
  cases a with
  | register =>
    obtain rfl := Option.some.inj hst
    intro p hp
    rcases (H.register (hg rfl)).2.2 p hp with hp | hp
    · exact hn p hp
    · exact fun hz => hw rfl (hp hz)
  | store c h =>
    dsimp only at hst
    split_ifs at hst with hp
    obtain rfl := Option.some.inj hst
    intro p hm
    refine hn p ?_
    simp only [Handles.given, Handles.store, mem_append, mem_singleton] at hm ⊢
    rcases hm with hm | hm | rfl
    · exact .inl (mem_of_mem_erase hm)
    · exact .inr hm
    · exact .inl hp
  | retire h =>
    obtain rfl := Option.some.inj hst
    exact hn
  | retireall =>
    obtain rfl := Option.some.inj hst
    exact hn
  | retireallStep t =>
    obtain ⟨r, -, rfl⟩ := Option.map_eq_some_iff.1 hst
    cases r with
    | look n i =>
      simp only [Handles.retireAllStep]
      split
      · split
        · split <;> exact hn
        · exact hn
      · exact hn
    | retire n i h => exact hn
    | done => exact hn

section Wrapping

/-- After `n` services that came and went. -/
structure Gone (harbor : ℤ) (n : ℕ) (s : Handles) : Prop where
  reach : (machine harbor).Reach Sequential s
  inv : s.Inv (harbor % 256).toNat
  pending : s.pending = []
  failed : s.failed = none
  size : s.storage.slotSize = 4
  index : s.storage.handleIndex = n + 1
  gone : ∀ c, ¬ s.Live c

variable {harbor : ℤ} {n : ℕ}

theorem Gone.launch (G : Gone harbor n s) :
    ∃ s', (machine harbor).Reach Sequential s' ∧ s'.Inv (harbor % 256).toNat ∧ s'.pending = [] ∧
      s'.failed = none ∧ s'.storage.slotSize = 4 ∧
      s'.storage.handleIndex = (n + 1) % 2 ^ 24 + 1 ∧
      (∀ c, s'.Live c ↔ c = s.launched) ∧
      s'.handle s.launched = (n + 1) % 2 ^ 24 ||| (harbor % 256).toNat <<< handleRemoteShift := by
  have H := G.inv
  have hempty : ∀ i < s.storage.slotSize, s.storage.slot i = none := by
    intro i hi
    rw [Option.eq_none_iff_forall_ne_some]
    intro c hc
    obtain ⟨h, ⟨hm, hr⟩, -⟩ := (H.holds.slot hi c).1 hc
    exact G.gone c ⟨(H.given _ hm).1, hr⟩
  have hprobe : s.storage.probe = some ((n + 1) % 2 ^ 24) := by
    have hm : (n + 1) &&& handleMask = (n + 1) % 2 ^ 24 := and_mask _ 24
    have hf := hempty _ (H.holds.hash_lt ((n + 1) % 2 ^ 24))
    have hc : s.storage.candidates = (n + 1) % 2 ^ 24 ::
        (List.range 3).map fun i => (i + 1 + s.storage.handleIndex) &&& handleMask := by
      rw [HandleStorage.candidates, G.size, range_succ_eq_map, map_cons, map_map,
        G.index, Nat.zero_add, hm]
      rfl
    rw [HandleStorage.probe, hc, find?_cons_of_pos (by rw [hf]; rfl)]
  have hreg : s.register = { s with
      storage := { s.storage with
        slot := update s.storage.slot (s.storage.hash ((n + 1) % 2 ^ 24)) (some s.launched)
        handleIndex := (n + 1) % 2 ^ 24 + 1 }
      handle := update s.handle s.launched 0
      launched := s.launched + 1
      pending := [(s.launched, (n + 1) % 2 ^ 24 ||| (harbor % 256).toNat <<< handleRemoteShift)] } := by
    simp only [Handles.register, HandleStorage.register, HandleStorage.registerLoop, hprobe,
      G.pending, nil_append, H.holds.harbor]
  have hseq : s.Sequential .register := G.pending
  have hst₁ : Handles.step s .register = some s.register := by
    simp [Handles.step, G.failed]
  have hpend : (s.launched, (n + 1) % 2 ^ 24 ||| (harbor % 256).toNat <<< handleRemoteShift) ∈
      s.register.pending := by
    rw [hreg]
    exact mem_singleton_self _
  have hseq₂ : s.register.Sequential (.store s.launched
      ((n + 1) % 2 ^ 24 ||| (harbor % 256).toNat <<< handleRemoteShift)) := trivial
  have hst₂ := show Handles.step s.register (.store s.launched
      ((n + 1) % 2 ^ 24 ||| (harbor % 256).toNat <<< handleRemoteShift)) = some _ by
    rw [Handles.step, if_neg (by rw [hreg]; simp [G.failed])]
    exact if_pos hpend
  refine ⟨_, (G.reach.step hseq hst₁).step hseq₂ hst₂,
    (H.register hseq.growsSafely).1.store hpend, ?_, ?_, ?_, ?_, fun c => ?_, ?_⟩
  · rw [hreg]
    simp [Handles.store]
  · rw [hreg]
    exact G.failed
  · rw [hreg]
    exact G.size
  · rw [hreg]
    rfl
  · rw [hreg]
    change c < s.launched + 1 ∧ c ∉ s.retired ↔ c = s.launched
    constructor
    · rintro ⟨hc, hr⟩
      rcases Nat.lt_succ_iff_lt_or_eq.1 hc with hc | hc
      · exact absurd ⟨hc, hr⟩ (G.gone c)
      · exact hc
    · rintro rfl
      exact ⟨Nat.lt_succ_self _, fun hr => absurd (H.retired _ hr) (Nat.lt_irrefl _)⟩
  · exact update_self ..

theorem Gone.next (G : Gone harbor n s) (hn : n + 1 < 2 ^ 24) :
    ∃ s', Gone harbor (n + 1) s' := by
  obtain ⟨u, hreach, H, hp, hf, hsize, hidx, hlive, hh⟩ := G.launch
  have hst : Handles.step u (.retire (u.handle s.launched)) =
      some (u.retire (u.handle s.launched)) := by
    simp [Handles.step, hf]
  have hseq : u.Sequential (.retire (u.handle s.launched)) := hp
  have hg : u.storage.grab u.handle (u.handle s.launched) = some s.launched :=
    (H.grab_iff hp).2 ⟨(hlive _).2 rfl, rfl⟩
  obtain ⟨-, -, hr⟩ := HandleStorage.retire_of_some hg
  refine ⟨_, hreach.step hseq hst, H.retire _, hp, hf, ?_, ?_, fun c hc => ?_⟩
  · change (u.storage.retire _ _).1.slotSize = 4
    rw [hr]
    exact hsize
  · change (u.storage.retire _ _).1.handleIndex = n + 1 + 1
    rw [hr]
    exact hidx.trans (by rw [Nat.mod_eq_of_lt hn])
  · obtain ⟨hl, hne⟩ := (H.live_retire hp).1 hc
    rw [(hlive c).1 hl] at hne
    exact hne rfl

end Wrapping

/-- No assertion fails, and once all stores are done each context that is not retired is found
under the handle it was given. -/
structure Found (s : Handles) : Prop where
  failed : s.failed = none
  grab : s.pending = [] → ∀ p ∈ s.created, p.1 ∉ s.retired → s.grab p.2 = some p.1

/-- Launches may interleave as they like, as long as no table is doubled under one that has its
handle still to store. -/
theorem found_of_reach {harbor : ℤ}
    (h : (machine harbor).Reach (fun s a => a = .register → s.GrowsSafely ∧ s.HasRoom) s) :
    s.Found := by
  have hinv := h.invariant (I := fun s => s.Inv (harbor % 256).toNat ∧ s.failed = none)
    ⟨inv_init harbor, rfl⟩ <| by
      rintro s a s' ⟨H, -⟩ hok hst
      refine ⟨H.step (fun ha => (hok ha).1) hst, ?_⟩
      obtain ⟨hf, hf' | ⟨rfl, rfl⟩⟩ := step_failed hst
      · exact hf'
      · obtain ⟨hg, hr⟩ := hok rfl
        rcases (H.register hg).2.1 with h | ⟨-, hn⟩
        · exact h.trans hf
        · exact absurd hr hn
  obtain ⟨H, hf⟩ := hinv
  refine ⟨hf, fun hp p hm hr => (H.grab_iff hp).2 ⟨⟨?_, hr⟩, H.created p hm⟩⟩
  exact (H.given p (List.mem_append_right _ hm)).1

/-- Two launches, the first of which stores its handle last, and three more that double the
table. -/
theorem found_of_five_launches :
    ∃ s, (machine 0).Reach (fun s a => a = .register → s.GrowsSafely ∧ s.HasRoom) s ∧
      s.storage.slotSize = 8 ∧ s.Found := by
  obtain ⟨s, hs⟩ := Option.isSome_iff_exists.1 (show ((machine 0).run
    (fun s a => a = .register → s.GrowsSafely ∧ s.HasRoom) (machine 0).init
    [.register, .register, .store 1 2, .store 0 1, .register, .store 2 3, .register, .store 3 4,
      .register, .store 4 5]).isSome from rfl)
  have hsize : s.storage.slotSize = 8 := by
    cases hs
    rfl
  exact ⟨s, Machine.reach_of_run hs, hsize, found_of_reach (Machine.reach_of_run hs)⟩

theorem not_found_of_pending :
    (∃ s, (machine 0).Reachable s ∧ s.failed = some .collision) ∧
      ∃ s, (machine 0).Reachable s ∧ s.failed = none ∧ s.pending = [] ∧ (0, 1) ∈ s.created ∧
        0 ∉ s.retired ∧ s.grab 1 = none := by
  constructor
  · obtain ⟨s, hs⟩ := Option.isSome_iff_exists.1 (show ((machine 0).run (fun _ _ => True)
      (machine 0).init [.register, .register, .register, .register, .register]).isSome from rfl)
    refine ⟨s, Machine.reach_of_run hs, ?_⟩
    cases hs
    rfl
  · obtain ⟨s, hs⟩ := Option.isSome_iff_exists.1 (show ((machine 0).run (fun _ _ => True)
      (machine 0).init [.register, .register, .store 1 2, .register, .store 2 3, .register,
        .store 3 4, .register, .store 0 1, .store 4 5]).isSome from rfl)
    refine ⟨s, Machine.reach_of_run hs, ?_⟩
    cases hs
    decide

end Handles

end SkynetGame
