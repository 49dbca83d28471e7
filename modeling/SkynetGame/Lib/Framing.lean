import SkynetGame.Lib.Endian

/-!
# Packages framed by their length

A stream of packages, each behind its length in `w` bytes, the most significant one first. What a
stream holds are its packages and a rest that is no whole package yet; more bytes go on from the
rest (`packages_append`).
-/

namespace SkynetGame

open List

namespace Framing

variable {w : ℕ}

/-- A package behind its length. -/
def frame (w : ℕ) (p : Bytes) : Bytes := Endian.be w p.length ++ p

/-- The length that the bytes at the front announce. -/
def announced (w : ℕ) (s : Bytes) : ℕ := Endian.ofBe (s.take w)

/-- The stream starts with a whole package. -/
def Whole (w : ℕ) (s : Bytes) : Prop := 0 < w ∧ w + announced w s ≤ s.length

instance : DecidablePred (Whole w) := fun _ => inferInstanceAs (Decidable (_ ∧ _))

/-- The package at the front of a stream that starts with a whole one. -/
def first (w : ℕ) (s : Bytes) : Bytes := (s.drop w).take (announced w s)

/-- The stream behind that package. -/
def behind (w : ℕ) (s : Bytes) : Bytes := s.drop (w + announced w s)

theorem Whole.behind_lt {s : Bytes} (h : Whole w s) : (behind w s).length < s.length := by
  obtain ⟨hw, hle⟩ := h
  rw [behind, length_drop]
  omega

/-- The packages of a stream. -/
def packages (w : ℕ) (s : Bytes) : List Bytes :=
  if _h : Whole w s then first w s :: packages w (behind w s) else []
termination_by s.length
decreasing_by exact Whole.behind_lt ‹_›

/-- What is behind the last whole package of a stream. -/
def rest (w : ℕ) (s : Bytes) : Bytes :=
  if _h : Whole w s then rest w (behind w s) else s
termination_by s.length
decreasing_by exact Whole.behind_lt ‹_›

theorem packages_whole {s : Bytes} (h : Whole w s) :
    packages w s = first w s :: packages w (behind w s) := by
  rw [packages, dif_pos h]

theorem packages_part {s : Bytes} (h : ¬ Whole w s) : packages w s = [] := by
  rw [packages, dif_neg h]

theorem rest_whole {s : Bytes} (h : Whole w s) : rest w s = rest w (behind w s) := by
  rw [rest, dif_pos h]

theorem rest_part {s : Bytes} (h : ¬ Whole w s) : rest w s = s := by
  rw [rest, dif_neg h]

theorem packages_nil : packages w [] = [] :=
  packages_part fun ⟨hw, hle⟩ => by
    rw [length_nil] at hle
    omega

theorem rest_nil : rest w [] = [] :=
  rest_part fun ⟨hw, hle⟩ => by
    rw [length_nil] at hle
    omega

/-- Induction over the packages of a stream. -/
theorem induct_packages {P : Bytes → Prop} (hpart : ∀ s, ¬ Whole w s → P s)
    (hwhole : ∀ s, Whole w s → P (behind w s) → P s) (s : Bytes) : P s :=
  if h : Whole w s then hwhole s h (induct_packages hpart hwhole (behind w s)) else hpart s h
termination_by s.length
decreasing_by exact h.behind_lt

theorem not_whole_rest : ∀ s : Bytes, ¬ Whole w (rest w s) :=
  induct_packages (fun s h => (rest_part h).symm ▸ h) fun s h ih => by rwa [rest_whole h]

theorem length_first {s : Bytes} (h : Whole w s) : (first w s).length = announced w s := by
  have hle := h.2
  rw [first, length_take, length_drop]
  omega

theorem announced_append {s : Bytes} (h : w ≤ s.length) (t : Bytes) :
    announced w (s ++ t) = announced w s := by
  rw [announced, take_append_of_le_length h, announced]

theorem Whole.append {s : Bytes} (h : Whole w s) (t : Bytes) :
    Whole w (s ++ t) ∧ first w (s ++ t) = first w s ∧ behind w (s ++ t) = behind w s ++ t := by
  obtain ⟨hw, hle⟩ := h
  have ha := announced_append (w := w) (s := s) (by omega) t
  refine ⟨⟨hw, ?_⟩, ?_, ?_⟩
  · rw [ha, length_append]
    omega
  · rw [first, ha, drop_append_of_le_length (by omega), take_append_of_le_length, first]
    rw [length_drop]
    omega
  · rw [behind, ha, drop_append_of_le_length hle, behind]

/-- More bytes go on from the rest. -/
theorem packages_append (t : Bytes) : ∀ s : Bytes,
    packages w (s ++ t) = packages w s ++ packages w (rest w s ++ t) ∧
      rest w (s ++ t) = rest w (rest w s ++ t) :=
  induct_packages (fun s h => by rw [packages_part h, rest_part h]; exact ⟨rfl, rfl⟩)
    fun s h ih => by
      obtain ⟨hwhole, hfirst, hbehind⟩ := h.append t
      rw [packages_whole hwhole, rest_whole hwhole, hfirst, hbehind, ih.1, ih.2, packages_whole h,
        rest_whole h]
      exact ⟨rfl, rfl⟩

theorem frame_first_behind {s : Bytes} (h : Whole w s) : frame w (first w s) ++ behind w s = s := by
  have hlen := length_first h
  have hle := h.2
  have hhead : Endian.be w (announced w s) = s.take w := by
    have hbe := Endian.be_ofBe (s.take w)
    rwa [length_take, min_eq_left (by omega)] at hbe
  rw [frame, hlen, hhead, append_assoc, first, behind, ← drop_drop, take_append_drop,
    take_append_drop]

theorem flatMap_packages : ∀ s : Bytes, (packages w s).flatMap (frame w) ++ rest w s = s :=
  induct_packages (fun s h => by rw [packages_part h, rest_part h]; rfl) fun s h ih => by
    rw [packages_whole h, rest_whole h, flatMap_cons, append_assoc, ih,
      frame_first_behind h]

theorem whole_frame {p : Bytes} (hw : 0 < w) (hp : p.length < 256 ^ w) (t : Bytes) :
    Whole w (frame w p ++ t) ∧ first w (frame w p ++ t) = p ∧ behind w (frame w p ++ t) = t := by
  have hlen : (Endian.be w p.length).length = w := Endian.length_be w p.length
  have ha : announced w (frame w p ++ t) = p.length := by
    rw [announced, frame, append_assoc, take_left' hlen, Endian.ofBe_be_of_lt hp]
  refine ⟨⟨hw, ?_⟩, ?_, ?_⟩
  · rw [ha, length_append, frame, length_append, hlen]
    omega
  · rw [first, ha, frame, append_assoc, drop_left' hlen, take_left]
  · rw [behind, ha, drop_left']
    rw [frame, length_append, hlen]

/-- Frames that are written one after the other are read back. -/
theorem packages_frames (hw : 0 < w) (t : Bytes) : ∀ ps : List Bytes,
    (∀ p ∈ ps, p.length < 256 ^ w) →
      packages w (ps.flatMap (frame w) ++ t) = ps ++ packages w t ∧
        rest w (ps.flatMap (frame w) ++ t) = rest w t
  | [], _ => ⟨rfl, rfl⟩
  | p :: ps, h => by
    obtain ⟨ih₁, ih₂⟩ := packages_frames hw t ps fun q hq => h q (mem_cons_of_mem p hq)
    obtain ⟨hwhole, hfirst, hbehind⟩ :=
      whole_frame hw (h p mem_cons_self) (ps.flatMap (frame w) ++ t)
    rw [flatMap_cons, append_assoc, packages_whole hwhole, rest_whole hwhole, hfirst,
      hbehind, ih₁, ih₂]
    exact ⟨rfl, rfl⟩

/-- A part of the frames holds those that are whole in it. -/
theorem packages_prefix (hw : 0 < w) : ∀ (ps : List Bytes) {s : Bytes},
    (∀ p ∈ ps, p.length < 256 ^ w) → s <+: ps.flatMap (frame w) →
      ∃ n, packages w s = ps.take n ∧ (ps.take n).flatMap (frame w) <+: s ∧
        (ps.length ≤ n ∨ s.length < ((ps.take (n + 1)).flatMap (frame w)).length)
  | [], s, _, hs => ⟨0, by rw [prefix_nil.1 hs, packages_nil]; rfl, nil_prefix, .inl le_rfl⟩
  | p :: ps, s, hp, hs => by
    rw [forall_mem_cons] at hp
    rw [flatMap_cons] at hs
    by_cases hlt : s.length < (frame w p).length
    · refine ⟨0, packages_part fun h => ?_, nil_prefix, .inr ?_⟩
      · -- the first package would be `p`
        obtain ⟨t, ht⟩ := hs
        obtain ⟨-, hfirst, -⟩ := whole_frame hw hp.1 (ps.flatMap (frame w))
        rw [← ht, (h.append t).2.1] at hfirst
        have hlen := congrArg length (frame_first_behind h)
        rw [hfirst, length_append] at hlen
        omega
      · rwa [take_succ_cons, take_zero, flatMap_singleton]
    · obtain ⟨s', rfl⟩ := prefix_of_prefix_length_le (prefix_append ..) hs (not_lt.1 hlt)
      obtain ⟨hwhole, hfirst, hbehind⟩ := whole_frame hw hp.1 s'
      obtain ⟨n, hps, hpre, hnext⟩ := packages_prefix hw ps hp.2 ((prefix_append_right_inj _).1 hs)
      refine ⟨n + 1, ?_, ?_, hnext.imp Nat.succ_le_succ fun h => ?_⟩
      · rw [packages_whole hwhole, hfirst, hbehind, hps, take_succ_cons]
      · rw [take_succ_cons, flatMap_cons]
        exact (prefix_append_right_inj _).2 hpre
      · rw [take_succ_cons, flatMap_cons, length_append, length_append]
        exact Nat.add_lt_add_left h _

end Framing

end SkynetGame
