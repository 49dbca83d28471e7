import Mathlib.Data.List.Range
import Mathlib.Data.List.Perm.Basic

/-!
# Packages cut out of a stream

Packages are taken one after the other, each of a class, and go out over a stream in an order that
keeps the order within a class. What went out is whole packages and at its end at most a part of
one, the one at the head of the queue (`Cut`).
-/

namespace SkynetGame

open List

namespace Packages

variable {γ β : Type*}

/-- The bytes of a package. -/
def body (pk : List (γ × List β)) (k : ℕ) : List β := (pk[k]?.map Prod.snd).getD []

/-- Whether a package is of a class. -/
def OfClass (pk : List (γ × List β)) (c : γ) (k : ℕ) : Prop := pk[k]?.map Prod.fst = some c

instance [DecidableEq γ] (pk : List (γ × List β)) (c : γ) : DecidablePred (OfClass pk c) :=
  fun _ => inferInstanceAs (Decidable (_ = _))

/-- What is still to go out is the rest of the package at the head, after `part` of it, and the
packages behind it whole. -/
def Pending (pk : List (γ × List β)) (part : List β) : List (ℕ × List β) → Prop
  | [] => part = []
  | q :: qs => part ++ q.2 = body pk q.1 ∧ (q.2 = [] → part = []) ∧ ∀ r ∈ qs, r.2 = body pk r.1

/-- The packages `done` went out whole and in this order and then a `part` of the next one, and the
others are in the queue; within a class the order is that of the packages. -/
structure Cut [DecidableEq γ] (pk : List (γ × List β)) (done : List ℕ) (part : List β) (queue : List (ℕ × List β))
    (out : List β) : Prop where
  out : out = done.flatMap (body pk) ++ part
  pending : Pending pk part queue
  once : (done ++ queue.map Prod.fst).Perm (List.range pk.length)
  order : ∀ c, ((done ++ queue.map Prod.fst).filter (OfClass pk c)).Pairwise (· < ·)

variable {pk : List (γ × List β)} {done : List ℕ} {part out : List β}
  {queue qs : List (ℕ × List β)} {q : ℕ × List β}

theorem body_append_of_lt {c : γ} {b : List β} {k : ℕ} (h : k < pk.length) :
    body (pk ++ [(c, b)]) k = body pk k := by
  simp [body, getElem?_append_left h]

theorem body_append_self {c : γ} {b : List β} : body (pk ++ [(c, b)]) pk.length = b := by
  simp [body]

theorem ofClass_append_of_lt {c c' : γ} {b : List β} {k : ℕ} (h : k < pk.length) :
    OfClass (pk ++ [(c, b)]) c' k ↔ OfClass pk c' k := by
  simp [OfClass, getElem?_append_left h]

theorem ofClass_append_self {c c' : γ} {b : List β} :
    OfClass (pk ++ [(c, b)]) c' pk.length ↔ c = c' := by
  simp [OfClass]

theorem OfClass.unique {c c' : γ} {k : ℕ} (h : OfClass pk c k) (h' : OfClass pk c' k) : c = c' :=
  Option.some.inj (h.symm.trans h')

/-- The part that is out and what is still to go out make up the packages of the queue. -/
theorem Pending.flatMap (h : Pending pk part queue) :
    part ++ queue.flatMap Prod.snd = (queue.map Prod.fst).flatMap (body pk) := by
  cases queue with
  | nil => simpa [Pending] using h
  | cons q qs =>
    obtain ⟨hq, -, hqs⟩ := h
    have htail : qs.flatMap Prod.snd = (qs.map Prod.fst).flatMap (body pk) := by
      rw [flatMap_map]
      exact flatMap_congr hqs
    simp only [flatMap_cons, map_cons, htail, ← hq, append_assoc]

theorem Pending.unfinished (h : Pending pk part queue) :
    part = [] ∨ ∃ k rest, (queue.map Prod.fst).head? = some k ∧ rest ≠ [] ∧
      body pk k = part ++ rest := by
  cases queue with
  | nil => exact .inl h
  | cons q qs =>
    obtain ⟨hq, hend, -⟩ := h
    by_cases hrest : q.2 = []
    · exact .inl (hend hrest)
    · exact .inr ⟨q.1, q.2, rfl, hrest, hq.symm⟩

variable [DecidableEq γ]

theorem cut_nil : Cut ([] : List (γ × List β)) [] [] [] [] where
  out := rfl
  pending := rfl
  once := Perm.refl _
  order := fun _ => Pairwise.nil

namespace Cut

theorem lt_length (h : Cut pk done part queue out) {k : ℕ}
    (hk : k ∈ done ++ queue.map Prod.fst) : k < pk.length :=
  mem_range.1 (h.once.mem_iff.1 hk)

/-- The package at the head went out up to `n` bytes more, and not to its end. -/
theorem advance (h : Cut pk done part (q :: qs) out) {n : ℕ} (hn : n < q.2.length) :
    Cut pk done (part ++ q.2.take n) ((q.1, q.2.drop n) :: qs) (out ++ q.2.take n) where
  out := by rw [h.out, append_assoc]
  pending := by
    obtain ⟨hq, -, hqs⟩ := h.pending
    refine ⟨?_, fun hd => ?_, hqs⟩
    · rw [append_assoc, take_append_drop, hq]
    · exact absurd (drop_eq_nil_iff.1 hd) (by omega)
  once := h.once
  order := h.order

/-- The package at the head went out to its end. -/
theorem pop (h : Cut pk done part (q :: qs) out) :
    Cut pk (done ++ [q.1]) [] qs (out ++ q.2) where
  out := by
    obtain ⟨hq, -, -⟩ := h.pending
    rw [h.out, flatMap_append, append_assoc, hq, append_nil]
    simp
  pending := by
    obtain ⟨-, -, hqs⟩ := h.pending
    cases qs with
    | nil => rfl
    | cons r rs =>
      exact ⟨hqs r mem_cons_self, fun _ => rfl,
        fun t ht => hqs t (mem_cons_of_mem _ ht)⟩
  once := by simpa using h.once
  order := by simpa using h.order

theorem part_eq_nil (h : Cut pk done part [] out) : part = [] := h.pending

/-- A package of a class is taken and put behind the packages `hi` of the queue; none of its class
is behind it, and no part of the package that it may be put before has gone out. -/
theorem insert {hi lo : List (ℕ × List β)} (h : Cut pk done part (hi ++ lo) out) (c : γ)
    (b : List β) (hlo : ∀ r ∈ lo, ¬OfClass pk c r.1) (hpart : hi = [] → part = []) :
    Cut (pk ++ [(c, b)]) done part (hi ++ (pk.length, b) :: lo) out where
  out := by
    rw [h.out]
    congr 1
    refine flatMap_congr fun k hk => ?_
    exact (body_append_of_lt (h.lt_length (mem_append_left _ hk))).symm
  pending := by
    have hbody : ∀ r ∈ hi ++ lo, body (pk ++ [(c, b)]) r.1 = body pk r.1 := fun r hr =>
      body_append_of_lt (h.lt_length (mem_append_right _ (mem_map_of_mem hr)))
    have hp := h.pending
    cases hi with
    | nil =>
      obtain rfl := hpart rfl
      refine ⟨body_append_self.symm, fun _ => rfl, fun r hr => ?_⟩
      rw [hbody r hr]
      cases lo with
      | nil => cases hr
      | cons l ls =>
        rcases mem_cons.1 hr with rfl | hr
        · exact hp.1
        · exact hp.2.2 r hr
    | cons q qs =>
      refine ⟨hp.1.trans (hbody q (by simp)).symm, hp.2.1, fun r hr => ?_⟩
      rcases mem_append.1 hr with hr | hr
      · rw [hbody r (by simp [hr])]
        exact hp.2.2 r (by simp [hr])
      rcases mem_cons.1 hr with rfl | hr
      · exact body_append_self.symm
      · rw [hbody r (by simp [hr])]
        exact hp.2.2 r (by simp [hr])
  once := by
    have hperm := h.once
    rw [map_append, ← append_assoc] at hperm
    rw [map_append, map_cons, length_append, length_singleton,
      range_succ, ← append_assoc]
    exact (perm_middle.trans (hperm.cons _)).trans (perm_append_singleton _ _).symm
  order := by
    intro c'
    have hcls : ∀ l : List ℕ, (∀ k ∈ l, k < pk.length) →
        l.filter (OfClass (pk ++ [(c, b)]) c') = l.filter (OfClass pk c') := fun l hl =>
      filter_congr fun k hk => decide_eq_decide.2 (ofClass_append_of_lt (hl k hk))
    have hfst : ∀ k ∈ done ++ hi.map Prod.fst, k < pk.length := fun k hk =>
      h.lt_length (by rw [map_append, ← append_assoc]; exact mem_append_left _ hk)
    have hsnd : ∀ k ∈ lo.map Prod.fst, k < pk.length := fun k hk =>
      h.lt_length (by rw [map_append, ← append_assoc]; exact mem_append_right _ hk)
    have hold := h.order c'
    rw [map_append, ← append_assoc, filter_append] at hold
    rw [map_append, map_cons, ← append_assoc, filter_append, filter_cons,
      hcls _ hfst, hcls _ hsnd]
    by_cases hc : c = c'
    · subst hc
      have hnone : (lo.map Prod.fst).filter (OfClass pk c) = [] := by
        refine filter_eq_nil_iff.2 fun k hk => ?_
        obtain ⟨r, hr, rfl⟩ := mem_map.1 hk
        simpa using hlo r hr
      rw [hnone, append_nil] at hold
      rw [if_pos (decide_eq_true (ofClass_append_self.2 rfl)), hnone]
      refine pairwise_append.2 ⟨hold, pairwise_singleton _ _, fun k hk l hl => ?_⟩
      rw [mem_singleton.1 hl]
      exact hfst k (mem_filter.1 hk).1
    · have hne : ¬OfClass (pk ++ [(c, b)]) c' pk.length := fun hs => hc (ofClass_append_self.1 hs)
      rw [if_neg (by simpa using hne)]
      exact hold

end Cut

end Packages

end SkynetGame
