import SkynetGame.Lib.Chain
import Mathlib.Data.Fintype.Card

/-!
# Queues that share a pool of nodes

The nodes of several queues, each with its head and tail, and the free ones are chains of their own
in one memory. What the queues hold (`Pool.Holds`) is all that a user of them has to know: a node
released takes the first value off its queue, a free node linked behind the tail puts one more value
at the end, and the other queues keep what they hold.
-/

namespace SkynetGame

open Function List

variable {β ι : Type*}

/-- A node of a queue, or a free one. -/
structure Node (β : Type*) where
  val : β
  next : Option ℕ
  deriving DecidableEq, Repr

/-- A memory of nodes, `count` of them, with the first free one. -/
structure Pool (β : Type*) where
  mem : ℕ → Node β
  count : ℕ
  free : Option ℕ

namespace Pool

/-- A pool without nodes. -/
def empty (blank : β) : Pool β := ⟨fun _ => ⟨blank, none⟩, 0, none⟩

def next (p : Pool β) (m : ℕ) : Option ℕ := (p.mem m).next

def val (p : Pool β) (m : ℕ) : β := (p.mem m).val

/-- `n` nodes more, when none is free. -/
def grow (p : Pool β) (blank : β) (n : ℕ) : Pool β where
  mem i := if p.count ≤ i ∧ i < p.count + n then
    ⟨blank, if i + 1 < p.count + n then some (i + 1) else none⟩ else p.mem i
  count := p.count + n
  free := if 0 < n then some p.count else none

/-- The free node `m`, which is the first one, gets a value and is the last one of some queue. -/
def take (p : Pool β) (m : ℕ) (v : β) : Pool β :=
  { p with mem := Function.update p.mem m ⟨v, none⟩, free := p.next m }

/-- The node `m` goes behind the node `t`. -/
def link (p : Pool β) (t m : ℕ) : Pool β :=
  { p with mem := Function.update p.mem t ⟨p.val t, some m⟩ }

/-- The node `m` is free again. -/
def release (p : Pool β) (blank : β) (m : ℕ) : Pool β :=
  { p with mem := Function.update p.mem m ⟨blank, p.free⟩, free := some m }

/-- The members `l` of the queues, and the free ones `lf`, are chains of their own. -/
structure Linked (p : Pool β) (head tail : ι → Option ℕ) (l : ι → List ℕ) (lf : List ℕ) :
    Prop where
  chain : ∀ i, Chain p.next (head i) (l i)
  last : ∀ i, tail i = (l i).getLast?
  nodup : ∀ i, (l i).Nodup
  disjoint : ∀ i j m, m ∈ l i → m ∈ l j → i = j
  free : Chain p.next p.free lf
  nodup_free : lf.Nodup
  used : ∀ i, ∀ m ∈ l i, m ∉ lf ∧ m < p.count
  bound_free : ∀ m ∈ lf, m < p.count

/-- The queues hold the values `c`. -/
def Holds (p : Pool β) (head tail : ι → Option ℕ) (c : ι → List β) : Prop :=
  ∃ l lf, p.Linked head tail l lf ∧ ∀ i, c i = (l i).map p.val

/-- The values from a node on, up to the end. -/
inductive Values (p : Pool β) : Option ℕ → List β → Prop
  | nil : Values p none []
  | cons (m : ℕ) (vs : List β) : Values p (p.next m) vs → Values p (some m) (p.val m :: vs)

theorem link_next (p : Pool β) (t m : ℕ) :
    (p.link t m).next = update p.next t (some m) := by
  funext x
  simp only [Pool.next, Pool.link]
  rcases eq_or_ne x t with rfl | hx
  · rw [update_self, update_self]
  · rw [update_of_ne hx, update_of_ne hx]
    rfl

theorem link_val (p : Pool β) (t m x : ℕ) : (p.link t m).val x = p.val x := by
  simp only [Pool.val, Pool.link]
  rcases eq_or_ne x t with rfl | hx
  · rw [update_self]
  · rw [update_of_ne hx]

variable {p : Pool β} {head tail : ι → Option ℕ} {c : ι → List β} {i : ι} {v : β} {vs : List β}

theorem values_of_chain : ∀ {q : Option ℕ} {l : List ℕ}, Chain p.next q l → Values p q (l.map p.val)
  | _, [], h => by
    obtain rfl : _ = none := h
    exact .nil
  | _, m :: l, h => by
    obtain ⟨rfl, hrest⟩ := h
    exact .cons m _ (values_of_chain hrest)

theorem Holds.values (h : p.Holds head tail c) (i : ι) : Values p (head i) (c i) := by
  obtain ⟨l, lf, hl, hc⟩ := h
  rw [hc]
  exact values_of_chain (hl.chain i)

theorem Values.of_nil {q : Option ℕ} (h : Values p q []) : q = none := by
  cases h
  rfl

theorem Values.of_none (h : Values p none vs) : vs = [] := by
  cases h
  rfl

theorem Values.of_some {m : ℕ} (h : Values p (some m) vs) :
    ∃ vs', vs = p.val m :: vs' ∧ Values p (p.next m) vs' := by
  cases h with
  | cons _ vs' hrest => exact ⟨vs', rfl, hrest⟩

/-- No queue has more members than there are nodes. -/
theorem Holds.length_le (h : p.Holds head tail c) (i : ι) : (c i).length ≤ p.count := by
  obtain ⟨l, lf, hl, hc⟩ := h
  have hsub : l i ⊆ List.range p.count := fun m hm => mem_range.2 (hl.used i m hm).2
  have hle := (subperm_of_subset (hl.nodup i) hsub).length_le
  rwa [length_range, ← length_map p.val, ← hc] at hle

theorem holds_empty (blank : β) :
    (empty blank).Holds (fun _ : ι => none) (fun _ => none) fun _ => [] :=
  ⟨fun _ => [], [], ⟨fun _ => rfl, fun _ => rfl, fun _ => nodup_nil,
    fun _ _ _ h => absurd h not_mem_nil, rfl, nodup_nil,
    fun _ _ h => absurd h not_mem_nil, fun _ h => absurd h not_mem_nil⟩, fun _ => rfl⟩

/-- New nodes do not touch the queues. -/
theorem Holds.grow (h : p.Holds head tail c) (blank : β) (n : ℕ) :
    (p.grow blank n).Holds head tail c := by
  obtain ⟨l, lf, hl, hc⟩ := h
  have hmem : ∀ m < p.count, (p.grow blank n).mem m = p.mem m := by
    intro m hm
    exact if_neg fun hin => absurd hin.1 (by omega)
  have hnext : ∀ j, ∀ m ∈ l j, (p.grow blank n).next m = p.next m := fun j m hm =>
    congrArg Node.next (hmem m (hl.used j m hm).2)
  have hnew : Chain (p.grow blank n).next (p.grow blank n).free (List.range' p.count n) := by
    refine Chain.range fun j hj => ?_
    have hcell : (p.grow blank n).mem (p.count + j)
        = ⟨blank, if p.count + j + 1 < p.count + n then some (p.count + j + 1) else none⟩ :=
      if_pos (by omega)
    rw [Pool.next, hcell, if_congr (show p.count + j + 1 < p.count + n ↔ j + 1 < n by omega) rfl rfl]
  refine ⟨l, List.range' p.count n, ⟨fun j => (hl.chain j).frame (hnext j), hl.last, hl.nodup,
    hl.disjoint, hnew, nodup_range', fun j m hm => ⟨?_, ?_⟩, fun m hm => ?_⟩, fun j => ?_⟩
  · intro hin
    have := (hl.used j m hm).2
    have := (mem_range'_1.1 hin).1
    omega
  · exact (hl.used j m hm).2.trans_le (Nat.le_add_right _ _)
  · exact (mem_range'_1.1 hm).2
  · rw [hc]
    exact map_congr_left fun m hm => congrArg Node.val (hmem m (hl.used j m hm).2).symm

variable [DecidableEq ι]

/-- The first node of a queue is released with the first value. -/
theorem Holds.release (h : p.Holds head tail c) (hi : c i = v :: vs) (blank : β) :
    ∃ m, head i = some m ∧ p.val m = v ∧ Values p (p.next m) vs ∧
      (p.release blank m).Holds (update head i (p.next m))
        (update tail i (if p.next m = none then none else tail i))
        (update c i vs) := by
  obtain ⟨l, lf, hl, hc⟩ := h
  rw [hc, map_eq_cons_iff] at hi
  obtain ⟨m, lm, hlm, hv, hvs⟩ := hi
  have hchain := hl.chain i
  have hnodup := hl.nodup i
  rw [hlm] at hchain hnodup
  obtain ⟨hhead, hrest⟩ := hchain
  obtain ⟨hfresh, hnodup⟩ := nodup_cons.1 hnodup
  have hm : m ∈ l i := hlm ▸ mem_cons_self
  have hsub : ∀ x ∈ lm, x ∈ l i := fun x hx => hlm ▸ mem_cons_of_mem m hx
  have hmem : ∀ x, x ≠ m → (p.release blank m).mem x = p.mem x := fun x hx =>
    update_of_ne hx ..
  have hother : ∀ j, ∀ x ∈ update l i lm j, x ∈ l j ∧ x ≠ m := by
    intro j x hx
    rcases eq_or_ne j i with rfl | hj
    · rw [update_self] at hx
      exact ⟨hsub x hx, fun he => hfresh (he ▸ hx)⟩
    · rw [update_of_ne hj] at hx
      exact ⟨hx, fun he => hj (hl.disjoint j i m (he ▸ hx) hm)⟩
  have hlf : ∀ x ∈ lf, x ≠ m := fun x hx he => (hl.used i m hm).1 (he ▸ hx)
  refine ⟨m, hhead, hv, hvs ▸ values_of_chain hrest, update l i lm, m :: lf,
    ⟨?_, ?_, ?_, ?_, ⟨rfl, ?_⟩, nodup_cons.2 ⟨(hl.used i m hm).1, hl.nodup_free⟩, ?_, ?_⟩, ?_⟩
  · intro j
    have hframe : ∀ x ∈ update l i lm j, (p.release blank m).next x = p.next x :=
      fun x hx => congrArg Node.next (hmem x (hother j x hx).2)
    rcases eq_or_ne j i with rfl | hj
    · rw [update_self, update_self] at *
      exact hrest.frame hframe
    · rw [update_of_ne hj, update_of_ne hj] at *
      exact (hl.chain j).frame hframe
  · intro j
    rcases eq_or_ne j i with rfl | hj
    · rw [update_self, update_self]
      cases lm with
      | nil =>
        have hnone : p.next m = none := hrest
        rw [if_pos hnone]
        rfl
      | cons y lm =>
        have hsome : p.next m = some y := hrest.1
        rw [if_neg (by rw [hsome]; exact Option.some_ne_none y), hl.last, hlm,
          List.getLast?_cons_cons]
    · rw [update_of_ne hj, update_of_ne hj]
      exact hl.last j
  · intro j
    rcases eq_or_ne j i with rfl | hj
    · rwa [update_self]
    · rw [update_of_ne hj]
      exact hl.nodup j
  · exact fun j k x hx hx' => hl.disjoint j k x (hother j x hx).1 (hother k x hx').1
  · rw [Pool.next, show (p.release blank m).mem m = ⟨blank, p.free⟩ from update_self ..]
    exact hl.free.frame fun x hx => congrArg Node.next (hmem x (hlf x hx))
  · intro j x hx
    obtain ⟨hin, hne⟩ := hother j x hx
    refine ⟨fun hbad => ?_, (hl.used j x hin).2⟩
    rcases mem_cons.1 hbad with rfl | hbad
    · exact hne rfl
    · exact (hl.used j x hin).1 hbad
  · intro x hx
    rcases mem_cons.1 hx with rfl | hx
    · exact (hl.used i x hm).2
    · exact hl.bound_free x hx
  · intro j
    have hval : ∀ x ∈ update l i lm j, p.val x = (p.release blank m).val x :=
      fun x hx => congrArg Node.val (hmem x (hother j x hx).2).symm
    rcases eq_or_ne j i with rfl | hj
    · simp only [update_self] at hval ⊢
      rw [← hvs]
      exact map_congr_left hval
    · simp only [update_of_ne hj] at hval ⊢
      rw [hc]
      exact map_congr_left hval

/-- A value more at the end of a queue, in the first free node. -/
theorem Holds.push (h : p.Holds head tail c) {m : ℕ} (hm : p.free = some m) (i : ι) (v : β) :
    (tail i = none → head i = none ∧ (p.take m v).Holds (update head i (some m))
        (update tail i (some m)) (update c i (c i ++ [v])))
      ∧ ∀ t, tail i = some t → head i ≠ none ∧ ((p.take m v).link t m).Holds head
        (update tail i (some m)) (update c i (c i ++ [v])) := by
  obtain ⟨l, lf, hl, hc⟩ := h
  have hfree := hl.free
  rw [hm] at hfree
  obtain ⟨lf', rfl, hfree'⟩ := hfree.eq_cons
  obtain ⟨hmf, hnodup'⟩ := nodup_cons.1 hl.nodup_free
  have hml : ∀ j, m ∉ l j := fun j hj => (hl.used j m hj).1 mem_cons_self
  have hmem : ∀ x, x ≠ m → (p.take m v).mem x = p.mem x := fun x hx => update_of_ne hx ..
  have hself : (p.take m v).mem m = ⟨v, none⟩ := update_self ..
  have hne : ∀ j, ∀ x ∈ l j, x ≠ m := fun j x hx he => hml j (he ▸ hx)
  have hchain : ∀ j, Chain (p.take m v).next (head j) (l j) := fun j =>
    (hl.chain j).frame fun x hx => congrArg Node.next (hmem x (hne j x hx))
  have hlast : ∀ j, update tail i (some m) j
      = (update l i (l i ++ [m]) j).getLast? := by
    intro j
    rcases eq_or_ne j i with rfl | hj
    · rw [update_self, update_self, List.getLast?_append_of_ne_nil _ (by simp)]
      rfl
    · rw [update_of_ne hj, update_of_ne hj]
      exact hl.last j
  have hmembers : ∀ j, ∀ x ∈ update l i (l i ++ [m]) j, x ∈ l j ∨ j = i ∧ x = m := by
    intro j x hx
    rcases eq_or_ne j i with rfl | hj
    · rw [update_self, mem_append, mem_singleton] at hx
      exact hx.imp_right fun he => ⟨rfl, he⟩
    · rw [update_of_ne hj] at hx
      exact .inl hx
  have hnodup : ∀ j, (update l i (l i ++ [m]) j).Nodup := by
    intro j
    rcases eq_or_ne j i with rfl | hj
    · rw [update_self]
      exact nodup_append.2 ⟨hl.nodup j, nodup_singleton m, fun x hx y hy =>
        mem_singleton.1 hy ▸ hne j x hx⟩
    · rw [update_of_ne hj]
      exact hl.nodup j
  have hdisjoint : ∀ j k x, x ∈ update l i (l i ++ [m]) j →
      x ∈ update l i (l i ++ [m]) k → j = k := by
    intro j k x hj hk
    rcases hmembers j x hj with hj | ⟨hji, hj⟩ <;> rcases hmembers k x hk with hk | ⟨hki, hk⟩
    · exact hl.disjoint j k x hj hk
    · exact absurd (hk ▸ hj) (hml j)
    · exact absurd (hj ▸ hk) (hml k)
    · rw [hji, hki]
  have hused : ∀ j, ∀ x ∈ update l i (l i ++ [m]) j, x ∉ lf' ∧ x < p.count := by
    intro j x hx
    rcases hmembers j x hx with hx | ⟨-, rfl⟩
    · exact ⟨fun hbad => (hl.used j x hx).1 (mem_cons_of_mem m hbad), (hl.used j x hx).2⟩
    · exact ⟨hmf, hl.bound_free x mem_cons_self⟩
  have hbound : ∀ x ∈ lf', x < p.count := fun x hx => hl.bound_free x (mem_cons_of_mem m hx)
  have hfree₁ : Chain (p.take m v).next (p.take m v).free lf' := by
    show Chain _ (p.next m) lf'
    exact hfree'.frame fun x hx => congrArg Node.next (hmem x fun he => hmf (he ▸ hx))
  have hcontents : ∀ val : ℕ → β, (∀ j, ∀ x ∈ l j, p.val x = val x) → val m = v →
      ∀ j, update c i (c i ++ [v]) j
        = (update l i (l i ++ [m]) j).map val := by
    intro val hval hvm j
    rcases eq_or_ne j i with rfl | hj
    · rw [update_self, update_self, map_append, map_singleton, hvm, hc,
        map_congr_left (hval j)]
    · rw [update_of_ne hj, update_of_ne hj, hc, map_congr_left (hval j)]
  constructor
  · intro ht
    have hnil : l i = [] := List.getLast?_eq_none_iff.1 ((hl.last i).symm.trans ht)
    have hhead : head i = none := by
      have := hl.chain i
      rwa [hnil] at this
    refine ⟨hhead, update l i (l i ++ [m]), lf', ⟨fun j => ?_, hlast, hnodup, hdisjoint,
      hfree₁, hnodup', hused, hbound⟩, hcontents _ (fun j x hx => ?_) ?_⟩
    · rcases eq_or_ne j i with rfl | hj
      · rw [update_self, update_self, hnil]
        exact ⟨rfl, congrArg Node.next hself⟩
      · rw [update_of_ne hj, update_of_ne hj]
        exact hchain j
    · exact congrArg Node.val (hmem x (hne j x hx)).symm
    · exact congrArg Node.val hself
  · intro t ht
    have hlastt : (l i).getLast? = some t := (hl.last i).symm.trans ht
    have htl : t ∈ l i := List.mem_of_getLast? hlastt
    have htm : t ≠ m := hne i t htl
    have hnext := link_next (p.take m v) t m
    have hval := link_val (p.take m v) t m
    have hhead : head i ≠ none := by
      intro hnone
      have := hl.chain i
      rw [hnone] at this
      rw [this.eq_nil] at htl
      exact not_mem_nil htl
    refine ⟨hhead, update l i (l i ++ [m]), lf', ⟨fun j => ?_, hlast, hnodup, hdisjoint,
      ?_, hnodup', hused, hbound⟩, hcontents _ (fun j x hx => ?_) ?_⟩
    · rw [hnext]
      rcases eq_or_ne j i with rfl | hj
      · rw [update_self]
        exact (hchain j).concat hlastt (hl.nodup j) (hml j) (congrArg Node.next hself)
      · rw [update_of_ne hj]
        have hout : ∀ x ∈ l j, x ≠ t := by
          rintro x hx rfl
          exact hj (hl.disjoint j i x hx htl)
        exact (hchain j).frame fun x hx => update_of_ne (hout x hx) ..
    · rw [hnext]
      refine hfree₁.frame fun x hx => update_of_ne (fun he => ?_) ..
      subst he
      exact (hl.used i x htl).1 (mem_cons_of_mem m hx)
    · rw [hval]
      exact congrArg Node.val (hmem x (hne j x hx)).symm
    · rw [hval]
      exact congrArg Node.val hself

end Pool

end SkynetGame
