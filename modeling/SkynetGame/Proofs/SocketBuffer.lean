import SkynetGame.SocketBuffer
import Mathlib.Tactic.Positivity

/-!
# A socket buffer is the bytes that were not read yet

What the chain of a socket holds from the offset on (`View`) is what came and was not read. To take
bytes off the front gives back each node that is done, to push puts a chunk behind, and the search for
a separator walks over the places of the chain one by one, comparing across the nodes; as long as the
`int` of the size holds the bytes, every call does what it does on the bytes (`run_eq_meant`).
-/

namespace SkynetGame

open Function List Option

namespace SocketBuffer

theorem toInt_of_lt {n : ℤ} (h₀ : -2 ^ 31 ≤ n) (h : n < 2 ^ 31) : toInt n = n := by
  rw [toInt, Int.bmod_eq_of_le (by omega) (by omega)]

/-- A chain of chunks holds the bytes `b` from the offset on, which is within its first chunk. -/
structure View (vs : List Bytes) (offset : ℕ) (b : Bytes) : Prop where
  bytes : vs.flatten.drop offset = b
  inside : ∀ v ∈ vs.head?, offset < v.length
  empty : vs = [] → offset = 0
  nonempty : ∀ v ∈ vs, v ≠ []

theorem View.nil : View [] 0 [] := ⟨rfl, by simp, fun _ => rfl, by simp⟩

theorem View.of_nil {offset : ℕ} {b : Bytes} (h : View [] offset b) : offset = 0 ∧ b = [] := by
  refine ⟨h.empty rfl, ?_⟩
  rw [← h.bytes, flatten_nil, drop_nil]

theorem View.of_cons {v : Bytes} {vs : List Bytes} {offset : ℕ} {b : Bytes}
    (h : View (v :: vs) offset b) :
    b = v.drop offset ++ vs.flatten ∧ offset < v.length ∧ View vs 0 vs.flatten := by
  have hin := h.inside v rfl
  have hne : ∀ w ∈ vs, w ≠ [] := fun w hw => h.nonempty w (mem_cons_of_mem v hw)
  refine ⟨?_, hin, ⟨rfl, fun w hw => ?_, fun _ => rfl, hne⟩⟩
  · rw [← h.bytes, flatten_cons, drop_append_of_le_length hin.le]
  · exact length_pos_iff.2 (hne w (List.mem_of_mem_head? hw))

theorem View.advance {v : Bytes} {vs : List Bytes} {offset n : ℕ} {b : Bytes}
    (h : View (v :: vs) offset b) (hn : offset + n < v.length) :
    View (v :: vs) (offset + n) (b.drop n) := by
  refine ⟨?_, fun w hw => ?_, fun hnil => absurd hnil (cons_ne_nil v vs), h.nonempty⟩
  · rw [← h.bytes, drop_drop]
  · cases hw
    exact hn

/-- The chains of the sockets hold the chunks `c`. -/
def Chains (s : State) (c : ℕ → List Bytes) : Prop :=
  s.pool.Holds (fun id => (s.sb id).head) (fun id => (s.sb id).tail) c

/-- What an operation on one buffer leaves alone. -/
def Others (s s' : State) (id : ℕ) : Prop := ∀ j ≠ id, s'.sb j = s.sb j

theorem Others.refl (s : State) (id : ℕ) : Others s s id := fun _ _ => rfl

theorem Others.trans {s s' s'' : State} {id : ℕ} (h : Others s s' id) (h' : Others s' s'' id) :
    Others s s'' id := fun j hj => (h' j hj).trans (h j hj)

theorem head_update (sb : ℕ → Buffer) (id : ℕ) (b : Buffer) :
    (fun j => (update sb id b j).head)
      = update (fun j => (sb j).head) id b.head :=
  funext fun j => Function.apply_update (fun _ b => Buffer.head b) sb id b j

theorem tail_update (sb : ℕ → Buffer) (id : ℕ) (b : Buffer) :
    (fun j => (update sb id b j).tail)
      = update (fun j => (sb j).tail) id b.tail :=
  funext fun j => Function.apply_update (fun _ b => Buffer.tail b) sb id b j

theorem Chains.setBuffer {s : State} {c : ℕ → List Bytes} (h : Chains s c) (id offset : ℕ)
    (size : ℤ) : Chains (s.setBuffer id { s.sb id with offset := offset, size := size }) c := by
  unfold Chains State.setBuffer
  rw [head_update, tail_update]
  simp only [update_eq_self]
  exact h

theorem returnFreeNode_spec {s : State} {c : ℕ → List Bytes} (h : Chains s c) {id : ℕ} {v : Bytes}
    {vs : List Bytes} (hc : c id = v :: vs) : ∃ m s', (s.sb id).head = some m ∧ s.pool.val m = v ∧
      returnFreeNode s id = some s' ∧ Chains s' (update c id vs) ∧ Others s s' id
      ∧ (s'.sb id).offset = 0 ∧ (s'.sb id).size = (s.sb id).size
      ∧ s'.pool.count = s.pool.count := by
  obtain ⟨m, hm, hv, -, hrel⟩ := Pool.Holds.release h hc []
  have hret : returnFreeNode s id = some { s with
      sb := update s.sb id { s.sb id with
        offset := 0
        head := s.pool.next m
        tail := if s.pool.next m = none then none else (s.sb id).tail }
      pool := s.pool.release [] m } := by
    rw [returnFreeNode, hm]
  refine ⟨m, _, hm, hv, hret, ?_, fun j hj => update_of_ne hj .., ?_, ?_, rfl⟩
  · unfold Chains
    simp only [head_update, tail_update]
    exact hrel
  · simp only [update_self]
  · simp only [update_self]

/-- After an operation on the chain of a socket it holds the bytes `u`; its size is as before. -/
def Leaves (s : State) (c : ℕ → List Bytes) (s' : State) (id : ℕ) (u : Bytes) : Prop :=
  ∃ vs, Chains s' (Function.update c id vs) ∧ View vs (s'.sb id).offset u ∧ Others s s' id
    ∧ (s'.sb id).size = (s.sb id).size ∧ s'.pool.count = s.pool.count

theorem leaves_advance {s : State} {c : ℕ → List Bytes} (h : Chains s c) {id n : ℕ} {v : Bytes}
    {vs : List Bytes} {b : Bytes} (hc : c id = v :: vs) (hv : View (v :: vs) (s.sb id).offset b)
    (hn : (s.sb id).offset + n < v.length) : Leaves s c (advance s id n) id (b.drop n) := by
  refine ⟨v :: vs, ?_, ?_, fun j hj => update_of_ne hj .., ?_, rfl⟩
  · rw [← hc, update_eq_self]
    exact h.setBuffer id _ (s.sb id).size
  · simp only [advance, State.setBuffer, update_self, Int.toNat_natCast]
    exact hv.advance hn
  · simp only [advance, State.setBuffer, update_self]

theorem leaves_return {s : State} {c : ℕ → List Bytes} (h : Chains s c) {id offset : ℕ} {v : Bytes}
    {vs : List Bytes} {b : Bytes} (hc : c id = v :: vs) (hv : View (v :: vs) offset b) :
    ∃ s', returnFreeNode s id = some s' ∧ Chains s' (update c id vs)
      ∧ View vs (s'.sb id).offset vs.flatten ∧ Leaves s c s' id vs.flatten := by
  obtain ⟨-, s', -, -, hret, hch, hoth, hoff, hsize, hcount⟩ := returnFreeNode_spec h hc
  obtain ⟨-, -, hrest⟩ := hv.of_cons
  exact ⟨s', hret, hch, hoff ▸ hrest, vs, hch, hoff ▸ hrest, hoth, hsize, hcount⟩

theorem Leaves.trans {s s₁ s' : State} {c : ℕ → List Bytes} {id : ℕ} {vs : List Bytes}
    {u₁ u : Bytes} (h₁ : Leaves s c s₁ id u₁) (h : Leaves s₁ (update c id vs) s' id u) :
    Leaves s c s' id u := by
  obtain ⟨-, -, -, hoth₁, hsize₁, hcount₁⟩ := h₁
  obtain ⟨vs', hch, hv, hoth, hsize, hcount⟩ := h
  rw [update_idem] at hch
  exact ⟨vs', hch, hv, hoth₁.trans hoth, hsize.trans hsize₁, hcount.trans hcount₁⟩

theorem head_of_cons {s : State} {c : ℕ → List Bytes} (h : Chains s c) {id : ℕ} {v : Bytes}
    {vs : List Bytes} (hc : c id = v :: vs) : ∃ m, (s.sb id).head = some m ∧ s.pool.val m = v := by
  obtain ⟨m, -, hm, hv, -⟩ := returnFreeNode_spec h hc
  exact ⟨m, hm, hv⟩

theorem leaves_whole {s : State} {c : ℕ → List Bytes} (h : Chains s c) {id n : ℕ} {v : Bytes}
    {vs : List Bytes} {b : Bytes} (hc : c id = v :: vs) (hv : View (v :: vs) (s.sb id).offset b)
    (hn : (v.drop (s.sb id).offset).length = n) :
    b.drop n = vs.flatten
      ∧ (∃ s', returnFreeNode s id = some s' ∧ Leaves s c s' id (b.drop n))
      ∧ ∃ s', returnFreeNode (advance s id n) id = some s' ∧ Leaves s c s' id (b.drop n) := by
  obtain ⟨hb, -, -⟩ := hv.of_cons
  have hdrop : b.drop n = vs.flatten := by rw [hb, drop_left' hn]
  rw [hdrop]
  obtain ⟨s', hret, -, -, hleaves⟩ := leaves_return h hc hv
  refine ⟨rfl, ⟨s', hret, hleaves⟩, ?_⟩
  have hch : Chains (advance s id n) c := h.setBuffer id _ (s.sb id).size
  obtain ⟨s₁, hret₁, -, -, vs₁, hch₁, hv₁, hoth, hsize, hcount⟩ := leaves_return hch hc hv
  refine ⟨s₁, hret₁, vs₁, hch₁, hv₁, fun j hj => (hoth j hj).trans (update_of_ne hj ..),
    hsize.trans ?_, hcount⟩
  simp only [advance, State.setBuffer, update_self]

theorem take_last (msg : Bytes) (n k : ℕ) :
    (if (n : ℤ) > k then msg.take ((n : ℤ) - k).toNat else []) = msg.take (n - k) := by
  split_ifs with h
  · rw [show ((n : ℤ) - k).toNat = n - k by omega]
  · rw [show n - k = 0 by omega, take_zero]

theorem take_part (msg : Bytes) (n k : ℕ) :
    (if (n : ℤ) - k > 0 then
        msg.take (if (n : ℤ) - k < msg.length then (n : ℤ) - k else msg.length).toNat else [])
      = msg.take (n - k) := by
  split_ifs with h h'
  · rw [show ((n : ℤ) - k).toNat = n - k by omega]
  · rw [Int.toNat_natCast, take_length, take_of_length_le (by omega)]
  · rw [show n - k = 0 by omega, take_zero]

theorem popLoop_spec (k : ℕ) : ∀ (fuel n : ℕ) {s : State} {c : ℕ → List Bytes} {id : ℕ} {b : Bytes},
    Chains s c → View (c id) (s.sb id).offset b → 0 < n → n ≤ b.length → (c id).length ≤ fuel →
      ∃ s', popLoop fuel s id n k = some (b.take (n - k), s') ∧ Leaves s c s' id (b.drop n) := by
  intro fuel
  induction fuel with
  | zero =>
    intro n s c id b h hv hn hle hfuel
    rw [length_eq_zero_iff.1 (Nat.le_zero.1 hfuel)] at hv
    rw [hv.of_nil.2, length_nil] at hle
    omega
  | succ fuel ih =>
    intro n s c id b h hv hn hle hfuel
    obtain ⟨v, vs, hc⟩ : ∃ v vs, c id = v :: vs := by
      cases hc : c id with
      | nil =>
        rw [hc] at hv
        rw [hv.of_nil.2, length_nil] at hle
        omega
      | cons v vs => exact ⟨v, vs, rfl⟩
    rw [hc] at hv hfuel
    obtain ⟨hb, hlt, hrest⟩ := hv.of_cons
    obtain ⟨m, hm, hval⟩ := head_of_cons h hc
    have hmsg : (v.drop (s.sb id).offset).length = v.length - (s.sb id).offset := length_drop
    rw [popLoop, hm]
    simp only [hval, take_last, take_part]
    by_cases hge : n ≤ (v.drop (s.sb id).offset).length
    · have hout : (v.drop (s.sb id).offset).take (n - k) = b.take (n - k) := by
        rw [hb, take_append_of_le_length (by omega)]
      rw [if_pos (by omega), hout]
      by_cases heq : (v.drop (s.sb id).offset).length = n
      · obtain ⟨-, -, s', hret, hl⟩ := leaves_whole h hc hv heq
        rw [if_pos (by omega), hret]
        exact ⟨s', rfl, hl⟩
      · rw [if_neg (by omega)]
        exact ⟨_, rfl, leaves_advance h hc hv (by omega)⟩
    · -- the node is done, and what is left is popped from the others
      obtain ⟨s₁, hret, hch, hv₁, hl⟩ := leaves_return h hc hv
      have hcast : (n : ℤ) - ((v.drop (s.sb id).offset).length : ℤ)
          = ((n - (v.drop (s.sb id).offset).length : ℕ) : ℤ) := by omega
      have hlen := congrArg List.length hb
      rw [length_append] at hlen
      obtain ⟨s', hpop, hleaves⟩ := ih (n - (v.drop (s.sb id).offset).length) hch
        (by rwa [update_self]) (by omega) (by omega)
        (by rw [update_self]; exact Nat.le_of_succ_le_succ hfuel)
      rw [if_neg (by omega), hret, bind_some, if_neg (by omega), hcast, hpop]
      refine ⟨s', ?_, ?_⟩
      · rw [map_some, hb, take_append]
        rw [Nat.sub_right_comm]
      · rw [hb, drop_append, drop_of_length_le (by omega), nil_append]
        exact hl.trans hleaves

theorem cons_of_pos {s : State} {c : ℕ → List Bytes} {id : ℕ} {b : Bytes}
    (hv : View (c id) (s.sb id).offset b) (hb : 0 < b.length) : ∃ v vs, c id = v :: vs := by
  cases hc : c id with
  | nil =>
    rw [hc] at hv
    rw [hv.of_nil.2] at hb
    exact absurd hb (Nat.lt_irrefl 0)
  | cons v vs => exact ⟨v, vs, rfl⟩

theorem popLstring_spec {s : State} {c : ℕ → List Bytes} {id n k : ℕ} {b : Bytes} (h : Chains s c)
    (hv : View (c id) (s.sb id).offset b) (hb₀ : 0 < b.length) (hle : n ≤ b.length)
    (hk : k ≤ n) :
    ∃ s', popLstring s id n k = some (b.take (n - k), s') ∧ Leaves s c s' id (b.drop n) := by
  obtain ⟨v, vs, hc⟩ := cons_of_pos hv hb₀
  have hv' := hv
  rw [hc] at hv'
  obtain ⟨hb, hlt, hrest⟩ := hv'.of_cons
  obtain ⟨m, hm, hval⟩ := head_of_cons h hc
  have hmsg : (v.drop (s.sb id).offset).length = v.length - (s.sb id).offset := length_drop
  have hstr : n ≤ (v.drop (s.sb id).offset).length →
      pushlstring (v.drop (s.sb id).offset) ((n : ℤ) - k) = some (b.take (n - k)) := by
    intro hin
    rw [pushlstring, if_neg (by omega), show ((n : ℤ) - k).toNat = n - k by omega, hb,
      take_append_of_le_length (by omega)]
  rw [popLstring, hm]
  simp only [hval]
  rcases Nat.lt_trichotomy n (v.drop (s.sb id).offset).length with hlt' | heq | hgt
  · rw [if_pos (by omega), hstr hlt'.le]
    exact ⟨_, rfl, leaves_advance h hc hv' (by omega)⟩
  · obtain ⟨-, ⟨s', hret, hl⟩, -⟩ := leaves_whole h hc hv' heq.symm
    rw [if_neg (by omega), if_pos (by omega), hstr heq.le, bind_some, hret]
    exact ⟨s', rfl, hl⟩
  · rw [if_neg (by omega), if_neg (by omega)]
    exact popLoop_spec k _ n h hv (by omega) hle ((h.length_le id).trans (Nat.le_succ _))

theorem head_of_nil {s : State} {c : ℕ → List Bytes} (h : Chains s c) {id : ℕ} (hc : c id = []) :
    (s.sb id).head = none := by
  have hvals := h.values id
  rw [hc] at hvals
  exact hvals.of_nil

theorem drain_spec : ∀ (fuel : ℕ) {s : State} {c : ℕ → List Bytes} {id : ℕ} {b : Bytes},
    Chains s c → View (c id) (s.sb id).offset b → (c id).length < fuel →
      ∃ s', drain fuel s id = some (b, s') ∧ Leaves s c s' id [] := by
  intro fuel
  induction fuel with
  | zero => exact fun _ _ h => absurd h (Nat.not_lt_zero _)
  | succ fuel ih =>
    intro s c id b h hv hfuel
    cases hc : c id with
    | nil =>
      rw [hc] at hv
      obtain ⟨hoff, rfl⟩ := hv.of_nil
      rw [drain, head_of_nil h hc]
      refine ⟨s, rfl, [], ?_, hoff.symm ▸ View.nil, Others.refl s id, rfl, rfl⟩
      rwa [← hc, update_eq_self]
    | cons v vs =>
      rw [hc] at hv hfuel
      obtain ⟨hb, -, -⟩ := hv.of_cons
      obtain ⟨m, hm, hval⟩ := head_of_cons h hc
      obtain ⟨s₁, hret, hch, hv₁, hl⟩ := leaves_return h hc hv
      obtain ⟨s', hdrain, hleaves⟩ := ih hch (by rwa [update_self])
        (by rw [update_self]; exact Nat.lt_of_succ_lt_succ hfuel)
      rw [drain, hm]
      simp only [hret, bind_some, hdrain, map_some, hval]
      exact ⟨s', by rw [hb], hl.trans hleaves⟩

section Search

theorem isPrefixOf_eq_take (sep b : Bytes) :
    sep.isPrefixOf b = decide (b.take sep.length = sep) := by
  rw [Bool.eq_iff_iff, isPrefixOf_iff_prefix, prefix_iff_eq_take, decide_eq_true_iff]
  exact eq_comm

/-- `check_sep` compares the separator with the bytes from a place of the chain on, and does not walk
past its end. -/
theorem checkSep_spec {pool : Pool Bytes} {q : Option ℕ} {vs : List Bytes}
    (h : Pool.Values pool q vs) : ∀ {fuel start : ℕ} {sep b : Bytes}, View vs start b →
      (vs ≠ [] ∨ 0 < sep.length) → sep.length ≤ b.length → vs.length ≤ fuel →
      checkSep pool fuel q start sep sep.length = some (sep.isPrefixOf b) := by
  induction h with
  | nil =>
    intro fuel start sep b hv hsep hle _
    rw [hv.of_nil.2, length_nil] at hle
    rcases hsep with hne | hpos
    · exact absurd rfl hne
    · omega
  | cons m vs _ ih =>
    intro fuel start sep b hv _ hle hfuel
    obtain ⟨hb, hlt, hrest⟩ := hv.of_cons
    obtain ⟨fuel, rfl⟩ : ∃ n, fuel = n + 1 := ⟨fuel - 1, by rw [length_cons] at hfuel; omega⟩
    have hmsg : ((pool.val m).drop start).length = (pool.val m).length - start := length_drop
    have hlen := congrArg List.length hb
    rw [length_append] at hlen
    rw [checkSep]
    by_cases hge : sep.length ≤ ((pool.val m).drop start).length
    · rw [if_pos (by omega), if_neg (by omega), Int.toNat_natCast, take_length,
        isPrefixOf_eq_take, hb, take_append_of_le_length hge]
    · rw [if_neg (by omega)]
      have hsplit : b.take sep.length = (pool.val m).drop start
          ++ vs.flatten.take (sep.length - ((pool.val m).drop start).length) := by
        rw [hb, take_append, take_of_length_le (by omega)]
      by_cases hne : (pool.val m).drop start = sep.take ((pool.val m).drop start).length
      · rw [if_neg (fun hbad => hbad.2 hne)]
        have hsep' := take_append_drop ((pool.val m).drop start).length sep
        rw [← hne] at hsep'
        have hdrop : (sep.drop ((pool.val m).drop start).length).length
            = sep.length - ((pool.val m).drop start).length := length_drop
        have hcast : (sep.length : ℤ) - ((pool.val m).drop start).length
            = ((sep.drop ((pool.val m).drop start).length).length : ℕ) := by omega
        rw [hcast, ih hrest (.inr (by omega)) (by omega) (Nat.le_of_succ_le_succ hfuel),
          isPrefixOf_eq_take, isPrefixOf_eq_take, hsplit, hdrop]
        have hiff : ∀ x, (pool.val m).drop start ++ x = sep
            ↔ x = sep.drop ((pool.val m).drop start).length := by
          intro x
          conv_lhs => rw [← hsep']
          rw [append_cancel_left_eq]
        simp only [hiff]
      · rw [if_pos ⟨by omega, hne⟩, isPrefixOf_eq_take, hsplit]
        congr 1
        refine (decide_eq_false fun heq => hne ?_).symm
        rw [← heq, take_left]

theorem findSep_of_short {sep : Bytes} : ∀ {b : Bytes}, b.length < sep.length → findSep sep b = none
  | [], _ => rfl
  | c :: b, h => by
    have hno : sep.isPrefixOf (c :: b) = false := by
      rw [isPrefixOf_eq_take]
      refine decide_eq_false fun heq => ?_
      have hlen := congrArg List.length heq
      rw [length_take] at hlen
      omega
    rw [length_cons] at h
    rw [findSep, hno, findSep_of_short (by omega)]
    rfl

theorem findLoop_spec {pool : Pool Bytes} {sep : Bytes} (hint : sep.length < 2 ^ 31) : ∀ (n : ℕ) {m start i : ℕ} {vs : List Bytes} {b : Bytes},
      Pool.Values pool (some m) (pool.val m :: vs) → View (pool.val m :: vs) start b →
      vs.length ≤ pool.count → n = b.length + 1 - sep.length →
      findLoop pool sep n m start ((pool.val m).length - start : ℕ) i
        = some ((findSep sep b).map (i + ·)) := by
  intro n
  induction n with
  | zero =>
    intro m start i vs b _ _ _ hn
    rw [findLoop, findSep_of_short (by omega)]
    rfl
  | succ n ih =>
    intro m start i vs b h hv hcount hn
    obtain ⟨hb, hlt, hrest⟩ := hv.of_cons
    obtain ⟨b₀, b', hbb⟩ : ∃ c b', b = c :: b' := by
      cases b with
      | nil =>
        have := congrArg List.length hb
        rw [length_append, length_drop, length_nil] at this
        omega
      | cons c b' => exact ⟨c, b', rfl⟩
    have hdrop : b' = b.drop 1 := by rw [hbb]; rfl
    have hlen : b.length = b'.length + 1 := by rw [hbb]; rfl
    rw [findLoop, toInt_of_lt (by omega) (by omega),
      checkSep_spec h hv (.inl (cons_ne_nil _ _)) (by omega)
        (by rw [length_cons]; omega), bind_some]
    cases hpre : sep.isPrefixOf b with
    | true =>
      rw [if_pos rfl, hbb, findSep, ← hbb, hpre]
      rfl
    | false =>
      have hfind : findSep sep b = (findSep sep b').map (· + 1) := by
        rw [hbb, findSep, ← hbb, hpre]
        rfl
      have hshift : (findSep sep b).map (i + ·) = (findSep sep b').map (i + 1 + ·) := by
        rw [hfind, Option.map_map]
        congr 1
        funext k
        simp only [Function.comp_apply]
        omega
      rw [if_neg (by decide), hshift]
      by_cases hlast : start + 1 = (pool.val m).length
      · rw [if_pos (by omega)]
        have hb' : b' = vs.flatten := by
          rw [hdrop, hb, drop_left' (by rw [length_drop]; omega)]
        obtain ⟨vs', hvs', hvals⟩ := h.of_some
        obtain rfl : vs = vs' := (List.cons.inj hvs').2
        cases hnext : pool.next m with
        | none =>
          rw [hnext] at hvals
          rw [hb', hvals.of_none]
          rfl
        | some m' =>
          rw [hnext] at hvals
          obtain ⟨ws, rfl, -⟩ := hvals.of_some
          have hrec := ih (i := i + 1) hvals (hb' ▸ hrest)
            (by rw [length_cons] at hcount; omega) (by omega)
          rwa [Nat.sub_zero] at hrec
      · rw [if_neg (by omega)]
        have hrec := ih (i := i + 1) h (hdrop ▸ hv.advance (n := 1) (by omega)) hcount (by omega)
        rwa [show (((pool.val m).length - start : ℕ) : ℤ) - 1
          = ((pool.val m).length - (start + 1) : ℕ) by omega]

theorem findLine_spec {s : State} {c : ℕ → List Bytes} {id : ℕ} {b sep : Bytes} (h : Chains s c)
    (hv : View (c id) (s.sb id).offset b) (hsize : (s.sb id).size = b.length)
    (hb : b.length < 2 ^ 31) (hint : sep.length < 2 ^ 31) :
    findLine s id sep = some (findSep sep b) := by
  cases hc : c id with
  | nil =>
    rw [hc] at hv
    rw [findLine, head_of_nil h hc, hv.of_nil.2]
    rfl
  | cons v vs =>
    rw [hc] at hv
    obtain ⟨m, hm, hval⟩ := head_of_cons h hc
    obtain ⟨-, hlt, -⟩ := hv.of_cons
    have hvals := h.values id
    have hcount := h.length_le id
    rw [hc, length_cons] at hcount
    rw [hc] at hvals
    simp only [hm, ← hval] at hvals
    rw [← hval] at hv hlt
    have hn : (toInt ((b.length : ℤ) - sep.length) + 1).toNat = b.length + 1 - sep.length := by
      rw [toInt_of_lt (by omega) (by omega)]
      omega
    have hbytes : ((s.pool.val m).length : ℤ) - (s.sb id).offset
        = ((s.pool.val m).length - (s.sb id).offset : ℕ) := by omega
    have hloop := findLoop_spec (i := 0) hint _ hvals hv (by omega) rfl
    rw [findLine, hm]
    simp only [toInt_of_lt (show -2 ^ 31 ≤ (sep.length : ℤ) by omega) (by omega), hsize]
    rw [hn, hbytes, hloop]
    simp only [Nat.zero_add, Option.map_id']

end Search

/-- The buffers hold the unread bytes `u` of the sockets, and their sizes. -/
def Rep (s : State) (u : ℕ → Bytes) : Prop :=
  ∃ c, Chains s c ∧ ∀ id, View (c id) (s.sb id).offset (u id) ∧ (s.sb id).size = (u id).length
    ∧ (u id).length < 2 ^ 31

theorem Rep.init : Rep .init fun _ => [] :=
  ⟨fun _ => [], Pool.holds_empty [], fun _ => ⟨View.nil, rfl, Nat.two_pow_pos 31⟩⟩

theorem Rep.of_leaves {s s' : State} {c : ℕ → List Bytes} {u : ℕ → Bytes} {id : ℕ} {b : Bytes}
    {size : ℤ}
    (h : ∀ id, View (c id) (s.sb id).offset (u id) ∧ (s.sb id).size = (u id).length
      ∧ (u id).length < 2 ^ 31)
    (hl : Leaves s c s' id b) (hsize : size = b.length) (hb : b.length < 2 ^ 31) :
    Rep (s'.setBuffer id { s'.sb id with size := size }) (update u id b) := by
  obtain ⟨vs, hch, hv, hoth, -, -⟩ := hl
  refine ⟨update c id vs, hch.setBuffer id (s'.sb id).offset size, fun j => ?_⟩
  rcases eq_or_ne j id with rfl | hj
  · simp only [State.setBuffer, update_self]
    exact ⟨hv, hsize, hb⟩
  · simp only [State.setBuffer, update_of_ne hj, hoth j hj]
    exact h j

theorem refill_spec {s : State} {c : ℕ → List Bytes} (h : Chains s c) :
    Chains (refill s) c ∧ (refill s).sb = s.sb ∧ ∃ m, (refill s).pool.free = some m := by
  cases hfree : s.pool.free with
  | some m =>
    rw [refill, hfree]
    exact ⟨h, rfl, m, hfree⟩
  | none =>
    rw [refill, hfree]
    refine ⟨Pool.Holds.grow h _ _, rfl, s.pool.count, if_pos ?_⟩
    simp only [Nat.shiftLeft_eq]
    split_ifs <;> positivity

theorem View.concat {vs : List Bytes} {offset : ℕ} {b msg : Bytes} (h : View vs offset b)
    (hmsg : msg ≠ []) : View (vs ++ [msg]) offset (b ++ msg) := by
  have hne : ∀ v ∈ vs ++ [msg], v ≠ [] := by
    intro v hv
    rcases mem_append.1 hv with hv | hv
    · exact h.nonempty v hv
    · exact mem_singleton.1 hv ▸ hmsg
  cases vs with
  | nil =>
    obtain ⟨rfl, rfl⟩ := h.of_nil
    refine ⟨by simp, fun v hv => ?_, fun hnil => absurd hnil (cons_ne_nil _ _), hne⟩
    cases hv
    exact length_pos_iff.2 hmsg
  | cons v vs =>
    refine ⟨?_, h.inside, fun hnil => absurd hnil (cons_ne_nil _ _), hne⟩
    have hle : offset ≤ (v :: vs).flatten.length := by
      have := h.inside v rfl
      rw [flatten_cons, length_append]
      omega
    rw [flatten_append, flatten_singleton, drop_append_of_le_length hle, h.bytes]

theorem lpushbuffer_spec {s : State} {u : ℕ → Bytes} {id : ℕ} {msg : Bytes} (h : Rep s u)
    (hmsg : msg ≠ []) (hfits : (u id ++ msg).length < 2 ^ 31) :
    ∃ s', lpushbuffer s id msg = some (((u id ++ msg).length : ℤ), s')
      ∧ Rep s' (update u id (u id ++ msg)) := by
  obtain ⟨c, hch, hall⟩ := h
  obtain ⟨hch', hsb, m, hm⟩ := refill_spec hch
  obtain ⟨hv, hsize, hlt⟩ := hall id
  obtain ⟨hfirst, hmore⟩ := Pool.Holds.push hch' hm id msg
  have hlen : toInt ((s.sb id).size + msg.length) = ((u id ++ msg).length : ℕ) := by
    rw [length_append] at hfits ⊢
    rw [hsize, toInt_of_lt (by omega) (by omega)]
    omega
  have hrep : ∀ s' : State, Chains s' (update c id (c id ++ [msg])) →
      Others (refill s) s' id → (s'.sb id).offset = (s.sb id).offset →
      (s'.sb id).size = (u id ++ msg).length → Rep s' (update u id (u id ++ msg)) := by
    intro s' hc hoth hoff hsz
    refine ⟨_, hc, fun j => ?_⟩
    rcases eq_or_ne j id with rfl | hj
    · simp only [update_self]
      exact ⟨hoff ▸ hv.concat hmsg, hsz, hfits⟩
    · simp only [update_of_ne hj, hoth j hj, hsb]
      exact hall j
  rw [lpushbuffer]
  simp only [hsb, hlen, hm]
  cases htail : (s.sb id).tail with
  | none =>
    obtain ⟨hhead, hnew⟩ := hfirst (by rw [hsb, htail])
    rw [hsb] at hhead
    rw [hhead]
    refine ⟨_, rfl, hrep _ ?_ (fun j hj => ?_) ?_ ?_⟩
    · unfold Chains
      simp only [head_update, tail_update]
      rw [hsb] at hnew
      exact hnew
    · exact (update_of_ne hj ..).trans (congrFun hsb j).symm
    · simp only [update_self]
    · simp only [update_self]
  | some t =>
    obtain ⟨hhead, hnew⟩ := hmore t (by rw [hsb, htail])
    rw [hsb] at hhead
    obtain ⟨n, hn⟩ := ne_none_iff_exists'.1 hhead
    rw [hn]
    refine ⟨_, rfl, hrep _ ?_ (fun j hj => ?_) ?_ ?_⟩
    · unfold Chains
      simp only [head_update, tail_update]
      rw [hsb] at hnew
      rw [show update (fun j => (s.sb j).head) id (some n) = fun j => (s.sb j).head from
        Function.update_eq_self_iff.2 hn.symm]
      exact hnew
    · exact (update_of_ne hj ..).trans (congrFun hsb j).symm
    · simp only [update_self]
    · simp only [update_self]

theorem findSep_le {sep : Bytes} : ∀ {b : Bytes} {i : ℕ}, findSep sep b = some i →
    i + sep.length ≤ b.length
  | c :: b, i, h => by
    rw [findSep] at h
    split_ifs at h with hpre
    · obtain rfl : 0 = i := some.inj h
      rw [Nat.zero_add]
      exact (List.isPrefixOf_iff_prefix.1 hpre).length_le
    · obtain ⟨k, hk, rfl⟩ := map_eq_some_iff.1 h
      have := findSep_le hk
      rw [length_cons]
      omega

/-- What the `int`s of a call hold: lengths below `2 ^ 31`, that of the unread bytes as well, and
chunks are not empty. -/
def Fits (u : Bytes) : Op → Prop
  | .push msg => msg ≠ [] ∧ (u ++ msg).length < 2 ^ 31
  | .pop sz => 0 ≤ sz ∧ sz < 2 ^ 31
  | .readline sep => sep.length < 2 ^ 31
  | .check sep => sep.length < 2 ^ 31
  | .readall => True
  | .clear => True

theorem step_spec {s : State} {u : ℕ → Bytes} (h : Rep s u) (id : ℕ) {op : Op}
    (hfits : Fits (u id) op) : ∃ s', step s id op = some ((meant (u id) op).1, s')
      ∧ Rep s' (update u id (meant (u id) op).2) := by
  have hrep := h
  obtain ⟨c, hch, hall⟩ := h
  obtain ⟨hv, hsize, hlt⟩ := hall id
  have hkeep : update u id (u id) = u := update_eq_self id u
  cases op with
  | push msg =>
    obtain ⟨s', hpush, hrep'⟩ := lpushbuffer_spec hrep hfits.1 hfits.2
    refine ⟨s', ?_, hrep'⟩
    rw [step, hpush, meant, length_append, Nat.cast_add]
    rfl
  | pop sz =>
    obtain ⟨h₀, h₁⟩ := hfits
    rw [step, lpopbuffer, toInt_of_lt (by omega) h₁, hsize, meant]
    by_cases hin : 0 < sz ∧ sz ≤ (u id).length
    · obtain ⟨n, rfl⟩ : ∃ n : ℕ, sz = n := ⟨sz.toNat, by omega⟩
      obtain ⟨s', hpop, hl⟩ := popLstring_spec (k := 0) hch hv (by omega) (by omega) (Nat.zero_le n)
      have hsz : (s'.sb id).size = (u id).length := by
        obtain ⟨-, -, -, -, hs, -⟩ := hl
        rw [hs, hsize]
      have hleft : toInt ((s'.sb id).size - n) = ((u id).drop n).length := by
        rw [hsz, toInt_of_lt (by omega) (by omega), length_drop]
        omega
      rw [if_neg (by omega), if_pos hin, Int.toNat_natCast]
      rw [Nat.cast_zero] at hpop
      refine ⟨shrink s' id n, ?_, ?_⟩
      · rw [hpop]
        simp only [map_some, shrink, State.setBuffer, update_self, hleft,
          Nat.sub_zero, length_drop]
        rw [Nat.cast_sub (by omega)]
      · exact Rep.of_leaves hall hl hleft (by rw [length_drop]; omega)
    · rw [if_pos (by omega), if_neg hin, hkeep]
      exact ⟨s, rfl, hrep⟩
  | readline sep =>
    have hint : sep.length < 2 ^ 31 := hfits
    rw [step, lreadline, findLine_spec hch hv hsize hlt hint, bind_some, meant]
    cases hfind : findSep sep (u id) with
    | none =>
      simp only []
      rw [hkeep]
      exact ⟨s, rfl, hrep⟩
    | some i =>
      have hle := findSep_le hfind
      have hne : u id ≠ [] := by
        intro hnil
        rw [hnil] at hfind
        cases hfind
      obtain ⟨s', hpop, hl⟩ := popLstring_spec (n := i + sep.length) (k := sep.length) hch hv
        (length_pos_iff.2 hne) hle (Nat.le_add_left _ _)
      have hsz : (s'.sb id).size = (u id).length := by
        obtain ⟨-, -, -, -, hs, -⟩ := hl
        rw [hs, hsize]
      have hleft : toInt ((s'.sb id).size - ((i : ℤ) + sep.length))
          = ((u id).drop (i + sep.length)).length := by
        rw [hsz, toInt_of_lt (by omega) (by omega), length_drop]
        omega
      have hn : toInt ((i : ℤ) + sep.length) = (i + sep.length : ℕ) := by
        rw [toInt_of_lt (by omega) (by omega)]
        rfl
      simp only [hn, toInt_of_lt (show -2 ^ 31 ≤ (sep.length : ℤ) by omega) (by omega), hpop]
      refine ⟨shrink s' id (i + sep.length), ?_, ?_⟩
      · simp only [map_some, Nat.add_sub_cancel]
      · exact Rep.of_leaves hall hl hleft (by rw [length_drop]; omega)
  | check sep =>
    rw [step, lreadlineCheck, findLine_spec hch hv hsize hlt hfits]
    simp only [meant]
    rw [hkeep]
    exact ⟨s, rfl, hrep⟩
  | readall =>
    obtain ⟨s', hdrain, hl⟩ := drain_spec _ hch hv (Nat.lt_succ_of_le (hch.length_le id))
    rw [step, lreadall, hdrain]
    exact ⟨_, rfl, Rep.of_leaves hall hl rfl (Nat.two_pow_pos 31)⟩
  | clear =>
    obtain ⟨s', hdrain, hl⟩ := drain_spec _ hch hv (Nat.lt_succ_of_le (hch.length_le id))
    rw [step, lclearbuffer, hdrain]
    exact ⟨_, rfl, Rep.of_leaves hall hl rfl (Nat.two_pow_pos 31)⟩

/-- Each call of a sequence fits, on what the calls before it leave. -/
def FitsAll : (ℕ → Bytes) → List (ℕ × Op) → Prop
  | _, [] => True
  | u, (id, op) :: ops =>
    Fits (u id) op ∧ FitsAll (Function.update u id (meant (u id) op).2) ops

theorem run_spec : ∀ (ops : List (ℕ × Op)) {s : State} {u : ℕ → Bytes}, Rep s u → FitsAll u ops →
    ∃ s', run s ops = some ((meantRun u ops).1, s') ∧ Rep s' (meantRun u ops).2
  | [], s, _, h, _ => ⟨s, rfl, h⟩
  | (id, op) :: ops, s, u, h, hfits => by
    obtain ⟨s₁, hstep, hrep⟩ := step_spec h id hfits.1
    obtain ⟨s', hrun, hrep'⟩ := run_spec ops hrep hfits.2
    refine ⟨s', ?_, hrep'⟩
    rw [run, hstep, bind_some]
    simp only [hrun, map_some, meantRun]

/-- The calls come to their end and return what the same calls on the unread bytes return, and each
size is then the number of unread bytes. -/
def AsMeant (ops : List (ℕ × Op)) : Prop :=
  ∃ s, run .init ops = some ((meantRun (fun _ => []) ops).1, s)
    ∧ ∀ id, (s.sb id).size = ((meantRun (fun _ => []) ops).2 id).length

/-- Every sequence of calls whose lengths the `int`s hold, on the buffers of any sockets with one
pool, is as meant. -/
theorem asMeant_of_fits {ops : List (ℕ × Op)} (h : FitsAll (fun _ => []) ops) : AsMeant ops := by
  obtain ⟨s, hrun, c, -, hall⟩ := run_spec ops Rep.init h
  exact ⟨s, hrun, fun id => (hall id).2.1⟩

/-- A separator in two chunks, with the chunk of another socket between them. -/
theorem asMeant_straddling : AsMeant [(1, .push [97, 13]), (2, .push [98]), (1, .push [10, 99]),
    (1, .check [13, 10]), (1, .readline [13, 10]), (2, .pop 2), (1, .readall)] :=
  asMeant_of_fits ⟨⟨by decide, by decide⟩, ⟨by decide, by decide⟩, ⟨by decide, by decide⟩,
    show 2 < 2 ^ 31 by decide, show 2 < 2 ^ 31 by decide, ⟨by decide, by decide⟩, trivial, trivial⟩

/-- One byte is popped although more than `2 ^ 32` are asked for. -/
theorem not_asMeant_wide : ¬ AsMeant [(0, .push [7]), (0, .pop (2 ^ 32 + 1))] := by
  rintro ⟨s, hrun, -⟩
  have hreplies : (run .init [(0, .push [7]), (0, .pop (2 ^ 32 + 1))]).map Prod.fst
      = some (meantRun (fun _ => []) [(0, .push [7]), (0, .pop (2 ^ 32 + 1))]).1 := by
    rw [hrun, Option.map_some]
  revert hreplies
  decide

end SocketBuffer

end SkynetGame
