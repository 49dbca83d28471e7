import SkynetGame.Hashid
import Mathlib.Data.List.Perm.Subperm
import Mathlib.Tactic.NormNum

/-!
# The connection table of the gate is a finite map

The members of the chain of a bucket are the slots of the connections whose id falls into it
(`Linked`); no slot is in two chains. What takes a member out of one chain, its first one or another
one, leaves the others alone (`Unlinked`). The search of `hashid_insert` starts at a slot of its own,
and meets a free one before the sum of its index leaves the range of `int`, or none.
-/

namespace SkynetGame

open Function List Option

namespace Hashid

variable {hi hi' : Hashid} {id : ℤ}

section Init

theorem hashcapLoop_isSome (max : ℕ) : ∀ (fuel k : ℕ), k ≤ 30 → 30 - k < fuel →
    ((hashcapLoop max fuel (2 ^ k)).isSome ↔ max ≤ 2 ^ 30)
  | 0, _, _, h => by omega
  | fuel + 1, k, hk, hfuel => by
    rw [hashcapLoop]
    have hpow : (2 : ℕ) ^ k ≤ 2 ^ 30 := Nat.pow_le_pow_right Nat.two_pos hk
    by_cases hlt : 2 ^ k < max
    · rw [if_pos hlt, ← pow_succ]
      by_cases hmore : k = 30
      · subst hmore
        rw [if_neg (by norm_num)]
        exact iff_of_false (by rintro ⟨⟩) (by omega)
      · have hdouble : (2 : ℕ) ^ (k + 1) < 2 ^ 31 := Nat.pow_lt_pow_right (by norm_num) (by omega)
        rw [if_pos hdouble]
        exact hashcapLoop_isSome max fuel (k + 1) (by omega) (by omega)
    · rw [if_neg hlt]
      exact iff_of_true rfl (by omega)

theorem init_isSome (max : ℕ) : (init max).isSome ↔ max ≤ 2 ^ 30 := by
  rw [init, isSome_map]
  exact hashcapLoop_isSome max 32 4 (by norm_num) (by norm_num)

end Init

section Loops

theorem lookupLoop_eq : ∀ {l : List ℕ} {p : Option ℕ} {fuel : ℕ}, Chain hi.next p l →
    l.length ≤ fuel → lookupLoop hi id fuel p =
      some ((l.find? fun c => (hi.id c).id = id).elim (-1) fun c => (c : ℤ))
  | [], p, fuel, hc, _ => by
    obtain rfl : p = none := hc
    cases fuel <;> rfl
  | c :: l, p, 0, _, hle => absurd hle (Nat.not_succ_le_zero _)
  | c :: l, p, fuel + 1, hc, hle => by
    obtain ⟨rfl, hrest⟩ := hc
    rw [lookupLoop]
    by_cases hid : (hi.id c).id = id
    · rw [if_pos hid, find?_cons_of_pos (by simpa using hid)]
      rfl
    · rw [if_neg hid, find?_cons_of_neg (by simpa using hid)]
      exact lookupLoop_eq hrest (Nat.le_of_succ_le_succ hle)

theorem removeLoop_none : ∀ {l : List ℕ} {c fuel : ℕ}, Chain hi.next (hi.next c) l →
    l.length < fuel → (∀ d ∈ l, (hi.id d).id ≠ id) → removeLoop hi id fuel c = some (hi, -1)
  | _, _, 0, _, hlt, _ => absurd hlt (Nat.not_lt_zero _)
  | [], c, fuel + 1, hc, _, _ => by
    have hnext : hi.next c = none := hc
    rw [removeLoop, hnext]
  | d :: l, c, fuel + 1, hc, hlt, hno => by
    obtain ⟨hnext, hrest⟩ := hc
    rw [removeLoop, hnext]
    simp only []
    rw [if_neg (hno d mem_cons_self)]
    exact removeLoop_none hrest (Nat.lt_of_succ_lt_succ hlt)
      fun e he => hno e (mem_cons_of_mem d he)

theorem removeLoop_some {d : ℕ} {l : List ℕ} (hid : (hi.id d).id = id) :
    ∀ {before : List ℕ} {c fuel : ℕ}, Chain hi.next (hi.next c) (before ++ d :: l) →
    before.length < fuel → (∀ e ∈ before, (hi.id e).id ≠ id) →
      ∃ before' t, c :: before = before' ++ [t] ∧ removeLoop hi id fuel c =
        some ({ hi with
          id := update hi.id t ⟨(hi.id t).id, hi.next d⟩ }.clear d, (d : ℤ))
  | _, _, 0, _, hlt, _ => absurd hlt (Nat.not_lt_zero _)
  | [], c, fuel + 1, hc, _, _ => by
    obtain ⟨hnext, -⟩ := hc
    refine ⟨[], c, rfl, ?_⟩
    rw [removeLoop, hnext]
    simp only []
    rw [if_pos hid]
  | e :: before, c, fuel + 1, hc, hlt, hno => by
    obtain ⟨hnext, hrest⟩ := hc
    obtain ⟨before', t, heq, hloop⟩ := removeLoop_some hid hrest (Nat.lt_of_succ_lt_succ hlt)
      fun e' he' => hno e' (mem_cons_of_mem e he')
    refine ⟨c :: before', t, by rw [heq, cons_append], ?_⟩
    rw [removeLoop, hnext]
    simp only []
    rw [if_neg (hno e mem_cons_self)]
    exact hloop

theorem tmod_slot (hid : 0 ≤ id) (hcap : 0 < hi.cap) (i : ℕ) :
    0 ≤ ((i : ℤ) + id).tmod hi.cap ∧ (((i : ℤ) + id).tmod hi.cap).toNat < hi.cap := by
  have hpos : 0 ≤ ((i : ℤ) + id).tmod hi.cap := Int.tmod_nonneg _ (by omega)
  have hlt : ((i : ℤ) + id).tmod hi.cap < hi.cap :=
    Int.tmod_lt_of_pos _ (Int.natCast_pos.2 hcap)
  exact ⟨hpos, by omega⟩

theorem probe_some (hid : 0 ≤ id) (hcap : 0 < hi.cap) {c : ℕ} : ∀ {n i : ℕ},
    probe hi id n i = some c → c < hi.cap ∧ (hi.id c).id = -1
  | 0, _, h => by cases h
  | n + 1, i, h => by
    obtain ⟨hpos, hlt⟩ := tmod_slot hid hcap i
    unfold probe at h
    simp only [] at h
    split_ifs at h with _ _ hfree
    · rw [← some.inj h]
      exact ⟨hlt, hfree⟩
    · exact probe_some hid hcap h

theorem probe_isSome (hid : 0 ≤ id) (hcap : 0 < hi.cap) : ∀ (n i : ℕ),
    (probe hi id n i).isSome ↔ ∃ j, i ≤ j ∧ j < i + n ∧
      (j + id < 2 ^ 31 ∧ (hi.id ((j + id).tmod hi.cap).toNat).id = -1)
  | 0, i => by
    refine iff_of_false (by rintro ⟨⟩) ?_
    rintro ⟨j, hle, hlt, -⟩
    omega
  | n + 1, i => by
    obtain ⟨hpos, -⟩ := tmod_slot hid hcap i
    rw [probe]
    by_cases hint : (i : ℤ) + id < 2 ^ 31
    · rw [if_pos hint, if_neg (Int.not_lt.2 hpos)]
      by_cases hfree : (hi.id (((i : ℤ) + id).tmod hi.cap).toNat).id = -1
      · rw [if_pos hfree]
        exact iff_of_true rfl ⟨i, le_rfl, by omega, hint, hfree⟩
      · rw [if_neg hfree, probe_isSome hid hcap n (i + 1)]
        constructor
        · rintro ⟨j, hle, hlt, hj⟩
          exact ⟨j, by omega, by omega, hj⟩
        · rintro ⟨j, hle, hlt, hj⟩
          have hne : j ≠ i := by
            rintro rfl
            exact hfree hj.2
          exact ⟨j, by omega, by omega, hj⟩
    · rw [if_neg hint]
      refine iff_of_false (by rintro ⟨⟩) ?_
      rintro ⟨j, hle, -, hj, -⟩
      omega

theorem probe_meets (hid : 0 ≤ id) : (probe hi id hi.cap 0).isSome ↔ hi.Meets id := by
  rcases Nat.eq_zero_or_pos hi.cap with hz | hcap
  · rw [hz]
    refine iff_of_false (by rintro ⟨⟩) ?_
    rintro ⟨i, hlt, -⟩
    omega
  · rw [probe_isSome hid hcap]
    refine exists_congr fun j => ?_
    rw [Nat.zero_add]
    exact and_iff_right (Nat.zero_le j)

theorem meets_of_add_le (hid : 0 ≤ id) (hle : id + hi.cap ≤ 2 ^ 31) {c : ℕ} (hc : c < hi.cap)
    (hfree : (hi.id c).id = -1) : hi.Meets id := by
  have hpos : (0 : ℤ) < hi.cap := by omega
  have hmod := Int.emod_nonneg id hpos.ne'
  have hmod' := Int.emod_lt_of_pos id hpos
  -- from the first slot on to `c`, past the end of the array where it lies before
  have hindex : ∃ i : ℕ, i < hi.cap ∧ ((i + id) % hi.cap : ℤ) = c := by
    have hdiv := Int.emod_add_mul_ediv id hi.cap
    by_cases hcmp : id % hi.cap ≤ c
    · refine ⟨(c - id % hi.cap).toNat, by omega, ?_⟩
      rw [Int.toNat_of_nonneg (by omega)]
      rw [show (c : ℤ) - id % hi.cap + id = c + hi.cap * (id / hi.cap) by omega,
        Int.add_mul_emod_self_left, Int.emod_eq_of_lt (by omega) (by omega)]
    · refine ⟨(c + hi.cap - id % hi.cap).toNat, by omega, ?_⟩
      rw [Int.toNat_of_nonneg (by omega)]
      rw [show (c : ℤ) + hi.cap - id % hi.cap + id = c + hi.cap * (id / hi.cap + 1) by
          rw [Int.mul_add, Int.mul_one]
          omega,
        Int.add_mul_emod_self_left, Int.emod_eq_of_lt (by omega) (by omega)]
  obtain ⟨i, hi', heq⟩ := hindex
  refine ⟨i, hi', by omega, ?_⟩
  rw [Int.tmod_eq_emod_of_nonneg (by omega), heq, Int.toNat_natCast]
  exact hfree

end Loops

section Linked

/-- The chains of the buckets have the slots of the connections as members. -/
structure Linked (hi : Hashid) (slots : AList fun _ : ℤ => ℕ) (ls : ℕ → List ℕ) : Prop where
  chain : ∀ h, Chain hi.next (hi.hash h) (ls h)
  nodup : ∀ h, (ls h).Nodup
  mem : ∀ h c, c ∈ ls h ↔ ∃ id, slots.lookup id = some c ∧ hi.bucket id = h
  node : ∀ id c, slots.lookup id = some c → (hi.id c).id = id ∧ c < hi.cap ∧ 0 ≤ id
  free : ∀ c, (∀ id, slots.lookup id ≠ some c) → hi.id c = ⟨-1, none⟩
  count : hi.count = slots.keys.length

/-- The member `d` is taken out of the chain of the bucket `h`, where `l` are the others. -/
structure Unlinked (hi hi' : Hashid) (h d : ℕ) (members l : List ℕ) : Prop where
  hashmod : hi'.hashmod = hi.hashmod
  cap : hi'.cap = hi.cap
  count : hi'.count = hi.count - 1
  chain : Chain hi'.next (hi'.hash h) l
  hash : ∀ h', h' ≠ h → hi'.hash h' = hi.hash h'
  node : hi'.id d = ⟨-1, none⟩
  ids : ∀ c, c ≠ d → (hi'.id c).id = (hi.id c).id
  next : ∀ c, c ∉ members → hi'.next c = hi.next c

theorem next_update (hi : Hashid) (c : ℕ) (n : HashidNode) :
    next { hi with id := update hi.id c n } = update hi.next c n.next := by
  funext d
  show (update hi.id c n d).next = _
  by_cases hd : d = c
  · rw [hd, update_self, update_self]
  · rw [update_of_ne hd, update_of_ne hd]
    rfl

theorem next_clear (hi : Hashid) (c : ℕ) :
    (hi.clear c).next = update hi.next c none := next_update hi c ⟨-1, none⟩

theorem bucket_congr (hmod : hi'.hashmod = hi.hashmod) (id : ℤ) : hi'.bucket id = hi.bucket id := by
  rw [bucket, bucket, hmod]

theorem remove_none {l : List ℕ} (hc : Chain hi.next (hi.hash (hi.bucket id)) l)
    (hlen : l.length ≤ hi.cap) (hno : ∀ c ∈ l, (hi.id c).id ≠ id) :
    hi.remove id = some (hi, -1) := by
  rw [remove]
  cases l with
  | nil =>
    have hnil : hi.hash (hi.bucket id) = none := hc
    simp only [hnil]
  | cons c l =>
    obtain ⟨hhead, hrest⟩ := hc
    simp only [hhead]
    rw [if_neg (hno c mem_cons_self)]
    exact removeLoop_none hrest hlen fun d hd => hno d (mem_cons_of_mem c hd)

theorem remove_some {before l : List ℕ} {d : ℕ}
    (hc : Chain hi.next (hi.hash (hi.bucket id)) (before ++ d :: l))
    (hnd : (before ++ d :: l).Nodup) (hlen : (before ++ d :: l).length ≤ hi.cap)
    (hid : (hi.id d).id = id) (hno : ∀ c ∈ before, (hi.id c).id ≠ id) :
    ∃ hi', hi.remove id = some (hi', (d : ℤ)) ∧
      Unlinked hi hi' (hi.bucket id) d (before ++ d :: l) (before ++ l) := by
  have hd : d ∉ before ++ l := (nodup_middle.1 hnd).notMem
  rw [remove]
  cases before with
  | nil =>
    obtain ⟨hhead, hrest⟩ := hc
    simp only [hhead]
    rw [if_pos hid]
    refine ⟨_, rfl, rfl, rfl, rfl, ?_, fun h' hne => update_of_ne hne ..,
      update_self .., fun c hne => ?_, fun c hmem => ?_⟩
    · rw [next_clear]
      show Chain _ (update hi.hash (hi.bucket id) (hi.next d) (hi.bucket id)) l
      rw [update_self]
      refine hrest.frame fun c hcl => update_of_ne ?_ ..
      rintro rfl
      exact hd hcl
    · show (update hi.id d _ c).id = _
      rw [update_of_ne hne]
    · rw [next_clear]
      refine update_of_ne ?_ ..
      rintro rfl
      exact hmem mem_cons_self
  | cons c before =>
    obtain ⟨hhead, hrest⟩ := hc
    simp only [hhead]
    rw [if_neg (hno c mem_cons_self)]
    have hlt : before.length < hi.cap := by
      rw [length_append, length_cons] at hlen
      omega
    obtain ⟨before', t, heq, hloop⟩ := removeLoop_some hid hrest hlt
      fun e he => hno e (mem_cons_of_mem c he)
    have hchain : Chain hi.next (some c) (c :: before ++ d :: l) := ⟨rfl, hrest⟩
    have htd : t ≠ d := by
      rintro rfl
      refine hd (mem_append_left _ ?_)
      rw [heq]
      exact mem_append_right _ (mem_singleton_self t)
    have htmem : t ∈ c :: before := by
      rw [heq]
      exact mem_append_right _ (mem_singleton_self t)
    refine ⟨_, hloop, rfl, rfl, rfl, ?_, fun h' hne => rfl, update_self .., ?_, ?_⟩
    · rw [next_clear, next_update]
      show Chain _ (hi.hash (hi.bucket id)) _
      rw [hhead]
      rw [heq, append_assoc, singleton_append] at hchain hnd hd ⊢
      refine (hchain.unlink hnd).frame fun e he => update_of_ne ?_ ..
      rintro rfl
      exact hd he
    · intro e hne
      show (update (update hi.id t _) d _ e).id = _
      rw [update_of_ne hne]
      by_cases het : e = t
      · rw [het, update_self]
      · rw [update_of_ne het]
    · intro e hmem
      rw [next_clear, next_update]
      have hed : e ≠ d := by
        rintro rfl
        exact hmem (mem_append_right _ mem_cons_self)
      have het : e ≠ t := by
        rintro rfl
        exact hmem (mem_append_left _ htmem)
      rw [update_of_ne hed, update_of_ne het]

end Linked

section Map

variable {slots : AList fun _ : ℤ => ℕ} {ls : ℕ → List ℕ}

theorem Linked.inj (hl : Linked hi slots ls) {id id' : ℤ} {c : ℕ} (h : slots.lookup id = some c)
    (h' : slots.lookup id' = some c) : id = id' :=
  (hl.node id c h).1.symm.trans (hl.node id' c h').1

theorem Linked.not_mem (hl : Linked hi slots ls) {c : ℕ} {id : ℤ} (h : slots.lookup id = some c)
    {h' : ℕ} (hne : h' ≠ hi.bucket id) : c ∉ ls h' := by
  intro hmem
  obtain ⟨id', hid', hb⟩ := (hl.mem h' c).1 hmem
  rw [hl.inj hid' h] at hb
  exact hne hb.symm

theorem Linked.length_le (hl : Linked hi slots ls) (h : ℕ) : (ls h).length ≤ hi.cap := by
  have hsub : ls h ⊆ List.range hi.cap := by
    intro c hc
    obtain ⟨id, hid, -⟩ := (hl.mem h c).1 hc
    exact mem_range.2 (hl.node id c hid).2.1
  have hle := ((hl.nodup h).subperm hsub).length_le
  rwa [length_range] at hle

theorem Linked.ne_of_none (hl : Linked hi slots ls) (hnone : slots.lookup id = none) {h c : ℕ}
    (hc : c ∈ ls h) : (hi.id c).id ≠ id := by
  obtain ⟨id', hid', -⟩ := (hl.mem h c).1 hc
  rw [(hl.node id' c hid').1]
  rintro rfl
  rw [hnone] at hid'
  cases hid'

theorem Linked.lookup_eq (hl : Linked hi slots ls) (id : ℤ) :
    hi.lookup id = some ((slots.lookup id).elim (-1) fun c => (c : ℤ)) := by
  rw [lookup, lookupLoop_eq (hl.chain _) (hl.length_le _)]
  refine congrArg some ?_
  cases hs : slots.lookup id with
  | none =>
    rw [find?_eq_none.2 fun c hc => by simpa using hl.ne_of_none hs hc]
  | some c =>
    obtain ⟨d, hd⟩ : ∃ d, (ls (hi.bucket id)).find? (fun c => (hi.id c).id = id) = some d := by
      refine isSome_iff_exists.1 (find?_isSome.2 ⟨c, (hl.mem _ c).2 ⟨id, hs, rfl⟩, ?_⟩)
      simpa using (hl.node id c hs).1
    have hnode : (hi.id d).id = id := by simpa using find?_some hd
    obtain ⟨id', hid', -⟩ := (hl.mem _ d).1 (mem_of_find?_eq_some hd)
    rw [(hl.node id' d hid').1] at hnode
    rw [hnode, hs] at hid'
    rw [hd, some.inj hid']

theorem Linked.erase (hl : Linked hi slots ls) {d : ℕ} {l : List ℕ}
    (hs : slots.lookup id = some d) (hnd : l.Nodup)
    (hmem : ∀ c, c ∈ l ↔ c ∈ ls (hi.bucket id) ∧ c ≠ d)
    (hu : Unlinked hi hi' (hi.bucket id) d (ls (hi.bucket id)) l) :
    Linked hi' (slots.erase id) (update ls (hi.bucket id) l) := by
  have hlook : ∀ {id' c}, (slots.erase id).lookup id' = some c ↔
      slots.lookup id' = some c ∧ c ≠ d := by
    intro id' c
    by_cases hid : id' = id
    · rw [hid, AList.lookup_erase, hs]
      refine iff_of_false (by rintro ⟨⟩) ?_
      rintro ⟨hc, hne⟩
      exact hne (some.inj hc).symm
    · rw [AList.lookup_erase_ne hid]
      refine (and_iff_left_of_imp fun hc => ?_).symm
      rintro rfl
      exact hid (hl.inj hc hs)
  refine ⟨fun h => ?_, fun h => ?_, fun h c => ?_, fun id' c hc => ?_, fun c hno => ?_, ?_⟩
  · by_cases hh : h = hi.bucket id
    · rw [hh, update_self]
      exact hu.chain
    · rw [update_of_ne hh, hu.hash h hh]
      refine (hl.chain h).frame fun c hc => hu.next c ?_
      obtain ⟨id', hid', hb⟩ := (hl.mem h c).1 hc
      exact hl.not_mem hid' fun he => hh (hb.symm.trans he.symm)
  · by_cases hh : h = hi.bucket id
    · rw [hh, update_self]
      exact hnd
    · rw [update_of_ne hh]
      exact hl.nodup h
  · have hold : c ∈ update ls (hi.bucket id) l h ↔ c ∈ ls h ∧ c ≠ d := by
      by_cases hh : h = hi.bucket id
      · rw [hh, update_self]
        exact hmem c
      · rw [update_of_ne hh]
        refine (and_iff_left_of_imp fun hc => ?_).symm
        rintro rfl
        exact hl.not_mem hs hh hc
    rw [hold, hl.mem]
    constructor
    · rintro ⟨⟨id', hid', hb⟩, hne⟩
      exact ⟨id', hlook.2 ⟨hid', hne⟩, (bucket_congr hu.hashmod id').trans hb⟩
    · rintro ⟨id', hid', hb⟩
      rw [bucket_congr hu.hashmod] at hb
      exact ⟨⟨id', (hlook.1 hid').1, hb⟩, (hlook.1 hid').2⟩
  · obtain ⟨hold, hne⟩ := hlook.1 hc
    rw [hu.ids c hne, hu.cap]
    exact hl.node id' c hold
  · by_cases hcd : c = d
    · rw [hcd]
      exact hu.node
    · have hfree : hi.id c = ⟨-1, none⟩ :=
        hl.free c fun id' hid' => hno id' (hlook.2 ⟨hid', hcd⟩)
      have hnot : c ∉ ls (hi.bucket id) := by
        intro hc
        obtain ⟨id', hid', -⟩ := (hl.mem _ c).1 hc
        exact hno id' (hlook.2 ⟨hid', hcd⟩)
      have hids : (hi'.id c).id = -1 := by rw [hu.ids c hcd, hfree]
      have hnext : (hi'.id c).next = none := by
        have := hu.next c hnot
        rw [next, next, hfree] at this
        exact this
      rw [← hids, ← hnext]
  · have hkey : id ∈ slots.keys :=
      AList.mem_keys.1 (AList.lookup_isSome.1 (isSome_iff_exists.2 ⟨d, hs⟩))
    have hpos : 0 < slots.keys.length := length_pos_of_mem hkey
    rw [hu.count, hl.count, AList.keys_erase, length_erase_of_mem hkey]
    omega

theorem Linked.remove (hl : Linked hi slots ls) (id : ℤ) : ∃ hi' ls',
    hi.remove id = some (hi', (slots.lookup id).elim (-1) fun c => (c : ℤ)) ∧
      Linked hi' (slots.erase id) ls' ∧ hi'.cap = hi.cap := by
  cases hs : slots.lookup id with
  | none =>
    have herase : slots.erase id = slots := by
      refine AList.ext ?_
      show slots.entries.kerase id = slots.entries
      exact kerase_of_notMem_keys (AList.lookup_eq_none.1 hs)
    refine ⟨hi, ls, remove_none (hl.chain _) (hl.length_le _) fun c hc => hl.ne_of_none hs hc, ?_,
      rfl⟩
    rwa [herase]
  | some d =>
    obtain ⟨before, l, heq⟩ := append_of_mem ((hl.mem _ d).2 ⟨id, hs, rfl⟩)
    have hchain := hl.chain (hi.bucket id)
    have hnd := hl.nodup (hi.bucket id)
    have hlen := hl.length_le (hi.bucket id)
    rw [heq] at hchain hnd hlen
    obtain ⟨hd, hnd'⟩ := nodup_cons.1 (nodup_middle.1 hnd)
    obtain ⟨hi', hrem, hu⟩ := remove_some hchain hnd hlen (hl.node id d hs).1 fun c hc hid => by
      obtain ⟨id', hid', -⟩ := (hl.mem (hi.bucket id) c).1 (by rw [heq]; simp [hc])
      rw [(hl.node id' c hid').1] at hid
      rw [hid, hs] at hid'
      exact hd (mem_append_left _ (some.inj hid' ▸ hc))
    rw [← heq] at hu
    refine ⟨hi', _, hrem, hl.erase hs hnd' (fun c => ?_) hu, hu.cap⟩
    rw [heq]
    simp only [mem_append, mem_cons]
    constructor
    · intro hc
      refine ⟨by tauto, ?_⟩
      rintro rfl
      exact hd (mem_append.2 hc)
    · rintro ⟨hc, hne⟩
      tauto

theorem Linked.insert (hl : Linked hi slots ls) (hid : 0 ≤ id) (hs : slots.lookup id = none) {c : ℕ}
    (hc : hi.probe id hi.cap 0 = some c) : ∃ hi' ls', hi.insert id = some (hi', c) ∧
      Linked hi' (slots.insert id c) ls' ∧ hi'.cap = hi.cap := by
  have hcap : 0 < hi.cap := by
    rcases Nat.eq_zero_or_pos hi.cap with hz | hpos
    · rw [hz] at hc
      cases hc
    · exact hpos
  obtain ⟨hlt, hfree⟩ := probe_some hid hcap hc
  have hno : ∀ id', slots.lookup id' ≠ some c := by
    intro id' hid'
    obtain ⟨hnode, -, hpos⟩ := hl.node id' c hid'
    rw [hfree] at hnode
    omega
  have hnone : hi.next c = none := by rw [next, hl.free c hno]
  have hnot : ∀ h, c ∉ ls h := by
    intro h hmem
    obtain ⟨id', hid', -⟩ := (hl.mem h c).1 hmem
    exact hno id' hid'
  have hlook : ∀ {id' d}, (slots.insert id c).lookup id' = some d ↔
      id' = id ∧ d = c ∨ slots.lookup id' = some d := by
    intro id' d
    by_cases heq : id' = id
    · rw [heq, AList.lookup_insert, hs]
      simp only [some.injEq, true_and, reduceCtorEq, or_false]
      exact eq_comm
    · rw [AList.lookup_insert_ne heq]
      simp only [heq, false_and, false_or]
  refine ⟨{ hi with
    count := hi.count + 1
    id := update hi.id c ⟨id, hi.hash (hi.bucket id)⟩
    hash := update hi.hash (hi.bucket id) (some c) },
    update ls (hi.bucket id) (c :: ls (hi.bucket id)), ?_, ?_, rfl⟩
  · rw [Hashid.insert, hc, bind_some, if_pos hnone]
  · refine ⟨fun h => ?_, fun h => ?_, fun h d => ?_, fun id' d hd => ?_, fun d hd => ?_, ?_⟩
    · show Chain (next { hi with id := update hi.id c _ })
        (update hi.hash (hi.bucket id) (some c) h) _
      rw [next_update]
      by_cases hh : h = hi.bucket id
      · rw [hh, update_self, update_self]
        exact (hl.chain _).push (hnot _)
      · rw [update_of_ne hh, update_of_ne hh]
        refine (hl.chain h).frame fun d hd => update_of_ne ?_ ..
        rintro rfl
        exact hnot h hd
    · by_cases hh : h = hi.bucket id
      · rw [hh, update_self]
        exact nodup_cons.2 ⟨hnot _, hl.nodup _⟩
      · rw [update_of_ne hh]
        exact hl.nodup h
    · have hmem : d ∈ update ls (hi.bucket id) (c :: ls (hi.bucket id)) h ↔
          d = c ∧ hi.bucket id = h ∨ d ∈ ls h := by
        by_cases hh : h = hi.bucket id
        · rw [hh, update_self, mem_cons]
          simp only [and_true]
        · rw [update_of_ne hh]
          simp only [Ne.symm hh, and_false, false_or]
      rw [hmem, hl.mem]
      constructor
      · rintro (⟨rfl, hb⟩ | ⟨id', hid', hb⟩)
        · exact ⟨id, hlook.2 (.inl ⟨rfl, rfl⟩), hb⟩
        · exact ⟨id', hlook.2 (.inr hid'), hb⟩
      · rintro ⟨id', hid', hb⟩
        rcases hlook.1 hid' with ⟨rfl, rfl⟩ | hold
        · exact .inl ⟨rfl, hb⟩
        · exact .inr ⟨id', hold, hb⟩
    · show (update hi.id c _ d).id = id' ∧ _
      rcases hlook.1 hd with ⟨rfl, rfl⟩ | hold
      · rw [update_self]
        exact ⟨rfl, hlt, hid⟩
      · have hne : d ≠ c := by
          rintro rfl
          exact hno id' hold
        rw [update_of_ne hne]
        exact hl.node id' d hold
    · have hne : d ≠ c := by
        rintro rfl
        exact hd id (hlook.2 (.inl ⟨rfl, rfl⟩))
      show update hi.id c _ d = _
      rw [update_of_ne hne]
      exact hl.free d fun id' hold => hd id' (hlook.2 (.inr hold))
    · show hi.count + 1 = _
      rw [AList.keys_insert, length_cons,
        erase_of_not_mem (AList.lookup_eq_none.1 hs), hl.count]
      rfl

theorem Linked.exists_free (hl : Linked hi slots ls) (hfull : hi.full = false) :
    ∃ c, c < hi.cap ∧ (hi.id c).id = -1 := by
  by_contra hall
  have hlt : slots.keys.length < hi.cap ∨ hi.cap < slots.keys.length := by
    have hne : hi.count ≠ hi.cap := by simpa [full] using hfull
    rw [hl.count] at hne
    omega
  rcases hlt with hlt | hlt
  -- every slot is the one of some connection
  · have hsub : List.range hi.cap ⊆ slots.entries.map Sigma.snd := by
      intro c hc
      by_cases hex : ∃ id, slots.lookup id = some c
      · obtain ⟨id, hid⟩ := hex
        exact List.mem_map.2 ⟨⟨id, c⟩, AList.mem_lookup_iff.1 hid, rfl⟩
      · refine absurd ⟨c, mem_range.1 hc, ?_⟩ hall
        rw [hl.free c fun id hid => hex ⟨id, hid⟩]
    have hle := (nodup_range.subperm hsub).length_le
    rw [length_range, length_map] at hle
    rw [AList.keys, List.keys, length_map] at hlt
    omega
  -- no two connections have the same slot
  · have hsub : slots.entries.map Sigma.snd ⊆ List.range hi.cap := by
      intro c hc
      obtain ⟨⟨id, d⟩, hmem, rfl⟩ := List.mem_map.1 hc
      exact mem_range.2 (hl.node id d (AList.mem_lookup_iff.2 hmem)).2.1
    have hnd : (slots.entries.map Sigma.snd).Nodup := by
      refine Nodup.map_on ?_ (List.NodupKeys.nodup slots.nodupKeys)
      rintro ⟨id, c⟩ hid ⟨id', c'⟩ hid' rfl
      obtain rfl := hl.inj (AList.mem_lookup_iff.2 hid) (AList.mem_lookup_iff.2 hid')
      rfl
    have hle := (hnd.subperm hsub).length_le
    rw [length_range, length_map] at hle
    rw [AList.keys, List.keys, length_map] at hlt
    omega

end Map

section Runs

variable {max : ℕ} {t t' : Table}

/-- The table is the finite map of the connections to their slots. -/
structure Represents (max : ℕ) (hi : Hashid) (slots : AList fun _ : ℤ => ℕ) : Prop where
  lookup : ∀ id, hi.lookup id = some ((slots.lookup id).elim (-1) fun c => (c : ℤ))
  distinct : ∀ id id' c, slots.lookup id = some c → slots.lookup id' = some c → id = id'
  below : ∀ id c, slots.lookup id = some c → c < max
  count : hi.count = slots.keys.length
  full : hi.full = true ↔ slots.keys.length = max

/-- All that was done is defined: no accepted connection was left without a slot. -/
def Sound (max : ℕ) (t : Table) : Prop := ∃ hi, t.hi = some hi ∧ Represents max hi t.slots

def Kept (max : ℕ) (t : Table) : Prop :=
  ∃ hi ls, t.hi = some hi ∧ Linked hi t.slots ls ∧ hi.cap = max

theorem Kept.sound (hk : Kept max t) : Sound max t := by
  obtain ⟨hi, ls, hhi, hl, hcap⟩ := hk
  refine ⟨hi, hhi, hl.lookup_eq, fun id id' c h h' => hl.inj h h', fun id c h => ?_, hl.count, ?_⟩
  · rw [← hcap]
    exact (hl.node id c h).2.1
  · rw [Hashid.full, decide_eq_true_eq, hl.count, hcap]
    exact Int.natCast_inj

theorem not_sound_of_none (hnone : t.hi = none) : ¬ Sound max t := by
  rintro ⟨hi, hhi, -⟩
  rw [hnone] at hhi
  cases hhi

theorem kept_init (hmax : max ≤ 2 ^ 30) : Kept max (machine max).init := by
  obtain ⟨hi, hhi⟩ := isSome_iff_exists.1 ((init_isSome max).2 hmax)
  obtain ⟨hashcap, -, rfl⟩ := map_eq_some_iff.1 hhi
  refine ⟨_, fun _ => [], hhi, ⟨fun _ => rfl, fun _ => nodup_nil, fun h c => ?_,
    fun id c hc => ?_, fun _ _ => rfl, rfl⟩, rfl⟩
  · refine iff_of_false not_mem_nil ?_
    rintro ⟨id, hid, -⟩
    rw [show (machine max).init.slots = ∅ from rfl, AList.lookup_empty] at hid
    cases hid
  · rw [show (machine max).init.slots = ∅ from rfl, AList.lookup_empty] at hc
    cases hc

theorem step_accept {hi : Hashid} {id : ℤ} (hhi : t.hi = some hi)
    (hstep : step t (.accept id) = some t') : isId id ∧ t.slots.lookup id = none ∧
      t' = if hi.full then t else ⟨(hi.insert id).map (·.1),
        ((hi.insert id).map (·.2)).elim t.slots fun c => t.slots.insert id c⟩ := by
  rw [step, hhi] at hstep
  simp only [bind_some] at hstep
  split at hstep
  next hid =>
    refine ⟨hid.1, AList.lookup_eq_none.2 hid.2, ?_⟩
    split
    next hfull =>
      rw [if_pos hfull] at hstep
      exact (some.inj hstep).symm
    next hfull =>
      rw [if_neg hfull] at hstep
      exact (some.inj hstep).symm
  next => cases hstep

theorem not_fits {l : Label} (hk : Kept max t) (hstep : step t l = some t') (hfits : ¬ Fits t l) :
    t'.hi = none := by
  obtain ⟨hi, ls, hhi, hl, -⟩ := hk
  cases l with
  | accept id =>
    obtain ⟨hid, hs, rfl⟩ := step_accept hhi hstep
    have hex : hi.full = false ∧ ¬ hi.Meets id := by
      by_contra hall
      refine hfits fun hi' hmem hfull => ?_
      obtain rfl : hi = hi' := some.inj (hhi.symm.trans hmem)
      by_contra hmeets
      exact hall ⟨hfull, hmeets⟩
    have hprobe : hi.probe id hi.cap 0 = none :=
      not_isSome_iff_eq_none.1 fun h => hex.2 ((probe_meets hid.1).1 h)
    rw [hex.1, Hashid.insert, hprobe]
    rfl
  | close id => exact absurd trivial hfits
  | lookup id => exact absurd trivial hfits

theorem Kept.step {l : Label} (hk : Kept max t) (hfits : Fits t l) (hstep : step t l = some t') :
    Kept max t' := by
  obtain ⟨hi, ls, hhi, hl, hcap⟩ := hk
  cases l with
  | accept id =>
    obtain ⟨hid, hs, rfl⟩ := step_accept hhi hstep
    cases hfull : hi.full with
    | true => exact ⟨hi, ls, hhi, hl, hcap⟩
    | false =>
      obtain ⟨c, hc⟩ := isSome_iff_exists.1 ((probe_meets hid.1).2 (hfits hi hhi hfull))
      obtain ⟨hi', ls', hins, hl', hcap'⟩ := hl.insert hid.1 hs hc
      rw [hins]
      exact ⟨hi', ls', rfl, hl', hcap'.trans hcap⟩
  | close id =>
    obtain ⟨hi', ls', hrem, hl', hcap'⟩ := hl.remove id
    rw [Hashid.step, hhi] at hstep
    simp only [bind_some, hrem] at hstep
    rw [← some.inj hstep]
    exact ⟨hi', ls', rfl, hl', hcap'.trans hcap⟩
  | lookup id =>
    rw [Hashid.step, hhi] at hstep
    simp only [bind_some, hl.lookup_eq id] at hstep
    rw [← some.inj hstep]
    exact ⟨hi, ls, rfl, hl, hcap⟩

theorem kept_run (hmax : max ≤ 2 ^ 30) (hr : (machine max).Reach Fits t) : Kept max t :=
  hr.invariant (I := Kept max) (kept_init hmax) fun _ _ _ hk hfits hstep => hk.step hfits hstep

/-- The table of a gate is a finite map with an accepted connection in a slot of its own unless the
table is full, if and only if the capacity could be found and every search met a free slot in time;
one for an id that is not among the last ones does. -/
theorem represents_iff_of_reach (hr : (machine max).Reach Fits t) :
    (Sound max t ↔ max ≤ 2 ^ 30) ∧
    (∀ l t', step t l = some t' → (Sound max t' ↔ Fits t l)) ∧
    ∀ id, isId id → id + max ≤ 2 ^ 31 → Fits t (.accept id) := by
  by_cases hmax : max ≤ 2 ^ 30
  · have hk := kept_run hmax hr
    refine ⟨iff_of_true hk.sound hmax, fun l t' hstep => ⟨fun hs => ?_, fun hfits =>
      (hk.step hfits hstep).sound⟩, fun id hid hle hi hmem hfull => ?_⟩
    · by_contra hfits
      exact not_sound_of_none (not_fits hk hstep hfits) hs
    · obtain ⟨hi', ls, hhi, hl, hcap⟩ := hk
      obtain rfl : hi' = hi := Option.some.inj (hhi.symm.trans hmem)
      obtain ⟨c, hc, hfree⟩ := hl.exists_free hfull
      exact meets_of_add_le hid.1 (hcap ▸ hle) hc hfree
  -- a capacity that does not fit an int is never found
  · have hnone : t.hi = none := by
      refine hr.invariant (I := fun t => t.hi = none) ?_ fun t l t' hn _ hstep => ?_
      · exact Option.not_isSome_iff_eq_none.1 fun h => hmax ((init_isSome max).1 h)
      · have hstep : t.hi.bind _ = some t' := hstep
        rw [hn] at hstep
        cases hstep
    refine ⟨iff_of_false (not_sound_of_none hnone) hmax, fun l t' hstep => ?_,
      fun id _ _ hi hmem => ?_⟩
    · rw [Hashid.step, hnone] at hstep
      cases hstep
    · rw [Option.mem_def, hnone] at hmem
      cases hmem

/-- Three connections whose ids share a bucket and whose first slots collide, of which the one in
the middle of the chain is closed. -/
theorem represents_collision : ∃ t, (machine 4).Reach Fits t ∧ Sound 4 t ∧
    t.slots.lookup 5 = some 1 ∧ t.slots.lookup 21 = none ∧ t.slots.lookup 37 = some 3 := by
  have hl : ((machine 4).run Fits (machine 4).init
      [.accept 5, .accept 21, .accept 37, .close 21, .lookup 37]).map (fun t =>
        (t.slots.lookup 5, t.slots.lookup 21, t.slots.lookup 37)) =
      some (some 1, none, some 3) := by
    decide
  obtain ⟨t, hr, he⟩ := Machine.exists_reach hl
  obtain ⟨h₁, he⟩ := Prod.mk.inj he
  obtain ⟨h₂, h₃⟩ := Prod.mk.inj he
  exact ⟨t, hr, (represents_iff_of_reach hr).1.2 (by norm_num), h₁, h₂, h₃⟩

/-- Two of the last ids with the same first slot, in a table for three connections. -/
theorem not_represents_last : ∃ t, (machine 3).Reachable t ∧ t.slots.keys.length < 3 ∧
    ∃ t', step t (.accept 2147483647) = some t' ∧ ¬ Sound 3 t' := by
  have hl : ((machine 3).run (fun _ _ => True) (machine 3).init [.accept 2147483644]).bind
      (fun t => (step t (.accept 2147483647)).map fun t' => (t.slots.keys.length, t'.hi.isSome)) =
        some (1, false) := by
    decide
  obtain ⟨t, hs, he⟩ := Option.bind_eq_some_iff.1 hl
  obtain ⟨t', hstep, he⟩ := Option.map_eq_some_iff.1 he
  obtain ⟨hlen, hnone⟩ := Prod.mk.inj he
  refine ⟨t, Machine.reach_of_run hs, hlen ▸ (by norm_num), t', hstep, not_sound_of_none ?_⟩
  exact Option.isSome_eq_false_iff.1 hnone |> Option.isNone_iff_eq_none.1

end Runs

end Hashid

end SkynetGame
