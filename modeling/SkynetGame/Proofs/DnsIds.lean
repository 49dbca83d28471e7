import SkynetGame.DnsService

/-!
# The ids of queries

The counter only grows, so ids are not used again, and a request is the only one that was ever put
into the pool under its id. While fewer ids have been taken than 16 bits hold, each query gets one,
and it ends with what was meant for it.
-/

namespace SkynetGame

open Function Option

namespace Dns

section Property

def Takes (s : State) : Event → Prop
  | .resolve name ipv6 => verify_domain_name (Bytes.lower name) = true ∧
      lookup_cache s (Bytes.lower name) (qtypeOf ipv6) false = none
  | _ => False

/-- An id is only taken while there is one of 16 bits. -/
def Within (s : State) (e : Event) : Prop := Takes s e → s.next_tid < 0x10000

/-- The request is as it was, and so is what the pool has under its id. -/
def Untouched (s s' : State) (i : ℕ) (r : Request) : Prop :=
  s'.requests[i]? = some r ∧ s'.request_pool r.tid = s.request_pool r.tid

/-- Every query had an id of 16 bits, those that wait have different ones, an answer or a timer leaves
those alone that it is not meant for, and each is resumed once: one that waits is marked, or its
timer will find it. -/
structure Separate (s : State) : Prop where
  packed : ∀ e ∈ s.ended, e.2.2 ≠ .unsignedOverflow
  fits : ∀ r ∈ s.requests, r.tid < 0x10000
  distinct : ∀ {i j : ℕ} {r r' : Request}, s.requests[i]? = some r → s.requests[j]? = some r' →
    r.asleep = true → r'.asleep = true → r.tid = r'.tid → i = j
  answer_own : ∀ (p : Packet) {i : ℕ} {r : Request}, s.requests[i]? = some r → r.asleep = true →
    r.tid ≠ p.tid → Untouched s (answer s p) i r
  timeout_own : ∀ {k : ℕ} {s' : State}, step s (.timeout k) = some s' → ∀ {i : ℕ} {r : Request},
    s.requests[i]? = some r → r.asleep = true → i ≠ k → Untouched s s' i r
  once : ∀ r ∈ s.requests, r.resumed = if r.asleep then 0 else 1
  waiting : ∀ {i : ℕ} {r : Request}, s.requests[i]? = some r → r.asleep = true →
    r.woken = true ∨ r.timer = true ∧ s.request_pool r.tid = some i

end Property

section Invariant

structure RequestInv (s : State) (i : ℕ) (r : Request) : Prop where
  taken : r.tid < s.next_tid
  once : r.resumed = if r.asleep then 0 else 1
  woken : r.woken = true → r.asleep = true
  waiting : r.asleep = true → r.woken = true ∨ r.timer = true ∧ s.request_pool r.tid = some i

structure Inv (s : State) : Prop where
  request : ∀ {i : ℕ} {r : Request}, s.requests[i]? = some r → RequestInv s i r
  distinct : ∀ {i j : ℕ} {r r' : Request}, s.requests[i]? = some r → s.requests[j]? = some r' →
    r.tid = r'.tid → i = j
  pool : ∀ {t i : ℕ}, s.request_pool t = some i → ∃ r, s.requests[i]? = some r ∧ r.tid = t
  next : s.next_tid ≤ 0x10000
  packed : ∀ e ∈ s.ended, e.2.2 ≠ .unsignedOverflow

variable {s s' : State}

theorem inv_init : Inv State.init where
  request h := by cases h
  distinct h := by cases h
  pool h := by cases h
  next := by decide
  packed _ h := by cases h

theorem Inv.finish (h : Inv s) (name : Bytes) (qtype : QType) {o : Outcome}
    (ho : o ≠ .unsignedOverflow) : Inv (s.finish name qtype o) where
  request hr := ⟨(h.request hr).taken, (h.request hr).once, (h.request hr).woken,
    (h.request hr).waiting⟩
  distinct := h.distinct
  pool := h.pool
  next := h.next
  packed := by
    simp only [State.finish, List.forall_mem_append, List.forall_mem_singleton]
    exact ⟨h.packed, ho⟩

theorem Inv.take (h : Inv s) (hlt : s.next_tid < 0x10000) :
    Inv { s with next_tid := s.next_tid + 1 } where
  request hr := ⟨(h.request hr).taken.trans (Nat.lt_succ_self _), (h.request hr).once,
    (h.request hr).woken, (h.request hr).waiting⟩
  distinct := h.distinct
  pool := h.pool
  next := hlt
  packed := h.packed

theorem Inv.suspend (h : Inv s) {tid : ℕ} (hold : ∀ r ∈ s.requests, r.tid < tid)
    (hlt : tid < s.next_tid) (name : Bytes) (qtype : QType) :
    Inv (suspend s tid name qtype) := by
  have hcases : ∀ {i : ℕ} {r : Request}, (Dns.suspend s tid name qtype).requests[i]? = some r →
      s.requests[i]? = some r ∨ i = s.requests.length ∧
        r = ⟨name, tid, qtype, none, true, false, true, 0⟩ := by
    intro i r hr
    simp only [Dns.suspend, List.getElem?_append, List.getElem?_singleton] at hr
    split_ifs at hr with hi h0
    · exact .inl hr
    · cases hr
      exact .inr ⟨by omega, rfl⟩
  have hne : ∀ {i : ℕ} {r : Request}, s.requests[i]? = some r → r.tid ≠ tid := fun hr =>
    (hold _ (List.mem_of_getElem? hr)).ne
  refine ⟨?_, ?_, ?_, h.next, h.packed⟩
  · intro i r hr
    rcases hcases hr with hr | ⟨rfl, rfl⟩
    · obtain ⟨htaken, honce, hwoken, hwaiting⟩ := h.request hr
      refine ⟨htaken, honce, hwoken, ?_⟩
      simp only [Dns.suspend, update_of_ne (hne hr)]
      exact hwaiting
    · exact ⟨hlt, rfl, by simp, fun _ => .inr ⟨rfl, update_self ..⟩⟩
  · intro i j r r' hr hr' heq
    rcases hcases hr with hr | ⟨rfl, rfl⟩ <;> rcases hcases hr' with hr' | ⟨rfl, rfl⟩
    · exact h.distinct hr hr' heq
    · exact absurd heq (hne hr)
    · exact absurd heq.symm (hne hr')
    · rfl
  · intro t i ht
    rcases eq_or_ne t tid with rfl | hneq
    · simp only [Dns.suspend, update_self, some.injEq] at ht
      subst ht
      exact ⟨_, List.getElem?_concat_length, rfl⟩
    · simp only [Dns.suspend, update_of_ne hneq] at ht
      obtain ⟨r, hr, htid⟩ := h.pool ht
      refine ⟨r, ?_, htid⟩
      simp only [Dns.suspend]
      rw [List.getElem?_append_left (List.getElem?_eq_some_iff.1 hr).1]
      exact hr

theorem Inv.update (h : Inv s) {f : ℕ → Request → Request}
    (hreq : ∀ i, s'.requests[i]? = s.requests[i]?.map (f i)) (htid : ∀ i r, (f i r).tid = r.tid)
    (hpool : ∀ {t i : ℕ}, s'.request_pool t = some i → s.request_pool t = some i)
    (hnext : s'.next_tid = s.next_tid) (hended : ∀ e ∈ s'.ended, e.2.2 ≠ .unsignedOverflow)
    (hinv : ∀ {i : ℕ} {r : Request}, s.requests[i]? = some r → RequestInv s' i (f i r)) :
    Inv s' := by
  have hcases : ∀ {i : ℕ} {r : Request}, s'.requests[i]? = some r →
      ∃ r', s.requests[i]? = some r' ∧ f i r' = r := by
    intro i r hr
    rw [hreq, map_eq_some_iff] at hr
    exact hr
  refine ⟨?_, ?_, ?_, hnext ▸ h.next, hended⟩
  · intro i r hr
    obtain ⟨r', hr', rfl⟩ := hcases hr
    exact hinv hr'
  · intro i j r₁ r₂ h₁ h₂ heq
    obtain ⟨r₁', hr₁, rfl⟩ := hcases h₁
    obtain ⟨r₂', hr₂, rfl⟩ := hcases h₂
    rw [htid, htid] at heq
    exact h.distinct hr₁ hr₂ heq
  · intro t i ht
    obtain ⟨r, hr, rfl⟩ := h.pool (hpool ht)
    exact ⟨f i r, by rw [hreq, hr, map_some], htid i r⟩

end Invariant

section Steps

variable {s s' : State}

theorem wake_spec (r : Request) : r.wake.tid = r.tid ∧ r.wake.asleep = r.asleep ∧
    r.wake.resumed = r.resumed ∧ r.wake.timer = r.timer ∧
    (r.asleep = true → r.wake.woken = true) ∧ (r.asleep = false → r.wake = r) := by
  unfold Request.wake
  split_ifs with h <;> simp [h]

theorem takeAnswers_spec (s : State) (r : Request) :
    ∃ as, takeAnswers s r = { r with answers := as } := by
  unfold takeAnswers
  split
  · exact ⟨_, rfl⟩
  · exact ⟨r.answers, rfl⟩

theorem keep_spec (s : State) (name : Bytes) (a : Addresses) (qtype : QType) :
    (s.keep name a qtype).requests = s.requests ∧
      (s.keep name a qtype).request_pool = s.request_pool ∧
      (s.keep name a qtype).next_tid = s.next_tid ∧ (s.keep name a qtype).ended = s.ended := by
  unfold State.keep
  split_ifs
  · exact ⟨rfl, rfl, rfl, rfl⟩
  · exact ⟨rfl, rfl, rfl, rfl⟩

theorem store_spec (s : State) (p : Packet) : (s.store p).requests = s.requests ∧
    (s.store p).request_pool = s.request_pool ∧ (s.store p).next_tid = s.next_tid ∧
    (s.store p).ended = s.ended := by
  obtain ⟨h₁, h₂, h₃, h₄⟩ := keep_spec s p.question.name p.addresses .A
  obtain ⟨k₁, k₂, k₃, k₄⟩ :=
    keep_spec (s.keep p.question.name p.addresses .A) p.question.name p.addresses .AAAA
  exact ⟨k₁.trans h₁, k₂.trans h₂, k₃.trans h₃, k₄.trans h₄⟩

/-- What a packet does to a request: only the one that the pool has under its id is woken. -/
def answered (s : State) (p : Packet) (i : ℕ) (r : Request) : Request :=
  if s.request_pool p.tid = some i then (takeAnswers (s.store p) r).wake else r

theorem answer_spec (s : State) (p : Packet) :
    (∀ i, (answer s p).requests[i]? = s.requests[i]?.map (answered s p i)) ∧
      (answer s p).request_pool = s.request_pool ∧ (answer s p).next_tid = s.next_tid ∧
      (answer s p).ended = s.ended := by
  obtain ⟨h₁, h₂, h₃, h₄⟩ := store_spec s p
  rcases hp : s.request_pool p.tid with _ | i
  · have hanswer : answer s p = s.store p := by
      simp only [answer, h₂, hp]
    have hnone : ∀ j, answered s p j = id := by
      intro j
      funext r
      simp [answered, hp]
    rw [hanswer]
    exact ⟨fun j => by rw [h₁, hnone, Option.map_id_fun, id], h₂, h₃, h₄⟩
  · have hanswer : answer s p = wakeup { s.store p with
        requests := s.requests.modify i (takeAnswers (s.store p)) } i := by
      simp only [answer, h₂, hp, h₁]
    rw [hanswer]
    refine ⟨fun j => ?_, h₂, h₃, h₄⟩
    simp only [wakeup, List.getElem?_modify]
    rcases s.requests[j]? with _ | r
    · rfl
    · by_cases hij : i = j <;> simp [answered, hp, hij]

/-- What the timer of a request does to the requests: it wakes this one if the pool has it. -/
def timedOut (s : State) (k i : ℕ) (r : Request) : Request :=
  if i = k then
    if s.request_pool r.tid = none then { r with timer := false }
    else { r with timer := false }.wake
  else r

theorem timedOut_of_ne {k i : ℕ} (h : i ≠ k) : timedOut s k i = id := by
  funext r
  rw [timedOut, if_neg h, id]

theorem timeout_spec (h : Inv s) {k : ℕ} {r : Request} (hr : s.requests[k]? = some r)
    (hs' : s' = timeout { s with requests := s.requests.set k { r with timer := false } } r) :
    (∀ i, s'.requests[i]? = s.requests[i]?.map (timedOut s k i)) ∧
      s'.request_pool = Function.update s.request_pool r.tid none ∧ s'.next_tid = s.next_tid ∧
      s'.ended = s.ended := by
  have hlt := (List.getElem?_eq_some_iff.1 hr).1
  rcases hp : s.request_pool r.tid with _ | j
  · have htimeout : s' = { s with requests := s.requests.set k { r with timer := false } } := by
      rw [hs', timeout]
      simp only [hp]
    subst htimeout
    refine ⟨fun i => ?_, ?_, rfl, rfl⟩
    · rcases eq_or_ne i k with rfl | hne
      · rw [List.getElem?_set_self hlt, hr, map_some, timedOut, if_pos rfl, if_pos hp]
      · rw [List.getElem?_set_ne hne.symm, timedOut_of_ne hne, Option.map_id_fun, id]
    · rw [← hp, update_eq_self]
  · -- the pool has no other request under this id
    obtain rfl : j = k := by
      obtain ⟨r', hr', htid⟩ := h.pool hp
      exact h.distinct hr' hr htid
    have htimeout : s' = wakeup { s with
        requests := s.requests.set j { r with timer := false }
        request_pool := Function.update s.request_pool r.tid none } j := by
      rw [hs', timeout]
      simp only [hp]
    subst htimeout
    refine ⟨fun i => ?_, rfl, rfl, rfl⟩
    simp only [wakeup, List.getElem?_modify]
    rcases eq_or_ne i j with rfl | hne
    · rw [List.getElem?_set_self hlt, hr, map_some, timedOut, if_pos rfl, if_neg (by simp [hp])]
      simp
    · rw [List.getElem?_set_ne hne.symm, timedOut_of_ne hne, Option.map_id_fun]
      simp [hne.symm]

def Request.resume (r : Request) : Request :=
  { r with woken := false, asleep := false, resumed := r.resumed + 1 }

theorem resume_spec {k : ℕ} {r : Request} (hr : s.requests[k]? = some r)
    (hs' : s' = resume { s with requests := s.requests.set k r.resume } r) :
    (∀ i, s'.requests[i]? = s.requests[i]?.map fun x => if i = k then x.resume else x) ∧
      s'.request_pool = Function.update s.request_pool r.tid none ∧ s'.next_tid = s.next_tid ∧
      ∃ o ≠ Outcome.unsignedOverflow, s'.ended = s.ended ++ [(r.name, r.qtype, o)] := by
  have hlt := (List.getElem?_eq_some_iff.1 hr).1
  have hreq : ∀ i, (s.requests.set k r.resume)[i]? =
      s.requests[i]?.map fun x => if i = k then x.resume else x := by
    intro i
    rcases eq_or_ne i k with rfl | hne
    · rw [List.getElem?_set_self hlt, hr, map_some, if_pos rfl]
    · rw [List.getElem?_set_ne hne.symm]
      simp [hne]
  subst hs'
  unfold Dns.resume
  rcases r.answers with _ | as
  · dsimp only
    rcases hl : lookup_cache _ r.name r.qtype true with _ | as
    · exact ⟨hreq, rfl, rfl, _, by simp, rfl⟩
    · exact ⟨hreq, rfl, rfl, _, by simp, rfl⟩
  · exact ⟨hreq, rfl, rfl, _, by simp, rfl⟩

theorem Inv.resolve (h : Inv s) (name : Bytes) (ipv6 : Bool) (hok : Within s (.resolve name ipv6)) :
    Inv (resolve s name ipv6) := by
  unfold Dns.resolve
  by_cases hverify : verify_domain_name (Bytes.lower name) = true
  · rcases hcache : lookup_cache s (Bytes.lower name) (qtypeOf ipv6) false with _ | as
    · have hlt := hok ⟨hverify, hcache⟩
      have hpack : ∃ b, pack_header s.next_tid = some b := by
        simp [pack_header, packUint16, hlt]
      obtain ⟨b, hb⟩ := hpack
      simp only [hverify, hcache, hb, Bool.not_true, Bool.false_eq_true, if_false]
      split_ifs
      · refine Inv.suspend (s := { s with next_tid := s.next_tid + 1, sent := _ }) ?_ ?_ ?_ _ _
        · obtain ⟨hrequest, hdistinct, hpool, hnext, hpacked⟩ := h.take hlt
          exact ⟨fun hr => ⟨(hrequest hr).taken, (hrequest hr).once, (hrequest hr).woken,
            (hrequest hr).waiting⟩, hdistinct, hpool, hnext, hpacked⟩
        · intro r hr
          obtain ⟨i, hi⟩ := List.mem_iff_getElem?.1 hr
          exact (h.request hi).taken
        · exact Nat.lt_succ_self _
      · exact (h.take hlt).finish _ _ (by simp)
    · simp only [hverify, hcache, Bool.not_true, Bool.false_eq_true, if_false]
      exact h.finish _ _ (by simp)
  · simp only [hverify, Bool.not_false, if_true]
    exact h.finish _ _ (by simp)

theorem Inv.answer (h : Inv s) (p : Packet) : Inv (answer s p) := by
  obtain ⟨hreq, hpool, hnext, hended⟩ := answer_spec s p
  refine h.update hreq ?_ (fun ht => by rwa [hpool] at ht) hnext (by rw [hended]; exact h.packed) ?_
  · intro i r
    unfold answered
    split_ifs
    · obtain ⟨as, has⟩ := takeAnswers_spec (s.store p) r
      rw [has, (wake_spec _).1]
    · rfl
  · intro i r hr
    obtain ⟨htaken, honce, hwoken, hwaiting⟩ := h.request hr
    unfold answered
    split_ifs
    · obtain ⟨as, has⟩ := takeAnswers_spec (s.store p) r
      obtain ⟨h₁, h₂, h₃, h₄, h₅, h₆⟩ := wake_spec { r with answers := as }
      rw [has]
      refine ⟨by rwa [h₁, hnext], by rwa [h₂, h₃], ?_, fun hasleep => .inl (h₅ (h₂ ▸ hasleep))⟩
      rw [h₂]
      intro hw
      by_contra hsleep
      rw [h₆ (by simpa using hsleep)] at hw
      exact hsleep (hwoken hw)
    · exact ⟨by rwa [hnext], honce, hwoken, by rwa [hpool]⟩

theorem Inv.pool_of_ne (h : Inv s) {i k : ℕ} {r r' : Request} (hr : s.requests[i]? = some r)
    (hr' : s.requests[k]? = some r') (hne : i ≠ k) :
    Function.update s.request_pool r'.tid none r.tid = s.request_pool r.tid :=
  update_of_ne (fun heq => hne (h.distinct hr hr' heq)) ..

theorem pool_of_update {t t' i : ℕ}
    (h : Function.update s.request_pool t none t' = some i) : s.request_pool t' = some i := by
  rcases eq_or_ne t' t with rfl | hne
  · rw [update_self] at h
    cases h
  · rwa [update_of_ne hne] at h

theorem Inv.timeout (h : Inv s) {k : ℕ} {r : Request} (hr : s.requests[k]? = some r)
    (hs' : s' = timeout { s with requests := s.requests.set k { r with timer := false } } r) :
    Inv s' := by
  obtain ⟨hreq, hpool, hnext, hended⟩ := timeout_spec h hr hs'
  refine h.update hreq ?_ (fun ht => pool_of_update (hpool ▸ ht)) hnext
    (by rw [hended]; exact h.packed) ?_
  · intro i r'
    unfold timedOut
    split_ifs
    · rfl
    · exact (wake_spec _).1
    · rfl
  · intro i r' hr'
    obtain ⟨htaken, honce, hwoken, hwaiting⟩ := h.request hr'
    unfold timedOut
    split_ifs with hi hnone
    · -- its entry is gone, so it has been marked
      refine ⟨hnext ▸ htaken, honce, hwoken, fun hasleep => .inl ?_⟩
      rcases hwaiting hasleep with hw | ⟨-, hp⟩
      · exact hw
      · rw [hnone] at hp
        cases hp
    · obtain ⟨h₁, h₂, h₃, h₄, h₅, h₆⟩ := wake_spec { r' with timer := false }
      refine ⟨by rwa [h₁, hnext], by rwa [h₂, h₃], ?_, fun hasleep => .inl (h₅ (h₂ ▸ hasleep))⟩
      rw [h₂]
      intro hw
      by_contra hsleep
      rw [h₆ (by simpa using hsleep)] at hw
      exact hsleep (hwoken hw)
    · refine ⟨hnext ▸ htaken, honce, hwoken, ?_⟩
      rwa [hpool, h.pool_of_ne hr' hr hi]

theorem Inv.resume (h : Inv s) {k : ℕ} {r : Request} (hr : s.requests[k]? = some r)
    (hw : r.woken = true) (hs' : s' = resume { s with requests := s.requests.set k r.resume } r) :
    Inv s' := by
  obtain ⟨hreq, hpool, hnext, o, ho, hended⟩ := resume_spec hr hs'
  refine h.update (f := fun i x => if i = k then x.resume else x) hreq ?_
    (fun ht => pool_of_update (hpool ▸ ht)) hnext ?_ ?_
  · intro i r'
    split_ifs <;> rfl
  · rw [hended]
    simp only [List.forall_mem_append, List.forall_mem_singleton]
    exact ⟨h.packed, ho⟩
  · intro i r' hr'
    obtain ⟨htaken, honce, hwoken, hwaiting⟩ := h.request hr'
    split_ifs with hi
    · subst hi
      obtain rfl : r' = r := by rwa [hr, some.injEq, eq_comm] at hr'
      refine ⟨by rw [hnext]; exact htaken, ?_, by simp [Request.resume], by simp [Request.resume]⟩
      simp [Request.resume, honce, hwoken hw]
    · refine ⟨by rwa [hnext], honce, hwoken, ?_⟩
      rwa [hpool, h.pool_of_ne hr' hr hi]

theorem Inv.step (h : Inv s) {e : Event} (hok : Within s e) (hstep : step s e = some s') :
    Inv s' := by
  cases e with
  | server =>
    cases hstep
    exact ⟨fun hr => ⟨(h.request hr).taken, (h.request hr).once, (h.request hr).woken,
      (h.request hr).waiting⟩, h.distinct, h.pool, h.next, h.packed⟩
  | resolve name ipv6 =>
    cases hstep
    exact h.resolve name ipv6 hok
  | recv content =>
    simp only [Dns.step, map_eq_some_iff] at hstep
    obtain ⟨r, -, rfl⟩ := hstep
    rcases r with _ | _ | p
    · exact h
    · exact h
    · exact h.answer p
  | timeout k =>
    simp only [Dns.step] at hstep
    rcases hr : s.requests[k]? with _ | r
    · rw [hr] at hstep
      cases hstep
    · rw [hr] at hstep
      simp only [ite_none_right_eq_some, some.injEq] at hstep
      exact h.timeout hr hstep.2.symm
  | resume k =>
    simp only [Dns.step] at hstep
    rcases hr : s.requests[k]? with _ | r
    · rw [hr] at hstep
      cases hstep
    · rw [hr] at hstep
      simp only [ite_none_right_eq_some, some.injEq] at hstep
      exact h.resume hr hstep.1 hstep.2.symm
  | tick =>
    cases hstep
    exact ⟨fun hr => ⟨(h.request hr).taken, (h.request hr).once, (h.request hr).woken,
      (h.request hr).waiting⟩, h.distinct, h.pool, h.next, h.packed⟩
  | collect qtype name =>
    cases hstep
    exact ⟨fun hr => ⟨(h.request hr).taken, (h.request hr).once, (h.request hr).woken,
      (h.request hr).waiting⟩, h.distinct, h.pool, h.next, h.packed⟩

theorem Inv.separate (h : Inv s) : Separate s where
  packed := h.packed
  fits r hr := by
    obtain ⟨i, hi⟩ := List.mem_iff_getElem?.1 hr
    exact (h.request hi).taken.trans_le h.next
  distinct hr hr' _ _ heq := h.distinct hr hr' heq
  answer_own := by
    intro p i r hr _ hne
    obtain ⟨hreq, hpool, -, -⟩ := answer_spec s p
    refine ⟨?_, by rw [hpool]⟩
    rw [hreq, hr, map_some, answered, if_neg]
    intro hp
    obtain ⟨r', hr', htid⟩ := h.pool hp
    rw [hr, some.injEq] at hr'
    exact hne (hr' ▸ htid)
  timeout_own := by
    intro k s' hstep i r hr _ hne
    simp only [Dns.step] at hstep
    rcases hk : s.requests[k]? with _ | r'
    · rw [hk] at hstep
      cases hstep
    · rw [hk] at hstep
      simp only [ite_none_right_eq_some, some.injEq] at hstep
      obtain ⟨hreq, hpool, -, -⟩ := timeout_spec h hk hstep.2.symm
      exact ⟨by rw [hreq, hr, timedOut_of_ne hne, map_some, id],
        by rw [hpool, h.pool_of_ne hr hk hne]⟩
  once r hr := by
    obtain ⟨i, hi⟩ := List.mem_iff_getElem?.1 hr
    exact (h.request hi).once
  waiting hr hasleep := (h.request hr).waiting hasleep

/-- As long as ids are taken while there are some of 16 bits, queries are kept apart. -/
theorem separate_of_within (h : machine.Reach Within s) : Separate s :=
  (h.invariant inv_init fun _ _ _ hinv hok hstep => hinv.step hok hstep).separate

/-- Two queries of one name. -/
theorem separate_of_within_two : Separate (resolve (resolve { State.init with dns_server := true }
    (Bytes.ascii "a") false) (Bytes.ascii "a") false) := by
  have hserver : machine.Reach Within { State.init with dns_server := true } :=
    Machine.Reach.init.step (i := .server) (fun h => h.elim) rfl
  have hfirst := hserver.step (i := .resolve (Bytes.ascii "a") false) (fun _ => by decide) rfl
  exact separate_of_within
    (hfirst.step (i := .resolve (Bytes.ascii "a") false) (fun _ => by decide) rfl)

end Steps

section Overflow

variable {s : State}

theorem resolve_of_lookup (name : Bytes) (hverify : verify_domain_name (Bytes.lower name) = true)
    (hcache : s.CACHE .A (Bytes.lower name) = none) :
    (∀ header, pack_header s.next_tid = some header → s.dns_server = true →
      resolve s name false = suspend { s with
        next_tid := s.next_tid + 1
        sent := s.sent ++ [header ++ pack_question (Bytes.lower name) .A] }
        s.next_tid (Bytes.lower name) .A) ∧
    (pack_header s.next_tid = none → resolve s name false =
      { s with next_tid := s.next_tid + 1 }.finish (Bytes.lower name) .A .unsignedOverflow) := by
  have hlookup : lookup_cache s (Bytes.lower name) .A false = none := by
    rw [lookup_cache, hcache]
  refine ⟨fun header hheader hserver => ?_, fun hheader => ?_⟩
  · simp [resolve, qtypeOf, hverify, hlookup, hheader, hserver]
  · simp [resolve, qtypeOf, hverify, hlookup, hheader]

theorem exists_reach : ∀ n ≤ 0xffff, ∃ s : State, machine.Reachable s ∧ s.next_tid = n + 1 ∧
    s.dns_server = true ∧ s.CACHE .A (Bytes.ascii "a") = none
  | 0, _ => ⟨{ State.init with dns_server := true },
      Machine.Reach.init.step (i := .server) trivial rfl, rfl, rfl, rfl⟩
  | n + 1, hn => by
    obtain ⟨s, hs, hnext, hserver, hcache⟩ := exists_reach n (by omega)
    have hpack : ∃ header, pack_header s.next_tid = some header := by
      simp [pack_header, packUint16, hnext]
      omega
    obtain ⟨header, hheader⟩ := hpack
    have hresolve := (resolve_of_lookup (s := s) (Bytes.ascii "a") (by decide) hcache).1
      header hheader hserver
    refine ⟨resolve s (Bytes.ascii "a") false,
      hs.step (i := .resolve (Bytes.ascii "a") false) trivial rfl, ?_, ?_, ?_⟩
    all_goals rw [hresolve]
    · exact congrArg (· + 1) hnext
    · exact hserver
    · exact hcache

/-- The query after 65535 others fails. -/
theorem not_separate_of_overflow : ¬ ∀ s : State, machine.Reachable s → Separate s := by
  intro h
  obtain ⟨s, hs, hnext, -, hcache⟩ := exists_reach 0xffff le_rfl
  have hpack : pack_header s.next_tid = none := by
    rw [hnext]
    rfl
  have hresolve := (resolve_of_lookup (s := s) (Bytes.ascii "a") (by decide) hcache).2 hpack
  have hsep := h _ (hs.step (i := .resolve (Bytes.ascii "a") false) trivial rfl)
  refine hsep.packed (Bytes.ascii "a", .A, .unsignedOverflow) ?_ rfl
  rw [hresolve]
  exact List.mem_append_right _ (List.mem_singleton_self _)

end Overflow

end Dns

end SkynetGame
