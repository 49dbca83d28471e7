import SkynetGame.Proofs.HarborQueues

/-!
# Messages are written in the order they were sent

What was written to a connection and what is queued for it make one line. A message whose handle is
known goes to its end. The messages of a name that becomes known may come before others in it, but
none of those is one of the same name, and those of the name were sent when it was not known.
-/

namespace SkynetGame

open Function List

namespace Harbor

namespace Queues

/-- The payloads that were written to the connection of a harbor, by their numbers. -/
def writtenIn (log : List Out) (id : UInt8) : List ℕ :=
  log.filterMap fun
    | .remote id' _ m => if id' = id then some m.buffer.ptr else none
    | _ => none

/-- Two messages of which the one that was sent first is to be written first. -/
def Related (sent : List Sent) (i j : ℕ) : Prop :=
  ∃ a b, sent[i]? = some a ∧ sent[j]? = some b ∧
    (a.known = true ∧ b.known = true ∨ a.addr = b.addr)

def Ordered (sent : List Sent) (l : List ℕ) : Prop :=
  l.Pairwise fun i j => Related sent i j → i < j

section Ordered

variable {sent : List Sent} {l w x q : List ℕ}

theorem Related.symm {i j : ℕ} (h : Related sent i j) : Related sent j i := by
  obtain ⟨a, b, ha, hb, hab⟩ := h
  exact ⟨b, a, hb, ha, hab.imp And.symm Eq.symm⟩

theorem Ordered.sublist (h : Ordered sent l) (hs : x.Sublist l) : Ordered sent x :=
  Pairwise.sublist hs h

theorem Ordered.more (h : Ordered sent l) (hb : ∀ i ∈ l, i < sent.length) (r : Sent) :
    Ordered (sent ++ [r]) l := by
  refine Pairwise.imp_of_mem (fun {i j} hi hj hij hrel => hij ?_) h
  obtain ⟨a, b, ha, hb', hab⟩ := hrel
  rw [getElem?_append_left (hb i hi)] at ha
  rw [getElem?_append_left (hb j hj)] at hb'
  exact ⟨a, b, ha, hb', hab⟩

theorem Ordered.concat (h : Ordered sent l) (hb : ∀ i ∈ l, i < sent.length) (r : Sent) :
    Ordered (sent ++ [r]) (l ++ [sent.length]) := by
  refine pairwise_append.2 ⟨h.more hb r, pairwise_singleton _ _, ?_⟩
  intro i hi j hj _
  rw [mem_singleton.1 hj]
  exact hb i hi

theorem Ordered.insert (h : Ordered sent (w ++ q)) (hx : x.Pairwise (· < ·))
    (hno : ∀ i ∈ x, ∀ j ∈ w ++ q, ¬ Related sent i j) : Ordered sent (w ++ x ++ q) := by
  obtain ⟨hw, hq, hwq⟩ := pairwise_append.1 h
  have hx' : Ordered sent x := by
    refine Pairwise.imp ?_ hx
    intro i j hlt _
    exact hlt
  have hwx : ∀ i ∈ w, ∀ j ∈ x, Related sent i j → i < j := fun i hi j hj hrel =>
    absurd hrel.symm (hno j hj i (mem_append_left q hi))
  refine pairwise_append.2 ⟨pairwise_append.2 ⟨hw, hx', hwx⟩, hq, ?_⟩
  intro i hi j hj hrel
  rcases mem_append.1 hi with hi | hi
  · exact hwq i hi j hj hrel
  · exact absurd hrel (hno i hi j (mem_append_right w hj))

end Ordered

section Line

variable {v : Queues} {id : UInt8}

/-- What was written to a connection, and what is queued for it. -/
def line (v : Queues) (id : UInt8) : List ℕ :=
  writtenIn v.log id ++ (v.queue id).map fun m => m.buffer.ptr

theorem writtenIn_append (log log' : List Out) (id : UInt8) :
    writtenIn (log ++ log') id = writtenIn log id ++ writtenIn log' id := filterMap_append

theorem writtenIn_filter (log : List Out) (id : UInt8) :
    writtenIn (log.filter carried) id = writtenIn log id := by
  unfold writtenIn
  rw [filterMap_filter]
  refine filterMap_congr fun o _ => ?_
  cases o <;> rfl

theorem writtenIn_eq_nil {log : List Out} (h : ∀ o ∈ log, ∀ id fd m, o ≠ .remote id fd m)
    (id : UInt8) : writtenIn log id = [] := by
  refine filterMap_eq_nil_iff.2 fun o ho => ?_
  cases o with
  | remote id' fd m => exact absurd rfl (h _ ho id' fd m)
  | _ => rfl

theorem writtenIn_drain (id : UInt8) (fd : ℤ) : ∀ queue : List HarborMsg,
    (writtenIn (drain id fd queue) id).Sublist (queue.map fun m => m.buffer.ptr)
  | [] => Sublist.refl _
  | m :: queue => by
    have ih := writtenIn_drain id fd queue
    rw [drain, flatMap_cons, ← drain, writtenIn_append, map_cons]
    unfold sendRemote
    split_ifs
    · exact ih.cons _
    · have hone : writtenIn ([.remote id fd m] ++ [.free m.buffer]) id = [m.buffer.ptr] := by
        simp [writtenIn]
      rw [hone]
      exact ih.cons_cons _

theorem writtenIn_drain_of_ne {id' : UInt8} (hne : id' ≠ id) (fd : ℤ) (queue : List HarborMsg) :
    writtenIn (drain id fd queue) id' = [] := by
  refine filterMap_eq_nil_iff.2 fun o ho => ?_
  obtain ⟨m, -, ho⟩ := mem_flatMap.1 ho
  rcases mem_append.1 ho with ho | ho
  · unfold sendRemote at ho
    split_ifs at ho
    · rw [mem_singleton.1 ho]
    · rw [mem_singleton.1 ho]
      exact if_neg hne.symm
  · rw [mem_singleton.1 ho]

end Line

structure InOrder (v : Queues) : Prop where
  ordered : ∀ id, Ordered v.sent (v.line id)
  bound : ∀ id, ∀ i ∈ v.line id, i < v.sent.length
  waits : ∀ n, ((v.waiting n).map fun m => m.buffer.ptr).Pairwise (· < ·)
  asked : ∀ n, ∀ m ∈ v.waiting n, ∃ r, v.sent[m.buffer.ptr]? = some r ∧ r.addr = .name n ∧
    r.known = false
  unknown : ∀ n, v.value n = 0 → ∀ id, ∀ i ∈ v.line id, ∀ r, v.sent[i]? = some r → r.addr ≠ .name n
  known : ∀ n, v.value n ≠ 0 → v.waiting n = []
  ready : ∀ id, v.fd id ≠ 0 → v.ready id = true → v.queue id = []

variable {v v' : Queues}

theorem InOrder.shrink (h : InOrder v) (hsent : v'.sent = v.sent) (hvalue : v'.value = v.value)
    (hwaiting : v'.waiting = v.waiting) (hline : ∀ id, (v'.line id).Sublist (v.line id))
    (hready : ∀ id, v'.fd id ≠ 0 → v'.ready id = true → v'.queue id = []) : InOrder v' := by
  refine ⟨fun id => ?_, fun id i hi => ?_, ?_, ?_, fun n hn id i hi => ?_, ?_, hready⟩
  · rw [hsent]
    exact (h.ordered id).sublist (hline id)
  · rw [hsent]
    exact h.bound id i ((hline id).subset hi)
  · rw [hwaiting]
    exact h.waits
  · rw [hwaiting, hsent]
    exact h.asked
  · rw [hsent]
    exact h.unknown n (hvalue ▸ hn) id i ((hline id).subset hi)
  · rw [hvalue, hwaiting]
    exact h.known

theorem InOrder.push {r : Sent} {handle : UInt32} (h : InOrder v) (ht : v.Target r handle)
    (hsent : v'.sent = v.sent ++ [r]) (hvalue : v'.value = v.value)
    (hwaiting : v'.waiting = v.waiting)
    (hline : ∀ id, v'.line id = v.line id ∨ v'.line id = v.line id ++ [v.sent.length])
    (hready : ∀ id, v'.fd id ≠ 0 → v'.ready id = true → v'.queue id = []) : InOrder v' := by
  have hsub : ∀ id', (v'.line id').Sublist (v.line id' ++ [v.sent.length]) := by
    intro id'
    rcases hline id' with heq | heq
    · rw [heq]
      exact sublist_append_left _ _
    · rw [heq]
  have hget : ∀ i < v.sent.length, (v.sent ++ [r])[i]? = v.sent[i]? := fun i hi =>
    getElem?_append_left hi
  refine ⟨fun id' => ?_, fun id' i hi => ?_, ?_, ?_, fun n hn id' i hi r' hr' => ?_, ?_, hready⟩
  · rw [hsent]
    exact ((h.ordered id').concat (h.bound id') r).sublist (hsub id')
  · rw [hsent, length_append, length_singleton]
    rcases mem_append.1 ((hsub id').subset hi) with hi | hi
    · exact (h.bound id' i hi).trans (Nat.lt_succ_self _)
    · rw [mem_singleton.1 hi]
      exact Nat.lt_succ_self _
  · rw [hwaiting]
    exact h.waits
  · rw [hwaiting, hsent]
    intro n m hm
    obtain ⟨r', hr', haddr⟩ := h.asked n m hm
    exact ⟨r', (hget _ (List.getElem?_eq_some_iff.1 hr').1).trans hr', haddr⟩
  · rw [hsent] at hr'
    rw [hvalue] at hn
    rcases mem_append.1 ((hsub id').subset hi) with hi | hi
    · rw [hget i (h.bound id' i hi)] at hr'
      exact h.unknown n hn id' i hi r' hr'
    · rw [mem_singleton.1 hi, getElem?_concat_length] at hr'
      obtain rfl := Option.some.inj hr'
      intro haddr
      rcases ht with hh | ⟨n', hn', hv, hne⟩
      · rw [hh] at haddr
        cases haddr
      · rw [hn'] at haddr
        obtain rfl := Addr.name.inj haddr
        exact hne (hv.symm.trans hn)
  · rw [hvalue, hwaiting]
    exact h.known

theorem InOrder.learned {n : Bytes} {handle : UInt32} (id : UInt8) {w x q : List ℕ} (h : InOrder v)
    (hne : handle ≠ 0) (hsent : v'.sent = v.sent)
    (hvalue : v'.value = update v.value n handle)
    (hwaiting : v'.waiting = update v.waiting n [])
    (hother : ∀ id', id' ≠ id → v'.line id' = v.line id') (hline : v'.line id = w ++ x ++ q)
    (hold : (w ++ q).Sublist (v.line id))
    (hx : x.Sublist ((v.waiting n).map fun m => m.buffer.ptr))
    (hready : ∀ id, v'.fd id ≠ 0 → v'.ready id = true → v'.queue id = []) : InOrder v' := by
  -- a message that waits is of the name, which none in a line is
  have hfrom : ∀ i ∈ x, ∃ r, v.sent[i]? = some r ∧ r.addr = .name n ∧ r.known = false := by
    intro i hi
    obtain ⟨m, hm, rfl⟩ := mem_map.1 (hx.subset hi)
    exact h.asked n m hm
  have hzero : ∀ i ∈ x, v.value n = 0 := by
    intro i hi
    by_contra hv
    have hnil := hx.subset hi
    rw [h.known n hv] at hnil
    exact absurd hnil not_mem_nil
  have hno : ∀ i ∈ x, ∀ j ∈ w ++ q, ¬ Related v.sent i j := by
    rintro i hi j hj ⟨a, b, ha, hb, hab⟩
    obtain ⟨r, hr, haddr, hknown⟩ := hfrom i hi
    obtain rfl := Option.some.inj (ha.symm.trans hr)
    rcases hab with ⟨hk, -⟩ | hab
    · rw [hknown] at hk
      cases hk
    · exact h.unknown n (hzero i hi) id j (hold.subset hj) b hb (hab.symm.trans haddr)
  have hmem : ∀ i ∈ v'.line id, i ∈ v.line id ∨ i ∈ x := by
    intro i hi
    rw [hline] at hi
    rcases mem_append.1 hi with hi | hi
    · rcases mem_append.1 hi with hi | hi
      · exact .inl (hold.subset (mem_append_left q hi))
      · exact .inr hi
    · exact .inl (hold.subset (mem_append_right w hi))
  refine ⟨fun id' => ?_, fun id' i hi => ?_, fun n' => ?_, fun n' m hm => ?_,
    fun n' hn' id' i hi r hr => ?_, fun n' hn' => ?_, hready⟩
  · rw [hsent]
    by_cases hid : id' = id
    · rw [hid, hline]
      exact ((h.ordered id).sublist hold).insert ((h.waits n).sublist hx) hno
    · rw [hother id' hid]
      exact h.ordered id'
  · rw [hsent]
    by_cases hid : id' = id
    · rw [hid] at hi
      rcases hmem i hi with hi | hi
      · exact h.bound id i hi
      · obtain ⟨r, hr, -⟩ := hfrom i hi
        exact (List.getElem?_eq_some_iff.1 hr).1
    · rw [hother id' hid] at hi
      exact h.bound id' i hi
  · rw [hwaiting]
    by_cases hn : n' = n
    · rw [hn, update_self]
      exact .nil
    · rw [update_of_ne hn]
      exact h.waits n'
  · rw [hwaiting] at hm
    rw [hsent]
    by_cases hn : n' = n
    · rw [hn, update_self] at hm
      exact absurd hm not_mem_nil
    · rw [update_of_ne hn] at hm
      exact h.asked n' m hm
  · rw [hsent] at hr
    rw [hvalue] at hn'
    have hn : n' ≠ n := by
      rintro rfl
      rw [update_self] at hn'
      exact hne hn'
    rw [update_of_ne hn] at hn'
    by_cases hid : id' = id
    · rw [hid] at hi
      rcases hmem i hi with hi | hi
      · exact h.unknown n' hn' id i hi r hr
      · obtain ⟨r', hr', haddr, -⟩ := hfrom i hi
        obtain rfl := Option.some.inj (hr.symm.trans hr')
        rw [haddr]
        exact fun he => hn (Addr.name.inj he).symm
    · rw [hother id' hid] at hi
      exact h.unknown n' hn' id' i hi r hr
  · rw [hwaiting]
    by_cases hn : n' = n
    · rw [hn, update_self]
    · rw [update_of_ne hn]
      rw [hvalue, update_of_ne hn] at hn'
      exact h.known n' hn'

theorem line_of_queue {id : UInt8} (hlog : writtenIn v'.log id = writtenIn v.log id)
    (hq : v'.queue id = v.queue id) : v'.line id = v.line id := by
  rw [line, line, hlog, hq]

theorem InOrder.drained (h : InOrder v) (id : UInt8) {more : List Out}
    (hmore : (writtenIn more id).Sublist ((v.queue id).map fun m => m.buffer.ptr))
    (hno : ∀ id', id' ≠ id → writtenIn more id' = []) : InOrder { v with
      queue := update v.queue id []
      ready := update v.ready id true
      log := v.log ++ more } := by
  refine h.shrink rfl rfl rfl (fun id' => ?_) fun id' hf hr => ?_
  · by_cases hid : id' = id
    · rw [hid, line, line, writtenIn_append]
      show (_ ++ (update v.queue id [] id).map _).Sublist _
      rw [update_self, map_nil, append_nil]
      exact hmore.append_left _
    · rw [line_of_queue (v := v) ?_ (update_of_ne hid ..)]
      show writtenIn (v.log ++ more) id' = _
      rw [writtenIn_append, hno id' hid, append_nil]
  · by_cases hid : id' = id
    · exact hid ▸ update_self ..
    · refine (update_of_ne hid ..).trans (h.ready id' hf ?_)
      exact (update_of_ne hid ..).symm.trans hr

theorem InOrder.ready_update {id : UInt8} (h : InOrder v) (hfd : v.fd id = 0)
    (q : List HarborMsg) (id' : UInt8) (hf : v.fd id' ≠ 0) (hr : v.ready id' = true) :
    update v.queue id q id' = [] := by
  have hid : id' ≠ id := by
    rintro rfl
    exact hf hfd
  exact (update_of_ne hid ..).trans (h.ready id' hf hr)

theorem writtenIn_free (queue : List HarborMsg) (id : UInt8) :
    writtenIn (queue.map fun m => .free m.buffer) id = [] := by
  refine writtenIn_eq_nil (fun o ho _ _ _ => ?_) id
  obtain ⟨m, -, rfl⟩ := mem_map.1 ho
  rintro ⟨⟩

theorem writtenIn_passOn (handle : UInt32) (queue : List HarborMsg) (id : UInt8) :
    writtenIn (queue.map (passOn handle)) id = [] := by
  refine writtenIn_eq_nil (fun o ho _ _ _ => ?_) id
  obtain ⟨m, -, rfl⟩ := mem_map.1 ho
  rintro ⟨⟩

theorem InOrder.ask {r : Sent} {n : Bytes} (h : InOrder v) (haddr : r.addr = .name n)
    (hknown : r.known = false) (hvalue : v.value n = 0) : InOrder { v with
      sent := v.sent ++ [r]
      waiting := update v.waiting n (v.waiting n ++ [v.asked r]) } := by
  have hget : ∀ i < v.sent.length, (v.sent ++ [r])[i]? = v.sent[i]? := fun i hi =>
    getElem?_append_left hi
  refine ⟨fun id => (h.ordered id).more (h.bound id) r, fun id i hi => ?_, fun n' => ?_,
    fun n' m hm => ?_, fun n' hn' id i hi r' hr' => ?_, fun n' hn' => ?_, h.ready⟩
  · rw [length_append]
    exact (h.bound id i hi).trans_le (Nat.le_add_right _ _)
  · show ((update v.waiting n _ n').map fun m => m.buffer.ptr).Pairwise (· < ·)
    by_cases hn : n' = n
    · rw [hn, update_self, map_append]
      refine pairwise_append.2 ⟨h.waits n, pairwise_singleton _ _, ?_⟩
      intro i hi j hj
      obtain ⟨m, hm, rfl⟩ := mem_map.1 hi
      obtain ⟨r', hr', -⟩ := h.asked n m hm
      rw [mem_singleton.1 hj]
      exact (List.getElem?_eq_some_iff.1 hr').1
    · rw [update_of_ne hn]
      exact h.waits n'
  · have hold : ∀ m ∈ v.waiting n', ∃ r', (v.sent ++ [r])[m.buffer.ptr]? = some r' ∧
        r'.addr = .name n' ∧ r'.known = false := by
      intro m hm
      obtain ⟨r', hr', hx⟩ := h.asked n' m hm
      exact ⟨r', (hget _ (List.getElem?_eq_some_iff.1 hr').1).trans hr', hx⟩
    by_cases hn : n' = n
    · subst hn
      have hm' : m ∈ v.waiting n' ++ [v.asked r] := by
        have hm'' : m ∈ update v.waiting n' (v.waiting n' ++ [v.asked r]) n' := hm
        rwa [update_self] at hm''
      rcases mem_append.1 hm' with hm' | hm'
      · exact hold m hm'
      · rw [mem_singleton.1 hm']
        exact ⟨r, getElem?_concat_length, haddr, hknown⟩
    · have hm' : m ∈ update v.waiting n (v.waiting n ++ [v.asked r]) n' := hm
      rw [update_of_ne hn] at hm'
      exact hold m hm'
  · have hr'' : (v.sent ++ [r])[i]? = some r' := hr'
    rw [hget i (h.bound id i hi)] at hr''
    exact h.unknown n' hn' id i hi r' hr''
  · have hn : n' ≠ n := by
      rintro rfl
      exact hn' hvalue
    show update v.waiting n _ n' = []
    rw [update_of_ne hn]
    exact h.known n' hn'

theorem InOrder.write {r : Sent} {handle : UInt32} (h : InOrder v) (ht : v.Target r handle)
    (hfd : v.fd (harborOf handle) ≠ 0) (hready : v.ready (harborOf handle) = true) :
    InOrder { v with
      sent := v.sent ++ [r]
      log := v.log ++
        (drain (harborOf handle) (v.fd (harborOf handle)) [v.msg r handle]).filter carried } := by
  have hnil := h.ready _ hfd hready
  refine h.push ht rfl rfl rfl (fun id => ?_) h.ready
  by_cases hid : id = harborOf handle
  · subst hid
    have hsub := writtenIn_drain (harborOf handle) (v.fd (harborOf handle)) [v.msg r handle]
    have hline : v.line (harborOf handle) = writtenIn v.log (harborOf handle) := by
      rw [line, hnil, map_nil, append_nil]
    have hline' : ∀ log, ({ v with sent := v.sent ++ [r], log := v.log ++ log } : Queues).line
        (harborOf handle) = v.line (harborOf handle) ++ writtenIn log (harborOf handle) := by
      intro log
      rw [hline, line, writtenIn_append]
      show _ ++ (v.queue (harborOf handle)).map _ = _
      rw [hnil, map_nil, append_nil]
    rw [hline', writtenIn_filter]
    rcases sublist_cons_iff.1 hsub with hs | ⟨l, hl, hs⟩
    · left
      rw [sublist_nil.1 hs, append_nil]
    · right
      rw [hl, sublist_nil.1 hs]
      rfl
  · refine .inl (line_of_queue ?_ rfl)
    show writtenIn (v.log ++ _) id = _
    rw [writtenIn_append, writtenIn_filter, writtenIn_drain_of_ne hid, append_nil]

/-- Each step keeps the order. -/
theorem InOrder.step {e : Event} (h : InOrder v) (hstep : Step v e v') : InOrder v' := by
  cases hstep with
  | @ask r n haddr hknown hvalue =>
    exact h.ask haddr hknown hvalue
  | @here r handle ht hknown hown =>
    refine h.push ht rfl rfl rfl (fun id => .inl (line_of_queue ?_ rfl)) h.ready
    show writtenIn (v.log ++ _) id = _
    rw [writtenIn_append]
    exact append_nil _
  | @put r handle ht hknown hremote hwait =>
    refine h.push ht rfl rfl rfl (fun id => ?_) fun id hfd hready => ?_
    · by_cases hid : id = harborOf handle
      · right
        show writtenIn v.log id ++ (update v.queue _ _ id).map _ = _
        rw [hid, update_self, map_append, ← append_assoc]
        rfl
      · exact .inl (line_of_queue rfl (update_of_ne hid ..))
    · have hid : id ≠ harborOf handle := by
        rintro rfl
        rcases hwait with hz | hr
        · exact hfd hz
        · have hready' : v.ready (harborOf handle) = true := hready
          rw [hr] at hready'
          cases hready'
      show update v.queue _ _ id = []
      rw [update_of_ne hid]
      exact h.ready id hfd hready
  | @write r handle ht hknown hremote hfd hready =>
    exact h.write ht hfd hready
  | @lose id hfd =>
    have hfree := writtenIn_free (v.queue id)
    refine h.drained id ?_ fun id' _ => hfree id'
    rw [hfree]
    exact nil_sublist _
  | @dial id fd hfd hne =>
    refine h.shrink rfl rfl rfl (fun _ => Sublist.refl _) fun id' hf hr => ?_
    have hid : id' ≠ id := by
      rintro rfl
      have hr' : update v.ready id' false id' = true := hr
      rw [update_self] at hr'
      cases hr'
    refine h.ready id' ?_ ((update_of_ne hid ..).symm.trans hr)
    exact fun hz => hf ((update_of_ne hid ..).trans hz)
  | @drain id hfd =>
    refine h.drained id ?_ fun id' hid => ?_
    · rw [writtenIn_filter]
      exact writtenIn_drain id (v.fd id) (v.queue id)
    · rw [writtenIn_filter, writtenIn_drain_of_ne hid]
  | @learn n handle hne hnil =>
    refine learned 0 (w := v.line 0) (x := []) (q := []) h hne rfl rfl rfl (fun _ _ => rfl)
      ?_ ?_ (nil_sublist _) h.ready
    · rw [append_nil, append_nil]
      rfl
    · rw [append_nil]
  | @learnHere n handle hne hfd hhome =>
    refine learned (harborOf handle) (w := writtenIn v.log (harborOf handle)) (x := [])
      (q := []) h hne rfl rfl rfl (fun id hid => line_of_queue ?_ (update_of_ne hid ..)) ?_
      ?_ (nil_sublist _) (h.ready_update hfd _)
    · show writtenIn (v.log ++ _) id = _
      rw [writtenIn_append, writtenIn_passOn, append_nil]
    · show writtenIn (v.log ++ _) _ ++ (update v.queue _ [] _).map _ = _
      rw [writtenIn_append, writtenIn_passOn, update_self]
      rfl
    · rw [append_nil]
      exact sublist_append_left _ _
  | @learnWrite n handle hne hfd =>
    refine learned (harborOf handle) (w := writtenIn v.log (harborOf handle))
      (x := writtenIn (Harbor.drain (harborOf handle) (v.fd (harborOf handle))
        ((v.waiting n).map (merge handle))) (harborOf handle))
      (q := (v.queue (harborOf handle)).map fun m => m.buffer.ptr) h hne rfl rfl rfl
      (fun id hid => line_of_queue ?_ rfl) ?_ (Sublist.refl _) ?_ h.ready
    · show writtenIn (v.log ++ _) id = _
      rw [writtenIn_append, writtenIn_filter, writtenIn_drain_of_ne hid, append_nil]
    · show writtenIn (v.log ++ _) _ ++ _ = _
      rw [writtenIn_append, writtenIn_filter]
      rfl
    · have hsub := writtenIn_drain (harborOf handle) (v.fd (harborOf handle))
        ((v.waiting n).map (merge handle))
      rwa [map_map] at hsub
  | @learnMove n handle hne hfd hhome =>
    refine learned (harborOf handle) (w := v.line (harborOf handle))
      (x := (v.waiting n).map fun m => m.buffer.ptr) (q := []) h hne rfl rfl rfl
      (fun id hid => line_of_queue rfl (update_of_ne hid ..)) ?_ ?_ (Sublist.refl _)
      (h.ready_update hfd _)
    · show writtenIn v.log _ ++ (update v.queue _ _ _).map _ = _
      rw [update_self, map_append, append_nil, ← append_assoc]
      rfl
    · rw [append_nil]

end Queues

/-- The messages that were written to the connection of a harbor, numbered as they were sent. -/
def State.written (h : State) (id : UInt8) : List ℕ := Queues.writtenIn h.log id

theorem inOrder_of_reachable {fails : ℕ → Bool} {own : UInt8} {slave : UInt32} {h : State}
    (hr : (machine fails own slave).Reachable h) : h.queues.InOrder := by
  refine (hr.invariant (I := fun h => Sound h ∧ h.queues.InOrder) ⟨?_, ?_⟩ ?_).2
  · exact @sound_of_reachable fails _ own slave Machine.Reach.init
  · exact ⟨fun _ => .nil, fun _ _ hi => absurd hi not_mem_nil, fun _ => .nil,
      fun _ _ hm => absurd hm not_mem_nil, fun _ _ _ _ hi => absurd hi not_mem_nil,
      fun _ hv => absurd rfl hv, fun _ hf => absurd rfl hf⟩
  · rintro h l h' ⟨hs, hi⟩ - hstep
    refine ⟨hs.step hstep, ?_⟩
    have hpath : Queues.Path (fun _ => True) h.queues h'.queues :=
      step_queues hs hstep trivial (fun _ _ => trivial) fun _ _ _ _ _ _ _ _ => trivial
    exact hpath.invariant hi fun _ _ _ hi' _ hst => hi'.step hst

/-- Of two messages on one connection the one that was sent first is written first, if the handles
of both were known when they were sent, or both are for one name or one handle. -/
theorem written_in_order {fails : ℕ → Bool} {own : UInt8} {slave : UInt32} {h : State}
    (hr : (machine fails own slave).Reachable h) (id : UInt8) :
    (h.written id).Pairwise fun i j => ∀ a b, h.sent[i]? = some a → h.sent[j]? = some b →
      a.known = true ∧ b.known = true ∨ a.addr = b.addr → i < j := by
  have hordered := (inOrder_of_reachable hr).ordered id
  have hwritten : Queues.writtenIn h.queues.log id = h.written id := Queues.writtenIn_filter h.log id
  rw [Queues.line, hwritten] at hordered
  refine List.Pairwise.imp ?_ (List.pairwise_append.1 hordered).1
  intro i j hij a b ha hb hab
  exact hij ⟨a, b, ha, hb, hab⟩

/-- A name that becomes known in the handshake: its message overtakes one by handle. -/
theorem written_in_order_of_handshake : ∃ h,
    (machine (fun _ => false) 1 0x1000001).Reachable h ∧ h.written 2 = [1, 0, 2] ∧
      (h.written 2).Pairwise fun i j => ∀ a b, h.sent[i]? = some a → h.sent[j]? = some b →
        a.known = true ∧ b.known = true ∨ a.addr = b.addr → i < j := by
  have hl : ((machine (fun _ => false) 1 0x1000001).run (fun _ _ => True) (init 1 0x1000001)
      [.send 0x1000008 (.handle 0x2000007) 10 1 [1], .send 0x1000008 (.name (key [97])) 10 2 [2],
        .connect false 5 2, .name [97] 0x2000007, .send 0x1000008 (.name (key [97])) 10 3 [3],
        .data 5 [2]]).map (fun h => h.written 2) = some [1, 0, 2] := by
    decide
  obtain ⟨h, hr, he⟩ := Machine.exists_reach hl
  exact ⟨h, hr, he, written_in_order hr 2⟩

end Harbor

end SkynetGame
