import SkynetGame.Proofs.HarborOrder

/-!
# The messages of a name that was not known

A message that was sent to a name waits in the queue of the name until the name is known, and leaves
then, with the handle of the name in its header. Where the harbor of the handle is not connected yet
the queue goes behind the one of the harbor as it is, without the handle: so what is said here is
about the names to which this does not happen.
-/

namespace SkynetGame

open Function List

namespace Harbor

open Queues (carried merge passOn)

/-- The payload that is sent, written or freed. -/
def Out.ptr : Out → Option ℕ
  | .remote _ _ m => some m.buffer.ptr
  | .local _ _ _ _ b | .free b => some b.ptr
  | _ => none

def about (i : ℕ) (log : List Out) : List Out := log.filter fun o => o.ptr = some i

section About

variable {i : ℕ}

theorem about_append (log log' : List Out) : about i (log ++ log') = about i log ++ about i log' :=
  filter_append ..

theorem about_carried (log : List Out) : about i (log.filter carried) = about i log := by
  unfold about
  rw [filter_filter]
  refine filter_congr fun o _ => ?_
  cases o <;> simp [Out.ptr, carried]

theorem about_eq_nil {log : List Out} : about i log = [] ↔ ∀ o ∈ log, o.ptr ≠ some i := by
  simp [about, filter_eq_nil_iff]

theorem ptr_of_mem_drain {id : UInt8} {fd : ℤ} {queue : List HarborMsg} {o : Out} {j : ℕ}
    (ho : o ∈ drain id fd queue) (hj : o.ptr = some j) : ∃ m ∈ queue, m.buffer.ptr = j := by
  obtain ⟨m, hm, ho⟩ := mem_flatMap.1 ho
  refine ⟨m, hm, ?_⟩
  rcases mem_append.1 ho with ho | ho
  · unfold sendRemote at ho
    split_ifs at ho
    · rw [mem_singleton.1 ho] at hj
      cases hj
    · rw [mem_singleton.1 ho] at hj
      exact Option.some.inj hj
  · rw [mem_singleton.1 ho] at hj
    exact Option.some.inj hj

theorem ptr_of_mem_map {f : HarborMsg → Out} (hf : ∀ m, (f m).ptr = some m.buffer.ptr)
    {queue : List HarborMsg} {o : Out} {j : ℕ} (ho : o ∈ queue.map f) (hj : o.ptr = some j) :
    ∃ m ∈ queue, m.buffer.ptr = j := by
  obtain ⟨m, hm, rfl⟩ := mem_map.1 ho
  exact ⟨m, hm, Option.some.inj ((hf m).symm.trans hj)⟩

theorem about_drain {id : UInt8} {fd : ℤ} {queue : List HarborMsg}
    (hno : ∀ m ∈ queue, m.buffer.ptr ≠ i) : about i (drain id fd queue) = [] := by
  refine about_eq_nil.2 fun o ho hp => ?_
  obtain ⟨m, hm, hi⟩ := ptr_of_mem_drain ho hp
  exact hno m hm hi

theorem about_map {f : HarborMsg → Out} (hf : ∀ m, (f m).ptr = some m.buffer.ptr)
    {queue : List HarborMsg} (hno : ∀ m ∈ queue, m.buffer.ptr ≠ i) : about i (queue.map f) = [] := by
  refine about_eq_nil.2 fun o ho hp => ?_
  obtain ⟨m, hm, hi⟩ := ptr_of_mem_map hf ho hp
  exact hno m hm hi

theorem split_of_mem {queue : List HarborMsg} {m : HarborMsg}
    (hq : (queue.map fun m => m.buffer.ptr).Pairwise (· < ·)) (hm : m ∈ queue) :
    ∃ before after, queue = before ++ m :: after ∧ (∀ m' ∈ before, m'.buffer.ptr ≠ m.buffer.ptr) ∧
      ∀ m' ∈ after, m'.buffer.ptr ≠ m.buffer.ptr := by
  obtain ⟨before, after, rfl⟩ := append_of_mem hm
  rw [pairwise_map] at hq
  obtain ⟨-, ha, hb⟩ := pairwise_append.1 hq
  refine ⟨before, after, rfl, fun m' hm' => ?_, fun m' hm' => ?_⟩
  · exact Nat.ne_of_lt (hb m' hm' m mem_cons_self)
  · exact Nat.ne_of_gt ((pairwise_cons.1 ha).1 m' hm')

theorem about_map_of_mem {f : HarborMsg → Out} (hf : ∀ m, (f m).ptr = some m.buffer.ptr)
    {queue : List HarborMsg} {m : HarborMsg}
    (hq : (queue.map fun m => m.buffer.ptr).Pairwise (· < ·)) (hm : m ∈ queue) :
    about m.buffer.ptr (queue.map f) = [f m] := by
  obtain ⟨before, after, rfl, hbefore, hafter⟩ := split_of_mem hq hm
  have hself : about m.buffer.ptr [f m] = [f m] :=
    filter_eq_self.2 fun o ho => by rw [mem_singleton.1 ho, hf, decide_eq_true rfl]
  rw [← singleton_append, map_append, map_append, about_append, about_append,
    about_map hf hbefore, about_map hf hafter, map_singleton, hself]
  rfl

theorem about_drain_of_mem {id : UInt8} {fd : ℤ} {queue : List HarborMsg} {m : HarborMsg}
    (hq : (queue.map fun m => m.buffer.ptr).Pairwise (· < ·)) (hm : m ∈ queue)
    (hsmall : m.buffer.bytes.length + HEADER_COOKIE_LENGTH ≤ UINT32_MAX) :
    about m.buffer.ptr (drain id fd queue) = [.remote id fd m, .free m.buffer] := by
  obtain ⟨before, after, rfl, hbefore, hafter⟩ := split_of_mem hq hm
  have hself : about m.buffer.ptr (drain id fd [m]) = [.remote id fd m, .free m.buffer] := by
    have hone : drain id fd [m] = [.remote id fd m, .free m.buffer] := by
      unfold drain sendRemote
      rw [flatMap_singleton, if_neg (Nat.not_lt.2 hsmall)]
      rfl
    rw [hone]
    simp [about, Out.ptr]
  have hsplit : drain id fd (before ++ m :: after) =
      drain id fd before ++ (drain id fd [m] ++ drain id fd after) := by
    rw [drain, flatMap_append, ← singleton_append, flatMap_append]
    rfl
  rw [hsplit, about_append, about_append, about_drain hbefore, about_drain hafter, hself]
  rfl

end About

namespace Queues

/-- A message for a name, as it is to leave. -/
def Addressed (handle : UInt32) (i : ℕ) (r : Sent) (o : Out) : Prop :=
  o = .local r.source handle r.type r.session ⟨i, r.bytes⟩ ∨ ∃ fd, o = .remote (harborOf handle) fd
    ⟨⟨r.source, high r.type ||| (handle &&& HANDLE_MASK), r.session.toUInt32⟩, ⟨i, r.bytes⟩⟩

/-- Where a message of a name is, that was sent when the name was not known. -/
structure Kept (v : Queues) (n : Bytes) (i : ℕ) (r : Sent) : Prop where
  queue : ∀ id, ∀ m ∈ v.queue id, m.buffer.ptr ≠ i
  waiting : v.value n = 0 → about i v.log = [] ∧
    ⟨⟨r.source, high r.type, r.session.toUInt32⟩, ⟨i, r.bytes⟩⟩ ∈ v.waiting n
  left : v.value n ≠ 0 → ∃ o, Addressed (v.first n) i r o ∧
    (about i v.log = [o] ∨ about i v.log = [o, .free ⟨i, r.bytes⟩])

/-- The log is about payloads that came. -/
def Logged (v : Queues) : Prop := ∀ o ∈ v.log, ∀ j, o.ptr = some j → j < v.sent.length

section Kept

variable {v v' : Queues} {n n' : Bytes} {i : ℕ} {r : Sent} {handle : UInt32}

theorem Kept.quiet (h : Kept v n i r) (hqueue : ∀ id, ∀ m ∈ v'.queue id, m.buffer.ptr ≠ i)
    (hlog : about i v'.log = about i v.log) (hvalue : v'.value = v.value)
    (hfirst : v'.first = v.first) (hwaiting : ∀ m ∈ v.waiting n, m ∈ v'.waiting n) :
    Kept v' n i r := by
  refine ⟨hqueue, fun hv => ?_, fun hv => ?_⟩
  · rw [hvalue] at hv
    rw [hlog]
    exact ⟨(h.waiting hv).1, hwaiting _ (h.waiting hv).2⟩
  · rw [hvalue] at hv
    rw [hlog, hfirst]
    exact h.left hv

theorem Kept.learned {more : List Out} (h : Kept v n i r) (hne : handle ≠ 0)
    (hqueue : ∀ id, ∀ m ∈ v'.queue id, m.buffer.ptr ≠ i) (hlog : v'.log = v.log ++ more)
    (hvalue : v'.value = (v.learn n' handle).value) (hfirst : v'.first = (v.learn n' handle).first)
    (hwaiting : v'.waiting = (v.learn n' handle).waiting)
    (hother : n' ≠ n ∨ v.value n ≠ 0 → about i more = [])
    (hself : n' = n → v.value n = 0 → ∃ o, Addressed handle i r o ∧
      (about i more = [o] ∨ about i more = [o, .free ⟨i, r.bytes⟩])) : Kept v' n i r := by
  by_cases hn : n' = n
  · subst hn
    have hv' : v'.value n' = handle := by
      rw [hvalue]
      exact update_self ..
    refine ⟨hqueue, fun hz => absurd (hv'.symm.trans hz) hne, fun _ => ?_⟩
    rw [hlog, about_append, hfirst]
    show ∃ o, Addressed ((if v.value n' = 0 then Function.update v.first n' handle
      else v.first) n') i r o ∧ _
    by_cases hv : v.value n' = 0
    · rw [if_pos hv, update_self, (h.waiting hv).1]
      exact hself rfl hv
    · rw [if_neg hv, hother (.inr hv), append_nil]
      exact h.left hv
  · have hv : v'.value n = v.value n := by
      rw [hvalue]
      exact update_of_ne (Ne.symm hn) ..
    have hf : v'.first n = v.first n := by
      rw [hfirst]
      show (if v.value n' = 0 then Function.update v.first n' handle else v.first) n = _
      split
      · exact update_of_ne (Ne.symm hn) ..
      · rfl
    have hw : v'.waiting n = v.waiting n := by
      rw [hwaiting]
      exact update_of_ne (Ne.symm hn) ..
    refine ⟨hqueue, fun hz => ?_, fun hz => ?_⟩
    · rw [hlog, about_append, hother (.inl hn), append_nil, hw]
      exact h.waiting (hv ▸ hz)
    · rw [hlog, about_append, hother (.inl hn), append_nil, hf]
      exact h.left (hv ▸ hz)

theorem Kept.update (h : Kept v n i r) {id : UInt8} {queue : List HarborMsg}
    (hno : ∀ m ∈ queue, m.buffer.ptr ≠ i) :
    ∀ id', ∀ m ∈ Function.update v.queue id queue id', m.buffer.ptr ≠ i := by
  intro id' m hm
  by_cases hid : id' = id
  · rw [hid, update_self] at hm
    exact hno m hm
  · rw [update_of_ne hid] at hm
    exact h.queue id' m hm

theorem about_same {log more : List Out} (hno : about i more = []) :
    about i (log ++ more) = about i log := by
  rw [about_append, hno, append_nil]

theorem addressed_local :
    Addressed handle i r (passOn handle ⟨⟨r.source, high r.type, r.session.toUInt32⟩, ⟨i, r.bytes⟩⟩) := by
  left
  show Out.local r.source handle (harborOf (high r.type)) r.session.toUInt32.toInt32 _ = _
  rw [harborOf_high, Int32.toInt32_toUInt32]

end Kept

/-- A message that came keeps its place until it leaves. -/
theorem Kept.step {v v' : Queues} {n : Bytes} {i : ℕ} {r : Sent} {e : Event} (h : Kept v n i r)
    (ho : v.InOrder) (hsent : v.sent[i]? = some r) (haddr : r.addr = .name n)
    (hsmall : r.bytes.length + HEADER_COOKIE_LENGTH ≤ UINT32_MAX) (he : e ≠ .move n)
    (hstep : Step v e v') : Kept v' n i r := by
  have hlt : i < v.sent.length := (List.getElem?_eq_some_iff.1 hsent).1
  have hnew : v.sent.length ≠ i := Nat.ne_of_gt hlt
  -- in the queue of another name it is not, nor in the one of a name that is known
  have hwait : ∀ n', n' ≠ n ∨ v.value n ≠ 0 → ∀ m ∈ v.waiting n', m.buffer.ptr ≠ i := by
    rintro n' hn' m hm rfl
    obtain ⟨r', hr', ha, -⟩ := ho.asked n' m hm
    obtain rfl := Option.some.inj (hsent.symm.trans hr')
    have hnn : n' = n := Addr.name.inj (ha.symm.trans haddr)
    rcases hn' with hn' | hv
    · exact hn' hnn
    · rw [hnn, ho.known n hv] at hm
      exact absurd hm not_mem_nil
  cases hstep with
  | @ask r' n' haddr' hknown hvalue =>
    refine h.quiet h.queue rfl rfl rfl fun m hm => ?_
    show m ∈ Function.update v.waiting n' (v.waiting n' ++ [v.asked r']) n
    by_cases hn : n = n'
    · rw [← hn, update_self]
      exact mem_append_left _ hm
    · rwa [update_of_ne hn]
  | @here r' handle ht hknown hown =>
    refine h.quiet h.queue (about_same (about_eq_nil.2 fun o ho' hp => ?_)) rfl rfl fun _ hm => hm
    rw [mem_singleton.1 ho'] at hp
    exact hnew (Option.some.inj hp)
  | @put r' handle ht hknown hremote hready =>
    refine h.quiet (h.update fun m hm => ?_) rfl rfl rfl fun _ hm => hm
    rcases mem_append.1 hm with hm | hm
    · exact h.queue _ m hm
    · rw [mem_singleton.1 hm]
      exact hnew
  | @write r' handle ht hknown hremote hfd hready =>
    refine h.quiet h.queue (about_same ?_) rfl rfl fun _ hm => hm
    rw [about_carried]
    refine about_drain fun m hm => ?_
    rw [mem_singleton.1 hm]
    exact hnew
  | @lose id hfd =>
    refine h.quiet (h.update fun _ hm => absurd hm not_mem_nil) (about_same ?_) rfl rfl
      fun _ hm => hm
    exact about_map (f := fun m => .free m.buffer) (fun _ => rfl) (h.queue id)
  | @dial id fd hfd hne => exact h.quiet h.queue rfl rfl rfl fun _ hm => hm
  | @drain id hfd =>
    refine h.quiet (h.update fun _ hm => absurd hm not_mem_nil) (about_same ?_) rfl rfl
      fun _ hm => hm
    rw [about_carried]
    exact about_drain (h.queue id)
  | @learn n' handle hne hnil =>
    refine h.learned hne h.queue (append_nil _).symm rfl rfl rfl (fun _ => rfl) ?_
    rintro rfl hv
    have hm := (h.waiting hv).2
    rw [hnil] at hm
    exact absurd hm not_mem_nil
  | @learnHere n' handle hne hfd hhome =>
    have hqueue : about i ((v.queue (harborOf handle)).map (passOn handle)) = [] :=
      about_map (fun _ => rfl) (h.queue (harborOf handle))
    refine h.learned hne (h.update fun _ hm => absurd hm not_mem_nil) rfl rfl rfl rfl ?_ ?_
    · intro hn
      rw [map_append, about_append, hqueue]
      exact about_map (fun _ => rfl) (hwait n' hn)
    · rintro rfl hv
      rw [map_append, about_append, hqueue]
      exact ⟨_, addressed_local, .inl
        (about_map_of_mem (fun _ => rfl) (ho.waits n') (h.waiting hv).2)⟩
  | @learnWrite n' handle hne hfd =>
    refine h.learned hne h.queue rfl rfl rfl rfl ?_ ?_
    · intro hn
      rw [about_carried]
      refine about_drain fun m hm => ?_
      obtain ⟨m', hm', rfl⟩ := mem_map.1 hm
      exact hwait n' hn m' hm'
    · rintro rfl hv
      have hwaits : (((v.waiting n').map (merge handle)).map fun m => m.buffer.ptr).Pairwise
          (· < ·) := by
        rw [map_map]
        exact ho.waits n'
      have hm := mem_map_of_mem (f := merge handle) (h.waiting hv).2
      rw [about_carried]
      exact ⟨_, .inr ⟨_, rfl⟩, .inr (about_drain_of_mem hwaits hm hsmall)⟩
  | @learnMove n' handle hne hfd hhome =>
    have hn : n' ≠ n := fun hn => he (hn ▸ rfl)
    refine h.learned hne (h.update fun m hm => ?_) (append_nil _).symm rfl rfl rfl
      (fun _ => rfl) fun hn' => absurd hn' hn
    rcases mem_append.1 hm with hm | hm
    · exact h.queue _ m hm
    · exact hwait n' (.inl hn) m hm

theorem Logged.more {v v' : Queues} {more : List Out} (h : Logged v) (hlog : v'.log = v.log ++ more)
    (hle : v.sent.length ≤ v'.sent.length)
    (hmore : ∀ o ∈ more, ∀ j, o.ptr = some j → j < v'.sent.length) : Logged v' := by
  intro o ho j hj
  rw [hlog] at ho
  rcases mem_append.1 ho with ho | ho
  · exact (h o ho j hj).trans_le hle
  · exact hmore o ho j hj

theorem Logged.step {v v' : Queues} {e : Event} (h : Logged v) (ho : v.InOrder)
    (hstep : Step v e v') : Logged v' := by
  have hqueue : ∀ id, ∀ m ∈ v.queue id, m.buffer.ptr < v.sent.length := fun id m hm =>
    ho.bound id _ (mem_append_right _ (mem_map_of_mem hm))
  have hwait : ∀ n, ∀ m ∈ v.waiting n, m.buffer.ptr < v.sent.length := by
    intro n m hm
    obtain ⟨r, hr, -⟩ := ho.asked n m hm
    exact (List.getElem?_eq_some_iff.1 hr).1
  have hgrown : ∀ r : Sent, v.sent.length < (v.sent ++ [r]).length := fun r => by
    rw [length_append]
    exact Nat.lt_succ_self _
  cases hstep with
  | @ask r n haddr hknown hvalue =>
    exact h.more (append_nil _).symm (hgrown r).le fun o ho' => absurd ho' not_mem_nil
  | @here r handle ht hknown hown =>
    refine h.more rfl (hgrown r).le fun o ho' j hj => ?_
    rw [mem_singleton.1 ho'] at hj
    exact Option.some.inj hj ▸ hgrown r
  | @put r handle ht hknown hremote hready =>
    exact h.more (append_nil _).symm (hgrown r).le fun o ho' => absurd ho' not_mem_nil
  | @write r handle ht hknown hremote hfd hready =>
    refine h.more rfl (hgrown r).le fun o ho' j hj => ?_
    obtain ⟨m, hm, rfl⟩ := ptr_of_mem_drain (mem_of_mem_filter ho') hj
    rw [mem_singleton.1 hm]
    exact hgrown r
  | @lose id hfd =>
    refine h.more rfl le_rfl fun o ho' j hj => ?_
    obtain ⟨m, hm, rfl⟩ := ptr_of_mem_map (fun _ => rfl) ho' hj
    exact hqueue id m hm
  | dial => exact h
  | @drain id hfd =>
    refine h.more rfl le_rfl fun o ho' j hj => ?_
    obtain ⟨m, hm, rfl⟩ := ptr_of_mem_drain (mem_of_mem_filter ho') hj
    exact hqueue id m hm
  | learn => exact h
  | @learnHere n handle hne hfd hhome =>
    refine h.more rfl le_rfl fun o ho' j hj => ?_
    obtain ⟨m, hm, rfl⟩ := ptr_of_mem_map (fun _ => rfl) ho' hj
    rcases mem_append.1 hm with hm | hm
    · exact hqueue _ m hm
    · exact hwait n m hm
  | @learnWrite n handle hne hfd =>
    refine h.more rfl le_rfl fun o ho' j hj => ?_
    obtain ⟨m, hm, rfl⟩ := ptr_of_mem_drain (mem_of_mem_filter ho') hj
    obtain ⟨m', hm', rfl⟩ := mem_map.1 hm
    exact hwait n m' hm'
  | learnMove => exact h

theorem Step.sent {v v' : Queues} {e : Event} (h : Step v e v') :
    v'.sent = v.sent ∨ ∃ r, e = .send r ∧ v'.sent = v.sent ++ [r] := by
  cases h with
  | ask | here | put | write => exact .inr ⟨_, rfl, rfl⟩
  | _ => exact .inl rfl

theorem Kept.start {v v' : Queues} {n : Bytes} {r : Sent} (ho : v.InOrder) (hl : v.Logged)
    (haddr : r.addr = .name n) (hunknown : r.known = false) (hstep : Step v (.send r) v') :
    Kept v' n v.sent.length r := by
  cases hstep with
  | @ask _ n' haddr' hknown hvalue =>
    have hn : n' = n := Addr.name.inj (haddr'.symm.trans haddr)
    subst hn
    refine ⟨fun id m hm hi => ?_, fun _ => ⟨about_eq_nil.2 fun o ho' hp => ?_, ?_⟩,
      fun hv => absurd hvalue hv⟩
    · have hlt := ho.bound id _ (mem_append_right _ (mem_map_of_mem hm))
      exact (hi ▸ hlt).ne rfl
    · exact (hl o ho' _ hp).ne rfl
    · show _ ∈ Function.update v.waiting n' _ n'
      rw [update_self]
      exact mem_append_right _ (mem_singleton.2 rfl)
  | here ht hknown | put ht hknown | write ht hknown =>
    rw [hunknown] at hknown
    cases hknown

/-- What holds of the messages of a name whose queue was never moved. -/
structure Named (v : Queues) (n : Bytes) : Prop where
  order : v.InOrder
  logged : v.Logged
  kept : ∀ i r, v.sent[i]? = some r → r.addr = .name n → r.known = false →
    r.bytes.length + HEADER_COOKIE_LENGTH ≤ UINT32_MAX → Kept v n i r

theorem Named.step {v v' : Queues} {n : Bytes} {e : Event} (h : Named v n) (he : e ≠ .move n)
    (hstep : Step v e v') : Named v' n := by
  refine ⟨h.order.step hstep, h.logged.step h.order hstep, fun i r hr haddr hunknown hsmall => ?_⟩
  have hold : v.sent[i]? = some r → Kept v' n i r := fun hr' =>
    (h.kept i r hr' haddr hunknown hsmall).step h.order hr' haddr hsmall he hstep
  rcases hstep.sent with hsent | ⟨r', rfl, hsent⟩
  · exact hold (hsent ▸ hr)
  · rw [hsent] at hr
    by_cases hlt : i < v.sent.length
    · rw [getElem?_append_left hlt] at hr
      exact hold hr
    · have hlast : i = v.sent.length := by
        have hle := (List.getElem?_eq_some_iff.1 hr).1
        rw [length_append, length_singleton] at hle
        omega
      subst hlast
      rw [getElem?_concat_length] at hr
      obtain rfl := Option.some.inj hr
      exact .start h.order h.logged haddr hunknown hstep

end Queues

def Out.leaves (i : ℕ) : Out → Bool
  | .remote _ _ m => m.buffer.ptr = i
  | .local _ _ _ _ b => b.ptr = i
  | _ => false

/-- The queue of a name, or the one of a harbor. -/
def State.queueOf (h : State) : Bytes ⊕ UInt8 → List HarborMsg
  | .inl n => (h.map n).queue.getD []
  | .inr id => (h.s id).queue.getD []

/-- How often a payload is in a queue. -/
def State.copies (h : State) (place : Bytes ⊕ UInt8) (i : ℕ) : ℕ :=
  (h.queueOf place).countP fun m => m.buffer.ptr = i

/-- What may become of a message to a name: it is in one queue, it left once and for the handle that
made the name known, or it was given up because the harbor is down. -/
inductive Delivery (h : State) (n : Bytes) (i : ℕ) (r : Sent) : Prop
  | waits (place : Bytes ⊕ UInt8) : h.log.filter (Out.leaves i) = [] →
      (∀ b, .free b ∈ h.log → b.ptr ≠ i) → h.copies place i = 1 →
      (∀ place', place' ≠ place → h.copies place' i = 0) → Delivery h n i r
  | left (o : Out) : Queues.Addressed (h.first n) i r o → h.log.filter (Out.leaves i) = [o] →
      (∀ place, h.copies place i = 0) → Delivery h n i r
  | dropped (b : Buffer) : h.log.filter (Out.leaves i) = [] → (∀ place, h.copies place i = 0) →
      b.ptr = i → .free b ∈ h.log → (h.s (harborOf (h.first n))).status = .down → Delivery h n i r

section Names

variable {fails : ℕ → Bool} {own : UInt8} {slave : UInt32} {h : State} {n : Bytes}

instance : ∀ l, Decidable (Moves h n l)
  | .name name source => inferInstanceAs (Decidable (key name = n ∧ (h.map n).queue.isSome ∧
      (h.s (harborOf source)).fd = 0 ∧ harborOf source ≠ harborOf h.slave))
  | .send .. | .connect .. | .data .. | .close .. => isFalse id

end Names

end Harbor

end SkynetGame
