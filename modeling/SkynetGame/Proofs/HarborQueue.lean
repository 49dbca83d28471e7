import SkynetGame.Lib.Ring
import SkynetGame.Harbor

/-!
# The ring is a queue

What the ring has is the list of the messages that wait, of which it has one less than slots. It is
full before it overflows: with 2^30 slots, the messages that wait can be no more.
-/

namespace SkynetGame

namespace Harbor

namespace HarborMsgQueue

variable {queue : HarborMsgQueue} {m : HarborMsg}

/-- The messages that wait, the first to leave in front. -/
def waiting (queue : HarborMsgQueue) : List HarborMsg :=
  ringList queue.data queue.size queue.head queue.tail

/-- The indices are in the ring, which was doubled some times. -/
structure Sound (queue : HarborMsgQueue) : Prop where
  head : queue.head < queue.size
  tail : queue.tail < queue.size
  size : ∃ k ≤ 20, queue.size = 2 ^ (10 + k)

theorem sound_newQueue (memory : ℕ → HarborMsg) : (newQueue memory).Sound :=
  ⟨Nat.zero_lt_succ _, Nat.zero_lt_succ _, 0, Nat.zero_le _, rfl⟩

theorem Sound.length_lt (h : queue.Sound) : queue.waiting.length < queue.size := by
  rw [waiting, length_ringList]
  exact ringLen_lt h.head h.tail

theorem Sound.put (h : queue.Sound) (hroom : (queue.tail + 1) % queue.size ≠ queue.head) :
    (queue.put m).Sound ∧ (queue.put m).waiting = queue.waiting ++ [m] := by
  have hnext := ringNext_eq_mod h.tail
  refine ⟨⟨h.head, Nat.mod_lt _ (Nat.zero_lt_of_lt h.tail), h.size⟩, ?_⟩
  rw [waiting, HarborMsgQueue.put]
  dsimp only
  rw [← hnext]
  exact ringList_write queue.data m h.head h.tail fun heq => hroom (hnext ▸ heq.symm)

theorem Sound.full_iff (h : queue.Sound) : (queue.tail + 1) % queue.size = queue.head ↔
    queue.waiting.length + 1 = queue.size := by
  rw [waiting, length_ringList, ← ringNext_eq_mod h.tail]
  refine ⟨fun hfull => ringLen_full h.head h.tail hfull.symm, fun hlen => ?_⟩
  by_contra hne
  have hlt := ringLen_lt h.head (ringNext_lt (Nat.zero_lt_of_lt h.head) queue.tail)
  rw [ringLen_next h.head h.tail (Ne.symm hne)] at hlt
  omega

theorem Sound.expand (h : queue.Sound) (memory : ℕ → HarborMsg) (hfull : (queue.tail + 1) % queue.size = queue.head)
    (hint : queue.size * 2 ≤ INT_MAX) : (queue.expand memory).Sound ∧
      (queue.expand memory).waiting = queue.waiting ∧
      ((queue.expand memory).tail + 1) % (queue.expand memory).size ≠ (queue.expand memory).head := by
  have hpos : 0 < queue.size := Nat.zero_lt_of_lt h.head
  have hlen := h.full_iff.1 hfull
  obtain ⟨k, hk, hsize⟩ := h.size
  refine ⟨⟨?_, ?_, k + 1, ?_, ?_⟩, ?_, ?_⟩
  · show 0 < queue.size * 2
    omega
  · show queue.size - 1 < queue.size * 2
    omega
  · rcases Nat.lt_or_ge k 20 with hlt | hge
    · exact hlt
    · rw [hsize, show k = 20 by omega] at hint
      exact absurd hint (by decide)
  · show queue.size * 2 = 2 ^ (10 + (k + 1))
    rw [hsize, ← Nat.add_assoc, Nat.pow_succ]
  · have hn : ringLen queue.size queue.head queue.tail = queue.size - 1 := by
      rw [waiting, length_ringList] at hlen
      omega
    have hseg : queue.waiting = ringSeg queue.data queue.size queue.head (queue.size - 1) := by
      rw [waiting, ringList, hn]
    rw [hseg]
    refine ringList_lay (by show queue.size - 1 < queue.size * 2; omega) fun i hi => ?_
    show (if i < queue.size - 1 then _ else _) = _
    rw [if_pos (by exact hi), Nat.add_comm]
  · show (queue.size - 1 + 1) % (queue.size * 2) ≠ 0
    rw [Nat.sub_add_cancel hpos, Nat.mod_eq_of_lt (by omega)]
    exact Nat.ne_of_gt hpos

theorem Sound.push (h : queue.Sound) (memory : ℕ → HarborMsg) {buffer : Buffer} {header : RemoteMessageHeader} :
    (queue.waiting.length + 1 < 2 ^ 30 → ∃ queue', queue.pushQueue memory buffer header = some queue' ∧
      queue'.Sound ∧ queue'.waiting = queue.waiting ++ [⟨header, buffer⟩]) ∧
    (2 ^ 30 ≤ queue.waiting.length + 1 → queue.pushQueue memory buffer header = none) := by
  obtain ⟨k, hk, hsize⟩ := h.size
  have hmax : queue.size ≤ 2 ^ 30 := hsize ▸ Nat.pow_le_pow_right (by decide) (by omega)
  have hlen := h.length_lt
  unfold pushQueue pushQueueMsg
  by_cases hfull : (queue.tail + 1) % queue.size = queue.head
  · have hwait := h.full_iff.1 hfull
    rw [if_pos hfull]
    constructor
    · intro hlt
      have hint : queue.size * 2 ≤ INT_MAX := by
        rcases Nat.lt_or_ge k 20 with hk' | hk'
        · have : queue.size ≤ 2 ^ 29 := hsize ▸ Nat.pow_le_pow_right (by decide) (by omega)
          show queue.size * 2 ≤ 0x7fffffff
          omega
        · rw [show k = 20 by omega] at hsize
          omega
      obtain ⟨hs, hw, hroom⟩ := h.expand memory hfull hint
      rw [if_neg (Nat.not_lt.2 hint), ← hw]
      exact ⟨_, rfl, hs.put hroom⟩
    · intro hge
      have hint : INT_MAX < queue.size * 2 := by
        show 0x7fffffff < queue.size * 2
        omega
      rw [if_pos hint]
  · rw [if_neg hfull]
    have hne := mt h.full_iff.2 hfull
    exact ⟨fun _ => ⟨_, rfl, h.put hfull⟩, fun hge => by omega⟩

theorem Sound.pop (h : queue.Sound) : queue.popQueue.1 = queue.waiting.head? ∧
    queue.popQueue.2.Sound ∧ queue.popQueue.2.waiting = queue.waiting.tail := by
  unfold popQueue
  by_cases hempty : queue.head = queue.tail
  · have hnil : queue.waiting = [] := (ringList_eq_nil h.head queue.data).2 hempty
    rw [if_pos hempty, hnil]
    exact ⟨rfl, h, rfl⟩
  · have hread := ringList_read queue.data h.head h.tail hempty
    rw [ringNext_eq_mod h.head] at hread
    rw [if_neg hempty, waiting, hread]
    exact ⟨rfl, ⟨Nat.mod_lt _ (Nat.zero_lt_of_lt h.head), h.tail, h.size⟩, rfl⟩

end HarborMsgQueue

/-- What the calls of `pop_queue` are to return, where the messages of the list wait. -/
def fifo : List HarborMsg → List QueueOp → List (Option HarborMsg)
  | _, [] => []
  | waiting, .push buffer header _ :: ops => fifo (waiting ++ [⟨header, buffer⟩]) ops
  | waiting, .pop :: ops => waiting.head? :: fifo waiting.tail ops

/-- Where so many messages wait, no call of `push_queue` comes when 2^30 - 1 of them do. -/
def Roomy : ℕ → List QueueOp → Prop
  | _, [] => True
  | waiting, .push .. :: ops => waiting + 1 < 2 ^ 30 ∧ Roomy (waiting + 1) ops
  | waiting, .pop :: ops => Roomy (waiting - 1) ops

namespace HarborMsgQueue

theorem Sound.pops_eq : ∀ {ops : List QueueOp} {queue : HarborMsgQueue}, queue.Sound →
    Roomy queue.waiting.length ops → queue.pops ops = some (fifo queue.waiting ops)
  | [], _, _, _ => rfl
  | .push buffer header memory :: ops, queue, h, hr => by
    obtain ⟨queue', hpush, hs, hw⟩ := (h.push memory).1 hr.1
    have hr' : Roomy queue'.waiting.length ops := by
      rw [hw, List.length_append, List.length_singleton]
      exact hr.2
    rw [pops, hpush, fifo, ← hw]
    exact hs.pops_eq hr'
  | .pop :: ops, queue, h, hr => by
    obtain ⟨hhead, hs, hw⟩ := h.pop
    have hr' : Roomy queue.popQueue.2.waiting.length ops := by
      rw [hw, List.length_tail]
      exact hr
    rw [pops, hs.pops_eq hr', hhead, hw]
    rfl

theorem Sound.pops_eq_none : ∀ {ops : List QueueOp} {queue : HarborMsgQueue}, queue.Sound →
    ¬ Roomy queue.waiting.length ops → queue.pops ops = none
  | [], _, _, hr => absurd trivial hr
  | .push buffer header memory :: ops, queue, h, hr => by
    rw [pops]
    rcases Nat.lt_or_ge (queue.waiting.length + 1) (2 ^ 30) with hlt | hge
    · obtain ⟨queue', hpush, hs, hw⟩ := (h.push memory).1 hlt
      have hr' : ¬ Roomy queue'.waiting.length ops := fun hr' => by
        rw [hw, List.length_append, List.length_singleton] at hr'
        exact hr ⟨hlt, hr'⟩
      rw [hpush]
      exact hs.pops_eq_none hr'
    · rw [(h.push memory).2 hge]
      rfl
  | .pop :: ops, queue, h, hr => by
    obtain ⟨-, hs, hw⟩ := h.pop
    have hr' : ¬ Roomy queue.popQueue.2.waiting.length ops := by
      rw [hw, List.length_tail]
      exact hr
    rw [pops, hs.pops_eq_none hr']
    rfl

end HarborMsgQueue

/-- From a new queue the pops return the messages in the order in which they were pushed, each once,
and NULL where none is left, if and only if 2^30 - 1 messages never wait when one more is pushed. -/
theorem pops_newQueue_iff (memory : ℕ → HarborMsg) (ops : List QueueOp) :
    (newQueue memory).pops ops = some (fifo [] ops) ↔ Roomy 0 ops := by
  have hs := HarborMsgQueue.sound_newQueue memory
  refine ⟨fun h => ?_, fun hr => hs.pops_eq hr⟩
  by_contra hr
  rw [hs.pops_eq_none hr] at h
  cases h

theorem not_roomy_replicate (op : QueueOp) (hop : ∃ b hd mem, op = .push b hd mem) :
    ∀ {n k : ℕ}, 2 ^ 30 ≤ n + k → 0 < k → ¬ Roomy n (List.replicate k op)
  | n, k + 1, h, _ => fun hr => by
    obtain ⟨b, hd, mem, rfl⟩ := hop
    rw [List.replicate_succ] at hr
    have hlt : n + 1 < 2 ^ 30 := hr.1
    rcases Nat.eq_zero_or_pos k with rfl | hpos
    · omega
    · exact not_roomy_replicate _ ⟨b, hd, mem, rfl⟩ (by omega) hpos hr.2

/-- The push number 2^30, of messages that all wait, overflows the size of the ring. -/
theorem pops_overflow : (newQueue fun _ => ⟨⟨0, 0, 0⟩, ⟨0, []⟩⟩).pops
    (List.replicate (2 ^ 30) (.push ⟨0, []⟩ ⟨0, 0, 0⟩ fun _ => ⟨⟨0, 0, 0⟩, ⟨0, []⟩⟩)) = none :=
  (HarborMsgQueue.sound_newQueue _).pops_eq_none
    (not_roomy_replicate _ ⟨_, _, _, rfl⟩ (by omega) (by omega))

end Harbor

end SkynetGame
