import SkynetGame.Proofs.SocketServer
import Mathlib.Algebra.BigOperators.Group.List.Basic

/-!
# The send backlog (`wb_size`)

Each operation changes `wb_size` by the bytes that it puts into a list or that leave one, and none
where it moves a buffer. `force_close` frees both lists and leaves the count as it is: `new_fd` sets
it to zero for the next socket. Until then the slot keeps the count of the socket before.
-/

namespace SkynetGame

namespace Socket

/-- How many bytes there are in a list. -/
def unsent (l : List WriteBuffer) : ℤ := (l.map fun b => (b.data.length : ℤ)).sum

def backlog (s : Socket) : ℤ := unsent s.high + unsent s.low

def Counted (s : Socket) : Prop := s.wbSize = s.backlog

variable {s t : Socket} {p : Priority} {m : Option SocketMessage} {b : WriteBuffer}
  {l bs : List WriteBuffer} {n : ℕ}

@[simp] theorem unsent_nil : unsent [] = 0 := rfl

@[simp] theorem unsent_cons : unsent (b :: bs) = b.data.length + unsent bs := by
  simp [unsent]

@[simp] theorem unsent_append : unsent (l ++ bs) = unsent l + unsent bs := by
  simp [unsent]

theorem backlog_of_empty (hh : s.high = []) (hl : s.low = []) : s.backlog = 0 := by
  simp [backlog, hh, hl]

theorem backlog_setList : (s.setList p l).backlog = s.backlog - unsent (s.list p) + unsent l := by
  cases p <;> simp only [setList, list, backlog] <;> omega

theorem Counted.pop (h : s.Counted) (hl : s.list p = b :: bs) : (s.pop p b bs).Counted := by
  have hback : (s.pop p b bs).backlog = (s.setList p bs).backlog := rfl
  have hsize : (s.pop p b bs).wbSize = s.wbSize - b.data.length := rfl
  rw [Counted, hback, hsize, backlog_setList, hl, unsent_cons, h]
  omega

theorem Counted.advance (h : s.Counted) (hl : s.list p = b :: bs) (hn : n < b.data.length) :
    (s.advance p n b bs).Counted := by
  have hback : (s.advance p n b bs).backlog =
      (s.setList p ({ b with ptr := b.ptr + n, data := b.data.drop n } :: bs)).backlog := rfl
  have hsize : (s.advance p n b bs).wbSize = s.wbSize - n := rfl
  rw [Counted, hback, hsize, backlog_setList, hl, unsent_cons, unsent_cons, h, List.length_drop]
  omega

theorem Counted.raise (h : s.Counted) (hr : s.raiseUncomplete = some t) : t.Counted := by
  unfold raiseUncomplete at hr
  split at hr
  · cases hr
  rename_i b l hlow
  split_ifs at hr with hhigh
  cases hr
  have hsum : s.wbSize = unsent s.high + unsent s.low := h
  rw [hhigh, hlow, unsent_cons, unsent_nil] at hsum
  show s.wbSize = unsent [b] + unsent l
  rw [unsent_cons, unsent_nil]
  omega

theorem Counted.sendBuffer {ws : List WriteResult} (h : s.Counted)
    (hs : s.sendBuffer ws = some (t, m)) : t.Counted ∧ m = none ∨ t.type = .invalid ∧ m ≠ none :=
  sendBuffer_ends (fun _ _ _ _ h hl => h.pop hl) (fun _ _ _ _ _ h hl hn => h.advance hl hn)
    (fun _ h => h) (fun _ _ h hr => h.raise hr) (fun _ h => h)
    (fun _ _ _ hc => forceClose_type hc) hs h

section Post

variable {soi : SocketObjectInterface} {r : SendRequest soi}

theorem Counted.append (h : s.Counted) : (s.appendSendbuffer p r n).Counted := by
  have hback : (s.appendSendbuffer p r n).backlog = (s.setList p (s.list p ++ [⟨r.buffer,
      (sendObjectInit soi r.buffer r.sz).buffer + n, r.bytes.drop n,
      (sendObjectInit soi r.buffer r.sz).userobject, s.life.accepted.length⟩])).backlog := rfl
  have hsize : (s.appendSendbuffer p r n).wbSize = s.wbSize + (r.bytes.drop n).length := rfl
  rw [Counted, hback, hsize, backlog_setList, unsent_append, unsent_cons, unsent_nil, h]
  dsimp only
  omega

theorem Counted.posted (h : s.Counted) (hp : Posted s p r t m) (ht : t.type ≠ .invalid) :
    t.Counted := by
  cases hp with
  | refused => exact h
  | queued => exact h.append (p := p) (r := r) (n := 0)
  | direct =>
    unfold sendDirect
    simp only
    split_ifs
    · exact h
    · exact Counted.append (s := s.wroteDirect r _) h
  | datagram => exact h
  | delayed => exact h.append (p := p) (r := r) (n := 0)
  | error _ hc => exact absurd (forceClose_type hc) ht

end Post

theorem Counted.closeRest {id : ℤ} {shutdown : Bool} {owner : ℕ} (h : s.Counted)
    (hc : s.closeRest id shutdown owner = some (t, m)) (ht : t.type ≠ .invalid) : t.Counted := by
  unfold Socket.closeRest at hc
  split_ifs at hc
  · obtain ⟨u, hu, heq⟩ := Option.map_eq_some_iff.1 hc
    cases heq
    exact absurd (forceClose_type hu) ht
  · cases hc
    exact h

theorem Counted.closeSocket {id : ℤ} {shutdown : Bool} {owner : ℕ} {ws : List WriteResult}
    (h : s.Counted) (hc : s.closeSocket id shutdown owner ws = some (t, m))
    (ht : t.type ≠ .invalid) : t.Counted := by
  have hasked : (s.askClose shutdown owner).Counted := h
  unfold Socket.closeSocket at hc
  split_ifs at hc
  · cases hc
    exact h
  simp only at hc
  split_ifs at hc
  · exact hasked.closeRest hc ht
  split at hc
  · cases hc
  · rename_i hs
    cases hc
    exact absurd ((hasked.sendBuffer hs).resolve_left fun h => Option.some_ne_none _ h.2).1 ht
  · rename_i hs
    exact ((hasked.sendBuffer hs).resolve_right fun h => h.2 rfl).1.closeRest hc ht

theorem Counted.moved {soi : SocketObjectInterface} (h : s.Counted) (hm : Moved soi s t m)
    (ht : t.type ≠ .invalid) : t.Counted := by
  cases hm with
  | turned hm =>
    cases hm with
    | same => exact h
    | on _ hh hl _ _ _ hw => rw [Counted, hw, backlog, hh, hl]; exact h
    | finished _ _ hc => exact absurd (forceClose_type hc) ht
  | sent _ hs => exact ((h.sendBuffer hs).resolve_right fun h => ht h.1).1
  | posted hp => exact h.posted hp ht
  | closed hc => exact h.closeSocket hc ht

end Socket

namespace SocketServer

open Socket

variable {soi : SocketObjectInterface} {ss : SocketServer soi}

/-- In every run the count of every socket is right, from `new_fd` until it is closed. -/
theorem wbSize_eq_backlog (h : (machine soi).Reachable ss) (i : ℕ)
    (hb : (ss.slot i).life.begun = true) (hi : (ss.slot i).type ≠ .invalid) :
    (ss.slot i).wbSize = (ss.slot i).backlog := by
  refine slots_of_reachable (P := fun s => s.type ≠ .invalid → s.Counted)
    (fun s hh hl _ _ _ hw _ => ?_) (fun s t m asked hs hm _ ht => ?_) h i hb hi
  · rw [Socket.Counted, hw, backlog_of_empty hh hl]
  · obtain ⟨life, hnote⟩ := note_eq t asked s m
    rw [hnote] at ht ⊢
    by_cases hinv : s.type = .invalid
    · exact absurd hinv (hm.eq_of_invalid hinv ▸ ht)
    · have hcounted : t.Counted := (hs hinv).moved hm ht
      exact hcounted

/-- Three bytes to be sent and one that was, of a socket that is connected. -/
theorem wbSize_of_partial : ∃ ss : SocketServer ⟨id, fun _ => 0⟩,
    (ss.slot 1).high.map (fun b => b.data) = [[2, 3], [4]] ∧
      (ss.slot 1).wbSize = (ss.slot 1).backlog := by
  have hl : ((machine ⟨id, fun _ => 0⟩).run (fun _ _ => True) create [
      .connect 7, .poll { opened := .connected 5 .null }, .send ⟨1, 3, 100, [1, 2, 3], rfl⟩,
      .send ⟨1, 1, 200, [4], rfl⟩, .poll { writes := [.wrote 1] }, .poll {}]).map
        (fun ss => ((ss.slot 1).high.map (fun b => b.data), (ss.slot 1).life.begun,
          (ss.slot 1).type)) = some ([[2, 3], [4]], true, .connected) := by
    decide
  obtain ⟨ss, hr, he⟩ := Machine.exists_reach hl
  simp only [Prod.mk.injEq] at he
  refine ⟨ss, he.1, wbSize_eq_backlog hr 1 he.2.1 ?_⟩
  rw [he.2.2]
  decide

section Stale

theorem reserveLoop_of_free {k n : ℕ} (hn : ss.allocId = n) (hlt : n + 1 < 2 ^ 31)
    (hfree : (ss.slot (hashId (n + 1))).type = .invalid) :
    reserveLoop (k + 1) ss = (put { ss with allocId := n + 1 } (hashId (n + 1))
      { ss.slot (hashId (n + 1)) with
        type := .reserve, id := n + 1, fd := -1, life := .new false }, some (n + 1 : ℤ)) := by
  have hinc : atomInc ss.allocId = n + 1 := by
    unfold atomInc
    rw [if_neg (by omega), hn]
  simp only [reserveLoop, hinc]
  rw [if_neg (by omega : ¬ (n : ℤ) + 1 < 0), if_pos hfree]

/-- Nothing is open, and nothing is asked for; the last socket in the first slot was closed with
three bytes to send. -/
structure Stale (n : ℕ) (ss : SocketServer soi) : Prop where
  allocId : ss.allocId = n
  checkctrl : ss.checkctrl = true
  ev : ss.ev = []
  pipe : ss.pipe = []
  free : ∀ i, (ss.slot i).type = .invalid
  high : (ss.slot 1).high = []
  low : (ss.slot 1).low = []
  wbSize : (ss.slot 1).wbSize = 3

theorem Stale.connect {n : ℕ} (h : Stale n ss) (hlt : n + 1 < 2 ^ 31) :
    ∃ ss₁ : SocketServer soi, ss.step (.connect 7) = some ss₁ ∧ ss₁.allocId = n + 1 ∧
      ss₁.checkctrl = true ∧ ss₁.ev = [] ∧ ss₁.pipe = [.O (n + 1) 7] ∧
      ss₁.slot = Function.update ss.slot (hashId (n + 1)) { ss.slot (hashId (n + 1)) with
        type := .reserve, id := n + 1, fd := -1, life := .new false } := by
  have hreserve : ss.reserveId = _ := reserveLoop_of_free (k := 65535) h.allocId hlt (h.free _)
  refine ⟨_, rfl, ?_⟩
  rw [openRequest, hreserve]
  exact ⟨rfl, h.checkctrl, h.ev, by simp [put, h.pipe], rfl⟩

theorem poll_failed {id : ℤ} {owner : ℕ} (hc : ss.checkctrl = true) (he : ss.ev = [])
    (hp : ss.pipe = [.O id owner]) : ∃ life, ss.poll { opened := .failed "" } =
      some (put { ss with pipe := [] } (hashId id)
        { ss.slot (hashId id) with type := .invalid, life := life }) := by
  obtain ⟨life, hnote⟩ := note_eq { ss.slot (hashId id) with type := .invalid, life := .new false }
    true (ss.slot (hashId id)) (some ⟨.socketError, id, owner, 0, .text ""⟩)
  refine ⟨life, ?_⟩
  simp only [poll, hc, hp, ctrlCmd, openSocket]
  simp [note, giveUp, put, clearClosedEvent, clearClosedEvent.clear, he, hnote]

theorem Stale.next {n : ℕ} (h : Stale n ss) (hlt : n + 1 < 2 ^ 31)
    (hr : (machine soi).Reachable ss) :
    ∃ ss' : SocketServer soi, (machine soi).Reachable ss' ∧ Stale (n + 1) ss' := by
  obtain ⟨ss₁, hconnect, hid, hctrl, hev, hpipe, hslot⟩ := h.connect hlt
  obtain ⟨life, hpoll⟩ := poll_failed hctrl hev hpipe
  obtain ⟨ss₂, hss₂⟩ : ∃ ss₂ : SocketServer soi, ss₂ = put { ss₁ with pipe := [] } (hashId (n + 1))
      { ss₁.slot (hashId (n + 1)) with type := .invalid, life := life } := ⟨_, rfl⟩
  rw [← hss₂] at hpoll
  have hsame : ∀ i, (ss₂.slot i).type = .invalid ∧ (ss₂.slot i).high = (ss.slot i).high ∧
      (ss₂.slot i).low = (ss.slot i).low ∧ (ss₂.slot i).wbSize = (ss.slot i).wbSize := by
    intro i
    by_cases hi : i = hashId (n + 1)
    · rw [hss₂, hi, put_slot_self, hslot, Function.update_self]
      exact ⟨rfl, rfl, rfl, rfl⟩
    · have hother : ss₁.slot i = ss.slot i := by rw [hslot, Function.update_of_ne hi]
      simp only [hss₂, put_slot_ne hi, hother, and_self, and_true]
      exact h.free i
  have hr₁ : (machine soi).Reachable ss₁ := hr.step (i := .connect 7) trivial hconnect
  refine ⟨ss₂, hr₁.step (i := .poll { opened := .failed "" }) trivial hpoll, ?_, ?_, ?_, ?_, fun i => (hsame i).1,
    (hsame 1).2.1.trans h.high, (hsame 1).2.2.1.trans h.low, (hsame 1).2.2.2.trans h.wbSize⟩
  · rw [hss₂, Nat.cast_add, Nat.cast_one]
    exact hid
  · rw [hss₂]
    exact hctrl
  · rw [hss₂]
    exact hev
  · rw [hss₂]
    rfl

/-- Three bytes are to be sent when the socket is shut down. -/
def shutDown : List (SocketLabel ⟨id, fun _ => 0⟩) := [
  .connect 7, .poll { opened := .connected 5 .null }, .send ⟨1, 3, 100, [1, 2, 3], rfl⟩,
  .poll { writes := [.again] }, .shutdown 1 7, .poll { writes := [.again] }]

theorem type_shutDown : ∀ i, ((machine ⟨id, fun _ => 0⟩).run (fun _ _ => True) create shutDown).map
    (fun ss => (ss.slot i).type) = some .invalid
  | 0 => by decide
  | 1 => by decide
  | _ + 2 => rfl

theorem exists_stale : ∀ n : ℕ, n + 1 < 2 ^ 31 →
    ∃ ss : SocketServer ⟨id, fun _ => 0⟩, (machine _).Reachable ss ∧ Stale (n + 1) ss
  | 0, _ => by
    have hl : ((machine ⟨id, fun _ => 0⟩).run (fun _ _ => True) create shutDown).map
        (fun ss => ((ss.allocId, ss.checkctrl, ss.ev.length, ss.pipe.length), (ss.slot 1).high,
          (ss.slot 1).low, (ss.slot 1).wbSize)) = some ((1, true, 0, 0), [], [], 3) := by
      decide
    obtain ⟨ss, hs, he⟩ := Option.map_eq_some_iff.1 hl
    simp only [Prod.mk.injEq] at he
    obtain ⟨⟨hid, hctrl, hev, hpipe⟩, hhigh, hlow, hw⟩ := he
    refine ⟨ss, Machine.reach_of_run hs, hid, hctrl, List.length_eq_zero_iff.1 hev,
      List.length_eq_zero_iff.1 hpipe, fun i => ?_, hhigh, hlow, hw⟩
    have htype := type_shutDown i
    rw [hs] at htype
    exact Option.some.inj htype
  | n + 1, hn => by
    obtain ⟨ss, hr, hs⟩ := exists_stale n (Nat.lt_of_succ_lt hn)
    exact hs.next hn hr

/-- Where an id is reserved, the slot may still have the count of the socket that was closed there. -/
theorem exists_reserved_stale : ∃ ss : SocketServer ⟨id, fun _ => 0⟩, (machine _).Reachable ss ∧
    (ss.slot 1).type = .reserve ∧ (ss.slot 1).id = 65537 ∧ (ss.slot 1).backlog = 0 ∧
      (ss.slot 1).wbSize = 3 := by
  obtain ⟨ss, hr, h⟩ := exists_stale 65535 (by decide)
  obtain ⟨ss₁, hconnect, -, -, -, -, hslot⟩ := h.connect (by decide)
  refine ⟨ss₁, hr.step (i := .connect 7) trivial hconnect, ?_⟩
  have hid : hashId ((65535 + 1 : ℕ) + 1) = 1 := by decide
  rw [hslot, hid, Function.update_self]
  exact ⟨rfl, rfl, backlog_of_empty h.high h.low, h.wbSize⟩

end Stale

end SocketServer

end SkynetGame
