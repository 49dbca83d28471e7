import SkynetGame.HarborMemory
import SkynetGame.Proofs.HarborDown

/-!
# The buffers of the harbor service are freed, except in two cases

A slave has a `recv_buffer` as long as its status is `STATUS_CONTENT` (`Books`), and every buffer is
in one place of the ledger. What `push_socket_data` reads keeps that. The buffer of a message for an
invalid fd is freed twice, and a `recv_buffer` is lost with a connection that is closed inside a
frame: `fd` stays, so nothing takes the slave again.
-/

namespace SkynetGame

open List Option

namespace Harbor

namespace Memory

variable {fails : ℕ → Bool} {id : UInt8} {m m' : Memory} {buffer : Bytes}

section Refines

theorem pushContent_h (m : Memory) : Harbor.pushContent fails id buffer m.h =
    ((pushContent fails id buffer m).1.h, (pushContent fails id buffer m).2) := by
  unfold Harbor.pushContent pushContent
  simp only []
  split_ifs <;> rfl

theorem pushHeader_h (m : Memory) : Harbor.pushHeader fails id buffer m.h =
    ((pushHeader fails id buffer m).1.h, (pushHeader fails id buffer m).2) := by
  unfold Harbor.pushHeader pushHeader
  simp only []
  split_ifs
  · rfl
  · rfl
  · rfl
  · exact pushContent_h { m with frames := _, h := _ }

theorem pushHandshake_h (m : Memory) : Harbor.pushHandshake fails id buffer m.h =
    ((pushHandshake fails id buffer m).1.h, (pushHandshake fails id buffer m).2) := by
  unfold Harbor.pushHandshake pushHandshake
  cases buffer with
  | nil => rfl
  | cons b buffer =>
    simp only []
    split_ifs
    · rfl
    · rfl
    · exact pushHeader_h { m with h := _ }

theorem pushLoop_h : ∀ (fuel : ℕ) (buffer : Bytes) (m : Memory),
    Harbor.pushLoop fails id fuel buffer m.h = (pushLoop fails id fuel buffer m).h
  | 0, _, _ => rfl
  | fuel + 1, buffer, m => by
    unfold Harbor.pushLoop pushLoop
    cases hst : (m.h.s id).status with
    | wait => rfl
    | down => rfl
    | handshake =>
      simp only [pushHandshake_h]
      rcases pushHandshake fails id buffer m with ⟨m', more⟩
      cases more with
      | none => rfl
      | some more => exact pushLoop_h fuel more m'
    | header =>
      simp only [pushHeader_h]
      rcases pushHeader fails id buffer m with ⟨m', more⟩
      cases more with
      | none => rfl
      | some more => exact pushLoop_h fuel more m'
    | content =>
      simp only [pushContent_h]
      rcases pushContent fails id buffer m with ⟨m', more⟩
      cases more with
      | none => rfl
      | some more => exact pushLoop_h fuel more m'

theorem pushSocketData_h (fd : ℤ) (m : Memory) :
    Harbor.pushSocketData fails fd buffer m.h = (pushSocketData fails fd buffer m).h := by
  unfold Harbor.pushSocketData pushSocketData
  cases m.h.harborId fd with
  | none => rfl
  | some id => exact pushLoop_h ..

theorem step_h {l : Label} (hstep : step fails m l = some m') :
    Harbor.step fails m.h l = some m'.h := by
  unfold step at hstep
  cases l with
  | data fd buffer =>
    simp only [] at hstep
    split_ifs at hstep with hbad
    rw [← some.inj hstep]
    unfold Harbor.step
    simp only []
    rw [if_neg hbad]
    exact congrArg some (pushSocketData_h fd { m with msgs := m.msgs + 1 })
  | close fd =>
    simp only [] at hstep
    split_ifs at hstep with hbad
    rw [← some.inj hstep]
    unfold Harbor.step
    simp only []
    rw [if_neg hbad]
    rfl
  | send | name | connect =>
    obtain ⟨h, hh, rfl⟩ := map_eq_some_iff.1 hstep
    exact hh

end Refines

section Books

/-- A slave has a `recv_buffer` as long as it reads a body. -/
structure Books (m : Memory) : Prop where
  balanced : m.frames.Balanced
  content : ∀ id, (m.frames.held id).isSome ↔ (m.h.s id).status = .content

/-- What `push_socket_data` leaves of the rest. -/
structure Parsed (m m' : Memory) : Prop where
  books : Books m'
  msgs : m'.msgs = m.msgs
  freed : m'.freed = m.freed
  torn : m'.torn = m.torn

theorem Parsed.trans {m'' : Memory} (h₁ : Parsed m m') (h₂ : Parsed m' m'') : Parsed m m'' :=
  ⟨h₂.books, h₂.msgs.trans h₁.msgs, h₂.freed.trans h₁.freed, h₂.torn.trans h₁.torn⟩

theorem Books.held_none (hb : Books m) (hst : (m.h.s id).status ≠ .content) :
    m.frames.held id = none :=
  not_isSome_iff_eq_none.1 fun h => hst ((hb.content id).1 h)

theorem Books.of_status (hb : Books m) {h : State}
    (hs : ∀ id, (h.s id).status = .content ↔ (m.h.s id).status = .content) :
    Parsed m { m with h := h } :=
  ⟨⟨hb.balanced, fun id => (hb.content id).trans (hs id).symm⟩, rfl, rfl, rfl⟩

theorem Books.idle (hb : Books m) {h : State} (hst : (m.h.s id).status ≠ .content)
    (hst' : (h.s id).status ≠ .content) (hne : ∀ id', id' ≠ id → h.s id' = m.h.s id') :
    Parsed m { m with h := h } := by
  refine hb.of_status fun id' => ?_
  by_cases heq : id' = id
  · rw [heq]
    exact iff_of_false hst' hst
  · rw [hne id' heq]

theorem Books.more (hb : Books m) (part : Bytes) :
    Parsed m { m with h := m.h.setSlave id { m.h.s id with part := part } } := by
  refine hb.of_status fun id' => ?_
  by_cases heq : id' = id
  · rw [heq, setSlave_self]
  · rw [setSlave_of_ne _ _ _ heq]

theorem Books.issue (hb : Books m) (hst : (m.h.s id).status ≠ .content) {sl : Slave}
    (hsl : sl.status = .content) :
    Parsed m { m with h := m.h.setSlave id sl, frames := m.frames.issue id } := by
  refine ⟨⟨hb.balanced.issue (hb.held_none hst), fun id' => ?_⟩, rfl, rfl, rfl⟩
  by_cases heq : id' = id
  · rw [heq, setSlave_self, Ledger.issue_held_self]
    exact iff_of_true rfl hsl
  · rw [setSlave_of_ne _ _ _ heq, Ledger.issue_held_of_ne heq]
    exact hb.content id'

theorem Books.spend (hb : Books m) {h : State} {sl : Slave} (hs : h.s = m.h.s)
    (hsl : sl.status ≠ .content) :
    Parsed m { m with h := h.setSlave id sl, frames := m.frames.spend id } := by
  refine ⟨⟨hb.balanced.spend id, fun id' => ?_⟩, rfl, rfl, rfl⟩
  by_cases heq : id' = id
  · rw [heq, setSlave_self, Ledger.spend_held_self]
    exact iff_of_false (by rintro ⟨⟩) hsl
  · rw [setSlave_of_ne _ _ _ heq, Ledger.spend_held_of_ne heq, hs]
    exact hb.content id'

theorem pushContent_parsed (hb : Books m) : Parsed m (pushContent fails id buffer m).1 := by
  unfold pushContent
  simp only []
  split
  · exact hb.more _
  · rw [forwardLocalMessage_eq]
    exact hb.spend rfl (by rintro ⟨⟩)

theorem pushHeader_parsed (hb : Books m) (hst : (m.h.s id).status = .header) :
    Parsed m (pushHeader fails id buffer m).1 := by
  have hidle : (m.h.s id).status ≠ .content := by
    rw [hst]
    rintro ⟨⟩
  unfold pushHeader
  simp only []
  split
  · exact hb.more _
  split
  · refine hb.idle hidle ?_ fun id' hne => ?_
    · rw [closeHarbor_status]
      rintro ⟨⟩
    · rw [closeHarbor_of_ne hne, setSlave_of_ne _ _ _ hne]
  -- the header is complete
  · generalize Endian.ofBe _ = length
    have hissue : Parsed m { m with
        h := m.h.setSlave id { m.h.s id with length := length, part := [], status := .content }
        frames := m.frames.issue id } := hb.issue hidle rfl
    split
    · exact hissue
    · exact hissue.trans (pushContent_parsed hissue.books)

theorem pushHandshake_parsed (hb : Books m) (hst : (m.h.s id).status = .handshake) :
    Parsed m (pushHandshake fails id buffer m).1 := by
  have hidle : (m.h.s id).status ≠ .content := by
    rw [hst]
    rintro ⟨⟩
  unfold pushHandshake
  cases buffer with
  | nil => exact ⟨hb, rfl, rfl, rfl⟩
  | cons b buffer =>
    simp only []
    split
    · refine hb.idle hidle ?_ fun id' hne => closeHarbor_of_ne hne _
      rw [closeHarbor_status]
      rintro ⟨⟩
    · generalize hh : dispatchQueue id _ = h
      have hstatus : (h.s id).status = .header := by
        rw [← hh, dispatchQueue_s, setSlave_self]
      have hidle' : (h.s id).status ≠ .content := by
        rw [hstatus]
        rintro ⟨⟩
      have hgo : Parsed m { m with h := h } := hb.idle hidle hidle' fun id' hne => by
        rw [← hh, dispatchQueue_eq, emit_s, setSlave_of_ne _ _ _ hne, setSlave_of_ne _ _ _ hne]
      split
      · exact hgo
      · exact hgo.trans (pushHeader_parsed hgo.books hstatus)

theorem pushLoop_parsed : ∀ (fuel : ℕ) (buffer : Bytes) {m : Memory}, Books m →
    Parsed m (pushLoop fails id fuel buffer m)
  | 0, _, _, hb => ⟨hb, rfl, rfl, rfl⟩
  | fuel + 1, buffer, m, hb => by
    unfold pushLoop
    cases hst : (m.h.s id).status with
    | wait => exact ⟨hb, rfl, rfl, rfl⟩
    | down => exact ⟨hb, rfl, rfl, rfl⟩
    | handshake =>
      have hround : Parsed m (pushHandshake fails id buffer m).1 := pushHandshake_parsed hb hst
      simp only []
      cases (pushHandshake fails id buffer m).2 with
      | none => exact hround
      | some more => exact hround.trans (pushLoop_parsed fuel more hround.books)
    | header =>
      have hround : Parsed m (pushHeader fails id buffer m).1 := pushHeader_parsed hb hst
      simp only []
      cases (pushHeader fails id buffer m).2 with
      | none => exact hround
      | some more => exact hround.trans (pushLoop_parsed fuel more hround.books)
    | content =>
      have hround : Parsed m (pushContent fails id buffer m).1 := pushContent_parsed hb
      simp only []
      cases (pushContent fails id buffer m).2 with
      | none => exact hround
      | some more => exact hround.trans (pushLoop_parsed fuel more hround.books)

end Books

section Released

/-- The buffer of every message was freed once. A `recv_buffer` went to `skynet_send` once, or it is
the one of a slave, on whose connection the rest of the frame can come. -/
structure Released (m : Memory) : Prop where
  messages : ∀ n < m.msgs, m.freed.count n = 1
  frames : ∀ p < m.frames.issued,
    m.frames.spent.count p = 1 ∧ (∀ id, m.frames.held id ≠ some p) ∨
      p ∉ m.frames.spent ∧ p ∉ m.torn ∧ ∃! id, m.frames.held id = some p

structure Tidy (m : Memory) : Prop where
  sound : Sound m.h
  books : Books m
  freed : m.freed = List.range m.msgs
  torn : m.torn = []

theorem Tidy.released (ht : Tidy m) : Released m := by
  refine ⟨fun n hn => ?_, fun p hp => ?_⟩
  · rw [ht.freed]
    exact count_eq_one_of_mem nodup_range (mem_range.2 hn)
  · rcases ht.books.balanced.place hp with h | ⟨hp, h⟩
    · exact .inl h
    · refine .inr ⟨hp, ?_, h⟩
      rw [ht.torn]
      exact not_mem_nil

theorem Tidy.data {fd : ℤ} (ht : Tidy m) (hid : m.h.harborId fd = some id)
    (hs : Sound (pushSocketData fails fd buffer { m with msgs := m.msgs + 1 }).h) :
    Tidy (pushSocketData fails fd buffer { m with msgs := m.msgs + 1 }).freeMessage := by
  have hparsed : Parsed { m with msgs := m.msgs + 1 }
      (pushSocketData fails fd buffer { m with msgs := m.msgs + 1 }) := by
    unfold pushSocketData
    simp only [hid]
    exact pushLoop_parsed _ _ ⟨ht.books.balanced, ht.books.content⟩
  refine ⟨hs, ⟨hparsed.books.balanced, hparsed.books.content⟩, ?_, hparsed.torn.trans ht.torn⟩
  show _ ++ [_] = List.range (pushSocketData fails fd buffer _).msgs
  rw [hparsed.freed, hparsed.msgs]
  show m.freed ++ [m.msgs] = _
  rw [ht.freed, range_succ]

theorem socketClose_s (fd : ℤ) (h : State) : (Harbor.socketClose fd h).s = h.s := by
  unfold Harbor.socketClose
  cases h.harborId fd <;> rfl

theorem held_closed {fd : ℤ} (ht : Tidy m) :
    (m.h.harborId fd).bind m.frames.held = none ↔ m.Tame (.close fd) := by
  show _ ↔ ∀ id ∈ m.h.harborId fd, (m.h.s id).status ≠ .content
  rw [bind_eq_none_iff]
  refine forall_congr' fun id => forall_congr' fun _ => ?_
  rw [← not_isSome_iff_eq_none, ht.books.content id]

theorem Tidy.of_s {h : State} (ht : Tidy m) (hs : Sound h)
    (hst : ∀ id, (h.s id).status = .content ↔ (m.h.s id).status = .content) :
    Tidy { m with h := h } :=
  ⟨hs, (ht.books.of_status hst).books, ht.freed, ht.torn⟩

theorem connect_content (hs : Sound m.h) (accept : Bool) (fd n : ℤ) (id : UInt8) :
    ((connect accept fd n m.h).s id).status = .content ↔ (m.h.s id).status = .content := by
  unfold connect
  split
  next => exact .rfl
  next =>
    simp only []
    split
    next => exact .rfl
    next hfd =>
      have hwait : (m.h.s (UInt8.ofNat n.toNat)).status = .wait :=
        ((hs _).fresh (not_not.1 hfd)).1
      by_cases hid : id = UInt8.ofNat n.toNat
      · rw [hid, hwait]
        refine iff_of_false ?_ (by rintro ⟨⟩)
        split
        · rw [dispatchQueue_s, setSlave_self]
          rintro ⟨⟩
        · rw [setSlave_self]
          rintro ⟨⟩
      · split
        · rw [dispatchQueue_eq, emit_s, setSlave_of_ne _ _ _ hid, setSlave_of_ne _ _ _ hid]
          rfl
        · rw [setSlave_of_ne _ _ _ hid]
          rfl

theorem QueuesOnly.content {h h' : State} (hq : QueuesOnly h h') (id : UInt8) :
    (h'.s id).status = .content ↔ (h.s id).status = .content := by
  obtain ⟨q, hq⟩ := hq.slaves id
  rw [hq]

theorem Tidy.step {l : Label} (ht : Tidy m) (htame : m.Tame l) (hstep : step fails m l = some m') :
    Tidy m' := by
  have hsound : Sound m'.h := ht.sound.step (step_h hstep)
  unfold Memory.step at hstep
  cases l with
  | data fd buffer =>
    simp only [] at hstep
    split_ifs at hstep
    obtain ⟨id, hid⟩ := isSome_iff_exists.1 htame
    rw [← some.inj hstep] at hsound ⊢
    exact ht.data hid hsound
  | close fd =>
    simp only [] at hstep
    split_ifs at hstep
    rw [← some.inj hstep] at hsound ⊢
    refine ⟨hsound, ⟨ht.books.balanced, fun id => ?_⟩, ht.freed, ?_⟩
    · show _ ↔ ((Harbor.socketClose fd m.h).s id).status = _
      rw [socketClose_s]
      exact ht.books.content id
    · show m.torn ++ _ = []
      rw [ht.torn, (held_closed ht).2 htame]
      rfl
  | send source addr type session bytes =>
    obtain ⟨h, hh, rfl⟩ := map_eq_some_iff.1 hstep
    refine ht.of_s hsound ?_
    unfold Harbor.step at hh
    simp only [] at hh
    split_ifs at hh
    rw [← some.inj hh]
    exact QueuesOnly.content (send_queuesOnly ..)
  | name name source =>
    obtain ⟨h, hh, rfl⟩ := map_eq_some_iff.1 hstep
    refine ht.of_s hsound ?_
    unfold Harbor.step at hh
    simp only [] at hh
    split_ifs at hh <;> rw [← some.inj hh]
    · exact fun _ => .rfl
    · exact QueuesOnly.content (updateName_queuesOnly ..)
  | connect accept fd n =>
    obtain ⟨h, hh, rfl⟩ := map_eq_some_iff.1 hstep
    refine ht.of_s hsound ?_
    rw [← some.inj hh]
    exact connect_content ht.sound accept fd n

theorem tidy_of_reach {own : UInt8} {slave : UInt32} (hr : (machine fails own slave).Reach Tame m) :
    Tidy m := by
  have hinit : (Harbor.machine fails own slave).Reachable (init own slave).h := Machine.Reach.init
  refine hr.invariant (I := Tidy) ⟨sound_of_reachable hinit, ⟨.empty, fun id => ?_⟩, rfl, rfl⟩
    fun m l m' ht htame hstep => ht.step htame hstep
  exact iff_of_false (by rintro ⟨⟩) (by rintro ⟨⟩)

theorem reachable_h {own : UInt8} {slave : UInt32} {ok : Memory → Label → Prop}
    (hr : (machine fails own slave).Reach ok m) :
    (Harbor.machine fails own slave).Reachable m.h := by
  have hinit : (Harbor.machine fails own slave).Reachable (init own slave).h := Machine.Reach.init
  refine hr.invariant (I := fun m => (Harbor.machine fails own slave).Reachable m.h) hinit ?_
  intro m l m' h _ hstep
  exact Machine.Reach.step h trivial (step_h hstep)

theorem not_released_data {fd : ℤ} (hid : m.h.harborId fd = none) :
    ¬ Released (pushSocketData fails fd buffer { m with msgs := m.msgs + 1 }).freeMessage := by
  intro hr
  have heq : pushSocketData fails fd buffer { m with msgs := m.msgs + 1 } =
      freeMessage { m with msgs := m.msgs + 1 } := by
    unfold pushSocketData
    simp only [hid]
  rw [heq] at hr
  have hcount : (m.freed ++ [m.msgs] ++ [m.msgs]).count m.msgs = 1 :=
    hr.messages m.msgs (Nat.lt_succ_self _)
  rw [count_append, count_append, count_singleton_self] at hcount
  omega

theorem not_released_close {fd : ℤ} (ht : Tidy m) (htame : ¬ m.Tame (.close fd)) :
    ¬ Released (m.socketClose fd) := by
  intro hr
  obtain ⟨p, hp⟩ := ne_none_iff_exists'.1 fun h => htame ((held_closed ht).1 h)
  obtain ⟨id, -, hheld⟩ := bind_eq_some_iff.1 hp
  have htorn : p ∈ (m.socketClose fd).torn := by
    refine mem_append_right _ ?_
    rw [hp]
    exact mem_singleton_self p
  rcases hr.frames p (ht.books.balanced.issued_held hheld) with ⟨-, hnone⟩ | ⟨-, hnot, -⟩
  · exact hnone id hheld
  · exact hnot htorn

/-- As long as every message is for a connection that is known, and none is closed inside a frame,
every buffer is freed or handed on once; and with the first one that is not, some buffer is not. -/
theorem released_iff_of_reach {own : UInt8} {slave : UInt32}
    (hr : (machine fails own slave).Reach Tame m) :
    (Harbor.machine fails own slave).Reachable m.h ∧ Released m ∧
      ∀ l m', step fails m l = some m' → (Released m' ↔ m.Tame l) := by
  have ht := tidy_of_reach hr
  refine ⟨reachable_h hr, ht.released, fun l m' hstep =>
    ⟨fun hrel => ?_, fun htame => (ht.step htame hstep).released⟩⟩
  unfold step at hstep
  cases l with
  | data fd buffer =>
    simp only [] at hstep
    split_ifs at hstep
    rw [← Option.some.inj hstep] at hrel
    show (m.h.harborId fd).isSome
    cases hid : m.h.harborId fd with
    | none => exact absurd hrel (not_released_data hid)
    | some id => rfl
  | close fd =>
    simp only [] at hstep
    split_ifs at hstep
    rw [← Option.some.inj hstep] at hrel
    by_contra htame
    exact not_released_close ht htame hrel
  | send | name | connect => exact trivial

/-- A frame and a half, and then the rest. -/
theorem released_frames : ∃ m, (machine (fun _ => false) 1 0x1000001).Reach Tame m ∧
    Released m ∧ m.msgs = 2 ∧ m.frames.spent = [0, 1] := by
  have hl : ((machine (fun _ => false) 1 0x1000001).run Tame (init 1 0x1000001)
      [.connect true 5 2, .data 5 [0, 0, 0, 2, 7, 7, 0, 0, 0, 2, 8], .data 5 [8]]).map (fun m =>
        (m.msgs, m.frames.spent)) = some (2, [0, 1]) := by
    decide
  obtain ⟨m, hr, he⟩ := Machine.exists_reach hl
  obtain ⟨hmsgs, hspent⟩ := Prod.mk.inj he
  exact ⟨m, hr, (released_iff_of_reach hr).2.1, hmsgs, hspent⟩

/-- Data for an fd that no harbor has, and a connection that is closed inside a frame. -/
theorem not_released_socket :
    (∃ m, (machine (fun _ => false) 1 0x1000001).Reachable m ∧ ¬ Released m ∧
      m.freed = [0, 0]) ∧
    ∃ m, (machine (fun _ => false) 1 0x1000001).Reachable m ∧ ¬ Released m ∧ m.torn = [0] := by
  constructor
  · have hl : ((machine (fun _ => false) 1 0x1000001).run (fun _ _ => True) (init 1 0x1000001)
        [.data 7 [1]]).map (fun m => (m.msgs, m.freed)) = some (1, [0, 0]) := by
      decide
    obtain ⟨m, hreach, he⟩ := Machine.exists_reach hl
    obtain ⟨hmsgs, hfreed⟩ := Prod.mk.inj he
    refine ⟨m, hreach, fun hr => ?_, hfreed⟩
    have hcount := hr.messages 0 (hmsgs ▸ Nat.zero_lt_one)
    rw [hfreed] at hcount
    revert hcount
    decide
  · have hl : ((machine (fun _ => false) 1 0x1000001).run (fun _ _ => True) (init 1 0x1000001)
        [.connect true 5 2, .data 5 [0, 0, 0, 3, 1], .close 5]).map (fun m =>
          (m.frames.issued, m.frames.spent, m.torn)) = some (1, [], [0]) := by
      decide
    obtain ⟨m, hreach, he⟩ := Machine.exists_reach hl
    obtain ⟨hissued, he⟩ := Prod.mk.inj he
    obtain ⟨hspent, htorn⟩ := Prod.mk.inj he
    refine ⟨m, hreach, fun hr => ?_, htorn⟩
    rcases hr.frames 0 (hissued ▸ Nat.zero_lt_one) with ⟨hcount, -⟩ | ⟨-, hnot, -⟩
    · rw [hspent] at hcount
      revert hcount
      decide
    · rw [htorn] at hnot
      exact hnot (List.mem_singleton_self 0)

end Released

end Memory

end Harbor

end SkynetGame
