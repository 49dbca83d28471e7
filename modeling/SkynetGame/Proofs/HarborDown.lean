import SkynetGame.Proofs.Harbor

/-!
# The harbor that is down

`fd` stays what it was when a connection is closed, by `close_harbor` as well as by a message of the
socket. `remote_send_handle` answers with a `PTYPE_ERROR` only where it is zero.
-/

namespace SkynetGame

namespace Harbor

variable {fails : ℕ → Bool} {id : UInt8} {h h' : State}

section Sound

/-- A slave can receive, and has an fd unless nothing happened to it. -/
structure SlaveOk (sl : Slave) (closed : Bool) : Prop where
  receiving : Receiving sl
  fresh : sl.fd = 0 → sl.status = .wait ∧ sl.part = [] ∧ closed = false

def Sound (h : State) : Prop := ∀ id, SlaveOk (h.s id) (h.closed id)

structure QueuesOnly (h h' : State) : Prop where
  slaves : ∀ id, ∃ q, h'.s id = { h.s id with queue := q }
  closed : h'.closed = h.closed

theorem QueuesOnly.refl (h : State) : QueuesOnly h h := ⟨fun id => ⟨(h.s id).queue, rfl⟩, rfl⟩

theorem QueuesOnly.trans {h'' : State} (h₁ : QueuesOnly h h') (h₂ : QueuesOnly h' h'') :
    QueuesOnly h h'' := by
  refine ⟨fun id => ?_, h₂.closed.trans h₁.closed⟩
  obtain ⟨q, hq⟩ := h₁.slaves id
  obtain ⟨q', hq'⟩ := h₂.slaves id
  exact ⟨q', by rw [hq', hq]⟩

theorem QueuesOnly.of_s (hs : h'.s = h.s) (hc : h'.closed = h.closed) : QueuesOnly h h' :=
  ⟨fun id => ⟨(h.s id).queue, by rw [hs]⟩, hc⟩

theorem QueuesOnly.of_update {q : Option (List HarborMsg)}
    (hs : h'.s = Function.update h.s id { h.s id with queue := q }) (hc : h'.closed = h.closed) :
    QueuesOnly h h' := by
  refine ⟨fun id' => ?_, hc⟩
  rw [hs]
  by_cases hne : id' = id
  · subst hne
    exact ⟨q, Function.update_self ..⟩
  · exact ⟨(h.s id').queue, Function.update_of_ne hne ..⟩

theorem Sound.queues (hs : Sound h) (hq : QueuesOnly h h') : Sound h' := by
  intro id
  obtain ⟨q, hq'⟩ := hq.slaves id
  rw [hq', hq.closed]
  exact ⟨⟨(hs id).receiving.handshake, (hs id).receiving.header, (hs id).receiving.content⟩,
    (hs id).fresh⟩

theorem Sound.setSlave (hs : Sound h) {sl : Slave} (hok : SlaveOk sl (h.closed id)) :
    Sound (h.setSlave id sl) := by
  intro id'
  by_cases hne : id' = id
  · subst hne
    rw [setSlave_self]
    exact hok
  · rw [setSlave_of_ne h id sl hne]
    exact hs id'

theorem dispatchQueue_queuesOnly (h : State) : QueuesOnly h (dispatchQueue id h) := by
  rw [dispatchQueue_eq]
  exact .of_update rfl rfl

theorem eat_closed_of_ne {id' : UInt8} (hne : id' ≠ id) (h : State) (b : UInt8) :
    (eat fails id h b).closed id' = h.closed id' := by
  have hclose : ∀ h : State, (closeHarbor id h).closed id' = h.closed id' := fun h =>
    Function.update_of_ne hne ..
  have hheader : ∀ h : State, (eatHeader id h b).closed id' = h.closed id' := by
    intro h
    unfold eatHeader
    simp only []
    split_ifs
    · rfl
    · exact hclose _
    · rfl
  cases hst : (h.s id).status with
  | wait => rw [eat_idle (.inl hst)]
  | down => rw [eat_idle (.inr hst)]
  | handshake =>
    rw [eat_handshake hst]
    split_ifs
    · exact hclose h
    · rw [dispatchQueue_eq]
      rfl
  | header => rw [eat_header hst, hheader]
  | content =>
    rw [eat_content hst]
    split_ifs
    · exact hheader _
    · rfl
    · rfl

theorem Sound.eat (hs : Sound h) (hfd : (h.s id).fd ≠ 0) (b : UInt8) :
    Sound (eat fails id h b) := by
  intro id'
  by_cases hne : id' = id
  · subst hne
    refine ⟨eat_receiving (hs id').receiving b, fun hz => ?_⟩
    rw [eat_fd] at hz
    exact absurd hz hfd
  · rw [eat_of_ne hne, eat_closed_of_ne hne]
    exact hs id'

theorem harborId_fd {fd : ℤ} (hid : h.harborId fd = some id) : (h.s id).fd = fd := by
  simpa using List.find?_some hid

theorem pushSocketData_cases (hs : Sound h) {fd : ℤ} {buffer : Bytes} (hne : buffer ≠ []) :
    pushSocketData fails fd buffer h = h ∨ ∃ id, (h.s id).fd = fd ∧
      pushSocketData fails fd buffer h = buffer.foldl (eat fails id) h := by
  cases hid : h.harborId fd with
  | none =>
    left
    rw [pushSocketData, hid]
  | some id => exact .inr ⟨id, harborId_fd hid, pushSocketData_eq hid (hs id).receiving hne⟩

theorem dispatchNameQueue_queuesOnly (name : Bytes) (queue : List HarborMsg) (h : State) :
    QueuesOnly h (dispatchNameQueue name queue h) := by
  unfold dispatchNameQueue
  simp only []
  by_cases hfd : (h.s (harborOf (h.map name).value)).fd = 0
  · rw [if_pos hfd]
    by_cases hdown : (h.s (harborOf (h.map name).value)).status = .down
    · rw [if_pos hdown]
      exact .refl h
    · rw [if_neg hdown]
      generalize (if (h.s (harborOf (h.map name).value)).queue.isNone then none else some []) = q
      split
      · exact .of_update rfl rfl
      · exact .of_update rfl rfl
  · rw [if_neg hfd]
    exact .of_s rfl rfl

theorem updateName_queuesOnly (name : Bytes) (handle : UInt32) (h : State) :
    QueuesOnly h (updateName name handle h) := by
  have hlearn : QueuesOnly h (learn name handle h) := .of_s rfl rfl
  cases hq : (h.map name).queue with
  | none =>
    rw [updateName_none hq]
    exact hlearn
  | some queue =>
    rw [updateName_some hq]
    have hd := hlearn.trans (dispatchNameQueue_queuesOnly name queue (learn name handle h))
    exact ⟨hd.slaves, hd.closed⟩

theorem remoteSendHandle_queuesOnly (source destination : UInt32) (type : UInt8) (session : Int32)
    (buffer : Buffer) (h : State) :
    QueuesOnly h (remoteSendHandle source destination type session buffer h).1 := by
  unfold remoteSendHandle
  simp only []
  split_ifs
  · exact .of_s rfl rfl
  · exact .of_s rfl rfl
  · exact .of_update rfl rfl
  · exact .of_s rfl rfl

theorem send_queuesOnly (source : UInt32) (addr : Addr) (type : UInt8) (session : Int32)
    (bytes : Bytes) (h : State) : QueuesOnly h (send source addr type session bytes h) := by
  have hsent : ∀ r, QueuesOnly h { h with sent := h.sent ++ [r] } := fun _ => .of_s rfl rfl
  have hhandle : ∀ r d, QueuesOnly h (remoteSendHandle source d type session ⟨h.sent.length, bytes⟩
      { h with sent := h.sent ++ [r] }).1 := fun r d =>
    (hsent r).trans (remoteSendHandle_queuesOnly ..)
  unfold send
  cases addr with
  | handle destination =>
    simp only []
    split_ifs
    · exact hhandle _ _
    · exact ⟨(hhandle _ _).slaves, (hhandle _ _).closed⟩
  | name name =>
    have hname : QueuesOnly h (remoteSendName source name type session ⟨h.sent.length, bytes⟩
        { h with sent := h.sent ++ [⟨source, .name name, type, session, bytes,
          h.knows (.name name)⟩] }).1 := by
      unfold remoteSendName
      simp only []
      split
      · exact .of_s rfl rfl
      · exact hhandle _ _
    simp only []
    split_ifs
    · exact hname
    · exact ⟨hname.slaves, hname.closed⟩

theorem Sound.connect (hs : Sound h) (accept : Bool) (fd id : ℤ) : Sound (connect accept fd id h) := by
  unfold Harbor.connect
  split
  next => exact hs
  next hbad =>
    have hne : fd ≠ 0 := fun hz => hbad (.inl hz)
    simp only []
    split
    next => exact hs
    next hfd =>
      obtain ⟨-, hpart, -⟩ := (hs (UInt8.ofNat id.toNat)).fresh (not_not.1 hfd)
      split
      · refine Sound.queues (Sound.setSlave (h := h.emit _) hs ⟨?_, fun hz => absurd hz hne⟩)
          (dispatchQueue_queuesOnly _)
        refine receiving_header rfl ?_
        show (h.s (UInt8.ofNat id.toNat)).part.length < 4
        rw [hpart]
        exact Nat.zero_lt_succ _
      · refine Sound.setSlave (h := h.emit _) hs ⟨?_, fun hz => absurd hz hne⟩
        exact ⟨fun _ => hpart, (by rintro ⟨⟩), (by rintro ⟨⟩)⟩

theorem Sound.socketClose {fd : ℤ} (hs : Sound h) (hfd : fd ≠ 0) : Sound (socketClose fd h) := by
  unfold Harbor.socketClose
  cases hid : h.harborId fd with
  | none => exact hs
  | some id =>
    intro id'
    refine ⟨(hs id').receiving, fun hz => ?_⟩
    have hne : id' ≠ id := by
      rintro rfl
      exact hfd ((harborId_fd hid).symm.trans hz)
    obtain ⟨hst, hpart, hclosed⟩ := (hs id').fresh hz
    exact ⟨hst, hpart, (Function.update_of_ne hne ..).trans hclosed⟩

theorem Sound.step {l : Label} (hs : Sound h) (hstep : step fails h l = some h') : Sound h' := by
  unfold Harbor.step at hstep
  cases l with
  | send source addr type session bytes =>
    simp only [] at hstep
    split_ifs at hstep
    rw [← Option.some.inj hstep]
    exact hs.queues (send_queuesOnly ..)
  | name name source =>
    simp only [] at hstep
    split_ifs at hstep <;> rw [← Option.some.inj hstep]
    · exact hs
    · exact hs.queues (updateName_queuesOnly ..)
  | connect accept fd id =>
    rw [← Option.some.inj hstep]
    exact hs.connect accept fd id
  | data fd buffer =>
    simp only [] at hstep
    split_ifs at hstep with hbad
    rw [not_or] at hbad
    rw [← Option.some.inj hstep]
    have hcases : pushSocketData fails fd buffer h = h ∨ _ := pushSocketData_cases hs hbad.2
    rcases hcases with heq | ⟨id, hfd, heq⟩
    · rwa [heq]
    · rw [heq]
      refine (foldl_eat_invariant (I := fun h' => Sound h' ∧ (h'.s id).fd = fd) ?_ ⟨hs, hfd⟩).1
      rintro h' b ⟨hs', hfd'⟩
      exact ⟨hs'.eat (hfd' ▸ hbad.1) b, (eat_fd h' b id).trans hfd'⟩
  | close fd =>
    simp only [] at hstep
    split_ifs at hstep with hfd
    rw [← Option.some.inj hstep]
    exact hs.socketClose hfd

theorem sound_of_reachable {own : UInt8} {slave : UInt32}
    (hr : (machine fails own slave).Reachable h) : Sound h := by
  refine hr.invariant (I := Sound) (fun id => ⟨⟨?_, ?_, ?_⟩, fun _ => ⟨rfl, rfl, rfl⟩⟩)
    fun _ _ _ hs _ hstep => hs.step hstep
  all_goals rintro ⟨⟩

end Sound

section Down

/-- The handle a message is for, zero for a name that is not known. -/
def State.resolve (h : State) : Addr → UInt32
  | .handle handle => handle
  | .name n => (h.map n).value

/-- Between two states the source of a message was sent a `PTYPE_ERROR`. -/
def Answered (h h' : State) (source : UInt32) : Prop :=
  ∃ destination session, .error destination source session ∈ h'.log.drop h.log.length

theorem not_answered_of_append {outs : List Out} {source : UInt32} (hlog : h'.log = h.log ++ outs)
    (hno : ∀ o ∈ outs, ∀ d s session, o ≠ .error d s session) : ¬ Answered h h' source := by
  rintro ⟨d, session, hmem⟩
  rw [hlog, List.drop_left] at hmem
  exact hno _ hmem d source session rfl

theorem remoteSendHandle_fd {source destination : UInt32} {type : UInt8} {session : Int32}
    {buffer : Buffer} (hid : harborOf destination ≠ h.id)
    (hfd : (h.s (harborOf destination)).fd ≠ 0) : ∃ outs,
      (remoteSendHandle source destination type session buffer h).1.log = h.log ++ outs ∧
        ∀ o ∈ outs, ∀ d s session, o ≠ .error d s session := by
  unfold remoteSendHandle
  simp only []
  rw [if_neg hid]
  split
  next hwait =>
    have hst : ¬ (h.s (harborOf destination)).status = .down := by
      rcases hwait with hz | hst
      · exact absurd hz hfd
      · rw [hst]
        decide
    rw [if_neg hst]
    exact ⟨[], (List.append_nil _).symm, fun o ho => absurd ho List.not_mem_nil⟩
  next =>
    refine ⟨_, rfl, fun o ho d s session => ?_⟩
    unfold sendRemote at ho
    split_ifs at ho <;> rw [List.mem_singleton.1 ho] <;> rintro ⟨⟩

/-- A message for a harbor whose connection was closed is not answered. -/
theorem not_answered_of_closed {own : UInt8} {slave : UInt32} {source : UInt32} {addr : Addr}
    {type : UInt8} {session : Int32} {bytes : Bytes} (hr : (machine fails own slave).Reachable h)
    (hremote : id ≠ h.id) (hclosed : h.closed id = true) (hknown : h.resolve addr ≠ 0)
    (hid : harborOf (h.resolve addr) = id)
    (hstep : step fails h (.send source addr type session bytes) = some h') :
    ¬ Answered h h' source := by
  have hfd : (h.s id).fd ≠ 0 := by
    intro hz
    have hopen := ((sound_of_reachable hr id).fresh hz).2.2
    rw [hclosed] at hopen
    cases hopen
  have hsend : ∀ (r : Sent) (buffer : Buffer), ∃ outs,
      (remoteSendHandle source (h.resolve addr) type session buffer
        { h with sent := h.sent ++ [r] }).1.log = h.log ++ outs ∧
          ∀ o ∈ outs, ∀ d s session, o ≠ .error d s session := fun r buffer =>
    remoteSendHandle_fd (hid ▸ hremote) (hid ▸ hfd)
  unfold Harbor.step at hstep
  simp only [] at hstep
  split_ifs at hstep
  rw [← Option.some.inj hstep]
  -- the payload may be freed behind what was done
  have hfree : ∀ {h₁ : State} {b : Bool} {buffer : Buffer},
      (∃ outs, h₁.log = h.log ++ outs ∧ ∀ o ∈ outs, ∀ d s session, o ≠ .error d s session) →
      ¬ Answered h (if b then h₁ else h₁.emit [.free buffer]) source := by
    rintro h₁ b buffer ⟨outs, hlog, hno⟩
    cases b with
    | true => exact not_answered_of_append hlog hno
    | false =>
      have hlog' : (h₁.emit [.free buffer]).log = h.log ++ (outs ++ [.free buffer]) := by
        show h₁.log ++ [.free buffer] = _
        rw [hlog, List.append_assoc]
      refine not_answered_of_append hlog' fun o ho d s session => ?_
      · rcases List.mem_append.1 ho with ho | ho
        · exact hno o ho d s session
        · rw [List.mem_singleton.1 ho]
          rintro ⟨⟩
  cases addr with
  | handle destination => exact hfree (hsend _ _)
  | name name =>
    have hvalue : (h.map name).value ≠ 0 := hknown
    refine hfree ?_
    unfold remoteSendName
    simp only []
    rw [if_neg hvalue]
    exact hsend _ _

/-- A length that is too long, and a message by handle after it. -/
theorem not_answered_of_bad_length : ∃ h h',
    (machine (fun _ => false) 1 0x1000001).Reachable h ∧ h.closed 2 = true ∧
      step (fun _ => false) h (.send 0x1000008 (.handle 0x2000007) 10 3 [1]) = some h' ∧
      ¬ Answered h h' 0x1000008 := by
  have hl : ((machine (fun _ => false) 1 0x1000001).run (fun _ _ => True) (init 1 0x1000001)
      [.connect true 5 2, .data 5 [1, 0, 0, 0]]).map (fun h => (h.closed 2, h.id)) =
        some (true, 1) := by
    decide
  obtain ⟨h, hr, he⟩ := Machine.exists_reach hl
  obtain ⟨hclosed, hown⟩ := Prod.mk.inj he
  have hremote : (2 : UInt8) ≠ h.id := by
    rw [hown]
    decide
  have hknown : h.resolve (.handle 0x2000007) ≠ 0 := by
    show (0x2000007 : UInt32) ≠ 0
    decide
  have hid : harborOf (h.resolve (.handle 0x2000007)) = 2 := by
    show harborOf 0x2000007 = 2
    decide
  have hstep : step (fun _ => false) h (.send 0x1000008 (.handle 0x2000007) 10 3 [1]) =
      some (send 0x1000008 (.handle 0x2000007) 10 3 [1] h) := rfl
  exact ⟨h, _, hr, hclosed, hstep, not_answered_of_closed hr hremote hclosed hknown hid hstep⟩

/-- After the peer closed the connection a message is written to the fd. -/
theorem written_after_close : ∃ h h', (machine (fun _ => false) 1 0x1000001).Reachable h ∧
    h.closed 2 = true ∧
    step (fun _ => false) h (.send 0x1000008 (.handle 0x2000007) 10 3 [1]) = some h' ∧
    ¬ Answered h h' 0x1000008 ∧
    h'.log.drop h.log.length =
      [.remote 2 5 ⟨⟨0x1000008, 0xa000007, 3⟩, ⟨0, [1]⟩⟩, .free ⟨0, [1]⟩] := by
  have hl : ((machine (fun _ => false) 1 0x1000001).run (fun _ _ => True) (init 1 0x1000001)
      [.connect true 5 2, .close 5]).bind (fun h =>
        (step (fun _ => false) h (.send 0x1000008 (.handle 0x2000007) 10 3 [1])).map fun h' =>
          (h.closed 2, h'.log.drop h.log.length)) =
        some (true, [.remote 2 5 ⟨⟨0x1000008, 0xa000007, 3⟩, ⟨0, [1]⟩⟩, .free ⟨0, [1]⟩]) := by
    decide
  obtain ⟨h, hs, he⟩ := Option.bind_eq_some_iff.1 hl
  obtain ⟨h', hstep, he⟩ := Option.map_eq_some_iff.1 he
  obtain ⟨hclosed, hlog⟩ := Prod.mk.inj he
  refine ⟨h, h', Machine.reach_of_run hs, hclosed, hstep, ?_, hlog⟩
  rintro ⟨d, session, hmem⟩
  rw [hlog] at hmem
  simp at hmem

end Down

end Harbor

end SkynetGame
