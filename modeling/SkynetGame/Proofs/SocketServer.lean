import SkynetGame.SocketServer

/-!
# What the operations on a socket do

`send_list` takes whole buffers off the head of a list one after the other, so what each of these
keeps is kept up to where it stops (`sendList_cases`).
-/

namespace SkynetGame

open Option

namespace Socket

variable {s s' : Socket} {p : Priority} {m : Option SocketMessage} {ws ws' : List WriteResult}

/-- The end of `force_close`. -/
def shut (s : Socket) : Socket :=
  { s with
    high := []
    low := []
    polled := if s.type ≠ .paccept ∧ s.type ≠ .plisten then false else s.polled
    type := .invalid }

@[simp] theorem shut_type : s.shut.type = .invalid := rfl

@[simp] theorem shut_life : s.shut.life = s.life := rfl

@[simp] theorem shut_id : s.shut.id = s.id := rfl

@[simp] theorem shut_owner : s.shut.owner = s.owner := rfl

theorem forceClose_cases (h : s.forceClose = some s') :
    s.type = .invalid ∧ s' = s ∨ s.type ≠ .invalid ∧ s' = s.shut := by
  unfold forceClose at h
  by_cases hi : s.type = .invalid
  · rw [if_pos hi] at h
    exact .inl ⟨hi, (some.inj h).symm⟩
  by_cases hr : s.type = .reserve
  · rw [if_neg hi, if_pos hr] at h
    cases h
  · rw [if_neg hi, if_neg hr] at h
    exact .inr ⟨hi, (some.inj h).symm⟩

theorem forceClose_type (h : s.forceClose = some s') : s'.type = .invalid := by
  obtain ⟨hi, rfl⟩ | ⟨-, rfl⟩ := forceClose_cases h
  · exact hi
  · rfl

@[simp] theorem forceClose_life (h : s.forceClose = some s') : s'.life = s.life := by
  obtain ⟨-, rfl⟩ | ⟨-, rfl⟩ := forceClose_cases h <;> rfl

theorem forceClose_id (h : s.forceClose = some s') : s'.id = s.id := by
  obtain ⟨-, rfl⟩ | ⟨-, rfl⟩ := forceClose_cases h <;> rfl

theorem forceClose_owner (h : s.forceClose = some s') : s'.owner = s.owner := by
  obtain ⟨-, rfl⟩ | ⟨-, rfl⟩ := forceClose_cases h <;> rfl

structure Kept (s t : Socket) : Prop where
  type : t.type = s.type
  id : t.id = s.id
  owner : t.owner = s.owner
  life : t.life = { s.life with written := t.life.written, failed := t.life.failed }

theorem Kept.refl (s : Socket) : Kept s s := ⟨rfl, rfl, rfl, rfl⟩

theorem Kept.trans {t u : Socket} (h : Kept s t) (h' : Kept t u) : Kept s u :=
  ⟨h'.type.trans h.type, h'.id.trans h.id, h'.owner.trans h.owner, by rw [h'.life, h.life]⟩

theorem sendBufferEmpty_iff : s.sendBufferEmpty = true ↔ s.high = [] ∧ s.low = [] := by
  simp [sendBufferEmpty]

/-- Where `send_list` stops: in front of a buffer or at the end of the list, inside a buffer of a
TCP socket, at an error of `write`, or at one of `sendto`, which is passed over. -/
inductive Stop (t : Socket) (p : Priority) : Socket → Option SocketMessage → Prop
  | whole : Stop t p t none
  | inside {n : ℕ} {b : WriteBuffer} {bs : List WriteBuffer} (hl : t.list p = b :: bs)
      (hn : n < b.data.length) (htcp : t.protocol = .tcp) : Stop t p (t.advance p n b bs) none
  | error {s' : Socket} (hc : t.writeFailed.forceClose = some s') :
      Stop t p s' (some (t.result .socketClose .null))
  | passed (hudp : t.protocol ≠ .tcp) : Stop t p t.writeFailed none

@[simp] theorem setList_protocol {l : List WriteBuffer} :
    (s.setList p l).protocol = s.protocol := by cases p <;> rfl

theorem kept_pop {b : WriteBuffer} {bs : List WriteBuffer} : Kept s (s.pop p b bs) := by
  cases p <;> exact ⟨rfl, rfl, rfl, rfl⟩

theorem kept_advance {n : ℕ} {b : WriteBuffer} {bs : List WriteBuffer} :
    Kept s (s.advance p n b bs) := by
  cases p <;> exact ⟨rfl, rfl, rfl, rfl⟩

theorem kept_writeFailed : Kept s s.writeFailed := ⟨rfl, rfl, rfl, rfl⟩

theorem kept_raiseUncomplete (h : s.raiseUncomplete = some s') : Kept s s' := by
  unfold raiseUncomplete at h
  split at h
  · cases h
  · split_ifs at h
    cases h
    exact ⟨rfl, rfl, rfl, rfl⟩

theorem sendListTcp_cases {J : Socket → Prop}
    (hpop : ∀ t b bs, J t → t.list p = b :: bs → J (t.pop p b bs)) :
    ∀ (ws : List WriteResult) {s : Socket}, s.protocol = .tcp →
      s.sendListTcp p ws = some (s', m, ws') → J s → ∃ t, J t ∧ Stop t p s' m
  | [], s, _, h, hJ => by
    simp only [sendListTcp] at h
    split_ifs at h
    cases h
    exact ⟨_, hJ, .whole⟩
  | w :: ws, s, htcp, h, hJ => by
    simp only [sendListTcp] at h
    rcases hl : s.list p with _ | ⟨b, bs⟩
    · rw [hl] at h
      cases h
      exact ⟨_, hJ, .whole⟩
    simp only [hl] at h
    cases w with
    | intr => exact sendListTcp_cases hpop ws htcp h hJ
    | again =>
      cases h
      exact ⟨_, hJ, .whole⟩
    | error =>
      obtain ⟨t, ht, h⟩ := map_eq_some_iff.1 h
      cases h
      exact ⟨s, hJ, .error ht⟩
    | wrote n =>
      simp only at h
      split_ifs at h with hlt hne
      · cases h
        exact ⟨s, hJ, .inside hl (by omega) htcp⟩
      · exact sendListTcp_cases hpop ws (by simpa [pop] using htcp) h (hpop s b bs hJ hl)

theorem sendListUdp_cases {J : Socket → Prop}
    (hpop : ∀ t b bs, J t → t.list p = b :: bs → J (t.pop p b bs)) :
    ∀ (ws : List WriteResult) {s : Socket}, s.protocol ≠ .tcp →
      s.sendListUdp p ws = some (s', m, ws') → J s → ∃ t, J t ∧ Stop t p s' m
  | [], s, _, h, hJ => by
    simp only [sendListUdp] at h
    split_ifs at h
    cases h
    exact ⟨_, hJ, .whole⟩
  | w :: ws, s, hudp, h, hJ => by
    simp only [sendListUdp] at h
    rcases hl : s.list p with _ | ⟨b, bs⟩
    · rw [hl] at h
      cases h
      exact ⟨_, hJ, .whole⟩
    simp only [hl] at h
    cases w with
    | intr =>
      cases h
      exact ⟨_, hJ, .whole⟩
    | again =>
      cases h
      exact ⟨_, hJ, .whole⟩
    | error =>
      cases h
      exact ⟨_, hJ, .passed hudp⟩
    | wrote n => exact sendListUdp_cases hpop ws (by simpa [pop] using hudp) h (hpop s b bs hJ hl)

theorem sendList_cases {J : Socket → Prop}
    (hpop : ∀ t b bs, J t → t.list p = b :: bs → J (t.pop p b bs))
    (h : s.sendList p ws = some (s', m, ws')) (hJ : J s) : ∃ t, J t ∧ Stop t p s' m := by
  simp only [sendList] at h
  split_ifs at h with htcp
  · exact sendListTcp_cases hpop ws htcp h hJ
  · exact sendListUdp_cases hpop ws htcp h hJ

theorem sendBuffer_ends {J K : Socket → Prop}
    (hpop : ∀ t p b bs, J t → t.list p = b :: bs → J (t.pop p b bs))
    (hadvance : ∀ t p n b bs, J t → t.list p = b :: bs → n < b.data.length →
      J (t.advance p n b bs)) (hfail : ∀ t, J t → J t.writeFailed)
    (hraise : ∀ t u, J t → t.raiseUncomplete = some u → J u)
    (hoff : ∀ t, J t → J { t with writing := false })
    (hclose : ∀ t u, J t → t.forceClose = some u → K u)
    (h : s.sendBuffer ws = some (s', m)) (hJ : J s) : J s' ∧ m = none ∨ K s' ∧ m ≠ none := by
  have hlist {p : Priority} {s s' : Socket} {m : Option SocketMessage} {ws ws' : List WriteResult}
      (h : s.sendList p ws = some (s', m, ws')) (hJ : J s) : J s' ∧ m = none ∨ K s' ∧ m ≠ none := by
    obtain ⟨t, hJ, hstop⟩ := sendList_cases (fun t b bs => hpop t p b bs) h hJ
    cases hstop with
    | whole => exact .inl ⟨hJ, rfl⟩
    | inside hl hn => exact .inl ⟨hadvance _ _ _ _ _ hJ hl hn, rfl⟩
    | error hc => exact .inr ⟨hclose _ _ (hfail _ hJ) hc, some_ne_none _⟩
    | passed => exact .inl ⟨hfail _ hJ, rfl⟩
  unfold sendBuffer at h
  split_ifs at h
  split at h
  · cases h
  · rename_i h₁
    cases h
    exact .inr ((hlist h₁ hJ).resolve_left fun h => some_ne_none _ h.2)
  rename_i s₁ ws₁ h₁
  have hJ := ((hlist h₁ hJ).resolve_right fun h => h.2 rfl).1
  split_ifs at h
  swap
  · cases h
    exact .inl ⟨hJ, rfl⟩
  unfold sendLow at h
  split_ifs at h
  · unfold checkClose at h
    split_ifs at h
    · obtain ⟨t, hc, h⟩ := map_eq_some_iff.1 h
      cases h
      exact .inr ⟨hclose _ _ (hoff _ hJ) hc, some_ne_none _⟩
    · cases h
      exact .inl ⟨hoff _ hJ, rfl⟩
  split at h
  · cases h
  · rename_i h₂
    cases h
    exact .inr ((hlist h₂ hJ).resolve_left fun h => some_ne_none _ h.2)
  rename_i s₂ ws₂ h₂
  have hJ := ((hlist h₂ hJ).resolve_right fun h => h.2 rfl).1
  split_ifs at h
  · obtain ⟨t, hr, h⟩ := map_eq_some_iff.1 h
    cases h
    exact .inl ⟨hraise _ _ hJ hr, rfl⟩
  · cases h
    exact .inl ⟨hJ, rfl⟩

theorem sendBuffer_keeps {J : Socket → Prop}
    (hpop : ∀ t p b bs, J t → t.list p = b :: bs → J (t.pop p b bs))
    (hadvance : ∀ t p n b bs, J t → t.list p = b :: bs → n < b.data.length →
      J (t.advance p n b bs)) (hfail : ∀ t, J t → J t.writeFailed)
    (hraise : ∀ t u, J t → t.raiseUncomplete = some u → J u)
    (hoff : ∀ t, J t → J { t with writing := false })
    (hclose : ∀ t u, J t → t.forceClose = some u → J u)
    (h : s.sendBuffer ws = some (s', m)) (hJ : J s) : J s' :=
  (sendBuffer_ends hpop hadvance hfail hraise hoff hclose h hJ).elim And.left And.left

theorem sendBuffer_begun (h : s.sendBuffer ws = some (s', m)) :
    s'.life.begun = s.life.begun :=
  sendBuffer_keeps (J := fun t => t.life.begun = s.life.begun)
    (fun t p b bs h _ => by rw [← h]; cases p <;> rfl)
    (fun t p n b bs h _ _ => by rw [← h]; cases p <;> rfl) (fun _ h => h)
    (fun t u h hr => by rw [← h, (kept_raiseUncomplete hr).life]) (fun _ h => h)
    (fun t u h hc => by rw [← h, forceClose_life hc]) h rfl

/-- What `send_socket` does with a package: it is refused, put into its list, written at once as far
as the fd takes it, or lost with the socket. A datagram that could not be sent is put into its
list, too. -/
inductive Posted {soi : SocketObjectInterface} (s : Socket) (p : Priority) (r : SendRequest soi) :
    Socket → Option SocketMessage → Prop
  | refused : Posted s p r s none
  | queued (hi : s.type ≠ .invalid) (hh : s.type ≠ .halfclose) :
      Posted s p r ((s.appendSendbuffer p r 0).accept p r) none
  | direct {n : ℕ} (ht : s.type = .connected) (he : s.sendBufferEmpty = true)
      (hn : n ≤ r.bytes.length) : Posted s p r (s.sendDirect p r n) none
  | datagram (ht : s.type = .connected) (he : s.sendBufferEmpty = true) :
      Posted s p r ((s.wroteDirect r r.bytes.length).accept p r) none
  | delayed (ht : s.type = .connected) :
      Posted s p r { (s.appendSendbuffer p r 0).accept p r with writing := true } none
  | error {s' : Socket} (ht : s.type = .connected) (hc : s.writeFailed.forceClose = some s') :
      Posted s p r s' (some (s.result .socketClose .null))

theorem sendSocket_cases {soi : SocketObjectInterface} {r : SendRequest soi}
    (h : s.sendSocket p r ws = some (s', m)) : Posted s p r s' m := by
  unfold sendSocket at h
  split_ifs at h with hid hlisten he htcp
  · cases h
    exact .refused
  · cases h
    exact .refused
  · rcases ws with _ | ⟨w, ws⟩
    · cases h
    cases w with
    | intr =>
      cases h
      exact .direct he.2 he.1 (Nat.zero_le _)
    | again =>
      cases h
      exact .direct he.2 he.1 (Nat.zero_le _)
    | error =>
      obtain ⟨t, hc, h⟩ := map_eq_some_iff.1 h
      cases h
      exact .error he.2 hc
    | wrote n =>
      simp only at h
      split_ifs at h with hn
      cases h
      exact .direct he.2 he.1 (by rw [r.full]; omega)
  · rcases ws with _ | ⟨w, ws⟩
    · cases h
    cases w with
    | intr =>
      cases h
      exact .delayed he.2
    | again =>
      cases h
      exact .delayed he.2
    | error =>
      cases h
      exact .delayed he.2
    | wrote n =>
      cases h
      exact .datagram he.2 he.1
  · cases h
    exact .queued (fun hi => hid (.inl hi)) (fun hh => hid (.inr (.inr (.inl hh))))

/-- What the operations do that send nothing: nothing, or the socket stays as far in its life and its
close as it was, or its fd had an end of file or an error and it is closed. -/
inductive Turned (s : Socket) : Socket → Option SocketMessage → Prop
  | same {m : Option SocketMessage} : Turned s s m
  | on {s' : Socket} {m : Option SocketMessage} (hi : s.type ≠ .invalid) (hh : s'.high = s.high)
      (hl : s'.low = s.low) (hlife : s'.life = s.life) (hi' : s'.type ≠ .invalid)
      (hhalf : s'.type = .halfclose ↔ s.type = .halfclose) (hw : s'.wbSize = s.wbSize) :
      Turned s s' m
  | finished {s' : Socket} {t : MessageType} {data : MessageData} (hi : s.type ≠ .invalid)
      (ht : t = .socketClose ∨ t = .socketError) (hc : s.readEnded.forceClose = some s') :
      Turned s s' (some (s.result t data))

theorem startSocket_cases {id : ℤ} {owner : ℕ} {add : Option String}
    (h : s.startSocket id owner add = some (s', m)) : Turned s s' m := by
  unfold startSocket at h
  simp only at h
  by_cases hg : s.type = .invalid ∨ s.id ≠ id
  · rw [if_pos hg] at h
    cases h
    exact .same
  rw [if_neg hg] at h
  have hi : s.type ≠ .invalid := fun hi => hg (.inl hi)
  by_cases hp : s.type = .paccept ∨ s.type = .plisten
  · rw [if_pos hp] at h
    cases add with
    | some e =>
      obtain ⟨t, hc, h⟩ := map_eq_some_iff.1 h
      cases h
      exact .finished hi (.inr rfl) hc
    | none =>
      cases h
      refine .on hi rfl rfl rfl ?_ ?_ rfl <;> rcases hp with hp | hp <;> simp [hp]
  rw [if_neg hp] at h
  split_ifs at h
  · cases h
    exact .on hi rfl rfl rfl hi .rfl rfl
  · cases h
    exact .same

theorem forwardMessageTcp_cases {r : ReadResult} (hi : s.type ≠ .invalid) (h : s.forwardMessageTcp r = some (s', m)) :
    Turned s s' m := by
  cases r with
  | intr =>
    cases h
    exact .same
  | again =>
    cases h
    exact .same
  | error e =>
    obtain ⟨t, hc, h⟩ := map_eq_some_iff.1 h
    cases h
    exact .finished hi (.inr rfl) hc
  | eof =>
    obtain ⟨t, hc, h⟩ := map_eq_some_iff.1 h
    cases h
    exact .finished hi (.inl rfl) hc
  | got b =>
    simp only [forwardMessageTcp] at h
    by_cases hb : b.length = 0 ∨ s.size < b.length
    · rw [if_pos hb] at h
      cases h
    rw [if_neg hb] at h
    by_cases hh : s.type = .halfclose
    · rw [if_pos hh] at h
      cases h
      exact .same
    · rw [if_neg hh] at h
      cases h
      exact .on hi rfl rfl rfl hi .rfl rfl

theorem forwardMessageUdp_cases {r : RecvResult} (hi : s.type ≠ .invalid) (h : s.forwardMessageUdp r = some (s', m)) :
    Turned s s' m := by
  cases r with
  | intr =>
    cases h
    exact .same
  | again =>
    cases h
    exact .same
  | error e =>
    obtain ⟨t, hc, h⟩ := map_eq_some_iff.1 h
    cases h
    exact .finished hi (.inr rfl) hc
  | got b protocol address =>
    simp only [forwardMessageUdp] at h
    split_ifs at h
    · cases h
      exact .same
    · cases h
      exact .same

theorem reportConnect_cases {soError : Option String} {peer : MessageData}
    (ht : s.type = .connecting) (h : s.reportConnect soError peer = some (s', m)) :
    Turned s s' m := by
  have hi : s.type ≠ .invalid := by simp [ht]
  cases soError with
  | some e =>
    obtain ⟨t, hc, h⟩ := map_eq_some_iff.1 h
    cases h
    exact .finished hi (.inr rfl) hc
  | none =>
    cases h
    exact .on hi rfl rfl rfl (by simp) (by simp [ht]) rfl

theorem readWrite_cases {e : SocketEvent} {c : SocketCalls} {again : Option Bool}
    (hi : s.type ≠ .invalid) (h : s.readWrite e c = some (s', m, again)) :
    Turned s s' m ∨ s.sendBuffer c.writes = some (s', m) := by
  unfold readWrite at h
  split_ifs at h
  · obtain ⟨⟨t, m₁⟩, hf, h⟩ := map_eq_some_iff.1 h
    cases h
    exact .inl (forwardMessageTcp_cases hi hf)
  · obtain ⟨⟨t, m₁⟩, hf, h⟩ := map_eq_some_iff.1 h
    cases h
    exact .inl (forwardMessageUdp_cases hi hf)
  · obtain ⟨⟨t, m₁⟩, hf, h⟩ := map_eq_some_iff.1 h
    cases h
    exact .inr hf
  · cases h
    exact .inl .same

/-- What one operation of the server does to a socket. -/
inductive Moved (soi : SocketObjectInterface) (s : Socket) : Socket → Option SocketMessage → Prop
  | turned {s' : Socket} {m : Option SocketMessage} (h : Turned s s' m) : Moved soi s s' m
  | sent {s' : Socket} {m : Option SocketMessage} {ws : List WriteResult} (hi : s.type ≠ .invalid)
      (h : s.sendBuffer ws = some (s', m)) : Moved soi s s' m
  | posted {p : Priority} {r : SendRequest soi} {s' : Socket} {m : Option SocketMessage}
      (h : Posted s p r s' m) : Moved soi s s' m
  | closed {id : ℤ} {shutdown : Bool} {owner : ℕ} {ws : List WriteResult} {s' : Socket}
      {m : Option SocketMessage} (h : s.closeSocket id shutdown owner ws = some (s', m)) :
      Moved soi s s' m

/-- What a step of the server makes of a slot: nothing, a slot without a socket, a socket that was
just set up, or what an operation makes of the socket in it, with its end noted. -/
inductive SlotStep (soi : SocketObjectInterface) (s : Socket) : Socket → Prop
  | same : SlotStep soi s s
  | vacant {s' : Socket} (h : s'.life.begun = false) : SlotStep soi s s'
  | fresh {s' : Socket} (hh : s'.high = []) (hl : s'.low = []) (hlife : s'.life = .new true)
      (hi : s'.type ≠ .invalid) (hhalf : s'.type ≠ .halfclose) (hw : s'.wbSize = 0) :
      SlotStep soi s s'
  | moved {t : Socket} {m : Option SocketMessage} {asked : Bool} (hm : Moved soi s t m)
      (ha : s.type = .invalid → asked = true) : SlotStep soi s (t.note asked s m)

theorem accept_life {soi : SocketObjectInterface} {l p : Priority} {r : SendRequest soi} {n : ℕ} :
    ((s.appendSendbuffer l r n).accept p r).life = (s.accept p r).life := by
  cases l <;> rfl

theorem closeSocket_begun {id : ℤ} {shutdown : Bool} {owner : ℕ}
    (h : s.closeSocket id shutdown owner ws = some (s', m)) : s'.life.begun = s.life.begun := by
  have hrest {t : Socket} (h : t.closeRest id shutdown owner = some (s', m)) :
      s'.life.begun = t.life.begun := by
    unfold closeRest at h
    split_ifs at h
    · obtain ⟨u, hc, h⟩ := map_eq_some_iff.1 h
      cases h
      rw [forceClose_life hc]
    · cases h
      rfl
  unfold closeSocket at h
  split_ifs at h
  · cases h
    rfl
  simp only at h
  split_ifs at h
  · exact hrest (t := s.askClose shutdown owner) h
  split at h
  · cases h
  · rename_i h₁
    cases h
    exact sendBuffer_begun (s := s.askClose shutdown owner) h₁
  · rename_i h₁
    exact (hrest h).trans (sendBuffer_begun (s := s.askClose shutdown owner) h₁)

theorem Moved.begun {soi : SocketObjectInterface} (h : Moved soi s s' m) : s'.life.begun = s.life.begun := by
  cases h with
  | turned h =>
    cases h with
    | same => rfl
    | on _ _ _ hlife => rw [hlife]
    | finished _ _ hc => rw [forceClose_life hc]; rfl
  | sent _ h => exact sendBuffer_begun h
  | posted h =>
    cases h with
    | refused => rfl
    | queued => rw [accept_life]; rfl
    | direct => unfold sendDirect; simp only; split_ifs <;> rfl
    | datagram => rfl
    | delayed => change ((s.appendSendbuffer _ _ 0).accept _ _).life.begun = _; rw [accept_life]; rfl
    | error _ hc => rw [forceClose_life hc]; rfl
  | closed h => exact closeSocket_begun h

theorem Moved.eq_of_invalid {soi : SocketObjectInterface} (h : Moved soi s s' m)
    (hi : s.type = .invalid) : s' = s := by
  cases h with
  | turned h =>
    cases h with
    | same => rfl
    | on hi' => exact absurd hi hi'
    | finished hi' => exact absurd hi hi'
  | sent hi' => exact absurd hi hi'
  | posted h =>
    cases h with
    | refused => rfl
    | queued hi' => exact absurd hi hi'
    | direct ht => rw [hi] at ht; cases ht
    | datagram ht => rw [hi] at ht; cases ht
    | delayed ht => rw [hi] at ht; cases ht
    | error ht => rw [hi] at ht; cases ht
  | closed h =>
    unfold closeSocket at h
    rw [if_pos (.inl hi)] at h
    cases h
    rfl

theorem note_of_type {asked : Bool} {before : Socket} (h : s.type ≠ .invalid) :
    s.note asked before m = s := by
  cases m with
  | none => rfl
  | some m => exact if_neg fun h' => h h'.2.1

theorem note_eq (s : Socket) (asked : Bool) (before : Socket) (m : Option SocketMessage) :
    ∃ life, s.note asked before m = { s with life := life } := by
  cases m with
  | none => exact ⟨_, rfl⟩
  | some m =>
    simp only [note]
    split_ifs <;> exact ⟨_, rfl⟩

theorem note_begun {asked : Bool} {before : Socket} :
    (s.note asked before m).life.begun = s.life.begun := by
  cases m with
  | none => rfl
  | some m =>
    simp only [note]
    split_ifs <;> rfl

end Socket

namespace SocketServer

open Socket

variable {soi : SocketObjectInterface} {ss ss' : SocketServer soi} {i j : ℕ}
  {m : Option SocketMessage} {c : SocketCalls}

@[simp] theorem put_slot_self {s : Socket} : (ss.put i s).slot i = s := Function.update_self ..

@[simp] theorem put_slot_ne {s : Socket} (h : j ≠ i) : (ss.put i s).slot j = ss.slot j :=
  Function.update_of_ne h ..

theorem reserveLoop_cases : ∀ (n : ℕ) (ss : SocketServer soi) {ss' : SocketServer soi}
    {o : Option ℤ}, reserveLoop n ss = (ss', o) →
      o = none ∧ ss'.slot = ss.slot ∨
      ∃ id s, o = some id ∧ (ss.slot (hashId id)).type = .invalid ∧
        s.life = .new false ∧ s.type = .reserve ∧
        ss'.slot = Function.update ss.slot (hashId id) s
  | 0, ss, ss', o, h => by
    cases h
    exact .inl ⟨rfl, rfl⟩
  | n + 1, ss, ss', o, h => by
    simp only [reserveLoop] at h
    generalize (if atomInc ss.allocId < 0 then atomInc ss.allocId % 2 ^ 31
      else atomInc ss.allocId) = id at h
    by_cases hi : (ss.slot (hashId id)).type = .invalid
    · rw [if_pos hi] at h
      cases h
      exact .inr ⟨id, _, rfl, hi, rfl, rfl, rfl⟩
    · rw [if_neg hi] at h
      exact reserveLoop_cases n { ss with allocId := id } h

theorem newFd_cases {id fd : ℤ} {protocol : Protocol} {owner : ℕ} {add : Bool} {s : Socket}
    (h : ss.newFd id fd protocol owner add = some s) :
    s.high = [] ∧ s.low = [] ∧ s.life = .new true ∧ s.wbSize = 0 := by
  simp only [newFd] at h
  split_ifs at h
  cases h
  exact ⟨rfl, rfl, rfl, rfl⟩

@[simp] theorem clearClosedEvent_slot : (ss.clearClosedEvent m).slot = ss.slot := by
  cases m with
  | none => rfl
  | some m =>
    simp only [clearClosedEvent]
    split_ifs <;> rfl

/-- What a request does to the slot that it is about: others it leaves alone. -/
inductive Answered (ss : SocketServer soi) (i : ℕ) : SocketServer soi → Option SocketMessage → Prop
  | idle {m : Option SocketMessage} : Answered ss i ss m
  | vacant {s : Socket} {m : Option SocketMessage} (h : s.life.begun = false) :
      Answered ss i (ss.put i s) m
  | fresh {s : Socket} {m : Option SocketMessage} (hh : s.high = []) (hl : s.low = [])
      (hlife : s.life = .new true) (hi : s.type ≠ .invalid) (hhalf : s.type ≠ .halfclose)
      (hw : s.wbSize = 0) : Answered ss i (ss.put i s) m
  | moved {s : Socket} {m : Option SocketMessage} (h : Moved soi (ss.slot i) s m) :
      Answered ss i (ss.put i s) m

theorem answered_withSlot {f : Socket → Option (Socket × Option SocketMessage)}
    (hf : ∀ s m, f (ss.slot i) = some (s, m) → Moved soi (ss.slot i) s m)
    (h : ss.withSlot i f = some (ss', m)) : Answered ss i ss' m := by
  obtain ⟨⟨s, m⟩, hs, h⟩ := map_eq_some_iff.1 h
  cases h
  exact .moved (hf _ _ hs)

theorem answered_newFd {id fd : ℤ} {protocol : Protocol} {owner : ℕ} {add : Bool} {s : Socket}
    {m : Option SocketMessage} (h : ss.newFd id fd protocol owner add = some s) (t : SocketType)
    (w : Bool) (hi : t ≠ .invalid) (hh : t ≠ .halfclose) :
    Answered ss (hashId id) (ss.put (hashId id) { s with type := t, writing := w }) m := by
  obtain ⟨hhigh, hlow, hlife, hw⟩ := newFd_cases h
  exact .fresh hhigh hlow hlife hi hh hw

theorem openSocket_cases {id : ℤ} {owner : ℕ} (h : ss.openSocket id owner c = some (ss', m)) :
    Answered ss (hashId id) ss' m := by
  unfold openSocket at h
  simp only at h
  split at h
  · cases h
    exact .vacant rfl
  · split_ifs at h
    cases h
    exact .vacant rfl
  · split_ifs at h
    cases h
    exact .vacant rfl
  · obtain ⟨s, hs, h⟩ := map_eq_some_iff.1 h
    cases h
    exact answered_newFd hs .connected s.writing (by decide) (by decide)
  · obtain ⟨s, hs, h⟩ := map_eq_some_iff.1 h
    cases h
    exact answered_newFd hs .connecting true (by decide) (by decide)

theorem bindSocket_cases {id fd : ℤ} {owner : ℕ} {add : Option String}
    (h : ss.bindSocket id fd owner add = some (ss', m)) : Answered ss (hashId id) ss' m := by
  cases add with
  | some e =>
    simp only [bindSocket] at h
    split_ifs at h
    cases h
    exact .vacant rfl
  | none =>
    obtain ⟨s, hs, h⟩ := map_eq_some_iff.1 h
    cases h
    exact answered_newFd hs .bind s.writing (by decide) (by decide)

theorem addUdpSocket_cases {id fd : ℤ} {protocol : Protocol} {owner : ℕ} {add : Option String}
    (h : ss.addUdpSocket id fd protocol owner add = some (ss', m)) :
    Answered ss (hashId id) ss' m := by
  cases add with
  | some e =>
    simp only [addUdpSocket] at h
    split_ifs at h
    cases h
    exact .vacant rfl
  | none =>
    obtain ⟨s, hs, h⟩ := map_eq_some_iff.1 h
    cases h
    exact answered_newFd hs .connected s.writing (by decide) (by decide)

theorem ctrlCmd_cases {r : SocketRequest soi} (h : ss.ctrlCmd c r = (i, some (ss', m))) :
    Answered ss i ss' m := by
  cases r with
  | S id owner =>
    simp only [ctrlCmd, Prod.mk.injEq] at h
    obtain ⟨rfl, h⟩ := h
    exact answered_withSlot (fun s m hs => .turned (startSocket_cases hs)) h
  | B id fd owner =>
    simp only [ctrlCmd, Prod.mk.injEq] at h
    obtain ⟨rfl, h⟩ := h
    exact bindSocket_cases h
  | L id fd owner =>
    simp only [ctrlCmd, Prod.mk.injEq] at h
    obtain ⟨rfl, h⟩ := h
    obtain ⟨s, hs, h⟩ := map_eq_some_iff.1 h
    cases h
    exact answered_newFd hs .plisten s.writing (by decide) (by decide)
  | K id shutdown owner =>
    simp only [ctrlCmd, Prod.mk.injEq] at h
    obtain ⟨rfl, h⟩ := h
    exact answered_withSlot (fun s m hs => .closed hs) h
  | O id owner =>
    simp only [ctrlCmd, Prod.mk.injEq] at h
    obtain ⟨rfl, h⟩ := h
    exact openSocket_cases h
  | X =>
    simp only [ctrlCmd, Prod.mk.injEq, some.injEq] at h
    obtain ⟨rfl, rfl, rfl⟩ := h
    exact .idle
  | D r =>
    simp only [ctrlCmd, Prod.mk.injEq] at h
    obtain ⟨rfl, h⟩ := h
    exact answered_withSlot (fun s m hs => .posted (sendSocket_cases hs)) h
  | P r =>
    simp only [ctrlCmd, Prod.mk.injEq] at h
    obtain ⟨rfl, h⟩ := h
    exact answered_withSlot (fun s m hs => .posted (sendSocket_cases hs)) h
  | A r =>
    simp only [ctrlCmd, Prod.mk.injEq] at h
    obtain ⟨rfl, h⟩ := h
    exact answered_withSlot (fun s m hs => .posted (sendSocket_cases hs)) h
  | C id protocol =>
    simp only [ctrlCmd, Prod.mk.injEq, some.injEq] at h
    obtain ⟨rfl, rfl, rfl⟩ := h
    exact .idle
  | T id =>
    simp only [ctrlCmd, Prod.mk.injEq, some.injEq] at h
    obtain ⟨rfl, rfl, rfl⟩ := h
    exact .idle
  | U id fd protocol owner =>
    simp only [ctrlCmd, Prod.mk.injEq] at h
    obtain ⟨rfl, h⟩ := h
    exact addUdpSocket_cases h

theorem note_slot_self {asked : Bool} {w : SocketServer soi} :
    (ss.note i asked w m).slot i = (ss.slot i).note asked (w.slot i) m := put_slot_self

theorem note_slot_ne {asked : Bool} {w : SocketServer soi} (h : j ≠ i) :
    (ss.note i asked w m).slot j = ss.slot j := put_slot_ne h

theorem note_slot_congr {u : SocketServer soi} {asked : Bool} {w : SocketServer soi}
    (h : ss.slot = u.slot) : (ss.note i asked w m).slot = (u.note i asked w m).slot := by
  simp only [SocketServer.note, put, h]

theorem slotStep_note {s : Socket} {asked : Bool} (h : Moved soi (ss.slot i) s m)
    (ha : (ss.slot i).type = .invalid → asked = true) :
    SlotStep soi (ss.slot j) (((ss.put i s).note i asked ss m).slot j) := by
  by_cases hj : j = i
  · subst hj
    rw [note_slot_self, put_slot_self]
    exact .moved h ha
  · rw [note_slot_ne hj, put_slot_ne hj]
    exact .same

theorem Answered.slotStep (h : Answered ss i ss' m) (j : ℕ) :
    SlotStep soi (ss.slot j) ((ss'.note i true ss m).slot j) := by
  by_cases hj : j = i
  · subst hj
    rw [note_slot_self]
    cases h with
    | idle => exact .moved (.turned .same) fun _ => rfl
    | vacant h => exact .vacant (by rw [note_begun, put_slot_self, h])
    | fresh hh hl hlife hi hhalf hw =>
      rw [put_slot_self, note_of_type hi]
      exact .fresh hh hl hlife hi hhalf hw
    | moved h =>
      rw [put_slot_self]
      exact .moved h fun _ => rfl
  · rw [note_slot_ne hj]
    cases h with
    | idle => exact .same
    | vacant => exact put_slot_ne hj ▸ .same
    | fresh => exact put_slot_ne hj ▸ .same
    | moved => exact put_slot_ne hj ▸ .same

theorem reportAccept_cases {a : AcceptResult} (hi : (ss.slot i).type = .listen)
    (h : ss.reportAccept i a = some (ss', m)) :
    ss'.slot i = ss.slot i ∧ SlotStep soi (ss.slot j) (ss'.slot j) := by
  cases a with
  | limit e =>
    cases h
    exact ⟨rfl, .same⟩
  | failed =>
    cases h
    exact ⟨rfl, .same⟩
  | accepted fd address =>
    simp only [reportAccept] at h
    split at h
    · rename_i ss₁ h₁
      cases h
      obtain ⟨-, hs⟩ | ⟨id, s, ho, -⟩ := reserveLoop_cases _ _ h₁
      · rw [hs]
        exact ⟨rfl, .same⟩
      · cases ho
    · rename_i ss₁ id h₁
      obtain ⟨ho, -⟩ | ⟨_, s, ho, hinv, -, -, hs⟩ := reserveLoop_cases _ _ h₁
      · cases ho
      cases ho
      obtain ⟨t, ht, h⟩ := map_eq_some_iff.1 h
      cases h
      obtain ⟨hhigh, hlow, hnew, hw⟩ := newFd_cases ht
      have hne : i ≠ hashId id := fun he => by
        rw [← he, hi] at hinv
        cases hinv
      refine ⟨?_, ?_⟩
      · rw [put_slot_ne hne, hs, Function.update_of_ne hne]
      by_cases hj : j = hashId id
      · subst hj
        rw [put_slot_self]
        exact .fresh hhigh hlow hnew (fun h => SocketType.noConfusion h)
          (fun h => SocketType.noConfusion h) hw
      · rw [put_slot_ne hj, hs, Function.update_of_ne hj]
        exact .same

theorem dispatch_cases {e : SocketEvent} (h : ss.dispatch e i c = some (ss', m)) (j : ℕ) :
    SlotStep soi (ss.slot j) ((ss'.note i false ss m).slot j) := by
  unfold dispatch at h
  split at h
  · rename_i ht
    obtain ⟨⟨s, m₁⟩, hs, h⟩ := map_eq_some_iff.1 h
    cases h
    exact slotStep_note (.turned (reportConnect_cases ht hs)) fun hi => by
      rw [ht] at hi
      cases hi
  · rename_i ht
    obtain ⟨hself, hstep⟩ := reportAccept_cases (j := j) ht h
    by_cases hj : j = i
    · subst hj
      rw [note_slot_self, hself, note_of_type (by rw [ht]; decide)]
      exact .same
    · rw [note_slot_ne hj]
      exact hstep
  · cases h
    by_cases hj : j = i
    · subst hj
      exact note_slot_self.symm ▸ .same
    · exact (note_slot_ne hj).symm ▸ .same
  · rename_i hc hl hi
    obtain ⟨⟨s, m₁, again⟩, hs, h⟩ := map_eq_some_iff.1 h
    have hslot : ss'.slot = (ss.put i s).slot ∧ m = m₁ := by
      cases again <;> cases h <;> exact ⟨rfl, rfl⟩
    obtain ⟨hslot, rfl⟩ := hslot
    have hi : (ss.slot i).type ≠ .invalid := fun h => hi h
    have hm : Moved soi (ss.slot i) s m := by
      obtain ht | hb := readWrite_cases hi hs
      · exact .turned ht
      · exact .sent hi hb
    rw [note_slot_congr hslot]
    exact slotStep_note hm fun h => absurd h hi

theorem pollEvent_cases (h : ss.pollEvent c = some ss') (j : ℕ) :
    SlotStep soi (ss.slot j) (ss'.slot j) := by
  have hturn (u : SocketServer soi) (hu : u.slot = ss.slot) (h : pollEvent.turn c u = some ss') :
      SlotStep soi (ss.slot j) (ss'.slot j) := by
    unfold pollEvent.turn at h
    rw [← hu]
    split at h
    · cases h
      exact .same
    split at h
    · cases h
      exact .same
    · rename_i e es _ i _
      obtain ⟨⟨u', m⟩, hd, h⟩ := map_eq_some_iff.1 h
      cases h
      exact dispatch_cases hd j
  unfold pollEvent at h
  split_ifs at h
  · exact hturn { ss with ev := c.wait, checkctrl := true } rfl h
  · exact hturn ss rfl h

theorem poll_cases (h : ss.poll c = some ss') (j : ℕ) : SlotStep soi (ss.slot j) (ss'.slot j) := by
  unfold poll at h
  split_ifs at h
  · split at h
    · have hp : pollEvent { ss with checkctrl := false } c = some ss' := h
      exact pollEvent_cases hp j
    · rename_i r rs _
      split at h
      · cases h
      · rename_i i u m hr
        cases h
        rw [note_slot_congr clearClosedEvent_slot]
        exact (ctrlCmd_cases hr).slotStep j
  · exact pollEvent_cases h j

theorem openRequest_cases {request : ℤ → SocketRequest soi} :
    SlotStep soi (ss.slot j) ((ss.openRequest request).slot j) := by
  unfold openRequest
  split
  · rename_i u h
    obtain ⟨-, hs⟩ | ⟨id, s, ho, -⟩ := reserveLoop_cases _ _ h
    · rw [hs]
      exact .same
    · cases ho
  · rename_i u id h
    obtain ⟨ho, -⟩ | ⟨_, s, ho, -, hlife, -, hs⟩ := reserveLoop_cases _ _ h
    · cases ho
    cases ho
    change SlotStep soi (ss.slot j) (u.slot j)
    rw [hs]
    by_cases hj : j = hashId id
    · subst hj
      rw [Function.update_self]
      exact .vacant (by rw [hlife]; rfl)
    · rw [Function.update_of_ne hj]
      exact .same

theorem sendRequest_cases {id : ℤ} {r : SocketRequest soi} :
    SlotStep soi (ss.slot j) ((ss.sendRequest id r).slot j) := by
  unfold sendRequest
  split_ifs <;> exact .same

/-- What a step makes of every slot. -/
theorem step_cases {l : SocketLabel soi} (h : ss.step l = some ss') (j : ℕ) :
    SlotStep soi (ss.slot j) (ss'.slot j) := by
  cases l with
  | poll c => exact poll_cases h j
  | connect owner =>
    cases h
    exact openRequest_cases
  | listen fd owner =>
    cases h
    exact openRequest_cases
  | bind fd owner =>
    cases h
    exact openRequest_cases
  | udp fd protocol owner =>
    cases h
    exact openRequest_cases
  | send r =>
    cases h
    exact sendRequest_cases
  | sendLowpriority r =>
    cases h
    exact sendRequest_cases
  | udpSend r =>
    cases h
    exact sendRequest_cases
  | udpConnect id protocol =>
    cases h
    exact .same
  | start id owner =>
    cases h
    exact .same
  | close id owner =>
    cases h
    exact .same
  | shutdown id owner =>
    cases h
    exact .same
  | nodelay id =>
    cases h
    exact .same
  | exit =>
    cases h
    exact .same

/-- What holds of a socket that was just set up and is kept by every operation on it holds of every
socket of a server. -/
theorem slots_of_reachable {P : Socket → Prop}
    (hfresh : ∀ s : Socket, s.high = [] → s.low = [] → s.life = .new true → s.type ≠ .invalid →
      s.type ≠ .halfclose → s.wbSize = 0 → P s)
    (hmoved : ∀ s t m asked, P s → Moved soi s t m → (s.type = .invalid → asked = true) →
      P (t.note asked s m))
    {ss : SocketServer soi} (h : (machine soi).Reachable ss) (i : ℕ)
    (hb : (ss.slot i).life.begun = true) : P (ss.slot i) := by
  refine h.invariant (I := fun ss => ∀ i, (ss.slot i).life.begun = true → P (ss.slot i))
    (fun i hb => nomatch hb) (fun ss l ss' hI _ hst i hb => ?_) i hb
  have hs := step_cases hst i
  revert hb
  generalize ss'.slot i = t at hs
  intro hb
  cases hs with
  | same => exact hI i hb
  | vacant h => rw [h] at hb; cases hb
  | fresh hh hl hlife hi hhalf hw => exact hfresh _ hh hl hlife hi hhalf hw
  | moved hm ha =>
    rw [note_begun, hm.begun] at hb
    exact hmoved _ _ _ _ (hI i hb) hm ha

end SocketServer

end SkynetGame
