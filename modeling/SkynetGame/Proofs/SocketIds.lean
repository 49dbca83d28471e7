import SkynetGame.Proofs.SocketServer

/-!
# The ids of sockets

The slot of a socket in use is the one its id hashes to, so two of them share neither. A slot that was
reserved keeps the id until the request to open it comes, and any other request leaves a slot with
another id as it is (`Identified`). A send to a socket that nobody opened yet is left out: it puts a
buffer into a slot that has to be without any.
-/

namespace SkynetGame

open List Option

namespace Socket

variable {soi : SocketObjectInterface} {s t : Socket} {p : Priority} {m : Option SocketMessage}
  {ws : List WriteResult}

/-- `setopt_socket`: the fd whose option it sets. -/
def setoptSocket (s : Socket) (id : ℤ) : Option ℤ :=
  if s.type = .invalid ∨ s.id ≠ id then none else some s.fd

/-- No socket, or one that is not opened yet. -/
def Vacant (s : Socket) : Prop := s.type = .invalid ∨ s.type = .reserve

/-- Without a socket there is nothing to send. -/
def Clean (s : Socket) : Prop := s.Vacant → s.sendBufferEmpty = true

/-- What an operation makes of a slot that does not open it. -/
structure Follows (s t : Socket) : Prop where
  id : t.id = s.id
  vacant : s.Vacant → t.type = s.type
  clean : t.Clean

theorem Follows.refl (h : s.Clean) : Follows s s := ⟨rfl, fun _ => rfl, h⟩

theorem follows_of_type (hs : ¬ s.Vacant) (hid : t.id = s.id) (ht : t.type = s.type) :
    Follows s t := by
  have hv : ¬ t.Vacant := fun h => hs (by rwa [Vacant, ht] at h)
  exact ⟨hid, fun h => absurd h hs, fun h => absurd h hv⟩

theorem follows_of_forceClose {u : Socket} (hi : s.type ≠ .invalid) (hid : u.id = s.id)
    (ht : u.type = s.type) (hc : u.forceClose = some t) : Follows s t ∧ t.type = .invalid := by
  have hr : s.type ≠ .reserve := fun hr => by
    rw [forceClose, if_neg (by rw [ht]; exact hi), if_pos (by rw [ht]; exact hr)] at hc
    cases hc
  obtain ⟨hu, -⟩ | ⟨-, rfl⟩ := forceClose_cases hc
  · exact absurd (ht.symm.trans hu) hi
  · exact ⟨⟨hid, fun h => absurd h (not_or.2 ⟨hi, hr⟩), fun _ => rfl⟩, rfl⟩

theorem sendBuffer_of_empty (he : s.sendBufferEmpty = true) : s.sendBuffer ws = s.checkClose := by
  obtain ⟨hh, hl⟩ := sendBufferEmpty_iff.1 he
  have hlist : s.sendList .high ws = some (s, none, ws) := by
    cases ws <;> simp [sendList, sendListTcp, sendListUdp, list, hh]
  rw [sendBuffer, hlist, hl, listUncomplete, if_neg Bool.false_ne_true]
  dsimp only
  rw [if_pos hh, sendLow, if_pos hl]

theorem sendBuffer_follows (hi : s.type ≠ .invalid) (hc : s.Clean)
    (h : s.sendBuffer ws = some (t, m)) :
    Follows s t ∧ (m = none → t.type = s.type) := by
  by_cases hv : s.Vacant
  · have hr : s.type = .reserve := hv.resolve_left hi
    rw [sendBuffer_of_empty (hc hv), checkClose, if_neg (by rw [hr]; decide)] at h
    obtain ⟨rfl, rfl⟩ := Prod.mk.inj (some.inj h)
    exact ⟨⟨rfl, fun _ => rfl, fun _ => hc hv⟩, fun _ => rfl⟩
  · obtain ⟨⟨hid, ht⟩, -⟩ | ⟨hf, hm⟩ := sendBuffer_ends
      (J := fun u => u.id = s.id ∧ u.type = s.type) (K := fun u => Follows s u)
      (fun u p _ _ hu _ => by cases p <;> exact hu)
      (fun u p _ _ _ hu _ _ => by cases p <;> exact hu)
      (fun _ hu => hu)
      (fun u v hu hr => by
        have hk := kept_raiseUncomplete hr
        exact ⟨hk.id.trans hu.1, hk.type.trans hu.2⟩)
      (fun _ hu => hu) (fun u v hu hc => (follows_of_forceClose hi hu.1 hu.2 hc).1) h ⟨rfl, rfl⟩
    · exact ⟨follows_of_type hv hid ht, fun _ => ht⟩
    · exact ⟨hf, fun h => absurd h hm⟩

theorem startSocket_follows (hc : s.Clean) {id : ℤ} {owner : ℕ} {add : Option String}
    (h : s.startSocket id owner add = some (t, m)) : Follows s t := by
  unfold startSocket at h
  dsimp only at h
  by_cases hg : s.type = .invalid ∨ s.id ≠ id
  · rw [if_pos hg] at h
    obtain ⟨rfl, -⟩ := Prod.mk.inj (some.inj h)
    exact .refl hc
  rw [if_neg hg] at h
  have hi : s.type ≠ .invalid := fun hi => hg (.inl hi)
  by_cases hp : s.type = .paccept ∨ s.type = .plisten
  · rw [if_pos hp] at h
    cases add with
    | some e =>
      obtain ⟨u, hu, heq⟩ := map_eq_some_iff.1 h
      obtain ⟨rfl, -⟩ := Prod.mk.inj heq
      exact (follows_of_forceClose (u := s.readEnded) hi rfl rfl hu).1
    | none =>
      obtain ⟨rfl, -⟩ := Prod.mk.inj (some.inj h)
      refine ⟨rfl, ?_, ?_⟩
      · rintro (hv | hv) <;> rcases hp with hp | hp <;> rw [hp] at hv <;> cases hv
      · rcases hp with hp | hp <;> simp [Clean, Vacant, hp]
  rw [if_neg hp] at h
  split_ifs at h with ht
  · obtain ⟨rfl, -⟩ := Prod.mk.inj (some.inj h)
    exact follows_of_type (by rw [Vacant, ht]; decide) rfl rfl
  · obtain ⟨rfl, -⟩ := Prod.mk.inj (some.inj h)
    exact .refl hc

theorem closeSocket_follows (hc : s.Clean) {id : ℤ} {shutdown : Bool} {owner : ℕ}
    (h : s.closeSocket id shutdown owner ws = some (t, m)) : Follows s t := by
  -- an open request that is still to come is lost: `force_close` asserts that there is none
  have hrest {u : Socket} (hi : s.type ≠ .invalid) (hu : Follows s u) (ht : u.type = s.type)
      (h : u.closeRest id shutdown owner = some (t, m)) : Follows s t := by
    unfold closeRest at h
    split_ifs at h with hwhy
    · obtain ⟨v, hv, heq⟩ := map_eq_some_iff.1 h
      obtain ⟨rfl, -⟩ := Prod.mk.inj heq
      exact (follows_of_forceClose hi hu.id ht hv).1
    · obtain ⟨rfl, -⟩ := Prod.mk.inj (some.inj h)
      have hnv : ¬ s.Vacant := fun hv => hwhy (.inr (hu.clean (by rwa [Vacant, ht])))
      exact ⟨hu.id, fun hv => absurd hv hnv, by simp [Clean, Vacant]⟩
  unfold closeSocket at h
  split_ifs at h with hg
  · obtain ⟨rfl, -⟩ := Prod.mk.inj (some.inj h)
    exact .refl hc
  have hi : s.type ≠ .invalid := fun hi => hg (.inl hi)
  have ha : Follows s (s.askClose shutdown owner) := ⟨rfl, fun _ => rfl, hc⟩
  dsimp only at h
  split_ifs at h with he
  · exact hrest hi ha rfl h
  cases hb : (s.askClose shutdown owner).sendBuffer ws with
  | none =>
    rw [hb] at h
    cases h
  | some r =>
    obtain ⟨u, o⟩ := r
    obtain ⟨hf, ht⟩ := sendBuffer_follows (s := s.askClose shutdown owner) hi hc hb
    have hf : Follows s u := ⟨hf.id, hf.vacant, hf.clean⟩
    rw [hb] at h
    cases o with
    | some m =>
      obtain ⟨rfl, -⟩ := Prod.mk.inj (some.inj h)
      exact hf
    | none => exact hrest hi hf (ht rfl) h

theorem sendSocket_follows (hc : s.Clean) {r : SendRequest soi}
    (hr : s.id = r.id → s.type ≠ .reserve) (h : s.sendSocket p r ws = some (t, m)) :
    Follows s t := by
  by_cases hg : s.type = .invalid ∨ s.id ≠ r.id
  · unfold sendSocket at h
    rw [if_pos (hg.imp_right .inl)] at h
    obtain ⟨rfl, -⟩ := Prod.mk.inj (some.inj h)
    exact .refl hc
  have hi : s.type ≠ .invalid := fun hi => hg (.inl hi)
  have hv : ¬ s.Vacant := not_or.2 ⟨hi, hr (not_not.1 fun hid => hg (.inr hid))⟩
  have hid {q : Priority} {n : ℕ} : ((s.appendSendbuffer q r n).accept p r).id = s.id
      ∧ ((s.appendSendbuffer q r n).accept p r).type = s.type := by
    cases q <;> exact ⟨rfl, rfl⟩
  cases sendSocket_cases h with
  | refused => exact .refl hc
  | queued => exact follows_of_type hv hid.1 hid.2
  | delayed => exact follows_of_type hv hid.1 hid.2
  | datagram => exact follows_of_type hv rfl rfl
  | error ht hc => exact (follows_of_forceClose (u := s.writeFailed) hi rfl rfl hc).1
  | direct =>
    unfold sendDirect
    dsimp only
    split_ifs
    · exact follows_of_type hv rfl rfl
    · exact follows_of_type hv rfl rfl

theorem readWrite_follows (hi : s.type ≠ .invalid) (hc : s.Clean) {e : SocketEvent} {c : SocketCalls}
    {again : Option Bool} (h : s.readWrite e c = some (t, m, again)) : Follows s t := by
  have hclose {u : Socket} {f : Socket → Socket × Option SocketMessage} {m : Option SocketMessage}
      (hf : ∀ u, (f u).1 = u) (h : s.readEnded.forceClose.map f = some (u, m)) : Follows s u := by
    obtain ⟨v, hv, heq⟩ := map_eq_some_iff.1 h
    obtain rfl : v = u := (hf v).symm.trans (congrArg Prod.fst heq)
    exact (follows_of_forceClose (u := s.readEnded) hi rfl rfl hv).1
  unfold readWrite at h
  split_ifs at h
  · obtain ⟨⟨u, o⟩, hu, heq⟩ := map_eq_some_iff.1 h
    obtain ⟨rfl, -⟩ := Prod.mk.inj heq
    cases hr : c.read with
    | intr =>
      rw [hr] at hu
      obtain ⟨rfl, -⟩ := Prod.mk.inj (some.inj hu)
      exact .refl hc
    | again =>
      rw [hr] at hu
      obtain ⟨rfl, -⟩ := Prod.mk.inj (some.inj hu)
      exact .refl hc
    | error text =>
      rw [hr] at hu
      exact hclose (fun _ => rfl) hu
    | eof =>
      rw [hr] at hu
      exact hclose (fun _ => rfl) hu
    | got b =>
      rw [hr] at hu
      simp only [forwardMessageTcp] at hu
      split_ifs at hu
      · obtain ⟨rfl, -⟩ := Prod.mk.inj (some.inj hu)
        exact .refl hc
      all_goals
        obtain ⟨rfl, -⟩ := Prod.mk.inj (some.inj hu)
        exact ⟨rfl, fun _ => rfl, hc⟩
  · obtain ⟨⟨u, o⟩, hu, heq⟩ := map_eq_some_iff.1 h
    obtain ⟨rfl, -⟩ := Prod.mk.inj heq
    cases hr : c.recv with
    | intr =>
      rw [hr] at hu
      obtain ⟨rfl, -⟩ := Prod.mk.inj (some.inj hu)
      exact .refl hc
    | again =>
      rw [hr] at hu
      obtain ⟨rfl, -⟩ := Prod.mk.inj (some.inj hu)
      exact .refl hc
    | error text =>
      rw [hr] at hu
      exact hclose (fun _ => rfl) hu
    | got b protocol address =>
      rw [hr] at hu
      simp only [forwardMessageUdp] at hu
      split_ifs at hu
      all_goals
        obtain ⟨rfl, -⟩ := Prod.mk.inj (some.inj hu)
        exact .refl hc
  · obtain ⟨⟨u, o⟩, hu, heq⟩ := map_eq_some_iff.1 h
    obtain ⟨rfl, -⟩ := Prod.mk.inj heq
    exact (sendBuffer_follows hi hc hu).1
  · obtain ⟨rfl, -⟩ := Prod.mk.inj (some.inj h)
    exact .refl hc

theorem reportConnect_follows (ht : s.type = .connecting) {soError : Option String}
    {peer : MessageData} (h : s.reportConnect soError peer = some (t, m)) : Follows s t := by
  cases soError with
  | some e =>
    obtain ⟨u, hu, heq⟩ := map_eq_some_iff.1 h
    obtain ⟨rfl, -⟩ := Prod.mk.inj heq
    exact (follows_of_forceClose (s := s) (u := s.readEnded) (by rw [ht]; decide) rfl rfl hu).1
  | none =>
    obtain ⟨rfl, -⟩ := Prod.mk.inj (some.inj h)
    exact ⟨rfl, fun hv => by simp [Vacant, ht] at hv, by simp [Clean, Vacant]⟩

theorem note_follows (hc : s.Clean) {asked : Bool} {before : Socket} :
    Follows s (s.note asked before m) := by
  cases m with
  | none => exact .refl hc
  | some m =>
    unfold note
    dsimp only
    split_ifs
    · exact ⟨rfl, fun _ => rfl, hc⟩
    · exact .refl hc

end Socket

namespace SocketRequest

variable {soi : SocketObjectInterface}

def id : SocketRequest soi → Option ℤ
  | .S id _ | .B id _ _ | .L id _ _ | .K id _ _ | .O id _ | .C id _ | .T id | .U id _ _ _ => some id
  | .D r | .P r | .A r => some r.id
  | .X => none

def sends : SocketRequest soi → Option (SendRequest soi)
  | .D r | .P r | .A r => some r
  | _ => none

/-- The id that was reserved for a request. -/
def opens : SocketRequest soi → Option ℤ
  | .B id _ _ | .L id _ _ | .O id _ | .U id _ _ _ => some id
  | _ => none

end SocketRequest

namespace SocketServer

open Socket

variable {soi : SocketObjectInterface} {ss ss' : SocketServer soi} {i j : ℕ} {id : ℤ}
  {m : Option SocketMessage} {c : SocketCalls}

/-! ## Reserving an id -/

theorem nextId_eq {a : ℤ} (h₀ : 0 ≤ a) (h : a < 2 ^ 31) :
    (if atomInc a < 0 then atomInc a % 2 ^ 31 else atomInc a) = (a + 1) % 2 ^ 31 := by
  unfold atomInc
  split_ifs <;> omega

theorem hashId_lt (id : ℤ) : hashId id < maxSocket := by
  unfold hashId maxSocket
  omega

/-- What `reserve_id` makes of the server where it finds a slot for the id. -/
def reserved (ss : SocketServer soi) (id : ℤ) : SocketServer soi :=
  { ss.put (hashId id) { ss.slot (hashId id) with
      type := .reserve
      id := id
      fd := -1
      life := .new false } with allocId := id }

theorem reserveLoop_spec : ∀ (n : ℕ) (ss : SocketServer soi), 0 ≤ ss.allocId → ss.allocId < 2 ^ 31 →
    (∃ a, 0 ≤ a ∧ a < 2 ^ 31 ∧ reserveLoop n ss = ({ ss with allocId := a }, none)
      ∧ ∀ k < n, (ss.slot (hashId ((ss.allocId + 1 + k) % 2 ^ 31))).type ≠ .invalid)
    ∨ ∃ id, 0 ≤ id ∧ id < 2 ^ 31 ∧ reserveLoop n ss = (ss.reserved id, some id)
      ∧ (ss.slot (hashId id)).type = .invalid
  | 0, ss, h₀, h => .inl ⟨ss.allocId, h₀, h, rfl, fun k hk => by omega⟩
  | n + 1, ss, h₀, h => by
    rw [reserveLoop, nextId_eq h₀ h]
    obtain ⟨id, hid⟩ : ∃ id, id = (ss.allocId + 1) % 2 ^ 31 := ⟨_, rfl⟩
    have hid₀ : 0 ≤ id := by omega
    have hlt : id < 2 ^ 31 := by omega
    rw [← hid]
    dsimp only
    by_cases hi : (ss.slot (hashId id)).type = .invalid
    · rw [if_pos hi]
      exact .inr ⟨id, hid₀, hlt, rfl, hi⟩
    rw [if_neg hi]
    obtain ⟨a, ha₀, ha, hr, hused⟩ | hfound := reserveLoop_spec n { ss with allocId := id } hid₀ hlt
    · refine .inl ⟨a, ha₀, ha, hr, fun k hk => ?_⟩
      rcases Nat.eq_zero_or_pos k with rfl | hpos
      · rw [Nat.cast_zero, Int.add_zero, ← hid]
        exact hi
      · have := hused (k - 1) (by omega)
        rwa [show ((({ ss with allocId := id } : SocketServer soi).allocId + 1 + (k - 1 : ℕ)) % 2 ^ 31)
          = (ss.allocId + 1 + k) % 2 ^ 31 by dsimp only; omega] at this
    · exact .inr hfound

theorem exists_nextId (a : ℤ) (hi : i < maxSocket) :
    ∃ k < maxSocket, hashId ((a + 1 + k) % 2 ^ 31) = i := by
  unfold hashId maxSocket at *
  refine ⟨((i - a - 1) % 2 ^ 16).toNat, by omega, by omega⟩

/-! ## What every step keeps -/

/-- The slot of a socket is told by its id, and no request waits to open anything else. -/
structure SlotIds (ss : SocketServer soi) : Prop where
  counter : 0 ≤ ss.allocId ∧ ss.allocId < 2 ^ 31
  clean : ∀ i, (ss.slot i).Clean
  place : ∀ i, (ss.slot i).type ≠ .invalid → hashId (ss.slot i).id = i
    ∧ 0 ≤ (ss.slot i).id ∧ (ss.slot i).id < 2 ^ 31
  opens : ∀ r ∈ ss.pipe, ∀ id, r.opens = some id →
    (ss.slot (hashId id)).type = .reserve ∧ (ss.slot (hashId id)).id = id
  once : (ss.pipe.filterMap SocketRequest.opens).Nodup

/-- No request waits to open the slot. -/
def Unasked (ss : SocketServer soi) (i : ℕ) : Prop :=
  ∀ r ∈ ss.pipe, ∀ id, r.opens = some id → hashId id ≠ i

theorem SlotIds.create : SlotIds (create : SocketServer soi) where
  counter := ⟨Int.le_refl 0, Int.pow_pos (by decide)⟩
  clean := fun _ _ => rfl
  place := fun _ h => absurd rfl h
  opens := fun r hr => by cases hr
  once := nodup_nil

theorem SlotIds.congr (h : SlotIds ss) (ha : ss'.allocId = ss.allocId) (hs : ss'.slot = ss.slot)
    (hp : ss'.pipe = ss.pipe) : SlotIds ss' := by
  refine ⟨ha ▸ h.counter, hs ▸ h.clean, hs ▸ h.place, ?_, hp ▸ h.once⟩
  rw [hp, hs]
  exact h.opens

theorem SlotIds.put (h : SlotIds ss) {s : Socket} (hc : s.Clean)
    (hplace : s.type ≠ .invalid → hashId s.id = i ∧ 0 ≤ s.id ∧ s.id < 2 ^ 31)
    (hopens : ∀ r ∈ ss.pipe, ∀ id, r.opens = some id → hashId id = i → s.type = .reserve ∧ s.id = id) :
    SlotIds (ss.put i s) := by
  refine ⟨h.counter, fun j => ?_, fun j hj => ?_, fun r hr id hid => ?_, h.once⟩
  · by_cases hji : j = i
    · rw [hji, put_slot_self]
      exact hc
    · rw [put_slot_ne hji]
      exact h.clean j
  · by_cases hji : j = i
    · subst hji
      rw [put_slot_self] at hj ⊢
      exact hplace hj
    · rw [put_slot_ne hji] at hj ⊢
      exact h.place j hj
  · by_cases hi : hashId id = i
    · subst hi
      rw [put_slot_self]
      exact hopens r hr id hid rfl
    · rw [put_slot_ne hi]
      exact h.opens r hr id hid

theorem SlotIds.follows (h : SlotIds ss) {s : Socket} (hf : Follows (ss.slot i) s) :
    SlotIds (ss.put i s) := by
  refine h.put hf.clean (fun hi => ?_) fun r hr id hid hi => ?_
  · rw [hf.id]
    exact h.place i fun hv => hi ((hf.vacant (.inl hv)).trans hv)
  · subst hi
    obtain ⟨ht, hid⟩ := h.opens r hr id hid
    exact ⟨(hf.vacant (.inr ht)).trans ht, hf.id.trans hid⟩

theorem SlotIds.pop (h : SlotIds ss) {r : SocketRequest soi} {rs : List (SocketRequest soi)}
    (hp : ss.pipe = r :: rs) : SlotIds { ss with pipe := rs } ∧ ∀ id, r.opens = some id →
      (ss.slot (hashId id)).type = .reserve ∧ (ss.slot (hashId id)).id = id
        ∧ Unasked { ss with pipe := rs } (hashId id) := by
  have honce := h.once
  have hopens := h.opens
  rw [hp] at honce hopens
  refine ⟨⟨h.counter, h.clean, h.place, fun q hq => hopens q (mem_cons_of_mem _ hq), ?_⟩,
    fun id hid => ?_⟩
  · refine honce.sublist ?_
    exact (sublist_cons_self r rs).filterMap _
  · obtain ⟨ht, hs⟩ := hopens r mem_cons_self id hid
    refine ⟨ht, hs, fun q hq id' hid' heq => ?_⟩
    obtain ⟨-, hs'⟩ := hopens q (mem_cons_of_mem _ hq) id' hid'
    rw [filterMap_cons_some hid, nodup_cons] at honce
    refine honce.1 (mem_filterMap.2 ⟨q, hq, ?_⟩)
    rw [hid', ← hs', heq, hs]

theorem SlotIds.reserved (h : SlotIds ss) (h₀ : 0 ≤ id) (hlt : id < 2 ^ 31)
    (hi : (ss.slot (hashId id)).type = .invalid) :
    SlotIds (ss.reserved id) ∧ Unasked (ss.reserved id) (hashId id) := by
  have hun : Unasked ss (hashId id) := fun r hr id' hid heq => by
    have := (h.opens r hr id' hid).1
    rw [heq, hi] at this
    cases this
  have hput := h.put (i := hashId id) (s := { ss.slot (hashId id) with
      type := .reserve, id := id, fd := -1, life := .new false })
    (fun _ => h.clean (hashId id) (.inl hi)) (fun _ => ⟨rfl, h₀, hlt⟩)
    (fun r hr id' hid heq => absurd heq (hun r hr id' hid))
  exact ⟨⟨⟨h₀, hlt⟩, hput.clean, hput.place, hput.opens, hput.once⟩, hun⟩

theorem SlotIds.opened (h : SlotIds ss) (ht : (ss.slot (hashId id)).type = .reserve)
    (hs : (ss.slot (hashId id)).id = id) (hu : Unasked ss (hashId id)) {fd : ℤ}
    {protocol : Protocol} {owner : ℕ} {add : Bool} {s : Socket}
    (hfd : ss.newFd id fd protocol owner add = some s) {type : SocketType} (writing : Bool)
    (htype : type ≠ .invalid ∧ type ≠ .reserve) :
    SlotIds (ss.put (hashId id) { s with type := type, writing := writing }) := by
  obtain ⟨-, h₀, hlt⟩ := h.place (hashId id) (by rw [ht]; decide)
  rw [hs] at h₀ hlt
  simp only [newFd] at hfd
  split_ifs at hfd
  obtain rfl := some.inj hfd
  exact h.put (fun hv => absurd hv (not_or.2 htype)) (fun _ => ⟨rfl, h₀, hlt⟩)
    fun r hr id' hid heq => absurd heq (hu r hr id' hid)

theorem SlotIds.giveUp (h : SlotIds ss) (ht : (ss.slot (hashId id)).type = .reserve)
    (hu : Unasked ss (hashId id)) : SlotIds (ss.giveUp id) :=
  h.put (fun _ => h.clean (hashId id) (.inr ht)) (fun h => absurd rfl h)
    fun r hr id' hid heq => absurd heq (hu r hr id' hid)

theorem SlotIds.withSlot (h : SlotIds ss) {f : Socket → Option (Socket × Option SocketMessage)}
    (hf : ∀ s m, f (ss.slot i) = some (s, m) → Follows (ss.slot i) s)
    (hst : ss.withSlot i f = some (ss', m)) : SlotIds ss' := by
  obtain ⟨⟨s, o⟩, hs, heq⟩ := map_eq_some_iff.1 hst
  obtain ⟨rfl, -⟩ := Prod.mk.inj heq
  exact h.follows (hf s o hs)

theorem SlotIds.openSocket (h : SlotIds ss) (ht : (ss.slot (hashId id)).type = .reserve)
    (hs : (ss.slot (hashId id)).id = id) (hu : Unasked ss (hashId id)) {owner : ℕ}
    (hst : ss.openSocket id owner c = some (ss', m)) : SlotIds ss' := by
  unfold SocketServer.openSocket at hst
  dsimp only at hst
  split at hst
  · obtain ⟨rfl, -⟩ := Prod.mk.inj (some.inj hst)
    exact h.giveUp ht hu
  · rw [if_neg (not_not.2 ht)] at hst
    obtain ⟨rfl, -⟩ := Prod.mk.inj (some.inj hst)
    exact h.giveUp ht hu
  · rw [if_neg (not_not.2 ht)] at hst
    obtain ⟨rfl, -⟩ := Prod.mk.inj (some.inj hst)
    exact h.giveUp ht hu
  · obtain ⟨s, hfd, heq⟩ := map_eq_some_iff.1 hst
    obtain ⟨rfl, -⟩ := Prod.mk.inj heq
    exact h.opened ht hs hu hfd s.writing (by decide)
  · obtain ⟨s, hfd, heq⟩ := map_eq_some_iff.1 hst
    obtain ⟨rfl, -⟩ := Prod.mk.inj heq
    exact h.opened ht hs hu hfd true (by decide)

theorem SlotIds.ctrlCmd (h : SlotIds ss) {r : SocketRequest soi}
    (ho : ∀ id, r.opens = some id → (ss.slot (hashId id)).type = .reserve
      ∧ (ss.slot (hashId id)).id = id ∧ Unasked ss (hashId id))
    (hr : ∀ q, r.sends = some q → (ss.slot (hashId q.id)).id = q.id →
      (ss.slot (hashId q.id)).type ≠ .reserve)
    (hst : ss.ctrlCmd c r = (i, some (ss', m))) : SlotIds ss' := by
  replace hst : (ss.ctrlCmd c r).2 = some (ss', m) := congrArg Prod.snd hst
  cases r <;> dsimp only [SocketServer.ctrlCmd] at hst
  case S id owner => exact h.withSlot (fun s m hs => startSocket_follows (h.clean _) hs) hst
  case K id shutdown owner => exact h.withSlot (fun s m hs => closeSocket_follows (h.clean _) hs) hst
  case D q => exact h.withSlot (fun s m hs => sendSocket_follows (h.clean _) (hr q rfl) hs) hst
  case P q => exact h.withSlot (fun s m hs => sendSocket_follows (h.clean _) (hr q rfl) hs) hst
  case A q => exact h.withSlot (fun s m hs => sendSocket_follows (h.clean _) (hr q rfl) hs) hst
  case O id owner =>
    obtain ⟨ht, hs, hu⟩ := ho id rfl
    exact h.openSocket ht hs hu hst
  case L id fd owner =>
    obtain ⟨ht, hs, hu⟩ := ho id rfl
    obtain ⟨s, hfd, heq⟩ := map_eq_some_iff.1 hst
    obtain ⟨rfl, -⟩ := Prod.mk.inj heq
    exact h.opened ht hs hu hfd s.writing (by decide)
  case B id fd owner =>
    obtain ⟨ht, hs, hu⟩ := ho id rfl
    cases ha : c.add with
    | some e =>
      simp only [bindSocket, ha, if_neg (not_not.2 ht)] at hst
      obtain ⟨rfl, -⟩ := Prod.mk.inj (some.inj hst)
      exact h.giveUp ht hu
    | none =>
      simp only [bindSocket, ha] at hst
      obtain ⟨s, hfd, heq⟩ := map_eq_some_iff.1 hst
      obtain ⟨rfl, -⟩ := Prod.mk.inj heq
      exact h.opened ht hs hu hfd s.writing (by decide)
  case U id fd protocol owner =>
    obtain ⟨ht, hs, hu⟩ := ho id rfl
    cases ha : c.add with
    | some e =>
      simp only [addUdpSocket, ha, if_neg (not_not.2 ht)] at hst
      obtain ⟨rfl, -⟩ := Prod.mk.inj (some.inj hst)
      exact h.giveUp ht hu
    | none =>
      simp only [addUdpSocket, ha] at hst
      obtain ⟨s, hfd, heq⟩ := map_eq_some_iff.1 hst
      obtain ⟨rfl, -⟩ := Prod.mk.inj heq
      exact h.opened ht hs hu hfd s.writing (by decide)
  case X =>
    obtain ⟨rfl, -⟩ := Prod.mk.inj (some.inj hst)
    exact h
  case C id protocol =>
    obtain ⟨rfl, -⟩ := Prod.mk.inj (some.inj hst)
    exact h
  case T id =>
    obtain ⟨rfl, -⟩ := Prod.mk.inj (some.inj hst)
    exact h

theorem SlotIds.note (h : SlotIds ss) {asked : Bool} {w : SocketServer soi} :
    SlotIds (ss.note i asked w m) := h.follows (note_follows (h.clean i))

theorem reserveId_cases (h : SlotIds ss) :
    (∃ a, ss.reserveId = ({ ss with allocId := a }, none) ∧ SlotIds { ss with allocId := a }
      ∧ ∀ i < maxSocket, (ss.slot i).type ≠ .invalid)
    ∨ ∃ id, ss.reserveId = (ss.reserved id, some id) ∧ 0 ≤ id ∧ id < 2 ^ 31
      ∧ (ss.slot (hashId id)).type = .invalid := by
  obtain ⟨a, ha₀, ha, hr, hused⟩ | ⟨id, h₀, hlt, hr, hi⟩ :=
    reserveLoop_spec maxSocket ss h.counter.1 h.counter.2
  · refine .inl ⟨a, hr, ⟨⟨ha₀, ha⟩, h.clean, h.place, h.opens, h.once⟩, fun i hi => ?_⟩
    obtain ⟨k, hk, rfl⟩ := exists_nextId ss.allocId hi
    exact hused k hk
  · exact .inr ⟨id, hr, h₀, hlt, hi⟩

theorem SlotIds.reportAccept (h : SlotIds ss) {a : AcceptResult}
    (hst : ss.reportAccept i a = some (ss', m)) : SlotIds ss' := by
  cases a with
  | limit e =>
    obtain ⟨rfl, -⟩ := Prod.mk.inj (some.inj hst)
    exact h
  | failed =>
    obtain ⟨rfl, -⟩ := Prod.mk.inj (some.inj hst)
    exact h
  | accepted fd address =>
    obtain ⟨a, hr, ha, -⟩ | ⟨id, hr, h₀, hlt, hi⟩ := reserveId_cases h
    · simp only [SocketServer.reportAccept, hr] at hst
      obtain ⟨rfl, -⟩ := Prod.mk.inj (some.inj hst)
      exact ha
    · simp only [SocketServer.reportAccept, hr] at hst
      obtain ⟨s, hfd, heq⟩ := map_eq_some_iff.1 hst
      obtain ⟨rfl, -⟩ := Prod.mk.inj heq
      obtain ⟨hres, hu⟩ := h.reserved h₀ hlt hi
      have hslot : (ss.reserved id).slot (hashId id) = _ := put_slot_self
      exact hres.opened (by rw [hslot]) (by rw [hslot]) hu hfd s.writing (by decide)

theorem SlotIds.dispatch (h : SlotIds ss) {e : SocketEvent}
    (hst : ss.dispatch e i c = some (ss', m)) : SlotIds ss' := by
  unfold SocketServer.dispatch at hst
  split at hst
  · rename_i ht
    exact h.withSlot (fun s m hs => reportConnect_follows ht hs) hst
  · exact h.reportAccept hst
  · obtain ⟨rfl, -⟩ := Prod.mk.inj (some.inj hst)
    exact h
  · rename_i hi
    obtain ⟨⟨s, o, again⟩, hs, heq⟩ := map_eq_some_iff.1 hst
    have hput := h.follows (readWrite_follows (fun ht => hi ht) (h.clean i) hs)
    obtain ⟨rfl, -⟩ := Prod.mk.inj heq
    cases again with
    | none => exact hput
    | some read => exact hput.congr rfl rfl rfl

theorem SlotIds.pollEvent (h : SlotIds ss) (hst : ss.pollEvent c = some ss') : SlotIds ss' := by
  have hturn {u : SocketServer soi} (hu : SlotIds u) (hst : pollEvent.turn c u = some ss') :
      SlotIds ss' := by
    unfold pollEvent.turn at hst
    split at hst
    · obtain rfl := some.inj hst
      exact hu
    split at hst
    · obtain rfl := some.inj hst
      exact hu.congr rfl rfl rfl
    · rename_i e es _ _ i _
      obtain ⟨⟨v, m⟩, hd, rfl⟩ := map_eq_some_iff.1 hst
      have hes : SlotIds { u with ev := es } := hu.congr rfl rfl rfl
      exact (hes.dispatch hd).note
  unfold SocketServer.pollEvent at hst
  split_ifs at hst
  · exact hturn (u := { ss with ev := c.wait, checkctrl := true }) (h.congr rfl rfl rfl) hst
  · exact hturn h hst

theorem clearClosedEvent_eq (ss : SocketServer soi) (m : Option SocketMessage) :
    ∃ ev, ss.clearClosedEvent m = { ss with ev := ev } := by
  cases m with
  | none => exact ⟨ss.ev, rfl⟩
  | some m =>
    unfold clearClosedEvent
    dsimp only
    split_ifs
    · exact ⟨_, rfl⟩
    · exact ⟨ss.ev, rfl⟩

/-- A request to send is handled that names a socket which is not opened yet. -/
def sendsReserved (ss : SocketServer soi) : SocketLabel soi → Bool
  | .poll _ => ss.checkctrl && (ss.pipe.head?.bind SocketRequest.sends).any fun r =>
      (ss.slot (hashId r.id)).type = .reserve ∧ (ss.slot (hashId r.id)).id = r.id
  | _ => false

theorem poll_request {r : SocketRequest soi} {rs : List (SocketRequest soi)}
    (hctrl : ss.checkctrl = true) (hp : ss.pipe = r :: rs) (hst : ss.poll c = some ss') :
    ∃ i u m, ({ ss with pipe := rs } : SocketServer soi).ctrlCmd c r = (i, some (u, m))
      ∧ ss' = (u.clearClosedEvent m).note i true ss m := by
  unfold SocketServer.poll at hst
  rw [if_pos hctrl, hp] at hst
  dsimp only at hst
  split at hst
  · cases hst
  · rename_i i u m hr
    exact ⟨i, u, m, hr, (some.inj hst).symm⟩

theorem SlotIds.poll (h : SlotIds ss) (hok : ss.sendsReserved (.poll c) = false)
    (hst : ss.poll c = some ss') : SlotIds ss' := by
  by_cases hctrl : ss.checkctrl = true
  · rcases hp : ss.pipe with _ | ⟨r, rs⟩
    · unfold SocketServer.poll at hst
      rw [if_pos hctrl, hp] at hst
      have hctrl : SlotIds { ss with checkctrl := false, pipe := [] } := h.congr rfl rfl hp.symm
      exact hctrl.pollEvent hst
    · obtain ⟨i, u, m, hr, rfl⟩ := poll_request hctrl hp hst
      obtain ⟨hpop, ho⟩ := h.pop hp
      obtain ⟨ev, hev⟩ := u.clearClosedEvent_eq m
      rw [hev]
      have hsend : ∀ q, r.sends = some q → (ss.slot (hashId q.id)).id = q.id →
          (ss.slot (hashId q.id)).type ≠ .reserve := fun q hq hid ht => by
        rw [sendsReserved, hctrl, hp, List.head?_cons, bind_some, hq] at hok
        exact absurd ⟨ht, hid⟩ (of_decide_eq_false hok)
      have hu : SlotIds u := hpop.ctrlCmd ho hsend hr
      have hclear : SlotIds { u with ev := ev } := hu.congr rfl rfl rfl
      exact hclear.note
  · unfold SocketServer.poll at hst
    rw [if_neg hctrl] at hst
    exact h.pollEvent hst

theorem SlotIds.openRequest (h : SlotIds ss) {request : ℤ → SocketRequest soi}
    (hr : ∀ id, (request id).opens = some id) : SlotIds (ss.openRequest request) := by
  obtain ⟨a, hres, ha, -⟩ | ⟨id, hres, h₀, hlt, hi⟩ := reserveId_cases h
  · rw [SocketServer.openRequest, hres]
    exact ha
  · rw [SocketServer.openRequest, hres]
    obtain ⟨hs, hu⟩ := h.reserved h₀ hlt hi
    have hslot : (ss.reserved id).slot (hashId id) = _ := put_slot_self
    refine ⟨hs.counter, hs.clean, hs.place, fun r hm id' hid => ?_, ?_⟩
    · rcases mem_append.1 hm with hm | hm
      · exact hs.opens r hm id' hid
      · obtain rfl := mem_singleton.1 hm
        obtain rfl := some.inj ((hr id).symm.trans hid)
        exact ⟨congrArg Socket.type hslot, congrArg Socket.id hslot⟩
    · dsimp only
      rw [filterMap_append, filterMap_cons_some (hr id), filterMap_nil]
      refine nodup_append.2 ⟨hs.once, nodup_singleton _, fun a ha b hb hab => ?_⟩
      obtain ⟨r, hm, hid⟩ := mem_filterMap.1 ha
      obtain rfl := mem_singleton.1 hb
      exact hu r hm a hid (congrArg hashId hab)

theorem SlotIds.request (h : SlotIds ss) {r : SocketRequest soi} (hr : r.opens = none) :
    SlotIds (ss.request r) := by
  refine ⟨h.counter, h.clean, h.place, fun q hm id hid => ?_, ?_⟩
  · rcases mem_append.1 hm with hm | hm
    · exact h.opens q hm id hid
    · obtain rfl := mem_singleton.1 hm
      rw [hr] at hid
      cases hid
  · dsimp only [SocketServer.request]
    rw [filterMap_append, filterMap_cons_none hr, filterMap_nil, append_nil]
    exact h.once

theorem SlotIds.sendRequest (h : SlotIds ss) {r : SocketRequest soi} (hr : r.opens = none) :
    SlotIds (ss.sendRequest id r) := by
  unfold SocketServer.sendRequest
  split_ifs
  · exact h
  · exact h.request hr

theorem SlotIds.step (h : SlotIds ss) {l : SocketLabel soi} (hok : ss.sendsReserved l = false)
    (hst : ss.step l = some ss') : SlotIds ss' := by
  cases l with
  | poll c => exact h.poll hok hst
  | connect owner => exact some.inj hst ▸ h.openRequest fun _ => rfl
  | listen fd owner => exact some.inj hst ▸ h.openRequest fun _ => rfl
  | bind fd owner => exact some.inj hst ▸ h.openRequest fun _ => rfl
  | udp fd protocol owner => exact some.inj hst ▸ h.openRequest fun _ => rfl
  | send r => exact some.inj hst ▸ h.sendRequest rfl
  | sendLowpriority r => exact some.inj hst ▸ h.sendRequest rfl
  | udpSend r => exact some.inj hst ▸ h.sendRequest rfl
  | udpConnect id protocol => exact some.inj hst ▸ h.request rfl
  | start id owner => exact some.inj hst ▸ h.request rfl
  | close id owner => exact some.inj hst ▸ h.request rfl
  | shutdown id owner => exact some.inj hst ▸ h.request rfl
  | nodelay id => exact some.inj hst ▸ h.request rfl
  | exit => exact some.inj hst ▸ h.request rfl

/-! ## Requests for other sockets -/

theorem Answered.slot_ne (h : Answered ss i ss' m) (hj : j ≠ i) : ss'.slot j = ss.slot j := by
  cases h with
  | idle => rfl
  | vacant => exact put_slot_ne hj
  | fresh => exact put_slot_ne hj
  | moved => exact put_slot_ne hj

/-- The answer to a request about a socket that is not in its slot. -/
def Elsewhere (ss : SocketServer soi) (i : ℕ) (ss' : SocketServer soi) (m : Option SocketMessage) :
    Prop :=
  ss'.slot i = ss.slot i ∧ ∀ a, m = some a → a.type = .socketExit ∨ a.id ≠ (ss.slot i).id

theorem elsewhere_withSlot {f : Socket → Option (Socket × Option SocketMessage)}
    (hf : f (ss.slot i) = some (ss.slot i, m)) (hm : ∀ a, m = some a → a.id ≠ (ss.slot i).id)
    {o : Option SocketMessage} (hst : ss.withSlot i f = some (ss', o)) : Elsewhere ss i ss' o := by
  rw [withSlot, hf] at hst
  obtain ⟨rfl, rfl⟩ := Prod.mk.inj (some.inj hst)
  exact ⟨put_slot_self, fun a ha => .inr (hm a ha)⟩

theorem ctrlCmd_elsewhere {r : SocketRequest soi}
    (ho : ∀ id, r.opens = some id → (ss.slot (hashId id)).id = id)
    (hst : ss.ctrlCmd c r = (i, some (ss', m))) (hid : r.id ≠ some (ss.slot i).id) :
    Elsewhere ss i ss' m := by
  have hopen {id : ℤ} (hr : r.opens = some id) (hi : hashId id = i) (hrid : r.id = some id) : False :=
    hid (by rw [hrid, ← hi, ho id hr])
  cases r <;> simp only [SocketServer.ctrlCmd, Prod.mk.injEq] at hst <;>
    obtain ⟨rfl, hst⟩ := hst
  case S id owner =>
    have hne : (ss.slot (hashId id)).id ≠ id := fun h => hid (congrArg some h.symm)
    refine elsewhere_withSlot (if_pos (.inr hne)) (fun a ha => ?_) hst
    obtain rfl := some.inj ha
    exact hne.symm
  case K id shutdown owner =>
    have hne : (ss.slot (hashId id)).id ≠ id := fun h => hid (congrArg some h.symm)
    refine elsewhere_withSlot (if_pos (.inr hne)) (fun a ha => ?_) hst
    obtain rfl := some.inj ha
    exact hne.symm
  case D q =>
    have hne : (ss.slot (hashId q.id)).id ≠ q.id := fun h => hid (congrArg some h.symm)
    exact elsewhere_withSlot (if_pos (.inr (.inl hne))) (fun a ha => by cases ha) hst
  case P q =>
    have hne : (ss.slot (hashId q.id)).id ≠ q.id := fun h => hid (congrArg some h.symm)
    exact elsewhere_withSlot (if_pos (.inr (.inl hne))) (fun a ha => by cases ha) hst
  case A q =>
    have hne : (ss.slot (hashId q.id)).id ≠ q.id := fun h => hid (congrArg some h.symm)
    exact elsewhere_withSlot (if_pos (.inr (.inl hne))) (fun a ha => by cases ha) hst
  case C id protocol =>
    have hne : (ss.slot (hashId id)).id ≠ id := fun h => hid (congrArg some h.symm)
    obtain ⟨rfl, rfl⟩ := Prod.mk.inj (some.inj hst)
    refine ⟨rfl, fun a ha => ?_⟩
    rw [setUdpAddress, if_pos (.inr hne)] at ha
    cases ha
  case T id =>
    obtain ⟨rfl, rfl⟩ := Prod.mk.inj (some.inj hst)
    exact ⟨rfl, fun a ha => by cases ha⟩
  case X =>
    obtain ⟨rfl, rfl⟩ := Prod.mk.inj (some.inj hst)
    exact ⟨rfl, fun a ha => .inl (some.inj ha ▸ rfl)⟩
  case O => exact (hopen rfl rfl rfl).elim
  case L => exact (hopen rfl rfl rfl).elim
  case B => exact (hopen rfl rfl rfl).elim
  case U => exact (hopen rfl rfl rfl).elim

theorem note_elsewhere {s before : Socket} {asked : Bool}
    (hm : ∀ a, m = some a → a.type = .socketExit ∨ a.id ≠ s.id) : s.note asked before m = s := by
  cases m with
  | none => rfl
  | some a =>
    refine if_neg fun h => ?_
    rcases hm a rfl with ht | hne
    · rw [ht] at h
      simp at h
    · exact hne h.2.2.1.symm

theorem SlotIds.others (h : SlotIds ss) {r : SocketRequest soi} {rs : List (SocketRequest soi)}
    (hctrl : ss.checkctrl = true) (hp : ss.pipe = r :: rs) (hst : ss.poll c = some ss')
    (hid : r.id ≠ some (ss.slot j).id) : ss'.slot j = ss.slot j := by
  obtain ⟨i, u, m, hr, rfl⟩ := poll_request hctrl hp hst
  obtain ⟨-, ho⟩ := h.pop hp
  by_cases hj : j = i
  · subst hj
    have ho : ∀ id, r.opens = some id →
        (({ ss with pipe := rs } : SocketServer soi).slot (hashId id)).id = id :=
      fun id hid => (ho id hid).2.1
    obtain ⟨hs, hm⟩ := ctrlCmd_elsewhere ho hr hid
    rw [note_slot_self, clearClosedEvent_slot, hs]
    exact note_elsewhere hm
  · rw [note_slot_ne hj, clearClosedEvent_slot]
    exact (ctrlCmd_cases hr).slot_ne hj

/-- An id is given as long as a slot is free, and it is not negative; sockets in use, the reserved ones
with those whose request to open them is still in the pipe, have their own slot and id; and what a
request asks is not done to a socket that has another id. -/
structure Identified (ss : SocketServer soi) : Prop where
  given : ss.reserveId.2 ≠ none ↔ ∃ i < maxSocket, (ss.slot i).type = .invalid
  fresh : ∀ t id, ss.reserveId = (t, some id) → 0 ≤ id ∧ id < 2 ^ 31
    ∧ (ss.slot (hashId id)).type = .invalid ∧ t = ss.reserved id
  place : ∀ i, (ss.slot i).type ≠ .invalid → hashId (ss.slot i).id = i
  unique : ∀ i j, (ss.slot i).type ≠ .invalid → (ss.slot j).type ≠ .invalid →
    (ss.slot i).id = (ss.slot j).id → i = j
  opens : ∀ r ∈ ss.pipe, ∀ id, r.opens = some id →
    (ss.slot (hashId id)).type = .reserve ∧ (ss.slot (hashId id)).id = id
  once : (ss.pipe.filterMap SocketRequest.opens).Nodup
  others : ∀ r rs c t, ss.checkctrl = true → ss.pipe = r :: rs → ss.poll c = some t →
    ∀ j, r.id ≠ some (ss.slot j).id → t.slot j = ss.slot j
  options : ∀ id, (ss.slot (hashId id)).id ≠ id → (ss.slot (hashId id)).setoptSocket id = none

theorem SlotIds.identified (h : SlotIds ss) : Identified ss where
  given := by
    obtain ⟨a, hr, -, hused⟩ | ⟨id, hr, -, -, hi⟩ := reserveId_cases h
    · rw [hr]
      exact ⟨fun h => absurd rfl h, fun h => h.elim fun i hi => absurd hi.2 (hused i hi.1)⟩
    · rw [hr]
      exact ⟨fun _ => ⟨hashId id, hashId_lt id, hi⟩, fun _ => some_ne_none _⟩
  fresh t id ht := by
    obtain ⟨a, hr, -⟩ | ⟨id', hr, h₀, hlt, hi⟩ := reserveId_cases h
    · cases (Prod.mk.inj (hr.symm.trans ht)).2
    · obtain ⟨rfl, heq⟩ := Prod.mk.inj (hr.symm.trans ht)
      obtain rfl := some.inj heq
      exact ⟨h₀, hlt, hi, rfl⟩
  place i hi := (h.place i hi).1
  unique i j hi hj heq := (h.place i hi).1.symm.trans ((congrArg hashId heq).trans (h.place j hj).1)
  opens := h.opens
  once := h.once
  others _ _ _ _ hctrl hp hst _ hid := h.others hctrl hp hst hid
  options _ hne := if_pos (.inr hne)

/-- In every run the sockets are told by their ids, as long as nothing is sent to a socket before the
request to open it is handled. -/
theorem identified_of_reachable
    (h : (machine soi).Reach (fun ss l => ss.sendsReserved l = false) ss) : Identified ss :=
  (h.invariant (I := SlotIds) SlotIds.create fun _ _ _ hi hok hst => hi.step hok hst).identified

/-- A socket fails to open, another one is opened and closed, and the slot of a third one, which is
sent to and accepts, is not the one of the listening socket. -/
theorem identified_of_reopened :
    ∃ ss : SocketServer ⟨fun object => object + 1000, fun _ => 2⟩, Identified ss ∧
      (ss.slot 1).type = .invalid ∧ (ss.slot 2).type = .invalid ∧
      (ss.slot 3).type = .listen ∧ (ss.slot 4).type = .paccept ∧ (ss.slot 5).type = .reserve := by
  have hl : ((machine ⟨fun object => object + 1000, fun _ => 2⟩).run
      (fun ss l => ss.sendsReserved l = false) create [
        .connect 7, .poll { opened := .failed "timed out" }, .connect 7, .close 1 7, .close 2 7,
        .poll { opened := .connected 5 .null }, .send ⟨2, 1, 300, [6], rfl⟩, .poll {}, .poll {},
        .poll { writes := [.wrote 1] }, .listen 6 8, .start 3 8, .poll {}, .poll {},
        .poll { wait := [⟨some 3, true, false⟩], accept := .accepted 9 .null }, .connect 8]).map
        (fun ss => [1, 2, 3, 4, 5].map fun i => (ss.slot i).type) =
      some [.invalid, .invalid, .listen, .paccept, .reserve] := by
    decide
  obtain ⟨ss, hr, he⟩ := Machine.exists_reach hl
  simp only [List.map_cons, List.map_nil, List.cons.injEq, and_true] at he
  exact ⟨ss, identified_of_reachable hr, he⟩

end SocketServer

end SkynetGame
