import SkynetGame.Harbor
import SkynetGame.Lib.Mask

/-!
# The harbor takes its bytes one by one

The type of a message and the local part of a handle share a word and do not disturb each other. The
loop of `push_socket_data` does for a buffer what `eat` does for each of its bytes
(`pushSocketData_eq`), so how the bytes are cut does not matter.
-/

namespace SkynetGame

open List

namespace Harbor

section Words

theorem toNat_high (b : UInt8) : (high b).toNat = b.toNat <<< 24 := by
  have hb := b.toNat_lt
  have hshift : (24 : UInt32).toNat % 32 = 24 := rfl
  simp only [high, HANDLE_REMOTE_SHIFT, UInt32.toNat_shiftLeft, UInt8.toNat_toUInt32]
  rw [hshift, Nat.shiftLeft_eq, Nat.mod_eq_of_lt]
  omega

theorem toNat_local (h : UInt32) : (h &&& HANDLE_MASK).toNat = h.toNat % 2 ^ 24 := by
  rw [UInt32.toNat_and]
  exact and_mask h.toNat 24

theorem toNat_harborOf (h : UInt32) : (harborOf h).toNat = h.toNat >>> 24 := by
  have hh := h.toNat_lt
  have hshift : (24 : UInt32).toNat % 32 = 24 := rfl
  simp only [harborOf, HANDLE_REMOTE_SHIFT, UInt32.toNat_toUInt8, UInt32.toNat_shiftRight]
  rw [hshift, Nat.shiftRight_eq_div_pow, Nat.mod_eq_of_lt]
  omega

@[simp] theorem harborOf_or (h : UInt32) (b : UInt8) :
    harborOf (h &&& HANDLE_MASK ||| high b) = b := by
  rw [← UInt8.toNat_inj, toNat_harborOf, UInt32.toNat_or, toNat_local, toNat_high]
  exact or_shiftLeft_shiftRight (Nat.mod_lt _ (by norm_num)) b.toNat

@[simp] theorem local_or (h : UInt32) (b : UInt8) :
    (h &&& HANDLE_MASK ||| high b) &&& HANDLE_MASK = h &&& HANDLE_MASK := by
  rw [← UInt32.toNat_inj, toNat_local, UInt32.toNat_or, toNat_local, toNat_high,
    or_shiftLeft_mod (Nat.mod_lt _ (by norm_num)) le_rfl, Nat.mod_mod]

theorem high_or (b : UInt8) (h : UInt32) :
    high b ||| (h &&& HANDLE_MASK) = h &&& HANDLE_MASK ||| high b := UInt32.or_comm ..

@[simp] theorem harborOf_high (b : UInt8) : harborOf (high b) = b := by
  rw [← UInt8.toNat_inj, toNat_harborOf, toNat_high, Nat.shiftLeft_shiftRight]

end Words

section Slaves

variable (h : State) (id : UInt8) (sl : Slave)

@[simp] theorem setSlave_self : (h.setSlave id sl).s id = sl := Function.update_self ..

theorem setSlave_of_ne {id' : UInt8} (hne : id' ≠ id) : (h.setSlave id sl).s id' = h.s id' :=
  Function.update_of_ne hne ..

@[simp] theorem setSlave_setSlave (sl' : Slave) :
    (h.setSlave id sl).setSlave id sl' = h.setSlave id sl' := by
  simp only [State.setSlave, Function.update_idem]

@[simp] theorem emit_setSlave (outs : List Out) :
    (h.emit outs).setSlave id sl = (h.setSlave id sl).emit outs := rfl

@[simp] theorem emit_s (outs : List Out) : (h.emit outs).s = h.s := rfl

@[simp] theorem setSlave_id : (h.setSlave id sl).id = h.id := rfl

@[simp] theorem setSlave_log : (h.setSlave id sl).log = h.log := rfl

end Slaves

section Bytes

variable (fails : ℕ → Bool) (id : UInt8)

/-- What a message that came in makes the service do. -/
def arrival (own : UInt8) (n : ℕ) (msg : Bytes) : List Out :=
  if msg.length < HEADER_COOKIE_LENGTH then [.short msg.length]
  else
    let header := messageToHeader (msg.drop (msg.length - HEADER_COOKIE_LENGTH))
    let type := harborOf header.destination
    let destination := header.destination &&& HANDLE_MASK ||| high own
    let session := header.session.toInt32
    .forward header.source destination type session
        (msg.take (msg.length - HEADER_COOKIE_LENGTH)) ::
      if fails n ∧ type ≠ PTYPE_ERROR then [.error destination header.source session] else []

theorem forwardLocalMessage_eq (msg : Bytes) (h : State) :
    forwardLocalMessage fails msg h = h.emit (arrival fails h.id h.log.length msg) := by
  unfold forwardLocalMessage arrival
  by_cases hlt : msg.length < HEADER_COOKIE_LENGTH
  · rw [if_pos hlt, if_pos hlt]
  · rw [if_neg hlt, if_neg hlt]

/-- A whole message is forwarded, and the next header is awaited. -/
def deliver (msg : Bytes) (h : State) : State :=
  (h.setSlave id { h.s id with length := 0, part := [], status := .header }).emit
    (arrival fails h.id h.log.length msg)

def eatHeader (h : State) (b : UInt8) : State :=
  let s := h.s id
  let size := s.part ++ [b]
  if size.length < 4 then h.setSlave id { s with part := size }
  else if size.head? ≠ some 0 then closeHarbor id (h.setSlave id { s with part := size })
  else h.setSlave id
    { s with length := Endian.ofBe size.tail, part := [], status := .content }

/-- A byte of the connection of a harbor. -/
def eat (h : State) (b : UInt8) : State :=
  let s := h.s id
  match s.status with
  | .handshake =>
    if b ≠ id then closeHarbor id h
    else dispatchQueue id (h.setSlave id { s with status := .header })
  | .header => eatHeader id h b
  | .content =>
    if s.length = 0 then eatHeader id (deliver fails id [] h) b
    else if s.part.length + 1 < s.length then h.setSlave id { s with part := s.part ++ [b] }
    else deliver fails id (s.part ++ [b]) h
  | .wait | .down => h

/-- What was read is not yet all of the header, or of the content. -/
structure Receiving (sl : Slave) : Prop where
  handshake : sl.status = .handshake → sl.part = []
  header : sl.status = .header → sl.part.length < 4
  content : sl.status = .content → sl.part.length < sl.length ∨ sl.length = 0 ∧ sl.part = []

variable {fails id}

theorem eat_header {h : State} (hst : (h.s id).status = .header) (b : UInt8) :
    eat fails id h b = eatHeader id h b := by
  rw [eat, hst]

theorem eat_content {h : State} (hst : (h.s id).status = .content) (b : UInt8) :
    eat fails id h b =
      if (h.s id).length = 0 then eatHeader id (deliver fails id [] h) b
      else if (h.s id).part.length + 1 < (h.s id).length then
        h.setSlave id { h.s id with part := (h.s id).part ++ [b] }
      else deliver fails id ((h.s id).part ++ [b]) h := by
  rw [eat]
  simp only [hst]

theorem eat_handshake {h : State} (hst : (h.s id).status = .handshake) (b : UInt8) :
    eat fails id h b = if b ≠ id then closeHarbor id h
      else dispatchQueue id (h.setSlave id { h.s id with status := .header }) := by
  rw [eat, hst]

theorem eat_idle {h : State} (hst : (h.s id).status = .wait ∨ (h.s id).status = .down)
    (b : UInt8) : eat fails id h b = h := by
  rw [eat]
  rcases hst with hst | hst
  · rw [hst]
  · rw [hst]

theorem foldl_content : ∀ {buffer : Bytes} {h : State}, (h.s id).status = .content →
    (h.s id).part.length < (h.s id).length →
    (h.s id).part.length + buffer.length ≤ (h.s id).length → buffer.foldl (eat fails id) h =
      if (h.s id).part.length + buffer.length < (h.s id).length then
        h.setSlave id { h.s id with part := (h.s id).part ++ buffer }
      else deliver fails id ((h.s id).part ++ buffer) h
  | [], h, _, hlt, _ => by
    rw [length_nil, Nat.add_zero, if_pos hlt, append_nil]
    simp only [State.setSlave, Function.update_eq_self, foldl_nil]
  | b :: buffer, h, hst, hlt, hle => by
    have hne : (h.s id).length ≠ 0 := by omega
    rw [length_cons] at hle ⊢
    rw [foldl_cons, eat_content hst, if_neg hne]
    by_cases hmore : (h.s id).part.length + 1 < (h.s id).length
    · rw [if_pos hmore, foldl_content (by rwa [setSlave_self])
        (by simp only [setSlave_self, length_append, length_singleton]; exact hmore)
        (by simp only [setSlave_self, length_append, length_singleton]; omega)]
      simp only [setSlave_self, setSlave_setSlave, length_append, length_singleton,
        append_assoc, singleton_append, deliver, setSlave_id, setSlave_log]
      exact if_congr (by omega) rfl rfl
    · have hnil : buffer = [] := eq_nil_of_length_eq_zero (by omega)
      subst hnil
      rw [if_neg hmore, length_nil, Nat.zero_add, if_neg hmore]
      rfl

theorem foldl_header : ∀ {buffer : Bytes} {h : State}, (h.s id).status = .header →
    (h.s id).part.length < 4 → (h.s id).part.length + buffer.length ≤ 4 →
      buffer.foldl (eat fails id) h =
        if (h.s id).part.length + buffer.length < 4 then
          h.setSlave id { h.s id with part := (h.s id).part ++ buffer }
        else if ((h.s id).part ++ buffer).head? ≠ some 0 then
          closeHarbor id (h.setSlave id { h.s id with part := (h.s id).part ++ buffer })
        else h.setSlave id { h.s id with
          length := Endian.ofBe ((h.s id).part ++ buffer).tail, part := [], status := .content }
  | [], h, _, hlt, _ => by
    rw [length_nil, Nat.add_zero, if_pos hlt, append_nil]
    simp only [State.setSlave, Function.update_eq_self, foldl_nil]
  | b :: buffer, h, hst, hlt, hle => by
    rw [length_cons] at hle ⊢
    rw [foldl_cons, eat_header hst, eatHeader]
    simp only [length_append, length_singleton]
    by_cases hmore : (h.s id).part.length + 1 < 4
    · rw [if_pos hmore, foldl_header (by rwa [setSlave_self])
        (by simp only [setSlave_self, length_append, length_singleton]; exact hmore)
        (by simp only [setSlave_self, length_append, length_singleton]; omega)]
      simp only [setSlave_self, setSlave_setSlave, length_append, length_singleton,
        append_assoc, singleton_append]
      exact if_congr (by omega) rfl rfl
    · have hnil : buffer = [] := eq_nil_of_length_eq_zero (by omega)
      subst hnil
      rw [if_neg hmore, length_nil, Nat.zero_add, if_neg hmore]
      rfl

theorem foldl_idle {h : State} (hst : (h.s id).status = .wait ∨ (h.s id).status = .down) :
    ∀ buffer : Bytes, buffer.foldl (eat fails id) h = h
  | [] => rfl
  | b :: buffer => by rw [foldl_cons, eat_idle hst, foldl_idle hst buffer]

theorem closeHarbor_status (h : State) : ((closeHarbor id h).s id).status = .down := by
  show (((h.setSlave id _).s id).status) = _
  rw [setSlave_self]

theorem dispatchQueue_eq (h : State) :
    dispatchQueue id h = (h.setSlave id { h.s id with queue := none }).emit
      (drain id (h.s id).fd ((h.s id).queue.getD [])) := by
  unfold dispatchQueue
  cases hq : (h.s id).queue with
  | none =>
    have hsame : { h.s id with queue := none } = h.s id := by rw [← hq]
    simp only [hq, hsame, State.setSlave, Function.update_eq_self, Option.getD_none]
    exact (congrArg (fun log => { h with log := log }) (append_nil h.log)).symm
  | some queue =>
    simp only [hq]
    rfl

theorem dispatchQueue_s (h : State) :
    (dispatchQueue id h).s id = { h.s id with queue := none } := by
  rw [dispatchQueue_eq, emit_s, setSlave_self]

variable (fails id) in
/-- A round of the loop does what its bytes do, and leaves a receiver for the others. -/
def Round (buffer : Bytes) (h : State) (n : ℕ) (r : State × Option Bytes) : Prop :=
  match r.2 with
  | none => buffer.foldl (eat fails id) h = r.1
  | some more => buffer.foldl (eat fails id) h = more.foldl (eat fails id) r.1 ∧
    Receiving (r.1.s id) ∧ (r.1.s id).status = .header ∧ more.length < n

theorem deliver_s (msg : Bytes) (h : State) : (deliver fails id msg h).s id =
    { h.s id with length := 0, part := [], status := .header } := setSlave_self ..

theorem receiving_down {sl : Slave} (hst : sl.status = .down) : Receiving sl := by
  refine ⟨?_, ?_, ?_⟩ <;>
    · rw [hst]
      rintro ⟨⟩

theorem receiving_content {sl : Slave} (hst : sl.status = .content)
    (h : sl.part.length < sl.length ∨ sl.length = 0 ∧ sl.part = []) : Receiving sl := by
  refine ⟨?_, ?_, fun _ => h⟩ <;>
    · rw [hst]
      rintro ⟨⟩

theorem receiving_header {sl : Slave} (hst : sl.status = .header) (hlt : sl.part.length < 4) :
    Receiving sl := by
  refine ⟨?_, fun _ => hlt, ?_⟩ <;>
    · rw [hst]
      rintro ⟨⟩

theorem Round.of_more {buffer more : Bytes} {h h' : State} {n : ℕ}
    (heq : buffer.foldl (eat fails id) h = more.foldl (eat fails id) h')
    (hs : (h'.s id).status = .header) (hlt : (h'.s id).part.length < 4) (hn : more.length < n) :
    Round fails id buffer h n (h', if more = [] then none else some more) := by
  by_cases hnil : more = []
  · rw [if_pos hnil]
    rw [hnil] at heq
    exact heq
  · rw [if_neg hnil]
    exact ⟨heq, receiving_header hs hlt, hs, hn⟩

theorem Round.prepend {buffer before : Bytes} {h h' : State} {n m : ℕ} {r : State × Option Bytes}
    (hr : Round fails id buffer h' n r)
    (heq : before.foldl (eat fails id) h = buffer.foldl (eat fails id) h') (hn : n ≤ m) :
    Round fails id before h m r := by
  obtain ⟨h'', more⟩ := r
  cases more with
  | none => exact heq.trans hr
  | some more => exact ⟨heq.trans hr.1, hr.2.1, hr.2.2.1, hr.2.2.2.trans_le hn⟩

theorem pushContent_round {buffer : Bytes} {h : State} (hst : (h.s id).status = .content)
    (hval : (h.s id).part.length < (h.s id).length ∨ (h.s id).length = 0 ∧ (h.s id).part = [])
    (hne : buffer ≠ []) :
    Round fails id buffer h (buffer.length + 1) (pushContent fails id buffer h) := by
  unfold pushContent
  simp only []
  by_cases hlt : buffer.length < (h.s id).length - (h.s id).part.length
  · rw [if_pos hlt]
    show buffer.foldl (eat fails id) h = _
    rw [foldl_content hst (by omega) (by omega), if_pos (by omega)]
  · rw [if_neg hlt, forwardLocalMessage_eq, emit_setSlave]
    refine Round.of_more ?_ (by rw [emit_s, setSlave_self]) ?_ ?_
    · rcases hval with hval | ⟨hzero, hnil⟩
      · have htake : (buffer.take ((h.s id).length - (h.s id).part.length)).length =
            (h.s id).length - (h.s id).part.length := by
          rw [length_take]
          omega
        conv_lhs => rw [← take_append_drop ((h.s id).length - (h.s id).part.length) buffer]
        rw [foldl_append, foldl_content hst hval (by omega), if_neg (by omega)]
        rfl
      · obtain ⟨b, buffer, rfl⟩ := exists_cons_of_ne_nil hne
        rw [hzero, hnil, Nat.zero_sub, drop_zero, take_zero, append_nil,
          foldl_cons, foldl_cons, eat_content hst, if_pos hzero]
        have heat : eat fails id (deliver fails id [] h) b = eatHeader id (deliver fails id [] h) b :=
          eat_header (by rw [deliver_s]) b
        rw [← heat]
        rfl
    · rw [emit_s, setSlave_self]
      exact Nat.zero_lt_succ _
    · rw [length_drop]
      omega

theorem pushHeader_round {buffer : Bytes} {h : State} (hst : (h.s id).status = .header)
    (hval : (h.s id).part.length < 4) :
    Round fails id buffer h buffer.length (pushHeader fails id buffer h) := by
  unfold pushHeader
  simp only []
  by_cases hlt : buffer.length < 4 - (h.s id).part.length
  · rw [if_pos hlt]
    show buffer.foldl (eat fails id) h = _
    rw [foldl_header hst hval (by omega), if_pos (by omega)]
  · rw [if_neg hlt]
    generalize hhere : buffer.take (4 - (h.s id).part.length) = here
    generalize hmore : buffer.drop (4 - (h.s id).part.length) = more
    have hbuffer : here ++ more = buffer := by
      rw [← hhere, ← hmore, take_append_drop]
    have hlen : here.length = 4 - (h.s id).part.length := by
      rw [← hhere, length_take]
      omega
    have hfold : here.foldl (eat fails id) h = _ := foldl_header hst hval (by omega)
    rw [if_neg (by omega)] at hfold
    have hless : more.length + 1 ≤ buffer.length := by
      rw [← hbuffer, length_append]
      omega
    by_cases hhead : ((h.s id).part ++ here).head? ≠ some 0
    · rw [if_pos hhead] at hfold ⊢
      show buffer.foldl (eat fails id) h = _
      rw [← hbuffer, foldl_append, hfold, foldl_idle (.inr (closeHarbor_status _))]
    · rw [if_neg hhead] at hfold ⊢
      by_cases hnil : more = []
      · rw [if_pos hnil]
        show buffer.foldl (eat fails id) h = _
        rw [← hbuffer, hnil, append_nil, hfold]
      · rw [if_neg hnil]
        rw [← hbuffer]
        have hafter : ∀ {sl : Slave}, sl.status = .content → sl.part = [] →
            Round fails id more (h.setSlave id sl) (more.length + 1)
              (pushContent fails id more (h.setSlave id sl)) := by
          intro sl hcontent hpart
          refine pushContent_round (by rw [setSlave_self, hcontent]) ?_ hnil
          rw [setSlave_self, hpart]
          rcases Nat.eq_zero_or_pos sl.length with hz | hz
          · exact .inr ⟨hz, rfl⟩
          · exact .inl hz
        exact (hafter rfl rfl).prepend (by rw [foldl_append, hfold]) (hbuffer ▸ hless)

theorem pushHandshake_round {buffer : Bytes} {h : State} (hst : (h.s id).status = .handshake)
    (hval : (h.s id).part = []) :
    Round fails id buffer h buffer.length (pushHandshake fails id buffer h) := by
  cases buffer with
  | nil => exact rfl
  | cons b buffer =>
    unfold pushHandshake
    simp only []
    have hfold : eat fails id h b = _ := eat_handshake hst b
    by_cases hb : b ≠ id
    · rw [if_pos hb] at hfold ⊢
      show (b :: buffer).foldl (eat fails id) h = _
      rw [foldl_cons, hfold, foldl_idle (.inr (closeHarbor_status _))]
    · rw [if_neg hb] at hfold ⊢
      have hs : (dispatchQueue id (h.setSlave id { h.s id with status := .header })).s id = _ :=
        dispatchQueue_s _
      rw [setSlave_self] at hs
      have hstatus : ((dispatchQueue id (h.setSlave id { h.s id with status := .header })).s
          id).status = .header := by rw [hs]
      have hpart : ((dispatchQueue id (h.setSlave id { h.s id with status := .header })).s
          id).part.length < 4 := by
        rw [hs]
        show (h.s id).part.length < 4
        rw [hval]
        exact Nat.zero_lt_succ _
      by_cases hnil : buffer = []
      · rw [if_pos hnil, hnil]
        exact ⟨hfold, receiving_header hstatus hpart, hstatus, Nat.zero_lt_succ _⟩
      · rw [if_neg hnil]
        refine (pushHeader_round hstatus hpart).prepend ?_ ?_
        · rw [foldl_cons, hfold]
        · exact Nat.le_succ _

theorem pushLoop_eq : ∀ {fuel : ℕ} {buffer : Bytes} {h : State}, Receiving (h.s id) →
    ((h.s id).status = .content → buffer ≠ []) →
    buffer.length + (if (h.s id).status = .content then 1 else 0) < fuel →
      pushLoop fails id fuel buffer h = buffer.foldl (eat fails id) h
  | 0, _, _, _, _, hfuel => by omega
  | fuel + 1, buffer, h, hrec, hne, hfuel => by
    -- a round, and the ones after it
    have hround : ∀ {n : ℕ} {r : State × Option Bytes}, Round fails id buffer h n r → n ≤ fuel →
        (match r.2 with
          | none => r.1
          | some more => pushLoop fails id fuel more r.1) = buffer.foldl (eat fails id) h := by
      rintro n ⟨h', more⟩ hr hn
      cases more with
      | none => exact hr.symm
      | some more =>
        obtain ⟨heq, hrec', hs, hlt⟩ := hr
        rw [heq]
        refine pushLoop_eq hrec' (fun hc => ?_) ?_
        · rw [hs] at hc
          cases hc
        · rw [hs, if_neg (by decide)]
          omega
    rw [pushLoop]
    cases hst : (h.s id).status with
    | handshake =>
      rw [hst, if_neg (by decide)] at hfuel
      simp only []
      refine hround (pushHandshake_round hst (hrec.handshake hst)) ?_
      omega
    | header =>
      rw [hst, if_neg (by decide)] at hfuel
      simp only []
      refine hround (pushHeader_round hst (hrec.header hst)) ?_
      omega
    | content =>
      rw [hst, if_pos rfl] at hfuel
      simp only []
      exact hround (pushContent_round hst (hrec.content hst) (hne hst)) (by omega)
    | wait => exact (foldl_idle (.inl hst) buffer).symm
    | down => exact (foldl_idle (.inr hst) buffer).symm

theorem pushSocketData_eq {fd : ℤ} {buffer : Bytes} {h : State} (hid : h.harborId fd = some id)
    (hrec : Receiving (h.s id)) (hne : buffer ≠ []) :
    pushSocketData fails fd buffer h = buffer.foldl (eat fails id) h := by
  rw [pushSocketData, hid]
  refine pushLoop_eq hrec (fun _ => hne) ?_
  split_ifs <;> omega

theorem dispatchQueue_of_ne {id' : UInt8} (hne : id' ≠ id) (h : State) :
    (dispatchQueue id h).s id' = h.s id' := by
  rw [dispatchQueue_eq, emit_s, setSlave_of_ne h id _ hne]

theorem closeHarbor_of_ne {id' : UInt8} (hne : id' ≠ id) (h : State) :
    (closeHarbor id h).s id' = h.s id' := setSlave_of_ne h id _ hne

theorem closeHarbor_s (h : State) :
    (closeHarbor id h).s id = { h.s id with status := .down, queue := none } := setSlave_self ..

theorem eatHeader_of_ne {id' : UInt8} (hne : id' ≠ id) (h : State) (b : UInt8) :
    (eatHeader id h b).s id' = h.s id' := by
  unfold eatHeader
  simp only []
  split_ifs
  · exact setSlave_of_ne h id _ hne
  · rw [closeHarbor_of_ne hne]
    exact setSlave_of_ne h id _ hne
  · exact setSlave_of_ne h id _ hne

theorem eat_of_ne {id' : UInt8} (hne : id' ≠ id) (h : State) (b : UInt8) :
    (eat fails id h b).s id' = h.s id' := by
  have hdeliver : ∀ msg, (deliver fails id msg h).s id' = h.s id' := fun msg =>
    setSlave_of_ne h id _ hne
  cases hst : (h.s id).status with
  | wait => rw [eat_idle (.inl hst)]
  | down => rw [eat_idle (.inr hst)]
  | handshake =>
    rw [eat_handshake hst]
    split_ifs
    · exact closeHarbor_of_ne hne h
    · rw [dispatchQueue_of_ne hne]
      exact setSlave_of_ne h id _ hne
  | header =>
    rw [eat_header hst]
    exact eatHeader_of_ne hne h b
  | content =>
    rw [eat_content hst]
    split_ifs
    · rw [eatHeader_of_ne hne, hdeliver]
    · exact setSlave_of_ne h id _ hne
    · exact hdeliver _

theorem eatHeader_receiving {h : State} (hst : (h.s id).status = .header) (b : UInt8) :
    Receiving ((eatHeader id h b).s id) := by
  unfold eatHeader
  simp only []
  split_ifs with hlt hhead
  · rw [setSlave_self]
    exact receiving_header hst hlt
  · exact receiving_down (closeHarbor_status _)
  · rw [setSlave_self]
    refine receiving_content rfl ?_
    rcases Nat.eq_zero_or_pos (Endian.ofBe ((h.s id).part ++ [b]).tail) with hz | hz
    · exact .inr ⟨hz, rfl⟩
    · exact .inl hz

theorem deliver_receiving (msg : Bytes) (h : State) : Receiving ((deliver fails id msg h).s id) := by
  rw [deliver_s]
  exact receiving_header rfl (Nat.zero_lt_succ _)

theorem eat_receiving {h : State} (hrec : Receiving (h.s id)) (b : UInt8) :
    Receiving ((eat fails id h b).s id) := by
  cases hst : (h.s id).status with
  | wait =>
    rw [eat_idle (.inl hst)]
    exact hrec
  | down =>
    rw [eat_idle (.inr hst)]
    exact hrec
  | handshake =>
    rw [eat_handshake hst]
    split_ifs
    · exact receiving_down (closeHarbor_status h)
    · rw [dispatchQueue_s, setSlave_self]
      refine receiving_header rfl ?_
      show (h.s id).part.length < 4
      rw [hrec.handshake hst]
      exact Nat.zero_lt_succ _
  | header =>
    rw [eat_header hst]
    exact eatHeader_receiving hst b
  | content =>
    rw [eat_content hst]
    split_ifs with hzero hmore
    · exact eatHeader_receiving (by rw [deliver_s]) b
    · rw [setSlave_self]
      refine receiving_content hst (.inl ?_)
      rw [length_append, length_singleton]
      exact hmore
    · exact deliver_receiving _ h

theorem eat_fd (h : State) (b : UInt8) (id' : UInt8) :
    ((eat fails id h b).s id').fd = (h.s id').fd := by
  by_cases hne : id' ≠ id
  · rw [eat_of_ne hne]
  · obtain rfl := not_not.1 hne
    have hheader : ∀ h : State, ((eatHeader id' h b).s id').fd = (h.s id').fd := by
      intro h
      unfold eatHeader
      simp only []
      split_ifs
      · rw [setSlave_self]
      · rw [closeHarbor_s, setSlave_self]
      · rw [setSlave_self]
    cases hst : (h.s id').status with
    | wait => rw [eat_idle (.inl hst)]
    | down => rw [eat_idle (.inr hst)]
    | handshake =>
      rw [eat_handshake hst]
      split_ifs
      · rw [closeHarbor_s]
      · rw [dispatchQueue_s, setSlave_self]
    | header => rw [eat_header hst, hheader]
    | content =>
      rw [eat_content hst]
      split_ifs
      · rw [hheader, deliver_s]
      · rw [setSlave_self]
      · rw [deliver_s]

theorem harborId_congr {h h' : State} (heq : ∀ id, (h'.s id).fd = (h.s id).fd) (fd : ℤ) :
    h'.harborId fd = h.harborId fd := by
  unfold State.harborId
  simp only [heq]

theorem foldl_eat_invariant {I : State → Prop} (hstep : ∀ h b, I h → I (eat fails id h b)) :
    ∀ {buffer : Bytes} {h : State}, I h → I (buffer.foldl (eat fails id) h)
  | [], _, hI => hI
  | b :: buffer, h, hI => by
    rw [foldl_cons]
    exact foldl_eat_invariant hstep (hstep h b hI)

end Bytes

section Names

variable {h : State}

/-- The handle of a name is written down. -/
def learn (name : Bytes) (handle : UInt32) (h : State) : State :=
  { h with
    first := if (h.map name).value = 0 then Function.update h.first name handle else h.first
    map := Function.update h.map name { h.map name with value := handle } }

theorem updateName_none {name : Bytes} (hq : (h.map name).queue = none) (handle : UInt32) :
    updateName name handle h = learn name handle h := by
  unfold updateName
  simp only [hq, learn]
  rfl

theorem updateName_some {name : Bytes} {queue : List HarborMsg} (hq : (h.map name).queue = some queue)
    (handle : UInt32) : updateName name handle h =
      ((dispatchNameQueue name queue (learn name handle h)).emit
        (releaseQueue ((dispatchNameQueue name queue (learn name handle h)).map name).queue)).setName
          name { (dispatchNameQueue name queue (learn name handle h)).map name with queue := none } := by
  unfold updateName
  simp only [hq, learn]
  rfl

end Names

end Harbor

end SkynetGame
