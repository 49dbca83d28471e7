import SkynetGame.Proofs.Harbor
import Mathlib.Data.List.TakeWhile

/-!
# What one harbor writes another one reads

The receiver takes the frames of its stream up to one whose length needs the first byte (`taken`).
`send_remote` writes such a frame for a payload of 16 MB and more, and nobody asks whether a frame
has room for the cookie: apart from that what was sent comes in.
-/

namespace SkynetGame

open List

namespace Harbor

open Framing

/-- A message between services of two harbors. -/
structure Message where
  source : UInt32
  destination : UInt32
  type : UInt8
  session : Int32
  bytes : Bytes
  deriving DecidableEq, Repr

/-- How `remote_send_handle` gives it to `send_remote`. -/
def Message.out (m : Message) : HarborMsg :=
  ⟨⟨m.source, high m.type ||| (m.destination &&& HANDLE_MASK), m.session.toUInt32⟩, ⟨0, m.bytes⟩⟩

/-- The message as it is for its destination's harbor. -/
def Message.at (m : Message) (own : UInt8) : Message :=
  { m with destination := m.destination &&& HANDLE_MASK ||| high own }

/-- The stream of bytes that `send_remote` writes for messages. -/
def wire (ms : List Message) : Bytes := ms.flatMap fun m => sendbuf m.out

def received (log : List Out) : List Message :=
  log.filterMap fun
    | .forward source destination type session msg => some ⟨source, destination, type, session, msg⟩
    | _ => none

/-- The frames of a stream that the receiver takes: those before one that is too long, and an empty
one at the end only when more bytes come. -/
def taken : List Bytes → Bytes → List Bytes
  | [], _ => []
  | p :: ps, more =>
    if 2 ^ 24 ≤ p.length then []
    else if p = [] ∧ ps = [] ∧ more = [] then []
    else p :: taken ps more

section Frames

variable {fails : ℕ → Bool} {id : UInt8}

/-- What is written down of a frame that was taken. -/
def arrive (own : UInt8) (msg : Bytes) : Out :=
  if msg.length < HEADER_COOKIE_LENGTH then .short msg.length
  else
    let header := messageToHeader (msg.drop (msg.length - HEADER_COOKIE_LENGTH))
    .forward header.source (header.destination &&& HANDLE_MASK ||| high own)
      (harborOf header.destination) header.session.toInt32
      (msg.take (msg.length - HEADER_COOKIE_LENGTH))

def Out.arrived : Out → Bool
  | .forward _ _ _ _ _ | .short _ => true
  | _ => false

/-- The frames that were taken, as they were written down. -/
def arrivals (h : State) : List Out := h.log.filter Out.arrived

theorem arrivals_emit (h : State) (outs : List Out) :
    arrivals (h.emit outs) = arrivals h ++ outs.filter Out.arrived := filter_append ..

theorem arrivals_deliver (h : State) (msg : Bytes) :
    arrivals (deliver fails id msg h) = arrivals h ++ [arrive h.id msg] := by
  rw [deliver, arrivals_emit]
  refine congrArg (arrivals h ++ ·) ?_
  unfold arrival arrive
  by_cases hlt : msg.length < HEADER_COOKIE_LENGTH
  · rw [if_pos hlt, if_pos hlt]
    rfl
  · rw [if_neg hlt, if_neg hlt]
    simp only []
    split_ifs <;> rfl

theorem filter_releaseQueue (queue : Option (List HarborMsg)) :
    (releaseQueue queue).filter Out.arrived = [] := by
  refine filter_eq_nil_iff.2 fun o ho => ?_
  obtain ⟨m, -, rfl⟩ := List.mem_map.1 ho
  exact Bool.false_ne_true

theorem arrivals_closeHarbor (h : State) : arrivals (closeHarbor id h) = arrivals h := by
  show arrivals ((h.setSlave id _).emit _) = _
  rw [arrivals_emit, filter_append, filter_releaseQueue]
  split_ifs <;> exact append_nil _

theorem filter_drain (fd : ℤ) (queue : List HarborMsg) :
    (drain id fd queue).filter Out.arrived = [] := by
  rw [drain, filter_flatMap, flatMap_eq_nil_iff]
  intro m _
  unfold sendRemote
  split_ifs <;> rfl

theorem arrivals_dispatchQueue (h : State) : arrivals (dispatchQueue id h) = arrivals h := by
  rw [dispatchQueue_eq, arrivals_emit, filter_drain, append_nil]
  rfl

theorem head_length {s : Bytes} (h : 4 ≤ s.length) :
    ((s.take 4).head? ≠ some 0 ↔ 2 ^ 24 ≤ announced 4 s) ∧
      ((s.take 4).head? = some 0 → Endian.ofBe (s.take 4).tail = announced 4 s) := by
  have hlen : (s.take 4).length = 4 := length_take_of_le h
  rw [announced]
  generalize s.take 4 = size at hlen ⊢
  obtain ⟨b, size, rfl⟩ := exists_cons_of_length_eq_add_one hlen
  have hlt := Endian.ofBe_lt size
  rw [length_cons] at hlen
  have hsize : size.length = 3 := by omega
  rw [hsize] at hlt
  rw [Endian.ofBe_cons, List.head?_cons, tail_cons, hsize]
  constructor
  · rw [ne_eq, Option.some.injEq, ← UInt8.toNat_inj]
    show ¬ b.toNat = 0 ↔ _
    omega
  · intro hb
    rw [Option.some.inj hb]
    show Endian.ofBe size = 0 * 256 ^ 3 + _
    omega

theorem foldl_length {s : Bytes} {h : State} (hst : (h.s id).status = .header)
    (hpart : (h.s id).part = []) (hle : 4 ≤ s.length) :
    s.foldl (eat fails id) h =
      if 2 ^ 24 ≤ announced 4 s then
        closeHarbor id (h.setSlave id { h.s id with part := s.take 4 })
      else (s.drop 4).foldl (eat fails id) (h.setSlave id
        { h.s id with length := announced 4 s, part := [], status := .content }) := by
  have hlen : (s.take 4).length = 4 := length_take_of_le hle
  obtain ⟨hlong, htail⟩ := head_length hle
  have hfold : (s.take 4).foldl (eat fails id) h = _ :=
    foldl_header hst (by rw [hpart]; exact Nat.zero_lt_succ _) (by rw [hpart, hlen]; exact le_rfl)
  rw [hpart, hlen, nil_append, if_neg (by rw [length_nil]; omega)] at hfold
  conv_lhs => rw [← take_append_drop 4 s, foldl_append, hfold]
  by_cases h24 : 2 ^ 24 ≤ announced 4 s
  · rw [if_pos (hlong.2 h24), if_pos h24, foldl_idle (.inr (closeHarbor_status _))]
  · have hzero : (s.take 4).head? = some 0 := by
      by_contra hne
      exact h24 (hlong.1 hne)
    rw [if_neg (not_not.2 hzero), if_neg h24, htail hzero]

theorem packages_rest_ne_nil {s : Bytes} (hne : s ≠ []) :
    ¬ (packages 4 s = [] ∧ rest 4 s = []) := by
  rintro ⟨hp, hr⟩
  have hs := flatMap_packages (w := 4) s
  rw [hp, hr] at hs
  exact hne hs.symm

theorem arrivals_foldl : ∀ (s : Bytes) (h : State), (h.s id).status = .header →
    (h.s id).part = [] → arrivals (s.foldl (eat fails id) h) =
      arrivals h ++ (taken (packages 4 s) (rest 4 s)).map (arrive h.id) := by
  refine induct_packages (w := 4) ?_ ?_
  · intro s hpart h hst hnil
    rw [packages_part hpart, taken, map_nil, append_nil]
    by_cases hlt : s.length < 4
    · have hfold : s.foldl (eat fails id) h = _ :=
        foldl_header hst (by rw [hnil]; exact Nat.zero_lt_succ _) (by rw [hnil]; simpa using hlt.le)
      rw [hnil, length_nil, Nat.zero_add, if_pos hlt] at hfold
      rw [hfold]
      rfl
    · rw [foldl_length hst hnil (not_lt.1 hlt)]
      by_cases h24 : 2 ^ 24 ≤ announced 4 s
      · rw [if_pos h24, arrivals_closeHarbor]
        rfl
      · have hless : (s.drop 4).length < announced 4 s := by
          rw [length_drop]
          by_contra hge
          exact hpart ⟨by omega, by omega⟩
        rw [if_neg h24, foldl_content (by rw [setSlave_self])
          (by rw [setSlave_self]; exact Nat.zero_lt_of_lt hless)
          (by rw [setSlave_self]; simpa using hless.le)]
        simp only [setSlave_self, length_nil, Nat.zero_add]
        rw [if_pos hless]
        rfl
  · intro s hwhole ih h hst hnil
    have hle := hwhole.2
    have hfirst := length_first hwhole
    have hdrop : s.drop 4 = first 4 s ++ behind 4 s := by
      rw [first, behind, ← drop_drop, take_append_drop]
    rw [packages_whole hwhole, rest_whole hwhole, taken, hfirst, foldl_length hst hnil (by omega)]
    by_cases h24 : 2 ^ 24 ≤ announced 4 s
    · rw [if_pos h24, if_pos h24, arrivals_closeHarbor, map_nil, append_nil]
      rfl
    · rw [if_neg h24, if_neg h24, hdrop]
      -- the state in which the content is awaited
      generalize hh' : h.setSlave id
        { h.s id with length := announced 4 s, part := [], status := .content } = h'
      have hs' : h'.s id =
          { h.s id with length := announced 4 s, part := [], status := .content } := by
        rw [← hh', setSlave_self]
      have hid : h'.id = h.id := by rw [← hh', setSlave_id]
      have harr : arrivals h' = arrivals h := by
        rw [← hh']
        rfl
      have hnext : ∀ msg, arrivals ((behind 4 s).foldl (eat fails id) (deliver fails id msg h')) =
          arrivals h ++ arrive h.id msg ::
            (taken (packages 4 (behind 4 s)) (rest 4 (behind 4 s))).map (arrive h.id) := by
        intro msg
        have hds : (deliver fails id msg h').s id = _ := deliver_s msg h'
        rw [ih (deliver fails id msg h') (by rw [hds]) (by rw [hds]), arrivals_deliver, harr]
        show _ = _
        rw [append_assoc, singleton_append, ← hid]
        rfl
      by_cases hempty : first 4 s = []
      · have hzero : announced 4 s = 0 := by rw [← hfirst, hempty, length_nil]
        rw [hempty, nil_append]
        by_cases hend : behind 4 s = []
        · rw [hend, packages_nil, rest_nil, if_pos ⟨rfl, rfl, rfl⟩, map_nil, append_nil]
          exact harr
        · rw [if_neg fun hx => packages_rest_ne_nil hend hx.2, map_cons, ← hnext []]
          obtain ⟨b, t, hb⟩ := exists_cons_of_ne_nil hend
          have hds : (deliver fails id [] h').s id = _ := deliver_s [] h'
          rw [hb, foldl_cons, foldl_cons, eat_content (by rw [hs']),
            if_pos (by rw [hs', hzero]), eat_header (by rw [hds])]
      · have hpos : 0 < announced 4 s := by
          rw [← hfirst]
          exact length_pos_iff.2 hempty
        have hcontent : (first 4 s).foldl (eat fails id) h' = _ :=
          foldl_content (by rw [hs']) (by rw [hs']; exact hpos)
            (by rw [hs', hfirst]; exact (Nat.zero_add _).le)
        simp only [hs', hfirst, length_nil, Nat.zero_add, nil_append] at hcontent
        rw [if_neg (lt_irrefl _)] at hcontent
        rw [if_neg fun hx => hempty hx.1, map_cons, ← hnext (first 4 s), foldl_append,
          hcontent]

end Frames

section Stream

variable {fails : ℕ → Bool} {id : UInt8}

/-- The data of a socket, one chunk after the other. -/
def feed (fails : ℕ → Bool) (fd : ℤ) (chunks : List Bytes) (h : State) : State :=
  chunks.foldl (fun h chunk => pushSocketData fails fd chunk h) h

/-- A connection that nothing was read of, before or after its handshake. -/
structure Fresh (sl : Slave) : Prop where
  status : sl.status = .handshake ∨ sl.status = .header
  part : sl.part = []

/-- The byte of the handshake, where it is still awaited. -/
def greeting (h : State) (id : UInt8) : Bytes :=
  if (h.s id).status = .handshake then [id] else []

theorem Fresh.receiving {sl : Slave} (h : Fresh sl) : Receiving sl := by
  rcases h.status with hst | hst
  · refine ⟨fun _ => h.part, ?_, ?_⟩ <;>
      · rw [hst]
        rintro ⟨⟩
  · refine receiving_header hst ?_
    rw [h.part]
    exact Nat.zero_lt_succ _

theorem feed_eq {fd : ℤ} : ∀ {chunks : List Bytes} {h : State}, h.harborId fd = some id →
    Receiving (h.s id) → (∀ c ∈ chunks, c ≠ []) →
      feed fails fd chunks h = chunks.flatten.foldl (eat fails id) h
  | [], _, _, _, _ => rfl
  | c :: chunks, h, hid, hrec, hne => by
    have hpush : pushSocketData fails fd c h = c.foldl (eat fails id) h :=
      pushSocketData_eq hid hrec (hne c mem_cons_self)
    have hfd : ∀ i, ((c.foldl (eat fails id) h).s i).fd = (h.s i).fd := by
      refine foldl_eat_invariant (I := fun h' => ∀ i, (h'.s i).fd = (h.s i).fd) ?_ fun _ => rfl
      intro h' b heq i
      rw [eat_fd, heq]
    have hrec' : Receiving ((c.foldl (eat fails id) h).s id) :=
      foldl_eat_invariant (I := fun h' => Receiving (h'.s id)) (fun _ b hr => eat_receiving hr b)
        hrec
    rw [flatten_cons, foldl_append,
      ← feed_eq ((harborId_congr hfd fd).trans hid) hrec'
        fun c' hc' => hne c' (mem_cons_of_mem c hc'), ← hpush]
    rfl

theorem arrivals_feed {fd : ℤ} {chunks : List Bytes} {h : State} {s : Bytes}
    (hid : h.harborId fd = some id) (hfresh : Fresh (h.s id)) (hne : ∀ c ∈ chunks, c ≠ [])
    (hcut : chunks.flatten = greeting h id ++ s) : arrivals (feed fails fd chunks h) =
      arrivals h ++ (taken (packages 4 s) (rest 4 s)).map (arrive h.id) := by
  rw [feed_eq hid hfresh.receiving hne, hcut, foldl_append]
  rcases hfresh.status with hst | hst
  · have hfold : (greeting h id).foldl (eat fails id) h =
        dispatchQueue id (h.setSlave id { h.s id with status := .header }) := by
      rw [greeting, if_pos hst, foldl_cons, foldl_nil, eat_handshake hst,
        if_neg (not_not.2 rfl)]
    have hs : ((dispatchQueue id (h.setSlave id { h.s id with status := .header })).s id) =
        { h.s id with status := .header, queue := none } := by
      rw [dispatchQueue_s, setSlave_self]
    have hown : (dispatchQueue id (h.setSlave id { h.s id with status := .header })).id = h.id := by
      rw [dispatchQueue_eq]
      rfl
    rw [hfold, arrivals_foldl s _ (by rw [hs]) (by rw [hs]; exact hfresh.part),
      arrivals_dispatchQueue, hown]
    rfl
  · have hnone : ¬ (h.s id).status = .handshake := by
      rw [hst]
      decide
    rw [greeting, if_neg hnone, foldl_nil, arrivals_foldl s h hst hfresh.part]

theorem eat_log (h : State) (b : UInt8) : h.log <+: (eat fails id h b).log := by
  have hheader : ∀ h : State, h.log <+: (eatHeader id h b).log := by
    intro h
    unfold eatHeader
    simp only []
    split_ifs
    · exact prefix_rfl
    · exact prefix_append _ _
    · exact prefix_rfl
  have hdeliver : ∀ msg, h.log <+: (deliver fails id msg h).log := fun _ =>
    prefix_append _ _
  cases hst : (h.s id).status with
  | wait => rw [eat_idle (.inl hst)]
  | down => rw [eat_idle (.inr hst)]
  | handshake =>
    rw [eat_handshake hst]
    split_ifs
    · exact prefix_append _ _
    · rw [dispatchQueue_eq]
      exact prefix_append _ _
  | header =>
    rw [eat_header hst]
    exact hheader h
  | content =>
    rw [eat_content hst]
    split_ifs
    · exact (hdeliver []).trans (hheader _)
    · exact prefix_rfl
    · exact hdeliver _

theorem received_eq (log : List Out) : received log = received (log.filter Out.arrived) := by
  unfold received
  rw [filterMap_filter]
  refine filterMap_congr fun o _ => ?_
  cases o <;> rfl

@[simp] theorem length_headerToMessage (header : RemoteMessageHeader) :
    (headerToMessage header).length = HEADER_COOKIE_LENGTH := by
  simp only [headerToMessage, length_append, Endian.length_be]
  rfl

theorem ofBe_be_toNat (n : UInt32) : UInt32.ofNat (Endian.ofBe (Endian.be 4 n.toNat)) = n := by
  rw [Endian.ofBe_be_of_lt n.toNat_lt, UInt32.ofNat_toNat]

theorem messageToHeader_headerToMessage (header : RemoteMessageHeader) :
    messageToHeader (headerToMessage header) = header := by
  have h₁ : (Endian.be 4 header.source.toNat).length = 4 := Endian.length_be ..
  have h₂ : (Endian.be 4 header.destination.toNat).length = 4 := Endian.length_be ..
  have h₃ : (Endian.be 4 header.session.toNat).length = 4 := Endian.length_be ..
  have h₁₂ : (Endian.be 4 header.source.toNat ++ Endian.be 4 header.destination.toNat).length = 8 := by
    rw [length_append, h₁, h₂]
  unfold messageToHeader
  rw [headerToMessage, drop_left' h₁₂, take_of_length_le h₃.le, append_assoc,
    take_left' h₁, drop_left' h₁, take_left' h₂, ofBe_be_toNat, ofBe_be_toNat,
    ofBe_be_toNat]

/-- The content of the frame of a message. -/
def Message.body (m : Message) : Bytes := m.bytes ++ headerToMessage m.out.header

theorem Message.length_body (m : Message) :
    m.body.length = m.bytes.length + HEADER_COOKIE_LENGTH := by
  rw [body, length_append, length_headerToMessage]

theorem received_body (own : UInt8) (m : Message) : received [arrive own m.body] = [m.at own] := by
  have hlen := m.length_body
  have hcut : m.body.length - HEADER_COOKIE_LENGTH = m.bytes.length := by omega
  have hheader : messageToHeader (m.body.drop m.bytes.length) = m.out.header := by
    rw [Message.body, drop_left, messageToHeader_headerToMessage]
  have hbytes : m.body.take m.bytes.length = m.bytes := by rw [Message.body, take_left]
  rw [arrive, if_neg (by omega), hcut]
  simp only [hheader, hbytes, Message.out, high_or, harborOf_or, local_or]
  rfl

/-- A message whose frame the receiver takes. -/
def Message.Fits (m : Message) : Prop := m.bytes.length + HEADER_COOKIE_LENGTH < 2 ^ 24

instance : DecidablePred Message.Fits := fun _ => inferInstanceAs (Decidable (_ < _))

theorem taken_bodies : ∀ ms : List Message,
    taken (ms.map Message.body) [] = (ms.takeWhile fun m => m.Fits).map Message.body
  | [] => rfl
  | m :: ms => by
    have hlen := m.length_body
    have hne : m.body ≠ [] := by
      intro hnil
      rw [hnil, length_nil, HEADER_COOKIE_LENGTH] at hlen
      omega
    rw [map_cons, taken, hlen]
    by_cases hfits : m.Fits
    · rw [if_neg (not_le.2 hfits), if_neg fun hx => hne hx.1, taken_bodies ms,
        takeWhile_cons_of_pos (by simpa using hfits), map_cons]
    · rw [if_pos (not_lt.1 hfits), takeWhile_cons_of_neg (by simpa using hfits), map_nil]

theorem received_bodies (own : UInt8) : ∀ ms : List Message,
    received ((ms.map Message.body).map (arrive own)) = ms.map (·.at own)
  | [] => rfl
  | m :: ms => by
    have hcons : ∀ (o : Out) (os : List Out), received (o :: os) = received [o] ++ received os :=
      fun o os => filterMap_append (l := [o])
    rw [map_cons, map_cons, hcons, received_body, received_bodies own ms]
    rfl

theorem packages_wire {ms : List Message}
    (h : ∀ m ∈ ms, m.bytes.length + HEADER_COOKIE_LENGTH ≤ UINT32_MAX) :
    packages 4 (wire ms) = ms.map Message.body ∧ rest 4 (wire ms) = [] := by
  have hframes := packages_frames (w := 4) (Nat.zero_lt_succ _) [] (ms.map Message.body) (by
    intro p hp
    obtain ⟨m, hm, rfl⟩ := List.mem_map.1 hp
    have hle := h m hm
    rw [m.length_body]
    exact Nat.lt_of_le_of_lt hle (by decide))
  rw [append_nil, packages_nil, rest_nil, append_nil, flatMap_map] at hframes
  exact hframes

/-- What was sent comes in if and only if the receiver takes each frame; and a frame without room
for the cookie is forwarded if and only if one is taken. -/
theorem wire_round_trip {fd : ℤ} {chunks : List Bytes} {h : State} {s : Bytes}
    (hid : h.harborId fd = some id) (hfresh : Fresh (h.s id)) (hne : ∀ c ∈ chunks, c ≠ [])
    (hcut : chunks.flatten = greeting h id ++ s) :
    ∃ outs, (feed fails fd chunks h).log = h.log ++ outs ∧
      (∀ ms : List Message, s = wire ms →
        (∀ m ∈ ms, ∀ id fd, sendRemote id fd m.out = [.remote id fd m.out]) →
        (received outs = ms.map (·.at h.id) ↔ ∀ m ∈ ms, m.Fits)) ∧
      ((∀ n, .short n ∉ outs) ↔
        ∀ p ∈ taken (packages 4 s) (rest 4 s), HEADER_COOKIE_LENGTH ≤ p.length) := by
  have hprefix : h.log <+: (feed fails fd chunks h).log := by
    rw [feed_eq hid hfresh.receiving hne]
    exact foldl_eat_invariant (I := fun h' => h.log <+: h'.log)
      (fun h' b hp => hp.trans (eat_log h' b)) List.prefix_rfl
  obtain ⟨outs, houts⟩ := hprefix
  have hall : arrivals (feed fails fd chunks h) = _ := arrivals_feed hid hfresh hne hcut
  rw [arrivals, ← houts, List.filter_append, arrivals] at hall
  have harr := List.append_cancel_left hall
  refine ⟨outs, houts.symm, ?_, ?_⟩
  · intro ms hs haccept
    have hsize : ∀ m ∈ ms, m.bytes.length + HEADER_COOKIE_LENGTH ≤ UINT32_MAX := by
      intro m hm
      by_contra hlarge
      have hsend := haccept m hm 0 0
      have hgt : m.out.buffer.bytes.length + HEADER_COOKIE_LENGTH > UINT32_MAX := not_le.1 hlarge
      rw [sendRemote, if_pos hgt] at hsend
      cases hsend
    obtain ⟨hpackages, hrest⟩ := packages_wire hsize
    rw [hs, hpackages, hrest, taken_bodies] at harr
    rw [received_eq, harr, received_bodies]
    constructor
    · intro heq
      have hlen := congrArg List.length heq
      rw [List.length_map, List.length_map] at hlen
      have hself := (List.takeWhile_prefix (fun m : Message => decide m.Fits)).eq_of_length hlen
      rw [List.takeWhile_eq_self_iff] at hself
      exact fun m hm => of_decide_eq_true (hself m hm)
    · intro hfits
      rw [List.takeWhile_eq_self_iff.2 fun m hm => decide_eq_true (hfits m hm)]
  · have hmem : ∀ n, .short n ∈ outs ↔ .short n ∈ outs.filter Out.arrived := fun n => by
      rw [List.mem_filter]
      exact (and_iff_left rfl).symm
    constructor
    · intro hno p hp
      by_contra hlt
      refine hno p.length ((hmem _).2 ?_)
      rw [harr]
      exact List.mem_map.2 ⟨p, hp, if_pos (not_le.1 hlt)⟩
    · intro hroom n hn
      rw [hmem, harr] at hn
      obtain ⟨p, hp, heq⟩ := List.mem_map.1 hn
      rw [arrive, if_neg (not_lt.2 (hroom p hp))] at heq
      cases heq

/-- A state in which harbor 2 was accepted on the fd 5. -/
def accepted : State := connect true 5 2 (init 1 0x1000001)

/-- A message in three chunks, one of them within the length. -/
theorem wire_round_trip_pieces : ∃ outs, (feed (fun _ => false) 5
      [[0, 0], [0, 14, 8, 9], [2, 0, 0, 7, 3, 1, 0, 9, 0, 0, 0, 4]] accepted).log =
        accepted.log ++ outs ∧
    received outs = [⟨0x2000007, 0x1010009, 3, 4, [8, 9]⟩] ∧ ∀ n, .short n ∉ outs := by
  have hwire : [[0, 0], [0, 14, 8, 9], [2, 0, 0, 7, 3, 1, 0, 9, 0, 0, 0, 4]].flatten =
      greeting accepted 2 ++ wire [⟨0x2000007, 0x1010009, 3, 4, [8, 9]⟩] := by
    decide
  obtain ⟨outs, hlog, hall, hshort⟩ := @wire_round_trip (fun _ => false) 2 5 _ accepted _
    (by decide) ⟨.inr (by decide), by decide⟩ (by decide) hwire
  refine ⟨outs, hlog, ?_, ?_⟩
  · refine (hall _ rfl ?_).2 (by decide)
    rintro m hm id fd
    rw [List.mem_singleton.1 hm]
    rfl
  · exact hshort.2 (by decide +kernel)

/-- A frame of one byte is forwarded, and one of 16 MB that was written is not. -/
theorem not_wire_round_trip : (∃ h, (machine (fun _ => false) 1 0x1000001).Reachable h ∧
      .short 1 ∈ h.log) ∧
    ∃ m : Message, sendRemote 1 5 m.out = [.remote 1 5 m.out] ∧
      received (feed (fun _ => false) 5 [wire [m]] accepted).log = [] := by
  constructor
  · have hl : ((machine (fun _ => false) 1 0x1000001).run (fun _ _ => True) (init 1 0x1000001)
        [.connect true 5 2, .data 5 [0, 0, 0, 1, 9]]).map (fun h => decide (.short 1 ∈ h.log)) =
          some true := by
      decide
    obtain ⟨h, hr, he⟩ := Machine.exists_reach hl
    exact ⟨h, hr, of_decide_eq_true he⟩
  · obtain ⟨bytes, hlen⟩ : ∃ bytes : Bytes, bytes.length = 2 ^ 24 :=
      ⟨List.replicate (2 ^ 24) 0, List.length_replicate⟩
    have hle : bytes.length + HEADER_COOKIE_LENGTH ≤ UINT32_MAX := by
      rw [hlen]
      decide
    refine ⟨⟨0x2000007, 0x1000009, 3, 4, bytes⟩, if_neg (not_lt.2 hle), ?_⟩
    generalize hm : Message.mk 0x2000007 0x1000009 3 4 bytes = m
    have hbytes : m.bytes = bytes := by rw [← hm]
    have hlong : ¬ m.Fits := by
      rw [Message.Fits, hbytes, hlen, HEADER_COOKIE_LENGTH]
      omega
    have hsize : ∀ x ∈ [m], x.bytes.length + HEADER_COOKIE_LENGTH ≤ UINT32_MAX := by
      intro x hx
      rw [List.mem_singleton.1 hx, hbytes]
      exact hle
    obtain ⟨hpackages, hrest⟩ := packages_wire hsize
    have hne : wire [m] ≠ [] := by
      intro hnil
      rw [hnil, packages_nil] at hpackages
      cases hpackages
    have harr := @arrivals_feed (fun _ => false) 2 5 [wire [m]] accepted (wire [m]) (by decide)
      ⟨.inr (by decide), by decide⟩ (fun c hc => List.mem_singleton.1 hc ▸ hne) (List.append_nil _)
    have htaken := taken_bodies [m]
    rw [List.takeWhile_cons_of_neg (by simpa using hlong)] at htaken
    rw [hpackages, hrest, htaken] at harr
    rw [received_eq]
    exact congrArg received harr

end Stream

end Harbor

end SkynetGame
