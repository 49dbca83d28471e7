import SkynetGame.LuaCluster

/-!
# A message comes out of its packets as it went in

Each packet fits its header and unpacks to what it was packed from. The parts that the loop cuts a
message in are full but for the last one, and `concat` puts them together again.
-/

namespace SkynetGame

open List

namespace LuaCluster

/-- The message `msg` comes out of `packets`, which unpack to `us`: each fits its header, padding
is announced by all of them but the last, and the fields make up the message. -/
structure Carried {α : Type} (unpack : Bytes → Option α) (padding : α → Bool) (field : α → Field)
    (packets : List Bytes) (us : List α) (msg : Bytes) : Prop where
  fits : ∀ p ∈ packets, (p.drop 2).length < 2 ^ 16
  unpacked : packets.mapM (fun p => (unframe p).bind unpack) = some us
  padded : us.map padding = List.replicate (us.length - 1) true ++ [false]
  assembled : assemble (us.map field) = some msg

@[simp] theorem length_fillHeader (n : ℕ) : (fillHeader n).length = 2 := Endian.length_be 2 n

@[simp] theorem length_fillUint32 (n : ℕ) : (fillUint32 n).length = 4 := Endian.length_le 4 n

theorem drop_fillHeader (n : ℕ) (b : Bytes) : (fillHeader n ++ b).drop 2 = b :=
  drop_left' (length_fillHeader n)

theorem unframe_packet {n : ℕ} {b : Bytes} (hn : b.length = n) (hb : n < 2 ^ 16) :
    unframe (fillHeader n ++ b) = some b := by
  have htake : (fillHeader n ++ b).take 2 = Endian.be 2 n := take_left' (length_fillHeader n)
  rw [unframe, htake, drop_fillHeader, hn, Endian.ofBe_be_of_lt (w := 2) hb, if_pos rfl]

theorem drop_fillUint32 (n : ℕ) (b : Bytes) : (fillUint32 n ++ b).drop 4 = b :=
  drop_left' (length_fillUint32 n)

theorem unpackUint32_append {n : ℕ} (h : n < 2 ^ 32) (b : Bytes) :
    unpackUint32 (fillUint32 n ++ b) = n := by
  have htake : (fillUint32 n ++ b).take 4 = Endian.le 4 n := take_left' (length_fillUint32 n)
  rw [unpackUint32, htake, Endian.ofLe_le_of_lt (w := 4) h]

theorem unpackUint32_self {n : ℕ} (h : n < 2 ^ 32) : unpackUint32 (fillUint32 n) = n := by
  have := unpackUint32_append h []
  rwa [append_nil] at this

section Parts

theorem packMulti_eq (pack : Bool → Bytes → Bytes) : ∀ (part : ℕ) (msg : Bytes),
    parts msg.length = part → ∃ (full : List Bytes) (last : Bytes), packMulti pack part msg =
      full.map (pack false) ++ [pack true last] ∧ full.flatten ++ last = msg ∧
      last.length ≤ MULTI_PART ∧ ∀ c ∈ full, c.length = MULTI_PART
  | 0, msg, h => absurd h (Nat.succ_ne_zero _)
  | part + 1, msg, h => by
    by_cases hlong : msg.length > MULTI_PART
    · have hrest : parts (msg.drop MULTI_PART).length = part := by
        rw [parts, MULTI_PART] at h ⊢
        rw [MULTI_PART] at hlong
        rw [length_drop]
        omega
      obtain ⟨full, last, heq, hmsg, hlast, hfull⟩ := packMulti_eq pack part _ hrest
      refine ⟨msg.take MULTI_PART :: full, last, ?_, ?_, hlast, ?_⟩
      · rw [packMulti, if_pos hlong, heq, map_cons, cons_append]
      · rw [flatten_cons, append_assoc, hmsg, take_append_drop]
      · intro c hc
        rcases mem_cons.1 hc with rfl | hc
        · rw [length_take, min_eq_left hlong.le]
        · exact hfull c hc
    · have hpart : part = 0 := by
        rw [parts, MULTI_PART] at h
        rw [MULTI_PART] at hlong
        omega
      subst hpart
      refine ⟨[], msg, ?_, rfl, not_lt.1 hlong, fun c hc => absurd hc not_mem_nil⟩
      rw [packMulti, if_neg hlong, packMulti]
      rfl

theorem concatParts_eq (sz : ℕ) : ∀ (chunks : List Bytes) (buff : Bytes),
    (buff ++ chunks.flatten).length = sz →
      concatParts sz buff (chunks.map .bytes) = some (buff ++ chunks.flatten)
  | [], buff, h => by
    rw [flatten_nil, append_nil] at h ⊢
    rw [map_nil, concatParts, if_neg (not_not.2 h)]
    rintro s t ⟨⟩
  | c :: chunks, buff, h => by
    rw [flatten_cons, ← append_assoc] at h ⊢
    have hfits : ¬ c.length + buff.length > sz := by
      rw [length_append, length_append] at h
      omega
    rw [map_cons, concatParts, if_neg hfits, concatParts_eq sz chunks _ h]

theorem lconcat_parts {chunks : List Bytes} (h : chunks.flatten.length < 2 ^ 31) :
    lconcat (.size chunks.flatten.length :: chunks.map .bytes) = some chunks.flatten := by
  rw [lconcat, if_pos h]
  exact concatParts_eq _ chunks [] rfl

variable {α : Type} {unpack : Bytes → Option α}

theorem mapM_packets {pack : Bytes → Bytes} {mk : Bytes → α} : ∀ {l : List Bytes},
    (∀ c ∈ l, (unframe (pack c)).bind unpack = some (mk c)) →
      (l.map pack).mapM (fun p => (unframe p).bind unpack) = some (l.map mk)
  | [], _ => rfl
  | c :: l, h => by
    rw [map_cons, mapM_cons, h c mem_cons_self,
      mapM_packets fun d hd => h d (mem_cons_of_mem c hd)]
    rfl

theorem carried_parts (padding : α → Bool) (field : α → Field) {pack : Bool → Bytes → Bytes} {mk : Bool → Bytes → α} {head : Bytes} {u : α}
    {msg : Bytes} (hmsg : msg.length < 2 ^ 31)
    (hhead : (head.drop 2).length < 2 ^ 16 ∧ (unframe head).bind unpack = some u ∧
      padding u = true ∧ field u = .size msg.length)
    (hpart : ∀ last c, c.length ≤ MULTI_PART → ((pack last c).drop 2).length < 2 ^ 16 ∧
      (unframe (pack last c)).bind unpack = some (mk last c) ∧
      padding (mk last c) = (!last) ∧ field (mk last c) = .bytes c) :
    ∃ (full : List Bytes) (last : Bytes), Carried unpack padding field
      (head :: packMulti pack (parts msg.length) msg) (u :: full.map (mk false) ++ [mk true last])
      msg := by
  obtain ⟨full, last, heq, rfl, hlast, hfull⟩ := packMulti_eq pack _ msg rfl
  have hfull' : ∀ c ∈ full, c.length ≤ MULTI_PART := fun c hc => (hfull c hc).le
  refine ⟨full, last, ?_, ?_, ?_, ?_⟩
  · rw [heq]
    intro p hp
    simp only [mem_cons, mem_append, mem_map, not_mem_nil, or_false] at hp
    rcases hp with rfl | ⟨c, hc, rfl⟩ | rfl
    · exact hhead.1
    · exact (hpart false c (hfull' c hc)).1
    · exact (hpart true last hlast).1
  · have h1 := mapM_packets fun c hc => (hpart false c (hfull' c hc)).2.1
    rw [heq, mapM_cons, hhead.2.1, mapM_append, h1, mapM_cons,
      (hpart true last hlast).2.1]
    rfl
  · have h1 : (full.map (mk false)).map padding = List.replicate full.length true := by
      rw [map_map, ← map_const]
      exact map_congr_left fun c hc => (hpart false c (hfull' c hc)).2.2.1
    rw [map_append, map_cons, h1, hhead.2.2.1, map_singleton,
      (hpart true last hlast).2.2.1]
    simp [replicate_succ]
  · have h1 : (full.map (mk false)).map field = full.map .bytes := by
      rw [map_map]
      exact map_congr_left fun c hc => (hpart false c (hfull' c hc)).2.2.2
    have h2 : full.flatten ++ last = (full ++ [last]).flatten := by simp
    rw [map_append, map_cons, h1, hhead.2.2.2, map_singleton,
      (hpart true last hlast).2.2.2, h2, cons_append]
    rw [h2] at hmsg
    have h3 := lconcat_parts hmsg
    rw [map_append] at h3
    exact h3

end Parts

section Request

/-- What the receiver makes of the body of a packet, unless it raises. -/
def unpackRequest (body : Bytes) : Option Request := (lunpackrequest body).toOption

theorem packet_unpacks {α : Type} (unpack : Bytes → Option α) {n : ℕ} {b : Bytes}
    (hn : b.length = n) (hb : n < 2 ^ 16) :
    ((fillHeader n ++ b).drop 2).length < 2 ^ 16 ∧
      (unframe (fillHeader n ++ b)).bind unpack = unpack b := by
  rw [drop_fillHeader, unframe_packet hn hb, hn]
  exact ⟨hb, rfl⟩

theorem unpack_number {a : UInt32} {s : ℕ} (hs : s < 2 ^ 32) (msg : Bytes) :
    unpackRequest (0 :: (fillUint32 a.toNat ++ (fillUint32 s ++ msg))) =
      some { addr := some (.number a), session := s, msg := .bytes msg, padding := false } := by
  have hlen : ¬ (0 :: (fillUint32 a.toNat ++ (fillUint32 s ++ msg)) : Bytes).length < 9 := by
    simp only [length_cons, length_append, length_fillUint32]
    omega
  have h5 : (0 :: (fillUint32 a.toNat ++ (fillUint32 s ++ msg)) : Bytes).drop 5 =
      fillUint32 s ++ msg := drop_fillUint32 a.toNat _
  have h9 : (0 :: (fillUint32 a.toNat ++ (fillUint32 s ++ msg)) : Bytes).drop 9 = msg := by
    have h := drop_fillUint32 s msg
    rw [← h5, drop_drop] at h
    exact h
  change (unpackreqNumber _).toOption = _
  rw [unpackreqNumber, if_neg hlen, h5, h9, drop_one, tail_cons,
    unpackUint32_append a.toNat_lt, unpackUint32_append hs, UInt32.ofNat_toNat]
  rfl

theorem unpack_mnumber {a : UInt32} {s n : ℕ} (hs : s < 2 ^ 32) (hn : n < 2 ^ 32) :
    unpackRequest (1 :: (fillUint32 a.toNat ++ (fillUint32 s ++ fillUint32 n))) =
      some { addr := some (.number a), session := s, msg := .size n, padding := true } := by
  have hlen : ¬ (1 :: (fillUint32 a.toNat ++ (fillUint32 s ++ fillUint32 n)) : Bytes).length ≠
      13 := by simp
  have h5 : (1 :: (fillUint32 a.toNat ++ (fillUint32 s ++ fillUint32 n)) : Bytes).drop 5 =
      fillUint32 s ++ fillUint32 n := drop_fillUint32 a.toNat _
  have h9 : (1 :: (fillUint32 a.toNat ++ (fillUint32 s ++ fillUint32 n)) : Bytes).drop 9 =
      fillUint32 n := by
    have h := drop_fillUint32 s (fillUint32 n)
    rw [← h5, drop_drop] at h
    exact h
  change (unpackmreqNumber _).toOption = _
  rw [unpackmreqNumber, if_neg hlen, h5, h9, drop_one, tail_cons,
    unpackUint32_append a.toNat_lt, unpackUint32_append hs, unpackUint32_self hn,
    UInt32.ofNat_toNat]
  rfl

theorem nameSize_cons {name : Bytes} (h : name.length ≤ 255) (t : UInt8) (b : Bytes) :
    nameSize (t :: UInt8.ofNat name.length :: (name ++ b)) = name.length :=
  Nat.mod_eq_of_lt (by omega)

theorem drop_name (t u : UInt8) (name b : Bytes) :
    (t :: u :: (name ++ b)).drop (name.length + 2) = b := drop_left

theorem unpack_string {name : Bytes} {s : ℕ} (hname : name.length ≤ 255) (hs : s < 2 ^ 32)
    (msg : Bytes) :
    unpackRequest (0x80 :: UInt8.ofNat name.length :: (name ++ (fillUint32 s ++ msg))) =
      some { addr := some (.name name), session := s, msg := .bytes msg, padding := false } := by
  have hsize := nameSize_cons hname 0x80 (fillUint32 s ++ msg)
  have hrest := drop_name 0x80 (UInt8.ofNat name.length) name (fillUint32 s ++ msg)
  have hmsg := drop_fillUint32 s msg
  change (unpackreqString _).toOption = _
  rw [← hrest, drop_drop] at hmsg
  rw [unpackreqString, if_neg (by simp), if_neg (by rw [hsize]; simp), hsize, hrest,
    unpackUint32_append hs, show 2 + name.length + 4 = name.length + 2 + 4 by omega, hmsg]
  simp [Except.toOption]

theorem unpack_mstring {name : Bytes} {s n : ℕ} (hname : name.length ≤ 255) (hs : s < 2 ^ 32)
    (hn : n < 2 ^ 32) :
    unpackRequest (0x81 :: UInt8.ofNat name.length :: (name ++ (fillUint32 s ++ fillUint32 n))) =
      some { addr := some (.name name), session := s, msg := .size n, padding := true } := by
  have hsize := nameSize_cons hname 0x81 (fillUint32 s ++ fillUint32 n)
  have hrest := drop_name 0x81 (UInt8.ofNat name.length) name (fillUint32 s ++ fillUint32 n)
  have hmsg := drop_fillUint32 s (fillUint32 n)
  change (unpackmreqString _).toOption = _
  rw [← hrest, drop_drop] at hmsg
  rw [unpackmreqString, if_neg (by simp), if_neg (by rw [hsize]; simp), hsize, hrest,
    unpackUint32_append hs, show name.length + 6 = name.length + 2 + 4 by omega, hmsg,
    unpackUint32_self hn]
  simp [Except.toOption]

def partOf (session : ℕ) (last : Bool) (c : Bytes) : Request :=
  { addr := none, session := session, msg := .bytes c, padding := !last }

theorem unpack_part {s : ℕ} (hs : s < 2 ^ 32) (last : Bool) (c : Bytes) :
    unpackRequest ((if last then 3 else 2) :: (fillUint32 s ++ c)) = some (partOf s last c) := by
  have hlen : ¬ ((if last then 3 else 2) :: (fillUint32 s ++ c) : Bytes).length < 5 := by simp
  have h5 : ((if last then 3 else 2) :: (fillUint32 s ++ c) : Bytes).drop 5 = c :=
    drop_fillUint32 s c
  have hstep : unpackRequest ((if last then 3 else 2) :: (fillUint32 s ++ c)) =
      (unpackmreqPart ((if last then 3 else 2) :: (fillUint32 s ++ c))).toOption := by
    cases last <;> rfl
  rw [hstep, unpackmreqPart, if_neg hlen, h5, drop_one, tail_cons,
    unpackUint32_append hs]
  cases last <;> rfl

theorem packreqPart_unpacks {s : ℕ} (hs : s < 2 ^ 32) (last : Bool) {c : Bytes}
    (hc : c.length ≤ MULTI_PART) : ((packreqPart s last c).drop 2).length < 2 ^ 16 ∧
      (unframe (packreqPart s last c)).bind unpackRequest = some (partOf s last c) := by
  rw [packreqPart, append_assoc, append_assoc, singleton_append,
    ← unpack_part hs last c]
  rw [MULTI_PART] at hc
  refine packet_unpacks unpackRequest ?_ (by omega)
  simp only [length_cons, length_append, length_fillUint32]
  omega

/-- An address that `packrequest` takes. -/
def Addr.Valid : Addr → Prop
  | .number _ => True
  | .name s => 1 ≤ s.length ∧ s.length ≤ 255

theorem packreqNumber_single (a : UInt32) {s : ℕ} (hs : s < 2 ^ 32) {msg : Bytes}
    (hm : msg.length < MULTI_PART) : ∃ p, packreqNumber a s msg = (p, 0) ∧
      (p.drop 2).length < 2 ^ 16 ∧ (unframe p).bind unpackRequest =
        some { addr := some (.number a), session := s, msg := .bytes msg, padding := false } := by
  refine ⟨_, if_pos hm, ?_⟩
  rw [MULTI_PART] at hm
  simp only [append_assoc, singleton_append]
  rw [← unpack_number hs msg]
  refine packet_unpacks unpackRequest ?_ (by omega)
  simp only [length_cons, length_append, length_fillUint32]
  omega

theorem packreqNumber_head (a : UInt32) {s : ℕ} (hs : s < 2 ^ 32) {msg : Bytes}
    (hm : ¬ msg.length < MULTI_PART) (hlen : msg.length < 2 ^ 32) :
    ∃ p, packreqNumber a s msg = (p, parts msg.length) ∧
      (p.drop 2).length < 2 ^ 16 ∧ (unframe p).bind unpackRequest =
        some { addr := some (.number a), session := s, msg := .size msg.length,
               padding := true } := by
  refine ⟨_, if_neg hm, ?_⟩
  simp only [append_assoc, singleton_append]
  rw [← unpack_mnumber hs hlen]
  refine packet_unpacks unpackRequest ?_ (by norm_num)
  simp only [length_cons, length_append, length_fillUint32]

theorem packreqString_single {name : Bytes} (hname : 1 ≤ name.length ∧ name.length ≤ 255) {s : ℕ}
    (hs : s < 2 ^ 32) {msg : Bytes} (hm : msg.length < MULTI_PART) :
    ∃ p, packreqString name s msg = .ok (p, 0) ∧
      (p.drop 2).length < 2 ^ 16 ∧ (unframe p).bind unpackRequest =
        some { addr := some (.name name), session := s, msg := .bytes msg, padding := false } := by
  refine ⟨_, (if_neg (by omega)).trans (if_pos hm), ?_⟩
  rw [MULTI_PART] at hm
  simp only [append_assoc, cons_append, nil_append]
  rw [← unpack_string hname.2 hs msg]
  refine packet_unpacks unpackRequest ?_ (by omega)
  simp only [length_cons, length_append, length_fillUint32]
  omega

theorem packreqString_head {name : Bytes} (hname : 1 ≤ name.length ∧ name.length ≤ 255) {s : ℕ}
    (hs : s < 2 ^ 32) {msg : Bytes} (hm : ¬ msg.length < MULTI_PART)
    (hlen : msg.length < 2 ^ 32) :
    ∃ p, packreqString name s msg = .ok (p, parts msg.length) ∧
      (p.drop 2).length < 2 ^ 16 ∧ (unframe p).bind unpackRequest =
        some { addr := some (.name name), session := s, msg := .size msg.length,
               padding := true } := by
  refine ⟨_, (if_neg (by omega)).trans (if_neg hm), ?_⟩
  simp only [append_assoc, cons_append, nil_append]
  rw [← unpack_mstring hname.2 hs hlen]
  refine packet_unpacks unpackRequest ?_ (by omega)
  simp only [length_cons, length_append, length_fillUint32]
  omega

theorem packreq_single {addr : Addr} (ha : addr.Valid) {s : ℕ} (hs : s < 2 ^ 32) {msg : Bytes}
    (hm : msg.length < MULTI_PART) : ∃ p, packreq addr s msg = .ok (p, 0) ∧
      (p.drop 2).length < 2 ^ 16 ∧ (unframe p).bind unpackRequest =
        some { addr := some addr, session := s, msg := .bytes msg, padding := false } := by
  cases addr with
  | number a =>
    obtain ⟨p, hp, h⟩ := packreqNumber_single a hs hm
    exact ⟨p, congrArg Except.ok hp, h⟩
  | name n => exact packreqString_single ha hs hm

theorem packreq_head {addr : Addr} (ha : addr.Valid) {s : ℕ} (hs : s < 2 ^ 32) {msg : Bytes}
    (hm : ¬ msg.length < MULTI_PART) (hlen : msg.length < 2 ^ 32) :
    ∃ p, packreq addr s msg = .ok (p, parts msg.length) ∧
      (p.drop 2).length < 2 ^ 16 ∧ (unframe p).bind unpackRequest =
        some { addr := some addr, session := s, msg := .size msg.length, padding := true } := by
  cases addr with
  | number a =>
    obtain ⟨p, hp, h⟩ := packreqNumber_head a hs hm hlen
    exact ⟨p, congrArg Except.ok hp, h⟩
  | name n => exact packreqString_head ha hs hm hlen

theorem request_carried {addr : Addr} (ha : addr.Valid) {session : ℤ} (hs : 0 < session)
    (hs' : session < 2 ^ 31) {msg : Bytes} (hm : msg.length < 2 ^ 31) :
    ∃ p us, lpackrequest addr session msg = .ok p ∧
      Carried unpackRequest Request.padding Request.msg (p.request :: p.multi) us msg ∧
      us.head?.bind Request.addr = some addr ∧ ∀ u ∈ us, (u.session : ℤ) = session := by
  have hs32 : session.toNat < 2 ^ 32 := by omega
  have hcast : (session.toNat : ℤ) = session := Int.toNat_of_nonneg hs.le
  simp only [lpackrequest, if_neg (not_le.2 hs)]
  by_cases hshort : msg.length < MULTI_PART
  · obtain ⟨p, hp, hfit, hu⟩ := packreq_single ha hs32 hshort
    have hcarried : Carried unpackRequest Request.padding Request.msg [p]
        [{ addr := some addr, session := session.toNat, msg := .bytes msg, padding := false }]
        msg := by
      refine ⟨?_, (by rw [mapM_cons, hu]; rfl), rfl, rfl⟩
      intro q hq
      rwa [mem_singleton.1 hq]
    rw [hp]
    refine ⟨_, _, rfl, hcarried, rfl, ?_⟩
    intro u hu'
    rwa [mem_singleton.1 hu']
  · obtain ⟨p, hp, hfit, hu⟩ := packreq_head ha hs32 hshort (hm.trans (by norm_num))
    have hmulti : parts msg.length ≠ 0 := Nat.succ_ne_zero _
    obtain ⟨full, last, hcarried⟩ := carried_parts Request.padding Request.msg hm
      ⟨hfit, hu, rfl, rfl⟩ fun last c hc => ⟨(packreqPart_unpacks hs32 last hc).1,
        (packreqPart_unpacks hs32 last hc).2, rfl, rfl⟩
    rw [hp]
    refine ⟨⟨p, nextSession session, packreqMulti session.toNat msg⟩, _, ?_, hcarried, rfl, ?_⟩
    · simp only [bind, Except.bind, pure, Except.pure, if_neg hmulti]
    · intro u hu'
      simp only [cons_append, mem_cons, mem_append, mem_map,
        not_mem_nil, or_false] at hu'
      rcases hu' with rfl | ⟨c, -, rfl⟩ | rfl <;> exact hcast

end Request

section Response

theorem packresPacket_unpacks (s : ℕ) (kind : UInt8) {c : Bytes}
    (hc : c.length ≤ MULTI_PART) : ((packresPacket s kind c).drop 2).length < 2 ^ 16 ∧
      (unframe (packresPacket s kind c)).bind lunpackresponse =
        lunpackresponse (fillUint32 s ++ kind :: c) := by
  rw [packresPacket, append_assoc, append_assoc, singleton_append]
  rw [MULTI_PART] at hc
  refine packet_unpacks lunpackresponse ?_ (by omega)
  simp only [length_cons, length_append, length_fillUint32]
  omega

theorem lunpackresponse_reads {s : ℕ} (hs : s < 2 ^ 32) (kind : UInt8) (c : Bytes) :
    ¬ (fillUint32 s ++ kind :: c).length < 5 ∧ (fillUint32 s ++ kind :: c).getD 4 0 = kind ∧
      unpackUint32 (fillUint32 s ++ kind :: c) = s ∧ (fillUint32 s ++ kind :: c).drop 5 = c ∧
      (fillUint32 s ++ kind :: c).length = c.length + 5 := by
  have hlen : (fillUint32 s ++ kind :: c).length = c.length + 5 := by
    simp only [length_cons, length_append, length_fillUint32]
    omega
  refine ⟨by omega, rfl, unpackUint32_append hs _, rfl, hlen⟩

/-- A whole response, or a part of one, unpacked. -/
def responseOf (session : ℕ) (ok padding : Bool) (c : Bytes) : UnpackedResponse :=
  { session := session, ok := ok, msg := .bytes c, padding := padding }

theorem unpack_whole {s : ℕ} (hs : s < 2 ^ 32) (ok : Bool) (c : Bytes) :
    lunpackresponse (fillUint32 s ++ (if ok then 1 else 0) :: c) =
      some (responseOf s ok false c) := by
  obtain ⟨hlen, hkind, hsession, hdrop, -⟩ := lunpackresponse_reads hs (if ok then 1 else 0) c
  rw [lunpackresponse, if_neg hlen, hkind, hsession, hdrop]
  cases ok <;> rfl

theorem unpack_respart {s : ℕ} (hs : s < 2 ^ 32) (last : Bool) (c : Bytes) :
    lunpackresponse (fillUint32 s ++ (if last then 4 else 3) :: c) =
      some (responseOf s true (!last) c) := by
  obtain ⟨hlen, hkind, hsession, hdrop, -⟩ := lunpackresponse_reads hs (if last then 4 else 3) c
  rw [lunpackresponse, if_neg hlen, hkind, hsession, hdrop]
  cases last <;> rfl

theorem unpack_begin {s n : ℕ} (hs : s < 2 ^ 32) (hn : n < 2 ^ 32) :
    lunpackresponse (fillUint32 s ++ 2 :: fillUint32 n) =
      some { session := s, ok := true, msg := .size n, padding := true } := by
  obtain ⟨hlen, hkind, hsession, hdrop, hsize⟩ := lunpackresponse_reads hs 2 (fillUint32 n)
  have hnine : ¬ (fillUint32 s ++ 2 :: fillUint32 n).length ≠ 9 := by
    rw [hsize, length_fillUint32]
    decide
  rw [lunpackresponse, if_neg hlen, hkind, hsession, hdrop, unpackUint32_self hn]
  exact if_neg hnine

theorem single_carried {s : ℕ} (hs : s < 2 ^ 32) (ok : Bool) {c : Bytes}
    (hc : c.length ≤ MULTI_PART) :
    Carried lunpackresponse UnpackedResponse.padding UnpackedResponse.msg
      [packresPacket s (if ok then 1 else 0) c] [responseOf s ok false c] c := by
  obtain ⟨hfit, hu⟩ := packresPacket_unpacks s (if ok then 1 else 0) hc
  rw [unpack_whole hs] at hu
  refine ⟨?_, ?_, rfl, rfl⟩
  · intro p hp
    rwa [mem_singleton.1 hp]
  · rw [mapM_cons, hu]
    rfl

theorem response_carried (session : UInt32) (ok : Bool) {msg : Bytes} (hm : msg.length < 2 ^ 31) :
    ∃ us, Carried lunpackresponse UnpackedResponse.padding UnpackedResponse.msg
        (lpackresponse session ok msg).packets us
        (if ok then msg else msg.take MULTI_PART) ∧
      us ≠ [] ∧ ∀ u ∈ us, u.session = session.toNat ∧ u.ok = ok := by
  have hs := session.toNat_lt
  have hwhole : ∀ c : Bytes, ∀ u ∈ [responseOf session.toNat ok false c],
      u.session = session.toNat ∧ u.ok = ok := by
    intro c u hu
    rw [mem_singleton.1 hu]
    exact ⟨rfl, rfl⟩
  cases ok with
  | false =>
    exact ⟨_, single_carried hs false (length_take_le _ _), cons_ne_nil _ _, hwhole _⟩
  | true =>
    by_cases hlong : msg.length > MULTI_PART
    · have hbegin := packresPacket_unpacks session.toNat 2 (c := fillUint32 msg.length)
        (by rw [length_fillUint32]; decide)
      rw [unpack_begin hs (hm.trans (by norm_num))] at hbegin
      have hpart : ∀ (last : Bool) (c : Bytes), c.length ≤ MULTI_PART →
          ((packresPacket session.toNat (if last then 4 else 3) c).drop 2).length < 2 ^ 16 ∧
          (unframe (packresPacket session.toNat (if last then 4 else 3) c)).bind lunpackresponse =
            some (responseOf session.toNat true (!last) c) := by
        intro last c hc
        rw [← unpack_respart hs last c]
        exact packresPacket_unpacks _ _ hc
      obtain ⟨full, last, hcarried⟩ := carried_parts UnpackedResponse.padding
        UnpackedResponse.msg hm ⟨hbegin.1, hbegin.2, rfl, rfl⟩
        fun last c hc => ⟨(hpart last c hc).1, (hpart last c hc).2, rfl, rfl⟩
      rw [lpackresponse, if_neg (by decide), if_pos hlong]
      refine ⟨_, hcarried, cons_ne_nil _ _, ?_⟩
      intro u hu
      simp only [cons_append, mem_cons, mem_append, mem_map, not_mem_nil,
        or_false] at hu
      rcases hu with rfl | ⟨c, -, rfl⟩ | rfl <;> exact ⟨rfl, rfl⟩
    · rw [lpackresponse, if_neg (by decide), if_neg hlong]
      exact ⟨_, single_carried hs true (not_lt.1 hlong), cons_ne_nil _ _, hwhole msg⟩

end Response

theorem Carried.unique {α : Type} {unpack : Bytes → Option α} {padding : α → Bool}
    {field : α → Field} {packets : List Bytes} {us us' : List α} {msg msg' : Bytes}
    (h : Carried unpack padding field packets us msg)
    (h' : Carried unpack padding field packets us' msg') : msg = msg' := by
  have hus : us = us' := Option.some.inj (h.unpacked.symm.trans h'.unpacked)
  rw [hus] at h
  exact Option.some.inj (h.assembled.symm.trans h'.assembled)

/-- What is packed comes back: of a request the address, the session and the message, of a response
the session, the flag and the message, an error cut to what one packet holds. -/
theorem unpack_pack :
    (∀ (addr : Addr) (session : ℤ) (msg : Bytes), addr.Valid → 0 < session → session < 2 ^ 31 →
      msg.length < 2 ^ 31 → ∃ p us, lpackrequest addr session msg = .ok p ∧
        Carried unpackRequest Request.padding Request.msg (p.request :: p.multi) us msg ∧
        us.head?.bind Request.addr = some addr ∧ ∀ u ∈ us, (u.session : ℤ) = session) ∧
    (∀ (session : UInt32) (ok : Bool) (msg : Bytes), msg.length < 2 ^ 31 →
      ∃ us, Carried lunpackresponse UnpackedResponse.padding UnpackedResponse.msg
          (lpackresponse session ok msg).packets us (if ok then msg else msg.take MULTI_PART) ∧
        us ≠ [] ∧ ∀ u ∈ us, u.session = session.toNat ∧ u.ok = ok) :=
  ⟨fun _ _ _ ha hs hs' hm => request_carried ha hs hs' hm,
    fun session ok _ hm => response_carried session ok hm⟩

theorem unpack_pack_hi :
    (∃ p us, lpackrequest (.name [104, 105]) 7 [1, 2, 3] = .ok p ∧
      Carried unpackRequest Request.padding Request.msg (p.request :: p.multi) us [1, 2, 3] ∧
      us.head?.bind Request.addr = some (.name [104, 105]) ∧
      ∀ u ∈ us, (u.session : ℤ) = 7) ∧
    ∃ us, Carried lunpackresponse UnpackedResponse.padding UnpackedResponse.msg
        (lpackresponse 7 true [4, 5]).packets us [4, 5] ∧
      us ≠ [] ∧ ∀ u ∈ us, u.session = 7 ∧ u.ok = true :=
  ⟨unpack_pack.1 (.name [104, 105]) 7 [1, 2, 3] ⟨by decide, by decide⟩ (by decide) (by decide)
    (by decide), unpack_pack.2 7 true [4, 5] (by decide)⟩

/-- An error message of one byte more than a packet holds comes back without it. -/
theorem response_cut : ¬ ∀ (session : UInt32) (ok : Bool) (msg : Bytes), msg.length < 2 ^ 31 →
    ∃ us, Carried lunpackresponse UnpackedResponse.padding UnpackedResponse.msg
      (lpackresponse session ok msg).packets us msg := by
  intro h
  have hlen : (List.replicate 32769 (0 : UInt8)).length = 32769 := List.length_replicate
  have hlt : (List.replicate 32769 (0 : UInt8)).length < 2 ^ 31 := by
    rw [hlen]
    norm_num
  obtain ⟨us, hus⟩ := h 1 false _ hlt
  obtain ⟨us', hus', -, -⟩ := response_carried 1 false hlt
  have hcut := congrArg List.length (hus.unique hus')
  rw [if_neg (by decide), List.length_take, hlen, MULTI_PART] at hcut
  norm_num at hcut

end LuaCluster

end SkynetGame
