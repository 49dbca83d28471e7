import SkynetGame.Proofs.WriteOrder

/-!
# How the low list tells a package that is partly sent

`list_uncomplete` compares the pointer of the head with its `buffer`. Buffers that are still whole point
to where their data start (`Lined`), which for a user object is not the object; so the low list is told
right as long as the data of all objects in it start at the objects (`Plain`), and not otherwise.
-/

namespace SkynetGame

open List Option

open Packages

namespace WriteBuffer

variable (soi : SocketObjectInterface)

/-- The data start at the address that is kept as `buffer`. -/
def Plain (b : WriteBuffer) : Prop := b.start soi = b.buffer

/-- Nothing of the package is written. -/
structure Untouched (pk : List (Priority × Bytes)) (b : WriteBuffer) : Prop where
  ptr : b.ptr = b.start soi
  data : b.data = body pk b.pkg
  lt : b.pkg < pk.length

/-- Something of the package is written, and its pointer has come to the object. -/
structure Missed (pk : List (Priority × Bytes)) (b : WriteBuffer) : Prop where
  ptr : b.ptr = b.buffer
  object : ¬ Plain soi b
  part : b.data.length < (body pk b.pkg).length
  lt : b.pkg < pk.length

variable {soi} {pk : List (Priority × Bytes)} {b : WriteBuffer} {p : Priority} {bytes : Bytes}

theorem Untouched.append (h : Untouched soi pk b) : Untouched soi (pk ++ [(p, bytes)]) b :=
  ⟨h.ptr, h.data.trans (body_append_of_lt h.lt).symm, by
    rw [length_append]
    exact Nat.lt_add_right 1 h.lt⟩

theorem Missed.append (h : Missed soi pk b) : Missed soi (pk ++ [(p, bytes)]) b :=
  ⟨h.ptr, h.object, by rw [body_append_of_lt h.lt]; exact h.part, by
    rw [length_append]
    exact Nat.lt_add_right 1 h.lt⟩

end WriteBuffer

open WriteBuffer

namespace Socket

variable {soi : SocketObjectInterface} {s s' t : Socket} {p : Priority} {b : WriteBuffer}
  {bs : List WriteBuffer} {m : Option SocketMessage} {ws ws' : List WriteResult}

/-- The buffers of the low list are whole, apart from a head that cannot be told from a whole one. -/
structure Lined (soi : SocketObjectInterface) (s : Socket) : Prop where
  head : ∀ b ∈ s.low.head?, Untouched soi s.life.accepted b ∨ Missed soi s.life.accepted b
  tail : ∀ b ∈ s.low.tail, Untouched soi s.life.accepted b

theorem Lined.nil (h : s.low = []) : Lined soi s := by
  refine ⟨fun b hb => ?_, fun b hb => ?_⟩
  · rw [h] at hb
    cases hb
  · rw [h] at hb
    cases hb

theorem Lined.congr (h : Lined soi s) (hl : t.low = s.low)
    (ha : t.life.accepted = s.life.accepted) : Lined soi t := by
  refine ⟨?_, ?_⟩
  · rw [hl, ha]
    exact h.head
  · rw [hl, ha]
    exact h.tail

theorem Lined.next (h : Lined soi s) (hs : s.low = b :: bs) (hl : t.low = bs)
    (ha : t.life.accepted = s.life.accepted) : Lined soi t := by
  have htail := h.tail
  rw [hs, tail_cons] at htail
  refine ⟨fun c hc => ?_, fun c hc => ?_⟩
  · rw [hl] at hc
    rw [ha]
    exact .inl (htail c (List.mem_of_mem_head? hc))
  · rw [hl] at hc
    rw [ha]
    exact htail c (mem_of_mem_tail hc)

theorem Lined.forceClose (h : Lined soi s) (hc : s.forceClose = some t) : Lined soi t := by
  obtain ⟨-, rfl⟩ | ⟨-, rfl⟩ := forceClose_cases hc
  · exact h
  · exact .nil rfl

theorem Lined.sendHigh (h : Lined soi s) (hs : s.sendList .high ws = some (s', m, ws')) :
    Lined soi s' := by
  obtain ⟨t, ht, hstop⟩ := sendList_cases (J := Lined soi) (fun t b bs ht _ => ht.congr rfl rfl) hs h
  cases hstop with
  | whole => exact ht
  | inside => exact ht.congr rfl rfl
  | passed => exact ht.congr rfl rfl
  | error hc => exact (ht.congr (t := t.writeFailed) rfl rfl).forceClose hc

theorem Lined.sendList (h : Lined soi s) (hs : s.sendList .low ws = some (s', m, ws')) :
    Lined soi s' ∨ m = none ∧ ∃ t n b bs, Lined soi t ∧ t.low = b :: bs ∧ n < b.data.length
      ∧ s' = t.advance .low n b bs := by
  obtain ⟨t, ht, hstop⟩ := sendList_cases (p := .low) (J := Lined soi)
    (fun t b bs ht hl => ht.next hl rfl rfl) hs h
  cases hstop with
  | whole => exact .inl ht
  | inside hl hn => exact .inr ⟨rfl, t, _, _, _, ht, hl, hn, rfl⟩
  | passed => exact .inl (ht.congr rfl rfl)
  | error hc => exact .inl ((ht.congr (t := t.writeFailed) rfl rfl).forceClose hc)

theorem Lined.advance (h : Lined soi t) (hl : t.low = b :: bs) {n : ℕ} (hn : n < b.data.length)
    (hu : listUncomplete (t.advance .low n b bs).low = false) :
    Lined soi (t.advance .low n b bs) := by
  have hptr : b.ptr + n = b.buffer := by simpa [listUncomplete, Socket.advance, setList] using hu
  have htail := h.tail
  have hhead := h.head b (by rw [hl]; rfl)
  rw [hl, tail_cons] at htail
  refine ⟨fun c hc => ?_, htail⟩
  obtain rfl := some.inj hc
  rcases Nat.eq_zero_or_pos n with rfl | hpos
  · exact hhead
  rcases hhead with hb | hb
  · refine .inr ⟨hptr, fun hp => ?_, ?_, hb.lt⟩
    · have hp : b.start soi = b.buffer := hp
      have hb := hb.ptr
      omega
    · change (b.data.drop n).length < (body t.life.accepted b.pkg).length
      rw [length_drop, ← hb.data]
      omega
  · have hb := hb.ptr
    omega

theorem Lined.raiseUncomplete (h : ∀ b ∈ s.low.tail, Untouched soi s.life.accepted b)
    (hr : s.raiseUncomplete = some t) : Lined soi t := by
  unfold Socket.raiseUncomplete at hr
  rcases hl : s.low with _ | ⟨b, bs⟩
  · rw [hl] at hr
    cases hr
  simp only [hl] at hr
  split_ifs at hr
  obtain rfl := some.inj hr
  rw [hl, tail_cons] at h
  exact ⟨fun c hc => .inl (h c (List.mem_of_mem_head? hc)), fun c hc => h c (mem_of_mem_tail hc)⟩

theorem Lined.sendLow (h : Lined soi s) (hs : s.sendLow ws = some (s', m)) : Lined soi s' := by
  unfold Socket.sendLow at hs
  split_ifs at hs with hl
  · unfold checkClose at hs
    split_ifs at hs
    · obtain ⟨t, hc, heq⟩ := map_eq_some_iff.1 hs
      obtain ⟨rfl, -⟩ := Prod.mk.inj heq
      exact (h.congr (t := { s with writing := false }) rfl rfl).forceClose hc
    · obtain ⟨rfl, -⟩ := Prod.mk.inj (some.inj hs)
      exact h.congr rfl rfl
  cases hlist : s.sendList .low ws with
  | none =>
    rw [hlist] at hs
    cases hs
  | some r =>
    obtain ⟨t, o, ws₁⟩ := r
    rw [hlist] at hs
    cases o with
    | some a =>
      obtain ⟨rfl, -⟩ := Prod.mk.inj (some.inj hs)
      exact (h.sendList hlist).resolve_right fun h => some_ne_none a h.1
    | none =>
      dsimp only at hs
      split_ifs at hs with hu
      · obtain ⟨u, hr, heq⟩ := map_eq_some_iff.1 hs
        obtain ⟨rfl, -⟩ := Prod.mk.inj heq
        refine Lined.raiseUncomplete (s := t) ?_ hr
        obtain ht | ⟨-, v, n, b, bs, hv, hl, -, rfl⟩ := h.sendList hlist
        · exact ht.tail
        · have := hv.tail
          rwa [hl] at this
      · obtain ⟨rfl, -⟩ := Prod.mk.inj (some.inj hs)
        obtain ht | ⟨-, v, n, b, bs, hv, hl, hn, rfl⟩ := h.sendList hlist
        · exact ht
        · exact hv.advance hl hn (Bool.eq_false_of_not_eq_true hu)

theorem Lined.sendBuffer (h : Lined soi s) (hs : s.sendBuffer ws = some (s', m)) : Lined soi s' := by
  unfold Socket.sendBuffer at hs
  split_ifs at hs
  cases hlist : s.sendList .high ws with
  | none =>
    rw [hlist] at hs
    cases hs
  | some r =>
    obtain ⟨t, o, ws₁⟩ := r
    have ht := h.sendHigh hlist
    rw [hlist] at hs
    cases o with
    | some a =>
      obtain ⟨rfl, -⟩ := Prod.mk.inj (some.inj hs)
      exact ht
    | none =>
      dsimp only at hs
      split_ifs at hs
      · exact ht.sendLow hs
      · obtain ⟨rfl, -⟩ := Prod.mk.inj (some.inj hs)
        exact ht

variable {r : SendRequest soi}

theorem Lined.accept (h : Lined soi s) : Lined soi (s.accept p r) :=
  ⟨fun b hb => (h.head b hb).imp Untouched.append Missed.append, fun b hb => (h.tail b hb).append⟩

theorem Lined.append (h : Lined soi s) (l : Priority) (n : ℕ) (hl : l = .low → n = 0) :
    Lined soi ((s.appendSendbuffer l r n).accept p r) := by
  cases l with
  | high => exact (h.accept (p := p) (r := r)).congr rfl rfl
  | low =>
    obtain rfl := hl rfl
    have hnew : Untouched soi (s.life.accepted ++ [(p, r.bytes)]) {
        buffer := r.buffer
        ptr := (sendObjectInit soi r.buffer r.sz).buffer
        data := r.bytes
        userobject := (sendObjectInit soi r.buffer r.sz).userobject
        pkg := s.life.accepted.length } := by
      refine ⟨(sendObjectInit_buffer soi r.buffer r.sz).symm, body_append_self.symm, ?_⟩
      rw [length_append]
      exact Nat.lt_succ_self _
    have hacc := h.accept (p := p) (r := r)
    have hlow : ((s.appendSendbuffer .low r 0).accept p r).low = s.low ++ [_] := rfl
    rcases hs : s.low with _ | ⟨b, bs⟩
    · rw [hs, nil_append] at hlow
      refine ⟨fun c hc => ?_, fun c hc => ?_⟩
      · rw [hlow] at hc
        obtain rfl := some.inj hc
        exact .inl hnew
      · rw [hlow] at hc
        cases hc
    · rw [hs, cons_append] at hlow
      refine ⟨fun c hc => ?_, fun c hc => ?_⟩
      · rw [hlow] at hc
        obtain rfl := some.inj hc
        exact hacc.head b (by change b ∈ s.low.head?; rw [hs]; rfl)
      · rw [hlow, tail_cons] at hc
        rcases mem_append.1 hc with hc | hc
        · exact hacc.tail c (by change c ∈ s.low.tail; rw [hs]; exact hc)
        · obtain rfl := mem_singleton.1 hc
          exact hnew

theorem Lined.posted (h : Lined soi s) (hs : Posted s p r s' m) : Lined soi s' := by
  cases hs with
  | refused => exact h
  | queued => exact h.append p 0 fun _ => rfl
  | delayed => exact (h.append (p := p) (r := r) p 0 fun _ => rfl).congr rfl rfl
  | datagram => exact (h.accept (p := p) (r := r)).congr rfl rfl
  | error _ hc => exact (h.congr (t := s.writeFailed) rfl rfl).forceClose hc
  | @direct n =>
    unfold sendDirect
    dsimp only
    split_ifs
    · exact (h.accept (p := p) (r := r)).congr rfl rfl
    · exact (h.append (p := p) (r := r) .high n fun h => by cases h).congr rfl rfl

theorem Lined.closeSocket (h : Lined soi s) {id : ℤ} {shutdown : Bool} {owner : ℕ}
    (hs : s.closeSocket id shutdown owner ws = some (s', m)) : Lined soi s' := by
  have hrest {t : Socket} (ht : Lined soi t) (hs : t.closeRest id shutdown owner = some (s', m)) :
      Lined soi s' := by
    unfold closeRest at hs
    split_ifs at hs
    · obtain ⟨u, hc, heq⟩ := map_eq_some_iff.1 hs
      obtain ⟨rfl, -⟩ := Prod.mk.inj heq
      exact ht.forceClose hc
    · obtain ⟨rfl, -⟩ := Prod.mk.inj (some.inj hs)
      exact ht.congr rfl rfl
  have ha : Lined soi (s.askClose shutdown owner) := h.congr rfl rfl
  unfold Socket.closeSocket at hs
  split_ifs at hs
  · obtain ⟨rfl, -⟩ := Prod.mk.inj (some.inj hs)
    exact h
  dsimp only at hs
  split_ifs at hs
  · exact hrest ha hs
  cases hb : (s.askClose shutdown owner).sendBuffer ws with
  | none =>
    rw [hb] at hs
    cases hs
  | some r =>
    obtain ⟨u, o⟩ := r
    rw [hb] at hs
    cases o with
    | some a =>
      obtain ⟨rfl, -⟩ := Prod.mk.inj (some.inj hs)
      exact ha.sendBuffer hb
    | none => exact hrest (ha.sendBuffer hb) hs

theorem Lined.moved (h : Lined soi s) (hm : Moved soi s s' m) : Lined soi s' := by
  cases hm with
  | turned ht =>
    cases ht with
    | same => exact h
    | on _ _ hl hlife => exact h.congr hl (by rw [hlife])
    | finished _ _ hc => exact (h.congr (t := s.readEnded) rfl rfl).forceClose hc
  | sent _ hs => exact h.sendBuffer hs
  | posted hs => exact h.posted hs
  | closed hs => exact h.closeSocket hs

theorem Lined.note (h : Lined soi s) {asked : Bool} {before : Socket} :
    Lined soi (s.note asked before m) := by
  cases m with
  | none => exact h
  | some m =>
    unfold Socket.note
    dsimp only
    split_ifs
    · exact h.congr rfl rfl
    · exact h

/-! ## Where the low list is looked at -/

/-- `send_buffer` comes to `raise_uncomplete`, in the state `t`. -/
def Raises (s : Socket) (ws : List WriteResult) (t : Socket) : Prop :=
  listUncomplete s.low = false ∧ ∃ s₁ ws₁ ws₂, s.sendList .high ws = some (s₁, none, ws₁) ∧
    s₁.high = [] ∧ s₁.low ≠ [] ∧ s₁.sendList .low ws₁ = some (t, none, ws₂) ∧
    listUncomplete t.low = true

/-- Of the package at the head of the low list the first bytes were just written, and not all. -/
def PartlySent (s : Socket) : Prop :=
  ∃ b bs n w, s.low = b :: bs ∧ 0 < n ∧ n < (body s.life.accepted b.pkg).length ∧
    b.data = (body s.life.accepted b.pkg).drop n ∧
    s.life.written = w ++ (body s.life.accepted b.pkg).take n

/-- At the entry of `send_buffer` its assertion holds and nothing of the head of the low list is sent,
and whatever the writes return, `raise_uncomplete` is only reached with the high list empty and a part
of the head of the low list sent. -/
structure Asserted (s : Socket) : Prop where
  passed : listUncomplete s.low = false
  whole : ∀ b ∈ s.low.head?, b.data = body s.life.accepted b.pkg
  raised : ∀ ws t, s.Raises ws t → t.high = [] ∧ t.PartlySent

theorem Lined.passed (h : Lined soi s) (hp : ∀ b ∈ s.low, Plain soi b) :
    listUncomplete s.low = false ∧ ∀ b ∈ s.low.head?, Untouched soi s.life.accepted b := by
  have hhead : ∀ b ∈ s.low.head?, Untouched soi s.life.accepted b := fun b hb =>
    (h.head b hb).resolve_right fun hm => hm.object (hp b (List.mem_of_mem_head? hb))
  refine ⟨?_, hhead⟩
  rcases hl : s.low with _ | ⟨b, bs⟩
  · rfl
  have hb : b.ptr = b.buffer := (hhead b (by rw [hl]; rfl)).ptr.trans
    (hp b (by rw [hl]; exact mem_cons_self))
  simp [listUncomplete, hb]

theorem sendHigh_low (hs : s.sendList .high ws = some (t, none, ws')) :
    t.low = s.low ∧ t.life.accepted = s.life.accepted := by
  obtain ⟨u, hu, hstop⟩ := sendList_cases (p := .high)
    (J := fun u => u.low = s.low ∧ u.life.accepted = s.life.accepted)
    (fun u b bs hu _ => hu) hs ⟨rfl, rfl⟩
  cases hstop with
  | whole => exact hu
  | inside => exact hu
  | passed => exact hu

theorem Lined.raised (h : Lined soi s) (hp : ∀ b ∈ s.low, Plain soi b) (hr : s.Raises ws t) :
    t.high = [] ∧ t.PartlySent := by
  obtain ⟨-, s₁, ws₁, ws₂, hhigh, hnil, -, hlow, hu⟩ := hr
  obtain ⟨hl₁, ha₁⟩ := sendHigh_low hhigh
  obtain ⟨v, ⟨hv, hpv, hnv⟩, hstop⟩ := sendList_cases (p := .low)
    (J := fun v => Lined soi v ∧ (∀ b ∈ v.low, Plain soi b) ∧ v.high = [])
    (fun v b bs ⟨hv, hpv, hnv⟩ hl => by
      refine ⟨hv.next hl rfl rfl, fun c hc => hpv c ?_, hnv⟩
      change v.low = b :: bs at hl
      rw [hl]
      exact mem_cons_of_mem b hc)
    hlow ⟨h.congr hl₁ ha₁, by rwa [hl₁], hnil⟩
  have hpassed := hv.passed hpv
  cases hstop with
  | whole =>
    rw [hpassed.1] at hu
    cases hu
  | passed =>
    have : listUncomplete v.low = true := hu
    rw [hpassed.1] at this
    cases this
  | @inside n b bs hl hn =>
    change v.low = b :: bs at hl
    have hb := hpassed.2 b (by rw [hl]; rfl)
    have hplain : b.start soi = b.buffer := hpv b (by rw [hl]; exact mem_cons_self)
    have hne : b.ptr + n ≠ b.buffer := by
      simpa [listUncomplete, Socket.advance, setList] using hu
    have hpos : 0 < n := by
      have := hb.ptr
      omega
    refine ⟨hnv, _, bs, n, v.life.written, rfl, hpos, ?_, ?_, ?_⟩
    · change n < (body v.life.accepted b.pkg).length
      rwa [← hb.data]
    · change b.data.drop n = (body v.life.accepted b.pkg).drop n
      rw [← hb.data]
    · change v.life.written ++ b.data.take n = v.life.written ++ (body v.life.accepted b.pkg).take n
      rw [← hb.data]

/-! ## Where it is told wrong -/

theorem list_pop (p : Priority) (b : WriteBuffer) (bs : List WriteBuffer) :
    (s.pop p b bs).list p = bs := by
  cases p <;> rfl

theorem list_pop_ne {q : Priority} (hq : q ≠ p) : (s.pop p b bs).list q = s.list q := by
  cases p <;> cases q <;> first | rfl | exact absurd rfl hq

/-- The writes that take these buffers whole. -/
def writes (l : List WriteBuffer) : List WriteResult := l.map fun b => .wrote b.data.length

theorem exists_writes (p : Priority) (ws : List WriteResult) (bs : List WriteBuffer) :
    ∀ (l : List WriteBuffer) {s : Socket}, s.protocol = .tcp → s.list p = l ++ bs →
      ∃ t : Socket, s.sendListTcp p (writes l ++ ws) = t.sendListTcp p ws ∧ t.list p = bs
        ∧ (∀ q, q ≠ p → t.list q = s.list q) ∧ t.life.accepted = s.life.accepted
        ∧ t.protocol = .tcp
  | [], s, htcp, hl => ⟨s, rfl, hl, fun _ _ => rfl, rfl, htcp⟩
  | b :: l, s, htcp, hl => by
    obtain ⟨t, hsend, hlt, hq, hacc, ht⟩ := exists_writes p ws bs l (s := s.pop p b (l ++ bs))
      (by cases p <;> exact htcp) (list_pop p b (l ++ bs))
    refine ⟨t, ?_, hlt, fun q hne => ?_, ?_, ht⟩
    · rw [← hsend, writes, map_cons, cons_append, sendListTcp, hl, cons_append]
      dsimp only
      rw [if_neg (Nat.lt_irrefl _), if_neg (not_not.2 rfl)]
      rfl
    · rw [hq q hne, list_pop_ne hne]
    · rw [hacc]
      cases p <;> rfl

/-- A user object behind others comes to the front if they are written whole, and nothing of it: where
its data are elsewhere this is not told. -/
theorem exists_raises (htcp : s.protocol = .tcp) (hu : listUncomplete s.low = false)
    {l : List WriteBuffer} (hl : s.low = l ++ b :: bs) (hb : b.ptr ≠ b.buffer) :
    ∃ ws t, s.Raises ws t ∧ t.low = b :: bs ∧ t.life.accepted = s.life.accepted := by
  obtain ⟨t, ht, hhigh, hlow, hacc, htcp'⟩ := exists_writes .high (writes l ++ [.again]) [] s.high
    htcp (append_nil s.high).symm
  have hlow : t.low = s.low := hlow .low (by decide)
  obtain ⟨u, hu', hlow', -, hacc', -⟩ := exists_writes .low [.again] (b :: bs) l htcp'
    (hlow.trans hl)
  refine ⟨writes s.high ++ (writes l ++ [.again]), u,
    ⟨hu, t, writes l ++ [.again], [], ?_, hhigh, ?_, ?_, ?_⟩, hlow', hacc'.trans hacc⟩
  · rw [sendList, if_pos htcp, ht]
    cases hw : writes l ++ [.again] with
    | nil => simp at hw
    | cons w ws => rw [sendListTcp, hhigh]
  · rw [hlow, hl]
    exact append_ne_nil_of_right_ne_nil l (cons_ne_nil b bs)
  · rw [sendList, if_pos htcp', hu', sendListTcp, hlow']
  · change u.low = b :: bs at hlow'
    simp [hlow', listUncomplete, hb]

/-- Whether the head of the low list is told right is a question of whether the data of all objects in
it start at the objects. -/
theorem Lined.asserted_iff (h : Lined soi s) (htcp : s.protocol = .tcp) :
    s.Asserted ↔ ∀ b ∈ s.low, Plain soi b := by
  constructor
  · intro ha b hb
    by_contra hp
    obtain ⟨l, bs, hl⟩ := append_of_mem hb
    have hptr {pk : List (Priority × Bytes)} (hb : Untouched soi pk b) : b.ptr ≠ b.buffer :=
      fun h => hp (hb.ptr.symm.trans h)
    cases l with
    | nil =>
      have hhead : b ∈ s.low.head? := by rw [hl]; rfl
      rcases h.head b hhead with hb | hb
      · have hu := ha.passed
        rw [hl] at hu
        exact hptr hb (by simpa [listUncomplete] using hu)
      · have := hb.part
        rw [ha.whole b hhead] at this
        exact Nat.lt_irrefl _ this
    | cons c l =>
      have hb := h.tail b (by rw [hl]; exact mem_append_right l mem_cons_self)
      obtain ⟨ws, t, hr, hlow, hacc⟩ := exists_raises htcp ha.passed hl (hptr hb)
      obtain ⟨-, b', bs', n, w, hlow', hpos, hlt, hdata, -⟩ := ha.raised ws t hr
      obtain ⟨rfl, -⟩ := List.cons.inj (hlow.symm.trans hlow')
      rw [hacc] at hlt hdata
      have hlen := congrArg List.length (hb.data.symm.trans hdata)
      rw [length_drop] at hlen
      omega
  · intro hp
    obtain ⟨hu, hhead⟩ := h.passed hp
    exact ⟨hu, fun b hb => (hhead b hb).data, fun ws t hr => h.raised hp hr⟩

end Socket

namespace SocketServer

variable {soi : SocketObjectInterface} {ss : SocketServer soi}

theorem lined_of_reachable (h : (machine soi).Reachable ss) (i : ℕ)
    (hb : (ss.slot i).life.begun = true) : Socket.Lined soi (ss.slot i) :=
  slots_of_reachable (fun _ _ hl _ _ _ _ => Socket.Lined.nil hl)
    (fun _ _ _ _ h hm _ => (h.moved hm).note) h i hb

/-- What `send_buffer` is entered with: the socket of a slot, also where a request to close it comes. -/
def Enters (s t : Socket) : Prop := t = s ∨ ∃ shutdown owner, t = s.askClose shutdown owner

/-- In every run the assertions of `send_buffer` hold on a TCP socket, and it raises only what is partly
sent, exactly where its low list has no user object whose data start elsewhere than the object. -/
theorem asserted_iff_of_reachable (h : (machine soi).Reachable ss) (i : ℕ)
    (hb : (ss.slot i).life.begun = true) (htcp : (ss.slot i).protocol = .tcp) {t : Socket}
    (ht : Enters (ss.slot i) t) : t.Asserted ↔ ∀ b ∈ t.low, Plain soi b := by
  have hl := lined_of_reachable h i hb
  rcases ht with rfl | ⟨shutdown, owner, rfl⟩
  · exact hl.asserted_iff htcp
  · exact (hl.congr (t := (ss.slot i).askClose shutdown owner) rfl rfl).asserted_iff htcp

/-- A user object in the high list, and a buffer in the low one. -/
theorem asserted_of_buffer : ∃ ss : SocketServer ⟨fun object => object + 1000, fun _ => 2⟩,
    (ss.slot 1).low.length = 1 ∧ (ss.slot 1).high.length = 2 ∧ (ss.slot 1).Asserted := by
  have hl : ((machine ⟨fun object => object + 1000, fun _ => 2⟩).run (fun _ _ => True) create [
      .connect 7, .poll { opened := .connected 5 .null },
      .sendLowpriority ⟨1, 3, 100, [1, 2, 3], rfl⟩, .send ⟨1, -1, 200, [4, 5], rfl⟩,
      .sendLowpriority ⟨1, 1, 300, [6], rfl⟩, .poll { writes := [.wrote 1] }, .poll {}, .poll {}]).map
        (fun ss => (((ss.slot 1).low, (ss.slot 1).high.length), (ss.slot 1).life.begun,
          (ss.slot 1).protocol)) =
      some (([⟨300, 300, [6], false, 2⟩], 2), true, .tcp) := by
    decide
  obtain ⟨ss, hr, he⟩ := Machine.exists_reach hl
  simp only [Prod.mk.injEq] at he
  obtain ⟨⟨hlow, hhigh⟩, hb, htcp⟩ := he
  refine ⟨ss, by rw [hlow]; rfl, hhigh, (asserted_iff_of_reachable hr 1 hb htcp
    (.inl rfl)).2 fun b hb => ?_⟩
  rw [hlow] at hb
  obtain rfl := List.mem_singleton.1 hb
  rfl

/-- A user object in the low list: nothing of it is sent, and the assertion at the next entry of
`send_buffer` fails. -/
theorem not_asserted_user_object : ∃ ss : SocketServer ⟨fun object => object + 1000, fun _ => 2⟩,
    (machine _).Reachable ss ∧ (ss.slot 1).protocol = .tcp ∧
      (ss.slot 1).low.map WriteBuffer.data = [[4, 5]] ∧ ¬ (ss.slot 1).Asserted ∧
      ∀ ws, (ss.slot 1).sendBuffer ws = none := by
  have hl : ((machine ⟨fun object => object + 1000, fun _ => 2⟩).run (fun _ _ => True) create [
      .connect 7, .poll { opened := .connected 5 .null },
      .send ⟨1, 3, 100, [1, 2, 3], rfl⟩, .sendLowpriority ⟨1, -1, 200, [4, 5], rfl⟩,
      .poll { writes := [.wrote 1] }, .poll {}]).map
        (fun ss => ((ss.slot 1).low, (ss.slot 1).protocol)) =
      some ([⟨200, 1200, [4, 5], true, 1⟩], .tcp) := by
    decide
  obtain ⟨ss, hr, he⟩ := Machine.exists_reach hl
  obtain ⟨hlow, htcp⟩ := Prod.mk.inj he
  have hu : Socket.listUncomplete (ss.slot 1).low = true := by
    rw [hlow]
    rfl
  refine ⟨ss, hr, htcp, by rw [hlow]; rfl, fun ha => ?_, fun ws => ?_⟩
  · have := ha.passed
    rw [hu] at this
    cases this
  · rw [Socket.sendBuffer, if_pos hu]

end SocketServer

end SkynetGame
