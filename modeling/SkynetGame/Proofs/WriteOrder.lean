import SkynetGame.Lib.Packages
import SkynetGame.Proofs.SocketServer

/-!
# The order of writes to a socket

The packages that a socket took are cut over what was written to its fd and what is in its lists,
the high one before the low one (`Filed`). The only package a part of which may have gone out is
the head of the high list: `send_buffer` tells a started head of the low list by its pointer and
moves it there. For a user object this takes that the object does not lie inside its own data
(`Apart`).
-/

namespace SkynetGame

open List

open Packages

/-- No object lies inside the data that it gives out. -/
def SocketObjectInterface.Apart (soi : SocketObjectInterface) : Prop :=
  ∀ object n, 0 < n → n < soi.size object → soi.buffer object + n ≠ object

theorem sendObjectInit_buffer (soi : SocketObjectInterface) (object : ℕ) (sz : ℤ) :
    (if (sendObjectInit soi object sz).userobject then soi.buffer object else object) =
      (sendObjectInit soi object sz).buffer := by
  by_cases hz : sz < 0 <;> simp [sendObjectInit, hz]

theorem sendObjectInit_sz {soi : SocketObjectInterface} {object : ℕ} {sz : ℤ}
    (hu : (sendObjectInit soi object sz).userobject = true) :
    (sendObjectInit soi object sz).sz = soi.size object := by
  by_cases hz : sz < 0
  · simp [sendObjectInit, hz]
  · simp [sendObjectInit, hz] at hu

namespace WriteBuffer

/-- What a buffer adds to the queue of packages. -/
def entry (b : WriteBuffer) : ℕ × Bytes := (b.pkg, b.data)

variable (soi : SocketObjectInterface)

/-- Where the bytes of the package start. -/
def start (b : WriteBuffer) : ℕ := if b.userobject then soi.buffer b.buffer else b.buffer

/-- The pointer of a buffer is as far into its package as the bytes it still has to send say. -/
structure Placed (pk : List (Priority × Bytes)) (b : WriteBuffer) : Prop where
  ptr : b.ptr + b.data.length = b.start soi + (body pk b.pkg).length
  size : b.userobject = true → (body pk b.pkg).length = soi.size b.buffer

end WriteBuffer

open WriteBuffer

namespace Socket

/-- The buffers in the order in which they go out if nothing more comes. -/
def queue (s : Socket) : List WriteBuffer := s.high ++ s.low

variable (soi : SocketObjectInterface)

/-- The packages of a socket are cut over what was written and its lists. -/
structure Filed (s : Socket) (done : List ℕ) (part : Bytes) : Prop where
  cut : Cut s.life.accepted done part (s.queue.map entry) s.life.written
  low : ∀ b ∈ s.low, OfClass s.life.accepted .low b.pkg
  placed : ∀ b ∈ s.queue, Placed soi s.life.accepted b

/-- In front of the low list nothing of a package is out. -/
def Raised (s : Socket) (part : Bytes) : Prop := s.high = [] → part = []

/-- What holds of a socket in every state: while it is in use its packages are cut over what was
written and its lists; after that they are still cut over what was written and some queue. -/
structure Ordered (s : Socket) : Prop where
  cut : ∃ done part queue, Cut s.life.accepted done part queue s.life.written
  filed : s.type ≠ .invalid → ∃ done part, Filed soi s done part ∧ s.Raised part

variable {soi : SocketObjectInterface} {s s' : Socket} {p : Priority} {done : List ℕ}
  {part : Bytes} {b : WriteBuffer} {bs : List WriteBuffer} {m : Option SocketMessage}
  {ws ws' : List WriteResult}

theorem queue_of_list (hl : s.list p = b :: bs) (hp : p = .low → s.high = []) :
    ∃ rest, s.queue = b :: rest ∧ (∀ b', (s.setList p (b' :: bs)).queue = b' :: rest) ∧
      (s.setList p bs).queue = rest := by
  cases p with
  | high =>
    simp only [list] at hl
    exact ⟨bs ++ s.low, by simp [queue, hl], fun _ => rfl, rfl⟩
  | low =>
    simp only [list] at hl
    have hh := hp rfl
    exact ⟨bs, by simp [queue, hl, hh], fun _ => by simp [queue, setList, hh],
      by simp [queue, setList, hh]⟩

theorem mem_low_setList {l : List WriteBuffer} (hl : ∀ b ∈ l, ∃ c ∈ s.list p, b.pkg = c.pkg)
    (hb : b ∈ (s.setList p l).low) : ∃ c ∈ s.low, b.pkg = c.pkg := by
  cases p with
  | high => exact ⟨b, hb, rfl⟩
  | low => exact hl b hb

theorem Filed.pop (h : Filed soi s done part) (hl : s.list p = b :: bs)
    (hp : p = .low → s.high = []) : Filed soi (s.pop p b bs) (done ++ [b.pkg]) [] := by
  obtain ⟨rest, hq, -, hq'⟩ := queue_of_list hl hp
  have hcut := h.cut
  rw [hq] at hcut
  refine ⟨?_, fun c hc => ?_, fun c hc => ?_⟩
  · have : (s.pop p b bs).queue = rest := hq'
    rw [this]
    exact hcut.pop
  · obtain ⟨c', hc', he⟩ := mem_low_setList (p := p) (l := bs)
      (fun d hd => ⟨d, by rw [hl]; exact mem_cons_of_mem _ hd, rfl⟩) hc
    rw [he]
    exact h.low c' hc'
  · have : c ∈ rest := hq' ▸ hc
    exact h.placed c (by rw [hq]; exact mem_cons_of_mem _ this)

theorem Filed.advance (h : Filed soi s done part) (hl : s.list p = b :: bs)
    (hp : p = .low → s.high = []) {n : ℕ} (hn : n < b.data.length) :
    Filed soi (s.advance p n b bs) done (part ++ b.data.take n) := by
  obtain ⟨rest, hq, hq', -⟩ := queue_of_list hl hp
  have hcut := h.cut
  rw [hq] at hcut
  refine ⟨?_, fun c hc => ?_, fun c hc => ?_⟩
  · have : (s.advance p n b bs).queue = { b with ptr := b.ptr + n, data := b.data.drop n } :: rest :=
      hq' _
    rw [this]
    exact hcut.advance hn
  · obtain ⟨c', hc', he⟩ := mem_low_setList (p := p)
      (l := { b with ptr := b.ptr + n, data := b.data.drop n } :: bs) (fun d hd => by
        rw [hl]
        rcases mem_cons.1 hd with rfl | hd
        · exact ⟨b, mem_cons_self, rfl⟩
        · exact ⟨d, mem_cons_of_mem _ hd, rfl⟩) hc
    rw [he]
    exact h.low c' hc'
  · have hc : c ∈ { b with ptr := b.ptr + n, data := b.data.drop n } :: rest := (hq' _) ▸ hc
    rcases mem_cons.1 hc with rfl | hc
    · have hb := h.placed b (by rw [hq]; exact mem_cons_self)
      refine ⟨?_, hb.size⟩
      change b.ptr + n + (b.data.drop n).length = b.start soi + (body s.life.accepted b.pkg).length
      rw [← hb.ptr, length_drop]
      omega
    · exact h.placed c (by rw [hq]; exact mem_cons_of_mem _ hc)

theorem Filed.uncomplete (h : Filed soi s done part) (ha : soi.Apart) (hh : s.high = [])
    (hl : s.low = b :: bs) (hpart : part ≠ []) : listUncomplete s.low = true := by
  have hq : s.queue = b :: bs := by simp [queue, hh, hl]
  have hb := h.placed b (by simp [hq])
  have hcut := h.cut.pending
  rw [hq] at hcut
  obtain ⟨hbody, hend, -⟩ := hcut
  have hlen : part.length + b.data.length = (body s.life.accepted b.pkg).length := by
    rw [← length_append]
    exact congrArg List.length hbody
  have hpos : 0 < part.length := length_pos_iff.2 hpart
  have hrest : 0 < b.data.length := length_pos_iff.2 fun hd => hpart (hend hd)
  have hptr : b.ptr = b.start soi + part.length := by
    have := hb.ptr
    omega
  simp only [hl, listUncomplete, bne_iff_ne, ne_eq, hptr, start]
  split_ifs with hu
  · exact ha _ _ hpos (by rw [← hb.size hu]; omega)
  · omega

theorem Filed.raiseUncomplete (h : Filed soi s done part) (hr : s.raiseUncomplete = some s') :
    Filed soi s' done part ∧ s'.Raised part ∧ s'.type = s.type := by
  unfold Socket.raiseUncomplete at hr
  rcases hl : s.low with _ | ⟨b, bs⟩
  · rw [hl] at hr
    cases hr
  simp only [hl] at hr
  split_ifs at hr with hh
  cases hr
  have hq : queue { s with high := [b], low := bs } = s.queue := by simp [queue, hh, hl]
  refine ⟨⟨?_, fun c hc => h.low c ?_, fun c hc => h.placed c ?_⟩, fun h0 => absurd h0 (cons_ne_nil _ _), rfl⟩
  · rw [hq]
    exact h.cut
  · rw [hl]
    exact mem_cons_of_mem _ hc
  · rw [← hq]
    exact hc

theorem Filed.ordered (h : Filed soi s done part) (hr : s.Raised part) : Ordered soi s :=
  ⟨⟨_, _, _, h.cut⟩, fun _ => ⟨_, _, h, hr⟩⟩

theorem Filed.congr (h : Filed soi s done part) (hh : s'.high = s.high) (hl : s'.low = s.low)
    (hacc : s'.life.accepted = s.life.accepted) (hw : s'.life.written = s.life.written) :
    Filed soi s' done part := by
  have hq : s'.queue = s.queue := by rw [queue, queue, hh, hl]
  refine ⟨?_, ?_, ?_⟩
  · rw [hq, hacc, hw]
    exact h.cut
  · rw [hl, hacc]
    exact h.low
  · rw [hq, hacc]
    exact h.placed

theorem Ordered.congr (h : Ordered soi s) (hh : s'.high = s.high) (hl : s'.low = s.low)
    (ht : s'.type ≠ .invalid → s.type ≠ .invalid)
    (hacc : s'.life.accepted = s.life.accepted) (hw : s'.life.written = s.life.written) :
    Ordered soi s' := by
  refine ⟨by rw [hacc, hw]; exact h.cut, fun h' => ?_⟩
  obtain ⟨done, part, hf, hr⟩ := h.filed (ht h')
  exact ⟨done, part, hf.congr hh hl hacc hw, fun h0 => hr (hh ▸ h0)⟩

theorem Ordered.forceClose {q : List (ℕ × Bytes)} (h : Cut s.life.accepted done part q s.life.written)
    (hc : s.forceClose = some s') : Ordered soi s' := by
  have hlife := forceClose_life hc
  exact ⟨⟨done, part, q, by rw [hlife]; exact h⟩, fun h' => absurd (forceClose_type hc) h'⟩

/-- What sends do to a socket in use: it stays in use and its packages are cut over what was written
and its lists, or it is closed because a write failed or because there is nothing left to send. -/
inductive Sent (soi : SocketObjectInterface) (s : Socket) : Socket → Option SocketMessage → Prop
  | kept {s' : Socket} {done : List ℕ} {part : Bytes} (hk : Kept s s') (hf : Filed soi s' done part)
      (hr : s'.Raised part) : Sent soi s s' none
  | finished {t s' : Socket} {done : List ℕ} {part : Bytes} {q : List (ℕ × Bytes)} (hk : Kept s t)
      (hcut : Cut t.life.accepted done part q t.life.written)
      (hwhy : t.life.failed = true ∨ q = []) (hc : t.forceClose = some s') :
      Sent soi s s' (some (s.result .socketClose .null))

theorem Sent.ordered (h : Sent soi s s' m) : Ordered soi s' := by
  cases h with
  | kept _ hf hr => exact hf.ordered hr
  | finished _ hcut _ hc => exact Ordered.forceClose hcut hc

theorem Sent.of_kept {t : Socket} (hk : Kept s t) (h : Sent soi t s' m) : Sent soi s s' m := by
  cases h with
  | kept hk' hf hr => exact .kept (hk.trans hk') hf hr
  | finished hk' hcut hwhy hc =>
    have : t.result .socketClose .null = s.result .socketClose .null := by
      rw [result, result, hk.id, hk.owner]
    rw [this]
    exact .finished (hk.trans hk') hcut hwhy hc

/-- A list of the socket is sent. Where the socket stays in use, only a head of the low list can
have been started, and `listUncomplete` tells it. -/
theorem Filed.sendList (ha : soi.Apart) (h : Filed soi s done part) (hr : s.Raised part)
    (hp : p = .low → s.high = []) (hs : s.sendList p ws = some (s', m, ws')) :
    Sent soi s s' m ∨ p = .low ∧ m = none ∧ Kept s s' ∧ (∃ done part, Filed soi s' done part) ∧
      listUncomplete s'.low = true := by
  obtain ⟨t, ⟨hk, hlow, done, part, hf, hr⟩, hstop⟩ := sendList_cases
    (J := fun t => Kept s t ∧ (p = .low → t.high = []) ∧
      ∃ done part, Filed soi t done part ∧ t.Raised part)
    (fun t b bs ⟨hk, hlow, done, part, hf, _⟩ hl => by
      refine ⟨hk.trans kept_pop, fun hp => ?_, _, _, hf.pop hl hlow, fun _ => rfl⟩
      subst hp
      exact hlow rfl) hs ⟨.refl s, hp, done, part, h, hr⟩
  cases hstop with
  | whole => exact .inl (.kept hk hf hr)
  | passed => exact .inl (.kept (hk.trans kept_writeFailed) (hf.congr rfl rfl rfl rfl) hr)
  | error hc =>
    refine .inl (.of_kept hk ?_)
    exact .finished (t := t.writeFailed) kept_writeFailed hf.cut (.inl rfl) hc
  | @inside n b bs hl hn =>
    have hf' := hf.advance hl hlow hn
    cases p with
    | high => exact .inl (.kept (hk.trans kept_advance) hf' fun h0 => absurd h0 (cons_ne_nil _ _))
    | low =>
      by_cases hpart : part ++ b.data.take n = []
      · exact .inl (.kept (hk.trans kept_advance) hf' fun _ => hpart)
      · exact .inr ⟨rfl, rfl, hk.trans kept_advance, ⟨_, _, hf'⟩,
          hf'.uncomplete ha (hlow rfl) rfl hpart⟩

theorem Filed.checkClose (h : Filed soi s done part) (hr : s.Raised part) (hq : s.queue = [])
    (hs : s.checkClose = some (s', m)) : Sent soi s s' m := by
  unfold Socket.checkClose at hs
  split_ifs at hs
  · obtain ⟨t, hc, hs⟩ := Option.map_eq_some_iff.1 hs
    cases hs
    exact .finished (t := { s with writing := false }) ⟨rfl, rfl, rfl, rfl⟩ h.cut
      (.inr (by rw [hq]; rfl)) hc
  · cases hs
    exact .kept ⟨rfl, rfl, rfl, rfl⟩ (h.congr rfl rfl rfl rfl) hr

theorem Filed.sendLow (ha : soi.Apart) (h : Filed soi s done part) (hr : s.Raised part)
    (hh : s.high = []) (hs : s.sendLow ws = some (s', m)) : Sent soi s s' m := by
  unfold Socket.sendLow at hs
  split_ifs at hs with hl
  · exact h.checkClose hr (by rw [queue, hh, hl, append_nil]) hs
  split at hs
  · cases hs
  · rename_i s₁ m₁ ws₁ h₁
    cases hs
    obtain hsent | ⟨-, hm, -⟩ := h.sendList ha hr (fun _ => hh) h₁
    · exact hsent
    · cases hm
  rename_i s₁ ws₁ h₁
  obtain hsent | ⟨-, -, hk, ⟨done₁, part₁, hf⟩, hu⟩ := h.sendList ha hr (fun _ => hh) h₁
  · obtain ⟨hk, hf, hr⟩ := hsent
    split_ifs at hs
    · obtain ⟨t, ht, hs⟩ := Option.map_eq_some_iff.1 hs
      cases hs
      obtain ⟨hf, hr, -⟩ := hf.raiseUncomplete ht
      exact .kept (hk.trans (kept_raiseUncomplete ht)) hf hr
    · cases hs
      exact .kept hk hf hr
  · rw [if_pos hu] at hs
    obtain ⟨t, ht, hs⟩ := Option.map_eq_some_iff.1 hs
    cases hs
    obtain ⟨hf, hr, -⟩ := hf.raiseUncomplete ht
    exact .kept (hk.trans (kept_raiseUncomplete ht)) hf hr

theorem Filed.sendBuffer (ha : soi.Apart) (h : Filed soi s done part) (hr : s.Raised part)
    (hs : s.sendBuffer ws = some (s', m)) : Sent soi s s' m := by
  have hhigh {m₁ : Option SocketMessage} {s₁ : Socket} {ws₁ : List WriteResult}
      (h₁ : s.sendList .high ws = some (s₁, m₁, ws₁)) : Sent soi s s₁ m₁ :=
    (h.sendList ha hr (fun h => Priority.noConfusion h) h₁).resolve_right fun h =>
      Priority.noConfusion h.1
  unfold Socket.sendBuffer at hs
  split_ifs at hs
  split at hs
  · cases hs
  · rename_i s₁ m₁ ws₁ h₁
    cases hs
    exact hhigh h₁
  rename_i s₁ ws₁ h₁
  obtain ⟨hk, hf, hr₁⟩ := hhigh h₁
  split_ifs at hs with hh
  · exact .of_kept hk (hf.sendLow ha hr₁ hh hs)
  · cases hs
    exact .kept hk hf hr₁

variable {r : SendRequest soi}

theorem Filed.append (h : Filed soi s done part) (hr : s.Raised part) (l : Priority)
    (hl : l = .low → p = .low) (hbehind : l = .high → ∀ b ∈ s.low, ¬OfClass s.life.accepted p b.pkg) :
    Filed soi ((s.appendSendbuffer l r 0).accept p r) done part ∧
      ((s.appendSendbuffer l r 0).accept p r).Raised part := by
  have hold {b : WriteBuffer} (hb : b ∈ s.queue) :
      body (s.life.accepted ++ [(p, r.bytes)]) b.pkg = body s.life.accepted b.pkg :=
    body_append_of_lt (h.cut.lt_length (mem_append_right _
      (mem_map_of_mem (mem_map_of_mem hb))))
  have hclass {b : WriteBuffer} (hb : b ∈ s.low) :
      OfClass (s.life.accepted ++ [(p, r.bytes)]) .low b.pkg :=
    (ofClass_append_of_lt (h.cut.lt_length (mem_append_right _
      (mem_map_of_mem (mem_map_of_mem (mem_append_right _ hb)))))).2 (h.low b hb)
  have hplaced {b : WriteBuffer} (hb : b ∈ s.queue) :
      Placed soi (s.life.accepted ++ [(p, r.bytes)]) b := by
    have := h.placed b hb
    exact ⟨by rw [hold hb]; exact this.ptr, fun hu => by rw [hold hb]; exact this.size hu⟩
  have hnew : Placed soi (s.life.accepted ++ [(p, r.bytes)]) {
      buffer := r.buffer
      ptr := (sendObjectInit soi r.buffer r.sz).buffer + 0
      data := r.bytes.drop 0
      userobject := (sendObjectInit soi r.buffer r.sz).userobject
      pkg := s.life.accepted.length } := by
    refine ⟨?_, fun hu => ?_⟩
    · rw [body_append_self]
      exact congrArg (· + r.bytes.length) (sendObjectInit_buffer soi r.buffer r.sz).symm
    · rw [body_append_self, r.full]
      exact sendObjectInit_sz hu
  have hcut := h.cut
  cases l with
  | high =>
    rw [queue, map_append] at hcut
    refine ⟨⟨?_, fun b hb => hclass hb, fun b hb => ?_⟩, fun h0 => ?_⟩
    · have := hcut.insert p r.bytes (fun q hq => by
        obtain ⟨b, hb, rfl⟩ := mem_map.1 hq
        exact hbehind rfl b hb) (fun h0 => hr (map_eq_nil_iff.1 h0))
      simpa [queue, appendSendbuffer, accept, setList, list, entry] using this
    · simp only [queue, appendSendbuffer, accept, setList, list, append_assoc,
        mem_append, mem_singleton] at hb
      rcases hb with hb | rfl | hb
      · exact hplaced (mem_append_left _ hb)
      · exact hnew
      · exact hplaced (mem_append_right _ hb)
    · exact absurd h0 (append_ne_nil_of_right_ne_nil _ (cons_ne_nil _ _))
  | low =>
    obtain rfl := hl rfl
    refine ⟨⟨?_, fun b hb => ?_, fun b hb => ?_⟩, hr⟩
    · have := (append_nil (s.queue.map entry) ▸ hcut).insert .low r.bytes
        (fun q hq => by cases hq) (fun h0 => hr (append_eq_nil_iff.1 (map_eq_nil_iff.1 h0)).1)
      simpa [queue, appendSendbuffer, accept, setList, list, entry] using this
    · simp only [appendSendbuffer, accept, setList, list, mem_append,
        mem_singleton] at hb
      rcases hb with hb | rfl
      · exact hclass hb
      · exact ofClass_append_self.2 rfl
    · simp only [queue, appendSendbuffer, accept, setList, list, mem_append,
        mem_singleton] at hb
      rcases hb with hb | hb | rfl
      · exact hplaced (mem_append_left _ hb)
      · exact hplaced (mem_append_right _ hb)
      · exact hnew

/-- The first bytes of a package are written although it was in no list; what is left of it goes to
the high one. -/
theorem Filed.sendDirect (h : Filed soi s done part) (hr : s.Raised part)
    (he : s.sendBufferEmpty = true) {n : ℕ} (hn : n ≤ r.bytes.length) :
    ∃ done part, Filed soi (s.sendDirect p r n) done part ∧ (s.sendDirect p r n).Raised part := by
  obtain ⟨hh, hl⟩ := sendBufferEmpty_iff.1 he
  obtain ⟨hf, -⟩ := h.append (p := p) (r := r) hr .high (fun h => Priority.noConfusion h)
    fun _ b hb => by
      rw [hl] at hb
      cases hb
  have hlist : ((s.appendSendbuffer .high r 0).accept p r).list .high = [{
      buffer := r.buffer
      ptr := (sendObjectInit soi r.buffer r.sz).buffer
      data := r.bytes
      userobject := (sendObjectInit soi r.buffer r.sz).userobject
      pkg := s.life.accepted.length }] := by
    simp [appendSendbuffer, accept, setList, list, hh]
  have hp : Priority.high = .low → ((s.appendSendbuffer .high r 0).accept p r).high = [] :=
    fun h => Priority.noConfusion h
  unfold Socket.sendDirect
  split_ifs with hsz
  · refine ⟨_, _, (hf.pop hlist hp).congr hh rfl rfl ?_, fun _ => rfl⟩
    simp [wroteDirect, accept, Socket.pop, setList, appendSendbuffer, hsz, ← r.full]
  · have hlt : n < r.bytes.length := by
      rw [← r.full] at hsz
      omega
    refine ⟨_, _, (hf.advance hlist hp hlt).congr ?_ rfl rfl rfl, fun h0 => ?_⟩
    · simp [wroteDirect, accept, Socket.advance, setList, appendSendbuffer, list, hh]
    · exact absurd h0 (append_ne_nil_of_right_ne_nil _ (cons_ne_nil _ _))

theorem Ordered.posted (h : Ordered soi s) (hs : Posted s p r s' m) : Ordered soi s' := by
  have hqueued (hi : s.type ≠ .invalid) : Ordered soi ((s.appendSendbuffer p r 0).accept p r) := by
    obtain ⟨done, part, hf, hr⟩ := h.filed hi
    obtain ⟨hf, hr⟩ := hf.append (p := p) (r := r) hr p (fun h => h) fun hp b hb hc => by
      subst hp
      exact Priority.noConfusion (hc.unique (hf.low b hb))
    exact hf.ordered hr
  cases hs with
  | refused => exact h
  | queued hi => exact hqueued hi
  | delayed ht =>
    exact (hqueued (by rw [ht]; decide)).congr rfl rfl (fun _ => by
      cases p <;> simp [accept, appendSendbuffer, setList, ht]) rfl rfl
  | error ht hc =>
    obtain ⟨done, part, hf, -⟩ := h.filed (by rw [ht]; decide)
    exact Ordered.forceClose (s := s.writeFailed) hf.cut hc
  | direct ht he hn =>
    obtain ⟨done, part, hf, hr⟩ := h.filed (by rw [ht]; decide)
    obtain ⟨_, _, hf, hr⟩ := hf.sendDirect (p := p) hr he hn
    exact hf.ordered hr
  | datagram ht he =>
    obtain ⟨done, part, hf, hr⟩ := h.filed (by rw [ht]; decide)
    obtain ⟨_, _, hf, hr⟩ := hf.sendDirect (p := p) hr he le_rfl
    rw [Socket.sendDirect, if_pos r.full] at hf hr
    exact hf.ordered hr

/-- What a request to close does: it finds its socket gone, or the sends that it starts with end the
socket, or it ends it itself, or it leaves it half closed. -/
inductive Asked (soi : SocketObjectInterface) (s : Socket) (id : ℤ) (shutdown : Bool) (owner : ℕ) :
    Socket → Option SocketMessage → Prop
  | gone (hg : s.type = .invalid ∨ s.id ≠ id) :
      Asked soi s id shutdown owner s (some ⟨.socketClose, id, owner, 0, .null⟩)
  | sent {s' : Socket} {m : SocketMessage} (hi : s.type ≠ .invalid)
      (hs : Sent soi (s.askClose shutdown owner) s' (some m)) :
      Asked soi s id shutdown owner s' (some m)
  | finished {t s' : Socket} {done : List ℕ} {part : Bytes} (hi : s.type ≠ .invalid) (hid : s.id = id)
      (hk : Kept (s.askClose shutdown owner) t) (hf : Filed soi t done part)
      (hwhy : shutdown = true ∨ t.queue = []) (hc : t.forceClose = some s') :
      Asked soi s id shutdown owner s' (some ⟨.socketClose, id, owner, 0, .null⟩)
  | half {t : Socket} {done : List ℕ} {part : Bytes} (hi : s.type ≠ .invalid)
      (hk : Kept (s.askClose shutdown owner) t) (hf : Filed soi t done part) (hr : t.Raised part)
      (hsd : shutdown = false) : Asked soi s id shutdown owner { t with type := .halfclose } none

variable {id : ℤ} {shutdown : Bool} {owner : ℕ}

theorem Filed.closeRest {t : Socket} (h : Filed soi t done part) (hr : t.Raised part)
    (hi : s.type ≠ .invalid) (hid : s.id = id) (hk : Kept (s.askClose shutdown owner) t)
    (hs : t.closeRest id shutdown owner = some (s', m)) : Asked soi s id shutdown owner s' m := by
  unfold Socket.closeRest at hs
  split_ifs at hs with hwhy
  · obtain ⟨u, hc, hs⟩ := Option.map_eq_some_iff.1 hs
    cases hs
    refine .finished hi hid hk h (hwhy.imp_right fun he => ?_) hc
    obtain ⟨hh, hl⟩ := sendBufferEmpty_iff.1 he
    rw [queue, hh, hl, append_nil]
  · cases hs
    exact .half hi hk h hr (by simpa using fun hsd => hwhy (.inl hsd))

theorem Ordered.closeSocket (ha : soi.Apart) (h : Ordered soi s)
    (hs : s.closeSocket id shutdown owner ws = some (s', m)) :
    Asked soi s id shutdown owner s' m := by
  unfold Socket.closeSocket at hs
  split_ifs at hs with hg
  · cases hs
    exact .gone hg
  obtain ⟨hi, hid⟩ := not_or.1 hg
  have hid : s.id = id := not_not.1 hid
  obtain ⟨done, part, hf, hr⟩ := h.filed hi
  have hf : Filed soi (s.askClose shutdown owner) done part := hf.congr rfl rfl rfl rfl
  simp only at hs
  split_ifs at hs
  · exact hf.closeRest hr hi hid (.refl _) hs
  split at hs
  · cases hs
  · rename_i s₁ m₁ h₁
    cases hs
    exact .sent hi (hf.sendBuffer ha hr h₁)
  · rename_i s₁ h₁
    obtain ⟨hk, hf, hr⟩ := hf.sendBuffer ha hr h₁
    exact hf.closeRest hr hi hid hk hs

theorem Ordered.asked (h : Ordered soi s) (hs : Asked soi s id shutdown owner s' m) :
    Ordered soi s' := by
  cases hs with
  | gone => exact h
  | sent hi hs => exact hs.ordered
  | finished hi hid hk hf hwhy hc => exact Ordered.forceClose hf.cut hc
  | half hi hk hf hr => exact ⟨⟨_, _, _, hf.cut⟩, fun _ => ⟨_, _, hf.congr rfl rfl rfl rfl, hr⟩⟩

theorem Ordered.moved (ha : soi.Apart) (h : Ordered soi s) (hm : Moved soi s s' m) :
    Ordered soi s' := by
  cases hm with
  | turned ht =>
    cases ht with
    | same => exact h
    | on hi hh hl hlife =>
      exact h.congr hh hl (fun _ => hi) (by rw [hlife]) (by rw [hlife])
    | finished _ _ hc =>
      obtain ⟨done, part, q, hcut⟩ := h.cut
      exact Ordered.forceClose (s := s.readEnded) hcut hc
  | sent hi hs =>
    obtain ⟨done, part, hf, hr⟩ := h.filed hi
    exact (hf.sendBuffer ha hr hs).ordered
  | posted hs => exact h.posted hs
  | closed hs => exact h.asked (h.closeSocket ha hs)

theorem Ordered.note (h : Ordered soi s) {asked : Bool} {before : Socket} :
    Ordered soi (s.note asked before m) := by
  cases m with
  | none => exact h
  | some m =>
    unfold Socket.note
    simp only
    split_ifs
    · exact h.congr rfl rfl (fun h => h) rfl rfl
    · exact h

theorem ordered_fresh (hh : s.high = []) (hl : s.low = []) (hlife : s.life = .new true) :
    Ordered soi s := by
  have hf : Filed soi s [] [] := by
    refine ⟨?_, ?_, ?_⟩
    · rw [queue, hh, hl, hlife]
      exact cut_nil
    · rw [hl]
      exact fun b hb => nomatch hb
    · rw [queue, hh, hl]
      exact fun b hb => nomatch hb
  exact hf.ordered fun _ => rfl

/-- The order of what was written to a socket: the packages `done` whole and in this order, then a
`part` of the next one. Each package is at one place of `done` and of `queue`, where those of one
priority are in the order they were sent in. While the socket is in use the queue is what its lists
hold, and what was written with what they still have to send is all that it took. -/
structure WrittenInOrder (s : Socket) (done queue : List ℕ) (part : Bytes) : Prop where
  written : s.life.written = done.flatMap (body s.life.accepted) ++ part
  unfinished : part = [] ∨ ∃ k rest, queue.head? = some k ∧ rest ≠ [] ∧
    body s.life.accepted k = part ++ rest
  once : (done ++ queue).Perm (List.range s.life.accepted.length)
  order : ∀ p, ((done ++ queue).filter (OfClass s.life.accepted p)).Pairwise (· < ·)
  kept : s.type ≠ .invalid → queue = s.queue.map WriteBuffer.pkg ∧
    s.life.written ++ s.queue.flatMap WriteBuffer.data =
      (done ++ queue).flatMap (body s.life.accepted)

theorem writtenInOrder_of_cut {q : List (ℕ × Bytes)}
    (h : Cut s.life.accepted done part q s.life.written)
    (hq : s.type ≠ .invalid → q = s.queue.map entry) :
    WrittenInOrder s done (q.map Prod.fst) part where
  written := h.out
  unfinished := h.pending.unfinished
  once := h.once
  order := h.order
  kept := fun hi => by
    have hq := hq hi
    refine ⟨by rw [hq, map_map]; rfl, ?_⟩
    rw [h.out, flatMap_append, append_assoc, ← h.pending.flatMap, hq, flatMap_map]
    rfl

theorem Ordered.writtenInOrder (h : Ordered soi s) :
    ∃ done queue part, WrittenInOrder s done queue part := by
  by_cases hi : s.type = .invalid
  · obtain ⟨done, part, q, hcut⟩ := h.cut
    exact ⟨_, _, _, writtenInOrder_of_cut hcut fun h => absurd hi h⟩
  · obtain ⟨done, part, hf, -⟩ := h.filed hi
    exact ⟨_, _, _, writtenInOrder_of_cut hf.cut fun _ => rfl⟩

end Socket

namespace SocketServer

variable {soi : SocketObjectInterface} {ss : SocketServer soi}

theorem ordered_of_reachable (ha : soi.Apart) (h : (machine soi).Reachable ss) (i : ℕ)
    (hb : (ss.slot i).life.begun = true) : Socket.Ordered soi (ss.slot i) :=
  slots_of_reachable (fun _ hh hl hlife _ _ _ => Socket.ordered_fresh hh hl hlife)
    (fun _ _ _ _ h hm _ => (h.moved ha hm).note) h i hb

/-- What was written to the fd of any socket of the server is in order, after every sequence of
sends and every outcome of the writes. -/
theorem writtenInOrder_of_reachable (ha : soi.Apart) (h : (machine soi).Reachable ss) (i : ℕ)
    (hb : (ss.slot i).life.begun = true) :
    ∃ done queue part, Socket.WrittenInOrder (ss.slot i) done queue part :=
  (ordered_of_reachable ha h i hb).writtenInOrder

/-- The first package is half written at once and goes to the high list although its priority is
low; the user object comes behind it, and a write stops inside that. -/
theorem writtenInOrder_of_half_written :
    ∃ ss : SocketServer ⟨fun object => object + 1000, fun _ => 2⟩,
      (ss.slot 1).life.written = [1, 2, 3, 4] ∧ (ss.slot 1).type = .connected ∧
        ∃ done queue part, Socket.WrittenInOrder (ss.slot 1) done queue part := by
  have hl : ((machine ⟨fun object => object + 1000, fun _ => 2⟩).run (fun _ _ => True) create [
      .connect 7, .poll { opened := .connected 5 .null },
      .sendLowpriority ⟨1, 3, 100, [1, 2, 3], rfl⟩, .send ⟨1, -1, 200, [4, 5], rfl⟩,
      .sendLowpriority ⟨1, 1, 300, [6], rfl⟩,
      .poll { writes := [.wrote 1] }, .poll {}, .poll {},
      .poll { wait := [⟨some 1, false, true⟩], writes := [.intr, .wrote 2, .wrote 1] }]).map
        (fun ss => ((ss.slot 1).life.written, (ss.slot 1).type, (ss.slot 1).life.begun)) =
      some ([1, 2, 3, 4], .connected, true) := by
    decide
  obtain ⟨ss, hr, he⟩ := Machine.exists_reach hl
  simp only [Prod.mk.injEq] at he
  refine ⟨ss, he.1, he.2.1, writtenInOrder_of_reachable (fun object n hn _ => ?_)
    hr 1 he.2.2⟩
  simp only
  omega

end SocketServer

end SkynetGame
