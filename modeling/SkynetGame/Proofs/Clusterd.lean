import SkynetGame.Clusterd
import SkynetGame.Proofs.LuaCluster

/-!
# Requests put together by session

`large_request` has one table for all connections. As long as no two requests under way have one
session, and no connection ends while parts of another one's request are kept, each entry is what
came in so far of one request (`Tracked`), and every request is dispatched as it was sent.
-/

namespace SkynetGame

open Function List Option

namespace Clusterd

open LuaCluster

def Dispatch.request (d : Dispatch) : ℕ × ℕ × Option Addr × Field := (d.fd, d.session, d.addr, d.msg)

def Req.request (r : Req) : ℕ × ℕ × Option Addr × Field :=
  (r.fd, r.session.toNat, some r.addr, .bytes r.msg)

/-- What is written for the answer of a request. -/
def answerPackets (dispatched : List Dispatch) (k : ℕ) : List (ℕ × Bytes) :=
  match dispatched[k]? with
  | some d => match d.answer with
    | some (ok, msg) => responsePackets d.fd d.session ok msg
    | none => []
  | none => []

/-- Each request is answered at most once, and what is written are the answers, each to the fd and
under the session of its request. -/
structure Answered (s : Server) : Prop where
  nodup : s.answers.Nodup
  mem : ∀ k, k ∈ s.answers ↔ ∃ d, s.dispatched[k]? = some d ∧ d.answer.isSome
  written : s.written = s.answers.flatMap (answerPackets s.dispatched)

/-- The complete requests were dispatched, each once, as they were sent. -/
structure Served (s : State) : Prop where
  once : s.server.dispatched.map Dispatch.request = s.complete.map Req.request
  answered : Answered s.server

/-- No packet comes in while a request of its session, but another one, is under way, and no event
of a connection while a request of another one is; and a message has less than 2 GB. -/
def Apart (s : State) : Label → Prop
  | .send r => r.msg.length < 2 ^ 31
  | .data k => ∀ e ∈ s.sending[k]?.toList, ∀ e' ∈ s.sending.eraseIdx k, 0 < e'.next →
      e'.req.session ≠ e.req.session
  | .event ev fd => ∀ e ∈ s.sending, 0 < e.next → ev ≠ .warning ∧ e.req.fd = fd
  | _ => True

instance (s : State) : ∀ l, Decidable (Apart s l)
  | .send r => inferInstanceAs (Decidable (r.msg.length < 2 ^ 31))
  | .data k => inferInstanceAs (Decidable (∀ e ∈ s.sending[k]?.toList,
      ∀ e' ∈ s.sending.eraseIdx k, 0 < e'.next → e'.req.session ≠ e.req.session))
  | .event ev fd => inferInstanceAs (Decidable (∀ e ∈ s.sending, 0 < e.next →
      ev ≠ .warning ∧ e.req.fd = fd))
  | .returns .. => .isTrue trivial
  | .register .. => .isTrue trivial

section Entry

theorem mapM_getElem {α β : Type} {f : α → Option β} : ∀ {l : List α} {us : List β},
    l.mapM f = some us → us.length = l.length ∧ ∀ i : ℕ, us[i]? = (l[i]?).bind f
  | [], us, h => by
    cases h
    exact ⟨rfl, fun _ => rfl⟩
  | x :: l, us, h => by
    rw [mapM_cons] at h
    obtain ⟨u, hu, h⟩ := bind_eq_some_iff.1 h
    obtain ⟨vs, hvs, h⟩ := bind_eq_some_iff.1 h
    cases h
    obtain ⟨hlen, hget⟩ := mapM_getElem hvs
    refine ⟨congrArg (· + 1) hlen, ?_⟩
    rintro (_ | i)
    · exact hu.symm
    · exact hget i

/-- What a receiver makes of the packets of a request. -/
def Sending.unpacked (e : Sending) : List Request :=
  (e.packets.mapM fun p => (unframe p).bind unpackRequest).getD []

def Sending.key (e : Sending) : ℕ := e.req.session.toNat

/-- What came in of a request so far, as the daemon keeps it. -/
def Sending.kept (e : Sending) : LargeRequest :=
  ⟨some e.req.addr, (e.unpacked.take e.next).map Request.msg⟩

/-- One more packet came in. -/
def Sending.advance (e : Sending) : Sending := { e with next := e.next + 1 }

/-- A request under way carries its message, and its last packet has not come in. -/
structure Sending.Ok (e : Sending) : Prop where
  carried : Carried unpackRequest Request.padding Request.msg e.packets e.unpacked e.req.msg
  addr : e.unpacked.head?.bind Request.addr = some e.req.addr
  session : ∀ u ∈ e.unpacked, u.session = e.key
  pos : 0 < e.req.session
  next : e.next < e.packets.length

theorem ok_of_packed {r : Req} {p : PackedRequest} (hs : r.session < 2 ^ 31)
    (hm : r.msg.length < 2 ^ 31) (h : lpackrequest r.addr r.session r.msg = .ok p) :
    Sending.Ok ⟨r, p.request :: p.multi, 0⟩ := by
  have hpos : 0 < r.session := by
    by_contra hneg
    rw [lpackrequest, if_pos (not_lt.1 hneg)] at h
    cases h
  have hvalid : r.addr.Valid := by
    cases haddr : r.addr with
    | number n => trivial
    | name s =>
      by_contra hname
      have hbad : s.length < 1 ∨ s.length > 255 := by
        rw [Addr.Valid] at hname
        omega
      rw [lpackrequest, if_neg (not_le.2 hpos), haddr, packreq, packreqString, if_pos hbad] at h
      cases h
  obtain ⟨q, us, hq, hcarried, haddr, hsession⟩ := request_carried hvalid hpos hs hm
  rw [h] at hq
  cases hq
  have hus : (Sending.mk r (p.request :: p.multi) 0).unpacked = us := by
    rw [Sending.unpacked, hcarried.unpacked]
    rfl
  refine ⟨hus ▸ hcarried, hus ▸ haddr, ?_, hpos, Nat.succ_pos _⟩
  intro u hu
  rw [hus] at hu
  have hint : (u.session : ℤ) = r.session := hsession u hu
  show u.session = r.session.toNat
  omega

theorem padding_bytes {b : Bytes} {u : Request} (h : lunpackrequest b = .ok u)
    (hp : u.padding = false) : ∃ m, u.msg = .bytes m := by
  unfold lunpackrequest at h
  split at h
  case h_7 => cases h
  all_goals
    first
      | unfold unpackreqNumber at h
      | unfold unpackmreqNumber at h
      | unfold unpackmreqPart at h
      | unfold unpackreqString at h
      | unfold unpackmreqString at h
    split_ifs at h
    all_goals cases h
    first | exact ⟨_, rfl⟩ | cases hp

theorem unpacks_of_bind {b : Option Bytes} {u : Request} (h : b.bind unpackRequest = some u) :
    ∃ body, b = some body ∧ lunpackrequest body = .ok u := by
  obtain ⟨body, hbody, hu⟩ := bind_eq_some_iff.1 h
  refine ⟨body, hbody, ?_⟩
  unfold unpackRequest at hu
  cases hb : lunpackrequest body with
  | error err =>
    rw [hb] at hu
    cases hu
  | ok u' =>
    rw [hb] at hu
    rw [← some.inj hu]

theorem Sending.Ok.next_packet {e : Sending} (h : e.Ok) : ∃ body u,
    (e.packets[e.next]?).bind unframe = some body ∧ lunpackrequest body = .ok u ∧
      e.unpacked[e.next]? = some u ∧ u.session = e.key ∧
      u.padding = decide (e.next + 1 < e.packets.length) ∧
      (e.next = 0 → u.addr = some e.req.addr) := by
  obtain ⟨hlen, hget⟩ := mapM_getElem h.carried.unpacked
  have hlt : e.next < e.unpacked.length := hlen ▸ h.next
  have hu : e.unpacked[e.next]? = some e.unpacked[e.next] := getElem?_eq_getElem hlt
  have hpacket := hget e.next
  rw [hu, getElem?_eq_getElem h.next, bind_some] at hpacket
  obtain ⟨body, hbody, hok⟩ := unpacks_of_bind hpacket.symm
  refine ⟨body, e.unpacked[e.next], ?_, hok, hu, h.session _ (getElem_mem hlt), ?_, ?_⟩
  · rw [getElem?_eq_getElem h.next]
    exact hbody
  · have hpad : (e.unpacked.map Request.padding)[e.next]? =
        (List.replicate (e.unpacked.length - 1) true ++ [false])[e.next]? := by
      rw [h.carried.padded]
    rw [getElem?_map, hu, map_some] at hpad
    rw [← hlen]
    by_cases hlast : e.next + 1 < e.unpacked.length
    · rw [getElem?_append_left (by rw [length_replicate]; omega),
        getElem?_replicate_of_lt (by omega)] at hpad
      rw [some.inj hpad, decide_eq_true hlast]
    · rw [getElem?_append_right (by rw [length_replicate]; omega),
        length_replicate, show e.next - (e.unpacked.length - 1) = 0 by omega] at hpad
      rw [some.inj hpad, decide_eq_false hlast]
  · intro hz
    have haddr := h.addr
    rw [head?_eq_getElem?, ← hz, hu] at haddr
    exact haddr

theorem Sending.Ok.last {e : Sending} (h : e.Ok) {u : Request}
    (hu : e.unpacked[e.next]? = some u) (hpad : u.padding = false)
    (hlast : e.next + 1 = e.packets.length) {body : Bytes} (hbody : lunpackrequest body = .ok u) :
    (e.next = 0 → u.msg = .bytes e.req.msg) ∧
      (0 < e.next → lconcat (e.kept.fields ++ [u.msg]) = some e.req.msg) := by
  obtain ⟨hlen, -⟩ := mapM_getElem h.carried.unpacked
  have hall : (e.unpacked.take e.next).map Request.msg ++ [u.msg] = e.unpacked.map Request.msg := by
    have htake : e.unpacked.take (e.next + 1) = e.unpacked.take e.next ++ [u] := by
      rw [take_add_one, hu, toList_some]
    rw [take_of_length_le (by omega)] at htake
    rw [htake, map_append, map_singleton]
    rw [← htake]
  have hassembled := h.carried.assembled
  obtain ⟨m, hm⟩ := padding_bytes hbody hpad
  rw [← hall, hm] at hassembled
  constructor
  · intro hz
    rw [hz] at hassembled
    rw [hm]
    exact congrArg Field.bytes (some.inj hassembled)
  · intro hpos
    rw [hm, ← hassembled]
    show lconcat ((e.unpacked.take e.next).map Request.msg ++ [.bytes m]) = _
    cases htake : (e.unpacked.take e.next).map Request.msg with
    | nil =>
      have hnil := congrArg List.length htake
      rw [length_map, length_take, length_nil] at hnil
      omega
    | cons f fs => cases f <;> cases fs <;> rfl

theorem Sending.kept_advance {e : Sending} {u : Request} (hu : e.unpacked[e.next]? = some u) :
    e.advance.kept = ⟨some e.req.addr, e.kept.fields ++ [u.msg]⟩ := by
  have htake : e.unpacked.take (e.next + 1) = e.unpacked.take e.next ++ [u] := by
    rw [take_add_one, hu, toList_some]
  show (⟨some e.req.addr, (e.unpacked.take (e.next + 1)).map Request.msg⟩ : LargeRequest) = _
  rw [htake, map_append, map_singleton]
  rfl

end Entry

section Tracked

/-- The entries of the table are what came in so far of the requests under way. -/
structure Tracked (table : ℕ → Option LargeRequest) (l : List Sending) : Prop where
  ok : ∀ e ∈ l, e.Ok
  kept : ∀ e ∈ l, 0 < e.next → table e.key = some e.kept
  only : ∀ n, table n ≠ none → ∃ e ∈ l, 0 < e.next ∧ e.key = n
  apart : l.Pairwise fun e e' => 0 < e.next → 0 < e'.next → e.key ≠ e'.key

variable {table : ℕ → Option LargeRequest} {l l' : List Sending} {e : Sending}

theorem Tracked.perm (h : Tracked table l) (hp : l.Perm l') : Tracked table l' :=
  ⟨fun e he => h.ok e (hp.mem_iff.2 he), fun e he => h.kept e (hp.mem_iff.2 he),
    fun n hn => (h.only n hn).imp fun _ he => ⟨hp.mem_iff.1 he.1, he.2⟩,
    (hp.pairwise_iff fun hr h₂ h₁ heq => hr h₁ h₂ heq.symm).1 h.apart⟩

/-- A packet of `e` comes in and no other request under way has its session: the table has what is
kept of `e`, or nothing. -/
theorem Tracked.lookup (h : Tracked table (e :: l))
    (hclear : ∀ e' ∈ l, 0 < e'.next → e'.key ≠ e.key) :
    table e.key = if 0 < e.next then some e.kept else none := by
  by_cases hpos : 0 < e.next
  · rw [if_pos hpos]
    exact h.kept e mem_cons_self hpos
  · rw [if_neg hpos]
    by_contra hne
    obtain ⟨e', he', hpos', hkey⟩ := h.only e.key hne
    rcases mem_cons.1 he' with rfl | he'
    · exact hpos hpos'
    · exact hclear e' he' hpos' hkey

theorem Tracked.more (h : Tracked table (e :: l))
    (hclear : ∀ e' ∈ l, 0 < e'.next → e'.key ≠ e.key)
    (hnext : e.next + 1 < e.packets.length) :
    Tracked (update table e.key (some e.advance.kept))
      (e.advance :: l) := by
  have hne : ∀ e' ∈ l, 0 < e'.next → e'.key ≠ e.key := hclear
  refine ⟨?_, ?_, ?_, ?_⟩
  · intro e' he'
    rcases mem_cons.1 he' with rfl | he'
    · exact { h.ok e mem_cons_self with next := hnext }
    · exact h.ok e' (mem_cons_of_mem e he')
  · intro e' he' hpos
    rcases mem_cons.1 he' with rfl | he'
    · exact update_self ..
    · rw [update_of_ne (hne e' he' hpos)]
      exact h.kept e' (mem_cons_of_mem e he') hpos
  · intro n hn
    by_cases hkey : n = e.key
    · exact ⟨_, mem_cons_self, Nat.succ_pos _, hkey.symm⟩
    · rw [update_of_ne hkey] at hn
      obtain ⟨e', he', hpos, hk⟩ := h.only n hn
      rcases mem_cons.1 he' with rfl | he'
      · exact absurd hk.symm hkey
      · exact ⟨e', mem_cons_of_mem _ he', hpos, hk⟩
  · obtain ⟨-, htail⟩ := pairwise_cons.1 h.apart
    exact pairwise_cons.2 ⟨fun e' he' _ hpos heq => hne e' he' hpos heq.symm, htail⟩

theorem Tracked.done (h : Tracked table (e :: l))
    (hclear : ∀ e' ∈ l, 0 < e'.next → e'.key ≠ e.key) :
    Tracked (update table e.key none) l := by
  refine ⟨fun e' he' => h.ok e' (mem_cons_of_mem e he'), ?_, ?_,
    (pairwise_cons.1 h.apart).2⟩
  · intro e' he' hpos
    rw [update_of_ne (hclear e' he' hpos)]
    exact h.kept e' (mem_cons_of_mem e he') hpos
  · intro n hn
    by_cases hkey : n = e.key
    · rw [hkey, update_self] at hn
      exact absurd rfl hn
    · rw [update_of_ne hkey] at hn
      obtain ⟨e', he', hpos, hk⟩ := h.only n hn
      rcases mem_cons.1 he' with rfl | he'
      · exact absurd hk.symm hkey
      · exact ⟨e', he', hpos, hk⟩

end Tracked

section Answer

variable {s : Server} {k : ℕ} {d : Dispatch}

theorem answerPackets_set_ne {ds : List Dispatch} {j : ℕ} (h : k ≠ j) :
    answerPackets (ds.set k d) j = answerPackets ds j := by
  rw [answerPackets, answerPackets, getElem?_set_ne h]

theorem answerPackets_append {ds : List Dispatch} {j : ℕ} (h : j < ds.length) :
    answerPackets (ds ++ [d]) j = answerPackets ds j := by
  rw [answerPackets, answerPackets, getElem?_append_left h]

theorem Answered.lt (h : Answered s) {j : ℕ} (hj : j ∈ s.answers) : j < s.dispatched.length := by
  obtain ⟨d, hd, -⟩ := (h.mem j).1 hj
  exact (List.getElem?_eq_some_iff.1 hd).1

theorem Answered.push (h : Answered s) (hd : d.answer = none) :
    Answered { s with dispatched := s.dispatched ++ [d] } := by
  refine ⟨h.nodup, ?_, ?_⟩
  · intro j
    refine (h.mem j).trans ⟨?_, ?_⟩
    · rintro ⟨d', hd', hsome⟩
      exact ⟨d', (getElem?_append_left (List.getElem?_eq_some_iff.1 hd').1).trans hd', hsome⟩
    · rintro ⟨d', hd', hsome⟩
      rcases lt_or_ge j s.dispatched.length with hlt | hge
      · exact ⟨d', (getElem?_append_left hlt).symm.trans hd', hsome⟩
      · have hmem := mem_of_getElem? ((getElem?_append_right hge).symm.trans hd')
        rw [mem_singleton.1 hmem, hd] at hsome
        cases hsome
  · refine h.written.trans (flatMap_congr fun j hj => ?_)
    exact (answerPackets_append (h.lt hj)).symm

theorem Answered.answer (h : Answered s) (hk : s.dispatched[k]? = some d) (hd : d.answer = none)
    (ok : Bool) (msg : Bytes) : Answered (answer k d ok msg s) := by
  have hlt := (List.getElem?_eq_some_iff.1 hk).1
  have hfresh : k ∉ s.answers := by
    intro hmem
    obtain ⟨d', hd', hsome⟩ := (h.mem k).1 hmem
    rw [hk, some.injEq] at hd'
    rw [← hd', hd] at hsome
    cases hsome
  refine ⟨?_, ?_, ?_⟩
  · rw [Clusterd.answer, nodup_append]
    refine ⟨h.nodup, nodup_singleton k, ?_⟩
    intro j hj i hi hji
    rw [mem_singleton.1 hi] at hji
    exact hfresh (hji ▸ hj)
  · intro j
    simp only [Clusterd.answer, mem_append, mem_singleton]
    by_cases hj : k = j
    · subst hj
      rw [getElem?_set_self hlt]
      exact ⟨fun _ => ⟨_, rfl, rfl⟩, fun _ => .inr rfl⟩
    · rw [getElem?_set_ne hj, ← h.mem j]
      exact ⟨fun hor => hor.resolve_right (Ne.symm hj), .inl⟩
  · simp only [Clusterd.answer, flatMap_append, flatMap_singleton]
    have hself : answerPackets (s.dispatched.set k { d with answer := some (ok, msg) }) k =
        responsePackets d.fd d.session ok msg := by
      rw [answerPackets, getElem?_set_self hlt]
    rw [hself, h.written]
    congr 1
    refine flatMap_congr fun j hj => (answerPackets_set_ne ?_).symm
    intro hkj
    exact hfresh (hkj ▸ hj)

theorem answer_requests (hk : s.dispatched[k]? = some d) (ok : Bool) (msg : Bytes) :
    (answer k d ok msg s).dispatched.map Dispatch.request =
      s.dispatched.map Dispatch.request := by
  rw [Clusterd.answer, map_set]
  have hget : (s.dispatched.map Dispatch.request)[k]? = some d.request := by
    rw [getElem?_map, hk]
    rfl
  obtain ⟨hlt, heq⟩ := List.getElem?_eq_some_iff.1 hget
  conv_rhs => rw [← set_getElem_self hlt, heq]
  rfl

theorem dispatch_cases (c : Codec) (fd session : ℕ) (addr : Option Addr) (msg : Field)
    (s : Server) :
    let s' := { s with dispatched := s.dispatched ++ [⟨fd, session, addr, msg, none⟩] }
    dispatch c fd session addr msg s = s' ∨ ∃ ok b, dispatch c fd session addr msg s =
      answer s.dispatched.length ⟨fd, session, addr, msg, none⟩ ok b s' := by
  intro s'
  unfold dispatch
  simp only []
  repeat' split
  all_goals first | exact .inl rfl | exact .inr ⟨_, _, rfl⟩

theorem dispatch_spec (c : Codec) (fd session : ℕ) (addr : Option Addr) (msg : Field)
    (h : Answered s) : Answered (dispatch c fd session addr msg s) ∧
      (dispatch c fd session addr msg s).dispatched.map Dispatch.request =
        s.dispatched.map Dispatch.request ++ [(fd, session, addr, msg)] ∧
      (dispatch c fd session addr msg s).largeRequest = s.largeRequest := by
  have hpush := h.push (d := ⟨fd, session, addr, msg, none⟩) rfl
  have hget : (s.dispatched ++ [(⟨fd, session, addr, msg, none⟩ : Dispatch)])[s.dispatched.length]?
      = some ⟨fd, session, addr, msg, none⟩ := getElem?_concat_length
  have hmap : (s.dispatched ++ [(⟨fd, session, addr, msg, none⟩ : Dispatch)]).map Dispatch.request =
      s.dispatched.map Dispatch.request ++ [(fd, session, addr, msg)] := map_append
  rcases dispatch_cases c fd session addr msg s with heq | ⟨ok, b, heq⟩
  · rw [heq]
    exact ⟨hpush, hmap, rfl⟩
  · rw [heq]
    exact ⟨hpush.answer hget rfl ok b, (answer_requests hget ok b).trans hmap, rfl⟩

end Answer

section Data

/-- The next packet of a request under way, where the table has what is kept of it: it is kept too,
or the request is dispatched. -/
theorem socketData_spec (c : Codec) {e : Sending} {s : Server} (he : e.Ok) (h : Answered s)
    (htable : s.largeRequest e.key = if 0 < e.next then some e.kept else none) :
    ∃ body, (e.packets[e.next]?).bind unframe = some body ∧
      Answered (socketData c e.req.fd body s) ∧
      (e.next + 1 < e.packets.length →
        (socketData c e.req.fd body s).largeRequest = update s.largeRequest e.key
          (some e.advance.kept) ∧
        (socketData c e.req.fd body s).dispatched = s.dispatched) ∧
      (e.next + 1 = e.packets.length →
        (socketData c e.req.fd body s).largeRequest =
          update s.largeRequest e.key none ∧
        (socketData c e.req.fd body s).dispatched.map Dispatch.request =
          s.dispatched.map Dispatch.request ++ [e.req.request]) := by
  obtain ⟨body, u, hbody, hok, hu, hsession, hpad, haddr⟩ := he.next_packet
  refine ⟨body, hbody, ?_⟩
  rcases Nat.lt_or_ge (e.next + 1) e.packets.length with hlt | hge
  · rw [decide_eq_true hlt] at hpad
    have hkept : (⟨((s.largeRequest e.key).getD ⟨u.addr, []⟩).addr,
        ((s.largeRequest e.key).getD ⟨u.addr, []⟩).fields ++ [u.msg]⟩ : LargeRequest) =
        e.advance.kept := by
      rw [Sending.kept_advance hu, htable]
      by_cases hpos : 0 < e.next
      · rw [if_pos hpos]
        rfl
      · have hz : e.next = 0 := by omega
        rw [if_neg hpos, haddr hz, Sending.kept, hz]
        rfl
    have hdata : socketData c e.req.fd body s = { s with
        largeRequest := update s.largeRequest e.key (some e.advance.kept) } := by
      unfold socketData
      simp only [hok, hpad, if_true, hsession]
      rw [hkept]
    rw [hdata]
    exact ⟨⟨h.nodup, h.mem, h.written⟩, fun _ => ⟨rfl, rfl⟩, fun heq => absurd heq hlt.ne⟩
  · have hlast : e.next + 1 = e.packets.length := le_antisymm he.next hge
    rw [decide_eq_false (not_lt.2 hge)] at hpad
    obtain ⟨hsingle, hlarge⟩ := he.last hu hpad hlast hok
    by_cases hpos : 0 < e.next
    · rw [if_pos hpos] at htable
      have hdata : socketData c e.req.fd body s = dispatch c e.req.fd e.key (some e.req.addr)
          (.bytes e.req.msg) { s with
            largeRequest := update s.largeRequest e.key none } := by
        unfold socketData
        simp only [hok, hpad, Bool.false_eq_true, if_false, hsession, htable, hlarge hpos]
        rfl
      obtain ⟨hans, hreq, htab⟩ := dispatch_spec c e.req.fd e.key (some e.req.addr)
        (.bytes e.req.msg) (s := { s with
          largeRequest := update s.largeRequest e.key none }) ⟨h.nodup, h.mem, h.written⟩
      rw [hdata]
      exact ⟨hans, fun hlt => absurd hlast hlt.ne, fun _ => ⟨htab, hreq⟩⟩
    · have hz : e.next = 0 := by omega
      rw [if_neg hpos] at htable
      have hdata : socketData c e.req.fd body s =
          dispatch c e.req.fd e.key (some e.req.addr) (.bytes e.req.msg) s := by
        unfold socketData
        simp only [hok, hpad, Bool.false_eq_true, if_false, hsession, htable, haddr hz, hsingle hz]
      obtain ⟨hans, hreq, htab⟩ := dispatch_spec c e.req.fd e.key (some e.req.addr)
        (.bytes e.req.msg) h
      rw [hdata]
      refine ⟨hans, fun hlt => absurd hlast hlt.ne, fun _ => ⟨?_, hreq⟩⟩
      rw [htab, ← htable, update_eq_self]

end Data

section Run

structure Inv (s : State) : Prop where
  tracked : Tracked s.server.largeRequest s.sending
  served : Served s

theorem Tracked.fresh {table : ℕ → Option LargeRequest} {l : List Sending} {e : Sending}
    (h : Tracked table l) (he : e.Ok) (hz : e.next = 0) : Tracked table (e :: l) := by
  refine ⟨?_, ?_, ?_, ?_⟩
  · intro e' he'
    rcases mem_cons.1 he' with rfl | he'
    · exact he
    · exact h.ok e' he'
  · intro e' he' hpos
    rcases mem_cons.1 he' with rfl | he'
    · omega
    · exact h.kept e' he' hpos
  · intro n hn
    obtain ⟨e', he', hrest⟩ := h.only n hn
    exact ⟨e', mem_cons_of_mem e he', hrest⟩
  · exact pairwise_cons.2 ⟨fun e' _ hpos => by omega, h.apart⟩

theorem Tracked.cleared {table : ℕ → Option LargeRequest} {l : List Sending} (h : Tracked table l)
    (p : Sending → Bool) (hp : ∀ e ∈ l, 0 < e.next → p e = false) :
    Tracked (fun _ => none) (l.filter p) := by
  have hnone : ∀ e ∈ l.filter p, ¬ 0 < e.next := by
    intro e he hpos
    obtain ⟨hmem, hkeep⟩ := mem_filter.1 he
    rw [hp e hmem hpos] at hkeep
    cases hkeep
  exact ⟨fun e he => h.ok e (mem_filter.1 he).1, fun e he hpos => absurd hpos (hnone e he),
    fun _ hn => absurd rfl hn, h.apart.filter p⟩

theorem data_inv {c : Codec} {k : ℕ} {s s' : State} (h : Inv s) (hok : Apart s (.data k))
    (hs : data c k s = some s') : Inv s' := by
  unfold data at hs
  split at hs
  case h_1 => cases hs
  case h_2 e he =>
    obtain ⟨hlt, hget⟩ := List.getElem?_eq_some_iff.1 he
    have hperm : s.sending.Perm (e :: s.sending.eraseIdx k) := by
      rw [← hget]
      exact (getElem_cons_eraseIdx_perm hlt).symm
    have htracked := h.tracked.perm hperm
    have hentry := htracked.ok e mem_cons_self
    have hclear : ∀ e' ∈ s.sending.eraseIdx k, 0 < e'.next → e'.key ≠ e.key := by
      intro e' he' hpos hkey
      have hne := hok e (by rw [he]; exact mem_singleton_self e) e' he' hpos
      have hpos₁ := hentry.pos
      have hpos₂ := (htracked.ok e' (mem_cons_of_mem e he')).pos
      have hkey' : e'.req.session.toNat = e.req.session.toNat := hkey
      omega
    obtain ⟨body, hbody, hans, hmore, hlast⟩ := socketData_spec c hentry h.served.answered
      (htracked.lookup hclear)
    simp only [hbody] at hs
    by_cases hdone : e.next + 1 = e.packets.length
    · obtain ⟨htable, hreq⟩ := hlast hdone
      rw [if_pos hdone, some.injEq] at hs
      rw [← hs]
      refine ⟨htable ▸ htracked.done hclear, ?_, hans⟩
      show _ = (s.complete ++ [e.req]).map Req.request
      rw [map_append, ← h.served.once]
      exact hreq
    · have hnext : e.next + 1 < e.packets.length := lt_of_le_of_ne hentry.next hdone
      obtain ⟨htable, hreq⟩ := hmore hnext
      rw [if_neg hdone, some.injEq] at hs
      rw [← hs]
      refine ⟨?_, ?_, hans⟩
      · exact htable ▸ (htracked.more hclear hnext).perm (set_perm_cons_eraseIdx hlt _).symm
      · show (socketData c e.req.fd body s.server).dispatched.map Dispatch.request = _
        rw [hreq]
        exact h.served.once

theorem callReturns_eq {k : ℕ} {ok : Bool} {msg : Bytes} {s s' : Server}
    (h : callReturns k ok msg s = some s') : ∃ d, s.dispatched[k]? = some d ∧ d.answer = none ∧
      s' = answer k d ok msg s := by
  unfold callReturns at h
  split at h
  case h_1 d hd =>
    split_ifs at h with hc
    rw [not_or] at hc
    exact ⟨d, hd, not_isSome_iff_eq_none.1 hc.1, (some.inj h).symm⟩
  case h_2 => cases h

theorem register_eq (source name : Addr) (addr : Option Addr) (s : Server) :
    ∃ names, register source name addr s = { s with registerName := names } := by
  unfold register
  split_ifs
  · exact ⟨s.registerName, rfl⟩
  · exact ⟨_, rfl⟩

theorem step_inv {c : Codec} {s s' : State} {l : Label} (h : Inv s) (hok : Apart s l)
    (hs : step c s l = some s') : Inv s' := by
  cases l with
  | send r =>
    simp only [step] at hs
    by_cases hr : r.fd ∈ s.closed ∨ 2 ^ 31 ≤ r.session
    · rw [if_pos hr] at hs
      cases hs
    · rw [if_neg hr] at hs
      cases hp : lpackrequest r.addr r.session r.msg with
      | error err =>
        rw [hp] at hs
        cases hs
      | ok p =>
        rw [hp] at hs
        have hfresh := ok_of_packed (by omega) hok hp
        rw [← some.inj hs]
        exact ⟨(h.tracked.fresh hfresh rfl).perm (perm_append_singleton _ _).symm,
          h.served.once, h.served.answered⟩
  | data k => exact data_inv h hok hs
  | event ev fd =>
    rw [← some.inj hs]
    cases ev with
    | warning =>
      have hcleared := h.tracked.cleared (fun _ => true) fun e he hpos =>
        absurd rfl (hok e he hpos).1
      rw [filter_true] at hcleared
      exact ⟨hcleared, h.served.once, h.served.answered.nodup, h.served.answered.mem,
        h.served.answered.written⟩
    | close | error =>
      exact ⟨h.tracked.cleared _ fun e he hpos => by
          simp only [(hok e he hpos).2, ne_eq, not_true_eq_false, decide_false],
        h.served.once, h.served.answered.nodup, h.served.answered.mem,
        h.served.answered.written⟩
  | returns k ok msg =>
    obtain ⟨server, hserver, rfl⟩ := map_eq_some_iff.1 hs
    obtain ⟨d, hd, hnone, rfl⟩ := callReturns_eq hserver
    exact ⟨h.tracked, (answer_requests hd ok msg).trans h.served.once,
      h.served.answered.answer hd hnone ok msg⟩
  | register source name addr =>
    obtain ⟨names, hnames⟩ := register_eq source name addr s.server
    rw [← some.inj hs, hnames]
    exact ⟨h.tracked, h.served.once, h.served.answered.nodup, h.served.answered.mem,
      h.served.answered.written⟩

theorem inv_init : Inv init :=
  ⟨⟨fun _ he => absurd he not_mem_nil, fun _ he => absurd he not_mem_nil,
    fun _ hn => absurd rfl hn, Pairwise.nil⟩, rfl, nodup_nil,
    fun _ => ⟨fun hk => absurd hk not_mem_nil, fun ⟨_, hd, _⟩ => by cases hd⟩, rfl⟩

/-- While the requests under way are kept apart, every complete one is dispatched as it was sent. -/
theorem served_of_reach {c : Codec} {s : State} (h : (machine c).Reach Apart s) : Served s :=
  (h.invariant inv_init fun _ _ _ hi hok hst => step_inv hi hok hst).served

/-- Two clients, with requests of one session, both whole. -/
theorem served_of_two_clients : ∃ s, (machine ⟨fun _ => none, fun _ => []⟩).Reach Apart s ∧
    s.complete = [⟨2, .number 9, 1, [6]⟩, ⟨1, .number 8, 1, [5]⟩] ∧ Served s := by
  have hl : ((machine ⟨fun _ => none, fun _ => []⟩).run Apart init
      [.send ⟨1, .number 8, 1, [5]⟩, .send ⟨2, .number 9, 1, [6]⟩, .data 1, .data 0,
        .returns 1 true [7]]).map State.complete =
      some [⟨2, .number 9, 1, [6]⟩, ⟨1, .number 8, 1, [5]⟩] := by decide
  obtain ⟨s, hr, he⟩ := Machine.exists_reach hl
  exact ⟨s, hr, he, served_of_reach hr⟩

theorem large_packets {msg : Bytes} (hlen : msg.length = MULTI_PART) : ∃ p q b b',
    lpackrequest (.number 8) 1 msg = .ok ⟨p, 2, [q]⟩ ∧ unframe p = some b ∧ unframe q = some b' ∧
      lunpackrequest b = .ok ⟨some (.number 8), 1, .size msg.length, true⟩ ∧
      lunpackrequest b' = .ok ⟨none, 1, .bytes msg, false⟩ := by
  have hvalid : (Addr.number 8).Valid := trivial
  obtain ⟨p, hp, -, hu⟩ := packreq_head hvalid (s := 1) (by norm_num) (not_lt.2 hlen.ge)
    (by rw [hlen, MULTI_PART]; norm_num)
  obtain ⟨b, hb, hok⟩ := unpacks_of_bind hu
  obtain ⟨b', hb', hok'⟩ := unpacks_of_bind
    (packreqPart_unpacks (s := 1) (by norm_num) true hlen.le).2
  have hparts : parts msg.length = 1 := by
    rw [hlen]
    rfl
  have hmulti : packreqMulti 1 msg = [packreqPart 1 true msg] := by
    rw [packreqMulti, hparts, packMulti, if_neg (not_lt.2 hlen.le), packMulti]
  refine ⟨p, packreqPart 1 true msg, b, b', ?_, hb, hb', hok, hok'⟩
  have hpack : packreq (.number 8) (1 : ℤ).toNat msg = .ok (p, 1) := hparts ▸ hp
  simp only [lpackrequest, hpack, bind, Except.bind, pure, Except.pure]
  rw [if_neg (by norm_num)]
  exact congrArg (fun l => Except.ok (⟨p, 2, l⟩ : PackedRequest)) hmulti

/-- A client sends a request of two packets; between them the connection of another one ends. -/
theorem not_served_of_close : ¬ ∀ c s, (machine c).Reachable s → Served s := by
  intro hall
  obtain ⟨c⟩ : Nonempty Codec := ⟨⟨fun _ => none, fun _ => []⟩⟩
  obtain ⟨msg, hlen⟩ : ∃ msg : Bytes, msg.length = MULTI_PART :=
    ⟨List.replicate MULTI_PART 0, List.length_replicate⟩
  obtain ⟨p, q, b, b', hpack, hb, hb', hok, hok'⟩ := large_packets hlen
  have h₁ : (machine c).Reachable ⟨init.server, [⟨⟨1, .number 8, 1, msg⟩, [p, q], 0⟩], [], []⟩ := by
    refine Machine.Reach.init.step trivial (i := .send ⟨1, .number 8, 1, msg⟩) ?_
    simp only [machine, step, hpack]
    rfl
  have h₂ : ∃ server, (machine c).Reachable
      ⟨server, [⟨⟨1, .number 8, 1, msg⟩, [p, q], 1⟩], [], []⟩ ∧ server.dispatched = [] ∧
        Answered server := by
    refine ⟨socketData c 1 b init.server, h₁.step trivial (i := .data 0) ?_, ?_⟩
    · simp only [machine, step, data, List.getElem?_cons_zero, Option.bind_some, hb]
      rfl
    · simp only [socketData, hok, if_true]
      exact ⟨rfl, inv_init.served.answered.nodup, inv_init.served.answered.mem,
        inv_init.served.answered.written⟩
  obtain ⟨server, h₂, hnone, hans⟩ := h₂
  have h₃ : (machine c).Reachable
      ⟨socketOther server, [⟨⟨1, .number 8, 1, msg⟩, [p, q], 1⟩], [2], []⟩ :=
    h₂.step trivial (i := .event .close 2) rfl
  have hdata : socketData c 1 b' (socketOther server) =
      dispatch c 1 1 none (.bytes msg) (socketOther server) := by
    unfold socketData
    simp only [hok', Bool.false_eq_true, if_false]
    rfl
  have h₄ : (machine c).Reachable ⟨dispatch c 1 1 none (.bytes msg) (socketOther server), [], [2],
      [⟨1, .number 8, 1, msg⟩]⟩ := by
    refine h₃.step trivial (i := .data 0) ?_
    simp only [machine, step, data, List.getElem?_cons_zero, List.getElem?_cons_succ, Option.bind_some, hb',
      hdata]
    rfl
  have honce := (hall c _ h₄).once
  obtain ⟨-, hreq, -⟩ := dispatch_spec c 1 1 none (.bytes msg) (s := socketOther server)
    ⟨hans.nodup, hans.mem, hans.written⟩
  rw [hreq] at honce
  simp [socketOther, hnone, Req.request] at honce

end Run

end Clusterd

end SkynetGame
