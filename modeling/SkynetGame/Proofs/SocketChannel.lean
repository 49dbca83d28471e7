import SkynetGame.SocketChannel
import Mathlib.Data.List.Induction

/-!
# Channels: what does not depend on the mode

What wakes many coroutines changes nothing else (`Same`, `Lost`), the log only grows and so do the
responses read off it, and there is one connection at a time whose dispatcher is there (`Conn`).
-/

namespace SkynetGame

open Function List

namespace SocketChannel

variable {α : Type*}

/-- Each request that waits is resumed once, with what it should, and no request is left to wait when
its response was read, nor when its socket failed and nobody has anything to do. After `close` the
dispatchers end. -/
structure Sound (s : State α) : Prop where
  once : ∀ q < s.nRequests, (s.requests q).outcomes.length ≤ 1
  right : ∀ q < s.nRequests, ∀ o ∈ (s.requests q).outcomes,
    Right s.mode (s.requests q) s.log o
  answered : ∀ q < s.nRequests, (s.requests q).verdict s.mode s.log ≠ none →
    (s.requests q).outcomes = [] → s.asleep (s.requests q).co = some q
      ∧ s.woken (s.requests q).co = true
  ended : s.Quiet → ∀ q < s.nRequests, .fail (s.requests q).conn ∈ s.log →
    (s.requests q).outcomes = [] → s.asleep (s.requests q).co = some q
      ∧ s.woken (s.requests q).co = true
  gone : s.Quiet → s.closed = true → ∀ d, s.disp d = .dead

section Log

variable {log log' : List (Entry α)} {r : Reply α} {e : ℕ} {q : Request α} {mode : Mode}
  {o : Outcome α}

theorem replies_append : replies e (log ++ log') = replies e log ++ replies e log' :=
  filterMap_append

theorem heard_append_one (rs : List (Reply α)) : heard (rs ++ [r]) = hear (heard rs) r := by
  rw [heard, foldl_append]
  rfl

theorem heard_append_prefix (rs rs' : List (Reply α)) :
    ∃ l, (heard (rs ++ rs')).1 = (heard rs).1 ++ l := by
  induction rs' using List.reverseRecOn with
  | nil => exact ⟨[], by simp⟩
  | append_singleton rs' r ih =>
    obtain ⟨l, hl⟩ := ih
    rw [← append_assoc, heard_append_one, hear]
    split
    · exact ⟨l, hl⟩
    · exact ⟨l ++ [finalOutcome (heard (rs ++ rs')).2 r], by rw [hl, append_assoc]⟩

theorem own_append (h : q.since ≤ log.length) : q.own (log ++ log')
    = q.own log ++ (replies q.conn log').filter fun r => r.session = q.session := by
  rw [Request.own, drop_append_of_le_length h, replies_append, filter_append]
  rfl

theorem verdict_append (h : q.since ≤ log.length) (hv : q.verdict mode log = some o) :
    q.verdict mode (log ++ log') = some o := by
  cases mode with
  | session =>
    simp only [Request.verdict] at hv ⊢
    obtain ⟨l, hl⟩ := heard_append_prefix (q.own log)
      ((replies q.conn log').filter fun r => r.session = q.session)
    rw [own_append h, hl, List.head?_append, hv]
    rfl
  | order =>
    simp only [Request.verdict] at hv ⊢
    obtain ⟨l, hl⟩ := heard_append_prefix (replies q.conn log) (replies q.conn log')
    obtain ⟨hlt, -⟩ := List.getElem?_eq_some_iff.1 hv
    rw [replies_append, hl, List.getElem?_append_left hlt, hv]

theorem Right.append (h : q.since ≤ log.length) (hr : Right mode q log o) :
    Right mode q (log ++ log') o := by
  rcases hr with hv | ⟨ho, before, after, rfl, hle, hv⟩
  · exact .inl (verdict_append h hv)
  · exact .inr ⟨ho, before, after ++ log', by simp, hle, hv⟩

end Log

/-! ## What is woken, and what stays as it is -/

/-- What only requests, connections and those who close the socket change. -/
structure Same (s t : State α) : Prop where
  mode : t.mode = s.mode
  sock : t.sock = s.sock
  closed : t.closed = s.closed
  asleep : t.asleep = s.asleep
  conns : t.conns = s.conns
  closers : t.closers = s.closers
  signals : t.signals = s.signals
  requests : t.requests = s.requests
  nRequests : t.nRequests = s.nRequests
  pushed : t.pushed = s.pushed
  dropped : t.dropped = s.dropped
  log : t.log = s.log

variable {s t u : State α} {co d : ℕ} {m : Option α}

theorem ne_dead_of_reading {e c : Option ℕ} (h : s.disp d = .reading e c) : s.disp d ≠ .dead := by
  rw [h]
  exact fun hbad => nomatch hbad

theorem ne_dead_of_closing {c : Option ℕ} (h : s.disp d = .closing m c) : s.disp d ≠ .dead := by
  rw [h]
  exact fun hbad => nomatch hbad

theorem ne_dead_of_waiting (h : s.disp d = .waiting) : s.disp d ≠ .dead := by
  rw [h]
  exact fun hbad => nomatch hbad

theorem Same.refl (s : State α) : Same s s :=
  ⟨rfl, rfl, rfl, rfl, rfl, rfl, rfl, rfl, rfl, rfl, rfl, rfl⟩

theorem Same.trans (h : Same s t) (h' : Same t u) : Same s u :=
  ⟨h'.mode.trans h.mode, h'.sock.trans h.sock, h'.closed.trans h.closed, h'.asleep.trans h.asleep,
    h'.conns.trans h.conns, h'.closers.trans h.closers, h'.signals.trans h.signals,
    h'.requests.trans h.requests, h'.nRequests.trans h.nRequests, h'.pushed.trans h.pushed,
    h'.dropped.trans h.dropped, h'.log.trans h.log⟩

/-- The coroutines `cos` are woken with an error. -/
structure Lost (cos : List ℕ) (m : Option α) (s t : State α) : Prop where
  same : Same s t
  disp : t.disp = s.disp
  dwoken : t.dwoken = s.dwoken
  dispatchThread : t.dispatchThread = s.dispatchThread
  waitResponse : t.waitResponse = s.waitResponse
  threads : t.threads = s.threads
  request : t.request = s.request
  thread : t.thread = s.thread
  result : ∀ co, t.result co = if co ∈ cos then some .socketError else s.result co
  resultData : ∀ co, t.resultData co = if co ∈ cos then m.map .one else s.resultData co
  woken : ∀ co, t.woken co = if co ∈ cos ∧ (s.asleep co).isSome then true else s.woken co

theorem Lost.refl (s : State α) (m : Option α) : Lost [] m s s :=
  ⟨.refl s, rfl, rfl, rfl, rfl, rfl, rfl, rfl, fun _ => rfl, fun _ => rfl, fun _ => rfl⟩

theorem Lost.trans {cos cos' : List ℕ} (h : Lost cos m s t) (h' : Lost cos' m t u) :
    Lost (cos ++ cos') m s u where
  same := h.same.trans h'.same
  disp := h'.disp.trans h.disp
  dwoken := h'.dwoken.trans h.dwoken
  dispatchThread := h'.dispatchThread.trans h.dispatchThread
  waitResponse := h'.waitResponse.trans h.waitResponse
  threads := h'.threads.trans h.threads
  request := h'.request.trans h.request
  thread := h'.thread.trans h.thread
  result x := by
    rw [h'.result, h.result]
    by_cases hx : x ∈ cos' <;> simp [hx]
  resultData x := by
    rw [h'.resultData, h.resultData]
    by_cases hx : x ∈ cos' <;> simp [hx]
  woken x := by
    rw [h'.woken, h.woken, h.same.asleep]
    by_cases hx : x ∈ cos' <;> by_cases ha : (s.asleep x).isSome = true <;> simp [hx, ha]

/-- The coroutines in the lists of a channel. -/
def State.cos (s : State α) : List ℕ :=
  match s.mode with
  | .session => s.threads.map Prod.snd
  | .order => s.thread.filterMap id

def State.cleared (s : State α) : State α :=
  match s.mode with
  | .session => { s with threads := [] }
  | .order => { s with request := [], thread := [] }

/-- The socket is that of the last connection, the only one whose dispatcher may be there. -/
structure Conn (s : State α) : Prop where
  sock : ∀ e, s.sock = some e → e + 1 = s.conns ∧ s.disp e ≠ .dead
    ∧ (∀ m co, s.disp e ≠ .closing m co) ∧ s.closers = [] ∧ .fail e ∉ s.log ∧ s.dropped e = false
    ∧ s.closed = false
  alive : ∀ d, s.disp d ≠ .dead → d + 1 = s.conns
  reading : ∀ d e co, s.disp d = .reading e co → e = some d ∨ e = none ∧ s.sock = none
  failed : ∀ d < s.conns, s.sock ≠ some d → .fail d ∈ s.log
  fresh : ∀ d, s.conns ≤ d → .fail d ∉ s.log ∧ s.dropped d = false

theorem Conn.init (mode : Mode) : Conn (State.init mode : State α) :=
  ⟨(fun _ h => nomatch h), fun _ h => absurd rfl h, (fun _ _ _ h => nomatch h),
    (fun _ h => nomatch h), fun _ _ => ⟨not_mem_nil, rfl⟩⟩

theorem Conn.unique {d' : ℕ} (h : Conn s) (hd : s.disp d ≠ .dead) (hd' : s.disp d' ≠ .dead) :
    d = d' := by
  have h₁ := h.alive d hd
  have h₂ := h.alive d' hd'
  omega

/-- A coroutine sleeps for one request, each other request has its outcome, and a coroutine that is
woken has the right one. -/
structure Reqs (s : State α) : Prop where
  asleep : ∀ co q, s.asleep co = some q →
    q < s.nRequests ∧ (s.requests q).co = co ∧ (s.requests q).outcomes = []
  since : ∀ q < s.nRequests, (s.requests q).since ≤ s.log.length
    ∧ .fail (s.requests q).conn ∉ s.log.take (s.requests q).since
  done : ∀ q < s.nRequests, s.asleep (s.requests q).co = some q
    ∨ ∃ o, (s.requests q).outcomes = [o] ∧ Right s.mode (s.requests q) s.log o
  clean : ∀ co, s.asleep co = none →
    s.result co = none ∧ s.resultData co = none ∧ s.woken co = false
  woken : ∀ co q, s.asleep co = some q → s.woken co = true →
    Right s.mode (s.requests q) s.log (outcome s co)
  conn : ∀ q < s.nRequests, (s.requests q).conn < s.conns

theorem Reqs.init (mode : Mode) : Reqs (State.init mode : State α) :=
  ⟨(fun _ _ h => nomatch h), (fun _ h => nomatch h), (fun _ h => nomatch h),
    fun _ _ => ⟨rfl, rfl, rfl⟩, (fun _ _ h => nomatch h), (fun _ h => nomatch h)⟩

/-- A coroutine that sleeps for a request whose response is not there. -/
def State.Pending (s : State α) (co : ℕ) : Prop :=
  ∃ q, s.asleep co = some q ∧ (s.requests q).verdict s.mode s.log = none
    ∧ .fail (s.requests q).conn ∈ s.log

/-- One more request has been sent, and its coroutine waits. -/
structure Asked (s t : State α) (co e session i : ℕ) : Prop where
  free : s.asleep co = none
  mode : t.mode = s.mode
  conns : t.conns = s.conns
  log : t.log = s.log
  result : t.result = s.result
  data : t.resultData = s.resultData
  woken : t.woken = s.woken
  asleep : t.asleep = Function.update s.asleep co (some s.nRequests)
  requests : t.requests
    = Function.update s.requests s.nRequests ⟨co, session, e, i, s.log.length, []⟩
  nRequests : t.nRequests = s.nRequests + 1

namespace Asked

variable {e session i q : ℕ}

theorem self (a : Asked s t co e session i) :
    t.requests s.nRequests = ⟨co, session, e, i, s.log.length, []⟩ := by
  rw [a.requests, update_self]

theorem other (a : Asked s t co e session i) (hq : q < s.nRequests) :
    t.requests q = s.requests q := by
  rw [a.requests, update_of_ne (Nat.ne_of_lt hq)]

theorem waits (a : Asked s t co e session i) : t.asleep co = some s.nRequests := by
  rw [a.asleep, update_self]

theorem ne (a : Asked s t co e session i) {co' : ℕ} (hq : s.asleep co' = some q) : co' ≠ co := by
  rintro rfl
  cases a.free.symm.trans hq

end Asked

theorem sound_of (hreqs : Reqs s) (hconn : Conn s)
    (hwaits : ∀ co q, s.asleep co = some q → s.woken co = false →
      (s.requests q).verdict s.mode s.log = none ∧ (s.requests q).conn + 1 = s.conns
        ∧ (s.sock = none → ¬ s.Quiet))
    (hgone : s.Quiet → s.closed = true → ∀ d, s.disp d = .dead) : Sound s := by
  have hasleep : ∀ q < s.nRequests, (s.requests q).outcomes = [] →
      s.asleep (s.requests q).co = some q := by
    intro q hq hnil
    rcases hreqs.done q hq with ha | ⟨o, ho, -⟩
    · exact ha
    · rw [ho] at hnil
      cases hnil
  refine ⟨fun q hq => ?_, fun q hq o ho => ?_, fun q hq hv hnil => ?_,
    fun hquiet q hq hfail hnil => ?_, hgone⟩
  · rcases hreqs.done q hq with ha | ⟨o, ho, -⟩
    · rw [(hreqs.asleep _ q ha).2.2]
      exact Nat.zero_le 1
    · rw [ho]
      exact le_rfl
  · rcases hreqs.done q hq with ha | ⟨o', ho', hright⟩
    · rw [(hreqs.asleep _ q ha).2.2] at ho
      cases ho
    · rw [ho'] at ho
      obtain rfl := mem_singleton.1 ho
      exact hright
  · refine ⟨hasleep q hq hnil, Bool.of_not_eq_false fun hw => ?_⟩
    exact hv (hwaits _ q (hasleep q hq hnil) hw).1
  · refine ⟨hasleep q hq hnil, Bool.of_not_eq_false fun hw => ?_⟩
    obtain ⟨-, hconns, hnot⟩ := hwaits _ q (hasleep q hq hnil) hw
    cases hsock : s.sock with
    | none => exact hnot hsock hquiet
    | some e =>
      obtain ⟨he, -, -, -, hnofail, -⟩ := hconn.sock e hsock
      obtain rfl : (s.requests q).conn = e := by omega
      exact hnofail hfail

/-! ## What a dispatcher does with a response -/

end SocketChannel

end SkynetGame
