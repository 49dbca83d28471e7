import SkynetGame.LuaService

/-!
# Where the coroutines of a service are
-/

namespace SkynetGame

/-- The coroutine has no function to call, or will not run again. -/
def CoState.Spare : CoState → Prop
  | .pooled | .woken | .dead => True
  | _ => False

namespace LuaService

variable {α : Type*} {s : LuaService α} {c : ℕ}

theorem running_eq_some : s.running = some c ↔ s.ctl = .run c := by
  unfold running
  split <;> simp_all

theorem of_running {s' : LuaService α} {f : ℕ → LuaService α} (h : s.running.map f = some s') :
    ∃ c, s.ctl = .run c ∧ f c = s' := by
  obtain ⟨c, hc, hs⟩ := Option.map_eq_some_iff.1 h
  exact ⟨c, running_eq_some.1 hc, hs⟩

theorem ctl_ne_run (h : s.running = none) (c : ℕ) : s.ctl ≠ .run c :=
  fun hc => by simp [running_eq_some.2 hc] at h

theorem running_of_ctl {k : LuaCtl} (h : s.ctl = k) (hk : ∀ c, k ≠ .run c) : s.running = none := by
  unfold running
  split
  · rename_i c hc
    exact absurd (h.symm.trans hc) (hk c)
  · rfl

@[simp] theorem coState_setState (st : CoState) :
    (s.setState c st).coState = Function.update s.coState c st := rfl

variable (s)

theorem leave_cases : s.leave = { s with ctl := .forks } ∨
    s.leave = { s with ctl := .errors, depth := s.depth - 1 } := by
  unfold leave
  split
  · exact .inl rfl
  · exact .inr rfl

theorem running_leave : s.leave.running = none := by
  rcases s.leave_cases with h | h <;> rw [h] <;> rfl

@[simp] theorem coState_leave : s.leave.coState = s.coState := by
  rcases s.leave_cases with h | h <;> rw [h]

theorem answer_eq (address : α) (session : ℕ) (ok accepted : Bool) :
    ∃ l, s.answer address session ok accepted = { s with sent := l } := by
  unfold answer
  simp only []
  repeat' split
  all_goals exact ⟨_, rfl⟩

theorem died_eq (c : ℕ) : ∃ i a so l, s.died c = { s.setState c .dead with
    sessionCoroutineId := i, sessionCoroutineAddress := a, source := so, sent := l, ctl := .forks,
    depth := 0 } := by
  unfold died
  simp only []
  split
  · exact ⟨_, _, _, _, rfl⟩
  · split
    · split <;> exact ⟨_, _, _, _, rfl⟩
    · exact ⟨_, _, _, _, rfl⟩

variable {s}

theorem coCreate_cases {co : Option ℕ} {s' : LuaService α} (h : s.coCreate co = some (c, s')) :
    (co = none ∧ c = s.nCos ∧ s' = { s.setState c .ready with nCos := s.nCos + 1 }) ∨
      (co = some c ∧ c ∈ s.coroutinePool ∧
        s' = { s.setState c (if s.coState c = .pooled then .ready else .dead) with
          coroutinePool := s.coroutinePool.erase c }) := by
  cases co with
  | none =>
    simp only [coCreate, Option.some.injEq, Prod.mk.injEq] at h
    obtain ⟨rfl, rfl⟩ := h
    exact .inl ⟨rfl, rfl, rfl⟩
  | some c' =>
    simp only [coCreate] at h
    split at h
    · rename_i hc
      simp only [Option.some.injEq, Prod.mk.injEq] at h
      obtain ⟨rfl, rfl⟩ := h
      exact .inr ⟨rfl, hc, rfl⟩
    · cases h

theorem coState_of_coCreate {s' : LuaService α} {co : Option ℕ} {c : ℕ} (hc : s.coCreate co = some (c, s'))
    (hp : ∀ c', co = some c' → s.coState c' = .pooled) : s'.coState c = .ready := by
  obtain ⟨-, rfl, rfl⟩ | ⟨rfl, -, rfl⟩ := coCreate_cases hc
  · simp
  · simp [hp c rfl]

theorem coCreate_watching (w : α → Option ℕ) (co : Option ℕ) :
    { s with watchingService := w }.coCreate co
      = (s.coCreate co).map fun p => (p.1, { p.2 with watchingService := w }) := by
  cases co with
  | none => rfl
  | some c =>
    simp only [coCreate]
    split <;> rfl

theorem ret_cases (s : LuaService α) (c : ℕ) (accepted : Bool) :
    (∃ r l, s.ret c accepted = { s with sessionResponse := r, sent := l }) ∨
      ∃ r, s.ret c accepted = holds { s with sessionResponse := r } c := by
  unfold ret
  simp only []
  split
  · exact .inr ⟨s.sessionResponse, rfl⟩
  · split
    · rename_i address session _ _
      obtain ⟨l, hl⟩ := answer_eq { s with
        sessionResponse := Function.update s.sessionResponse c true } address session true accepted
      exact .inl ⟨_, l, hl⟩
    · exact .inr ⟨_, rfl⟩

section Release

variable [DecidableEq α]

/-- `watching_service` after `release_watching`. -/
def released (w : α → Option ℕ) : Option α → α → Option ℕ
  | none => w
  | some a =>
    match w a with
    | none => w
    | some ref => Function.update w a (if 1 < ref then some (ref - 1) else none)

theorem releaseWatching_eq (o : Option α) :
    s.releaseWatching o = { s with watchingService := released s.watchingService o } := by
  unfold releaseWatching released
  split
  · rfl
  · split <;> simp_all

/-- The sessions that an error message, or a call of `skynet.term`, queues. -/
def failing (s : LuaService α) (x : ℕ) (order : List ℕ) : List ℕ :=
  if x = 0 then order else if ∃ p ∈ s.watchingSession, p.1 = x then [x] else []

theorem errorDispatch_eq (x : ℕ) (a : α) (order : List ℕ) : ∃ d, s.errorDispatch x a order
    = { s with deadService := d, errorQueue := s.errorQueue ++ failing s x order } := by
  unfold errorDispatch failing
  split
  · exact ⟨_, rfl⟩
  · split
    · exact ⟨_, rfl⟩
    · exact ⟨_, by rw [List.append_nil]⟩

theorem noteError_eq (s : LuaService α) (x : ℕ) (a : α) :
    ∃ f, s.noteError x a = { s with calls := f } := by
  unfold noteError
  split <;> exact ⟨_, rfl⟩

theorem finish_eq (s : LuaService α) (c : ℕ) : ∃ w i a r o, s.finish c = { s.setState c .pooled with
    coroutinePool := s.coroutinePool ++ [c], watchingService := w, sessionCoroutineId := i
    sessionCoroutineAddress := a, sessionResponse := r, source := o, ctl := .wakeup } := by
  simp only [finish, releaseWatching_eq]
  exact ⟨_, _, _, _, _, rfl⟩

theorem response_cases (s : LuaService α) (c : ℕ) :
    (∃ w r p n, s.response c = { s with
      watchingService := w, sessionResponse := r, responses := p, nResponses := n }) ∨
      s.response c = s.holds c := by
  unfold response
  split
  · exact .inr rfl
  · split
    · split
      · exact .inr rfl
      · exact .inl ⟨_, _, _, _, rfl⟩
    · exact .inr rfl

theorem errorDispatch_ctl (session : ℕ) (source : α) (order : List ℕ) :
    (s.errorDispatch session source order).ctl = s.ctl := by
  unfold errorDispatch
  split
  · rfl
  · split <;> rfl

theorem respond_eq (r : ℕ) (ok accepted : Bool) :
    ∃ w p l, s.respond r ok accepted
      = { s with watchingService := w, responses := p, sent := l } := by
  unfold respond
  simp only []
  split
  · exact ⟨_, _, _, rfl⟩
  · exact ⟨_, _, _, rfl⟩
  · obtain ⟨l, hl⟩ := s.answer_eq (s.responses r).coAddress (s.responses r).coSession ok accepted
    rw [hl, releaseWatching_eq]
    exact ⟨_, _, _, rfl⟩

theorem test_eq (r : ℕ) :
    ∃ w p, s.test r = { s with watchingService := w, responses := p } := by
  unfold test
  simp only []
  split
  · rw [releaseWatching_eq]
    exact ⟨_, _, rfl⟩
  · exact ⟨_, _, rfl⟩

theorem foldl_respond_eq (l : List ℕ) : ∀ s : LuaService α, ∃ w p m,
    l.foldl (fun s r => s.respond r false true) s
      = { s with watchingService := w, responses := p, sent := m } := by
  induction l with
  | nil => exact fun s => ⟨_, _, _, rfl⟩
  | cons r l ih =>
    intro s
    obtain ⟨w, p, m, h⟩ := s.respond_eq r false true
    obtain ⟨w', p', m', h'⟩ := ih (s.respond r false true)
    refine ⟨w', p', m', ?_⟩
    rw [List.foldl_cons, h', h]

theorem exit_eq (c : ℕ) : ∃ w p m, s.exit c
    = (setState { s with forkQueue := [], watchingService := w, responses := p, sent := m } c
        .held).leave := by
  unfold exit
  simp only []
  obtain ⟨w, p, m, h⟩ := foldl_respond_eq
    ((List.range s.nResponses).filter fun r => (s.responses r).unresponse)
    { s with forkQueue := [], sent := s.sent ++ s.callerErrors }
  rw [h]
  exact ⟨_, _, _, rfl⟩

/-- The steps that start no call and no sleep, resume nobody and queue nobody to be resumed. -/
def Plain : LuaStep α → Prop
  | .genid | .respond .. | .test .. | .ret .. | .yieldResponse | .exit | .finish | .raise |
    .yield .. => True
  | _ => False

/-- What the calls are about, and what the sleeps are. -/
def waits (s : LuaService α) :=
  ((s.calls, s.nCalls, s.errorQueue, s.stray),
    (s.naps, s.nNaps, s.wakeupSession, s.vain, s.sessionIdCoroutine))

/-- The calls and the sleeps are as they were, and one coroutine at most stopped. -/
structure SameWaits (s s' : LuaService α) : Prop where
  waits : s'.waits = s.waits
  stops : s'.coState = s.coState ∧ s'.ctl = s.ctl ∨
    ∃ c st, s.ctl = .run c ∧ s'.coState = Function.update s.coState c st ∧
      (∀ k, st ≠ .calling k) ∧ (∀ n, st ≠ .asleep n) ∧ s'.ctl ≠ .idle

omit [DecidableEq α] in
theorem plain_holds {s' : LuaService α} (hw : s'.waits = s.waits) (hst : s'.coState = s.coState)
    (hctl : s.ctl = .run c) : SameWaits s (s'.holds c) :=
  ⟨hw, .inr ⟨c, .held, hctl, by rw [← hst]; rfl, by simp, by simp, by simp [holds, throw]⟩⟩

omit [DecidableEq α] in
theorem plain_leave {s' : LuaService α} (hw : s'.waits = s.waits) (hst : s'.coState = s.coState)
    (hctl : s.ctl = .run c) : SameWaits s (s'.setState c .held).leave := by
  rcases (s'.setState c .held).leave_cases with h | h <;> rw [h] <;>
    exact ⟨hw, .inr ⟨c, .held, hctl, by rw [← hst]; rfl, by simp, by simp, by simp⟩⟩

theorem plain_step {s' : LuaService α} {i : LuaStep α} (hst : s.step i = some s') (hi : Plain i) :
    SameWaits s s' := by
  cases i with
  | genid =>
    obtain ⟨c, -, rfl⟩ := of_running hst
    exact ⟨rfl, .inl ⟨rfl, rfl⟩⟩
  | respond r ok accepted =>
    obtain ⟨-, hst⟩ := Option.ite_none_right_eq_some.1 hst
    obtain ⟨c, -, rfl⟩ := of_running hst
    obtain ⟨w, p, l, he⟩ := s.respond_eq r ok accepted
    rw [he]
    exact ⟨rfl, .inl ⟨rfl, rfl⟩⟩
  | test r =>
    obtain ⟨-, hst⟩ := Option.ite_none_right_eq_some.1 hst
    obtain ⟨c, -, rfl⟩ := of_running hst
    obtain ⟨w, p, he⟩ := s.test_eq r
    rw [he]
    exact ⟨rfl, .inl ⟨rfl, rfl⟩⟩
  | ret accepted =>
    obtain ⟨c, hc, rfl⟩ := of_running hst
    rcases s.ret_cases c accepted with ⟨r, l, he⟩ | ⟨r, he⟩ <;> rw [he]
    · exact ⟨rfl, .inl ⟨rfl, rfl⟩⟩
    · exact plain_holds rfl rfl hc
  | yieldResponse =>
    obtain ⟨c, hc, rfl⟩ := of_running hst
    rcases s.response_cases c with ⟨w, r, p, n, he⟩ | he <;> rw [he]
    · exact ⟨rfl, .inl ⟨rfl, rfl⟩⟩
    · exact plain_holds rfl rfl hc
  | exit =>
    obtain ⟨c, hc, rfl⟩ := of_running hst
    obtain ⟨w, p, m, he⟩ := s.exit_eq c
    rw [he]
    exact plain_leave rfl rfl hc
  | finish =>
    obtain ⟨c, hc, rfl⟩ := of_running hst
    obtain ⟨w, i, a, r, o, he⟩ := s.finish_eq c
    rw [he]
    exact ⟨rfl, .inr ⟨c, .pooled, hc, rfl, by simp, by simp, by simp⟩⟩
  | raise =>
    obtain ⟨c, hc, rfl⟩ := of_running hst
    obtain ⟨i, a, so, l, he⟩ := s.died_eq c
    rw [he]
    exact ⟨rfl, .inr ⟨c, .dead, hc, rfl, by simp, by simp, by simp⟩⟩
  | yield command =>
    obtain ⟨c, hc, rfl⟩ := of_running hst
    split
    · exact plain_holds rfl rfl hc
    · exact plain_leave rfl rfl hc
  | _ => exact hi.elim

end Release

end LuaService

end SkynetGame
