import SkynetGame.Agent

/-!
# The consumer of an agent's requests

While `client_fd` stays the same, requests are dispatched in the order they were posted, and the
consumer sleeps only on an empty queue and with itself in `thread_id` (`Agent.Inv`). What ends it
is the first handler that has a package to send, whatever its size: the consumer lives exactly as
long as every handler came to an error or to no result (`Agent.served_iff_of_sameFd`).
-/

namespace SkynetGame

namespace Agent

/-- A handler that leaves nothing to send. -/
def Outcome.Quiet (o : Outcome) : Prop := o = .error ∨ o = .noResult

instance (o : Outcome) : Decidable o.Quiet := inferInstanceAs (Decidable (_ ∨ _))

variable (s : Agent)

/-- `client_fd` does not change. -/
def SameFd : Action → Prop
  | .clientFd fd => fd = s.clientFd
  | _ => True

instance (a : Action) : Decidable (s.SameFd a) := by
  unfold SameFd
  split <;> infer_instance

/-- A step of the consumer alone, in which no handler leaves something to send. -/
def Own : Action → Prop
  | .loop => True
  | .finish a => ∀ m, s.consumer = .handling m → (dispatchClientMessage m a).Quiet
  | _ => False

/-- The consumer alone can get through what there is. -/
def Drains (fd : Option ℕ) : Prop :=
  ∃ s', (machine fd).Steps Own s s' ∧ s'.messageQueue = [] ∧ s'.dispatched = s.posted

/-- The requests are dispatched as they were posted, none is stranded: the consumer runs, or waits
for `post_queue` to wake it with nothing to do. -/
structure Served : Prop where
  order : s.posted = s.dispatched ++ s.messageQueue
  awake : (s.consumer = .ready ∨ ∃ m, s.consumer = .handling m) ∨
    (s.consumer = .waiting ∧ s.threadId = true ∧ s.messageQueue = [])
  drains : s.Drains s.clientFd

/-- What every step keeps as long as `client_fd` stays the same. -/
structure Inv : Prop where
  order : s.posted = s.dispatched ++ s.messageQueue
  fd : s.lFd = s.clientFd
  waiting : s.consumer = .waiting → s.threadId = true ∧ s.messageQueue = []
  thread : s.threadId = true → s.consumer = .waiting
  ended : s.consumer = .ended ↔ ∃ o ∈ s.outcomes, ¬ o.Quiet

variable {s} {s' : Agent}

section Step

theorem Inv.postQueue (h : s.Inv) (m : Request) : (s.postQueue m).Inv := by
  obtain ⟨order, fd, waiting, thread, ended⟩ := h
  have horder : s.posted ++ [m] = s.dispatched ++ (s.messageQueue ++ [m]) := by
    rw [order, List.append_assoc]
  simp only [Agent.postQueue]
  split_ifs with ht
  · have hw : s.consumer = .waiting := thread ht
    refine ⟨horder, fd, ?_, by simp, ?_⟩
    · simp [wakeup, hw]
    · have hq : ¬ ∃ o ∈ s.outcomes, ¬ o.Quiet := by
        rw [← ended, hw]
        simp
      simpa [wakeup, hw] using hq
  · exact ⟨horder, fd, fun hw => absurd (waiting hw).1 ht, fun h => absurd h ht, ended⟩

theorem Inv.loop (h : s.Inv) (hr : s.consumer = .ready) : s.loop.Inv := by
  obtain ⟨order, fd, waiting, thread, ended⟩ := h
  have hq : ¬ ∃ o ∈ s.outcomes, ¬ o.Quiet := by
    rw [← ended, hr]
    simp
  have ht : s.threadId ≠ true := fun ht => by simp [thread ht] at hr
  unfold Agent.loop
  rw [if_pos fd]
  rcases hm : s.messageQueue with _ | ⟨m, rest⟩
  · exact ⟨by simpa [hm] using order, fd, fun _ => ⟨rfl, rfl⟩, fun _ => rfl, by simpa using hq⟩
  · exact ⟨by simp [order, hm], fd, by simp, fun h => absurd h ht, by simpa using hq⟩

theorem finish_of_quiet (hfd : s.lFd = s.clientFd) {o : Outcome} (ho : o.Quiet) :
    s.finish o = { s.handled with outcomes := s.outcomes ++ [o] } := by
  rcases ho with rfl | rfl <;> simp [Agent.finish, handled, hfd]

theorem finish_of_not_quiet {o : Outcome} (ho : ¬ o.Quiet) :
    s.finish o = { s with outcomes := s.outcomes ++ [o], consumer := .ended } := by
  cases o with
  | error => exact absurd (.inl rfl) ho
  | noResult => exact absurd (.inr rfl) ho
  | result size => simp [Agent.finish, sendPackage]

theorem Inv.finish (h : s.Inv) {m : Request} (hc : s.consumer = .handling m) (o : Outcome) :
    (s.finish o).Inv := by
  obtain ⟨order, fd, waiting, thread, ended⟩ := h
  have hq : ∀ o ∈ s.outcomes, o.Quiet := by
    have := ended.not.1 (by simp [hc])
    push Not at this
    exact this
  have ht : s.threadId ≠ true := fun ht => by simp [thread ht] at hc
  by_cases ho : o.Quiet
  · rw [finish_of_quiet fd ho]
    refine ⟨order, fd, by simp [handled], fun h => absurd h ht, ?_⟩
    simp only [handled, List.mem_append, List.mem_singleton]
    refine ⟨by simp, ?_⟩
    rintro ⟨o', ho' | rfl, hn⟩
    · exact absurd (hq o' ho') hn
    · exact absurd ho hn
  · rw [finish_of_not_quiet ho]
    refine ⟨order, fd, by simp, fun h => absurd h ht, ?_⟩
    exact ⟨fun _ => ⟨o, by simp, ho⟩, fun _ => rfl⟩

theorem Inv.step (h : s.Inv) {a : Action} (ht : s.SameFd a) (hst : Agent.step s a = some s') :
    s'.Inv := by
  cases a with
  | post m =>
    obtain rfl := Option.some.inj hst
    exact h.postQueue m
  | loop =>
    obtain ⟨hr, rfl⟩ := of_guard hst
    exact h.loop hr
  | finish a =>
    simp only [Agent.step] at hst
    split at hst
    · rename_i m hm
      obtain rfl := Option.some.inj hst
      exact h.finish hm _
    · cases hst
  | clientFd fd =>
    obtain rfl : fd = s.clientFd := ht
    obtain rfl := Option.some.inj hst
    exact h

end Step

theorem inv_init (fd : Option ℕ) : (machine fd).init.Inv := by
  refine ⟨rfl, rfl, ?_, ?_, ?_⟩ <;> simp [machine]

section Drains

variable {fd : Option ℕ}

theorem Drains.of_step (a : Action) {s' : Agent} (hown : s.Own a) (hst : Agent.step s a = some s')
    (hp : s'.posted = s.posted) (h : s'.Drains fd) : s.Drains fd := by
  obtain ⟨s₁, hs, hq, hd⟩ := h
  exact ⟨s₁, (Machine.Steps.single hown hst).trans hs, hq, by rw [hd, hp]⟩

theorem Inv.drains_of_empty (h : s.Inv) (hq : s.messageQueue = []) : s.Drains fd :=
  ⟨s, .refl, hq, by rw [h.order, hq, List.append_nil]⟩

theorem quiet_of_raise (m : Request) : (dispatchClientMessage m .raise).Quiet := by
  unfold dispatchClientMessage
  split_ifs <;> first | exact .inr rfl | exact .inl rfl

theorem Inv.drains_of_handling (h : s.Inv) {m : Request} (hm : s.consumer = .handling m)
    (ih : ∀ {s' : Agent}, s'.messageQueue = s.messageQueue → s'.Inv → s'.consumer = .ready →
      s'.Drains fd) : s.Drains fd := by
  have ho := quiet_of_raise m
  have heq := finish_of_quiet h.fd ho
  refine Drains.of_step (.finish .raise) ?_ ?_ ?_ (ih ?_ (h.finish hm (dispatchClientMessage m .raise)) ?_)
  · intro m' hm'
    obtain rfl : m = m' := by simpa [hm] using hm'
    exact ho
  · simp [Agent.step, hm]
  all_goals rw [heq]; rfl

theorem Inv.drains_of_ready : ∀ (n : ℕ) {s : Agent}, s.messageQueue.length = n → s.Inv →
    s.consumer = .ready → s.Drains fd
  | 0, _, hn, h, _ => h.drains_of_empty (List.length_eq_zero_iff.1 hn)
  | n + 1, s, hn, h, hr => by
    obtain ⟨m, rest, hq⟩ := List.exists_cons_of_length_eq_add_one hn
    have hloop : s.loop.messageQueue = rest ∧ s.loop.consumer = .handling m ∧
        s.loop.posted = s.posted := by simp [Agent.loop, h.fd, hq]
    have hlen : rest.length = n := by simpa [hq] using hn
    refine Drains.of_step .loop trivial (by simp [Agent.step, hr]) hloop.2.2 ?_
    refine (h.loop hr).drains_of_handling hloop.2.1 fun hq' hi hr' => ?_
    exact Inv.drains_of_ready n (by rw [hq', hloop.1, hlen]) hi hr'

theorem Inv.drains (h : s.Inv) (hne : s.consumer ≠ .ended) : s.Drains fd := by
  rcases hc : s.consumer with _ | m | _ | _
  · exact h.drains_of_ready _ rfl hc
  · exact h.drains_of_handling hc fun _ hi hr => hi.drains_of_ready _ rfl hr
  · exact h.drains_of_empty (h.waiting hc).2
  · exact absurd hc hne

end Drains

theorem Inv.served_iff_quiet (h : s.Inv) : s.Served ↔ ∀ o ∈ s.outcomes, o.Quiet := by
  have hend : s.consumer ≠ .ended ↔ ∀ o ∈ s.outcomes, o.Quiet := by
    rw [ne_eq, h.ended]
    push Not
    rfl
  rw [← hend]
  constructor
  · rintro ⟨-, awake, -⟩ he
    simp [he] at awake
  · intro hne
    refine ⟨h.order, ?_, h.drains hne⟩
    rcases hc : s.consumer with _ | m | _ | _
    · exact .inl (.inl rfl)
    · exact .inl (.inr ⟨m, rfl⟩)
    · exact .inr ⟨rfl, h.waiting hc⟩
    · exact absurd hc hne

/-- In a run that leaves `client_fd` alone, the requests are served as long as no handler has had
anything to send, and no longer. -/
theorem served_iff_of_sameFd {fd : Option ℕ} (h : (machine fd).Reach SameFd s) :
    s.Served ↔ ∀ o ∈ s.outcomes, o.Quiet :=
  (h.invariant (inv_init fd) fun _ _ _ hi ht hst => hi.step ht hst).served_iff_quiet

/-- A request that comes with a `response`. -/
def login : Request := ⟨Bytes.ascii "login_user", true⟩

/-- Two requests are posted, and the first is answered with three bytes. -/
def answeredRun : List Action := [.loop, .post login, .post login, .loop, .finish (.pack 3)]

/-- Two requests are posted, and the handler of the first fails. -/
def failedRun : List Action := [.loop, .post login, .post login, .loop, .finish .raise, .loop]

theorem served_failedRun : ∃ s, (machine (some 5)).run SameFd (machine (some 5)).init failedRun =
    some s ∧ (s.Served ↔ ∀ o ∈ s.outcomes, o.Quiet) ∧ ∀ o ∈ s.outcomes, o.Quiet := by
  obtain ⟨s, hs⟩ := Option.isSome_iff_exists.1
    (show ((machine (some 5)).run SameFd (machine (some 5)).init failedRun).isSome from rfl)
  refine ⟨s, hs, served_iff_of_sameFd (Machine.reach_of_run hs), ?_⟩
  obtain rfl := Option.some.inj hs
  decide

/-- The answer ends the consumer, with the second request in the queue. -/
theorem not_served_answeredRun :
    ∃ s, (machine (some 5)).run SameFd (machine (some 5)).init answeredRun = some s ∧
      s.messageQueue = [login] ∧ s.consumer = .ended ∧ ¬ s.Served := by
  refine ⟨_, rfl, rfl, rfl, fun h => ?_⟩
  rcases h.awake with (h | ⟨m, h⟩) | ⟨h, -⟩ <;> cases h

end Agent

end SkynetGame
