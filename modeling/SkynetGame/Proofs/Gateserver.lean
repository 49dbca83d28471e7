import SkynetGame.Gateserver
import SkynetGame.Proofs.Netpack

/-!
# The gate server empties its queue before the next message

As long as a package waits, a fork of `dispatch_queue` is to run, or one is about to pop (`Order`),
whatever the handlers do; so nothing waits when `skynet.dispatch_message` returns. What the server
does with its queue is a run of `netpack` that delivers a package at once only where none waits.
-/

namespace SkynetGame

namespace Gateserver

open Netpack (Delivery Event)

variable {h : Handler} {s s' : State}

section Pop

theorem pop_cases (hs : Netpack.Stored s.net) :
    s.pop = none ∧ s.net.queue.waiting = [] ∨
      ∃ d net, s.pop = some (d, { s with net := net }) ∧ Netpack.step s.net .pop = some net ∧
        net.delivered = s.net.delivered ++ [d] ∧ s.net.queue.waiting ≠ [] := by
  cases hpop : Netpack.lpop s.net.q with
  | none =>
    refine .inl ⟨by rw [State.pop, hpop]; rfl, ?_⟩
    cases hq : s.net.q with
    | none =>
      rw [Netpack.State.queue, hq]
      exact (ringList_eq_nil (Netpack.stored_init.ok.head) _).2 rfl
    | some q =>
      rw [hq, Netpack.lpop] at hpop
      have hok : (Netpack.getQueue s.net.q).Ok := hs.ok
      rw [hq] at hok
      have hempty : q.head = q.tail := by
        by_contra hne
        rw [if_neg hne] at hpop
        cases hpop
      rw [Netpack.State.queue, hq]
      exact (ringList_eq_nil (show q.head < q.cap from hok.head) _).2 hempty
  | some r =>
    obtain ⟨hwaiting, -, -⟩ := Netpack.lpop_spec hs.ok hpop
    refine .inr ⟨⟨false, r.1.id, r.1.buffer⟩, _, by rw [State.pop, hpop]; rfl,
      by rw [Netpack.step, hpop]; rfl, rfl, ?_⟩
    rw [Netpack.State.queue, hwaiting]
    exact List.cons_ne_nil _ _

end Pop

section Order

/-- Somebody will empty the queue. -/
structure Order (s : State) : Prop where
  net : Netpack.machine.Reach Netpack.Drained s.net
  queued : s.net.queue.waiting = [] ∨ 0 < s.forks ∨ s.phase = .pop none
  idle : s.phase = .idle → s.forks = 0
  log : s.messages.map Prod.fst = s.net.delivered

theorem Order.stored (ho : Order s) : Netpack.Stored s.net :=
  (Netpack.inOrder_of_reach ho.net).1

theorem Order.waiting (ho : Order s) (hidle : s.phase = .idle) : s.net.queue.waiting = [] := by
  rcases ho.queued with hw | hforks | hpop
  · exact hw
  · exact absurd (ho.idle hidle) hforks.ne'
  · rw [hidle] at hpop
    cases hpop

theorem Order.of_phase (ho : Order s) (hnet : s'.net = s.net) (hforks : s'.forks = s.forks)
    (hmessages : s'.messages = s.messages) (hpop : s.phase = .pop none → s'.phase = .pop none)
    (hidle : s'.phase = .idle → s.forks = 0) : Order s' := by
  refine ⟨hnet ▸ ho.net, ?_, fun hi => hforks.trans (hidle hi), ?_⟩
  · rw [hnet, hforks]
    exact ho.queued.imp_right (Or.imp_right hpop)
  · rw [hnet, hmessages]
    exact ho.log

theorem dispatchMsg_messages (d : Delivery) (rest : Rest) (next : Phase) (s : State) :
    (dispatchMsg d rest next s).messages =
      s.messages ++ [(d, decide (s.connection d.fd = some true))] := by
  unfold dispatchMsg
  split
  next hc => rw [decide_eq_true hc]
  next hc => rw [decide_eq_false hc]

theorem dispatchMsg_phase (d : Delivery) (rest : Rest) (next : Phase) (s : State) :
    (dispatchMsg d rest next s).phase = .handler rest ∨
      (dispatchMsg d rest next s).phase = next := by
  unfold dispatchMsg
  split
  · exact .inl rfl
  · exact .inr rfl

theorem dispatchMsg_net (d : Delivery) (rest : Rest) (next : Phase) (s : State) :
    (dispatchMsg d rest next s).net = s.net ∧ (dispatchMsg d rest next s).forks = s.forks := by
  unfold dispatchMsg
  split
  · exact ⟨rfl, rfl⟩
  · exact ⟨rfl, rfl⟩

theorem Order.dispatchMsg {d : Delivery} {rest : Rest} {next : Phase}
    (hnet : Netpack.machine.Reach Netpack.Drained s.net)
    (hqueued : s.net.queue.waiting = [] ∨ 0 < s.forks) (hnext : next ≠ .idle)
    (hlog : s.net.delivered = s.messages.map Prod.fst ++ [d]) :
    Order (dispatchMsg d rest next s) := by
  obtain ⟨hn, hf⟩ := dispatchMsg_net d rest next s
  refine ⟨hn ▸ hnet, ?_, fun hi => ?_, ?_⟩
  · rw [hn, hf]
    exact hqueued.imp_right .inl
  · rcases dispatchMsg_phase d rest next s with hp | hp
    · rw [hp] at hi
      cases hi
    · exact absurd (hp.symm.trans hi) hnext
  · rw [hn, hlog, dispatchMsg_messages, List.map_append]
    rfl

theorem closeFd_order (fd : ℕ) (s : State) : (closeFd fd s).net = s.net ∧
    (closeFd fd s).forks = s.forks ∧ (closeFd fd s).messages = s.messages := by
  unfold closeFd
  split
  · exact ⟨rfl, rfl, rfl⟩
  · exact ⟨rfl, rfl, rfl⟩

theorem Order.dispatch {ev : Event} (hnet : Netpack.machine.Reach Netpack.Drained s.net)
    (hqueued : s.net.queue.waiting = [] ∨ ev = .more) (hforks : s.forks = 0)
    (hlog : s.net.delivered = s.messages.map Prod.fst ++ ev.delivery) :
    Order (dispatch h s ev) := by
  -- an event that brings no package leaves only a phase behind
  have hquiet : ∀ {s' : State}, ev ≠ .more → ev.delivery = [] → s'.net = s.net →
      s'.forks = s.forks → s'.messages = s.messages → Order s' := by
    intro s' hev hnone hn hf hm
    refine ⟨hn ▸ hnet, .inl ?_, fun _ => hf.trans hforks, ?_⟩
    · rw [hn]
      exact hqueued.resolve_right hev
    · rw [hn, hm, hlog, hnone, List.append_nil]
  have hclose : ∀ {fd : ℕ} {s₁ : State}, s₁.net = s.net → s₁.forks = s.forks →
      s₁.messages = s.messages → ev ≠ .more → ev.delivery = [] →
      Order { closeFd fd s₁ with phase := .forks } := by
    intro fd s₁ hn hf hm hev hnone
    obtain ⟨hn', hf', hm'⟩ := closeFd_order fd s₁
    exact hquiet hev hnone (hn'.trans hn) (hf'.trans hf) (hm'.trans hm)
  cases ev with
  | none => exact hquiet (by rintro ⟨⟩) rfl rfl rfl rfl
  | more => exact ⟨hnet, .inr (.inr rfl), (by rintro ⟨⟩), (hlog.trans (List.append_nil _)).symm⟩
  | data fd buffer =>
    exact Order.dispatchMsg hnet (.inl (hqueued.resolve_right (by rintro ⟨⟩))) (by rintro ⟨⟩) hlog
  | opened fd =>
    unfold Gateserver.dispatch msgOpen
    simp only []
    split
    · exact hquiet (by rintro ⟨⟩) rfl rfl rfl rfl
    · exact hquiet (by rintro ⟨⟩) rfl rfl rfl rfl
  | close fd =>
    unfold Gateserver.dispatch msgClose
    simp only []
    split_ifs
    · exact hquiet (by rintro ⟨⟩) rfl rfl rfl rfl
    · exact hclose rfl rfl rfl (by rintro ⟨⟩) rfl
    · exact hquiet (by rintro ⟨⟩) rfl rfl rfl rfl
  | error fd =>
    unfold Gateserver.dispatch msgError
    simp only []
    split_ifs
    · exact hquiet (by rintro ⟨⟩) rfl rfl rfl rfl
    · exact hquiet (by rintro ⟨⟩) rfl rfl rfl rfl
    · exact hclose rfl rfl rfl (by rintro ⟨⟩) rfl
  | warning fd => exact hquiet (by rintro ⟨⟩) rfl rfl rfl rfl

theorem step_delivered {net net' : Netpack.State} {m : Netpack.Message}
    (hstep : Netpack.step net (.message m) = some net') :
    net'.delivered = net.delivered ++ (Netpack.lfilter net.q m).2.delivery := by
  unfold Netpack.step at hstep
  cases m with
  | data fd buffer =>
    simp only [] at hstep
    split_ifs at hstep
    rw [← Option.some.inj hstep]
  | connect | close | accept | error | warning => rw [← Option.some.inj hstep]

theorem Order.socket {m : Netpack.Message} {net : Netpack.State} (ho : Order s)
    (hidle : s.phase = .idle) (hnet : Netpack.step s.net (.message m) = some net) :
    Order (Gateserver.dispatch h { s with net := net } (Netpack.lfilter s.net.q m).2) := by
  have hw := ho.waiting hidle
  have hdrained : Netpack.Drained s.net (.message m) := by
    cases m with
    | data fd buffer =>
      refine .inr fun p hp => ?_
      rw [hw] at hp
      cases hp
    | connect | close | accept | error | warning => exact trivial
  have hqueued : net.queue.waiting = [] ∨ (Netpack.lfilter s.net.q m).2 = .more := by
    obtain ⟨-, hchange⟩ := Netpack.step_change ho.stored hnet
    cases hchange with
    | @fed fd buffer new ps t ev hev hhanded _ _ _ hwaiting =>
      rw [hwaiting, hw]
      cases hhanded with
      | none => exact .inl rfl
      | data => exact .inl rfl
      | more => exact .inr hev
    | quiet _ _ hwaiting => exact .inl (hwaiting.trans hw)
  refine Order.dispatch (ho.net.step hdrained hnet) hqueued (ho.idle hidle) ?_
  show net.delivered = s.messages.map Prod.fst ++ _
  rw [step_delivered hnet, ho.log]

theorem Order.dispatchQueue (ho : Order s) : Order (dispatchQueue s) := by
  unfold Gateserver.dispatchQueue
  rcases pop_cases ho.stored with ⟨hpop, hw⟩ | ⟨d, net, hpop, hstep, hdelivered, -⟩
  · rw [hpop]
    exact ⟨ho.net, .inl hw, (by rintro ⟨⟩), ho.log⟩
  · rw [hpop]
    have hreach : Netpack.machine.Reach Netpack.Drained net := ho.net.step (i := .pop) trivial hstep
    refine Order.dispatchMsg hreach (.inr (Nat.succ_pos _)) (by rintro ⟨⟩) ?_
    show net.delivered = s.messages.map Prod.fst ++ [d]
    rw [hdelivered, ho.log]

theorem Order.loop (ho : Order s) {queue : ℕ} (hphase : s.phase = .pop (some queue)) :
    Order (loop queue s) := by
  have hne : s.phase ≠ .pop none := by
    rw [hphase]
    rintro ⟨⟩
  have hqueued : s.net.queue.waiting = [] ∨ 0 < s.forks :=
    ho.queued.imp_right fun hq => hq.resolve_right hne
  unfold Gateserver.loop
  split
  · exact ⟨ho.net, hqueued.imp_right .inl, (by rintro ⟨⟩), ho.log⟩
  rcases pop_cases ho.stored with ⟨hpop, hw⟩ | ⟨d, net, hpop, hstep, hdelivered, hsome⟩
  · rw [hpop]
    exact ⟨ho.net, .inl hw, (by rintro ⟨⟩), ho.log⟩
  · rw [hpop]
    have hreach : Netpack.machine.Reach Netpack.Drained net := ho.net.step (i := .pop) trivial hstep
    refine Order.dispatchMsg hreach (.inr (hqueued.resolve_left hsome)) (by rintro ⟨⟩) ?_
    show net.delivered = s.messages.map Prod.fst ++ [d]
    rw [hdelivered, ho.log]

theorem closeclient_eq (fd : ℕ) (s : State) :
    ∃ c, closeclient fd s = { s with connection := c } := by
  unfold closeclient
  split
  · exact ⟨_, rfl⟩
  · exact ⟨s.connection, rfl⟩

theorem resume_order (rest : Rest) (s : State) : (resume s rest).net = s.net ∧
    (resume s rest).forks = s.forks ∧ (resume s rest).messages = s.messages ∧
    (resume s rest).phase ≠ .idle := by
  cases rest with
  | exit => exact ⟨rfl, rfl, rfl, by rintro ⟨⟩⟩
  | loop queue => exact ⟨rfl, rfl, rfl, by rintro ⟨⟩⟩
  | closeFd fd =>
    obtain ⟨hn, hf, hm⟩ := closeFd_order fd s
    exact ⟨hn, hf, hm, by rintro ⟨⟩⟩

/-- What a step finds, and what it comes to. -/
inductive Took (h : Handler) (s : State) : Label → State → Prop
  | socket {m : Netpack.Message} {net : Netpack.State} (hidle : s.phase = .idle)
      (hnew : ∀ fd ∈ s.socket, m ≠ .accept fd) (hnet : Netpack.step s.net (.message m) = some net) :
      Took h s (.socket m) (dispatch h { s with net := net } (Netpack.lfilter s.net.q m).2)
  | ret {rest : Rest} (hp : s.phase = .handler rest) : Took h s .ret (resume s rest)
  | yield {rest : Rest} (hp : s.phase = .handler rest) :
      Took h s .yield { s with suspended := s.suspended ++ [rest], phase := .forks }
  | raise {rest : Rest} (hp : s.phase = .handler rest) : Took h s .raise { s with phase := .forks }
  | wakeup {i : ℕ} {rest : Rest} (hp : s.phase = .idle ∨ s.phase = .forks)
      (hi : s.suspended[i]? = some rest) : Took h s (.wakeup i)
        { s with suspended := s.suspended.eraseIdx i, phase := .handler rest }
  | closeclient (fd : ℕ) : Took h s (.closeclient fd) (closeclient fd s)
  | pop (hp : s.phase = .pop none) : Took h s .next (dispatchQueue s)
  | loop {queue : ℕ} (hp : s.phase = .pop (some queue)) : Took h s .next (loop queue s)
  | idle (hp : s.phase = .forks) (hforks : s.forks = 0) : Took h s .next { s with phase := .idle }
  | fork (hp : s.phase = .forks) (hforks : s.forks ≠ 0) :
      Took h s .next { s with forks := s.forks - 1, phase := .pop none }

theorem took {l : Label} (hstep : step h s l = some s') : Took h s l s' := by
  cases l with
  | socket m =>
    obtain ⟨hg, hstep⟩ := Option.ite_none_right_eq_some.1 hstep
    obtain ⟨net, hnet, rfl⟩ := Option.map_eq_some_iff.1 hstep
    exact .socket hg.1 hg.2 hnet
  | wakeup i =>
    obtain ⟨hg, hstep⟩ := Option.ite_none_right_eq_some.1 hstep
    obtain ⟨rest, hi, rfl⟩ := Option.map_eq_some_iff.1 hstep
    exact .wakeup hg hi
  | closeclient fd =>
    cases hstep
    exact .closeclient fd
  | ret | yield | raise | next =>
    simp only [Gateserver.step] at hstep
    split at hstep <;> (try split_ifs at hstep) <;> cases hstep <;> constructor <;> assumption

theorem Order.step {l : Label} (ho : Order s) (hstep : step h s l = some s') : Order s' := by
  have hhandler : ∀ {rest}, s.phase = .handler rest → ¬ s.phase = .pop none := by
    intro rest hp
    rw [hp]
    rintro ⟨⟩
  cases took hstep with
  | socket hidle _ hnet => exact ho.socket hidle hnet
  | @ret rest hp =>
    obtain ⟨hn, hf, hm, hidle⟩ := resume_order rest s
    exact ho.of_phase hn hf hm (fun hpop => absurd hpop (hhandler hp)) fun hi => absurd hi hidle
  | yield hp | raise hp =>
    exact ho.of_phase rfl rfl rfl (fun hpop => absurd hpop (hhandler hp)) (by rintro ⟨⟩)
  | wakeup hp =>
    refine ho.of_phase rfl rfl rfl (fun hpop => ?_) (by rintro ⟨⟩)
    rcases hp with hp | hp <;> exact nomatch hp.symm.trans hpop
  | closeclient fd =>
    obtain ⟨c, hc⟩ := closeclient_eq fd s
    rw [hc]
    exact ho.of_phase rfl rfl rfl id ho.idle
  | pop => exact ho.dispatchQueue
  | loop hp => exact ho.loop hp
  | idle hp hforks =>
    exact ho.of_phase rfl rfl rfl (fun hpop => absurd (hp.symm.trans hpop) (by rintro ⟨⟩))
      fun _ => hforks
  | fork => exact ⟨ho.net, .inr (.inr rfl), (by rintro ⟨⟩), ho.log⟩

theorem order_of_reachable {socket : ℕ} (hr : (machine h socket).Reachable s) : Order s :=
  hr.invariant (I := Order)
    ⟨Machine.Reach.init, .inl ((ringList_eq_nil Netpack.stored_init.ok.head _).2 rfl),
      fun _ => rfl, rfl⟩ fun _ _ _ ho _ hstep => ho.step hstep

end Order

section Messages

/-- The packages of an fd that `dispatch_msg` was called with. -/
def State.dispatched (s : State) (fd : ℕ) : List Bytes :=
  ((s.messages.map Prod.fst).filter (·.fd = fd)).map Delivery.package

/-- The packages of an fd that `handler.message` was called with. -/
def State.handled (s : State) (fd : ℕ) : List Bytes :=
  ((s.messages.filter fun m => m.1.fd = fd ∧ m.2 = true)).map fun m => m.1.package

theorem handled_sublist (s : State) (fd : ℕ) : (s.handled fd).Sublist (s.dispatched fd) := by
  rw [State.handled, State.dispatched, List.filter_map, List.map_map]
  refine List.Sublist.map _ (List.monotone_filter_right _ fun m hm => ?_)
  simpa using (of_decide_eq_true hm).1

/-- A step calls `dispatch_msg` at most once, and `handler.message` then for an fd that has an
entry which is not `false`. -/
def Calls (s s' : State) : Prop :=
  s'.messages = s.messages ∨
    ∃ d, s'.messages = s.messages ++ [(d, decide (s.connection d.fd = some true))]

theorem dispatch_calls {net : Netpack.State} (ev : Event) :
    Calls s (dispatch h { s with net := net } ev) := by
  cases ev with
  | none => exact .inl rfl
  | more => exact .inl rfl
  | data fd buffer => exact .inr ⟨_, dispatchMsg_messages ..⟩
  | opened fd =>
    unfold Gateserver.dispatch msgOpen
    simp only []
    split
    · exact .inl rfl
    · exact .inl rfl
  | close fd =>
    unfold Gateserver.dispatch msgClose
    simp only []
    split_ifs
    · exact .inl rfl
    · exact .inl (closeFd_order fd _).2.2
    · exact .inl rfl
  | error fd =>
    unfold Gateserver.dispatch msgError
    simp only []
    split_ifs
    · exact .inl rfl
    · exact .inl rfl
    · exact .inl (closeFd_order fd _).2.2
  | warning fd => exact .inl rfl

theorem pop_calls {s₁ : State} {d : Delivery} {rest : Rest} {next : Phase} {n : ℕ}
    (hpop : s.pop = some (d, s₁)) :
    Calls s (dispatchMsg d rest next { s₁ with forks := n }) := by
  obtain ⟨r, -, heq⟩ := Option.map_eq_some_iff.1 hpop
  obtain ⟨-, rfl⟩ := Prod.mk.inj heq
  exact .inr ⟨d, dispatchMsg_messages ..⟩

theorem step_calls {l : Label} (hstep : step h s l = some s') : Calls s s' := by
  cases took hstep with
  | socket => exact dispatch_calls _
  | @ret rest => exact .inl (resume_order rest s).2.2.1
  | closeclient fd =>
    obtain ⟨c, hc⟩ := closeclient_eq fd s
    rw [hc]
    exact .inl rfl
  | pop =>
    unfold Gateserver.dispatchQueue
    cases hpop : s.pop with
    | none => exact .inl rfl
    | some r => exact pop_calls hpop
  | loop =>
    unfold Gateserver.loop
    split
    · exact .inl rfl
    cases hpop : s.pop with
    | none => exact .inl rfl
    | some r => exact pop_calls hpop
  | yield | raise | wakeup | idle | fork => exact .inl rfl

/-- Each package of an fd is dispatched once, in the order of the stream, whatever the handlers do,
and nothing waits when the next message of the socket comes. -/
theorem dispatched_of_reachable {socket : ℕ} (hr : (machine h socket).Reachable s) :
    (∀ fd, s.dispatched fd ++ s.net.waitingFor fd = s.net.framed fd ∧
      (s.handled fd).Sublist (s.dispatched fd)) ∧
    (s.phase = .idle → s.net.queue.waiting = [] ∧ ∀ fd, s.dispatched fd = s.net.framed fd) ∧
    ∀ l s', step h s l = some s' → Calls s s' := by
  have ho := order_of_reachable hr
  have horder : ∀ fd, s.dispatched fd ++ s.net.waitingFor fd = s.net.framed fd := by
    intro fd
    rw [State.dispatched, ho.log]
    exact (Netpack.inOrder_of_reach ho.net).2 fd
  refine ⟨fun fd => ⟨horder fd, handled_sublist s fd⟩, fun hidle => ⟨ho.waiting hidle, fun fd => ?_⟩, fun l s' => step_calls⟩
  rw [← horder fd, Netpack.State.waitingFor, ho.waiting hidle]
  exact (List.append_nil _).symm

/-- Three packages in one chunk: the handler of the first one yields and raises an error later, those
of the others return before. -/
theorem dispatched_of_yield : ∃ s, (machine ⟨8, true, true, true⟩ 1).Reachable s ∧
    s.net.queue.waiting = [] ∧ s.net.framed 7 = [[65], [66], [67]] ∧
    s.handled 7 = [[65], [66], [67]] := by
  have hl : ((machine ⟨8, true, true, true⟩ 1).run (fun _ _ => True) (init 1)
      [.socket (.accept 7), .ret, .next, .socket (.data 7 [0, 1, 65, 0, 1, 66, 0, 1, 67]), .next,
        .yield, .next, .next, .ret, .next, .ret, .next, .wakeup 0, .raise, .next, .next,
        .next]).map (fun s => (s.phase, s.dispatched 7, s.handled 7)) =
      some (.idle, [[65], [66], [67]], [[65], [66], [67]]) := by
    decide +kernel
  obtain ⟨s, hr, he⟩ := Machine.exists_reach hl
  obtain ⟨hidle, he⟩ := Prod.mk.inj he
  obtain ⟨hdispatched, hhandled⟩ := Prod.mk.inj he
  obtain ⟨hw, hall⟩ := (dispatched_of_reachable hr).2.1 hidle
  exact ⟨s, hr, hw, (hall 7).symm.trans hdispatched, hhandled⟩

/-- The handler of the first package closes the client: the second one is dropped. -/
theorem not_handled_of_closeclient : ∃ s, (machine ⟨8, true, true, true⟩ 1).Reachable s ∧
    s.phase = .idle ∧ s.net.framed 7 = [[65], [66]] ∧ s.handled 7 = [[65]] := by
  have hl : ((machine ⟨8, true, true, true⟩ 1).run (fun _ _ => True) (init 1)
      [.socket (.accept 7), .ret, .next, .socket (.data 7 [0, 1, 65, 0, 1, 66]), .next,
        .closeclient 7, .ret, .next, .next, .next, .next, .next]).map (fun s =>
          (s.phase, s.net.framed 7, s.handled 7)) = some (.idle, [[65], [66]], [[65]]) := by
    decide +kernel
  obtain ⟨s, hr, he⟩ := Machine.exists_reach hl
  obtain ⟨hidle, he⟩ := Prod.mk.inj he
  obtain ⟨hframed, hhandled⟩ := Prod.mk.inj he
  exact ⟨s, hr, hidle, hframed, hhandled⟩

end Messages

section Packed

open Framing List
open Netpack (lpack)

/-- Behind the packages of earlier streams of the fd, those messages are dispatched that have come in
whole, in their order. -/
def State.Arrived (s : State) (fd : ℕ) (messages packed : List Bytes) : Prop :=
  ∃ n, s.dispatched fd ++ s.net.waitingFor fd =
      (s.net.ended fd).flatMap (packages 2) ++ messages.take n ∧
    (packed.take n).flatten <+: s.net.stream fd ∧
    (messages.length ≤ n ∨ (s.net.stream fd).length < (packed.take (n + 1)).flatten.length) ∧
    (s.phase = .idle → s.net.waitingFor fd = [])

/-- What a peer has packed with `lpack` is dispatched as it was, however it comes in. -/
theorem arrived_of_packed {socket fd : ℕ} {messages packed : List Bytes}
    (hr : (machine h socket).Reachable s)
    (hpacked : Forall₂ (fun m b => lpack m = .ok b) messages packed)
    (hstream : s.net.stream fd <+: packed.flatten) : s.Arrived fd messages packed := by
  have ho := order_of_reachable hr
  have hframes : Forall₂ (· = ·) (messages.map (frame 2)) packed :=
    forall₂_map_left_iff.2 (hpacked.imp fun _ _ hb => (Netpack.lpack_eq hb).2)
  obtain rfl := forall₂_eq_eq_eq ▸ hframes
  have hok := forall₂_same.1 (forall₂_map_right_iff.1 hpacked)
  obtain ⟨n, hms, hpre, hnext⟩ := packages_prefix two_pos messages
    (fun m hm => (Netpack.lpack_eq (hok m hm)).1) (flatMap_def ▸ hstream)
  simp only [State.Arrived, ← map_take, ← flatMap_def]
  refine ⟨n, ?_, hpre, hnext, fun hidle => ?_⟩
  · rw [State.dispatched, ho.log, ← hms]
    exact (Netpack.inOrder_of_reach ho.net).2 fd
  · rw [Netpack.State.waitingFor, ho.waiting hidle]
    rfl

/-- Half of the second message has come. -/
theorem arrived_of_packed_half : ∃ s, (machine ⟨8, true, true, true⟩ 1).Reachable s ∧
    s.net.stream 7 = [0, 1, 65, 0, 1] ∧ s.Arrived 7 [[65], [66]] [[0, 1, 65], [0, 1, 66]] := by
  have hl : ((machine ⟨8, true, true, true⟩ 1).run (fun _ _ => True) (init 1)
      [.socket (.accept 7), .ret, .next, .socket (.data 7 [0, 1, 65, 0, 1])]).map
      (fun s => s.net.stream 7) = some [0, 1, 65, 0, 1] := by
    decide +kernel
  obtain ⟨s, hr, he⟩ := Machine.exists_reach hl
  refine ⟨s, hr, he, arrived_of_packed hr (.cons rfl (.cons rfl .nil)) ?_⟩
  rw [he]
  exact ⟨[66], rfl⟩

end Packed

end Gateserver

end SkynetGame
