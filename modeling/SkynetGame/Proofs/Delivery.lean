import SkynetGame.Proofs.Scheduler

/-!
# What becomes of the messages

The log of a run says which messages a queue accepted and which left it for good: delivered to the
callback, freed because there is none, or handed to the drop function. What a queue accepted is,
in order, what left it, what the call that serves it has in hand, and what waits in it
(`Server.Account`).
-/

namespace SkynetGame

namespace MqMem

variable {m m' : MqMem} {q x : ℕ} {o : Option SkynetMessage}

/-- The messages waiting in queue `x`. -/
def waiting (m : MqMem) (x : ℕ) : List SkynetMessage := (m.mq x).waiting

@[simp] theorem check_mq (b : Bool) (f : Fault) : (m.check b f).mq = m.mq := by
  unfold check
  split_ifs <;> rfl

@[simp] theorem touch_mq : (m.touch q).mq = m.mq := check_mq _ _

theorem waiting_write {y : MessageQueue} (h : y.waiting = m.waiting q) :
    (m.write q y).waiting = m.waiting := by
  funext x
  by_cases hx : x = q
  · subst hx
    simpa [waiting, write] using h
  · simp [waiting, write, hx]

theorem waiting_congr (h : m'.mq = m.mq) : m'.waiting = m.waiting := by
  funext x
  simp only [waiting, h]

@[simp] theorem waiting_check (b : Bool) (f : Fault) : (m.check b f).waiting = m.waiting :=
  waiting_congr (check_mq b f)

@[simp] theorem waiting_touch : (m.touch q).waiting = m.waiting := waiting_congr touch_mq

@[simp] theorem waiting_globalmqPush : (m.skynetGlobalmqPush q).waiting = m.waiting := by
  unfold skynetGlobalmqPush
  dsimp only
  split
  · refine (waiting_congr rfl).trans ((waiting_write ?_).trans ?_)
    · simp [waiting]
      rfl
    · simp
  · exact waiting_congr (by simp)

@[simp] theorem waiting_globalmqPop : m.skynetGlobalmqPop.1.waiting = m.waiting := by
  unfold skynetGlobalmqPop
  split
  · rfl
  · refine (waiting_congr rfl).trans ((waiting_write ?_).trans ?_)
    · rfl
    · split_ifs
      · exact waiting_congr (by simp)
      · simp

theorem waiting_of_globalmqPop {o : Option ℕ} (h : m.skynetGlobalmqPop = (m', o)) :
    m'.waiting = m.waiting := by
  have := waiting_globalmqPop (m := m)
  rwa [h] at this

@[simp] theorem waiting_mqMarkRelease : (m.skynetMqMarkRelease q).waiting = m.waiting := by
  unfold skynetMqMarkRelease
  dsimp only
  split_ifs
  · refine waiting_globalmqPush.trans ((waiting_write ?_).trans ?_)
    · rfl
    · simp
  · refine (waiting_write ?_).trans ?_
    · rfl
    · simp

@[simp] theorem waiting_mqRelease : (m.skynetMqRelease q).1.waiting = m.waiting := by
  unfold skynetMqRelease
  dsimp only
  split_ifs <;> simp

@[simp] theorem waiting_release : (m.release q).waiting = m.waiting := by
  refine (waiting_write ?_).trans ?_
  · rfl
  · simp

@[simp] theorem waiting_mqOverload : (m.skynetMqOverload q).1.waiting = m.waiting := by
  refine (waiting_write ?_).trans ?_
  · unfold MessageQueue.takeOverload
    split_ifs <;> rfl
  · simp

theorem waiting_mqPush (hf : (m.mq q).Fits) (msg : SkynetMessage) :
    (m.skynetMqPush q msg).waiting
      = Function.update m.waiting q (m.waiting q ++ [msg]) := by
  have hput := (MessageQueue.put_spec hf msg).1
  have hwrite : ∀ (m' : MqMem) (y : MessageQueue), m'.mq = m.mq →
      y.waiting = (m.mq q).waiting ++ [msg] →
      (m'.write q y).waiting = Function.update m.waiting q (m.waiting q ++ [msg]) := by
    intro m' y hm hy
    funext x
    by_cases hx : x = q
    · subst hx
      simpa [waiting, write] using hy
    · simp [waiting, write, hx, hm]
  unfold skynetMqPush
  dsimp only
  split_ifs
  · exact waiting_globalmqPush.trans (hwrite _ _ (by simp) (by simp only [check_mq, touch_mq]; exact hput))
  · exact hwrite _ _ (by simp) (by simpa using hput)

theorem waiting_mqPop (hf : (m.mq q).Fits) (h : m.skynetMqPop q = (m', o)) :
    m.waiting q = o.toList ++ m'.waiting q ∧ ∀ x, x ≠ q → m'.waiting x = m.waiting x := by
  unfold skynetMqPop at h
  simp only [touch_mq, Prod.mk.injEq] at h
  obtain ⟨rfl, rfl⟩ := h
  refine ⟨?_, fun x hx => by simp [waiting, write, hx]⟩
  simp only [waiting, write, Function.update_self]
  rcases hp : (m.mq q).pop with ⟨y, _ | msg⟩
  · obtain ⟨-, rfl⟩ := MessageQueue.pop_none hf hp
    rfl
  · exact (MessageQueue.pop_some hf hp).1

theorem waiting_of_mqPop (hf : (m.mq q).Fits) (h : m.skynetMqPop q = (m', none)) :
    m'.waiting = m.waiting := by
  obtain ⟨h1, h2⟩ := waiting_mqPop hf h
  funext x
  by_cases hx : x = q
  · rw [hx]
    exact h1.symm
  · exact h2 x hx

theorem waiting_mqCreate (h : m.waiting m.nmq = []) (handle : ℕ) :
    (m.skynetMqCreate handle).1.waiting = m.waiting := by
  refine (waiting_congr rfl).trans (waiting_write ?_)
  rw [h]
  exact MessageQueue.create_waiting handle

end MqMem

namespace Event

/-- What the event puts into queue `x`. -/
def accepts (x : ℕ) : Event → List SkynetMessage
  | accept q msg => if q = x then [msg] else []
  | _ => []

/-- What the event takes away from queue `x` for good. -/
def settles (x : ℕ) : Event → List SkynetMessage
  | deliver q _ msg | discard q msg | drop q msg => if q = x then [msg] else []
  | _ => []

/-- Whether queue `x` is being dropped or freed by the event. -/
def Ends (x : ℕ) : Event → Prop
  | drop q _ | free q => q = x
  | _ => False

/-- Whether the event is one of queue `x` in use. -/
def Uses (x : ℕ) : Event → Prop
  | accept q _ | deliver q _ _ | discard q _ => q = x
  | _ => False

end Event

namespace Proc

/-- The message of queue `x` that a call has popped and not yet settled. -/
def hand (x : ℕ) : Proc → List SkynetMessage
  | popped _ q _ _ _ msg | overload _ q _ _ _ msg | dispatch _ q _ _ _ msg =>
    if q = x then [msg] else []
  | mqRelease _ k | drop _ k | free _ k | release _ k | delete _ k => k.hand x
  | _ => []

theorem hand_length_le (x : ℕ) (p : Proc) : (p.hand x).length ≤ p.holds x := by
  induction p with
  | popped w q c i n msg | overload w q c i n msg | dispatch w q c i n msg =>
    simp only [holds, hand]
    split_ifs <;> simp
  | mqRelease q k ih | drop q k ih | free q k ih =>
    simp only [holds, hand]
    omega
  | release c k ih | delete c k ih => exact ih
  | _ => exact Nat.zero_le _

theorem hand_of_holds {x : ℕ} {p : Proc} (h : p.holds x = 0) : p.hand x = [] := by
  have := hand_length_le x p
  exact List.eq_nil_of_length_eq_zero (by omega)

end Proc

namespace Server

/-- The messages that queue `x` accepted. -/
def accepted (s : Server) (x : ℕ) : List SkynetMessage := s.log.flatMap (Event.accepts x)

/-- The messages that left queue `x` for good. -/
def settled (s : Server) (x : ℕ) : List SkynetMessage := s.log.flatMap (Event.settles x)

/-- The messages of queue `x` that running calls have in hand. -/
def inHand (s : Server) (x : ℕ) : List SkynetMessage := s.procs.flatMap (Proc.hand x)

/-- When an event may happen. -/
def Legal (s : Server) : Event → Prop
  | .accept q _ | .discard q _ => (s.mq q).release = 0
  | .deliver q c _ => (s.mq q).release = 0 ∧ s.Has c q
  | .drop q _ | .free q => q < s.nmq ∧ (s.mq q).release ≠ 0

/-- What a step does to the messages, where a call at `p` goes on to `p'` and `es` happens. -/
structure Effect (s s' : Server) (p p' : Proc) (es : List Event) : Prop where
  log : s'.log = s.log ++ es
  flow : ∀ x, p.hand x ++ s.waiting x ++ es.flatMap (Event.accepts x)
    = es.flatMap (Event.settles x) ++ p'.hand x ++ s'.waiting x
  other : ∀ x, p.holds x = 0 → es.flatMap (Event.settles x) = [] ∧ p'.hand x = []
  legal : ∀ e ∈ es, s.Legal e

section Effect

variable {s s' s₁ : Server} {l : List ℕ} {t : ℕ} {r : Bool} {p p' : Proc}

theorem Effect.quiet (hlog : s'.log = s.log) (hw : s'.waiting = s.waiting)
    (hh : ∀ x, p'.hand x = p.hand x) : Effect s s' p p' [] where
  log := by simp [hlog]
  flow x := by simp [hw, hh]
  other x hx := ⟨rfl, (hh x).trans (Proc.hand_of_holds hx)⟩
  legal := by simp

theorem Effect.pop {q : ℕ} {m : MqMem} {msg : SkynetMessage} (hf : (s.mq q).Fits)
    (hpop : s.toMqMem.skynetMqPop q = (m, some msg)) (hlog : s'.log = s.log)
    (hm : s'.toMqMem = m) (hq : p.holds q ≠ 0) (hh : ∀ x, p.hand x = [])
    (hh' : ∀ x, p'.hand x = if q = x then [msg] else []) : Effect s s' p p' [] := by
  obtain ⟨h1, h2⟩ := MqMem.waiting_mqPop hf hpop
  refine ⟨by simp [hlog], fun x => ?_, fun x hx => ⟨rfl, ?_⟩, by simp⟩
  · by_cases hx : x = q
    · subst hx
      simp [hh, hh', hm, h1]
    · simp [hh, hh', hm, h2 x hx, Ne.symm hx]
  · rw [hh', if_neg]
    rintro rfl
    exact hq hx

theorem Effect.settle {q : ℕ} {msg : SkynetMessage} {e : Event} (hlog : s'.log = s.log ++ [e])
    (hw : s'.waiting = s.waiting) (hq : p.holds q ≠ 0)
    (hh : ∀ x, p.hand x = if q = x then [msg] else []) (hh' : ∀ x, p'.hand x = [])
    (ha : ∀ x, e.accepts x = []) (hs : ∀ x, e.settles x = if q = x then [msg] else [])
    (hl : s.Legal e) : Effect s s' p p' [e] where
  log := hlog
  flow x := by simp [hw, hh, hh', ha, hs]
  other x hx := by
    have hne : q ≠ x := by
      rintro rfl
      exact hq hx
    simp [hs, hh', hne]
  legal := by simpa using hl

theorem Effect.push {c : ℕ} {msg : SkynetMessage} (hf : ∀ q, (s.mq q).Fits)
    (hlog : s'.log = s.log ++ [.accept (s.ctx c).queue msg])
    (hm : s'.toMqMem = s.skynetMqPush (s.ctx c).queue msg) (hh : ∀ x, p.hand x = [])
    (hh' : ∀ x, p'.hand x = []) (hr : (s.mq (s.ctx c).queue).release = 0) :
    Effect s s' p p' [.accept (s.ctx c).queue msg] where
  log := hlog
  flow x := by
    have hw := MqMem.waiting_mqPush (hf (s.ctx c).queue) msg
    by_cases hx : x = (s.ctx c).queue
    · subst hx
      simp [hh, hh', hm, hw, Event.accepts, Event.settles]
    · simp [hh, hh', hm, hw, hx, Ne.symm hx, Event.accepts, Event.settles]
  other x _ := by simp [hh', Event.settles]
  legal := by simpa [Legal] using hr

theorem Inv.effect (h : s.Inv l) (hp : s.procs[t]? = some p) (ht : s.Tame (.run t r)) :
    ∃ es, Effect s (s.exec r p).1 p (s.exec r p).2 es := by
  have hpi := h.p _ (List.mem_of_getElem? hp)
  have hfits := h.q.ok.fits
  cases p with
  | worker w o =>
    rcases o with _ | q
    · rcases hpop : s.toMqMem.skynetGlobalmqPop with ⟨m, _ | q⟩ <;> simp only [exec, hpop] <;>
        exact ⟨[], .quiet rfl (MqMem.waiting_of_globalmqPop hpop) fun _ => rfl⟩
    · exact ⟨[], .quiet rfl rfl fun _ => rfl⟩
  | turnPop w => exact ⟨[], .quiet rfl MqMem.waiting_globalmqPop fun _ => rfl⟩
  | grab w q =>
    rcases hs : s.slot (s.mq q).handle with _ | c <;> simp only [exec, hs] <;>
      exact ⟨[], .quiet rfl MqMem.waiting_touch fun _ => rfl⟩
  | loop w q c i n =>
    by_cases hin : i < n
    · rcases hpop : s.toMqMem.skynetMqPop q with ⟨m, _ | msg⟩ <;> simp only [exec, hin, hpop, if_true]
      · exact ⟨[], .quiet rfl (MqMem.waiting_of_mqPop (hfits q) hpop) fun _ => rfl⟩
      · exact ⟨[], .pop (hfits q) hpop rfl rfl (by simp [Proc.holds]) (fun _ => rfl) fun _ => rfl⟩
    · simp only [exec, hin, if_false]
      rcases hpop : (s.check (q = (s.ctx c).queue) .otherQueue).skynetGlobalmqPop with
        ⟨m, _ | nq⟩ <;>
        exact ⟨[], .quiet rfl ((MqMem.waiting_of_globalmqPop hpop).trans (MqMem.waiting_check _ _))
          fun _ => rfl⟩
  | popped w q c i n msg =>
    by_cases hi : i = 0 ∧ 0 ≤ w <;> simp only [exec, hi, if_false]
    · exact ⟨[], .quiet rfl MqMem.waiting_touch fun _ => rfl⟩
    · exact ⟨[], .quiet rfl rfl fun _ => rfl⟩
  | overload w q c i n msg => exact ⟨[], .quiet rfl MqMem.waiting_mqOverload fun _ => rfl⟩
  | dispatch w q c i n msg =>
    have hrefs : 1 ≤ s.refs c := by simpa [Proc.refs] using le_refs hp c
    have hrel := (h.owned (h.c.live_of_refs hrefs) hpi.1).2
    rcases hcb : (s.ctx c).cb with _ | _ <;> simp only [exec, hcb, if_true, Bool.false_eq_true,
      if_false]
    · exact ⟨_, .settle rfl rfl (by simp [Proc.holds]) (fun _ => rfl) (fun _ => rfl) (fun _ => rfl)
        (fun _ => rfl) hrel⟩
    · exact ⟨_, .settle rfl (MqMem.waiting_check _ _) (by simp [Proc.holds]) (fun _ => rfl)
        (fun _ => rfl) (fun _ => rfl) (fun _ => rfl) ⟨hrel, hpi.1⟩⟩
  | mqRelease q k =>
    have hh : ∀ x, (if (s.skynetMqRelease q).2 then Proc.drop q k else k).hand x = k.hand x := by
      intro x
      split_ifs <;> rfl
    exact ⟨[], .quiet rfl MqMem.waiting_mqRelease hh⟩
  | drop q k =>
    obtain ⟨hrel, hk⟩ := hpi
    have hle := h.q.held_le q
    have hheld := le_held hp q
    rcases hpop : s.toMqMem.skynetMqPop q with ⟨m, _ | msg⟩ <;> simp only [exec, hpop]
    · exact ⟨[], .quiet rfl (MqMem.waiting_of_mqPop (hfits q) hpop) fun _ => rfl⟩
    · obtain ⟨h1, h2⟩ := MqMem.waiting_mqPop (hfits q) hpop
      have hempty : k.hand q = [] := Proc.hand_of_holds (by
        simp only [Proc.holds, if_true] at hheld
        omega)
      refine ⟨[.drop q msg], rfl, fun x => ?_, fun x hx => ?_, by simpa [Legal] using hrel⟩
      · by_cases hx : x = q
        · subst hx
          simp [Proc.hand, Event.accepts, Event.settles, hempty, h1, emit]
        · simp [Proc.hand, Event.accepts, Event.settles, h2 x hx, Ne.symm hx, emit]
      · have hne : q ≠ x := by
          rintro rfl
          simp [Proc.holds] at hx
        exact ⟨by simp [Event.settles, hne], Proc.hand_of_holds hx⟩
  | free q k =>
    refine ⟨[.free q], rfl, fun x => ?_, fun x hx => ⟨rfl, Proc.hand_of_holds (p := .free q k) hx⟩,
      by simpa [Legal] using hpi.1⟩
    simp [exec, emit, Proc.hand, Event.accepts, Event.settles]
  | release c k =>
    have hh : ∀ x, (if (s.decRef c).2 then Proc.delete c k else k).hand x = k.hand x := by
      intro x
      split_ifs <;> rfl
    exact ⟨[], .quiet rfl rfl hh⟩
  | delete c k => exact ⟨[], .quiet rfl MqMem.waiting_mqMarkRelease fun _ => rfl⟩
  | failDelete c k q => exact ⟨[], .quiet rfl MqMem.waiting_mqMarkRelease fun _ => rfl⟩
  | pushing c msg =>
    simp only [Tame, hp] at ht
    have hrefs : 1 ≤ s.refs c := by simpa [Proc.refs] using le_refs hp c
    exact ⟨_, .push hfits rfl rfl (fun _ => rfl) (fun _ => rfl)
      (h.o.owner c (h.c.live_of_refs hrefs) ht.1).2⟩
  | registered c =>
    have hnew : s.waiting s.nmq = [] := (h.q.dead _ (by simp [MqMem.alive])).2
    exact ⟨[], .quiet rfl (MqMem.waiting_mqCreate hnew _) fun _ => rfl⟩
  | starting c q =>
    rcases r with _ | _ <;> simp only [exec, if_true, Bool.false_eq_true, if_false] <;>
      refine ⟨[], .quiet rfl rfl fun x => ?_⟩ <;> split_ifs <;> rfl
  | failRetire c k q =>
    rcases hs : s.slot k with _ | c' <;> simp only [exec, skynetHandleRetire, hs] <;>
      exact ⟨[], .quiet rfl rfl fun _ => rfl⟩
  | requeue w q c nq => exact ⟨[], .quiet rfl MqMem.waiting_globalmqPush fun _ => rfl⟩
  | publish q => exact ⟨[], .quiet rfl MqMem.waiting_globalmqPush fun _ => rfl⟩
  | call w q c i n => exact ⟨[], .quiet rfl rfl fun _ => rfl⟩
  | holding c => exact ⟨[], .quiet rfl rfl fun _ => rfl⟩
  | started c q => exact ⟨[], .quiet rfl rfl fun _ => rfl⟩
  | done => exact ⟨[], .quiet rfl rfl fun _ => rfl⟩

end Effect

/-- What stays true of an event that has happened. -/
def Past (s : Server) : Event → Prop
  | .deliver q c _ => s.Has c q
  | .drop q _ | .free q => q < s.nmq ∧ (s.mq q).release ≠ 0
  | _ => True

/-- What a queue accepted is, in order, what left it, what a call has in hand of it, and what
waits in it; nothing of a queue that is dropped or freed is accepted or delivered afterwards. -/
structure Account (s : Server) : Prop where
  flow : ∀ x, s.accepted x = s.settled x ++ s.inHand x ++ s.waiting x
  past : ∀ e ∈ s.log, s.Past e
  order : s.log.Pairwise fun e e' => ∀ q, e.Ends q → ¬ e'.Uses q

section Account

variable {s s' : Server} {l l' : List ℕ} {t : ℕ} {r : Bool} {p p' : Proc} {e e' : Event}
  {es : List Event}

theorem Past.later (h : s.Past e) (hl : Later s s') : s'.Past e := by
  cases e with
  | deliver q c msg => exact Has.later h hl
  | drop q msg | free q => exact ⟨h.1.trans_le hl.nmq, (hl.release q h.1 h.2).1⟩
  | accept q msg | discard q msg => trivial

theorem Legal.past (h : s.Legal e) : s.Past e := by
  cases e with
  | deliver q c msg => exact h.2
  | drop q msg | free q => exact h
  | accept q msg | discard q msg => trivial

theorem Past.release {q : ℕ} (h : s.Past e) (he : e.Ends q) : (s.mq q).release ≠ 0 := by
  cases e <;> simp only [Event.Ends] at he
  all_goals
    subst he
    exact h.2

theorem Legal.release {q : ℕ} (h : s.Legal e) (he : e.Uses q) : (s.mq q).release = 0 := by
  cases e <;> simp only [Event.Uses] at he <;> subst he
  · exact h
  · exact h.1
  · exact h

/-- A step whose effect on the messages is known keeps the account. -/
theorem Account.step (h : s.Account) (he : Effect s s' p p' es) (hl : Later s s')
    (hother : ∀ x, p.holds x = 0 → p'.hand x = [] → s'.inHand x = s.inHand x)
    (hself : ∀ x, p.holds x ≠ 0 → s.inHand x = p.hand x ∧ s'.inHand x = p'.hand x) :
    s'.Account where
  flow x := by
    have hacc : s'.accepted x = s.accepted x ++ es.flatMap (Event.accepts x) := by
      simp [accepted, he.log]
    have hset : s'.settled x = s.settled x ++ es.flatMap (Event.settles x) := by
      simp [settled, he.log]
    have hflow := he.flow x
    by_cases hx : p.holds x = 0
    · obtain ⟨h1, h2⟩ := he.other x hx
      rw [Proc.hand_of_holds hx, h1, h2] at hflow
      simp only [List.nil_append] at hflow
      rw [hacc, hset, h1, h.flow, hother x hx h2, ← hflow]
      simp
    · obtain ⟨h1, h2⟩ := hself x hx
      rw [hacc, hset, h.flow, h1, h2]
      simp only [List.append_assoc] at hflow ⊢
      rw [hflow]
  past e hmem := by
    rw [he.log, List.mem_append] at hmem
    rcases hmem with hmem | hmem
    · exact (h.past e hmem).later hl
    · exact (he.legal e hmem).past.later hl
  order := by
    rw [he.log, List.pairwise_append]
    refine ⟨h.order, List.pairwise_of_forall_mem_list fun a ha b hb q hq hu => ?_,
      fun a ha b hb q hq hu => ?_⟩
    · exact (he.legal a ha).past.release hq ((he.legal b hb).release hu)
    · exact (h.past a ha).release hq ((he.legal b hb).release hu)

theorem Account.run (h : s.Account) (hi : s.Inv l) (hp : s.procs[t]? = some p)
    (ht : s.Tame (.run t r)) (hl : Later s (s.after t r p)) : (s.after t r p).Account := by
  obtain ⟨es, he⟩ := hi.effect hp ht
  have he' : Effect s (s.after t r p) p (s.exec r p).2 es := ⟨he.log, he.flow, he.other, he.legal⟩
  refine h.step he' hl (fun x hx hh => ?_) (fun x hx => ?_)
  · exact flatMap_set_of_eq _ hp (hh.trans (Proc.hand_of_holds hx).symm)
  · refine flatMap_set_of_alone _ hp (fun j b hj hb => Proc.hand_of_holds ?_) _
    have h1 := add_le_tally (Proc.holds x) hj hb hp
    have h2 := hi.q.held_le x
    simp only [held] at h2
    omega

theorem Account.start (h : s.Account) (he : Effect s s' .done p' es) (hl : Later s s')
    (hh : s'.inHand = s.inHand) : s'.Account :=
  h.step he hl (fun x _ _ => congrFun hh x) fun _ hx => absurd rfl hx

theorem inHand_spawn (hp : ∀ x, p.hand x = []) : (s.spawn p).inHand = s.inHand := by
  funext x
  simp [inHand, spawn, hp]

theorem Account.keep {a : Action} (h : s.Account) (hi : s.Inv l) (ht : s.Tame a)
    (hst : s.step a = some s') (hl : Later s s') : s'.Account := by
  obtain ⟨-, ⟨w, rfl, rfl⟩ | ⟨k, junk, rfl, hk, rfl⟩ | ⟨k, c, msg, rfl, hs, rfl⟩ |
    ⟨k, c, rfl, hs, rfl⟩ | ⟨k, c, rfl, hs, rfl⟩ | ⟨c, cb, rfl, rfl⟩ | ⟨t, c, msg, rfl, hp, rfl⟩ |
    ⟨t, r, p, rfl, hp, rfl⟩⟩ := step_cases hst
  · exact h.start (.quiet rfl rfl fun _ => rfl) hl (inHand_spawn fun _ => rfl)
  · exact h.start (.quiet rfl rfl fun _ => rfl) hl (inHand_spawn fun _ => rfl)
  · exact h.start (.quiet rfl rfl fun _ => rfl) hl (inHand_spawn fun _ => rfl)
  · exact h.start (.quiet rfl rfl fun _ => rfl) hl (inHand_spawn fun _ => rfl)
  · exact h.start (.quiet rfl rfl fun _ => rfl) hl (inHand_spawn fun _ => rfl)
  · exact h.start (.quiet rfl rfl fun _ => rfl) hl rfl
  · simp only [Tame, hp] at ht
    have hrefs : 1 ≤ s.refs c := by simpa [Proc.refs] using le_refs hp c
    have hrel := (hi.o.owner c (hi.c.live_of_refs hrefs) ht.1).2
    have he : Effect s (s.pushTo c msg) .done .done [.accept (s.ctx c).queue msg] :=
      .push hi.q.ok.fits rfl rfl (fun _ => rfl) (fun _ => rfl) hrel
    exact h.start he hl rfl
  · exact h.run hi hp ht hl

theorem Account.initial : initial.Account where
  flow _ := (MessageQueue.create_waiting 0).symm
  past _ he := by cases he
  order := .nil

end Account

/-- The account in every state that a run of tame steps reaches. -/
theorem Account.reach {s : Server} (h : machine.Reach Tame s) :
    (∃ l, s.Inv l) ∧ s.Account := by
  refine h.invariant (I := fun s => (∃ l, s.Inv l) ∧ s.Account) ⟨⟨[], Inv.initial⟩, .initial⟩ ?_
  rintro s a s' ⟨⟨l, hi⟩, ha⟩ ht hst
  obtain ⟨l', hk⟩ := hi.step ht hst
  exact ⟨⟨l', hk.inv⟩, ha.keep hi ht hst hk.later⟩

/-- What becomes of the messages of every queue. -/
structure Delivered (s : Server) : Prop where
  flow : ∀ q, s.accepted q = s.settled q ++ s.inHand q ++ s.waiting q
  hand : ∀ q, (s.inHand q).length ≤ 1
  kept : ∀ q, s.inHand q ++ s.waiting q ≠ [] → s.alive q ∧ (s.held q = 1 ∨
    ∃ l, LinkedQueue (fun q => (s.mq q).next) s.head s.tail l ∧ q ∈ l)
  freed : ∀ q, ¬ s.alive q → s.accepted q = s.settled q
  own : ∀ q c msg, .deliver q c msg ∈ s.log → (s.ctx c).queue = q
  dropped : ∀ q msg, .drop q msg ∈ s.log → (s.mq q).release ≠ 0
  order : s.log.Pairwise fun e e' => ∀ q, e.Ends q → ¬ e'.Uses q

end Server

end SkynetGame
