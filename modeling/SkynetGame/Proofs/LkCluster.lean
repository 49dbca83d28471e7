import SkynetGame.Proofs.LkClusterInv

/-!
# Every call with a timeout is answered

`mcall` goes through the global variable `names` in place of the list it is given: what it is to return
it returns where they are the same. A reply that comes while the caller is still to be resumed after
the timer changes what the caller returns; where no coroutine ends with an error, nothing comes before
`dispatch_wakeup` has resumed all that it is to resume.
-/

namespace SkynetGame

open List

namespace LkCluster

variable {ν β : Type}

/-- The closures of the `rawcall` numbered `i`. -/
def Label.Comes (i : ℕ) : Label ν β → Prop
  | .fork k _ => k = i
  | .reply k _ => k = i
  | .timer k => k = i
  | _ => False

/-- The caller of a `rawcall` waits for something that is to come, or is to be resumed; or it went on
once, with what came first. -/
def Rawcall.Answered (s : State ν β) (i : ℕ) (x : Rawcall ν β) : Prop :=
  (x.ends = [] ∧ s.mode x.caller = .waiting i ∧ (x.timer = true ∨ x.caller ∈ s.wakeupSession)) ∨
    ∃ v, x.ends = [v] ∧ x.first = some v

/-- The caller of an `mcall` waits for some of the coroutines, or is to be resumed; or it went on
once, after all of them, with what the call for each of the names returned. -/
def Mcall.Answered (s : State ν β) (j : ℕ) (m : Mcall ν β) : Prop :=
  (m.ends = [] ∧ s.mode m.caller = .gathering j ∧
      (0 < m.left ∨ m.caller ∈ s.wakeupSession)) ∨
    ∃ t, m.ends = [some t] ∧ (∀ n, (t n).isSome ↔ n ∈ m.node) ∧
      (∀ n ∈ m.node, ∃ i, Forks s j n i) ∧ (∀ n i, Forks s j n i → (s.rawcalls i).ends ≠ []) ∧
      ∀ n v, t n = some v → ∃ i, Forks s j n i ∧ (s.rawcalls i).ends = [v]

/-- Every call is answered, and what comes for one after the first wakes nobody. -/
structure Answers [DecidableEq ν] (s : State ν β) : Prop where
  rawcalls : ∀ i < s.nRawcalls, (s.rawcalls i).Answered s i
  late : ∀ i < s.nRawcalls, (s.rawcalls i).first ≠ none → ∀ l s', Label.Comes i l →
    s.step l = some s' → s'.mode = s.mode ∧ s'.wakeupSession = s.wakeupSession
  mcalls : ∀ j < s.nMcalls, (s.mcalls j).node ≠ [] → (s.mcalls j).Answered s j

variable [DecidableEq ν] {s s' : State ν β}

omit [DecidableEq ν] in
theorem Inv.selfCo (hi : Inv s) {i : ℕ} (hlt : i < s.nRawcalls) (hfirst : (s.rawcalls i).first ≠ none) :
    (s.rawcalls i).selfCo = false := by
  rcases hi.rawcalls i hlt with ho | hc
  · rcases ho.came with ⟨hnone, -⟩ | ⟨-, hself, -⟩
    · exact absurd hnone hfirst
    · exact hself
  · exact hc.selfCo

omit [DecidableEq ν] in
theorem replied_late {i : ℕ} {v : β} (hself : (s.rawcalls i).selfCo = false) :
    (s.replied i v).mode = s.mode ∧ (s.replied i v).wakeupSession = s.wakeupSession := by
  rw [State.replied, wakeCaller_late (by exact hself)]
  exact ⟨rfl, rfl⟩

theorem Inv.late (hi : Inv s) {i : ℕ} (hlt : i < s.nRawcalls) (hfirst : (s.rawcalls i).first ≠ none)
    {l : Label ν β} (hl : Label.Comes i l) (h : s.step l = some s') :
    s'.mode = s.mode ∧ s'.wakeupSession = s.wakeupSession := by
  have hself := hi.selfCo hlt hfirst
  cases l with
  | fork k o =>
    obtain rfl : k = i := hl
    obtain ⟨-, rfl⟩ := of_guard h
    cases o with
    | unpackable => exact ⟨rfl, rfl⟩
    | refused v => exact replied_late hself
    | sent => exact ⟨rfl, rfl⟩
  | reply k v =>
    obtain rfl : k = i := hl
    obtain ⟨-, rfl⟩ := of_guard h
    exact replied_late hself
  | timer k =>
    obtain rfl : k = i := hl
    obtain ⟨-, rfl⟩ := of_guard h
    rw [State.timedOut, wakeCaller_late (by exact hself)]
    exact ⟨rfl, rfl⟩
  | _ => exact hl.elim

omit [DecidableEq ν] in
theorem Inv.answered (hi : Inv s) {i : ℕ} (hlt : i < s.nRawcalls) : (s.rawcalls i).Answered s i := by
  rcases hi.rawcalls i hlt with ho | hc
  · refine .inl ⟨ho.ends, ho.mode, ?_⟩
    rcases ho.came with ⟨hfirst, -⟩ | ⟨-, -, hin⟩
    · exact .inl (ho.timer hfirst)
    · exact .inr hin
  · exact .inr hc.ends

omit [DecidableEq ν] in
theorem Gathers.done_all {j : ℕ} {m : Mcall ν β} (h : Gathers s j m) (hleft : m.left = 0) :
    m.forks = [] ∧ ∀ n i, Forks s j n i → (s.rawcalls i).ends ≠ [] := by
  obtain ⟨hforks, hwaiting⟩ := Nat.add_eq_zero_iff.1 hleft
  refine ⟨length_eq_zero_iff.1 hforks, fun n i hf he => ?_⟩
  have hmem := (h.waiting i).2 ⟨⟨n, hf⟩, he⟩
  rw [length_eq_zero_iff.1 hwaiting] at hmem
  exact not_mem_nil hmem

omit [DecidableEq ν] in
theorem Gathers.answered {j : ℕ} {m : Mcall ν β} (h : Gathers s j m) : m.Answered s j := by
  rcases h.state with hst | ⟨hleft, hends⟩
  · refine .inl ⟨hst.ends, hst.mode, ?_⟩
    rcases hst.counts with ⟨hpos, -⟩ | ⟨-, hin⟩
    · exact .inl hpos
    · exact .inr hin
  · obtain ⟨hforks, hdone⟩ := h.done_all hleft
    have hnames : ∀ n, n ∈ m.node ↔ ∃ i, Forks s j n i := fun n => by
      rw [h.names n, hforks]
      exact or_iff_right not_mem_nil
    refine .inr ⟨m.results, hends, fun n => ⟨fun hn => ?_, fun hn => ?_⟩,
      fun n hn => (hnames n).1 hn, hdone, h.results⟩
    · obtain ⟨v, hv⟩ := Option.isSome_iff_exists.1 hn
      obtain ⟨i, hf, -⟩ := h.results n v hv
      exact (hnames n).2 ⟨i, hf⟩
    · obtain ⟨i, hf⟩ := (hnames n).1 hn
      exact h.done n i hf (hdone n i hf)

theorem Inv.answers (hi : Inv s) : Answers s :=
  ⟨fun _ hlt => hi.answered hlt, fun _ hlt hfirst _ _ hl h => hi.late hlt hfirst hl h,
    fun j hlt _ => (hi.mcalls j hlt).answered⟩

/-- Every call of `rawcall` and `mcall` is answered in every state of a run whose steps meet `Fits`. -/
theorem answers_of_reach (h : State.machine.Reach Fits s) : Answers s := (inv_of_reach h).answers

/-- An `mcall` of one name, whose call is answered before the timer. -/
theorem answers_of_answer : ∃ s : State String ℕ, (s.mcalls 0).node = ["a"] ∧
    (s.mcalls 0).ends ≠ [] ∧ (s.rawcalls 0).ends = [some 7] ∧ Answers s := by
  have hl : (State.machine.run Fits (State.init : State String ℕ)
      [.start 0, .setNames (some ["a"]), .mcall ["a"], .dispatchWakeup none, .gather 0 "a" 1,
        .dispatchWakeup none, .fork 0 .sent, .dispatchWakeup none, .reply 0 7,
        .dispatchWakeup (some 1), .dispatchWakeup (some 0)]).map (fun s =>
          ((s.mcalls 0).node, (s.mcalls 0).ends.length, (s.rawcalls 0).ends)) =
      some (["a"], 1, [some 7]) := by
    decide
  obtain ⟨s, hr, he⟩ := Machine.exists_reach hl
  simp only [Prod.mk.injEq] at he
  refine ⟨s, he.1, fun h => ?_, he.2.2, answers_of_reach hr⟩
  rw [h] at he
  exact absurd he.2.1 (by decide)

/-- `mcall` of one name, where there is no global variable `names`, returns nil at once. And the reply
comes after the timer, while the caller is still to be resumed, as the coroutine that was resumed
before it raised an error: the caller returns the reply. -/
theorem not_answers_of_names :
    (∃ s : State String ℕ, State.machine.Reachable s ∧ ¬ Answers s ∧
      (s.mcalls 0).node = ["a"] ∧ (s.mcalls 0).ends.map Option.isNone = [true]) ∧
    ∃ s : State String ℕ, State.machine.Reachable s ∧ ¬ Answers s ∧
      (s.rawcalls 0).first = some none ∧ (s.rawcalls 0).ends = [some 7] := by
  constructor
  · have hl : (State.machine.run (fun _ _ => True) (State.init : State String ℕ)
        [.start 0, .mcall ["a"]]).map (fun s =>
          (s.nMcalls, (s.mcalls 0).node, (s.mcalls 0).ends.map Option.isNone)) =
        some (1, ["a"], [true]) := by
      decide
    obtain ⟨s, hr, he⟩ := Machine.exists_reach hl
    simp only [Prod.mk.injEq] at he
    refine ⟨s, hr, fun h => ?_, he.2⟩
    rcases h.mcalls 0 (by rw [he.1]; exact Nat.zero_lt_one) (by rw [he.2.1]; exact List.cons_ne_nil _ _) with
      ⟨hends, -⟩ | ⟨t, hends, -⟩
    · rw [hends] at he
      cases he.2.2
    · rw [hends] at he
      cases he.2.2
  · have hl : (State.machine.run (fun _ _ => True) (State.init : State String ℕ)
        [.start 1, .sleep, .dispatchWakeup none, .start 0, .rawcall, .dispatchWakeup none,
          .fork 0 .sent, .dispatchWakeup none, .start 2, .wake 1, .raise, .timer 0,
          .dispatchWakeup (some 1), .raise, .reply 0 7, .dispatchWakeup (some 0)]).map (fun s =>
          (s.nRawcalls, (s.rawcalls 0).first, (s.rawcalls 0).ends)) =
        some (1, some none, [some 7]) := by
      decide
    obtain ⟨s, hr, he⟩ := Machine.exists_reach hl
    simp only [Prod.mk.injEq] at he
    refine ⟨s, hr, fun h => ?_, he.2⟩
    rcases h.rawcalls 0 (by rw [he.1]; exact Nat.zero_lt_one) with ⟨hends, -⟩ | ⟨v, hends, hfirst⟩
    · rw [hends] at he
      cases he.2.2
    · rw [hends, hfirst] at he
      obtain ⟨-, hv, hv'⟩ := he
      rw [Option.some.inj hv] at hv'
      cases hv'

/-! ## Runs without errors -/

/-- What the coroutines are to keep where none of them ends with an error: `mcall` is given names,
which are those of the global variable, and nobody else wakes a coroutine that is in a call. -/
def Careful (s : State ν β) : Label ν β → Prop
  | .raise => False
  | .wake co => ¬ (s.mode co).Calls
  | .mcall node => node ≠ [] ∧ s.names = some node
  | _ => True

section Rested

omit [DecidableEq ν]

/-- Who is to be resumed is in a sleep. -/
def Sleeping (s : State ν β) : Prop := ∀ c ∈ s.wakeupSession, s.mode c ≠ .free

theorem Sleeping.wakeup (h : Sleeping s) (co : ℕ) : Sleeping (s.wakeup co) := by
  unfold State.wakeup
  split_ifs with hco
  · intro c hc
    rcases mem_append.1 hc with hc | hc
    · exact h c hc
    · rw [mem_singleton.1 hc]
      exact hco.1
  · exact h

theorem Sleeping.setMode (h : Sleeping s) {c : ℕ} {m : Mode} (hm : m = .free → c ∉ s.wakeupSession) :
    Sleeping (s.setMode c m) := by
  intro c' hc'
  show Function.update s.mode c m c' ≠ .free
  by_cases heq : c' = c
  · subst heq
    rw [Function.update_self]
    exact fun hfree => hm hfree hc'
  · rw [Function.update_of_ne heq]
    exact h c' hc'

theorem Sleeping.taken (h : Sleeping s) (c : ℕ) :
    Sleeping (s.taken c) ∧ c ∉ (s.taken c).wakeupSession :=
  ⟨fun c' hc' => h c' (mem_of_mem_filter hc'), by simp [State.taken]⟩

theorem Sleeping.wakeCaller (h : Sleeping s) (i : ℕ) : Sleeping (s.wakeCaller i) := by
  simp only [State.wakeCaller]
  split_ifs
  · exact h.wakeup _
  · exact h

theorem Sleeping.started (h : Sleeping s) (i : ℕ) (o : Sending β) : Sleeping (s.started i o) := by
  cases o with
  | unpackable => exact h
  | refused v => exact Sleeping.wakeCaller (s := s.setRawcall i _) h i
  | sent => exact h

theorem Sleeping.rawcall (h : Sleeping s) (c : ℕ) (gather : Option (ℕ × ν)) :
    Sleeping (s.rawcall c gather) :=
  Sleeping.setMode (s := s.setRawcall s.nRawcalls _) h Mode.noConfusion

theorem Sleeping.mcall (h : Sleeping s) (c : ℕ) (node : List ν) : Sleeping (s.mcall c node) := by
  unfold State.mcall
  split
  · exact h
  · split_ifs
    · exact h
    · exact Sleeping.setMode (s := s.setMcall s.nMcalls _) h Mode.noConfusion

theorem Sleeping.returned [DecidableEq ν] (h : Sleeping s) {c : ℕ} (hc : c ∉ s.wakeupSession)
    (i : ℕ) : Sleeping (s.returned c i) := by
  have hleft : Sleeping (s.left c i) :=
    Sleeping.setMode (s := s.setRawcall i _) h fun _ => hc
  cases hg : (s.rawcalls i).gather with
  | none =>
    rw [returned_plain hg]
    exact hleft
  | some p =>
    rw [returned_forked (j := p.1) (n := p.2) hg]
    simp only [State.collect]
    split_ifs
    · exact Sleeping.wakeup (s := (s.left c i).setMcall p.1 _) hleft _
    · exact hleft

theorem returned_ctl [DecidableEq ν] (c i : ℕ) : (s.returned c i).ctl ≠ .idle := by
  cases hg : (s.rawcalls i).gather with
  | none =>
    rw [returned_plain hg]
    exact Ctl.noConfusion
  | some p =>
    rw [returned_forked (j := p.1) (n := p.2) hg]
    exact Ctl.noConfusion

end Rested

/-- Nothing comes before all who are to be resumed are, and who is to be resumed is in a sleep. -/
structure Rested (s : State ν β) : Prop where
  idle : s.ctl = .idle → s.wakeupSession = []
  sleeping : Sleeping s

theorem Rested.dispatchWakeup (hr : Rested s) {co : Option ℕ} (h : s.dispatchWakeup co = some s') :
    Rested s' := by
  cases co with
  | none =>
    obtain ⟨hnil, rfl⟩ := of_guard h
    exact ⟨fun _ => hnil, hr.sleeping⟩
  | some c =>
    simp only [State.dispatchWakeup] at h
    split_ifs at h with hin
    obtain ⟨hsleep, hc⟩ := hr.sleeping.taken c
    split at h
    · exact absurd ‹_› (hr.sleeping c hin)
    · cases h
      exact ⟨fun hidle => Ctl.noConfusion hidle,
        Sleeping.setMode (s := s.taken c) (m := .free) hsleep fun _ => hc⟩
    · rename_i i _
      cases h
      exact ⟨fun hidle => absurd hidle (returned_ctl c i), hsleep.returned hc i⟩
    · rename_i j _
      cases h
      exact ⟨fun hidle => Ctl.noConfusion hidle,
        Sleeping.setMode (s := (s.taken c).setMcall j _) (m := .free) hsleep fun _ => hc⟩

/-- One step of a run without errors. -/
theorem Rested.step (hr : Rested s) {l : Label ν β} (hc : Careful s l) (h : s.step l = some s') :
    Rested s' := by
  cases l with
  | start c =>
    obtain ⟨-, rfl⟩ := of_guard h
    exact ⟨fun hidle => Ctl.noConfusion hidle, hr.sleeping⟩
  | timeout c =>
    obtain ⟨hok, rfl⟩ := of_guard h
    refine ⟨fun hidle => Ctl.noConfusion hidle, Sleeping.setMode (m := .free) hr.sleeping fun _ => ?_⟩
    rw [hr.idle hok.1]
    exact not_mem_nil
  | sleep =>
    obtain ⟨c, -, rfl⟩ := Option.map_eq_some_iff.1 h
    exact ⟨fun hidle => Ctl.noConfusion hidle,
      Sleeping.setMode (m := .asleep) hr.sleeping Mode.noConfusion⟩
  | wake co =>
    obtain ⟨c, hrun, rfl⟩ := Option.map_eq_some_iff.1 h
    refine ⟨fun hidle => ?_, hr.sleeping.wakeup co⟩
    rw [(wakeup_ctl co).1, running_eq hrun] at hidle
    cases hidle
  | yield =>
    obtain ⟨c, -, rfl⟩ := Option.map_eq_some_iff.1 h
    exact ⟨fun hidle => Ctl.noConfusion hidle, hr.sleeping⟩
  | raise => exact hc.elim
  | setNames v =>
    obtain ⟨c, -, rfl⟩ := Option.map_eq_some_iff.1 h
    exact ⟨hr.idle, hr.sleeping⟩
  | rawcall =>
    obtain ⟨c, -, rfl⟩ := Option.map_eq_some_iff.1 h
    exact ⟨fun hidle => Ctl.noConfusion hidle, hr.sleeping.rawcall c none⟩
  | mcall node =>
    obtain ⟨c, hrun, rfl⟩ := Option.map_eq_some_iff.1 h
    refine ⟨fun hidle => ?_, hr.sleeping.mcall c node⟩
    rw [State.mcall, hc.2] at hidle
    dsimp only at hidle
    rw [if_neg fun hlen => hc.1 (length_eq_zero_iff.1 hlen)] at hidle
    cases hidle
  | dispatchWakeup co =>
    simp only [State.step] at h
    split_ifs at h
    exact hr.dispatchWakeup h
  | fork i o =>
    obtain ⟨hok, rfl⟩ := of_guard h
    refine ⟨fun _ => ?_, hr.sleeping.started i o⟩
    cases o with
    | unpackable => exact hr.idle hok.1
    | refused v => contradiction
    | sent => contradiction
  | reply i v =>
    obtain ⟨-, rfl⟩ := of_guard h
    exact ⟨fun hidle => Ctl.noConfusion hidle,
      Sleeping.wakeCaller (s := s.setRawcall i _) hr.sleeping i⟩
  | timer i =>
    obtain ⟨-, rfl⟩ := of_guard h
    exact ⟨fun hidle => Ctl.noConfusion hidle,
      Sleeping.wakeCaller (s := s.setRawcall i _) hr.sleeping i⟩
  | gather j n g =>
    obtain ⟨-, rfl⟩ := of_guard h
    exact ⟨fun hidle => Ctl.noConfusion hidle,
      Sleeping.rawcall (s := s.setMcall j _) hr.sleeping g _⟩

omit [DecidableEq ν] in
theorem Rested.inTime (hr : Rested s) (hi : Inv s) (hidle : s.ctl = .idle) {i : ℕ}
    (hlt : i < s.nRawcalls) : InTime s i := by
  intro hfirst hends
  rcases hi.rawcalls i hlt with ho | hc
  · rcases ho.came with ⟨hnone, -⟩ | ⟨-, -, hin⟩
    · rw [hnone] at hfirst
      cases hfirst
    · rw [hr.idle hidle] at hin
      exact not_mem_nil hin
  · obtain ⟨v, he, -⟩ := hc.ends
    rw [hends] at he
    cases he

theorem Rested.fits (hr : Rested s) (hi : Inv s) {l : Label ν β} (hc : Careful s l)
    (h : s.step l = some s') : Fits s l := by
  have hfree : ∀ c, s.mode c = .free → c ∉ s.wakeupSession := fun c hfree hin =>
    hr.sleeping c hin hfree
  have hrun : ∀ c ∈ s.running, c ∉ s.wakeupSession := fun c hc =>
    hfree c (hi.run c (running_eq hc))
  cases l with
  | wake co => exact hc
  | rawcall => exact hrun
  | mcall node => exact ⟨hc.1, hc.2, hrun⟩
  | fork i o =>
    simp only [State.step] at h
    split_ifs at h with hok
    cases o with
    | refused v => exact hr.inTime hi hok.1 hok.2.1
    | _ => trivial
  | reply i v =>
    simp only [State.step] at h
    split_ifs at h with hok
    exact hr.inTime hi hok.1 hok.2.1
  | gather j n g =>
    simp only [State.step] at h
    split_ifs at h with hok
    exact hfree g hok.2.2.2
  | _ => trivial

/-- Without errors, every call is answered whatever the order in which the replies and the timers
come. -/
theorem answers_of_careful (h : State.machine.Reach Careful s) : Answers s := by
  have hi : Inv s ∧ Rested s :=
    h.invariant (I := fun s => Inv s ∧ Rested s)
      ⟨inv_init, fun _ => rfl, fun _ hc => absurd hc not_mem_nil⟩
      fun _ _ _ hI hc hst => ⟨inv_step hI.1 (hI.2.fits hI.1 hc hst) hst, hI.2.step hc hst⟩
  exact hi.1.answers

/-- The timer of a call comes first, and its late reply is for nobody. -/
theorem answers_of_careful_timer : ∃ s : State String ℕ, Answers s ∧ (s.rawcalls 0).ends = [none]
    ∧ (s.mcalls 0).ends ≠ [] := by
  have h₀ : (State.machine (ν := String) (β := ℕ)).Reach Careful State.init := .init
  have h₁ := h₀.step (i := Label.start 0) trivial rfl
  have h₂ := h₁.step (i := Label.setNames (some ["a"])) trivial rfl
  have h₃ := h₂.step (i := Label.mcall ["a"]) ⟨cons_ne_nil _ _, rfl⟩ rfl
  have h₄ := h₃.step (i := Label.dispatchWakeup none) trivial rfl
  have h₅ := h₄.step (i := Label.gather 0 "a" 1) trivial rfl
  have h₆ := h₅.step (i := Label.dispatchWakeup none) trivial rfl
  have h₇ := h₆.step (i := Label.fork 0 .sent) trivial rfl
  have h₈ := h₇.step (i := Label.dispatchWakeup none) trivial rfl
  have h₉ := h₈.step (i := Label.timer 0) trivial rfl
  have h₁₀ := h₉.step (i := Label.dispatchWakeup (some 1)) trivial rfl
  have h₁₁ := h₁₀.step (i := Label.dispatchWakeup (some 0)) trivial rfl
  have h₁₂ := h₁₁.step (i := Label.yield) trivial rfl
  have h₁₃ := h₁₂.step (i := Label.dispatchWakeup none) trivial rfl
  have h₁₄ := h₁₃.step (i := Label.reply 0 7) trivial rfl
  exact ⟨_, answers_of_careful h₁₄, rfl, cons_ne_nil _ _⟩

end LkCluster

end SkynetGame
