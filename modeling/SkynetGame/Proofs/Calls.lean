import SkynetGame.Proofs.Sessions

/-!
# A call ends once, by the first notice for it

A call is queued as failed exactly while a notice has come for it and it is still suspended. That
holds as long as no session is queued twice and no message comes in while some are queued
(`LuaService.Heeded`); then `dispatch_error_queue` always finds the coroutine that waits.
-/

namespace SkynetGame

open Function Option

namespace LuaService

variable {α : Type*}

section Heard

variable (s : LuaService α)

/-- The steps are orderly, `skynet.term` queues no session that is queued already, and all that is
queued is taken up before the next message. -/
def Heeded [DecidableEq α] (s : LuaService α) (i : LuaStep α) : Prop :=
  Orderly s i ∧
    match i with
    | .term _ order => ∀ x ∈ order, x ∉ s.errorQueue
    | .done => s.errorQueue = []
    | _ => True

instance [DecidableEq α] (i : LuaStep α) : Decidable (Heeded s i) :=
  @instDecidableAnd _ _ (inferInstanceAs (Decidable (Orderly s i))) <| match i with
    | .term _ order => inferInstanceAs (Decidable (∀ x ∈ order, x ∉ s.errorQueue))
    | .done => inferInstanceAs (Decidable (s.errorQueue = []))
    | .response .. | .error .. | .request .. | .badRequest .. | .unknown .. | .genid .. |
      .timeout .. | .fork .. | .wakeup .. | .respond .. | .test .. | .call .. | .sleep .. |
      .wait .. | .ret .. | .yieldResponse .. | .exit .. | .finish .. | .raise .. | .yield .. |
      .dispatchWakeup .. | .dispatchErrorQueue .. | .forked .. => isTrue trivial

/-- What has come for the calls, where that of `hand` is about to end. -/
structure Heard (hand : Option ℕ) (s : LuaService α) : Prop where
  nodup : s.errorQueue.Nodup
  queued : ∀ x ∈ s.errorQueue,
    ∃ c k, hand ≠ some c ∧ s.coState c = .calling k ∧ (s.calls k).session = x
  idle : s.ctl = .idle → s.errorQueue = []
  opened : ∀ c k, s.coState c = .calling k → (s.calls k).ends = [] ∧ (hand ≠ some c →
    (s.calls k).first = none ∧ (s.calls k).session ∉ s.errorQueue ∨
      ∃ n, (s.calls k).first = some n ∧ n.arg = .failed ∧ (s.calls k).session ∈ s.errorQueue)
  closed : ∀ k < s.nCalls, (∃ c, s.coState c = .calling k) ∨
    ∃ n, (s.calls k).first = some n ∧ (s.calls k).ends = [n.arg]
  stray : s.stray = false

/-- Nothing is different for the calls. -/
structure SameCalls (s s' : LuaService α) : Prop where
  calls : s'.calls = s.calls
  nCalls : s'.nCalls = s.nCalls
  queue : s'.errorQueue = s.errorQueue
  stray : s'.stray = s.stray
  calling : ∀ c k, s'.coState c = .calling k ↔ s.coState c = .calling k

end Heard

variable {hand : Option ℕ} {s s' : LuaService α}

theorem calling_update {c : ℕ} {st : CoState} (hc : ∀ k, s.coState c ≠ .calling k)
    (hst : ∀ k, st ≠ .calling k) (c' k : ℕ) :
    update s.coState c st c' = .calling k ↔ s.coState c' = .calling k := by
  by_cases hcc : c' = c
  · subst hcc
    simp [hc k, hst k]
  · simp [hcc]

namespace Heard

theorem kept (h : Heard hand s) (e : SameCalls s s') (hi : s'.ctl = .idle → s.errorQueue = []) :
    Heard hand s' where
  nodup := by rw [e.queue]; exact h.nodup
  queued := by simp only [e.queue, e.calling, e.calls]; exact h.queued
  idle := by rw [e.queue]; exact hi
  opened := by simp only [e.queue, e.calling, e.calls]; exact h.opened
  closed := by simp only [e.nCalls, e.calling, e.calls]; exact h.closed
  stray := by rw [e.stray]; exact h.stray

theorem resume {c : ℕ} (h : Heard (some c) s) (w : Wired (some c) s)
    (hst : s.waitsFor c ≠ none ∨ s.coState c = .ready) {v : ResumeArg}
    (hv : ∀ k, s.coState c = .calling k → ∃ n, (s.calls k).first = some n ∧ n.arg = v) :
    Heard none (s.resume c v) := by
  have hother (hk : ∀ k, s.coState c ≠ .calling k) : Heard none s :=
    { h with
      queued := fun x hx => by
        obtain ⟨c', k, -, hk', hx'⟩ := h.queued x hx
        exact ⟨c', k, by simp, hk', hx'⟩
      opened := fun c' k hk' => ⟨(h.opened c' k hk').1, fun _ =>
        (h.opened c' k hk').2 fun hcc => hk k (by rw [some.inj hcc, hk'])⟩ }
  unfold LuaService.resume
  split
  · rename_i hc
    simp [waitsFor, hc] at hst
  · rename_i hc
    simp [waitsFor, hc] at hst
  · rename_i hc
    simp [waitsFor, hc] at hst
  · rename_i k hc
    obtain ⟨n, hn, rfl⟩ := hv k hc
    have hends := (h.opened c k hc).1
    have hne {c' k' : ℕ} (hcc : c' ≠ c) (hk' : s.coState c' = .calling k') : k' ≠ k := by
      rintro rfl
      exact hcc ((w.calling c' k' hk').2.1.symm.trans (w.calling c k' hc).2.1)
    exact
      { nodup := h.nodup
        queued := fun x hx => by
          obtain ⟨c', k', hh, hk', hx'⟩ := h.queued x hx
          have hcc : c' ≠ c := fun hcc => hh (by rw [hcc])
          refine ⟨c', k', by simp, ?_, ?_⟩
          · simpa [LuaService.runs, hcc] using hk'
          · simpa [LuaService.runs, setState, hne hcc hk'] using hx'
        idle := fun hi => by simp [LuaService.runs] at hi
        opened := fun c' k' hk' => by
          by_cases hcc : c' = c
          · simp [LuaService.runs, hcc] at hk'
          · have hk' : s.coState c' = .calling k' := by
              simpa [LuaService.runs, hcc] using hk'
            have ho := h.opened c' k' hk'
            have hoo := ho.2 fun hq => hcc (some.inj hq).symm
            simp only [LuaService.runs, setState, update_of_ne (hne hcc hk')]
            exact ⟨ho.1, fun _ => hoo⟩
        closed := fun k' hlt => by
          by_cases hkk : k' = k
          · subst hkk
            exact .inr ⟨n, by simp [LuaService.runs, setState, hn],
              by simp [LuaService.runs, setState, hends]⟩
          · rcases h.closed k' hlt with ⟨c', hk'⟩ | hcl
            · have hcc : c' ≠ c := fun hcc => hkk (by
                rw [hcc, hc] at hk'
                simpa [eq_comm] using hk')
              exact .inl ⟨c', by simpa [LuaService.runs, hcc] using hk'⟩
            · exact .inr (by simpa [LuaService.runs, setState, hkk] using hcl)
        stray := h.stray }
  · rename_i n hc
    have hk : ∀ k, s.coState c ≠ .calling k := by simp [hc]
    simp only []
    split
    · exact (hother hk).kept ⟨rfl, rfl, rfl, rfl, calling_update hk (by simp)⟩ (by
        simp [LuaService.runs])
    · exact (hother hk).kept ⟨rfl, rfl, rfl, rfl, calling_update hk (by simp)⟩ (by
        simp [LuaService.runs])
  · rename_i hk _
    exact (hother hk).kept ⟨rfl, rfl, rfl, rfl, calling_update hk (by simp)⟩ (by
      simp [LuaService.runs])

theorem inHand (h : Heard none s) {c : ℕ} (hc : ∀ k, s.coState c ≠ .calling k) :
    Heard (some c) s :=
  { h with
    queued := fun x hx => by
      obtain ⟨c', k, -, hk, hx'⟩ := h.queued x hx
      exact ⟨c', k, fun hcc => hc k (by rw [some.inj hcc, hk]), hk, hx'⟩
    opened := fun c' k hk => ⟨(h.opened c' k hk).1, fun _ => (h.opened c' k hk).2 (by simp)⟩ }

theorem first_eq_none (h : Heard none s) (hq : s.errorQueue = []) {c k : ℕ}
    (hk : s.coState c = .calling k) : (s.calls k).first = none := by
  rcases (h.opened c k hk).2 (by simp) with ho | ⟨n, -, -, hm⟩
  · exact ho.1
  · simp [hq] at hm

theorem noteResponse (h : Heard none s) (hq : s.errorQueue = []) {x : ℕ}
    (hh : ∀ c k, s.coState c = .calling k → (s.calls k).session = x → hand = some c)
    (msg : Bytes) : Heard hand (s.noteResponse x msg) := by
  have hcall (k : ℕ) (hk : (s.calls k).ends ≠ [] ∨ (s.calls k).session ≠ x) :
      (s.noteResponse x msg).calls k = s.calls k := by
    simp only [LuaService.noteResponse, note, decide_eq_true_eq]
    rw [if_neg]
    tauto
  have hends (k : ℕ) : ((s.noteResponse x msg).calls k).ends = (s.calls k).ends := by
    simp only [LuaService.noteResponse, note]
    split <;> rfl
  exact
    { nodup := h.nodup
      queued := fun y hy => by
        have hy : y ∈ s.errorQueue := hy
        simp [hq] at hy
      idle := h.idle
      opened := fun c k hk => by
        have hk : s.coState c = .calling k := hk
        refine ⟨by rw [hends, (h.opened c k hk).1], fun hne => .inl ?_⟩
        rw [hcall k (.inr fun hx => hne (hh c k hk hx))]
        exact ⟨h.first_eq_none hq hk, by simp [LuaService.noteResponse, note, hq]⟩
      closed := fun k hlt => by
        rcases h.closed k hlt with hc | ⟨n, hf, he⟩
        · exact .inl hc
        · right
          rw [hcall k (.inl (by simp [he]))]
          exact ⟨n, hf, he⟩
      stray := h.stray }

theorem responseMessage (h : Heard none s) (w : Wired none s) (hi : s.ctl = .idle) (x : ℕ)
    (msg : Bytes) : Heard none (s.responseMessage x msg) := by
  have hq := h.idle hi
  have hsession {c k : ℕ} (hk : s.coState c = .calling k) (hx : (s.calls k).session = x) :
      s.sessionIdCoroutine x = some (.co c) :=
    w.hooked c x (by rw [Wired.waitsFor_calling hk, hx]) (by simp)
  have w' := w.noteResponse x msg
  unfold LuaService.responseMessage
  simp only []
  split
  · rename_i he
    have he : s.sessionIdCoroutine x = none := he
    have h' : Heard none (s.noteResponse x msg) :=
      h.noteResponse hq (fun c k hk hx => by simp [hsession hk hx] at he) msg
    exact h'.kept ⟨rfl, rfl, rfl, rfl, fun _ _ => Iff.rfl⟩ fun _ => hq
  · rename_i he
    have he : s.sessionIdCoroutine x = some .broken := he
    have h' : Heard none (s.noteResponse x msg) :=
      h.noteResponse hq (fun c k hk hx => by simp [hsession hk hx] at he) msg
    exact h'.kept ⟨rfl, rfl, rfl, rfl, fun _ _ => Iff.rfl⟩ fun _ => hq
  · rename_i c he
    have he₀ : s.sessionIdCoroutine x = some (.co c) := he
    have h' : Heard (some c) (s.noteResponse x msg) :=
      h.noteResponse hq (fun c' k hk hx => by
        have := hsession hk hx
        simpa [he₀] using this) msg
    refine Heard.resume ?_ (w'.take he (by simp) fun _ => rfl) (w'.can_resume he) fun k hk => ?_
    · exact h'.kept ⟨rfl, rfl, rfl, rfl, fun _ _ => Iff.rfl⟩ fun _ => hq
    have hk : s.coState c = .calling k := hk
    have hx : (s.calls k).session = x := by
      rcases w.entry x c he₀ with hx | hx
      · simpa [Wired.waitsFor_calling hk] using hx
      · simp [hk] at hx
    refine ⟨.response msg, ?_, rfl⟩
    simp only [LuaService.noteResponse, note, decide_eq_true_eq]
    rw [if_pos]
    exact ⟨(w.calling c k hk).1, (h.opened c k hk).1, h.first_eq_none hq hk, hx⟩

theorem dispatchErrorQueue (h : Heard none s) (w : Wired none s) (hi : s.ctl ≠ .idle) :
    Heard none s.dispatchErrorQueue := by
  unfold LuaService.dispatchErrorQueue
  split
  · rcases s.leave_cases with hl | hl <;> rw [hl]
    · exact h.kept ⟨rfl, rfl, rfl, rfl, fun _ _ => Iff.rfl⟩ (by simp)
    · exact h.kept ⟨rfl, rfl, rfl, rfl, fun _ _ => Iff.rfl⟩ (by simp)
  · rename_i x queue hq
    obtain ⟨c, k, -, hk, hx⟩ := h.queued x (by simp [hq])
    have he := w.hooked c x (by rw [Wired.waitsFor_calling hk, hx]) (by simp)
    have haw : s.Awaits x (s.sessionIdCoroutine x) := by simp [Awaits, he, hk, hx]
    have hnd := h.nodup
    rw [hq, List.nodup_cons] at hnd
    have hapart {c' k' : ℕ} (hk' : s.coState c' = .calling k') (hcc : c' ≠ c) :
        (s.calls k').session ≠ x := by
      intro hx'
      have he' := w.hooked c' x (by rw [Wired.waitsFor_calling hk', hx']) (by simp)
      rw [he] at he'
      exact hcc (by simpa using he'.symm)
    set s₁ : LuaService α := { s with
      errorQueue := queue
      stray := s.stray || !decide (s.Awaits x (s.sessionIdCoroutine x)) } with hs₁
    have h₁ : Heard (some c) s₁ :=
      { nodup := hnd.2
        queued := fun y hy => by
          have hy : y ∈ queue := hy
          obtain ⟨c', k', -, hk', hy'⟩ := h.queued y (by simp [hq, hy])
          refine ⟨c', k', fun hcc => ?_, hk', hy'⟩
          obtain rfl := some.inj hcc
          rw [hk] at hk'
          obtain rfl : k = k' := by simpa using hk'
          exact hnd.1 ((hx.symm.trans hy') ▸ hy)
        idle := fun hc => absurd hc hi
        opened := fun c' k' hk' => ⟨(h.opened c' k' hk').1, fun hcc => by
          have hne := hapart hk' fun hq => hcc (by rw [hq])
          rcases (h.opened c' k' hk').2 (by simp) with ho | ⟨n, hn, hna, hm⟩
          · exact .inl ⟨ho.1, fun hm => ho.2 (by rw [hq]; exact List.mem_cons_of_mem _ hm)⟩
          · rw [hq] at hm
            exact .inr ⟨n, hn, hna, (List.mem_cons.1 hm).resolve_left hne⟩⟩
        closed := h.closed
        stray := by simp [hs₁, h.stray, haw] }
    have w₁ : Wired none s₁ :=
      { w with
        inHand := fun c hc => by cases hc
        queue := fun y hy => w.queue y (by rw [hq]; exact List.mem_cons_of_mem _ hy) }
    simp only [he]
    rw [← he]
    refine Heard.resume ?_ (w₁.take he (by simp) fun _ => rfl) (w₁.can_resume he) fun k' hk' => ?_
    · exact h₁.kept ⟨rfl, rfl, rfl, rfl, fun _ _ => Iff.rfl⟩ fun hc => absurd hc hi
    have hk' : s.coState c = .calling k' := hk'
    rw [hk] at hk'
    obtain rfl : k = k' := by simpa using hk'
    rcases (h.opened c k hk).2 (by simp) with ho | ⟨n, hn, hna, -⟩
    · exact absurd (by simp [hq, hx]) ho.2
    · exact ⟨n, hn, hna⟩

theorem dispatchWakeup (h : Heard none s) (w : Wired none s) (hi : s.ctl ≠ .idle)
    {co : Option ℕ} (hw : s.dispatchWakeup co = some s') : Heard none s' := by
  unfold LuaService.dispatchWakeup at hw
  split at hw
  · split at hw
    · obtain rfl := some.inj hw
      exact h.kept ⟨rfl, rfl, rfl, rfl, fun _ _ => Iff.rfl⟩ (by simp)
    · cases hw
  · rename_i c
    split at hw
    · simp only [] at hw
      split at hw
      · obtain rfl := some.inj hw
        exact h.kept ⟨rfl, rfl, rfl, rfl, fun _ _ => Iff.rfl⟩ (by simp)
      · rename_i x hx
        obtain rfl := some.inj hw
        obtain ⟨n, hn⟩ := w.sleeping c x hx
        have hnk : ∀ k, s.coState c ≠ .calling k := by simp [hn]
        have w' := w.wakeupHand (q := s.wakeupSession.filter (· ≠ c)) (d := s.depth + 1) hx
        refine Heard.resume ?_ w' (.inl ?_) fun k hk => absurd hk (hnk k)
        · exact (h.inHand hnk).kept ⟨rfl, rfl, rfl, rfl, fun _ _ => Iff.rfl⟩ fun hc => absurd hc hi
        · simp [waitsFor, hn]
    · cases hw

theorem forked (h : Heard none s) (w : Wired none s) (hi : s.ctl ≠ .idle) {c : ℕ}
    (hc : c ∈ s.forkQueue) :
    Heard none ({ s with forkQueue := s.forkQueue.erase c }.resume c .start) := by
  have hr := (w.forkReady c hc).1
  refine Heard.resume ?_ (w.takeFork hc) (.inr hr) fun k hk => ?_
  · exact (h.inHand (by simp [hr])).kept ⟨rfl, rfl, rfl, rfl, fun _ _ => Iff.rfl⟩
      fun hc => absurd hc hi
  · have hk : s.coState c = .calling k := hk
    simp [hr] at hk

theorem yields (h : Heard none s) (w : Wired none s) {c : ℕ} {st : CoState} (hc : s.ctl = .run c)
    (hst : s'.coState = update s.coState c st) (hk : ∀ k, st ≠ .calling k)
    (hcalls : s'.calls = s.calls) (hn : s'.nCalls = s.nCalls) (hq : s'.errorQueue = s.errorQueue)
    (hs : s'.stray = s.stray) (hi : s'.ctl ≠ .idle) : Heard none s' := by
  have hrun : s.coState c = .running := (w.running c).2 hc
  refine h.kept ⟨hcalls, hn, hq, hs, ?_⟩ fun hc => absurd hc hi
  rw [hst]
  exact calling_update (by simp [hrun]) hk

theorem plain (h : Heard none s) (w : Wired none s) (e : SameWaits s s') : Heard none s' := by
  have he := e.waits
  simp only [waits, Prod.mk.injEq] at he
  obtain ⟨⟨hcalls, hn, hq, hv⟩, -⟩ := he
  rcases e.stops with ⟨hst, hctl⟩ | ⟨c, st, hc, hst, hnot, -, hi⟩
  · exact h.kept ⟨hcalls, hn, hq, hv, fun c k => by rw [hst]⟩ fun hi => h.idle (hctl ▸ hi)
  · exact h.yields w hc hst hnot hcalls hn hq hv hi

theorem coCreate (h : Heard none s) (w : Wired none s) {co : Option ℕ} {c : ℕ}
    (hc : s.coCreate co = some (c, s')) : Heard none s' := by
  obtain ⟨-, rfl, rfl⟩ | ⟨-, hm, rfl⟩ := coCreate_cases hc
  · exact h.kept ⟨rfl, rfl, rfl, rfl, calling_update (by simp [w.new _ le_rfl]) (by simp)⟩ h.idle
  · have hp := w.pool c hm
    exact h.kept ⟨rfl, rfl, rfl, rfl, calling_update (by simp [hp]) (by simp [hp])⟩ h.idle

theorem call (h : Heard none s) (w : Wired none s) {c : ℕ} (hc : s.ctl = .run c)
    (hf : s.Fresh) (service : α) : Heard none (s.call c service) := by
  have hrun : s.coState c = .running := (w.running c).2 hc
  have hother {c' k : ℕ} (hk : s.coState c' = .calling k) : c' ≠ c ∧ k ≠ s.nCalls :=
    ⟨fun hcc => by simp [hcc, hrun] at hk, (w.calling c' k hk).1.ne⟩
  exact
    { nodup := h.nodup
      queued := fun x hx => by
        obtain ⟨c', k, hh, hk, hx'⟩ := h.queued x hx
        obtain ⟨hcc, hkn⟩ := hother hk
        exact ⟨c', k, hh, by simpa [LuaService.call, hcc] using hk,
          by simpa [LuaService.call, hkn] using hx'⟩
      idle := fun hi => by simp [LuaService.call] at hi
      opened := fun c' k hk => by
        by_cases hcc : c' = c
        · subst hcc
          obtain rfl : s.nCalls = k := by simpa [LuaService.call] using hk
          simpa [LuaService.call, setState] using hf.2.1
        · have hk : s.coState c' = .calling k := by simpa [LuaService.call, hcc] using hk
          have ho := h.opened c' k hk
          simp only [LuaService.call, update_of_ne (hother hk).2]
          exact ho
      closed := fun k hlt => by
        by_cases hkn : k = s.nCalls
        · exact .inl ⟨c, by simp [LuaService.call, hkn]⟩
        · have hlt : k < s.nCalls := by
            have : k < s.nCalls + 1 := hlt
            omega
          rcases h.closed k hlt with ⟨c', hk⟩ | hcl
          · exact .inl ⟨c', by simpa [LuaService.call, (hother hk).1] using hk⟩
          · exact .inr (by simpa [LuaService.call, hkn] using hcl)
      stray := h.stray }

section Errors

theorem mem_failing (w : Wired none s) {x : ℕ} {a : α} {order : List ℕ}
    (ho : x = 0 → s.IsOrder a order) {c k : ℕ} (hk : s.coState c = .calling k) :
    (s.calls k).session ∈ failing s x order ↔
      if x = 0 then (s.calls k).target = a else (s.calls k).session = x := by
  obtain ⟨-, -, hm⟩ := w.calling c k hk
  unfold failing
  split
  · rename_i hx
    obtain ⟨-, h₁, h₂⟩ := ho hx
    refine ⟨fun hmem => ?_, fun ha => h₂ _ hm ha⟩
    obtain ⟨c', k', hk', hx', ha'⟩ := w.watching _ _ (h₁ _ hmem)
    have he := w.hooked c _ (Wired.waitsFor_calling hk) (by simp)
    have he' := w.hooked c' (s.calls k).session (by rw [Wired.waitsFor_calling hk', hx']) (by simp)
    rw [he] at he'
    obtain rfl : c = c' := by simpa using he'
    rw [hk] at hk'
    obtain rfl : k = k' := by simpa using hk'
    exact ha'
  · split
    · simp
    · rename_i hno
      refine ⟨fun hmem => by simp at hmem, fun hx => absurd ⟨_, hm, hx⟩ hno⟩

theorem notice [DecidableEq α] (h : Heard none s) (w : Wired none s) {x : ℕ} {a : α} {order : List ℕ}
    (ho : x = 0 → s.IsOrder a order) (hd : ∀ y ∈ failing s x order, y ∉ s.errorQueue)
    (hcalls : s'.calls = (s.noteError x a).calls) (hn : s'.nCalls = s.nCalls)
    (hq : s'.errorQueue = s.errorQueue ++ failing s x order) (hs : s'.stray = s.stray)
    (hk : ∀ c k, s'.coState c = .calling k ↔ s.coState c = .calling k) (hi : s'.ctl ≠ .idle) :
    Heard none s' := by
  have hcl {k : ℕ} (he : (s.calls k).ends ≠ []) : s'.calls k = s.calls k := by
    rw [hcalls]
    unfold LuaService.noteError note
    split <;> simp [he]
  have hsame (k : ℕ) : (s'.calls k).ends = (s.calls k).ends ∧
      (s'.calls k).session = (s.calls k).session := by
    rw [hcalls]
    unfold LuaService.noteError note
    split <;> simp only [] <;> split <;> exact ⟨rfl, rfl⟩
  have hfirst {c k : ℕ} (hc : s.coState c = .calling k) :
      (s'.calls k).first = if (s.calls k).session ∈ failing s x order ∧ (s.calls k).first = none
        then some (if x = 0 then .down else .error) else (s.calls k).first := by
    have hm := mem_failing w ho hc
    have hlt := (w.calling c k hc).1
    have he := (h.opened c k hc).1
    rw [hcalls]
    unfold LuaService.noteError note
    by_cases hx : x = 0
    · simp only [hx, if_true] at hm ⊢
      simp only [hm]
      by_cases hf : (s.calls k).first = none <;> by_cases ht : (s.calls k).target = a <;>
        simp [hlt, he, hf, ht]
    · simp only [hx, if_false] at hm ⊢
      simp only [hm]
      by_cases hf : (s.calls k).first = none <;> by_cases ht : (s.calls k).session = x <;>
        simp [hlt, he, hf, ht]
  have hwatch {y : ℕ} (hy : y ∈ failing s x order) : ∃ b, (y, b) ∈ s.watchingSession := by
    unfold failing at hy
    split at hy
    · rename_i hx
      exact ⟨a, (ho hx).2.1 y hy⟩
    · split at hy
      · rename_i hex
        obtain ⟨⟨z, b⟩, hm, rfl⟩ := hex
        obtain rfl : y = z := by simpa using hy
        exact ⟨b, hm⟩
      · simp at hy
  have hnd : (failing s x order).Nodup := by
    unfold failing
    split
    · rename_i hx
      exact (ho hx).1
    · split <;> simp
  exact
    { nodup := by
        rw [hq]
        exact h.nodup.append hnd fun y hy hy' => hd y hy' hy
      queued := fun y hy => by
        rw [hq, List.mem_append] at hy
        rcases hy with hy | hy
        · obtain ⟨c, k, hh, hc, hx⟩ := h.queued y hy
          exact ⟨c, k, hh, (hk c k).2 hc, by rw [(hsame k).2, hx]⟩
        · obtain ⟨b, hb⟩ := hwatch hy
          obtain ⟨c, k, hc, hx, -⟩ := w.watching y b hb
          exact ⟨c, k, by simp, (hk c k).2 hc, by rw [(hsame k).2, hx]⟩
      idle := fun hc => absurd hc hi
      opened := fun c k hc => by
        have hc := (hk c k).1 hc
        obtain ⟨he, ho'⟩ := h.opened c k hc
        refine ⟨by rw [(hsame k).1, he], fun _ => ?_⟩
        rw [hfirst hc, (hsame k).2, hq, List.mem_append]
        by_cases hm : (s.calls k).session ∈ failing s x order
        · right
          rcases ho' (by simp) with ho' | ⟨n, hf, hna, hm'⟩
          · refine ⟨if x = 0 then .down else .error, by simp [hm, ho'.1], ?_, .inr hm⟩
            split <;> rfl
          · exact absurd hm' (hd _ hm)
        · simp only [hm, false_and, if_false, or_false]
          exact ho' (by simp)
      closed := fun k hlt => by
        rw [hn] at hlt
        rcases h.closed k hlt with ⟨c, hc⟩ | ⟨n, hf, he⟩
        · exact .inl ⟨c, (hk c k).2 hc⟩
        · right
          rw [hcl (by simp [he])]
          exact ⟨n, hf, he⟩
      stray := by rw [hs]; exact h.stray }

end Errors

section Runs

variable [DecidableEq α]

theorem errorMessage (h : Heard none s) (w : Wired none s) (hi : s.ctl = .idle) {x : ℕ} {a : α}
    {order : List ℕ} {co : Option ℕ} (ho : x = 0 → s.IsOrder a order)
    (hr : s.errorMessage x a order co = some s') : Heard none s' := by
  have hq := h.idle hi
  obtain ⟨c, s₁, w₁, i, b, o, hc, rfl⟩ := w.errorMessage_runs hr
  obtain ⟨f, hnote⟩ := s.noteError_eq x a
  have hcalls : f = (s.noteError x a).calls := by rw [hnote]
  have w' := w.noteError x a
  rw [hnote] at hc w'
  obtain ⟨d, hd⟩ := errorDispatch_eq (s := { s₁ with
    watchingService := w₁, sessionCoroutineId := i, sessionCoroutineAddress := b
    source := o }.runs c) x a order
  obtain ⟨w₂, i₂, a₂, r₂, o₂, hf⟩ := finish_eq (s := errorDispatch ({ s₁ with
    watchingService := w₁, sessionCoroutineId := i, sessionCoroutineAddress := b
    source := o }.runs c) x a order) c
  rw [hf, hd]
  have hk : ∀ c' k, update (update s₁.coState c .running) c .pooled c'
      = .calling k ↔ s.coState c' = .calling k := by
    intro c' k
    have hre := (w'.coCreate hc).2.1
    rw [update_idem, calling_update (by simp [hre]) (by simp)]
    obtain ⟨-, rfl, rfl⟩ | ⟨-, hm, rfl⟩ := coCreate_cases hc
    · exact calling_update (by simp [w.new _ le_rfl]) (by simp) c' k
    · have hp := w.pool c hm
      exact calling_update (by simp [hp]) (by simp [hp]) c' k
  have hs₁ : s₁.calls = f ∧ s₁.nCalls = s.nCalls ∧ s₁.errorQueue = s.errorQueue ∧
      s₁.stray = s.stray ∧ s₁.watchingSession = s.watchingSession := by
    obtain ⟨-, rfl, rfl⟩ | ⟨-, hm, rfl⟩ := coCreate_cases hc <;> exact ⟨rfl, rfl, rfl, rfl, rfl⟩
  obtain ⟨h₁, h₂, h₃, h₄, h₅⟩ := hs₁
  refine h.notice w ho (by simp [hq]) (h₁.trans hcalls) h₂ ?_ h₄ hk (by simp)
  simp only [setState, LuaService.runs, h₃, failing, h₅]

/-- What has come for the calls stays right as long as all of it is heeded. -/
theorem step (h : Heard none s) (w : Wired none s) {i : LuaStep α} (hok : Heeded s i)
    (hst : s.step i = some s') : Heard none s' := by
  have hw := hok.1
  cases i with
  | response session msg =>
    obtain ⟨hi, rfl⟩ := of_guard hst
    exact h.responseMessage w hi session msg
  | error session source order co =>
    obtain ⟨hi, hst⟩ := ite_none_right_eq_some.1 hst
    exact h.errorMessage w hi.1 hi.2 hst
  | request session source co =>
    obtain ⟨hi, hst⟩ := ite_none_right_eq_some.1 hst
    obtain ⟨c, s₁, w₁, i, b, o, hc, rfl⟩ := w.request_runs hst
    have hre := (w.coCreate hc).2.1
    exact (h.coCreate w hc).kept ⟨rfl, rfl, rfl, rfl,
      calling_update (by simp [hre]) (by simp)⟩ (by simp [LuaService.runs])
  | badRequest session source co =>
    obtain ⟨-, hst⟩ := ite_none_right_eq_some.1 hst
    simp only [LuaService.badRequest, start, coCreate_watching, Option.map_map] at hst
    obtain ⟨⟨c, s₁⟩, hc, rfl⟩ := map_eq_some_iff.1 hst
    exact (h.coCreate w hc).kept ⟨rfl, rfl, rfl, rfl, fun _ _ => Iff.rfl⟩ (by simp [throw])
  | unknown session source prototype =>
    obtain ⟨-, rfl⟩ := of_guard hst
    unfold LuaService.unknown
    split <;> exact h.kept ⟨rfl, rfl, rfl, rfl, fun _ _ => Iff.rfl⟩ (by simp [throw])
  | timeout co =>
    obtain ⟨c, -, ht⟩ := bind_eq_some_iff.1 hst
    obtain ⟨⟨c', s₁⟩, hs₁, rfl⟩ := map_eq_some_iff.1 ht
    have h₀ : Heard none { s with sessionId := s.newSession } :=
      h.kept ⟨rfl, rfl, rfl, rfl, fun _ _ => Iff.rfl⟩ h.idle
    have w₀ : Wired none { s with sessionId := s.newSession } :=
      w.kept (.of rfl (.refl _)) rfl rfl fun _ => Iff.rfl
    have h₁ := h₀.coCreate w₀ hs₁
    simp only []
    split
    · exact h₁.kept ⟨rfl, rfl, rfl, rfl, fun _ _ => Iff.rfl⟩ h₁.idle
    · exact h₁
  | fork co =>
    obtain ⟨c, -, hf⟩ := bind_eq_some_iff.1 hst
    obtain ⟨⟨c', s₁⟩, hs₁, rfl⟩ := map_eq_some_iff.1 hf
    have h₁ := h.coCreate w hs₁
    exact h₁.kept ⟨rfl, rfl, rfl, rfl, fun _ _ => Iff.rfl⟩ h₁.idle
  | wakeup co =>
    obtain ⟨c, -, rfl⟩ := of_running hst
    unfold LuaService.wakeup
    split
    · simp only []
      split <;> exact h.kept ⟨rfl, rfl, rfl, rfl, fun _ _ => Iff.rfl⟩ h.idle
    · exact h
  | term service order =>
    obtain ⟨ho, hst⟩ := ite_none_right_eq_some.1 hst
    obtain ⟨c, hc, rfl⟩ := of_running hst
    obtain ⟨f, hnote⟩ := s.noteError_eq 0 service
    have hcalls : f = (s.noteError 0 service).calls := by rw [hnote]
    obtain ⟨d, hd⟩ := errorDispatch_eq (s := s.noteError 0 service) 0 service order
    rw [hd, hnote]
    refine h.notice w (fun _ => ho) (fun y hy => hok.2 y ?_) hcalls rfl rfl rfl
      (fun _ _ => Iff.rfl) ?_
    · simpa [failing] using hy
    · simp [hc]
  | call service =>
    obtain ⟨c, hc, rfl⟩ := of_running hst
    exact h.call w hc hw service
  | sleep =>
    obtain ⟨c, hc, rfl⟩ := of_running hst
    exact h.yields w hc rfl (by simp) rfl rfl rfl rfl
      (by simp [LuaService.sleep])
  | wait co =>
    obtain ⟨c, hc, rfl⟩ := of_running hst
    exact h.yields w hc rfl (by simp) rfl rfl rfl rfl
      (by simp [LuaService.sleep])
  | dispatchWakeup co =>
    obtain ⟨hi, hst⟩ := ite_none_right_eq_some.1 hst
    exact h.dispatchWakeup w (by simp [hi]) hst
  | dispatchErrorQueue =>
    obtain ⟨hi, rfl⟩ := of_guard hst
    exact h.dispatchErrorQueue w (by simp [hi])
  | forked c =>
    obtain ⟨hi, rfl⟩ := of_guard hst
    exact h.forked w (by simp [hi.1]) hi.2
  | done =>
    obtain ⟨-, rfl⟩ := of_guard hst
    exact h.kept ⟨rfl, rfl, rfl, rfl, fun _ _ => Iff.rfl⟩ fun _ => hok.2
  | genid | respond | test | ret | yieldResponse | exit | finish | raise | yield =>
    exact h.plain w (plain_step hst trivial)

end Runs

end Heard

section Reach

variable [Inhabited α]

theorem heard_init : Heard none (init : LuaService α) where
  nodup := List.nodup_nil
  queued _ hx := by simp [init] at hx
  idle _ := rfl
  opened c k hk := by
    by_cases hc : c = 0 <;> simp [init, hc] at hk
  closed _ hlt := by simp [init] at hlt
  stray := rfl

omit [Inhabited α]

/-- The call is under way, and between two messages nothing has come for it. -/
def CallOpen (s : LuaService α) (k : ℕ) : Prop :=
  s.coState (s.calls k).co = .calling k ∧ (s.calls k).ends = [] ∧
    (s.ctl = .idle → (s.calls k).first = none)

/-- The coroutine was resumed in the call once, by the first notice for it. -/
def CallClosed (s : LuaService α) (k : ℕ) : Prop :=
  ∃ n, (s.calls k).first = some n ∧ (s.calls k).ends = [n.arg] ∧
    (s.calls k).ends.map yieldCall = [n.result]

/-- Each call is under way or has ended, and `dispatch_error_queue` resumed nothing but calls. -/
def CallsSound (s : LuaService α) : Prop :=
  s.stray = false ∧ (∀ c k, s.coState c = .calling k → s.CallOpen k) ∧
    ∀ k < s.nCalls, s.CallOpen k ∨ s.CallClosed k

variable [DecidableEq α] [Inhabited α]

/-- Every call ends once, by the first notice for it, and no entry of `error_queue` resumes anything
else. -/
theorem calls_of_reach (h : machine.Reach Heeded s) : s.CallsSound := by
  obtain ⟨hw, hh⟩ : Wired none s ∧ Heard none s :=
    h.invariant (I := fun s => Wired none s ∧ Heard none s) ⟨wired_init, heard_init⟩
      fun _ _ _ hI hok hst => ⟨hI.1.step hok.1 hst, hI.2.step hI.1 hok hst⟩
  have hopen (c k : ℕ) (hk : s.coState c = .calling k) : s.CallOpen k := by
    obtain rfl := (hw.calling c k hk).2.1
    exact ⟨hk, (hh.opened _ k hk).1, fun hi => hh.first_eq_none (hh.idle hi) hk⟩
  refine ⟨hh.stray, hopen, fun k hlt => ?_⟩
  rcases hh.closed k hlt with ⟨c, hk⟩ | ⟨n, hf, he⟩
  · exact .inl (hopen c k hk)
  · refine .inr ⟨n, hf, he, ?_⟩
    rw [he]
    cases n <;> rfl

/-- A call is answered, another fails when its target goes down. -/
theorem calls_of_two_calls :
    ∃ s : LuaService ℕ, (s.calls 0).ends = [.message []] ∧ (s.calls 1).ends = [.failed] ∧
      s.CallsSound := by
  have hl : ((machine (α := ℕ)).run Heeded machine.init
      [.response 1 [], .call 5, .dispatchWakeup none, .dispatchErrorQueue, .done,
        .response 2 [], .call 6, .dispatchWakeup none, .dispatchErrorQueue, .done,
        .error 0 6 [3] none, .dispatchWakeup none, .dispatchErrorQueue, .finish,
        .dispatchWakeup none, .dispatchErrorQueue, .done]).map
        (fun s => ((s.calls 0).ends, (s.calls 1).ends))
      = some ([.message []], [.failed]) := by
    decide
  obtain ⟨s, hr, he⟩ := Machine.exists_reach hl
  simp only [Prod.mk.injEq] at he
  exact ⟨s, he.1, he.2, calls_of_reach hr⟩

/-- `skynet.term` is called twice for the target of a call: its session is queued twice, and
`dispatch_error_queue` resumes nil. -/
theorem not_calls_of_term_twice : ∃ s : LuaService ℕ, machine.Reachable s ∧ ¬s.CallsSound := by
  have hl : ((machine (α := ℕ)).run (fun _ _ => True) machine.init
      [.response 1 [], .call 5, .dispatchWakeup none, .dispatchErrorQueue, .done,
        .request 0 7 none, .term 5 [2], .term 5 [2], .finish, .dispatchWakeup none,
        .dispatchErrorQueue, .finish, .dispatchWakeup none, .dispatchErrorQueue]).map
        (fun s => s.stray) = some true := by
    decide
  obtain ⟨s, hr, he⟩ := Machine.exists_reach hl
  exact ⟨s, hr, fun h => by simp [h.1] at he⟩

end Reach

end LuaService

end SkynetGame
