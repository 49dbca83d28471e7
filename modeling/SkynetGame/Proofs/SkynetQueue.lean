import SkynetGame.SkynetQueue
import Mathlib.Data.List.Nodup

/-!
# The queue lets one coroutine in at a time, in the order of the calls

The queue is nobody's, or it was handed to a coroutine that is woken and did not go on yet, or one
coroutine is inside (`Owner`). In each case all others that want in are in the list, asleep, and the
one it is handed to is the first of them.
-/

namespace SkynetGame

open Function List

namespace SkynetQueue

/-- The coroutine that the queue was handed to, until it goes on. -/
def State.handed (s : State) : List ℕ := if s.ref = 0 then s.currentThread.toList else []

/-- One coroutine at most is inside, the waiting ones enter in the order of their calls, nobody who
is not inside passes them by, a coroutine inside calls the queue again without waiting, and the last
return of the one inside wakes the next. -/
structure Sound (s : State) : Prop where
  one : ∀ t t', 0 < s.frames t → 0 < s.frames t' → t = t'
  asserted : s.failed = false
  order : s.waited = s.entered ++ (s.handed ++ s.threadQueue)
  fair : ∀ t s', step s (.call t) = some s' → s'.mode t ≠ .queued → s.frames t = 0 →
    s.currentThread = none ∧ s.threadQueue = []
  reenter : ∀ t, 0 < s.frames t → s.mode t = .free → ∃ s', step s (.call t) = some s'
    ∧ s'.mode t = .free ∧ s'.frames t = s.frames t + 1
  next : ∀ t s', step s (.leave t) = some s' → s.frames t = 1 →
    (s.threadQueue = [] → s'.currentThread = none)
      ∧ ∀ co queue, s.threadQueue = co :: queue → s'.currentThread = some co
        ∧ s'.wakeupSession co = true ∧ s'.threadQueue = queue

inductive Owner (s : State) : Prop
  | nobody : s.currentThread = none → s.ref = 0 → s.threadQueue = [] → (∀ t, s.frames t = 0) →
      (∀ t, s.mode t ≠ .queued) → Owner s
  | handed (co : ℕ) : s.currentThread = some co → s.ref = 0 → (∀ t, s.frames t = 0) →
      s.mode co = .queued → s.wakeupSession co = true → co ∉ s.threadQueue →
      (∀ t, s.mode t = .queued → t = co ∨ t ∈ s.threadQueue) → Owner s
  | inside (co : ℕ) : s.currentThread = some co → s.ref = s.frames co → 0 < s.frames co →
      s.mode co ≠ .queued → (∀ t, t ≠ co → s.frames t = 0) →
      (∀ t, s.mode t = .queued → t ∈ s.threadQueue) → Owner s

structure Inv (s : State) : Prop where
  failed : s.failed = false
  nodup : s.threadQueue.Nodup
  waiting : ∀ t ∈ s.threadQueue, s.mode t = .queued ∧ s.wakeupSession t = false
  order : s.waited = s.entered ++ (s.handed ++ s.threadQueue)
  owner : Owner s

theorem Inv.init : Inv .init :=
  ⟨rfl, nodup_nil, fun _ h => absurd h not_mem_nil, rfl,
    .nobody rfl rfl rfl (fun _ => rfl) fun _ h => nomatch h⟩

variable {s s' : State} {co : ℕ}

theorem handed_none (hcur : s.currentThread = none) : s.handed = [] := by
  rw [State.handed, hcur]
  exact ite_self []

theorem handed_some (hcur : s.currentThread = some co) (href : s.ref = 0) : s.handed = [co] := by
  rw [State.handed, if_pos href, hcur]
  rfl

theorem handed_inside (href : s.ref ≠ 0) : s.handed = [] := if_neg href

theorem Inv.not_mem (h : Inv s) (hmode : s.mode co ≠ .queued) : co ∉ s.threadQueue :=
  fun hin => hmode (h.waiting co hin).1

theorem Inv.inside (h : Inv s) (hco : 0 < s.frames co) : s.currentThread = some co
    ∧ s.ref = s.frames co ∧ s.mode co ≠ .queued ∧ (∀ t, t ≠ co → s.frames t = 0)
    ∧ ∀ t, s.mode t = .queued → t ∈ s.threadQueue := by
  cases h.owner with
  | nobody _ _ _ hf => exact absurd (hf co) (by omega)
  | handed _ _ _ hf => exact absurd (hf co) (by omega)
  | inside t hcur href _ hmode hothers hin =>
    obtain rfl : co = t := by
      by_contra hne
      have := hothers co hne
      omega
    exact ⟨hcur, href, hmode, hothers, hin⟩

theorem inv_wait (h : Inv s) (hmode : s.mode co = .free) (hwake : s.wakeupSession co = false)
    (hcur : s.currentThread ≠ none) (hne : s.currentThread ≠ some co) : Inv (call s co) := by
  have hout : co ∉ s.threadQueue := h.not_mem (by rw [hmode]; decide)
  have hself : update s.mode co .queued co = .queued := update_self ..
  have hother : ∀ t, t ≠ co → update s.mode co .queued t = s.mode t := fun t ht =>
    update_of_ne ht ..
  have hin : ∀ t, update s.mode co .queued t = .queued → t = co ∨ s.mode t = .queued := by
    intro t ht
    rcases eq_or_ne t co with rfl | hne
    · exact .inl rfl
    · exact .inr (hother t hne ▸ ht)
  rw [call, if_pos ⟨hcur, hne⟩]
  refine ⟨h.failed, ?_, ?_, ?_, ?_⟩
  · exact nodup_append.2 ⟨h.nodup, nodup_singleton co, fun x hx y hy =>
      mem_singleton.1 hy ▸ fun he => hout (he ▸ hx)⟩
  · intro t ht
    rcases mem_append.1 ht with ht | ht
    · have hne : t ≠ co := fun he => hout (he ▸ ht)
      exact ⟨(hother t hne).trans (h.waiting t ht).1, (h.waiting t ht).2⟩
    · obtain rfl := mem_singleton.1 ht
      exact ⟨hself, hwake⟩
  · show s.waited ++ [co] = s.entered ++ (s.handed ++ (s.threadQueue ++ [co]))
    rw [h.order, append_assoc, append_assoc]
  · cases h.owner with
    | nobody hnone => exact absurd hnone hcur
    | handed w hw href hf hmw hww hwq hq =>
      have hwne : w ≠ co := fun he => hne (he ▸ hw)
      refine .handed w hw href hf ((hother w hwne).trans hmw) hww ?_ ?_
      · intro hbad
        rcases mem_append.1 hbad with hbad | hbad
        · exact hwq hbad
        · exact hwne (mem_singleton.1 hbad)
      · intro t ht
        rcases hin t ht with rfl | ht
        · exact .inr (mem_append_right _ (mem_singleton.2 rfl))
        · exact (hq t ht).imp_right (mem_append_left _)
    | inside w hw href hpos hmw hf hq =>
      have hwne : w ≠ co := fun he => hne (he ▸ hw)
      refine .inside w hw href hpos (fun hbad => hmw ((hother w hwne).symm.trans hbad)) hf
        fun t ht => ?_
      rcases hin t ht with rfl | ht
      · exact mem_append_right _ (mem_singleton.2 rfl)
      · exact mem_append_left _ (hq t ht)

theorem inv_enter (h : Inv s) (hmode : s.mode co = .free)
    (hcur : ¬ (s.currentThread ≠ none ∧ s.currentThread ≠ some co)) : Inv (call s co) := by
  rw [call, if_neg hcur]
  have hself : update s.frames co (s.frames co + 1) co = s.frames co + 1 :=
    update_self ..
  have hother : ∀ t, t ≠ co → update s.frames co (s.frames co + 1) t = s.frames t :=
    fun t ht => update_of_ne ht ..
  cases h.owner with
  | nobody hnone href hq hf hm =>
    have hout : (enter s co).mode co ≠ .queued := hm co
    refine ⟨h.failed, h.nodup, h.waiting, ?_, .inside co rfl ?_ ?_ hout ?_ ?_⟩
    · rw [handed_inside (show s.ref + 1 ≠ 0 by omega)]
      exact handed_none hnone ▸ h.order
    · show s.ref + 1 = ((update s.frames co (s.frames co + 1) co : ℕ) : ℤ)
      rw [hself, href, hf co]
      rfl
    · simp only [enter, hself]
      omega
    · intro t ht
      simp only [enter, hother t ht, hf t]
    · exact fun t ht => absurd ht (hm t)
  | handed w hw href hf hmw =>
    have hwne : w ≠ co := by
      rintro rfl
      rw [hmode] at hmw
      cases hmw
    exact absurd ⟨by rw [hw]; exact Option.some_ne_none w, by rw [hw]; simpa using hwne⟩ hcur
  | inside w hw href hpos hmw hf hq =>
    obtain rfl : w = co := by
      by_contra hwne
      exact hcur ⟨by rw [hw]; exact Option.some_ne_none w, by rw [hw]; simpa using hwne⟩
    refine ⟨h.failed, h.nodup, h.waiting, ?_, .inside w rfl ?_ ?_ hmw ?_ hq⟩
    · rw [handed_inside (show s.ref + 1 ≠ 0 by omega)]
      exact handed_inside (show s.ref ≠ 0 by omega) ▸ h.order
    · show s.ref + 1 = ((update s.frames w (s.frames w + 1) w : ℕ) : ℤ)
      rw [hself, href]
      omega
    · simp only [enter, hself]
      omega
    · intro t ht
      simp only [enter, hother t ht, hf t ht]

theorem inv_leave_more (h : Inv s) (hco : 1 < s.frames co) : Inv (xpcallRet s co) := by
  obtain ⟨hcur, href, hmode, hothers, hq⟩ := h.inside (show 0 < s.frames co by omega)
  have hself : update s.frames co (s.frames co - 1) co = s.frames co - 1 :=
    update_self ..
  have hother : ∀ t, t ≠ co → update s.frames co (s.frames co - 1) t = s.frames t :=
    fun t ht => update_of_ne ht ..
  simp only [xpcallRet]
  rw [if_neg (by omega)]
  refine ⟨h.failed, h.nodup, h.waiting, ?_, .inside co hcur ?_ ?_ hmode ?_ hq⟩
  · rw [handed_inside (show s.ref - 1 ≠ 0 by omega)]
    exact handed_inside (show s.ref ≠ 0 by omega) ▸ h.order
  · show s.ref - 1 = ((update s.frames co (s.frames co - 1) co : ℕ) : ℤ)
    rw [hself, href]
    omega
  · show 0 < update s.frames co (s.frames co - 1) co
    omega
  · intro t ht
    exact (hother t ht).trans (hothers t ht)

theorem wakeup_of_queued (hmode : s.mode co = .queued) (hwake : s.wakeupSession co = false) :
    wakeup s co = { s with wakeupSession := update s.wakeupSession co true } :=
  if_pos ⟨by rw [hmode]; decide, hwake⟩

theorem xpcallRet_last (h : Inv s) (hco : s.frames co = 1) :
    (s.threadQueue = [] ∧ xpcallRet s co = { s with
        ref := 0, frames := update s.frames co 0, currentThread := none })
      ∨ ∃ w queue, s.threadQueue = w :: queue ∧ xpcallRet s co = { s with
        ref := 0
        frames := update s.frames co 0
        currentThread := some w
        threadQueue := queue
        wakeupSession := update s.wakeupSession w true } := by
  obtain ⟨-, href, -, -, -⟩ := h.inside (show 0 < s.frames co by omega)
  have hzero : s.ref - 1 = 0 := by omega
  have hframes : s.frames co - 1 = 0 := by omega
  cases hq : s.threadQueue with
  | nil =>
    refine .inl ⟨rfl, ?_⟩
    simp only [xpcallRet, hzero, hframes, if_true, hq]
  | cons w queue =>
    refine .inr ⟨w, queue, rfl, ?_⟩
    obtain ⟨hmode, hwake⟩ := h.waiting w (hq ▸ mem_cons_self)
    simp only [xpcallRet, hzero, hframes, if_true, hq]
    exact wakeup_of_queued hmode hwake

theorem inv_leave_last (h : Inv s) (hco : s.frames co = 1) : Inv (xpcallRet s co) := by
  obtain ⟨-, href, -, hothers, hin⟩ := h.inside (show 0 < s.frames co by omega)
  have hne : s.ref ≠ 0 := by omega
  have hall : ∀ t, update s.frames co 0 t = 0 := by
    intro t
    rcases eq_or_ne t co with rfl | ht
    · exact update_self ..
    · exact (update_of_ne ht ..).trans (hothers t ht)
  rcases xpcallRet_last h hco with ⟨hq, hret⟩ | ⟨w, queue, hq, hret⟩
  · rw [hret]
    refine ⟨h.failed, h.nodup, h.waiting, ?_, .nobody rfl rfl hq hall fun t ht => ?_⟩
    · rw [handed_none rfl]
      exact handed_inside hne ▸ h.order
    · exact not_mem_nil (hq ▸ hin t ht)
  · rw [hret]
    have hnodup := nodup_cons.1 (hq ▸ h.nodup)
    obtain ⟨hmode, -⟩ := h.waiting w (hq ▸ mem_cons_self)
    refine ⟨h.failed, hnodup.2, fun t ht => ?_, ?_,
      .handed w rfl rfl hall hmode (update_self ..) hnodup.1 fun t ht => ?_⟩
    · have htw : t ≠ w := fun he => hnodup.1 (he ▸ ht)
      obtain ⟨hmt, hwt⟩ := h.waiting t (hq ▸ mem_cons_of_mem w ht)
      exact ⟨hmt, (update_of_ne htw ..).trans hwt⟩
    · rw [handed_some rfl rfl]
      have horder := handed_inside hne ▸ h.order
      rwa [hq] at horder
    · exact mem_cons.1 (hq ▸ hin t ht)

theorem inv_mode (h : Inv s) {m : Mode} {w : Bool} (hold : s.mode co ≠ .queued)
    (hnew : m ≠ .queued) : Inv { s with
      mode := update s.mode co m
      wakeupSession := update s.wakeupSession co w } := by
  have hmode : ∀ t, update s.mode co m t = .queued ↔ s.mode t = .queued := by
    intro t
    rcases eq_or_ne t co with rfl | ht
    · rw [update_self]
      exact iff_of_false hnew hold
    · rw [update_of_ne ht]
  have hwake : ∀ t, s.mode t = .queued →
      update s.wakeupSession co w t = s.wakeupSession t := fun t ht =>
    update_of_ne (fun he : t = co => hold (he ▸ ht)) ..
  refine ⟨h.failed, h.nodup, fun t ht => ?_, h.order, ?_⟩
  · obtain ⟨hmt, hwt⟩ := h.waiting t ht
    exact ⟨(hmode t).2 hmt, (hwake t hmt).trans hwt⟩
  · cases h.owner with
    | nobody hnone href hq hf hm =>
      exact .nobody hnone href hq hf fun t ht => hm t ((hmode t).1 ht)
    | handed v hcur href hf hmv hwv hv hin =>
      exact .handed v hcur href hf ((hmode v).2 hmv) ((hwake v hmv).trans hwv) hv
        fun t ht => hin t ((hmode t).1 ht)
    | inside v hcur href hpos hmv hf hin =>
      exact .inside v hcur href hpos (fun ht => hmv ((hmode v).1 ht)) hf
        fun t ht => hin t ((hmode t).1 ht)

theorem Inv.woken (h : Inv s) (hmode : s.mode co = .queued) (hwake : s.wakeupSession co = true) :
    s.currentThread = some co ∧ s.ref = 0 ∧ (∀ t, s.frames t = 0) ∧ co ∉ s.threadQueue
      ∧ ∀ t, s.mode t = .queued → t = co ∨ t ∈ s.threadQueue := by
  have hout : co ∉ s.threadQueue := fun hin => by
    rw [(h.waiting co hin).2] at hwake
    cases hwake
  cases h.owner with
  | nobody _ _ _ _ hm => exact absurd hmode (hm co)
  | handed v hcur href hf _ _ _ hin =>
    obtain rfl := (hin co hmode).resolve_right hout
    exact ⟨hcur, href, hf, hout, hin⟩
  | inside _ _ _ _ _ _ hin => exact absurd (hin co hmode) hout

theorem inv_goOn (h : Inv s) (hmode : s.mode co = .queued) (hwake : s.wakeupSession co = true) :
    Inv (goOn { s with
      wakeupSession := update s.wakeupSession co false
      mode := update s.mode co .free } co) := by
  obtain ⟨hcur, href, hf, hout, hin⟩ := h.woken hmode hwake
  have hself : update s.frames co (s.frames co + 1) co = s.frames co + 1 :=
    update_self ..
  rw [goOn, if_neg (not_not_intro href)]
  refine ⟨h.failed, h.nodup, fun t ht => ?_, ?_, .inside co rfl ?_ ?_ ?_ ?_ ?_⟩
  · have htco : t ≠ co := fun he => hout (he ▸ ht)
    obtain ⟨hmt, hwt⟩ := h.waiting t ht
    exact ⟨(update_of_ne htco ..).trans hmt, (update_of_ne htco ..).trans hwt⟩
  · rw [handed_inside (show s.ref + 1 ≠ 0 by omega)]
    show s.waited = (s.entered ++ [co]) ++ ([] ++ s.threadQueue)
    rw [h.order, handed_some hcur href, append_assoc, nil_append]
  · show s.ref + 1 = ((update s.frames co (s.frames co + 1) co : ℕ) : ℤ)
    rw [hself, href, hf co]
    rfl
  · show 0 < update s.frames co (s.frames co + 1) co
    omega
  · show update s.mode co .free co ≠ .queued
    rw [update_self]
    decide
  · intro t ht
    exact (update_of_ne ht ..).trans (hf t)
  · intro t ht
    have ht : update s.mode co .free t = .queued := ht
    have htco : t ≠ co := by
      rintro rfl
      rw [update_self] at ht
      cases ht
    exact (hin t ((update_of_ne htco ..).symm.trans ht)).resolve_left htco

theorem inv_step {i : Label} (h : Inv s) (hby : ByQueue s i) (hst : step s i = some s') :
    Inv s' := by
  cases i with
  | call co =>
    obtain ⟨hmode, rfl⟩ := of_guard hst
    by_cases hcur : s.currentThread ≠ none ∧ s.currentThread ≠ some co
    · exact inv_wait h hmode (hby hcur.1 hcur.2) hcur.1 hcur.2
    · exact inv_enter h hmode hcur
  | leave co =>
    obtain ⟨hmode, rfl⟩ := of_guard hst
    rcases Nat.lt_or_ge 1 (s.frames co) with hmore | hlast
    · exact inv_leave_more h hmore
    · exact inv_leave_last h (le_antisymm hlast hmode.2)
  | sleep co =>
    obtain ⟨hmode, rfl⟩ := of_guard hst
    have hkeep := inv_mode h (m := .asleep) (w := s.wakeupSession co)
      (by rw [hmode]; decide) (by decide)
    rwa [update_eq_self] at hkeep
  | wake co =>
    obtain rfl := Option.some.inj hst
    by_cases hwake : s.mode co ≠ .free ∧ s.wakeupSession co = false
    · have hkeep := inv_mode h (m := s.mode co) (w := true) hby hby
      rw [update_eq_self] at hkeep
      rwa [wakeup, if_pos hwake]
    · rwa [wakeup, if_neg hwake]
  | timeout co =>
    obtain ⟨hmode, rfl⟩ := of_guard hst
    have hkeep := inv_mode h (m := .free) (w := s.wakeupSession co)
      (by rw [hmode]; decide) (by decide)
    rwa [update_eq_self] at hkeep
  | resume co =>
    by_cases hwake : s.wakeupSession co = true
    · have hst := (if_pos hwake).symm.trans hst
      cases hmode : s.mode co with
      | free =>
        simp only [hmode] at hst
        obtain rfl := Option.some.inj hst
        have hkeep := inv_mode h (m := s.mode co) (w := false)
          (by rw [hmode]; decide) (by rw [hmode]; decide)
        rwa [update_eq_self] at hkeep
      | asleep =>
        simp only [hmode] at hst
        obtain rfl := Option.some.inj hst
        exact inv_mode h (by rw [hmode]; decide) (by decide)
      | queued =>
        simp only [hmode] at hst
        obtain rfl := Option.some.inj hst
        exact inv_goOn h hmode hwake
    · cases (if_neg hwake).symm.trans hst

theorem inv_reach (h : machine.Reach ByQueue s) : Inv s :=
  h.invariant .init fun _ _ _ hs hby hst => inv_step hs hby hst

theorem Inv.sound (h : Inv s) : Sound s where
  one t t' ht ht' := by
    obtain ⟨-, -, -, hothers, -⟩ := h.inside ht
    by_contra hne
    have := hothers t' (Ne.symm hne)
    omega
  asserted := h.failed
  order := h.order
  fair t s' hst hmode hframes := by
    obtain ⟨hfree, rfl⟩ := of_guard hst
    by_cases hcur : s.currentThread ≠ none ∧ s.currentThread ≠ some t
    · rw [call, if_pos hcur] at hmode
      exact absurd (update_self ..) hmode
    · cases h.owner with
      | nobody hnone _ hq => exact ⟨hnone, hq⟩
      | handed w hw _ _ hmw =>
        obtain rfl : w = t := by
          by_contra hne
          exact hcur (by simp [hw, hne])
        rw [hfree] at hmw
        cases hmw
      | inside w hw _ hpos =>
        obtain rfl : w = t := by
          by_contra hne
          exact hcur (by simp [hw, hne])
        omega
  reenter t ht hmode := by
    obtain ⟨hcur, -⟩ := h.inside ht
    refine ⟨_, if_pos hmode, ?_⟩
    rw [call, if_neg fun hbad => hbad.2 hcur]
    exact ⟨hmode, update_self ..⟩
  next t s' hst ht := by
    obtain ⟨-, rfl⟩ := of_guard hst
    rcases xpcallRet_last h ht with ⟨hq, hret⟩ | ⟨w, queue, hq, hret⟩
    · rw [hret, hq]
      exact ⟨fun _ => rfl, fun _ _ hbad => nomatch hbad⟩
    · rw [hret, hq]
      refine ⟨fun hbad => absurd hbad (cons_ne_nil w queue), fun v queue' heq => ?_⟩
      obtain ⟨rfl, rfl⟩ := List.cons.inj heq
      exact ⟨rfl, update_self .., rfl⟩

/-- The queue is a critical section, in every run in which nobody else wakes those who wait. -/
theorem critical_of_byQueue (h : machine.Reach ByQueue s) : Sound s := (inv_reach h).sound

/-- A second coroutine waits while the first calls the queue again, is handed the queue when the first
left it, and a third one waits although nobody is inside. -/
theorem critical_of_byQueue_run : ∃ s, Sound s ∧ s.waited = [1, 2] ∧ s.entered = [1]
    ∧ s.threadQueue = [2] := by
  have h₀ : machine.Reach ByQueue machine.init := .init
  have h₁ := h₀.step (i := Label.call 0) (fun _ _ => rfl) rfl
  have h₂ := h₁.step (i := Label.call 1) (fun _ _ => rfl) rfl
  have h₃ := h₂.step (i := Label.call 0) (fun _ _ => rfl) rfl
  have h₄ := h₃.step (i := Label.leave 0) trivial rfl
  have h₅ := h₄.step (i := Label.leave 0) trivial rfl
  have h₆ := h₅.step (i := Label.call 2) (fun _ _ => rfl) rfl
  have h₇ := h₆.step (i := Label.resume 1) trivial rfl
  exact ⟨_, critical_of_byQueue h₇, rfl, rfl, rfl⟩

end SkynetQueue

end SkynetGame
