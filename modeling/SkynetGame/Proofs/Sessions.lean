import SkynetGame.Proofs.LuaService

/-!
# Which coroutine a session belongs to

A coroutine that waits for a session is the one that `session_id_coroutine` has for it, and the
only one, as long as no session is drawn that is still in use and `skynet.wait` is given no
coroutine but the one that calls it (`LuaService.Orderly`). A coroutine that was taken out of its
table, to be resumed, is the one in hand.
-/

namespace SkynetGame

open Function List Option

namespace LuaService

variable {α : Type*}

section Wired

variable (s : LuaService α)

/-- The session that a coroutine waits for. -/
def waitsFor (c : ℕ) : Option ℕ :=
  match s.coState c with
  | .calling k => some (s.calls k).session
  | .asleep n => some (s.naps n).session
  | _ => none

def Fresh : Prop :=
  s.sessionIdCoroutine s.newSession = none ∧ s.newSession ∉ s.errorQueue ∧
    ∀ p ∈ s.watchingSession, p.1 ≠ s.newSession

instance : Decidable s.Fresh := inferInstanceAs (Decidable (_ ∧ _ ∧ _))

/-- No session that is drawn is in use, and `skynet.wait` is given the coroutine that calls it, or
none. -/
def Orderly (s : LuaService α) : LuaStep α → Prop
  | .call _ => s.Fresh
  | .sleep => s.Fresh
  | .wait co => s.Fresh ∧ (co = none ∨ co = s.running)
  | _ => True

instance (s : LuaService α) : ∀ i : LuaStep α, Decidable (Orderly s i)
  | .call _ => inferInstanceAs (Decidable s.Fresh)
  | .sleep => inferInstanceAs (Decidable s.Fresh)
  | .wait co => inferInstanceAs (Decidable (s.Fresh ∧ (co = none ∨ co = s.running)))
  | .response .. | .error .. | .request .. | .badRequest .. | .unknown .. | .genid .. |
    .timeout .. | .fork .. | .wakeup .. | .respond .. | .test .. | .term .. | .ret .. |
    .yieldResponse .. | .exit .. | .finish .. | .raise .. | .yield .. | .dispatchWakeup .. |
    .dispatchErrorQueue .. | .forked .. | .done .. => isTrue trivial

/-- Who waits for what, where `hand` was taken out of the tables. -/
structure Wired (hand : Option ℕ) (s : LuaService α) : Prop where
  running : ∀ c, s.coState c = .running ↔ s.ctl = .run c
  new : ∀ c, s.nCos ≤ c → s.coState c = .dead
  nodup : s.coroutinePool.Nodup
  pool : ∀ c ∈ s.coroutinePool, s.coState c = .pooled
  entry : ∀ x c, s.sessionIdCoroutine x = some (.co c) →
    s.waitsFor c = some x ∨ s.coState c = .ready
  inj : ∀ x y c, s.sessionIdCoroutine x = some (.co c) → s.sessionIdCoroutine y = some (.co c) →
    x = y
  hooked : ∀ c x, s.waitsFor c = some x → hand ≠ some c → s.sessionIdCoroutine x = some (.co c)
  inHand : ∀ c, hand = some c → (∀ x, s.sessionIdCoroutine x ≠ some (.co c)) ∧ c ∉ s.forkQueue ∧
    ∀ x, s.waitsFor c = some x → ∀ c', s.sessionIdCoroutine x ≠ some (.co c')
  forks : s.forkQueue.Nodup
  forkReady : ∀ c ∈ s.forkQueue, s.coState c = .ready ∧ ∀ x, s.sessionIdCoroutine x ≠ some (.co c)
  calling : ∀ c k, s.coState c = .calling k → k < s.nCalls ∧ (s.calls k).co = c ∧
    ((s.calls k).session, (s.calls k).target) ∈ s.watchingSession
  asleep : ∀ c n, s.coState c = .asleep n → n < s.nNaps ∧ (s.naps n).co = c ∧
    s.sleepSession c = some (s.naps n).session
  sleeping : ∀ c x, s.sleepSession c = some x → ∃ n, s.coState c = .asleep n
  own : ∀ n t, (s.naps n).wait = some t → t.getD (s.naps n).co = (s.naps n).co
  watching : ∀ x a, (x, a) ∈ s.watchingSession →
    ∃ c k, s.coState c = .calling k ∧ (s.calls k).session = x ∧ (s.calls k).target = a
  queue : ∀ x ∈ s.errorQueue, s.sessionIdCoroutine x ≠ some .broken ∧
    ∀ c n, s.sessionIdCoroutine x = some (.co c) → s.coState c ≠ .asleep n

/-- No table is different, but for queued forks that are dropped. -/
structure SameWires (s s' : LuaService α) : Prop where
  entry : s'.sessionIdCoroutine = s.sessionIdCoroutine
  sleep : s'.sleepSession = s.sleepSession
  watching : s'.watchingSession = s.watchingSession
  queue : s'.errorQueue = s.errorQueue
  forks : s'.forkQueue.Sublist s.forkQueue
  nCos : s'.nCos = s.nCos
  nCalls : s'.nCalls = s.nCalls
  nNaps : s'.nNaps = s.nNaps
  calls : ∀ k, (s'.calls k).co = (s.calls k).co ∧ (s'.calls k).session = (s.calls k).session ∧
    (s'.calls k).target = (s.calls k).target
  naps : ∀ n, (s'.naps n).co = (s.naps n).co ∧ (s'.naps n).session = (s.naps n).session ∧
    (s'.naps n).wait = (s.naps n).wait

/-- What the places of the coroutines depend on, but for the forks. -/
def wires :=
  ((s.sessionIdCoroutine, s.sleepSession, s.watchingSession, s.errorQueue, s.nCos, s.nCalls,
      s.nNaps),
    (fun k => ((s.calls k).co, (s.calls k).session, (s.calls k).target)),
    fun n => ((s.naps n).co, (s.naps n).session, (s.naps n).wait))

variable {s} in
theorem SameWires.of {s' : LuaService α} (h : s'.wires = s.wires)
    (hf : s'.forkQueue.Sublist s.forkQueue) : SameWires s s' := by
  simp only [wires, Prod.mk.injEq] at h
  obtain ⟨⟨h₁, h₂, h₃, h₄, h₅, h₆, h₇⟩, hk, hn⟩ := h
  exact ⟨h₁, h₂, h₃, h₄, hf, h₅, h₆, h₇, fun k => by simpa using congrFun hk k,
    fun n => by simpa using congrFun hn n⟩

end Wired

namespace Wired

variable {hand : Option ℕ} {s s' : LuaService α}

theorem waitsFor_calling {c k : ℕ} (h : s.coState c = .calling k) :
    s.waitsFor c = some (s.calls k).session := by
  simp [waitsFor, h]

theorem waitsFor_asleep {c n : ℕ} (h : s.coState c = .asleep n) :
    s.waitsFor c = some (s.naps n).session := by
  simp [waitsFor, h]

theorem waitsFor_eq_some {c x : ℕ} (h : s.waitsFor c = some x) :
    (∃ k, s.coState c = .calling k ∧ (s.calls k).session = x) ∨
      ∃ n, s.coState c = .asleep n ∧ (s.naps n).session = x := by
  unfold waitsFor at h
  split at h
  · rename_i k hk
    exact .inl ⟨k, hk, by simpa using h⟩
  · rename_i n hn
    exact .inr ⟨n, hn, by simpa using h⟩
  · cases h

theorem waitsFor_congr (e : SameWires s s') {c : ℕ} (hc : s'.coState c = s.coState c) :
    s'.waitsFor c = s.waitsFor c := by
  simp only [waitsFor, hc, (e.calls _).2.1, (e.naps _).2.1]

theorem none_runs (h : Wired hand s) (hn : s.running = none) (c : ℕ) : s.coState c ≠ .running :=
  fun hr => ctl_ne_run hn c ((h.running c).1 hr)

theorem alone (h : Wired hand s) {c : ℕ} (hc : s.ctl = .run c) {c' : ℕ} (hne : c' ≠ c) :
    s.coState c' ≠ .running := by
  intro hr
  have := (h.running c').1 hr
  rw [hc] at this
  exact hne (by simpa using this.symm)

theorem no_entry (h : Wired hand s) {c : ℕ} (hw : s.waitsFor c = none) (hr : s.coState c ≠ .ready)
    (x : ℕ) : s.sessionIdCoroutine x ≠ some (.co c) := by
  intro he
  rcases h.entry x c he with hx | hx
  · simp [hw] at hx
  · exact hr hx

theorem not_mem_forkQueue (h : Wired hand s) {c : ℕ} (hr : s.coState c ≠ .ready) :
    c ∉ s.forkQueue :=
  fun hm => hr (h.forkReady c hm).1

theorem kept (h : Wired hand s) (e : SameWires s s') (hp : s'.coroutinePool = s.coroutinePool)
    (hst : s'.coState = s.coState) (hr : ∀ c, s'.ctl = .run c ↔ s.ctl = .run c) :
    Wired hand s' := by
  have hw (c : ℕ) : s'.waitsFor c = s.waitsFor c := waitsFor_congr e (congrFun hst c)
  exact
    { running := fun c => by rw [hst, hr]; exact h.running c
      new := fun c hn => by
        rw [e.nCos] at hn
        rw [hst]
        exact h.new c hn
      nodup := by rw [hp]; exact h.nodup
      pool := by rw [hp, hst]; exact h.pool
      entry := fun x c => by rw [e.entry, hw, hst]; exact h.entry x c
      inj := by rw [e.entry]; exact h.inj
      hooked := fun c x => by rw [e.entry, hw]; exact h.hooked c x
      inHand := fun c hc => by
        obtain ⟨h₁, h₂, h₃⟩ := h.inHand c hc
        simp only [e.entry, hw]
        exact ⟨h₁, fun hm => h₂ (e.forks.subset hm), h₃⟩
      forks := h.forks.sublist e.forks
      forkReady := fun c hm => by rw [hst, e.entry]; exact h.forkReady c (e.forks.subset hm)
      calling := fun c k => by
        rw [hst, e.nCalls, e.watching, (e.calls k).1, (e.calls k).2.1, (e.calls k).2.2]
        exact h.calling c k
      asleep := fun c n => by
        rw [hst, e.nNaps, e.sleep, (e.naps n).1, (e.naps n).2.1]
        exact h.asleep c n
      sleeping := by rw [e.sleep, hst]; exact h.sleeping
      own := fun n t => by rw [(e.naps n).1, (e.naps n).2.2]; exact h.own n t
      watching := fun x a hm => by
        rw [e.watching] at hm
        obtain ⟨c, k, hk, hx, ha⟩ := h.watching x a hm
        exact ⟨c, k, by rw [hst, hk], by rw [(e.calls k).2.1, hx], by rw [(e.calls k).2.2, ha]⟩
      queue := by rw [e.queue, e.entry, hst]; exact h.queue }

theorem moved (h : Wired none s) (e : SameWires s s')
    (hp : s'.coroutinePool.Sublist s.coroutinePool) {c : ℕ} {t : CoState}
    (hst : s'.coState = update s.coState c t)
    (hr : ∀ c', s'.coState c' = .running ↔ s'.ctl = .run c') (hc : c < s.nCos ∨ t = .dead)
    (hpool : c ∉ s'.coroutinePool) (hw : s.waitsFor c = none) (hready : s.coState c ≠ .ready)
    (hw' : ∀ k, t ≠ .calling k ∧ t ≠ .asleep k) : Wired none s' := by
  have hs' : s'.waitsFor c = none := by
    unfold waitsFor
    rw [hst, update_self]
    split
    · exact absurd rfl (hw' _).1
    · exact absurd rfl (hw' _).2
    · rfl
  have hne {c' : ℕ} (hcc : c' ≠ c) : s'.coState c' = s.coState c' := by
    rw [hst, update_of_ne hcc]
  have hwne {c' : ℕ} (hcc : c' ≠ c) : s'.waitsFor c' = s.waitsFor c' :=
    waitsFor_congr e (hne hcc)
  exact
    { running := hr
      new := fun c' hn => by
        rw [e.nCos] at hn
        by_cases hcc : c' = c
        · subst hcc
          rw [hst, update_self]
          rcases hc with hc | hc
          · omega
          · exact hc
        · rw [hne hcc]
          exact h.new c' hn
      nodup := h.nodup.sublist hp
      pool := fun c' hm => by
        rw [hne fun hcc => hpool (hcc ▸ hm)]
        exact h.pool c' (hp.subset hm)
      entry := fun x c' hx => by
        rw [e.entry] at hx
        have hcc : c' ≠ c := fun hcc => h.no_entry hw hready x (hcc ▸ hx)
        rw [hwne hcc, hne hcc]
        exact h.entry x c' hx
      inj := fun x y c' => by rw [e.entry]; exact h.inj x y c'
      hooked := fun c' x hx _ => by
        have hcc : c' ≠ c := fun hcc => by simp [hcc, hs'] at hx
        rw [hwne hcc] at hx
        rw [e.entry]
        exact h.hooked c' x hx (by simp)
      inHand := fun c' hc' => by cases hc'
      forks := h.forks.sublist e.forks
      forkReady := fun c' hm => by
        have hm := e.forks.subset hm
        rw [hne fun hcc => h.not_mem_forkQueue hready (hcc ▸ hm), e.entry]
        exact h.forkReady c' hm
      calling := fun c' k hk => by
        have hcc : c' ≠ c := fun hcc => by
          rw [hcc, hst, update_self] at hk
          exact (hw' k).1 hk
        rw [hne hcc] at hk
        rw [e.nCalls, e.watching, (e.calls k).1, (e.calls k).2.1, (e.calls k).2.2]
        exact h.calling c' k hk
      asleep := fun c' n hk => by
        have hcc : c' ≠ c := fun hcc => by
          rw [hcc, hst, update_self] at hk
          exact (hw' n).2 hk
        rw [hne hcc] at hk
        rw [e.nNaps, e.sleep, (e.naps n).1, (e.naps n).2.1]
        exact h.asleep c' n hk
      sleeping := fun c' x hx => by
        rw [e.sleep] at hx
        obtain ⟨n, hn⟩ := h.sleeping c' x hx
        have hcc : c' ≠ c := fun hcc => by simp [waitsFor, ← hcc, hn] at hw
        exact ⟨n, by rw [hne hcc, hn]⟩
      own := fun n t hn => by
        rw [(e.naps n).2.2] at hn
        rw [(e.naps n).1]
        exact h.own n t hn
      watching := fun x a hm => by
        rw [e.watching] at hm
        obtain ⟨c', k, hk, hx, ha⟩ := h.watching x a hm
        have hcc : c' ≠ c := fun hcc => by simp [waitsFor, ← hcc, hk] at hw
        exact ⟨c', k, by rw [hne hcc, hk], by rw [(e.calls k).2.1, hx], by rw [(e.calls k).2.2, ha]⟩
      queue := fun x hx => by
        rw [e.queue] at hx
        rw [e.entry]
        refine ⟨(h.queue x hx).1, fun c' n he => ?_⟩
        have hcc : c' ≠ c := fun hcc => h.no_entry hw hready x (hcc ▸ he)
        rw [hne hcc]
        exact (h.queue x hx).2 c' n he }

theorem take (h : Wired none s) {x c : ℕ} {v : Option SessionEntry}
    (hx : s.sessionIdCoroutine x = some (.co c)) (hv : ∀ c', v ≠ some (.co c'))
    (hq : x ∈ s.errorQueue → v = none) :
    Wired (some c)
      { s with sessionIdCoroutine := update s.sessionIdCoroutine x v } := by
  have hentry {y c' : ℕ} (hy : update s.sessionIdCoroutine x v y = some (.co c')) :
      y ≠ x ∧ s.sessionIdCoroutine y = some (.co c') := by
    by_cases hyx : y = x
    · subst hyx
      exact absurd (by simpa using hy) (hv c')
    · exact ⟨hyx, by simpa [hyx] using hy⟩
  have hnot (y : ℕ) : update s.sessionIdCoroutine x v y ≠ some (.co c) := fun hy =>
    (hentry hy).1 (h.inj _ _ _ (hentry hy).2 hx)
  have hother {c' y : ℕ} (hcc : c' ≠ c) (hy : s.waitsFor c' = some y) :
      update s.sessionIdCoroutine x v y = some (.co c') := by
    have hy := h.hooked c' y hy (by simp)
    rw [update_of_ne, hy]
    rintro rfl
    simp [hy] at hx
    exact hcc hx
  exact
    { h with
      entry := fun y c' hy => h.entry y c' (hentry hy).2
      inj := fun y z c' hy hz => h.inj y z c' (hentry hy).2 (hentry hz).2
      hooked := fun c' y hy hne => hother (fun hcc => hne (by rw [hcc])) hy
      inHand := fun c' hc' => by
        obtain rfl : c = c' := by simpa using hc'
        refine ⟨hnot, fun hm => (h.forkReady c hm).2 x hx, fun y hy c' hc' => ?_⟩
        have : s.sessionIdCoroutine y = some (.co c) := h.hooked c y hy (by simp)
        exact (hentry hc').1 (h.inj _ _ _ this hx)
      forkReady := fun c' hm => ⟨(h.forkReady c' hm).1, fun y hy => (h.forkReady c' hm).2 y (hentry hy).2⟩
      calling := h.calling
      queue := fun y hy => by
        have hy' := h.queue y hy
        refine ⟨fun hb => ?_, fun c' n hc' => hy'.2 c' n (hentry hc').2⟩
        by_cases hyx : y = x
        · subst hyx
          simp [hq hy] at hb
        · exact hy'.1 (by simpa [hyx] using hb) }

theorem runs {c : ℕ} (h : Wired (some c) s) (hn : s.running = none)
    (hd : s.coState c ≠ .dead) (hp : s.coState c ≠ .pooled)
    (hst : s'.coState = update s.coState c .running) (hctl : s'.ctl = .run c)
    (he : ∀ x c', s'.sessionIdCoroutine x = some (.co c') ↔ s.sessionIdCoroutine x = some (.co c'))
    (hb : ∀ x, s'.sessionIdCoroutine x = some .broken → s.sessionIdCoroutine x = some .broken)
    (hsl : s'.sleepSession = update s.sleepSession c none)
    (hwa : ∀ x a, (x, a) ∈ s'.watchingSession ↔
      (x, a) ∈ s.watchingSession ∧ s.waitsFor c ≠ some x)
    (hq : s'.errorQueue = s.errorQueue) (hf : s'.forkQueue = s.forkQueue)
    (hpo : s'.coroutinePool = s.coroutinePool) (hnc : s'.nCos = s.nCos)
    (hnk : s'.nCalls = s.nCalls) (hnn : s'.nNaps = s.nNaps)
    (hk : ∀ k, (s'.calls k).co = (s.calls k).co ∧ (s'.calls k).session = (s.calls k).session ∧
      (s'.calls k).target = (s.calls k).target)
    (hm : ∀ n, (s'.naps n).co = (s.naps n).co ∧ (s'.naps n).session = (s.naps n).session ∧
      (s'.naps n).wait = (s.naps n).wait) : Wired none s' := by
  obtain ⟨hnot, hnf, hcl⟩ := h.inHand c rfl
  have hrun : s'.coState c = .running := by simp [hst]
  have hne {c' : ℕ} (hcc : c' ≠ c) : s'.coState c' = s.coState c' := by
    rw [hst, update_of_ne hcc]
  have hwc : s'.waitsFor c = none := by simp [waitsFor, hrun]
  have hwne {c' : ℕ} (hcc : c' ≠ c) : s'.waitsFor c' = s.waitsFor c' := by
    simp only [waitsFor, hne hcc, (hk _).2.1, (hm _).2.1]
  have hhook {c' x : ℕ} (hcc : c' ≠ c) (hx : s.waitsFor c' = some x) :
      s.sessionIdCoroutine x = some (.co c') := h.hooked c' x hx fun hq => hcc (by simpa using hq.symm)
  have hapart {c' x : ℕ} (hcc : c' ≠ c) (hx : s.waitsFor c' = some x) : s.waitsFor c ≠ some x :=
    fun hxc => hcl x hxc c' (hhook hcc hx)
  exact
    { running := fun c' => by
        by_cases hcc : c' = c
        · simp [hcc, hrun, hctl]
        · rw [hne hcc]
          simpa [hctl, Ne.symm hcc] using h.none_runs hn c'
      new := fun c' hn' => by
        rw [hnc] at hn'
        have hcc : c' ≠ c := fun hcc => hd (hcc ▸ h.new c' hn')
        rw [hne hcc]
        exact h.new c' hn'
      nodup := by rw [hpo]; exact h.nodup
      pool := fun c' hm' => by
        rw [hpo] at hm'
        have hcc : c' ≠ c := fun hcc => hp (hcc ▸ h.pool c' hm')
        rw [hne hcc]
        exact h.pool c' hm'
      entry := fun x c' hx => by
        have hx := (he x c').1 hx
        have hcc : c' ≠ c := fun hcc => hnot x (hcc ▸ hx)
        rw [hwne hcc, hne hcc]
        exact h.entry x c' hx
      inj := fun x y c' hx hy => h.inj x y c' ((he x c').1 hx) ((he y c').1 hy)
      hooked := fun c' x hx _ => by
        have hcc : c' ≠ c := fun hcc => by simp [hcc, hwc] at hx
        rw [hwne hcc] at hx
        exact (he x c').2 (hhook hcc hx)
      inHand := fun c' hc' => by cases hc'
      forks := by rw [hf]; exact h.forks
      forkReady := fun c' hm' => by
        rw [hf] at hm'
        rw [hne fun hcc => hnf (hcc ▸ hm')]
        exact ⟨(h.forkReady c' hm').1, fun x hx => (h.forkReady c' hm').2 x ((he x c').1 hx)⟩
      calling := fun c' k hk' => by
        have hcc : c' ≠ c := fun hcc => by simp [hcc, hrun] at hk'
        rw [hne hcc] at hk'
        obtain ⟨h₁, h₂, h₃⟩ := h.calling c' k hk'
        rw [hnk, (hk k).1, (hk k).2.1, (hk k).2.2]
        exact ⟨h₁, h₂, (hwa _ _).2 ⟨h₃, hapart hcc (waitsFor_calling hk')⟩⟩
      asleep := fun c' n hn' => by
        have hcc : c' ≠ c := fun hcc => by simp [hcc, hrun] at hn'
        rw [hne hcc] at hn'
        rw [hnn, hsl, (hm n).1, (hm n).2.1, update_of_ne hcc]
        exact h.asleep c' n hn'
      sleeping := fun c' x hx => by
        have hcc : c' ≠ c := fun hcc => by simp [hcc, hsl] at hx
        rw [hsl, update_of_ne hcc] at hx
        rw [hne hcc]
        exact h.sleeping c' x hx
      own := fun n t => by rw [(hm n).1, (hm n).2.2]; exact h.own n t
      watching := fun x a hm' => by
        obtain ⟨hm', hx'⟩ := (hwa x a).1 hm'
        obtain ⟨c', k, hk', hx, ha⟩ := h.watching x a hm'
        have hcc : c' ≠ c := fun hcc => hx' (by rw [← hcc, waitsFor_calling hk', hx])
        exact ⟨c', k, by rw [hne hcc, hk'], by rw [(hk k).2.1, hx], by rw [(hk k).2.2, ha]⟩
      queue := fun x hx => by
        rw [hq] at hx
        refine ⟨fun hxb => (h.queue x hx).1 (hb x hxb), fun c' n hc' => ?_⟩
        have hc' := (he x c').1 hc'
        rw [hne fun hcc => hnot x (hcc ▸ hc')]
        exact (h.queue x hx).2 c' n hc' }

theorem resume {c : ℕ} (h : Wired (some c) s) (hn : s.running = none)
    (hst : s.waitsFor c ≠ none ∨ s.coState c = .ready) (v : ResumeArg) :
    Wired none (s.resume c v) := by
  have hw : ∀ x a, (x, a) ∈ s.watchingSession → (∀ k, s.coState c ≠ .calling k) →
      s.waitsFor c ≠ some x := by
    intro x a hm hk hx
    obtain ⟨c', k, hk', hx', -⟩ := h.watching x a hm
    have hcc : c' ≠ c := fun hcc => hk k (hcc ▸ hk')
    exact (h.inHand c rfl).2.2 x hx c'
      (h.hooked c' x (by rw [waitsFor_calling hk', hx']) fun hq => hcc (by simpa using hq.symm))
  unfold LuaService.resume
  split
  · rename_i hc
    simp [waitsFor, hc] at hst
  · rename_i hc
    simp [waitsFor, hc] at hst
  · rename_i hc
    simp [waitsFor, hc] at hst
  · rename_i k hc
    have hsl : s.sleepSession c = none := by
      rcases hs : s.sleepSession c with _ | x
      · rfl
      · obtain ⟨n, hn'⟩ := h.sleeping c x hs
        simp [hc] at hn'
    refine h.runs hn (by simp [hc]) (by simp [hc]) rfl rfl (fun _ _ => Iff.rfl) (fun _ => id)
      ?_ (fun x a => ?_) rfl rfl rfl rfl rfl rfl (fun k' => ?_) fun _ => ⟨rfl, rfl, rfl⟩
    · rw [← hsl]
      exact (update_eq_self c s.sleepSession).symm
    · rw [waitsFor_calling hc]
      simp [LuaService.runs, setState, eq_comm (a := x)]
    · by_cases hkk : k' = k
      · simp [hkk, LuaService.runs, setState]
      · simp [hkk, LuaService.runs, setState]
  · rename_i n hc
    have hnaps (n' : ℕ) (ends : List ResumeArg) :
        let naps := update s.naps n { s.naps n with ends := ends }
        (naps n').co = (s.naps n').co ∧ (naps n').session = (s.naps n').session ∧
          (naps n').wait = (s.naps n').wait := by
      by_cases hnn : n' = n
      · simp [hnn]
      · simp [hnn]
    simp only []
    split
    · exact h.runs hn (by simp [hc]) (by simp [hc]) rfl rfl (fun _ _ => Iff.rfl) (fun _ => id)
        rfl (fun x a => ⟨fun hm => ⟨hm, hw x a hm (by simp [hc])⟩, And.left⟩) rfl rfl rfl rfl rfl rfl
        (fun _ => ⟨rfl, rfl, rfl⟩) fun n' => hnaps n' _
    · rename_i t ht
      have hcl := (h.inHand c rfl).2.2 _ (waitsFor_asleep hc)
      have hown : t.getD c = c := by
        have := h.own n t ht
        rwa [(h.asleep c n hc).2.1] at this
      refine h.runs hn (by simp [hc]) (by simp [hc]) rfl rfl (fun x c' => ?_) (fun x hx => ?_)
        ?_ (fun x a => ⟨fun hm => ⟨hm, hw x a hm (by simp [hc])⟩, And.left⟩) rfl rfl rfl rfl rfl rfl
        (fun _ => ⟨rfl, rfl, rfl⟩) fun n' => hnaps n' _
      · by_cases hx : x = (s.naps n).session
        · subst hx
          simpa [LuaService.runs, setState] using hcl c'
        · simp [LuaService.runs, setState, hx]
      · by_cases hx' : x = (s.naps n).session
        · simp [LuaService.runs, setState, hx'] at hx
        · simpa [LuaService.runs, setState, hx'] using hx
      · simp [LuaService.runs, setState, hown]
  · rename_i hpo _ hde hca has
    have hre : s.coState c = .ready := by
      refine hst.resolve_left fun hw' => ?_
      obtain ⟨x, hx⟩ := ne_none_iff_exists'.1 hw'
      obtain ⟨k, hk, -⟩ | ⟨n, hn', -⟩ := waitsFor_eq_some hx
      · exact hca k hk
      · exact has n hn'
    have hsl : s.sleepSession c = none := by
      rcases hs : s.sleepSession c with _ | x
      · rfl
      · obtain ⟨n, hn'⟩ := h.sleeping c x hs
        simp [hre] at hn'
    refine h.runs hn hde hpo rfl rfl (fun _ _ => Iff.rfl) (fun _ => id) ?_
      (fun x a => ⟨fun hm => ⟨hm, hw x a hm (by simp [hre])⟩, And.left⟩) rfl rfl rfl rfl rfl rfl
      (fun _ => ⟨rfl, rfl, rfl⟩) fun _ => ⟨rfl, rfl, rfl⟩
    rw [← hsl]
    exact (update_eq_self c s.sleepSession).symm

theorem coCreate (h : Wired none s) {co : Option ℕ} {c : ℕ}
    (hc : s.coCreate co = some (c, s')) :
    Wired none s' ∧ s'.coState c = .ready ∧ (∀ x, s'.sessionIdCoroutine x ≠ some (.co c)) ∧
      c ∉ s'.forkQueue := by
  obtain ⟨-, rfl, rfl⟩ | ⟨-, hm, rfl⟩ := coCreate_cases hc
  · have hd : s.coState s.nCos = .dead := h.new _ le_rfl
    have hw : s.waitsFor s.nCos = none := by simp [waitsFor, hd]
    have hgrow : Wired none { s with nCos := s.nCos + 1 } :=
      { h with new := fun c hn => h.new c (Nat.le_of_succ_le hn) }
    refine ⟨hgrow.moved (c := s.nCos) (t := .ready) ?_ (.refl _) rfl (fun c' => ?_)
      (.inl (Nat.lt_succ_self _)) (fun hm => ?_) hw (by simp [hd]) (by simp), by simp,
      h.no_entry hw (by simp [hd]), h.not_mem_forkQueue (by simp [hd])⟩
    · exact .of rfl (.refl _)
    · by_cases hcc : c' = s.nCos
      · have := h.running s.nCos
        simpa [hcc, hd, setState] using this
      · simpa [hcc, setState] using h.running c'
    · have := h.pool _ hm
      simp [hd] at this
  · have hp := h.pool c hm
    have hw : s.waitsFor c = none := by simp [waitsFor, hp]
    refine ⟨h.moved (c := c) (t := .ready) ?_ erase_sublist (by simp [hp]) (fun c' => ?_)
      (.inl ?_) h.nodup.not_mem_erase hw (by simp [hp]) (by simp), by simp [hp],
      h.no_entry hw (by simp [hp]), h.not_mem_forkQueue (by simp [hp])⟩
    · exact .of rfl (.refl _)
    · by_cases hcc : c' = c
      · have := h.running c
        simpa [hcc, hp, setState] using this
      · simpa [hcc, setState] using h.running c'
    · by_contra hlt
      have := h.new c (by omega)
      simp [hp] at this

theorem inReadyHand (h : Wired none s) {c : ℕ} (hc : s.coState c = .ready)
    (he : ∀ x, s.sessionIdCoroutine x ≠ some (.co c)) (hf : c ∉ s.forkQueue) :
    Wired (some c) s :=
  { h with
    hooked := fun c' x hx _ => h.hooked c' x hx (by simp)
    inHand := fun c' hc' => by
      obtain rfl : c = c' := by simpa using hc'
      exact ⟨he, hf, fun x hx => by simp [waitsFor, hc] at hx⟩ }

theorem takeFork (h : Wired none s) {c : ℕ} (hc : c ∈ s.forkQueue) :
    Wired (some c) { s with forkQueue := s.forkQueue.erase c } := by
  have hf := h.forkReady c hc
  have h' : Wired none { s with forkQueue := s.forkQueue.erase c } :=
    h.kept ⟨rfl, rfl, rfl, rfl, erase_sublist, rfl, rfl, rfl, fun _ => ⟨rfl, rfl, rfl⟩,
      fun _ => ⟨rfl, rfl, rfl⟩⟩ rfl rfl fun _ => Iff.rfl
  exact h'.inReadyHand hf.1 hf.2 h.forks.not_mem_erase

theorem fork (h : Wired none s) {co : Option ℕ} (hf : s.fork co = some s') : Wired none s' := by
  obtain ⟨⟨c, s₁⟩, hs₁, rfl⟩ := map_eq_some_iff.1 hf
  obtain ⟨h₁, hr, he, hnf⟩ := h.coCreate hs₁
  exact
    { h₁ with
      inHand := fun c' hc' => by cases hc'
      forks := h₁.forks.append (by simp) (by simpa using hnf)
      forkReady := fun c' hm => by
        rcases mem_append.1 hm with hm | hm
        · exact h₁.forkReady c' hm
        · obtain rfl : c' = c := by simpa using hm
          exact ⟨hr, he⟩ }

theorem timeout (h : Wired none s) {co : Option ℕ} (ht : s.timeout co = some s') :
    Wired none s' := by
  obtain ⟨⟨c, s₁⟩, hs₁, rfl⟩ := map_eq_some_iff.1 ht
  have h₀ : Wired none { s with sessionId := s.newSession } :=
    h.kept (.of rfl (.refl _)) rfl rfl fun _ => Iff.rfl
  obtain ⟨h₁, hr, he, hnf⟩ := h₀.coCreate hs₁
  simp only []
  split
  · rename_i hx
    have hentry {x c' : ℕ} (hc' : update s₁.sessionIdCoroutine s.newSession (some (.co c)) x
        = some (.co c')) : x = s.newSession ∧ c' = c ∨
          x ≠ s.newSession ∧ c' ≠ c ∧ s₁.sessionIdCoroutine x = some (.co c') := by
      by_cases hxs : x = s.newSession
      · subst hxs
        exact .inl ⟨rfl, by simpa [eq_comm] using hc'⟩
      · rw [update_of_ne hxs] at hc'
        exact .inr ⟨hxs, fun hcc => he x (hcc ▸ hc'), hc'⟩
    exact
      { h₁ with
        entry := fun x c' hc' => by
          obtain ⟨rfl, rfl⟩ | ⟨-, -, hc'⟩ := hentry hc'
          · exact .inr hr
          · exact h₁.entry x c' hc'
        inj := fun x y c' hxc hyc => by
          obtain ⟨rfl, rfl⟩ | ⟨-, hcc, hxc⟩ := hentry hxc
          · obtain ⟨rfl, -⟩ | ⟨-, hcc, -⟩ := hentry hyc
            · rfl
            · exact absurd rfl hcc
          · obtain ⟨-, rfl⟩ | ⟨-, -, hyc⟩ := hentry hyc
            · exact absurd rfl hcc
            · exact h₁.inj x y c' hxc hyc
        hooked := fun c' x hx' hh => by
          have := h₁.hooked c' x hx' hh
          have hxs : x ≠ s.newSession := fun hxs => by simp [← hxs, this] at hx
          simpa [hxs] using this
        inHand := fun c' hc' => by cases hc'
        forkReady := fun c' hm => by
          refine ⟨(h₁.forkReady c' hm).1, fun x hxc => ?_⟩
          obtain ⟨-, rfl⟩ | ⟨-, -, hxc⟩ := hentry hxc
          · exact hnf hm
          · exact (h₁.forkReady c' hm).2 x hxc
        queue := fun x hxq => by
          refine ⟨fun hb => ?_, fun c' n hc' => ?_⟩
          · by_cases hxs : x = s.newSession
            · simp [hxs] at hb
            · exact (h₁.queue x hxq).1 (by simpa [hxs] using hb)
          · obtain ⟨-, rfl⟩ | ⟨-, -, hc'⟩ := hentry hc'
            · simp [hr]
            · exact (h₁.queue x hxq).2 c' n hc' }
  · exact h₁

theorem suspends (h : Wired none s) {c x : ℕ} {t : CoState} (hc : s.ctl = .run c)
    (hx : s.sessionIdCoroutine x = none) (hxq : x ∉ s.errorQueue)
    (hst : s'.coState = update s.coState c t) (hw : s'.waitsFor c = some x)
    (hwne : ∀ c', c' ≠ c → s'.waitsFor c' = s.waitsFor c')
    (he : s'.sessionIdCoroutine = update s.sessionIdCoroutine x (some (.co c)))
    (hctl : s'.running = none) (hpo : s'.coroutinePool = s.coroutinePool)
    (hf : s'.forkQueue = s.forkQueue) (hnc : s'.nCos = s.nCos)
    (hq : s'.errorQueue = s.errorQueue)
    (calling : ∀ c k, s'.coState c = .calling k → k < s'.nCalls ∧ (s'.calls k).co = c ∧
      ((s'.calls k).session, (s'.calls k).target) ∈ s'.watchingSession)
    (asleep : ∀ c n, s'.coState c = .asleep n → n < s'.nNaps ∧ (s'.naps n).co = c ∧
      s'.sleepSession c = some (s'.naps n).session)
    (sleeping : ∀ c x, s'.sleepSession c = some x → ∃ n, s'.coState c = .asleep n)
    (own : ∀ n t, (s'.naps n).wait = some t → t.getD (s'.naps n).co = (s'.naps n).co)
    (watching : ∀ x a, (x, a) ∈ s'.watchingSession →
      ∃ c k, s'.coState c = .calling k ∧ (s'.calls k).session = x ∧ (s'.calls k).target = a) :
    Wired none s' := by
  have hrun : s.coState c = .running := (h.running c).2 hc
  have hnot := h.no_entry (c := c) (by simp [waitsFor, hrun]) (by simp [hrun])
  have hnf := h.not_mem_forkQueue (c := c) (by simp [hrun])
  have hne {c' : ℕ} (hcc : c' ≠ c) : s'.coState c' = s.coState c' := by
    rw [hst, update_of_ne hcc]
  have hentry {y c' : ℕ} (hy : s'.sessionIdCoroutine y = some (.co c')) :
      y = x ∧ c' = c ∨ c' ≠ c ∧ s.sessionIdCoroutine y = some (.co c') := by
    rw [he] at hy
    by_cases hyx : y = x
    · subst hyx
      exact .inl ⟨rfl, by simpa [eq_comm] using hy⟩
    · rw [update_of_ne hyx] at hy
      exact .inr ⟨fun hcc => hnot y (hcc ▸ hy), hy⟩
  have hrun' : s'.coState c ≠ .running := fun hr => by
    unfold waitsFor at hw
    simp [hr] at hw
  exact
    { running := fun c' => by
        refine ⟨fun hr => ?_, fun hr => absurd hr (ctl_ne_run hctl c')⟩
        by_cases hcc : c' = c
        · exact absurd (hcc ▸ hr) hrun'
        · exact absurd (hne hcc ▸ hr) (h.alone hc hcc)
      new := fun c' hn => by
        rw [hnc] at hn
        have hcc : c' ≠ c := fun hcc => by
          have := h.new c' hn
          simp [hcc, hrun] at this
        rw [hne hcc]
        exact h.new c' hn
      nodup := by rw [hpo]; exact h.nodup
      pool := fun c' hm => by
        rw [hpo] at hm
        have hcc : c' ≠ c := fun hcc => by
          have := h.pool c' hm
          simp [hcc, hrun] at this
        rw [hne hcc]
        exact h.pool c' hm
      entry := fun y c' hy => by
        obtain ⟨rfl, rfl⟩ | ⟨hcc, hy⟩ := hentry hy
        · exact .inl hw
        · rw [hwne c' hcc, hne hcc]
          exact h.entry y c' hy
      inj := fun y z c' hy hz => by
        obtain ⟨rfl, rfl⟩ | ⟨hcc, hy⟩ := hentry hy
        · obtain ⟨rfl, -⟩ | ⟨hcc, -⟩ := hentry hz
          · rfl
          · exact absurd rfl hcc
        · obtain ⟨-, rfl⟩ | ⟨-, hz⟩ := hentry hz
          · exact absurd rfl hcc
          · exact h.inj y z c' hy hz
      hooked := fun c' y hy _ => by
        by_cases hcc : c' = c
        · subst hcc
          obtain rfl : x = y := by simpa [hw] using hy
          simp [he]
        · rw [hwne c' hcc] at hy
          have hy := h.hooked c' y hy (by simp)
          have hyx : y ≠ x := fun hyx => by simp [← hyx, hy] at hx
          simpa [he, hyx] using hy
      inHand := fun c' hc' => by cases hc'
      forks := by rw [hf]; exact h.forks
      forkReady := fun c' hm => by
        rw [hf] at hm
        have hcc : c' ≠ c := fun hcc => hnf (hcc ▸ hm)
        rw [hne hcc]
        refine ⟨(h.forkReady c' hm).1, fun y hy => ?_⟩
        obtain ⟨-, rfl⟩ | ⟨-, hy⟩ := hentry hy
        · exact hcc rfl
        · exact (h.forkReady c' hm).2 y hy
      calling := calling
      asleep := asleep
      sleeping := sleeping
      own := own
      watching := watching
      queue := fun y hy => by
        rw [hq] at hy
        have hyx : y ≠ x := fun hyx => hxq (hyx ▸ hy)
        refine ⟨fun hb => (h.queue y hy).1 (by simpa [he, hyx] using hb), fun c' n hc' => ?_⟩
        obtain ⟨rfl, -⟩ | ⟨hcc, hc'⟩ := hentry hc'
        · exact absurd rfl hyx
        · rw [hne hcc]
          exact (h.queue y hy).2 c' n hc' }

theorem call (h : Wired none s) {c : ℕ} (hc : s.ctl = .run c) (hf : s.Fresh) (service : α) :
    Wired none (s.call c service) := by
  have hrun : s.coState c = .running := (h.running c).2 hc
  have hlt {c' k : ℕ} (hk : s.coState c' = .calling k) : k ≠ s.nCalls :=
    (h.calling c' k hk).1.ne
  have hsl : s.sleepSession c = none := by
    rcases hs : s.sleepSession c with _ | x
    · rfl
    · obtain ⟨n, hn⟩ := h.sleeping c x hs
      simp [hrun] at hn
  have hwa (p : ℕ × α) : p ∈ s.watchingSession.filter (fun p => p.1 ≠ s.newSession) ↔
      p ∈ s.watchingSession := by
    simpa using fun hm => hf.2.2 p hm
  refine h.suspends (x := s.newSession) (t := .calling s.nCalls) hc hf.1 hf.2.1 rfl ?_ ?_ rfl rfl
    rfl rfl rfl rfl ?_ ?_ ?_ h.own ?_
  · simp [waitsFor, LuaService.call]
  · intro c' hcc
    simp only [waitsFor, LuaService.call, coState_setState, update_of_ne hcc]
    split
    · rename_i k hk
      simp [hlt hk]
    · rfl
    · rfl
  · intro c' k hk
    by_cases hcc : c' = c
    · subst hcc
      obtain rfl : s.nCalls = k := by simpa [LuaService.call] using hk
      simp [LuaService.call]
    · have hk : s.coState c' = .calling k := by simpa [LuaService.call, hcc] using hk
      obtain ⟨h₁, h₂, h₃⟩ := h.calling c' k hk
      simp only [LuaService.call, update_of_ne (hlt hk), mem_cons, hwa]
      exact ⟨by omega, h₂, .inr h₃⟩
  · intro c' n hn
    have hcc : c' ≠ c := fun hcc => by simp [LuaService.call, hcc] at hn
    exact h.asleep c' n (by simpa [LuaService.call, hcc] using hn)
  · intro c' x hx
    have hx : s.sleepSession c' = some x := hx
    have hcc : c' ≠ c := fun hcc => by simp [hcc, hsl] at hx
    simpa [LuaService.call, hcc] using h.sleeping c' x hx
  · intro x a hm
    simp only [LuaService.call, mem_cons, hwa] at hm
    rcases hm with hm | hm
    · obtain ⟨rfl, rfl⟩ := Prod.mk.inj hm
      exact ⟨c, s.nCalls, by simp [LuaService.call]⟩
    · obtain ⟨c', k, hk, hx, ha⟩ := h.watching x a hm
      have hcc : c' ≠ c := fun hcc => by simp [hcc, hrun] at hk
      exact ⟨c', k, by simp [LuaService.call, hcc, hk, hlt hk, hx, ha]⟩

theorem sleep (h : Wired none s) {c : ℕ} (hc : s.ctl = .run c) (hf : s.Fresh)
    {wait : Option (Option ℕ)} (hw : ∀ t, wait = some t → t.getD c = c) :
    Wired none (s.sleep c wait) := by
  have hrun : s.coState c = .running := (h.running c).2 hc
  have hlt {c' n : ℕ} (hn : s.coState c' = .asleep n) : n ≠ s.nNaps :=
    (h.asleep c' n hn).1.ne
  refine h.suspends (x := s.newSession) (t := .asleep s.nNaps) hc hf.1 hf.2.1 rfl ?_ ?_ rfl rfl
    rfl rfl rfl rfl ?_ ?_ ?_ ?_ ?_
  · simp [waitsFor, LuaService.sleep]
  · intro c' hcc
    simp only [waitsFor, LuaService.sleep, coState_setState, update_of_ne hcc]
    split
    · rfl
    · rename_i n hn
      simp [hlt hn]
    · rfl
  · intro c' k hk
    have hcc : c' ≠ c := fun hcc => by simp [LuaService.sleep, hcc] at hk
    exact h.calling c' k (by simpa [LuaService.sleep, hcc] using hk)
  · intro c' n hn
    by_cases hcc : c' = c
    · subst hcc
      obtain rfl : s.nNaps = n := by simpa [LuaService.sleep] using hn
      simp [LuaService.sleep]
    · have hn : s.coState c' = .asleep n := by simpa [LuaService.sleep, hcc] using hn
      obtain ⟨h₁, h₂, h₃⟩ := h.asleep c' n hn
      simp only [LuaService.sleep, update_of_ne (hlt hn), update_of_ne hcc]
      exact ⟨by omega, h₂, h₃⟩
  · intro c' x hx
    by_cases hcc : c' = c
    · exact ⟨s.nNaps, by simp [LuaService.sleep, hcc]⟩
    · have hx : s.sleepSession c' = some x := by simpa [LuaService.sleep, hcc] using hx
      simpa [LuaService.sleep, hcc] using h.sleeping c' x hx
  · intro n t hn
    by_cases hnn : n = s.nNaps
    · subst hnn
      simpa [LuaService.sleep] using hw t (by simpa [LuaService.sleep] using hn)
    · have hn : (s.naps n).wait = some t := by simpa [LuaService.sleep, hnn] using hn
      simpa [LuaService.sleep, hnn] using h.own n t hn
  · intro x a hm
    obtain ⟨c', k, hk, hx, ha⟩ := h.watching x a hm
    have hcc : c' ≠ c := fun hcc => by simp [hcc, hrun] at hk
    exact ⟨c', k, by simpa [LuaService.sleep, hcc] using hk, hx, ha⟩

theorem stops (h : Wired none s) (e : SameWires s s')
    (hp : s'.coroutinePool = s.coroutinePool) {c : ℕ} {t : CoState} (hc : s.ctl = .run c)
    (hst : s'.coState = update s.coState c t) (hr : s'.running = none)
    (hw : ∀ k, t ≠ .calling k ∧ t ≠ .asleep k) (hst' : t ≠ .running) : Wired none s' := by
  have hrun : s.coState c = .running := (h.running c).2 hc
  have hcp : c ∉ s.coroutinePool := fun hm => by
    have := h.pool c hm
    simp [hrun] at this
  refine h.moved e (by rw [hp]) hst (fun c' => ?_) (.inl ?_) (by rw [hp]; exact hcp)
    (by simp [waitsFor, hrun]) (by simp [hrun]) hw
  · refine ⟨fun hq => ?_, fun hq => absurd hq (ctl_ne_run hr c')⟩
    rw [hst] at hq
    by_cases hcc : c' = c
    · subst hcc
      exact absurd (by simpa using hq) hst'
    · rw [update_of_ne hcc] at hq
      exact absurd hq (h.alone hc hcc)
  · by_contra hlt
    have := h.new c (by omega)
    simp [hrun] at this

theorem holds (h : Wired none s) {c : ℕ} (hc : s.ctl = .run c) : Wired none (s.holds c) :=
  h.stops (t := .held) (.of rfl (.refl _)) rfl hc rfl rfl (by simp) (by simp)

theorem leaves (h : Wired none s) {c : ℕ} (hc : s.ctl = .run c) :
    Wired none (s.setState c .held).leave := by
  rcases (s.setState c .held).leave_cases with hl | hl <;> rw [hl]
  · exact h.stops (t := .held) (.of rfl (.refl _)) rfl hc rfl rfl (by simp) (by simp)
  · exact h.stops (t := .held) (.of rfl (.refl _)) rfl hc rfl rfl (by simp) (by simp)

theorem died (h : Wired none s) {c : ℕ} (hc : s.ctl = .run c) : Wired none (s.died c) := by
  obtain ⟨i, a, so, l, hd⟩ := s.died_eq c
  rw [hd]
  exact h.stops (t := .dead) (.of rfl (.refl _)) rfl hc rfl rfl (by simp) (by simp)

theorem finish [DecidableEq α] (h : Wired none s) {c : ℕ} (hc : s.ctl = .run c) :
    Wired none (s.finish c) := by
  have hrun : s.coState c = .running := (h.running c).2 hc
  have h' : Wired none { s.setState c .pooled with ctl := .wakeup } :=
    h.stops (t := .pooled) (.of rfl (.refl _)) rfl hc rfl rfl (by simp) (by simp)
  have hcp : c ∉ s.coroutinePool := fun hm => by
    have := h.pool c hm
    simp [hrun] at this
  simp only [LuaService.finish, releaseWatching_eq]
  exact
    { h' with
      nodup := h.nodup.append (by simp) (by simpa using hcp)
      pool := fun c' hm => by
        rcases mem_append.1 hm with hm | hm
        · exact h'.pool c' hm
        · obtain rfl : c' = c := by simpa using hm
          simp [setState]
      inHand := fun c' hc' => by cases hc' }

theorem ret [DecidableEq α] (h : Wired none s) {c : ℕ} (hc : s.ctl = .run c) (accepted : Bool) :
    Wired none (s.ret c accepted) := by
  unfold LuaService.ret
  simp only []
  split
  · exact h.holds hc
  · have h' : Wired none { s with sessionResponse := update s.sessionResponse c true } :=
      h.kept (.of rfl (.refl _)) rfl rfl fun _ => Iff.rfl
    split
    · rename_i address session _ _
      obtain ⟨l, hl⟩ := answer_eq { s with
        sessionResponse := update s.sessionResponse c true } address session true accepted
      rw [hl]
      exact h'.kept (.of rfl (.refl _)) rfl rfl fun _ => Iff.rfl
    · exact h'.holds hc

theorem response [DecidableEq α] (h : Wired none s) {c : ℕ} (hc : s.ctl = .run c) :
    Wired none (s.response c) := by
  unfold LuaService.response
  split
  · exact h.holds hc
  · split
    · split
      · exact h.holds hc
      · exact h.kept (.of rfl (.refl _)) rfl rfl fun _ => Iff.rfl
    · exact h.holds hc

theorem exit [DecidableEq α] (h : Wired none s) {c : ℕ} (hc : s.ctl = .run c) :
    Wired none (s.exit c) := by
  obtain ⟨w, p, m, he⟩ := s.exit_eq c
  rw [he]
  have h' : Wired none { s with
      forkQueue := [], watchingService := w, responses := p, sent := m } :=
    h.kept ⟨rfl, rfl, rfl, rfl, nil_sublist _, rfl, rfl, rfl, fun _ => ⟨rfl, rfl, rfl⟩,
      fun _ => ⟨rfl, rfl, rfl⟩⟩ rfl rfl fun _ => Iff.rfl
  exact h'.leaves hc

theorem wakeup (h : Wired none s) (co : ℕ) : Wired none (s.wakeup co) := by
  unfold LuaService.wakeup
  split
  · simp only []
    split
    · rename_i n hn
      refine h.kept ⟨rfl, rfl, rfl, rfl, .refl _, rfl, rfl, rfl, fun _ => ⟨rfl, rfl, rfl⟩,
        fun n' => ?_⟩ rfl rfl fun _ => Iff.rfl
      by_cases hnn : n' = n <;> simp [hnn]
    · exact h.kept (.of rfl (.refl _)) rfl rfl fun _ => Iff.rfl
  · exact h

theorem note (h : Wired none s) (n : Notice) (p : Call α → Bool) : Wired none (s.note n p) := by
  refine h.kept ⟨rfl, rfl, rfl, rfl, .refl _, rfl, rfl, rfl, fun k => ?_,
    fun _ => ⟨rfl, rfl, rfl⟩⟩ rfl rfl fun _ => Iff.rfl
  simp only [LuaService.note]
  split <;> exact ⟨rfl, rfl, rfl⟩

theorem noteError [DecidableEq α] (h : Wired none s) (session : ℕ) (source : α) :
    Wired none (s.noteError session source) := by
  unfold LuaService.noteError
  split <;> exact h.note _ _

theorem enqueue (h : Wired none s) {l : List ℕ} {d : α → Bool}
    (hl : ∀ x ∈ l, ∃ a, (x, a) ∈ s.watchingSession) :
    Wired none { s with deadService := d, errorQueue := s.errorQueue ++ l } :=
  { h with
    inHand := fun c hc => by cases hc
    queue := fun x hx => by
      rcases mem_append.1 hx with hx | hx
      · exact h.queue x hx
      · obtain ⟨a, ha⟩ := hl x hx
        obtain ⟨c, k, hk, hxk, -⟩ := h.watching x a ha
        have he := h.hooked c x (by rw [waitsFor_calling hk, hxk]) (by simp)
        refine ⟨fun hb => ?_, fun c' n hc' hn => ?_⟩
        · simp [he] at hb
        · have hc' : s.sessionIdCoroutine x = some (.co c') := hc'
          obtain rfl : c = c' := by simpa [he] using hc'
          have hn : s.coState c = .asleep n := hn
          simp [hk] at hn }

theorem errorDispatch [DecidableEq α] (h : Wired none s) {session : ℕ} {source : α}
    {order : List ℕ} (ho : session = 0 → s.IsOrder source order) :
    Wired none (s.errorDispatch session source order) := by
  unfold LuaService.errorDispatch
  split
  · rename_i hz
    exact h.enqueue fun x hx => ⟨source, (ho hz).2.1 x hx⟩
  · split
    · rename_i hex
      obtain ⟨⟨x, a⟩, hm, rfl⟩ := hex
      exact h.enqueue fun x' hx' => ⟨a, by
        obtain rfl := mem_singleton.1 hx'
        exact hm⟩
    · exact h

theorem rests (h : Wired none s) (hn : s.running = none) (e : SameWires s s')
    (hp : s'.coroutinePool = s.coroutinePool) (hst : s'.coState = s.coState)
    (hn' : s'.running = none) : Wired none s' :=
  h.kept e hp hst fun c =>
    ⟨fun hq => absurd hq (ctl_ne_run hn' c), fun hq => absurd hq (ctl_ne_run hn c)⟩

theorem clear (h : Wired none s) {x : ℕ} (hx : ∀ c, s.sessionIdCoroutine x ≠ some (.co c)) :
    Wired none { s with sessionIdCoroutine := update s.sessionIdCoroutine x none } := by
  have hentry {y c : ℕ} :
      update s.sessionIdCoroutine x none y = some (.co c) ↔
        s.sessionIdCoroutine y = some (.co c) := by
    by_cases hyx : y = x
    · subst hyx
      simpa using hx c
    · simp [hyx]
  exact
    { h with
      entry := fun y c hy => h.entry y c (hentry.1 hy)
      inj := fun y z c hy hz => h.inj y z c (hentry.1 hy) (hentry.1 hz)
      hooked := fun c y hy hh => hentry.2 (h.hooked c y hy hh)
      inHand := fun c hc => by cases hc
      forkReady := fun c hm =>
        ⟨(h.forkReady c hm).1, fun y hy => (h.forkReady c hm).2 y (hentry.1 hy)⟩
      queue := fun y hy => by
        refine ⟨fun hb => (h.queue y hy).1 ?_, fun c n hc => (h.queue y hy).2 c n (hentry.1 hc)⟩
        by_cases hyx : y = x
        · subst hyx
          simp at hb
        · simpa [hyx] using hb }

theorem can_resume (h : Wired none s) {x c : ℕ} (hx : s.sessionIdCoroutine x = some (.co c)) :
    s.waitsFor c ≠ none ∨ s.coState c = .ready :=
  (h.entry x c hx).imp_left fun hw => by simp [hw]

theorem noteResponse (h : Wired none s) (x : ℕ) (msg : Bytes) :
    Wired none (s.noteResponse x msg) := by
  refine (h.note (.response msg) fun call => call.session = x).kept ⟨rfl, rfl, rfl, rfl, .refl _,
    rfl, rfl, rfl, fun _ => ⟨rfl, rfl, rfl⟩, fun n => ?_⟩ rfl rfl fun _ => Iff.rfl
  simp only [LuaService.noteResponse, LuaService.note]
  split <;> exact ⟨rfl, rfl, rfl⟩

theorem responseMessage (h : Wired none s) (hn : s.running = none) (x : ℕ) (msg : Bytes) :
    Wired none (s.responseMessage x msg) := by
  have h' := h.noteResponse x msg
  unfold LuaService.responseMessage
  simp only []
  split
  · exact h'.rests hn (.of rfl (.refl _)) rfl rfl rfl
  · rename_i hb
    have h'' := h'.clear (x := x) fun c hc => by simp [hb] at hc
    exact h''.rests hn (.of rfl (.refl _)) rfl rfl rfl
  · rename_i c hc
    exact (h'.take hc (by simp) fun _ => rfl).resume hn (h'.can_resume hc) _

theorem dispatchErrorQueue (h : Wired none s) (hn : s.running = none) :
    Wired none s.dispatchErrorQueue := by
  unfold LuaService.dispatchErrorQueue
  split
  · rcases s.leave_cases with hl | hl <;> rw [hl]
    · exact h.rests hn (.of rfl (.refl _)) rfl rfl rfl
    · exact h.rests hn (.of rfl (.refl _)) rfl rfl rfl
  · rename_i x queue hq
    simp only []
    have h₁ : Wired none { s with
        errorQueue := queue, stray := s.stray || !decide (s.Awaits x (s.sessionIdCoroutine x)) } :=
      { h with
        inHand := fun c hc => by cases hc
        queue := fun y hy => h.queue y (by rw [hq]; exact mem_cons_of_mem _ hy) }
    split
    · rename_i c hc
      exact (h₁.take hc (by simp) (fun _ => rfl)).resume hn (h₁.can_resume hc) _
    · rename_i hc
      have h₂ := h₁.clear (x := x) hc
      exact h₂.rests hn (.of rfl (.refl _)) rfl rfl rfl

theorem wakeupHand (h : Wired none s) {c x d : ℕ} {q : List ℕ} (hx : s.sleepSession c = some x) :
    Wired (some c) { s with
      wakeupSession := q
      sessionIdCoroutine := update s.sessionIdCoroutine x (some .broken)
      depth := d } := by
  obtain ⟨n, hn⟩ := h.sleeping c x hx
  obtain rfl : (s.naps n).session = x := by
    have := (h.asleep c n hn).2.2
    simpa [hx, eq_comm] using this
  have he := h.hooked c _ (waitsFor_asleep hn) (by simp)
  have h₁ : Wired none { s with wakeupSession := q, depth := d } :=
    h.kept (.of rfl (.refl _)) rfl rfl fun _ => Iff.rfl
  exact h₁.take he (by simp) fun hm => absurd hn ((h.queue _ hm).2 c n he)

theorem dispatchWakeup (h : Wired none s) (hn : s.running = none) {co : Option ℕ}
    (hw : s.dispatchWakeup co = some s') : Wired none s' := by
  unfold LuaService.dispatchWakeup at hw
  split at hw
  · split at hw
    · obtain rfl := some.inj hw
      exact h.rests hn (.of rfl (.refl _)) rfl rfl rfl
    · cases hw
  · rename_i c
    split at hw
    · simp only [] at hw
      split at hw
      · obtain rfl := some.inj hw
        exact h.rests hn (.of rfl (.refl _)) rfl rfl rfl
      · rename_i x hx
        obtain rfl := some.inj hw
        have hx : s.sleepSession c = some x := hx
        obtain ⟨n, hn'⟩ := h.sleeping c x hx
        exact (h.wakeupHand hx).resume hn (.inl (by simp [waitsFor, hn'])) _
    · cases hw

theorem forked (h : Wired none s) (hn : s.running = none) {c : ℕ} (hc : c ∈ s.forkQueue) :
    Wired none ({ s with forkQueue := s.forkQueue.erase c }.resume c .start) :=
  (h.takeFork hc).resume hn (.inr (h.forkReady c hc).1) _

theorem request_runs [DecidableEq α] (h : Wired none s) {session : ℕ} {source : α}
    {co : Option ℕ} (hr : s.request session source co = some s') :
    ∃ c s₁ w i a o, s.coCreate co = some (c, s₁) ∧
      s' = { s₁ with
        watchingService := w, sessionCoroutineId := i, sessionCoroutineAddress := a
        source := o }.runs c := by
  simp only [LuaService.request, start, coCreate_watching, Option.map_map] at hr
  obtain ⟨⟨c, s₁⟩, hc, rfl⟩ := map_eq_some_iff.1 hr
  have hre := (h.coCreate hc).2.1
  simp only [Function.comp_apply, LuaService.resume, hre]
  exact ⟨c, s₁, _, _, _, _, hc, rfl⟩

theorem running_of_coCreate {co : Option ℕ} {c : ℕ} (hc : s.coCreate co = some (c, s')) :
    s'.running = s.running := by
  obtain ⟨-, -, rfl⟩ | ⟨-, -, rfl⟩ := coCreate_cases hc <;> rfl

theorem request [DecidableEq α] (h : Wired none s) (hn : s.running = none) {session : ℕ}
    {source : α} {co : Option ℕ} (hr : s.request session source co = some s') :
    Wired none s' := by
  obtain ⟨c, s₁, w, i, a, o, hc, rfl⟩ := h.request_runs hr
  obtain ⟨h₁, hre, he, hf⟩ := h.coCreate hc
  have h₂ : Wired (some c) { s₁ with
      watchingService := w, sessionCoroutineId := i, sessionCoroutineAddress := a, source := o } :=
    (h₁.inReadyHand hre he hf).kept (.of rfl (.refl _)) rfl rfl fun _ => Iff.rfl
  have h₃ := h₂.resume ((running_of_coCreate hc).trans hn) (.inr hre) .start
  simpa only [LuaService.resume, hre] using h₃

theorem badRequest [DecidableEq α] (h : Wired none s) (hn : s.running = none) {session : ℕ}
    {source : α} {co : Option ℕ} (hr : s.badRequest session source co = some s') :
    Wired none s' := by
  simp only [LuaService.badRequest, start, coCreate_watching, Option.map_map] at hr
  obtain ⟨⟨c, s₁⟩, hc, rfl⟩ := map_eq_some_iff.1 hr
  exact (h.coCreate hc).1.rests ((running_of_coCreate hc).trans hn) (.of rfl (.refl _)) rfl rfl rfl

theorem errorMessage_runs [DecidableEq α] (h : Wired none s) {session : ℕ} {source : α}
    {order : List ℕ} {co : Option ℕ}
    (hr : s.errorMessage session source order co = some s') :
    ∃ c s₁ w i a o, (s.noteError session source).coCreate co = some (c, s₁) ∧
      s' = (({ s₁ with
        watchingService := w, sessionCoroutineId := i, sessionCoroutineAddress := a
        source := o }.runs c).errorDispatch session source order).finish c := by
  obtain ⟨s₂, hs₂, rfl⟩ := map_eq_some_iff.1 hr
  obtain ⟨c, s₁, w, i, a, o, hc, rfl⟩ := (h.noteError session source).request_runs hs₂
  exact ⟨c, s₁, w, i, a, o, hc, rfl⟩

theorem errorMessage [DecidableEq α] (h : Wired none s) (hn : s.running = none) {session : ℕ}
    {source : α} {order : List ℕ} {co : Option ℕ} (ho : session = 0 → s.IsOrder source order)
    (hr : s.errorMessage session source order co = some s') : Wired none s' := by
  obtain ⟨c, s₁, w, i, a, o, hc, rfl⟩ := h.errorMessage_runs hr
  obtain ⟨h₁, hre, he, hf⟩ := (h.noteError session source).coCreate hc
  have hnote : (s.noteError session source).running = none
      ∧ (s.noteError session source).watchingSession = s.watchingSession := by
    unfold LuaService.noteError
    split <;> exact ⟨hn, rfl⟩
  have hwa : s₁.watchingSession = s.watchingSession := by
    rw [← hnote.2]
    obtain ⟨-, -, rfl⟩ | ⟨-, -, rfl⟩ := coCreate_cases hc <;> rfl
  have h₂ : Wired (some c) { s₁ with
      watchingService := w, sessionCoroutineId := i, sessionCoroutineAddress := a, source := o } :=
    (h₁.inReadyHand hre he hf).kept (.of rfl (.refl _)) rfl rfl fun _ => Iff.rfl
  have h₃ := h₂.resume ((running_of_coCreate hc).trans hnote.1) (.inr hre) .start
  simp only [LuaService.resume, hre] at h₃
  refine (h₃.errorDispatch fun hz => ?_).finish (errorDispatch_ctl _ _ _)
  have ho := ho hz
  rw [IsOrder, ← hwa] at ho
  exact ho

end Wired

section Runs

variable {s s' : LuaService α}

theorem wired_init [Inhabited α] : Wired none (init : LuaService α) where
  running c := by
    by_cases hc : c = 0 <;> simp [init, hc]
  new c hn := by
    have hn : 1 ≤ c := hn
    have hne : c ≠ 0 := by omega
    simp [init, hne]
  nodup := nodup_nil
  pool _ hm := by simp [init] at hm
  entry x c hx := by
    by_cases h1 : x = 1
    · obtain rfl : 0 = c := by simpa [init, h1] using hx
      simp [init]
    · simp [init, h1] at hx
  inj x y c hx hy := by
    have h1 (z : ℕ) (hz : (init : LuaService α).sessionIdCoroutine z = some (.co c)) : z = 1 := by
      by_contra hne
      simp [init, hne] at hz
    rw [h1 x hx, h1 y hy]
  hooked c x hx _ := by
    by_cases hc : c = 0 <;> simp [init, waitsFor, hc] at hx
  inHand _ hc := by cases hc
  forks := nodup_nil
  forkReady _ hm := by simp [init] at hm
  calling c k hk := by
    by_cases hc : c = 0 <;> simp [init, hc] at hk
  asleep c n hn := by
    by_cases hc : c = 0 <;> simp [init, hc] at hn
  sleeping _ _ hx := by simp [init] at hx
  own _ _ ht := by simp [init] at ht
  watching _ _ hm := by simp [init] at hm
  queue _ hx := by simp [init] at hx

/-- Who waits for what stays right as long as the steps are orderly. -/
theorem Wired.step [DecidableEq α] (h : Wired none s) {i : LuaStep α} (hok : Orderly s i)
    (hst : s.step i = some s') : Wired none s' := by
  cases i with
  | response session msg =>
    obtain ⟨hi, rfl⟩ := of_guard hst
    exact h.responseMessage (running_of_ctl hi (by simp)) session msg
  | error session source order co =>
    obtain ⟨hi, hst⟩ := ite_none_right_eq_some.1 hst
    exact h.errorMessage (running_of_ctl hi.1 (by simp)) hi.2 hst
  | request session source co =>
    obtain ⟨hi, hst⟩ := ite_none_right_eq_some.1 hst
    exact h.request (running_of_ctl hi (by simp)) hst
  | badRequest session source co =>
    obtain ⟨hi, hst⟩ := ite_none_right_eq_some.1 hst
    exact h.badRequest (running_of_ctl hi (by simp)) hst
  | unknown session source prototype =>
    obtain ⟨hi, rfl⟩ := of_guard hst
    have hn := running_of_ctl hi (by simp)
    unfold LuaService.unknown
    split <;> exact h.rests hn (.of rfl (.refl _)) rfl rfl rfl
  | genid =>
    obtain ⟨c, -, rfl⟩ := of_running hst
    exact h.kept (.of rfl (.refl _)) rfl rfl fun _ => Iff.rfl
  | timeout co =>
    obtain ⟨c, -, ht⟩ := bind_eq_some_iff.1 hst
    exact h.timeout ht
  | fork co =>
    obtain ⟨c, -, hf⟩ := bind_eq_some_iff.1 hst
    exact h.fork hf
  | wakeup co =>
    obtain ⟨c, -, rfl⟩ := of_running hst
    exact h.wakeup co
  | respond r ok accepted =>
    obtain ⟨-, hst⟩ := ite_none_right_eq_some.1 hst
    obtain ⟨c, -, rfl⟩ := of_running hst
    obtain ⟨w, p, l, he⟩ := s.respond_eq r ok accepted
    rw [he]
    exact h.kept (.of rfl (.refl _)) rfl rfl fun _ => Iff.rfl
  | test r =>
    obtain ⟨-, hst⟩ := ite_none_right_eq_some.1 hst
    obtain ⟨c, -, rfl⟩ := of_running hst
    obtain ⟨w, p, he⟩ := s.test_eq r
    rw [he]
    exact h.kept (.of rfl (.refl _)) rfl rfl fun _ => Iff.rfl
  | term service order =>
    obtain ⟨ho, hst⟩ := ite_none_right_eq_some.1 hst
    obtain ⟨c, -, rfl⟩ := of_running hst
    exact (h.noteError 0 service).errorDispatch fun _ => ho
  | call service =>
    obtain ⟨c, hc, rfl⟩ := of_running hst
    exact h.call hc hok service
  | sleep =>
    obtain ⟨c, hc, rfl⟩ := of_running hst
    exact h.sleep hc hok (by simp)
  | wait co =>
    obtain ⟨c, hc, rfl⟩ := of_running hst
    refine h.sleep hc hok.1 fun t ht => ?_
    obtain rfl := some.inj ht
    rcases hok.2 with rfl | hco
    · rfl
    · simp [hco, running_eq_some.2 hc]
  | ret accepted =>
    obtain ⟨c, hc, rfl⟩ := of_running hst
    exact h.ret hc accepted
  | yieldResponse =>
    obtain ⟨c, hc, rfl⟩ := of_running hst
    exact h.response hc
  | exit =>
    obtain ⟨c, hc, rfl⟩ := of_running hst
    exact h.exit hc
  | finish =>
    obtain ⟨c, hc, rfl⟩ := of_running hst
    exact h.finish hc
  | raise =>
    obtain ⟨c, hc, rfl⟩ := of_running hst
    exact h.died hc
  | yield command =>
    obtain ⟨c, hc, rfl⟩ := of_running hst
    split
    · exact h.holds hc
    · exact h.leaves hc
  | dispatchWakeup co =>
    obtain ⟨hi, hst⟩ := ite_none_right_eq_some.1 hst
    exact h.dispatchWakeup (running_of_ctl hi (by simp)) hst
  | dispatchErrorQueue =>
    obtain ⟨hi, rfl⟩ := of_guard hst
    exact h.dispatchErrorQueue (running_of_ctl hi (by simp))
  | forked c =>
    obtain ⟨hi, rfl⟩ := of_guard hst
    exact h.forked (running_of_ctl hi.1 (by simp)) hi.2
  | done =>
    obtain ⟨hi, rfl⟩ := of_guard hst
    exact h.rests (running_of_ctl hi.1 (by simp)) (.of rfl (.refl _)) rfl rfl rfl

end Runs

end LuaService

end SkynetGame
