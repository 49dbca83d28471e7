import SkynetGame.Proofs.LuaService
import SkynetGame.Lib.Tally

/-!
# Who the callers of a service are counted for

`watching_service` counts, for each address, the request coroutines that were started for it and
the response closures for it that have not been answered. It goes wrong where a request coroutine
ends by an error, or never starts, and where a closure that is settled is tested.
-/

namespace SkynetGame

open Function Option

namespace LuaService

variable {α : Type*} [DecidableEq α]

section Counts

variable (s : LuaService α) (a : α)

/-- A coroutine that was resumed and has neither ended nor been resumed to run. -/
def Suspended (c : ℕ) : Prop :=
  match s.coState c with
  | .calling _ | .asleep _ | .held => True
  | _ => False

instance (c : ℕ) : Decidable (s.Suspended c) :=
  decidable_of_iff
    ((match s.coState c with
      | .calling _ | .asleep _ | .held => true
      | _ => false : Bool) = true) <| by
    unfold Suspended
    split <;> simp

/-- The suspended coroutines that were started for requests of an address. -/
def suspendedRequests : ℕ := Nat.count (fun c => s.source c = some a ∧ s.Suspended c) s.nCos

/-- The coroutines that were started for requests of an address and have not ended. -/
def requests : ℕ := Nat.count (fun c => s.source c = some a) s.nCos

/-- The response closures for an address that have not been answered. -/
def unanswered : ℕ :=
  Nat.count (fun r => (s.responses r).f = some true ∧ (s.responses r).coAddress = a) s.nResponses

/-- Every ref that a message takes is given back: no request coroutine raises an error, `p.unpack`
raises none, no request gets a coroutine that was woken in the pool, and no closure that is
settled is tested once the address is dead. -/
def Returned (s : LuaService α) : LuaStep α → Prop
  | .error _ _ _ (some c) => s.coState c = .pooled
  | .request _ _ (some c) => s.coState c = .pooled
  | .badRequest _ _ _ => False
  | .raise => ∀ c, s.ctl = .run c → s.source c = none
  | .test r => s.deadService (s.responses r).coAddress → (s.responses r).f = some true
  | _ => True

instance (i : LuaStep α) : Decidable (Returned s i) := by
  unfold Returned
  split <;> try infer_instance
  exact decidable_of_iff (s.running.all fun c => s.source c = none) (by
    rcases hr : s.running with _ | c
    · simpa using fun c hc => absurd hc (ctl_ne_run hr c)
    · simp [running_eq_some.1 hr, eq_comm])

end Counts

section Invariant

/-- What the counts are about is the same. -/
structure SameCounts (s s' : LuaService α) : Prop where
  address : s'.sessionCoroutineAddress = s.sessionCoroutineAddress
  source : s'.source = s.source
  watchingService : s'.watchingService = s.watchingService
  responses : s'.responses = s.responses
  nResponses : s'.nResponses = s.nResponses
  nCos : s'.nCos = s.nCos
  pool : s'.coroutinePool.Sublist s.coroutinePool

/-- The counts are right, where a request coroutine may also be running. -/
structure Counted (s : LuaService α) : Prop where
  address : ∀ c, s.sessionCoroutineAddress c = s.source c
  live : ∀ c a, s.source c = some a → s.coState c = .running ∨ s.Suspended c
  running : ∀ c, s.coState c = .running ↔ s.ctl = .run c
  new : ∀ c, s.nCos ≤ c → s.coState c = .dead
  nodup : s.coroutinePool.Nodup
  spare : ∀ c ∈ s.coroutinePool, c < s.nCos ∧ (s.coState c).Spare
  unresponse : ∀ r, (s.responses r).unresponse = true ↔ (s.responses r).f = some true
  count : ∀ a, (s.watchingService a).getD 0 = s.requests a + s.unanswered a
  pos : ∀ a, s.watchingService a ≠ some 0

variable {s s' : LuaService α}

theorem requests_update {c : ℕ} {b : Option α}
    (hs : s'.source = update s.source c b) (hn : s'.nCos = s.nCos) (hc : c < s.nCos)
    (a : α) : s'.requests a + (if s.source c = some a then 1 else 0)
      = s.requests a + if b = some a then 1 else 0 := by
  simp only [requests, hs, hn]
  exact count_update (fun b => b = some a) s.source hc b

theorem requests_congr (hs : s'.source = s.source) (hn : s'.nCos = s.nCos) (a : α) :
    s'.requests a = s.requests a := by
  simp only [requests, hs, hn]

theorem unanswered_congr (hr : s'.responses = s.responses) (hn : s'.nResponses = s.nResponses)
    (a : α) : s'.unanswered a = s.unanswered a := by
  simp only [unanswered, hr, hn]

namespace Counted

theorem source_none (h : Counted s) {c : ℕ} (hr : s.coState c ≠ .running)
    (hs : ¬s.Suspended c) : s.source c = none := by
  rcases hc : s.source c with _ | a
  · rfl
  · exact absurd (h.live c a hc) (by tauto)

theorem lt_nCos (h : Counted s) {c : ℕ} (hc : s.coState c ≠ .dead) : c < s.nCos := by
  by_contra hlt
  exact hc (h.new c (by omega))

theorem not_mem_pool (h : Counted s) {c : ℕ} (hc : ¬(s.coState c).Spare) : c ∉ s.coroutinePool :=
  fun hm => hc (h.spare c hm).2

theorem alone (h : Counted s) {c : ℕ} (hc : s.ctl = .run c) {c' : ℕ} (hne : c' ≠ c) :
    s.coState c' ≠ .running := by
  intro hr
  have := (h.running c').1 hr
  rw [hc] at this
  exact hne (by simpa using this.symm)

theorem none_runs (h : Counted s) (hc : s.running = none) (c : ℕ) : s.coState c ≠ .running := by
  exact fun hr => ctl_ne_run hc c ((h.running c).1 hr)

theorem moved (h : Counted s) (e : SameCounts s s') {c : ℕ} {t : CoState}
    (hst : s'.coState = update s.coState c t)
    (hl : ∀ a, s.source c = some a → s'.coState c = .running ∨ s'.Suspended c)
    (hc : c < s.nCos ∨ t = .dead) (hp : c ∈ s'.coroutinePool → t.Spare)
    (hr : ∀ c', s'.coState c' = .running ↔ s'.ctl = .run c') : Counted s' where
  address c' := by rw [e.address, e.source]; exact h.address c'
  live c' a hs := by
    rw [e.source] at hs
    by_cases hcc : c' = c
    · subst hcc
      exact hl a hs
    · have := h.live c' a hs
      simpa [Suspended, hst, update_of_ne hcc] using this
  running := hr
  new c' hn := by
    rw [e.nCos] at hn
    rw [hst]
    by_cases hcc : c' = c
    · subst hcc
      rcases hc with hc | rfl
      · omega
      · simp
    · rw [update_of_ne hcc]
      exact h.new c' hn
  nodup := h.nodup.sublist e.pool
  spare c' hm := by
    have hs := h.spare c' (e.pool.subset hm)
    rw [hst, e.nCos]
    by_cases hcc : c' = c
    · subst hcc
      exact ⟨hs.1, by simpa using hp hm⟩
    · rw [update_of_ne hcc]
      exact hs
  unresponse r := by rw [e.responses]; exact h.unresponse r
  count a := by
    rw [e.watchingService, h.count a, requests_congr e.source e.nCos,
      unanswered_congr e.responses e.nResponses]
  pos a := by rw [e.watchingService]; exact h.pos a

theorem yields (h : Counted s) (e : SameCounts s s') {c : ℕ} {t : CoState} (hc : s.ctl = .run c)
    (hst : s'.coState = update s.coState c t) (hl : s'.Suspended c)
    (hr : t ≠ .running) (hctl : s'.running = none) : Counted s' := by
  have hrun : s.coState c = .running := (h.running c).2 hc
  refine h.moved e hst (fun _ _ => .inr hl) (.inl (h.lt_nCos (by simp [hrun])))
    (fun hm => absurd (e.pool.subset hm) (h.not_mem_pool (by simp [hrun, CoState.Spare]))) fun c' => ?_
  refine ⟨fun hq => ?_, fun hq => absurd hq (ctl_ne_run hctl c')⟩
  rw [hst] at hq
  by_cases hcc : c' = c
  · subst hcc
    exact absurd (by simpa using hq) hr
  · rw [update_of_ne hcc] at hq
    exact absurd hq (h.alone hc hcc)

end Counted

end Invariant

section Resume

variable {s s' : LuaService α}

omit [DecidableEq α] in
theorem sameCounts_leave (s : LuaService α) : SameCounts s s.leave := by
  rcases s.leave_cases with h | h <;> rw [h] <;> exact ⟨rfl, rfl, rfl, rfl, rfl, rfl, .refl _⟩

namespace Counted

theorem died (h : Counted s) {c : ℕ} (hs : s.source c = none)
    (hal : ∀ c', c' ≠ c → s.coState c' ≠ .running) : Counted (s.died c) := by
  have ha : s.sessionCoroutineAddress c = none := (h.address c).trans hs
  have hrun : ∀ c', update s.coState c .dead c' ≠ .running := by
    intro c' hq
    by_cases hcc : c' = c
    · simp [hcc] at hq
    · exact hal c' hcc (by simpa [hcc] using hq)
  have hsrc : update s.source c none = s.source := by
    rw [← hs, update_eq_self]
  have haddr : update s.sessionCoroutineAddress c none = s.sessionCoroutineAddress := by
    rw [← ha, update_eq_self]
  unfold LuaService.died
  simp only [setState]
  split
  · refine h.moved (t := .dead) ⟨rfl, hsrc, rfl, rfl, rfl, rfl, .refl _⟩ rfl ?_ (.inr rfl)
      (fun _ => trivial) fun c' => ?_
    · simp [hs]
    · simpa [throw] using hrun c'
  · simp only [ha]
    refine h.moved (t := .dead) ⟨haddr, hsrc, rfl, rfl, rfl, rfl, .refl _⟩ rfl ?_
      (.inr rfl) (fun _ => trivial) fun c' => ?_
    · simp [hs]
    · simpa [throw] using hrun c'

theorem runs (h : Counted s) (hn : ∀ c, s.coState c ≠ .running) {c : ℕ}
    (hd : ¬(s.coState c).Spare) (e : SameCounts s s') (hst : s'.coState = s.coState) :
    Counted (s'.runs c) := by
  refine h.moved (c := c) (t := .running) ⟨e.1, e.2, e.3, e.4, e.5, e.6, e.7⟩ ?_ (fun a _ => ?_)
    (.inl (h.lt_nCos fun hq => hd (by simp [hq, CoState.Spare])))
    (fun hm => absurd (e.pool.subset hm) (h.not_mem_pool hd)) fun c' => ?_
  · simp [LuaService.runs, setState, hst]
  · exact .inl (by simp [LuaService.runs, setState])
  · by_cases hcc : c' = c
    · simp [LuaService.runs, setState, hcc]
    · simpa [LuaService.runs, setState, hcc, hst, Ne.symm hcc] using hn c'

theorem resume (h : Counted s) (hn : ∀ c, s.coState c ≠ .running) (c : ℕ) (v : ResumeArg) :
    Counted (s.resume c v) := by
  have same : SameCounts s s := ⟨rfl, rfl, rfl, rfl, rfl, rfl, .refl _⟩
  unfold LuaService.resume
  split
  · rename_i hp
    have hs := h.source_none (hn c) (by simp [Suspended, hp])
    have e := sameCounts_leave (s.setState c .woken)
    refine h.moved (c := c) (t := .woken) ⟨e.1, e.2, e.3, e.4, e.5, e.6, e.7⟩
      (coState_leave _) ?_ (.inl (h.lt_nCos (by simp [hp]))) (fun _ => trivial) fun c' => ?_
    · simp [hs]
    · refine ⟨fun hq => ?_, fun hq => absurd hq (ctl_ne_run (running_leave _) c')⟩
      by_cases hcc : c' = c
      · simp [setState, hcc] at hq
      · exact absurd (by simpa [setState, hcc] using hq) (hn c')
  · rename_i hp
    exact h.died (h.source_none (hn c) (by simp [Suspended, hp])) fun c' _ => hn c'
  · rename_i hp
    exact h.died (h.source_none (hn c) (by simp [Suspended, hp])) fun c' _ => hn c'
  · rename_i k hp
    exact h.runs hn (by simp [hp, CoState.Spare]) ⟨rfl, rfl, rfl, rfl, rfl, rfl, .refl _⟩ rfl
  · rename_i n hp
    simp only []
    split
    · exact h.runs hn (by simp [hp, CoState.Spare]) ⟨rfl, rfl, rfl, rfl, rfl, rfl, .refl _⟩ rfl
    · exact h.runs hn (by simp [hp, CoState.Spare]) ⟨rfl, rfl, rfl, rfl, rfl, rfl, .refl _⟩ rfl
  · rename_i hpo hwo hde _ _
    refine h.runs hn (fun hq => ?_) same rfl
    cases hst : s.coState c <;> simp_all [CoState.Spare]

theorem kept (h : Counted s) (e : SameCounts s s') (hst : s'.coState = s.coState)
    (hr : ∀ c, s'.ctl = .run c ↔ s.ctl = .run c) : Counted s' where
  address c := by rw [e.address, e.source]; exact h.address c
  live c a hs := by
    rw [e.source] at hs
    simpa [Suspended, hst] using h.live c a hs
  running c := by rw [hst, hr]; exact h.running c
  new c hn := by
    rw [e.nCos] at hn
    rw [hst]
    exact h.new c hn
  nodup := h.nodup.sublist e.pool
  spare c hm := by
    rw [hst, e.nCos]
    exact h.spare c (e.pool.subset hm)
  unresponse r := by rw [e.responses]; exact h.unresponse r
  count a := by
    rw [e.watchingService, h.count a, requests_congr e.source e.nCos,
      unanswered_congr e.responses e.nResponses]
  pos a := by rw [e.watchingService]; exact h.pos a

theorem stops (h : Counted s) (hn : s.running = none) (e : SameCounts s s')
    (hst : s'.coState = s.coState) (hn' : s'.running = none) : Counted s' :=
  h.kept e hst fun c =>
    ⟨fun hq => absurd hq (ctl_ne_run hn' c), fun hq => absurd hq (ctl_ne_run hn c)⟩

theorem resumed (h : Counted s) (hn : s.running = none) (e : SameCounts s s')
    (hst : s'.coState = s.coState) (hn' : s'.running = none) (c : ℕ) (v : ResumeArg) :
    Counted (s'.resume c v) :=
  have h' := h.stops hn e hst hn'
  h'.resume (h'.none_runs hn') c v

theorem grow (h : Counted s) : Counted { s with nCos := s.nCos + 1 } :=
  { h with
    new := fun c hn => h.new c (by have : s.nCos + 1 ≤ c := hn; omega)
    spare := fun c hm => ⟨(h.spare c hm).1.trans (Nat.lt_succ_self _), (h.spare c hm).2⟩
    count := fun a => by
      have hd : s.coState s.nCos = .dead := h.new _ le_rfl
      have hs := h.source_none (c := s.nCos) (by simp [hd]) (by simp [Suspended, hd])
      have := h.count a
      simp only [requests, unanswered, Nat.count_succ] at this ⊢
      simpa [hs] using this }

theorem coCreate (h : Counted s) {co : Option ℕ} {c : ℕ} (hc : s.coCreate co = some (c, s')) :
    Counted s' := by
  obtain ⟨-, rfl, rfl⟩ | ⟨-, hm, rfl⟩ := coCreate_cases hc
  · have hd : s.coState s.nCos = .dead := h.new _ le_rfl
    have hs := h.source_none (c := s.nCos) (by simp [hd]) (by simp [Suspended, hd])
    refine h.grow.moved (c := s.nCos) (t := .ready) ⟨rfl, rfl, rfl, rfl, rfl, rfl, .refl _⟩ rfl
      ?_ (.inl (Nat.lt_succ_self _)) (fun hm => absurd (h.spare _ hm).1 (lt_irrefl _))
      fun c' => ?_
    · simp [hs]
    · by_cases hcc : c' = s.nCos
      · have := h.running s.nCos
        simpa [hcc, hd, setState] using this
      · simpa [hcc, setState] using h.running c'
  · have hsp := (h.spare c hm).2
    have hr : s.coState c ≠ .running := fun hq => by simp [hq, CoState.Spare] at hsp
    have hsu : ¬s.Suspended c := fun hq => by
      unfold Suspended at hq
      split at hq <;> simp_all [CoState.Spare]
    have hs := h.source_none hr hsu
    refine h.moved (c := c) (t := if s.coState c = .pooled then .ready else .dead)
      ⟨rfl, rfl, rfl, rfl, rfl, rfl, List.erase_sublist⟩ rfl ?_ (.inl (h.spare c hm).1)
      (fun hm' => absurd hm' h.nodup.not_mem_erase) fun c' => ?_
    · simp [hs]
    · by_cases hcc : c' = c
      · subst hcc
        have := h.running c'
        simp only [update_self, setState]
        split <;> simpa [hr] using this
      · simpa [hcc, setState] using h.running c'

end Counted

end Resume

section Messages

variable {s s' : LuaService α}

namespace Counted

theorem begins (h : Counted s) (hn : s.running = none) {c : ℕ} (hc : s.coState c = .ready)
    (source : α)
    (hw : s'.watchingService = update s.watchingService source
      (some (((s.watchingService source).map (· + 1)).getD 1)))
    (ha : s'.sessionCoroutineAddress = update s.sessionCoroutineAddress c (some source))
    (hs : s'.source = update s.source c (some source))
    (hst : s'.coState = update s.coState c .running) (hctl : s'.ctl = .run c)
    (hr : s'.responses = s.responses) (hnr : s'.nResponses = s.nResponses)
    (hnc : s'.nCos = s.nCos) (hp : s'.coroutinePool = s.coroutinePool) : Counted s' where
  address c' := by
    rw [ha, hs]
    by_cases hcc : c' = c
    · simp [hcc]
    · simpa [hcc] using h.address c'
  live c' a hl := by
    by_cases hcc : c' = c
    · exact .inl (by simp [hst, hcc])
    · have := h.live c' a (by simpa [hs, hcc] using hl)
      simpa [hst, Suspended, hcc] using this
  running c' := by
    by_cases hcc : c' = c
    · simp [hst, hctl, hcc]
    · simpa [hst, hctl, hcc, Ne.symm hcc] using h.none_runs hn c'
  new c' hn' := by
    have hlt := h.lt_nCos (c := c) (by simp [hc])
    have hne : c' ≠ c := by omega
    rw [hst, update_of_ne hne]
    exact h.new c' (by omega)
  nodup := by rw [hp]; exact h.nodup
  spare c' hm := by
    rw [hp] at hm
    have hne : c' ≠ c := fun hcc => h.not_mem_pool (by simp [hc, CoState.Spare]) (hcc ▸ hm)
    rw [hst, hnc, update_of_ne hne]
    exact h.spare c' hm
  unresponse r := by rw [hr]; exact h.unresponse r
  count a := by
    have hreq := requests_update hs hnc (h.lt_nCos (by simp [hc])) a
    have hsn := h.source_none (c := c) (by simp [hc]) (by simp [Suspended, hc])
    have hcount := h.count a
    rw [hsn, if_neg (by simp)] at hreq
    rw [unanswered_congr hr hnr, hw]
    by_cases has : source = a
    · subst has
      rw [if_pos rfl] at hreq
      rcases hw' : s.watchingService source with _ | ref
      · simp only [hw', getD_none] at hcount
        simp only [map_none, getD_none, update_self, getD_some]
        omega
      · simp only [hw', getD_some] at hcount
        simp only [map_some, getD_some, update_self]
        omega
    · rw [if_neg (by simpa using has)] at hreq
      rw [update_of_ne (Ne.symm has)]
      omega
  pos a := by
    rw [hw]
    by_cases has : a = source
    · subst has
      rcases hw' : s.watchingService a with _ | ref <;> simp
    · simpa [has] using h.pos a

theorem request (h : Counted s) (hn : s.running = none) {session : ℕ} {source : α}
    {co : Option ℕ} (hp : ∀ c, co = some c → s.coState c = .pooled)
    (hr : s.request session source co = some s') : Counted s' := by
  simp only [LuaService.request, start, coCreate_watching, Option.map_map] at hr
  obtain ⟨⟨c, s₁⟩, hc, rfl⟩ := map_eq_some_iff.1 hr
  have hst := coState_of_coCreate hc hp
  have hw : s.watchingService = s₁.watchingService ∧ s₁.running = none := by
    obtain ⟨-, -, rfl⟩ | ⟨-, -, rfl⟩ := coCreate_cases hc <;> exact ⟨rfl, hn⟩
  refine (h.coCreate hc).begins hw.2 hst source ?_ ?_ ?_ ?_ ?_ ?_ ?_ ?_ ?_ <;>
    simp [LuaService.resume, hst, hw.1, LuaService.runs, setState]

end Counted

end Messages

section Release

variable {s s' : LuaService α}

theorem getD_released {w : α → Option ℕ} (h : ∀ a, w a ≠ some 0) (o : Option α) (b : α) :
    (released w o b).getD 0 = (w b).getD 0 - if o = some b then 1 else 0 := by
  cases o with
  | none => simp [released]
  | some a =>
    have := h a
    rcases hw : w a with _ | ref
    · by_cases hab : a = b
      · subst hab
        simp [released, hw]
      · simp [released, hw, hab]
    · by_cases hab : a = b
      · subst hab
        simp only [released, hw, update_self, if_true, getD_some]
        split
        · rfl
        · simp only [getD_none]
          omega
      · simp [released, hw, hab, Ne.symm hab]

theorem released_ne {w : α → Option ℕ} (h : ∀ a, w a ≠ some 0) (o : Option α) (b : α) :
    released w o b ≠ some 0 := by
  cases o with
  | none => exact h b
  | some a =>
    rcases hw : w a with _ | ref
    · simpa [released, hw] using h b
    · by_cases hab : b = a
      · subst hab
        simp only [released, hw, update_self]
        split
        · simp only [ne_eq, some.injEq]
          omega
        · simp
      · simpa [released, hw, hab] using h b

theorem unanswered_update {r : ℕ} {p : ResponseClosure α}
    (hr : s'.responses = update s.responses r p) (hn : s'.nResponses = s.nResponses)
    (hlt : r < s.nResponses) (a : α) :
    s'.unanswered a
        + (if (s.responses r).f = some true ∧ (s.responses r).coAddress = a then 1 else 0)
      = s.unanswered a + if p.f = some true ∧ p.coAddress = a then 1 else 0 := by
  simp only [unanswered, hr, hn]
  exact count_update (fun q : ResponseClosure α => q.f = some true ∧ q.coAddress = a) _ hlt p

theorem unanswered_push {p : ResponseClosure α}
    (hr : s'.responses = update s.responses s.nResponses p)
    (hn : s'.nResponses = s.nResponses + 1) (a : α) :
    s'.unanswered a = s.unanswered a + if p.f = some true ∧ p.coAddress = a then 1 else 0 := by
  simp only [unanswered, hr, hn, Nat.count_succ, update_self]
  congr 1
  apply le_antisymm
  · refine Nat.count_mono_left fun k hk hq => ?_
    rwa [update_of_ne hk.ne] at hq
  · refine Nat.count_mono_left fun k hk hq => ?_
    rwa [update_of_ne hk.ne]

namespace Counted

theorem settles (h : Counted s) {r : ℕ} {p : ResponseClosure α} (hlt : r < s.nResponses)
    (hf : (s.responses r).f = some true) (hp : p.f ≠ some true) (hu : p.unresponse = false)
    (hw : s'.watchingService = released s.watchingService (some (s.responses r).coAddress))
    (hr : s'.responses = update s.responses r p) (hn : s'.nResponses = s.nResponses)
    (ha : s'.sessionCoroutineAddress = s.sessionCoroutineAddress) (hs : s'.source = s.source)
    (hst : s'.coState = s.coState) (hctl : s'.ctl = s.ctl) (hnc : s'.nCos = s.nCos)
    (hpool : s'.coroutinePool = s.coroutinePool) : Counted s' where
  address c := by rw [ha, hs]; exact h.address c
  live c a hl := by
    rw [hs] at hl
    simpa [Suspended, hst] using h.live c a hl
  running c := by rw [hst, hctl]; exact h.running c
  new c hc := by
    rw [hnc] at hc
    rw [hst]
    exact h.new c hc
  nodup := by rw [hpool]; exact h.nodup
  spare c hm := by
    rw [hpool] at hm
    rw [hst, hnc]
    exact h.spare c hm
  unresponse r' := by
    rw [hr]
    by_cases hrr : r' = r
    · simp [hrr, hu, hp]
    · simpa [hrr] using h.unresponse r'
  count a := by
    have hun := unanswered_update hr hn hlt a
    have hcount := h.count a
    rw [if_neg (c := p.f = some true ∧ p.coAddress = a) (fun hq => hp hq.1)] at hun
    rw [hw, getD_released h.pos, requests_congr hs hnc]
    simp only [hf, true_and] at hun
    simp only [some.injEq]
    omega
  pos a := by rw [hw]; exact released_ne h.pos _ a

theorem test (h : Counted s) {r : ℕ} (hlt : r < s.nResponses)
    (hf : s.deadService (s.responses r).coAddress → (s.responses r).f = some true) :
    Counted (s.test r) := by
  unfold LuaService.test
  simp only []
  split
  · rename_i hd
    rw [releaseWatching_eq]
    exact h.settles (p := ⟨(s.responses r).coAddress, (s.responses r).coSession, some false, false⟩)
      hlt (hf hd) (by simp) rfl rfl rfl rfl rfl rfl rfl rfl rfl rfl
  · exact h

theorem respond (h : Counted s) {r : ℕ} (hlt : r < s.nResponses) (ok accepted : Bool) :
    Counted (s.respond r ok accepted) := by
  unfold LuaService.respond
  simp only []
  split
  · exact h
  · rename_i hf
    exact
      { h with
        unresponse := fun r' => by
          by_cases hrr : r' = r
          · have := h.unresponse r
            simpa [hrr, hf] using this
          · simpa [hrr] using h.unresponse r'
        count := fun a => by
          have hun : unanswered { s with
              responses := update s.responses r { s.responses r with f := none } } a + _
                = _ := unanswered_update (s := s) (by rfl) (by rfl) hlt a
          rw [if_neg (by simp [hf]), if_neg (by simp)] at hun
          exact (h.count a).trans (congrArg (s.requests a + ·) (Nat.add_right_cancel hun).symm) }
  · rename_i hf
    obtain ⟨l, hl⟩ := s.answer_eq (s.responses r).coAddress (s.responses r).coSession ok accepted
    have h' : Counted { s with sent := l } :=
      h.kept ⟨rfl, rfl, rfl, rfl, rfl, rfl, .refl _⟩ rfl fun _ => Iff.rfl
    rw [hl, releaseWatching_eq]
    exact h'.settles (p := { s.responses r with f := none, unresponse := false }) hlt hf (by simp)
      rfl rfl rfl rfl rfl rfl rfl rfl rfl rfl

theorem finish (h : Counted s) {c : ℕ} (hc : s.ctl = .run c) : Counted (s.finish c) := by
  have hrun : s.coState c = .running := (h.running c).2 hc
  have hlt : c < s.nCos := h.lt_nCos (by simp [hrun])
  have hcp : c ∉ s.coroutinePool := h.not_mem_pool (by simp [hrun, CoState.Spare])
  simp only [LuaService.finish, setState, releaseWatching_eq, h.address c]
  exact
    { address := fun c' => by
        by_cases hcc : c' = c
        · simp [hcc]
        · simpa [hcc] using h.address c'
      live := fun c' a hl => by
        by_cases hcc : c' = c
        · simp [hcc] at hl
        · have := h.live c' a (by simpa [hcc] using hl)
          simpa [Suspended, hcc] using this
      running := fun c' => by
        by_cases hcc : c' = c
        · simp [hcc]
        · simpa [hcc] using h.alone hc hcc
      new := fun c' hn => by
        have hn : s.nCos ≤ c' := hn
        have hne : c' ≠ c := by omega
        simpa [hne] using h.new c' hn
      nodup := h.nodup.append (by simp) (by simpa using hcp)
      spare := fun c' hm => by
        by_cases hcc : c' = c
        · subst hcc
          exact ⟨hlt, by simp [CoState.Spare]⟩
        · have hm : c' ∈ s.coroutinePool := by simpa [hcc] using hm
          simpa [hcc] using h.spare c' hm
      unresponse := h.unresponse
      count := fun a => by
        have hreq : requests { s with source := update s.source c none } a + _ = _ :=
          requests_update (s := s) (by rfl) (by rfl) hlt a
        simp only [reduceCtorEq, if_false, add_zero] at hreq
        have hcount := h.count a
        refine (getD_released h.pos (s.source c) a).trans ?_
        have : (s.watchingService a).getD 0 - (if s.source c = some a then 1 else 0)
            = requests { s with source := update s.source c none } a
              + s.unanswered a := by omega
        exact this
      pos := released_ne h.pos (s.source c) }

theorem holds (h : Counted s) {c : ℕ} (hc : s.ctl = .run c) : Counted (s.holds c) :=
  h.yields (t := .held) ⟨rfl, rfl, rfl, rfl, rfl, rfl, .refl _⟩ hc rfl
    (by simp [Suspended, LuaService.holds, throw]) (by simp) rfl

theorem leaves (h : Counted s) {c : ℕ} (hc : s.ctl = .run c) :
    Counted (s.setState c .held).leave := by
  have e := sameCounts_leave (s.setState c .held)
  refine h.yields (t := .held) ⟨e.1, e.2, e.3, e.4, e.5, e.6, e.7⟩ hc (coState_leave _)
    (by simp [Suspended]) (by simp) (running_leave _)

theorem ret (h : Counted s) {c : ℕ} (hc : s.ctl = .run c) (accepted : Bool) :
    Counted (s.ret c accepted) := by
  unfold LuaService.ret
  simp only []
  split
  · exact h.holds hc
  · have h' : Counted { s with sessionResponse := update s.sessionResponse c true } :=
      h.kept ⟨rfl, rfl, rfl, rfl, rfl, rfl, .refl _⟩ rfl fun _ => Iff.rfl
    split
    · obtain ⟨l, hl⟩ := answer_eq { s with
        sessionResponse := update s.sessionResponse c true } ‹α› ‹ℕ› true accepted
      rw [hl]
      exact h'.kept ⟨rfl, rfl, rfl, rfl, rfl, rfl, .refl _⟩ rfl fun _ => Iff.rfl
    · exact h'.holds hc

theorem response (h : Counted s) {c : ℕ} (hc : s.ctl = .run c) : Counted (s.response c) := by
  unfold LuaService.response
  split
  · exact h.holds hc
  · split
    · rename_i address session _ _
      split
      · exact h.holds hc
      · rename_i ref hw
        exact
          { h with
            unresponse := fun r => by
              by_cases hr : r = s.nResponses
              · simp [hr]
              · simpa [hr] using h.unresponse r
            count := fun a => by
              have hun : unanswered { s with
                  responses := update s.responses s.nResponses
                    ⟨address, session, some true, true⟩
                  nResponses := s.nResponses + 1 } a = _ :=
                unanswered_push (s := s) (by rfl) (by rfl) a
              have hcount := h.count a
              have : (update s.watchingService address (some (ref + 1)) a).getD 0
                  = s.requests a + unanswered { s with
                      responses := update s.responses s.nResponses
                        ⟨address, session, some true, true⟩
                      nResponses := s.nResponses + 1 } a := by
                rw [hun]
                by_cases ha : a = address
                · subst ha
                  simp only [hw, getD_some] at hcount
                  simp only [update_self, getD_some, and_self, if_true]
                  omega
                · simp only [update_of_ne ha, Ne.symm ha, and_false, if_false]
                  omega
              exact this
            pos := fun a => by
              by_cases ha : a = address
              · simp [ha]
              · simpa [ha] using h.pos a }
    · exact h.holds hc

theorem foldl_respond : ∀ (l : List ℕ) {s : LuaService α}, Counted s →
    (∀ r ∈ l, r < s.nResponses) → Counted (l.foldl (fun s r => s.respond r false true) s)
      ∧ (l.foldl (fun s r => s.respond r false true) s).ctl = s.ctl
  | [], _, h, _ => ⟨h, rfl⟩
  | r :: l, s, h, hl => by
    obtain ⟨w, p, m, hs⟩ := respond_eq (s := s) r false true
    obtain ⟨hc, hctl⟩ := foldl_respond l (h.respond (hl r (by simp)) false true) fun r' hr' => by
      rw [hs]
      exact hl r' (by simp [hr'])
    exact ⟨hc, hctl.trans (by rw [hs])⟩

theorem exit (h : Counted s) {c : ℕ} (hc : s.ctl = .run c) : Counted (s.exit c) := by
  unfold LuaService.exit
  simp only []
  set s₁ : LuaService α := { s with forkQueue := [], sent := s.sent ++ s.callerErrors }
  have h₁ : Counted s₁ := h.kept ⟨rfl, rfl, rfl, rfl, rfl, rfl, .refl _⟩ rfl fun _ => Iff.rfl
  obtain ⟨h₂, hctl⟩ := foldl_respond
    ((List.range s.nResponses).filter fun r => (s.responses r).unresponse) h₁ fun r hr => by
      simpa using (List.mem_filter.1 hr).1
  set s₂ := List.foldl (fun s r => s.respond r false true) s₁
    ((List.range s.nResponses).filter fun r => (s.responses r).unresponse)
  set s₃ : LuaService α := { s₂ with sent := s₂.sent ++ s₂.targetErrors }
  have h₃ : Counted s₃ := h₂.kept ⟨rfl, rfl, rfl, rfl, rfl, rfl, .refl _⟩ rfl fun _ => Iff.rfl
  exact h₃.leaves (hctl.trans hc)

end Counted

end Release

section Runs

variable {s s' : LuaService α}

namespace Counted

theorem errorDispatch (h : Counted s) (session : ℕ) (source : α) (order : List ℕ) :
    Counted (s.errorDispatch session source order) := by
  unfold LuaService.errorDispatch
  split
  · exact h.kept ⟨rfl, rfl, rfl, rfl, rfl, rfl, .refl _⟩ rfl fun _ => Iff.rfl
  · split
    · exact h.kept ⟨rfl, rfl, rfl, rfl, rfl, rfl, .refl _⟩ rfl fun _ => Iff.rfl
    · exact h

theorem noteError (h : Counted s) (session : ℕ) (source : α) :
    Counted (s.noteError session source) := by
  unfold LuaService.noteError
  split <;> exact h.kept ⟨rfl, rfl, rfl, rfl, rfl, rfl, .refl _⟩ rfl fun _ => Iff.rfl

theorem errorMessage (h : Counted s) (hn : s.running = none) {session : ℕ} {source : α}
    {order : List ℕ} {co : Option ℕ} (hp : ∀ c, co = some c → s.coState c = .pooled)
    (hr : s.errorMessage session source order co = some s') : Counted s' := by
  obtain ⟨s₁, hs₁, rfl⟩ := map_eq_some_iff.1 hr
  have hnote : (s.noteError session source).running = none
      ∧ (s.noteError session source).coState = s.coState := by
    unfold LuaService.noteError
    split <;> exact ⟨hn, rfl⟩
  have h₁ := (h.noteError session source).request hnote.1 (by rwa [hnote.2]) hs₁
  split
  · rename_i c hc
    refine (h₁.errorDispatch session source order).finish ?_
    unfold LuaService.errorDispatch
    split
    · exact hc
    · split <;> exact hc
  · exact h₁

theorem responseMessage (h : Counted s) (hn : s.running = none) (session : ℕ) (msg : Bytes) :
    Counted (s.responseMessage session msg) := by
  have h' : Counted (s.noteResponse session msg) :=
    h.kept ⟨rfl, rfl, rfl, rfl, rfl, rfl, .refl _⟩ rfl fun _ => Iff.rfl
  have hn' : (s.noteResponse session msg).running = none := hn
  unfold LuaService.responseMessage
  simp only []
  split
  · exact h'.stops hn' ⟨rfl, rfl, rfl, rfl, rfl, rfl, .refl _⟩ rfl rfl
  · exact h'.stops hn' ⟨rfl, rfl, rfl, rfl, rfl, rfl, .refl _⟩ rfl rfl
  · refine h'.resumed hn' ?_ ?_ ?_ _ _
    exacts [⟨rfl, rfl, rfl, rfl, rfl, rfl, .refl _⟩, rfl, hn']

theorem dispatchErrorQueue (h : Counted s) (hn : s.running = none) :
    Counted s.dispatchErrorQueue := by
  unfold LuaService.dispatchErrorQueue
  split
  · exact h.stops hn s.sameCounts_leave s.coState_leave s.running_leave
  · simp only []
    split
    · refine h.resumed hn ?_ ?_ ?_ _ _
      exacts [⟨rfl, rfl, rfl, rfl, rfl, rfl, .refl _⟩, rfl, hn]
    · exact h.stops hn ⟨rfl, rfl, rfl, rfl, rfl, rfl, .refl _⟩ rfl rfl

theorem dispatchWakeup (h : Counted s) (hn : s.running = none) {co : Option ℕ}
    (hw : s.dispatchWakeup co = some s') : Counted s' := by
  unfold LuaService.dispatchWakeup at hw
  split at hw
  · split at hw
    · obtain rfl := some.inj hw
      exact h.stops hn ⟨rfl, rfl, rfl, rfl, rfl, rfl, .refl _⟩ rfl rfl
    · cases hw
  · split at hw
    · simp only [] at hw
      split at hw
      · obtain rfl := some.inj hw
        exact h.stops hn ⟨rfl, rfl, rfl, rfl, rfl, rfl, .refl _⟩ rfl rfl
      · obtain rfl := some.inj hw
        refine h.resumed hn ?_ ?_ ?_ _ _
        exacts [⟨rfl, rfl, rfl, rfl, rfl, rfl, .refl _⟩, rfl, hn]
    · cases hw

theorem wakeup (h : Counted s) (co : ℕ) : Counted (s.wakeup co) := by
  unfold LuaService.wakeup
  split
  · simp only []
    split <;> exact h.kept ⟨rfl, rfl, rfl, rfl, rfl, rfl, .refl _⟩ rfl fun _ => Iff.rfl
  · exact h

theorem timeout (h : Counted s) {co : Option ℕ} (ht : s.timeout co = some s') : Counted s' := by
  obtain ⟨⟨c, s₁⟩, hs₁, rfl⟩ := map_eq_some_iff.1 ht
  have h₀ : Counted { s with sessionId := s.newSession } :=
    h.kept ⟨rfl, rfl, rfl, rfl, rfl, rfl, .refl _⟩ rfl fun _ => Iff.rfl
  have h₁ := h₀.coCreate hs₁
  simp only []
  split
  · exact h₁.kept ⟨rfl, rfl, rfl, rfl, rfl, rfl, .refl _⟩ rfl fun _ => Iff.rfl
  · exact h₁

theorem fork (h : Counted s) {co : Option ℕ} (hf : s.fork co = some s') : Counted s' := by
  obtain ⟨⟨c, s₁⟩, hs₁, rfl⟩ := map_eq_some_iff.1 hf
  exact (h.coCreate hs₁).kept ⟨rfl, rfl, rfl, rfl, rfl, rfl, .refl _⟩ rfl fun _ => Iff.rfl

theorem init [Inhabited α] : Counted (init : LuaService α) where
  address _ := rfl
  live _ _ h := by cases h
  running c := by
    by_cases hc : c = 0 <;> simp [LuaService.init, hc]
  new c hn := by
    have hn : 1 ≤ c := hn
    have hne : c ≠ 0 := by omega
    simp [LuaService.init, hne]
  nodup := List.nodup_nil
  spare _ h := by simp [LuaService.init] at h
  unresponse _ := by simp [LuaService.init]
  count a := by simp [LuaService.init, requests, unanswered]
  pos _ := by simp [LuaService.init]

/-- The counts stay right as long as every ref is given back. -/
theorem step (h : Counted s) {i : LuaStep α} (hok : Returned s i) (hst : s.step i = some s') :
    Counted s' := by
  cases i with
  | response session msg =>
    obtain ⟨hi, rfl⟩ := of_guard hst
    exact h.responseMessage (running_of_ctl hi (by simp)) session msg
  | error session source order co =>
    obtain ⟨hi, hst⟩ := ite_none_right_eq_some.1 hst
    refine h.errorMessage (running_of_ctl hi.1 (by simp)) ?_ hst
    rintro c rfl
    exact hok
  | request session source co =>
    obtain ⟨hi, hst⟩ := ite_none_right_eq_some.1 hst
    refine h.request (running_of_ctl hi (by simp)) ?_ hst
    rintro c rfl
    exact hok
  | badRequest => exact hok.elim
  | unknown session source prototype =>
    obtain ⟨hi, rfl⟩ := of_guard hst
    have hn := running_of_ctl hi (by simp)
    unfold LuaService.unknown
    split <;> exact h.stops hn ⟨rfl, rfl, rfl, rfl, rfl, rfl, .refl _⟩ rfl rfl
  | genid =>
    obtain ⟨c, -, rfl⟩ := of_running hst
    exact h.kept ⟨rfl, rfl, rfl, rfl, rfl, rfl, .refl _⟩ rfl fun _ => Iff.rfl
  | timeout co =>
    obtain ⟨c, -, ht⟩ := bind_eq_some_iff.1 hst
    exact h.timeout ht
  | fork co =>
    obtain ⟨c, -, hf⟩ := bind_eq_some_iff.1 hst
    exact h.fork hf
  | wakeup co =>
    obtain ⟨c, -, rfl⟩ := of_running hst
    exact h.wakeup co
  | respond r ok accepted =>
    obtain ⟨hlt, hst⟩ := ite_none_right_eq_some.1 hst
    obtain ⟨c, -, rfl⟩ := of_running hst
    exact h.respond hlt ok accepted
  | test r =>
    obtain ⟨hlt, hst⟩ := ite_none_right_eq_some.1 hst
    obtain ⟨c, -, rfl⟩ := of_running hst
    exact h.test hlt hok
  | term service order =>
    obtain ⟨-, hst⟩ := ite_none_right_eq_some.1 hst
    obtain ⟨c, -, rfl⟩ := of_running hst
    exact (h.noteError 0 service).errorDispatch 0 service order
  | call service =>
    obtain ⟨c, hc, rfl⟩ := of_running hst
    exact h.yields (t := .calling s.nCalls) ⟨rfl, rfl, rfl, rfl, rfl, rfl, .refl _⟩
      hc rfl (by simp [Suspended, LuaService.call]) (by simp) rfl
  | sleep =>
    obtain ⟨c, hc, rfl⟩ := of_running hst
    exact h.yields (t := .asleep s.nNaps) ⟨rfl, rfl, rfl, rfl, rfl, rfl, .refl _⟩
      hc rfl (by simp [Suspended, LuaService.sleep]) (by simp) rfl
  | wait co =>
    obtain ⟨c, hc, rfl⟩ := of_running hst
    exact h.yields (t := .asleep s.nNaps) ⟨rfl, rfl, rfl, rfl, rfl, rfl, .refl _⟩
      hc rfl (by simp [Suspended, LuaService.sleep]) (by simp) rfl
  | ret accepted =>
    obtain ⟨c, hc, rfl⟩ := of_running hst
    exact h.ret hc accepted
  | yieldResponse =>
    obtain ⟨c, hc, rfl⟩ := of_running hst
    exact h.response hc
  | exit =>
    obtain ⟨c, hc, rfl⟩ := of_running hst
    exact h.exit hc
  | finish =>
    obtain ⟨c, hc, rfl⟩ := of_running hst
    exact h.finish hc
  | raise =>
    obtain ⟨c, hc, rfl⟩ := of_running hst
    exact h.died (hok c hc) fun c' hne => h.alone hc hne
  | yield command =>
    obtain ⟨c, hc, rfl⟩ := of_running hst
    split
    · exact h.holds hc
    · exact h.leaves hc
  | dispatchWakeup co =>
    obtain ⟨hi, hst⟩ := ite_none_right_eq_some.1 hst
    exact h.dispatchWakeup (running_of_ctl hi (by simp)) hst
  | dispatchErrorQueue =>
    obtain ⟨hi, rfl⟩ := of_guard hst
    exact h.dispatchErrorQueue (running_of_ctl hi (by simp))
  | forked c =>
    obtain ⟨hi, rfl⟩ := of_guard hst
    have hn := running_of_ctl hi.1 (by simp)
    refine h.resumed hn ?_ ?_ ?_ _ _
    exacts [⟨rfl, rfl, rfl, rfl, rfl, rfl, .refl _⟩, rfl, hn]
  | done =>
    obtain ⟨hi, rfl⟩ := of_guard hst
    exact h.stops (running_of_ctl hi.1 (by simp)) ⟨rfl, rfl, rfl, rfl, rfl, rfl, .refl _⟩ rfl rfl

end Counted

/-- Between two messages `watching_service` counts, for each address, the suspended request
coroutines that were started for it and the closures for it that have not been answered. -/
theorem watching_of_reach [Inhabited α] (h : machine.Reach Returned s) (hi : s.ctl = .idle)
    (a : α) : (s.watchingService a).getD 0 = s.suspendedRequests a + s.unanswered a := by
  have hs : Counted s := h.invariant (I := fun s => Counted s) .init
    fun _ _ _ hI hok hst => hI.step hok hst
  have hn := running_of_ctl hi (by simp)
  rw [hs.count a]
  congr 1
  refine le_antisymm ?_ (Nat.count_mono_left fun c _ hc => hc.1)
  refine Nat.count_mono_left fun c _ hc => ⟨hc, ?_⟩
  exact (hs.live c a hc).resolve_left (hs.none_runs hn c)

/-- A request comes in, whose coroutine asks for a response closure and goes to sleep. -/
theorem watching_of_one_request :
    ∃ s : LuaService ℕ, s.ctl = .idle ∧ s.watchingService 7 = some 2 ∧
      (s.watchingService 7).getD 0 = s.suspendedRequests 7 + s.unanswered 7 := by
  have hl : ((machine (α := ℕ)).run Returned machine.init
      [.request 1 7 none, .yieldResponse, .sleep, .dispatchWakeup none, .dispatchErrorQueue,
        .done]).map (fun s => (s.ctl, s.watchingService 7)) = some (.idle, some 2) := by
    decide
  obtain ⟨s, hr, he⟩ := Machine.exists_reach hl
  simp only [Prod.mk.injEq] at he
  exact ⟨s, he.1, he.2, watching_of_reach hr he.1 7⟩

/-- A request comes in, whose coroutine raises an error: it stays counted for good. -/
theorem not_watching_of_raise :
    ∃ s : LuaService ℕ, machine.Reachable s ∧ s.ctl = .idle ∧
      (s.watchingService 7).getD 0 ≠ s.suspendedRequests 7 + s.unanswered 7 := by
  have hl : ((machine (α := ℕ)).run (fun _ _ => True) machine.init
      [.request 1 7 none, .raise, .done]).map
        (fun s => (s.ctl, s.watchingService 7, s.suspendedRequests 7, s.unanswered 7))
      = some (.idle, some 1, 0, 0) := by
    decide
  obtain ⟨s, hr, he⟩ := Machine.exists_reach hl
  simp only [Prod.mk.injEq] at he
  refine ⟨s, hr, he.1, ?_⟩
  simp [he.2.1, he.2.2.1, he.2.2.2]

end Runs

end LuaService

end SkynetGame
