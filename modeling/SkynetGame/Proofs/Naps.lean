import SkynetGame.Proofs.Sessions

/-!
# A wakeup breaks the sleep it was for

`wakeup_session` keeps coroutines, not sessions, so a wakeup is for the right sleep as long as the
coroutine is still in it when `dispatch_wakeup` takes it up: no sleep may end by its own response
while its coroutine is in `wakeup_session` (`LuaService.Prompt`).
-/

namespace SkynetGame

open Function Option

namespace LuaService

variable {α : Type*}

section Rested

variable (s : LuaService α)

/-- The steps are orderly, and a response is for no coroutine that is to be woken up. -/
def Prompt [DecidableEq α] (s : LuaService α) (i : LuaStep α) : Prop :=
  Orderly s i ∧
    match i with
    | .response session _ => ∀ c ∈ s.wakeupSession, s.sessionIdCoroutine session ≠ some (.co c)
    | _ => True

instance [DecidableEq α] (i : LuaStep α) : Decidable (Prompt s i) :=
  @instDecidableAnd _ _ (inferInstanceAs (Decidable (Orderly s i))) <| match i with
    | .response session _ => inferInstanceAs
        (Decidable (∀ c ∈ s.wakeupSession, s.sessionIdCoroutine session ≠ some (.co c)))
    | .error .. | .request .. | .badRequest .. | .unknown .. | .genid .. | .timeout .. |
      .fork .. | .wakeup .. | .respond .. | .test .. | .term .. | .call .. | .sleep .. |
      .wait .. | .ret .. | .yieldResponse .. | .exit .. | .finish .. | .raise .. | .yield .. |
      .dispatchWakeup .. | .dispatchErrorQueue .. | .forked .. | .done .. => isTrue trivial

/-- The sleep that `skynet.wakeup` broke, and its session until the response comes. -/
def NapBroken (n : ℕ) : Prop :=
  (s.naps n).woken = 1 ∧ (s.naps n).ends = [.broken] ∧
    ((s.naps n).late = some none ∨ (s.naps n).late = none ∧
      ((s.naps n).wait = none → s.sessionIdCoroutine (s.naps n).session = some .broken))

/-- The sleep that its own response ended. -/
def NapOver (n : ℕ) : Prop :=
  (s.naps n).woken = 0 ∧ (∃ msg, (s.naps n).ends = [.message msg]) ∧ (s.naps n).late = none

/-- How the sleeps ended, where that of `hand` is about to. -/
structure Rested (hand : Option ℕ) (s : LuaService α) : Prop where
  pending : ∀ c ∈ s.wakeupSession, hand ≠ some c ∧ ∃ n, s.coState c = .asleep n
  opened : ∀ c n, s.coState c = .asleep n → (s.naps n).ends = [] ∧ (s.naps n).late = none ∧
    (hand ≠ some c → (s.naps n).woken = if c ∈ s.wakeupSession then 1 else 0)
  closed : ∀ n < s.nNaps, (∃ c, s.coState c = .asleep n) ∨ s.NapOver n ∨ s.NapBroken n
  vain : s.vain = false

/-- Nothing is different for the sleeps. -/
structure SameNaps (s s' : LuaService α) : Prop where
  naps : s'.naps = s.naps
  nNaps : s'.nNaps = s.nNaps
  pending : s'.wakeupSession = s.wakeupSession
  vain : s'.vain = s.vain
  broken : ∀ x, s.sessionIdCoroutine x = some .broken → s'.sessionIdCoroutine x = some .broken
  asleep : ∀ c n, s'.coState c = .asleep n ↔ s.coState c = .asleep n

end Rested

variable {hand : Option ℕ} {s s' : LuaService α}

theorem asleep_update {c : ℕ} {st : CoState} (hc : ∀ n, s.coState c ≠ .asleep n)
    (hst : ∀ n, st ≠ .asleep n) (c' n : ℕ) :
    update s.coState c st c' = .asleep n ↔ s.coState c' = .asleep n := by
  by_cases hcc : c' = c
  · subst hcc
    simp [hc n, hst n]
  · simp [hcc]

theorem NapOver.congr {n : ℕ} (h : s.NapOver n) (e : s'.naps n = s.naps n) : s'.NapOver n := by
  unfold NapOver
  rw [e]
  exact h

theorem NapBroken.congr {n : ℕ} (h : s.NapBroken n) (e : s'.naps n = s.naps n)
    (hx : (s.naps n).late = none → (s.naps n).wait = none →
      s.sessionIdCoroutine (s.naps n).session = some .broken →
      s'.sessionIdCoroutine (s.naps n).session = some .broken) : s'.NapBroken n := by
  obtain ⟨h₁, h₂, h₃⟩ := h
  unfold NapBroken
  rw [e]
  exact ⟨h₁, h₂, h₃.imp_right fun hl => ⟨hl.1, fun hw => hx hl.1 hw (hl.2 hw)⟩⟩

namespace Rested

theorem kept (h : Rested hand s) (e : SameNaps s s') : Rested hand s' where
  pending := by simp only [e.pending, e.asleep]; exact h.pending
  opened := by simp only [e.pending, e.asleep, e.naps]; exact h.opened
  closed n hlt := by
    rw [e.nNaps] at hlt
    rcases h.closed n hlt with ⟨c, hc⟩ | ho | hb
    · exact .inl ⟨c, (e.asleep c n).2 hc⟩
    · exact .inr (.inl (ho.congr (by rw [e.naps])))
    · exact .inr (.inr (hb.congr (by rw [e.naps]) fun _ _ => e.broken _))
  vain := by rw [e.vain]; exact h.vain

theorem inHand (h : Rested none s) {c : ℕ} (hc : ∀ n, s.coState c ≠ .asleep n) :
    Rested (some c) s :=
  { h with
    pending := fun c' hm => by
      obtain ⟨-, n, hn⟩ := h.pending c' hm
      exact ⟨fun hcc => hc n (by rw [some.inj hcc, hn]), n, hn⟩
    opened := fun c' n hn => ⟨(h.opened c' n hn).1, (h.opened c' n hn).2.1, fun _ =>
      (h.opened c' n hn).2.2 (by simp)⟩ }

theorem resume {c : ℕ} (h : Rested (some c) s) (w : Wired (some c) s)
    (hst : s.waitsFor c ≠ none ∨ s.coState c = .ready) {v : ResumeArg}
    (hv : ∀ n, s.coState c = .asleep n →
      (s.naps n).woken = 0 ∧ (∃ msg, v = .message msg) ∨
        (s.naps n).woken = 1 ∧ v = .broken ∧
          ((s.naps n).wait = none → s.sessionIdCoroutine (s.naps n).session = some .broken))
    (hx : ∀ n, s.coState c = .asleep n → (s.naps n).wait ≠ none → ∀ m < s.nNaps, m ≠ n →
      s.NapBroken m → (s.naps m).late = none → (s.naps m).wait = none →
        (s.naps m).session ≠ (s.naps n).session) :
    Rested none (s.resume c v) := by
  have hother (hn : ∀ n, s.coState c ≠ .asleep n) : Rested none s :=
    { h with
      pending := fun c' hm => ⟨by simp, (h.pending c' hm).2⟩
      opened := fun c' n hn' => ⟨(h.opened c' n hn').1, (h.opened c' n hn').2.1, fun _ =>
        (h.opened c' n hn').2.2 fun hcc => hn n (by rw [some.inj hcc, hn'])⟩ }
  unfold LuaService.resume
  split
  · rename_i hc
    simp [waitsFor, hc] at hst
  · rename_i hc
    simp [waitsFor, hc] at hst
  · rename_i hc
    simp [waitsFor, hc] at hst
  · rename_i k hc
    exact (hother (by simp [hc])).kept ⟨rfl, rfl, rfl, rfl, fun _ => id,
      asleep_update (by simp [hc]) (by simp)⟩
  · rename_i n hc
    have ho := h.opened c n hc
    have hne {c' n' : ℕ} (hcc : c' ≠ c) (hn' : s.coState c' = .asleep n') : n' ≠ n := by
      rintro rfl
      exact hcc ((w.asleep c' n' hn').2.1.symm.trans (w.asleep c n' hc).2.1)
    -- both branches leave the other sleeps alone
    have hclose {t : LuaService α} (hnaps : t.naps = update s.naps n
          { s.naps n with ends := (s.naps n).ends ++ [v] }) (hnn : t.nNaps = s.nNaps)
        (hp : t.wakeupSession = s.wakeupSession) (hva : t.vain = s.vain)
        (hco : t.coState = update s.coState c .running)
        (hbn : (s.naps n).wait = none → ∀ x, s.sessionIdCoroutine x = some .broken →
          t.sessionIdCoroutine x = some .broken)
        (hbm : ∀ m < s.nNaps, m ≠ n → s.NapBroken m → (s.naps m).late = none →
          (s.naps m).wait = none → s.sessionIdCoroutine (s.naps m).session = some .broken →
          t.sessionIdCoroutine (s.naps m).session = some .broken) : Rested none t := by
      exact
        { pending := fun c' hm => by
            rw [hp] at hm
            obtain ⟨hh, n', hn'⟩ := h.pending c' hm
            have hcc : c' ≠ c := fun hcc => hh (by rw [hcc])
            exact ⟨by simp, n', by rw [hco, update_of_ne hcc, hn']⟩
          opened := fun c' n' hn' => by
            have hcc : c' ≠ c := fun hcc => by simp [hco, hcc] at hn'
            rw [hco, update_of_ne hcc] at hn'
            have ho' := h.opened c' n' hn'
            rw [hnaps, update_of_ne (hne hcc hn'), hp]
            exact ⟨ho'.1, ho'.2.1, fun _ => ho'.2.2 fun hq => hcc (some.inj hq).symm⟩
          closed := fun m hlt => by
            rw [hnn] at hlt
            by_cases hmn : m = n
            · subst hmn
              right
              rcases hv m hc with ⟨hw, msg, rfl⟩ | ⟨hw, rfl, hb⟩
              · exact .inl ⟨by simp [hnaps, hw], ⟨msg, by simp [hnaps, ho.1]⟩, by
                  simp [hnaps, ho.2.1]⟩
              · refine .inr ⟨by simp [hnaps, hw], by simp [hnaps, ho.1], .inr ⟨by
                  simp [hnaps, ho.2.1], fun hwa => ?_⟩⟩
                have hwa : (s.naps m).wait = none := by simpa [hnaps] using hwa
                simpa [hnaps] using hbn hwa _ (hb hwa)
            · have hsame : t.naps m = s.naps m := by rw [hnaps, update_of_ne hmn]
              rcases h.closed m hlt with ⟨c', hc'⟩ | hov | hbr
              · have hcc : c' ≠ c := fun hcc => hmn (by
                  rw [hcc, hc] at hc'
                  simpa [eq_comm] using hc')
                exact .inl ⟨c', by rw [hco, update_of_ne hcc, hc']⟩
              · exact .inr (.inl (hov.congr hsame))
              · exact .inr (.inr (hbr.congr hsame (hbm m hlt hmn hbr)))
          vain := by rw [hva]; exact h.vain }
    simp only []
    split
    · exact hclose rfl rfl rfl rfl rfl (fun _ _ => id) fun _ _ _ _ _ _ => id
    · rename_i t ht
      refine hclose rfl rfl rfl rfl rfl (fun hw => by simp [ht] at hw) fun m hlt hmn hbr hl hw hb => ?_
      have := hx n hc (by simp [ht]) m hlt hmn hbr hl hw
      simpa [LuaService.runs, setState, this] using hb
  · rename_i hn
    exact (hother hn).kept ⟨rfl, rfl, rfl, rfl, fun _ => id, asleep_update hn (by simp)⟩

theorem yields (h : Rested none s) (w : Wired none s) {c : ℕ} {st : CoState} (hc : s.ctl = .run c)
    (hst : s'.coState = update s.coState c st) (hn : ∀ n, st ≠ .asleep n)
    (hnaps : s'.naps = s.naps) (hnn : s'.nNaps = s.nNaps)
    (hp : s'.wakeupSession = s.wakeupSession) (hv : s'.vain = s.vain)
    (hb : ∀ x, s.sessionIdCoroutine x = some .broken → s'.sessionIdCoroutine x = some .broken) :
    Rested none s' := by
  have hrun : s.coState c = .running := (w.running c).2 hc
  refine h.kept ⟨hnaps, hnn, hp, hv, hb, ?_⟩
  rw [hst]
  exact asleep_update (by simp [hrun]) hn

theorem plain (h : Rested none s) (w : Wired none s) (e : SameWaits s s') : Rested none s' := by
  have he := e.waits
  simp only [waits, Prod.mk.injEq] at he
  obtain ⟨-, hnaps, hn, hp, hv, hb⟩ := he
  have hb : ∀ x, s.sessionIdCoroutine x = some .broken → s'.sessionIdCoroutine x = some .broken :=
    fun x => by rw [hb]; exact id
  rcases e.stops with ⟨hst, -⟩ | ⟨c, st, hc, hst, -, hnot, -⟩
  · exact h.kept ⟨hnaps, hn, hp, hv, hb, fun c n => by rw [hst]⟩
  · exact h.yields w hc hst hnot hnaps hn hp hv hb

theorem coCreate (h : Rested none s) (w : Wired none s) {co : Option ℕ} {c : ℕ}
    (hc : s.coCreate co = some (c, s')) : Rested none s' := by
  obtain ⟨-, rfl, rfl⟩ | ⟨-, hm, rfl⟩ := coCreate_cases hc
  · exact h.kept ⟨rfl, rfl, rfl, rfl, fun _ => id,
      asleep_update (by simp [w.new _ le_rfl]) (by simp)⟩
  · have hp := w.pool c hm
    exact h.kept ⟨rfl, rfl, rfl, rfl, fun _ => id, asleep_update (by simp [hp]) (by simp [hp])⟩

theorem sleep (h : Rested none s) (w : Wired none s) {c : ℕ} (hc : s.ctl = .run c)
    (hf : s.Fresh) (wait : Option (Option ℕ)) : Rested none (s.sleep c wait) := by
  have hrun : s.coState c = .running := (w.running c).2 hc
  have hother {c' n : ℕ} (hn : s.coState c' = .asleep n) : c' ≠ c ∧ n ≠ s.nNaps :=
    ⟨fun hcc => by simp [hcc, hrun] at hn, (w.asleep c' n hn).1.ne⟩
  have hcp : c ∉ s.wakeupSession := fun hm => by
    obtain ⟨-, n, hn⟩ := h.pending c hm
    simp [hrun] at hn
  exact
    { pending := fun c' hm => by
        obtain ⟨hh, n, hn⟩ := h.pending c' hm
        exact ⟨hh, n, by simpa [LuaService.sleep, (hother hn).1] using hn⟩
      opened := fun c' n hn => by
        by_cases hcc : c' = c
        · subst hcc
          obtain rfl : s.nNaps = n := by simpa [LuaService.sleep] using hn
          refine ⟨by simp [LuaService.sleep], by simp [LuaService.sleep], fun _ => ?_⟩
          simp [LuaService.sleep, setState, hcp]
        · have hn : s.coState c' = .asleep n := by simpa [LuaService.sleep, hcc] using hn
          have ho := h.opened c' n hn
          simp only [LuaService.sleep, update_of_ne (hother hn).2]
          exact ho
      closed := fun n hlt => by
        by_cases hnn : n = s.nNaps
        · exact .inl ⟨c, by simp [LuaService.sleep, hnn]⟩
        · have hlt : n < s.nNaps := by
            have : n < s.nNaps + 1 := hlt
            omega
          have hsame : (s.sleep c wait).naps n = s.naps n := by simp [LuaService.sleep, hnn]
          rcases h.closed n hlt with ⟨c', hn⟩ | ho | hb
          · exact .inl ⟨c', by simpa [LuaService.sleep, (hother hn).1] using hn⟩
          · exact .inr (.inl (ho.congr hsame))
          · refine .inr (.inr (hb.congr hsame fun _ _ hx => ?_))
            have hne : (s.naps n).session ≠ s.newSession := fun hq => by simp [hq, hf.1] at hx
            simpa [LuaService.sleep, hne] using hx
      vain := h.vain }

theorem wakeup (h : Rested none s) (w : Wired none s) (co : ℕ) : Rested none (s.wakeup co) := by
  unfold LuaService.wakeup
  split
  · rename_i hco
    obtain ⟨x, hx⟩ := isSome_iff_exists.1 hco.1
    obtain ⟨n, hn⟩ := w.sleeping co x hx
    simp only [hn]
    have hne {c' n' : ℕ} (hcc : c' ≠ co) (hn' : s.coState c' = .asleep n') : n' ≠ n := by
      rintro rfl
      exact hcc ((w.asleep c' n' hn').2.1.symm.trans (w.asleep co n' hn).2.1)
    exact
      { pending := fun c' hm => by
          rcases List.mem_append.1 hm with hm | hm
          · exact h.pending c' hm
          · obtain rfl : c' = co := by simpa using hm
            exact ⟨by simp, n, hn⟩
        opened := fun c' n' hn' => by
          have hn' : s.coState c' = .asleep n' := hn'
          have ho := h.opened c' n' hn'
          by_cases hcc : c' = co
          · subst hcc
            rw [hn] at hn'
            obtain rfl : n = n' := by simpa using hn'
            have hw := ho.2.2 (by simp)
            rw [if_neg hco.2] at hw
            simp [ho.1, ho.2.1, hw]
          · simpa [hne hcc hn', hcc] using ho
        closed := fun n' hlt => by
          by_cases hnn : n' = n
          · exact .inl ⟨co, by rw [hnn]; exact hn⟩
          · rcases h.closed n' hlt with hc | ho | hb
            · exact .inl hc
            · exact .inr (.inl (ho.congr (by simp [hnn])))
            · exact .inr (.inr (hb.congr (by simp [hnn]) fun _ _ => id))
        vain := h.vain }
  · exact h

theorem noteResponse_naps (h : Rested none s) {x : ℕ} (msg : Bytes) {n : ℕ} (hlt : n < s.nNaps) :
    (s.noteResponse x msg).naps n = s.naps n ∧
        (s.NapBroken n → (s.naps n).session = x → (s.naps n).wait = none → (s.naps n).late ≠ none) ∨
      s.NapBroken n ∧ s.sessionIdCoroutine x = some .broken ∧
        (s.noteResponse x msg).naps n = { s.naps n with late := some none } := by
  by_cases hm : (s.naps n).session = x ∧ (s.naps n).wait = none ∧
      (s.naps n).ends.head? = some .broken ∧ (s.naps n).late = none
  · right
    obtain ⟨hx, hw, he, hl⟩ := hm
    have hb : s.NapBroken n := by
      rcases h.closed n hlt with ⟨c, hc⟩ | ⟨-, ⟨msg', hmsg⟩, -⟩ | hb
      · simp [(h.opened c n hc).1] at he
      · simp [hmsg] at he
      · exact hb
    have hentry : s.sessionIdCoroutine x = some .broken := by
      rcases hb.2.2 with hl' | hl'
      · simp [hl] at hl'
      · exact hx ▸ hl'.2 hw
    refine ⟨hb, hentry, ?_⟩
    simp [LuaService.noteResponse, note, hlt, hx, hw, he, hl, hentry]
  · left
    refine ⟨?_, fun hb hx hw hl => hm ⟨hx, hw, by simp [hb.2.1], hl⟩⟩
    simp only [LuaService.noteResponse, note]
    rw [if_neg fun hq => hm hq.2]

theorem noteResponse (h : Rested none s) (w : Wired none s) (x : ℕ) (msg : Bytes) :
    Rested none (s.noteResponse x msg) where
  pending := h.pending
  opened c n hn := by
    have hn : s.coState c = .asleep n := hn
    have ho := h.opened c n hn
    rcases h.noteResponse_naps (x := x) msg (w.asleep c n hn).1 with ⟨he, -⟩ | ⟨hb, -, -⟩
    · rw [he]
      exact ho
    · simp [hb.2.1] at ho
  closed n hlt := by
    have hlt : n < s.nNaps := hlt
    rcases h.noteResponse_naps (x := x) msg hlt with ⟨he, -⟩ | ⟨hb, -, he⟩
    · rcases h.closed n hlt with hc | ho | hb
      · exact .inl hc
      · exact .inr (.inl (ho.congr he))
      · exact .inr (.inr (hb.congr he fun _ _ => id))
    · right
      right
      unfold NapBroken
      rw [he]
      exact ⟨hb.1, hb.2.1, .inl rfl⟩
  vain := h.vain

theorem clear (h : Rested hand s) {x : ℕ}
    (hx : ∀ n < s.nNaps, s.NapBroken n → (s.naps n).late = none → (s.naps n).wait = none →
      (s.naps n).session ≠ x) :
    Rested hand { s with sessionIdCoroutine := update s.sessionIdCoroutine x none } :=
  { h with
    closed := fun n hlt => by
      rcases h.closed n hlt with hc | ho | hb
      · exact .inl hc
      · exact .inr (.inl (ho.congr rfl))
      · refine .inr (.inr (hb.congr rfl fun hl hw hq => ?_))
        simpa [hx n hlt hb hl hw] using hq }

theorem responseMessage (h : Rested none s) (w : Wired none s) {x : ℕ}
    (hok : ∀ c ∈ s.wakeupSession, s.sessionIdCoroutine x ≠ some (.co c)) (msg : Bytes) :
    Rested none (s.responseMessage x msg) := by
  have h' := h.noteResponse w x msg
  have w' := w.noteResponse x msg
  unfold LuaService.responseMessage
  simp only []
  split
  · exact h'.kept ⟨rfl, rfl, rfl, rfl, fun _ => id, fun _ _ => Iff.rfl⟩
  · refine (h'.clear (x := x) fun n hlt hb hl hw hq => ?_).kept
      ⟨rfl, rfl, rfl, rfl, fun _ => id, fun _ _ => Iff.rfl⟩
    rcases h.noteResponse_naps (x := x) msg hlt with ⟨he, hno⟩ | ⟨-, -, he⟩
    · rw [he] at hl hw hq
      exact hno (hb.congr he.symm fun _ _ => id) hq hw hl
    · simp [he] at hl
  · rename_i c he
    have hbx : ∀ n < s.nNaps, (s.noteResponse x msg).NapBroken n →
        ((s.noteResponse x msg).naps n).late = none → ((s.noteResponse x msg).naps n).wait = none →
          ((s.noteResponse x msg).naps n).session ≠ x := by
      intro n hlt hb hl hw hq
      rcases hb.2.2 with hl' | hl'
      · simp [hl] at hl'
      · have := hl'.2 hw
        rw [hq, he] at this
        simp at this
    have hcp : c ∉ s.wakeupSession := fun hm => hok c hm he
    have hhand : Rested (some c) (s.noteResponse x msg) :=
      { h' with
        pending := fun c' hm => ⟨fun hcc => hcp (by rw [some.inj hcc]; exact hm),
          (h'.pending c' hm).2⟩
        opened := fun c' n hn => ⟨(h'.opened c' n hn).1, (h'.opened c' n hn).2.1, fun _ =>
          (h'.opened c' n hn).2.2 (by simp)⟩ }
    refine Rested.resume (hhand.clear hbx) (w'.take he (by simp) fun _ => rfl) (w'.can_resume he)
      (fun n hn => .inl ⟨?_, msg, rfl⟩) fun n hn hwa m hlt hmn hb hl hw hq => ?_
    · have := (h'.opened c n hn).2.2 (by simp)
      rwa [if_neg (show c ∉ (s.noteResponse x msg).wakeupSession from hcp)] at this
    · have hn : (s.noteResponse x msg).coState c = .asleep n := hn
      have hx : ((s.noteResponse x msg).naps n).session = x := by
        rcases w'.entry x c he with hx | hx
        · simpa [Wired.waitsFor_asleep hn] using hx
        · simp [hn] at hx
      rcases hb.2.2 with hl' | hl'
      · exact absurd (hl.symm.trans hl') (by simp)
      · have hmx := hl'.2 hw
        rw [hq.trans hx] at hmx
        simp at hmx

theorem dispatchErrorQueue (h : Rested none s) (w : Wired none s) :
    Rested none s.dispatchErrorQueue := by
  unfold LuaService.dispatchErrorQueue
  split
  · rcases s.leave_cases with hl | hl <;> rw [hl]
    · exact h.kept ⟨rfl, rfl, rfl, rfl, fun _ => id, fun _ _ => Iff.rfl⟩
    · exact h.kept ⟨rfl, rfl, rfl, rfl, fun _ => id, fun _ _ => Iff.rfl⟩
  · rename_i x queue hq
    simp only []
    obtain ⟨hnb, hna⟩ := w.queue x (by simp [hq])
    have hcl : ∀ n < s.nNaps, s.NapBroken n → (s.naps n).late = none → (s.naps n).wait = none →
        (s.naps n).session ≠ x := by
      intro n hlt hb hl hw hx
      rcases hb.2.2 with hl' | hl'
      · simp [hl] at hl'
      · exact hnb (hx ▸ hl'.2 hw)
    split
    · rename_i c he
      have hn : ∀ n, s.coState c ≠ .asleep n := fun n => hna c n he
      have w₁ : Wired none { s with
          errorQueue := queue
          stray := s.stray || !decide (s.Awaits x (s.sessionIdCoroutine x)) } :=
        { w with
          inHand := fun c hc => by cases hc
          queue := fun y hy => w.queue y (by rw [hq]; exact List.mem_cons_of_mem _ hy) }
      refine Rested.resume ?_ (w₁.take he (by simp) fun _ => rfl) (w₁.can_resume he)
        (fun n hn' => absurd hn' (hn n)) fun n hn' => absurd hn' (hn n)
      exact ((h.inHand hn).clear hcl).kept ⟨rfl, rfl, rfl, rfl, fun _ => id, fun _ _ => Iff.rfl⟩
    · exact (h.clear hcl).kept ⟨rfl, rfl, rfl, rfl, fun _ => id, fun _ _ => Iff.rfl⟩

theorem dispatchWakeup (h : Rested none s) (w : Wired none s) {co : Option ℕ}
    (hw : s.dispatchWakeup co = some s') : Rested none s' := by
  unfold LuaService.dispatchWakeup at hw
  split at hw
  · split at hw
    · obtain rfl := some.inj hw
      exact h.kept ⟨rfl, rfl, rfl, rfl, fun _ => id, fun _ _ => Iff.rfl⟩
    · cases hw
  · rename_i c
    split at hw
    · rename_i hcm
      obtain ⟨-, n, hn⟩ := h.pending c hcm
      have hx := (w.asleep c n hn).2.2
      have he := w.hooked c _ (Wired.waitsFor_asleep hn) (by simp)
      simp only [hx] at hw
      obtain rfl := some.inj hw
      have hsame {n' : ℕ} (hn' : s.coState c = .asleep n') : n' = n := by
        rw [hn] at hn'
        simpa [eq_comm] using hn'
      have hapart : ∀ m < s.nNaps, s.NapBroken m → (s.naps m).late = none →
          (s.naps m).wait = none → (s.naps m).session ≠ (s.naps n).session := by
        intro m hlt hb hl hwa hq
        rcases hb.2.2 with hl' | hl'
        · simp [hl] at hl'
        · have := hl'.2 hwa
          rw [hq, he] at this
          simp at this
      have hwas {m : ℕ} {e : ℕ → Option SessionEntry} {q : List ℕ} {d : ℕ}
          (hlt : m < s.nNaps) (hb : NapBroken { s with
            wakeupSession := q, sessionIdCoroutine := e, depth := d } m) : s.NapBroken m := by
        rcases h.closed m hlt with ⟨c', hc'⟩ | ⟨-, ⟨msg, hmsg⟩, -⟩ | hb'
        · have := hb.2.1
          simp [(h.opened c' m hc').1] at this
        · have := hb.2.1
          simp [hmsg] at this
        · exact hb'
      refine Rested.resume ?_ (w.wakeupHand hx) (.inl (by simp [waitsFor, hn])) (fun n' hn' => ?_)
        fun n' hn' hwa m hlt hmn hb hl hwm => ?_
      · exact
          { pending := fun c' hm => by
              have hm := List.mem_filter.1 hm
              obtain ⟨-, n', hn'⟩ := h.pending c' hm.1
              refine ⟨fun hcc => ?_, n', hn'⟩
              simp [some.inj hcc] at hm
            opened := fun c' n' hn' => by
              have hn' : s.coState c' = .asleep n' := hn'
              have ho := h.opened c' n' hn'
              refine ⟨ho.1, ho.2.1, fun hcc => (ho.2.2 (by simp)).trans ?_⟩
              have hne : c' ≠ c := fun hq => hcc (by rw [hq])
              simp [hne]
            closed := fun m hlt => by
              rcases h.closed m hlt with hc | ho | hb
              · exact .inl hc
              · exact .inr (.inl (ho.congr rfl))
              · refine .inr (.inr (hb.congr rfl fun hl hwa hq => ?_))
                simpa [hapart m hlt hb hl hwa] using hq
            vain := h.vain }
      · obtain rfl := hsame hn'
        have hwo := (h.opened c n' hn).2.2 (by simp)
        rw [if_pos hcm] at hwo
        exact .inr ⟨hwo, rfl, fun _ => by simp⟩
      · obtain rfl := hsame hn'
        exact hapart m hlt (hwas hlt hb) hl hwm
    · cases hw

theorem forked (h : Rested none s) (w : Wired none s) {c : ℕ} (hc : c ∈ s.forkQueue) :
    Rested none ({ s with forkQueue := s.forkQueue.erase c }.resume c .start) := by
  have hr := (w.forkReady c hc).1
  have hn : ∀ n, s.coState c ≠ .asleep n := by simp [hr]
  refine Rested.resume ?_ (w.takeFork hc) (.inr hr) (fun n hn' => absurd hn' (hn n))
    fun n hn' => absurd hn' (hn n)
  exact (h.inHand hn).kept ⟨rfl, rfl, rfl, rfl, fun _ => id, fun _ _ => Iff.rfl⟩

section Runs

variable [DecidableEq α]

theorem errorMessage (h : Rested none s) (w : Wired none s) {x : ℕ} {a : α} {order : List ℕ}
    {co : Option ℕ} (hr : s.errorMessage x a order co = some s') : Rested none s' := by
  obtain ⟨c, s₁, w₁, i, b, o, hc, rfl⟩ := w.errorMessage_runs hr
  have w' := w.noteError x a
  obtain ⟨f, hnote⟩ := s.noteError_eq x a
  rw [hnote] at hc w'
  have h' : Rested none { s with calls := f } :=
    h.kept ⟨rfl, rfl, rfl, rfl, fun _ => id, fun _ _ => Iff.rfl⟩
  have h₁ := h'.coCreate w' hc
  have hre := (w'.coCreate hc).2.1
  obtain ⟨d, hd⟩ := errorDispatch_eq (s := { s₁ with
    watchingService := w₁, sessionCoroutineId := i, sessionCoroutineAddress := b
    source := o }.runs c) x a order
  obtain ⟨w₂, i₂, a₂, r₂, o₂, hf⟩ := finish_eq (s := errorDispatch ({ s₁ with
    watchingService := w₁, sessionCoroutineId := i, sessionCoroutineAddress := b
    source := o }.runs c) x a order) c
  rw [hf, hd]
  refine h₁.kept ⟨rfl, rfl, rfl, rfl, fun _ => id, ?_⟩
  simp only [setState, LuaService.runs, update_idem]
  exact asleep_update (by simp [hre]) (by simp)

/-- The sleeps end as they should as long as every response is prompt. -/
theorem step (h : Rested none s) (w : Wired none s) {i : LuaStep α} (hok : Prompt s i)
    (hst : s.step i = some s') : Rested none s' := by
  have hw := hok.1
  cases i with
  | response session msg =>
    obtain ⟨-, rfl⟩ := of_guard hst
    exact h.responseMessage w hok.2 msg
  | error session source order co =>
    obtain ⟨-, hst⟩ := ite_none_right_eq_some.1 hst
    exact h.errorMessage w hst
  | request session source co =>
    obtain ⟨-, hst⟩ := ite_none_right_eq_some.1 hst
    obtain ⟨c, s₁, w₁, i, b, o, hc, rfl⟩ := w.request_runs hst
    have hre := (w.coCreate hc).2.1
    exact (h.coCreate w hc).kept ⟨rfl, rfl, rfl, rfl, fun _ => id,
      asleep_update (by simp [hre]) (by simp)⟩
  | badRequest session source co =>
    obtain ⟨-, hst⟩ := ite_none_right_eq_some.1 hst
    simp only [LuaService.badRequest, start, coCreate_watching, Option.map_map] at hst
    obtain ⟨⟨c, s₁⟩, hc, rfl⟩ := map_eq_some_iff.1 hst
    exact (h.coCreate w hc).kept ⟨rfl, rfl, rfl, rfl, fun _ => id, fun _ _ => Iff.rfl⟩
  | unknown session source prototype =>
    obtain ⟨-, rfl⟩ := of_guard hst
    unfold LuaService.unknown
    split <;> exact h.kept ⟨rfl, rfl, rfl, rfl, fun _ => id, fun _ _ => Iff.rfl⟩
  | timeout co =>
    obtain ⟨c, -, ht⟩ := bind_eq_some_iff.1 hst
    obtain ⟨⟨c', s₁⟩, hs₁, rfl⟩ := map_eq_some_iff.1 ht
    have h₀ : Rested none { s with sessionId := s.newSession } :=
      h.kept ⟨rfl, rfl, rfl, rfl, fun _ => id, fun _ _ => Iff.rfl⟩
    have w₀ : Wired none { s with sessionId := s.newSession } :=
      w.kept (.of rfl (.refl _)) rfl rfl fun _ => Iff.rfl
    have h₁ := h₀.coCreate w₀ hs₁
    simp only []
    split
    · rename_i hx
      refine h₁.kept ⟨rfl, rfl, rfl, rfl, fun x hb => ?_, fun _ _ => Iff.rfl⟩
      have hne : x ≠ s.newSession := fun hq => by simp [hq, hx] at hb
      simpa [hne] using hb
    · exact h₁
  | fork co =>
    obtain ⟨c, -, hf⟩ := bind_eq_some_iff.1 hst
    obtain ⟨⟨c', s₁⟩, hs₁, rfl⟩ := map_eq_some_iff.1 hf
    exact (h.coCreate w hs₁).kept ⟨rfl, rfl, rfl, rfl, fun _ => id, fun _ _ => Iff.rfl⟩
  | wakeup co =>
    obtain ⟨c, -, rfl⟩ := of_running hst
    exact h.wakeup w co
  | term service order =>
    obtain ⟨-, hst⟩ := ite_none_right_eq_some.1 hst
    obtain ⟨c, -, rfl⟩ := of_running hst
    obtain ⟨f, hnote⟩ := s.noteError_eq 0 service
    obtain ⟨d, hd⟩ := errorDispatch_eq (s := s.noteError 0 service) 0 service order
    rw [hd, hnote]
    exact h.kept ⟨rfl, rfl, rfl, rfl, fun _ => id, fun _ _ => Iff.rfl⟩
  | call service =>
    obtain ⟨c, hc, rfl⟩ := of_running hst
    refine h.yields w hc rfl (by simp) rfl rfl rfl rfl fun x hb => ?_
    have hne : x ≠ s.newSession := fun hq => by
      have hf : s.Fresh := hw
      simp [hq, hf.1] at hb
    simpa [LuaService.call, hne] using hb
  | sleep =>
    obtain ⟨c, hc, rfl⟩ := of_running hst
    exact h.sleep w hc hw none
  | wait co =>
    obtain ⟨c, hc, rfl⟩ := of_running hst
    exact h.sleep w hc hw.1 (some co)
  | dispatchWakeup co =>
    obtain ⟨-, hst⟩ := ite_none_right_eq_some.1 hst
    exact h.dispatchWakeup w hst
  | dispatchErrorQueue =>
    obtain ⟨-, rfl⟩ := of_guard hst
    exact h.dispatchErrorQueue w
  | forked c =>
    obtain ⟨hi, rfl⟩ := of_guard hst
    exact h.forked w hi.2
  | done =>
    obtain ⟨-, rfl⟩ := of_guard hst
    exact h.kept ⟨rfl, rfl, rfl, rfl, fun _ => id, fun _ _ => Iff.rfl⟩
  | genid | respond | test | ret | yieldResponse | exit | finish | raise | yield =>
    exact h.plain w (plain_step hst trivial)

end Runs

end Rested

section Reach

/-- The coroutine is in the sleep, and is to be woken up if `skynet.wakeup` returned true for it. -/
def NapOpen (s : LuaService α) (n : ℕ) : Prop :=
  s.coState (s.naps n).co = .asleep n ∧ (s.naps n).ends = [] ∧
    ((s.naps n).woken = 0 ∨ (s.naps n).woken = 1 ∧ (s.naps n).co ∈ s.wakeupSession)

/-- Each sleep is under way, or was ended once: by its response with no `skynet.wakeup` that returned
true for it, or by the one that did, where the response that came later resumed nothing. -/
def NapsSound (s : LuaService α) : Prop :=
  s.vain = false ∧ (∀ c n, s.coState c = .asleep n → s.NapOpen n) ∧
    ∀ n < s.nNaps, s.NapOpen n ∨ s.NapOver n ∨ s.NapBroken n

variable [Inhabited α]

theorem rested_init : Rested none (init : LuaService α) where
  pending _ hm := by simp [init] at hm
  opened c n hn := by
    by_cases hc : c = 0 <;> simp [init, hc] at hn
  closed _ hlt := by simp [init] at hlt
  vain := rfl

variable [DecidableEq α]

theorem naps_of_reach (h : machine.Reach Prompt s) : s.NapsSound := by
  obtain ⟨hw, hr⟩ : Wired none s ∧ Rested none s :=
    h.invariant (I := fun s => Wired none s ∧ Rested none s) ⟨wired_init, rested_init⟩
      fun _ _ _ hI hok hst => ⟨hI.1.step hok.1 hst, hI.2.step hI.1 hok hst⟩
  have hopen (c n : ℕ) (hc : s.coState c = .asleep n) : s.NapOpen n := by
    obtain rfl := (hw.asleep c n hc).2.1
    have ho := hr.opened _ n hc
    refine ⟨hc, ho.1, ?_⟩
    have hwo := ho.2.2 (by simp)
    by_cases hm : (s.naps n).co ∈ s.wakeupSession
    · exact .inr ⟨by simpa [hm] using hwo, hm⟩
    · exact .inl (by simpa [hm] using hwo)
  refine ⟨hr.vain, hopen, fun n hlt => ?_⟩
  rcases hr.closed n hlt with ⟨c, hc⟩ | hcl
  · exact .inl (hopen c n hc)
  · exact .inr hcl

/-- A sleep is broken by a wakeup, and its response comes later. -/
theorem naps_of_broken_sleep :
    ∃ s : LuaService ℕ, (s.naps 0).ends = [.broken] ∧ (s.naps 0).late = some none ∧
      s.NapsSound := by
  have hl : ((machine (α := ℕ)).run Prompt machine.init
      [.response 1 [], .sleep, .dispatchWakeup none, .dispatchErrorQueue, .done,
        .request 0 7 none, .wakeup 0, .finish, .dispatchWakeup (some 0), .finish,
        .dispatchWakeup none, .dispatchErrorQueue, .dispatchErrorQueue, .done,
        .response 2 []]).map (fun s => ((s.naps 0).ends, (s.naps 0).late))
      = some ([.broken], some none) := by
    decide
  obtain ⟨s, hr, he⟩ := Machine.exists_reach hl
  simp only [Prod.mk.injEq] at he
  exact ⟨s, he.1, he.2, naps_of_reach hr⟩

/-- The coroutine that called `skynet.wakeup` raises an error, and the timeout of the sleep comes
before another coroutine yields: the wakeup breaks the next sleep. -/
theorem not_naps_of_raise : ∃ s : LuaService ℕ, machine.Reachable s ∧ ¬s.NapsSound := by
  have hl : ((machine (α := ℕ)).run (fun _ _ => True) machine.init
      [.response 1 [], .sleep, .dispatchWakeup none, .dispatchErrorQueue, .done,
        .request 0 7 none, .wakeup 0, .raise, .done, .response 2 [], .sleep,
        .dispatchWakeup (some 0)]).map
        (fun s => (s.nNaps, (s.naps 1).woken, (s.naps 1).ends)) = some (2, 0, [.broken]) := by
    decide
  obtain ⟨s, hr, he⟩ := Machine.exists_reach hl
  simp only [Prod.mk.injEq] at he
  refine ⟨s, hr, fun h => ?_⟩
  rcases h.2.2 1 (by omega) with hn | hn | hn
  · have hend := hn.2.1
    simp [he.2.2] at hend
  · obtain ⟨msg, hmsg⟩ := hn.2.1
    simp [he.2.2] at hmsg
  · have hwoken := hn.1
    simp [he.2.1] at hwoken

end Reach

end LuaService

end SkynetGame
