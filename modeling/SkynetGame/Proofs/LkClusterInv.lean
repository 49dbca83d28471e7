import SkynetGame.LkCluster
import Mathlib.Data.List.Nodup

/-!
# What comes back from the calls with a timeout

A `rawcall` whose caller is in its `skynet.wait()` is in one of two states (`Open`): nothing came and
nobody woke the caller, or the first of the reply and the timer came, has set `self_co` to `nil`, and
has put the caller into `wakeup_session`. An `mcall` counts the coroutines it forked that are not done,
down to the last one, which wakes its caller.
-/

namespace SkynetGame

open Function List Option

namespace LkCluster

variable {ν β : Type}

/-- Nothing came yet, or what came first has the caller woken. -/
structure Open (s : State ν β) (i : ℕ) (x : Rawcall ν β) : Prop where
  ends : x.ends = []
  mode : s.mode x.caller = .waiting i
  fork : x.fork ≠ .over → x.r = none
  timer : x.first = none → x.timer = true
  came : x.first = none ∧ x.selfCo = true ∧ x.r = none ∧ x.caller ∉ s.wakeupSession ∨
    x.first = some x.r ∧ x.selfCo = false ∧ x.caller ∈ s.wakeupSession

/-- The caller went on once, with what came first. -/
structure Closed (x : Rawcall ν β) : Prop where
  selfCo : x.selfCo = false
  ends : ∃ v, x.ends = [v] ∧ x.first = some v

/-- The coroutines that an `mcall` forked and that are not done. -/
def Mcall.left (m : Mcall ν β) : ℕ := m.forks.length + m.waiting.length

/-- Some are left, and are counted, or the last one has the caller woken. -/
structure Gathering (s : State ν β) (j : ℕ) (m : Mcall ν β) : Prop where
  ends : m.ends = []
  mode : s.mode m.caller = .gathering j
  counts : 0 < m.left ∧ m.count = m.left ∧ m.caller ∉ s.wakeupSession ∨
    m.left = 0 ∧ m.caller ∈ s.wakeupSession

/-- The calls of the coroutines that an `mcall` forked. -/
def Forks (s : State ν β) (j : ℕ) (n : ν) (i : ℕ) : Prop :=
  i < s.nRawcalls ∧ (s.rawcalls i).gather = some (j, n)

/-- What an `mcall` has of the coroutines it forked. -/
structure Gathers (s : State ν β) (j : ℕ) (m : Mcall ν β) : Prop where
  nodup : m.waiting.Nodup
  waiting : ∀ i, i ∈ m.waiting ↔ (∃ n, Forks s j n i) ∧ (s.rawcalls i).ends = []
  results : ∀ n v, m.results n = some v → ∃ i, Forks s j n i ∧ (s.rawcalls i).ends = [v]
  done : ∀ n i, Forks s j n i → (s.rawcalls i).ends ≠ [] → (m.results n).isSome
  names : ∀ n, n ∈ m.node ↔ n ∈ m.forks ∨ ∃ i, Forks s j n i
  state : Gathering s j m ∨ m.left = 0 ∧ m.ends = [some m.results]

structure Inv (s : State ν β) : Prop where
  run : ∀ c, s.ctl = .run c → s.mode c = .free
  waiting : ∀ c i, s.mode c = .waiting i →
    i < s.nRawcalls ∧ (s.rawcalls i).caller = c ∧ (s.rawcalls i).ends = []
  gathering : ∀ c j, s.mode c = .gathering j →
    j < s.nMcalls ∧ (s.mcalls j).caller = c ∧ (s.mcalls j).ends = []
  rawcalls : ∀ i < s.nRawcalls, Open s i (s.rawcalls i) ∨ Closed (s.rawcalls i)
  mcalls : ∀ j < s.nMcalls, Gathers s j (s.mcalls j)
  gather : ∀ i < s.nRawcalls, ∀ j n, (s.rawcalls i).gather = some (j, n) → j < s.nMcalls

/-- Whether a coroutine waits in a call. -/
def Mode.Calls : Mode → Prop
  | .free => False
  | .asleep => False
  | _ => True

theorem apply_update_of_eq {α γ : Type} (f : α → γ) {g : ℕ → α} {i : ℕ} {x : α}
    (h : f x = f (g i)) (k : ℕ) : f (update g i x k) = f (g k) := by
  by_cases hk : k = i
  · rw [hk, update_self, h]
  · rw [update_of_ne hk]

section Frame

variable {s s' : State ν β}

theorem Gathers.congr {j : ℕ} {m : Mcall ν β} (h : Gathers s j m)
    (hforks : ∀ n i, Forks s' j n i ↔ Forks s j n i)
    (hends : ∀ n i, Forks s j n i → (s'.rawcalls i).ends = (s.rawcalls i).ends)
    (hst : Gathering s j m → Gathering s' j m) : Gathers s' j m where
  nodup := h.nodup
  waiting i := by
    simp only [h.waiting i, hforks]
    refine and_congr_right fun ⟨n, hn⟩ => ?_
    rw [hends n i hn]
  results n v hv := by
    obtain ⟨i, hf, he⟩ := h.results n v hv
    exact ⟨i, (hforks n i).2 hf, (hends n i hf).trans he⟩
  done n i hf he := by
    have hf' := (hforks n i).1 hf
    exact h.done n i hf' (hends n i hf' ▸ he)
  names n := by
    simp only [hforks]
    exact h.names n
  state := h.state.imp hst id

/-- The calls stay as they are, and so do the coroutines that wait in one. -/
structure Same (s s' : State ν β) : Prop where
  rawcalls : s'.rawcalls = s.rawcalls
  nRawcalls : s'.nRawcalls = s.nRawcalls
  mcalls : s'.mcalls = s.mcalls
  nMcalls : s'.nMcalls = s.nMcalls
  mode : ∀ c, s'.mode c = s.mode c ∨ ¬ (s.mode c).Calls ∧ ¬ (s'.mode c).Calls
  woken : ∀ c, (s.mode c).Calls → (c ∈ s'.wakeupSession ↔ c ∈ s.wakeupSession)

theorem Same.mode_eq (h : Same s s') {c : ℕ} {m : Mode} (hm : m.Calls) :
    s'.mode c = m ↔ s.mode c = m := by
  rcases h.mode c with h | ⟨h, h'⟩
  · rw [h]
  · exact iff_of_false (fun he => h' (he ▸ hm)) fun he => h (he ▸ hm)

theorem Same.inv (h : Same s s') (hi : Inv s) (hrun : ∀ c, s'.ctl = .run c → s'.mode c = .free) :
    Inv s' where
  run := hrun
  waiting c i hc := by
    rw [h.nRawcalls, h.rawcalls]
    exact hi.waiting c i ((h.mode_eq (m := .waiting i) trivial).1 hc)
  gathering c j hc := by
    rw [h.nMcalls, h.mcalls]
    exact hi.gathering c j ((h.mode_eq (m := .gathering j) trivial).1 hc)
  rawcalls i hlt := by
    rw [h.nRawcalls] at hlt
    rw [h.rawcalls]
    refine (hi.rawcalls i hlt).imp (fun ho => ?_) id
    have hcalls : (s.mode (s.rawcalls i).caller).Calls := by rw [ho.mode]; trivial
    refine ⟨ho.ends, (h.mode_eq (m := .waiting i) trivial).2 ho.mode, ho.fork, ho.timer, ?_⟩
    rw [h.woken _ hcalls]
    exact ho.came
  mcalls j hlt := by
    rw [h.nMcalls] at hlt
    rw [h.mcalls]
    refine (hi.mcalls j hlt).congr (fun n i => ?_) (fun n i _ => by rw [h.rawcalls]) fun hst => ?_
    · rw [Forks, Forks, h.nRawcalls, h.rawcalls]
    · have hcalls : (s.mode (s.mcalls j).caller).Calls := by rw [hst.mode]; trivial
      refine ⟨hst.ends, (h.mode_eq (m := .gathering j) trivial).2 hst.mode, ?_⟩
      rw [h.woken _ hcalls]
      exact hst.counts
  gather i hlt j n hg := by
    rw [h.nRawcalls] at hlt
    rw [h.rawcalls] at hg
    rw [h.nMcalls]
    exact hi.gather i hlt j n hg

end Frame

section Replies

variable {s s' : State ν β} {i : ℕ} {x : Rawcall ν β}

/-- Something comes for a call: the rest stays as it is, and nobody is woken but its caller. -/
structure Comes (s s' : State ν β) (i : ℕ) (x : Rawcall ν β) : Prop where
  rawcalls : s'.rawcalls = Function.update s.rawcalls i x
  nRawcalls : s'.nRawcalls = s.nRawcalls
  mcalls : s'.mcalls = s.mcalls
  nMcalls : s'.nMcalls = s.nMcalls
  mode : s'.mode = s.mode
  woken : ∀ c, s.mode c ≠ .waiting i → (c ∈ s'.wakeupSession ↔ c ∈ s.wakeupSession)
  caller : x.caller = (s.rawcalls i).caller
  gather : x.gather = (s.rawcalls i).gather
  ends : x.ends = (s.rawcalls i).ends
  ctl : ∀ c, s'.ctl ≠ .run c

theorem Comes.apply {γ : Type} (h : Comes s s' i x) (f : Rawcall ν β → γ)
    (hf : f x = f (s.rawcalls i)) (k : ℕ) : f (s'.rawcalls k) = f (s.rawcalls k) := by
  rw [h.rawcalls]
  exact apply_update_of_eq f hf k

theorem Comes.inv (h : Comes s s' i x) (hi : Inv s) (hx : Open s' i x ∨ Closed x) : Inv s' where
  run c hc := absurd hc (h.ctl c)
  waiting c k hc := by
    rw [h.mode] at hc
    rw [h.nRawcalls, h.apply Rawcall.caller h.caller, h.apply Rawcall.ends h.ends]
    exact hi.waiting c k hc
  gathering c j hc := by
    rw [h.mode] at hc
    rw [h.nMcalls, h.mcalls]
    exact hi.gathering c j hc
  rawcalls k hlt := by
    rw [h.nRawcalls] at hlt
    rw [h.rawcalls]
    by_cases hk : k = i
    · rwa [hk, update_self]
    · rw [update_of_ne hk]
      refine (hi.rawcalls k hlt).imp (fun ho => ?_) id
      refine ⟨ho.ends, by rw [h.mode]; exact ho.mode, ho.fork, ho.timer, ?_⟩
      rw [h.woken _ (by rw [ho.mode]; exact fun heq => hk (Mode.waiting.inj heq))]
      exact ho.came
  mcalls j hlt := by
    rw [h.nMcalls] at hlt
    rw [h.mcalls]
    refine (hi.mcalls j hlt).congr (fun n k => ?_) (fun n k _ => h.apply Rawcall.ends h.ends k)
      fun hst => ⟨hst.ends, by rw [h.mode]; exact hst.mode, ?_⟩
    · rw [Forks, Forks, h.nRawcalls, h.apply Rawcall.gather h.gather]
    · rw [h.woken _ (by rw [hst.mode]; exact Mode.noConfusion)]
      exact hst.counts
  gather k hlt j n hg := by
    rw [h.nRawcalls] at hlt
    rw [h.apply Rawcall.gather h.gather] at hg
    rw [h.nMcalls]
    exact hi.gather k hlt j n hg

theorem wakeCaller_first {y : Rawcall ν β} (hself : y.selfCo = true)
    (hmode : s.mode y.caller = .waiting i) (hnot : y.caller ∉ s.wakeupSession) :
    (s.setRawcall i y).wakeCaller i = { s.setRawcall i { y with selfCo := false } with
      wakeupSession := s.wakeupSession ++ [y.caller] } := by
  have hy : (s.setRawcall i y).rawcalls i = y := update_self ..
  have hwake : (s.setRawcall i y).wakeup y.caller = { s.setRawcall i y with
      wakeupSession := s.wakeupSession ++ [y.caller] } :=
    if_pos ⟨by rw [show (s.setRawcall i y).mode = s.mode from rfl, hmode]; exact Mode.noConfusion,
      hnot⟩
  simp only [State.wakeCaller, hy, hself, if_true, hwake]
  simp only [State.setRawcall, update_idem]

theorem wakeCaller_late {y : Rawcall ν β} (hself : y.selfCo = false) :
    (s.setRawcall i y).wakeCaller i = s.setRawcall i y := by
  have hy : (s.setRawcall i y).rawcalls i = y := update_self ..
  simp [State.wakeCaller, hy, hself]

theorem inv_came (y : Rawcall ν β) (hi : Inv s) (hlt : i < s.nRawcalls)
    (hself : y.selfCo = (s.rawcalls i).selfCo) (hcaller : y.caller = (s.rawcalls i).caller)
    (hgather : y.gather = (s.rawcalls i).gather) (hends : y.ends = (s.rawcalls i).ends)
    (hfork : y.fork ≠ .over → y.r = (s.rawcalls i).r ∧ (s.rawcalls i).fork ≠ .over)
    (hnew : (s.rawcalls i).first = none → (s.rawcalls i).r = none → y.first = some y.r)
    (hold : ∀ v, (s.rawcalls i).first = some v →
      y.first = some v ∧ (Open s i (s.rawcalls i) → y.r = v)) :
    Inv { (s.setRawcall i y).wakeCaller i with ctl := .wakeup } := by
  have hlate (hself : y.selfCo = false) :
      Comes s { (s.setRawcall i y).wakeCaller i with ctl := .wakeup } i y := by
    rw [wakeCaller_late hself]
    exact ⟨rfl, rfl, rfl, rfl, rfl, fun c _ => Iff.rfl, hcaller, hgather, hends,
      fun c => Ctl.noConfusion⟩
  rcases hi.rawcalls i hlt with ho | hc
  · have hmode : s.mode y.caller = .waiting i := hcaller ▸ ho.mode
    have hfork' : y.fork ≠ .over → y.r = none := fun h =>
      (hfork h).1.trans (ho.fork (hfork h).2)
    rcases ho.came with ⟨hfirst, hco, hr, hnot⟩ | ⟨hfirst, hco, hin⟩
    · have hnot' : y.caller ∉ s.wakeupSession := hcaller ▸ hnot
      refine Comes.inv (i := i) (x := { y with selfCo := false }) ?_ hi (.inl ⟨hends.trans ho.ends,
        ?_, hfork', fun h => ?_, .inr ⟨hnew hfirst hr, rfl, ?_⟩⟩)
      · rw [wakeCaller_first (hself.trans hco) hmode hnot']
        refine ⟨rfl, rfl, rfl, rfl, rfl, fun c hc => ?_, hcaller, hgather, hends,
          fun c => Ctl.noConfusion⟩
        have hne : c ≠ y.caller := fun heq => hc (heq ▸ hmode)
        simp [hne]
      · rw [wakeCaller_first (hself.trans hco) hmode hnot']
        exact hmode
      · cases h.symm.trans (hnew hfirst hr)
      · rw [wakeCaller_first (hself.trans hco) hmode hnot']
        exact mem_append_right _ (mem_singleton_self _)
    · obtain ⟨hfirst', hr⟩ := hold _ hfirst
      refine (hlate (hself.trans hco)).inv hi (.inl ⟨hends.trans ho.ends, ?_, hfork',
        fun h => ?_, .inr ⟨by rw [hfirst', hr ho], hself.trans hco, ?_⟩⟩)
      · rw [wakeCaller_late (hself.trans hco)]
        exact hmode
      · cases h.symm.trans hfirst'
      · rw [wakeCaller_late (hself.trans hco)]
        exact hcaller ▸ hin
  · refine (hlate (hself.trans hc.selfCo)).inv hi (.inr ⟨hself.trans hc.selfCo, ?_⟩)
    obtain ⟨v, he, hfirst⟩ := hc.ends
    exact ⟨v, hends.trans he, (hold v hfirst).1⟩

/-- The caller has gone on, where the timer was the first to come. -/
def InTime (s : State ν β) (i : ℕ) : Prop :=
  (s.rawcalls i).first = some none → (s.rawcalls i).ends ≠ []

theorem inv_replied (hi : Inv s) (hlt : i < s.nRawcalls) (hf : (s.rawcalls i).fork ≠ .over)
    (ht : InTime s i) (v : β) : Inv (s.replied i v) := by
  refine inv_came _ hi hlt rfl rfl rfl rfl (fun h => absurd rfl h) (fun hfirst _ => ?_)
    fun w hw => ⟨?_, fun ho => ?_⟩
  · simp only [hfirst, none_or]
  · simp only [hw, some_or]
  · -- only the timer came before the reply, and the caller has not gone on
    obtain ⟨hnone, -⟩ | ⟨hfirst, -⟩ := ho.came
    · rw [hnone] at hw
      cases hw
    · exact absurd ho.ends (ht (by rw [hfirst, ho.fork hf]))

theorem inv_timedOut (hi : Inv s) (hlt : i < s.nRawcalls) : Inv (s.timedOut i) := by
  refine inv_came _ hi hlt rfl rfl rfl rfl (fun h => ⟨rfl, h⟩) (fun hfirst hr => ?_)
    fun w hw => ⟨?_, fun ho => ?_⟩
  · simp only [hfirst, hr, none_or]
  · simp only [hw, some_or]
  · obtain ⟨hnone, -⟩ | ⟨hfirst, -⟩ := ho.came
    · rw [hnone] at hw
      cases hw
    · exact some.inj (hfirst.symm.trans hw)

theorem inv_fork (hi : Inv s) (hlt : i < s.nRawcalls) (hf : (s.rawcalls i).fork = .queued)
    (fork : Fork) {ctl : Ctl} (hctl : ∀ c, ctl ≠ .run c) :
    Inv { s.setRawcall i { s.rawcalls i with fork := fork } with ctl := ctl } := by
  refine Comes.inv (i := i) (x := { s.rawcalls i with fork := fork })
    ⟨rfl, rfl, rfl, rfl, rfl, fun _ _ => Iff.rfl, rfl, rfl, rfl, hctl⟩ hi ?_
  exact (hi.rawcalls i hlt).imp
    (fun ho => ⟨ho.ends, ho.mode, fun _ => ho.fork (by rw [hf]; exact Fork.noConfusion),
      ho.timer, ho.came⟩)
    fun hc => ⟨hc.selfCo, hc.ends⟩

theorem inv_started (hi : Inv s) (hlt : i < s.nRawcalls) (hf : (s.rawcalls i).fork = .queued)
    {o : Sending β} (ht : ∀ v, o = .refused v → InTime s i) : Inv (s.started i o) := by
  cases o with
  | unpackable => exact inv_fork hi hlt hf .over fun c => Ctl.noConfusion
  | refused v => exact inv_replied hi hlt (by rw [hf]; exact Fork.noConfusion) (ht v rfl) v
  | sent => exact inv_fork hi hlt hf .calling fun c => Ctl.noConfusion

end Replies

section Entries

variable {s s' : State ν β} {c : ℕ} {gather : Option (ℕ × ν)}

/-- A coroutine enters a `rawcall`; a `mcall` may note it. -/
structure Enters (s s' : State ν β) (c : ℕ) (gather : Option (ℕ × ν)) : Prop where
  rawcalls : s'.rawcalls =
    Function.update s.rawcalls s.nRawcalls ⟨c, true, none, .queued, true, gather, none, []⟩
  nRawcalls : s'.nRawcalls = s.nRawcalls + 1
  mode : s'.mode = Function.update s.mode c (.waiting s.nRawcalls)
  woken : s'.wakeupSession = s.wakeupSession
  ctl : s'.ctl = .wakeup
  caller : ∀ j, (s'.mcalls j).caller = (s.mcalls j).caller
  ends : ∀ j, (s'.mcalls j).ends = (s.mcalls j).ends
  nMcalls : s'.nMcalls = s.nMcalls

theorem Enters.old (h : Enters s s' c gather) {i : ℕ} (hlt : i < s.nRawcalls) :
    s'.rawcalls i = s.rawcalls i := by
  rw [h.rawcalls, update_of_ne (Nat.ne_of_lt hlt)]

theorem Enters.new (h : Enters s s' c gather) :
    s'.rawcalls s.nRawcalls = ⟨c, true, none, .queued, true, gather, none, []⟩ := by
  rw [h.rawcalls, update_self]

theorem Enters.mode_of_ne (h : Enters s s' c gather) {c' : ℕ} (hne : c' ≠ c) :
    s'.mode c' = s.mode c' := by
  rw [h.mode, update_of_ne hne]

theorem Enters.forks (h : Enters s s' c gather) (j : ℕ) (n : ν) (i : ℕ) :
    Forks s' j n i ↔ Forks s j n i ∨ i = s.nRawcalls ∧ gather = some (j, n) := by
  unfold Forks
  rw [h.nRawcalls]
  rcases Nat.lt_trichotomy i s.nRawcalls with hlt | rfl | hgt
  · rw [h.old hlt]
    refine ⟨fun hf => .inl ⟨hlt, hf.2⟩, ?_⟩
    rintro (hf | ⟨rfl, -⟩)
    · exact ⟨Nat.lt_succ_of_lt hlt, hf.2⟩
    · exact absurd hlt (Nat.lt_irrefl _)
  · rw [h.new]
    refine ⟨fun hf => .inr ⟨rfl, hf.2⟩, ?_⟩
    rintro (hf | ⟨-, hg⟩)
    · exact absurd hf.1 (Nat.lt_irrefl _)
    · exact ⟨Nat.lt_succ_self _, hg⟩
  · refine iff_of_false (fun hf => absurd hf.1 (by omega)) ?_
    rintro (hf | ⟨rfl, -⟩)
    · exact absurd hf.1 (by omega)
    · exact absurd hgt (Nat.lt_irrefl _)

theorem Enters.gathers (h : Enters s s' c gather) (hc : s.mode c = .free) {j : ℕ} {m : Mcall ν β}
    (hm : Gathers s j m) (hne : ∀ n, gather ≠ some (j, n)) : Gathers s' j m := by
  refine hm.congr (fun n i => ?_) (fun n i hf => by rw [h.old hf.1]) fun hst => ?_
  · rw [h.forks]
    exact or_iff_left fun hf => hne n hf.2
  · have hother : m.caller ≠ c := fun heq => by
      have := hst.mode
      rw [heq, hc] at this
      cases this
    exact ⟨hst.ends, (h.mode_of_ne hother).trans hst.mode, by rw [h.woken]; exact hst.counts⟩

theorem Enters.inv (h : Enters s s' c gather) (hi : Inv s) (hc : s.mode c = .free)
    (hnot : c ∉ s.wakeupSession) (hgather : ∀ j n, gather = some (j, n) → j < s.nMcalls)
    (hmcalls : ∀ j < s.nMcalls, Gathers s' j (s'.mcalls j)) : Inv s' where
  run c' hrun := by rw [h.ctl] at hrun; cases hrun
  waiting c' i hw := by
    rw [h.nRawcalls]
    by_cases hc' : c' = c
    · rw [hc', h.mode, update_self] at hw
      cases hw
      rw [h.new]
      exact ⟨Nat.lt_succ_self _, hc'.symm, rfl⟩
    · rw [h.mode_of_ne hc'] at hw
      obtain ⟨hlt, hold⟩ := hi.waiting c' i hw
      rw [h.old hlt]
      exact ⟨Nat.lt_succ_of_lt hlt, hold⟩
  gathering c' j hw := by
    have hc' : c' ≠ c := fun heq => by
      rw [heq, h.mode, update_self] at hw
      cases hw
    rw [h.mode_of_ne hc'] at hw
    rw [h.caller, h.ends, h.nMcalls]
    exact hi.gathering c' j hw
  rawcalls i hlt := by
    rw [h.nRawcalls] at hlt
    rcases Nat.lt_succ_iff_lt_or_eq.1 hlt with hlt | rfl
    · rw [h.old hlt]
      refine (hi.rawcalls i hlt).imp (fun ho => ?_) id
      have hother : (s.rawcalls i).caller ≠ c := fun heq => by
        have := ho.mode
        rw [heq, hc] at this
        cases this
      exact ⟨ho.ends, (h.mode_of_ne hother).trans ho.mode, ho.fork, ho.timer,
        by rw [h.woken]; exact ho.came⟩
    · rw [h.new]
      exact .inl ⟨rfl, by rw [h.mode, update_self], fun _ => rfl, fun _ => rfl,
        .inl ⟨rfl, rfl, rfl, by rw [h.woken]; exact hnot⟩⟩
  mcalls j hlt := hmcalls j (h.nMcalls ▸ hlt)
  gather i hlt j n hg := by
    rw [h.nRawcalls] at hlt
    rw [h.nMcalls]
    rcases Nat.lt_succ_iff_lt_or_eq.1 hlt with hlt | rfl
    · rw [h.old hlt] at hg
      exact hi.gather i hlt j n hg
    · rw [h.new] at hg
      exact hgather j n hg

/-- The `mcall` that forked the coroutine has one more that waits in its `rawcall`. -/
theorem Enters.gathers_forked [DecidableEq ν] {j : ℕ} {n : ν} {m : Mcall ν β}
    (h : Enters s s' c (some (j, n))) (hc : s.mode c = .free) (hm : Gathers s j m)
    (hn : n ∈ m.forks) : Gathers s' j { m with
      forks := m.forks.erase n, waiting := m.waiting ++ [s.nRawcalls] } := by
  have hold : ∀ i ∈ m.waiting, i < s.nRawcalls := fun i hmem => by
    obtain ⟨⟨n, hf⟩, -⟩ := (hm.waiting i).1 hmem
    exact hf.1
  have hlen : (m.forks.erase n).length + 1 = m.forks.length := by
    rw [length_erase_of_mem hn]
    have := length_pos_of_mem hn
    omega
  refine ⟨?_, fun i => ?_, fun n' v hv => ?_, fun n' i hf he => ?_, fun n' => ?_, .inl ?_⟩
  · exact nodup_append.2 ⟨hm.nodup, nodup_singleton _, fun i hmem k hk heq =>
      absurd (hold i hmem) (by rw [heq, mem_singleton.1 hk]; exact Nat.lt_irrefl _)⟩
  · simp only [h.forks, mem_append, mem_singleton]
    by_cases hlt : i < s.nRawcalls
    · rw [hm.waiting i, h.old hlt]
      simp [Nat.ne_of_lt hlt]
    · refine ⟨?_, fun ⟨⟨n', hf⟩, _⟩ => .inr (hf.resolve_left fun hf => hlt hf.1).1⟩
      rintro (hmem | rfl)
      · exact absurd (hold i hmem) hlt
      · exact ⟨⟨n, .inr ⟨rfl, rfl⟩⟩, by rw [h.new]⟩
  · obtain ⟨i, hf, he⟩ := hm.results n' v hv
    exact ⟨i, (h.forks _ _ _).2 (.inl hf), by rw [h.old hf.1]; exact he⟩
  · rcases (h.forks _ _ _).1 hf with hf | ⟨rfl, -⟩
    · rw [h.old hf.1] at he
      exact hm.done n' i hf he
    · rw [h.new] at he
      exact absurd rfl he
  · simp only [h.forks, hm.names n']
    by_cases heq : n' = n
    · subst heq
      exact iff_of_true (.inl hn) (.inr ⟨s.nRawcalls, .inr ⟨rfl, rfl⟩⟩)
    · rw [mem_erase_of_ne heq]
      refine or_congr_right (exists_congr fun i => (or_iff_left fun hf => heq ?_).symm)
      exact (Prod.mk.inj (some.inj hf.2)).2.symm
  · have hst := hm.state.resolve_right fun hdone => by
      have := length_pos_of_mem hn
      have := hdone.1
      simp only [Mcall.left] at this
      omega
    have hother : m.caller ≠ c := fun heq => by
      have := hst.mode
      rw [heq, hc] at this
      cases this
    refine ⟨hst.ends, (h.mode_of_ne hother).trans hst.mode, ?_⟩
    have hleft : Mcall.left { m with
        forks := m.forks.erase n, waiting := m.waiting ++ [s.nRawcalls] } = m.left := by
      simp only [Mcall.left, length_append, length_singleton]
      omega
    rw [hleft, h.woken]
    exact hst.counts

theorem inv_rawcall (hi : Inv s) (hc : s.mode c = .free) (hnot : c ∉ s.wakeupSession) :
    Inv (s.rawcall c none) := by
  have h : Enters s (s.rawcall c none) c none := ⟨rfl, rfl, rfl, rfl, rfl, fun _ => rfl, fun _ => rfl,
    rfl⟩
  exact h.inv hi hc hnot (fun j n hg => by cases hg) fun j hlt =>
    h.gathers hc (hi.mcalls j hlt) fun n hg => by cases hg

variable [DecidableEq ν]

theorem inv_gather {j : ℕ} {n : ν} (hi : Inv s) (hj : j < s.nMcalls) (hn : n ∈ (s.mcalls j).forks)
    (hc : s.mode c = .free) (hnot : c ∉ s.wakeupSession) : Inv (s.gather j n c) := by
  have h : Enters s (s.gather j n c) c (some (j, n)) :=
    ⟨rfl, rfl, rfl, rfl, rfl, fun k => apply_update_of_eq Mcall.caller (by rfl) k,
      fun k => apply_update_of_eq Mcall.ends (by rfl) k, rfl⟩
  refine h.inv hi hc hnot (fun j' n' hg => by cases hg; exact hj) fun k hlt => ?_
  by_cases hk : k = j
  · subst hk
    have hm := hi.mcalls k hlt
    have heq : (s.gather k n c).mcalls k = { s.mcalls k with
        forks := (s.mcalls k).forks.erase n,
        waiting := (s.mcalls k).waiting ++ [s.nRawcalls] } := update_self ..
    rw [heq]
    exact h.gathers_forked hc hm hn
  · have heq : (s.gather j n c).mcalls k = s.mcalls k := update_of_ne hk ..
    rw [heq]
    exact h.gathers hc (hi.mcalls k hlt) fun n' hg => hk (by cases hg; rfl)

omit [DecidableEq ν] in
theorem inv_mcall {node : List ν} (hi : Inv s) (hnames : s.names = some node) (hnode : node ≠ [])
    (hc : s.mode c = .free) (hnot : c ∉ s.wakeupSession) : Inv (s.mcall c node) := by
  have hlen : node.length ≠ 0 := fun h => hnode (length_eq_zero_iff.1 h)
  obtain ⟨s', hs'⟩ : ∃ s', s' = s.mcall c node := ⟨_, rfl⟩
  have hs : s' = { (s.setMcall s.nMcalls ⟨c, node, node.length, fun _ => none, node, [], []⟩).setMode
      c (.gathering s.nMcalls) with nMcalls := s.nMcalls + 1, ctl := .wakeup } := by
    rw [hs', State.mcall, hnames]
    exact if_neg hlen
  have hmode : s'.mode = update s.mode c (.gathering s.nMcalls) := by rw [hs]; rfl
  have hmcalls : s'.mcalls = update s.mcalls s.nMcalls
      ⟨c, node, node.length, fun _ => none, node, [], []⟩ := by rw [hs]; rfl
  have hforks : ∀ j n i, Forks s' j n i ↔ Forks s j n i := fun j n i => by rw [hs]; exact Iff.rfl
  have hraw : s'.rawcalls = s.rawcalls := by rw [hs]; rfl
  have hother : ∀ c', s.mode c' ≠ .free → s'.mode c' = s.mode c' := fun c' h => by
    have hne : c' ≠ c := fun heq => h (heq.symm ▸ hc)
    rw [hmode, update_of_ne hne]
  have hwoken : s'.wakeupSession = s.wakeupSession := by rw [hs]; rfl
  have hn : s'.nMcalls = s.nMcalls + 1 := by rw [hs]
  have hn' : s'.nRawcalls = s.nRawcalls := by rw [hs]; rfl
  rw [← hs']
  refine ⟨fun c' h => ?_, fun c' i h => ?_, fun c' j h => ?_, fun i h => ?_, fun j h => ?_,
    fun i h j n hg => ?_⟩
  · rw [hs] at h
    cases h
  · have hne : c' ≠ c := fun heq => by
      rw [heq, hmode, update_self] at h
      cases h
    rw [hmode, update_of_ne hne] at h
    rw [hraw, hn']
    exact hi.waiting c' i h
  · rw [hn]
    by_cases hne : c' = c
    · rw [hne, hmode, update_self] at h
      cases h
      rw [hmcalls, update_self]
      exact ⟨Nat.lt_succ_self _, hne.symm, rfl⟩
    · rw [hmode, update_of_ne hne] at h
      obtain ⟨hlt, hold⟩ := hi.gathering c' j h
      rw [hmcalls, update_of_ne (Nat.ne_of_lt hlt)]
      exact ⟨Nat.lt_succ_of_lt hlt, hold⟩
  · rw [hn'] at h
    rw [hraw]
    refine (hi.rawcalls i h).imp (fun ho => ⟨ho.ends, ?_, ho.fork, ho.timer,
      by rw [hwoken]; exact ho.came⟩) id
    rw [hother _ (by rw [ho.mode]; exact Mode.noConfusion)]
    exact ho.mode
  · rw [hn] at h
    rw [hmcalls]
    rcases Nat.lt_succ_iff_lt_or_eq.1 h with hlt | rfl
    · rw [update_of_ne (Nat.ne_of_lt hlt)]
      refine (hi.mcalls j hlt).congr (hforks j) (fun n i _ => by rw [hraw]) fun hst =>
        ⟨hst.ends, ?_, by rw [hwoken]; exact hst.counts⟩
      rw [hother _ (by rw [hst.mode]; exact Mode.noConfusion)]
      exact hst.mode
    · rw [update_self]
      have hno : ∀ n i, ¬ Forks s' s.nMcalls n i := fun n i hf =>
        Nat.lt_irrefl _ (hi.gather i (hn' ▸ hf.1) _ n ((hforks _ n i).1 hf).2)
      refine ⟨nodup_nil, fun i => ?_, fun n v hv => absurd hv (some_ne_none v).symm,
        fun n i hf => absurd hf (hno n i), fun n => ?_, .inl ⟨rfl, by rw [hmode, update_self], .inl ?_⟩⟩
      · exact iff_of_false not_mem_nil fun h => hno _ i h.1.choose_spec
      · exact (or_iff_left fun ⟨i, hf⟩ => hno n i hf).symm
      · rw [hwoken]
        exact ⟨Nat.pos_of_ne_zero hlen, rfl, hnot⟩
  · rw [hn'] at h
    rw [hraw] at hg
    rw [hn]
    exact Nat.lt_succ_of_lt (hi.gather i h j n hg)

end Entries

section Returns

variable {s s' : State ν β} {c i : ℕ}

/-- A `rawcall` returns to its caller; a `mcall` may note it, and be woken. -/
structure Leaves (s s' : State ν β) (c i : ℕ) : Prop where
  rawcalls : s'.rawcalls = Function.update s.rawcalls i { s.rawcalls i with
    ends := (s.rawcalls i).ends ++ [(s.rawcalls i).r] }
  nRawcalls : s'.nRawcalls = s.nRawcalls
  mode : s'.mode = Function.update s.mode c .free
  woken : ∀ c', (∃ i', s.mode c' = .waiting i') → c' ≠ c →
    (c' ∈ s'.wakeupSession ↔ c' ∈ s.wakeupSession)
  ctl : ∀ c', s'.ctl = .run c' → c' = c
  caller : ∀ j, (s'.mcalls j).caller = (s.mcalls j).caller
  ends : ∀ j, (s'.mcalls j).ends = (s.mcalls j).ends
  nMcalls : s'.nMcalls = s.nMcalls

theorem Leaves.old (h : Leaves s s' c i) {k : ℕ} (hne : k ≠ i) : s'.rawcalls k = s.rawcalls k := by
  rw [h.rawcalls, update_of_ne hne]

theorem Leaves.self (h : Leaves s s' c i) : s'.rawcalls i = { s.rawcalls i with
    ends := (s.rawcalls i).ends ++ [(s.rawcalls i).r] } := by
  rw [h.rawcalls, update_self]

theorem Leaves.mode_of_ne (h : Leaves s s' c i) {c' : ℕ} (hne : c' ≠ c) :
    s'.mode c' = s.mode c' := by
  rw [h.mode, update_of_ne hne]

theorem Leaves.free (h : Leaves s s' c i) : s'.mode c = .free := by
  rw [h.mode, update_self]

theorem Leaves.forks (h : Leaves s s' c i) (j : ℕ) (n : ν) (k : ℕ) :
    Forks s' j n k ↔ Forks s j n k := by
  unfold Forks
  rw [h.nRawcalls]
  by_cases hk : k = i
  · rw [hk, h.self]
  · rw [h.old hk]

theorem Leaves.gathers (h : Leaves s s' c i) (hc : s.mode c = .waiting i) {j : ℕ} {m : Mcall ν β}
    (hm : Gathers s j m) (hne : ∀ n, (s.rawcalls i).gather ≠ some (j, n))
    (hwoken : s.mode m.caller = .gathering j →
      (m.caller ∈ s'.wakeupSession ↔ m.caller ∈ s.wakeupSession)) : Gathers s' j m := by
  refine hm.congr (h.forks j) (fun n k hf => ?_) fun hst => ?_
  · rw [h.old]
    rintro rfl
    exact hne n hf.2
  · have hother : m.caller ≠ c := fun heq => by
      have := hst.mode
      rw [heq, hc] at this
      cases this
    refine ⟨hst.ends, (h.mode_of_ne hother).trans hst.mode, ?_⟩
    rw [hwoken hst.mode]
    exact hst.counts

theorem Leaves.inv (h : Leaves s s' c i) (hi : Inv s) (hc : s.mode c = .waiting i)
    (hin : c ∈ s.wakeupSession) (hmcalls : ∀ j < s.nMcalls, Gathers s' j (s'.mcalls j)) :
    Inv s' := by
  obtain ⟨hlt, hcaller, hends⟩ := hi.waiting c i hc
  refine ⟨fun c' h' => ?_, fun c' k h' => ?_, fun c' j h' => ?_, fun k h' => ?_, fun j h' => ?_,
    fun k h' j n hg => ?_⟩
  · rw [h.ctl c' h']
    exact h.free
  · have hne : c' ≠ c := fun heq => by
      rw [heq, h.free] at h'
      cases h'
    rw [h.mode_of_ne hne] at h'
    obtain ⟨hk, hcaller', hends'⟩ := hi.waiting c' k h'
    have hki : k ≠ i := fun heq => hne (by rw [← hcaller', heq, hcaller])
    rw [h.nRawcalls, h.old hki]
    exact ⟨hk, hcaller', hends'⟩
  · have hne : c' ≠ c := fun heq => by
      rw [heq, h.free] at h'
      cases h'
    rw [h.mode_of_ne hne] at h'
    rw [h.nMcalls, h.caller, h.ends]
    exact hi.gathering c' j h'
  · rw [h.nRawcalls] at h'
    by_cases hk : k = i
    · subst hk
      rw [h.self]
      have ho := (hi.rawcalls k hlt).resolve_right fun hcl => by
        obtain ⟨v, he, -⟩ := hcl.ends
        rw [hends] at he
        cases he
      obtain ⟨-, -, -, hnot⟩ | ⟨hfirst, hself, -⟩ := ho.came
      · exact absurd (hcaller ▸ hin) hnot
      · exact .inr ⟨hself, _, by rw [hends]; rfl, hfirst⟩
    · rw [h.old hk]
      refine (hi.rawcalls k h').imp (fun ho => ?_) id
      have hother : (s.rawcalls k).caller ≠ c := fun heq => by
        have := ho.mode
        rw [heq, hc] at this
        exact hk (Mode.waiting.inj this).symm
      exact ⟨ho.ends, (h.mode_of_ne hother).trans ho.mode, ho.fork, ho.timer,
        by rw [h.woken _ ⟨k, ho.mode⟩ hother]; exact ho.came⟩
  · exact hmcalls j (h.nMcalls ▸ h')
  · rw [h.nMcalls]
    exact hi.gather k (h.nRawcalls ▸ h') j n ((h.forks j n k).1 ⟨h', hg⟩).2

/-- `dispatch_wakeup` has taken a coroutine out of `wakeup_session`. -/
def State.taken (s : State ν β) (c : ℕ) : State ν β :=
  { s with wakeupSession := s.wakeupSession.filter (· ≠ c) }

/-- The call `i` has returned to its caller. -/
def State.left (s : State ν β) (c i : ℕ) : State ν β :=
  (s.setRawcall i { s.rawcalls i with
    ends := (s.rawcalls i).ends ++ [(s.rawcalls i).r] }).setMode c .free

theorem returned_plain [DecidableEq ν] (hg : (s.rawcalls i).gather = none) :
    s.returned c i = { s.left c i with ctl := .run c } := by
  simp only [State.returned]
  split
  · rfl
  · rename_i h
    rw [hg] at h
    cases h

theorem returned_forked [DecidableEq ν] {j : ℕ} {n : ν}
    (hg : (s.rawcalls i).gather = some (j, n)) :
    s.returned c i = { (s.left c i).collect j n i (s.rawcalls i).r with ctl := .wakeup } := by
  simp only [State.returned]
  split
  · rename_i h
    rw [hg] at h
    cases h
  · rename_i h
    rw [hg] at h
    cases h
    rfl

theorem collect_last [DecidableEq ν] {j : ℕ} {n : ν} {v : Option β}
    (hcount : (s.mcalls j).count = 1) (hmode : s.mode (s.mcalls j).caller ≠ .free)
    (hnot : (s.mcalls j).caller ∉ s.wakeupSession) :
    s.collect j n i v = { s.setMcall j { s.mcalls j with
        results := update (s.mcalls j).results n (some v)
        waiting := (s.mcalls j).waiting.erase i } with
      wakeupSession := s.wakeupSession ++ [(s.mcalls j).caller] } := by
  simp only [State.collect, hcount, if_true]
  exact if_pos ⟨hmode, hnot⟩

theorem collect_more [DecidableEq ν] {j : ℕ} {n : ν} {v : Option β}
    (hcount : (s.mcalls j).count ≠ 1) :
    s.collect j n i v = s.setMcall j { s.mcalls j with
      count := (s.mcalls j).count - 1
      results := update (s.mcalls j).results n (some v)
      waiting := (s.mcalls j).waiting.erase i } := by
  simp only [State.collect]
  exact if_neg hcount

theorem inv_returned_plain [DecidableEq ν] (hi : Inv s) (hc : s.mode c = .waiting i)
    (hin : c ∈ s.wakeupSession) (hg : (s.rawcalls i).gather = none) :
    Inv ((s.taken c).returned c i) := by
  obtain ⟨s', hs'⟩ : ∃ s', s' = (s.taken c).returned c i := ⟨_, rfl⟩
  have heq := hs'
  rw [returned_plain (s := s.taken c) hg] at heq
  have h : Leaves s s' c i := by
    rw [heq]
    exact ⟨rfl, rfl, rfl, fun c' _ hne => by simp [State.left, State.taken, State.setMode, State.setRawcall, hne],
      fun c' hr => (Ctl.run.inj hr).symm, fun _ => rfl, fun _ => rfl, rfl⟩
  rw [← hs']
  refine h.inv hi hc hin fun j hlt => ?_
  have hm : s'.mcalls j = s.mcalls j := by rw [heq]; rfl
  rw [hm]
  refine h.gathers hc (hi.mcalls j hlt) (fun n => by rw [hg]; exact (some_ne_none _).symm)
    fun hmode => ?_
  have hne : (s.mcalls j).caller ≠ c := fun he => by rw [he, hc] at hmode; cases hmode
  rw [heq]
  simp [State.left, State.taken, State.setMode, State.setRawcall, hne]

/-- What an `mcall` has when the coroutine that it forked for a name is done. -/
theorem Leaves.gathers_forked [DecidableEq ν] {j : ℕ} {n : ν} {m : Mcall ν β} {count : ℕ}
    (h : Leaves s s' c i) (hf : Forks s j n i) (he : (s.rawcalls i).ends = []) (hm : Gathers s j m)
    (hst : Gathering s' j { m with
      count := count
      results := update m.results n (some (s.rawcalls i).r)
      waiting := m.waiting.erase i }) :
    Gathers s' j { m with
      count := count
      results := update m.results n (some (s.rawcalls i).r)
      waiting := m.waiting.erase i } := by
  have hself : (s'.rawcalls i).ends = [(s.rawcalls i).r] := by rw [h.self, he]; rfl
  refine ⟨hm.nodup.erase _, fun k => ?_, fun n' v hv => ?_, fun n' k hk hend => ?_, fun n' => ?_,
    .inl hst⟩
  · simp only [hm.nodup.mem_erase_iff, hm.waiting k, h.forks]
    by_cases hki : k = i
    · rw [hki, hself]
      simp
    · rw [h.old hki]
      simp [hki]
  · dsimp only at hv
    by_cases hn : n' = n
    · subst hn
      rw [update_self, some.injEq] at hv
      exact ⟨i, (h.forks _ _ _).2 hf, hv ▸ hself⟩
    · rw [update_of_ne hn] at hv
      obtain ⟨k, hk, hend⟩ := hm.results n' v hv
      have hki : k ≠ i := fun heq => by rw [heq, he] at hend; cases hend
      exact ⟨k, (h.forks _ _ _).2 hk, by rw [h.old hki]; exact hend⟩
  · dsimp only
    by_cases hn : n' = n
    · rw [hn, update_self]
      rfl
    · rw [update_of_ne hn]
      have hk' := (h.forks _ _ _).1 hk
      have hki : k ≠ i := fun heq => by
        rw [heq] at hk'
        exact hn (Prod.mk.inj (some.inj (hk'.2.symm.trans hf.2))).2
      rw [h.old hki] at hend
      exact hm.done n' k hk' hend
  · simp only [h.forks]
    exact hm.names n'

theorem Leaves.inv_forked [DecidableEq ν] {j : ℕ} {n : ν} {count : ℕ} (h : Leaves s s' c i)
    (hi : Inv s) (hc : s.mode c = .waiting i) (hin : c ∈ s.wakeupSession)
    (hg : (s.rawcalls i).gather = some (j, n)) (hj : s.mode (s.mcalls j).caller = .gathering j)
    (hmcalls : s'.mcalls = update s.mcalls j { s.mcalls j with
      count := count
      results := update (s.mcalls j).results n (some (s.rawcalls i).r)
      waiting := (s.mcalls j).waiting.erase i })
    (hwoken : ∀ c', c' ≠ c → c' ≠ (s.mcalls j).caller →
      (c' ∈ s'.wakeupSession ↔ c' ∈ s.wakeupSession))
    (hst : Gathering s' j { s.mcalls j with
      count := count
      results := update (s.mcalls j).results n (some (s.rawcalls i).r)
      waiting := (s.mcalls j).waiting.erase i }) : Inv s' := by
  obtain ⟨hlt, hcaller, hends⟩ := hi.waiting c i hc
  refine h.inv hi hc hin fun k hk => ?_
  rw [hmcalls]
  by_cases hkj : k = j
  · subst hkj
    rw [update_self]
    exact h.gathers_forked ⟨hlt, hg⟩ hends (hi.mcalls k hk) hst
  · rw [update_of_ne hkj]
    refine h.gathers hc (hi.mcalls k hk) (fun n' hg' => hkj ?_) fun hmode => hwoken _ ?_ ?_
    · exact (Prod.mk.inj (some.inj (hg'.symm.trans hg))).1
    · rintro heq
      rw [heq, hc] at hmode
      cases hmode
    · intro heq
      rw [heq, hj] at hmode
      exact hkj (Mode.gathering.inj hmode).symm

theorem inv_returned_forked [DecidableEq ν] {j : ℕ} {n : ν} (hi : Inv s) (hc : s.mode c = .waiting i)
    (hin : c ∈ s.wakeupSession) (hg : (s.rawcalls i).gather = some (j, n)) :
    Inv ((s.taken c).returned c i) := by
  obtain ⟨hlt, hcaller, hends⟩ := hi.waiting c i hc
  have hm := hi.mcalls j (hi.gather i hlt j n hg)
  have hmem : i ∈ (s.mcalls j).waiting := (hm.waiting i).2 ⟨⟨n, hlt, hg⟩, hends⟩
  have hlen : ((s.mcalls j).waiting.erase i).length + 1 = (s.mcalls j).waiting.length := by
    rw [length_erase_of_mem hmem]
    have := length_pos_of_mem hmem
    omega
  have hleft : (s.mcalls j).left =
      (s.mcalls j).forks.length + ((s.mcalls j).waiting.erase i).length + 1 := by
    rw [Mcall.left]
    omega
  have hst := hm.state.resolve_right fun hdone => by have := hdone.1; omega
  obtain ⟨-, hcount, hnot⟩ := hst.counts.resolve_right fun hz => by have := hz.1; omega
  have hother : (s.mcalls j).caller ≠ c := fun heq => by
    have := hst.mode
    rw [heq, hc] at this
    cases this
  have hmode : ((s.taken c).left c i).mode (s.mcalls j).caller = .gathering j := by
    rw [← hst.mode]
    exact update_of_ne hother ..
  have hnot' : (s.mcalls j).caller ∉ ((s.taken c).left c i).wakeupSession := fun h =>
    hnot (mem_of_mem_filter h)
  have hwoken : ∀ c', c' ≠ c →
      (c' ∈ ((s.taken c).left c i).wakeupSession ↔ c' ∈ s.wakeupSession) :=
    fun c' hne => by simp [State.left, State.taken, State.setMode, State.setRawcall, hne]
  rw [returned_forked (s := s.taken c) hg]
  -- the last one of them wakes the caller of the `mcall`
  by_cases hlast : (s.mcalls j).count = 1
  · rw [collect_last (s := (s.taken c).left c i) hlast (fun h => by
      rw [show ((s.taken c).left c i).mcalls j = s.mcalls j from rfl, hmode] at h
      cases h) hnot']
    have hw : ∀ c', c' ≠ c → c' ≠ (s.mcalls j).caller →
        (c' ∈ ((s.taken c).left c i).wakeupSession ++ [(s.mcalls j).caller] ↔
          c' ∈ s.wakeupSession) := fun c' hne hne' => by
      rw [mem_append, hwoken c' hne, mem_singleton]
      exact or_iff_left hne'
    refine Leaves.inv_forked (s := s) (i := i) (n := n) (j := j) (c := c) ⟨rfl, rfl, rfl, fun c' hw' hne =>
      hw c' hne fun heq => ?_, fun c' h => Ctl.noConfusion h, fun k => apply_update_of_eq Mcall.caller (by rfl) k,
      fun k => apply_update_of_eq Mcall.ends (by rfl) k, rfl⟩ hi hc hin hg hst.mode rfl hw
      ⟨hst.ends, hmode, .inr ⟨?_, mem_append_right _ (mem_singleton_self _)⟩⟩
    · obtain ⟨i', hw'⟩ := hw'
      rw [heq, hst.mode] at hw'
      cases hw'
    · show (s.mcalls j).forks.length + ((s.mcalls j).waiting.erase i).length = 0
      omega
  · rw [collect_more (s := (s.taken c).left c i) hlast]
    refine Leaves.inv_forked (s := s) (i := i) (n := n) (j := j) (c := c) ⟨rfl, rfl, rfl, fun c' _ hne =>
      hwoken c' hne, fun c' h => Ctl.noConfusion h, fun k => apply_update_of_eq Mcall.caller (by rfl) k,
      fun k => apply_update_of_eq Mcall.ends (by rfl) k, rfl⟩ hi hc hin hg hst.mode rfl (fun c' hne _ => hwoken c' hne)
      ⟨hst.ends, hmode, .inl ⟨?_, ?_, hnot'⟩⟩
    · show 0 < (s.mcalls j).forks.length + ((s.mcalls j).waiting.erase i).length
      omega
    · show (s.mcalls j).count - 1 =
        (s.mcalls j).forks.length + ((s.mcalls j).waiting.erase i).length
      omega

theorem inv_gathered [DecidableEq ν] {j : ℕ} (hi : Inv s) (hc : s.mode c = .gathering j)
    (hin : c ∈ s.wakeupSession) : Inv ((s.taken c).gathered c j) := by
  obtain ⟨hlt, hcaller, hends⟩ := hi.gathering c j hc
  have hm := hi.mcalls j hlt
  have hst := hm.state.resolve_right fun h => by
    rw [hends] at h
    cases h.2
  have hleft := hst.counts.resolve_left fun h => h.2.2 (hcaller ▸ hin)
  have hfree : ((s.taken c).gathered c j).mode c = .free := update_self ..
  have hmode : ∀ {c'}, c' ≠ c → ((s.taken c).gathered c j).mode c' = s.mode c' := fun hne =>
    update_of_ne hne ..
  have hother : ∀ {c' m}, s.mode c' = m → m ≠ .gathering j → c' ≠ c := fun hm' hne heq => by
    rw [heq, hc] at hm'
    exact hne hm'.symm
  have hwoken : ∀ {c'}, c' ≠ c →
      (c' ∈ ((s.taken c).gathered c j).wakeupSession ↔ c' ∈ s.wakeupSession) := fun hne => by
    simp [State.gathered, State.taken, State.setMode, State.setMcall, hne]
  refine ⟨fun c' h => ?_, fun c' i h => ?_, fun c' k h => ?_, fun i h => ?_, fun k h => ?_,
    fun i h k n hg => hi.gather i h k n hg⟩
  · cases h
    exact hfree
  · have hne : c' ≠ c := fun heq => by
      rw [heq, hfree] at h
      cases h
    rw [hmode hne] at h
    exact hi.waiting c' i h
  · have hne : c' ≠ c := fun heq => by
      rw [heq, hfree] at h
      cases h
    rw [hmode hne] at h
    obtain ⟨hk, hcaller', hends'⟩ := hi.gathering c' k h
    have hkj : k ≠ j := fun heq => hne (by rw [← hcaller', heq, hcaller])
    have hold : ((s.taken c).gathered c j).mcalls k = s.mcalls k := update_of_ne hkj ..
    rw [hold]
    exact ⟨hk, hcaller', hends'⟩
  · refine (hi.rawcalls i h).imp (fun ho => ?_) id
    have hne := hother ho.mode Mode.noConfusion
    exact ⟨ho.ends, (hmode hne).trans ho.mode, ho.fork, ho.timer, by
      rw [show ((s.taken c).gathered c j).rawcalls = s.rawcalls from rfl, hwoken hne]
      exact ho.came⟩
  · by_cases hkj : k = j
    · subst hkj
      have hnew : ((s.taken c).gathered c k).mcalls k = { s.mcalls k with
          ends := (s.mcalls k).ends ++ [some (s.mcalls k).results] } := update_self ..
      rw [hnew]
      exact ⟨hm.nodup, hm.waiting, hm.results, hm.done, hm.names,
        .inr ⟨hleft.1, by rw [hends]; rfl⟩⟩
    · have hold : ((s.taken c).gathered c j).mcalls k = s.mcalls k := update_of_ne hkj ..
      rw [hold]
      refine (hi.mcalls k h).congr (fun _ _ => Iff.rfl) (fun _ _ _ => rfl) fun hst' => ?_
      have hne := hother hst'.mode fun heq => hkj (Mode.gathering.inj heq)
      exact ⟨hst'.ends, (hmode hne).trans hst'.mode, by rw [hwoken hne]; exact hst'.counts⟩

theorem same_setMode {c : ℕ} {m : Mode} {ctl : Ctl} (hc : ¬ (s.mode c).Calls) (hm : ¬ m.Calls) :
    Same s { s.setMode c m with ctl := ctl } := by
  refine ⟨rfl, rfl, rfl, rfl, fun c' => ?_, fun _ _ => Iff.rfl⟩
  by_cases heq : c' = c
  · subst heq
    refine .inr ⟨hc, ?_⟩
    show ¬ (update s.mode c' m c').Calls
    rwa [update_self]
  · exact .inl (update_of_ne heq ..)

theorem inv_taken (hi : Inv s) (hc : ¬ (s.mode c).Calls) : Inv (s.taken c) :=
  Same.inv (s := s) ⟨rfl, rfl, rfl, rfl, fun _ => .inl rfl, fun c' hc' => by
    have hne : c' ≠ c := fun heq => hc (heq ▸ hc')
    simp [State.taken, hne]⟩ hi hi.run

theorem inv_dispatchWakeup [DecidableEq ν] {co : Option ℕ} (hi : Inv s)
    (h : s.dispatchWakeup co = some s') : Inv s' := by
  cases co with
  | none =>
    obtain ⟨-, rfl⟩ := of_guard h
    exact Same.inv (s := s) ⟨rfl, rfl, rfl, rfl, fun _ => .inl rfl, fun _ _ => Iff.rfl⟩ hi
      fun c h => Ctl.noConfusion h
  | some c =>
    simp only [State.dispatchWakeup] at h
    split_ifs at h with hin
    split at h
    · rename_i hc
      replace hc : s.mode c = .free := hc
      cases h
      exact Same.inv (s := s.taken c) ⟨rfl, rfl, rfl, rfl, fun _ => .inl rfl, fun _ _ => Iff.rfl⟩
        (inv_taken hi (by rw [hc]; exact not_false)) fun c h => Ctl.noConfusion h
    · rename_i hc
      replace hc : s.mode c = .asleep := hc
      have hcalls : ¬ (s.mode c).Calls := by rw [hc]; exact not_false
      cases h
      refine (same_setMode (s := s.taken c) (m := .free) hcalls not_false).inv (inv_taken hi hcalls)
        fun c' h => ?_
      cases h
      exact update_self ..
    · rename_i i hc
      cases h
      cases hg : (s.rawcalls i).gather with
      | none => exact inv_returned_plain hi hc hin hg
      | some p => exact inv_returned_forked (j := p.1) (n := p.2) hi hc hin hg
    · rename_i j hc
      cases h
      exact inv_gathered hi hc hin

end Returns

section Runs

variable {s s' : State ν β}

/-- What the coroutines are to keep: one that calls `rawcall` or `mcall` is not still to be resumed
from an earlier sleep, an `mcall` is given names, which are those of the global variable, nobody else
wakes one that is in a call, and the reply does not come while the caller is to be resumed after the
timer. -/
def Fits (s : State ν β) : Label ν β → Prop
  | .wake co => ¬ (s.mode co).Calls
  | .rawcall => ∀ c ∈ s.running, c ∉ s.wakeupSession
  | .mcall node => node ≠ [] ∧ s.names = some node ∧ ∀ c ∈ s.running, c ∉ s.wakeupSession
  | .fork i (.refused _) => InTime s i
  | .reply i _ => InTime s i
  | .gather _ _ g => g ∉ s.wakeupSession
  | _ => True

instance : DecidablePred Mode.Calls
  | .free => inferInstanceAs (Decidable False)
  | .asleep => inferInstanceAs (Decidable False)
  | .waiting _ => inferInstanceAs (Decidable True)
  | .gathering _ => inferInstanceAs (Decidable True)

instance [DecidableEq β] (i : ℕ) : Decidable (InTime s i) :=
  inferInstanceAs (Decidable (_ → _))

instance [DecidableEq ν] [DecidableEq β] : ∀ l : Label ν β, Decidable (Fits s l)
  | .wake co => inferInstanceAs (Decidable (¬ (s.mode co).Calls))
  | .rawcall => inferInstanceAs (Decidable (∀ c ∈ s.running, c ∉ s.wakeupSession))
  | .mcall node => inferInstanceAs (Decidable (node ≠ [] ∧ s.names = some node ∧
      ∀ c ∈ s.running, c ∉ s.wakeupSession))
  | .fork i (.refused _) => inferInstanceAs (Decidable (InTime s i))
  | .reply i _ => inferInstanceAs (Decidable (InTime s i))
  | .gather _ _ g => inferInstanceAs (Decidable (g ∉ s.wakeupSession))
  | .start _ | .timeout _ | .sleep | .yield | .raise | .setNames _ | .dispatchWakeup _
  | .fork _ .unpackable | .fork _ .sent | .timer _ => inferInstanceAs (Decidable True)

theorem running_eq {c : ℕ} (h : s.running = some c) : s.ctl = .run c := by
  unfold State.running at h
  split at h
  · rename_i hctl
    rw [hctl, some.inj h]
  · cases h

theorem same_wakeup {co : ℕ} (hco : ¬ (s.mode co).Calls) : Same s (s.wakeup co) := by
  unfold State.wakeup
  split
  · refine ⟨rfl, rfl, rfl, rfl, fun _ => .inl rfl, fun c hc => ?_⟩
    have hne : c ≠ co := fun heq => hco (heq ▸ hc)
    simp [hne]
  · exact ⟨rfl, rfl, rfl, rfl, fun _ => .inl rfl, fun _ _ => Iff.rfl⟩

theorem wakeup_ctl (co : ℕ) : (s.wakeup co).ctl = s.ctl ∧ (s.wakeup co).mode = s.mode := by
  unfold State.wakeup
  split <;> exact ⟨rfl, rfl⟩

variable [DecidableEq ν]

theorem inv_step {l : Label ν β} (hi : Inv s) (hf : Fits s l) (h : s.step l = some s') : Inv s' := by
  have hfree {c : ℕ} (hr : s.running = some c) : s.mode c = .free := hi.run c (running_eq hr)
  have hquiet {ctl : Ctl} {names : Option (List ν)} (hctl : ∀ c, ctl = .run c → s.mode c = .free) :
      Inv { s with ctl := ctl, names := names } :=
    Same.inv (s := s) ⟨rfl, rfl, rfl, rfl, fun _ => .inl rfl, fun _ _ => Iff.rfl⟩ hi hctl
  cases l with
  | start c =>
    obtain ⟨hc, rfl⟩ := of_guard h
    exact hquiet fun c' h => by cases h; exact hc.2
  | timeout c =>
    obtain ⟨hc, rfl⟩ := of_guard h
    refine (same_setMode (m := .free) (by rw [hc.2]; exact not_false) not_false).inv hi fun c' h => ?_
    cases h
    exact update_self ..
  | sleep =>
    obtain ⟨c, hr, rfl⟩ := map_eq_some_iff.1 h
    exact (same_setMode (m := .asleep) (by rw [hfree hr]; exact not_false) not_false).inv hi
      fun c' h => Ctl.noConfusion h
  | wake co =>
    obtain ⟨c, hr, rfl⟩ := map_eq_some_iff.1 h
    refine (same_wakeup hf).inv hi fun c' h => ?_
    rw [(wakeup_ctl co).1] at h
    rw [(wakeup_ctl co).2]
    exact hi.run c' h
  | yield =>
    obtain ⟨c, hr, rfl⟩ := map_eq_some_iff.1 h
    exact hquiet fun c' h => Ctl.noConfusion h
  | raise =>
    obtain ⟨c, hr, rfl⟩ := map_eq_some_iff.1 h
    exact hquiet fun c' h => Ctl.noConfusion h
  | setNames v =>
    obtain ⟨c, hr, rfl⟩ := map_eq_some_iff.1 h
    exact hquiet hi.run
  | rawcall =>
    obtain ⟨c, hr, rfl⟩ := map_eq_some_iff.1 h
    exact inv_rawcall hi (hfree hr) (hf c hr)
  | mcall node =>
    obtain ⟨c, hr, rfl⟩ := map_eq_some_iff.1 h
    exact inv_mcall hi hf.2.1 hf.1 (hfree hr) (hf.2.2 c hr)
  | dispatchWakeup co =>
    simp only [State.step] at h
    split_ifs at h
    exact inv_dispatchWakeup hi h
  | fork i o =>
    obtain ⟨hc, rfl⟩ := of_guard h
    exact inv_started hi hc.2.1 hc.2.2 fun v ho => by subst ho; exact hf
  | reply i v =>
    obtain ⟨hc, rfl⟩ := of_guard h
    exact inv_replied hi hc.2.1 (by rw [hc.2.2]; exact Fork.noConfusion) hf v
  | timer i =>
    obtain ⟨hc, rfl⟩ := of_guard h
    exact inv_timedOut hi hc.2.1
  | gather j n g =>
    obtain ⟨hc, rfl⟩ := of_guard h
    exact inv_gather hi hc.2.1 hc.2.2.1 hc.2.2.2 hf

omit [DecidableEq ν] in
theorem inv_init : Inv (State.init : State ν β) where
  run _ h := Ctl.noConfusion h
  waiting _ _ h := Mode.noConfusion h
  gathering _ _ h := Mode.noConfusion h
  rawcalls i h := absurd h (Nat.not_lt_zero i)
  mcalls j h := absurd h (Nat.not_lt_zero j)
  gather i h := absurd h (Nat.not_lt_zero i)

theorem inv_of_reach (h : State.machine.Reach Fits s) : Inv s :=
  h.invariant inv_init fun _ _ _ => inv_step

end Runs

end LkCluster

end SkynetGame
