import SkynetGame.SocketLock
import Mathlib.Data.List.Nodup
import Mathlib.Data.List.Range

/-!
# The lock goes from one call to the next

The calls return in their order, so those that did not are the last ones, and their coroutines are
what is in `lock_set` behind the first entry, or from it on. The lock is nobody's, or the first entry
stands for the holder, or it is the coroutine that an unlock woke and that is to be resumed (`Owner`).
-/

namespace SkynetGame

open Function List Option

namespace SocketLock

variable {s s' : State} {co : ℕ}

/-- The calls that did not return, with the coroutines that wait in them. -/
def State.queue (s : State) : List ℕ := s.calls.drop s.obtained.length

/-- One coroutine at most holds the lock, and holds it once; the calls return in the order in which
they were made; those that waited and returned were woken, once, and of the others the next one was,
once, if nobody holds the lock. -/
structure Sound (s : State) : Prop where
  one : ∀ c c', 0 < s.holds c → 0 < s.holds c' → c = c'
  once : ∀ c, s.holds c ≤ 1
  order : ∃ n ≤ s.calls.length, s.obtained = List.range n
  nodup : s.woken.Nodup
  woken : ∀ k ∈ s.woken, k ∈ s.waited ∧ k ≤ s.obtained.length
  obtained : ∀ k ∈ s.waited, k ∈ s.obtained → k ∈ s.woken
  next : ∀ c rest, s.queue = c :: rest → (∀ t, s.holds t = 0) →
    s.obtained.length ∈ s.woken ∧ s.wakeupSession = [c] ∧ s.mode c = .locking s.obtained.length
  waiting : ∀ c, 0 < s.holds c → s.obtained.length ∉ s.woken ∧ s.wakeupSession = []

inductive Owner (s : State) : Prop
  | nobody : s.lock.getD [] = [] → s.queue = [] → (∀ c, s.holds c = 0) → s.wakeupSession = [] →
      (∀ k, k ∈ s.woken ↔ k ∈ s.waited) → Owner s
  | held (c : ℕ) (e : Entry) : s.lock = some (e :: s.queue.map .co) → s.holds c = 1 →
      (∀ t, t ≠ c → s.holds t = 0) → s.wakeupSession = [] →
      (∀ k, k ∈ s.woken ↔ k ∈ s.waited ∧ k < s.obtained.length) → Owner s
  | handed (c : ℕ) (rest : List ℕ) : s.queue = c :: rest → s.lock = some (s.queue.map .co) →
      (∀ t, s.holds t = 0) → s.wakeupSession = [c] →
      (∀ k, k ∈ s.woken ↔ k ∈ s.waited ∧ k ≤ s.obtained.length) → Owner s

structure Inv (s : State) : Prop where
  order : ∃ n ≤ s.calls.length, s.obtained = List.range n
  pending : ∀ k c, s.obtained.length ≤ k → s.calls[k]? = some c →
    s.mode c = .locking k ∧ k ∈ s.waited
  locking : ∀ c k, s.mode c = .locking k → s.obtained.length ≤ k ∧ s.calls[k]? = some c
  waited : ∀ k ∈ s.waited, k < s.calls.length
  nodup : s.woken.Nodup
  owner : Owner s

theorem Inv.init : Inv .init :=
  ⟨⟨0, Nat.le_refl 0, rfl⟩, fun _ _ _ h => absurd h (some_ne_none _).symm,
    fun _ _ h => Mode.noConfusion h, fun _ h => absurd h not_mem_nil, nodup_nil,
    .nobody rfl rfl (fun _ => rfl) rfl fun _ => Iff.rfl⟩

theorem Inv.length_le (h : Inv s) : s.obtained.length ≤ s.calls.length := by
  obtain ⟨n, hn, hobt⟩ := h.order
  rwa [hobt, length_range]

theorem Inv.obtained_eq (h : Inv s) : s.obtained = List.range s.obtained.length := by
  obtain ⟨n, hn, hobt⟩ := h.order
  rw [hobt, length_range]

theorem Inv.queue_cons (h : Inv s) {c : ℕ} {rest : List ℕ} (hq : s.queue = c :: rest) :
    s.obtained.length < s.calls.length ∧ s.mode c = .locking s.obtained.length ∧
      s.obtained.length ∈ s.waited ∧ s.calls.drop (s.obtained.length + 1) = rest := by
  have hlt : s.obtained.length < s.calls.length := by
    by_contra hge
    rw [State.queue, drop_of_length_le (Nat.le_of_not_lt hge)] at hq
    cases hq
  rw [State.queue, drop_eq_getElem_cons hlt] at hq
  obtain ⟨hc, hrest⟩ := List.cons.inj hq
  obtain ⟨hmode, hin⟩ := h.pending _ c (Nat.le_refl _) (hc ▸ getElem?_eq_getElem hlt)
  exact ⟨hlt, hmode, hin, hrest⟩

theorem queue_nil (h : s.queue = []) : s.calls.length ≤ s.obtained.length :=
  drop_eq_nil_iff.1 h

theorem Inv.setMode (h : Inv s) {m : Mode} (hold : ∀ n, s.mode co ≠ .locking n)
    (hnew : ∀ n, m ≠ .locking n) : Inv { s with mode := update s.mode co m } := by
  refine ⟨h.order, fun k c hk hc => ?_, fun c k hc => ?_, h.waited, h.nodup, ?_⟩
  · obtain ⟨hmode, hin⟩ := h.pending k c hk hc
    have hne : c ≠ co := fun heq => hold k (heq ▸ hmode)
    exact ⟨(update_of_ne hne ..).trans hmode, hin⟩
  · have hc : update s.mode co m c = .locking k := hc
    have hne : c ≠ co := fun heq => by
      rw [heq, update_self] at hc
      exact hnew k hc
    exact h.locking c k ((update_of_ne hne ..).symm.trans hc)
  · cases h.owner with
    | nobody h₁ h₂ h₃ h₄ h₅ => exact .nobody h₁ h₂ h₃ h₄ h₅
    | held c e h₁ h₂ h₃ h₄ h₅ => exact .held c e h₁ h₂ h₃ h₄ h₅
    | handed c rest h₁ h₂ h₃ h₄ h₅ => exact .handed c rest h₁ h₂ h₃ h₄ h₅

theorem inv_take (h : Inv s) (hlock : s.lock.getD [] = [])
    (hqueue : s.queue = []) (hholds : ∀ c, s.holds c = 0) (hws : s.wakeupSession = [])
    (hwoken : ∀ k, k ∈ s.woken ↔ k ∈ s.waited) : Inv (lock s co) := by
  have hlen : s.obtained.length = s.calls.length := Nat.le_antisymm h.length_le (queue_nil hqueue)
  rw [lock, if_pos (by rw [hlock]; rfl)]
  have hone : update s.holds co (s.holds co + 1) co = 1 := by
    rw [update_self, hholds]
  refine ⟨⟨s.calls.length + 1, ?_, ?_⟩, fun k c hk hc => ?_, fun c k hc => ?_, fun k hk => ?_,
    h.nodup, .held co .mark ?_ hone (fun t ht => ?_) hws fun k => ?_⟩
  · exact Nat.le_of_eq (by simp [obtain])
  · show s.obtained ++ [s.calls.length] = _
    rw [range_succ, ← hlen, ← h.obtained_eq]
  · have hk : (s.obtained ++ [s.calls.length]).length ≤ k := hk
    have hlt := (List.getElem?_eq_some_iff.1 hc).1
    simp only [obtain, length_append, length_singleton] at hk hlt
    omega
  · obtain ⟨hk, hc⟩ := h.locking c k hc
    have := (List.getElem?_eq_some_iff.1 hc).1
    omega
  · exact Nat.lt_of_lt_of_le (h.waited k hk) (by simp [obtain])
  · have hnil : State.queue (obtain { s with calls := s.calls ++ [co], lock := some [.mark] } co
        s.calls.length) = [] := by simp [State.queue, obtain, hlen]
    rw [hnil]
    rfl
  · exact (update_of_ne ht ..).trans (hholds t)
  · simp only [obtain, hwoken k, length_append, length_singleton, hlen]
    exact ⟨fun hk => ⟨hk, Nat.lt_succ_of_lt (h.waited k hk)⟩, And.left⟩

theorem inv_wait (h : Inv s) (hmode : s.mode co = .free) {e : Entry} {es : List Entry}
    (hlock : s.lock = some (e :: es)) : Inv (lock s co) := by
  have hle := h.length_le
  have hqueue : (s.calls ++ [co]).drop s.obtained.length = s.queue ++ [co] :=
    drop_append_of_le_length hle
  have hself : update s.mode co (.locking s.calls.length) co = .locking s.calls.length :=
    update_self ..
  have hother : ∀ t, t ≠ co → update s.mode co (.locking s.calls.length) t = s.mode t :=
    fun t ht => update_of_ne ht ..
  have hmem : ∀ k, k ∈ s.waited ++ [s.calls.length] ↔ k ∈ s.waited ∨ k = s.calls.length := by simp
  rw [lock, if_neg (by rw [hlock]; exact Nat.succ_ne_zero _)]
  refine ⟨?_, fun k c hk hc => ?_, fun c k hc => ?_, fun k hk => ?_, h.nodup, ?_⟩
  · obtain ⟨n, hn, hobt⟩ := h.order
    exact ⟨n, hn.trans (by simp), hobt⟩
  · have hc : (s.calls ++ [co])[k]? = some c := hc
    rcases Nat.lt_or_ge k s.calls.length with hlt | hge
    · rw [getElem?_append_left hlt] at hc
      obtain ⟨hm, hin⟩ := h.pending k c hk hc
      have hne : c ≠ co := fun heq => by rw [heq, hmode] at hm; cases hm
      exact ⟨(hother c hne).trans hm, mem_append_left _ hin⟩
    · have hlt := (List.getElem?_eq_some_iff.1 hc).1
      rw [length_append, length_singleton] at hlt
      obtain rfl : k = s.calls.length := by omega
      rw [getElem?_concat_length, some.injEq] at hc
      exact ⟨hc ▸ hself, (hmem _).2 (.inr rfl)⟩
  · have hc : update s.mode co (.locking s.calls.length) c = .locking k := hc
    show s.obtained.length ≤ k ∧ (s.calls ++ [co])[k]? = some c
    by_cases heq : c = co
    · rw [heq, hself] at hc
      cases hc
      rw [heq]
      exact ⟨hle, getElem?_concat_length⟩
    · obtain ⟨hk, hc⟩ := h.locking c k ((hother c heq).symm.trans hc)
      exact ⟨hk, (getElem?_append_left (List.getElem?_eq_some_iff.1 hc).1).trans hc⟩
  · show k < (s.calls ++ [co]).length
    rw [length_append, length_singleton]
    rcases (hmem k).1 hk with hk | hk
    · exact Nat.lt_succ_of_lt (h.waited k hk)
    · omega
  · cases h.owner with
    | nobody hnil =>
      rw [hlock] at hnil
      cases hnil
    | held c e' hlock' hone hothers hws hwoken =>
      refine .held c e' ?_ hone hothers hws fun k => ?_
      · show some (s.lock.getD [] ++ [Entry.co co]) =
          some (e' :: ((s.calls ++ [co]).drop s.obtained.length).map .co)
        rw [hqueue, hlock', map_append]
        rfl
      · show k ∈ s.woken ↔ k ∈ s.waited ++ [s.calls.length] ∧ k < s.obtained.length
        rw [hwoken k, hmem k]
        refine and_congr_left fun hk => (or_iff_left ?_).symm
        omega
    | handed c rest hq hlock' hholds hws hwoken =>
      obtain ⟨hlt, -⟩ := h.queue_cons hq
      refine .handed c (rest ++ [co]) ?_ ?_ hholds hws fun k => ?_
      · exact hqueue.trans (by rw [hq]; rfl)
      · show some (s.lock.getD [] ++ [Entry.co co]) =
          some (((s.calls ++ [co]).drop s.obtained.length).map .co)
        rw [hqueue, hlock', map_append]
        rfl
      · show k ∈ s.woken ↔ k ∈ s.waited ++ [s.calls.length] ∧ k ≤ s.obtained.length
        rw [hwoken k, hmem k]
        refine and_congr_left fun hk => (or_iff_left ?_).symm
        omega

theorem inv_lock (h : Inv s) (hmode : s.mode co = .free) : Inv (lock s co) := by
  cases h.owner with
  | nobody hlock hq hholds hws hwoken => exact inv_take h hlock hq hholds hws hwoken
  | held c e hlock => exact inv_wait h hmode hlock
  | handed c rest hq hlock =>
    rw [hq] at hlock
    exact inv_wait h hmode hlock

theorem inv_unlock (h : Inv s) (hco : 0 < s.holds co) (hst : unlock s co = some s') : Inv s' := by
  cases h.owner with
  | nobody _ _ hholds => exact absurd (hholds co) (Nat.ne_of_gt hco)
  | handed _ _ _ _ hholds => exact absurd (hholds co) (Nat.ne_of_gt hco)
  | held c e hlock hone hothers hws hwoken =>
    obtain rfl : c = co := by
      by_contra hne
      have := hothers co (Ne.symm hne)
      omega
    have hall : ∀ t, update s.holds c (s.holds c - 1) t = 0 := fun t => by
      by_cases heq : t = c
      · rw [heq, update_self, hone]
      · rw [update_of_ne heq, hothers t heq]
    cases hq : s.queue with
    | nil =>
      have hlen := queue_nil hq
      simp only [unlock, hlock, hq, bind_eq_bind, bind_some, map_nil,
        tail_cons, head?_nil, some.injEq] at hst
      subst hst
      refine ⟨h.order, h.pending, h.locking, h.waited, h.nodup, .nobody rfl hq hall hws fun k => ?_⟩
      show k ∈ s.woken ↔ k ∈ s.waited
      rw [hwoken k]
      exact and_iff_left_of_imp fun hk => Nat.lt_of_lt_of_le (h.waited k hk) hlen
    | cons next rest =>
      obtain ⟨-, hmode, hin, -⟩ := h.queue_cons hq
      have hnot : ¬ (s.mode next = .free ∨ next ∈ s.wakeupSession) := by
        rw [hmode, hws]
        exact not_or_intro Mode.noConfusion not_mem_nil
      simp only [unlock, hlock, hq, bind_eq_bind, bind_some, map_cons,
        tail_cons, head?_cons, some.injEq] at hst
      rw [wakeup, if_neg hnot] at hst
      dsimp only at hst
      rw [hmode, hws] at hst
      subst hst
      refine ⟨h.order, h.pending, h.locking, h.waited, ?_, .handed next rest hq ?_ hall rfl
        fun k => ?_⟩
      · refine nodup_append.2 ⟨h.nodup, nodup_singleton _, fun k hk k' hk' => ?_⟩
        rw [mem_singleton.1 hk']
        exact Nat.ne_of_lt ((hwoken k).1 hk).2
      · show some _ = some (s.queue.map Entry.co)
        rw [hq]
        rfl
      · show k ∈ s.woken ++ [s.obtained.length] ↔ k ∈ s.waited ∧ k ≤ s.obtained.length
        rw [mem_append, mem_singleton, hwoken k, Nat.le_iff_lt_or_eq, and_or_left]
        exact or_congr_right (and_iff_right_of_imp fun heq => heq ▸ hin).symm

theorem inv_resume (h : Inv s) {n : ℕ} (hin : co ∈ s.wakeupSession) (hmode : s.mode co = .locking n) :
    Inv (obtain { s with
      wakeupSession := s.wakeupSession.erase co
      mode := update s.mode co .free } co n) := by
  cases h.owner with
  | nobody _ _ _ hws =>
    rw [hws] at hin
    exact absurd hin not_mem_nil
  | held _ _ _ _ _ hws =>
    rw [hws] at hin
    exact absurd hin not_mem_nil
  | handed c rest hq hlock hholds hws hwoken =>
    rw [hws] at hin
    obtain rfl := mem_singleton.1 hin
    obtain ⟨hlt, hmode', -, hrest⟩ := h.queue_cons hq
    obtain rfl : n = s.obtained.length := Mode.locking.inj (hmode.symm.trans hmode')
    have hlen : (s.obtained ++ [s.obtained.length]).length = s.obtained.length + 1 :=
      length_append
    have hone : update s.holds co (s.holds co + 1) co = 1 := by
      rw [update_self, hholds]
    refine ⟨⟨s.obtained.length + 1, hlt, ?_⟩, fun k c hk hc => ?_, fun c k hc => ?_, h.waited, h.nodup,
      .held co (.co co) ?_ hone (fun t ht => ?_) ?_ fun k => ?_⟩
    · show s.obtained ++ [s.obtained.length] = _
      rw [range_succ, ← h.obtained_eq]
    · have hk : (s.obtained ++ [s.obtained.length]).length ≤ k := hk
      rw [hlen] at hk
      obtain ⟨hm, hw⟩ := h.pending k c (by omega) hc
      have hne : c ≠ co := fun heq => by
        rw [heq, hmode] at hm
        have := Mode.locking.inj hm
        omega
      exact ⟨(update_of_ne hne ..).trans hm, hw⟩
    · have hc : update s.mode co .free c = .locking k := hc
      have hne : c ≠ co := fun heq => by
        rw [heq, update_self] at hc
        cases hc
      rw [update_of_ne hne] at hc
      obtain ⟨hk, hcall⟩ := h.locking c k hc
      refine ⟨?_, hcall⟩
      show (s.obtained ++ [s.obtained.length]).length ≤ k
      rw [hlen]
      refine Nat.lt_of_le_of_ne hk fun heq => hne ?_
      exact some.inj (hcall.symm.trans (heq ▸ (h.locking co _ hmode).2))
    · show s.lock = some (Entry.co co :: ((s.calls.drop (s.obtained ++ [_]).length).map .co))
      rw [hlen, hrest, hlock, hq]
      rfl
    · exact (update_of_ne ht ..).trans (hholds t)
    · show s.wakeupSession.erase co = []
      rw [hws]
      exact erase_cons_head co []
    · show k ∈ s.woken ↔ k ∈ s.waited ∧ k < (s.obtained ++ [s.obtained.length]).length
      rw [hwoken k, hlen, Nat.lt_succ_iff]

theorem inv_step {i : Label} (h : Inv s) (hby : ByHolder s i) (hst : step s i = some s') : Inv s' := by
  cases i with
  | lock co =>
    obtain ⟨hmode, rfl⟩ := of_guard hst
    exact inv_lock h hmode
  | unlock co =>
    by_cases hmode : s.mode co = .free
    · exact inv_unlock h hby ((if_pos hmode).symm.trans hst)
    · cases (if_neg hmode).symm.trans hst
  | sleep co =>
    obtain ⟨hmode, rfl⟩ := of_guard hst
    exact h.setMode (fun n => by rw [hmode]; exact Mode.noConfusion) fun n => Mode.noConfusion
  | awake co =>
    obtain ⟨hmode, rfl⟩ := of_guard hst
    exact h.setMode (fun n => by rw [hmode]; exact Mode.noConfusion) fun n => Mode.noConfusion
  | resume co =>
    by_cases hin : co ∈ s.wakeupSession
    · have hst := (if_pos hin).symm.trans hst
      -- only one that waits in a call is woken
      obtain ⟨n, hmode⟩ : ∃ n, s.mode co = .locking n := by
        cases h.owner with
        | nobody _ _ _ hws => rw [hws] at hin; exact absurd hin not_mem_nil
        | held _ _ _ _ _ hws => rw [hws] at hin; exact absurd hin not_mem_nil
        | handed c rest hq _ _ hws =>
          rw [hws] at hin
          exact ⟨_, mem_singleton.1 hin ▸ (h.queue_cons hq).2.1⟩
      dsimp only at hst
      rw [hmode] at hst
      obtain rfl := some.inj hst
      exact inv_resume h hin hmode
    · cases (if_neg hin).symm.trans hst

theorem inv_reach (h : machine.Reach ByHolder s) : Inv s :=
  h.invariant .init fun _ _ _ hs hby hst => inv_step hs hby hst

theorem Inv.sound (h : Inv s) : Sound s := by
  have hobt : ∀ k, k ∈ s.obtained ↔ k < s.obtained.length := fun k => by
    conv_lhs => rw [h.obtained_eq]
    exact mem_range
  cases h.owner with
  | nobody _ hq hholds hws hwoken =>
    refine ⟨fun c c' hc => absurd (hholds c) (Nat.ne_of_gt hc),
      fun c => (hholds c).trans_le (Nat.zero_le 1), h.order, h.nodup, fun k hk => ?_,
      fun k hk _ => (hwoken k).2 hk, fun c rest hcons => ?_, fun c hc => absurd (hholds c) (Nat.ne_of_gt hc)⟩
    · have hw := (hwoken k).1 hk
      exact ⟨hw, (h.waited k hw).le.trans (queue_nil hq)⟩
    · rw [hq] at hcons
      cases hcons
  | held c e _ hone hothers hws hwoken =>
    have heq : ∀ t, 0 < s.holds t → t = c := fun t ht => by
      by_contra hne
      have := hothers t hne
      omega
    refine ⟨fun t t' ht ht' => (heq t ht).trans (heq t' ht').symm, fun t => ?_, h.order, h.nodup,
      fun k hk => ⟨((hwoken k).1 hk).1, ((hwoken k).1 hk).2.le⟩,
      fun k hk hk' => (hwoken k).2 ⟨hk, (hobt k).1 hk'⟩, fun _ _ _ hall => ?_,
      fun _ _ => ⟨fun hk => Nat.lt_irrefl _ ((hwoken _).1 hk).2, hws⟩⟩
    · by_cases ht : t = c
      · rw [ht, hone]
      · rw [hothers t ht]
        exact Nat.zero_le 1
    · rw [hall c] at hone
      cases hone
  | handed c rest hq _ hholds hws hwoken =>
    obtain ⟨-, hmode, hin, -⟩ := h.queue_cons hq
    refine ⟨fun c c' hc => absurd (hholds c) (Nat.ne_of_gt hc),
      fun c => (hholds c).trans_le (Nat.zero_le 1), h.order, h.nodup, fun k hk => (hwoken k).1 hk,
      fun k hk hk' => (hwoken k).2 ⟨hk, ((hobt k).1 hk').le⟩, fun c' rest' hcons _ => ?_,
      fun c hc => absurd (hholds c) (Nat.ne_of_gt hc)⟩
    rw [hq] at hcons
    obtain ⟨rfl, -⟩ := List.cons.inj hcons
    exact ⟨(hwoken _).2 ⟨hin, Nat.le_refl _⟩, hws, hmode⟩

/-- The lock is sound in every run in which each unlock is made by the holder. -/
theorem sound_of_byHolder (h : machine.Reach ByHolder s) : Sound s := (inv_reach h).sound

/-- A call comes between an unlock and the resumption of the next holder, and waits. -/
theorem sound_of_byHolder_gap : ∃ s, Sound s ∧ s.waited = [1, 2] ∧ s.woken = [1] ∧
    s.obtained = [0, 1] := by
  have h₀ : machine.Reach ByHolder machine.init := .init
  have h₁ := h₀.step (i := Label.lock 0) trivial rfl
  have h₂ := h₁.step (i := Label.lock 1) trivial rfl
  have h₃ := h₂.step (i := Label.unlock 0) Nat.zero_lt_one rfl
  have h₄ := h₃.step (i := Label.lock 2) trivial rfl
  have h₅ := h₄.step (i := Label.resume 1) trivial rfl
  exact ⟨_, sound_of_byHolder h₅, rfl, rfl, rfl⟩

end SocketLock

end SkynetGame
