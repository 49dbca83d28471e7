import SkynetGame.Proofs.Timer
import Mathlib.Data.List.Count

/-!
# When the timers fire

A tick is one shift of the wheel, and update number `n` makes tick `n`. A timer added at tick `T`
with delay `d` is due at `T + d`: in every state its node is in the list where the wheel files that
tick (`Timer.Filed`), or on the list that the running update is pushing, or pushed.
-/

namespace SkynetGame

open List

def TimerMade.due (m : TimerMade) : ℕ := m.tick + m.delay

/-- How many of the nodes are number `k`. -/
def nodeCount (k : ℕ) (l : List TimerNode) : ℕ := l.countP fun n => n.serial = k

section Concat

variable {α : Type*} {l : List α} {i : ℕ} {a x : α}

theorem getElem?_concat_left (h : l[i]? = some a) : (l ++ [x])[i]? = some a := by
  rwa [getElem?_append_left (List.getElem?_eq_some_iff.1 h).1]

theorem getElem?_concat_cases (h : (l ++ [x])[i]? = some a) :
    l[i]? = some a ∨ i = l.length ∧ a = x := by
  rcases Nat.lt_trichotomy i l.length with hi | hi | hi
  · rw [getElem?_append_left hi] at h
    exact .inl h
  · subst hi
    simp only [getElem?_concat_length, Option.some.injEq] at h
    exact .inr ⟨rfl, h.symm⟩
  · rw [getElem?_eq_none (by simp; omega)] at h
    cases h

end Concat

namespace Timer

/-- At tick `N`, the lists hold the nodes of the timers due from tick `first` on, each one once and
where the wheel files it. -/
structure Filed (T : Timer) (made : List TimerMade) (N first : ℕ) : Prop where
  time : T.time.toNat = N % 2 ^ 32
  known : ∀ σ, ∀ n ∈ T.list σ, ∃ m, made[n.serial]? = some m ∧
    n.expire.toNat = m.due % 2 ^ 32 ∧ n.event = m.event
  one : ∀ σ k m, made[k]? = some m →
    nodeCount k (T.list σ) = if first ≤ m.due ∧ σ = wheelSlot 8 6 4 N m.due then 1 else 0
  range : ∀ m ∈ made, m.due < N + 2 ^ 31

variable {T : Timer} {made : List TimerMade} {N first k : ℕ} {σ : ℕ × ℕ} {n : TimerNode}
  {m : TimerMade}

theorem nodeCount_pos {l : List TimerNode} (h : n ∈ l) : 0 < nodeCount n.serial l :=
  countP_pos_iff.2 ⟨n, h, by simp⟩

theorem nodeCount_append (l₁ l₂ : List TimerNode) :
    nodeCount k (l₁ ++ l₂) = nodeCount k l₁ + nodeCount k l₂ := countP_append

theorem nodeCount_cons (l : List TimerNode) :
    nodeCount k (n :: l) = nodeCount k l + if n.serial = k then 1 else 0 := by
  simp [nodeCount, countP_cons]

theorem nodeCount_filter {p : TimerNode → Bool} {b : Bool} {l : List TimerNode}
    (h : ∀ n ∈ l, n.serial = k → p n = b) :
    nodeCount k (l.filter p) = if b then nodeCount k l else 0 := by
  rw [nodeCount, countP_filter]
  cases b
  · refine countP_eq_zero.2 fun n hn => ?_
    by_cases hk : n.serial = k
    · simp [h n hn hk]
    · simp [hk]
  · refine countP_congr fun n hn => ?_
    by_cases hk : n.serial = k
    · simp [h n hn hk]
    · simp [hk]

theorem Filed.due (h : T.Filed made N first) (hn : n ∈ T.list σ) (hm : made[n.serial]? = some m) :
    first ≤ m.due ∧ σ = wheelSlot 8 6 4 N m.due := by
  have h1 := h.one σ n.serial m hm
  have h2 := nodeCount_pos hn
  by_contra hne
  rw [if_neg hne] at h1
  omega

theorem Filed.add (h : T.Filed made N (N + 1)) {expire : UInt32} {d : ℕ} {event : TimerEvent}
    (he : expire.toNat = (N + d) % 2 ^ 32) (hd : 1 ≤ d) (hlt : d < 2 ^ 31) :
    (T.addNode ⟨expire, event, made.length⟩).Filed (made ++ [⟨N, d, event⟩]) N (N + 1) := by
  have hslot : fileSlot T.time expire = wheelSlot 8 6 4 N (N + d) :=
    fileSlot_eq h.time he (by omega) (by omega)
  refine ⟨by rw [addNode_time, h.time], fun σ n hn => ?_, fun σ k m hm => ?_, fun m hm => ?_⟩
  · have hnode : n ∈ T.list σ ∨ n = ⟨expire, event, made.length⟩ := by
      rw [addNode_list] at hn
      split_ifs at hn
      · simpa using hn
      · exact .inl hn
    rcases hnode with hn | rfl
    · obtain ⟨m, hm, h2⟩ := h.known σ n hn
      exact ⟨m, getElem?_concat_left hm, h2⟩
    · exact ⟨⟨N, d, event⟩, by simp, he, rfl⟩
  · have hlist : nodeCount k ((T.addNode ⟨expire, event, made.length⟩).list σ)
        = nodeCount k (T.list σ) + if wheelSlot 8 6 4 N (N + d) = σ ∧ made.length = k then 1
          else 0 := by
      rw [addNode_list, hslot]
      by_cases hσ : wheelSlot 8 6 4 N (N + d) = σ
      · rw [if_pos hσ, nodeCount_append, nodeCount_cons]
        simp [nodeCount, hσ]
      · simp [hσ]
    rw [hlist]
    rcases getElem?_concat_cases hm with hm | ⟨rfl, rfl⟩
    · have hk : made.length ≠ k := ((List.getElem?_eq_some_iff.1 hm).1).ne'
      rw [h.one σ k m hm]
      simp [hk]
    · have hz : nodeCount made.length (T.list σ) = 0 := by
        refine countP_eq_zero.2 fun n hn => ?_
        obtain ⟨m, hm, -⟩ := h.known σ n hn
        have := (List.getElem?_eq_some_iff.1 hm).1
        simp only [decide_eq_true_eq]
        omega
      rw [hz]
      simp only [TimerMade.due, eq_comm (a := σ), and_true, Nat.zero_add]
      exact if_congr ⟨fun hc => ⟨by omega, hc⟩, fun hc => hc.2⟩ rfl rfl
  · rcases mem_append.1 hm with hm | hm
    · exact h.range m hm
    · rw [mem_singleton] at hm
      subst hm
      simp only [TimerMade.due]
      omega

theorem Filed.shift (h : T.Filed made N (N + 1)) :
    ∃ T', T.timerShift = some T' ∧ T'.Filed made (N + 1) (N + 1) := by
  refine ⟨_, timerShift_eq h.time, ?_⟩
  have htime : (T.time + 1).toNat = (N + 1) % 2 ^ 32 := by
    rw [UInt32.toNat_add, h.time]
    simp
  have hfile : ∀ σ, ∀ n ∈ T.list σ, ∀ m, made[n.serial]? = some m →
      fileSlot (T.time + 1) n.expire = wheelSlot 8 6 4 (N + 1) m.due := by
    intro σ n hn m hm
    obtain ⟨m', hm', he, -⟩ := h.known σ n hn
    rw [hm, Option.some.injEq] at hm'
    subst hm'
    have := h.range m (mem_of_getElem? hm)
    exact fileSlot_eq htime he (h.due hn hm).1 (by omega)
  have hsucc : ∀ m : TimerMade, N + 1 ≤ m.due →
      wheelSlot 8 6 4 (N + 1) m.due ≠ wheelSlot 8 6 4 N m.due → wheelCarry 8 6 4 (N + 1) ≠ 0 ∧
        wheelSlot 8 6 4 N m.due = (wheelCarry 8 6 4 (N + 1),
          wheelDigit 8 6 (N + 1) (wheelCarry 8 6 4 (N + 1))) :=
    fun m hm hne => wheelSlot_succ (by omega) hne
  have hrange : ∀ m ∈ made, m.due < N + 1 + 2 ^ 31 := fun m hm => by
    have := h.range m hm
    omega
  split_ifs with hc
  · refine ⟨htime, h.known, fun σ k m hm => (h.one σ k m hm).trans ?_, hrange⟩
    by_cases hd : N + 1 ≤ m.due
    · have : wheelSlot 8 6 4 (N + 1) m.due = wheelSlot 8 6 4 N m.due := by
        by_contra hne
        exact (hsucc m hd hne).1 hc
      rw [this]
    · simp [hd]
  obtain ⟨c, hce⟩ : ∃ c, wheelCarry 8 6 4 (N + 1) = c + 1 := ⟨_, (Nat.succ_pred hc).symm⟩
  rw [hce] at hsucc ⊢
  generalize wheelDigit 8 6 (N + 1) (c + 1) = i at hsucc ⊢
  rw [Nat.add_sub_cancel]
  have hlist : ∀ σ, (({ T with time := T.time + 1 } : Timer).moveList c i).list σ
      = (if (c + 1, i) = σ then [] else T.list σ) ++ (T.list (c + 1, i)).filter fun n =>
        fileSlot (T.time + 1) n.expire = σ := fun σ => moveList_list σ
  refine ⟨by rw [moveList_time, htime], fun σ n hn => ?_, fun σ k m hm => ?_, hrange⟩
  · rw [hlist] at hn
    rcases mem_append.1 hn with hn | hn
    · split_ifs at hn
      · cases hn
      · exact h.known σ n hn
    · exact h.known _ n (mem_filter.1 hn).1
  · have hmoved : nodeCount k ((T.list (c + 1, i)).filter fun n =>
        fileSlot (T.time + 1) n.expire = σ) = if wheelSlot 8 6 4 (N + 1) m.due = σ then
          nodeCount k (T.list (c + 1, i)) else 0 := by
      rw [nodeCount_filter (b := decide (wheelSlot 8 6 4 (N + 1) m.due = σ))]
      · simp
      · rintro n hn rfl
        rw [hfile _ n hn m hm]
    have hsame : N + 1 ≤ m.due → (c + 1, i) ≠ wheelSlot 8 6 4 N m.due →
        wheelSlot 8 6 4 (N + 1) m.due = wheelSlot 8 6 4 N m.due := fun hd hne => by
      by_contra hne'
      exact hne (hsucc m hd hne').2.symm
    have hkept : nodeCount k (if (c + 1, i) = σ then [] else T.list σ) = if (c + 1, i) = σ then 0
        else if N + 1 ≤ m.due ∧ σ = wheelSlot 8 6 4 N m.due then 1 else 0 := by
      by_cases hσ : (c + 1, i) = σ
      · rw [if_pos hσ, if_pos hσ]
        rfl
      · rw [if_neg hσ, if_neg hσ, h.one σ k m hm]
    rw [hlist, nodeCount_append, hmoved, hkept, h.one _ k m hm]
    by_cases hd : N + 1 ≤ m.due
    · by_cases hs : (c + 1, i) = wheelSlot 8 6 4 N m.due
      · simp only [hd, ← hs, true_and, if_true, eq_comm (a := σ)]
        split_ifs <;> rfl
      · simp only [hd, hs, hsame hd hs, true_and, and_false, if_false, ite_self, Nat.add_zero,
          eq_comm (a := σ)]
        split_ifs with h1 h2 <;> simp_all
    · simp [hd]

theorem timerExecute_spec (hn : T.time.toNat = N % 2 ^ 32) :
    T.timerExecute.2 = T.list (0, N % 2 ^ 8) ∧ T.timerExecute.1.time = T.time ∧
      ∀ σ, T.timerExecute.1.list σ = if σ = (0, N % 2 ^ 8) then [] else T.list σ := by
  have hidx : (T.time &&& timeNearMask).toNat = N % 2 ^ 8 := by
    rw [and_mask (k := 8) rfl, hn]
    omega
  unfold timerExecute
  simp only [hidx]
  refine ⟨rfl, trivial, fun σ => ?_⟩
  rcases σ with ⟨_ | l, k⟩
  · by_cases hk : k = N % 2 ^ 8
    · simp [list, hk]
    · rw [if_neg (by simpa using hk)]
      exact Function.update_of_ne hk _ _
  · simp [list]

theorem Filed.execute (h : T.Filed made N N) : T.timerExecute.1.Filed made N (N + 1) ∧
      (∀ k m, made[k]? = some m → nodeCount k T.timerExecute.2 = if m.due = N then 1 else 0) ∧
      ∀ n ∈ T.timerExecute.2, ∃ m, made[n.serial]? = some m ∧ n.event = m.event ∧ m.due = N := by
  obtain ⟨hcur, htime, hlist⟩ := timerExecute_spec h.time
  have hslot : ∀ D, N ≤ D → ((0, N % 2 ^ 8) = wheelSlot 8 6 4 N D ↔ D = N) := fun D _ =>
    ⟨fun he => due_of_wheelSlot he.symm, fun he => by rw [he, wheelSlot_self]⟩
  rw [hcur]
  refine ⟨⟨by rw [htime, h.time], fun σ n hn => ?_, fun σ k m hm => ?_, h.range⟩,
    fun k m hm => ?_, fun n hn => ?_⟩
  · rw [hlist] at hn
    split_ifs at hn
    · cases hn
    · exact h.known σ n hn
  · rw [hlist]
    by_cases hσ : σ = (0, N % 2 ^ 8)
    · rw [if_pos hσ, if_neg]
      · rfl
      · rintro ⟨hd, hs⟩
        rw [hσ] at hs
        have := (hslot m.due (by omega)).1 hs
        omega
    · rw [if_neg hσ, h.one σ k m hm]
      refine if_congr ⟨fun ⟨hd, hs⟩ => ⟨?_, hs⟩, fun ⟨hd, hs⟩ => ⟨by omega, hs⟩⟩ rfl rfl
      by_contra hlt
      have : m.due = N := by omega
      exact hσ (hs.trans ((hslot m.due hd).2 this).symm)
  · rw [h.one _ k m hm]
    exact if_congr ⟨fun ⟨hd, hs⟩ => (hslot m.due hd).1 hs,
      fun he => ⟨he.ge, (hslot m.due he.ge).2 he⟩⟩ rfl rfl
  · obtain ⟨m, hm, -, he⟩ := h.known _ n hn
    obtain ⟨hd, hs⟩ := h.due hn hm
    exact ⟨m, hm, he, (hslot m.due hd).1 hs⟩

theorem Filed.next (h : T.Filed made N N) (hno : ∀ m ∈ made, m.due ≠ N) :
    T.Filed made N (N + 1) := by
  refine ⟨h.time, h.known, fun σ k m hm => (h.one σ k m hm).trans ?_, h.range⟩
  have := hno m (mem_of_getElem? hm)
  exact if_congr ⟨fun hc => ⟨by omega, hc.2⟩, fun hc => ⟨by omega, hc.2⟩⟩ rfl rfl

theorem Filed.execute_nil (h : T.Filed made N (N + 1)) : T.timerExecute.2 = [] := by
  rw [(timerExecute_spec h.time).1, eq_nil_iff_forall_not_mem]
  intro n hn
  obtain ⟨m, hm, -, -⟩ := h.known _ n hn
  obtain ⟨hd, hs⟩ := h.due hn hm
  have := due_of_wheelSlot hs.symm
  omega

end Timer

namespace TimerRun

variable {s s' : TimerRun} {current : List TimerNode}

/-- How often the message of node `k` was pushed. -/
def pushes (s : TimerRun) (k : ℕ) : ℕ := s.pushed.countP fun p => p.serial = some k

/-- Every timer is in the wheel until its tick, then on the list being pushed, then pushed. -/
structure Inv (s : TimerRun) (current : List TimerNode) : Prop where
  filed : s.timer.Filed s.made s.ticks (s.ticks + 1)
  made : ∀ m ∈ s.made, 1 ≤ m.delay ∧ m.delay < 2 ^ 31
  updates : s.updates = s.ticks
  known : ∀ n ∈ current, ∃ m, s.made[n.serial]? = some m ∧ n.event = m.event ∧ m.due = s.ticks
  pushed : ∀ p ∈ s.pushed, ∀ k, p.serial = some k →
    ∃ m, s.made[k]? = some m ∧ p.event = m.event ∧ p.update = m.due
  once : ∀ k m, s.made[k]? = some m →
    s.pushes k + nodeCount k current = if m.due ≤ s.ticks then 1 else 0

/-- The phase of the running update goes with what it has still to push. -/
def InPhase (s : TimerRun) (current : List TimerNode) : Prop :=
  s.phase = if current = [] then .idle else .dispatching false current

section Steps

theorem executeLast_nil (h : s.timer.timerExecute.2 = []) :
    s.executeLast = { s with phase := .idle } := by
  unfold executeLast
  rcases he : s.timer.timerExecute with ⟨T, _ | ⟨n, l⟩⟩
  · rfl
  · rw [he] at h
    cases h

theorem executeLast_cons (h : s.timer.timerExecute.2 ≠ []) : s.executeLast = { s with
    timer := s.timer.timerExecute.1, phase := .dispatching false s.timer.timerExecute.2 } := by
  unfold executeLast
  rcases he : s.timer.timerExecute with ⟨T, _ | ⟨n, l⟩⟩
  · rw [he] at h
    exact absurd rfl h
  · rfl

theorem executeFirst_nil (h : s.timer.timerExecute.2 = []) {T : Timer}
    (hT : s.timer.timerShift = some T) : s.executeFirst
      = some (executeLast { s with timer := T, ticks := s.ticks + 1 }) := by
  unfold executeFirst
  rcases he : s.timer.timerExecute with ⟨T', _ | ⟨n, l⟩⟩
  · simp [hT]
  · rw [he] at h
    cases h

theorem Inv.tick (h : s.Inv []) : ∃ s' current,
    executeFirst { s with updates := s.updates + 1 } = some s' ∧ s'.Inv current ∧
      s'.InPhase current := by
  obtain ⟨T, hT, hf⟩ := h.filed.shift
  obtain ⟨he1, he2, he3⟩ := hf.execute
  rw [executeFirst_nil (s := { s with updates := s.updates + 1 }) h.filed.execute_nil hT]
  have hup : s.updates + 1 = s.ticks + 1 := by rw [h.updates]
  have honce : ∀ k m, s.made[k]? = some m →
      s.pushes k + nodeCount k T.timerExecute.2 = if m.due ≤ s.ticks + 1 then 1 else 0 := by
    intro k m hm
    have h1 := h.once k m hm
    rw [he2 k m hm]
    simp only [nodeCount, countP_nil, Nat.add_zero] at h1
    rw [h1]
    split_ifs <;> omega
  by_cases hnil : T.timerExecute.2 = []
  · have hlast : executeLast ⟨T, s.phase, s.ticks + 1, s.updates + 1, s.made, s.pushed⟩ = _ :=
      executeLast_nil hnil
    refine ⟨_, [], congrArg some hlast, ⟨hf.next fun m hm he => ?_, h.made, hup,
      by simp, h.pushed, fun k m hm => ?_⟩, rfl⟩
    · obtain ⟨k, hk, rfl⟩ := getElem_of_mem hm
      have := he2 k _ (getElem?_eq_getElem hk)
      rw [if_pos he, hnil] at this
      cases this
    · have := honce k m hm
      rwa [hnil] at this
  · have hlast : executeLast ⟨T, s.phase, s.ticks + 1, s.updates + 1, s.made, s.pushed⟩ = _ :=
      executeLast_cons hnil
    exact ⟨_, T.timerExecute.2, congrArg some hlast,
      ⟨he1, h.made, hup, he3, h.pushed, honce⟩, by simp [InPhase, hnil]⟩

theorem Inv.timeout (h : s.Inv current) {event : TimerEvent} {time : Int32} (ht : ¬ time ≤ 0) :
    (s.timerAdd event time).Inv current := by
  rw [Int32.not_le] at ht
  have hpos : 0 < time.toInt := Int32.lt_iff_toInt_lt.1 ht
  have hlt : time.toInt < 2 ^ 31 := time.toInt_lt
  have hu : time.toUInt32.toNat = time.toInt.toNat := by
    rw [Int32.toNat_toUInt32_of_le (Int32.le_of_lt ht)]
    rfl
  have he : (time.toUInt32 + s.timer.time).toNat = (s.ticks + time.toInt.toNat) % 2 ^ 32 := by
    rw [UInt32.toNat_add, hu, h.filed.time]
    omega
  refine ⟨h.filed.add he (by omega) (by omega), fun m hm => ?_, h.updates, fun n hn => ?_,
    fun p hp k hk => ?_, fun k m hm => ?_⟩
  · rcases mem_append.1 hm with hm | hm
    · exact h.made m hm
    · rw [mem_singleton] at hm
      subst hm
      dsimp only
      omega
  · obtain ⟨m, hm, h2⟩ := h.known n hn
    exact ⟨m, getElem?_concat_left hm, h2⟩
  · obtain ⟨m, hm, h2⟩ := h.pushed p hp k hk
    exact ⟨m, getElem?_concat_left hm, h2⟩
  · rcases getElem?_concat_cases hm with hm | ⟨rfl, rfl⟩
    · exact h.once k m hm
    · have h1 : s.pushes s.made.length = 0 := by
        refine countP_eq_zero.2 fun p hp hk => ?_
        obtain ⟨m, hm, -⟩ := h.pushed p hp _ (by simpa using hk)
        simp at hm
      have h2 : nodeCount s.made.length current = 0 := by
        refine countP_eq_zero.2 fun n hn hk => ?_
        obtain ⟨m, hm, -⟩ := h.known n hn
        rw [decide_eq_true_eq] at hk
        simp [hk] at hm
      have h3 : ¬ (⟨s.ticks, time.toInt.toNat, event⟩ : TimerMade).due ≤ s.ticks := by
        simp only [TimerMade.due]
        omega
      exact (congrArg₂ (· + ·) h1 h2).trans (if_neg h3).symm

theorem Inv.push {node : TimerNode} (h : s.Inv (node :: current)) :
    ({ s with pushed := s.pushed ++ [⟨s.updates, some node.serial, node.event⟩] } : TimerRun).Inv
      current := by
  refine ⟨h.filed, h.made, h.updates, fun n hn => h.known n (mem_cons_of_mem _ hn),
    fun p hp k hk => ?_, fun k m hm => ?_⟩
  · rcases mem_append.1 hp with hp | hp
    · exact h.pushed p hp k hk
    · rw [mem_singleton] at hp
      subst hp
      rw [Option.some.injEq] at hk
      subst hk
      obtain ⟨m, hm, he, hd⟩ := h.known node mem_cons_self
      exact ⟨m, hm, he, h.updates.trans hd.symm⟩
  · have := h.once k m hm
    rw [Timer.nodeCount_cons] at this
    rw [← this]
    simp only [pushes, countP_append, countP_singleton, Option.some.injEq,
      decide_eq_true_eq]
    omega

theorem Inv.dispatch {node : TimerNode} (h : s.Inv (node :: current)) :
    ∃ s', s.dispatch false node current = some s' ∧ s'.Inv current ∧ s'.InPhase current := by
  have h' := h.push
  cases current with
  | nil =>
    refine ⟨_, rfl, ?_⟩
    rw [executeLast_nil h'.filed.execute_nil]
    exact ⟨⟨h'.filed, h'.made, h'.updates, h'.known, h'.pushed, h'.once⟩, rfl⟩
  | cons n rest =>
    exact ⟨_, rfl, ⟨h'.filed, h'.made, h'.updates, h'.known, h'.pushed, h'.once⟩, rfl⟩

/-- The timer thread can always take its next step, and every step keeps the invariant. -/
theorem Inv.step (h : s.Inv current) (hp : s.InPhase current) (a : Action) :
    (∀ s', s.step a = some s' → ∃ current', s'.Inv current' ∧ s'.InPhase current') ∧
      ((s.step a).isSome ↔ (a = .update → s.phase = .idle) ∧ (a = .dispatch → s.phase ≠ .idle)) := by
  cases a with
  | timeout event time =>
    by_cases ht : time ≤ 0
    · simp only [TimerRun.step, ht, if_true]
      refine ⟨fun s' hs => ?_, by simp⟩
      rw [Option.some.injEq] at hs
      subst hs
      refine ⟨current, ⟨h.filed, h.made, h.updates, h.known, fun p hp k hk => ?_,
        fun k m hm => ?_⟩, hp⟩
      · rcases mem_append.1 hp with hp | hp
        · exact h.pushed p hp k hk
        · rw [mem_singleton] at hp
          subst hp
          cases hk
      · rw [← h.once k m hm]
        simp [pushes]
    · simp only [TimerRun.step, ht, if_false]
      refine ⟨fun s' hs => ?_, by simp⟩
      rw [Option.some.injEq] at hs
      subst hs
      exact ⟨current, h.timeout ht, hp⟩
  | update =>
    cases current with
    | nil =>
      obtain ⟨s', current', hs', hi, hp'⟩ := h.tick
      have hidle : s.phase = .idle := hp
      have hst : s.step .update = some s' := by
        rw [← hs', TimerRun.step]
        simp only [hidle]
      rw [hst]
      refine ⟨fun s'' he => ?_, by simp [hidle]⟩
      rw [Option.some.injEq] at he
      exact ⟨current', he ▸ hi, he ▸ hp'⟩
    | cons n rest =>
      have hph : s.phase = .dispatching false (n :: rest) := hp
      simp [TimerRun.step, hph]
  | dispatch =>
    cases current with
    | nil =>
      have hidle : s.phase = .idle := hp
      simp [TimerRun.step, hidle]
    | cons n rest =>
      obtain ⟨s', hs', hi, hp'⟩ := h.dispatch
      have hph : s.phase = .dispatching false (n :: rest) := hp
      have hst : s.step .dispatch = some s' := by
        rw [← hs', TimerRun.step]
        simp only [hph]
      rw [hst]
      refine ⟨fun s'' he => ?_, by simp [hph]⟩
      rw [Option.some.injEq] at he
      exact ⟨rest, he ▸ hi, he ▸ hp'⟩

end Steps

theorem Inv.initial : machine.init.Inv [] where
  filed := by
    refine ⟨rfl, fun σ n hn => ?_, by simp [machine], by simp [machine]⟩
    rcases σ with ⟨_ | j, i⟩ <;> cases hn
  made m hm := by cases hm
  updates := rfl
  known n hn := by cases hn
  pushed p hp := by cases hp
  once k m hm := by cases hm

theorem Inv.reach (h : machine.Reachable s) : ∃ current, s.Inv current ∧ s.InPhase current :=
  h.invariant (I := fun s => ∃ current, s.Inv current ∧ s.InPhase current) ⟨[], Inv.initial, rfl⟩
    fun _ a s' ⟨_, hi, hp⟩ _ hst => (hi.step hp a).1 s' hst

/-- What a run of the timer does for timer number `k`, added at tick `m.tick` with delay `m.delay`:
update number `n` makes tick `n`, at which the 32-bit wheel time is `n` modulo `2 ^ 32`, and the
message is pushed in the update that makes the tick the timer is due at, once, and never before. -/
structure OnTime (s : TimerRun) (k : ℕ) (m : TimerMade) : Prop where
  delay : 1 ≤ m.delay ∧ m.delay < 2 ^ 31
  clock : s.timer.time.toNat = s.updates % 2 ^ 32
  when : ∀ p ∈ s.pushed, p.serial = some k →
    p.event = m.event ∧ p.update = m.tick + m.delay
  early : s.updates < m.tick + m.delay → s.pushes k = 0
  once : s.pushes k ≤ 1
  done : m.tick + m.delay < s.updates ∨ m.tick + m.delay = s.updates ∧ s.phase = .idle →
    s.pushes k = 1

/-- In every run of timeouts and updates every timer fires once, in the update that is due, and
the timer thread is never stuck. -/
theorem onTime_of_reachable (h : machine.Reachable s) :
    (∀ k m, s.made[k]? = some m → s.OnTime k m) ∧
      ((s.step .update).isSome ∨ (s.step .dispatch).isSome) := by
  obtain ⟨current, hi, hp⟩ := Inv.reach h
  refine ⟨fun k m hm => ?_, ?_⟩
  · have honce := hi.once k m hm
    refine ⟨hi.made m (List.mem_of_getElem? hm), by rw [hi.filed.time, hi.updates],
      fun p hp hk => ?_, fun hlt => ?_, ?_, fun hdone => ?_⟩
    · obtain ⟨m', hm', he, hd⟩ := hi.pushed p hp k hk
      rw [hm, Option.some.injEq] at hm'
      subst hm'
      exact ⟨he, hd⟩
    · rw [hi.updates] at hlt
      rw [if_neg (by simp only [TimerMade.due]; omega)] at honce
      omega
    · split_ifs at honce <;> omega
    · have hcur : nodeCount k current = 0 := by
        rcases hdone with hlt | ⟨-, hidle⟩
        · refine List.countP_eq_zero.2 fun n hn hk => ?_
          obtain ⟨m', hm', -, hd⟩ := hi.known n hn
          rw [decide_eq_true_eq] at hk
          rw [hk, hm, Option.some.injEq] at hm'
          subst hm'
          rw [hi.updates, ← hd] at hlt
          exact lt_irrefl _ hlt
        · have hnil : current = [] := by
            by_contra hne
            rw [InPhase, if_neg hne, hidle] at hp
            cases hp
          rw [hnil]
          rfl
      rw [hcur, if_pos (by simp only [TimerMade.due]; rw [← hi.updates]; omega)] at honce
      exact honce
  · by_cases hidle : s.phase = .idle
    · exact .inl ((hi.step hp .update).2.2 ⟨fun _ => hidle, fun he => by cases he⟩)
    · exact .inr ((hi.step hp .dispatch).2.2 ⟨by simp, fun _ => hidle⟩)

/-- Two timers, the second added while the message of the first is being pushed. -/
def twoTimers : List Action :=
  [.timeout ⟨1, 7⟩ 1, .update, .timeout ⟨2, 8⟩ 2, .dispatch, .update, .update, .dispatch]

theorem onTime_twoTimers : ∃ s, machine.run (fun _ _ => True) machine.init twoTimers = some s ∧
    (∀ k m, s.made[k]? = some m → s.OnTime k m) ∧
      ((s.step .update).isSome ∨ (s.step .dispatch).isSome) := by
  obtain ⟨s, hs⟩ := Option.isSome_iff_exists.1
    (show (machine.run (fun _ _ => True) machine.init twoTimers).isSome from rfl)
  exact ⟨s, hs, onTime_of_reachable (Machine.reach_of_run hs)⟩

end TimerRun

end SkynetGame
