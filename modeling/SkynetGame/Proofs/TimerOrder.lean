import SkynetGame.Proofs.TimerRun

/-!
# Timers with one expiry fire in the order they were added

At any tick the pending timers of one expiry are due at one tick, so the wheel files them in one list
(`Timer.Filed.same_slot`): a cascade moves all of them or none, in the order of their list, and what
it moves comes into a list with none of them.
-/

namespace SkynetGame

open List

/-- The 32-bit expiry of a timer: the wheel time then, and the delay. -/
def TimerMade.expire (m : TimerMade) : ℕ := m.due % 2 ^ 32

namespace Timer

variable {T T' : Timer} {made : List TimerMade} {N first : ℕ} {σ τ : ℕ × ℕ} {n n' : TimerNode}

/-- Nodes of one expiry stand in the order in which they were added. -/
def Sorted (l : List TimerNode) : Prop :=
  l.Pairwise fun n n' => n.expire = n'.expire → n.serial < n'.serial

theorem Filed.same_slot (h : T.Filed made N first) (hfirst : N ≤ first) (hn : n ∈ T.list σ)
    (hn' : n' ∈ T.list τ) (he : n.expire = n'.expire) : σ = τ := by
  obtain ⟨m, hm, hexp, -⟩ := h.known σ n hn
  obtain ⟨m', hm', hexp', -⟩ := h.known τ n' hn'
  obtain ⟨hd, hσ⟩ := h.due hn hm
  obtain ⟨hd', hτ⟩ := h.due hn' hm'
  have hr := h.range m (mem_of_getElem? hm)
  have hr' := h.range m' (mem_of_getElem? hm')
  have hdue : m.due = m'.due := by
    rw [he, hexp'] at hexp
    omega
  rw [hσ, hτ, hdue]

theorem sorted_add (h : T.Filed made N first) (hs : ∀ σ, Sorted (T.list σ)) (expire : UInt32)
    (event : TimerEvent) (σ : ℕ × ℕ) :
    Sorted ((T.addNode ⟨expire, event, made.length⟩).list σ) := by
  rw [addNode_list]
  split_ifs with hσ
  · refine pairwise_append.2 ⟨hs σ, pairwise_singleton .., fun n hn n' hn' _ => ?_⟩
    obtain rfl := mem_singleton.1 hn'
    obtain ⟨m, hm, -⟩ := h.known σ n hn
    exact (List.getElem?_eq_some_iff.1 hm).1
  · exact hs σ

theorem sorted_move (h : T.Filed made N (N + 1)) (hs : ∀ σ, Sorted (T.list σ)) (time : UInt32)
    (j i : ℕ) (σ : ℕ × ℕ) : Sorted (({ T with time := time } : Timer).moveList j i |>.list σ) := by
  rw [moveList_list]
  have hlist : ∀ τ, ({ T with time := time } : Timer).list τ = T.list τ := fun τ => by
    rcases τ with ⟨_ | l, k⟩ <;> rfl
  rw [hlist, hlist]
  refine pairwise_append.2 ⟨?_, (hs (j + 1, i)).filter _, fun n hn n' hn' he => ?_⟩
  · split_ifs
    · exact Pairwise.nil
    · exact hs σ
  · split_ifs at hn with hσ
    · exact absurd hn not_mem_nil
    · exact absurd (h.same_slot (Nat.le_succ N) hn (mem_filter.1 hn').1 he) (Ne.symm hσ)

theorem sorted_shift (h : T.Filed made N (N + 1)) (hs : ∀ σ, Sorted (T.list σ))
    (hT : T.timerShift = some T') (σ : ℕ × ℕ) : Sorted (T'.list σ) := by
  rw [timerShift_eq h.time] at hT
  obtain rfl := Option.some.inj hT
  split_ifs with hc
  · rcases σ with ⟨_ | l, k⟩
    · exact hs (0, k)
    · exact hs (l + 1, k)
  · exact sorted_move h hs _ _ _ σ

theorem sorted_execute (h : T.Filed made N N) (hs : ∀ σ, Sorted (T.list σ)) :
    (∀ σ, Sorted (T.timerExecute.1.list σ))
      ∧ T.timerExecute.2.Pairwise fun n n' => n.serial < n'.serial := by
  obtain ⟨hcur, -, hlist⟩ := timerExecute_spec h.time
  refine ⟨fun σ => ?_, ?_⟩
  · rw [hlist]
    split_ifs
    · exact Pairwise.nil
    · exact hs σ
  · have hexp : ∀ n ∈ T.timerExecute.2, n.expire.toNat = N % 2 ^ 32 := by
      intro n hn
      rw [hcur] at hn
      obtain ⟨m, hm, he, -⟩ := h.known _ n hn
      rw [he, due_of_wheelSlot (h.due hn hm).2.symm]
    have hsorted : Sorted T.timerExecute.2 := hcur ▸ hs _
    refine hsorted.imp_of_mem fun {n n'} hn hn' hlt => hlt ?_
    rw [← UInt32.toNat_inj, hexp n hn, hexp n' hn']

end Timer

namespace TimerRun

variable {s s' : TimerRun} {current : List TimerNode}

/-- Of the timers of one expiry none is dispatched before one that was added earlier. -/
def InOrder (s : TimerRun) : Prop :=
  ∀ (k k' : ℕ) (m m' : TimerMade) (i : ℕ) (p : TimerPush), s.made[k]? = some m →
    s.made[k']? = some m' → m.expire = m'.expire → k < k' → s.pushed[i]? = some p →
    p.serial = some k' → ∃ j < i, ∃ p', s.pushed[j]? = some p' ∧ p'.serial = some k

structure Ord (s : TimerRun) (current : List TimerNode) : Prop where
  lists : ∀ σ, Timer.Sorted (s.timer.list σ)
  current : current.Pairwise fun n n' => n.serial < n'.serial
  ticks : ∀ (k k' : ℕ) (m m' : TimerMade), s.made[k]? = some m → s.made[k']? = some m' → k < k' →
    m.tick ≤ m'.tick
  now : ∀ m ∈ s.made, m.tick ≤ s.ticks
  pushed : s.InOrder

theorem Ord.initial : machine.init.Ord [] := by
  refine ⟨fun σ => ?_, Pairwise.nil, fun k k' m m' hm => ?_, fun m hm => ?_,
    fun k k' m m' i p hm => ?_⟩
  · rcases σ with ⟨_ | j, i⟩ <;> exact Pairwise.nil
  · cases hm
  · cases hm
  · cases hm

theorem Ord.timeout (ho : s.Ord current) (h : s.Inv current) (event : TimerEvent) (time : Int32) :
    (s.timerAdd event time).Ord current := by
  refine ⟨fun σ => Timer.sorted_add h.filed ho.lists _ event σ, ho.current,
    fun k k' m m' hm hm' hlt => ?_, fun m hm => ?_, fun k k' m m' i p hm hm' he hlt hp hk => ?_⟩
  · rcases getElem?_concat_cases hm with hm | ⟨rfl, rfl⟩
    · rcases getElem?_concat_cases hm' with hm' | ⟨rfl, rfl⟩
      · exact ho.ticks k k' m m' hm hm' hlt
      · exact ho.now m (mem_of_getElem? hm)
    · rcases getElem?_concat_cases hm' with hm' | ⟨rfl, -⟩
      · exact absurd (List.getElem?_eq_some_iff.1 hm').1 (Nat.lt_asymm hlt)
      · exact absurd hlt (Nat.lt_irrefl _)
  · rcases mem_append.1 hm with hm | hm
    · exact ho.now m hm
    · rw [mem_singleton.1 hm]
      exact Nat.le_refl _
  · obtain ⟨m₀, hm₀, -⟩ := h.pushed p (mem_of_getElem? hp) k' hk
    have hk' := (List.getElem?_eq_some_iff.1 hm₀).1
    have hold : s.made[k']? = some m' := by
      rw [← hm']
      exact (getElem?_append_left hk').symm
    have hold' : s.made[k]? = some m := by
      rw [← hm]
      exact (getElem?_append_left (hlt.trans hk')).symm
    exact ho.pushed k k' m m' i p hold' hold he hlt hp hk

theorem Ord.pushNone (ho : s.Ord current) (event : TimerEvent) :
    ({ s with pushed := s.pushed ++ [⟨s.updates, none, event⟩] } : TimerRun).Ord current := by
  refine ⟨ho.lists, ho.current, ho.ticks, ho.now, fun k k' m m' i p hm hm' he hlt hp hk => ?_⟩
  rcases getElem?_concat_cases hp with hp | ⟨-, rfl⟩
  · obtain ⟨j, hj, p', hp', hk'⟩ := ho.pushed k k' m m' i p hm hm' he hlt hp hk
    exact ⟨j, hj, p', getElem?_concat_left hp', hk'⟩
  · cases hk

theorem Ord.push {node : TimerNode} (ho : s.Ord (node :: current)) (h : s.Inv (node :: current)) :
    ({ s with pushed := s.pushed ++ [⟨s.updates, some node.serial, node.event⟩] } : TimerRun).Ord
      current := by
  obtain ⟨hnode, hcurrent⟩ := pairwise_cons.1 ho.current
  refine ⟨ho.lists, hcurrent, ho.ticks, ho.now, fun k k' m m' i p hm hm' he hlt hp hk => ?_⟩
  rcases getElem?_concat_cases hp with hp | ⟨rfl, rfl⟩
  · obtain ⟨j, hj, p', hp', hk'⟩ := ho.pushed k k' m m' i p hm hm' he hlt hp hk
    exact ⟨j, hj, p', getElem?_concat_left hp', hk'⟩
  · obtain rfl := Option.some.inj hk
    obtain ⟨m₀, hm₀, -, hdue⟩ := h.known node mem_cons_self
    obtain rfl := Option.some.inj (hm'.symm.trans hm₀)
    have htick := ho.ticks k node.serial m m' hm hm' hlt
    have hrange := (h.made m (mem_of_getElem? hm)).2
    have hle : m.due ≤ s.ticks := by
      simp only [TimerMade.expire, TimerMade.due] at he hdue ⊢
      omega
    have honce := h.once k m hm
    rw [if_pos hle] at honce
    have hnot : nodeCount k (node :: current) = 0 := by
      refine countP_eq_zero.2 fun n hn hbad => ?_
      have hbad : n.serial = k := of_decide_eq_true hbad
      rcases mem_cons.1 hn with rfl | hn
      · omega
      · have := hnode n hn
        omega
    have hpos : 0 < s.pushes k := by omega
    obtain ⟨p', hp', hk'⟩ := countP_pos_iff.1 hpos
    obtain ⟨j, hj⟩ := getElem?_of_mem hp'
    exact ⟨j, (List.getElem?_eq_some_iff.1 hj).1, p', getElem?_concat_left hj, of_decide_eq_true hk'⟩

theorem Ord.phase {phase : TimerPhase} (ho : s.Ord current) :
    ({ s with phase := phase } : TimerRun).Ord current :=
  ⟨ho.lists, ho.current, ho.ticks, ho.now, ho.pushed⟩

theorem Ord.tick (ho : s.Ord []) (h : s.Inv [])
    (hst : executeFirst { s with updates := s.updates + 1 } = some s') :
    ∃ current, s'.InPhase current ∧ s'.Ord current := by
  obtain ⟨T, hT, hf⟩ := h.filed.shift
  have hlists := Timer.sorted_shift h.filed ho.lists hT
  obtain ⟨hlists', hcurrent⟩ := Timer.sorted_execute hf hlists
  have hnow : ∀ m ∈ s.made, m.tick ≤ s.ticks + 1 := fun m hm => (ho.now m hm).trans (Nat.le_succ _)
  rw [executeFirst_nil (s := { s with updates := s.updates + 1 }) h.filed.execute_nil hT] at hst
  obtain rfl := Option.some.inj hst
  by_cases hnil : T.timerExecute.2 = []
  · have hlast : executeLast ⟨T, s.phase, s.ticks + 1, s.updates + 1, s.made, s.pushed⟩ = _ :=
      executeLast_nil hnil
    exact ⟨[], by rw [hlast]; rfl, by
      rw [hlast]
      exact ⟨hlists, Pairwise.nil, ho.ticks, hnow, ho.pushed⟩⟩
  · have hlast : executeLast ⟨T, s.phase, s.ticks + 1, s.updates + 1, s.made, s.pushed⟩ = _ :=
      executeLast_cons hnil
    refine ⟨T.timerExecute.2, ?_, ?_⟩
    · rw [hlast, InPhase, if_neg hnil]
    · rw [hlast]
      exact ⟨hlists', hcurrent, ho.ticks, hnow, ho.pushed⟩

theorem Ord.dispatch {node : TimerNode} (ho : s.Ord (node :: current))
    (h : s.Inv (node :: current)) (hst : s.dispatch false node current = some s') :
    s'.InPhase current ∧ s'.Ord current := by
  have hpush := ho.push h
  cases current with
  | nil =>
    obtain rfl := Option.some.inj hst
    rw [executeLast_nil h.push.filed.execute_nil]
    exact ⟨rfl, hpush.phase⟩
  | cons n rest =>
    obtain rfl := Option.some.inj hst
    exact ⟨rfl, hpush.phase⟩

theorem InPhase.unique {l : List TimerNode} (hp : s.InPhase current) (hp' : s.InPhase l) :
    current = l := by
  rw [InPhase] at hp hp'
  rw [hp] at hp'
  split_ifs at hp' with h h'
  · rw [h, h']
  · exact (TimerPhase.dispatching.inj hp').2

theorem Ord.step (ho : s.Ord current) (h : s.Inv current) (hp : s.InPhase current) (a : Action)
    (hst : s.step a = some s') : ∃ current', s'.InPhase current' ∧ s'.Ord current' := by
  cases a with
  | timeout event time =>
    rw [TimerRun.step] at hst
    split_ifs at hst
    · obtain rfl := Option.some.inj hst
      exact ⟨current, hp, ho.pushNone event⟩
    · obtain rfl := Option.some.inj hst
      exact ⟨current, hp, ho.timeout h event time⟩
  | update =>
    cases current with
    | nil =>
      have hidle : s.phase = .idle := hp
      simp only [TimerRun.step, hidle] at hst
      exact ho.tick h (hidle ▸ hst)
    | cons n rest =>
      have hph : s.phase = .dispatching false (n :: rest) := hp
      simp only [TimerRun.step, hph] at hst
      cases hst
  | dispatch =>
    cases current with
    | nil =>
      have hidle : s.phase = .idle := hp
      simp only [TimerRun.step, hidle] at hst
      cases hst
    | cons n rest =>
      have hph : s.phase = .dispatching false (n :: rest) := hp
      simp only [TimerRun.step, hph] at hst
      exact ⟨rest, ho.dispatch h hst⟩

theorem ord_of_reachable (h : machine.Reachable s) :
    ∃ current, s.Inv current ∧ s.InPhase current ∧ s.Ord current := by
  refine h.invariant (I := fun s => ∃ current, s.Inv current ∧ s.InPhase current ∧ s.Ord current)
    ⟨[], Inv.initial, rfl, Ord.initial⟩ fun s a s' ⟨current, hi, hp, ho⟩ _ hst => ?_
  obtain ⟨current', hi', hp'⟩ := (hi.step hp a).1 s' hst
  obtain ⟨l, hl, ho'⟩ := ho.step hi hp a hst
  exact ⟨current', hi', hp', hl.unique hp' ▸ ho'⟩

/-- What a run does for its timers: a node has the expiry of its timer, whatever list it is in; each
timer is dispatched once at most, and after all those of its expiry that were added before it. -/
structure Fifo (s : TimerRun) : Prop where
  expire : ∀ σ, ∀ n ∈ s.timer.list σ, ∃ m, s.made[n.serial]? = some m ∧ n.expire.toNat = m.expire
  once : ∀ k, s.pushes k ≤ 1
  inOrder : s.InOrder

/-- In every run two timers of one expiry are dispatched in the order in which they were added. -/
theorem fifo_of_reachable (h : machine.Reachable s) : s.Fifo := by
  obtain ⟨current, hi, hp, ho⟩ := ord_of_reachable h
  refine ⟨fun σ n hn => ?_, fun k => ?_, ho.pushed⟩
  · obtain ⟨m, hm, he, -⟩ := hi.filed.known σ n hn
    exact ⟨m, hm, he⟩
  · by_contra hlt
    obtain ⟨p, hp, hk⟩ := List.countP_pos_iff.1 (Nat.lt_of_lt_of_le Nat.one_pos
      (Nat.le_of_lt (Nat.not_le.1 hlt)))
    obtain ⟨m, hm, -⟩ := hi.pushed p hp k (of_decide_eq_true hk)
    have honce := hi.once k m hm
    split_ifs at honce <;> omega

/-- Two timers of one expiry, the first of which waits on another level until a cascade. -/
def cascade : List Action :=
  .timeout ⟨1, 7⟩ 256 :: List.replicate 255 .update
    ++ [.timeout ⟨2, 8⟩ 1, .update, .dispatch, .dispatch]

theorem fifo_cascade : ∃ s, machine.run (fun _ _ => True) machine.init cascade = some s ∧ s.Fifo
    ∧ s.pushed.map (·.serial) = [some 0, some 1] := by
  have hrun : (machine.run (fun _ _ => True) machine.init cascade).map
      (fun s => s.pushed.map (·.serial)) = some [some 0, some 1] := by decide +kernel
  obtain ⟨s, hs, hpushed⟩ := Option.map_eq_some_iff.1 hrun
  exact ⟨s, hs, fifo_of_reachable (Machine.reach_of_run hs), hpushed⟩

end TimerRun

end SkynetGame
