import SkynetGame.Cmaster

/-!
# The slaves agree with the master

A slave has an address of a name from the master, whose table never changes what it has, or from a
service of its own. In the second case the request is on its way to the master. So where the master
gets no request that contradicts its table, the slaves agree with it as soon as their requests have
come in.
-/

namespace SkynetGame

open Function List Option

namespace Cmaster

/-- What is sent of names is what the master has, and so is what the slaves have, but for requests
that are on their way. -/
structure Agreeing (s : State) : Prop where
  entry : ∀ fd sl n a, s.slaves fd = some sl → s.closed fd = false → sl.globalname n = some a →
    s.globalName n = some a ∨ .register n a ∈ s.up fd
  news : ∀ fd n a, .name n a ∈ s.down fd → s.globalName n = some a
  alive : ∀ fd, s.Connected fd → s.closed fd = false

variable {s : State} {fd : ℕ}

section Links

theorem mem_update_append {α : Type*} {f : ℕ → List α} {fd' : ℕ} {x y : α}
    (hx : x ∈ update f fd (f fd ++ [y]) fd') : x ∈ f fd' ∨ x = y := by
  by_cases hfd : fd' = fd
  · rw [hfd, update_self] at hx
    rcases mem_append.1 hx with hx | hx
    · exact .inl (hfd ▸ hx)
    · exact .inr (mem_singleton.1 hx)
  · rw [update_of_ne hfd] at hx
    exact .inl hx

theorem Agreeing.write (h : Agreeing s) {m : Down}
    (hm : ∀ n a, m = .name n a → s.globalName n = some a) : Agreeing (s.write fd m) := by
  refine ⟨h.entry, fun fd' n a hn => ?_, h.alive⟩
  rcases mem_update_append hn with hn | hn
  · exact h.news fd' n a hn
  · exact hm n a hn.symm

theorem Agreeing.broadcast (h : Agreeing s) {m : Down}
    (hm : ∀ n a, m = .name n a → s.globalName n = some a) : Agreeing (s.broadcast m) := by
  refine ⟨h.entry, fun fd' n a hn => ?_, h.alive⟩
  have hn' : .name n a ∈ if s.Connected fd' then s.down fd' ++ [m] else s.down fd' := hn
  split at hn'
  · rcases mem_append.1 hn' with hn' | hn'
    · exact h.news fd' n a hn'
    · exact hm n a (mem_singleton.1 hn').symm
  · exact h.news fd' n a hn'

theorem Agreeing.writeUp (h : Agreeing s) (m : Up) : Agreeing (s.writeUp fd m) := by
  unfold State.writeUp
  split
  · exact h
  · refine ⟨fun fd' sl n a hsl hc hn => (h.entry fd' sl n a hsl hc hn).imp_right fun hr => ?_,
      h.news, h.alive⟩
    show _ ∈ update s.up fd _ fd'
    by_cases hfd : fd' = fd
    · rw [hfd, update_self]
      exact mem_append_left _ (hfd ▸ hr)
    · rwa [update_of_ne hfd]

theorem Agreeing.setSlave (h : Agreeing s) {sl : Slave}
    (hsl : ∀ n a, s.closed fd = false → sl.globalname n = some a →
      s.globalName n = some a ∨ .register n a ∈ s.up fd) : Agreeing (s.setSlave fd sl) := by
  refine ⟨fun fd' sl' n a hsl' hc hn => ?_, h.news, h.alive⟩
  have hsl'' : update s.slaves fd (some sl) fd' = some sl' := hsl'
  by_cases hfd : fd' = fd
  · subst hfd
    rw [update_self] at hsl''
    obtain rfl := some.inj hsl''
    exact hsl n a hc hn
  · rw [update_of_ne hfd] at hsl''
    exact h.entry fd' sl' n a hsl'' hc hn

theorem Agreeing.setSlave_same (h : Agreeing s) {sl sl' : Slave} (hsl : s.slaves fd = some sl)
    (hsame : sl'.globalname = sl.globalname) : Agreeing (s.setSlave fd sl') := by
  refine h.setSlave fun n a hc hn => ?_
  rw [hsame] at hn
  exact h.entry fd sl n a hsl hc hn

theorem Agreeing.close (h : Agreeing s) (hfd : ¬ s.Connected fd) : Agreeing (s.close fd) := by
  refine ⟨fun fd' sl n a hsl hc hn => ?_, h.news, fun fd' hc => ?_⟩
  · have hc' : update s.closed fd true fd' = false := hc
    have hne : fd' ≠ fd := by
      rintro rfl
      rw [update_self] at hc'
      cases hc'
    rw [update_of_ne hne] at hc'
    show _ ∨ _ ∈ update s.up fd [] fd'
    rw [update_of_ne hne]
    exact h.entry fd' sl n a hsl hc' hn
  · have hne : fd' ≠ fd := by
      rintro rfl
      exact hfd hc
    show update s.closed fd true fd' = false
    rw [update_of_ne hne]
    exact h.alive fd' hc

theorem Agreeing.receive (h : Agreeing s) {m : Up} {up : List Up}
    (globalName : Bytes → Option Address) (hup : s.up fd = m :: up)
    (hold : ∀ n a, s.globalName n = some a → globalName n = some a)
    (hm : ∀ n a, m = .register n a → globalName n = some a) :
    Agreeing { s with up := update s.up fd up, globalName := globalName } := by
  refine ⟨fun fd' sl n a hsl hc hn => ?_, fun fd' n a hn => hold n a (h.news fd' n a hn), h.alive⟩
  show _ ∨ _ ∈ update s.up fd up fd'
  rcases h.entry fd' sl n a hsl hc hn with hg | hr
  · exact .inl (hold n a hg)
  · by_cases hfd : fd' = fd
    · rw [hfd, hup] at hr
      rcases mem_cons.1 hr with hr | hr
      · exact .inl (hm n a hr.symm)
      · rw [hfd, update_self]
        exact .inr hr
    · rw [update_of_ne hfd]
      exact .inr hr

end Links

section Master

theorem Agreeing.foldl_broadcast : ∀ {nodes : List Node} {s : State}, Agreeing s →
    Agreeing (nodes.foldl (fun s node => s.broadcast (.disconnect node.id)) s)
  | [], _, h => h
  | node :: nodes, s, h => by
    have hone : Agreeing (s.broadcast (.disconnect node.id)) := h.broadcast (by rintro n a ⟨⟩)
    exact hone.foldl_broadcast

theorem foldl_broadcast_slaveNode : ∀ (nodes : List Node) (s : State),
    (nodes.foldl (fun s node => s.broadcast (.disconnect node.id)) s).slaveNode = s.slaveNode
  | [], _ => rfl
  | node :: nodes, s => foldl_broadcast_slaveNode nodes (s.broadcast (.disconnect node.id))

theorem Agreeing.monitorEnd (h : Agreeing s) : Agreeing (monitorEnd fd s) := by
  have hnode : ∀ fd', ({ s with slaveNode := s.slaveNode.map fun node =>
      if node.fd = fd then { node with fd := 0 } else node } : State).Connected fd' →
      fd' ≠ fd ∧ s.Connected fd' := by
    rintro fd' ⟨hz, node, hnode, rfl⟩
    obtain ⟨node, hmem, rfl⟩ := List.mem_map.1 hnode
    split at hz
    next => exact absurd rfl hz
    next hne =>
      rw [if_neg hne]
      exact ⟨hne, hz, node, hmem, rfl⟩
  have hmap : Agreeing { s with slaveNode := s.slaveNode.map fun node =>
      if node.fd = fd then { node with fd := 0 } else node } :=
    ⟨h.entry, h.news, fun fd' hc => h.alive fd' (hnode fd' hc).2⟩
  refine hmap.foldl_broadcast.close fun hc => ?_
  unfold State.Connected at hc
  rw [foldl_broadcast_slaveNode] at hc
  exact (hnode fd hc).1 rfl

theorem Agreeing.handshake (h : Agreeing s) {m : Up} {up : List Up} (hup : s.up fd = m :: up)
    (hfd : ¬ s.Connected fd) (hc : s.closed fd = false) :
    Agreeing (handshake fd m { s with up := update s.up fd up }) := by
  have hclose : ({ s with up := update s.up fd up } : State).close fd = s.close fd := by
    unfold State.close
    rw [update_idem]
  unfold Cmaster.handshake
  cases m with
  | handshake id addr =>
    simp only []
    split
    · rw [hclose]
      exact h.close hfd
    · have hreceive : Agreeing { s with up := update s.up fd up } :=
        h.receive s.globalName hup (fun _ _ hn => hn) (by rintro n a ⟨⟩)
      have hreport : Agreeing (reportSlave fd id addr { s with up := update s.up fd up }) :=
        (hreceive.broadcast (by rintro n a ⟨⟩)).write (by rintro n a ⟨⟩)
      refine ⟨hreport.entry, hreport.news, ?_⟩
      rintro fd' ⟨hz, node, hnode, rfl⟩
      rcases mem_append.1 hnode with hnode | hnode
      · exact h.alive _ ⟨hz, node, hnode, rfl⟩
      · rw [mem_singleton.1 hnode]
        exact hc
  | register name address =>
    rw [hclose]
    exact h.close hfd
  | query name =>
    rw [hclose]
    exact h.close hfd

theorem Agreeing.dispatchSlave (h : Agreeing s) {m : Up} {up : List Up} (hup : s.up fd = m :: up)
    (hok : ∀ n a b, m = .register n a → s.globalName n = some b → b = a) :
    Agreeing (dispatchSlave fd m { s with up := update s.up fd up }) := by
  unfold Cmaster.dispatchSlave
  cases m with
  | handshake id addr => exact h.receive s.globalName hup (fun _ _ hn => hn) (by rintro n a ⟨⟩)
  | query name =>
    have hreceive : Agreeing { s with up := update s.up fd up } :=
      h.receive s.globalName hup (fun _ _ hn => hn) (by rintro n a ⟨⟩)
    cases hname : s.globalName name with
    | none =>
      simp only [hname]
      exact hreceive
    | some address =>
      simp only [hname]
      split
      · exact hreceive.monitorEnd
      · refine hreceive.write ?_
        rintro n a ⟨⟩
        exact hname
  | register name address =>
    simp only []
    have hknown : (if s.globalName name = none then
        update s.globalName name (some address) else s.globalName) name =
        some address := by
      split
      next => exact update_self ..
      next hne =>
        obtain ⟨b, hb⟩ := ne_none_iff_exists'.1 hne
        rw [hb, hok name address b rfl hb]
    have hreceive := h.receive (if s.globalName name = none then
      update s.globalName name (some address) else s.globalName) hup ?_ ?_
    · split
      · exact hreceive.monitorEnd
      · refine hreceive.broadcast ?_
        rintro n a ⟨⟩
        exact hknown
    · intro n a hn
      split
      next hnone =>
        have hne : n ≠ name := by
          rintro rfl
          rw [hnone] at hn
          cases hn
        rwa [update_of_ne hne]
      next => exact hn
    · rintro n a ⟨⟩
      exact hknown

end Master

section Slave

theorem monitorMaster_globalname {m : Down} {sl : Slave} {n : Bytes} {a : Address}
    (hn : (monitorMaster m sl).globalname n = some a) :
    m = .name n a ∨ sl.globalname n = some a := by
  cases m with
  | name name address =>
    have hsame : (monitorMaster (.name name address) sl).globalname =
        update sl.globalname name (some address) := by
      unfold monitorMaster
      simp only []
      split <;> rfl
    rw [hsame] at hn
    by_cases hname : n = name
    · subst hname
      rw [update_self] at hn
      exact .inl (some.inj hn ▸ rfl)
    · rw [update_of_ne hname] at hn
      exact .inr hn
  | _ => exact .inr hn

theorem Agreeing.monitorMaster (h : Agreeing s) {sl : Slave} {m : Down} {down : List Down}
    (hsl : s.slaves fd = some sl) (hdown : s.down fd = m :: down) :
    Agreeing ({ s with down := update s.down fd down }.setSlave fd
      (monitorMaster m sl)) := by
  have hread : Agreeing { s with down := update s.down fd down } := by
    refine ⟨h.entry, fun fd' n a hn => ?_, h.alive⟩
    have hn' : .name n a ∈ update s.down fd down fd' := hn
    by_cases hfd : fd' = fd
    · rw [hfd, update_self] at hn'
      exact h.news fd n a (hdown ▸ mem_cons_of_mem _ hn')
    · rw [update_of_ne hfd] at hn'
      exact h.news fd' n a hn'
  refine hread.setSlave fun n a hc hn => ?_
  rcases monitorMaster_globalname hn with rfl | hn
  · exact .inl (h.news fd n a (hdown ▸ mem_cons_self))
  · exact h.entry fd sl n a hsl hc hn

theorem Agreeing.register (h : Agreeing s) {sl : Slave} {name : Bytes} {handle : Address}
    (hsl : s.slaves fd = some sl)
    (hsize : sl.globalname name = none → (Up.register name handle).size ≤ 255) :
    Agreeing (register fd name handle sl s) := by
  unfold Cmaster.register
  split
  next => exact h
  next hnone =>
    have hsize := hsize (not_not.1 hnone)
    simp only []
    rw [if_neg (Nat.not_lt.2 hsize)]
    generalize hsl' : Slave.tell _ name handle = sl'
    have hnames : sl'.globalname = update sl.globalname name (some handle) := by
      rw [← hsl']
      rfl
    have hswap : (s.setSlave fd sl').writeUp fd (.register name handle) =
        (s.writeUp fd (.register name handle)).setSlave fd sl' := by
      unfold State.writeUp
      show (if s.closed fd then _ else _) = (if s.closed fd then _ else _ : State).setSlave fd sl'
      split <;> rfl
    rw [hswap]
    refine (h.writeUp (.register name handle)).setSlave fun n a hc hn => ?_
    have hsent : s.closed fd = false → .register name handle ∈
        (s.writeUp fd (.register name handle)).up fd := by
      intro hc
      unfold State.writeUp
      rw [hc, if_neg Bool.false_ne_true]
      show _ ∈ update s.up fd _ fd
      rw [update_self]
      exact mem_append_right _ (mem_singleton.2 rfl)
    have hwrite : Agreeing (s.writeUp fd (.register name handle)) := h.writeUp _
    have hclosed : (s.writeUp fd (.register name handle)).closed = s.closed := by
      unfold State.writeUp
      split <;> rfl
    have hslaves : (s.writeUp fd (.register name handle)).slaves = s.slaves := by
      unfold State.writeUp
      split <;> rfl
    rw [hnames] at hn
    by_cases hname : n = name
    · subst hname
      rw [update_self] at hn
      rw [← some.inj hn]
      exact .inr (hsent (hclosed ▸ hc))
    · rw [update_of_ne hname] at hn
      exact hwrite.entry fd sl n a (hslaves ▸ hsl) hc hn

theorem Agreeing.queryName (h : Agreeing s) {sl : Slave} (hsl : s.slaves fd = some sl)
    (name : Bytes) : Agreeing (queryName fd name sl s) := by
  unfold Cmaster.queryName
  simp only []
  split_ifs
  · exact h
  · exact h.setSlave_same hsl rfl
  · exact h
  · have hset : ∀ queryname, Agreeing (s.setSlave fd { sl with queryname := queryname }) :=
      fun _ => h.setSlave_same hsl rfl
    exact (hset _).writeUp _

theorem Agreeing.query (h : Agreeing s) {sl : Slave} (hsl : s.slaves fd = some sl)
    (name : Bytes) : Agreeing (query fd name sl s) := by
  unfold Cmaster.query
  cases sl.globalname name with
  | none =>
    simp only []
    split_ifs
    · exact h
    · exact h.writeUp _
  | some address => exact h.setSlave_same hsl rfl

end Slave

section Runs

/-- A request that does not contradict the table. -/
def State.Allows (s : State) : Up → Prop
  | .register name address => s.globalName name = none ∨ s.globalName name = some address
  | _ => True

/-- A request that comes in does not contradict the table, and one that is made fits a package. -/
def Fits (s : State) : Label → Prop
  | .master fd => s.Connected fd → ∀ m ∈ (s.up fd).head?, s.Allows m
  | .register fd name handle => ∀ sl ∈ s.slaves fd, sl.globalname name = none →
      (Up.register name handle).size ≤ 255
  | _ => True

theorem Agreeing.step {s' : State} {l : Label} (h : Agreeing s) (hok : Fits s l)
    (hstep : step s l = some s') : Agreeing s' := by
  unfold Cmaster.step at hstep
  cases l with
  | start fd id addr =>
    simp only [] at hstep
    split_ifs at hstep
    rw [← some.inj hstep]
    have hset : Agreeing (s.setSlave fd ⟨fun _ => none, fun _ => 0, false, fun _ => none⟩) :=
      h.setSlave (by rintro n a - ⟨⟩)
    exact hset.writeUp _
  | master fd =>
    cases hup : s.up fd with
    | nil =>
      simp only [hup] at hstep
      cases hstep
    | cons m up =>
      simp only [hup] at hstep
      split at hstep
      next => cases hstep
      next hc =>
        rw [← some.inj hstep]
        split
        next hfd =>
          refine h.dispatchSlave hup ?_
          rintro n a b rfl hb
          have hallows := hok hfd (.register n a) (hup ▸ rfl)
          rcases hallows with hnone | hsome
          · rw [hnone] at hb
            cases hb
          · exact some.inj (hb.symm.trans hsome)
        next hfd => exact h.handshake hup hfd (Bool.eq_false_iff.2 hc)
  | slave fd =>
    simp only [] at hstep
    split at hstep
    next sl m down hsl hdown =>
      rw [← some.inj hstep]
      exact h.monitorMaster hsl hdown
    next => cases hstep
  | fail fd =>
    simp only [] at hstep
    split_ifs at hstep with hno hfd
    · rw [← some.inj hstep]
      exact h.monitorEnd
    · rw [← some.inj hstep]
      exact h.close hfd
  | register fd name handle =>
    obtain ⟨sl, hsl, rfl⟩ := map_eq_some_iff.1 hstep
    exact h.register hsl fun hnone => hok sl hsl hnone
  | queryName fd name =>
    obtain ⟨sl, hsl, rfl⟩ := map_eq_some_iff.1 hstep
    exact h.queryName hsl name
  | query fd name =>
    obtain ⟨sl, hsl, rfl⟩ := map_eq_some_iff.1 hstep
    exact h.query hsl name
  | ready fd =>
    obtain ⟨sl, hsl, rfl⟩ := map_eq_some_iff.1 hstep
    exact h.setSlave_same hsl rfl

theorem agreeing_of_reach (hr : machine.Reach Fits s) : Agreeing s := by
  refine hr.invariant ⟨?_, ?_, ?_⟩ fun s l s' hi hok hstep => hi.step hok hstep
  · rintro fd sl n a ⟨⟩
  · intro fd n a hn
    exact absurd hn not_mem_nil
  · rintro fd ⟨-, node, hnode, -⟩
    exact absurd hnode not_mem_nil

/-- Nothing is on its way to a slave or from it. -/
def State.Quiet (s : State) (fd : ℕ) : Prop := s.up fd = [] ∧ s.down fd = []

/-- All that was sent to the slaves in the list, and by them, has come in. -/
def Delivered (s : State) : Prop := ∀ fd, s.Connected fd → s.Quiet fd

/-- What a slave in the list has of a name is what the master has, so what any other one has. -/
def Agree (s : State) : Prop :=
  (∀ fd, s.Connected fd → ∀ sl, s.slaves fd = some sl → ∀ n a, sl.globalname n = some a →
      s.globalName n = some a) ∧
    ∀ fd fd', s.Connected fd → s.Connected fd' → ∀ sl sl', s.slaves fd = some sl →
      s.slaves fd' = some sl' → ∀ n a a', sl.globalname n = some a →
        sl'.globalname n = some a' → a = a'

theorem agree_of_reach (hr : machine.Reach Fits s) (hd : Delivered s) : Agree s := by
  have h := agreeing_of_reach hr
  have hmaster : ∀ fd, s.Connected fd → ∀ sl, s.slaves fd = some sl → ∀ n a,
      sl.globalname n = some a → s.globalName n = some a := by
    intro fd hc sl hsl n a hn
    refine (h.entry fd sl n a hsl (h.alive fd hc) hn).resolve_right fun hmem => ?_
    rw [(hd fd hc).1] at hmem
    exact absurd hmem List.not_mem_nil
  refine ⟨hmaster, fun fd fd' hc hc' sl sl' hsl hsl' n a a' ha ha' => ?_⟩
  exact Option.some.inj ((hmaster fd hc sl hsl n a ha).symm.trans (hmaster fd' hc' sl' hsl' n a' ha'))

instance (s : State) : ∀ m, Decidable (s.Allows m)
  | .register _ _ => inferInstanceAs (Decidable (_ = _ ∨ _ = _))
  | .handshake .. | .query _ => isTrue trivial

instance (s : State) : ∀ l, Decidable (Fits s l)
  | .master fd => inferInstanceAs (Decidable (s.Connected fd → ∀ m ∈ (s.up fd).head?, s.Allows m))
  | .register fd name handle => inferInstanceAs (Decidable (∀ sl ∈ s.slaves fd,
      sl.globalname name = none → (Up.register name handle).size ≤ 255))
  | .start .. | .slave _ | .fail _ | .queryName .. | .query .. | .ready _ => isTrue trivial

instance (s : State) (fd : ℕ) : Decidable (s.Quiet fd) := inferInstanceAs (Decidable (_ ∧ _))

/-- Two slaves that register a name each; the first one asks for the one of the second. -/
theorem agree_of_two_names : ∃ s, machine.Reach Fits s ∧
    s.slaveNode = [⟨1, 1, []⟩, ⟨2, 2, []⟩] ∧ s.globalName [98] = some 0x2000008 ∧ Agree s := by
  have hl : (machine.run Fits init [.start 1 1 [], .start 2 2 [], .master 1, .slave 1,
      .register 1 [97] 0x1000008, .master 2, .register 2 [98] 0x2000008, .queryName 1 [98],
      .master 1, .master 1, .master 2, .slave 1, .slave 1, .slave 1, .slave 2, .slave 2,
      .slave 2]).map (fun s => (s.slaveNode, s.globalName [98], decide (s.Quiet 1 ∧ s.Quiet 2))) =
      some ([⟨1, 1, []⟩, ⟨2, 2, []⟩], some 0x2000008, true) := by
    decide
  obtain ⟨s, hr, he⟩ := Machine.exists_reach hl
  obtain ⟨hnodes, he⟩ := Prod.mk.inj he
  obtain ⟨hname, he⟩ := Prod.mk.inj he
  obtain ⟨he₁, he₂⟩ := of_decide_eq_true he
  have hd : Delivered s := by
    rintro fd ⟨-, node, hnode, rfl⟩
    rw [hnodes] at hnode
    rcases List.mem_cons.1 hnode with rfl | hnode
    · exact he₁
    · rw [List.mem_singleton.1 hnode]
      exact he₂
  exact ⟨s, hr, hnodes, hname, agree_of_reach hr hd⟩

/-- One name that is registered on two slaves at once: the slaves get the address that the master
does not have. -/
theorem not_agree_of_two_requests : ¬ ∀ s, machine.Reachable s → Delivered s → Agree s := by
  intro hall
  have hl : (machine.run (fun _ _ => True) init [.start 1 1 [], .master 1, .slave 1, .start 2 2 [],
      .master 2, .register 1 [97] 0x1000008, .register 2 [97] 0x2000008, .master 1, .master 2,
      .slave 1, .slave 1, .slave 1, .slave 2, .slave 2, .slave 2]).map (fun s => (s.slaveNode,
        s.globalName [97], (s.slaves 1).map (fun sl => sl.globalname [97]),
        decide (s.Quiet 1 ∧ s.Quiet 2))) =
      some ([⟨1, 1, []⟩, ⟨2, 2, []⟩], some 0x1000008, some (some 0x2000008), true) := by
    decide
  obtain ⟨s, hr, he⟩ := Machine.exists_reach hl
  obtain ⟨hnodes, he⟩ := Prod.mk.inj he
  obtain ⟨hname, he⟩ := Prod.mk.inj he
  obtain ⟨hslave, he⟩ := Prod.mk.inj he
  obtain ⟨he₁, he₂⟩ := of_decide_eq_true he
  have hd : Delivered s := by
    rintro fd ⟨-, node, hnode, rfl⟩
    rw [hnodes] at hnode
    rcases List.mem_cons.1 hnode with rfl | hnode
    · exact he₁
    · rw [List.mem_singleton.1 hnode]
      exact he₂
  obtain ⟨sl, hsl, hn⟩ := Option.map_eq_some_iff.1 hslave
  have hc : s.Connected 1 := by
    refine ⟨one_ne_zero, ⟨1, 1, []⟩, ?_, rfl⟩
    rw [hnodes]
    exact List.mem_cons_self
  have hgot := (hall s hr hd).1 1 hc sl hsl [97] 0x2000008 hn
  rw [hname] at hgot
  exact absurd hgot (by decide)

end Runs

end Cmaster

end SkynetGame
