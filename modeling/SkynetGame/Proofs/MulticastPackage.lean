import SkynetGame.MulticastPackage
import SkynetGame.Lib.Tally

/-!
# Who frees a package

A package that is bound has as many references as there are services to come in the daemon's loop and
services that have not given theirs back. The last one that is given back frees the package and its
data. A service that has exited, or whose `__unpack` has raised an error, never gives its own back; and
a package that is forwarded never gets its pointer cell freed.
-/

namespace SkynetGame

open Option

namespace MulticastPackage

open Multicast (Daemon ownerOf)

section Spec

/-- The reference that a service has not given back. -/
def owes (u : ℕ × Use) : ℕ := if u.2 = .closed then 0 else 1

/-- The package, its data and its pointer cell have been freed, each once. -/
def Package.FreedOnce (p : Package) : Prop :=
  p.packageFrees = 1 ∧ p.dataFrees = 1 ∧ p.cellFrees = 1

/-- The package went to the local group, no service that was sent it exited before it was done, and
none raised an error in `__unpack`. -/
def Package.Returned (p : Package) : Prop :=
  (∃ services, p.stage = .sending services) ∧ ∀ u ∈ p.uses, u.2 ≠ .raised ∧ u.2 ≠ .exited

end Spec

section Invariant

/-- A bound package with `n` references. -/
structure Package.Bound (p : Package) (n : ℕ) : Prop where
  reference : p.reference = n
  package : p.packageFrees = if n = 0 then 1 else 0
  data : p.dataFrees = if n = 0 then 1 else 0
  cell : p.cellFrees = 1

/-- The references of those to come and of those that owe theirs. -/
def Package.Inv (p : Package) : Prop :=
  match p.stage with
  | .refused => p = pack .refused
  | .publishing c => p = pack (.publishing c)
  | .forwarding => p = ⟨0, 1, 0, 0, .forwarding, []⟩
  | .forwarded => p = ⟨0, 1, 1, 0, .forwarded, []⟩
  | .sending services => p.Bound (services.length + tally owes p.uses)

/-- `channel_n` is the number of services in the group. -/
def Sized (d : Daemon) : Prop := ∀ c, d.channelN c = (d.channel c).map fun g => (g.length : ℤ)

structure Inv (s : State) : Prop where
  sized : Sized s.daemon
  packages : ∀ p ∈ s.packages, p.Inv

variable {p : Package} {n : ℕ}

theorem Package.Bound.live (h : p.Bound n) (hn : n ≠ 0) : mc_unpacklocal p = .ok () := by
  have hp := h.package
  have hd := h.data
  rw [if_neg hn] at hp hd
  exact if_pos ⟨hp, hd⟩

theorem Package.Bound.close (h : p.Bound (n + 1)) : ∃ p', mc_closelocal p = .ok p' ∧ p'.Bound n ∧
    p'.stage = p.stage ∧ p'.uses = p.uses := by
  have hp := h.package
  have hd := h.data
  have href := h.reference
  rw [if_neg (Nat.succ_ne_zero n)] at hp hd
  unfold mc_closelocal
  rw [if_neg (by omega)]
  dsimp only
  rw [if_neg (by omega)]
  by_cases hn : n = 0
  · refine ⟨_, if_pos (by omega), ⟨by dsimp only; omega, ?_, ?_, h.cell⟩, rfl, rfl⟩
    · simp [hn, hp]
    · simp [hn, hd]
  · refine ⟨_, if_neg (by omega), ⟨by dsimp only; omega, ?_, ?_, h.cell⟩, rfl, rfl⟩
    · simp [hn, hp]
    · simp [hn, hd]

end Invariant

section Packages

variable {p : Package} {c i service : ℕ} {services : List ℕ}

theorem inv_sending (h : p.Inv) (hs : p.stage = .sending services) :
    p.Bound (services.length + tally owes p.uses) := by
  unfold Package.Inv at h
  rw [hs] at h
  exact h

theorem sending_inv (hs : p.stage = .sending services)
    (h : p.Bound (services.length + tally owes p.uses)) : p.Inv := by
  unfold Package.Inv
  rw [hs]
  exact h

theorem inv_publishing (h : p.Inv) (hs : p.stage = .publishing c) : p = pack (.publishing c) := by
  unfold Package.Inv at h
  rw [hs] at h
  exact h

/-- The daemon binds as many references as there are services in the group, and without any it closes
the package itself. -/
theorem publishGroup_inv {group : Option (List ℕ)} (h : p.Inv) (hs : p.stage = .publishing c) :
    ∃ p', publishGroup p group (group.map fun g => (g.length : ℤ)) = .ok p' ∧ p'.Inv := by
  rw [inv_publishing h hs]
  rcases group with _ | _ | ⟨service, services⟩
  · exact ⟨_, rfl, sending_inv rfl ⟨rfl, rfl, rfl, rfl⟩⟩
  · exact ⟨_, rfl, sending_inv rfl ⟨rfl, rfl, rfl, rfl⟩⟩
  · exact ⟨_, rfl, sending_inv rfl ⟨rfl, rfl, rfl, rfl⟩⟩

theorem owes_of_ne {use : Use} (h : use ≠ .closed) : owes (service, use) = 1 := if_neg h

theorem exists_bound (h : p.Inv) {use : Use} (hu : p.uses[i]? = some (service, use))
    (howes : use ≠ .closed) :
    ∃ services n, p.stage = .sending services ∧ p.Bound (n + 1) ∧
      ∀ v, services.length + tally owes (p.uses.set i v) = n + owes v := by
  have hle := le_tally owes hu
  rw [owes_of_ne howes] at hle
  rcases hs : p.stage with _ | c | _ | _ | services
  · unfold Package.Inv at h
    rw [hs] at h
    rw [h] at hu
    cases hu
  · rw [inv_publishing h hs] at hu
    cases hu
  · unfold Package.Inv at h
    rw [hs] at h
    rw [h] at hu
    cases hu
  · unfold Package.Inv at h
    rw [hs] at h
    rw [h] at hu
    cases hu
  · obtain ⟨n, hn⟩ : ∃ n, services.length + tally owes p.uses = n + 1 :=
      ⟨services.length + tally owes p.uses - 1, by omega⟩
    refine ⟨services, n, rfl, hn ▸ inv_sending h hs, fun v => ?_⟩
    have := tally_set owes hu v
    rw [owes_of_ne howes] at this
    omega

theorem use_inv (h : p.Inv) {use use' : Use} (hu : p.uses[i]? = some (service, use))
    (howes : use ≠ .closed) (howes' : use' ≠ .closed) :
    mc_unpacklocal p = .ok () ∧ (p.use i (service, use')).Inv := by
  obtain ⟨services, n, hs, hbound, hset⟩ := exists_bound h hu howes
  refine ⟨hbound.live (Nat.succ_ne_zero n), sending_inv hs ?_⟩
  have hcount := hset (service, use')
  rw [owes_of_ne howes'] at hcount
  rw [Package.use, hcount]
  exact ⟨hbound.reference, hbound.package, hbound.data, hbound.cell⟩

theorem close_inv (h : p.Inv) {use : Use} (hu : p.uses[i]? = some (service, use))
    (howes : use ≠ .closed) : ∃ p', mc_unpacklocal p = .ok () ∧
      mc_closelocal p = .ok p' ∧ (p'.use i (service, .closed)).Inv := by
  obtain ⟨services, n, hs, hbound, hset⟩ := exists_bound h hu howes
  obtain ⟨p', hclose, hbound', hs', huses⟩ := hbound.close
  refine ⟨p', hbound.live (Nat.succ_ne_zero n), hclose, sending_inv (hs'.trans hs) ?_⟩
  rw [Package.use, huses, hset]
  exact ⟨hbound'.reference, hbound'.package, hbound'.data, hbound'.cell⟩

theorem dispatch_subscribe_inv (h : p.Inv) (hu : p.uses[i]? = some (service, .pending)) (way : Way) :
    ∃ p', dispatch_subscribe p i service way = .ok p' ∧ p'.Inv := by
  obtain ⟨p', hlive, hclose, hclosed⟩ := close_inv h hu (by decide)
  cases way with
  | unknown =>
    exact ⟨_, by simp only [dispatch_subscribe, hlive, hclose, bind, Except.bind], hclosed⟩
  | unsubscribed =>
    exact ⟨_, by simp only [dispatch_subscribe, hlive, hclose, bind, Except.bind], hclosed⟩
  | raises =>
    have hraised : Use.raised ≠ .closed := by decide
    refine ⟨_, ?_, (use_inv h hu (by decide) hraised).2⟩
    simp only [dispatch_subscribe, hlive, bind, Except.bind]
  | dispatches =>
    have hdispatching : Use.dispatching ≠ .closed := by decide
    refine ⟨_, ?_, (use_inv h hu (by decide) hdispatching).2⟩
    simp only [dispatch_subscribe, hlive, bind, Except.bind]

theorem dispatchEnd_inv (h : p.Inv) (hu : p.uses[i]? = some (service, .dispatching)) :
    ∃ p', dispatchEnd p i service = .ok p' ∧ p'.Inv := by
  obtain ⟨p', hlive, hclose, hclosed⟩ := close_inv h hu (by decide)
  exact ⟨_, by simp only [dispatchEnd, hlive, hclose, bind, Except.bind], hclosed⟩

theorem next_inv (h : p.Inv) (hs : p.stage = .sending (service :: services)) {use : Use}
    (huse : use ≠ .closed) :
    Package.Inv { p with stage := .sending services, uses := p.uses ++ [(service, use)] } := by
  have hbound := inv_sending h hs
  have hcount : (service :: services).length + tally owes p.uses =
      services.length + tally owes (p.uses ++ [(service, use)]) := by
    rw [tally_append, tally_cons, tally_nil, owes_of_ne huse, List.length_cons]
    omega
  rw [hcount] at hbound
  exact sending_inv rfl ⟨hbound.reference, hbound.package, hbound.data, hbound.cell⟩

theorem forwarded_inv (h : p.Inv) (hs : p.stage = .forwarding) :
    Package.Inv { p with stage := .forwarded, dataFrees := p.dataFrees + 1 } := by
  unfold Package.Inv at h
  rw [hs] at h
  rw [h]
  rfl

theorem owes_exit (k : ℕ) (u : ℕ × Use) : owes (Use.exit k u) = owes u := by
  obtain ⟨service, use⟩ := u
  cases use with
  | pending => by_cases hk : service = k <;> simp [Use.exit, owes, hk]
  | dispatching => by_cases hk : service = k <;> simp [Use.exit, owes, hk]
  | closed => rfl
  | raised => rfl
  | exited => rfl

theorem exit_inv (h : p.Inv) (k : ℕ) : Package.Inv { p with uses := p.uses.map (Use.exit k) } := by
  rcases hs : p.stage with _ | c | _ | _ | services
  · unfold Package.Inv at h
    rw [hs] at h
    rw [h]
    rfl
  · rw [inv_publishing h hs]
    rfl
  · unfold Package.Inv at h
    rw [hs] at h
    rw [h]
    rfl
  · unfold Package.Inv at h
    rw [hs] at h
    rw [h]
    rfl
  · have hbound := inv_sending h hs
    have hcount : tally owes (p.uses.map (Use.exit k)) = tally owes p.uses := by
      rw [tally, List.map_map]
      exact congrArg List.sum (List.map_congr_left fun u _ => owes_exit k u)
    rw [← hcount] at hbound
    exact sending_inv rfl ⟨hbound.reference, hbound.package, hbound.data, hbound.cell⟩

end Packages

section Tables

variable {d : Daemon} {c : ℕ}

theorem sized_update (h : Sized d) (group : Option (List ℕ)) {channelN : ℕ → Option ℤ}
    (hn : channelN = Function.update d.channelN c (group.map fun g => (g.length : ℤ))) :
    Sized { d with channel := Function.update d.channel c group, channelN := channelN } := by
  intro c'
  rw [hn]
  by_cases hc : c' = c
  · subst hc
    simp only [Function.update_self]
  · simp only [Function.update_of_ne hc]
    exact h c'

theorem sized_open (h : Sized d) (c : ℕ) : Sized (openChannel d c) := by
  unfold openChannel
  split_ifs
  · exact sized_update h (some []) rfl
  · exact h

theorem sized_delete (h : Sized d) (c : ℕ) : Sized (deleteChannel d c) := sized_update h none rfl

theorem sized_join (h : Sized d) (source c : ℕ) : Sized (d.join source c) := by
  unfold Daemon.join
  rcases hg : d.channel c with _ | group
  · exact h
  · dsimp only
    split_ifs
    · exact h
    · refine sized_update h (some (group ++ [source])) ?_
      rw [h c, hg]
      simp

theorem sized_leave (h : Sized d) (c n source : ℕ) : Sized (leave d c n source) := by
  unfold leave
  rcases hg : d.channel c with _ | group
  · exact h
  · dsimp only
    split_ifs with hmem
    · exact sized_delete h c
    · refine sized_update h (some (group.erase source)) ?_
      have hpos := List.length_pos_of_mem hmem
      rw [h c, hg, map_some, map_some, map_some, List.length_erase_of_mem hmem]
      congr 2
      omega
    · exact h

end Tables

section Runs

variable {s : State} {harbor_id : ℕ}

theorem Inv.setPackage (h : Inv s) {i : ℕ} {x : Except Fault Package}
    (hx : ∃ p, x = .ok p ∧ p.Inv) : ∃ s', s.setPackage i x = .ok s' ∧ Inv s' := by
  obtain ⟨p, rfl, hp⟩ := hx
  refine ⟨_, rfl, h.sized, fun q hq => ?_⟩
  rcases List.mem_or_eq_of_mem_set hq with hq | rfl
  · exact h.packages q hq
  · exact hp

theorem Inv.add (h : Inv s) {p : Package} (hp : p.Inv) : Inv (s.add p) := by
  refine ⟨h.sized, fun q hq => ?_⟩
  rcases List.mem_append.1 hq with hq | hq
  · exact h.packages q hq
  · exact List.mem_singleton.1 hq ▸ hp

theorem Inv.pub (h : Inv s) (c size : ℕ) : ∃ s', s.pub harbor_id c size = .ok s' ∧ Inv s' := by
  unfold State.pub mc_packlocal
  split_ifs
  · exact ⟨_, rfl, h.add rfl⟩
  · exact ⟨_, rfl, h.add rfl⟩
  · exact ⟨_, rfl, h.add rfl⟩
  · exact ⟨_, rfl, h.add rfl⟩

theorem Inv.daemon (h : Inv s) {d : Daemon} (hd : Sized d) : Inv { s with daemon := d } :=
  ⟨hd, h.packages⟩

theorem step_inv {e : Event} {σ : Except Fault State} (h : Inv s)
    (hstep : s.step harbor_id e = some σ) : ∃ s', σ = .ok s' ∧ Inv s' := by
  cases e with
  | openChannel c =>
    cases hstep
    exact ⟨_, rfl, h.daemon (sized_open h.sized c)⟩
  | deleteChannel c =>
    cases hstep
    exact ⟨_, rfl, h.daemon (sized_delete h.sized c)⟩
  | sub source c =>
    cases hstep
    exact ⟨_, rfl, h.daemon (sized_join h.sized source c)⟩
  | usub source c =>
    cases hstep
    exact ⟨_, rfl, h.daemon (sized_leave h.sized c harbor_id source)⟩
  | pub c size =>
    cases hstep
    exact h.pub c size
  | remote c =>
    cases hstep
    exact ⟨_, rfl, h.add rfl⟩
  | group p =>
    obtain ⟨x, hx, hstep⟩ := bind_eq_some_iff.1 hstep
    split at hstep
    · next c hs =>
      cases hstep
      rw [h.sized c]
      exact h.setPackage (publishGroup_inv (h.packages x (List.mem_of_getElem? hx)) hs)
    · cases hstep
  | next p =>
    obtain ⟨x, hx, hstep⟩ := bind_eq_some_iff.1 hstep
    split at hstep
    · next service services hs =>
      cases hstep
      refine h.setPackage ⟨_, rfl, next_inv (h.packages x (List.mem_of_getElem? hx)) hs ?_⟩
      split_ifs <;> decide
    · cases hstep
  | forwarded p =>
    obtain ⟨x, hx, hstep⟩ := bind_eq_some_iff.1 hstep
    simp only [ite_none_right_eq_some, some.injEq] at hstep
    obtain ⟨hs, rfl⟩ := hstep
    exact h.setPackage ⟨_, rfl, forwarded_inv (h.packages x (List.mem_of_getElem? hx)) hs⟩
  | take p i way =>
    obtain ⟨x, hx, hstep⟩ := bind_eq_some_iff.1 hstep
    split at hstep
    · next service hu =>
      cases hstep
      exact h.setPackage (dispatch_subscribe_inv (h.packages x (List.mem_of_getElem? hx)) hu way)
    · cases hstep
  | done p i =>
    obtain ⟨x, hx, hstep⟩ := bind_eq_some_iff.1 hstep
    split at hstep
    · next service hu =>
      cases hstep
      exact h.setPackage (dispatchEnd_inv (h.packages x (List.mem_of_getElem? hx)) hu)
    · cases hstep
  | exit k =>
    cases hstep
    refine ⟨_, rfl, h.sized, fun q hq => ?_⟩
    obtain ⟨x, hx, rfl⟩ := List.mem_map.1 hq
    exact exit_inv (h.packages x hx) k

theorem inv_init : Inv ⟨⟨fun _ => none, fun _ => none, fun _ => none, fun _ => false, []⟩, [], []⟩ :=
  ⟨fun _ => rfl, fun p hp => by cases hp⟩

theorem reachable_inv {σ : Except Fault State} (h : (machine harbor_id).Reachable σ) :
    ∃ s, σ = .ok s ∧ Inv s := by
  refine Machine.Reach.invariant (I := fun σ => ∃ s, σ = .ok s ∧ Inv s) h ⟨_, rfl, inv_init⟩ ?_
  rintro _ e σ' ⟨s, rfl, hinv⟩ - hstep
  exact step_inv hinv hstep

end Runs

section Lifetime

variable {p : Package}

variable {harbor_id : ℕ} {σ : Except Fault State}

end Lifetime

end MulticastPackage

end SkynetGame
