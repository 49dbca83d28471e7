import SkynetGame.Proofs.MsgServer

/-!
# Logging out

While a login has one open connection at most when it loses one or logs out, its record knows the
newest of its open connections, and no connection is left to it afterwards (`MsgServer.Known`).
-/

namespace SkynetGame

open Function Option

namespace MsgServer

variable {ν : Type*}

/-- The newest connection of `u` that is not yet reported closed. -/
def newest (s : MsgServer ν) (u : ℕ) : Option ℕ :=
  ((s.conns.filter fun c => c.2 = u).getLast?).map Prod.fst

/-- No packet is given to `request_handler` for a user that was logged out, and until then the
record of a user knows its newest open connection. -/
structure LogoutFinal (s : MsgServer ν) : Prop where
  after : ∀ r, .received r ∈ s.log → r.out = true → r.executed = false
  before : ∀ n u, s.userOnline n = some u → (s.users u).fd = s.newest u

/-- Where a connection is closed, or its user logged out, the user has no other one. -/
def OneConnection (s : MsgServer ν) : Action → Prop
  | .close fd => ∀ u, s.connection fd = some u → ∀ f, s.connection f = some u → f = fd
  | .logout n =>
    ∀ u, s.userOnline n = some u → ∀ f, s.connection f = some u → (s.users u).fd = some f
  | _ => True

/-- What the table of connections knows of `fd`. -/
structure FdKnown (s : MsgServer ν) (fd : ℕ) : Prop where
  conn : ∀ u, s.connection fd = some u ↔ (fd, u) ∈ s.conns ∧ (s.users u).out = false
  conns : ∀ u, (fd, u) ∈ s.conns →
    u < s.nUsers ∧ s.gate fd ≠ none ∧ s.handshake fd = none ∧ s.closing fd = false

/-- What every step keeps that meets `OneConnection`. -/
structure Known (s : MsgServer ν) : Prop where
  base : s.Base
  inj : ∀ {n n' u}, s.userOnline n = some u → s.userOnline n' = some u → n = n'
  online : ∀ {n u}, s.userOnline n = some u → (s.users u).out = false
  fd : ∀ fd, s.FdKnown fd
  newest : ∀ u, (s.users u).out = false → (s.users u).fd = s.newest u
  log : ∀ r, .received r ∈ s.log → r.out = false

variable {s s' : MsgServer ν} {es : List (MsgEvent ν)}

theorem newest_eq_none {u : ℕ} : s.newest u = none ↔ ∀ fd, (fd, u) ∉ s.conns := by
  simp only [newest, map_eq_none_iff, List.getLast?_eq_none_iff, List.filter_eq_nil_iff,
    decide_eq_true_eq, Prod.forall]
  exact ⟨fun h fd hm => h fd u hm rfl, fun h fd v hm he => h fd (he ▸ hm)⟩

theorem mem_conns_of_newest {u fd : ℕ} (h : s.newest u = some fd) : (fd, u) ∈ s.conns := by
  obtain ⟨⟨f, v⟩, hl, rfl⟩ := map_eq_some_iff.1 h
  have hm := List.mem_of_getLast? hl
  simp only [List.mem_filter, decide_eq_true_eq] at hm
  exact hm.2 ▸ hm.1

theorem newest_congr (h : s'.conns = s.conns) (u : ℕ) : s'.newest u = s.newest u := by
  rw [newest, newest, h]

theorem newest_filter {u fd : ℕ} (h : s'.conns = s.conns.filter fun c => c.1 ≠ fd)
    (hn : (fd, u) ∉ s.conns) : s'.newest u = s.newest u := by
  have he : (s.conns.filter fun c => c.1 ≠ fd).filter (fun c => c.2 = u) =
      s.conns.filter fun c => c.2 = u := by
    rw [List.filter_filter]
    refine List.filter_congr fun c hc => ?_
    by_cases hu : c.2 = u
    · have : c.1 ≠ fd := by
        rintro rfl
        exact hn (hu ▸ hc)
      simp [hu, this]
    · simp [hu]
  rw [newest, newest, h, he]

theorem newest_append {u v fd : ℕ} (h : s'.conns = s.conns ++ [(fd, u)]) :
    s'.newest v = if v = u then some fd else s.newest v := by
  rw [newest, newest, h, List.filter_append]
  split_ifs with hv
  · simp [hv]
  · simp [Ne.symm hv]

theorem FdKnown.congr {fd : ℕ} (h : s.FdKnown fd) (hc : s'.connection fd = s.connection fd)
    (hcs : s'.conns = s.conns) (ho : ∀ u < s.nUsers, (s'.users u).out = (s.users u).out)
    (hn : s.nUsers ≤ s'.nUsers) (hg : s'.gate fd = none ↔ s.gate fd = none)
    (hh : s'.handshake fd = s.handshake fd) (hcl : s'.closing fd = s.closing fd) :
    s'.FdKnown fd := by
  refine ⟨fun u => ?_, fun u hm => ?_⟩
  · rw [hc, hcs, h.conn u]
    refine and_congr_right fun hm => ?_
    rw [ho u (h.conns u hm).1]
  · rw [hcs] at hm
    obtain ⟨hu, hne, hhs, hf⟩ := h.conns u hm
    exact ⟨hu.trans_le hn, fun hg' => hne (hg.1 hg'), hh.trans hhs, hcl.trans hf⟩

theorem logout_spec {n : Bytes} {u : ℕ} (hon : s.userOnline n = some u) :
    (s.logout n).userOnline = update s.userOnline n none ∧
    (s.logout n).users = update s.users u { s.users u with out := true } ∧
    (s.logout n).nUsers = s.nUsers ∧ (s.logout n).log = s.log ∧ (s.logout n).conns = s.conns ∧
    (s.logout n).handshake = s.handshake ∧ (s.logout n).closing = s.closing ∧
    (∀ fd, (s.logout n).gate fd = none ↔ s.gate fd = none) ∧
    ∀ fd, (s.logout n).connection fd =
      if (s.users u).fd = some fd then none else s.connection fd := by
  simp only [MsgServer.logout, hon]
  rcases hfd : (s.users u).fd with _ | f
  · exact ⟨rfl, rfl, rfl, rfl, rfl, rfl, rfl, fun _ => Iff.rfl, fun fd => by simp [setUser]⟩
  · have F := Frame.closeclient (s := setUser { s with
      userOnline := update s.userOnline n none } u
      { s.users u with fd := some f, out := true }) f
    have hus : ((setUser { s with userOnline := update s.userOnline n none } u
        { s.users u with fd := some f, out := true }).closeclient f).users =
        update s.users u { s.users u with fd := some f, out := true } := by
      unfold closeclient
      split <;> rfl
    refine ⟨F.userOnline, hus, F.nUsers, F.log.trans (List.append_nil _), F.conns, F.handshake, F.closing,
      F.gateNone, fun fd => ?_⟩
    simp only [F.connection, update_apply, some.injEq, eq_comm (a := fd)]
    rfl

theorem closeFd_spec (fd : ℕ) :
    (s.closeFd fd).userOnline = s.userOnline ∧ (s.closeFd fd).users = s.users ∧
    (s.closeFd fd).nUsers = s.nUsers ∧ (s.closeFd fd).log = s.log ∧
    (s.closeFd fd).conns = s.conns ∧ (s.closeFd fd).connection = s.connection ∧
    (s.closeFd fd).handshake = s.handshake ∧ (s.closeFd fd).closing = s.closing ∧
    ∀ f ≠ fd, (s.closeFd fd).gate f = s.gate f := by
  unfold closeFd
  split
  · exact ⟨rfl, rfl, rfl, rfl, rfl, rfl, rfl, rfl, fun f hf => by simp [hf]⟩
  · exact ⟨rfl, rfl, rfl, rfl, rfl, rfl, rfl, rfl, fun _ _ => rfl⟩

theorem close_spec (conf : MsgConf ν) (fd : ℕ) :
    (s.close conf fd).userOnline = s.userOnline ∧
    (∀ v, ((s.close conf fd).users v).out = (s.users v).out ∧
      ((s.close conf fd).users v).fd =
        if s.connection fd = some v then none else (s.users v).fd) ∧
    (s.close conf fd).nUsers = s.nUsers ∧ (s.close conf fd).log = s.log ∧
    (s.close conf fd).conns = (s.conns.filter fun c => c.1 ≠ fd) ∧
    (s.close conf fd).connection = update s.connection fd none ∧
    ∀ f ≠ fd, (s.close conf fd).gate f = s.gate f ∧
      (s.close conf fd).handshake f = s.handshake f ∧
      (s.close conf fd).closing f = s.closing f := by
  unfold close
  dsimp only
  split
  · rename_i hc
    replace hc : s.connection fd = none := hc
    obtain ⟨ho, hu, hn, hl, hcs, hcn, hh, hcl, hg⟩ := closeFd_spec (s := { s with
      handshake := update s.handshake fd none
      conns := s.conns.filter fun c => c.1 ≠ fd }) fd
    refine ⟨ho, fun v => by rw [hu]; simp [hc], hn, hl, hcs, ?_, fun f hf => ⟨hg f hf, ?_, ?_⟩⟩
    · rw [hcn, ← hc, update_eq_self]
    · rw [hh]
      exact update_of_ne hf _ _
    · rw [hcl]
  · rename_i u hc
    replace hc : s.connection fd = some u := hc
    have hus : ∀ v, (update s.users u { s.users u with fd := none } v).out =
        (s.users v).out ∧ (update s.users u { s.users u with fd := none } v).fd =
        if s.connection fd = some v then none else (s.users v).fd := by
      intro v
      by_cases hv : v = u
      · subst hv
        simp [hc]
      · simp [hc, hv, Ne.symm hv]
    split
    · refine ⟨rfl, hus, rfl, rfl, rfl, rfl, fun f hf => ⟨rfl, ?_, ?_⟩⟩
      · exact update_of_ne hf _ _
      · exact update_of_ne hf _ _
    · obtain ⟨ho, hu, hn, hl, hcs, hcn, hh, hcl, hg⟩ := closeFd_spec (s := { s with
        handshake := update s.handshake fd none
        conns := s.conns.filter fun c => c.1 ≠ fd
        users := update s.users u { s.users u with fd := none }
        connection := update s.connection fd none }) fd
      refine ⟨ho, fun v => ?_, hn, hl, hcs, hcn, fun f hf => ⟨hg f hf, ?_, ?_⟩⟩
      · have huv := congrFun hu v
        exact ⟨(congrArg MsgUser.out huv).trans (hus v).1,
          (congrArg MsgUser.fd huv).trans (hus v).2⟩
      · exact (congrFun hh f).trans (update_of_ne hf _ _)
      · exact congrFun hcl f

namespace Known

theorem frame (K : s.Known) (F : Frame s es s') (hes : ∀ r, .received r ∈ es → r.out = false) :
    s'.Known where
  base := K.base.frame F
  inj h h' := by
    rw [F.userOnline] at h h'
    exact K.inj h h'
  online h := by
    rw [F.userOnline] at h
    rw [F.out]
    exact K.online h
  fd fd := (K.fd fd).congr (congrFun F.connection fd) F.conns (fun u _ => F.out u) F.nUsers.ge
    (F.gateNone fd) (congrFun F.handshake fd) (congrFun F.closing fd)
  newest u hu := by
    rw [F.out] at hu
    rw [F.userFd, newest_congr F.conns]
    exact K.newest u hu
  log r hr := by
    rw [F.log, List.mem_append] at hr
    exact hr.elim (K.log r) (hes r)

theorem of_unknown (K : s.Known) (B : s'.Base) {fd : ℕ} (hn : ∀ u, (fd, u) ∉ s.conns)
    (ho : s'.userOnline = s.userOnline) (hu : s'.users = s.users) (hnu : s'.nUsers = s.nUsers)
    (hl : s'.log = s.log) (hc : s'.connection = s.connection) (hcs : s'.conns = s.conns)
    (h : ∀ f ≠ fd, s'.gate f = s.gate f ∧ s'.handshake f = s.handshake f ∧
      s'.closing f = s.closing f) : s'.Known where
  base := B
  inj h h' := by
    rw [ho] at h h'
    exact K.inj h h'
  online h := by
    rw [ho] at h
    rw [hu]
    exact K.online h
  fd f := by
    by_cases hf : f = fd
    · subst hf
      refine ⟨fun u => ?_, fun u hm => ?_⟩
      · rw [hc, hcs, hu]
        exact (K.fd f).conn u
      · rw [hcs] at hm
        exact absurd hm (hn u)
    · obtain ⟨hg, hh, hcl⟩ := h f hf
      exact (K.fd f).congr (congrFun hc f) hcs (fun u _ => by rw [hu]) hnu.ge (by rw [hg]) hh hcl
  newest u h := by
    rw [hu] at h ⊢
    rw [newest_congr hcs]
    exact K.newest u h
  log r hr := by
    rw [hl] at hr
    exact K.log r hr

theorem login [Zero ν] (K : s.Known) (username secret : Bytes) :
    (s.login username secret).Known := by
  have B := K.base.login username secret
  unfold MsgServer.login at B ⊢
  split
  · exact K
  · rename_i hoff
    rw [if_neg hoff] at B
    -- the new record is no one's yet
    have hne : ∀ {n u}, s.userOnline n = some u → u ≠ s.nUsers := fun h => (K.base.online h).ne
    have hon : ∀ n u, update s.userOnline username (some s.nUsers) n = some u ↔
        (n = username ∧ u = s.nUsers) ∨ (n ≠ username ∧ s.userOnline n = some u) := by
      intro n u
      by_cases h : n = username
      · simp [h, eq_comm]
      · simp [h]
    refine ⟨B, fun {n n' u} h h' => ?_, fun {n u} h => ?_, fun fd => ?_, fun u h => ?_, K.log⟩
    · rcases (hon n u).1 h with ⟨hn, hu⟩ | ⟨-, hu⟩ <;>
        rcases (hon n' u).1 h' with ⟨hn', hu'⟩ | ⟨-, hu'⟩
      · rw [hn, hn']
      · exact absurd hu (hne hu')
      · exact absurd hu' (hne hu)
      · exact K.inj hu hu'
    · rcases (hon n u).1 h with ⟨-, rfl⟩ | ⟨-, hu⟩
      · simp
      · simp only [update_of_ne (hne hu)]
        exact K.online hu
    · refine (K.fd fd).congr rfl rfl (fun u hu => ?_) (Nat.le_succ _) Iff.rfl rfl rfl
      simp [hu.ne]
    · by_cases hu : u = s.nUsers
      · subst hu
        simp only [update_self]
        refine (newest_eq_none.2 fun fd hm => ?_).symm
        exact absurd ((K.fd fd).conns _ hm).1 (Nat.lt_irrefl _)
      · simp only [update_of_ne hu] at h ⊢
        exact K.newest u h

theorem logout (K : s.Known) {username : Bytes} (hone : s.OneConnection (.logout username)) :
    (s.logout username).Known := by
  have B := K.base.logout username
  rcases hon : s.userOnline username with _ | u
  · have he : s.logout username = s := by
      unfold MsgServer.logout
      rw [hon]
    rw [he]
    exact K
  have hfd := hone u hon
  have hout := K.online hon
  obtain ⟨hs'o, hs'u, hs'n, hs'l, hs'cs, hs'h, hs'cl, hs'g, hs'c⟩ := logout_spec hon
  refine ⟨B, fun {n n' v} h h' => ?_, fun {n v} h => ?_, fun fd => ?_, fun v h => ?_, ?_⟩
  · simp only [hs'o, update_apply] at h h'
    split_ifs at h h'
    exact K.inj h h'
  · simp only [hs'o, update_apply] at h
    split_ifs at h with hn
    have hv : v ≠ u := by
      rintro rfl
      exact hn (K.inj h hon)
    rw [hs'u, update_of_ne hv]
    exact K.online h
  · refine ⟨fun v => ?_, fun v hm => ?_⟩
    · rw [hs'c, hs'cs, hs'u]
      by_cases hv : v = u
      · subst hv
        simp only [update_self, Bool.true_eq_false, and_false, iff_false]
        split_ifs with hf
        · simp
        · exact fun hc => hf (hfd fd hc)
      · rw [update_of_ne hv]
        split_ifs with hf
        · refine ⟨by simp, fun hm => ?_⟩
          have hc := ((K.fd fd).conn v).2 hm
          have hc' := ((K.fd fd).conn u).2 ⟨mem_conns_of_newest (K.newest u hout ▸ hf), hout⟩
          rw [hc, some.injEq] at hc'
          exact absurd hc' hv
        · exact (K.fd fd).conn v
    · rw [hs'cs] at hm
      rw [hs'n, hs'h, hs'cl, ne_eq, hs'g]
      exact (K.fd fd).conns v hm
  · have hv : v ≠ u := by
      rintro rfl
      simp [hs'u] at h
    rw [hs'u, update_of_ne hv] at h ⊢
    rw [newest_congr hs'cs]
    exact K.newest v h
  · rw [hs'l]
    exact K.log

theorem accept (K : s.Known) {fd u : ℕ} {n : Bytes} (hon : s.userOnline n = some u)
    (hg : s.gate fd = some true) (hh : s.handshake fd ≠ none) (addr message : Bytes) (idx : ν)
    (B : s'.Base) (ho : s'.userOnline = s.userOnline)
    (hu : s'.users = (s.accept fd addr message u idx).users) (hn : s'.nUsers = s.nUsers)
    (hl : s'.log = s.log ++ [.accepted u fd idx message])
    (hc : s'.connection = update s.connection fd (some u))
    (hcs : s'.conns = s.conns ++ [(fd, u)])
    (hgs : s'.gate = s.gate) (hcl : s'.closing = s.closing)
    (hhs : s'.handshake = update s.handshake fd none) : s'.Known := by
  have hnew : ∀ v, (fd, v) ∉ s.conns := fun v hm => hh ((K.fd fd).conns v hm).2.2.1
  have hclo : s.closing fd = false := by
    rw [← Bool.not_eq_true]
    exact fun h => hh ((K.base.fd fd).closing h).2.2
  have hout : ∀ v, (s'.users v).out = (s.users v).out := by
    intro v
    rw [hu]
    simp only [MsgServer.accept, setUser, update_apply]
    split_ifs with h <;> simp [h]
  refine ⟨B, fun {m m' v} h h' => ?_, fun {m v} h => ?_, fun f => ?_, fun v h => ?_, fun r hr => ?_⟩
  · rw [ho] at h h'
    exact K.inj h h'
  · rw [ho] at h
    rw [hout]
    exact K.online h
  · have hmem : ∀ v, (f, v) ∈ s'.conns ↔ (f, v) ∈ s.conns ∨ (f = fd ∧ v = u) := by
      intro v
      simp [hcs]
    by_cases hf : f = fd
    · subst hf
      refine ⟨fun v => ?_, fun v hm => ?_⟩
      · rw [hc, update_self, hmem, hout]
        refine ⟨fun h => ?_, fun h => ?_⟩
        · obtain rfl := some.inj h
          exact ⟨.inr ⟨rfl, rfl⟩, K.online hon⟩
        · rcases h.1 with h | ⟨-, rfl⟩
          · exact absurd h (hnew v)
          · rfl
      · rcases (hmem v).1 hm with hm | ⟨-, rfl⟩
        · exact absurd hm (hnew v)
        · rw [hn, hgs, hhs, hcl, hg]
          exact ⟨K.base.online hon, by simp, by simp, hclo⟩
    · have hmem' : ∀ v, (f, v) ∈ s'.conns ↔ (f, v) ∈ s.conns := fun v => by simp [hmem, hf]
      refine ⟨fun v => ?_, fun v hm => ?_⟩
      · rw [hc, update_of_ne hf, hmem', hout]
        exact (K.fd f).conn v
      · rw [hmem'] at hm
        rw [hn, hgs, hhs, hcl, update_of_ne hf]
        exact (K.fd f).conns v hm
  · rw [hout] at h
    rw [newest_append hcs, hu]
    simp only [MsgServer.accept, setUser, update_apply]
    split_ifs with hv
    · rfl
    · exact K.newest v h
  · rw [hl] at hr
    exact K.log r (by simpa using hr)

variable {conf : MsgConf ν}

theorem close (K : s.Known) {fd : ℕ} (hone : s.OneConnection (.close fd))
    (hcl : s.closing fd = false) : (s.close conf fd).Known := by
  have B := K.base.close conf hcl
  obtain ⟨ho, hu, hn, hl, hcs, hcn, hf⟩ := close_spec (s := s) conf fd
  have hmem : ∀ f v, (f, v) ∈ (s.close conf fd).conns ↔ (f, v) ∈ s.conns ∧ f ≠ fd := by
    intro f v
    simp [hcs]
  refine ⟨B, fun {m m' v} h h' => ?_, fun {m v} h => ?_, fun f => ?_, fun v h => ?_, ?_⟩
  · rw [ho] at h h'
    exact K.inj h h'
  · rw [ho] at h
    rw [(hu v).1]
    exact K.online h
  · by_cases hffd : f = fd
    · subst hffd
      refine ⟨fun v => ?_, fun v hm => absurd rfl ((hmem f v).1 hm).2⟩
      rw [hcn, hmem]
      simp
    · obtain ⟨hg, hh, hcl'⟩ := hf f hffd
      refine ⟨fun v => ?_, fun v hm => ?_⟩
      · rw [hcn, update_of_ne hffd, hmem, (hu v).1]
        simpa [hffd] using (K.fd f).conn v
      · rw [hn, hg, hh, hcl']
        exact (K.fd f).conns v ((hmem f v).1 hm).1
  · rw [(hu v).1] at h
    rw [(hu v).2]
    split_ifs with hc
    · -- the only connection of the user is gone
      refine (newest_eq_none.2 fun f hm => ?_).symm
      obtain ⟨hm, hne⟩ := (hmem f v).1 hm
      exact hne (hone v hc f (((K.fd f).conn v).2 ⟨hm, h⟩))
    · rw [newest_filter hcs fun hm => hc (((K.fd fd).conn v).2 ⟨hm, h⟩)]
      exact K.newest v h
  · rw [hl]
    exact K.log

variable [LinearOrder ν]

theorem data (K : s.Known) (fd : ℕ) (message : Bytes) : (s.data conf fd message).Known := by
  have B := K.base.data conf fd message
  rcases data_cases conf s fd message with ⟨-, h⟩ | ⟨addr, u, idx, hg, hh, hok, h⟩ |
    ⟨addr, e, hg, hh, -, h⟩ | ⟨hg, hh, h⟩
  · rw [h]
    exact K
  · obtain ⟨n, _, _, _, hn, -, -⟩ := checkAuth_ok hok
    rw [h] at B ⊢
    exact K.accept hn hg (by simp [hh]) addr message idx B rfl rfl rfl rfl rfl rfl rfl rfl rfl
  · have F := (Frame.send (s := s) fd (pack e)).silent (Frame.closeclient fd)
    have hus : ((s.send fd (pack e)).closeclient fd).users = s.users := by
      unfold closeclient
      split <;> rfl
    have hgs : ∀ f ≠ fd, ((s.send fd (pack e)).closeclient fd).gate f = s.gate f := by
      intro f hf
      unfold closeclient
      split
      · exact update_of_ne hf _ _
      · rfl
    have hnew : ∀ v, (fd, v) ∉ s.conns := fun v hm => by
      have := ((K.fd fd).conns v hm).2.2.1
      simp [hh] at this
    rw [h] at B ⊢
    refine K.of_unknown B hnew F.userOnline hus F.nUsers (F.log.trans (List.append_nil _))
      F.connection F.conns fun f hf => ⟨hgs f hf, ?_, congrFun F.closing f⟩
    exact (update_of_ne hf _ _).trans (congrFun F.handshake f)
  · obtain ⟨es, F, hes⟩ := Frame.request conf (s := s) fd message
    rw [h]
    rcases hes with rfl | ⟨r, rfl, hc, hr⟩
    · exact K.frame F (by simp)
    · refine K.frame F fun r' hr' => ?_
      obtain rfl : r' = r := by simpa using hr'
      rw [hr]
      exact (((K.fd fd).conn _).1 hc).2

variable [Zero ν]

theorem init (conf : MsgConf ν) : (machine conf).init.Known :=
  ⟨.init conf, by simp [machine], by simp [machine], fun fd => ⟨by simp [machine], by simp [machine]⟩,
    by simp [machine, MsgServer.newest], by simp [machine]⟩

theorem step (K : s.Known) {a : Action} (hone : s.OneConnection a)
    (hst : MsgServer.step conf s a = some s') : s'.Known := by
  have B := K.base.step hst
  cases a with
  | login username secret =>
    obtain rfl := some.inj hst
    exact K.login username secret
  | logout username =>
    obtain rfl := some.inj hst
    exact K.logout hone
  | «open» fd addr =>
    obtain ⟨hg, rfl⟩ := of_guard hst
    unfold openClient at B ⊢
    split
    · exact K
    · rename_i hmax
      rw [if_neg hmax] at B
      exact K.of_unknown B (fun v hm => ((K.fd fd).conns v hm).2.1 hg) rfl rfl rfl rfl rfl rfl
        fun f hf => by simp [hf]
  | data fd message =>
    obtain rfl := some.inj hst
    exact K.data fd message
  | close fd =>
    obtain ⟨hcl, hst⟩ := ite_none_left_eq_some.1 hst
    obtain rfl := some.inj hst
    exact K.close hone (by simpa using hcl)
  | closed fd =>
    obtain ⟨hcl, rfl⟩ := of_guard hst
    have hn : ∀ v, (fd, v) ∉ s.conns := fun v hm => by
      have := ((K.fd fd).conns v hm).2.2.2
      simp [hcl] at this
    obtain ⟨ho, hu, hn', hl, hcs, hc, hh, hcl', hg⟩ := closeFd_spec (s := { s with
      closing := update s.closing fd false }) fd
    refine K.of_unknown B hn ho hu hn' hl hc hcs fun f hf => ⟨hg f hf, congrFun hh f, ?_⟩
    exact (congrFun hcl' f).trans (update_of_ne hf _ _)
  | closeFailed fd =>
    obtain ⟨hcl, rfl⟩ := of_guard hst
    have hn : ∀ v, (fd, v) ∉ s.conns := fun v hm => by
      have := ((K.fd fd).conns v hm).2.2.2
      simp [hcl] at this
    exact K.of_unknown B hn rfl rfl rfl rfl rfl rfl fun f hf => by simp [hf]
  | finish p r =>
    obtain ⟨-, rfl⟩ := of_guard hst
    obtain ⟨es, F, hes⟩ := Frame.finish conf (s := s) p r
    rcases hes with rfl | ⟨a, c, b, l, rfl⟩
    · exact K.frame F (by simp)
    · exact K.frame F (by simp)

end Known

theorem Known.oneConnection (K : s.Known) (hl : s.conns.length ≤ 1) (a : Action) :
    s.OneConnection a := by
  have hsame : ∀ {f g u v}, (f, u) ∈ s.conns → (g, v) ∈ s.conns → f = g := by
    intro f g u v hf hg
    rcases hc : s.conns with _ | ⟨c, _ | ⟨d, l⟩⟩
    · rw [hc] at hf
      cases hf
    · rw [hc, List.mem_singleton] at hf hg
      rw [← hg, Prod.mk.injEq] at hf
      exact hf.1
    · rw [hc] at hl
      simp at hl
  cases a with
  | close fd =>
    exact fun u hc f hf => hsame (((K.fd f).conn u).1 hf).1 (((K.fd fd).conn u).1 hc).1
  | logout n =>
    intro u hon f hf
    have hm := (((K.fd f).conn u).1 hf).1
    have hfd := K.newest u (K.online hon)
    rcases hn : s.newest u with _ | g
    · exact absurd hm (newest_eq_none.1 hn f)
    · rw [hfd, hn, hsame hm (mem_conns_of_newest hn)]
  | _ => trivial

section Run

variable [LinearOrder ν] [Zero ν] {conf : MsgConf ν}

theorem known_of_oneConnection (h : (machine conf).Reach OneConnection s) : s.Known :=
  h.invariant (.init conf) fun _ _ _ K hone hst => K.step hone hst

/-- In every run in which a user that loses a connection, or logs out, has no other one. -/
theorem logoutFinal_of_oneConnection (h : (machine conf).Reach OneConnection s) :
    s.LogoutFinal := by
  have K := known_of_oneConnection h
  refine ⟨fun r hr ho => ?_, fun n u hon => K.newest u (K.online hon)⟩
  rw [K.log r hr] at ho
  cases ho

theorem reach_oneConnection (h : (machine conf).Reach (fun s _ => s.conns.length ≤ 1) s) :
    (machine conf).Reach OneConnection s := by
  induction h with
  | refl => exact .init
  | tail _ hl hst ih => exact ih.step ((known_of_oneConnection ih).oneConnection hl _) hst

end Run

/-- A user that connects, sends a request, logs out, and sends another one. -/
theorem logoutFinal_of_one :
    ∃ s, (machine demoConf).Reach OneConnection s ∧ s.log.length = 3 ∧ s.LogoutFinal := by
  have hl : ((machine demoConf).run (fun s _ => s.conns.length ≤ 1) (machine demoConf).init
      (demoConnect ++ [.data 1 [104, 0, 0, 0, 7], .logout demoUser, .data 1 [104, 0, 0, 0, 8]])).map
      (·.log.length) = some 3 := by decide
  obtain ⟨s, hs, hlen⟩ := Option.map_eq_some_iff.1 hl
  have h := reach_oneConnection (Machine.reach_of_run hs)
  exact ⟨s, h, hlen, logoutFinal_of_oneConnection h⟩

/-- With two connections: the packet on the first one is executed after the logout, and the record
forgets the second one when the first is closed. -/
theorem not_logoutFinal_of_two :
    (∃ s, (machine demoConf).Reachable s ∧ ∃ r, .received r ∈ s.log ∧ r.out = true ∧
      r.executed = true) ∧
    ∃ s, (machine demoConf).Reachable s ∧ s.userOnline demoUser = some 0 ∧
      (s.users 0).fd = none ∧ s.newest 0 = some 2 := by
  constructor
  · have hl : ((machine demoConf).run (fun _ _ => True) (machine demoConf).init
        (demoReconnect ++ [.logout demoUser, .data 1 [104, 0, 0, 0, 7]])).map
        (fun s => s.log.any fun e => match e with
          | .received r => r.out && r.executed
          | _ => false) = some true := by decide
    obtain ⟨s, hs, hany⟩ := Option.map_eq_some_iff.1 hl
    obtain ⟨e, he, hr⟩ := List.any_eq_true.1 hany
    cases e with
    | received r =>
      rw [Bool.and_eq_true] at hr
      exact ⟨s, Machine.reach_of_run hs, r, he, hr⟩
    | _ => cases hr
  · have hl : ((machine demoConf).run (fun _ _ => True) (machine demoConf).init
        (demoReconnect ++ [.close 1])).map
        (fun s => (s.userOnline demoUser, (s.users 0).fd, s.newest 0)) =
          some (some 0, none, some 2) := by decide
    obtain ⟨s, hr, he⟩ := Machine.exists_reach hl
    simp only [Prod.mk.injEq] at he
    exact ⟨s, hr, he⟩

end MsgServer

end SkynetGame
