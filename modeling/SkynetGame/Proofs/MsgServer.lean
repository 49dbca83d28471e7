import SkynetGame.MsgServer
import Mathlib.Data.List.Pairwise

/-!
# Logins, handshakes and request packets

What `do_request` and the return of a handler leave alone is the same for all of their branches
(`MsgServer.Frame`), so what holds of logins and connections is about few steps: a login, an
accepted handshake, a logout, and a connection that is reported closed.
-/

namespace SkynetGame

open Function Option

namespace MsgServer

variable {ν : Type*}

section Frame

/-- What is left alone by all that a request packet or the return of a handler does, the log
apart, to which it adds `es`. -/
structure Frame (s : MsgServer ν) (es : List (MsgEvent ν)) (s' : MsgServer ν) : Prop where
  version : ∀ u, (s'.users u).version = (s.users u).version
  gen : ∀ u, (s'.users u).gen = (s.users u).gen
  out : ∀ u, (s'.users u).out = (s.users u).out
  userFd : ∀ u, (s'.users u).fd = (s.users u).fd
  nUsers : s'.nUsers = s.nUsers
  userOnline : s'.userOnline = s.userOnline
  handshake : s'.handshake = s.handshake
  connection : s'.connection = s.connection
  authed : s'.authed = s.authed
  fdGen : s'.gen = s.gen
  conns : s'.conns = s.conns
  closing : s'.closing = s.closing
  log : s'.log = s.log ++ es
  gate : ∀ fd, s'.gate fd = some true → s.gate fd = some true
  gateNone : ∀ fd, s'.gate fd = none ↔ s.gate fd = none

namespace Frame

variable {s s₁ s₂ : MsgServer ν}

theorem rfl' : Frame s [] s where
  version _ := rfl
  gen _ := rfl
  out _ := rfl
  userFd _ := rfl
  nUsers := rfl
  userOnline := rfl
  handshake := rfl
  connection := rfl
  authed := rfl
  fdGen := rfl
  conns := rfl
  closing := rfl
  log := (List.append_nil _).symm
  gate _ := id
  gateNone _ := Iff.rfl

theorem trans {es₁ es₂ : List (MsgEvent ν)} (h₁ : Frame s es₁ s₁) (h₂ : Frame s₁ es₂ s₂) :
    Frame s (es₁ ++ es₂) s₂ where
  version u := (h₂.version u).trans (h₁.version u)
  gen u := (h₂.gen u).trans (h₁.gen u)
  out u := (h₂.out u).trans (h₁.out u)
  userFd u := (h₂.userFd u).trans (h₁.userFd u)
  nUsers := h₂.nUsers.trans h₁.nUsers
  userOnline := h₂.userOnline.trans h₁.userOnline
  handshake := h₂.handshake.trans h₁.handshake
  connection := h₂.connection.trans h₁.connection
  authed := h₂.authed.trans h₁.authed
  fdGen := h₂.fdGen.trans h₁.fdGen
  conns := h₂.conns.trans h₁.conns
  closing := h₂.closing.trans h₁.closing
  log := by rw [h₂.log, h₁.log, List.append_assoc]
  gate fd := h₁.gate fd ∘ h₂.gate fd
  gateNone fd := (h₂.gateNone fd).trans (h₁.gateNone fd)

theorem silent (h₁ : Frame s [] s₁) (h₂ : Frame s₁ [] s₂) : Frame s [] s₂ := trans h₁ h₂

theorem setEntry (p : ℕ) (e : MsgEntry ν) : Frame s [] (s.setEntry p e) :=
  { rfl' with }

theorem send (fd : ℕ) (b : Bytes) : Frame s [] (s.send fd b) :=
  { rfl' with }

theorem setUser (u : ℕ) (r : MsgUser ν) (hv : r.version = (s.users u).version)
    (hg : r.gen = (s.users u).gen) (ho : r.out = (s.users u).out) (hf : r.fd = (s.users u).fd) :
    Frame s [] (s.setUser u r) :=
  { rfl' with
    version := fun v => by
      by_cases h : v = u
      · subst h
        simp [MsgServer.setUser, hv]
      · simp [MsgServer.setUser, h]
    gen := fun v => by
      by_cases h : v = u
      · subst h
        simp [MsgServer.setUser, hg]
      · simp [MsgServer.setUser, h]
    out := fun v => by
      by_cases h : v = u
      · subst h
        simp [MsgServer.setUser, ho]
      · simp [MsgServer.setUser, h]
    userFd := fun v => by
      by_cases h : v = u
      · subst h
        simp [MsgServer.setUser, hf]
      · simp [MsgServer.setUser, h] }

theorem note (e : MsgEvent ν) : Frame s [e] (s.note e) :=
  { rfl' with log := rfl }

theorem closeclient (fd : ℕ) : Frame s [] (s.closeclient fd) := by
  unfold MsgServer.closeclient
  split
  · rename_i h
    refine { rfl' with gate := fun fd' => ?_, gateNone := fun fd' => ?_ }
    · by_cases hfd : fd' = fd
      · subst hfd
        exact fun _ => h
      · simp [hfd]
    · by_cases hfd : fd' = fd
      · subst hfd
        simp [h]
      · simp [hfd]
  · exact rfl'

theorem requestFailed (fd : ℕ) : Frame s [] (s.requestFailed fd) := by
  unfold MsgServer.requestFailed
  split
  · exact closeclient fd
  · exact rfl'

variable (conf : MsgConf ν)

theorem retireResponse (u : ℕ) : Frame s [] (s.retireResponse conf u) := by
  simp only [MsgServer.retireResponse]
  split
  · refine silent ?_ (setUser u _ (by rfl) (by rfl) (by rfl) (by rfl))
    exact { rfl' with }
  · exact rfl'

theorem deliver (e : MsgEntry ν) : Frame s [] (s.deliver e) := by
  unfold MsgServer.deliver
  split
  · split
    · exact send ..
    · exact rfl'
  · exact rfl'

theorem respond (p : ℕ) : Frame s [] (s.respond conf p) :=
  silent (silent (silent (setUser _ _ (by rfl) (by rfl) (by rfl) (by rfl)) (deliver _))
    (setEntry p _)) (retireResponse conf _)

theorem execute (fd u session : ℕ) (message : Bytes) :
    Frame s [] (s.execute fd u session message) :=
  silent
    (setUser u { s.users u with
      response := (session, s.nEntries) :: (s.users u).response.filter fun e => e.1 ≠ session }
      rfl rfl rfl rfl)
    { rfl' with }

theorem resend (fd u p : ℕ) : Frame s [] (s.resend conf fd u p) := by
  unfold MsgServer.resend
  dsimp only
  split
  · exact setEntry ..
  · exact silent (setEntry ..) (respond ..)

theorem doRequest [LinearOrder ν] (fd u session : ℕ) (message : Bytes) :
    Frame s [] (s.doRequest conf fd u session message) := by
  unfold MsgServer.doRequest
  dsimp only
  split
  · exact execute ..
  · split
    · split
      · exact silent (setUser u _ (by rfl) (by rfl) (by rfl) (by rfl)) (requestFailed _)
      · exact execute ..
    · exact resend ..

theorem request [LinearOrder ν] (fd : ℕ) (message : Bytes) :
    ∃ es, Frame s (.passed fd (s.authed fd) :: es) (s.request conf fd message) ∧
      (es = [] ∨ ∃ r, es = [.received r] ∧ s.connection fd = some r.user ∧
        r.out = (s.users r.user).out) := by
  simp only [MsgServer.request]
  have h := note (s := s) (.passed fd (s.authed fd))
  split
  · rename_i u session hu _
    exact ⟨_, trans (trans h (doRequest conf fd u session message)) (note _),
      .inr ⟨_, rfl, hu, rfl⟩⟩
  · exact ⟨[], trans h (requestFailed fd), .inl rfl⟩

theorem finish (p : ℕ) (r : Result) :
    ∃ es, Frame s es (s.finish conf p r) ∧
      (es = [] ∨ ∃ a c b l, es = [.completed a c b l]) := by
  unfold MsgServer.finish
  dsimp only
  split
  · exact ⟨[], silent (setEntry ..) (requestFailed _), .inl rfl⟩
  · exact ⟨_, trans (silent (setEntry ..) (respond ..)) (note _), .inr ⟨_, _, _, _, rfl⟩⟩

end Frame

end Frame

/-- What the tables say about a connection. -/
structure FdOk (s : MsgServer ν) (fd : ℕ) : Prop where
  conn : ∀ {u}, s.connection fd = some u →
    u < s.nUsers ∧ s.authed fd = true ∧ s.gate fd ≠ none ∧ s.handshake fd = none
  closing : s.closing fd = true →
    s.gate fd ≠ none ∧ s.connection fd = none ∧ s.handshake fd = none
  handshake : s.handshake fd ≠ none → s.gate fd ≠ none
  gate : s.gate fd = some true → s.handshake fd = none → s.authed fd = true

/-- What the tables always say about each other. -/
structure Base (s : MsgServer ν) : Prop where
  online : ∀ {n u}, s.userOnline n = some u → u < s.nUsers
  fd : ∀ fd, s.FdOk fd

variable {s s' : MsgServer ν} {es : List (MsgEvent ν)}

theorem FdOk.congr {fd : ℕ} (h : s.FdOk fd) (hn : s.nUsers ≤ s'.nUsers)
    (hg : s'.gate fd = s.gate fd) (hh : s'.handshake fd = s.handshake fd)
    (hc : s'.connection fd = s.connection fd) (hcl : s'.closing fd = s.closing fd)
    (ha : s'.authed fd = s.authed fd) : s'.FdOk fd := by
  refine ⟨fun {u} hu => ?_, ?_, ?_, ?_⟩
  · rw [hc] at hu
    rw [ha, hg, hh]
    exact ⟨(h.conn hu).1.trans_le hn, (h.conn hu).2⟩
  · rw [hcl, hg, hc, hh]
    exact h.closing
  · rw [hg, hh]
    exact h.handshake
  · rw [hg, hh, ha]
    exact h.gate

namespace Base

theorem frame (B : s.Base) (F : Frame s es s') : s'.Base where
  online h := by
    rw [F.userOnline] at h
    rw [F.nUsers]
    exact B.online h
  fd fd := by
    refine ⟨fun {u} h => ?_, fun h => ?_, fun h => ?_, fun h h' => ?_⟩
    · rw [F.connection] at h
      rw [F.nUsers, F.authed, F.handshake, ne_eq, F.gateNone]
      exact (B.fd fd).conn h
    · rw [F.closing] at h
      rw [F.connection, F.handshake, ne_eq, F.gateNone]
      exact (B.fd fd).closing h
    · rw [F.handshake] at h
      rw [ne_eq, F.gateNone]
      exact (B.fd fd).handshake h
    · rw [F.handshake] at h'
      rw [F.authed]
      exact (B.fd fd).gate (F.gate _ h) h'

theorem of_others (B : s.Base) (fd : ℕ) (ho : ∀ {n u}, s'.userOnline n = some u → u < s'.nUsers)
    (hn : s.nUsers ≤ s'.nUsers)
    (h : ∀ f ≠ fd, s'.gate f = s.gate f ∧ s'.handshake f = s.handshake f ∧
      s'.connection f = s.connection f ∧ s'.closing f = s.closing f ∧ s'.authed f = s.authed f)
    (hfd : s'.FdOk fd) : s'.Base := by
  refine ⟨ho, fun f => ?_⟩
  by_cases hf : f = fd
  · exact hf ▸ hfd
  · obtain ⟨hg, hh, hc, hcl, ha⟩ := h f hf
    exact (B.fd f).congr hn hg hh hc hcl ha

theorem closeFd (B : s.Base) {fd : ℕ} (hc : s.connection fd = none) (hh : s.handshake fd = none)
    (hcl : s.closing fd = false) : (s.closeFd fd).Base := by
  unfold MsgServer.closeFd
  split
  · refine B.of_others fd B.online le_rfl (fun f hf => ?_) ⟨?_, ?_, ?_, ?_⟩
    · simp [hf]
    · simp [hc]
    · simp [hcl]
    · simp [hh]
    · simp
  · exact B

theorem login [Zero ν] (B : s.Base) (username secret : Bytes) : (s.login username secret).Base := by
  unfold MsgServer.login
  split
  · exact B
  · refine ⟨fun {n u} h => ?_, fun fd => (B.fd fd).congr (Nat.le_succ _) rfl rfl rfl rfl rfl⟩
    simp only [update_apply] at h
    split_ifs at h
    · obtain rfl := some.inj h
      exact Nat.lt_succ_self _
    · exact (B.online h).trans (Nat.lt_succ_self _)

theorem logout (B : s.Base) (username : Bytes) : (s.logout username).Base := by
  unfold MsgServer.logout
  split
  · exact B
  · rename_i u hu
    dsimp only
    have B₁ : (setUser { s with userOnline := update s.userOnline username none } u
        { s.users u with out := true }).Base := by
      refine ⟨fun {n v} h => ?_, fun fd => (B.fd fd).congr le_rfl rfl rfl rfl rfl rfl⟩
      simp only [MsgServer.setUser, update_apply] at h
      split_ifs at h
      exact B.online h
    split
    · exact B₁
    · rename_i fd _
      have B₂ := B₁.frame (Frame.closeclient fd)
      refine B₂.of_others fd B₂.online le_rfl (fun f hf => by simp [hf]) ⟨?_, ?_, ?_, ?_⟩
      · simp
      · intro h
        have := (B₂.fd fd).closing h
        simp only [update_self]
        exact ⟨this.1, trivial, this.2.2⟩
      · exact (B₂.fd fd).handshake
      · exact (B₂.fd fd).gate

variable (conf : MsgConf ν)

theorem openClient (B : s.Base) {fd : ℕ} (hg : s.gate fd = none) (addr : Bytes) :
    (s.openClient conf fd addr).Base := by
  unfold MsgServer.openClient
  split
  · exact B
  · have hc : s.connection fd = none := by
      rw [eq_none_iff_forall_ne_some]
      exact fun u hu => ((B.fd fd).conn hu).2.2.1 hg
    have hcl : s.closing fd = false := by
      rw [← Bool.not_eq_true]
      exact fun h => ((B.fd fd).closing h).1 hg
    refine B.of_others fd B.online le_rfl (fun f hf => by simp [hf]) ⟨?_, ?_, ?_, ?_⟩
    · simp [hc]
    · simp [hcl]
    · simp
    · simp

theorem close (B : s.Base) {fd : ℕ} (hcl : s.closing fd = false) : (s.close conf fd).Base := by
  unfold MsgServer.close
  dsimp only
  split
  · rename_i hc
    replace hc : s.connection fd = none := hc
    unfold MsgServer.closeFd
    split
    · exact B.of_others fd B.online le_rfl (fun f hf => by simp [hf])
        ⟨by simp [hc], by simp [hcl], by simp, by simp⟩
    · rename_i hg
      replace hg : s.gate fd = none := by simpa using hg
      exact B.of_others fd B.online le_rfl (fun f hf => by simp [hf])
        ⟨by simp [hc], by simp [hcl], by simp, by simp [hg]⟩
  · rename_i u hc
    replace hc : s.connection fd = some u := hc
    obtain ⟨-, ha, hg, -⟩ := (B.fd fd).conn hc
    split
    · exact B.of_others fd B.online le_rfl (fun f hf => by simp [setUser, hf])
        ⟨by simp, by simp [setUser, hg], by simp [setUser], by simp [setUser, ha]⟩
    · unfold MsgServer.closeFd
      rw [if_pos (by simpa [setUser, isSome_iff_ne_none] using hg)]
      exact B.of_others fd B.online le_rfl (fun f hf => by simp [setUser, hf])
        ⟨by simp, by simp [setUser, hcl], by simp [setUser], by simp⟩

theorem accept (B : s.Base) {fd u : ℕ} (hu : u < s.nUsers) (hg : s.gate fd = some true)
    (hh : s.handshake fd ≠ none) (addr message : Bytes) (idx : ν) :
    { s.accept fd addr message u idx with
      handshake := update s.handshake fd none }.Base := by
  have hcl : s.closing fd = false := by
    rw [← Bool.not_eq_true]
    exact fun h => hh ((B.fd fd).closing h).2.2
  refine B.of_others fd B.online le_rfl (fun f hf => by simp [MsgServer.accept, setUser, hf])
    ⟨?_, ?_, ?_, ?_⟩
  · simp [MsgServer.accept, setUser, hu, hg]
  · simp [MsgServer.accept, setUser, hcl]
  · simp
  · simp [MsgServer.accept, setUser]

theorem reject (B : s.Base) {fd : ℕ} (hg : s.gate fd = some true) (hh : s.handshake fd ≠ none)
    (b : Bytes) :
    { (s.send fd b).closeclient fd with
      handshake := update ((s.send fd b).closeclient fd).handshake fd none }.Base := by
  have hc : s.connection fd = none := by
    rw [eq_none_iff_forall_ne_some]
    exact fun u hu => hh ((B.fd fd).conn hu).2.2.2
  have hcl : s.closing fd = false := by
    rw [← Bool.not_eq_true]
    exact fun h => hh ((B.fd fd).closing h).2.2
  have hg' : (s.send fd b).gate fd = some true := hg
  unfold MsgServer.closeclient
  rw [if_pos hg']
  refine B.of_others fd B.online le_rfl (fun f hf => by simp [MsgServer.send, hf]) ⟨?_, ?_, ?_, ?_⟩
  · simp [MsgServer.send, hc]
  · simp [MsgServer.send, hcl]
  · simp
  · simp

theorem handled (B : s.Base) {fd : ℕ} (hcl : s.closing fd = true) :
    { s with closing := update s.closing fd false }.Base := by
  obtain ⟨hg, hc, hh⟩ := (B.fd fd).closing hcl
  exact B.of_others fd B.online le_rfl (fun f hf => by simp [hf])
    ⟨by simp [hc], by simp, fun _ => hg, (B.fd fd).gate⟩

end Base

theorem checkAuth_ok [LinearOrder ν] {conf : MsgConf ν} {message : Bytes} {u : ℕ} {idx : ν}
    (h : s.checkAuth conf message = .ok (u, idx)) :
    ∃ username index hmac, fields message = some (some (username, index, hmac)) ∧
      s.userOnline username = some u ∧ conf.tonumber index = some idx ∧
      (s.users u).version < idx := by
  unfold checkAuth at h
  split at h
  · cases h
  · cases h
  · rename_i username index hmac hf
    split at h
    · cases h
    · rename_i v hv
      split at h
      · rename_i i hm hi _
        split_ifs at h with hle
        split at h
        · cases h
        · split_ifs at h
          simp only [Except.ok.injEq, Prod.mk.injEq] at h
          obtain ⟨rfl, rfl⟩ := h
          exact ⟨username, index, hmac, hf, hv, hi, lt_of_not_ge hle⟩
      · cases h

/-- What the steps that are about logins and connections alone leave alone. -/
structure Quiet (s s' : MsgServer ν) : Prop where
  log : s'.log = s.log
  nUsers : s.nUsers ≤ s'.nUsers
  version : ∀ u < s.nUsers, (s'.users u).version = (s.users u).version
  gen : ∀ u < s.nUsers, (s'.users u).gen = (s.users u).gen
  response : ∀ u, (s'.users u).response = (s.users u).response ∨ (s'.users u).response = []
  entries : s'.entries = s.entries
  nEntries : s'.nEntries = s.nEntries

namespace Quiet

variable {s₁ s₂ : MsgServer ν}

theorem trans (h₁ : Quiet s s₁) (h₂ : Quiet s₁ s₂) : Quiet s s₂ where
  log := h₂.log.trans h₁.log
  nUsers := h₁.nUsers.trans h₂.nUsers
  version u hu := (h₂.version u (hu.trans_le h₁.nUsers)).trans (h₁.version u hu)
  gen u hu := (h₂.gen u (hu.trans_le h₁.nUsers)).trans (h₁.gen u hu)
  response u := by
    rcases h₂.response u with h | h
    · rw [h]
      exact h₁.response u
    · exact .inr h
  entries := h₂.entries.trans h₁.entries
  nEntries := h₂.nEntries.trans h₁.nEntries

theorem of_tables (hl : s'.log = s.log) (hn : s'.nUsers = s.nUsers) (hu : s'.users = s.users)
    (he : s'.entries = s.entries) (hne : s'.nEntries = s.nEntries) : Quiet s s' where
  log := hl
  nUsers := hn.ge
  version u _ := by rw [hu]
  gen u _ := by rw [hu]
  response u := .inl (by rw [hu])
  entries := he
  nEntries := hne

theorem setUser (u : ℕ) (r : MsgUser ν) (hv : r.version = (s.users u).version)
    (hg : r.gen = (s.users u).gen) (hr : r.response = (s.users u).response) :
    Quiet s (s.setUser u r) where
  log := rfl
  nUsers := le_rfl
  version v _ := by
    by_cases h : v = u
    · subst h
      simp [MsgServer.setUser, hv]
    · simp [MsgServer.setUser, h]
  gen v _ := by
    by_cases h : v = u
    · subst h
      simp [MsgServer.setUser, hg]
    · simp [MsgServer.setUser, h]
  response v := by
    by_cases h : v = u
    · subst h
      simp [MsgServer.setUser, hr]
    · simp [MsgServer.setUser, h]
  entries := rfl
  nEntries := rfl

theorem closeclient (fd : ℕ) : Quiet s (s.closeclient fd) := by
  unfold MsgServer.closeclient
  split <;> exact of_tables rfl rfl rfl rfl rfl

theorem closeFd (fd : ℕ) : Quiet s (s.closeFd fd) := by
  unfold MsgServer.closeFd
  split <;> exact of_tables rfl rfl rfl rfl rfl

theorem login [Zero ν] (username secret : Bytes) : Quiet s (s.login username secret) := by
  unfold MsgServer.login
  split
  · exact of_tables rfl rfl rfl rfl rfl
  · refine ⟨rfl, Nat.le_succ _, fun u hu => ?_, fun u hu => ?_, fun u => ?_, rfl, rfl⟩
    · simp [hu.ne]
    · simp [hu.ne]
    · by_cases h : u = s.nUsers
      · simp [h]
      · simp [h]

theorem logout (username : Bytes) : Quiet s (s.logout username) := by
  unfold MsgServer.logout
  split
  · exact of_tables rfl rfl rfl rfl rfl
  · rename_i u _
    have h₀ : Quiet s { s with userOnline := update s.userOnline username none } :=
      of_tables rfl rfl rfl rfl rfl
    have h₁ := h₀.trans (setUser u { s.users u with out := true } rfl rfl rfl)
    dsimp only
    split
    · exact h₁
    · rename_i fd _
      refine (h₁.trans (closeclient fd)).trans ?_
      exact of_tables rfl rfl rfl rfl rfl

variable (conf : MsgConf ν)

theorem openClient (fd : ℕ) (addr : Bytes) : Quiet s (s.openClient conf fd addr) := by
  unfold MsgServer.openClient
  split <;> exact of_tables rfl rfl rfl rfl rfl

theorem close (fd : ℕ) : Quiet s (s.close conf fd) := by
  have h₀ : Quiet s { s with
      handshake := update s.handshake fd none
      conns := s.conns.filter fun c => c.1 ≠ fd } := of_tables rfl rfl rfl rfl rfl
  unfold MsgServer.close
  dsimp only
  split
  · exact h₀.trans (closeFd fd)
  · rename_i u _
    have h₁ := h₀.trans (setUser u { s.users u with fd := none } rfl rfl rfl)
    split
    · refine h₁.trans ?_
      exact of_tables rfl rfl rfl rfl rfl
    · refine trans (h₁.trans ?_) (closeFd fd)
      exact of_tables rfl rfl rfl rfl rfl

end Quiet

variable [LinearOrder ν]

theorem data_cases (conf : MsgConf ν) (s : MsgServer ν) (fd : ℕ) (message : Bytes) :
    (s.gate fd ≠ some true ∧ s.data conf fd message = s) ∨
    (∃ addr u idx, s.gate fd = some true ∧ s.handshake fd = some addr ∧
      s.checkAuth conf message = .ok (u, idx) ∧
      s.data conf fd message =
        { (s.accept fd addr message u idx).send fd (pack (Bytes.ascii "200 OK")) with
          handshake := update s.handshake fd none }) ∨
    (∃ addr e, s.gate fd = some true ∧ s.handshake fd = some addr ∧
      s.checkAuth conf message = .error e ∧
      s.data conf fd message =
        { (s.send fd (pack e)).closeclient fd with
          handshake := update ((s.send fd (pack e)).closeclient fd).handshake fd none }) ∨
    (s.gate fd = some true ∧ s.handshake fd = none ∧
      s.data conf fd message = s.request conf fd message) := by
  unfold data
  split
  · rename_i hg
    split
    · rename_i addr hh
      rcases hc : s.checkAuth conf message with e | ⟨u, idx⟩
      · refine .inr (.inr (.inl ⟨addr, e, hg, hh, rfl, ?_⟩))
        simp only [auth, hc]
      · refine .inr (.inl ⟨addr, u, idx, hg, hh, rfl, ?_⟩)
        simp only [auth, hc]
        rfl
    · rename_i hh
      exact .inr (.inr (.inr ⟨hg, hh, rfl⟩))
  · rename_i hg
    exact .inl ⟨hg, rfl⟩

theorem Base.data (conf : MsgConf ν) (B : s.Base) (fd : ℕ) (message : Bytes) :
    (s.data conf fd message).Base := by
  rcases data_cases conf s fd message with ⟨-, h⟩ | ⟨addr, u, idx, hg, hh, hok, h⟩ |
    ⟨addr, e, hg, hh, -, h⟩ | ⟨-, -, h⟩
  · rw [h]
    exact B
  · obtain ⟨n, _, _, _, hn, -, -⟩ := checkAuth_ok hok
    have B' := B.accept (B.online hn) hg (by simp [hh]) addr message idx
    rw [h]
    exact B'.frame (Frame.send fd (pack (Bytes.ascii "200 OK")))
  · rw [h]
    exact B.reject hg (by simp [hh]) _
  · obtain ⟨es, F, -⟩ := Frame.request conf (s := s) fd message
    rw [h]
    exact B.frame F

variable [Zero ν]

theorem Base.init (conf : MsgConf ν) : (machine conf).init.Base :=
  ⟨by simp [machine], fun fd => ⟨by simp [machine], by simp [machine], by simp [machine],
    by simp [machine]⟩⟩

theorem Base.step {conf : MsgConf ν} (B : s.Base) {a : Action}
    (hst : MsgServer.step conf s a = some s') : s'.Base := by
  cases a with
  | login username secret =>
    obtain rfl := some.inj hst
    exact B.login username secret
  | logout username =>
    obtain rfl := some.inj hst
    exact B.logout username
  | «open» fd addr =>
    obtain ⟨hg, rfl⟩ := of_guard hst
    exact B.openClient conf hg addr
  | data fd message =>
    obtain rfl := some.inj hst
    exact B.data conf fd message
  | close fd =>
    obtain ⟨hcl, hst⟩ := ite_none_left_eq_some.1 hst
    obtain rfl := some.inj hst
    exact B.close conf (by simpa using hcl)
  | closed fd =>
    obtain ⟨hcl, rfl⟩ := of_guard hst
    obtain ⟨-, hc, hh⟩ := (B.fd fd).closing hcl
    exact (B.handled hcl).closeFd hc hh (by simp)
  | closeFailed fd =>
    obtain ⟨hcl, rfl⟩ := of_guard hst
    exact B.handled hcl
  | finish p r =>
    obtain ⟨-, rfl⟩ := of_guard hst
    obtain ⟨es, F, -⟩ := Frame.finish conf (s := s) p r
    exact B.frame F

/-- A step takes a packet, or the return of a handler, or is quiet. -/
theorem step_cases {conf : MsgConf ν} {a : Action} (hst : MsgServer.step conf s a = some s') :
    (∃ fd message, a = .data fd message ∧ s' = s.data conf fd message) ∨
    (∃ p r, a = .finish p r ∧ p < s.nEntries ∧ (s.entries p).running = true ∧
      s' = s.finish conf p r) ∨
    Quiet s s' := by
  cases a with
  | login username secret =>
    obtain rfl := some.inj hst
    exact .inr (.inr (Quiet.login username secret))
  | logout username =>
    obtain rfl := some.inj hst
    exact .inr (.inr (Quiet.logout username))
  | «open» fd addr =>
    obtain ⟨-, rfl⟩ := of_guard hst
    exact .inr (.inr (Quiet.openClient conf fd addr))
  | data fd message => exact .inl ⟨fd, message, rfl, (some.inj hst).symm⟩
  | close fd =>
    obtain ⟨-, hst⟩ := ite_none_left_eq_some.1 hst
    obtain rfl := some.inj hst
    exact .inr (.inr (Quiet.close conf fd))
  | closed fd =>
    obtain ⟨-, rfl⟩ := of_guard hst
    have h₀ : Quiet s { s with closing := update s.closing fd false } :=
      Quiet.of_tables rfl rfl rfl rfl rfl
    exact .inr (.inr (h₀.trans (Quiet.closeFd fd)))
  | closeFailed fd =>
    obtain ⟨-, rfl⟩ := of_guard hst
    exact .inr (.inr (Quiet.of_tables rfl rfl rfl rfl rfl))
  | finish p r =>
    simp only [MsgServer.step] at hst
    split_ifs at hst with h
    exact .inr (.inl ⟨p, r, rfl, h.1, h.2, (some.inj hst).symm⟩)

section Demo

/-- A configuration as it behaves on the first two handshakes of the user below. -/
def demoConf : MsgConf ℕ where
  expiredNumber := 128
  maxclient := 1024
  disconnectHandler := false
  tonumber b := if b = Bytes.ascii "1" then some 1 else if b = Bytes.ascii "2" then some 2 else none
  b64decode b :=
    if b = Bytes.ascii "HoXQnrdfhcw=" then some [30, 133, 208, 158, 183, 95, 133, 204]
    else if b = Bytes.ascii "dYfBRW95H9w=" then some [117, 135, 193, 69, 111, 121, 31, 220]
    else none
  hmacHash secret text :=
    if secret ≠ Bytes.ascii "01234567" then none
    else if text = Bytes.ascii "dQ==@cw==#MQ==:1" then some [30, 133, 208, 158, 183, 95, 133, 204]
    else if text = Bytes.ascii "dQ==@cw==#MQ==:2" then some [117, 135, 193, 69, 111, 121, 31, 220]
    else some []

def demoUser : Bytes := Bytes.ascii "dQ==@cw==#MQ=="

def demoHandshake₁ : Bytes := Bytes.ascii "dQ==@cw==#MQ==:1:HoXQnrdfhcw="

def demoHandshake₂ : Bytes := Bytes.ascii "dQ==@cw==#MQ==:2:dYfBRW95H9w="

def demoConnect : List Action :=
  [.login demoUser (Bytes.ascii "01234567"), .open 1 (Bytes.ascii "a"), .data 1 demoHandshake₁]

/-- And connects once more, the first connection being open. -/
def demoReconnect : List Action :=
  demoConnect ++ [.open 2 (Bytes.ascii "b"), .data 2 demoHandshake₂]

end Demo

end MsgServer

end SkynetGame
