import SkynetGame.Proofs.MsgServer

/-!
# Requests across reconnects

An entry carries the version of its user at the time it was last resent or answered, so a resend
is told from a reuse of its session exactly as long as another handshake was accepted since
(`MsgServer.EntryOk`). Until its handler returns, the entry knows the connection that asked last.
-/

namespace SkynetGame

open Function List

namespace MsgServer

variable {ν : Type*}

/-- A resend on a newer connection is not executed and gets the response in the cache, if it is
there; a response that gets ready goes to the connection that asked last, if it is open. -/
def EventOk : MsgEvent ν → Prop
  | .received r => ∀ f, r.first = some f → f < r.gen →
      r.executed = false ∧ (∀ b, r.cached = some b → r.sent = [(r.fd, b)]) ∧
        (r.cached = none → r.sent = [])
  | .completed asker connected b sent => connected = true → sent = [(asker, b)]
  | _ => True

def AtMostOnce (s : MsgServer ν) : Prop := ∀ e ∈ s.log, EventOk e

/-- A packet whose session has an entry that was first received on an older connection comes in
only after another handshake was accepted since the entry was last resent or answered. -/
def Fresh (s : MsgServer ν) : Action → Prop
  | .data fd message =>
    ∀ u ∈ s.connection fd, ∀ session ∈ sessionOf message,
      ∀ p ∈ (s.users u).response.lookup session, (s.entries p).first < s.gen fd →
      ∀ k ∈ (s.entries p).touched, k < (s.users u).gen
  | _ => True

instance (s : MsgServer ν) (a : Action) : Decidable (s.Fresh a) := by
  unfold Fresh
  split <;> infer_instance

variable {s s' : MsgServer ν} {es : List (MsgEvent ν)} {e : MsgEntry ν}

theorem mem_of_lookup {k p : ℕ} {l : List (ℕ × ℕ)} (h : l.lookup k = some p) : (k, p) ∈ l := by
  obtain ⟨l₁, l₂, rfl, -⟩ := lookup_eq_some_iff.1 h
  simp

section Retire

variable (conf : MsgConf ν)

theorem retireOne_spec (st : List (ℕ × ℕ) × (ℕ → MsgEntry ν) × ℕ) (k : ℕ × ℕ) :
    (∀ c ∈ (retireOne conf st k).1, c ∈ st.1) ∧
      ∀ q, ∃ i, (retireOne conf st k).2.1 q = { st.2.1 q with index := i } := by
  unfold retireOne
  dsimp only
  split
  · split
    · exact ⟨fun c hc => (mem_filter.1 hc).1, fun q => ⟨_, rfl⟩⟩
    · refine ⟨fun c hc => hc, fun q => ?_⟩
      by_cases h : q = k.2
      · subst h
        exact ⟨_, update_self ..⟩
      · exact ⟨_, update_of_ne h _ _⟩
  · exact ⟨fun c hc => hc, fun q => ⟨_, rfl⟩⟩

theorem retire_foldl_spec : ∀ (l : List (ℕ × ℕ)) (st : List (ℕ × ℕ) × (ℕ → MsgEntry ν) × ℕ),
    (∀ c ∈ (l.foldl (retireOne conf) st).1, c ∈ st.1) ∧
      ∀ q, ∃ i, (l.foldl (retireOne conf) st).2.1 q = { st.2.1 q with index := i }
  | [], st => ⟨fun _ hc => hc, fun _ => ⟨_, rfl⟩⟩
  | k :: l, st => by
    obtain ⟨h₁, h₂⟩ := retireOne_spec conf st k
    obtain ⟨h₃, h₄⟩ := retire_foldl_spec l (retireOne conf st k)
    refine ⟨fun c hc => h₁ c (h₃ c hc), fun q => ?_⟩
    obtain ⟨i, hi⟩ := h₂ q
    obtain ⟨j, hj⟩ := h₄ q
    exact ⟨j, by rw [foldl_cons, hj, hi]⟩

theorem retireResponse_spec (u : ℕ) :
    (s.retireResponse conf u).sent = s.sent ∧ (s.retireResponse conf u).nEntries = s.nEntries ∧
      (∀ v, ∀ c ∈ ((s.retireResponse conf u).users v).response, c ∈ (s.users v).response) ∧
      ∀ q, ∃ i, (s.retireResponse conf u).entries q = { s.entries q with index := i } := by
  unfold retireResponse
  dsimp only
  split_ifs
  · obtain ⟨h₁, h₂⟩ := retire_foldl_spec conf (s.users u).response
      ((s.users u).response, s.entries, 0)
    refine ⟨rfl, rfl, fun v => ?_, h₂⟩
    by_cases hv : v = u
    · subst hv
      simpa [setUser] using h₁
    · simp [setUser, hv]
  · exact ⟨rfl, rfl, fun _ _ hc => hc, fun _ => ⟨_, rfl⟩⟩

theorem respond_spec (p : ℕ) :
    (s.respond conf p).nEntries = s.nEntries ∧
      (∀ v, ∀ c ∈ ((s.respond conf p).users v).response, c ∈ (s.users v).response) ∧
      (∀ q, ∃ i, (s.respond conf p).entries q =
        if q = p then { s.entries p with index := i, returnFd := none }
        else { s.entries q with index := i }) ∧
      ∀ fd b, (s.entries p).returnFd = some fd → (s.entries p).response = some b →
        (s.connection fd).isSome → (s.respond conf p).sent = s.sent ++ [(fd, b)] := by
  have hu : ∀ v, ((s.setUser (s.entries p).user { s.users (s.entries p).user with
      index := (s.users (s.entries p).user).index + 1 }).users v).response =
      (s.users v).response := by
    intro v
    by_cases hv : v = (s.entries p).user
    · subst hv
      simp [setUser]
    · simp [setUser, hv]
  have hd : ∀ (s₁ : MsgServer ν) (e : MsgEntry ν), (s₁.deliver e).nEntries = s₁.nEntries ∧
      (s₁.deliver e).users = s₁.users ∧ (s₁.deliver e).entries = s₁.entries := by
    intro s₁ e
    unfold deliver
    split
    · split <;> exact ⟨rfl, rfl, rfl⟩
    · exact ⟨rfl, rfl, rfl⟩
  unfold respond
  dsimp only
  obtain ⟨hsent, hn, hc, he⟩ := retireResponse_spec (s := (deliver (s.setUser (s.entries p).user
    { s.users (s.entries p).user with index := (s.users (s.entries p).user).index + 1 })
    (s.entries p)).setEntry p { s.entries p with returnFd := none }) conf (s.entries p).user
  refine ⟨hn.trans (hd _ _).1, fun v c hm => ?_, fun q => ?_, fun fd b hfd hb hcn => ?_⟩
  · rw [← hu v, ← (hd _ (s.entries p)).2.1]
    exact hc v c hm
  · obtain ⟨i, hi⟩ := he q
    refine ⟨i, hi.trans ?_⟩
    by_cases hq : q = p
    · subst hq
      simp [setEntry]
    · simp only [setEntry, update_of_ne hq, if_neg hq, (hd _ _).2.2]
      rfl
  · rw [hsent]
    simp only [setEntry, deliver, hfd, hb]
    rw [if_pos (show (((s.setUser _ _).connection fd).isSome) from hcn)]
    rfl

end Retire

variable [LinearOrder ν]

/-- What an entry knows: the version and the generation of its user at the time it was last resent
or answered, and, until its handler returns, who asked last. -/
structure EntryOk (s : MsgServer ν) (e : MsgEntry ν) : Prop where
  user : e.user < s.nUsers
  untouched : e.touched = none → e.version = none
  touched : ∀ k, e.touched = some k → ∃ v, e.version = some v ∧ k ≤ (s.users e.user).gen ∧
    v ≤ (s.users e.user).version ∧ (k < (s.users e.user).gen → v < (s.users e.user).version)
  running : e.running = true → e.response = none ∧ e.returnFd = some e.asker

/-- What every step keeps that meets `Fresh`. -/
structure Once (s : MsgServer ν) : Prop where
  base : s.Base
  cache : ∀ u, ∀ c ∈ (s.users u).response, c.2 < s.nEntries ∧ (s.entries c.2).user = u
  entry : ∀ p < s.nEntries, s.EntryOk (s.entries p)
  log : s.AtMostOnce

namespace EntryOk

theorem mono (h : s.EntryOk e) (hn : s.nUsers ≤ s'.nUsers)
    (hu : ∀ u < s.nUsers, (s'.users u).gen = (s.users u).gen ∧
        (s'.users u).version = (s.users u).version ∨
      (s.users u).gen < (s'.users u).gen ∧ (s.users u).version < (s'.users u).version) :
    s'.EntryOk e where
  user := h.user.trans_le hn
  untouched := h.untouched
  touched k hk := by
    obtain ⟨v, hv, hkg, hvv, hlt⟩ := h.touched k hk
    refine ⟨v, hv, ?_⟩
    rcases hu _ h.user with ⟨hg, hver⟩ | ⟨hg, hver⟩
    · rw [hg, hver]
      exact ⟨hkg, hvv, hlt⟩
    · exact ⟨hkg.trans hg.le, hvv.trans hver.le, fun _ => hvv.trans_lt hver⟩
  running := h.running

theorem index (h : s.EntryOk e) (i : ℕ) : s.EntryOk { e with index := i } :=
  ⟨h.user, h.untouched, h.touched, h.running⟩

theorem done (h : s.EntryOk e) (hr : e.running = false) (i : ℕ) :
    s.EntryOk { e with index := i, returnFd := none } :=
  ⟨h.user, h.untouched, h.touched, fun h' => by rw [hr] at h'; cases h'⟩

theorem stamp (h : s.EntryOk e) {e' : MsgEntry ν} (hu : e'.user = e.user)
    (hv : e'.version = some (s.users e.user).version)
    (ht : e'.touched = some (s.users e.user).gen)
    (hr : e'.running = true → e'.response = none ∧ e'.returnFd = some e'.asker) : s.EntryOk e' where
  user := hu ▸ h.user
  untouched h' := by
    rw [ht] at h'
    cases h'
  touched k hk := by
    rw [ht, Option.some.injEq] at hk
    subst hk
    rw [hu]
    exact ⟨_, hv, le_rfl, le_rfl, fun h => absurd h (lt_irrefl _)⟩
  running := hr

end EntryOk

namespace Once

theorem quiet (O : s.Once) (B : s'.Base) (Q : Quiet s s') : s'.Once where
  base := B
  cache u c hc := by
    rw [Q.nEntries, Q.entries]
    rcases Q.response u with h | h
    · rw [h] at hc
      exact O.cache u c hc
    · rw [h] at hc
      cases hc
  entry p hp := by
    rw [Q.nEntries] at hp
    rw [Q.entries]
    exact (O.entry p hp).mono Q.nUsers fun u hu => .inl ⟨Q.gen u hu, Q.version u hu⟩
  log := by
    rw [AtMostOnce, Q.log]
    exact O.log

theorem of_entries (O : s.Once) (F : Frame s es s') (hn : s.nEntries ≤ s'.nEntries)
    (hc : ∀ u, ∀ c ∈ (s'.users u).response,
      c ∈ (s.users u).response ∨ (c.2 < s'.nEntries ∧ (s'.entries c.2).user = u))
    (hu : ∀ p < s.nEntries, (s'.entries p).user = (s.entries p).user)
    (he : ∀ p < s'.nEntries, s.EntryOk (s'.entries p)) (hes : ∀ e ∈ es, EventOk e) : s'.Once where
  base := O.base.frame F
  cache u c hm := by
    rcases hc u c hm with hm | hm
    · obtain ⟨hlt, hus⟩ := O.cache u c hm
      exact ⟨hlt.trans_le hn, (hu _ hlt).trans hus⟩
    · exact hm
  entry p hp := (he p hp).mono F.nUsers.ge fun u _ => .inl ⟨F.gen u, F.version u⟩
  log e hm := by
    rw [F.log, mem_append] at hm
    exact hm.elim (O.log e) (hes e)

theorem note (O : s.Once) {e : MsgEvent ν} (he : EventOk e) : (s.note e).Once :=
  O.of_entries (Frame.note e) le_rfl (fun _ _ hc => .inl hc) (fun _ _ => rfl) O.entry
    (by simpa using he)

theorem requestFailed (O : s.Once) (fd : ℕ) : (s.requestFailed fd).Once := by
  refine O.quiet (O.base.frame (Frame.requestFailed fd)) ?_
  unfold MsgServer.requestFailed
  split
  · exact Quiet.closeclient fd
  · exact Quiet.of_tables rfl rfl rfl rfl rfl

theorem setEntry (O : s.Once) {p : ℕ} (hu : e.user = (s.entries p).user) (he : s.EntryOk e) :
    (s.setEntry p e).Once := by
  have hent : ∀ q, (s.setEntry p e).entries q = if q = p then e else s.entries q := fun q =>
    update_apply ..
  refine O.of_entries (Frame.setEntry p e) le_rfl (fun _ _ hc => .inl hc) (fun q _ => ?_)
    (fun q hq => ?_) (by simp)
  · rw [hent]
    split_ifs with h
    · rw [h, hu]
    · rfl
  · rw [hent]
    split_ifs
    · exact he
    · exact O.entry q hq

theorem respond (O : s.Once) (conf : MsgConf ν) {p : ℕ} (hr : (s.entries p).running = false) :
    (s.respond conf p).Once := by
  obtain ⟨hn, hc, he, -⟩ := respond_spec (s := s) conf p
  refine O.of_entries (Frame.respond conf p) hn.ge (fun u c hm => .inl (hc u c hm))
    (fun q _ => ?_) (fun q hq => ?_) (by simp)
  · obtain ⟨i, hi⟩ := he q
    rw [hi]
    split_ifs with h
    · rw [h]
    · rfl
  · obtain ⟨i, hi⟩ := he q
    rw [hn] at hq
    rw [hi]
    split_ifs with h
    · subst h
      exact (O.entry q hq).done hr i
    · exact (O.entry q hq).index i

theorem execute (O : s.Once) {u : ℕ} (hu : u < s.nUsers) (fd session : ℕ) (message : Bytes) :
    (s.execute fd u session message).Once := by
  have hent : ∀ q < s.nEntries, (s.execute fd u session message).entries q = s.entries q :=
    fun q hq => update_of_ne hq.ne _ _
  have hnew : (s.execute fd u session message).entries s.nEntries =
      ⟨some fd, none, none, 0, u, session, fd, message.take (message.length - 4), true,
        s.gen fd, fd, none⟩ := update_self ..
  have hn : (s.execute fd u session message).nEntries = s.nEntries + 1 := rfl
  refine O.of_entries (Frame.execute fd u session message) (Nat.le_succ _) (fun v c hm => ?_)
    (fun q hq => by rw [hent q hq]) (fun q hq => ?_) (by simp)
  · by_cases hv : v = u
    · subst hv
      have hm' : c ∈ (session, s.nEntries) ::
          (s.users v).response.filter fun e => e.1 ≠ session := by
        simpa [MsgServer.execute, setUser, MsgServer.setEntry] using hm
      rcases mem_cons.1 hm' with rfl | hm'
      · exact .inr ⟨Nat.lt_succ_self _, by rw [hnew]⟩
      · exact .inl (mem_filter.1 hm').1
    · left
      simpa [MsgServer.execute, setUser, MsgServer.setEntry, hv] using hm
  · rw [hn] at hq
    rcases Nat.lt_succ_iff_lt_or_eq.1 hq with hq | rfl
    · rw [hent q hq]
      exact O.entry q hq
    · rw [hnew]
      exact ⟨hu, fun _ => rfl, by simp, fun _ => ⟨rfl, rfl⟩⟩

theorem resend (O : s.Once) (conf : MsgConf ν) {fd u p : ℕ} (hp : p < s.nEntries)
    (hu : (s.entries p).user = u) (hfd : s.connection fd = some u) :
    (s.resend conf fd u p).Once ∧ (s.resend conf fd u p).nEntries = s.nEntries ∧
      ((s.entries p).response = none → (s.resend conf fd u p).sent = s.sent) ∧
      ∀ b, (s.entries p).response = some b →
        (s.resend conf fd u p).sent = s.sent ++ [(fd, b)] := by
  have hrun := (O.entry p hp).running
  let e' : MsgEntry ν := { s.entries p with
    returnFd := some fd
    version := some (s.users u).version
    index := (s.users u).index
    asker := fd
    touched := some (s.users u).gen }
  have O' : (s.setEntry p e').Once := by
    refine O.setEntry rfl ((O.entry p hp).stamp rfl ?_ ?_ fun hr => ⟨(hrun hr).1, rfl⟩)
    · rw [hu]
    · rw [hu]
  have hent : (s.setEntry p e').entries p = e' := update_self ..
  have hres : s.resend conf fd u p = if (s.entries p).response.isNone then s.setEntry p e'
      else (s.setEntry p e').respond conf p := rfl
  rw [hres]
  by_cases hnone : (s.entries p).response = none
  · rw [if_pos (by rw [hnone]; rfl)]
    exact ⟨O', rfl, fun _ => rfl, fun b h => by rw [hnone] at h; cases h⟩
  · have hr : ((s.setEntry p e').entries p).running = false := by
      rw [hent, ← Bool.not_eq_true]
      exact fun hr => hnone (hrun hr).1
    obtain ⟨hn, -, -, hsent⟩ := respond_spec (s := s.setEntry p e') conf p
    rw [hent] at hsent
    have hopen : ((s.setEntry p e').connection fd).isSome = true := by
      change (s.connection fd).isSome = true
      rw [hfd]
      rfl
    rw [if_neg (by rwa [Option.isNone_iff_eq_none])]
    exact ⟨O'.respond conf hr, hn, fun h => absurd h hnone, fun b hb => hsent fd b rfl hb hopen⟩

theorem doRequest (O : s.Once) (conf : MsgConf ν) {fd u : ℕ} (hfd : s.connection fd = some u)
    (session : ℕ) (message : Bytes) : (s.doRequest conf fd u session message).Once := by
  have hu : u < s.nUsers := ((O.base.fd fd).conn hfd).1
  unfold MsgServer.doRequest
  dsimp only
  split
  · exact O.execute hu ..
  · rename_i p hl
    obtain ⟨hp, hus⟩ := O.cache u _ (mem_of_lookup hl)
    split
    · split
      · refine requestFailed ?_ fd
        have hsub : ∀ v, ∀ c ∈ ((s.setUser u { s.users u with
            response := (s.users u).response.filter fun e => e.1 ≠ session }).users v).response,
            c ∈ (s.users v).response := by
          intro v c hm
          by_cases hv : v = u
          · subst hv
            simp only [setUser, update_self] at hm
            exact (mem_filter.1 hm).1
          · simpa [setUser, hv] using hm
        exact O.of_entries (Frame.setUser u _ rfl rfl rfl rfl) le_rfl
          (fun v c hm => .inl (hsub v c hm)) (fun _ _ => rfl) O.entry (by simp)
      · exact O.execute hu ..
    · exact (O.resend conf hp hus hfd).1

theorem request (O : s.Once) (conf : MsgConf ν) {fd : ℕ} {message : Bytes}
    (hf : s.Fresh (.data fd message)) : (s.request conf fd message).Once := by
  have O₀ : (s.note (.passed fd (s.authed fd))).Once := O.note trivial
  simp only [MsgServer.request]
  split
  · rename_i u session hc hs
    refine (O₀.doRequest conf hc session message).note fun f hfirst hlt => ?_
    simp only at hfirst hlt
    obtain ⟨e, he, rfl⟩ := Option.map_eq_some_iff.1 hfirst
    obtain ⟨p, hl, rfl⟩ := Option.map_eq_some_iff.1 he
    obtain ⟨hp, hus⟩ := O₀.cache u _ (mem_of_lookup hl)
    -- the entry was stamped before the last handshake
    have hver : ((s.note (.passed fd (s.authed fd))).entries p).version ≠
        some ((s.note (.passed fd (s.authed fd))).users u).version := by
      have hent := O₀.entry p hp
      rcases ht : (s.entries p).touched with _ | k
      · rw [hent.untouched ht]
        simp
      · obtain ⟨v, hv, -, -, hvlt⟩ := hent.touched k ht
        rw [hv]
        have hk := hf u hc session hs p hl hlt k ht
        rw [hus] at hvlt
        exact fun h => (hvlt hk).ne (Option.some.inj h)
    have hdo : (s.note (.passed fd (s.authed fd))).doRequest conf fd u session message =
        (s.note (.passed fd (s.authed fd))).resend conf fd u p := by
      simp only [MsgServer.doRequest, hl, if_neg hver]
    obtain ⟨-, hn, hnone, hsome⟩ := O₀.resend conf hp hus hc
    rw [hdo]
    refine ⟨by simp [hn], fun b hb => ?_, fun hb => ?_⟩
    · rw [hsome b (by simpa [hl] using hb), drop_left]
    · rw [hnone (by simpa [hl] using hb), drop_length]
  · exact O₀.requestFailed fd

theorem finish (O : s.Once) (conf : MsgConf ν) {p : ℕ} (hp : p < s.nEntries)
    (hr : (s.entries p).running = true) (r : Result) : (s.finish conf p r).Once := by
  have hent := O.entry p hp
  unfold MsgServer.finish
  dsimp only
  split
  · refine requestFailed (O.setEntry (by rfl) ?_) _
    exact ⟨hent.user, hent.untouched, hent.touched, fun h => by cases h⟩
  · rename_i b _
    let e' : MsgEntry ν := { s.entries p with
      running := false
      response := some b
      version := some (s.users (s.entries p).user).version
      index := (s.users (s.entries p).user).index
      touched := some (s.users (s.entries p).user).gen }
    have O' : (s.setEntry p e').Once :=
      O.setEntry rfl (hent.stamp rfl rfl rfl fun h => by cases h)
    have he' : (s.setEntry p e').entries p = e' := update_self ..
    have hrun : ((s.setEntry p e').entries p).running = false := by rw [he']
    obtain ⟨-, -, -, hsent⟩ := respond_spec (s := s.setEntry p e') conf p
    rw [he'] at hsent
    refine (O'.respond conf hrun).note fun hc => ?_
    have := hsent _ b (hent.running hr).2 rfl hc
    rw [this]
    exact drop_left

theorem data (O : s.Once) (conf : MsgConf ν) {fd : ℕ} {message : Bytes}
    (hf : s.Fresh (.data fd message)) : (s.data conf fd message).Once := by
  have B := O.base.data conf fd message
  rcases data_cases conf s fd message with ⟨-, h⟩ | ⟨addr, u, idx, hg, hh, hok, h⟩ |
    ⟨addr, e, hg, hh, -, h⟩ | ⟨hg, hh, h⟩
  · rw [h]
    exact O
  · obtain ⟨n, _, _, _, -, -, hlt⟩ := checkAuth_ok hok
    rw [h] at B ⊢
    have hus : ∀ v, ((s.accept fd addr message u idx).users v).response = (s.users v).response := by
      intro v
      simp only [accept, setUser, update_apply]
      split_ifs with hv <;> simp [hv]
    refine ⟨B, fun v c hm => O.cache v c ((hus v) ▸ hm),
      fun p hp => (O.entry p hp).mono le_rfl fun v _ => ?_, fun e he => ?_⟩
    · change ((s.accept fd addr message u idx).users v).gen = _ ∧
        ((s.accept fd addr message u idx).users v).version = _ ∨
        _ < ((s.accept fd addr message u idx).users v).gen ∧
        _ < ((s.accept fd addr message u idx).users v).version
      simp only [accept, setUser, update_apply]
      split_ifs with hv
      · exact .inr ⟨hv ▸ Nat.lt_succ_self _, hv ▸ hlt⟩
      · exact .inl ⟨rfl, rfl⟩
    · have he' : e ∈ s.log ++ [.accepted u fd idx message] := he
      rcases mem_append.1 he' with he | he
      · exact O.log e he
      · rw [mem_singleton.1 he]
        trivial
  · rw [h] at B ⊢
    have Q : Quiet s (s.send fd (pack e)) := Quiet.of_tables rfl rfl rfl rfl rfl
    refine O.quiet B ((Q.trans (Quiet.closeclient fd)).trans ?_)
    exact Quiet.of_tables rfl rfl rfl rfl rfl
  · rw [h]
    exact O.request conf hf

end Once

/-- In every run in which a resend on a newer connection comes after a handshake that was accepted
since its entry was last resent or answered. -/
theorem atMostOnce_of_fresh [Zero ν] {conf : MsgConf ν} (h : (machine conf).Reach Fresh s) :
    s.AtMostOnce := by
  have O : s.Once := h.invariant
    ⟨.init conf, by simp [machine], by simp [machine], by simp [machine, AtMostOnce]⟩ <| by
      intro s a s' O hf hst
      have B := O.base.step hst
      rcases step_cases hst with ⟨fd, message, rfl, rfl⟩ | ⟨p, r, -, hp, hr, rfl⟩ | Q
      · exact O.data conf hf
      · exact O.finish conf hp hr r
      · exact O.quiet B Q
  exact O.log

/-- A request that is resent on a newer connection while its handler runs, and once more on one
that is newer still. -/
theorem atMostOnce_of_resent :
    ∃ s, (machine demoConf).Reach Fresh s ∧ s.nEntries = 1 ∧ s.sent.length = 3 ∧ s.AtMostOnce := by
  have hl : ((machine demoConf).run Fresh (machine demoConf).init
      (demoConnect ++ [.data 1 [104, 0, 0, 0, 7], .open 2 (Bytes.ascii "b"), .data 2 demoHandshake₂,
        .data 2 [104, 0, 0, 0, 7], .finish 0 (.value [105])])).map
      (fun s => (s.nEntries, s.sent.length)) = some (1, 3) := by decide
  obtain ⟨s, hr, he⟩ := Machine.exists_reach hl
  rw [Prod.mk.injEq] at he
  have h := hr
  exact ⟨s, h, he.1, he.2, atMostOnce_of_fresh h⟩

/-- The handler returns after the user has reconnected, and the request is resent then. -/
theorem not_atMostOnce_of_late :
    ∃ s, (machine demoConf).Reachable s ∧ ¬ s.AtMostOnce := by
  have hl : ((machine demoConf).run (fun _ _ => True) (machine demoConf).init
      (demoConnect ++ [.data 1 [104, 0, 0, 0, 7], .open 2 (Bytes.ascii "b"), .data 2 demoHandshake₂,
        .finish 0 (.value [105]), .data 2 [104, 0, 0, 0, 7]])).map
      (fun s => s.log.any fun e => match e with
        | .received r => decide (r.first = some 1 ∧ 1 < r.gen) && r.executed
        | _ => false) = some true := by decide
  obtain ⟨s, hs, hany⟩ := Option.map_eq_some_iff.1 hl
  obtain ⟨e, he, hr⟩ := List.any_eq_true.1 hany
  refine ⟨s, Machine.reach_of_run hs, fun h => ?_⟩
  cases e with
  | received r =>
    simp only [Bool.and_eq_true, decide_eq_true_eq] at hr
    obtain ⟨⟨hf, hlt⟩, hx⟩ := hr
    have := (h _ he 1 hf hlt).1
    rw [hx] at this
    cases this
  | _ => cases hr

end MsgServer

end SkynetGame
