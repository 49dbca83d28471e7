import SkynetGame.Proofs.MsgServer

/-!
# Handshakes are not replayed

The indices of the handshakes that one login accepts increase (`MsgServer.Replay`), and a packet
gets past the handshake of its connection only once that one was accepted.
-/

namespace SkynetGame

open List

namespace MsgServer

variable {ν : Type*}

/-- The index and the text of a handshake that the login `u` accepted. -/
def acceptedBy (u : ℕ) : MsgEvent ν → Option (ν × Bytes)
  | .accepted v _ idx message => if v = u then some (idx, message) else none
  | _ => none

/-- The handshakes that the login `u` has accepted so far. -/
def accepted (s : MsgServer ν) (u : ℕ) : List (ν × Bytes) := s.log.filterMap (acceptedBy u)

/-- The index that a handshake comes with. -/
def HasIndex (conf : MsgConf ν) (message : Bytes) (idx : ν) : Prop :=
  ∃ username index hmac, fields message = some (some (username, index, hmac)) ∧
    conf.tonumber index = some idx

theorem HasIndex.unique {conf : MsgConf ν} {message : Bytes} {i j : ν}
    (hi : HasIndex conf message i) (hj : HasIndex conf message j) : i = j := by
  obtain ⟨_, _, _, hf, hn⟩ := hi
  obtain ⟨_, _, _, hf', hn'⟩ := hj
  rw [hf] at hf'
  simp only [Option.some.injEq, Prod.mk.injEq] at hf'
  obtain ⟨-, rfl, -⟩ := hf'
  rw [hn] at hn'
  exact Option.some.inj hn'

variable [LinearOrder ν]

/-- What no step changes about the handshakes accepted so far. -/
structure Replay (conf : MsgConf ν) (s : MsgServer ν) : Prop where
  base : s.Base
  sorted : ∀ u, ((s.accepted u).map Prod.fst).Pairwise (· < ·)
  le : ∀ u, ∀ a ∈ s.accepted u, a.1 ≤ (s.users u).version
  read : ∀ u, ∀ a ∈ s.accepted u, HasIndex conf a.2 a.1
  fresh : ∀ u, s.nUsers ≤ u → s.accepted u = []
  passed : ∀ fd b, .passed fd b ∈ s.log → b = true

/-- The accepted indices of a login increase, no text is accepted twice, `do_request` is called
only on a connection whose handshake was accepted, and a handshake that is not accepted leaves the
users and the connections alone. -/
structure HandshakeSound (conf : MsgConf ν) (s : MsgServer ν) : Prop where
  sorted : ∀ u, ((s.accepted u).map Prod.fst).Pairwise (· < ·)
  once : ∀ u, ((s.accepted u).map Prod.snd).Nodup
  passed : ∀ fd b, .passed fd b ∈ s.log → b = true
  rejected : ∀ fd message e, s.handshake fd ≠ none → s.checkAuth conf message = .error e →
    (s.data conf fd message).userOnline = s.userOnline ∧
    (s.data conf fd message).users = s.users ∧
    (s.data conf fd message).connection = s.connection

namespace Replay

variable {conf : MsgConf ν} {s s' : MsgServer ν} {es : List (MsgEvent ν)}

theorem of_log (R : Replay conf s) (B : s'.Base) (hl : s'.log = s.log ++ es)
    (hv : ∀ u, s.accepted u ≠ [] → (s'.users u).version = (s.users u).version)
    (hn : s.nUsers ≤ s'.nUsers) (hes : ∀ u, es.filterMap (acceptedBy u) = [])
    (hp : ∀ fd b, .passed fd b ∈ es → b = true) : Replay conf s' := by
  have ha : ∀ u, s'.accepted u = s.accepted u := fun u => by
    rw [accepted, hl, filterMap_append, hes, append_nil, accepted]
  refine ⟨B, fun u => ?_, fun u a h => ?_, fun u a h => ?_, fun u hu => ?_, fun fd b h => ?_⟩
  · rw [ha]
    exact R.sorted u
  · rw [ha] at h
    rw [hv u (ne_nil_of_mem h)]
    exact R.le u a h
  · rw [ha] at h
    exact R.read u a h
  · rw [ha]
    exact R.fresh u (hn.trans hu)
  · rw [hl, mem_append] at h
    exact h.elim (R.passed fd b) (hp fd b)

theorem frame (R : Replay conf s) (F : Frame s es s')
    (hes : ∀ u, es.filterMap (acceptedBy u) = []) (hp : ∀ fd b, .passed fd b ∈ es → b = true) :
    Replay conf s' :=
  R.of_log (R.base.frame F) F.log (fun u _ => F.version u) F.nUsers.ge hes hp

theorem accept (R : Replay conf s) {fd u : ℕ} {idx : ν} {addr message : Bytes}
    (hu : u < s.nUsers) (hidx : (s.users u).version < idx) (hm : HasIndex conf message idx)
    (B : s'.Base) (hs : s'.log = s.log ++ [.accepted u fd idx message])
    (hus : s'.users = (s.accept fd addr message u idx).users) (hn : s'.nUsers = s.nUsers) :
    Replay conf s' := by
  have ha : ∀ v, s'.accepted v = s.accepted v ++ if u = v then [(idx, message)] else [] := by
    intro v
    rw [accepted, hs, filterMap_append, ← accepted]
    congr 1
    by_cases h : u = v <;> simp [acceptedBy, h]
  have hver : ∀ v, (s'.users v).version = if v = u then idx else (s.users v).version := by
    intro v
    rw [hus]
    simp only [MsgServer.accept, setUser, Function.update_apply]
    split_ifs <;> rfl
  refine ⟨B, fun v => ?_, fun v a h => ?_, fun v a h => ?_, fun v hv => ?_, fun f b h => ?_⟩
  · rw [ha, map_append, pairwise_append]
    refine ⟨R.sorted v, by split_ifs <;> simp, fun i hi j hj => ?_⟩
    obtain ⟨a, hma, rfl⟩ := List.mem_map.1 hi
    split_ifs at hj with h
    · subst h
      obtain rfl : j = idx := by simpa using hj
      exact (R.le u a hma).trans_lt hidx
    · cases hj
  · rw [ha, mem_append] at h
    rw [hver]
    rcases h with h | h
    · split_ifs with hvu
      · subst hvu
        exact ((R.le v a h).trans_lt hidx).le
      · exact R.le v a h
    · split_ifs at h with huv
      · subst huv
        obtain rfl := mem_singleton.1 h
        simp
      · cases h
  · rw [ha, mem_append] at h
    rcases h with h | h
    · exact R.read v a h
    · split_ifs at h
      · obtain rfl := mem_singleton.1 h
        exact hm
      · cases h
  · rw [hn] at hv
    rw [ha, R.fresh v hv, if_neg (by omega), append_nil]
  · rw [hs, mem_append] at h
    rcases h with h | h
    · exact R.passed f b h
    · simp at h

theorem data (R : Replay conf s) (fd : ℕ) (message : Bytes) :
    Replay conf (s.data conf fd message) := by
  have B := R.base.data conf fd message
  rcases data_cases conf s fd message with ⟨-, h⟩ | ⟨addr, u, idx, hg, hh, hok, h⟩ |
    ⟨addr, e, hg, hh, -, h⟩ | ⟨hg, hh, h⟩
  · rw [h]
    exact R
  · obtain ⟨n, index, hmac, hf, hn, hi, hlt⟩ := checkAuth_ok hok
    rw [h] at B ⊢
    exact R.accept (R.base.online hn) hlt ⟨n, index, hmac, hf, hi⟩ B rfl rfl rfl
  · rw [h] at B ⊢
    have F := (Frame.send (s := s) fd (pack e)).silent (Frame.closeclient fd)
    exact R.of_log B F.log (fun u _ => F.version u) F.nUsers.ge (by simp) (by simp)
  · obtain ⟨es, F, hes⟩ := Frame.request conf (s := s) fd message
    rw [h]
    have ha := (R.base.fd fd).gate hg hh
    rcases hes with rfl | ⟨r, rfl, -⟩
    · exact R.frame F (by simp [acceptedBy]) (by simp [ha])
    · exact R.frame F (by simp [acceptedBy]) (by simp [ha])

theorem step [Zero ν] (R : Replay conf s) {a : Action} (hst : MsgServer.step conf s a = some s') :
    Replay conf s' := by
  have B := R.base.step hst
  rcases step_cases hst with ⟨fd, message, -, rfl⟩ | ⟨p, r, -, -, -, rfl⟩ | Q
  · exact R.data fd message
  · obtain ⟨es, F, hes⟩ := Frame.finish conf (s := s) p r
    rcases hes with rfl | ⟨a, c, b, l, rfl⟩
    · exact R.frame F (by simp) (by simp)
    · exact R.frame F (by simp [acceptedBy]) (by simp)
  · refine R.of_log B (Q.log.trans (append_nil _).symm) (fun u hu => Q.version u ?_) Q.nUsers
      (by simp) (by simp)
    by_contra hn
    exact hu (R.fresh u (by omega))

theorem sound (R : Replay conf s) : HandshakeSound conf s where
  sorted := R.sorted
  once u := by
    -- equal texts have equal indices, and those are all different
    have hnd : ((s.accepted u).map Prod.fst).Nodup := (R.sorted u).imp fun h => h.ne
    refine (nodup_map_iff_inj_on (hnd.of_map _)).2 fun a ha b hb he => ?_
    refine inj_on_of_nodup_map hnd ha hb ((R.read u a ha).unique ?_)
    rw [he]
    exact R.read u b hb
  passed := R.passed
  rejected fd message e hh he := by
    rcases data_cases conf s fd message with ⟨-, h⟩ | ⟨addr, u, idx, -, -, hok, -⟩ |
      ⟨addr, e', -, -, -, h⟩ | ⟨-, hn, -⟩
    · rw [h]
      exact ⟨rfl, rfl, rfl⟩
    · rw [he] at hok
      cases hok
    · have hus : ((s.send fd (pack e')).closeclient fd).users = s.users := by
        unfold closeclient
        split <;> rfl
      have F := (Frame.send (s := s) fd (pack e')).silent (Frame.closeclient fd)
      rw [h]
      exact ⟨F.userOnline, hus, F.connection⟩
    · exact absurd hn hh

end Replay

/-- For every order of handshakes, logins, logouts, packets and closed connections. -/
theorem handshakeSound_of_reach [Zero ν] {conf : MsgConf ν} {s : MsgServer ν}
    (h : (machine conf).Reachable s) : HandshakeSound conf s := by
  have R : Replay conf s := h.invariant
    ⟨.init conf, by simp [machine, accepted], by simp [machine, accepted],
      by simp [machine, accepted], by simp [machine, accepted], by simp [machine]⟩
    fun s i s' R _ hst => R.step hst
  exact R.sound

/-- The first handshake again, after the second one. -/
theorem handshakeSound_of_replay :
    ∃ s, (machine demoConf).Reachable s ∧
      s.accepted 0 = [(1, demoHandshake₁), (2, demoHandshake₂)] ∧ HandshakeSound demoConf s := by
  obtain ⟨s, hs⟩ := Option.isSome_iff_exists.1 (show ((machine demoConf).run (fun _ _ => True)
    (machine demoConf).init (demoReconnect ++ [.close 1, .open 1 (Bytes.ascii "a"),
      .data 1 demoHandshake₁])).isSome by decide)
  have ha : ((machine demoConf).run (fun _ _ => True) (machine demoConf).init (demoReconnect ++
      [.close 1, .open 1 (Bytes.ascii "a"), .data 1 demoHandshake₁])).map (·.accepted 0) =
      some [(1, demoHandshake₁), (2, demoHandshake₂)] := by
    decide
  rw [hs] at ha
  exact ⟨s, Machine.reach_of_run hs, Option.some.inj ha,
    handshakeSound_of_reach (Machine.reach_of_run hs)⟩

end MsgServer

end SkynetGame
