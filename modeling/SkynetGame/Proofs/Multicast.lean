import SkynetGame.Multicast
import Mathlib.Data.List.Nodup

/-!
# Who is subscribed where

A node is in `channel_remote` of a channel exactly while it has subscribers, or the answer to a SUBR
is on its way to it, or its USUBR is on the way to the owner (`Agree`). A USUBR that leaves while the
node still awaits a SUBR would break this: it takes the node out though the answer brings a
subscriber in.
-/

namespace SkynetGame

open Function List Option

namespace Multicast

/-- The packet asks the owner of the channel for something. -/
def Packet.Asks (c : ℕ) : Packet → Prop
  | .subr _ c' | .usubr c' => c' = c
  | .subrRet _ _ _ | .multicast _ _ => False

instance (c : ℕ) : ∀ p : Packet, Decidable (p.Asks c)
  | .subr _ c' | .usubr c' => inferInstanceAs (Decidable (c' = c))
  | .subrRet _ _ _ | .multicast _ _ => isFalse (fun h => h)

section Tables

variable (s : Multicast) (n c : ℕ)

/-- What a node asks the owner of a channel, in order. -/
def ups : List Packet := (s.link n (ownerOf c)).filter fun p => p.Asks c

/-- A SUBR was answered, and the answer is on its way to the node. -/
def Granted : Prop := ∃ x, Packet.subrRet x c false ∈ s.link (ownerOf c) n

/-- The node is in `channel_remote`. -/
def Member : Prop := n ∈ ((s.daemon (ownerOf c)).channelRemote c).getD []

/-- The node has the channel. -/
def Joined : Prop := (s.daemon n).channel c ≠ none

/-- A SUB of the node waits for the answer to its SUBR. -/
def Awaits : Prop :=
  ∃ x, .subr x c ∈ s.link n (ownerOf c) ∨ ∃ r, .subrRet x c r ∈ s.link (ownerOf c) n

/-- The owner's table and the node's, with what is on its way between them. -/
structure Agree : Prop where
  behind : .usubr c ∉ (s.ups n c).tail
  member : s.Member n c ↔ s.Joined n c ∨ s.Granted n c ∨ .usubr c ∈ s.ups n c
  leaving : .usubr c ∈ s.ups n c → ¬ s.Joined n c ∧ ¬ s.Granted n c

end Tables

/-- No USUB takes the last subscriber of a node from a channel of another while a SUB of the node
waits for its answer. -/
def Tame (s : Multicast) : Action → Prop
  | .usub n source c => n ≠ ownerOf c → (s.daemon n).channel c = some [source] → ¬ s.Awaits n c
  | _ => True

/-- A node and the owner of a channel stand as before. -/
structure Same (s s' : Multicast) (n c : ℕ) : Prop where
  ups : s'.ups n c = s.ups n c
  granted : s'.Granted n c ↔ s.Granted n c
  member : s'.Member n c ↔ s.Member n c
  joined : s'.Joined n c ↔ s.Joined n c

theorem Same.trans {s₁ s₂ s₃ : Multicast} {n c : ℕ} (h : Same s₁ s₂ n c) (h' : Same s₂ s₃ n c) :
    Same s₁ s₃ n c :=
  ⟨h'.ups.trans h.ups, h'.granted.trans h.granted, h'.member.trans h.member,
    h'.joined.trans h.joined⟩

theorem Agree.congr {s s' : Multicast} {n c : ℕ} (h : s.Agree n c) (hs : Same s s' n c) :
    s'.Agree n c where
  behind := hs.ups ▸ h.behind
  member := by rw [hs.member, hs.joined, hs.granted, hs.ups]; exact h.member
  leaving := by rw [hs.joined, hs.granted, hs.ups]; exact h.leaving

def Packet.Routed (a b : ℕ) : Packet → Prop
  | .subr _ c | .usubr c => b = ownerOf c ∧ a ≠ b
  | .subrRet _ c _ => a = ownerOf c ∧ a ≠ b
  | .multicast _ _ => True

/-- Where a coroutine may wait: the owner of a channel asks for no address of its own, and who
unsubscribes knows the owner's. -/
def Job.Routed (n : ℕ) : Job → Prop
  | .sub _ c | .pub c _ => ownerOf c ≠ n
  | .usubr _ => False
  | .publish _ _ _ _ => True

structure Daemon.Sound (d : Daemon) (n : ℕ) : Prop where
  count : ∀ c, d.channelN c = (d.channel c).map fun g => (g.length : ℤ)
  nodup : ∀ c, ((d.channel c).getD []).Nodup
  nonempty : ∀ c, n ≠ ownerOf c → d.channel c ≠ some []
  remote : ∀ c, ((d.channelRemote c).getD []).Nodup
  foreign : ∀ c, n ≠ ownerOf c → d.channelRemote c = none
  own : ∀ c, n ∉ (d.channelRemote c).getD []
  jobs : ∀ j ∈ d.jobs, j.Routed n

structure Idle (s : Multicast) (n : ℕ) : Prop where
  member : ∀ c, ¬ s.Member n c
  link : ∀ b x c, .subr x c ∉ s.link n b
  jobs : ∀ x c, .sub x c ∉ (s.daemon n).jobs
  own : ∀ c, n = ownerOf c → ¬ s.Joined n c

structure Base (s : Multicast) : Prop where
  daemon : ∀ n, (s.daemon n).Sound n
  routed : ∀ a b, ∀ p ∈ s.link a b, p.Routed a b
  known : ∀ n c, n ≠ ownerOf c → s.Joined n c ∨ (∃ x, .subr x c ∈ s.link n (ownerOf c)) ∨
    (∃ x b, .subrRet x c b ∈ s.link (ownerOf c) n) → (s.daemon n).nodeAddress (ownerOf c) = true
  idle : ∀ n, s.registered n = false → s.Idle n

/-- What holds in every run of tame steps. -/
structure Inv (s : Multicast) : Prop extends Base s where
  agree : ∀ n c, n ≠ ownerOf c → s.Agree n c

section Links

variable (s : Multicast)

def setLink (a b : ℕ) (l : List Packet) : Multicast :=
  { s with link := Function.update s.link a (Function.update (s.link a) b l) }

theorem send_eq (a b : ℕ) (p : Packet) : s.send a b p = s.setLink a b (s.link a b ++ [p]) := rfl

@[simp] theorem setLink_daemon (a b : ℕ) (l : List Packet) :
    (s.setLink a b l).daemon = s.daemon := rfl

@[simp] theorem set_link (n : ℕ) (d : Daemon) : (s.set n d).link = s.link := rfl

@[simp] theorem set_daemon_self (n : ℕ) (d : Daemon) : (s.set n d).daemon n = d :=
  update_self _ _ _

theorem set_daemon_ne {n m : ℕ} (d : Daemon) (h : m ≠ n) :
    (s.set n d).daemon m = s.daemon m := update_of_ne h _ _

@[simp] theorem setLink_link_self (a b : ℕ) (l : List Packet) :
    (s.setLink a b l).link a b = l := by
  simp [setLink]

theorem setLink_link_ne {a b a' b' : ℕ} (l : List Packet) (h : ¬ (a' = a ∧ b' = b)) :
    (s.setLink a b l).link a' b' = s.link a' b' := by
  by_cases ha : a' = a
  · subst ha
    have hb : b' ≠ b := fun hb => h ⟨rfl, hb⟩
    simp [setLink, hb]
  · simp [setLink, ha]

theorem mem_send {a b a' b' : ℕ} {p q : Packet} (h : q ∈ (s.send a b p).link a' b') :
    q ∈ s.link a' b' ∨ a' = a ∧ b' = b ∧ q = p := by
  rw [send_eq] at h
  by_cases hab : a' = a ∧ b' = b
  · obtain ⟨rfl, rfl⟩ := hab
    rw [setLink_link_self] at h
    rcases mem_append.1 h with h | h
    · exact .inl h
    · exact .inr ⟨rfl, rfl, mem_singleton.1 h⟩
  · rw [setLink_link_ne s _ hab] at h
    exact .inl h

theorem mem_pop {a b a' b' : ℕ} {p q : Packet} {ps : List Packet} (hl : s.link a b = p :: ps)
    (h : q ∈ (s.setLink a b ps).link a' b') : q ∈ s.link a' b' := by
  by_cases hab : a' = a ∧ b' = b
  · obtain ⟨rfl, rfl⟩ := hab
    rw [setLink_link_self] at h
    exact hl ▸ mem_cons_of_mem p h
  · rwa [setLink_link_ne s _ hab] at h

variable {s}

/-- A link changes what a node asks only where it goes from it to the owner, and what it is granted
only where it goes back. -/
theorem Same.setLink {a b n c : ℕ} {l : List Packet}
    (hu : a = n → b = ownerOf c → l.filter (fun p => p.Asks c) = s.ups n c)
    (hg : a = ownerOf c → b = n → ∀ x, .subrRet x c false ∈ l ↔
      .subrRet x c false ∈ s.link (ownerOf c) n) : Same s (s.setLink a b l) n c := by
  refine ⟨?_, ?_, Iff.rfl, Iff.rfl⟩
  · by_cases hab : n = a ∧ ownerOf c = b
    · obtain ⟨rfl, rfl⟩ := hab
      rw [Multicast.ups, setLink_link_self, hu rfl rfl]
    · rw [Multicast.ups, setLink_link_ne s l hab, Multicast.ups]
  · unfold Granted
    by_cases hab : ownerOf c = a ∧ n = b
    · obtain ⟨rfl, rfl⟩ := hab
      rw [setLink_link_self]
      exact exists_congr (hg rfl rfl)
    · rw [setLink_link_ne s l hab]

/-- The packet says something about the node and the channel. -/
def Packet.Concerns (n c a b : ℕ) : Packet → Prop
  | .subr _ c' | .usubr c' => a = n ∧ c' = c
  | .subrRet _ c' none_exist => b = n ∧ c' = c ∧ none_exist = false
  | .multicast _ _ => False

theorem Packet.not_asks {p : Packet} {n c a b : ℕ} (h : ¬ p.Concerns n c a b) (ha : a = n) :
    ¬ p.Asks c := by
  rcases p with ⟨x, c'⟩ | ⟨x, c', r⟩ | c' | ⟨c', m⟩
  · exact fun hc => h ⟨ha, hc⟩
  · exact fun hc => hc
  · exact fun hc => h ⟨ha, hc⟩
  · exact fun hc => hc

theorem Same.push {a b n c : ℕ} {p : Packet} (h : ¬ p.Concerns n c a b) :
    Same s (s.send a b p) n c := by
  rw [send_eq]
  refine Same.setLink (s := s) (fun ha hb => ?_) fun ha hb x => ?_
  · subst ha hb
    rw [filter_append, filter_cons_of_neg (by simpa using p.not_asks h rfl),
      filter_nil, append_nil, Multicast.ups]
  · subst ha hb
    rw [mem_append, mem_singleton]
    refine ⟨fun hx => hx.resolve_right ?_, .inl⟩
    rintro rfl
    exact h ⟨rfl, rfl, rfl⟩

theorem Same.pop {a b n c : ℕ} {p : Packet} {ps : List Packet} (hl : s.link a b = p :: ps)
    (h : ¬ p.Concerns n c a b) : Same s (s.setLink a b ps) n c := by
  refine Same.setLink (s := s) (fun ha hb => ?_) fun ha hb x => ?_
  · subst ha hb
    rw [Multicast.ups, hl, filter_cons_of_neg (by simpa using p.not_asks h rfl)]
  · subst ha hb
    rw [hl, mem_cons]
    refine ⟨.inr, fun hx => hx.resolve_left ?_⟩
    rintro rfl
    exact h ⟨rfl, rfl, rfl⟩

theorem Same.set {m n c : ℕ} {d : Daemon}
    (hm : m = ownerOf c → (n ∈ (d.channelRemote c).getD [] ↔ s.Member n c))
    (hj : m = n → (d.channel c ≠ none ↔ s.Joined n c)) : Same s (s.set m d) n c := by
  refine ⟨rfl, Iff.rfl, ?_, ?_⟩
  · by_cases h : ownerOf c = m
    · subst h
      rw [Member, set_daemon_self]
      exact hm rfl
    · rw [Member, set_daemon_ne s d h, Member]
  · by_cases h : n = m
    · subst h
      rw [Joined, set_daemon_self]
      exact hj rfl
    · rw [Joined, set_daemon_ne s d h, Joined]

end Links

namespace Base

variable {s : Multicast}

theorem push (h : Base s) {a b : ℕ} {p : Packet} (hp : p.Routed a b)
    (hsub : ∀ x c, p = .subr x c →
      (s.daemon a).nodeAddress (ownerOf c) = true ∧ s.registered a = true)
    (hret : ∀ x c r, p = .subrRet x c r → (s.daemon b).nodeAddress (ownerOf c) = true) :
    Base (s.send a b p) where
  daemon := h.daemon
  routed a' b' q hq := by
    rcases mem_send s hq with hq | ⟨rfl, rfl, rfl⟩
    · exact h.routed a' b' q hq
    · exact hp
  known n c hn hk := by
    rcases hk with hj | ⟨x, hx⟩ | ⟨x, r, hx⟩
    · exact h.known n c hn (.inl hj)
    · rcases mem_send s hx with hx | ⟨rfl, -, hq⟩
      · exact h.known n c hn (.inr (.inl ⟨x, hx⟩))
      · exact (hsub x c hq.symm).1
    · rcases mem_send s hx with hx | ⟨-, rfl, hq⟩
      · exact h.known n c hn (.inr (.inr ⟨x, r, hx⟩))
      · exact hret x c r hq.symm
  idle n hn := by
    refine ⟨(h.idle n hn).member, fun b' x c hx => ?_, (h.idle n hn).jobs, (h.idle n hn).own⟩
    rcases mem_send s hx with hx | ⟨rfl, -, hq⟩
    · exact (h.idle n hn).link b' x c hx
    · exact Bool.false_ne_true (hn.symm.trans (hsub x c hq.symm).2)

theorem pop (h : Base s) {a b : ℕ} {p : Packet} {ps : List Packet} (hl : s.link a b = p :: ps) :
    Base (s.setLink a b ps) where
  daemon := h.daemon
  routed a' b' q hq := h.routed a' b' q (mem_pop s hl hq)
  known n c hn hk := by
    refine h.known n c hn ?_
    rcases hk with hj | ⟨x, hx⟩ | ⟨x, r, hx⟩
    · exact .inl hj
    · exact .inr (.inl ⟨x, mem_pop s hl hx⟩)
    · exact .inr (.inr ⟨x, r, mem_pop s hl hx⟩)
  idle n hn := ⟨(h.idle n hn).member, fun b' x c hx => (h.idle n hn).link b' x c (mem_pop s hl hx),
    (h.idle n hn).jobs, (h.idle n hn).own⟩

theorem set (h : Base s) {m : ℕ} {d : Daemon} (hd : d.Sound m)
    (ha : ∀ k, (s.daemon m).nodeAddress k = true → d.nodeAddress k = true)
    (hj : ∀ c, m ≠ ownerOf c → d.channel c ≠ none → s.Joined m c ∨
      d.nodeAddress (ownerOf c) = true)
    (hr : ∀ c n, m = ownerOf c → n ∈ (d.channelRemote c).getD [] → s.Member n c ∨
      s.registered n = true)
    (hi : s.registered m = false → (∀ x c, .sub x c ∉ d.jobs) ∧
      ∀ c, m = ownerOf c → d.channel c = none) : Base (s.set m d) where
  daemon n := by
    by_cases hn : n = m
    · subst hn
      rw [set_daemon_self]
      exact hd
    · rw [set_daemon_ne s d hn]
      exact h.daemon n
  routed := h.routed
  known n c hn hk := by
    by_cases hm : n = m
    · subst hm
      rw [set_daemon_self]
      rw [Joined, set_daemon_self] at hk
      rcases hk with hk | hk
      · rcases hj c hn hk with hk | hk
        · exact ha _ (h.known n c hn (.inl hk))
        · exact hk
      · exact ha _ (h.known n c hn (.inr hk))
    · rw [set_daemon_ne s d hm]
      rw [Joined, set_daemon_ne s d hm] at hk
      exact h.known n c hn hk
  idle n hn := by
    refine ⟨fun c hc => ?_, (h.idle n hn).link, fun x c hx => ?_, fun c hc hx => ?_⟩
    · by_cases hm : ownerOf c = m
      · subst hm
        rw [Member, set_daemon_self] at hc
        rcases hr c n rfl hc with hc | hc
        · exact (h.idle n hn).member c hc
        · exact Bool.false_ne_true (hn.symm.trans hc)
      · rw [Member, set_daemon_ne s d hm] at hc
        exact (h.idle n hn).member c hc
    · by_cases hm : n = m
      · subst hm
        rw [set_daemon_self] at hx
        exact (hi hn).1 x c hx
      · rw [set_daemon_ne s d hm] at hx
        exact (h.idle n hn).jobs x c hx
    · by_cases hm : n = m
      · subst hm
        rw [Joined, set_daemon_self] at hx
        exact hx ((hi hn).2 c hc)
      · rw [Joined, set_daemon_ne s d hm] at hx
        exact (h.idle n hn).own c hc hx

end Base

theorem Daemon.Sound.congr {d d' : Daemon} {n : ℕ} (h : d.Sound n) (hc : d'.channel = d.channel)
    (hn : d'.channelN = d.channelN) (hr : d'.channelRemote = d.channelRemote)
    (hj : ∀ j ∈ d'.jobs, j.Routed n) : d'.Sound n := by
  refine ⟨fun c => ?_, fun c => ?_, fun c hm => ?_, fun c => ?_, fun c hm => ?_, fun c => ?_, hj⟩
  · rw [hn, hc]
    exact h.count c
  · rw [hc]
    exact h.nodup c
  · rw [hc]
    exact h.nonempty c hm
  · rw [hr]
    exact h.remote c
  · rw [hr]
    exact h.foreign c hm
  · rw [hr]
    exact h.own c

namespace Inv

variable {s : Multicast}

theorem congr_received (h : Inv s) (k : ℕ) (l : List (ℕ × ℕ × ℕ)) :
    Inv { s with
      published := k
      received := l } where
  daemon := h.daemon
  routed := h.routed
  known := h.known
  idle n hn := ⟨(h.idle n hn).member, (h.idle n hn).link, (h.idle n hn).jobs, (h.idle n hn).own⟩
  agree n c hn := (h.agree n c hn).congr ⟨rfl, Iff.rfl, Iff.rfl, Iff.rfl⟩

theorem start (h : Inv s) (m : ℕ) :
    Inv { s with registered := update s.registered m true } where
  daemon := h.daemon
  routed := h.routed
  known := h.known
  idle n hn := by
    have hne : n ≠ m := by
      rintro rfl
      simp at hn
    have hi := h.idle n (by simpa [hne] using hn)
    exact ⟨hi.member, hi.link, hi.jobs, hi.own⟩
  agree n c hn := (h.agree n c hn).congr ⟨rfl, Iff.rfl, Iff.rfl, Iff.rfl⟩

theorem push (h : Inv s) {a b c msg : ℕ} : Inv (s.send a b (.multicast c msg)) :=
  ⟨h.toBase.push trivial nofun nofun, fun n c hn => (h.agree n c hn).congr (.push (fun hc => hc))⟩

theorem pop (h : Inv s) {a b c msg : ℕ} {ps : List Packet} (hl : s.link a b = .multicast c msg :: ps) :
    Inv (s.setLink a b ps) :=
  ⟨h.toBase.pop hl, fun n c hn => (h.agree n c hn).congr (.pop hl (fun hc => hc))⟩

theorem set (h : Inv s) {m : ℕ} {d : Daemon} (hd : d.Sound m)
    (ha : ∀ k, (s.daemon m).nodeAddress k = true → d.nodeAddress k = true)
    (hj : ∀ c, m ≠ ownerOf c → (d.channel c = none ↔ (s.daemon m).channel c = none))
    (hr : d.channelRemote = (s.daemon m).channelRemote)
    (hi : s.registered m = false → (∀ x c, .sub x c ∉ d.jobs) ∧
      ∀ c, m = ownerOf c → d.channel c = none) : Inv (s.set m d) where
  toBase := by
    refine h.toBase.set hd ha (fun c hc hx => .inl fun hn => hx ((hj c hc).2 hn)) (fun c n hm hx => ?_) hi
    rw [hr, hm] at hx
    exact .inl hx
  agree n c hn := by
    refine (h.agree n c hn).congr (.set (fun hm => ?_) fun hm => ?_)
    · rw [hr, hm, Member]
    · subst hm
      exact not_congr (hj c hn)

theorem wait (h : Inv s) {n : ℕ} {job : Job} (hj : job.Routed n)
    (hs : ∀ x c, job = .sub x c → s.registered n = true) : Inv (s.wait n job) := by
  have hd := h.daemon n
  refine h.set (hd.congr rfl rfl rfl fun j hmem => ?_) (fun _ hk => hk) (fun _ _ => Iff.rfl) rfl
    fun hn => ⟨fun x c hmem => ?_, fun c hc => not_not.1 ((h.idle n hn).own c hc)⟩
  · rcases mem_append.1 hmem with hmem | hmem
    · exact hd.jobs j hmem
    · obtain rfl := mem_singleton.1 hmem
      exact hj
  · rcases mem_append.1 hmem with hmem | hmem
    · exact (h.idle n hn).jobs x c hmem
    · have := hs x c (mem_singleton.1 hmem).symm
      exact Bool.false_ne_true (hn.symm.trans this)

theorem publishNodes (n c msg : ℕ) : ∀ (nodes : List ℕ) {s : Multicast}, Inv s →
    Inv (publishNodes n c msg nodes s)
  | [], _, h => h.congr_received _ _
  | node :: nodes, s, h => by
    unfold Multicast.publishNodes
    split
    · exact publishNodes n c msg nodes h
    · split
      · exact publishNodes n c msg nodes h.push
      · exact h.wait trivial nofun

theorem subr_send (h : Inv s) {n x c : ℕ} (hn : n ≠ ownerOf c) (hreg : s.registered n = true)
    (hk : (s.daemon n).nodeAddress (ownerOf c) = true) :
    Inv (s.send n (ownerOf c) (.subr x c)) where
  toBase := h.toBase.push ⟨rfl, hn⟩ (fun _ _ he => by
    obtain ⟨rfl, rfl⟩ := Packet.subr.inj he
    exact ⟨hk, hreg⟩) nofun
  agree m c' hm := by
    by_cases hmc : m = n ∧ c' = c
    · obtain ⟨rfl, rfl⟩ := hmc
      have ha := h.agree m c' hm
      have hu : (s.send m (ownerOf c') (.subr x c')).ups m c' = s.ups m c' ++ [.subr x c'] := by
        rw [send_eq, ups, setLink_link_self, filter_append, ups]
        exact congrArg _ (filter_cons_of_pos (by simp [Packet.Asks]))
      have hg : (s.send m (ownerOf c') (.subr x c')).Granted m c' ↔ s.Granted m c' := by
        rw [Granted, Granted, send_eq, setLink_link_ne s _ (fun h => hm h.2)]
      have hmem : .usubr c' ∈ s.ups m c' ++ [.subr x c'] ↔ .usubr c' ∈ s.ups m c' := by simp
      refine ⟨?_, ?_, ?_⟩
      · rw [hu]
        intro hx
        rcases hups : s.ups m c' with _ | ⟨p, ps⟩
        · rw [hups] at hx
          exact nomatch hx
        · rw [hups] at hx
          have hb := ha.behind
          rw [hups] at hb
          rcases mem_append.1 hx with hx | hx
          · exact hb hx
          · exact nomatch mem_singleton.1 hx
      · rw [hu, hg, hmem]
        exact ha.member
      · rw [hu, hg, hmem]
        exact ha.leaving
    · exact (h.agree m c' hm).congr (.push (fun hc => hmc ⟨hc.1.symm, hc.2.symm⟩))

theorem sound_join {d : Daemon} {n source c : ℕ} (hd : d.Sound n) : (d.join source c).Sound n := by
  unfold Daemon.join
  split
  · next group hg =>
    split
    · exact hd
    · next hsrc =>
      refine ⟨fun c' => ?_, fun c' => ?_, fun c' hc => ?_, hd.remote, hd.foreign, hd.own, hd.jobs⟩
      · by_cases hc' : c' = c
        · subst hc'
          have hcount := hd.count c'
          rw [hg] at hcount
          simp [hcount]
        · simpa [hc'] using hd.count c'
      · by_cases hc' : c' = c
        · subst hc'
          have hnd := hd.nodup c'
          rw [hg] at hnd
          simpa [nodup_append] using ⟨hnd, fun a ha he => hsrc (he ▸ ha)⟩
        · simpa [hc'] using hd.nodup c'
      · by_cases hc' : c' = c
        · subst hc'
          simp
        · simpa [hc'] using hd.nonempty c' hc
  · exact hd

theorem join_channel (d : Daemon) (source c c' : ℕ) :
    (d.join source c).channel c' = none ↔ d.channel c' = none := by
  unfold Daemon.join
  split
  · next group hg =>
    split
    · exact Iff.rfl
    · by_cases hc' : c' = c
      · subst hc'
        simp [hg]
      · simp [hc']
  · exact Iff.rfl

theorem join_rest (d : Daemon) (source c : ℕ) :
    (d.join source c).channelRemote = d.channelRemote ∧
      (d.join source c).nodeAddress = d.nodeAddress ∧ (d.join source c).jobs = d.jobs := by
  unfold Daemon.join
  split
  · split <;> exact ⟨rfl, rfl, rfl⟩
  · exact ⟨rfl, rfl, rfl⟩

theorem sub (h : Inv s) {n source c : ℕ} (hreg : s.registered n = true) :
    Inv (s.sub n source c) := by
  unfold Multicast.sub
  split
  · next hc =>
    unfold sendTo
    split
    · next hk => exact h.subr_send (Ne.symm hc.1) hreg hk
    · exact h.wait hc.1 fun _ _ _ => hreg
  · obtain ⟨hr, ha, hj⟩ := join_rest (s.daemon n) source c
    refine h.set (sound_join (h.daemon n)) (fun k hk => by rwa [ha]) (fun c' _ => join_channel _ _ _ _)
      hr fun hn => ⟨fun x c' => ?_, fun c' hc' => ?_⟩
    · rw [hj]
      exact (h.idle n hn).jobs x c'
    · exact (join_channel _ _ _ _).2 (not_not.1 ((h.idle n hn).own c' hc'))

/-- The daemon with a channel that is new to it. -/
def opened (d : Daemon) (c : ℕ) : Daemon :=
  { d with
    channel := Function.update d.channel c (some [])
    channelN := Function.update d.channelN c (some 0) }

theorem sound_opened {d : Daemon} {n c : ℕ} (hd : d.Sound n) (hc : n = ownerOf c) :
    (opened d c).Sound n := by
  refine ⟨fun c' => ?_, fun c' => ?_, fun c' hc' => ?_, hd.remote, hd.foreign, hd.own, hd.jobs⟩
  · by_cases h : c' = c
    · subst h
      simp [opened]
    · simpa [opened, h] using hd.count c'
  · by_cases h : c' = c
    · subst h
      simp [opened]
    · simpa [opened, h] using hd.nodup c'
  · have h : c' ≠ c := by
      rintro rfl
      exact hc' hc
    simpa [opened, h] using hd.nonempty c' hc'

theorem new (h : Inv s) {c : ℕ} (hreg : s.registered (ownerOf c) = true) {s' : Multicast}
    (hs : s.new c = some s') : Inv s' := by
  unfold Multicast.new at hs
  dsimp only at hs
  split at hs
  · obtain rfl := some.inj hs
    refine h.set (sound_opened (h.daemon _) rfl) (fun _ hk => hk) (fun c' hc' => ?_) rfl fun hn =>
      absurd (hn.symm.trans hreg) Bool.false_ne_true
    have hne : c' ≠ c := by
      rintro rfl
      exact hc' rfl
    simp [hne]
  · exact nomatch hs

def joined (d : Daemon) (source c : ℕ) : Daemon :=
  (if d.channel c = none then opened d c else d).join source c

theorem sound_joined {d : Daemon} {n source c : ℕ} (hd : d.Sound n) :
    (joined d source c).Sound n := by
  unfold joined
  split
  · have he : (opened d c).join source c = { opened d c with
        channel := update d.channel c (some [source])
        channelN := update d.channelN c (some 1) } := by
      simp [Daemon.join, opened]
    rw [he]
    refine ⟨fun c' => ?_, fun c' => ?_, fun c' hc' => ?_, hd.remote, hd.foreign, hd.own, hd.jobs⟩
    · by_cases h : c' = c
      · subst h
        simp
      · simpa [h] using hd.count c'
    · by_cases h : c' = c
      · subst h
        simp
      · simpa [h] using hd.nodup c'
    · by_cases h : c' = c
      · subst h
        simp
      · simpa [h] using hd.nonempty c' hc'
  · exact sound_join hd

theorem joined_channel (d : Daemon) (source c : ℕ) :
    (joined d source c).channel c ≠ none ∧
      ∀ c', c' ≠ c → ((joined d source c).channel c' = none ↔ d.channel c' = none) := by
  unfold joined
  split
  · refine ⟨fun hn => ?_, fun c' hc' => ?_⟩
    · rw [join_channel] at hn
      simp [opened] at hn
    · rw [join_channel]
      simp [opened, hc']
  · next hc => exact ⟨fun hn => hc ((join_channel _ _ _ _).1 hn), fun c' _ => join_channel _ _ _ _⟩

theorem joined_rest (d : Daemon) (source c : ℕ) :
    (joined d source c).channelRemote = d.channelRemote ∧
      (joined d source c).nodeAddress = d.nodeAddress ∧ (joined d source c).jobs = d.jobs := by
  unfold joined
  split <;> exact join_rest _ _ _

theorem subRet (h : Inv s) {a n x c : ℕ} {r : Bool} {ps : List Packet}
    (hl : s.link a n = .subrRet x c r :: ps) : Inv ((s.setLink a n ps).subRet n x c r) := by
  obtain ⟨ha, hn⟩ := h.routed a n (.subrRet x c r) (by rw [hl]; exact mem_cons_self)
  subst ha
  have hne : n ≠ ownerOf c := Ne.symm hn
  unfold Multicast.subRet
  rcases r with _ | _
  · have hmem : Packet.subrRet x c false ∈ s.link (ownerOf c) n := by rw [hl]; exact mem_cons_self
    have hk := h.known n c hne (.inr (.inr ⟨x, false, hmem⟩))
    obtain ⟨hr, had, hj⟩ := joined_rest (s.daemon n) x c
    obtain ⟨hopen, hrest⟩ := joined_channel (s.daemon n) x c
    change Inv ((s.setLink (ownerOf c) n ps).set n (joined (s.daemon n) x c))
    refine ⟨(h.toBase.pop hl).set (sound_joined (h.daemon n)) (fun k hk => by rwa [had])
      (fun c' _ hx => ?_) (fun c' m hm hx => ?_) fun hreg => ⟨fun y c' => ?_, fun c' hc' => ?_⟩,
      fun m c' hm => ?_⟩
    · by_cases hc' : c' = c
      · subst hc'
        rw [had]
        exact .inr hk
      · exact .inl fun hx' => hx ((hrest c' hc').2 hx')
    · rw [hr, hm] at hx
      exact .inl hx
    · rw [hj]
      exact (h.idle n hreg).jobs y c'
    · have hcc : c' ≠ c := by
        rintro rfl
        exact hne hc'
      exact (hrest c' hcc).2 (not_not.1 ((h.idle n hreg).own c' hc'))
    · by_cases hmc : m = n ∧ c' = c
      · obtain ⟨rfl, rfl⟩ := hmc
        have hag := h.agree m c' hm
        have hgr : s.Granted m c' := ⟨x, hmem⟩
        have hu : ((s.setLink (ownerOf c') m ps).set m (joined (s.daemon m) x c')).ups m c' =
            s.ups m c' := by
          rw [ups, set_link, setLink_link_ne s _ (fun h => hm h.1), ups]
        have hjn : ((s.setLink (ownerOf c') m ps).set m (joined (s.daemon m) x c')).Joined m c' := by
          rw [Joined, set_daemon_self]
          exact hopen
        have hno : .usubr c' ∉ s.ups m c' := fun hx => (hag.leaving hx).2 hgr
        refine ⟨?_, ?_, ?_⟩
        · rw [hu]
          exact hag.behind
        · refine iff_of_true ?_ (.inl hjn)
          rw [Member, set_daemon_ne _ _ (Ne.symm hm)]
          exact hag.member.2 (.inr (.inl hgr))
        · rw [hu]
          exact fun hx => absurd hx hno
      · refine (h.agree m c' hm).congr ((Same.pop hl ?_).trans (.set (fun he => ?_) fun he => ?_))
        · exact fun hc => hmc ⟨hc.1.symm, hc.2.1.symm⟩
        · rw [hr, he]
          exact Iff.rfl
        · subst he
          exact not_congr (hrest c' fun hc => hmc ⟨rfl, hc⟩)
  · exact ⟨h.toBase.pop hl, fun m c' hm => (h.agree m c' hm).congr
      (.pop hl (fun hc => Bool.noConfusion hc.2.2))⟩

theorem behind_of_ups {n c : ℕ} {p : Packet} {ps : List Packet} (ha : s.Agree n c)
    (hu : s.ups n c = p :: ps) : .usubr c ∉ ps := by
  have hb := ha.behind
  rwa [hu] at hb

/-- The owner of a channel with another table for it. -/
def remoted (d : Daemon) (c : ℕ) (g : List ℕ) : Daemon :=
  { d with channelRemote := Function.update d.channelRemote c (some g) }

theorem remoted_self (d : Daemon) (c : ℕ) (g : List ℕ) :
    (remoted d c g).channelRemote c = some g := update_self _ _ _

theorem remoted_ne (d : Daemon) {c c' : ℕ} (g : List ℕ) (h : c' ≠ c) :
    (remoted d c g).channelRemote c' = d.channelRemote c' := update_of_ne h _ _

theorem remote_set (h : Base s) {c : ℕ} {g : List ℕ} (hg : g.Nodup) (ho : ownerOf c ∉ g)
    (hr : ∀ n ∈ g, s.Member n c ∨ s.registered n = true) :
    Base (s.set (ownerOf c) (remoted (s.daemon (ownerOf c)) c g)) := by
  have hd := h.daemon (ownerOf c)
  refine h.set ⟨hd.count, hd.nodup, hd.nonempty, fun c' => ?_, fun c' hc' => ?_, fun c' => ?_,
    hd.jobs⟩ (fun _ hk => hk) (fun _ _ hx => .inl hx) (fun c' m hm hx => ?_) fun hreg =>
      ⟨(h.idle _ hreg).jobs, fun c' hc' => not_not.1 ((h.idle _ hreg).own c' hc')⟩
  · by_cases he : c' = c
    · subst he
      rw [remoted_self]
      exact hg
    · rw [remoted_ne _ _ he]
      exact hd.remote c'
  · have he : c' ≠ c := by
      rintro rfl
      exact hc' rfl
    rw [remoted_ne _ _ he]
    exact hd.foreign c' hc'
  · by_cases he : c' = c
    · subst he
      rw [remoted_self]
      exact ho
    · rw [remoted_ne _ _ he]
      exact hd.own c'
  · by_cases he : c' = c
    · subst he
      rw [remoted_self] at hx
      exact hr m hx
    · rw [remoted_ne _ _ he, hm] at hx
      exact .inl hx

theorem member_remoted {c n : ℕ} {g : List ℕ} :
    (s.set (ownerOf c) (remoted (s.daemon (ownerOf c)) c g)).Member n c ↔ n ∈ g := by
  rw [Member, set_daemon_self, remoted_self]
  exact Iff.rfl

theorem same_remoted {c m c' : ℕ} {g : List ℕ} (hg : c' = c → (m ∈ g ↔ s.Member m c)) :
    Same s (s.set (ownerOf c) (remoted (s.daemon (ownerOf c)) c g)) m c' := by
  refine .set (fun he => ?_) fun he => ?_
  · by_cases hc' : c' = c
    · subst hc'
      rw [remoted_self]
      exact hg rfl
    · rw [remoted_ne _ _ hc', he]
      exact Iff.rfl
  · subst he
    exact Iff.rfl

theorem pop_subr (h : Inv s) {n x c : ℕ} {ps : List Packet}
    (hl : s.link n (ownerOf c) = .subr x c :: ps) (hn : n ≠ ownerOf c) :
    Inv (s.setLink n (ownerOf c) ps) ∧ .usubr c ∉ (s.setLink n (ownerOf c) ps).ups n c := by
  have hag := h.agree n c hn
  have hu : s.ups n c = .subr x c :: (s.setLink n (ownerOf c) ps).ups n c := by
    rw [ups, ups, hl, filter_cons_of_pos (by simp [Packet.Asks]), setLink_link_self]
  have hno' := behind_of_ups hag hu
  refine ⟨⟨h.toBase.pop hl, fun m c' hm => ?_⟩, hno'⟩
  by_cases hmc : m = n ∧ c' = c
  · obtain ⟨rfl, rfl⟩ := hmc
    have hno : .usubr c' ∉ s.ups m c' := by
      rw [hu]
      simpa using hno'
    have hg : (s.setLink m (ownerOf c') ps).Granted m c' ↔ s.Granted m c' := by
      rw [Granted, Granted, setLink_link_ne s _ (fun h => hm h.2)]
    refine ⟨fun hx => hno' (mem_of_mem_tail hx), ?_, fun hx => absurd hx hno'⟩
    rw [hg]
    have := hag.member
    rwa [iff_false_intro hno, ← iff_false_intro hno'] at this
  · exact (h.agree m c' hm).congr (.pop hl (fun hc => hmc ⟨hc.1.symm, hc.2.symm⟩))

theorem grant (h : Inv s) {n x c : ℕ} (hn : n ≠ ownerOf c) (hreg : s.registered n = true)
    (hk : (s.daemon n).nodeAddress (ownerOf c) = true) (hno : .usubr c ∉ s.ups n c) :
    Inv ((s.set (ownerOf c) (remoted (s.daemon (ownerOf c)) c
      ((((s.daemon (ownerOf c)).channelRemote c).getD []).insert n))).send (ownerOf c) n
        (.subrRet x c false)) := by
  have hd := h.daemon (ownerOf c)
  refine ⟨Base.push (remote_set h.toBase ((hd.remote c).insert) ?_ fun m hm => ?_)
    (p := .subrRet x c false) ⟨rfl, Ne.symm hn⟩ nofun fun _ c' _ he => ?_, fun m c' hm => ?_⟩
  · rw [mem_insert_iff, not_or]
    exact ⟨Ne.symm hn, hd.own c⟩
  · rcases mem_insert_iff.1 hm with rfl | hm
    · exact .inr hreg
    · exact .inl hm
  · obtain ⟨-, rfl, -⟩ := Packet.subrRet.inj he
    rw [set_daemon_ne _ _ hn]
    exact hk
  · by_cases hmc : m = n ∧ c' = c
    · obtain ⟨rfl, rfl⟩ := hmc
      have hag := h.agree m c' hm
      have hu : ((s.set (ownerOf c') (remoted (s.daemon (ownerOf c')) c'
          ((((s.daemon (ownerOf c')).channelRemote c').getD []).insert m))).send (ownerOf c') m
          (.subrRet x c' false)).ups m c' = s.ups m c' := by
        rw [send_eq, ups, setLink_link_ne _ _ (fun h => hm h.1), set_link, ups]
      refine ⟨by rw [hu]; exact hag.behind, iff_of_true ?_ (.inr (.inl ⟨x, ?_⟩)), ?_⟩
      · exact member_remoted.2 (mem_insert_self)
      · rw [send_eq, setLink_link_self]
        exact mem_append_right _ mem_cons_self
      · rw [hu]
        exact fun hx => absurd hx hno
    · refine (h.agree m c' hm).congr ((same_remoted fun hc' => ?_).trans (.push ?_))
      · subst hc'
        rw [mem_insert_iff]
        exact or_iff_right fun hx => hmc ⟨hx, rfl⟩
      · exact fun hc => hmc ⟨hc.1.symm, hc.2.1.symm⟩

theorem subr (h : Inv s) {n b x c : ℕ} {ps : List Packet} (hl : s.link n b = .subr x c :: ps) :
    Inv ((s.setLink n b ps).subr b n x c) := by
  have hmem : Packet.subr x c ∈ s.link n b := by rw [hl]; exact mem_cons_self
  obtain ⟨hb, hn⟩ := h.routed n b (.subr x c) hmem
  subst hb
  have hk := h.known n c hn (.inr (.inl ⟨x, hmem⟩))
  have hreg : s.registered n = true := by
    rcases hreg : s.registered n with _ | _
    · exact absurd hmem ((h.idle n hreg).link _ _ _)
    · rfl
  obtain ⟨hpop, hno⟩ := h.pop_subr hl hn
  unfold Multicast.subr
  dsimp only
  split
  · refine ⟨hpop.toBase.push (p := .subrRet x c true) ⟨rfl, Ne.symm hn⟩ nofun fun _ c' _ he => ?_,
      fun m c' hm => (hpop.agree m c' hm).congr (.push (fun hc => Bool.noConfusion hc.2.2))⟩
    obtain ⟨-, rfl, -⟩ := Packet.subrRet.inj he
    exact hk
  · rw [if_pos ⟨hn, rfl⟩]
    exact hpop.grant hn hreg hk hno

theorem usubr (h : Inv s) {n b c : ℕ} {ps : List Packet} (hl : s.link n b = .usubr c :: ps) :
    Inv ((s.setLink n b ps).usubr b n c) := by
  have hmem : Packet.usubr c ∈ s.link n b := by rw [hl]; exact mem_cons_self
  obtain ⟨hb, hn⟩ := h.routed n b (.usubr c) hmem
  subst hb
  have hag := h.agree n c hn
  have hu : s.ups n c = .usubr c :: (s.setLink n (ownerOf c) ps).ups n c := by
    rw [ups, ups, hl, filter_cons_of_pos (by simp [Packet.Asks]), setLink_link_self]
  have hno := behind_of_ups hag hu
  have hups : .usubr c ∈ s.ups n c := by
    rw [hu]
    exact mem_cons_self
  have hmem' := hag.member.2 (.inr (.inr hups))
  obtain ⟨hnj, hng⟩ := hag.leaving hups
  have hpop := h.toBase.pop hl
  unfold Multicast.usubr
  rw [if_pos hn]
  rcases hg : (s.daemon (ownerOf c)).channelRemote c with _ | g
  · rw [Member, hg] at hmem'
    exact nomatch hmem'
  · have hnd := (h.daemon (ownerOf c)).remote c
    have hown := (h.daemon (ownerOf c)).own c
    rw [hg, getD_some] at hnd hown
    rw [setLink_daemon, hg]
    change Inv ((s.setLink n (ownerOf c) ps).set (ownerOf c)
      (remoted ((s.setLink n (ownerOf c) ps).daemon (ownerOf c)) c (g.erase n)))
    refine ⟨remote_set hpop (hnd.erase n) (fun hx => hown (mem_of_mem_erase hx)) fun m hx => ?_,
      fun m c' hm => ?_⟩
    · refine .inl ?_
      rw [Member, setLink_daemon, hg]
      exact mem_of_mem_erase hx
    · by_cases hmc : m = n ∧ c' = c
      · obtain ⟨rfl, rfl⟩ := hmc
        refine ⟨fun hx => hno (mem_of_mem_tail hx), iff_of_false ?_ ?_,
          fun hx => absurd hx hno⟩
        · rw [member_remoted]
          exact fun hx => (List.Nodup.mem_erase_iff hnd).1 hx |>.1 rfl
        · rintro (hx | hx | hx)
          · rw [Joined, set_daemon_ne _ _ hm] at hx
            exact hnj hx
          · rw [Granted, set_link, setLink_link_ne s _ (fun h => hm h.2)] at hx
            exact hng hx
          · exact hno hx
      · refine (h.agree m c' hm).congr ((Same.pop hl ?_).trans (same_remoted fun hc' => ?_))
        · exact fun hc => hmc ⟨hc.1.symm, hc.2.symm⟩
        · subst hc'
          rw [Member, setLink_daemon, hg, List.Nodup.mem_erase_iff hnd, getD_some]
          exact and_iff_right fun hx => hmc ⟨hx, rfl⟩

/-- The daemon leaves a channel of another node. -/
def leave (d : Daemon) (c : ℕ) : Daemon :=
  { d with
    channel := Function.update d.channel c none
    channelN := Function.update d.channelN c none }

theorem leave_channel (d : Daemon) (c : ℕ) :
    (leave d c).channel c = none ∧ ∀ c', c' ≠ c → (leave d c).channel c' = d.channel c' :=
  ⟨update_self _ _ _, fun _ h => update_of_ne h _ _⟩

theorem sound_leave {d : Daemon} {n c : ℕ} (hd : d.Sound n) : (leave d c).Sound n := by
  refine ⟨fun c' => ?_, fun c' => ?_, fun c' hc' => ?_, hd.remote, hd.foreign, hd.own, hd.jobs⟩
  · by_cases h : c' = c
    · subst h
      simp [leave]
    · simpa [leave, h] using hd.count c'
  · by_cases h : c' = c
    · subst h
      simp [leave]
    · simpa [leave, h] using hd.nodup c'
  · by_cases h : c' = c
    · subst h
      simp [leave]
    · simpa [leave, h] using hd.nonempty c' hc'

theorem leave_send (h : Inv s) {n c : ℕ} (hn : n ≠ ownerOf c) (hj : s.Joined n c)
    (hw : ¬ s.Awaits n c) :
    Inv ((s.set n (leave (s.daemon n) c)).send n (ownerOf c) (.usubr c)) := by
  obtain ⟨hgone, hrest⟩ := leave_channel (s.daemon n) c
  refine ⟨Base.push (h.toBase.set (sound_leave (h.daemon n)) (fun _ hk => hk) (fun c' _ hx => ?_)
    (fun c' m hm hx => ?_) fun hreg => ⟨(h.idle n hreg).jobs, fun c' hc' => ?_⟩)
    (p := .usubr c) ⟨rfl, hn⟩ nofun nofun, fun m c' hm => ?_⟩
  · by_cases hc' : c' = c
    · subst hc'
      exact absurd hgone hx
    · rw [hrest c' hc'] at hx
      exact .inl hx
  · subst hm
    exact .inl hx
  · have hcc : c' ≠ c := by
      rintro rfl
      exact hn hc'
    rw [hrest c' hcc]
    exact not_not.1 ((h.idle n hreg).own c' hc')
  · by_cases hmc : m = n ∧ c' = c
    · obtain ⟨rfl, rfl⟩ := hmc
      have hag := h.agree m c' hm
      have hups : s.ups m c' = [] := by
        refine filter_eq_nil_iff.2 fun p hp ha => ?_
        have ha : p.Asks c' := of_decide_eq_true ha
        rcases p with ⟨x, c''⟩ | ⟨x, c'', r⟩ | c'' | ⟨c'', msg⟩
        · obtain rfl : c'' = c' := ha
          exact hw ⟨x, .inl hp⟩
        · exact ha
        · obtain rfl : c'' = c' := ha
          have hx : .usubr c'' ∈ s.ups m c'' := mem_filter.2 ⟨hp, by simp [Packet.Asks]⟩
          exact (hag.leaving hx).1 hj
        · exact ha
      have hu : ((s.set m (leave (s.daemon m) c')).send m (ownerOf c') (.usubr c')).ups m c' =
          [.usubr c'] := by
        rw [ups] at hups
        rw [send_eq, ups, setLink_link_self, set_link, filter_append, hups]
        simp [Packet.Asks]
      have hmem : Packet.usubr c' ∈ [Packet.usubr c'] := mem_cons_self
      refine ⟨by rw [hu]; exact nofun, ?_, fun _ => ⟨fun hx => hx ?_, fun hx => ?_⟩⟩
      · rw [hu]
        refine iff_of_true ?_ (.inr (.inr hmem))
        have := hag.member.2 (.inl hj)
        rw [Member, send_eq, setLink_daemon, set_daemon_ne _ _ (Ne.symm hm)]
        exact this
      · rw [send_eq, setLink_daemon, set_daemon_self]
        exact hgone
      · obtain ⟨x, hx⟩ := hx
        rw [send_eq, setLink_link_ne _ _ (fun h => hm h.2), set_link] at hx
        exact hw ⟨x, .inr ⟨false, hx⟩⟩
    · refine (h.agree m c' hm).congr ((Same.set (fun he => ?_) fun he => ?_).trans (.push ?_))
      · subst he
        exact Iff.rfl
      · subst he
        rw [hrest c' fun hc => hmc ⟨rfl, hc⟩]
        exact Iff.rfl
      · exact fun hc => hmc ⟨hc.1.symm, hc.2.symm⟩

theorem usub (h : Inv s) {n source c : ℕ} (ht : s.Tame (.usub n source c)) :
    Inv (s.usub n source c) := by
  have hd := h.daemon n
  have hcount := hd.count c
  have hnd := hd.nodup c
  unfold Multicast.usub
  dsimp only
  split
  · exact h
  · next group hg =>
    rw [hg, map_some] at hcount
    rw [hg, getD_some] at hnd
    split
    · next hsrc =>
      split
      · next hlast =>
        have hlen : group.length = 1 := by
          have := hlast.1
          rw [hcount, map_some, some.injEq] at this
          omega
        have hone : group = [source] := by
          obtain ⟨a, rfl⟩ := length_eq_one_iff.1 hlen
          rw [mem_singleton.1 hsrc]
        have hn : n ≠ ownerOf c := Ne.symm hlast.2
        have hj : s.Joined n c := by
          rw [Joined, hg]
          exact nofun
        unfold sendTo
        rw [if_pos (by
          rw [set_daemon_self]
          exact h.known n c hn (.inl hj))]
        exact h.leave_send hn hj (ht hn (by rw [hg, hone]))
      · next hmore =>
        have hone : 1 ≤ group.length := length_pos_of_mem hsrc
        have hlen := length_erase_of_mem hsrc
        refine h.set ⟨fun c' => ?_, fun c' => ?_, fun c' hc' => ?_, hd.remote, hd.foreign, hd.own,
          hd.jobs⟩ (fun _ hk => hk) (fun c' _ => ?_) rfl fun hreg =>
            ⟨(h.idle n hreg).jobs, fun c' hc' => ?_⟩
        · by_cases he : c' = c
          · subst he
            simp only [update_self, hcount, map_some, hlen, some.injEq]
            omega
          · simpa [he] using hd.count c'
        · by_cases he : c' = c
          · subst he
            simpa using hnd.erase source
          · simpa [he] using hd.nodup c'
        · by_cases he : c' = c
          · subst he
            simp only [update_self, ne_eq, some.injEq]
            intro hnil
            rw [hnil] at hlen
            refine hmore ⟨?_, Ne.symm hc'⟩
            rw [hcount, map_some, some.injEq]
            simp only [length_nil] at hlen
            omega
          · simpa [he] using hd.nonempty c' hc'
        · by_cases he : c' = c
          · subst he
            simp [hg]
          · simp [he]
        · have hnone := not_not.1 ((h.idle n hreg).own c' hc')
          have he : c' ≠ c := by
            rintro rfl
            rw [hg] at hnone
            exact nomatch hnone
          simpa [he] using hnone
    · exact h

theorem sendMulticast (h : Inv s) {n c msg : ℕ} (hc : ownerOf c ≠ n) :
    Inv (s.sendTo n (.pub c msg) (.multicast c msg)) := by
  unfold sendTo
  split
  · exact h.push
  · exact h.wait hc nofun

theorem pub (h : Inv s) (n c : ℕ) : Inv (s.pub n c) := by
  have h' := h.congr_received (s.published + 1) s.received
  unfold Multicast.pub
  dsimp only
  split
  · next hc => exact h'.sendMulticast hc
  · exact h'.publishNodes n c _ _

theorem resolved (h : Inv s) {n i : ℕ} {s' : Multicast} (hs : s.resolved n i = some s') :
    Inv s' := by
  obtain ⟨job, hjob, rfl⟩ := map_eq_some_iff.1 hs
  have hmem : job ∈ (s.daemon n).jobs := List.mem_of_getElem? hjob
  have hd := h.daemon n
  have hroute := hd.jobs job hmem
  have hjobs : ∀ j ∈ (s.daemon n).jobs.eraseIdx i, j ∈ (s.daemon n).jobs :=
    fun j hj => mem_of_mem_eraseIdx hj
  have hidle : ∀ jobs : List Job, (∀ j ∈ jobs, j ∈ (s.daemon n).jobs) →
      s.registered n = false → (∀ x c, .sub x c ∉ jobs) ∧
        ∀ c, n = ownerOf c → (s.daemon n).channel c = none := fun jobs hsub hreg =>
    ⟨fun x c hx => (h.idle n hreg).jobs x c (hsub _ hx),
      fun c hc => not_not.1 ((h.idle n hreg).own c hc)⟩
  have h₁ : Inv (s.set n { s.daemon n with jobs := (s.daemon n).jobs.eraseIdx i }) :=
    h.set (hd.congr rfl rfl rfl fun j hj => hd.jobs j (hjobs j hj)) (fun _ hk => hk)
      (fun _ _ => Iff.rfl) rfl (hidle _ hjobs)
  dsimp only
  split
  · next hfound =>
    generalize hs₁ : s.set n { s.daemon n with jobs := (s.daemon n).jobs.eraseIdx i } = s₁ at h₁
    have hd₁ : s₁.daemon n = { s.daemon n with jobs := (s.daemon n).jobs.eraseIdx i } := by
      rw [← hs₁, set_daemon_self]
    have h₂ : Inv (s₁.set n { s₁.daemon n with
        nodeAddress := update (s.daemon n).nodeAddress job.node true }) := by
      refine h₁.set ((h₁.daemon n).congr rfl rfl rfl (h₁.daemon n).jobs) (fun k hk => ?_)
        (fun _ _ => Iff.rfl) rfl fun hreg =>
          ⟨(h₁.idle n hreg).jobs, fun c hc => not_not.1 ((h₁.idle n hreg).own c hc)⟩
      rw [hd₁] at hk
      by_cases hj : k = job.node
      · rw [hj]
        exact update_self _ _ _
      · exact (update_of_ne hj _ _).trans hk
    rcases job with ⟨x, c⟩ | c | ⟨c, msg⟩ | ⟨c, msg, node, nodes⟩
    · refine h₂.subr_send (Ne.symm hroute) ?_ ?_
      · rcases hreg : s.registered n with _ | _
        · exact absurd hmem ((h.idle n hreg).jobs x c)
        · rw [← hs₁]
          exact hreg
      · rw [set_daemon_self]
        exact update_self _ _ _
    · exact absurd hroute (fun hf => hf)
    · exact h₂.push
    · exact h₂.push.publishNodes _ _ _ _
  · exact h₁

theorem deliver (h : Inv s) {a b : ℕ} {s' : Multicast} (hs : s.deliver a b = some s') :
    Inv s' := by
  unfold Multicast.deliver at hs
  split at hs
  · exact nomatch hs
  · next p ps hl =>
    obtain rfl := some.inj hs
    rcases p with ⟨x, c⟩ | ⟨x, c, r⟩ | c | ⟨c, msg⟩
    · exact h.subr hl
    · exact h.subRet hl
    · exact h.usubr hl
    · exact (h.pop hl).publishNodes _ _ _ _

theorem step (h : Inv s) {act : Action} (ht : s.Tame act) {s' : Multicast}
    (hs : step s act = some s') : Inv s' := by
  rcases act with n | c | ⟨n, x, c⟩ | ⟨n, x, c⟩ | ⟨n, c⟩ | ⟨n, i⟩ | ⟨a, b⟩
  · simp only [Multicast.step, Multicast.start] at hs
    split at hs
    · exact nomatch hs
    · obtain rfl := some.inj hs
      exact h.start n
  all_goals simp only [Multicast.step] at hs
  · split at hs
    · next hreg => exact h.new hreg hs
    · exact nomatch hs
  · split at hs
    · next hreg =>
      obtain rfl := some.inj hs
      exact h.sub hreg
    · exact nomatch hs
  · split at hs
    · obtain rfl := some.inj hs
      exact h.usub ht
    · exact nomatch hs
  · split at hs
    · obtain rfl := some.inj hs
      exact h.pub n c
    · exact nomatch hs
  · exact h.resolved hs
  · exact h.deliver hs

end Inv

theorem inv_init : Inv machine.init := by
  have hups : ∀ n c, machine.init.ups n c = [] := fun _ _ => rfl
  have hgr : ∀ n c, ¬ machine.init.Granted n c := by
    rintro n c ⟨x, hx⟩
    exact nomatch hx
  refine ⟨⟨fun n => ⟨fun _ => rfl, fun _ => nodup_nil, fun _ _ => nofun,
    fun _ => nodup_nil, fun _ _ => rfl, fun _ => nofun, nofun⟩, nofun, fun n c hn hk => ?_,
    fun n _ => ⟨fun _ => nofun, fun _ _ _ => nofun, fun _ _ => nofun, fun _ _ hj => hj rfl⟩⟩,
    fun n c hn => ⟨nofun, iff_of_false nofun ?_, nofun⟩⟩
  · rcases hk with hj | ⟨x, hx⟩ | ⟨x, r, hx⟩
    · exact absurd rfl hj
    · exact nomatch hx
    · exact nomatch hx
  · rintro (hj | hg | hu)
    · exact hj rfl
    · exact hgr n c hg
    · exact nomatch hu

end Multicast

end SkynetGame
