import SkynetGame.Proofs.Multicast
import Mathlib.Data.List.Perm.Basic

/-!
# A published message reaches every subscriber once

From a state where nothing is in flight a message goes to the owner, to the nodes of
`channel_remote` one after the other as their addresses are found, and there to the services. At
any time each of these nodes is still to be sent it, has it on its link, or has served it
(`Phase.spread`). With what `Inv` says about the tables, those nodes are the ones with subscribers.
-/

namespace SkynetGame

open Function List

namespace Multicast

structure Quiet (s : Multicast) : Prop where
  link : ∀ a b, s.link a b = []
  jobs : ∀ n, (s.daemon n).jobs = []

/-- Steps that bring on what is in flight. -/
def Action.Carries : Action → Prop
  | .resolved _ _ | .deliver _ _ => True
  | .start _ | .new _ | .sub _ _ _ | .usub _ _ _ | .pub _ _ => False

/-- The subscribers of a channel on a node. -/
def group (s : Multicast) (c n : ℕ) : List ℕ := ((s.daemon n).channel c).getD []

/-- The nodes that the owner sends a message to. -/
def remotes (s : Multicast) (c : ℕ) : List ℕ := ((s.daemon (ownerOf c)).channelRemote c).getD []

/-- What is as in `s` while a message is on its way, with the coroutines that wait, the packets on
the links, and the nodes that it has reached. -/
structure Carried (s t : Multicast) (c : ℕ) (jobs : ℕ → List Job) (link : ℕ → ℕ → List Packet)
    (reached : ℕ → Prop) : Prop where
  channel : ∀ n, (t.daemon n).channel = (s.daemon n).channel
  remote : ∀ n, (t.daemon n).channelRemote = (s.daemon n).channelRemote
  registered : t.registered = s.registered
  jobs : ∀ n, (t.daemon n).jobs = jobs n
  link : ∀ a b, t.link a b = link a b
  received : ∃ l, t.received = s.received ++ l ∧ l.Nodup ∧
    ∀ m n x, (m, n, x) ∈ l ↔ m = s.published ∧ reached n ∧ x ∈ s.group c n

namespace Carried

variable {s t : Multicast} {c : ℕ} {J : ℕ → List Job} {L : ℕ → ℕ → List Packet} {P : ℕ → Prop}

theorem congr (h : Carried s t c J L P) {J' : ℕ → List Job} {L' : ℕ → ℕ → List Packet}
    {P' : ℕ → Prop} (hj : ∀ n, J n = J' n) (hl : ∀ a b, L a b = L' a b) (hp : ∀ n, P n ↔ P' n) :
    Carried s t c J' L' P' := by
  obtain rfl : J = J' := funext hj
  obtain rfl : L = L' := funext fun a => funext (hl a)
  obtain rfl : P = P' := funext fun n => propext (hp n)
  exact h

theorem setLink (h : Carried s t c J L P) (a b : ℕ) (l : List Packet) :
    Carried s (t.setLink a b l) c J (update L a (update (L a) b l)) P where
  channel := h.channel
  remote := h.remote
  registered := h.registered
  jobs := h.jobs
  link a' b' := by
    have hL : t.link = L := funext fun a => funext (h.link a)
    rw [Multicast.setLink, hL]
  received := h.received

theorem set (h : Carried s t c J L P) {n : ℕ} {d : Daemon}
    (hc : d.channel = (t.daemon n).channel) (hr : d.channelRemote = (t.daemon n).channelRemote) :
    Carried s (t.set n d) c (update J n d.jobs) L P := by
  refine ⟨fun m => ?_, fun m => ?_, h.registered, fun m => ?_, h.link, h.received⟩
  all_goals
    by_cases hm : m = n
    · subst hm
      rw [set_daemon_self]
      first
        | exact hc.trans (h.channel m)
        | exact hr.trans (h.remote m)
        | exact (update_self m d.jobs J).symm
    · rw [set_daemon_ne t d hm]
      first
        | exact h.channel m
        | exact h.remote m
        | exact (h.jobs m).trans (update_of_ne hm d.jobs J).symm

theorem redirect (h : Carried s t c J L P) {n : ℕ} (hn : ¬ P n) (hnd : (s.group c n).Nodup) :
    Carried s (t.redirect n c s.published) c J L (fun k => P k ∨ k = n) := by
  refine ⟨h.channel, h.remote, h.registered, h.jobs, h.link, ?_⟩
  obtain ⟨l, hl, hl', hmem⟩ := h.received
  have hg : ((t.daemon n).channel c).getD [] = s.group c n := by rw [h.channel, group]
  refine ⟨l ++ (s.group c n).map fun x => (s.published, n, x), ?_, ?_, fun m k x => ?_⟩
  · rw [Multicast.redirect, hg, hl, append_assoc]
  · refine Nodup.append hl' (hnd.map fun x y hxy => ?_) fun r hr hr' => ?_
    · exact congrArg (fun r : ℕ × ℕ × ℕ => r.2.2) hxy
    · obtain ⟨x, -, rfl⟩ := mem_map.1 hr'
      exact hn ((hmem _ _ _).1 hr).2.1
  · rw [mem_append, hmem, mem_map]
    constructor
    · rintro (⟨hm, hk, hx⟩ | ⟨y, hy, he⟩)
      · exact ⟨hm, .inl hk, hx⟩
      · obtain ⟨rfl, rfl, rfl⟩ : s.published = m ∧ n = k ∧ y = x := by simpa using he
        exact ⟨rfl, .inr rfl, hy⟩
    · rintro ⟨rfl, hk | rfl, hx⟩
      · exact .inl ⟨rfl, hk, hx⟩
      · exact .inr ⟨x, hx, rfl⟩

/-- The links while the owner sends: to these nodes it has, and no one has served it. -/
def toNodes (o c msg : ℕ) (sent : List ℕ) (a b : ℕ) : List Packet :=
  if a = o ∧ b ∈ sent then [.multicast c msg] else []

/-- The loop over the nodes that are left waits at the first of them. -/
def waiting (o c msg : ℕ) (todo : List ℕ) (n : ℕ) : List Job :=
  if n = o then
    match todo with
    | [] => []
    | node :: nodes => [.publish c msg node nodes]
  else []

theorem send_node (h : Carried s t c J (toNodes (ownerOf c) c s.published sent) P) {node : ℕ}
    (hn : node ∉ sent) : Carried s (t.send (ownerOf c) node (.multicast c s.published)) c J
      (toNodes (ownerOf c) c s.published (node :: sent)) P := by
  have hl : t.link (ownerOf c) node = [] := by
    rw [h.link, toNodes, if_neg fun hx => hn hx.2]
  rw [send_eq, hl]
  refine (h.setLink _ _ _).congr (fun _ => rfl) (fun a b => ?_) fun _ => Iff.rfl
  by_cases ha : a = ownerOf c
  · subst ha
    by_cases hb : b = node
    · subst hb
      simp [toNodes]
    · simp [toNodes, hb]
  · simp [toNodes, ha]

theorem perm_send {node : ℕ} {nodes sent served R : List ℕ}
    (hp : (node :: nodes ++ sent ++ served).Perm R) : (nodes ++ node :: sent ++ served).Perm R :=
  (perm_middle.append_right served).trans hp

theorem not_mem_sent {node : ℕ} {nodes sent served R : List ℕ}
    (hp : (node :: nodes ++ sent ++ served).Perm R) (hR : R.Nodup) : node ∉ sent := by
  have hnd := hp.nodup_iff.2 hR
  rw [append_assoc, cons_append, nodup_cons, mem_append, not_or,
    mem_append, not_or] at hnd
  exact hnd.1.2.1

theorem publishNodes (hR : (s.remotes c).Nodup) (ho : ownerOf c ∉ s.remotes c)
    (hnd : (s.group c (ownerOf c)).Nodup) (served : List ℕ) : ∀ (nodes : List ℕ) {t : Multicast}
    {sent : List ℕ}, Carried s t c (fun _ => []) (toNodes (ownerOf c) c s.published sent)
      (fun n => n ∈ served) → (nodes ++ sent ++ served).Perm (s.remotes c) →
    ∃ todo sent', (todo ++ sent' ++ served).Perm (s.remotes c) ∧
      2 * todo.length + sent'.length ≤ 2 * nodes.length + sent.length ∧
      Carried s (publishNodes (ownerOf c) c s.published nodes t) c
        (waiting (ownerOf c) c s.published todo) (toNodes (ownerOf c) c s.published sent')
        (fun n => n ∈ served ∨ todo = [] ∧ n = ownerOf c)
  | [], t, sent, h, hp => by
    have hs : ownerOf c ∉ served := fun hx => ho (hp.subset (mem_append_right _ hx))
    refine ⟨[], sent, hp, Nat.le_refl _, (h.redirect hs hnd).congr (fun n => ?_) (fun _ _ => rfl)
      fun n => ?_⟩
    · simp [waiting]
    · simp
  | node :: nodes, t, sent, h, hp => by
    have hmem : node ∈ ((t.daemon (ownerOf c)).channelRemote c).getD [] := by
      rw [h.remote]
      exact hp.subset (mem_append_left _ (mem_append_left _ mem_cons_self))
    unfold Multicast.publishNodes
    rw [if_neg (not_not.2 hmem)]
    split
    · obtain ⟨todo, sent', hp', hle, h'⟩ := publishNodes hR ho hnd served nodes
        (h.send_node (not_mem_sent hp hR)) (perm_send hp)
      refine ⟨todo, sent', hp', ?_, h'⟩
      simp only [length_cons] at hle ⊢
      omega
    · have hw := h.set (n := ownerOf c) (d := { t.daemon (ownerOf c) with
        jobs := (t.daemon (ownerOf c)).jobs ++ [.publish c s.published node nodes] }) rfl rfl
      refine ⟨node :: nodes, sent, hp, Nat.le_refl _, hw.congr (fun n => ?_) (fun _ _ => rfl)
        fun n => ?_⟩
      · by_cases hn : n = ownerOf c
        · subst hn
          simp [waiting, h.jobs]
        · simp [waiting, hn]
      · simp

theorem resolved (h : Carried s t c J L P) {n i : ℕ} {j : Job} (hj : (J n)[i]? = some j)
    (hreg : s.registered j.node = true) :
    ∃ t₁, t.resolved n i = some (t₁.resume n j) ∧
      Carried s t₁ c (update J n ((J n).eraseIdx i)) L P := by
  have h₁ := h.set (n := n)
    (d := { t.daemon n with jobs := (t.daemon n).jobs.eraseIdx i }) rfl rfl
  have h₂ := h₁.set (n := n) (d := { (t.set n { t.daemon n with
    jobs := (t.daemon n).jobs.eraseIdx i }).daemon n with
      nodeAddress := update (t.daemon n).nodeAddress j.node true }) rfl rfl
  refine ⟨_, ?_, h₂.congr (fun m => ?_) (fun _ _ => rfl) fun _ => Iff.rfl⟩
  · have hj' : (t.daemon n).jobs[i]? = some j := by rw [h.jobs, hj]
    have hreg' : t.registered j.node = true := by rw [h.registered, hreg]
    unfold Multicast.resolved
    dsimp only
    rw [hj', Option.map_some]
    exact congrArg some (if_pos hreg')
  · rw [set_daemon_self, h.jobs]
    by_cases hm : m = n
    · subst hm
      rw [update_self, update_self]
    · rw [update_of_ne hm, update_of_ne hm]

theorem deliver (h : Carried s t c J L P) {a b m : ℕ} (hl : L a b = [.multicast c m]) :
    t.deliver a b = some ((t.setLink a b []).publish b c m) ∧
      Carried s (t.setLink a b []) c J (update L a (update (L a) b [])) P := by
  refine ⟨?_, h.setLink a b []⟩
  rw [Multicast.deliver, h.link, hl]
  rfl

end Carried

/-- How far the message that `n₀` published from `s` is, with a bound on the steps that are left. -/
inductive Phase (s : Multicast) (c n₀ : ℕ) : ℕ → Multicast → Prop
  | asking {t : Multicast} (hn : n₀ ≠ ownerOf c)
      (h : Carried s t c (Function.update (fun _ => []) n₀ [.pub c s.published]) (fun _ _ => [])
        (fun _ => False)) : Phase s c n₀ (2 * (s.remotes c).length + 2) t
  | toOwner {t : Multicast} (hn : n₀ ≠ ownerOf c)
      (h : Carried s t c (fun _ => []) (Function.update (fun _ _ => []) n₀
        (Function.update (fun _ => []) (ownerOf c) [.multicast c s.published]))
        (fun _ => False)) : Phase s c n₀ (2 * (s.remotes c).length + 1) t
  | spread {t : Multicast} (todo sent served : List ℕ)
      (hp : (todo ++ sent ++ served).Perm (s.remotes c))
      (h : Carried s t c (Carried.waiting (ownerOf c) c s.published todo)
        (Carried.toNodes (ownerOf c) c s.published sent)
        (fun n => n ∈ served ∨ todo = [] ∧ n = ownerOf c)) :
      Phase s c n₀ (2 * todo.length + sent.length) t

/-- A channel of `s` whose subscribers' nodes are in the owner's table. -/
structure Live (s : Multicast) (c : ℕ) : Prop where
  remotes : (s.remotes c).Nodup
  other : ownerOf c ∉ s.remotes c
  groups : ∀ n, (s.group c n).Nodup
  foreign : ∀ n, n ≠ ownerOf c → (s.daemon n).channelRemote c = none
  reaches : ∀ n x, x ∈ s.group c n → n = ownerOf c ∨ n ∈ s.remotes c
  registered : s.registered (ownerOf c) = true
  known : ∀ n ∈ s.remotes c, s.registered n = true

namespace Phase

variable {s t t' : Multicast} {c n₀ k : ℕ}

theorem publish (hs : s.Live c) (h : Carried s t c (fun _ => []) (fun _ _ => [])
    (fun _ => False)) : ∃ k ≤ 2 * (s.remotes c).length,
      Phase s c n₀ k (t.publish (ownerOf c) c s.published) := by
  have hnone : Carried s t c (fun _ => [])
      (Carried.toNodes (ownerOf c) c s.published []) (fun n => n ∈ ([] : List ℕ)) :=
    h.congr (fun _ => rfl) (fun _ _ => by simp [Carried.toNodes]) fun _ => by simp
  have hrem : ((t.daemon (ownerOf c)).channelRemote c).getD [] = s.remotes c := by
    rw [h.remote, remotes]
  obtain ⟨todo, sent, hp, hle, h'⟩ := hnone.publishNodes hs.remotes hs.other
    (hs.groups (ownerOf c)) [] (s.remotes c) (by simp)
  refine ⟨2 * todo.length + sent.length, ?_, ?_⟩
  · simpa using hle
  · rw [Multicast.publish, hrem]
    exact .spread todo sent [] hp h'

theorem pub (hs : s.Live c) (hq : s.Quiet) : ∃ k, Phase s c n₀ k (s.pub n₀ c) := by
  have h : Carried s { s with published := s.published + 1 } c (fun _ => []) (fun _ _ => [])
      (fun _ => False) :=
    ⟨fun _ => rfl, fun _ => rfl, rfl, hq.jobs, hq.link, [], by simp⟩
  unfold Multicast.pub
  dsimp only
  split
  · next hn =>
    unfold sendTo
    split
    · refine ⟨_, .toOwner (Ne.symm hn) ?_⟩
      have hl : ({ s with published := s.published + 1 } : Multicast).link n₀ (ownerOf c) = [] :=
        hq.link _ _
      rw [send_eq, show (Job.pub c s.published).node = ownerOf c from rfl, hl]
      exact h.setLink _ _ _
    · refine ⟨_, .asking (Ne.symm hn) ((h.set (n := n₀) (d := { s.daemon n₀ with
        jobs := (s.daemon n₀).jobs ++ [.pub c s.published] }) rfl rfl).congr (fun m => ?_)
          (fun _ _ => rfl) fun _ => Iff.rfl)⟩
      simp [hq.jobs]
  · next hn =>
    obtain rfl : ownerOf c = n₀ := not_not.1 hn
    obtain ⟨k, -, hk⟩ := publish hs h
    exact ⟨k, hk⟩

theorem waiting_some {o c msg n i : ℕ} {todo : List ℕ} {job : Job}
    (h : (Carried.waiting o c msg todo n)[i]? = some job) :
    n = o ∧ i = 0 ∧ ∃ node nodes, todo = node :: nodes ∧ job = .publish c msg node nodes := by
  unfold Carried.waiting at h
  split at h
  · next hn =>
    rcases todo with _ | ⟨node, nodes⟩
    · exact nomatch h
    · rcases i with _ | i
      · exact ⟨hn, rfl, node, nodes, rfl, (Option.some.inj h).symm⟩
      · exact nomatch h
  · exact nomatch h

theorem resolved (hs : s.Live c) (h : Phase s c n₀ k t) {n i : ℕ}
    (hst : t.resolved n i = some t') : ∃ k' < k, Phase s c n₀ k' t' := by
  obtain ⟨job, hjob, -⟩ := Option.map_eq_some_iff.1 hst
  rcases h with ⟨hn, h⟩ | ⟨hn, h⟩ | ⟨todo, sent, served, hp, h⟩
  · rw [h.jobs] at hjob
    by_cases hm : n = n₀
    · subst hm
      rcases i with _ | i
      · obtain rfl : Job.pub c s.published = job := by simpa using hjob
        obtain ⟨t₁, ht₁, h₁⟩ := h.resolved (n := n) (i := 0) (j := .pub c s.published)
          (by simp) hs.registered
        rw [ht₁] at hst
        obtain rfl := Option.some.inj hst
        refine ⟨_, Nat.lt_succ_self _, .toOwner hn ?_⟩
        rw [resume, send_eq, h₁.link]
        exact (h₁.setLink _ _ _).congr (fun m => by simp) (fun _ _ => rfl) fun _ => Iff.rfl
      · simp at hjob
    · simp [hm] at hjob
  · rw [h.jobs] at hjob
    exact nomatch hjob
  · have hj := hjob
    rw [h.jobs] at hj
    obtain ⟨rfl, rfl, node, nodes, rfl, rfl⟩ := waiting_some hj
    obtain ⟨t₁, ht₁, h₁⟩ := h.resolved hj
      (hs.known node (hp.subset (mem_append_left _ (mem_append_left _
        mem_cons_self))))
    rw [ht₁] at hst
    obtain rfl := Option.some.inj hst
    have h₂ : Carried s t₁ c (fun _ => []) (Carried.toNodes (ownerOf c) c s.published sent)
        (fun n => n ∈ served) := h₁.congr (fun m => by
      by_cases hm : m = ownerOf c
      · subst hm
        simp [Carried.waiting]
      · simp [Carried.waiting, hm]) (fun _ _ => rfl) fun n => by simp
    obtain ⟨todo, sent', hp', hle, h'⟩ := (h₂.send_node (Carried.not_mem_sent hp hs.remotes)).publishNodes
      hs.remotes hs.other (hs.groups _) served nodes (Carried.perm_send hp)
    refine ⟨_, ?_, .spread todo sent' served hp' h'⟩
    simp only [length_cons] at hle ⊢
    omega

theorem deliver (hs : s.Live c) (h : Phase s c n₀ k t) {a b : ℕ}
    (hst : t.deliver a b = some t') : ∃ k' < k, Phase s c n₀ k' t' := by
  have hl : t.link a b ≠ [] := fun hl => by
    rw [Multicast.deliver, hl] at hst
    exact nomatch hst
  rcases h with ⟨hn, h⟩ | ⟨hn, h⟩ | ⟨todo, sent, served, hp, h⟩
  · exact absurd (h.link a b) hl
  · rw [h.link] at hl
    obtain rfl : a = n₀ := by
      by_contra ha
      simp [ha] at hl
    obtain rfl : b = ownerOf c := by
      by_contra hb
      simp [hb] at hl
    obtain ⟨ht, h'⟩ := h.deliver (a := a) (b := ownerOf c) (m := s.published) (by simp)
    rw [ht] at hst
    obtain rfl := Option.some.inj hst
    have hnone : Carried s (t.setLink a (ownerOf c) []) c (fun _ => []) (fun _ _ => [])
        (fun _ => False) := h'.congr (fun _ => rfl) (fun a' b' => by
      by_cases ha : a' = a
      · subst ha
        by_cases hb : b' = ownerOf c <;> simp [hb]
      · simp [ha]) fun _ => Iff.rfl
    obtain ⟨k', hle, hk'⟩ := @publish _ _ _ a hs hnone
    exact ⟨k', Nat.lt_succ_of_le hle, hk'⟩
  · rw [h.link, Carried.toNodes] at hl
    obtain ⟨rfl, hb⟩ : a = ownerOf c ∧ b ∈ sent := by
      by_contra hab
      exact hl (if_neg hab)
    obtain ⟨ht, h'⟩ := h.deliver (a := ownerOf c) (b := b) (m := s.published)
      (if_pos ⟨rfl, hb⟩)
    rw [ht] at hst
    obtain rfl := Option.some.inj hst
    have hnd := hp.nodup_iff.2 hs.remotes
    have hbR : b ∈ s.remotes c := hp.subset (mem_append_left _ (mem_append_right _ hb))
    have hbo : b ≠ ownerOf c := fun he => hs.other (he ▸ hbR)
    have hsent : sent.Nodup := (nodup_append.1 (nodup_append.1 hnd).1).2.1
    have hbs : b ∉ served := fun hx =>
      (nodup_append.1 hnd).2.2 b (mem_append_right _ hb) b hx rfl
    have hnone : ((t.setLink (ownerOf c) b []).daemon b).channelRemote c = none := by
      rw [h'.remote, hs.foreign b hbo]
    have hp' : (todo ++ sent.erase b ++ b :: served).Perm (s.remotes c) := by
      refine Perm.trans ?_ hp
      refine perm_middle.trans ?_
      rw [← cons_append]
      refine Perm.append_right _ (perm_middle.symm.trans ?_)
      exact Perm.append_left _ (perm_cons_erase hb).symm
    refine ⟨_, ?_, .spread todo (sent.erase b) (b :: served) hp' ?_⟩
    · have := length_erase_of_mem hb
      have := length_pos_of_mem hb
      omega
    · rw [Multicast.publish, hnone]
      refine (h'.redirect (n := b) (fun hx => ?_) (hs.groups b)).congr (fun _ => rfl)
        (fun a' b' => ?_) fun n => ?_
      · rcases hx with hx | ⟨-, hx⟩
        · exact hbs hx
        · exact hbo hx
      · by_cases ha : a' = ownerOf c
        · subst ha
          by_cases hb' : b' = b
          · subst hb'
            simp [Carried.toNodes, hsent.mem_erase_iff]
          · simp [Carried.toNodes, hsent.mem_erase_iff, hb']
        · simp [Carried.toNodes, ha]
      · rw [mem_cons]
        tauto

theorem reached (hs : s.Live c) (h : Phase s c n₀ k t) (hq : t.Quiet) :
    ∃ l, t.received = s.received ++ l ∧ l.Nodup ∧
      ∀ m n x, (m, n, x) ∈ l ↔ m = s.published ∧ x ∈ s.group c n := by
  rcases h with ⟨hn, h⟩ | ⟨hn, h⟩ | ⟨todo, sent, served, hp, h⟩
  · have := (h.jobs n₀).symm.trans (hq.jobs n₀)
    simp at this
  · have := (h.link n₀ (ownerOf c)).symm.trans (hq.link _ _)
    simp at this
  · have htodo : todo = [] := by
      have := (h.jobs (ownerOf c)).symm.trans (hq.jobs _)
      rcases todo with _ | ⟨node, nodes⟩
      · rfl
      · simp [Carried.waiting] at this
    have hsent : sent = [] := by
      refine eq_nil_iff_forall_not_mem.2 fun b hb => ?_
      have := (h.link (ownerOf c) b).symm.trans (hq.link _ _)
      simp [Carried.toNodes, hb] at this
    subst htodo hsent
    obtain ⟨l, hl, hnd, hmem⟩ := h.received
    refine ⟨l, hl, hnd, fun m n x => (hmem m n x).trans (and_congr_right fun _ => ?_)⟩
    refine and_iff_right_of_imp fun hx => ?_
    rcases hs.reaches n x hx with hn | hn
    · exact .inr ⟨rfl, hn⟩
    · exact .inl (by simpa using hp.mem_iff.2 hn)

theorem progress (hs : s.Live c) (h : Phase s c n₀ k t) :
    t.Quiet ∨ ∃ act t', act.Carries ∧ machine.step t act = some t' := by
  rcases h with ⟨hn, h⟩ | ⟨hn, h⟩ | ⟨todo, sent, served, hp, h⟩
  · obtain ⟨t₁, ht₁, -⟩ := h.resolved (n := n₀) (i := 0) (j := .pub c s.published) (by simp)
      hs.registered
    exact .inr ⟨.resolved n₀ 0, _, trivial, ht₁⟩
  · obtain ⟨ht, -⟩ := h.deliver (a := n₀) (b := ownerOf c) (m := s.published) (by simp)
    exact .inr ⟨.deliver n₀ (ownerOf c), _, trivial, ht⟩
  · rcases todo with _ | ⟨node, nodes⟩
    · rcases sent with _ | ⟨b, bs⟩
      · refine .inl ⟨fun a b => ?_, fun n => ?_⟩
        · rw [h.link]
          simp [Carried.toNodes]
        · rw [h.jobs]
          simp [Carried.waiting]
      · obtain ⟨ht, -⟩ := h.deliver (a := ownerOf c) (b := b) (m := s.published)
          (by simp [Carried.toNodes])
        exact .inr ⟨.deliver (ownerOf c) b, _, trivial, ht⟩
    · obtain ⟨t₁, ht₁, -⟩ := h.resolved (n := ownerOf c) (i := 0)
        (j := .publish c s.published node nodes) (by simp [Carried.waiting])
        (hs.known node (hp.subset (by simp)))
      exact .inr ⟨.resolved (ownerOf c) 0, _, trivial, ht₁⟩

theorem step (hs : s.Live c) (h : Phase s c n₀ k t) {act : Action} (hc : act.Carries)
    (hst : machine.step t act = some t') : ∃ k' < k, Phase s c n₀ k' t' := by
  rcases act with n | c | ⟨n, x, c⟩ | ⟨n, x, c⟩ | ⟨n, c⟩ | ⟨n, i⟩ | ⟨a, b⟩
  · exact absurd hc (fun hf => hf)
  · exact absurd hc (fun hf => hf)
  · exact absurd hc (fun hf => hf)
  · exact absurd hc (fun hf => hf)
  · exact absurd hc (fun hf => hf)
  · exact resolved hs h hst
  · exact deliver hs h hst

theorem steps (hs : s.Live c) (h : Phase s c n₀ k t)
    (hst : machine.Steps (fun _ act => act.Carries) t t') : ∃ k' ≤ k, Phase s c n₀ k' t' := by
  refine hst.invariant (I := fun u => ∃ k' ≤ k, Phase s c n₀ k' u) ⟨k, Nat.le_refl k, h⟩ ?_
  rintro u act u' ⟨k', hk', hu⟩ hc hu'
  obtain ⟨k'', hlt, hp⟩ := step hs hu hc hu'
  exact ⟨k'', Nat.le_trans (Nat.le_of_lt hlt) hk', hp⟩

theorem ends (hs : s.Live c) : ∀ (k : ℕ) {t : Multicast}, Phase s c n₀ k t →
    ∃ t', machine.Steps (fun _ act => act.Carries) t t' ∧ t'.Quiet := by
  intro k
  induction k using Nat.strongRecOn with
  | _ k ih =>
    intro t h
    rcases progress hs h with hq | ⟨act, t', hc, hst⟩
    · exact ⟨t, .refl, hq⟩
    · obtain ⟨k', hlt, h'⟩ := step hs h hc hst
      obtain ⟨t'', hsteps, hq⟩ := ih k' hlt h'
      have hone : machine.Steps (fun _ act => act.Carries) t t' := .single hc hst
      exact ⟨t'', hone.trans hsteps, hq⟩

end Phase

theorem Inv.remote_iff {s : Multicast} (h : Inv s) (hl : ∀ a b, s.link a b = []) {n c : ℕ}
    (hn : n ≠ ownerOf c) : s.Member n c ↔ s.Joined n c := by
  have hnot : ¬ (s.Granted n c ∨ .usubr c ∈ s.ups n c) := by
    rintro (⟨x, hx⟩ | hx)
    · rw [hl] at hx
      cases hx
    · rw [ups, hl] at hx
      cases hx
  have hm := (h.agree n c hn).member
  rwa [or_iff_left hnot] at hm

theorem Inv.live {s : Multicast} (h : Inv s) (hl : ∀ a b, s.link a b = []) {c : ℕ}
    (hc : (s.daemon (ownerOf c)).channel c ≠ none) : s.Live c := by
  have hd := h.daemon (ownerOf c)
  refine ⟨hd.remote c, hd.own c, fun n => (h.daemon n).nodup c,
    fun n hn => (h.daemon n).foreign c hn, fun n x hx => ?_, ?_, fun n hn => ?_⟩
  · by_cases hn : n = ownerOf c
    · exact .inl hn
    · refine .inr ((h.remote_iff hl hn).2 fun hnone => ?_)
      rw [group, hnone] at hx
      exact nomatch hx
  · by_contra hreg
    exact (h.idle _ (Bool.eq_false_iff.2 hreg)).own c rfl hc
  · by_contra hreg
    exact (h.idle _ (Bool.eq_false_iff.2 hreg)).member c hn

/-- What the daemons' tables say, and what becomes of a message that is published now. -/
structure Settled (s : Multicast) : Prop where
  count : ∀ n c, (s.daemon n).channelN c = ((s.daemon n).channel c).map fun g => (g.length : ℤ)
  nodup : ∀ n c, (s.group c n).Nodup
  remote : (∀ a b, s.link a b = []) → ∀ n c, (s.daemon (ownerOf c)).channel c ≠ none →
    (n ∈ s.remotes c ↔ n ≠ ownerOf c ∧ ∃ x, x ∈ s.group c n)
  published : s.Quiet → ∀ n₀ c, s.registered n₀ = true →
    (s.daemon (ownerOf c)).channel c ≠ none → ∃ s₁, machine.step s (.pub n₀ c) = some s₁ ∧
      ∀ t, machine.Steps (fun _ act => act.Carries) s₁ t →
        (∃ t', machine.Steps (fun _ act => act.Carries) t t' ∧ t'.Quiet) ∧
        (t.Quiet → ∃ l, t.received = s.received ++ l ∧ l.Nodup ∧
          ∀ m n x, (m, n, x) ∈ l ↔ m = s.published ∧ x ∈ s.group c n)

/-- In every run of tame steps. -/
theorem settled_of_tame {s : Multicast} (h : machine.Reach Tame s) : s.Settled := by
  have hinv : Inv s := h.invariant inv_init fun s act s' hs ht hst => hs.step ht hst
  refine ⟨fun n => (hinv.daemon n).count, fun n c => (hinv.daemon n).nodup c,
    fun hl n c _ => ?_, fun hq n₀ c hreg hc => ?_⟩
  · by_cases hn : n = ownerOf c
    · subst hn
      exact iff_of_false ((hinv.daemon _).own c) fun hx => hx.1 rfl
    · refine (hinv.remote_iff hl hn).trans ⟨fun hj => ⟨hn, ?_⟩, fun ⟨_, x, hx⟩ hnone => ?_⟩
      · rcases hg : (s.daemon n).channel c with _ | _ | ⟨x, g⟩
        · exact absurd hg hj
        · exact absurd hg ((hinv.daemon n).nonempty c hn)
        · refine ⟨x, ?_⟩
          rw [group, hg]
          exact List.mem_cons_self
      · rw [group, hnone] at hx
        exact nomatch hx
  · have hs := hinv.live hq.link hc
    obtain ⟨k, hk⟩ := @Phase.pub s c n₀ hs hq
    refine ⟨_, if_pos hreg, fun t ht => ?_⟩
    obtain ⟨k', -, hk'⟩ := Phase.steps hs hk ht
    exact ⟨Phase.ends hs k' hk', Phase.reached hs hk'⟩

/-- A channel of node 1 with a subscriber on node 2. -/
theorem settled_of_tame_remote : ∃ s : Multicast, s.remotes 257 = [2] ∧ s.group 257 2 = [10] ∧
    s.Settled := by
  have h₀ : machine.Reach Tame machine.init := .init
  have hopen := ((h₀.step (i := Action.start 1) trivial rfl).step (i := Action.start 2) trivial
    rfl).step (i := Action.new 257) trivial rfl
  have h := (((hopen.step (i := Action.sub 2 10 257) trivial rfl).step
    (i := Action.resolved 2 0) trivial rfl).step (i := Action.deliver 2 1) trivial rfl).step
    (i := Action.deliver 1 2) trivial rfl
  exact ⟨_, rfl, rfl, settled_of_tame h⟩

/-- The first of two SUBs is answered and its service leaves before the second is. -/
theorem not_settled_of_leave : ¬ ∀ s, machine.Reachable s → s.Settled := by
  intro h
  have h₀ : machine.Reachable machine.init := Machine.Reach.init
  have hopen := ((h₀.step (i := Action.start 1) trivial rfl).step (i := Action.start 2) trivial
    rfl).step (i := Action.new 257) trivial rfl
  have hsubr := (((hopen.step (i := Action.sub 2 10 257) trivial rfl).step
    (i := Action.sub 2 11 257) trivial rfl).step (i := Action.resolved 2 0) trivial rfl).step
    (i := Action.resolved 2 0) trivial rfl
  have hanswered := (hsubr.step (i := Action.deliver 2 1) trivial rfl).step
    (i := Action.deliver 2 1) trivial rfl
  have hr := (((hanswered.step (i := Action.deliver 1 2) trivial rfl).step
    (i := Action.usub 2 10 257) trivial rfl).step (i := Action.deliver 1 2) trivial rfl).step
    (i := Action.deliver 2 1) trivial rfl
  have hlink : ∀ a b, ((((((((((machine.init.setLink 2 1 [.subr 10 257]).setLink 2 1
      [.subr 10 257, .subr 11 257]).setLink 2 1 [.subr 11 257]).setLink 1 2
      [.subrRet 10 257 false]).setLink 2 1 []).setLink 1 2
      [.subrRet 10 257 false, .subrRet 11 257 false]).setLink 1 2
      [.subrRet 11 257 false]).setLink 2 1 [.usubr 257]).setLink 1 2 []).setLink 2 1 []).link a b =
        [] := fun a b => by
    by_cases h₂ : a = 2 ∧ b = 1
    · obtain ⟨rfl, rfl⟩ := h₂
      rfl
    by_cases h₁ : a = 1 ∧ b = 2
    · obtain ⟨rfl, rfl⟩ := h₁
      rfl
    simp only [setLink_link_ne _ _ h₂, setLink_link_ne _ _ h₁]
    rfl
  exact nomatch ((h _ hr).remote hlink 2 257 nofun).2 ⟨nofun, 11, List.mem_cons_self⟩

end Multicast

end SkynetGame
