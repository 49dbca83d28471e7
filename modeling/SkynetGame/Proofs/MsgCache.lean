import SkynetGame.Lib.Aging
import SkynetGame.MsgCache
import SkynetGame.Proofs.Reconnect

/-!
# What stays in a response cache

The index of a complete entry is its mark, and `u.index` the counter that `retire_response` sets
back with all of them, so the loop drops no entry before its time (`Stock.holds_of_shift`).
Besides, an entry is dropped only by a packet with its session, which reuses the session or is taken
to do so (`Cache.Tame`).
-/

namespace SkynetGame

open Function List Option

namespace MsgServer

variable {ν : Type*}

section Retire

variable (conf : MsgConf ν)

/-- Whether the loop in `retire_response` drops an entry. -/
def Expired (e : MsgEntry ν) : Prop := e.returnFd = none ∧ e.index < conf.expiredNumber

/-- What the loop has done with some entries. -/
structure Retired (l : List (ℕ × ℕ)) (st r : List (ℕ × ℕ) × (ℕ → MsgEntry ν) × ℕ) : Prop where
  sub : r.1.Sublist st.1
  mem : ∀ e, e ∈ r.1 ↔ e ∈ st.1 ∧ ∀ k ∈ l, k.1 = e.1 → ¬ Expired conf (st.2.1 k.2)
  kept : ∀ k ∈ l, (st.2.1 k.2).returnFd = none → conf.expiredNumber ≤ (st.2.1 k.2).index →
    (r.2.1 k.2).index + conf.expiredNumber = (st.2.1 k.2).index ∧ (r.2.1 k.2).index ≤ r.2.2
  other : ∀ q, q ∉ l.map Prod.snd → r.2.1 q = st.2.1 q
  le : st.2.2 ≤ r.2.2
  max : r.2.2 = st.2.2 ∨ ∃ k ∈ l, (st.2.1 k.2).returnFd = none ∧
    (st.2.1 k.2).index = r.2.2 + conf.expiredNumber

/-- A round of the loop passes over an entry that is not complete, drops one, or takes its index
down. -/
theorem retireOne_cases (st : List (ℕ × ℕ) × (ℕ → MsgEntry ν) × ℕ) (k : ℕ × ℕ) :
    (st.2.1 k.2).returnFd ≠ none ∧ retireOne conf st k = st ∨
    (st.2.1 k.2).returnFd = none ∧ (st.2.1 k.2).index < conf.expiredNumber ∧
      retireOne conf st k = (st.1.filter fun e => e.1 ≠ k.1, st.2.1, st.2.2) ∨
    (st.2.1 k.2).returnFd = none ∧ conf.expiredNumber ≤ (st.2.1 k.2).index ∧
      retireOne conf st k =
        (st.1, update st.2.1 k.2
          { st.2.1 k.2 with index := (st.2.1 k.2).index - conf.expiredNumber },
          max st.2.2 ((st.2.1 k.2).index - conf.expiredNumber)) := by
  unfold retireOne
  dsimp only
  by_cases hr : (st.2.1 k.2).returnFd = none
  · rw [if_pos hr]
    by_cases hlt : (st.2.1 k.2).index < conf.expiredNumber
    · rw [if_pos hlt]
      exact .inr (.inl ⟨hr, hlt, rfl⟩)
    · rw [if_neg hlt, max_def]
      refine .inr (.inr ⟨hr, Nat.le_of_not_lt hlt, ?_⟩)
      congr 2
      split_ifs <;> omega
  · rw [if_neg hr]
    exact .inl ⟨hr, rfl⟩

namespace Retired

variable {conf} {l l₁ l₂ : List (ℕ × ℕ)} {st st₁ r : List (ℕ × ℕ) × (ℕ → MsgEntry ν) × ℕ}

theorem append (h₁ : Retired conf l₁ st st₁) (h₂ : Retired conf l₂ st₁ r)
    (hd : ∀ q ∈ l₁.map Prod.snd, q ∉ l₂.map Prod.snd) : Retired conf (l₁ ++ l₂) st r := by
  have hl₂ : ∀ k ∈ l₂, st₁.2.1 k.2 = st.2.1 k.2 := fun k hk =>
    h₁.other _ fun hm => hd _ hm (List.mem_map_of_mem hk)
  refine ⟨h₂.sub.trans h₁.sub, fun e => ?_, fun k hk hr hle => ?_, fun q hq => ?_,
    h₁.le.trans h₂.le, ?_⟩
  · rw [h₂.mem, h₁.mem, and_assoc, forall_mem_append]
    refine and_congr_right fun _ => and_congr_right fun _ => forall₂_congr fun k hk => ?_
    rw [hl₂ k hk]
  · rcases mem_append.1 hk with hk | hk
    · obtain ⟨hi, hm⟩ := h₁.kept k hk hr hle
      rw [h₂.other _ (hd _ (List.mem_map_of_mem hk))]
      exact ⟨hi, hm.trans h₂.le⟩
    · rw [← hl₂ k hk] at hr hle ⊢
      exact h₂.kept k hk hr hle
  · rw [map_append, mem_append, not_or] at hq
    rw [h₂.other q hq.2, h₁.other q hq.1]
  · rcases h₂.max with hm | ⟨k, hk, hr, hi⟩
    · rw [hm]
      refine h₁.max.imp_right ?_
      rintro ⟨k, hk, h⟩
      exact ⟨k, mem_append_left _ hk, h⟩
    · rw [hl₂ k hk] at hr hi
      exact .inr ⟨k, mem_append_right _ hk, hr, hi⟩

theorem nil : Retired conf [] st st :=
  ⟨.refl _, by simp, by simp, fun _ _ => rfl, le_rfl, .inl rfl⟩

theorem single (st : List (ℕ × ℕ) × (ℕ → MsgEntry ν) × ℕ) (k : ℕ × ℕ) :
    Retired conf [k] st (retireOne conf st k) := by
  rcases retireOne_cases conf st k with ⟨hr, h⟩ | ⟨hr, hlt, h⟩ | ⟨hr, hle, h⟩ <;> rw [h]
  · refine ⟨.refl _, fun e => ?_, by simp [hr], fun _ _ => rfl, le_rfl, .inl rfl⟩
    simp [Expired, hr]
  · refine ⟨filter_sublist, fun e => ?_, by simp [hlt.not_ge], fun _ _ => rfl, le_rfl,
      .inl rfl⟩
    simp only [mem_filter, mem_singleton, forall_eq, Expired, hr, hlt, and_self,
      not_true_eq_false, imp_false, decide_not, Bool.not_eq_true', decide_eq_false_iff_not,
      eq_comm (a := e.1)]
  · refine ⟨.refl _, fun e => ?_, ?_, fun q hq => ?_, le_max_left _ _, ?_⟩
    · simp [Expired, hle]
    · simp only [mem_singleton, forall_eq, update_self]
      exact fun _ _ => ⟨Nat.sub_add_cancel hle, le_max_right _ _⟩
    · exact update_of_ne (by simpa using hq) _ _
    · refine (max_choice st.2.2 ((st.2.1 k.2).index - conf.expiredNumber)).imp_right fun hm => ?_
      refine ⟨k, mem_singleton_self k, hr, ?_⟩
      dsimp only
      rw [hm, Nat.sub_add_cancel hle]

theorem foldl : ∀ (l : List (ℕ × ℕ)) (st : List (ℕ × ℕ) × (ℕ → MsgEntry ν) × ℕ),
    (l.map Prod.snd).Nodup → Retired conf l st (l.foldl (retireOne conf) st)
  | [], _, _ => nil
  | k :: l, st, hnd => by
    rw [map_cons, nodup_cons] at hnd
    refine append (single st k) (foldl l _ hnd.2) fun q hq => ?_
    obtain rfl : q = k.2 := by simpa using hq
    exact hnd.1

end Retired

end Retire

variable {s s' : MsgServer ν} {answered : ℕ → ℕ} {stamp : ℕ → Option ℕ} {u p : ℕ}

theorem setUser_users (s : MsgServer ν) (u : ℕ) (r : MsgUser ν) (v : ℕ) :
    (s.setUser u r).users v = if v = u then r else s.users v := update_apply ..

theorem setEntry_entries (s : MsgServer ν) (p : ℕ) (e : MsgEntry ν) (q : ℕ) :
    (s.setEntry p e).entries q = if q = p then e else s.entries q := update_apply ..

/-- What the steps leave alone that are not about the cache of a user. -/
structure Calm (s s' : MsgServer ν) : Prop where
  response : ∀ u, (s'.users u).response = (s.users u).response
  index : ∀ u, (s'.users u).index = (s.users u).index
  entries : s'.entries = s.entries
  nEntries : s'.nEntries = s.nEntries
  nUsers : s.nUsers ≤ s'.nUsers

namespace Calm

variable {s₁ : MsgServer ν}

theorem trans (h₁ : Calm s s₁) (h₂ : Calm s₁ s') : Calm s s' where
  response u := (h₂.response u).trans (h₁.response u)
  index u := (h₂.index u).trans (h₁.index u)
  entries := h₂.entries.trans h₁.entries
  nEntries := h₂.nEntries.trans h₁.nEntries
  nUsers := h₁.nUsers.trans h₂.nUsers

theorem of_tables (hu : s'.users = s.users) (he : s'.entries = s.entries)
    (hne : s'.nEntries = s.nEntries) (hn : s'.nUsers = s.nUsers) : Calm s s' where
  response _ := by rw [hu]
  index _ := by rw [hu]
  entries := he
  nEntries := hne
  nUsers := hn.ge

theorem setUser {r : MsgUser ν} (hr : r.response = (s.users u).response)
    (hi : r.index = (s.users u).index) : Calm s (s.setUser u r) where
  response v := by
    by_cases hv : v = u
    · subst hv
      simp [MsgServer.setUser, hr]
    · simp [MsgServer.setUser, hv]
  index v := by
    by_cases hv : v = u
    · subst hv
      simp [MsgServer.setUser, hi]
    · simp [MsgServer.setUser, hv]
  entries := rfl
  nEntries := rfl
  nUsers := le_rfl

theorem closeclient (fd : ℕ) : Calm s (s.closeclient fd) := by
  unfold MsgServer.closeclient
  split <;> exact of_tables rfl rfl rfl rfl

theorem closeFd (fd : ℕ) : Calm s (s.closeFd fd) := by
  unfold MsgServer.closeFd
  split <;> exact of_tables rfl rfl rfl rfl

theorem requestFailed (fd : ℕ) : Calm s (s.requestFailed fd) := by
  unfold MsgServer.requestFailed
  split
  · exact closeclient fd
  · exact of_tables rfl rfl rfl rfl

theorem login [Zero ν] (hb : (s.users s.nUsers).response = [] ∧ (s.users s.nUsers).index = 0)
    (username secret : Bytes) : Calm s (s.login username secret) := by
  unfold MsgServer.login
  split
  · exact of_tables rfl rfl rfl rfl
  · refine ⟨fun u => ?_, fun u => ?_, rfl, rfl, Nat.le_succ _⟩
    · by_cases hu : u = s.nUsers
      · simp [hu, hb.1]
      · simp [hu]
    · by_cases hu : u = s.nUsers
      · simp [hu, hb.2]
      · simp [hu]

theorem logout (username : Bytes) : Calm s (s.logout username) := by
  unfold MsgServer.logout
  split
  · exact of_tables rfl rfl rfl rfl
  · rename_i u _
    have h₀ : Calm s { s with userOnline := update s.userOnline username none } :=
      of_tables rfl rfl rfl rfl
    have h₁ := h₀.trans (setUser (u := u) (r := { s.users u with out := true }) rfl rfl)
    dsimp only
    split
    · exact h₁
    · rename_i fd _
      refine (h₁.trans (closeclient fd)).trans ?_
      exact of_tables rfl rfl rfl rfl

theorem openClient (conf : MsgConf ν) (fd : ℕ) (addr : Bytes) :
    Calm s (s.openClient conf fd addr) := by
  unfold MsgServer.openClient
  split <;> exact of_tables rfl rfl rfl rfl

theorem close (conf : MsgConf ν) (fd : ℕ) : Calm s (s.close conf fd) := by
  have h₀ : Calm s { s with
      handshake := update s.handshake fd none
      conns := s.conns.filter fun c => c.1 ≠ fd } := of_tables rfl rfl rfl rfl
  unfold MsgServer.close
  dsimp only
  split
  · exact h₀.trans (closeFd fd)
  · rename_i u _
    have h₁ := h₀.trans (setUser (u := u) (r := { s.users u with fd := none }) rfl rfl)
    split
    · refine h₁.trans ?_
      exact of_tables rfl rfl rfl rfl
    · refine trans (h₁.trans ?_) (closeFd fd)
      exact of_tables rfl rfl rfl rfl

end Calm

/-- What the end of `do_request` does to the caches before it looks through one, where the entry has
become `e`. -/
structure Answered (s : MsgServer ν) (p : ℕ) (e : MsgEntry ν) (s' : MsgServer ν) : Prop where
  users : ∀ v, s'.users v =
    if v = e.user then { s.users e.user with index := (s.users e.user).index + 1 } else s.users v
  entries : ∀ q, s'.entries q = if q = p then { e with returnFd := none } else s.entries q
  nEntries : s'.nEntries = s.nEntries
  nUsers : s'.nUsers = s.nUsers

theorem respond_eq (conf : MsgConf ν) (s : MsgServer ν) (p : ℕ) (e : MsgEntry ν) :
    ∃ s', Answered s p e s' ∧ (s.setEntry p e).respond conf p = s'.retireResponse conf e.user := by
  have he : (s.setEntry p e).entries p = e := update_self ..
  have hd : ∀ s₁ : MsgServer ν, (s₁.deliver e).users = s₁.users ∧
      (s₁.deliver e).entries = s₁.entries ∧ (s₁.deliver e).nEntries = s₁.nEntries ∧
      (s₁.deliver e).nUsers = s₁.nUsers := by
    intro s₁
    unfold deliver
    split
    · split <;> exact ⟨rfl, rfl, rfl, rfl⟩
    · exact ⟨rfl, rfl, rfl, rfl⟩
  set s₁ := (s.setEntry p e).setUser e.user
    { (s.setEntry p e).users e.user with
      index := ((s.setEntry p e).users e.user).index + 1 } with hs₁
  obtain ⟨hu, hent, hn, hn'⟩ := hd s₁
  refine ⟨(s₁.deliver e).setEntry p { e with returnFd := none },
    ⟨fun v => ?_, fun q => ?_, hn, hn'⟩, by simp only [respond, he, hs₁]⟩
  · exact (congrFun hu v).trans (setUser_users ..)
  · rw [setEntry_entries, hent]
    split_ifs with hq
    · rfl
    · exact update_of_ne hq _ _

/-- What `retire_response` does when it looks through the cache of a user. -/
structure Shift (conf : MsgConf ν) (s : MsgServer ν) (u : ℕ) (s' : MsgServer ν) : Prop where
  sub : (s'.users u).response.Sublist (s.users u).response
  mem : ∀ e, e ∈ (s'.users u).response ↔
    e ∈ (s.users u).response ∧ ¬ Expired conf (s.entries e.2)
  other : ∀ v ≠ u, s'.users v = s.users v
  entry : ∀ q, ∃ i, s'.entries q = { s.entries q with index := i }
  index : ∀ e ∈ (s.users u).response, (s.entries e.2).returnFd = none →
    conf.expiredNumber ≤ (s.entries e.2).index →
    (s'.entries e.2).index + conf.expiredNumber = (s.entries e.2).index ∧
      (s'.entries e.2).index < (s'.users u).index
  stay : ∀ q, q ∉ (s.users u).response.map Prod.snd → s'.entries q = s.entries q
  top : (s'.users u).index + conf.expiredNumber ≤ (s.users u).index
  nEntries : s'.nEntries = s.nEntries
  nUsers : s'.nUsers = s.nUsers

theorem Shift.fixed {conf : MsgConf ν} (S : Shift conf s u s') (q : ℕ) :
    (s'.entries q).user = (s.entries q).user ∧ (s'.entries q).session = (s.entries q).session ∧
      (s'.entries q).running = (s.entries q).running ∧
      (s'.entries q).response = (s.entries q).response ∧
      (s'.entries q).returnFd = (s.entries q).returnFd := by
  obtain ⟨i, hi⟩ := S.entry q
  rw [hi]
  exact ⟨rfl, rfl, rfl, rfl, rfl⟩

/-- The index of a complete entry in the cache of a user. -/
def mark (s : MsgServer ν) (u q : ℕ) : Option ℕ :=
  if ((s.users u).response.any fun e => e.1 = (s.entries q).session ∧ e.2 = q) ∧
      (s.entries q).response.isSome then
    some (s.entries q).index
  else none

theorem mark_eq_ite (s : MsgServer ν) (u q : ℕ) : mark s u q =
    if ((s.entries q).session, q) ∈ (s.users u).response ∧ (s.entries q).response ≠ none then
      some (s.entries q).index
    else none := by
  have hany : ((s.users u).response.any fun e => e.1 = (s.entries q).session ∧ e.2 = q) = true ↔
      ((s.entries q).session, q) ∈ (s.users u).response := by
    simp only [List.any_eq_true, decide_eq_true_eq]
    refine ⟨?_, fun h => ⟨_, h, rfl, rfl⟩⟩
    rintro ⟨e, he, hs, hq⟩
    rwa [← hs, ← hq]
  unfold mark
  simp only [hany, isSome_iff_ne_none]

theorem mark_eq_some {q i : ℕ} : mark s u q = some i ↔
    (((s.entries q).session, q) ∈ (s.users u).response ∧ (s.entries q).response ≠ none) ∧
      (s.entries q).index = i := by
  rw [mark_eq_ite]
  split_ifs with h
  · simp [h]
  · simp [h]

/-- What the caches are like, with how many responses there were of each user, and with the last one
of each entry. -/
structure Stock (s : MsgServer ν) (answered : ℕ → ℕ) (stamp : ℕ → Option ℕ) : Prop where
  blank : ∀ u, s.nUsers ≤ u → (s.users u).response = [] ∧ (s.users u).index = 0
  keys : ∀ u, ((s.users u).response.map Prod.fst).Nodup
  cache : ∀ u, ∀ e ∈ (s.users u).response,
    e.2 < s.nEntries ∧ (s.entries e.2).user = u ∧ (s.entries e.2).session = e.1
  entry : ∀ p < s.nEntries, (s.entries p).user < s.nUsers ∧
    ((s.entries p).running = true → (s.entries p).response = none) ∧
    ((s.entries p).response = none ↔ (s.entries p).returnFd ≠ none)
  stamped : ∀ p, stamp p ≠ none → p < s.nEntries ∧ (s.entries p).response ≠ none
  aged : ∀ u, Aged (mark s u) (s.users u).index (answered u) stamp

namespace Stock

theorem values (h : s.Stock answered stamp) (u : ℕ) :
    ((s.users u).response.map Prod.snd).Nodup := by
  refine List.Nodup.map_on (fun e he e' he' heq => ?_) (h.keys u).of_map
  have hs := (h.cache u e he).2.2
  have hs' := (h.cache u e' he').2.2
  rw [heq] at hs
  exact Prod.ext (hs.symm.trans hs') heq

theorem eq_of_key (h : s.Stock answered stamp) {e e' : ℕ × ℕ} (he : e ∈ (s.users u).response)
    (he' : e' ∈ (s.users u).response) (heq : e.1 = e'.1) : e = e' :=
  inj_on_of_nodup_map (h.keys u) he he' heq

theorem lookup (h : s.Stock answered stamp) {session : ℕ}
    (hp : (session, p) ∈ (s.users u).response) : (s.users u).response.lookup session = some p := by
  rcases hl : (s.users u).response.lookup session with _ | q
  · rw [lookup_eq_none_iff] at hl
    simpa using hl _ hp
  · rw [some.injEq]
    exact congrArg Prod.snd (h.eq_of_key (mem_of_lookup hl) hp rfl)

theorem calm (h : s.Stock answered stamp) (hc : Calm s s') : s'.Stock answered stamp := by
  have hm : s'.mark = s.mark := by
    funext v q
    simp only [mark, hc.response, hc.entries]
  refine ⟨fun v hv => ?_, fun v => ?_, fun v => ?_, fun q => ?_, fun q => ?_, fun v => ?_⟩
  · rw [hc.response, hc.index]
    exact h.blank v (hc.nUsers.trans hv)
  · rw [hc.response]
    exact h.keys v
  · rw [hc.response, hc.nEntries, hc.entries]
    exact h.cache v
  · rw [hc.nEntries, hc.entries]
    intro hq
    obtain ⟨hu, hrest⟩ := h.entry q hq
    exact ⟨hu.trans_le hc.nUsers, hrest⟩
  · rw [hc.nEntries, hc.entries]
    exact h.stamped q
  · rw [hm, hc.index]
    exact h.aged v

theorem setEntry (h : s.Stock answered stamp) (hp : p < s.nEntries)
    (hnone : (s.entries p).response = none) {e : MsgEntry ν} (hu : e.user = (s.entries p).user)
    (hs : e.session = (s.entries p).session) (hr : e.response = none) (hfd : e.returnFd ≠ none) :
    (s.setEntry p e).Stock answered stamp := by
  have hent := setEntry_entries s p e
  have hm : (s.setEntry p e).mark = s.mark := by
    funext v q
    simp only [mark, hent]
    by_cases hq : q = p
    · simp [hq, hr, hnone]
    · rw [if_neg hq]
      rfl
  refine ⟨h.blank, h.keys, fun v k hk => ?_, fun q hq => ?_, fun q hq => ?_, fun v => ?_⟩
  · obtain ⟨hlt, hku, hks⟩ := h.cache v k hk
    rw [hent]
    split_ifs with heq
    · rw [heq] at hku hks
      exact ⟨hlt, hu.trans hku, hs.trans hks⟩
    · exact ⟨hlt, hku, hks⟩
  · obtain ⟨hqu, hrest⟩ := h.entry q hq
    rw [hent]
    split_ifs with heq
    · rw [heq] at hqu
      refine ⟨?_, fun _ => hr, fun _ => hfd, fun _ => hr⟩
      rw [hu]
      exact hqu
    · exact ⟨hqu, hrest⟩
  · obtain ⟨hlt, hqr⟩ := h.stamped q hq
    have hne : q ≠ p := by
      rintro rfl
      exact hqr hnone
    rw [hent, if_neg hne]
    exact ⟨hlt, hqr⟩
  · rw [hm]
    exact h.aged v

theorem drop (h : s.Stock answered stamp) (session : ℕ) :
    (s.setUser u { s.users u with
      response := (s.users u).response.filter fun e => e.1 ≠ session }).Stock answered stamp := by
  have hresp : ∀ v, ((s.setUser u { s.users u with
      response := (s.users u).response.filter fun e => e.1 ≠ session }).users v).response.Sublist
      (s.users v).response := by
    intro v
    rw [setUser_users]
    split_ifs with hv
    · rw [hv]
      exact filter_sublist
    · exact .refl _
  have hindex : ∀ v, ((s.setUser u { s.users u with
      response := (s.users u).response.filter fun e => e.1 ≠ session }).users v).index =
      (s.users v).index := by
    intro v
    rw [setUser_users]
    split_ifs with hv
    · rw [hv]
    · rfl
  refine ⟨fun v hv => ?_, fun v => ?_, fun v e he => h.cache v e ((hresp v).subset he), h.entry,
    h.stamped, fun v => ?_⟩
  · obtain ⟨hb, hi⟩ := h.blank v hv
    have hsub := hresp v
    rw [hb, sublist_nil] at hsub
    exact ⟨hsub, (hindex v).trans hi⟩
  · exact (h.keys v).sublist ((hresp v).map _)
  · rw [hindex]
    refine (h.aged v).mono (fun {q i} hm => ?_) fun _ => rfl
    rw [mark_eq_some] at hm ⊢
    exact ⟨⟨(hresp v).subset hm.1.1, hm.1.2⟩, hm.2⟩

theorem execute (h : s.Stock answered stamp) (hu : u < s.nUsers) (fd session : ℕ)
    (message : Bytes) : (s.execute fd u session message).Stock answered stamp := by
  have hent : ∀ q < s.nEntries, (s.execute fd u session message).entries q = s.entries q :=
    fun q hq => update_of_ne hq.ne _ _
  have hnew : (s.execute fd u session message).entries s.nEntries =
      ⟨some fd, none, none, 0, u, session, fd, message.take (message.length - 4), true,
        s.gen fd, fd, none⟩ := update_self ..
  have hn : (s.execute fd u session message).nEntries = s.nEntries + 1 := rfl
  have hu' : (s.execute fd u session message).users u = { s.users u with
      response := (session, s.nEntries) :: (s.users u).response.filter fun e => e.1 ≠ session } :=
    update_self ..
  have hv' : ∀ v ≠ u, (s.execute fd u session message).users v = s.users v := fun v hv =>
    update_of_ne hv _ _
  have hcache : ∀ v, ∀ e ∈ ((s.execute fd u session message).users v).response,
      v = u ∧ e = (session, s.nEntries) ∨ e ∈ (s.users v).response := by
    intro v e he
    by_cases hv : v = u
    · rw [hv, hu'] at he
      rcases mem_cons.1 he with he | he
      · exact .inl ⟨hv, he⟩
      · rw [hv]
        exact .inr (mem_filter.1 he).1
    · rw [hv' v hv] at he
      exact .inr he
  refine ⟨fun v hv => ?_, fun v => ?_, fun v e he => ?_, fun q hq => ?_, fun q hq => ?_,
    fun v => ?_⟩
  · rw [hv' v (hu.trans_le hv).ne']
    exact h.blank v hv
  · by_cases hv : v = u
    · rw [hv, hu', map_cons, nodup_cons]
      refine ⟨fun hm => ?_, (h.keys u).sublist (filter_sublist.map _)⟩
      obtain ⟨e, he, hes⟩ := List.mem_map.1 hm
      simpa [hes] using (mem_filter.1 he).2
    · rw [hv' v hv]
      exact h.keys v
  · rcases hcache v e he with ⟨rfl, rfl⟩ | he
    · rw [hnew]
      exact ⟨Nat.lt_succ_self _, rfl, rfl⟩
    · obtain ⟨hlt, hrest⟩ := h.cache v e he
      rw [hent _ hlt]
      exact ⟨Nat.lt_succ_of_lt hlt, hrest⟩
  · rw [hn] at hq
    rcases Nat.lt_succ_iff_lt_or_eq.1 hq with hq | rfl
    · rw [hent q hq]
      exact h.entry q hq
    · rw [hnew]
      exact ⟨hu, fun _ => rfl, by simp⟩
  · obtain ⟨hlt, hr⟩ := h.stamped q hq
    rw [hent q hlt]
    exact ⟨Nat.lt_succ_of_lt hlt, hr⟩
  · have hindex : ((s.execute fd u session message).users v).index = (s.users v).index := by
      by_cases hv : v = u
      · rw [hv, hu']
      · rw [hv' v hv]
    rw [hindex]
    refine (h.aged v).mono (fun {q i} hm => ?_) fun _ => rfl
    obtain ⟨⟨hm, hr⟩, hi⟩ := mark_eq_some.1 hm
    rcases hcache v _ hm with ⟨-, he⟩ | he
    · obtain rfl : q = s.nEntries := congrArg Prod.snd he
      rw [hnew] at hr
      exact absurd rfl hr
    · have hlt : q < s.nEntries := (h.cache v _ he).1
      rw [hent q hlt] at he hr hi
      exact mark_eq_some.2 ⟨⟨he, hr⟩, hi⟩

theorem answer (h : s.Stock answered stamp) (hp : p < s.nEntries) {e : MsgEntry ν}
    (hu : e.user = (s.entries p).user) (hs : e.session = (s.entries p).session)
    (hi : e.index = (s.users (s.entries p).user).index) (hr : e.response ≠ none)
    (hrun : e.running = false) (ha : Answered s p e s') :
    s'.Stock
      (update answered (s.entries p).user (answered (s.entries p).user + 1))
      (if s.Holds p then update stamp p (some (answered (s.entries p).user + 1))
        else stamp) := by
  have hresp : ∀ v, (s'.users v).response = (s.users v).response := by
    intro v
    rw [ha.users, hu]
    split_ifs with hv
    · rw [hv]
    · rfl
  have hmark : ∀ v, ∀ q ≠ p, mark s' v q = mark s v q := by
    intro v q hq
    simp only [mark, hresp, ha.entries, if_neg hq]
  have hholds : ∀ v, ((s.entries p).session, p) ∈ (s.users v).response ↔
      v = (s.entries p).user ∧ s.Holds p := by
    refine fun v => ⟨fun hm => ?_, ?_⟩
    · obtain ⟨-, rfl, -⟩ := h.cache v _ hm
      exact ⟨rfl, hm⟩
    · rintro ⟨rfl, hm⟩
      exact hm
  have hmark' : ∀ v, mark s' v p = if v = (s.entries p).user ∧ s.Holds p then
      some (s.users (s.entries p).user).index else none := by
    intro v
    simp only [mark_eq_ite, hresp, ha.entries, if_true, hs, hholds, hi, ne_eq, hr,
      not_false_eq_true, and_true]
  have hmark₀ : ∀ v, ¬ (v = (s.entries p).user ∧ s.Holds p) → mark s v p = none := by
    intro v hv
    rw [mark_eq_ite]
    exact if_neg fun hm => hv ((hholds v).1 hm.1)
  refine ⟨fun v hv => ?_, fun v => ?_, fun v k hk => ?_, fun q hq => ?_, fun q hq => ?_,
    fun v => ?_⟩
  · rw [ha.nUsers] at hv
    have hne : v ≠ (s.entries p).user := ((h.entry p hp).1.trans_le hv).ne'
    rw [ha.users, hu, if_neg hne]
    exact h.blank v hv
  · rw [hresp]
    exact h.keys v
  · rw [hresp] at hk
    obtain ⟨hlt, hku, hks⟩ := h.cache v k hk
    rw [ha.nEntries, ha.entries]
    split_ifs with hkp
    · rw [hkp] at hku hks
      exact ⟨hlt, hu.trans hku, hs.trans hks⟩
    · exact ⟨hlt, hku, hks⟩
  · rw [ha.nEntries] at hq
    rw [ha.entries, ha.nUsers]
    split_ifs with hqp
    · rw [hqp] at hq
      refine ⟨hu ▸ (h.entry p hq).1, fun hrun' => ?_, fun hnone => absurd hnone hr, fun hne => ?_⟩
      · rw [hrun] at hrun'
        cases hrun'
      · exact absurd rfl hne
    · exact h.entry q hq
  · rw [ha.nEntries, ha.entries]
    by_cases hqp : q = p
    · rw [if_pos hqp, hqp]
      exact ⟨hp, hr⟩
    · rw [if_neg hqp]
      refine h.stamped q ?_
      split_ifs at hq
      · rwa [update_of_ne hqp] at hq
      · exact hq
  · by_cases hv : v = (s.entries p).user
    · have hindex : (s'.users v).index = (s.users v).index + 1 := by
        rw [ha.users, hu, if_pos hv, hv]
      rw [hindex, hv, update_self]
      split_ifs with hh
      · have heq : mark s' (s.entries p).user = update (mark s (s.entries p).user) p
            (some (s.users (s.entries p).user).index) := by
          funext q
          by_cases hq : q = p
          · rw [hq, hmark', if_pos ⟨rfl, hh⟩, update_self]
          · rw [hmark _ q hq, update_of_ne hq]
        rw [heq]
        exact (h.aged _).touch p
      · have heq : mark s' (s.entries p).user = mark s (s.entries p).user := by
          funext q
          by_cases hq : q = p
          · rw [hq, hmark', if_neg fun hn => hh hn.2, hmark₀ _ fun hn => hh hn.2]
          · exact hmark _ q hq
        rw [heq]
        exact (h.aged _).pass
    · have hindex : (s'.users v).index = (s.users v).index := by rw [ha.users, hu, if_neg hv]
      rw [hindex, update_of_ne hv]
      have hne : ∀ {q i}, mark s' v q = some i → q ≠ p := by
        rintro q i hm rfl
        rw [hmark', if_neg fun hn => hv hn.1] at hm
        cases hm
      refine (h.aged v).mono (fun hm => (hmark v _ (hne hm)).symm.trans hm) fun hm => ?_
      split_ifs
      · exact update_of_ne (hne hm) _ _
      · rfl

theorem mark_of_mem (h : s.Stock answered stamp) {k : ℕ × ℕ} (hk : k ∈ (s.users u).response)
    (hr : (s.entries k.2).returnFd = none) : mark s u k.2 = some (s.entries k.2).index := by
  obtain ⟨hlt, -, hs⟩ := h.cache u k hk
  refine mark_eq_some.2 ⟨⟨?_, fun hnone => (h.entry _ hlt).2.2.1 hnone hr⟩, rfl⟩
  rw [hs]
  exact hk

theorem retireResponse (h : s.Stock answered stamp) {conf : MsgConf ν} (hN : 0 < conf.expiredNumber)
    (htop : conf.expiredNumber * 2 ≤ (s.users u).index) :
    Shift conf s u (s.retireResponse conf u) := by
  have hr : Retired conf _ _ _ := Retired.foldl (s.users u).response
    ((s.users u).response, s.entries, 0) (h.values u)
  have hfix := (retire_foldl_spec conf (s.users u).response
    ((s.users u).response, s.entries, 0)).2
  set r := (s.users u).response.foldl (retireOne conf) ((s.users u).response, s.entries, 0) with hr'
  have heq : s.retireResponse conf u = setUser { s with entries := r.2.1 } u
      { s.users u with response := r.1, index := r.2.2 + 1 } := if_pos htop
  have hself : (s.retireResponse conf u).users u =
      { s.users u with response := r.1, index := r.2.2 + 1 } := by
    rw [heq, setUser_users, if_pos rfl]
  have hent : (s.retireResponse conf u).entries = r.2.1 := by
    rw [heq]
    rfl
  refine ⟨?_, fun e => ?_, fun v hv => ?_, ?_, fun e he hfd hle => ?_, ?_, ?_, ?_, ?_⟩
  · rw [hself]
    exact hr.sub
  · rw [hself]
    refine (hr.mem e).trans (and_congr_right fun he => ⟨fun hk => hk e he rfl, ?_⟩)
    intro hx k hk hke
    rw [h.eq_of_key hk he hke]
    exact hx
  · rw [heq, setUser_users, if_neg hv]
  · rw [hent]
    exact hfix
  · rw [hent, hself]
    obtain ⟨hi, hlt⟩ := hr.kept e he hfd hle
    exact ⟨hi, Nat.lt_succ_of_le hlt⟩
  · rw [hent]
    exact hr.other
  · rw [hself]
    dsimp only
    rcases hr.max with hm | ⟨k, hk, hfd, hi⟩
    · rw [hm]
      dsimp only
      omega
    · have hlt := (h.aged u).below (h.mark_of_mem hk hfd)
      dsimp only at hi
      omega
  · rw [heq]
    rfl
  · rw [heq]
    rfl

variable {conf : MsgConf ν}

theorem mark_of_shift (h : s.Stock answered stamp) (S : Shift conf s u s') {q i : ℕ}
    (hm : mark s' u q = some i) :
    mark s u q = some (i + conf.expiredNumber) ∧ i < (s'.users u).index := by
  obtain ⟨⟨hin, hres⟩, rfl⟩ := mark_eq_some.1 hm
  obtain ⟨-, hs, -, hresp, -⟩ := S.fixed q
  rw [hs] at hin
  rw [hresp] at hres
  obtain ⟨hm, hx⟩ := (S.mem _).1 hin
  have hfd : (s.entries q).returnFd = none := by
    by_contra hfd
    exact hres ((h.entry q (h.cache u _ hm).1).2.2.2 hfd)
  obtain ⟨hi, hlt⟩ := S.index _ hm hfd (Nat.le_of_not_lt fun hlt => hx ⟨hfd, hlt⟩)
  have hmark := h.mark_of_mem hm hfd
  dsimp only at hi hlt hmark
  rw [hmark, ← hi]
  exact ⟨rfl, hlt⟩

theorem mark_of_shift_ne (h : s.Stock answered stamp) (S : Shift conf s u s') {v q i : ℕ}
    (hv : v ≠ u) (hm : mark s' v q = some i) : mark s v q = some i := by
  obtain ⟨⟨hm, hres⟩, hi⟩ := mark_eq_some.1 hm
  obtain ⟨-, hs, -, hresp, -⟩ := S.fixed q
  rw [hs, S.other v hv] at hm
  rw [hresp] at hres
  have hq : q ∉ (s.users u).response.map Prod.snd := by
    intro hq
    obtain ⟨k, hk, rfl⟩ := List.mem_map.1 hq
    exact hv ((h.cache v _ hm).2.1.symm.trans (h.cache u k hk).2.1)
  rw [S.stay q hq] at hi
  exact mark_eq_some.2 ⟨⟨hm, hres⟩, hi⟩

theorem shift (h : s.Stock answered stamp) (hu : u < s.nUsers) (S : Shift conf s u s') :
    s'.Stock answered stamp := by
  have hsub : ∀ v, (s'.users v).response.Sublist (s.users v).response := by
    intro v
    by_cases hv : v = u
    · rw [hv]
      exact S.sub
    · rw [S.other v hv]
  refine ⟨fun v hv => ?_, fun v => ?_, fun v e he => ?_, fun q hq => ?_, fun q hq => ?_,
    fun v => ?_⟩
  · rw [S.nUsers] at hv
    rw [S.other v (hu.trans_le hv).ne']
    exact h.blank v hv
  · exact (h.keys v).sublist ((hsub v).map _)
  · obtain ⟨hlt, hu, hs⟩ := h.cache v e ((hsub v).subset he)
    rw [S.nEntries]
    exact ⟨hlt, (S.fixed _).1.trans hu, (S.fixed _).2.1.trans hs⟩
  · rw [S.nEntries] at hq
    obtain ⟨hu, -, hrun, hresp, hfd⟩ := S.fixed q
    rw [hu, hrun, hresp, hfd, S.nUsers]
    exact h.entry q hq
  · rw [S.nEntries, (S.fixed q).2.2.2.1]
    exact h.stamped q hq
  · by_cases hv : v = u
    · rw [hv]
      exact (h.aged u).shift (fun hm => (h.mark_of_shift S hm).1)
        (fun hm => (h.mark_of_shift S hm).2) S.top
    · rw [S.other v hv]
      exact (h.aged v).mono (h.mark_of_shift_ne S hv) fun _ => rfl

theorem holds_of_shift (h : s.Stock answered stamp) (S : Shift conf s u s')
    (htop : conf.expiredNumber * 2 ≤ (s.users u).index) {q : ℕ} (hq : s.Holds q) :
    s'.Holds q ∨
      ∃ n, stamp q = some n ∧ n + conf.expiredNumber ≤ answered (s.entries q).user := by
  obtain ⟨huser, hs, -⟩ := S.fixed q
  rw [Holds, huser, hs]
  by_cases hu : (s.entries q).user = u
  · have hq' : ((s.entries q).session, q) ∈ (s.users u).response := hu ▸ hq
    rw [hu, S.mem]
    by_cases hx : Expired conf (s.entries q)
    · have hm := h.mark_of_mem hq' hx.1
      obtain ⟨n, hn, -⟩ := (h.aged u).dist hm
      exact .inr ⟨n, hn, (h.aged u).outlived hm hn hx.2 htop⟩
    · exact .inl ⟨hq', hx⟩
  · rw [S.other _ hu]
    exact .inl hq

end Stock

/-- The complete entries in the cache of a user. -/
def complete (s : MsgServer ν) (u : ℕ) : List ℕ :=
  ((s.users u).response.map Prod.snd).filter fun p => (s.entries p).response.isSome

/-- A complete entry stays in the cache of its user until there were `expired_number` further
responses, a pending one as long as no packet asks for its session, and the indices tell complete
entries apart. -/
structure Kept (conf : MsgConf ν) (c : Cache ν) : Prop where
  retained : ∀ p n, c.stamp p = some n → c.s.Holds p ∨ c.reused p = true ∨
    n + conf.expiredNumber ≤ c.answered (c.s.entries p).user
  pending : ∀ p < c.s.nEntries, (c.s.entries p).response = none →
    c.s.Holds p ∨ c.conflicted p = true
  stamped : ∀ u, ∀ p ∈ c.s.complete u, ∃ n, c.stamp p = some n
  below : ∀ u, ∀ p ∈ c.s.complete u, (c.s.entries p).index < (c.s.users u).index
  distinct : ∀ u, ∀ p ∈ c.s.complete u, ∀ q ∈ c.s.complete u,
    (c.s.entries p).index = (c.s.entries q).index → p = q
  bound : ∀ u, (c.s.complete u).length ≤ conf.expiredNumber * 2

theorem Stock.mark_of_complete (h : s.Stock answered stamp) (hp : p ∈ s.complete u) :
    mark s u p = some (s.entries p).index := by
  obtain ⟨hm, hr⟩ := mem_filter.1 hp
  obtain ⟨e, he, rfl⟩ := List.mem_map.1 hm
  refine mark_eq_some.2 ⟨⟨?_, isSome_iff_ne_none.1 hr⟩, rfl⟩
  rw [(h.cache u e he).2.2]
  exact he

variable {conf : MsgConf ν} {c c' : Cache ν}

/-- No entry left a cache before its time. -/
structure Lasting (conf : MsgConf ν) (c : Cache ν) : Prop where
  stock : c.s.Stock c.answered c.stamp
  retained : ∀ p n, c.stamp p = some n → c.s.Holds p ∨ c.reused p = true ∨
    n + conf.expiredNumber ≤ c.answered (c.s.entries p).user
  pending : ∀ p < c.s.nEntries, (c.s.entries p).response = none →
    c.s.Holds p ∨ c.conflicted p = true

namespace Lasting

theorem answer (L : Lasting conf c) (hp : p < c.s.nEntries) {e : MsgEntry ν}
    (hu : e.user = (c.s.entries p).user) (hs : e.session = (c.s.entries p).session)
    (hi : e.index = (c.s.users (c.s.entries p).user).index) (hr : e.response ≠ none)
    (hrun : e.running = false) (ha : Answered c.s p e s') :
    Lasting conf { c.answer p with s := s' } := by
  have hfix : ∀ q, (s'.entries q).user = (c.s.entries q).user ∧
      (s'.entries q).session = (c.s.entries q).session := by
    intro q
    rw [ha.entries]
    split_ifs with hq
    · rw [hq]
      exact ⟨hu, hs⟩
    · exact ⟨rfl, rfl⟩
  have hh : ∀ q, s'.Holds q ↔ c.s.Holds q := by
    intro q
    obtain ⟨hqu, hqs⟩ := hfix q
    rw [Holds, hqu, hqs, ha.users, hu]
    split_ifs with hq
    · rw [Holds, hq]
    · rfl
  have hmono : ∀ v, c.answered v ≤ (c.answer p).answered v := by
    intro v
    simp only [Cache.answer, update_apply]
    split_ifs with hv
    · rw [hv]
      exact Nat.le_succ _
    · exact le_rfl
  refine ⟨L.stock.answer hp hu hs hi hr hrun ha, fun q n hq => ?_, fun q hq hqr => ?_⟩
  · rw [hh, (hfix q).1]
    by_cases hqh : c.s.Holds q
    · exact .inl hqh
    · have hq' : c.stamp q = some n := by
        simp only [Cache.answer] at hq
        split_ifs at hq with hph
        · have hqp : q ≠ p := by
            rintro rfl
            exact hqh hph
          rwa [update_of_ne hqp] at hq
        · exact hq
      exact (L.retained q n hq').imp_right fun h => h.imp_right fun hn => hn.trans (hmono _)
  · rw [ha.nEntries] at hq
    rw [ha.entries] at hqr
    rw [hh]
    split_ifs at hqr with hqp
    · exact absurd hqr hr
    · exact L.pending q hq hqr

theorem shift (L : Lasting conf c) (hu : u < c.s.nUsers) (S : Shift conf c.s u s')
    (htop : conf.expiredNumber * 2 ≤ (c.s.users u).index) :
    Lasting conf { c with s := s' } := by
  refine ⟨L.stock.shift hu S, fun q n hq => ?_, fun q hq hqr => ?_⟩
  · rw [(S.fixed q).1]
    rcases L.retained q n hq with hqh | h
    · rcases L.stock.holds_of_shift S htop hqh with hqh | ⟨n', hn, hle⟩
      · exact .inl hqh
      · rw [hq] at hn
        obtain rfl := some.inj hn
        exact .inr (.inr hle)
    · exact .inr h
  · rw [S.nEntries] at hq
    rw [(S.fixed q).2.2.2.1] at hqr
    rcases L.pending q hq hqr with hqh | h
    · rcases L.stock.holds_of_shift S htop hqh with hqh | ⟨n, hn, -⟩
      · exact .inl hqh
      -- what is dropped is complete
      · exact absurd hqr (L.stock.stamped q (by rw [hn]; simp)).2
    · exact .inr h

end Lasting

/-- What every step keeps that meets `Tame`. -/
structure Cached (conf : MsgConf ν) (c : Cache ν) : Prop extends Lasting conf c where
  top : ∀ u, (c.s.users u).index < conf.expiredNumber * 2

namespace Cached

theorem kept (C : Cached conf c) : Kept conf c where
  retained := C.retained
  pending := C.pending
  stamped u p hp := by
    obtain ⟨n, hn, -⟩ := (C.stock.aged u).dist (C.stock.mark_of_complete hp)
    exact ⟨n, hn⟩
  below u p hp := (C.stock.aged u).below (C.stock.mark_of_complete hp)
  distinct u p hp q hq heq :=
    (C.stock.aged u).inj (C.stock.mark_of_complete hp) (heq ▸ C.stock.mark_of_complete hq)
  bound u := by
    refine ((C.stock.aged u).length_le ((C.stock.values u).filter _) fun p hp => ?_).trans
      (C.top u).le
    rw [C.stock.mark_of_complete hp]
    simp

theorem asked (C : Cached conf c) (asked : ℕ → ℕ) : Cached conf { c with asked := asked } :=
  ⟨⟨C.stock, C.retained, C.pending⟩, C.top⟩

theorem calm (C : Cached conf c) (hc : Calm c.s s') : Cached conf { c with s := s' } := by
  have hh : ∀ p, s'.Holds p ↔ c.s.Holds p := by
    intro p
    rw [Holds, Holds, hc.entries, hc.response]
  refine ⟨⟨C.stock.calm hc, fun p n hp => ?_, fun p hp hr => ?_⟩, fun u => ?_⟩
  · rw [hh, hc.entries]
    exact C.retained p n hp
  · rw [hc.nEntries] at hp
    rw [hc.entries] at hr
    rw [hh]
    exact C.pending p hp hr
  · rw [hc.index]
    exact C.top u

theorem setEntry (C : Cached conf c) (hp : p < c.s.nEntries)
    (hnone : (c.s.entries p).response = none) {e : MsgEntry ν} (hu : e.user = (c.s.entries p).user)
    (hs : e.session = (c.s.entries p).session) (hr : e.response = none) (hfd : e.returnFd ≠ none) :
    Cached conf { c with s := c.s.setEntry p e } := by
  have hfix : ∀ q, ((c.s.setEntry p e).entries q).user = (c.s.entries q).user ∧
      ((c.s.setEntry p e).entries q).session = (c.s.entries q).session ∧
      ((c.s.setEntry p e).entries q).response = (c.s.entries q).response := by
    intro q
    rw [setEntry_entries]
    split_ifs with hq
    · rw [hq]
      exact ⟨hu, hs, hr.trans hnone.symm⟩
    · exact ⟨rfl, rfl, rfl⟩
  have hh : ∀ q, (c.s.setEntry p e).Holds q ↔ c.s.Holds q := by
    intro q
    obtain ⟨hqu, hqs, -⟩ := hfix q
    rw [Holds, hqu, hqs]
    rfl
  refine ⟨⟨C.stock.setEntry hp hnone hu hs hr hfd, fun q n hq => ?_, fun q hq hqr => ?_⟩, C.top⟩
  · rw [hh, (hfix q).1]
    exact C.retained q n hq
  · rw [(hfix q).2.2] at hqr
    rw [hh]
    exact C.pending q hq hqr

theorem conflict (C : Cached conf c) {session : ℕ} (hl : (session, p) ∈ (c.s.users u).response)
    (hnone : (c.s.entries p).response = none)
    (hs : c'.s = c.s.setUser u { c.s.users u with
      response := (c.s.users u).response.filter fun e => e.1 ≠ session })
    (ha : c'.answered = c.answered) (hst : c'.stamp = c.stamp)
    (hre : ∀ q ≠ p, c'.reused q = c.reused q)
    (hcf : c'.conflicted = update c.conflicted p true) : Cached conf c' := by
  have hent : c'.s.entries = c.s.entries := by
    rw [hs]
    rfl
  have hn : c'.s.nEntries = c.s.nEntries := by
    rw [hs]
    rfl
  have hh : ∀ q ≠ p, c.s.Holds q → c'.s.Holds q := by
    intro q hq hqh
    rw [Holds, hent, hs, setUser_users]
    split_ifs with hv
    · refine mem_filter.2 ⟨hv ▸ hqh, ?_⟩
      rw [decide_eq_true_eq]
      intro heq
      have hqh' : ((c.s.entries q).session, q) ∈ (c.s.users u).response := hv ▸ hqh
      exact hq (congrArg Prod.snd (C.stock.eq_of_key hqh' hl heq))
    · exact hqh
  refine ⟨⟨?_, fun q n hq => ?_, fun q hq hqr => ?_⟩, fun v => ?_⟩
  · rw [hs, ha, hst]
    exact C.stock.drop session
  · rw [hst] at hq
    have hqp : q ≠ p := by
      rintro rfl
      exact (C.stock.stamped q (by rw [hq]; simp)).2 hnone
    rw [ha, hent, hre q hqp]
    exact (C.retained q n hq).imp_left (hh q hqp)
  · rw [hn] at hq
    rw [hent] at hqr
    rw [hcf]
    by_cases hqp : q = p
    · rw [hqp, update_self]
      exact .inr rfl
    · rw [update_of_ne hqp]
      exact (C.pending q hq hqr).imp_left (hh q hqp)
  · rw [hs, setUser_users]
    split_ifs with hv
    · exact C.top u
    · exact C.top v

theorem execute (C : Cached conf c) (hu : u < c.s.nUsers) {fd session : ℕ} {message : Bytes}
    (hs : c'.s = c.s.execute fd u session message) (ha : c'.answered = c.answered)
    (hst : c'.stamp = c.stamp) (hcf : c'.conflicted = c.conflicted)
    (hdrop : ∀ p, (session, p) ∈ (c.s.users u).response → (c.s.entries p).response ≠ none ∧
      ∀ n, c.stamp p = some n → c'.reused p = true ∨ n + conf.expiredNumber ≤ c.answered u)
    (hre : ∀ p, (session, p) ∉ (c.s.users u).response → c'.reused p = c.reused p) :
    Cached conf c' := by
  have hent : ∀ q < c.s.nEntries, c'.s.entries q = c.s.entries q := by
    intro q hq
    rw [hs]
    exact update_of_ne hq.ne _ _
  have huser : ∀ v, c'.s.users v = if v = u then { c.s.users u with
      response := (session, c.s.nEntries) ::
        (c.s.users u).response.filter fun e => e.1 ≠ session } else c.s.users v := by
    intro v
    rw [hs]
    exact update_apply ..
  have hh : ∀ q, c.s.Holds q → c'.s.Holds q ∨ (session, q) ∈ (c.s.users u).response ∧
      (c.s.entries q).user = u := by
    intro q hq
    rw [Holds, hent q (C.stock.cache _ _ hq).1, huser]
    split_ifs with hv
    · by_cases hkey : (c.s.entries q).session = session
      · exact .inr ⟨hkey ▸ hv ▸ hq, hv⟩
      · refine .inl (mem_cons_of_mem _ (mem_filter.2 ⟨hv ▸ hq, ?_⟩))
        simpa using hkey
    · exact .inl hq
  refine ⟨⟨?_, fun q n hq => ?_, fun q hq hqr => ?_⟩, fun v => ?_⟩
  · rw [hs, ha, hst]
    exact C.stock.execute hu fd session message
  · rw [hst] at hq
    rw [ha, hent q (C.stock.stamped q (by rw [hq]; simp)).1]
    by_cases hin : (session, q) ∈ (c.s.users u).response
    · obtain ⟨-, hn⟩ := hdrop q hin
      rw [(C.stock.cache u _ hin).2.1]
      exact .inr (hn n hq)
    · rw [hre q hin]
      refine (C.retained q n hq).imp_left fun hqh => ?_
      exact (hh q hqh).resolve_right fun h => hin h.1
  · have hn : c'.s.nEntries = c.s.nEntries + 1 := by
      rw [hs]
      rfl
    rw [hn] at hq
    rw [hcf]
    rcases Nat.lt_succ_iff_lt_or_eq.1 hq with hq | rfl
    · rw [hent q hq] at hqr
      refine (C.pending q hq hqr).imp_left fun hqh => ?_
      exact (hh q hqh).resolve_right fun h => (hdrop q h.1).1 hqr
    · have hnew : c'.s.entries c.s.nEntries =
          ⟨some fd, none, none, 0, u, session, fd, message.take (message.length - 4), true,
            c.s.gen fd, fd, none⟩ := by
        rw [hs]
        exact update_self ..
      rw [Holds, hnew, huser, if_pos rfl]
      exact .inl (mem_cons_self ..)
  · rw [huser]
    split_ifs
    · exact C.top u
    · exact C.top v

theorem answer (C : Cached conf c) (hN : 0 < conf.expiredNumber) (hp : p < c.s.nEntries)
    {e : MsgEntry ν} (hu : e.user = (c.s.entries p).user)
    (hs : e.session = (c.s.entries p).session)
    (hi : e.index = (c.s.users (c.s.entries p).user).index) (hr : e.response ≠ none)
    (hrun : e.running = false) :
    Cached conf { c.answer p with s := (c.s.setEntry p e).respond conf p } := by
  obtain ⟨s₁, ha, heq⟩ := respond_eq conf c.s p e
  have L₁ := C.toLasting.answer hp hu hs hi hr hrun ha
  have hindex : ∀ v ≠ e.user, (s₁.users v).index < conf.expiredNumber * 2 := by
    intro v hv
    rw [ha.users, if_neg hv]
    exact C.top v
  rw [heq]
  by_cases hle : conf.expiredNumber * 2 ≤ (s₁.users e.user).index
  · have S := L₁.stock.retireResponse hN hle
    have hu' : e.user < s₁.nUsers := by
      rw [ha.nUsers, hu]
      exact (C.stock.entry p hp).1
    refine ⟨L₁.shift hu' S hle, fun v => ?_⟩
    by_cases hv : v = e.user
    · have htop := S.top
      have hlt := C.top e.user
      rw [ha.users, if_pos rfl] at htop
      dsimp only at htop
      rw [hv]
      dsimp only
      omega
    · dsimp only
      rw [S.other v hv]
      exact hindex v hv
  · have hsame : s₁.retireResponse conf e.user = s₁ := if_neg hle
    rw [hsame]
    refine ⟨L₁, fun v => ?_⟩
    by_cases hv : v = e.user
    · rw [hv]
      exact Nat.lt_of_not_le hle
    · exact hindex v hv

end Cached

section Steps

theorem asking_eq_some {fd session : ℕ} {message : Bytes} :
    s.asking fd message = some (u, session) ↔ s.gate fd = some true ∧ s.handshake fd = none ∧
      s.connection fd = some u ∧ sessionOf message = some session := by
  unfold asking
  rcases s.connection fd with _ | v
  · simp
  · rcases sessionOf message with _ | k
    · simp
    · simp [and_assoc]

variable [LinearOrder ν]

theorem ask_note (c : Cache ν) (e : MsgEvent ν) (fd u session : ℕ) (s : MsgServer ν) :
    { Cache.ask { c with s := c.s.note e } fd u session with s := s } =
      { c.ask fd u session with s := s } := by
  rcases hl : (c.s.users u).response.lookup session with _ | p
  · simp only [Cache.ask, note, hl]
  · by_cases hv : (c.s.entries p).version = some (c.s.users u).version
    · by_cases hr : (c.s.entries p).response.isNone
      · simp only [Cache.ask, note, hl, hv, hr, if_true]
        rfl
      · simp only [Cache.ask, note, hl, hv, hr, if_true]
        rfl
    · by_cases hr : (c.s.entries p).response.isNone
      · simp only [Cache.ask, note, hl, hv, hr, if_true, if_false]
      · simp only [Cache.ask, note, hl, hv, hr, if_false]
        rfl

namespace Cached

theorem ask (C : Cached conf c) (hN : 0 < conf.expiredNumber) {fd session : ℕ} (message : Bytes)
    (hu : u < c.s.nUsers)
    (ht : ∀ p ∈ (c.s.users u).response.lookup session, (c.s.entries p).response.isSome →
      (c.s.entries p).version = some (c.s.users u).version →
        c.s.gen fd = c.asked p ∨ ∀ n ∈ c.stamp p, n + conf.expiredNumber ≤ c.answered u) :
    Cached conf { c.ask fd u session with s := c.s.doRequest conf fd u session message } := by
  rcases hl : (c.s.users u).response.lookup session with _ | p
  · simp only [Cache.ask, doRequest, hl]
    have hno : ∀ p, (session, p) ∉ (c.s.users u).response := by
      intro p hp
      rw [C.stock.lookup hp] at hl
      cases hl
    exact C.execute hu rfl rfl rfl rfl (fun p hp => absurd hp (hno p)) fun p _ => rfl
  · have hmem := mem_of_lookup hl
    have hone : ∀ q, (session, q) ∈ (c.s.users u).response → q = p := by
      intro q hq
      rw [C.stock.lookup hq] at hl
      exact some.inj hl
    obtain ⟨hp, hpu, -⟩ : p < c.s.nEntries ∧ (c.s.entries p).user = u ∧ _ :=
      C.stock.cache u _ hmem
    simp only [Cache.ask, doRequest, hl]
    by_cases hv : (c.s.entries p).version = some (c.s.users u).version
    · rw [if_pos hv, if_pos hv]
      by_cases hr : (c.s.entries p).response = none
      · rw [if_pos (isNone_iff_eq_none.2 hr), if_pos (isNone_iff_eq_none.2 hr)]
        have C₁ : Cached conf { c with
            s := c.s.setUser u { c.s.users u with
              response := (c.s.users u).response.filter fun e => e.1 ≠ session }
            reused := update c.reused p (decide (c.s.gen fd = c.asked p))
            conflicted := update c.conflicted p true } :=
          C.conflict hmem hr rfl rfl rfl (fun q hq => update_of_ne hq _ _) rfl
        exact C₁.calm (.requestFailed fd)
      · rw [if_neg fun h => hr (isNone_iff_eq_none.1 h),
          if_neg fun h => hr (isNone_iff_eq_none.1 h)]
        refine C.execute hu rfl rfl rfl rfl (fun q hq => ?_) fun q hq => ?_
        · obtain rfl := hone q hq
          refine ⟨hr, fun n hn => ?_⟩
          dsimp only
          rw [update_self, decide_eq_true_eq]
          exact (ht q hl (isSome_iff_ne_none.2 hr) hv).imp_right fun h => h n hn
        · have hqp : q ≠ p := by
            rintro rfl
            exact hq hmem
          exact update_of_ne hqp _ _
    · let e : MsgEntry ν := { c.s.entries p with
        returnFd := some fd
        version := some (c.s.users u).version
        index := (c.s.users u).index
        asker := fd
        touched := some (c.s.users u).gen }
      have C₁ := C.asked (update c.asked p (c.s.gen fd))
      rw [if_neg hv, if_neg hv, resend]
      by_cases hr : (c.s.entries p).response = none
      · rw [if_pos (isNone_iff_eq_none.2 hr), if_pos (isNone_iff_eq_none.2 hr)]
        exact C₁.setEntry (e := e) hp hr rfl rfl hr (some_ne_none fd)
      · rw [if_neg fun h => hr (isNone_iff_eq_none.1 h),
          if_neg fun h => hr (isNone_iff_eq_none.1 h)]
        have hi : e.index = (c.s.users (c.s.entries p).user).index := by rw [hpu]
        have hrun : e.running = false := by
          rw [← Bool.not_eq_true]
          exact fun hrun => hr ((C.stock.entry p hp).2.1 hrun)
        exact C₁.answer hN hp rfl rfl hi hr hrun

theorem request (C : Cached conf c) (hN : 0 < conf.expiredNumber) (B : c.s.Base) {fd : ℕ}
    {message : Bytes} (hg : c.s.gate fd = some true) (hh : c.s.handshake fd = none)
    (ht : c.Tame conf (.data fd message)) :
    Cached conf { c.note (.data fd message) with s := c.s.request conf fd message } := by
  have C₁ : Cached conf { c with s := c.s.note (.passed fd (c.s.authed fd)) } :=
    C.calm (.of_tables rfl rfl rfl rfl)
  rcases hu : c.s.connection fd with _ | u
  · have hask : c.s.asking fd message = none := by simp [asking, hu]
    have hreq : c.s.request conf fd message =
        (c.s.note (.passed fd (c.s.authed fd))).requestFailed fd := by
      simp only [MsgServer.request, MsgServer.note, hu]
    simp only [Cache.note, hask, hreq]
    exact C₁.calm (.requestFailed fd)
  · rcases hs : sessionOf message with _ | session
    · have hask : c.s.asking fd message = none := by simp [asking, hu, hs]
      have hreq : c.s.request conf fd message =
          (c.s.note (.passed fd (c.s.authed fd))).requestFailed fd := by
        simp only [MsgServer.request, MsgServer.note, hu, hs]
      simp only [Cache.note, hask, hreq]
      exact C₁.calm (.requestFailed fd)
    · have hask : c.s.asking fd message = some (u, session) := by
        simp [asking, hg, hh, hu, hs]
      have C₂ := C₁.ask hN message ((B.fd fd).conn hu).1 (ht (u, session) hask)
      rw [ask_note] at C₂
      have hcalm : Calm ((c.s.note (.passed fd (c.s.authed fd))).doRequest conf fd u session
          message) (c.s.request conf fd message) := by
        simp only [MsgServer.request, MsgServer.note, hu, hs]
        exact .of_tables rfl rfl rfl rfl
      simp only [Cache.note, hask]
      exact C₂.calm hcalm

theorem data (C : Cached conf c) (hN : 0 < conf.expiredNumber) (B : c.s.Base) {fd : ℕ}
    {message : Bytes} (ht : c.Tame conf (.data fd message)) :
    Cached conf { c.note (.data fd message) with s := c.s.data conf fd message } := by
  rcases data_cases conf c.s fd message with ⟨hg, h⟩ | ⟨addr, u, idx, hg, hh, hok, h⟩ |
    ⟨addr, e, hg, hh, -, h⟩ | ⟨hg, hh, h⟩
  · have hask : c.s.asking fd message = none := by simp [asking, hg]
    simp only [Cache.note, hask, h]
    exact C
  · have hask : c.s.asking fd message = none := by simp [asking, hh]
    simp only [Cache.note, hask, h]
    refine C.calm (Calm.trans (Calm.setUser (u := u) (r := { c.s.users u with
      version := idx, fd := some fd, ip := some addr, gen := (c.s.users u).gen + 1 }) rfl rfl) ?_)
    exact .of_tables rfl rfl rfl rfl
  · have hask : c.s.asking fd message = none := by simp [asking, hh]
    simp only [Cache.note, hask, h]
    have hsend : Calm c.s (c.s.send fd (pack e)) := .of_tables rfl rfl rfl rfl
    refine C.calm ((hsend.trans (.closeclient fd)).trans ?_)
    exact .of_tables rfl rfl rfl rfl
  · rw [h]
    exact C.request hN B hg hh ht

theorem finish (C : Cached conf c) (hN : 0 < conf.expiredNumber) (hp : p < c.s.nEntries)
    (hrun : (c.s.entries p).running = true) (r : Result) :
    Cached conf { c.note (.finish p r) with s := c.s.finish conf p r } := by
  have hnone := (C.stock.entry p hp).2.1 hrun
  have hfd := (C.stock.entry p hp).2.2.1 hnone
  rcases hr : packResult (c.s.entries p).session r with _ | b
  · simp only [Cache.note, MsgServer.finish, hr]
    exact (C.setEntry (e := { c.s.entries p with running := false }) hp hnone rfl rfl hnone
      hfd).calm (.requestFailed _)
  · let e : MsgEntry ν := { c.s.entries p with
      running := false
      response := some b
      version := some (c.s.users (c.s.entries p).user).version
      index := (c.s.users (c.s.entries p).user).index
      touched := some (c.s.users (c.s.entries p).user).gen }
    simp only [Cache.note, MsgServer.finish, hr]
    exact (C.answer hN (e := e) hp rfl rfl rfl (some_ne_none b) rfl).calm
      (.of_tables rfl rfl rfl rfl)

variable [Zero ν]

theorem quiet (C : Cached conf c) {a : Action} (hst : MsgServer.step conf c.s a = some s')
    (hd : ∀ fd message, a ≠ .data fd message) (hf : ∀ p r, a ≠ .finish p r) :
    Cached conf { c.note a with s := s' } := by
  cases a with
  | login username secret =>
    obtain rfl := some.inj hst
    exact C.calm (.login (C.stock.blank _ le_rfl) username secret)
  | logout username =>
    obtain rfl := some.inj hst
    exact C.calm (.logout username)
  | «open» fd addr =>
    obtain ⟨-, rfl⟩ := of_guard hst
    exact C.calm (.openClient conf fd addr)
  | data fd message => exact absurd rfl (hd fd message)
  | close fd =>
    obtain ⟨-, hst⟩ := ite_none_left_eq_some.1 hst
    obtain rfl := some.inj hst
    exact C.calm (.close conf fd)
  | closed fd =>
    obtain ⟨-, rfl⟩ := of_guard hst
    have h₀ : Calm c.s { c.s with closing := update c.s.closing fd false } :=
      .of_tables rfl rfl rfl rfl
    exact C.calm (h₀.trans (.closeFd fd))
  | closeFailed fd =>
    obtain ⟨-, rfl⟩ := of_guard hst
    exact C.calm (.of_tables rfl rfl rfl rfl)
  | finish p r => exact absurd rfl (hf p r)

theorem step (C : Cached conf c) (hN : 0 < conf.expiredNumber) (B : c.s.Base) {a : Action}
    (ht : c.Tame conf a) (hst : Cache.step conf c a = some c') : Cached conf c' := by
  obtain ⟨s', hs, rfl⟩ := map_eq_some_iff.1 hst
  cases a with
  | data fd message =>
    obtain rfl := some.inj hs
    exact C.data hN B ht
  | finish p r =>
    simp only [MsgServer.step] at hs
    split_ifs at hs with h
    obtain rfl := some.inj hs
    exact C.finish hN h.1 h.2 r
  | _ => exact C.quiet hs (by simp) (by simp)

theorem init (hN : 0 < conf.expiredNumber) : Cached conf (Cache.init conf) := by
  refine ⟨⟨⟨fun u _ => ⟨rfl, rfl⟩, fun u => nodup_nil, ?_, ?_, ?_, fun u => ?_⟩, ?_, ?_⟩,
    fun u => ?_⟩
  · simp [Cache.init, machine]
  · simp [Cache.init, machine]
  · simp [Cache.init]
  · have hm : mark (Cache.init conf).s u = fun _ => none := by
      funext q
      simp [mark, Cache.init, machine]
    rw [hm]
    exact Aged.nil
  · simp [Cache.init]
  · simp [Cache.init, machine]
  · simp only [Cache.init, machine]
    omega

theorem not_kept (C : Cached conf c) {a : Action} (ht : ¬ c.Tame conf a)
    (hst : Cache.step conf c a = some c') : ¬ Kept conf c' := by
  obtain ⟨s', hs, rfl⟩ := map_eq_some_iff.1 hst
  cases a with
  | data fd message =>
    obtain rfl := some.inj hs
    simp only [Cache.Tame, not_forall, not_or] at ht
    obtain ⟨⟨u, session⟩, hask, p, hl, hr, hv, hgen, n, hn, hlt⟩ := ht
    replace hask : c.s.asking fd message = some (u, session) := hask
    obtain ⟨hg, hh, hu, hs⟩ := asking_eq_some.1 hask
    have hnone : (c.s.entries p).response.isNone = false := isNone_eq_false_iff.2 hr
    have hl' : (c.s.users u).response.lookup session = some p := hl
    obtain ⟨hp, hpu, hps⟩ : p < c.s.nEntries ∧ (c.s.entries p).user = u ∧
        (c.s.entries p).session = session := C.stock.cache u _ (mem_of_lookup hl')
    -- the packet is executed, and the entry is not
    have hreq : ((c.s.data conf fd message).entries p = c.s.entries p) ∧
        ((c.s.data conf fd message).users u).response = (session, c.s.nEntries) ::
          (c.s.users u).response.filter fun e => e.1 ≠ session := by
      simp only [MsgServer.data, hg, if_true, hh, MsgServer.request, MsgServer.note, hu, hs,
        doRequest, hl', hv, hnone, Bool.false_eq_true, if_false]
      refine ⟨update_of_ne hp.ne _ _, ?_⟩
      simp only [MsgServer.execute, MsgServer.setEntry, setUser, update_self]
    have hnote : c.note (.data fd message) = c.ask fd u session := by simp only [Cache.note, hask]
    rw [hnote]
    intro K
    have hask' : c.ask fd u session = { c with
        reused := update c.reused p (decide (c.s.gen fd = c.asked p))
        asked := update c.asked c.s.nEntries (c.s.gen fd) } := by
      simp only [Cache.ask, hl', hv, if_true, hnone, Bool.false_eq_true, if_false]
    rw [hask'] at K
    rcases K.retained p n hn with hh | hre | hle
    · rw [Holds, hreq.1, hpu, hps, hreq.2, mem_cons] at hh
      rcases hh with hh | hh
      · exact hp.ne (congrArg Prod.snd hh)
      · simpa using (mem_filter.1 hh).2
    · dsimp only at hre
      rw [update_self, decide_eq_true_eq] at hre
      exact hgen hre
    · dsimp only at hle
      rw [hreq.1, hpu] at hle
      exact hlt hle
  | _ => exact absurd trivial ht

end Cached

variable [Zero ν]

/-- In every run in which a session is asked again with the version of the user only on the
connection on which it was asked last, or when its entry has been there for long. -/
theorem cached_iff_of_reach (hN : 0 < conf.expiredNumber)
    (hr : (Cache.machine conf).Reach (Cache.Tame conf) c) :
    (machine conf).Reachable c.s ∧ Kept conf c ∧
      ∀ a c', Cache.step conf c a = some c' → (Kept conf c' ↔ c.Tame conf a) := by
  have h : (machine conf).Reachable c.s ∧ c.s.Base ∧ Cached conf c := by
    refine hr.invariant
      (I := fun c : Cache ν => (machine conf).Reachable c.s ∧ c.s.Base ∧ Cached conf c)
      ⟨.init, .init conf, .init hN⟩ fun c a c' hI ht hst => ?_
    obtain ⟨R, B, C⟩ := hI
    obtain ⟨s', hs, rfl⟩ := Option.map_eq_some_iff.1 hst
    exact ⟨R.step trivial hs, B.step hs, C.step hN B ht hst⟩
  obtain ⟨R, B, C⟩ := h
  refine ⟨R, C.kept, fun a c' hst => ⟨fun hk => ?_, fun ht => (C.step hN B ht hst).kept⟩⟩
  by_contra ht
  exact C.not_kept ht hst hk

/-- With one response to be kept, the second one takes the place of the first. -/
theorem cached_of_expired : ∃ c,
    (Cache.machine { demoConf with expiredNumber := 1 }).Reach
      (Cache.Tame { demoConf with expiredNumber := 1 }) c ∧
    c.answered 0 = 2 ∧ ¬ c.s.Holds 0 ∧ c.s.Holds 1 ∧
      Kept { demoConf with expiredNumber := 1 } c := by
  have hl : ((Cache.machine { demoConf with expiredNumber := 1 }).run
      (Cache.Tame { demoConf with expiredNumber := 1 })
      (Cache.machine { demoConf with expiredNumber := 1 }).init
      (demoConnect ++ [.data 1 [104, 0, 0, 0, 7], .data 1 [104, 0, 0, 0, 8],
        .finish 0 (.value [105]), .finish 1 .raise])).map
      (fun c => (c.answered 0, decide (c.s.Holds 0), decide (c.s.Holds 1))) =
      some (2, false, true) := by decide +kernel
  obtain ⟨c, hc, he⟩ := Option.map_eq_some_iff.1 hl
  simp only [Prod.mk.injEq, decide_eq_false_iff_not, decide_eq_true_eq] at he
  have h := Machine.reach_of_run hc
  exact ⟨c, h, he.1, he.2.1, he.2.2, (cached_iff_of_reach (by decide) h).2.1⟩

/-- The handler returns after the user has reconnected, and the request is resent then: its entry
is lost, and no other response was completed or resent. -/
theorem not_kept_of_late :
    ∃ c, (Cache.machine demoConf).Reachable c ∧ ¬ Kept demoConf c := by
  have hl : ((Cache.machine demoConf).run (fun _ _ => True) (Cache.machine demoConf).init
      (demoConnect ++ [.data 1 [104, 0, 0, 0, 7], .open 2 (Bytes.ascii "b"), .data 2 demoHandshake₂,
        .finish 0 (.value [105]), .data 2 [104, 0, 0, 0, 7]])).map
      (fun c => (c.stamp 0, decide (c.s.Holds 0), c.reused 0, c.answered (c.s.entries 0).user)) =
      some (some 1, false, false, 1) := by decide +kernel
  obtain ⟨c, hc, he⟩ := Option.map_eq_some_iff.1 hl
  simp only [Prod.mk.injEq, decide_eq_false_iff_not] at he
  obtain ⟨hst, hh, hre, ha⟩ := he
  refine ⟨c, Machine.reach_of_run hc, fun K => ?_⟩
  rcases K.retained 0 1 hst with h | h | h
  · exact hh h
  · rw [hre] at h
    cases h
  · rw [ha] at h
    exact absurd h (by decide)

end Steps

end MsgServer

end SkynetGame
