import SkynetGame.Watchdog
import Mathlib.Tactic.Linarith

/-!
# The accounts of the watchdog

`client_number` counts the agents whose open is finished: the table has those, and the ones that
an open has stored but not yet counted, less the ones that a redirection has taken out
(`Watchdog.Balanced`). The handlers keep this as long as none of them meets a table that another
one has changed behind its back, which is what `Watchdog.Tame` asks of the steps.
-/

namespace SkynetGame

namespace Watchdog

namespace Handler

/-- Whether an open has stored its agent and not yet counted it. -/
def stored : Handler → ℕ
  | starting _ => 1
  | _ => 0

/-- Whether an open was let in and is not yet counted. -/
def opening : Handler → ℕ
  | newAgent _ _ | starting _ => 1
  | _ => 0

/-- Whether a redirection is under way. -/
def redirects : Handler → ℕ
  | redirectKick _ | redirecting => 1
  | _ => 0

end Handler

variable (s : Watchdog)

def agents : ℕ := s.agent.keys.length

def stored : ℕ := tally Handler.stored s.handlers

def opening : ℕ := tally Handler.opening s.handlers

def redirects : ℕ := tally Handler.redirects s.handlers

structure Balanced : Prop where
  bal : s.clientNumber + s.stored = s.agents + s.moved
  moved_nonneg : 0 ≤ s.moved
  moved_le : s.moved ≤ s.redirects
  pos : 0 ≤ s.clientNumber
  room : s.clientNumber + s.opening < s.maxclient

/-- An agent that is taken off the accounts is in the table, and was counted. -/
def Counted (fd : ℕ) : Prop := (s.agent.lookup fd).isSome ∧ 0 < s.clientNumber

/-- A redirection may end: the others under way are all that is still moved. -/
def Settled : Prop := s.moved < s.redirects

/-- What a step may meet: an open that is let in leaves room for the opens under way, and stores
its agent where no other is; its start does not fail; what is taken off was counted; a connection
is forwarded to a new agent only in the course of a redirection, which ends with it. -/
def Tame : Action → Prop
  | .open _ _ => s.clientNumber + 1 < s.maxclient → s.clientNumber + s.opening + 1 < s.maxclient
  | .close fd | .error fd => (s.agent.lookup fd).isSome → 0 < s.clientNumber
  | .forward source fd => source.isSome → (s.agent.lookup fd).isSome ∨ 0 < s.moved
  | .unforward fd => s.Counted fd
  | .reply t r =>
    match s.handlers[t]?, r with
    | some (.newAgent fd _), .ok _ => s.agent.lookup fd = none
    | some (.starting _), .raise => False
    | some (.exiting fd _), .ok errCode => errCode = 0 → s.Counted fd
    | some (.redirectKick _), .raise => s.Settled
    | some .redirecting, _ => s.Settled
    | _, _ => True
  | _ => True

instance (fd : ℕ) : Decidable (s.Counted fd) := inferInstanceAs (Decidable (_ ∧ _))

instance : Decidable s.Settled := inferInstanceAs (Decidable (_ < _))

instance (a : Action) : Decidable (s.Tame a) := by
  unfold Tame
  split
  case h_6 => split <;> infer_instance
  all_goals infer_instance

variable {s} {s' : Watchdog} {fd : ℕ}

section Table

theorem length_insert {a : ℕ} (h : s.agent.lookup fd = none) :
    (s.agent.insert fd a).keys.length = s.agents + 1 := by
  have hn : fd ∉ s.agent.keys := AList.lookup_eq_none.1 h
  rw [AList.keys_insert, List.length_cons, List.erase_of_not_mem hn]
  rfl

theorem length_erase (h : (s.agent.lookup fd).isSome) :
    (s.agent.erase fd).keys.length + 1 = s.agents := by
  have hm : fd ∈ s.agent.keys := AList.lookup_isSome.1 h
  have := List.length_pos_of_mem hm
  rw [AList.keys_erase, List.length_erase_of_mem hm, agents]
  omega

theorem length_erase_absent (h : s.agent.lookup fd = none) :
    (s.agent.erase fd).keys.length = s.agents := by
  have hn : fd ∉ s.agent.keys := AList.lookup_eq_none.1 h
  rw [AList.keys_erase, List.erase_of_not_mem hn, agents]

end Table

/-- The step in which a handler suspended at `h` goes on to `h'`, seen from the accounts. -/
structure Moves (s s' : Watchdog) (h h' : Handler) : Prop where
  stored : s'.stored + h.stored = s.stored + h'.stored
  opening : s'.opening + h.opening = s.opening + h'.opening
  redirects : s'.redirects + h.redirects = s.redirects + h'.redirects
  maxclient : s'.maxclient = s.maxclient

section Moves

variable {h h' : Handler} {t : ℕ}

theorem moves_reply (h' : Handler) (hp : s.handlers[t]? = some h)
    (hs : s'.handlers = s.handlers.set t h')
    (hm : s'.maxclient = s.maxclient) : Moves s s' h h' where
  stored := by simpa [Watchdog.stored, hs] using tally_set Handler.stored hp h'
  opening := by simpa [Watchdog.opening, hs] using tally_set Handler.opening hp h'
  redirects := by simpa [Watchdog.redirects, hs] using tally_set Handler.redirects hp h'
  maxclient := hm

theorem moves_start (h' : Handler) (hs : s'.handlers = s.handlers ++ [h'])
    (hm : s'.maxclient = s.maxclient) :
    Moves s s' .done h' where
  stored := by simp [Watchdog.stored, hs, Handler.stored]
  opening := by simp [Watchdog.opening, hs, Handler.opening]
  redirects := by simp [Watchdog.redirects, hs, Handler.redirects]
  maxclient := hm

theorem moves_stay (hs : s'.handlers = s.handlers) (hm : s'.maxclient = s.maxclient) :
    Moves s s' .done .done where
  stored := by simp [Watchdog.stored, hs]
  opening := by simp [Watchdog.opening, hs]
  redirects := by simp [Watchdog.redirects, hs]
  maxclient := hm

theorem Balanced.move (hb : s.Balanced) (hm : Moves s s' h h') {n a m : ℤ}
    (hn : s'.clientNumber = s.clientNumber + n) (ha : (s'.agents : ℤ) = s.agents + a)
    (hmv : s'.moved = s.moved + m)
    (hbal : n + h'.stored = h.stored + a + m)
    (hopen : h'.opening + n ≤ h.opening ∨
      s.clientNumber + s.opening + h'.opening + n < s.maxclient + h.opening)
    (hnn : 0 ≤ s.clientNumber + n) (hm0 : 0 ≤ s.moved + m)
    (hmr : s.moved + m + h.redirects ≤ s.redirects + h'.redirects) : s'.Balanced := by
  have h1 := hm.stored
  have h2 := hm.opening
  have h3 := hm.redirects
  have h4 := hm.maxclient
  obtain ⟨b1, b2, b3, b4, b5⟩ := hb
  refine ⟨by omega, by omega, by omega, by omega, by omega⟩

theorem Balanced.same (hb : s.Balanced) (hm : Moves s s' h h')
    (hn : s'.clientNumber = s.clientNumber) (ha : s'.agents = s.agents)
    (hmv : s'.moved = s.moved) (hst : h'.stored = h.stored) (hop : h'.opening ≤ h.opening)
    (hrd : h.redirects ≤ h'.redirects ∨ s.moved + h.redirects ≤ s.redirects + h'.redirects) :
    s'.Balanced := by
  obtain ⟨b1, b2, b3, b4, b5⟩ := hb
  refine Balanced.move ⟨b1, b2, b3, b4, b5⟩ hm (n := 0) (a := 0) (m := 0) (by omega) (by omega)
    (by omega) (by omega) (by omega) (by omega) (by omega) (by omega)

theorem Balanced.remove (hb : s.Balanced) (hm : Moves s s' h h') {fd : ℕ} (hc : s.Counted fd)
    (hn : s'.clientNumber = s.clientNumber - 1) (ha : s'.agent = s.agent.erase fd)
    (hmv : s'.moved = s.moved) (hst : h'.stored = h.stored) (hop : h'.opening = h.opening)
    (hrd : h.redirects = h'.redirects) : s'.Balanced := by
  have hlen : s'.agents + 1 = s.agents := by
    rw [agents, ha]
    exact length_erase hc.1
  have := hc.2
  have := hb.moved_nonneg
  have := hb.moved_le
  refine hb.move hm (n := -1) (a := -1) (m := 0) (by omega) (by omega) (by omega) (by omega)
    (by omega) (by omega) (by omega) (by omega)

theorem closeAgent_fst (s : Watchdog) (fd : ℕ) : (s.closeAgent fd).1 = s := by
  unfold closeAgent
  split <;> rfl

theorem closeAgent_snd (s : Watchdog) (fd : ℕ) : (s.closeAgent fd).2.stored = 0 ∧
    (s.closeAgent fd).2.opening = 0 ∧ (s.closeAgent fd).2.redirects = 0 := by
  unfold closeAgent
  split <;> exact ⟨rfl, rfl, rfl⟩

theorem kickAgent_fst (s : Watchdog) (fd : ℕ) : (s.kickAgent fd).1 = s := by
  unfold kickAgent
  split
  · rfl
  · exact closeAgent_fst s fd

theorem kickAgent_snd (s : Watchdog) (fd : ℕ) : (s.kickAgent fd).2.stored = 0 ∧
    (s.kickAgent fd).2.opening = 0 ∧ (s.kickAgent fd).2.redirects = 0 := by
  unfold kickAgent
  split
  · exact ⟨rfl, rfl, rfl⟩
  · exact closeAgent_snd s fd

theorem Balanced.close (hb : s.Balanced)
    (ht : (s.agent.lookup fd).isSome → 0 < s.clientNumber) : (s.socketClose fd).Balanced := by
  have hm : Moves s (s.socketClose fd) .done .done := moves_stay rfl rfl
  by_cases hfd : (s.agent.lookup fd).isSome
  · exact hb.remove hm ⟨hfd, ht hfd⟩ (by simp [socketClose, hfd]) rfl rfl rfl rfl rfl
  · refine hb.same hm (by simp [socketClose, hfd]) ?_ rfl rfl le_rfl (.inl le_rfl)
    exact length_erase_absent (by simpa using hfd)

theorem Balanced.forward (hb : s.Balanced) {source : Option ℕ}
    (ht : source.isSome → (s.agent.lookup fd).isSome ∨ 0 < s.moved) :
    (s.forward source fd).Balanced := by
  unfold Watchdog.forward
  split
  · rename_i a hfd
    have hmoved : 0 < s.moved := by simpa [hfd] using ht rfl
    have hlen := length_insert (a := a) hfd
    have hm : Moves s { s with agent := s.agent.insert fd a, moved := s.moved - 1 } .done .done :=
      moves_stay rfl rfl
    have := hb.moved_le
    have := hb.pos
    refine hb.move hm (n := 0) (a := 1) (m := -1) (by simp) ?_ rfl (by simp) (by simp)
      (by omega) (by omega) (by simp only [Handler.redirects]; omega)
    simp only [agents] at hlen ⊢
    rw [hlen]
    push_cast
    rfl
  · exact hb

theorem Balanced.redirect (hb : s.Balanced) {sock : SockType} :
    (start (s.redirectAgent fd sock)).Balanced := by
  unfold redirectAgent
  rcases hfd : s.agent.lookup fd with _ | a
  · exact hb.same (moves_start _ rfl rfl) rfl rfl rfl rfl le_rfl (.inl le_rfl)
  · have hlen : (s.agent.erase fd).keys.length + 1 = s.agents := length_erase (by simp [hfd])
    have := hb.moved_nonneg
    have := hb.moved_le
    have := hb.pos
    have hrd : (if sock = .other then Handler.redirecting else .redirectKick a).redirects = 1 := by
      split_ifs <;> rfl
    have hst : (if sock = .other then Handler.redirecting else .redirectKick a).stored = 0 := by
      split_ifs <;> rfl
    have hop : (if sock = .other then Handler.redirecting else .redirectKick a).opening = 0 := by
      split_ifs <;> rfl
    refine hb.move (moves_start _ rfl rfl) (n := 0) (a := -1) (m := 1) (by simp [start]) ?_ rfl
      (by rw [hst]; simp [Handler.stored]) (by rw [hop]; simp) (by omega) (by omega)
      (by rw [hrd]; simp only [Handler.redirects]; omega)
    simp only [start, agents] at hlen ⊢
    omega

/-- The state after the handler `t` went on to `r`. -/
def replied (r : Watchdog × Handler) (hs : List Handler) (t : ℕ) : Watchdog :=
  { r.1 with handlers := hs.set t r.2 }

theorem Balanced.opened (hb : s.Balanced) {fd a t : ℕ} {sock : SockType}
    (hp : s.handlers[t]? = some (.newAgent fd sock)) (hfd : s.agent.lookup fd = none) :
    (replied (s.resume (.newAgent fd sock) (.ok a)) s.handlers t).Balanced := by
  have hlen := length_insert (a := a) hfd
  have := hb.pos
  have := hb.moved_nonneg
  have := hb.moved_le
  by_cases hs : sock = .other
  · simp only [resume, hs, if_true]
    refine hb.move (moves_reply .done hp rfl rfl) (n := 1) (a := 1) (m := 0) rfl ?_
      (by simp [replied]) ?_ ?_ (by omega) (by omega) ?_
    · simp only [agents, replied] at hlen ⊢
      omega
    · simp [Handler.stored]
    · simp [Handler.opening]
    · simp only [Handler.redirects]
      omega
  · simp only [resume, hs, if_false]
    refine hb.move (moves_reply (.starting fd) hp rfl rfl) (n := 0) (a := 1) (m := 0)
      (by simp [replied]) ?_ (by simp [replied]) ?_ ?_ (by omega) (by omega) ?_
    · simp only [agents, replied] at hlen ⊢
      omega
    · simp [Handler.stored]
    · simp [Handler.opening]
    · simp only [Handler.redirects]
      omega

theorem Balanced.started (hb : s.Balanced) {fd a t : ℕ}
    (hp : s.handlers[t]? = some (.starting fd)) :
    (replied (s.resume (.starting fd) (.ok a)) s.handlers t).Balanced := by
  have := hb.pos
  have := hb.moved_nonneg
  have := hb.moved_le
  refine hb.move (moves_reply .done hp rfl rfl) (n := 1) (a := 0) (m := 0) rfl
    (by simp [replied, resume, agents]) (by simp [replied, resume]) ?_ ?_ (by omega) (by omega) ?_
  · simp [Handler.stored]
  · simp [Handler.opening]
  · simp only [Handler.redirects]
    omega

theorem Balanced.goes (hb : s.Balanced) (hp : s.handlers[t]? = some h) {r : Watchdog × Handler}
    (hr : r.1 = s) (hst : r.2.stored = h.stored) (hop : r.2.opening ≤ h.opening)
    (hrd : h.redirects ≤ r.2.redirects ∨ s.moved + h.redirects ≤ s.redirects + r.2.redirects) :
    (replied r s.handlers t).Balanced := by
  obtain ⟨s₁, h'⟩ := r
  subst hr
  exact hb.same (moves_reply _ hp rfl rfl) rfl rfl rfl hst hop hrd

theorem Balanced.reply (hb : s.Balanced) (hp : s.handlers[t]? = some h) {r : Reply}
    (ht : s.Tame (.reply t r)) : (replied (s.resume h r) s.handlers t).Balanced := by
  simp only [Tame, hp] at ht
  cases h with
  | newAgent fd sock =>
    cases r with
    | raise => exact hb.goes hp rfl rfl (by simp [resume, Handler.opening]) (.inl le_rfl)
    | ok a => exact hb.opened hp ht
  | starting fd =>
    cases r with
    | raise => exact ht.elim
    | ok a => exact hb.started hp
  | last => cases r <;> exact hb.goes hp rfl rfl le_rfl (.inl le_rfl)
  | exiting fd a =>
    cases r with
    | raise => exact hb.goes hp rfl rfl le_rfl (.inl le_rfl)
    | ok errCode =>
      by_cases he : errCode = 0
      · subst he
        exact hb.remove (moves_reply .done hp rfl rfl) (ht rfl) rfl rfl rfl rfl rfl rfl
      · exact hb.goes hp (by simp [resume, he]) (by simp [resume, he, Handler.stored])
          (by simp [resume, he, Handler.opening]) (.inl (by simp [Handler.redirects]))
  | kicking fd =>
    cases r with
    | raise => exact hb.goes hp rfl rfl le_rfl (.inl le_rfl)
    | ok v =>
      obtain ⟨h1, h2, h3⟩ := kickAgent_snd s fd
      exact hb.goes hp (kickAgent_fst s fd) h1 h2.le (.inl (Nat.zero_le _))
  | kickUser fd =>
    cases r with
    | raise => exact hb.goes hp rfl rfl le_rfl (.inl le_rfl)
    | ok v =>
      obtain ⟨h1, h2, h3⟩ := closeAgent_snd s fd
      exact hb.goes hp (closeAgent_fst s fd) h1 h2.le (.inl (Nat.zero_le _))
  | redirectKick a =>
    cases r with
    | raise =>
      refine hb.goes hp rfl rfl le_rfl (.inr ?_)
      simp only [Settled, Handler.redirects] at ht ⊢
      simp only [resume]
      omega
    | ok v => exact hb.goes hp rfl rfl le_rfl (.inl le_rfl)
  | redirecting =>
    cases r <;>
    · refine hb.goes hp rfl rfl le_rfl (.inr ?_)
      simp only [Settled, resume, Handler.redirects] at ht ⊢
      omega
  | done => cases r <;> exact hb.goes hp rfl rfl le_rfl (.inl le_rfl)

end Moves

theorem Balanced.starts (hb : s.Balanced) {r : Watchdog × Handler} (hr : r.1 = s)
    (hst : r.2.stored = 0) (hop : r.2.opening = 0) : (start r).Balanced := by
  obtain ⟨s₁, h'⟩ := r
  subst hr
  exact hb.same (moves_start _ rfl rfl) rfl rfl rfl hst (hop.trans_le (Nat.zero_le _))
    (.inl (Nat.zero_le _))

theorem Balanced.open (hb : s.Balanced) {sock : SockType} (ht : s.Tame (.open fd sock)) :
    (start (s.socketOpen fd sock)).Balanced := by
  simp only [Tame] at ht
  unfold socketOpen
  split_ifs with hroom hs
  · have := hb.pos
    have := hb.moved_nonneg
    have := hb.moved_le
    have := ht hroom
    refine hb.move (moves_start (.newAgent fd sock) rfl rfl) (n := 0) (a := 0) (m := 0)
      (by simp [start]) (by simp [start, agents]) (by simp [start]) ?_ ?_ (by omega) (by omega) ?_
    · simp [Handler.stored]
    · refine .inr ?_
      simp only [Handler.opening]
      omega
    · simp only [Handler.redirects]
      omega
  · exact hb.starts rfl rfl rfl
  · exact hb.starts rfl rfl rfl

theorem kick_fst (s : Watchdog) (fd : ℕ) (sock : SockType) : (s.kick fd sock).1 = s := by
  unfold kick
  split_ifs
  · exact kickAgent_fst s fd
  · rfl

theorem kick_snd (s : Watchdog) (fd : ℕ) (sock : SockType) :
    (s.kick fd sock).2.stored = 0 ∧ (s.kick fd sock).2.opening = 0 := by
  unfold kick
  split_ifs
  · exact ⟨(kickAgent_snd s fd).1, (kickAgent_snd s fd).2.1⟩
  · exact ⟨rfl, rfl⟩

/-- Every tame step keeps the accounts. -/
theorem Balanced.step (hb : s.Balanced) {a : Action} (ht : s.Tame a)
    (hst : Watchdog.step s a = some s') : s'.Balanced := by
  cases a with
  | «open» fd sock =>
    obtain rfl := Option.some.inj hst
    exact hb.open ht
  | close fd =>
    obtain rfl := Option.some.inj hst
    exact hb.close ht
  | error fd =>
    obtain rfl := Option.some.inj hst
    exact hb.close ht
  | kick fd sock =>
    obtain rfl := Option.some.inj hst
    exact hb.starts (kick_fst s fd sock) (kick_snd s fd sock).1 (kick_snd s fd sock).2
  | closeAgent fd =>
    obtain rfl := Option.some.inj hst
    obtain ⟨h1, h2, -⟩ := closeAgent_snd s fd
    exact hb.starts (closeAgent_fst s fd) h1 h2
  | redirectAgent oldFd sock =>
    obtain rfl := Option.some.inj hst
    exact hb.redirect
  | forward source fd =>
    obtain rfl := Option.some.inj hst
    exact hb.forward ht
  | unforward fd =>
    obtain rfl := Option.some.inj hst
    exact hb.remove (moves_stay rfl rfl) ht rfl rfl rfl rfl rfl rfl
  | reply t r =>
    simp only [Watchdog.step, Option.map_eq_some_iff] at hst
    obtain ⟨h, hp, rfl⟩ := hst
    exact hb.reply hp ht

end Watchdog

end SkynetGame
