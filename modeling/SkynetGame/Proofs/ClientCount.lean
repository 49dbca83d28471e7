import SkynetGame.Proofs.Gateserver

/-!
# The clients of a gate server are counted

An entry comes with one client more and goes with one less, except where an fd is opened that has an
entry still. The entry of an fd that was reported closed is left to a coroutine that is in the
handler of the user; if the handler raises an error nobody removes it.
-/

namespace SkynetGame

open Function

namespace Gateserver

open Netpack (Event)

variable {h : Handler} {s s' : State} {fd : ℕ}

/-- A coroutine has `close_fd` to do. -/
def Closing (s : State) (fd : ℕ) : Prop :=
  s.phase = .handler (.closeFd fd) ∨ .closeFd fd ∈ s.suspended

/-- The clients are the fds that have an entry, and each of them is open still, or it is being
closed. -/
structure Counted (h : Handler) (s : State) : Prop where
  count : ∃ F : Finset ℕ, (∀ fd, fd ∈ F ↔ s.connection fd ≠ none) ∧ s.clientNumber = F.card
  entry : ∀ fd, s.connection fd ≠ none → s.isOpen fd = true ∨ Closing s fd
  bound : s.clientNumber ≤ h.maxclient

/-- Between two messages no handler runs but those that have yielded. -/
theorem Counted.isOpen (hc : Counted h s) (hidle : s.phase = .idle)
    (hnone : ∀ fd, .closeFd fd ∉ s.suspended) (hentry : s.connection fd ≠ none) :
    s.isOpen fd = true := by
  rcases hc.entry fd hentry with hopen | hphase | hmem
  · exact hopen
  · rw [hidle] at hphase
    cases hphase
  · exact absurd hmem (hnone fd)

section Steps

/-- The listening socket is no client. -/
structure Sound (h : Handler) (s : State) : Prop where
  counted : Counted h s
  listen : ∀ fd ∈ s.socket, s.connection fd = none

theorem Sound.of_eq (hs : Sound h s) (hnumber : s'.clientNumber = s.clientNumber)
    (hentry : ∀ fd, s'.connection fd ≠ none ↔ s.connection fd ≠ none)
    (hopen : ∀ fd, s.connection fd ≠ none → s.isOpen fd = true ∨ Closing s fd →
      s'.isOpen fd = true ∨ Closing s' fd)
    (hsocket : s'.socket = s.socket ∨ s'.socket = none) : Sound h s' := by
  obtain ⟨F, hF, hcard⟩ := hs.counted.count
  refine ⟨⟨⟨F, fun fd => (hF fd).trans (hentry fd).symm, hnumber.trans hcard⟩, fun fd he => ?_,
    hnumber ▸ hs.counted.bound⟩, fun fd hmem => ?_⟩
  · have he' := (hentry fd).1 he
    exact hopen fd he' (hs.counted.entry fd he')
  · rcases hsocket with heq | heq
    · by_contra he
      exact (hentry fd).1 he (hs.listen fd (heq ▸ hmem))
    · rw [heq] at hmem
      cases hmem

theorem Sound.of_phase (hs : Sound h s) (hnumber : s'.clientNumber = s.clientNumber)
    (hconn : s'.connection = s.connection) (hopen : s'.isOpen = s.isOpen)
    (hsocket : s'.socket = s.socket) (hclosing : ∀ fd, Closing s fd → Closing s' fd) :
    Sound h s' := by
  refine hs.of_eq hnumber (fun fd => by rw [hconn]) (fun fd _ => ?_) (.inl hsocket)
  rw [hopen]
  exact Or.imp_right (hclosing fd)

theorem Sound.finish (hs : Sound h s) (hphase : s.phase = .handler (.closeFd fd)) :
    Sound h { closeFd fd s with phase := .forks } := by
  have hclosing : ∀ {fd'}, fd' ≠ fd → Closing s fd' → .closeFd fd' ∈ s.suspended := by
    rintro fd' hne (hp | hmem)
    · rw [hphase, Phase.handler.injEq, Rest.closeFd.injEq] at hp
      exact absurd hp.symm hne
    · exact hmem
  unfold closeFd
  split_ifs with hentry
  · obtain ⟨F, hF, hcard⟩ := hs.counted.count
    have hmem := (hF fd).2 hentry
    have hpos : 0 < F.card := Finset.card_pos.2 ⟨fd, hmem⟩
    have hbound := hs.counted.bound
    have hne : ∀ fd', update s.connection fd none fd' ≠ none ↔
        fd' ≠ fd ∧ s.connection fd' ≠ none := by
      intro fd'
      by_cases hfd : fd' = fd
      · rw [hfd, update_self]
        exact iff_of_false (fun hf => hf rfl) fun hf => hf.1 rfl
      · rw [update_of_ne hfd]
        exact (and_iff_right hfd).symm
    refine ⟨⟨⟨F.erase fd, fun fd' => ?_, ?_⟩, fun fd' he => ?_, ?_⟩, fun fd' hlisten => ?_⟩
    · rw [Finset.mem_erase, hF]
      exact (hne fd').symm
    · show s.clientNumber - 1 = _
      rw [hcard, Finset.card_erase_of_mem hmem]
      omega
    · obtain ⟨hfd, he⟩ := (hne fd').1 he
      exact (hs.counted.entry fd' he).imp_right fun hc => .inr (hclosing hfd hc)
    · show s.clientNumber - 1 ≤ _
      omega
    · by_contra he
      exact ((hne fd').1 he).2 (hs.listen fd' hlisten)
  · refine hs.of_eq rfl (fun _ => .rfl) (fun fd' he => Or.imp_right fun hc => .inr ?_) (.inl rfl)
    refine hclosing ?_ hc
    rintro rfl
    exact hentry he

theorem Sound.open (hs : Sound h s) {net : Netpack.State} (hidle : s.phase = .idle)
    (hlisten : ∀ fd' ∈ s.socket, fd ≠ fd')
    (htame : s.clientNumber < h.maxclient → s.connection fd = none) :
    Sound h (dispatch h { s with net := net } (.opened fd)) := by
  have hclosing : ∀ {fd' : ℕ}, Closing s fd' → .closeFd fd' ∈ s.suspended := by
    rintro fd' (hp | hmem)
    · rw [hidle] at hp
      cases hp
    · exact hmem
  have hopen : ∀ fd', s.isOpen fd' = true →
      update s.isOpen fd true fd' = true := by
    intro fd' ho
    by_cases hfd : fd' = fd
    · rw [hfd, update_self]
    · rwa [update_of_ne hfd]
  show Sound h (msgOpen h fd _)
  unfold msgOpen
  split
  next =>
    exact hs.of_eq rfl (fun _ => .rfl)
      (fun fd' _ => Or.imp (hopen fd') fun hc => .inr (hclosing hc)) (.inl rfl)
  next hroom =>
    have hlt : s.clientNumber < h.maxclient := Int.not_le.1 hroom
    have hnone := htame hlt
    obtain ⟨F, hF, hcard⟩ := hs.counted.count
    have hnot : fd ∉ F := fun hmem => (hF fd).1 hmem hnone
    refine ⟨⟨⟨insert fd F, fun fd' => ?_, ?_⟩, fun fd' he => ?_, ?_⟩, fun fd' hmem => ?_⟩
    · show fd' ∈ insert fd F ↔ update s.connection fd (some true) fd' ≠ none
      rw [Finset.mem_insert, hF]
      by_cases hfd : fd' = fd
      · rw [hfd, update_self]
        exact iff_of_true (.inl rfl) (by rintro ⟨⟩)
      · rw [update_of_ne hfd]
        exact or_iff_right hfd
    · show s.clientNumber + 1 = _
      rw [Finset.card_insert_of_notMem hnot, hcard]
      rfl
    · by_cases hfd : fd' = fd
      · left
        show update s.isOpen fd true fd' = true
        rw [hfd, update_self]
      · have he' : s.connection fd' ≠ none := by
          have := he
          rwa [show (State.connection _) fd' = update s.connection fd (some true) fd' from
            rfl, update_of_ne hfd] at this
        exact (hs.counted.entry fd' he').imp (hopen fd') fun hc => .inr (hclosing hc)
    · exact hlt
    · show update s.connection fd (some true) fd' = none
      rw [update_of_ne (hlisten fd' hmem).symm]
      exact hs.listen fd' hmem

theorem Sound.reported (hs : Sound h s) {net : Netpack.State} (hidle : s.phase = .idle) :
    Sound h { s with
      net := net, isOpen := update s.isOpen fd false, phase := .handler (.closeFd fd) } := by
  refine hs.of_eq rfl (fun _ => .rfl) (fun fd' _ => ?_) (.inl rfl)
  by_cases hfd : fd' = fd
  · rw [hfd]
    exact fun _ => .inr (.inl rfl)
  · rintro (hopen | hp | hmem)
    · exact .inl ((update_of_ne hfd ..).trans hopen)
    · rw [hidle] at hp
      cases hp
    · exact .inr (.inr hmem)

theorem Sound.reported_none (hs : Sound h s) {net : Netpack.State} (hidle : s.phase = .idle) :
    Sound h { closeFd fd { s with net := net, isOpen := update s.isOpen fd false } with
      phase := .forks } := by
  have hreported : Sound h { s with
      net := net, isOpen := update s.isOpen fd false, phase := .handler (.closeFd fd) } :=
    hs.reported hidle
  have hfinish := hreported.finish rfl
  unfold closeFd at hfinish ⊢
  simp only [] at hfinish ⊢
  split_ifs at hfinish ⊢
  · exact hfinish
  · exact hfinish

/-- The clients and the coroutines that have yielded are what they were. -/
def Quiet (s s' : State) : Prop :=
  s'.clientNumber = s.clientNumber ∧ s'.connection = s.connection ∧ s'.isOpen = s.isOpen ∧
    s'.socket = s.socket ∧ s'.suspended = s.suspended

theorem Sound.quiet (hs : Sound h s) (hq : Quiet s s')
    (hphase : ∀ fd, s.phase ≠ .handler (.closeFd fd)) : Sound h s' := by
  obtain ⟨hnumber, hconn, hopen, hsocket, hsus⟩ := hq
  refine hs.of_phase hnumber hconn hopen hsocket fun fd hc => .inr ?_
  rw [hsus]
  exact hc.resolve_left (hphase fd)

theorem dispatchMsg_quiet (d : Netpack.Delivery) (rest : Rest) (next : Phase) (s : State) :
    Quiet s (dispatchMsg d rest next s) := by
  unfold dispatchMsg
  split
  · exact ⟨rfl, rfl, rfl, rfl, rfl⟩
  · exact ⟨rfl, rfl, rfl, rfl, rfl⟩

theorem pop_quiet {s₁ : State} {d : Netpack.Delivery} {rest : Rest} {next : Phase} {n : ℕ}
    (hpop : s.pop = some (d, s₁)) :
    Quiet s (dispatchMsg d rest next { s₁ with forks := n }) := by
  obtain ⟨r, -, heq⟩ := Option.map_eq_some_iff.1 hpop
  obtain ⟨-, rfl⟩ := Prod.mk.inj heq
  exact dispatchMsg_quiet ..

theorem dispatchQueue_quiet (s : State) : Quiet s (dispatchQueue s) := by
  unfold dispatchQueue
  cases hpop : s.pop with
  | none => exact ⟨rfl, rfl, rfl, rfl, rfl⟩
  | some r => exact pop_quiet hpop

theorem loop_quiet (queue : ℕ) (s : State) : Quiet s (loop queue s) := by
  unfold loop
  split
  · exact ⟨rfl, rfl, rfl, rfl, rfl⟩
  cases hpop : s.pop with
  | none => exact ⟨rfl, rfl, rfl, rfl, rfl⟩
  | some r => exact pop_quiet hpop

theorem data_event (q : Option Netpack.Queue) (fd : ℕ) (buffer : Bytes) :
    (Netpack.filterData q fd buffer).2 = .none ∨ (Netpack.filterData q fd buffer).2 = .more ∨
      ∃ p, (Netpack.filterData q fd buffer).2 = .data fd p := by
  unfold Netpack.filterData
  cases Netpack.findUncomplete q fd with
  | some r =>
    simp only [Netpack.fillUncomplete]
    split_ifs
    · exact .inl rfl
    · exact .inr (.inr ⟨_, rfl⟩)
    · exact .inr (.inl rfl)
  | none =>
    rcases buffer with _ | ⟨b₀, _ | ⟨b₁, buffer⟩⟩
    · exact .inl rfl
    · exact .inl rfl
    · simp only []
      split_ifs
      · exact .inl rfl
      · exact .inr (.inr ⟨_, rfl⟩)
      · exact .inr (.inl rfl)

theorem Sound.socket (hs : Sound h s) {m : Netpack.Message} {net : Netpack.State}
    (hidle : s.phase = .idle) (hlisten : ∀ fd ∈ s.socket, m ≠ .accept fd)
    (htame : Tame h s (.socket m)) :
    Sound h (dispatch h { s with net := net } (Netpack.lfilter s.net.q m).2) := by
  have hphase : ∀ fd, s.phase ≠ .handler (.closeFd fd) := by
    intro fd hp
    rw [hidle] at hp
    cases hp
  have hdata : ∀ ev : Event, (∀ fd, ev ≠ .opened fd ∧ ev ≠ .close fd ∧ ev ≠ .error fd) →
      Sound h (dispatch h { s with net := net } ev) := by
    intro ev hev
    cases ev with
    | none => exact hs.quiet ⟨rfl, rfl, rfl, rfl, rfl⟩ hphase
    | more => exact hs.quiet ⟨rfl, rfl, rfl, rfl, rfl⟩ hphase
    | warning fd => exact hs.quiet ⟨rfl, rfl, rfl, rfl, rfl⟩ hphase
    | data fd buffer =>
      exact hs.quiet (dispatchMsg_quiet _ _ _ { s with net := net }) hphase
    | opened fd => exact absurd rfl (hev fd).1
    | close fd => exact absurd rfl (hev fd).2.1
    | error fd => exact absurd rfl (hev fd).2.2
  -- the listening socket has no entry
  have hself : ∀ {fd s'}, s.socket = some fd → s'.clientNumber = s.clientNumber →
      s'.connection = s.connection → s'.isOpen = update s.isOpen fd false →
      s'.suspended = s.suspended → s'.socket = s.socket ∨ s'.socket = none → Sound h s' := by
    intro fd s' hfd hnumber hconn hopen hsus hsocket
    refine hs.of_eq hnumber (fun fd' => by rw [hconn]) (fun fd' he => Or.imp (fun ho => ?_) fun hc =>
      .inr ?_) hsocket
    · have hne : fd' ≠ fd := by
        rintro rfl
        exact he (hs.listen fd' hfd)
      rw [hopen, update_of_ne hne]
      exact ho
    · rw [hsus]
      exact hc.resolve_left (hphase fd')
  cases m with
  | data fd buffer =>
    refine hdata _ fun fd' => ?_
    rcases data_event s.net.q fd buffer with hev | hev | ⟨p, hev⟩ <;>
      · rw [show (Netpack.lfilter s.net.q (.data fd buffer)).2 = _ from hev]
        exact ⟨by rintro ⟨⟩, by rintro ⟨⟩, by rintro ⟨⟩⟩
  | connect fd => exact hdata .none fun _ => ⟨by rintro ⟨⟩, by rintro ⟨⟩, by rintro ⟨⟩⟩
  | warning fd => exact hdata (.warning fd) fun _ => ⟨by rintro ⟨⟩, by rintro ⟨⟩, by rintro ⟨⟩⟩
  | accept fd =>
    exact hs.open hidle (fun fd' hmem hne => hlisten fd' hmem (congrArg _ hne)) htame
  | close fd =>
    show Sound h (msgClose h fd _)
    unfold msgClose
    split_ifs with hsocket
    · exact hs.reported hidle
    · exact hs.reported_none hidle
    · exact hself (not_not.1 hsocket) rfl rfl rfl rfl (.inr rfl)
  | error fd =>
    show Sound h (msgError h fd _)
    unfold msgError
    split_ifs with hsocket
    · exact hself hsocket rfl rfl rfl rfl (.inl rfl)
    · exact hs.reported hidle
    · exact hs.reported_none hidle

theorem Sound.closeclient (hs : Sound h s) (fd : ℕ) : Sound h (closeclient fd s) := by
  unfold Gateserver.closeclient
  split
  next hc =>
    refine hs.of_eq rfl (fun fd' => ?_) (fun _ _ => id) (.inl rfl)
    show update s.connection fd (some false) fd' ≠ none ↔ _
    by_cases hfd : fd' = fd
    · rw [hfd, update_self, hc]
      exact iff_of_true (by rintro ⟨⟩) (by rintro ⟨⟩)
    · rw [update_of_ne hfd]
  next => exact hs

theorem closing_iff {phase : Phase} : fd ∈ phase.closing ↔ phase = .handler (.closeFd fd) := by
  rcases phase with _ | (_ | _ | fd') | _ | _
  all_goals simp [Phase.closing]

theorem closing_eraseIdx {rest : Rest} {i : ℕ} (hi : s.suspended[i]? = some rest)
    (hphase : ∀ fd, s.phase ≠ .handler (.closeFd fd)) (hc : Closing s fd) :
    Closing { s with suspended := s.suspended.eraseIdx i, phase := .handler rest } fd := by
  have hmem := hc.resolve_left (hphase fd)
  obtain ⟨j, hj⟩ := List.mem_iff_getElem?.1 hmem
  by_cases hij : j = i
  · left
    rw [hij, hi] at hj
    rw [Option.some.inj hj]
  · right
    exact List.mem_eraseIdx_iff_getElem?.2 ⟨j, hij, hj⟩

theorem Sound.step {l : Label} (hs : Sound h s) (htame : Tame h s l)
    (hstep : step h s l = some s') : Sound h s' := by
  have hne : ∀ {p : Phase}, s.phase = p → p.closing = none → ∀ fd, s.phase ≠ .handler (.closeFd fd) := by
    intro p hp hclosing fd hfd
    rw [← hp, hfd] at hclosing
    cases hclosing
  cases took hstep with
  | socket hidle hnew => exact hs.socket hidle hnew htame
  | @ret rest hp =>
    cases rest with
    | closeFd fd => exact hs.finish hp
    | exit | loop => exact hs.quiet ⟨rfl, rfl, rfl, rfl, rfl⟩ (hne hp rfl)
  | yield hp =>
    refine hs.of_phase rfl rfl rfl rfl fun fd hc => .inr (List.mem_append.2 ?_)
    rcases hc with hc | hc
    · rw [hp, Phase.handler.injEq] at hc
      exact .inr (List.mem_singleton.2 hc.symm)
    · exact .inl hc
  | raise =>
    refine hs.of_eq rfl (fun _ => .rfl) (fun fd he => ?_) (.inl rfl)
    rintro (hopen | hc | hc)
    · exact .inl hopen
    · rcases htame fd (closing_iff.2 hc) with hnone | hopen | hmem
      · exact absurd hnone he
      · exact .inl hopen
      · exact .inr (.inr hmem)
    · exact .inr (.inr hc)
  | wakeup hp hi =>
    refine hs.of_phase rfl rfl rfl rfl fun fd hc => closing_eraseIdx hi ?_ hc
    exact hp.elim (fun hp => hne hp rfl) fun hp => hne hp rfl
  | closeclient fd => exact hs.closeclient fd
  | pop hp => exact hs.quiet (dispatchQueue_quiet s) (hne hp rfl)
  | @loop queue hp => exact hs.quiet (loop_quiet queue s) (hne hp rfl)
  | idle hp | fork hp => exact hs.quiet ⟨rfl, rfl, rfl, rfl, rfl⟩ (hne hp rfl)

end Steps

section Runs

theorem clients_of_reach {socket : ℕ} (hr : (machine h socket).Reach (Tame h) s) : Sound h s := by
  refine hr.invariant (I := Sound h) ⟨⟨⟨∅, fun fd => ?_, rfl⟩, fun fd he => absurd rfl he, ?_⟩,
    fun _ _ => rfl⟩ fun _ _ _ hs htame hstep => hs.step htame hstep
  · exact iff_of_false (Finset.notMem_empty fd) fun he => he rfl
  · exact Int.natCast_nonneg h.maxclient

/-- An fd is opened whose entry is there still: it is counted twice. -/
theorem not_counted_open (hs : Sound h s) {net : Netpack.State}
    (htame : ¬ Tame h s (.socket (.accept fd))) :
    ¬ Counted h (dispatch h { s with net := net } (.opened fd)) := by
  obtain ⟨hlt, hentry⟩ := Classical.not_imp.1 htame
  rintro ⟨⟨F', hF', hcard'⟩, -, -⟩
  have heq : dispatch h { s with net := net } (.opened fd) =
      msgOpen h fd { s with net := net, isOpen := update s.isOpen fd true } := rfl
  rw [heq, msgOpen, if_neg (Int.not_le.2 hlt)] at hF' hcard'
  obtain ⟨F, hF, hcard⟩ := hs.counted.count
  have hsame : F' = F := by
    refine Finset.ext fun fd' => (hF' fd').trans (Iff.trans ?_ (hF fd').symm)
    show update s.connection fd (some true) fd' ≠ none ↔ _
    by_cases hfd : fd' = fd
    · rw [hfd, update_self]
      exact iff_of_true (by rintro ⟨⟩) hentry
    · rw [update_of_ne hfd]
  have hnumber : s.clientNumber + 1 = F.card := hsame ▸ hcard'
  omega

/-- The handler of a close raises an error: nobody removes the entry any more. -/
theorem not_counted_raise (htame : ¬ Tame h s .raise) : ¬ Counted h { s with phase := .forks } := by
  intro hc
  refine htame fun fd _ => ?_
  by_contra hall
  obtain ⟨hentry, hrest⟩ := not_or.1 hall
  obtain ⟨hopen, hmem⟩ := not_or.1 hrest
  rcases hc.entry fd hentry with ho | hp' | hmem'
  · exact hopen ho
  · cases hp'
  · exact hmem hmem'

/-- The clients are counted as long as no fd is opened that has an entry and no handler of a close
raises an error for an fd that has one; and with the first such step they are not. -/
theorem counted_iff_of_reach {socket : ℕ} (hr : (machine h socket).Reach (Tame h) s) :
    Counted h s ∧ ∀ l s', step h s l = some s' → (Counted h s' ↔ Tame h s l) := by
  have hs := clients_of_reach hr
  refine ⟨hs.counted, fun l s' hstep => ⟨fun hc => ?_, fun htame => (hs.step htame hstep).counted⟩⟩
  by_contra htame
  unfold step at hstep
  cases l with
  | socket m =>
    cases m with
    | accept fd =>
      simp only [] at hstep
      split_ifs at hstep
      obtain ⟨net, -, rfl⟩ := Option.map_eq_some_iff.1 hstep
      exact not_counted_open hs htame hc
    | data | connect | close | error | warning => exact htame trivial
  | raise =>
    cases hp : s.phase with
    | handler rest =>
      simp only [hp] at hstep
      rw [← Option.some.inj hstep] at hc
      exact not_counted_raise htame hc
    | _ => simp only [hp, reduceCtorEq] at hstep
  | ret | yield | wakeup | closeclient | next => exact htame trivial

/-- The handler of the first close yields; its client is closed when it returns. -/
theorem counted_of_yield : ∃ s, (machine ⟨2, true, true, true⟩ 1).Reach (Tame ⟨2, true, true, true⟩) s ∧
    Counted ⟨2, true, true, true⟩ s ∧ s.clientNumber = 1 ∧ s.connection 7 = none := by
  have hl : ((machine ⟨2, true, true, true⟩ 1).run (Tame ⟨2, true, true, true⟩) (init 1)
      [.socket (.accept 7), .ret, .next, .socket (.accept 8), .raise, .next, .socket (.accept 9),
        .next, .closeclient 8, .socket (.close 7), .yield, .next, .socket (.close 9), .raise, .next,
        .wakeup 0, .ret, .next]).map (fun s => (s.clientNumber, s.connection 7)) =
      some (1, none) := by
    decide
  obtain ⟨s, hr, he⟩ := Machine.exists_reach hl
  obtain ⟨hnumber, hconn⟩ := Prod.mk.inj he
  exact ⟨s, hr, (counted_iff_of_reach hr).1, hnumber, hconn⟩

/-- The handler of a close raises an error, and the next message comes. -/
theorem not_counted_of_raise : ∃ s, (machine ⟨1, true, true, true⟩ 1).Reachable s ∧
    s.phase = .idle ∧ s.suspended = [] ∧ s.isOpen 7 = false ∧ s.connection 7 = some true ∧
    ¬ Counted ⟨1, true, true, true⟩ s := by
  have hl : ((machine ⟨1, true, true, true⟩ 1).run (fun _ _ => True) (init 1)
      [.socket (.accept 7), .ret, .next, .socket (.close 7), .raise, .next]).map (fun s =>
        (s.phase, s.suspended, s.isOpen 7, s.connection 7)) =
      some (.idle, [], false, some true) := by
    decide
  obtain ⟨s, hr, he⟩ := Machine.exists_reach hl
  obtain ⟨hidle, he⟩ := Prod.mk.inj he
  obtain ⟨hsus, he⟩ := Prod.mk.inj he
  obtain ⟨hopen, hconn⟩ := Prod.mk.inj he
  refine ⟨s, hr, hidle, hsus, hopen, hconn, fun hc => ?_⟩
  have hentry : s.connection 7 ≠ none := by
    rw [hconn]
    rintro ⟨⟩
  have hopen' := hc.isOpen hidle (fun fd => by rw [hsus]; exact List.not_mem_nil) hentry
  rw [hopen] at hopen'
  cases hopen'

end Runs

end Gateserver

end SkynetGame
