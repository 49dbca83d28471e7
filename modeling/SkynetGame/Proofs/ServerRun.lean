import SkynetGame.Proofs.ServerStep

/-!
# The invariant along a run

One theorem for each place a call can stand at: its next atomic step keeps the invariant. From
them, every state reached by a run whose steps are all tame (`Server.Tame`) meets it.
-/

namespace SkynetGame

open Function Option

namespace Server

/-- A push finds the queue of context `c` stored, and its ring, if it has to grow, stays in the
`int` range. -/
def CanPush (s : Server) (c : ℕ) (msg : SkynetMessage) : Prop :=
  s.forms c = 0 ∧ ((s.mq (s.ctx c).queue).put msg).cap ≤ intMax

instance (s : Server) (c : ℕ) (msg : SkynetMessage) : Decidable (s.CanPush c msg) :=
  inferInstanceAs (Decidable (_ ∧ _))

/-- A push is one that `CanPush` allows, and a worker that looks up the context for the queue it
holds finds none, or the one that the queue belongs to. -/
def Tame (s : Server) : Action → Prop
  | .send t msg =>
    match s.procs[t]? with
    | some (.holding c) => s.CanPush c msg
    | _ => True
  | .run t _ =>
    match s.procs[t]? with
    | some (.pushing c msg) => s.CanPush c msg
    | some (.grab _ q) =>
      ∀ c ∈ s.slot (s.mq q).handle, s.forms c = 0 ∧ (s.ctx c).queue = q
    | _ => True
  | _ => True

instance (s : Server) (a : Action) : Decidable (s.Tame a) := by
  unfold Tame
  split
  · split <;> infer_instance
  · split <;> infer_instance
  · infer_instance

/-- The runtime after process `t`, standing at `p`, has taken its next step. -/
def after (s : Server) (t : ℕ) (r : Bool) (p : Proc) : Server :=
  { (s.exec r p).1 with procs := s.procs.set t (s.exec r p).2 }

variable {s s₁ s' : Server} {l l' : List ℕ} {t : ℕ} {r : Bool} {p p' : Proc}

theorem after_eq (h : s.exec r p = (s₁, p')) :
    s.after t r p = { s₁ with procs := s.procs.set t p' } := by simp [after, h]

/-- A call's references to context `x`, and what it is about to do with it. -/
def use (p : Proc) (x : ℕ) : ℕ × ℕ × ℕ × ℕ := (p.refs x, p.deletes x, p.forms x, p.launches x)

/-- The contexts, the handle table and the references to contexts are as they were. -/
structure Apart (s s' : Server) (p p' : Proc) : Prop where
  ctx : s'.ctx = s.ctx
  nctx : s'.nctx = s.nctx
  slot : s'.slot = s.slot
  use : ∀ x, use p' x = use p x

theorem Inv.ofQueues (h : s.Inv l) (hm : Moves s s' p p') (hq : s'.QInv l')
    (hnq : s'.nmq = s.nmq) (ha : Apart s s' p p')
    (hown : ∀ x, s.alive x → (s.mq x).release = 0 → s'.alive x ∧ (s'.mq x).release = 0)
    (hrel : ∀ x, (s.mq x).release ≠ 0 →
      (s'.mq x).release ≠ 0 ∧ ((s.mq x).waiting = [] → (s'.mq x).waiting = []))
    (hp : Later s s' → s'.PInv p') : s.Keeps s' l' := by
  obtain ⟨hc, hn, hs, huse⟩ := ha
  simp only [use, Prod.mk.injEq] at huse
  have hR : ∀ x, s'.refs x = s.refs x := fun x => by
    have := hm.refs x; have := (huse x).1; omega
  have hD : ∀ x, s'.deletes x = s.deletes x := fun x => by
    have := hm.deletes x; have := (huse x).2.1; omega
  have hF : ∀ x, s'.forms x = s.forms x := fun x => by
    have := hm.forms x; have := (huse x).2.2.1; omega
  have hL : ∀ x, s'.launches x = s.launches x := fun x => by
    have := hm.launches x; have := (huse x).2.2.2; omega
  have hlater : Later s s' := ⟨hn.ge, fun x _ => by rw [hc], fun x _ hx => by rwa [hc],
    fun x _ hx => by rw [hF, hc]; exact ⟨hx, rfl⟩, hnq.ge, fun x _ => hrel x⟩
  refine ⟨⟨hq, h.c.same (fun x => by rw [hc]; exact ⟨rfl, rfl, rfl⟩) hn hs hR hD, ?_, ?_,
    PInv.all h.p hm hlater (hp hlater)⟩, hlater⟩
  · exact h.l.mono hn.ge (fun k x hx => hs ▸ hx) (fun x => (hL x).le)
      (fun k x _ hlt => by rw [hL] at hlt; omega) (fun x hx => by rwa [hc])
      (fun x hx => .inl (by rwa [hF] at hx))
  · refine h.o.mono (fun x hx hfx => ?_) (fun x _ _ ha hr => hown _ ha hr)
    rw [hc] at hx ⊢
    exact ⟨hx, by rwa [hF] at hfx, rfl⟩

theorem Inv.ofPlaces (h : s.Inv l) (hm : Moves s s' p p') (hok : s'.toMqMem.Ok l')
    (hnq : s'.nmq = s.nmq) (hv : s'.view = s.view)
    (hx : ∀ x, p'.holds x + l'.count x = p.holds x + l.count x)
    (ha : Apart s s' p p') (hp : s.PInv p') : s.Keeps s' l' := by
  have hf := fun x => MqMem.fields_of_view (congrFun hv x)
  have hQ : s'.QInv l' := h.q.shift hok hnq hv fun x => by
    have := hm.held x
    have := hx x
    omega
  refine h.ofQueues hm hQ hnq ha ?_ ?_ hp.later
  · intro x ha hr
    rw [MqMem.alive_congr s.toMqMem s'.toMqMem hnq hv]
    exact ⟨ha, (hf x).2.1.trans hr⟩
  · intro x hr
    exact ⟨fun hz => hr ((hf x).2.1.symm.trans hz), fun hw => (hf x).2.2.1.trans hw⟩

theorem count_cons_ite (x q : ℕ) (l : List ℕ) :
    (q :: l).count x = l.count x + if q = x then 1 else 0 := by
  rw [List.count_cons]
  simp [beq_iff_eq]

theorem count_append_ite (x q : ℕ) (l : List ℕ) :
    (l ++ [q]).count x = l.count x + if q = x then 1 else 0 := by
  rw [List.count_append, List.count_singleton]
  simp [beq_iff_eq]

theorem Inv.globalmqPop (h : s.Inv l) :
    ∃ m x l', s.toMqMem.skynetGlobalmqPop = (m, x) ∧ m.Ok l' ∧ m.nmq = s.nmq ∧ m.view = s.view ∧
      ∀ y, l.count y = l'.count y + if x = some y then 1 else 0 := by
  rcases l with _ | ⟨q, l'⟩
  · exact ⟨s.toMqMem, none, [], h.q.ok.globalmqPop_nil, h.q.ok, rfl, rfl, by simp⟩
  · obtain ⟨m, h1, h2, h3, h4⟩ := h.q.ok.globalmqPop_cons
    exact ⟨m, some q, l', h1, h2, h3, h4, fun y => by rw [count_cons_ite]; simp⟩

theorem Inv.ofQueue (h : s.Inv l) (hm : Moves s s' p p') (hok : s'.toMqMem.Ok l')
    (hnq : s'.nmq = s.nmq) {q : ℕ} (ha : s.alive q) {y : MessageQueue}
    (hv : s'.view = update s.view q y) (hfr : y.freed = (s.mq q).freed)
    (hrel : y.release = (s.mq q).release)
    (hw : (s.mq q).release ≠ 0 → (s.mq q).waiting = [] → y.waiting = [])
    (hx : ∀ x, x ≠ q → p'.holds x + l'.count x = p.holds x + l.count x)
    (hplace : s.held q + p'.holds q + l'.count q
      = p.holds q + if y.inGlobal = 0 ∧ y.release = 0 then 0 else 1)
    (hflag : y.inGlobal ≤ mqInGlobal)
    (hidle : y.inGlobal = 0 → y.release = 0 → y.waiting = [])
    (hapart : Apart s s' p p') (hp : Later s s' → s'.PInv p') : s.Keeps s' l' := by
  have hQ : s'.QInv l' := by
    refine h.q.update hok hnq hv ha hfr (fun x hne => ?_) ?_ hflag hidle
    · have := hm.held x
      have := hx x hne
      omega
    · have := hm.held q
      omega
  have hfld : ∀ x, (s'.mq x).release = (s.mq x).release ∧
      ((s.mq x).release ≠ 0 → (s.mq x).waiting = [] → (s'.mq x).waiting = []) := by
    intro x
    have hvx := congrFun hv x
    by_cases hne : x = q
    · subst hne
      rw [update_self] at hvx
      obtain ⟨-, h2, h3, -⟩ := MqMem.fields_of_view hvx
      exact ⟨h2.trans hrel, fun hr hz => h3.trans (hw hr hz)⟩
    · rw [update_of_ne hne] at hvx
      obtain ⟨-, h2, h3, -⟩ := MqMem.fields_of_view hvx
      exact ⟨h2, fun _ hz => h3.trans hz⟩
  refine h.ofQueues hm hQ hnq hapart (fun x hxa hr => ?_) (fun x hr => ?_) hp
  · rw [MqMem.alive_update s.toMqMem s'.toMqMem hnq hv hfr]
    exact ⟨hxa, (hfld x).1.trans hr⟩
  · exact ⟨fun hz => hr ((hfld x).1.symm.trans hz), (hfld x).2 hr⟩

theorem Inv.ofHeld (h : s.Inv l) (hm : Moves s s' p p') (hok : s'.toMqMem.Ok l)
    (hnq : s'.nmq = s.nmq) {q : ℕ} (hheld : 1 ≤ s.held q) {y : MessageQueue}
    (hv : s'.view = update s.view q y) (hfr : y.freed = (s.mq q).freed)
    (hrel : y.release = (s.mq q).release) (hig : y.inGlobal = (s.mq q).inGlobal)
    (hw : (s.mq q).waiting = [] → y.waiting = []) (hx : ∀ x, p'.holds x = p.holds x)
    (hapart : Apart s s' p p') (hp : Later s s' → s'.PInv p') : s.Keeps s' l := by
  have ha := h.q.alive_of_held hheld
  have hpl := h.q.place q ha
  refine h.ofQueue hm hok hnq ha hv hfr hrel (fun _ => hw) (fun x _ => by rw [hx]) ?_
    (hig ▸ h.q.flag q ha) (fun h1 h2 => ?_) hapart hp
  · rw [hx, hig, hrel, ← hpl]
    omega
  · rw [hig] at h1
    rw [hrel] at h2
    rw [if_pos ⟨h1, h2⟩] at hpl
    omega

theorem Inv.ofContexts (h : s.Inv l) (hm : Moves s s' p p') (hq : s'.toMqMem = s.toMqMem)
    (hx : ∀ x, p'.holds x = p.holds x) (hC : s'.CInv) (hL : s'.LInv)
    (hctx : ∀ x, (s'.ctx x).freed = false → s'.forms x = 0 →
      (s.ctx x).freed = false ∧ s.forms x = 0 ∧ (s'.ctx x).queue = (s.ctx x).queue)
    (hlater : Later s s') (hp : s'.PInv p') : s.Keeps s' l := by
  have hQ : s'.QInv l := by
    refine h.q.shift (by rw [hq]; exact h.q.ok) (by rw [hq]) (by rw [hq]) fun x => ?_
    have := hm.held x
    have := hx x
    omega
  exact ⟨⟨hQ, hC, hL, h.o.mono hctx fun x _ _ ha hr => by rw [hq]; exact ⟨ha, hr⟩,
    PInv.all h.p hm hlater hp⟩, hlater⟩

theorem Inv.ofRefs (h : s.Inv l) (hm : Moves s s' p p') (hq : s'.toMqMem = s.toMqMem)
    (hx : ∀ x, p'.holds x = p.holds x) (hC : s'.CInv)
    (hctx : ∀ x, ∃ r, s'.ctx x = { s.ctx x with ref := r }) (hn : s'.nctx = s.nctx)
    (hs : ∀ k x, s'.slot k = some x → s.slot k = some x)
    (hforms : ∀ x, p'.forms x = p.forms x) (hlaunch : ∀ x, p'.launches x ≤ p.launches x)
    (hless : ∀ k x, s'.slot k = some x → p.launches x ≤ p'.launches x) (hp : s.PInv p') :
    s.Keeps s' l := by
  have hF : ∀ x, s'.forms x = s.forms x := fun x => by
    have := hm.forms x; rw [hforms] at this; omega
  have hfield : ∀ x, (s'.ctx x).handle = (s.ctx x).handle ∧ (s'.ctx x).init = (s.ctx x).init ∧
      (s'.ctx x).queue = (s.ctx x).queue ∧ (s'.ctx x).freed = (s.ctx x).freed := fun x => by
    obtain ⟨r, hr⟩ := hctx x
    rw [hr]
    exact ⟨rfl, rfl, rfl, rfl⟩
  have hL : s'.LInv := by
    refine h.l.mono hn.ge hs (fun x => ?_) (fun k x hk hlt => ?_) (fun x hx => ?_)
      (fun x hx => .inl (by rwa [hF] at hx))
    · have := hm.launches x
      have := hlaunch x
      omega
    · have := hm.launches x
      have := hless k x hk
      omega
    · rwa [(hfield x).2.1]
  have hlater : Later s s' := ⟨hn.ge, fun x _ => (hfield x).1,
    fun x _ hx => (hfield x).2.1.trans hx, fun x _ hx => ⟨(hF x).trans hx, (hfield x).2.2.1⟩,
    by rw [hq], fun x _ hx => by rw [hq]; exact ⟨hx, id⟩⟩
  refine h.ofContexts hm hq hx hC hL (fun x hx hf => ?_) hlater (hp.later hlater)
  rw [(hfield x).2.2.2] at hx
  exact ⟨hx, hF x ▸ hf, (hfield x).2.2.1⟩

theorem setCtx_ref (s : Server) (c : ℕ) (r : ℤ) (x : ℕ) :
    ∃ r', (s.setCtx c { s.ctx c with ref := r }).ctx x = { s.ctx x with ref := r' } := by
  by_cases hx : x = c
  · subst hx
    exact ⟨r, by simp [setCtx]⟩
  · exact ⟨(s.ctx x).ref, by simp [setCtx, hx]⟩

theorem le_held (hp : s.procs[t]? = some p) (q : ℕ) : p.holds q ≤ s.held q := le_tally _ hp

theorem le_refs (hp : s.procs[t]? = some p) (c : ℕ) : p.refs c ≤ s.refs c := le_tally _ hp

theorem le_deletes (hp : s.procs[t]? = some p) (c : ℕ) : p.deletes c ≤ s.deletes c :=
  le_tally _ hp

theorem CInv.listed_of_slot (h : s.CInv) {k c : ℕ} (hk : s.slot k = some c) :
    s.listed c = 1 := by
  simp [listed, (h.slot k c hk).2, hk]

theorem Inv.owned {c q : ℕ} (h : s.Inv l) (hc : (s.ctx c).freed = false) (hq : s.Has c q) :
    s.alive q ∧ (s.mq q).release = 0 := by
  have := h.o.owner c hc hq.formed
  rwa [hq.queue] at this

section Turn

variable {w : ℤ} {q c i n nq : ℕ} {msg : SkynetMessage}

theorem Inv.worker (h : s.Inv l) {o : Option ℕ} (hp : s.procs[t]? = some (.worker w o)) :
    ∃ l', s.Keeps (s.after t r (.worker w o)) l' := by
  rcases o with _ | q
  · obtain ⟨m, x, l', hpop, hok, hnq, hv, hx⟩ := h.globalmqPop
    refine ⟨l', ?_⟩
    rcases x with _ | q <;> rw [after_eq (by simp only [exec, hpop]; rfl)] <;>
      refine h.ofPlaces (moves_run hp rfl) hok hnq hv (fun y => ?_)
        ⟨rfl, rfl, rfl, fun _ => rfl⟩ trivial <;>
      simp [Proc.holds, hx y, add_comm]
  · refine ⟨l, h.ofPlaces (moves_run hp rfl) h.q.ok rfl rfl (fun x => ?_)
      ⟨rfl, rfl, rfl, fun _ => rfl⟩ trivial⟩
    simp [exec, Proc.holds]

theorem Inv.turnPop (h : s.Inv l) (hp : s.procs[t]? = some (.turnPop w)) :
    ∃ l', s.Keeps (s.after t r (.turnPop w)) l' := by
  obtain ⟨m, x, l', hpop, hok, hnq, hv, hx⟩ := h.globalmqPop
  refine ⟨l', ?_⟩
  rw [after_eq (by simp only [exec, hpop]; rfl)]
  refine h.ofPlaces (moves_run hp rfl) hok hnq hv (fun y => ?_)
    ⟨rfl, rfl, rfl, fun _ => rfl⟩ trivial
  simp [Proc.holds, hx y, add_comm]

theorem PInv.holds_of_launches {p : Proc} (h : s.PInv p) (hl : 0 < p.launches c)
    (hf : p.forms c = 0) : 0 < p.holds (s.ctx c).queue := by
  have key : ∀ x q, s.Has x q → 0 < (if x = c then 1 else 0) →
      0 < if q = (s.ctx c).queue then 1 else 0 := by
    intro x q hx hl
    split_ifs at hl with hxc
    · rw [← hxc, hx.queue]
      simp
    · omega
  induction p with
  | registered x => simp_all [Proc.forms, Proc.launches]
  | starting x q | started x q => exact key x q h hl
  | failDelete x k q | failRetire x k q => exact key x q h.1 hl
  | mqRelease q k ih => exact Nat.add_pos_right _ (ih h hl hf)
  | drop q k ih => exact Nat.add_pos_right _ (ih h.2 hl hf)
  | free q k ih => exact Nat.add_pos_right _ (ih h.2.2 hl hf)
  | release x k ih | delete x k ih => exact ih h hl hf
  | _ => simp [Proc.launches] at hl

theorem Inv.grab (h : s.Inv l) (hp : s.procs[t]? = some (.grab w q))
    (ht : ∀ c ∈ s.slot (s.mq q).handle, s.forms c = 0 ∧ (s.ctx c).queue = q) :
    ∃ l', s.Keeps (s.after t r (.grab w q)) l' := by
  have hheld : 1 ≤ s.held q := by simpa [Proc.holds] using le_held hp q
  have hta := MqMem.touch_alive (h.q.alive_of_held hheld)
  refine ⟨l, ?_⟩
  rcases hs : s.slot (s.mq q).handle with _ | c
  · rw [after_eq (by simp only [exec, hs, hta]; rfl)]
    exact h.ofPlaces (moves_run hp rfl) h.q.ok rfl rfl (fun _ => rfl)
      ⟨rfl, rfl, rfl, fun _ => rfl⟩ trivial
  obtain ⟨hf, hq⟩ := ht c hs
  obtain ⟨hlive, hh⟩ := h.c.slot _ c hs
  have hinit : (s.ctx c).init = true := by
    by_contra hne
    obtain ⟨p, hp', hl⟩ := tally_pos (h.l.init _ c hs hf (by simpa using hne))
    have hpf : p.forms c = 0 := by
      have := le_tally_of_mem (Proc.forms c) hp'
      have : s.forms c = 0 := hf
      simp only [Server.forms] at this
      omega
    -- the launching call would hold the queue that this one holds
    have hph := (h.p p hp').holds_of_launches hl hpf
    rw [hq] at hph
    obtain ⟨j, hj, rfl⟩ := List.getElem_of_mem hp'
    have hjt : j ≠ t := by
      rintro rfl
      rw [List.getElem?_eq_getElem hj, some.injEq] at hp
      rw [hp] at hl
      simp [Proc.launches] at hl
    have h2 := add_le_tally (Proc.holds q) hjt (List.getElem?_eq_getElem hj) hp
    have := h.q.held_le q
    simp only [Proc.holds, if_true] at h2
    simp only [held] at this
    omega
  rw [after_eq (by simp only [exec, hs, hta]; rfl)]
  have hm : Moves s { s.skynetContextGrab c with procs := s.procs.set t (.loop w q c 0 1) }
      (.grab w q) (.loop w q c 0 1) := moves_run hp rfl
  have hC : CInv { s.skynetContextGrab c with procs := s.procs.set t (.loop w q c 0 1) } :=
    h.c.grab hlive (by rw [h.c.listed_of_slot hs]; omega) rfl rfl rfl hm.refs hm.deletes
  refine h.ofRefs hm rfl (fun _ => rfl) hC (setCtx_ref s c _) rfl (fun _ _ hk => hk)
    (fun _ => rfl) (fun _ => le_rfl) (fun _ _ _ => le_rfl) ⟨⟨h.c.lt c hlive, hf, hq⟩, hinit⟩

theorem Inv.loop (h : s.Inv l) (hp : s.procs[t]? = some (.loop w q c i n)) :
    ∃ l', s.Keeps (s.after t r (.loop w q c i n)) l' := by
  have hheld : 1 ≤ s.held q := by simpa [Proc.holds] using le_held hp q
  have hrefs : 1 ≤ s.refs c := by simpa [Proc.refs] using le_refs hp c
  obtain ⟨hhas, hinit⟩ := h.p _ (List.mem_of_getElem? hp)
  have ha := h.q.alive_of_held hheld
  by_cases hin : i < n
  · refine ⟨l, ?_⟩
    rcases hpop : s.toMqMem.skynetMqPop q with ⟨m, _ | msg⟩
    · obtain ⟨hok, hnq, hw, hv⟩ := h.q.ok.mqPop_none ha hpop
      -- the context still lives, so the queue idles from here on
      have hrel := (h.owned (h.c.live_of_refs hrefs) hhas).2
      rw [after_eq (by simp only [exec, hin, hpop]; rfl)]
      refine h.ofQueue (moves_run hp rfl) hok hnq ha hv rfl rfl (fun _ _ => hw)
        (fun x hne => ?_) ?_ (Nat.zero_le _) (fun _ _ => hw)
        ⟨rfl, rfl, rfl, fun _ => rfl⟩ (fun _ => trivial)
      · simp [Proc.holds, Ne.symm hne]
      · have h1 := h.q.held_le q
        have h2 := List.count_eq_zero.2 (h.q.not_mem_of_held hheld)
        simp only [Proc.holds, MqMem.view_release, hrel, and_self, if_true]
        omega
    · obtain ⟨hok, hnq, y, hv, hw, hig, hrel, hfr⟩ := h.q.ok.mqPop_some ha hpop
      rw [after_eq (by simp only [exec, hin, hpop]; rfl)]
      refine h.ofHeld (moves_run hp rfl) hok hnq hheld hv hfr hrel hig (fun hz => ?_)
        (fun _ => rfl) ⟨rfl, rfl, rfl, fun _ => rfl⟩
        (PInv.later · ⟨hhas, hinit⟩)
      rw [hw] at hz
      cases hz
  · have hck : s.toMqMem.check (q = (s.ctx c).queue) .otherQueue = s.toMqMem :=
      MqMem.check_true (by simp [hhas.queue])
    obtain ⟨m, x, l', hpop, hok, hnq, hv, hx⟩ := h.globalmqPop
    refine ⟨l', ?_⟩
    rcases x with _ | nq
    · rw [after_eq (by simp only [exec, hin, hck, hpop]; rfl)]
      refine h.ofPlaces (moves_run hp rfl) hok hnq hv (fun y => ?_)
        ⟨rfl, rfl, rfl, fun _ => rfl⟩ trivial
      simp [Proc.holds, hx y]
    · rw [after_eq (by simp only [exec, hin, hck, hpop]; rfl)]
      refine h.ofPlaces (moves_run hp rfl) hok hnq hv (fun y => ?_)
        ⟨rfl, rfl, rfl, fun _ => rfl⟩ ⟨hhas, hinit⟩
      simp only [Proc.holds, hx y, some.injEq]
      omega

theorem Inv.popped (h : s.Inv l) (hp : s.procs[t]? = some (.popped w q c i n msg)) :
    ∃ l', s.Keeps (s.after t r (.popped w q c i n msg)) l' := by
  have hheld : 1 ≤ s.held q := by simpa [Proc.holds] using le_held hp q
  have hta := MqMem.touch_alive (h.q.alive_of_held hheld)
  have hpi := h.p _ (List.mem_of_getElem? hp)
  refine ⟨l, ?_⟩
  by_cases hi : i = 0 ∧ 0 ≤ w <;> rw [after_eq (by simp only [exec, hi, hta]; rfl)] <;>
    exact h.ofPlaces (moves_run hp rfl) h.q.ok rfl rfl (fun _ => rfl)
      ⟨rfl, rfl, rfl, fun _ => rfl⟩ hpi

theorem Inv.overload (h : s.Inv l) (hp : s.procs[t]? = some (.overload w q c i n msg)) :
    ∃ l', s.Keeps (s.after t r (.overload w q c i n msg)) l' := by
  have hheld : 1 ≤ s.held q := by simpa [Proc.holds] using le_held hp q
  obtain ⟨hok, hnq, o, hv⟩ := h.q.ok.mqOverload (h.q.alive_of_held hheld)
  have hpi := h.p _ (List.mem_of_getElem? hp)
  exact ⟨l, h.ofHeld (moves_run hp rfl) hok hnq hheld hv rfl rfl rfl id (fun _ => rfl)
    ⟨rfl, rfl, rfl, fun _ => rfl⟩ (PInv.later · hpi)⟩

theorem Inv.dispatch (h : s.Inv l) (hp : s.procs[t]? = some (.dispatch w q c i n msg)) :
    ∃ l', s.Keeps (s.after t r (.dispatch w q c i n msg)) l' := by
  have hpi := h.p _ (List.mem_of_getElem? hp)
  have hck : s.toMqMem.check (s.ctx c).init .notInit = s.toMqMem := MqMem.check_true hpi.2
  refine ⟨l, ?_⟩
  rcases hcb : (s.ctx c).cb with _ | _ <;>
    rw [after_eq (by simp only [exec, hcb, hck]; rfl)] <;>
    exact h.ofPlaces (moves_run hp rfl) h.q.ok rfl rfl (fun _ => rfl)
      ⟨rfl, rfl, rfl, fun _ => rfl⟩ hpi

theorem Inv.call (h : s.Inv l) (hp : s.procs[t]? = some (.call w q c i n)) :
    ∃ l', s.Keeps (s.after t r (.call w q c i n)) l' := by
  have hpi := h.p _ (List.mem_of_getElem? hp)
  exact ⟨l, h.ofPlaces (moves_run hp rfl) h.q.ok rfl rfl (fun _ => rfl)
    ⟨rfl, rfl, rfl, fun _ => rfl⟩ hpi⟩

theorem Inv.requeue (h : s.Inv l) (hp : s.procs[t]? = some (.requeue w q c nq)) :
    ∃ l', s.Keeps (s.after t r (.requeue w q c nq)) l' := by
  have hheld : 1 ≤ s.held q := by
    have := le_held hp q
    simp only [Proc.holds, if_true] at this
    omega
  obtain ⟨hok, hnq, hv⟩ := h.q.ok.globalmqPush (h.q.alive_of_held hheld)
    (h.q.not_mem_of_held hheld)
  refine ⟨l ++ [q], h.ofPlaces (moves_run hp rfl) hok hnq hv (fun x => ?_)
    ⟨rfl, rfl, rfl, fun _ => rfl⟩ trivial⟩
  rw [count_append_ite]
  simp only [exec, Proc.holds, some.injEq]
  omega

end Turn

section Release

variable {q c : ℕ} {k : Proc}

theorem Inv.mqRelease (h : s.Inv l) (hp : s.procs[t]? = some (.mqRelease q k)) :
    ∃ l', s.Keeps (s.after t r (.mqRelease q k)) l' := by
  have hheld : 1 ≤ s.held q := by
    have := le_held hp q
    simp only [Proc.holds, if_true] at this
    omega
  have ha := h.q.alive_of_held hheld
  have hpi := h.p _ (List.mem_of_getElem? hp)
  by_cases hr : (s.mq q).release = 0
  · obtain ⟨hok, hnq, hv⟩ := h.q.ok.globalmqPush ha (h.q.not_mem_of_held hheld)
    refine ⟨l ++ [q], ?_⟩
    rw [after_eq (by
      simp only [exec, MqMem.mqRelease_live ha hr, Bool.false_eq_true, if_false]; rfl)]
    refine h.ofPlaces (moves_run hp rfl) hok hnq hv (fun x => ?_) ⟨rfl, rfl, rfl, fun _ => rfl⟩ hpi
    rw [count_append_ite]
    simp only [Proc.holds]
    omega
  · refine ⟨l, ?_⟩
    rw [after_eq (by simp only [exec, MqMem.mqRelease_marked ha hr, if_true]; rfl)]
    exact h.ofPlaces (moves_run hp rfl) h.q.ok rfl rfl (fun _ => rfl) ⟨rfl, rfl, rfl, fun _ => rfl⟩
      ⟨⟨(MqMem.alive_iff.1 ha).1, hr⟩, hpi⟩

theorem Inv.drop (h : s.Inv l) (hp : s.procs[t]? = some (.drop q k)) :
    ∃ l', s.Keeps (s.after t r (.drop q k)) l' := by
  have hheld : 1 ≤ s.held q := by
    have := le_held hp q
    simp only [Proc.holds, if_true] at this
    omega
  have ha := h.q.alive_of_held hheld
  have hpi := h.p _ (List.mem_of_getElem? hp)
  refine ⟨l, ?_⟩
  rcases hpop : s.toMqMem.skynetMqPop q with ⟨m, _ | msg⟩
  · obtain ⟨hok, hnq, hw, hv⟩ := h.q.ok.mqPop_none ha hpop
    rw [after_eq (by simp only [exec, hpop]; rfl)]
    have hpl := h.q.place q ha
    rw [if_neg (by intro hz; exact hpi.1.2 hz.2)] at hpl
    refine h.ofQueue (moves_run hp rfl) hok hnq ha hv rfl rfl (fun _ _ => hw) (fun _ _ => rfl) ?_
      (Nat.zero_le _) (fun _ _ => hw) ⟨rfl, rfl, rfl, fun _ => rfl⟩ (fun hl => ?_)
    · simp only [Proc.holds, MqMem.view_release, hpi.1.2, and_false, if_false]
      omega
    · obtain ⟨h1, h2⟩ := PInv.later hl hpi
      exact ⟨h1, (hl.release q hpi.1.1 hpi.1.2).2 hw, h2⟩
  · obtain ⟨hok, hnq, y, hv, hw, hig, hrel, hfr⟩ := h.q.ok.mqPop_some ha hpop
    rw [after_eq (by simp only [exec, hpop]; rfl)]
    refine h.ofHeld (moves_run hp rfl) hok hnq hheld hv hfr hrel hig (fun hz => ?_)
      (fun _ => rfl) ⟨rfl, rfl, rfl, fun _ => rfl⟩
      (PInv.later · hpi)
    rw [hw] at hz
    cases hz

theorem Inv.free (h : s.Inv l) (hp : s.procs[t]? = some (.free q k)) :
    ∃ l', s.Keeps (s.after t r (.free q k)) l' := by
  have hheld : 1 ≤ s.held q := by
    have := le_held hp q
    simp only [Proc.holds, if_true] at this
    omega
  have ha := h.q.alive_of_held hheld
  obtain ⟨⟨-, hr⟩, hw, hpi⟩ := h.p _ (List.mem_of_getElem? hp)
  obtain ⟨hok, hnq, hv⟩ := h.q.ok.release ha (h.q.not_mem_of_held hheld)
  have hm : Moves s (s.after t r (.free q k)) (.free q k) k := moves_run hp rfl
  have hQ : (s.after t r (.free q k)).QInv l := by
    refine h.q.free hok hnq hv hw fun x => ?_
    have := hm.held x
    simp only [Proc.holds, eq_comm (a := q)] at this
    omega
  have hvx : ∀ x, x ≠ q → (s.after t r (.free q k)).view x = s.view x := fun x hne =>
    (congrFun hv x).trans (update_of_ne hne _ _)
  refine ⟨l, h.ofQueues hm hQ hnq
    ⟨rfl, rfl, rfl, fun _ => rfl⟩ (fun x hxa hxr => ?_) (fun x hxr => ?_) (PInv.later · hpi)⟩
  · have hne : x ≠ q := fun he => hr (he ▸ hxr)
    rw [MqMem.alive_of_view s.toMqMem (s.after t r (.free q k)).toMqMem hnq (hvx x hne)]
    exact ⟨hxa, (MqMem.fields_of_view (hvx x hne)).2.1.trans hxr⟩
  · by_cases hne : x = q
    · subst hne
      have hself := (congrFun hv x).trans (update_self _ _ _)
      obtain ⟨-, h2, h3, -⟩ := MqMem.fields_of_view hself
      exact ⟨fun hz => hr (h2.symm.trans hz), fun _ => h3.trans hw⟩
    · obtain ⟨-, h2, h3, -⟩ := MqMem.fields_of_view (hvx x hne)
      exact ⟨fun hz => hxr (h2.symm.trans hz), fun hz => h3.trans hz⟩

theorem decRef_snd (s : Server) (c : ℕ) :
    (s.decRef c).2 = decide ((s.ctx c).ref - 1 = 0) := rfl

/-- A call gives back a reference to context `c`; only a launch whose context nobody can find any
more may forget that it is one. -/
theorem Inv.decRef (h : s.Inv l) (c : ℕ) (p' : Proc) (hp : s.procs[t]? = some p)
    (he : s.exec r p = ((s.decRef c).1, p')) (hx : ∀ x, p'.holds x = p.holds x)
    (hrefs : ∀ x, p'.refs x + (if c = x then 1 else 0) = p.refs x)
    (hdel : ∀ x, p'.deletes x = p.deletes x + if c = x ∧ (s.ctx c).ref - 1 = 0 then 1 else 0)
    (hforms : ∀ x, p'.forms x = p.forms x) (hlaunch : ∀ x, p'.launches x ≤ p.launches x)
    (hless : ∀ x, c ≠ x ∨ (s.ctx c).ref - 1 ≠ 0 → p.launches x ≤ p'.launches x)
    (hpi : s.PInv p') : s.Keeps (s.after t r p) l := by
  rw [after_eq he]
  have hm : Moves s { (s.decRef c).1 with procs := s.procs.set t p' } p p' := moves_run hp rfl
  have hC : CInv { (s.decRef c).1 with procs := s.procs.set t p' } :=
    h.c.release rfl rfl rfl (fun x => by have := hm.refs x; have := hrefs x; omega)
      (fun x => by have := hm.deletes x; have := hdel x; omega)
  refine h.ofRefs hm rfl hx hC (setCtx_ref s c _) rfl (fun _ _ hk => hk) hforms hlaunch
    (fun k x hk => hless x ?_) hpi
  -- the table's reference is still there, so this one was not the last
  by_contra hne
  push Not at hne
  obtain ⟨rfl, hz⟩ := hne
  have hlive := (h.c.slot k _ hk).1
  have := h.c.ref _ hlive
  have := h.c.listed_of_slot hk
  have h1 := hrefs c
  have h2 := le_refs hp c
  rw [if_pos rfl] at h1
  omega

theorem Inv.release (h : s.Inv l) (hp : s.procs[t]? = some (.release c k)) :
    ∃ l', s.Keeps (s.after t r (.release c k)) l' := by
  have hpi := h.p _ (List.mem_of_getElem? hp)
  refine ⟨l, ?_⟩
  by_cases hz : (s.ctx c).ref - 1 = 0
  · refine h.decRef c (.delete c k) hp
      (by simp only [exec, decRef_snd, hz, decide_true, if_true])
      (fun _ => rfl) (fun x => ?_) (fun x => ?_) (fun _ => rfl) (fun _ => le_rfl)
      (fun _ _ => le_rfl) hpi
    · simp only [Proc.refs]
      omega
    · simp only [Proc.deletes, hz, and_true]
      omega
  · refine h.decRef c k hp (by simp [exec, decRef_snd, hz])
      (fun _ => rfl) (fun x => ?_) (fun x => ?_) (fun _ => rfl) (fun _ => le_rfl)
      (fun _ _ => le_rfl) hpi
    · simp only [Proc.refs]
      omega
    · simp [Proc.deletes, hz]

theorem Inv.deleteContext (h : s.Inv l) (p' : Proc) (hp : s.procs[t]? = some p)
    (he : s.exec r p = (s.deleteContext c, p')) (hx : ∀ x, p'.holds x = p.holds x)
    (hrefs : ∀ x, p'.refs x = p.refs x)
    (hdel : ∀ x, p'.deletes x + (if c = x then 1 else 0) = p.deletes x)
    (hforms : ∀ x, p'.forms x = p.forms x) (hlaunch : ∀ x, p'.launches x = p.launches x)
    (hpi : s.PInv p') : ∃ l', s.Keeps (s.after t r p) l' := by
  have hd : 0 < s.deletes c := by
    have h1 := le_deletes hp c
    have h2 := hdel c
    rw [if_pos rfl] at h2
    omega
  have hlive := h.c.live_of_deletes hd
  have hf : s.forms c = 0 := by
    have := forms_le_refs s c
    have := (h.c.last hd).1
    omega
  obtain ⟨ha, hr⟩ := h.o.owner c hlive hf
  have hflag := h.q.flag _ ha
  have hpl := h.q.place _ ha
  obtain ⟨hok, hnq, hv⟩ := h.q.ok.mqMarkRelease ha hr fun hne => h.q.not_mem_of_idle ha
    (by simp only [mqInGlobal] at hne hflag; omega) hr
  rw [after_eq he]
  generalize hs' : ({ s.deleteContext c with procs := s.procs.set t p' } : Server) = s'
  have hmem : s'.toMqMem = s.skynetMqMarkRelease (s.ctx c).queue := by subst hs'; rfl
  have hctx : s'.ctx = update s.ctx c { s.ctx c with freed := true } := by
    subst hs'; rfl
  have hm : Moves s s' p p' := moves_run hp (by subst hs'; rfl)
  have hn : s'.nctx = s.nctx := by subst hs'; rfl
  have hs : s'.slot = s.slot := by subst hs'; rfl
  clear hs' he
  rw [← hmem] at hok hnq hv
  have hF : ∀ x, s'.forms x = s.forms x := fun x => by
    have := hm.forms x; rw [hforms] at this; omega
  have hL : ∀ x, s'.launches x = s.launches x := fun x => by
    have := hm.launches x; rw [hlaunch] at this; omega
  have hself : s'.ctx c = { s.ctx c with freed := true } := by rw [hctx, update_self]
  have hother : ∀ x, x ≠ c → s'.ctx x = s.ctx x := fun x hne => by
    rw [hctx, update_of_ne hne]
  have hfield : ∀ x, (s'.ctx x).handle = (s.ctx x).handle ∧ (s'.ctx x).init = (s.ctx x).init ∧
      (s'.ctx x).queue = (s.ctx x).queue := fun x => by
    by_cases hne : x = c
    · rw [hne, hself]
      exact ⟨rfl, rfl, rfl⟩
    · rw [hother x hne]
      exact ⟨rfl, rfl, rfl⟩
  have hmq : ∀ x, x ≠ (s.ctx c).queue → s'.view x = s.view x := fun x hne => by
    rw [hv, update_of_ne hne]
  have hlater : Later s s' := by
    refine ⟨hn.ge, fun x _ => (hfield x).1, fun x _ hi => (hfield x).2.1.trans hi,
      fun x _ hx => ⟨(hF x).trans hx, (hfield x).2.2⟩, hnq.ge, fun x _ hxr => ?_⟩
    have hne : x ≠ (s.ctx c).queue := fun he => hxr (he ▸ hr)
    obtain ⟨-, h2, h3, -⟩ := MqMem.fields_of_view (hmq x hne)
    exact ⟨fun hz => hxr (h2.symm.trans hz), fun hw => h3.trans hw⟩
  refine ⟨if (s.mq (s.ctx c).queue).inGlobal ≠ mqInGlobal then l ++ [(s.ctx c).queue] else l,
    ⟨?_, ?_, ?_, ?_, PInv.all h.p hm hlater (hpi.later hlater)⟩, hlater⟩
  · refine h.q.update hok hnq hv ha rfl (fun x hne => ?_) ?_ hflag (fun _ hz => by cases hz)
    · have h1 := hm.held x
      have h2 := hx x
      have h3 := count_append_ite x (s.ctx c).queue l
      rw [if_neg (Ne.symm hne)] at h3
      split_ifs <;> omega
    · have h1 := hm.held (s.ctx c).queue
      have h2 := hx (s.ctx c).queue
      have h3 := count_append_ite (s.ctx c).queue (s.ctx c).queue l
      simp only [hr, and_true, mqInGlobal, if_true] at h3 hflag hpl ⊢
      simp only [Nat.one_ne_zero, and_false, if_false]
      rcases Nat.le_one_iff_eq_zero_or_eq_one.1 hflag with hi | hi
      · rw [hi] at hpl ⊢
        simp only [if_true, ne_eq, Nat.zero_ne_one, not_false_eq_true] at hpl ⊢
        omega
      · rw [hi] at hpl ⊢
        simp only [Nat.one_ne_zero, if_false, ne_eq, not_true_eq_false] at hpl ⊢
        omega
  · refine h.c.delete hctx hn hs (fun x => ?_) (fun x => ?_)
    · have := hm.refs x
      rw [hrefs] at this
      omega
    · have h1 := hm.deletes x
      have h2 := hdel x
      omega
  · exact h.l.mono hn.ge (fun k x hk => hs ▸ hk) (fun x => (hL x).le)
      (fun k x _ hlt => absurd hlt (by rw [hL]; exact lt_irrefl _))
      (fun x hi => (hfield x).2.1.trans hi) (fun x hx => .inl ((hF x).symm.trans hx))
  · have hne : ∀ x, (s'.ctx x).freed = false → x ≠ c := by
      rintro x hx rfl
      rw [hself] at hx
      cases hx
    refine h.o.mono (fun x hx hfx => ?_) (fun x hx hfx hxa hxr => ?_)
    · refine ⟨?_, (hF x).symm.trans hfx, (hfield x).2.2⟩
      rwa [hother x (hne x hx)] at hx
    · have hqne : (s.ctx x).queue ≠ (s.ctx c).queue := fun he => by
        have hxl := hx
        rw [hother x (hne x hx)] at hxl
        exact hne x hx (h.o.inj x c hxl hlive ((hF x).symm.trans hfx) hf he)
      rw [MqMem.alive_of_view s.toMqMem s'.toMqMem hnq (hmq _ hqne)]
      exact ⟨hxa, (MqMem.fields_of_view (hmq _ hqne)).2.1.trans hxr⟩

theorem Inv.delete (h : s.Inv l) (hp : s.procs[t]? = some (.delete c k)) :
    ∃ l', s.Keeps (s.after t r (.delete c k)) l' := by
  have hpi := h.p _ (List.mem_of_getElem? hp)
  refine h.deleteContext k hp rfl (fun _ => rfl) (fun _ => rfl) (fun x => ?_)
    (fun _ => rfl) (fun _ => rfl) hpi
  simp only [Proc.deletes]
  omega

end Release

section Launch

variable {c q k : ℕ}

theorem Inv.registered (h : s.Inv l) (hp : s.procs[t]? = some (.registered c)) :
    ∃ l', s.Keeps (s.after t r (.registered c)) l' := by
  have hlt := h.p _ (List.mem_of_getElem? hp)
  obtain ⟨hok, hq, hnq, hv⟩ := h.q.ok.mqCreate (fun x hx => h.q.lt hx) (s.ctx c).handle
  have he : s.exec r (.registered c) = ({ s with
      toMqMem := (s.skynetMqCreate (s.ctx c).handle).1 }.setCtx c
        { s.ctx c with queue := s.nmq }, .starting c s.nmq) := by
    simp only [exec, hq]
  rw [after_eq he]
  generalize hs' : ({ ({ s with toMqMem := (s.skynetMqCreate (s.ctx c).handle).1 } : Server).setCtx c
    { s.ctx c with queue := s.nmq } with procs := s.procs.set t (.starting c s.nmq) } : Server) = s'
  have hmem : s'.toMqMem = (s.skynetMqCreate (s.ctx c).handle).1 := by subst hs'; rfl
  have hctx : s'.ctx = update s.ctx c { s.ctx c with queue := s.nmq } := by subst hs'; rfl
  have hm : Moves s s' (.registered c) (.starting c s.nmq) := moves_run hp (by subst hs'; rfl)
  have hn : s'.nctx = s.nctx := by subst hs'; rfl
  have hs : s'.slot = s.slot := by subst hs'; rfl
  clear hs' he
  rw [← hmem] at hok hnq hv
  have hself : s'.ctx c = { s.ctx c with queue := s.nmq } := by rw [hctx, update_self]
  have hother : ∀ x, x ≠ c → s'.ctx x = s.ctx x := fun x hne => by
    rw [hctx, update_of_ne hne]
  have hF : ∀ x, s'.forms x + (if c = x then 1 else 0) = s.forms x := hm.forms
  have hFc : s'.forms c = 0 := by
    have h1 := hF c
    have h2 := forms_le_launches s c
    have h3 := h.l.one c
    rw [if_pos rfl] at h1
    omega
  have hFo : ∀ x, x ≠ c → s'.forms x = s.forms x := fun x hne => by
    simpa [Ne.symm hne] using hF x
  have hmq : ∀ x, x ≠ s.nmq → s'.view x = s.view x := fun x hne => by
    rw [hv, update_of_ne hne]
  have hlater : Later s s' := by
    refine ⟨hn.ge, fun x _ => ?_, fun x _ hi => ?_, fun x _ hx => ?_, by omega,
      fun x hxn hxr => ?_⟩
    · by_cases hne : x = c
      · rw [hne, hself]
      · rw [hother x hne]
    · by_cases hne : x = c
      · rw [hne, hself]
        exact hne ▸ hi
      · rwa [hother x hne]
    · have hne : x ≠ c := fun he => by
        have := hF x
        rw [if_pos he.symm] at this
        omega
      exact ⟨(hFo x hne).trans hx, by rw [hother x hne]⟩
    · obtain ⟨-, h2, h3, -⟩ := MqMem.fields_of_view (hmq x (by omega))
      exact ⟨fun hz => hxr (h2.symm.trans hz), fun hw => h3.trans hw⟩
  refine ⟨l, ⟨h.q.create hok hnq hv (fun x => ?_), ?_, ?_, ?_, PInv.all h.p hm hlater ?_⟩, hlater⟩
  · have := hm.held x
    simp only [Proc.holds, eq_comm (a := s.nmq)] at this
    omega
  · refine h.c.same (fun x => ?_) hn hs (fun x => ?_) (fun x => ?_)
    · by_cases hne : x = c
      · rw [hne, hself]
        exact ⟨rfl, rfl, rfl⟩
      · rw [hother x hne]
        exact ⟨rfl, rfl, rfl⟩
    · have := hm.refs x
      simp only [Proc.refs] at this
      omega
    · have := hm.deletes x
      simp only [Proc.deletes] at this
      omega
  · have hL : ∀ x, s'.launches x = s.launches x := fun x => by
      have := hm.launches x
      simp only [Proc.launches] at this
      omega
    refine h.l.mono hn.ge (fun k x hk => hs ▸ hk) (fun x => (hL x).le)
      (fun k x _ hlt => absurd hlt (by rw [hL]; exact lt_irrefl _))
      (fun x hi => ?_) (fun x hx => ?_)
    · by_cases hne : x = c
      · rw [hne, hself]
        exact hne ▸ hi
      · rwa [hother x hne]
    · by_cases hne : x = c
      · right
        have h1 := forms_le_launches s x
        have h2 := hF x
        rw [if_pos hne.symm] at h2
        rw [hL]
        omega
      · exact .inl ((hFo x hne).symm.trans hx)
  · refine h.o.create rfl hctx hFo (fun x hne => ?_) ?_
    · exact ⟨MqMem.alive_of_lt s.toMqMem s'.toMqMem (by omega) (hmq x hne),
        (MqMem.fields_of_view (hmq x hne)).2.1⟩
    · obtain ⟨-, h2, -, h4⟩ :=
        MqMem.fields_of_view ((congrFun hv _).trans (update_self _ _ _))
      exact ⟨MqMem.alive_iff.2 ⟨by omega, h4⟩, h2⟩
  · exact ⟨by rw [hn]; exact hlt, hFc, by rw [hself]⟩

theorem Inv.starting (h : s.Inv l) (hp : s.procs[t]? = some (.starting c q)) :
    ∃ l', s.Keeps (s.after t r (.starting c q)) l' := by
  have hhas : s.Has c q := h.p _ (List.mem_of_getElem? hp)
  refine ⟨l, ?_⟩
  by_cases hz : (s.ctx c).ref - 1 = 0 <;> rcases r with _ | _
  · refine h.decRef c (.failDelete c (s.ctx c).handle q) hp
      (by simp [exec, decRef_snd, hz]) (fun _ => rfl) (fun x => ?_) (fun x => ?_)
      (fun _ => rfl) (fun _ => le_rfl) (fun _ _ => le_rfl) ⟨hhas, rfl⟩
    · simp [Proc.refs]
    · simp [Proc.deletes, hz]
  · refine h.decRef c (.delete c (.publish q)) hp
      (by simp [exec, decRef_snd, hz]) (fun _ => rfl) (fun x => ?_) (fun x => ?_)
      (fun _ => rfl) (fun x => Nat.zero_le _) (fun x hx => ?_) trivial
    · simp [Proc.refs]
    · simp [Proc.deletes, hz]
    · simp only [Proc.launches]
      rw [if_neg (by tauto)]
  · refine h.decRef c (.failRetire c (s.ctx c).handle q) hp
      (by simp [exec, decRef_snd, hz]) (fun _ => rfl) (fun x => ?_) (fun x => ?_)
      (fun _ => rfl) (fun _ => le_rfl) (fun _ _ => le_rfl) ⟨hhas, rfl⟩
    · simp [Proc.refs]
    · simp [Proc.deletes, hz]
  · refine h.decRef c (.started c q) hp
      (by simp [exec, decRef_snd, hz]) (fun _ => rfl) (fun x => ?_) (fun x => ?_)
      (fun _ => rfl) (fun _ => le_rfl) (fun _ _ => le_rfl) hhas
    · simp [Proc.refs]
    · simp [Proc.deletes, hz]

theorem Inv.started (h : s.Inv l) (hp : s.procs[t]? = some (.started c q)) :
    ∃ l', s.Keeps (s.after t r (.started c q)) l' := by
  have hm : Moves s (s.after t r (.started c q)) (.started c q) (.publish q) := moves_run hp rfl
  have hfield : ∀ x, ((s.after t r (.started c q)).ctx x).handle = (s.ctx x).handle ∧
      ((s.after t r (.started c q)).ctx x).ref = (s.ctx x).ref ∧
      ((s.after t r (.started c q)).ctx x).queue = (s.ctx x).queue ∧
      ((s.after t r (.started c q)).ctx x).freed = (s.ctx x).freed ∧
      ((s.after t r (.started c q)).ctx x).init = if c = x then true else (s.ctx x).init := by
    intro x
    by_cases hne : x = c
    · subst hne
      simp [after, exec, setCtx]
    · simp [after, exec, setCtx, hne, Ne.symm hne]
  have hF : ∀ x, (s.after t r (.started c q)).forms x = s.forms x := hm.forms
  have hi : ∀ x, (s.ctx x).init = true → ((s.after t r (.started c q)).ctx x).init = true :=
    fun x hx => by
      rw [(hfield x).2.2.2.2]
      split_ifs
      · rfl
      · exact hx
  refine ⟨l, h.ofContexts hm rfl (fun _ => rfl) ?_ ?_ (fun x hx hfx => ?_) ?_ trivial⟩
  · exact h.c.same (fun x => ⟨(hfield x).2.1, (hfield x).2.2.2.1, (hfield x).1⟩) rfl rfl
      hm.refs hm.deletes
  · refine h.l.mono le_rfl (fun _ _ hk => hk) (fun x => ?_) (fun k x hk hlt => ?_) hi
      (fun x hx => .inl ((hF x).symm.trans hx))
    · have := hm.launches x
      simp only [Proc.launches] at this
      omega
    · have := hm.launches x
      simp only [Proc.launches] at this
      rw [(hfield x).2.2.2.2]
      split_ifs at this ⊢
      · rfl
      · omega
  · rw [(hfield x).2.2.2.1] at hx
    exact ⟨hx, (hF x).symm.trans hfx, (hfield x).2.2.1⟩
  · exact ⟨le_rfl, fun x _ => (hfield x).1, fun x _ => hi x,
      fun x _ hx => ⟨(hF x).trans hx, (hfield x).2.2.1⟩, le_rfl, fun x _ hx => ⟨hx, id⟩⟩

theorem Inv.publish (h : s.Inv l) (hp : s.procs[t]? = some (.publish q)) :
    ∃ l', s.Keeps (s.after t r (.publish q)) l' := by
  have hheld : 1 ≤ s.held q := by simpa [Proc.holds] using le_held hp q
  obtain ⟨hok, hnq, hv⟩ := h.q.ok.globalmqPush (h.q.alive_of_held hheld)
    (h.q.not_mem_of_held hheld)
  refine ⟨l ++ [q], h.ofPlaces (moves_run hp rfl) hok hnq hv (fun x => ?_)
    ⟨rfl, rfl, rfl, fun _ => rfl⟩ trivial⟩
  rw [count_append_ite]
  simp only [exec, Proc.holds]
  omega

theorem Inv.failDelete (h : s.Inv l) (hp : s.procs[t]? = some (.failDelete c k q)) :
    ∃ l', s.Keeps (s.after t r (.failDelete c k q)) l' := by
  have hpi := h.p _ (List.mem_of_getElem? hp)
  refine h.deleteContext (.failRetire c k q) hp rfl (fun _ => rfl) (fun _ => rfl)
    (fun x => ?_) (fun _ => rfl) (fun _ => rfl) hpi
  simp [Proc.deletes]

/-- The table gives up its reference to the context under a handle to the call that took it out. -/
theorem Inv.retire (h : s.Inv l) (hm : Moves s s' p p') (hs : s.slot k = some c)
    (hq : s'.toMqMem = s.toMqMem) (hctx : s'.ctx = s.ctx) (hn : s'.nctx = s.nctx)
    (hslot : s'.slot = update s.slot k none)
    (hx : ∀ x, p'.holds x = p.holds x)
    (hrefs : ∀ x, p'.refs x = p.refs x + if c = x then 1 else 0)
    (hdel : ∀ x, p'.deletes x = p.deletes x) (hforms : ∀ x, p'.forms x = p.forms x)
    (hlaunch : ∀ x, p'.launches x ≤ p.launches x)
    (hless : ∀ x, (s.ctx x).handle ≠ k → p.launches x ≤ p'.launches x)
    (hpi : s.PInv p') : s.Keeps s' l := by
  have hC : s'.CInv := by
    refine h.c.retire hs hctx hn hslot (fun x => ?_) (fun x => ?_)
    · have := hm.refs x
      have := hrefs x
      omega
    · have := hm.deletes x
      have := hdel x
      omega
  have hmem : ∀ k' x, s'.slot k' = some x → k' ≠ k ∧ s.slot k' = some x := by
    intro k' x hk
    rw [hslot] at hk
    by_cases hkk : k' = k
    · rw [hkk, update_self] at hk
      cases hk
    · rw [update_of_ne hkk] at hk
      exact ⟨hkk, hk⟩
  refine h.ofRefs hm hq hx hC (fun x => ⟨(s.ctx x).ref, by rw [hctx]⟩) hn
    (fun k' x hk => (hmem k' x hk).2) hforms hlaunch (fun k' x hk => hless x ?_) hpi
  obtain ⟨hne, hk⟩ := hmem k' x hk
  rw [(h.c.slot k' x hk).2]
  exact hne

theorem Inv.failRetire (h : s.Inv l) (hp : s.procs[t]? = some (.failRetire c k q)) :
    ∃ l', s.Keeps (s.after t r (.failRetire c k q)) l' := by
  obtain ⟨hhas, hk⟩ := h.p _ (List.mem_of_getElem? hp)
  have hless : ∀ x, (s.ctx x).handle ≠ k → (Proc.failRetire c k q).launches x ≤ 0 := by
    intro x hx
    have hne : c ≠ x := by
      rintro rfl
      exact hx hk
    simp [Proc.launches, hne]
  refine ⟨l, ?_⟩
  rcases hs : s.slot k with _ | c'
  · have hslot : update s.slot k none = s.slot := by
      rw [← hs, update_eq_self]
    have he : s.exec r (.failRetire c k q) = (s, .mqRelease q .done) := by
      simp only [exec, skynetHandleRetire, hs, hslot]
    rw [after_eq he]
    have hm : Moves s { s with procs := s.procs.set t (.mqRelease q .done) } (.failRetire c k q)
        (.mqRelease q .done) := moves_run hp rfl
    refine h.ofRefs hm rfl (fun _ => rfl) ?_ (fun x => ⟨(s.ctx x).ref, rfl⟩) rfl
      (fun k' x hk' => hk') (fun _ => rfl) (fun _ => Nat.zero_le _) (fun k' x hk' => ?_) trivial
    · exact h.c.same (fun _ => ⟨rfl, rfl, rfl⟩) rfl rfl hm.refs hm.deletes
    · refine hless x fun he => ?_
      rw [(h.c.slot k' x hk').2] at he
      have hk'' : s.slot k' = some x := hk'
      rw [he, hs] at hk''
      cases hk''
  · rw [after_eq (by simp only [exec, skynetHandleRetire, hs]; rfl)]
    refine h.retire (moves_run hp rfl) hs rfl rfl rfl rfl (fun _ => rfl) (fun x => ?_)
      (fun _ => rfl) (fun _ => rfl) (fun _ => Nat.zero_le _) hless trivial
    simp [Proc.refs]

end Launch

section Push

variable {c : ℕ} {msg : SkynetMessage}

theorem Inv.pushTo (h : s.Inv l) (hm : Moves s s' p p') (hrefs : 0 < s.refs c)
    (hcan : s.CanPush c msg) (hq : s'.toMqMem = s.skynetMqPush (s.ctx c).queue msg)
    (hapart : Apart s s' p p') (hx : ∀ x, p'.holds x = p.holds x) (hpi : s.PInv p') :
    ∃ l', s.Keeps s' l' := by
  obtain ⟨hf, hcap⟩ := hcan
  obtain ⟨ha, hrel⟩ := h.o.owner c (h.c.live_of_refs hrefs) hf
  obtain ⟨q, hcq⟩ : ∃ q, (s.ctx c).queue = q := ⟨_, rfl⟩
  rw [hcq] at ha hrel hcap hq
  obtain ⟨hok, hnq, hv⟩ := h.q.ok.mqPush ha msg hcap fun hi => h.q.not_mem_of_idle ha hi hrel
  obtain ⟨-, -, _, _, _, _, hput⟩ := MessageQueue.put_spec (h.q.ok.fits q) msg
  have hpl := h.q.place q ha
  have hflag := h.q.flag q ha
  have hpos : (if (s.mq q).inGlobal = 0 then mqInGlobal else (s.mq q).inGlobal) = mqInGlobal := by
    split_ifs with hi
    · rfl
    · simp only [mqInGlobal] at hflag ⊢
      omega
  rw [← hq] at hok hnq hv
  rw [hpos] at hv
  refine ⟨_, h.ofQueue hm hok hnq ha hv (by rw [hput]) (by rw [hput])
    (fun hr => absurd hrel hr) (fun x hne => ?_) ?_ le_rfl (fun hz => by cases hz)
    hapart hpi.later⟩
  · have := count_append_ite x q l
    rw [if_neg (Ne.symm hne)] at this
    rw [hx]
    split_ifs <;> omega
  · have := count_append_ite q q l
    rw [if_pos rfl] at this
    simp only [hrel, and_true] at hpl
    simp only [mqInGlobal, Nat.one_ne_zero, false_and, if_false, hx]
    split_ifs at hpl ⊢ <;> omega

theorem Inv.pushing (h : s.Inv l) (hp : s.procs[t]? = some (.pushing c msg))
    (hcan : s.CanPush c msg) : ∃ l', s.Keeps (s.after t r (.pushing c msg)) l' := by
  have hrefs : 1 ≤ s.refs c := by simpa [Proc.refs] using le_refs hp c
  exact h.pushTo (moves_run hp rfl) hrefs hcan rfl
    ⟨rfl, rfl, rfl, fun _ => rfl⟩ (fun _ => rfl) trivial

theorem Inv.holding (h : s.Inv l) (hp : s.procs[t]? = some (.holding c)) :
    ∃ l', s.Keeps (s.after t r (.holding c)) l' :=
  ⟨l, h.ofPlaces (moves_run hp rfl) h.q.ok rfl rfl (fun _ => rfl)
    ⟨rfl, rfl, rfl, fun _ => rfl⟩ trivial⟩

theorem Inv.done (h : s.Inv l) (hp : s.procs[t]? = some .done) :
    ∃ l', s.Keeps (s.after t r .done) l' :=
  ⟨l, h.ofPlaces (moves_run hp rfl) h.q.ok rfl rfl (fun _ => rfl)
    ⟨rfl, rfl, rfl, fun _ => rfl⟩ trivial⟩

end Push

/-- The next step of a running call keeps the invariant. -/
theorem Inv.run (h : s.Inv l) (hp : s.procs[t]? = some p) (ht : s.Tame (.run t r)) :
    ∃ l', s.Keeps (s.after t r p) l' := by
  simp only [Tame, hp] at ht
  cases p with
  | worker w o => exact h.worker hp
  | turnPop w => exact h.turnPop hp
  | grab w q => exact h.grab hp ht
  | loop w q c i n => exact h.loop hp
  | popped w q c i n msg => exact h.popped hp
  | overload w q c i n msg => exact h.overload hp
  | dispatch w q c i n msg => exact h.dispatch hp
  | call w q c i n => exact h.call hp
  | requeue w q c nq => exact h.requeue hp
  | mqRelease q k => exact h.mqRelease hp
  | drop q k => exact h.drop hp
  | free q k => exact h.free hp
  | release c k => exact h.release hp
  | delete c k => exact h.delete hp
  | pushing c msg => exact h.pushing hp ht
  | holding c => exact h.holding hp
  | registered c => exact h.registered hp
  | starting c q => exact h.starting hp
  | started c q => exact h.started hp
  | publish q => exact h.publish hp
  | failDelete c k q => exact h.failDelete hp
  | failRetire c k q => exact h.failRetire hp
  | done => exact h.done hp

section Spawn

variable {c k junk : ℕ}

theorem Inv.grabbed (h : s.Inv l) (hs : s.slot k = some c) (hrefs : ∀ x,
      p.refs x = if c = x then 1 else 0) (hx : ∀ x, p.holds x = 0) (hdel : ∀ x, p.deletes x = 0)
    (hforms : ∀ x, p.forms x = 0) (hlaunch : ∀ x, p.launches x = 0) (hpi : s.PInv p) :
    s.Keeps ((s.skynetContextGrab c).spawn p) l := by
  have hlive := (h.c.slot k c hs).1
  have hm : Moves s ((s.skynetContextGrab c).spawn p) .done p := moves_spawn rfl
  refine h.ofRefs hm rfl hx ?_ (setCtx_ref s c _) rfl (fun _ _ hk => hk) hforms
    (fun x => (hlaunch x).le) (fun _ x _ => Nat.zero_le _) hpi
  refine h.c.grab hlive (by rw [h.c.listed_of_slot hs]; omega) rfl rfl rfl (fun x => ?_)
    (fun x => ?_)
  · rw [← hrefs]
    exact hm.refs x
  · have := hm.deletes x
    rwa [hdel] at this

theorem Inv.launched (h : s.Inv l) (hk : s.slot k = none)
    (hs' : s' = s.skynetContextNew k junk) : s.Keeps s' l := by
  have hctx : s'.ctx = update s.ctx s.nctx (newContext k junk) := by subst hs'; rfl
  have hn : s'.nctx = s.nctx + 1 := by subst hs'; rfl
  have hs : s'.slot = update s.slot k (some s.nctx) := by subst hs'; rfl
  have hq : s'.toMqMem = s.toMqMem := by subst hs'; rfl
  have hm : Moves s s' .done (.registered s.nctx) := moves_spawn (by subst hs'; rfl)
  clear hs'
  have hother : ∀ x, x ≠ s.nctx → s'.ctx x = s.ctx x := fun x hne => by
    rw [hctx, update_of_ne hne]
  have hF : ∀ x, s'.forms x = s.forms x + if s.nctx = x then 1 else 0 := hm.forms
  have hL : ∀ x, s'.launches x = s.launches x + if s.nctx = x then 1 else 0 := hm.launches
  have hlater : Later s s' := by
    refine ⟨by omega, fun x hx => ?_, fun x hx hi => ?_, fun x hx hfx => ?_, by rw [hq],
      fun x _ hx => by rw [hq]; exact ⟨hx, id⟩⟩
    · rw [hother x (by omega)]
    · rwa [hother x (by omega)]
    · have := hF x
      rw [if_neg (by omega)] at this
      exact ⟨this.trans hfx, by rw [hother x (by omega)]⟩
  refine h.ofContexts hm hq (fun _ => rfl) ?_ ⟨fun x => ?_, fun x hx => ?_, fun k' x hk' hfx hi => ?_⟩
    (fun x hx hfx => ?_) hlater (by rw [PInv, hn]; omega)
  · exact h.c.launch hk hctx hn hs hm.refs hm.deletes
  · have h1 := h.l.one x
    have h2 := h.l.fresh x
    rw [hL]
    split_ifs <;> omega
  · rw [hL, h.l.fresh x (by omega), if_neg (by omega)]
  · have hne : x ≠ s.nctx := by
      rintro rfl
      have := hF s.nctx
      rw [if_pos rfl] at this
      omega
    have hkk : k' ≠ k := by
      rintro rfl
      rw [hs, update_self, some.injEq] at hk'
      exact hne hk'.symm
    rw [hs, update_of_ne hkk] at hk'
    rw [hother x hne] at hi
    rw [hF, if_neg (Ne.symm hne)] at hfx
    have := h.l.init k' x hk' hfx hi
    rw [hL]
    omega
  · have hne : x ≠ s.nctx := by
      rintro rfl
      have := hF s.nctx
      rw [if_pos rfl] at this
      omega
    rw [hother x hne] at hx ⊢
    rw [hF, if_neg (Ne.symm hne)] at hfx
    exact ⟨hx, hfx, rfl⟩

theorem Inv.callback (h : s.Inv l) {cb : Bool} :
    s.Keeps (s.setCtx c { s.ctx c with cb := cb }) l := by
  have hctx : ∀ x, ∃ b, (s.setCtx c { s.ctx c with cb := cb }).ctx x = { s.ctx x with cb := b } := by
    intro x
    by_cases hne : x = c
    · subst hne
      exact ⟨cb, by simp [setCtx]⟩
    · exact ⟨(s.ctx x).cb, by simp [setCtx, hne]⟩
  generalize hs' : s.setCtx c { s.ctx c with cb := cb } = s' at hctx ⊢
  have hm : Moves s s' .done .done := moves_stay (by subst hs'; rfl)
  have hq : s'.toMqMem = s.toMqMem := by subst hs'; rfl
  have hn : s'.nctx = s.nctx := by subst hs'; rfl
  have hs : s'.slot = s.slot := by subst hs'; rfl
  have hf : ∀ x, (s'.ctx x).ref = (s.ctx x).ref ∧ (s'.ctx x).freed = (s.ctx x).freed ∧
      (s'.ctx x).handle = (s.ctx x).handle ∧ (s'.ctx x).init = (s.ctx x).init ∧
      (s'.ctx x).queue = (s.ctx x).queue := fun x => by
    obtain ⟨b, hb⟩ := hctx x
    rw [hb]
    exact ⟨rfl, rfl, rfl, rfl, rfl⟩
  refine h.ofContexts hm hq (fun _ => rfl) ?_ ?_ (fun x hx hfx => ?_) ?_ trivial
  · exact h.c.same (fun x => ⟨(hf x).1, (hf x).2.1, (hf x).2.2.1⟩) hn hs hm.refs hm.deletes
  · exact h.l.mono hn.ge (fun k x hk => hs ▸ hk) (fun x => (hm.launches x).le)
      (fun k x _ hlt => absurd hlt (by rw [show s'.launches x = _ from hm.launches x]; exact lt_irrefl _))
      (fun x hx => (hf x).2.2.2.1.trans hx) (fun x hx => .inl ((hm.forms x).symm.trans hx))
  · rw [(hf x).2.1] at hx
    exact ⟨hx, (hm.forms x).symm.trans hfx, (hf x).2.2.2.2⟩
  · exact ⟨hn.ge, fun x _ => (hf x).2.2.1, fun x _ hx => (hf x).2.2.2.1.trans hx,
      fun x _ hx => ⟨(hm.forms x).trans hx, (hf x).2.2.2.2⟩, by rw [hq],
      fun x _ hx => by rw [hq]; exact ⟨hx, id⟩⟩

end Spawn

/-- The steps the runtime can take. -/
theorem step_cases {a : Action} (h : s.step a = some s') : s.fault = none ∧
    ((∃ w, a = .worker w ∧ s' = s.spawn (.worker w none)) ∨
    (∃ k junk, a = .launch k junk ∧ s.slot k = none ∧ s' = s.skynetContextNew k junk) ∨
    (∃ k c msg, a = .push k msg ∧ s.slot k = some c ∧
      s' = (s.skynetContextGrab c).spawn (.pushing c msg)) ∨
    (∃ k c, a = .grab k ∧ s.slot k = some c ∧ s' = (s.skynetContextGrab c).spawn (.holding c)) ∨
    (∃ k c, a = .retire k ∧ s.slot k = some c ∧
      s' = (s.skynetHandleRetire k).1.spawn (.release c .done)) ∨
    (∃ c cb, a = .callback c cb ∧ s' = s.setCtx c { s.ctx c with cb := cb }) ∨
    (∃ t c msg, a = .send t msg ∧ s.procs[t]? = some (.holding c) ∧ s' = s.pushTo c msg) ∨
    (∃ t r p, a = .run t r ∧ s.procs[t]? = some p ∧ s' = s.after t r p)) := by
  unfold Server.step at h
  split_ifs at h with hf
  refine ⟨by simpa using hf, ?_⟩
  cases a with
  | worker w => exact .inl ⟨w, rfl, (some.inj h).symm⟩
  | launch k junk =>
    dsimp only at h
    split_ifs at h with hk
    exact .inr (.inl ⟨k, junk, rfl, hk, (some.inj h).symm⟩)
  | push k msg =>
    obtain ⟨c, hs, rfl⟩ := map_eq_some_iff.1 h
    exact .inr (.inr (.inl ⟨k, c, msg, rfl, hs, rfl⟩))
  | grab k =>
    obtain ⟨c, hs, rfl⟩ := map_eq_some_iff.1 h
    exact .inr (.inr (.inr (.inl ⟨k, c, rfl, hs, rfl⟩)))
  | retire k =>
    obtain ⟨c, hs, rfl⟩ := map_eq_some_iff.1 h
    exact .inr (.inr (.inr (.inr (.inl ⟨k, c, rfl, hs, rfl⟩))))
  | callback c cb =>
    dsimp only at h
    split_ifs at h with hc
    exact .inr (.inr (.inr (.inr (.inr (.inl ⟨c, cb, rfl, (some.inj h).symm⟩)))))
  | send t msg =>
    dsimp only at h
    split at h
    · rename_i c hp
      exact .inr (.inr (.inr (.inr (.inr (.inr (.inl
        ⟨t, c, msg, rfl, hp, (some.inj h).symm⟩))))))
    · cases h
  | run t r =>
    obtain ⟨p, hp, rfl⟩ := map_eq_some_iff.1 h
    exact .inr (.inr (.inr (.inr (.inr (.inr (.inr ⟨t, r, p, rfl, hp, rfl⟩))))))

/-- One step of a run, if it is tame, keeps the invariant. -/
theorem Inv.step {a : Action} (h : s.Inv l) (ht : s.Tame a) (hst : s.step a = some s') :
    ∃ l', s.Keeps s' l' := by
  obtain ⟨-, ⟨w, rfl, rfl⟩ | ⟨k, junk, rfl, hk, rfl⟩ | ⟨k, c, msg, rfl, hs, rfl⟩ |
    ⟨k, c, rfl, hs, rfl⟩ | ⟨k, c, rfl, hs, rfl⟩ | ⟨c, cb, rfl, rfl⟩ | ⟨t, c, msg, rfl, hp, rfl⟩ |
    ⟨t, r, p, rfl, hp, rfl⟩⟩ := step_cases hst
  · exact ⟨l, h.ofPlaces (moves_spawn rfl) h.q.ok rfl rfl (fun _ => by simp [Proc.holds])
      ⟨rfl, rfl, rfl, fun _ => rfl⟩ trivial⟩
  · exact ⟨l, h.launched hk rfl⟩
  · exact ⟨l, h.grabbed hs (fun _ => rfl) (fun _ => rfl) (fun _ => rfl) (fun _ => rfl)
      (fun _ => rfl) trivial⟩
  · exact ⟨l, h.grabbed hs (fun _ => rfl) (fun _ => rfl) (fun _ => rfl) (fun _ => rfl)
      (fun _ => rfl) trivial⟩
  · refine ⟨l, h.retire (moves_spawn rfl) hs rfl rfl rfl rfl (fun _ => rfl) (fun x => ?_)
      (fun _ => rfl) (fun _ => rfl) (fun _ => le_rfl) (fun _ _ => le_rfl) trivial⟩
    simp [Proc.refs]
  · exact ⟨l, h.callback⟩
  · have hrefs : 1 ≤ s.refs c := by simpa [Proc.refs] using le_refs hp c
    simp only [Tame, hp] at ht
    exact h.pushTo (moves_stay rfl) hrefs ht rfl
      ⟨rfl, rfl, rfl, fun _ => rfl⟩ (fun _ => rfl) trivial
  · exact h.run hp ht

theorem Inv.initial : initial.Inv [] where
  q := by
    refine ⟨⟨rfl, .empty fun _ => rfl, by simp, fun _ => ?_⟩, ?_, ?_, ?_, fun q _ => ⟨rfl, ?_⟩⟩
    · exact ⟨(MessageQueue.create_fits 0).head_lt, (MessageQueue.create_fits 0).tail_lt⟩
    all_goals first
      | exact MessageQueue.create_waiting 0
      | intro q hq; exact absurd (MqMem.alive_iff.1 hq).1 (Nat.not_lt_zero q)
  c := by
    refine ⟨?_, ?_, fun _ _ => ⟨rfl, rfl⟩, ?_, fun _ _ hs => by cases hs⟩ <;> intro c hc <;> cases hc
  l := ⟨fun _ => Nat.zero_le _, fun _ _ => rfl, fun _ _ hs => by cases hs⟩
  o := ⟨fun _ hc => (by cases hc), fun _ _ hc => (by cases hc)⟩
  p := by simp [Server.initial]

/-- Every state that a run of tame steps reaches meets the invariant. -/
theorem Inv.reach (h : machine.Reach Tame s) : ∃ l, s.Inv l :=
  h.invariant (I := fun s => ∃ l, s.Inv l) ⟨[], Inv.initial⟩
    fun _ _ _ ⟨_, hi⟩ ht hst => (hi.step ht hst).imp fun _ hk => hk.inv

end Server

end SkynetGame
