import SkynetGame.Proofs.ServerInv

/-!
# What each kind of step does to the invariant

Queues: a queue that passes between the list and a process stays in one place (`QInv.shift`); a
change to a queue that somebody holds is judged at that queue alone (`QInv.update`). Contexts: a
reference is taken (`CInv.grab`), given back (`CInv.release`), moved out of the handle table
(`CInv.retire`), and the last one deletes (`CInv.delete`).
-/

namespace SkynetGame

open Function

namespace Server

variable {s s' : Server} {l l' : List ℕ}

section Queues

theorem QInv.lt (h : s.QInv l) {q : ℕ} (hq : q ∈ l) : q < s.nmq :=
  (MqMem.alive_iff.1 (h.ok.alive q hq)).1

theorem QInv.alive_of_held (h : s.QInv l) {q : ℕ} (hq : 0 < s.held q) : s.alive q := by
  by_contra ha
  have := (h.dead q ha).1
  omega

theorem QInv.held_le (h : s.QInv l) (q : ℕ) : s.held q ≤ 1 := by
  by_cases ha : s.alive q
  · have := h.place q ha
    split_ifs at this <;> omega
  · have := (h.dead q ha).1
    omega

theorem QInv.not_mem_of_held (h : s.QInv l) {q : ℕ} (hq : 0 < s.held q) : q ∉ l := by
  have hp := h.place q (h.alive_of_held hq)
  intro hm
  have := List.count_pos_iff.2 hm
  split_ifs at hp <;> omega

theorem QInv.not_mem_of_idle (h : s.QInv l) {q : ℕ} (ha : s.alive q)
    (hi : (s.mq q).inGlobal = 0) (hr : (s.mq q).release = 0) : q ∉ l := by
  have hp := h.place q ha
  rw [if_pos ⟨hi, hr⟩] at hp
  intro hm
  have := List.count_pos_iff.2 hm
  omega

/-- What the invariant says of one queue. -/
structure QAt (s : Server) (l : List ℕ) (q : ℕ) : Prop where
  place : s.alive q → s.held q + l.count q
    = if (s.view q).inGlobal = 0 ∧ (s.view q).release = 0 then 0 else 1
  flag : s.alive q → (s.view q).inGlobal ≤ mqInGlobal
  idle : s.alive q → (s.view q).inGlobal = 0 → (s.view q).release = 0 → (s.view q).waiting = []
  dead : ¬ s.alive q → s.held q = 0 ∧ (s.view q).waiting = []

theorem qInv_of_qAt (hok : s.toMqMem.Ok l) (h : ∀ q, s.QAt l q) : s.QInv l :=
  ⟨hok, fun q => (h q).place, fun q => (h q).flag, fun q => (h q).idle, fun q => (h q).dead⟩

theorem QInv.stays (h : s.QInv l) {q : ℕ} (hv : s'.view q = s.view q)
    (ha : s'.alive q = s.alive q) (hx : s'.held q + l'.count q = s.held q + l.count q) :
    s'.QAt l' q := by
  refine ⟨?_, ?_, ?_, ?_⟩ <;> rw [hv, ha]
  · rw [hx]
    exact h.place q
  · exact h.flag q
  · exact h.idle q
  · intro hq
    have hc : l.count q = 0 := List.count_eq_zero.2 fun hm => hq (h.ok.alive q hm)
    have hd := h.dead q hq
    exact ⟨by omega, hd.2⟩

theorem QInv.shift (h : s.QInv l) (hok : s'.toMqMem.Ok l') (hn : s'.nmq = s.nmq)
    (hv : s'.view = s.view)
    (hx : ∀ x, s'.held x + l'.count x = s.held x + l.count x) : s'.QInv l' :=
  qInv_of_qAt hok fun q =>
    h.stays (congrFun hv q) (MqMem.alive_congr s.toMqMem s'.toMqMem hn hv q) (hx q)

theorem QInv.update (h : s.QInv l) (hok : s'.toMqMem.Ok l') (hn : s'.nmq = s.nmq) {q : ℕ}
    {y : MessageQueue} (hv : s'.view = Function.update s.view q y) (ha : s.alive q)
    (hfr : y.freed = (s.mq q).freed)
    (hx : ∀ x, x ≠ q → s'.held x + l'.count x = s.held x + l.count x)
    (hq : s'.held q + l'.count q = if y.inGlobal = 0 ∧ y.release = 0 then 0 else 1)
    (hflag : y.inGlobal ≤ mqInGlobal)
    (hidle : y.inGlobal = 0 → y.release = 0 → y.waiting = []) : s'.QInv l' := by
  have hal := MqMem.alive_update s.toMqMem s'.toMqMem hn hv hfr
  refine qInv_of_qAt hok fun x => ?_
  by_cases hne : x = q
  · subst hne
    have hself : s'.view x = y := by rw [hv, update_self]
    have hlive : s'.alive x := by rwa [hal x]
    refine ⟨fun _ => ?_, fun _ => ?_, fun _ => ?_, fun hd => absurd hlive hd⟩ <;> rw [hself]
    exacts [hq, hflag, hidle]
  · exact h.stays (by rw [hv, update_of_ne hne]) (hal x) (hx x hne)

theorem QInv.free (h : s.QInv l) (hok : s'.toMqMem.Ok l) (hn : s'.nmq = s.nmq) {q : ℕ}
    (hv : s'.view = Function.update s.view q { s.view q with freed := true })
    (hw : (s.mq q).waiting = [])
    (hx : ∀ x, s'.held x + (if x = q then 1 else 0) = s.held x) : s'.QInv l := by
  refine qInv_of_qAt hok fun x => ?_
  have hheld := hx x
  by_cases hne : x = q
  · subst hne
    have hself : s'.view x = { s.view x with freed := true } := by rw [hv, update_self]
    have hd : ¬ s'.alive x := by
      rw [MqMem.alive_iff, ← MqMem.view_freed, hself]
      simp
    have hle := h.held_le x
    rw [if_pos rfl] at hheld
    exact ⟨fun ha => absurd ha hd, fun ha => absurd ha hd, fun ha => absurd ha hd,
      fun _ => ⟨by omega, by rw [hself]; exact hw⟩⟩
  · have hview : s'.view x = s.view x := by rw [hv, update_of_ne hne]
    rw [if_neg hne] at hheld
    exact h.stays hview (MqMem.alive_of_view s.toMqMem s'.toMqMem hn hview) (by omega)

theorem QInv.create (h : s.QInv l) (hok : s'.toMqMem.Ok l) (hn : s'.nmq = s.nmq + 1)
    {handle : ℕ} (hv : s'.view = Function.update s.view s.nmq (.create handle))
    (hx : ∀ x, s'.held x = s.held x + if x = s.nmq then 1 else 0) : s'.QInv l := by
  refine qInv_of_qAt hok fun x => ?_
  have hheld := hx x
  by_cases hne : x = s.nmq
  · subst hne
    have hself : s'.view s.nmq = .create handle := by rw [hv, update_self]
    have hnew : ¬ s.alive s.nmq := by simp [MqMem.alive]
    have hc : l.count s.nmq = 0 := List.count_eq_zero.2 fun hm => hnew (h.ok.alive _ hm)
    have hlive : s'.alive s.nmq := by
      rw [MqMem.alive_iff, ← MqMem.view_freed, hself]
      exact ⟨by omega, rfl⟩
    refine ⟨fun _ => ?_, fun _ => ?_, fun _ _ _ => ?_, fun hd => absurd hlive hd⟩ <;> rw [hself]
    · rw [hheld, (h.dead _ hnew).1, hc]
      simp [MessageQueue.create, mqInGlobal]
    · exact le_rfl
    · exact MessageQueue.create_waiting handle
  · have hview : s'.view x = s.view x := by rw [hv, update_of_ne hne]
    rw [if_neg hne] at hheld
    exact h.stays hview (MqMem.alive_of_lt s.toMqMem s'.toMqMem (by omega) hview) (by omega)

end Queues

section Contexts

variable {c : ℕ}

theorem CInv.live_of_refs (h : s.CInv) (hr : 0 < s.refs c) : (s.ctx c).freed = false := by
  by_contra hf
  have := (h.gone c (by simpa using hf)).1
  omega

theorem CInv.live_of_deletes (h : s.CInv) (hd : 0 < s.deletes c) : (s.ctx c).freed = false := by
  by_contra hf
  have := (h.gone c (by simpa using hf)).2
  omega

theorem CInv.last (h : s.CInv) (hd : 0 < s.deletes c) :
    s.refs c = 0 ∧ s.deletes c = 1 ∧ ∀ h', s.slot h' ≠ some c := by
  have hl := h.live_of_deletes hd
  have hdel := h.del c hl
  have href := h.ref c hl
  have hz : (s.ctx c).ref = 0 := by
    by_contra hne
    rw [if_neg hne] at hdel
    omega
  rw [if_pos hz] at hdel
  refine ⟨by omega, hdel, fun h' hs => ?_⟩
  have hh := (h.slot h' c hs).2
  have : s.listed c = 1 := by simp [listed, hh, hs]
  omega

/-- What the invariant says of one context. -/
structure CAt (s : Server) (c : ℕ) : Prop where
  ref : (s.ctx c).freed = false → (s.ctx c).ref = s.listed c + s.refs c
  del : (s.ctx c).freed = false → s.deletes c = if (s.ctx c).ref = 0 then 1 else 0
  gone : (s.ctx c).freed = true → s.refs c = 0 ∧ s.deletes c = 0
  lt : (s.ctx c).freed = false → c < s.nctx

theorem cInv_of_cAt (h : ∀ c, s.CAt c)
    (hslot : ∀ k c, s.slot k = some c → (s.ctx c).freed = false ∧ (s.ctx c).handle = k) : s.CInv :=
  ⟨fun c => (h c).ref, fun c => (h c).del, fun c => (h c).gone, fun c => (h c).lt, hslot⟩

theorem CInv.stays (h : s.CInv) {x : ℕ} (href : (s'.ctx x).ref = (s.ctx x).ref)
    (hfreed : (s'.ctx x).freed = (s.ctx x).freed) (hn : s.nctx ≤ s'.nctx)
    (hl : s'.listed x = s.listed x) (hr : s'.refs x = s.refs x)
    (hd : s'.deletes x = s.deletes x) : s'.CAt x := by
  refine ⟨?_, ?_, ?_, ?_⟩ <;> rw [hfreed]
  · rw [href, hl, hr]
    exact h.ref x
  · rw [href, hd]
    exact h.del x
  · rw [hr, hd]
    exact h.gone x
  · exact fun hx => (h.lt x hx).trans_le hn

theorem listed_update {k x : ℕ} {o : Option ℕ} (hh : (s'.ctx x).handle = (s.ctx x).handle)
    (hs : s'.slot = Function.update s.slot k o) (hk : s.slot k ≠ some x) (ho : o ≠ some x) :
    s'.listed x = s.listed x := by
  simp only [listed, hh, hs]
  by_cases hkx : (s.ctx x).handle = k
  · rw [hkx, update_self, if_neg ho, if_neg hk]
  · rw [update_of_ne hkx]

theorem CInv.same (h : s.CInv) (hctx : ∀ x, (s'.ctx x).ref = (s.ctx x).ref ∧
      (s'.ctx x).freed = (s.ctx x).freed ∧ (s'.ctx x).handle = (s.ctx x).handle)
    (hn : s'.nctx = s.nctx) (hs : s'.slot = s.slot) (hr : ∀ x, s'.refs x = s.refs x)
    (hd : ∀ x, s'.deletes x = s.deletes x) : s'.CInv := by
  refine cInv_of_cAt (fun x => ?_) fun k x hx => ?_
  · obtain ⟨href, hfreed, hh⟩ := hctx x
    exact h.stays href hfreed hn.ge (by rw [listed, hs, hh, listed]) (hr x) (hd x)
  · rw [hs] at hx
    rw [(hctx x).2.1, (hctx x).2.2]
    exact h.slot k x hx

/-- A change of one live context's `ref` from `ref` to `r`, with the references that processes
hold and the deletes they are about to make. -/
theorem CInv.setRef (h : s.CInv) (hc : (s.ctx c).freed = false) {r : ℤ}
    (hctx : s'.ctx = Function.update s.ctx c { s.ctx c with ref := r })
    (hn : s'.nctx = s.nctx) (hs : s'.slot = s.slot)
    (hr : ∀ x, x ≠ c → s'.refs x = s.refs x) (hd : ∀ x, x ≠ c → s'.deletes x = s.deletes x)
    (href : r = s.listed c + s'.refs c) (hdel : s'.deletes c = if r = 0 then 1 else 0) :
    s'.CInv := by
  have hself : s'.ctx c = { s.ctx c with ref := r } := by rw [hctx, update_self]
  have hother : ∀ x, x ≠ c → s'.ctx x = s.ctx x := fun x hne => by
    rw [hctx, update_of_ne hne]
  have hsame : ∀ x, (s'.ctx x).handle = (s.ctx x).handle ∧
      (s'.ctx x).freed = (s.ctx x).freed := by
    intro x
    by_cases hne : x = c
    · rw [hne, hself]
      exact ⟨rfl, rfl⟩
    · rw [hother x hne]
      exact ⟨rfl, rfl⟩
  have hl : ∀ x, s'.listed x = s.listed x := fun x => by rw [listed, hs, (hsame x).1, listed]
  refine cInv_of_cAt (fun x => ?_) fun k x hx => ?_
  · by_cases hne : x = c
    · subst hne
      refine ⟨fun _ => ?_, fun _ => ?_, fun hg => ?_, fun _ => hn ▸ h.lt x hc⟩
      · rw [hself, hl]
        exact href
      · rw [hself]
        exact hdel
      · cases hc.symm.trans ((hsame x).2.symm.trans hg)
    · exact h.stays (by rw [hother x hne]) (hsame x).2 hn.ge (hl x) (hr x hne) (hd x hne)
  · rw [hs] at hx
    rw [(hsame x).1, (hsame x).2]
    exact h.slot k x hx

theorem CInv.grab (h : s.CInv) (hc : (s.ctx c).freed = false) (hpos : 0 < s.listed c)
    (hctx : s'.ctx = Function.update s.ctx c { s.ctx c with ref := (s.ctx c).ref + 1 })
    (hn : s'.nctx = s.nctx) (hs : s'.slot = s.slot)
    (hr : ∀ x, s'.refs x = s.refs x + if c = x then 1 else 0)
    (hd : ∀ x, s'.deletes x = s.deletes x) : s'.CInv := by
  have href := h.ref c hc
  have hdel := h.del c hc
  refine h.setRef hc hctx hn hs (fun x hne => ?_) (fun x _ => hd x) ?_ ?_
  · simpa [Ne.symm hne] using hr x
  · have := hr c
    rw [if_pos rfl] at this
    omega
  · rw [hd, hdel, if_neg (by omega), if_neg (by omega)]

theorem CInv.release (h : s.CInv)
    (hctx : s'.ctx = Function.update s.ctx c { s.ctx c with ref := (s.ctx c).ref - 1 })
    (hn : s'.nctx = s.nctx) (hs : s'.slot = s.slot)
    (hr : ∀ x, s'.refs x + (if c = x then 1 else 0) = s.refs x)
    (hd : ∀ x, s'.deletes x = s.deletes x + if c = x ∧ (s.ctx c).ref - 1 = 0 then 1 else 0) :
    s'.CInv := by
  have hrc := hr c
  rw [if_pos rfl] at hrc
  have hc : (s.ctx c).freed = false := h.live_of_refs (by omega)
  have href := h.ref c hc
  have hdel := h.del c hc
  rw [if_neg (by omega)] at hdel
  refine h.setRef hc hctx hn hs (fun x hne => ?_) (fun x hne => ?_) (by omega) ?_
  · simpa [Ne.symm hne] using hr x
  · simpa [Ne.symm hne] using hd x
  · rw [hd, hdel]
    simp

/-- The table's reference passes to the process that takes the context out. -/
theorem CInv.retire (h : s.CInv) {k : ℕ} (hk : s.slot k = some c)
    (hctx : s'.ctx = s.ctx) (hn : s'.nctx = s.nctx)
    (hs : s'.slot = Function.update s.slot k none)
    (hr : ∀ x, s'.refs x = s.refs x + if c = x then 1 else 0)
    (hd : ∀ x, s'.deletes x = s.deletes x) : s'.CInv := by
  obtain ⟨hc, hh⟩ := h.slot k c hk
  refine cInv_of_cAt (fun x => ?_) fun k' x hx => ?_
  · have hrx := hr x
    by_cases hne : c = x
    · subst hne
      refine ⟨fun hx => ?_, ?_, fun hg => ?_, fun _ => hn ▸ h.lt c hc⟩
      · have href := h.ref c hc
        have hold : s.listed c = 1 := by simp [listed, hh, hk]
        have hnew : s'.listed c = 0 := by simp [listed, hctx, hh, hs]
        rw [hctx, hnew]
        rw [if_pos rfl] at hrx
        omega
      · rw [hctx, hd]
        exact h.del c
      · rw [hctx, hc] at hg
        cases hg
    · rw [if_neg hne] at hrx
      exact h.stays (by rw [hctx]) (by rw [hctx]) hn.ge
        (listed_update (by rw [hctx]) hs (by simpa [hk] using hne) (by simp)) hrx (hd x)
  · rw [hs] at hx
    rw [hctx]
    by_cases hkk : k' = k
    · rw [hkk, update_self] at hx
      cases hx
    · rw [update_of_ne hkk] at hx
      exact h.slot k' x hx

theorem CInv.delete (h : s.CInv)
    (hctx : s'.ctx = Function.update s.ctx c { s.ctx c with freed := true })
    (hn : s'.nctx = s.nctx) (hs : s'.slot = s.slot) (hr : ∀ x, s'.refs x = s.refs x)
    (hd : ∀ x, s'.deletes x + (if c = x then 1 else 0) = s.deletes x) : s'.CInv := by
  have hdc := hd c
  rw [if_pos rfl] at hdc
  obtain ⟨hr0, hd1, hslot⟩ := h.last (c := c) (by omega)
  have hgone : (s'.ctx c).freed = true := by rw [hctx, update_self]
  have hother : ∀ x, x ≠ c → s'.ctx x = s.ctx x := fun x hne => by
    rw [hctx, update_of_ne hne]
  refine cInv_of_cAt (fun x => ?_) fun k x hx => ?_
  · by_cases hne : x = c
    · subst hne
      exact ⟨fun hx => by simp [hgone] at hx, fun hx => by simp [hgone] at hx,
        fun _ => ⟨by rw [hr, hr0], by omega⟩, fun hx => by simp [hgone] at hx⟩
    · have hdx := hd x
      rw [if_neg (Ne.symm hne)] at hdx
      have hctx := hother x hne
      exact h.stays (by rw [hctx]) (by rw [hctx]) hn.ge (by rw [listed, hs, hctx, listed]) (hr x) hdx
  · rw [hs] at hx
    have hne : x ≠ c := fun he => hslot k (he ▸ hx)
    rw [hother x hne]
    exact h.slot k x hx

theorem CInv.launch (h : s.CInv) {k junk : ℕ} (hk : s.slot k = none)
    (hctx : s'.ctx = Function.update s.ctx s.nctx (newContext k junk))
    (hn : s'.nctx = s.nctx + 1) (hs : s'.slot = Function.update s.slot k (some s.nctx))
    (hr : ∀ x, s'.refs x = s.refs x + if s.nctx = x then 1 else 0)
    (hd : ∀ x, s'.deletes x = s.deletes x) : s'.CInv := by
  have hnew : (s.ctx s.nctx).freed = true := by
    by_contra hf
    exact lt_irrefl _ (h.lt _ (by simpa using hf))
  obtain ⟨hr0, hd0⟩ := h.gone _ hnew
  have hself : s'.ctx s.nctx = newContext k junk := by rw [hctx, update_self]
  have hother : ∀ x, x ≠ s.nctx → s'.ctx x = s.ctx x := fun x hne => by
    rw [hctx, update_of_ne hne]
  refine cInv_of_cAt (fun x => ?_) fun k' x hx => ?_
  · by_cases hne : x = s.nctx
    · subst hne
      refine ⟨fun _ => ?_, fun _ => ?_, fun hg => ?_, fun _ => by omega⟩
      · simp [hr, hr0, listed, hself, newContext, hs]
      · simp [hd, hd0, hself, newContext]
      · rw [hself] at hg
        cases hg
    · have hctx := hother x hne
      have hrx := hr x
      rw [if_neg (Ne.symm hne)] at hrx
      exact h.stays (by rw [hctx]) (by rw [hctx]) (by omega)
        (listed_update (by rw [hctx]) hs (by simp [hk]) (by simpa using Ne.symm hne)) hrx (hd x)
  · rw [hs] at hx
    by_cases hkk : k' = k
    · rw [hkk, update_self, Option.some.injEq] at hx
      subst hx
      rw [hself, hkk]
      exact ⟨rfl, rfl⟩
    · rw [update_of_ne hkk] at hx
      have hne : x ≠ s.nctx := by
        rintro rfl
        have := (h.slot k' _ hx).1
        rw [hnew] at this
        cases this
      rw [hother x hne]
      exact h.slot k' x hx

theorem LInv.mono (h : s.LInv) (hn : s.nctx ≤ s'.nctx)
    (hs : ∀ k x, s'.slot k = some x → s.slot k = some x)
    (hl : ∀ x, s'.launches x ≤ s.launches x)
    (hless : ∀ k x, s'.slot k = some x → s'.launches x < s.launches x →
      (s'.ctx x).init = true)
    (hi : ∀ x, (s.ctx x).init = true → (s'.ctx x).init = true)
    (hf : ∀ x, s'.forms x = 0 → s.forms x = 0 ∨ 0 < s'.launches x) : s'.LInv where
  one x := (hl x).trans (h.one x)
  fresh x hx := by
    have := hl x
    have := h.fresh x (hn.trans hx)
    omega
  init k x hx hfx hix := by
    by_contra hz
    rcases hf x hfx with hfx | hpos
    · have hpos := h.init k x (hs k x hx) hfx (by
        by_contra hne
        rw [hi x (by simpa using hne)] at hix
        cases hix)
      have := hless k x hx (by omega)
      rw [this] at hix
      cases hix
    · exact hz hpos

theorem OInv.mono (h : s.OInv) (hctx : ∀ x, (s'.ctx x).freed = false → s'.forms x = 0 →
      (s.ctx x).freed = false ∧ s.forms x = 0 ∧ (s'.ctx x).queue = (s.ctx x).queue)
    (hq : ∀ x, (s'.ctx x).freed = false → s'.forms x = 0 → s.alive (s.ctx x).queue →
      (s.mq (s.ctx x).queue).release = 0 →
      s'.alive (s.ctx x).queue ∧ (s'.mq (s.ctx x).queue).release = 0) : s'.OInv where
  owner x hx hf := by
    obtain ⟨h1, h2, h3⟩ := hctx x hx hf
    rw [h3]
    exact hq x hx hf (h.owner x h1 h2).1 (h.owner x h1 h2).2
  inj x y hx hy hfx hfy he := by
    obtain ⟨h1, h2, h3⟩ := hctx x hx hfx
    obtain ⟨h1', h2', h3'⟩ := hctx y hy hfy
    exact h.inj x y h1 h1' h2 h2' (by rw [← h3, ← h3', he])

theorem OInv.create (h : s.OInv) {q : ℕ} (hqn : q = s.nmq)
    (hctx : s'.ctx = Function.update s.ctx c { s.ctx c with queue := q })
    (hf : ∀ x, x ≠ c → s'.forms x = s.forms x)
    (ha : ∀ x, x ≠ s.nmq → s'.alive x = s.alive x ∧ (s'.mq x).release = (s.mq x).release)
    (hnew : s'.alive s.nmq ∧ (s'.mq s.nmq).release = 0) : s'.OInv := by
  have hself : s'.ctx c = { s.ctx c with queue := q } := by rw [hctx, update_self]
  have hother : ∀ x, x ≠ c → s'.ctx x = s.ctx x := fun x hne => by
    rw [hctx, update_of_ne hne]
  have hold : ∀ x, x ≠ c → (s'.ctx x).freed = false → s'.forms x = 0 →
      (s.ctx x).queue ≠ s.nmq ∧ s.alive (s.ctx x).queue ∧ (s.mq (s.ctx x).queue).release = 0 := by
    intro x hne hx hfx
    rw [hother x hne] at hx
    rw [hf x hne] at hfx
    obtain ⟨h1, h2⟩ := h.owner x hx hfx
    refine ⟨fun he => ?_, h1, h2⟩
    rw [he, MqMem.alive_iff] at h1
    exact lt_irrefl _ h1.1
  constructor
  · intro x hx hfx
    by_cases hne : x = c
    · subst hne
      rw [hself, hqn]
      exact hnew
    · obtain ⟨h1, h2, h3⟩ := hold x hne hx hfx
      rw [hother x hne, (ha _ h1).1, (ha _ h1).2]
      exact ⟨h2, h3⟩
  · intro x y hx hy hfx hfy he
    by_cases hxc : x = c <;> by_cases hyc : y = c
    · rw [hxc, hyc]
    · rw [hxc, hself, hother y hyc] at he
      exact absurd (he.symm.trans hqn) (hold y hyc hy hfy).1
    · rw [hyc, hself, hother x hxc] at he
      exact absurd (he.trans hqn) (hold x hxc hx hfx).1
    · rw [hother x hxc] at hx he
      rw [hother y hyc] at hy he
      rw [hf x hxc] at hfx
      rw [hf y hyc] at hfy
      exact h.inj x y hx hy hfx hfy he

end Contexts

end Server

end SkynetGame
