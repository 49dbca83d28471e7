import SkynetGame.Mq

/-!
# What each queue operation does

A memory that is laid out well (`MqMem.Ok`) has met no fault, and its global list threads live
queues. Each locked section keeps it so where its caller holds what the section relies on, and
changes one queue at most (`MqMem.view`).
-/

namespace SkynetGame

open Function

namespace MessageQueue

theorem create_fits (h : ℕ) : (create h).Fits := by constructor <;> simp [create, defaultQueueSize]

theorem create_waiting (h : ℕ) : (create h).waiting = [] :=
  (ringList_eq_nil (create_fits h).head_lt _).2 rfl

theorem pop_none {q q' : MessageQueue} (hf : q.Fits) (h : q.pop = (q', none)) :
    q.waiting = [] ∧ q' = { q with overloadThreshold := mqOverload, inGlobal := 0 } := by
  unfold pop at h
  split_ifs at h with he
  · simp at h
  · simp only [Prod.mk.injEq, and_true] at h
    push Not at he
    exact ⟨(ringList_eq_nil hf.head_lt _).2 he, h.symm⟩

theorem pop_some {q q' : MessageQueue} {message : SkynetMessage} (hf : q.Fits)
    (h : q.pop = (q', some message)) :
    q.waiting = message :: q'.waiting ∧ q'.Fits ∧ ∃ o t, q' = { q with
      head := ringNext q.cap q.head, overload := o, overloadThreshold := t } := by
  unfold pop at h
  split_ifs at h with he
  · simp only [Prod.mk.injEq, Option.some.injEq] at h
    obtain ⟨rfl, rfl⟩ := h
    exact ⟨ringList_read _ hf.head_lt hf.tail_lt he,
      ⟨ringNext_lt (Nat.zero_lt_of_lt hf.head_lt) _, hf.tail_lt⟩, _, _, rfl⟩
  · simp at h

theorem put_spec {q : MessageQueue} (hf : q.Fits) (message : SkynetMessage) :
    (q.put message).waiting = q.waiting ++ [message] ∧ (q.put message).Fits ∧
      ∃ c h t b, q.put message = { q with cap := c, head := h, tail := t, queue := b } := by
  have hc := Nat.zero_lt_of_lt hf.head_lt
  unfold put
  split_ifs with he
  · refine ⟨?_, ⟨by simp [expandQueue, store, hc], by simp [expandQueue, store, hc]⟩,
      _, _, _, _, rfl⟩
    exact ringList_write_grow _ _ hf.head_lt hf.tail_lt he (show q.cap < q.cap * 2 by omega)
  · exact ⟨ringList_write _ _ hf.head_lt hf.tail_lt he, ⟨hf.head_lt, ringNext_lt hc _⟩,
      _, _, _, _, rfl⟩

end MessageQueue

namespace MqMem

/-- The queues, without their links. -/
def view (m : MqMem) (q : ℕ) : MessageQueue := (m.mq q).unlinked

/-- No fault so far, and the links lay out `l`, a list of live queues. -/
structure Ok (m : MqMem) (l : List ℕ) : Prop where
  fault : m.fault = none
  linked : LinkedQueue (fun q => (m.mq q).next) m.head m.tail l
  alive : ∀ q ∈ l, m.alive q
  fits : ∀ q, (m.mq q).Fits

section View

variable {m : MqMem} {q : ℕ}

@[simp] theorem view_freed : (m.view q).freed = (m.mq q).freed := rfl
@[simp] theorem view_handle : (m.view q).handle = (m.mq q).handle := rfl
@[simp] theorem view_inGlobal : (m.view q).inGlobal = (m.mq q).inGlobal := rfl
@[simp] theorem view_release : (m.view q).release = (m.mq q).release := rfl
@[simp] theorem view_waiting : (m.view q).waiting = (m.mq q).waiting := rfl

theorem fields_of_view {y : MessageQueue} (h : m.view q = y) :
    (m.mq q).inGlobal = y.inGlobal ∧ (m.mq q).release = y.release ∧
      (m.mq q).waiting = y.waiting ∧ (m.mq q).freed = y.freed := by
  subst h
  exact ⟨rfl, rfl, rfl, rfl⟩

theorem alive_iff : m.alive q ↔ q < m.nmq ∧ (m.mq q).freed = false := by simp [alive]

theorem alive_of_lt (m m' : MqMem) {x : ℕ} (hn : x < m'.nmq ↔ x < m.nmq)
    (hv : m'.view x = m.view x) : m'.alive x = m.alive x := by
  have h := congrArg MessageQueue.freed hv
  simp only [view_freed] at h
  simp [alive, hn, h]

theorem alive_of_view (m m' : MqMem) (hn : m'.nmq = m.nmq) {x : ℕ} (hv : m'.view x = m.view x) :
    m'.alive x = m.alive x := alive_of_lt m m' (by rw [hn]) hv

theorem alive_congr (m m' : MqMem) (hn : m'.nmq = m.nmq) (hv : m'.view = m.view) (x : ℕ) :
    m'.alive x = m.alive x := alive_of_view m m' hn (congrFun hv x)

theorem alive_update (m m' : MqMem) (hn : m'.nmq = m.nmq) {y : MessageQueue}
    (hv : m'.view = update m.view q y) (hy : y.freed = (m.mq q).freed) (x : ℕ) :
    m'.alive x = m.alive x := by
  have h := congrArg MessageQueue.freed (congrFun hv x)
  rw [view_freed] at h
  by_cases hx : x = q
  · subst hx
    rw [update_self, hy] at h
    simp [alive, hn, h]
  · rw [update_of_ne hx, view_freed] at h
    simp [alive, hn, h]

theorem check_true {b : Bool} {f : Fault} (hb : b = true) : m.check b f = m := by
  simp [check, hb]

theorem touch_alive (h : m.alive q) : m.touch q = m := check_true h

theorem write_view {x : MessageQueue} :
    (m.write q x).view = update m.view q x.unlinked := by
  funext y
  by_cases hy : y = q
  · subst hy
    simp [view, write]
  · simp [view, write, hy]

theorem write_next {x : MessageQueue} : (fun y => ((m.write q x).mq y).next)
    = update (fun y => (m.mq y).next) q x.next := by
  funext y
  by_cases hy : y = q
  · subst hy
    simp [write]
  · simp [write, hy]

theorem write_fits (h : ∀ y, (m.mq y).Fits) {x : MessageQueue} (hx : x.Fits) :
    ∀ y, ((m.write q x).mq y).Fits := by
  intro y
  by_cases hy : y = q
  · subst hy
    simpa [write] using hx
  · simpa [write, hy] using h y

theorem write_alive {x : MessageQueue} (hx : x.freed = (m.mq q).freed) (y : ℕ) :
    (m.write q x).alive y = m.alive y := alive_update m (m.write q x) rfl write_view hx y

theorem Ok.linked_write {l : List ℕ} (h : m.Ok l) {x : MessageQueue}
    (hn : x.next = (m.mq q).next) :
    LinkedQueue (fun y => ((m.write q x).mq y).next) m.head m.tail l := by
  rw [write_next, hn, update_eq_self q fun y => (m.mq y).next]
  exact h.linked

theorem Ok.write {l : List ℕ} (h : m.Ok l) {x : MessageQueue} (hn : x.next = (m.mq q).next)
    (hfr : x.freed = (m.mq q).freed) (hfit : x.Fits) : (m.write q x).Ok l where
  fault := h.fault
  linked := h.linked_write hn
  alive := fun y hy => (write_alive hfr y).trans (h.alive y hy)
  fits := write_fits h.fits hfit

end View

section Global

variable {m : MqMem} {l : List ℕ} {q : ℕ}

theorem Ok.globalmqPush (h : m.Ok l) (ha : m.alive q) (hq : q ∉ l) :
    (m.skynetGlobalmqPush q).Ok (l ++ [q]) ∧ (m.skynetGlobalmqPush q).nmq = m.nmq ∧
      (m.skynetGlobalmqPush q).view = m.view := by
  have hn : (m.mq q).next = none := h.linked.off q hq
  have hlive : ∀ y ∈ l ++ [q], m.alive y := by
    intro y hy
    rcases List.mem_append.1 hy with hy | hy
    · exact h.alive y hy
    · rwa [List.mem_singleton.1 hy]
  have hl := h.linked
  unfold skynetGlobalmqPush
  simp only [touch_alive ha, check_true (m := m) (b := decide ((m.mq q).next = none))
    (by simp [hn])]
  split
  · rename_i t ht
    rw [ht] at hl
    have hta : m.alive t := h.alive t (List.mem_of_getLast? hl.tail_eq.symm)
    simp only [touch_alive hta]
    have hview : (m.write t { m.mq t with next := some q }).view = m.view := by
      rw [write_view]
      exact update_eq_self t m.view
    refine ⟨⟨h.fault, ?_, ?_, ?_⟩, rfl, hview⟩
    · have hl' := hl.push_some hq
      rw [← write_next (x := { m.mq t with next := some q })] at hl'
      exact hl'
    · intro y hy
      exact (alive_congr m (m.write t _) rfl hview y).trans (hlive y hy)
    · exact write_fits h.fits ⟨(h.fits t).head_lt, (h.fits t).tail_lt⟩
  · rename_i ht
    rw [ht] at hl
    exact ⟨⟨h.fault, hl.push_none hq, hlive, h.fits⟩, rfl, rfl⟩

theorem Ok.globalmqPop_nil (h : m.Ok []) : m.skynetGlobalmqPop = (m, none) := by
  have hh : m.head = none := h.linked.head_eq
  unfold skynetGlobalmqPop
  rw [hh]

theorem Ok.globalmqPop_cons (h : m.Ok (q :: l)) : ∃ m', m.skynetGlobalmqPop = (m', some q) ∧
    m'.Ok l ∧ m'.nmq = m.nmq ∧ m'.view = m.view := by
  have hh : m.head = some q := h.linked.head_eq
  have ha := h.alive q (by simp)
  have hl := h.linked.pop
  rw [← write_next (x := { m.mq q with next := none })] at hl
  have hview : (m.write q { m.mq q with next := none }).view = m.view := by
    rw [write_view]
    exact update_eq_self q m.view
  have hfits := write_fits (q := q) h.fits (x := { m.mq q with next := none })
    ⟨(h.fits q).head_lt, (h.fits q).tail_lt⟩
  have halive : ∀ y ∈ l, (m.write q { m.mq q with next := none }).alive y := fun y hy =>
    (alive_congr m (m.write q _) rfl hview y).trans (h.alive y (List.mem_cons_of_mem _ hy))
  unfold skynetGlobalmqPop
  simp only [hh, touch_alive ha]
  by_cases hn : (m.mq q).next = none
  · have ht : m.tail = some q := (h.linked.tail_of_next hn).2
    simp only [hn, check_true (m := m) (b := decide (m.tail = some q)) (by simp [ht]), if_true]
    rw [if_pos hn, hn] at hl
    exact ⟨_, rfl, ⟨h.fault, hl, halive, hfits⟩, rfl, hview⟩
  · rw [if_neg hn] at hl
    simp only [if_neg hn]
    exact ⟨_, rfl, ⟨h.fault, hl, halive, hfits⟩, rfl, hview⟩

end Global

section Queue

variable {m : MqMem} {l : List ℕ} {q : ℕ}

theorem Ok.mqCreate (h : m.Ok l) (hnot : ∀ x ∈ l, x < m.nmq) (handle : ℕ) :
    (m.skynetMqCreate handle).1.Ok l ∧ (m.skynetMqCreate handle).2 = m.nmq ∧
      (m.skynetMqCreate handle).1.nmq = m.nmq + 1 ∧
      (m.skynetMqCreate handle).1.view = update m.view m.nmq (.create handle) := by
  have hfresh : m.nmq ∉ l := fun hm => absurd (hnot _ hm) (lt_irrefl _)
  have hnx : (m.mq m.nmq).next = none := h.linked.off _ hfresh
  refine ⟨⟨h.fault, h.linked_write (x := .create handle) hnx.symm, ?_,
    write_fits h.fits (MessageQueue.create_fits handle)⟩, rfl, rfl, write_view⟩
  · intro y hy
    have hlt := hnot y hy
    have := (alive_iff.1 (h.alive y hy)).2
    rw [alive_iff]
    have hne : y ≠ m.nmq := by omega
    refine ⟨by simp [skynetMqCreate]; omega, by simpa [skynetMqCreate, MqMem.write, hne] using this⟩

theorem mqPop_eq (ha : m.alive q) :
    m.skynetMqPop q = (m.write q (m.mq q).pop.1, (m.mq q).pop.2) := by
  unfold skynetMqPop
  rw [touch_alive ha]

theorem Ok.mqPop_none (h : m.Ok l) (ha : m.alive q) {m' : MqMem}
    (hpop : m.skynetMqPop q = (m', none)) :
    m'.Ok l ∧ m'.nmq = m.nmq ∧ (m.mq q).waiting = [] ∧ m'.view = update m.view q
      { m.view q with overloadThreshold := mqOverload, inGlobal := 0 } := by
  rw [mqPop_eq ha] at hpop
  rcases hp : (m.mq q).pop with ⟨x, o⟩
  simp only [hp, Prod.mk.injEq] at hpop
  obtain ⟨rfl, rfl⟩ := hpop
  obtain ⟨hw, rfl⟩ := MessageQueue.pop_none (h.fits q) hp
  exact ⟨h.write rfl rfl ⟨(h.fits q).head_lt, (h.fits q).tail_lt⟩, rfl, hw, write_view⟩

theorem Ok.mqPop_some (h : m.Ok l) (ha : m.alive q) {m' : MqMem} {message : SkynetMessage}
    (hpop : m.skynetMqPop q = (m', some message)) :
    m'.Ok l ∧ m'.nmq = m.nmq ∧ ∃ y, m'.view = update m.view q y ∧
      (m.mq q).waiting = message :: y.waiting ∧ y.inGlobal = (m.mq q).inGlobal ∧
      y.release = (m.mq q).release ∧ y.freed = (m.mq q).freed := by
  rw [mqPop_eq ha] at hpop
  rcases hp : (m.mq q).pop with ⟨x, o⟩
  simp only [hp, Prod.mk.injEq] at hpop
  obtain ⟨rfl, rfl⟩ := hpop
  obtain ⟨hw, hfit, o, t, rfl⟩ := MessageQueue.pop_some (h.fits q) hp
  exact ⟨h.write rfl rfl hfit, rfl, _, write_view, hw, rfl, rfl, rfl⟩

theorem Ok.mqPush (h : m.Ok l) (ha : m.alive q) (message : SkynetMessage)
    (hcap : ((m.mq q).put message).cap ≤ intMax) (hout : (m.mq q).inGlobal = 0 → q ∉ l) :
    (m.skynetMqPush q message).Ok (if (m.mq q).inGlobal = 0 then l ++ [q] else l) ∧
      (m.skynetMqPush q message).nmq = m.nmq ∧
      (m.skynetMqPush q message).view = update m.view q { (m.mq q).put message with
        inGlobal := if (m.mq q).inGlobal = 0 then mqInGlobal else (m.mq q).inGlobal
        next := none } := by
  obtain ⟨-, hfit, c, hd, tl, b, hput⟩ := MessageQueue.put_spec (h.fits q) message
  have hig : ((m.mq q).put message).inGlobal = (m.mq q).inGlobal := by rw [hput]
  have hnx : ((m.mq q).put message).next = (m.mq q).next := by rw [hput]
  have hfr : ((m.mq q).put message).freed = (m.mq q).freed := by rw [hput]
  unfold skynetMqPush
  simp only [touch_alive ha, check_true (m := m)
    (b := decide (((m.mq q).put message).cap ≤ intMax)) (by simpa using hcap), hig]
  split_ifs with hz
  · have hw : (m.write q { (m.mq q).put message with inGlobal := mqInGlobal }).Ok l :=
      h.write hnx hfr ⟨hfit.head_lt, hfit.tail_lt⟩
    have ha' : (m.write q { (m.mq q).put message with inGlobal := mqInGlobal }).alive q :=
      (write_alive (x := { (m.mq q).put message with inGlobal := mqInGlobal }) hfr q).trans ha
    obtain ⟨h1, h2, h3⟩ := hw.globalmqPush ha' (hout hz)
    refine ⟨h1, h2, ?_⟩
    rw [h3, write_view]
    simp only [MessageQueue.unlinked]
  · refine ⟨h.write hnx hfr hfit, rfl, ?_⟩
    rw [write_view]
    simp only [MessageQueue.unlinked, hig]

/-- `skynet_mq_mark_release` on a live queue not yet marked, out of the list wherever
`in_global` is clear. -/
theorem Ok.mqMarkRelease (h : m.Ok l) (ha : m.alive q) (hr : (m.mq q).release = 0)
    (hout : (m.mq q).inGlobal ≠ mqInGlobal → q ∉ l) :
    (m.skynetMqMarkRelease q).Ok (if (m.mq q).inGlobal ≠ mqInGlobal then l ++ [q] else l) ∧
      (m.skynetMqMarkRelease q).nmq = m.nmq ∧
      (m.skynetMqMarkRelease q).view
        = update m.view q { m.view q with release := 1 } := by
  have hw : (m.write q { m.mq q with release := 1 }).Ok l :=
    h.write rfl rfl ⟨(h.fits q).head_lt, (h.fits q).tail_lt⟩
  have ha' : (m.write q { m.mq q with release := 1 }).alive q :=
    (write_alive (x := { m.mq q with release := 1 }) rfl q).trans ha
  have hig : ((m.write q { m.mq q with release := 1 }).mq q).inGlobal = (m.mq q).inGlobal := by
    simp [MqMem.write]
  unfold skynetMqMarkRelease
  simp only [touch_alive ha, check_true (m := m) (b := decide ((m.mq q).release = 0))
    (by simp [hr]), hig]
  split_ifs with hz
  · obtain ⟨h1, h2, h3⟩ := hw.globalmqPush ha' (hout hz)
    exact ⟨h1, h2, h3.trans write_view⟩
  · exact ⟨hw, rfl, write_view⟩

theorem mqRelease_live (ha : m.alive q) (hr : (m.mq q).release = 0) :
    m.skynetMqRelease q = (m.skynetGlobalmqPush q, false) := by
  unfold skynetMqRelease
  simp [touch_alive ha, hr]

theorem mqRelease_marked (ha : m.alive q) (hr : (m.mq q).release ≠ 0) :
    m.skynetMqRelease q = (m, true) := by
  unfold skynetMqRelease
  simp [touch_alive ha, hr]

theorem Ok.release (h : m.Ok l) (ha : m.alive q) (hq : q ∉ l) :
    (m.release q).Ok l ∧ (m.release q).nmq = m.nmq ∧
      (m.release q).view = update m.view q { m.view q with freed := true } := by
  have hn : (m.mq q).next = none := h.linked.off q hq
  unfold MqMem.release
  simp only [touch_alive ha, check_true (m := m) (b := decide ((m.mq q).next = none))
    (by simp [hn])]
  refine ⟨⟨h.fault, h.linked_write (x := { m.mq q with freed := true }) rfl, ?_,
    write_fits h.fits ⟨(h.fits q).head_lt, (h.fits q).tail_lt⟩⟩, rfl, write_view⟩
  intro y hy
  have hne : y ≠ q := fun he => hq (he ▸ hy)
  have := alive_iff.1 (h.alive y hy)
  rw [alive_iff]
  exact ⟨this.1, by simpa [MqMem.write, hne] using this.2⟩

theorem Ok.mqOverload (h : m.Ok l) (ha : m.alive q) :
    (m.skynetMqOverload q).1.Ok l ∧ (m.skynetMqOverload q).1.nmq = m.nmq ∧
      ∃ o, (m.skynetMqOverload q).1.view
        = update m.view q { m.view q with overload := o } := by
  unfold skynetMqOverload MessageQueue.takeOverload
  simp only [touch_alive ha]
  split_ifs with ho
  · exact ⟨h.write rfl rfl ⟨(h.fits q).head_lt, (h.fits q).tail_lt⟩, rfl, 0, write_view⟩
  · exact ⟨h.write rfl rfl (h.fits q), rfl, (m.mq q).overload, write_view⟩

end Queue

end MqMem

end SkynetGame
