import SkynetGame.Proofs.SocketChannel
import Mathlib.Data.List.Nodup
import Mathlib.Data.List.Range

/-!
# Channels in order mode: the queue and the dispatcher

The request that the dispatcher reads for and those in the list are the ones that wait, in the order
in which they were made, and the first of them has as many before it as responses were read
(`Queue`). Where the socket is gone, the dispatcher or a request that closed it has still to wake
them, and a close signal finds a dispatcher (`Control`).
-/

namespace SkynetGame

open Function List Option

namespace SocketChannel

variable {α : Type*}

/-- The complete responses that were read from the last socket. -/
def State.count (s : State α) : ℕ := (heard (replies (s.conns - 1) s.log)).1.length

/-- The request that is read for, and those in the list. -/
def State.queue (s : State α) (cur : Option ℕ) : List ℕ := cur.toList ++ s.request.filterMap id

structure Queue (cur : Option ℕ) (s : State α) : Prop where
  mode : s.mode = .order
  reqs : Reqs s
  par : s.thread = s.request.map (Option.map fun q => (s.requests q).co)
  mem : ∀ q ∈ s.queue cur, s.asleep (s.requests q).co = some q
    ∧ s.woken (s.requests q).co = false ∧ s.resultData (s.requests q).co = none
    ∧ (s.requests q).conn + 1 = s.conns
  index : (s.queue cur).map (fun q => (s.requests q).index)
    = List.range' s.count (s.queue cur).length
  parts : (heard (replies (s.conns - 1) s.log)).2 = none
  waits : ∀ co q, s.asleep co = some q → s.woken co = false → q ∈ s.queue cur
  pushed : ∀ e, s.sock = some e → s.pushed e = s.count + (s.queue cur).length
  fresh : ∀ e, s.conns ≤ e → s.pushed e = 0 ∧ replies e s.log = []
  signal : none ∈ s.request → s.sock = none ∧ s.closed = true

/-- Somebody has still to wake the requests in the list. -/
def State.Waker' (s : State α) : Prop :=
  s.closers ≠ [] ∨ ∃ d, (∃ m co, s.disp d = .closing m co) ∨ (∃ co, s.disp d = .reading none co)
    ∨ (s.dropped d = true ∧ ∃ e co, s.disp d = .reading e co)
    ∨ s.disp d = .waiting ∧ s.dwoken d = true

structure Control (cur : Option ℕ) (s : State α) : Prop where
  conn : Conn s
  reading : ∀ d e co, s.disp d = .reading e co →
    ∃ q, cur = some q ∧ co = some (s.requests q).co
  closing : ∀ d m co, s.disp d = .closing m co → ∃ q, cur = some q ∧ co = some (s.requests q).co
  cur : ∀ q, cur = some q → ∃ d, (∃ e co, s.disp d = .reading e co)
    ∨ ∃ m co, s.disp d = .closing m co
  waiting : ∀ d, s.disp d = .waiting → s.dwoken d = true
    ∨ s.request = [] ∧ s.waitResponse = some d
  waitResponse : ∀ d, s.waitResponse = some d → s.disp d = .waiting ∧ s.dwoken d = false
  dwoken : ∀ d, s.dwoken d = true → s.disp d = .waiting
  thread : ∀ d, s.dispatchThread = some d ↔ s.disp d ≠ .dead
  signal : none ∈ s.request → ∃ d, s.disp d ≠ .dead ∧ s.disp d ≠ .forked
  signals : ∀ d, some d ∈ s.signals → d < s.conns
    ∧ (s.disp d ≠ .dead → s.sock = none ∧ s.closed = true ∧ s.disp d ≠ .forked)
  gone : s.closed = true → ∀ d, s.disp d = .waiting → none ∈ s.request ∨ some d ∈ s.signals
  lost : s.sock = none → (∃ q, some q ∈ s.request) → s.Waker'

def Ord (s : State α) : Prop := ∃ cur, Queue cur s ∧ Control cur s

variable {s t : State α} {co d q : ℕ} {m : Option α} {cur : Option ℕ}

theorem Ord.init : Ord (State.init .order : State α) := by
  refine ⟨none, ⟨rfl, .init _, rfl, fun q hq => absurd hq not_mem_nil, rfl, rfl,
    (fun _ _ h => nomatch h), (fun _ h => nomatch h), fun _ _ => ⟨rfl, rfl⟩,
    (fun h => absurd h not_mem_nil)⟩, ⟨.init _, (fun _ _ _ h => nomatch h),
    (fun _ _ _ h => nomatch h), (fun _ h => nomatch h), (fun _ h => nomatch h),
    (fun _ h => nomatch h), (fun _ h => nomatch h), fun d => ⟨(fun h => nomatch h),
    fun h => absurd rfl h⟩, (fun h => absurd h not_mem_nil),
    (fun _ h => absurd h not_mem_nil), (fun h => nomatch h), fun _ ⟨q, h⟩ =>
    absurd h not_mem_nil⟩⟩

theorem mem_queue : q ∈ s.queue cur ↔ cur = some q ∨ some q ∈ s.request := by
  simp [State.queue, mem_toList]

theorem Queue.verdict (h : Queue cur s) (hq : q ∈ s.queue cur) :
    (s.requests q).verdict s.mode s.log = none := by
  obtain ⟨-, -, -, hconn⟩ := h.mem q hq
  have hle : s.count ≤ (s.requests q).index := by
    have hin := List.mem_map_of_mem (f := fun q => (s.requests q).index) hq
    rw [h.index] at hin
    exact (mem_range'_1.1 hin).1
  have hc : (s.requests q).conn = s.conns - 1 := by omega
  rw [h.mode]
  simp only [Request.verdict, hc]
  exact List.getElem?_eq_none hle

theorem Queue.pending (h : Queue cur s) (hc : Conn s) (hsock : s.sock = none)
    (hq : q ∈ s.queue cur) : s.Pending (s.requests q).co := by
  obtain ⟨ha, -, -, hconn⟩ := h.mem q hq
  refine ⟨q, ha, h.verdict hq, hc.failed _ (by omega) ?_⟩
  rw [hsock]
  exact fun hbad => nomatch hbad

theorem Ord.sound (h : Ord s) : Sound s := by
  obtain ⟨cur, hq, hc⟩ := h
  refine sound_of hq.reqs hc.conn (fun co q ha hw => ?_) fun hquiet hclosed d => ?_
  · have hin := hq.waits co q ha hw
    refine ⟨hq.verdict hin, (hq.mem q hin).2.2.2, fun hsock hquiet => ?_⟩
    have hbusy : ∀ d, s.disp d ≠ .dead → (s.disp d = .waiting → s.dwoken d = true) → False := by
      intro d hdead hwait
      rcases hquiet.2.2 d with hd | ⟨hd, hnot⟩
      · exact hdead hd
      · rw [hwait hd] at hnot
        cases hnot
    have hread : ∀ d e c, s.disp d = .reading e c → False := fun d e c hd =>
      hbusy d (ne_dead_of_reading hd) fun hbad => nomatch hd.symm.trans hbad
    have hclosing : ∀ d m c, s.disp d = .closing m c → False := fun d m c hd =>
      hbusy d (ne_dead_of_closing hd) fun hbad => nomatch hd.symm.trans hbad
    rcases mem_queue.1 hin with hcur | hreq
    · obtain ⟨d, ⟨e, c, hd⟩ | ⟨m, c, hd⟩⟩ := hc.cur q hcur
      · exact hread d e c hd
      · exact hclosing d m c hd
    · rcases hc.lost hsock ⟨q, hreq⟩ with
        hcl | ⟨d, ⟨m, c, hd⟩ | ⟨c, hd⟩ | ⟨-, e, c, hd⟩ | ⟨hd, hw⟩⟩
      · exact hcl hquiet.1
      · exact hclosing d m c hd
      · exact hread d none c hd
      · exact hread d e c hd
      · exact hbusy d (ne_dead_of_waiting hd) fun _ => hw
  · rcases hquiet.2.2 d with hd | ⟨hd, hnot⟩
    · exact hd
    · rcases hc.waiting d hd with hw | ⟨hnil, -⟩
      · rw [hw] at hnot
        cases hnot
      · rcases hc.gone hclosed d hd with hbad | hbad
        · rw [hnil] at hbad
          exact absurd hbad not_mem_nil
        · rw [hquiet.2.1] at hbad
          exact absurd hbad not_mem_nil

/-! ## The queue -/

theorem Queue.nodup (h : Queue cur s) : (s.queue cur).Nodup := by
  refine List.Nodup.of_map (fun q => (s.requests q).index) ?_
  rw [h.index]
  exact nodup_range'

/-- The dispatcher that is about to go on. -/
structure Ready (d : ℕ) (s : State α) : Prop where
  conn : Conn s
  alive : s.disp d ≠ .dead
  waitResponse : s.waitResponse = none
  dwoken : ∀ d', s.dwoken d' = false
  thread : s.dispatchThread = some d
  signals : ∀ d', some d' ∈ s.signals → d' < s.conns
  closed : some d ∈ s.signals → s.sock = none ∧ s.closed = true

theorem Control.ready (h : Control cur s) (hd : s.disp d ≠ .dead) (hwait : s.disp d ≠ .waiting) :
    Ready d s := by
  refine ⟨h.conn, hd, ?_, fun d' => ?_, (h.thread d).2 hd, fun d' hin => (h.signals d' hin).1,
    fun hin => ?_⟩
  · cases hw : s.waitResponse with
    | none => rfl
    | some d' =>
      have hd' := (h.waitResponse d' hw).1
      obtain rfl := h.conn.unique hd (ne_dead_of_waiting hd')
      exact absurd hd' hwait
  · cases hw : s.dwoken d' with
    | false => rfl
    | true =>
      have hd' := h.dwoken d' hw
      obtain rfl := h.conn.unique hd (ne_dead_of_waiting hd')
      exact absurd hd' hwait
  · obtain ⟨hsock, hclosed, -⟩ := (h.signals d hin).2 hd
    exact ⟨hsock, hclosed⟩

end SocketChannel

end SkynetGame
