import SkynetGame.Proofs.SocketChannel
import Mathlib.Data.List.Nodup

/-!
# Channels in session mode

A request that waits is in the list under its session, with the parts that have come for it as its
data, and where the socket is gone somebody has still to wake all that are in the list.
-/

namespace SkynetGame

open Function List Option

namespace SocketChannel

variable {α : Type*}

/-- The invariant but for who is to wake the requests whose socket is gone. -/
structure SessCore (s : State α) : Prop where
  mode : s.mode = .session
  conn : Conn s
  reqs : Reqs s
  disp : ∀ d, s.disp d ≠ .waiting
  reading : ∀ d e co, s.disp d = .reading e co → e = some d ∧ co = none
  closing : ∀ d m co, s.disp d = .closing m co → co = none
  keys : (s.threads.map Prod.fst).Nodup
  mem : ∀ x co, (x, co) ∈ s.threads → ∃ q, s.asleep co = some q ∧ s.woken co = false
    ∧ (s.requests q).session = x ∧ (s.requests q).conn + 1 = s.conns
    ∧ (heard ((s.requests q).own s.log)).1 = []
    ∧ s.resultData co = (heard ((s.requests q).own s.log)).2.map .parts
  waits : ∀ co q, s.asleep co = some q → s.woken co = false →
    ((s.requests q).session, co) ∈ s.threads

/-- Somebody has still to wake the requests. -/
def State.Waker (s : State α) : Prop :=
  s.closers ≠ [] ∨ ∃ d, (∃ m co, s.disp d = .closing m co)
    ∨ s.dropped d = true ∧ ∃ e co, s.disp d = .reading e co

structure Sess (s : State α) : Prop where
  core : SessCore s
  lost : s.sock = none → s.threads ≠ [] → s.Waker

variable {s t : State α} {co d : ℕ} {m : Option α}

theorem Sess.init : Sess (State.init .session : State α) :=
  ⟨⟨rfl, .init _, .init _, (fun _ h => nomatch h), (fun _ _ _ h => nomatch h),
    (fun _ _ _ h => nomatch h), nodup_nil, fun _ _ h => absurd h not_mem_nil,
    (fun _ _ h => nomatch h)⟩, fun _ h => absurd rfl h⟩

theorem SessCore.pending (h : SessCore s) (hsock : s.sock = none) :
    ∀ co ∈ s.threads.map Prod.snd, s.Pending co := by
  intro co hco
  obtain ⟨⟨x, _⟩, hp, rfl⟩ := List.mem_map.1 hco
  obtain ⟨q, hq, -, -, hconn, hnone, -⟩ := h.mem x _ hp
  refine ⟨q, hq, ?_, h.conn.failed _ (by omega) (by rw [hsock]; exact fun hbad => nomatch hbad)⟩
  rw [h.mode]
  simp only [Request.verdict, hnone, head?_nil]

section Reply

variable {r : Reply α}

end Reply

/-! ## The other steps -/

theorem Sess.sound (h : Sess s) : Sound s := by
  have hcore := h.core
  refine sound_of hcore.reqs hcore.conn (fun co q hq hw => ?_) fun hquiet _ d => ?_
  · have hin := hcore.waits co q hq hw
    obtain ⟨q', hq', -, -, hconn, hnone, -⟩ := hcore.mem _ co hin
    obtain rfl := some.inj (hq'.symm.trans hq)
    refine ⟨?_, hconn, fun hsock hquiet => ?_⟩
    · rw [hcore.mode]
      simp only [Request.verdict, hnone, head?_nil]
    · rcases h.lost hsock (ne_nil_of_mem hin) with hc | ⟨d, ⟨m, c, hd⟩ | ⟨-, e, c, hd⟩⟩
      · exact hc hquiet.1
      · rcases hquiet.2.2 d with hd' | ⟨hd', -⟩ <;> cases hd.symm.trans hd'
      · rcases hquiet.2.2 d with hd' | ⟨hd', -⟩ <;> cases hd.symm.trans hd'
  · exact (hquiet.2.2 d).resolve_right fun hbad => hcore.disp d hbad.1

end SocketChannel

end SkynetGame
