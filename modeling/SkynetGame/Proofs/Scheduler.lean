import SkynetGame.Proofs.ServerRun

/-!
# One place for every queue

What `Server.Inv` says of the runtime in its own words (`Server.OnePlace`), for every run whose
steps are tame. The run `recycledRun` is not: a launch that fails leaves a freed queue behind in
the memory that the next context is put into, and a message reaches that context between the
registration of its handle and the creation of its queue.
-/

namespace SkynetGame

namespace Proc

/-- The context whose service a turn is dispatching messages to. -/
def serves : Proc → Option ℕ
  | loop _ _ c _ _ | popped _ _ c _ _ _ | overload _ _ c _ _ _ | dispatch _ _ c _ _ _
  | call _ _ c _ _ | requeue _ _ c _ => some c
  | _ => none

end Proc

namespace Server

variable {s : Server} {l : List ℕ}

/-- Every live queue is in exactly one place, with `l` the global list: once in the list, held by
one call, or idle. -/
structure Placed (s : Server) (l : List ℕ) : Prop where
  live : ∀ q, s.alive q →
    l.count q = 1 ∧ s.held q = 0 ∨ l.count q = 0 ∧ s.held q = 1 ∨
      l.count q = 0 ∧ s.held q = 0 ∧ (s.mq q).inGlobal = 0 ∧ (s.mq q).waiting = []
  freed : ∀ q, ¬ s.alive q → l.count q = 0 ∧ s.held q = 0
  full : ∀ q, (s.mq q).waiting ≠ [] → l.count q = 1 ∨ s.held q = 1

/-- No assertion has failed and no freed queue was touched; the links of the queues lay out a list
that, with the running calls, accounts for every queue; two turns never serve one context. -/
structure OnePlace (s : Server) : Prop where
  fault : s.fault = none
  placed : ∃ l, LinkedQueue (fun q => (s.mq q).next) s.head s.tail l ∧ s.Placed l
  alone : ∀ (i j : ℕ) (p p' : Proc) (c : ℕ), s.procs[i]? = some p → s.procs[j]? = some p' →
    p.serves = some c → p'.serves = some c → i = j

theorem QInv.placed (h : s.QInv l) : s.Placed l where
  live q ha := by
    have hp := h.place q ha
    split_ifs at hp with hi
    · exact .inr (.inr ⟨by omega, by omega, hi.1, h.idle q ha hi.1 hi.2⟩)
    · omega
  freed q ha := ⟨List.count_eq_zero.2 fun hm => ha (h.ok.alive q hm), (h.dead q ha).1⟩
  full q hw := by
    have ha : s.alive q := by
      by_contra ha
      exact hw (h.dead q ha).2
    have hp := h.place q ha
    rw [if_neg fun hi => hw (h.idle q ha hi.1 hi.2)] at hp
    omega

theorem PInv.holds_of_serves {p : Proc} {c : ℕ} (h : s.PInv p) (hs : p.serves = some c) :
    0 < p.holds (s.ctx c).queue := by
  cases p <;> simp only [Proc.serves, Option.some.injEq, reduceCtorEq] at hs <;> subst hs <;>
    simp only [Proc.holds, h.1.queue, if_true] <;> omega

theorem Inv.onePlace (h : s.Inv l) : s.OnePlace where
  fault := h.q.ok.fault
  placed := ⟨l, h.q.ok.linked, h.q.placed⟩
  alone i j p p' c hp hp' hs hs' := by
    by_contra hne
    have h1 := (h.p p (List.mem_of_getElem? hp)).holds_of_serves hs
    have h2 := (h.p p' (List.mem_of_getElem? hp')).holds_of_serves hs'
    have h3 := add_le_tally (Proc.holds (s.ctx c).queue) hne hp hp'
    have h4 := h.q.held_le (s.ctx c).queue
    simp only [held] at h4
    omega

/-- In every run of tame steps, each live queue is in exactly one place. -/
theorem onePlace_of_tame (h : machine.Reach Tame s) : s.OnePlace := by
  obtain ⟨l, hi⟩ := Inv.reach h
  exact hi.onePlace

/-- A service is launched and sent a message, which a worker delivers, after which the queue
idles and the service is retired. -/
def servedRun : List Action :=
  [.launch 1 0, .run 0 true, .callback 0 true, .run 0 true, .run 0 true, .run 0 true,
    .push 1 default, .run 1 true, .run 1 true, .worker 0] ++
    List.replicate 8 (.run 2 true) ++ [.retire 1] ++ List.replicate 2 (.run 3 true)

theorem onePlace_servedRun :
    ∃ s, machine.run Tame machine.init servedRun = some s ∧ s.OnePlace := by
  obtain ⟨s, hs⟩ := Option.isSome_iff_exists.1
    (show (machine.run Tame machine.init servedRun).isSome from rfl)
  exact ⟨s, hs, onePlace_of_tame (Machine.reach_of_run hs)⟩

/-- A launch fails and frees its queue; the next context is put where the failed one was, so that
its `queue` still points to what was freed when a message for its handle comes in. -/
def recycledRun : List Action :=
  [.launch 1 0, .run 0 true] ++ List.replicate 7 (.run 0 false) ++
    [.launch 2 0, .push 2 default, .run 2 true]

theorem not_onePlace_recycledRun :
    ∃ s, machine.run (fun _ _ => True) machine.init recycledRun = some s ∧
      machine.Reachable s ∧ s.fault = some .deadQueue ∧ ¬ s.OnePlace := by
  have hrun : ((machine.run (fun _ _ => True) machine.init recycledRun).bind fun s => s.fault)
      = some .deadQueue := rfl
  obtain ⟨s, hs, hf⟩ := Option.bind_eq_some_iff.1 hrun
  refine ⟨s, hs, Machine.reach_of_run hs, hf, fun h => ?_⟩
  have := h.fault
  rw [hf] at this
  cases this

end Server

end SkynetGame
