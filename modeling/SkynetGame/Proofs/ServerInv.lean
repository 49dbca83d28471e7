import SkynetGame.Server
import SkynetGame.Proofs.Mq

/-!
# Who holds what in the runtime

Every live queue is in the global list or held by a process exactly once, unless it idles:
`in_global` clear, not marked for release, empty and held by nobody (`QInv.place`). A context's
`ref` counts its place in the handle table and the references that processes hold, and the
process that takes it to zero is the one that deletes it (`CInv`).
-/

namespace SkynetGame

namespace Proc

/-- How often a call holds queue `x`. -/
def holds (x : ℕ) : Proc → ℕ
  | worker _ q => if q = some x then 1 else 0
  | grab _ q | loop _ q _ _ _ | popped _ q _ _ _ _ | overload _ q _ _ _ _ | dispatch _ q _ _ _ _
  | call _ q _ _ _ | starting _ q | started _ q | publish q | failDelete _ _ q
  | failRetire _ _ q => if q = x then 1 else 0
  | requeue _ q _ nq => (if q = x then 1 else 0) + if nq = x then 1 else 0
  | mqRelease q k | drop q k | free q k => (if q = x then 1 else 0) + k.holds x
  | release _ k | delete _ k => k.holds x
  | turnPop _ | pushing _ _ | holding _ | registered _ | done => 0

/-- How many references to context `x` a call has to give back. -/
def refs (x : ℕ) : Proc → ℕ
  | loop _ _ c _ _ | popped _ _ c _ _ _ | overload _ _ c _ _ _ | dispatch _ _ c _ _ _
  | call _ _ c _ _ | requeue _ _ c _ | pushing c _ | holding c | registered c
  | starting c _ => if c = x then 1 else 0
  | release c k => (if c = x then 1 else 0) + k.refs x
  | mqRelease _ k | drop _ k | free _ k | delete _ k => k.refs x
  | _ => 0

/-- Whether a call is about to delete context `x`. -/
def deletes (x : ℕ) : Proc → ℕ
  | delete c k => (if c = x then 1 else 0) + k.deletes x
  | failDelete c _ _ => if c = x then 1 else 0
  | mqRelease _ k | drop _ k | free _ k | release _ k => k.deletes x
  | _ => 0

/-- Whether a call has registered context `x` and not yet stored its queue. -/
def forms (x : ℕ) : Proc → ℕ
  | registered c => if c = x then 1 else 0
  | mqRelease _ k | drop _ k | free _ k | release _ k | delete _ k => k.forms x
  | _ => 0

/-- Whether a call is the `skynet_context_new` of context `x`, up to its `ctx->init = true`
or its `skynet_handle_retire`. -/
def launches (x : ℕ) : Proc → ℕ
  | registered c | starting c _ | started c _ | failDelete c _ _ | failRetire c _ _ =>
    if c = x then 1 else 0
  | mqRelease _ k | drop _ k | free _ k | release _ k | delete _ k => k.launches x
  | _ => 0

theorem forms_le_launches (x : ℕ) (p : Proc) : p.forms x ≤ p.launches x := by
  induction p <;> simp [forms, launches, *]

theorem forms_le_refs (x : ℕ) (p : Proc) : p.forms x ≤ p.refs x := by
  induction p <;> simp [forms, refs, *]
  case release c k ih => omega

end Proc

namespace Server

/-- How often the running calls hold queue `q`. -/
def held (s : Server) (q : ℕ) : ℕ := tally (Proc.holds q) s.procs

/-- How many references to context `c` the running calls have to give back. -/
def refs (s : Server) (c : ℕ) : ℕ := tally (Proc.refs c) s.procs

def deletes (s : Server) (c : ℕ) : ℕ := tally (Proc.deletes c) s.procs

def forms (s : Server) (c : ℕ) : ℕ := tally (Proc.forms c) s.procs

def launches (s : Server) (c : ℕ) : ℕ := tally (Proc.launches c) s.procs

/-- How often the handle table refers to context `c`. -/
def listed (s : Server) (c : ℕ) : ℕ := if s.slot (s.ctx c).handle = some c then 1 else 0

/-- Where the live queues are, with `l` the global list. -/
structure QInv (s : Server) (l : List ℕ) : Prop where
  ok : s.toMqMem.Ok l
  place : ∀ q, s.alive q → s.held q + l.count q
    = if (s.mq q).inGlobal = 0 ∧ (s.mq q).release = 0 then 0 else 1
  flag : ∀ q, s.alive q → (s.mq q).inGlobal ≤ mqInGlobal
  idle : ∀ q, s.alive q → (s.mq q).inGlobal = 0 → (s.mq q).release = 0 → (s.mq q).waiting = []
  dead : ∀ q, ¬ s.alive q → s.held q = 0 ∧ (s.mq q).waiting = []

structure CInv (s : Server) : Prop where
  ref : ∀ c, (s.ctx c).freed = false → (s.ctx c).ref = s.listed c + s.refs c
  del : ∀ c, (s.ctx c).freed = false → s.deletes c = if (s.ctx c).ref = 0 then 1 else 0
  gone : ∀ c, (s.ctx c).freed = true → s.refs c = 0 ∧ s.deletes c = 0
  lt : ∀ c, (s.ctx c).freed = false → c < s.nctx
  slot : ∀ h c, s.slot h = some c → (s.ctx c).freed = false ∧ (s.ctx c).handle = h

/-- A context that can be found under its handle and is not launching any more has `init` set. -/
structure LInv (s : Server) : Prop where
  one : ∀ c, s.launches c ≤ 1
  fresh : ∀ c, s.nctx ≤ c → s.launches c = 0
  init : ∀ h c, s.slot h = some c → s.forms c = 0 → (s.ctx c).init = false → 0 < s.launches c

/-- A live context whose queue is stored owns it, and the queue is not marked for release. -/
structure OInv (s : Server) : Prop where
  owner : ∀ c, (s.ctx c).freed = false → s.forms c = 0 →
    s.alive (s.ctx c).queue ∧ (s.mq (s.ctx c).queue).release = 0
  inj : ∀ c c', (s.ctx c).freed = false → (s.ctx c').freed = false → s.forms c = 0 →
    s.forms c' = 0 → (s.ctx c).queue = (s.ctx c').queue → c = c'

/-- Context `c` has stored `q` as its queue. -/
structure Has (s : Server) (c q : ℕ) : Prop where
  lt : c < s.nctx
  formed : s.forms c = 0
  queue : (s.ctx c).queue = q

/-- What a call relies on where it stands. -/
def PInv (s : Server) : Proc → Prop
  | .loop _ q c _ _ | .popped _ q c _ _ _ | .overload _ q c _ _ _ | .dispatch _ q c _ _ _
  | .call _ q c _ _ | .requeue _ q c _ => s.Has c q ∧ (s.ctx c).init = true
  | .mqRelease _ k | .release _ k | .delete _ k => s.PInv k
  | .drop q k => (q < s.nmq ∧ (s.mq q).release ≠ 0) ∧ s.PInv k
  | .free q k => (q < s.nmq ∧ (s.mq q).release ≠ 0) ∧ (s.mq q).waiting = [] ∧ s.PInv k
  | .registered c => c < s.nctx
  | .starting c q | .started c q => s.Has c q
  | .failDelete c h q | .failRetire c h q => s.Has c q ∧ (s.ctx c).handle = h
  | _ => True

/-- The invariant of the runtime, with `l` the global list. -/
structure Inv (s : Server) (l : List ℕ) : Prop where
  q : s.QInv l
  c : s.CInv
  l : s.LInv
  o : s.OInv
  p : ∀ p ∈ s.procs, s.PInv p

/-- The step in which a call at `p` goes on to `p'`, seen from what the calls hold; `p` is
`done` for a call that starts. -/
structure Moves (s s' : Server) (p p' : Proc) : Prop where
  mem : p ∈ s.procs ∨ p = .done
  old : ∀ y ∈ s'.procs, y ∈ s.procs ∨ y = p'
  held : ∀ x, s'.held x + p.holds x = s.held x + p'.holds x
  refs : ∀ x, s'.refs x + p.refs x = s.refs x + p'.refs x
  deletes : ∀ x, s'.deletes x + p.deletes x = s.deletes x + p'.deletes x
  forms : ∀ x, s'.forms x + p.forms x = s.forms x + p'.forms x
  launches : ∀ x, s'.launches x + p.launches x = s.launches x + p'.launches x

/-- What no step takes back, for the calls that did not take it. -/
structure Later (s s' : Server) : Prop where
  nctx : s.nctx ≤ s'.nctx
  handle : ∀ c, c < s.nctx → (s'.ctx c).handle = (s.ctx c).handle
  init : ∀ c, c < s.nctx → (s.ctx c).init = true → (s'.ctx c).init = true
  queue : ∀ c, c < s.nctx → s.forms c = 0 →
    s'.forms c = 0 ∧ (s'.ctx c).queue = (s.ctx c).queue
  nmq : s.nmq ≤ s'.nmq
  release : ∀ q, q < s.nmq → (s.mq q).release ≠ 0 →
    (s'.mq q).release ≠ 0 ∧ ((s.mq q).waiting = [] → (s'.mq q).waiting = [])

/-- A step that keeps the invariant and takes nothing back, with `l'` the global list after it. -/
structure Keeps (s s' : Server) (l' : List ℕ) : Prop where
  inv : s'.Inv l'
  later : Later s s'

section Moves

variable {s s' : Server} {p p' : Proc}

theorem moves_run {t : ℕ} (h : s.procs[t]? = some p) (hp : s'.procs = s.procs.set t p') :
    Moves s s' p p' where
  mem := .inl (List.mem_of_getElem? h)
  old := by
    intro y hy
    rw [hp] at hy
    exact List.mem_or_eq_of_mem_set hy
  held x := by simpa [Server.held, hp] using tally_set (Proc.holds x) h p'
  refs x := by simpa [Server.refs, hp] using tally_set (Proc.refs x) h p'
  deletes x := by simpa [Server.deletes, hp] using tally_set (Proc.deletes x) h p'
  forms x := by simpa [Server.forms, hp] using tally_set (Proc.forms x) h p'
  launches x := by simpa [Server.launches, hp] using tally_set (Proc.launches x) h p'

theorem moves_spawn (hp : s'.procs = s.procs ++ [p']) : Moves s s' .done p' where
  mem := .inr rfl
  old := by
    intro y hy
    rw [hp] at hy
    simpa using hy
  held x := by simp [Server.held, hp, Proc.holds]
  refs x := by simp [Server.refs, hp, Proc.refs]
  deletes x := by simp [Server.deletes, hp, Proc.deletes]
  forms x := by simp [Server.forms, hp, Proc.forms]
  launches x := by simp [Server.launches, hp, Proc.launches]

theorem moves_stay (hp : s'.procs = s.procs) : Moves s s' .done .done where
  mem := .inr rfl
  old := fun y hy => .inl (hp ▸ hy)
  held x := by simp [Server.held, hp]
  refs x := by simp [Server.refs, hp]
  deletes x := by simp [Server.deletes, hp]
  forms x := by simp [Server.forms, hp]
  launches x := by simp [Server.launches, hp]

namespace Moves

variable (h : Moves s s' p p')
include h

end Moves

theorem forms_le_launches (s : Server) (c : ℕ) : s.forms c ≤ s.launches c :=
  tally_le_tally (Proc.forms_le_launches c) _

theorem forms_le_refs (s : Server) (c : ℕ) : s.forms c ≤ s.refs c :=
  tally_le_tally (Proc.forms_le_refs c) _

theorem Has.later {c q : ℕ} (h : s.Has c q) (hl : Later s s') : s'.Has c q := by
  obtain ⟨h1, h2⟩ := hl.queue c h.lt h.formed
  exact ⟨lt_of_lt_of_le h.lt hl.nctx, h1, h2.trans h.queue⟩

theorem PInv.later (hl : Later s s') : ∀ {p : Proc}, s.PInv p → s'.PInv p
  | .loop .., h | .popped .., h | .overload .., h | .dispatch .., h | .call .., h
  | .requeue .., h => ⟨h.1.later hl, hl.init _ h.1.lt h.2⟩
  | .mqRelease _ k, h | .release _ k, h | .delete _ k, h => PInv.later hl (p := k) h
  | .drop q k, h =>
    ⟨⟨h.1.1.trans_le hl.nmq, (hl.release q h.1.1 h.1.2).1⟩, PInv.later hl (p := k) h.2⟩
  | .free q k, h =>
    ⟨⟨h.1.1.trans_le hl.nmq, (hl.release q h.1.1 h.1.2).1⟩,
      (hl.release q h.1.1 h.1.2).2 h.2.1, PInv.later hl (p := k) h.2.2⟩
  | .registered _, h => lt_of_lt_of_le h hl.nctx
  | .starting .., h | .started .., h => Has.later h hl
  | .failDelete .., h | .failRetire .., h =>
    ⟨h.1.later hl, (hl.handle _ h.1.lt).trans h.2⟩
  | .worker .., _ | .turnPop _, _ | .grab .., _ | .pushing .., _ | .holding _, _
  | .publish _, _ | .done, _ => trivial

theorem PInv.all (hp : ∀ p ∈ s.procs, s.PInv p) (hm : Moves s s' p p') (hl : Later s s')
    (hp' : s'.PInv p') : ∀ y ∈ s'.procs, s'.PInv y := by
  intro y hy
  rcases hm.old y hy with hy | rfl
  · exact (hp y hy).later hl
  · exact hp'

end Moves

end Server

end SkynetGame
