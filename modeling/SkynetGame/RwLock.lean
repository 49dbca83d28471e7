import SkynetGame.Lib.Run
import Mathlib.Data.Nat.Notation

/-!
# The lock of the handle table (`rwlock.h`)

A step is one access of one thread: to `write` or `read` in the code of the lock, or to what the lock
protects. The accesses of all threads come in one order, as the `__sync` builtins promise it for
theirs; a thread that has to wait reads the same field again.
-/

namespace SkynetGame

namespace RwLock

/-- Where a thread is. Inside of a section it has what was protected when the section began. -/
inductive Pc (σ : Type)
  | out
  -- `rwlock_rlock`: at `while(lock->write)`, the addition, `if (lock->write)`, the subtraction
  | rspin
  | radd
  | rtest
  | rback
  | reading (start : σ)
  -- `rwlock_wlock`: at `__sync_lock_test_and_set`, at `while(lock->read)`
  | wset
  | wspin
  | writing (start : σ)

/-- A section that has ended, with what was protected at its start and at its end. -/
structure Section (σ : Type) where
  writes : Bool
  start : σ
  stop : σ

/-- `struct rwlock`, the threads, what is protected, and the sections in the order of their ends. -/
structure State (σ : Type) where
  write : ℕ
  read : BitVec 32
  pc : List (Pc σ)
  data : σ
  history : List (Section σ)

variable {σ : Type}

/-- `rwlock_init`, by one of `threads` threads. -/
def State.init (threads : ℕ) (data : σ) : State σ where
  write := 0
  read := 0
  pc := List.replicate threads .out
  data := data
  history := []

namespace State

variable (s : State σ) (i : ℕ)

/-- Thread `i` is at `pc`. -/
def At (pc : Pc σ) : Prop := s.pc[i]? = some pc

def goto (pc : Pc σ) : State σ := { s with pc := s.pc.set i pc }

/-- The section of a thread is over. -/
def leave (writes : Bool) (start : σ) : State σ :=
  { s with history := s.history.concat ⟨writes, start, s.data⟩ }.goto i .out

/-- The next access in `rwlock_rlock` or `rwlock_wlock`. -/
def next : Pc σ → Option (State σ)
  | .rspin => some (if s.write ≠ 0 then s else s.goto i .radd)
  | .radd => some ({ s with read := s.read + 1 }.goto i .rtest)
  | .rtest => some (s.goto i (if s.write ≠ 0 then .rback else .reading s.data))
  | .rback => some ({ s with read := s.read - 1 }.goto i .rspin)
  | .wset => some ({ s with write := 1 }.goto i (if s.write ≠ 0 then .wset else .wspin))
  | .wspin => some (if s.read ≠ 0 then s else s.goto i (.writing s.data))
  | _ => none

end State

/-- What a thread does: it calls a function of the lock, takes its next access there, or stores
something into what is protected. -/
inductive Act (σ : Type)
  | rlock
  | wlock
  | next
  | store (data : σ)
  | runlock
  | wunlock

def act (s : State σ) (i : ℕ) : Act σ → Pc σ → Option (State σ)
  | .rlock, .out => some (s.goto i .rspin)
  | .wlock, .out => some (s.goto i .wset)
  | .next, pc => s.next i pc
  | .store data, .writing _ => some { s with data := data }
  | .runlock, .reading start => some ({ s with read := s.read - 1 }.leave i false start)
  | .wunlock, .writing start => some ({ s with write := 0 }.leave i true start)
  | _, _ => none

/-- A step of thread `l.1`. -/
def step (s : State σ) (l : ℕ × Act σ) : Option (State σ) := s.pc[l.1]?.bind (act s l.1 l.2)

def machine (threads : ℕ) (data : σ) : Machine (State σ) (ℕ × Act σ) := ⟨.init threads data, step⟩

/-- Sections one after the other: each starts with what the one before left, and one that only reads
leaves that. -/
def Serial : σ → List (Section σ) → σ → Prop
  | d, [], last => d = last
  | d, a :: as, last => a.start = d ∧ (a.writes = false → a.stop = d) ∧ Serial a.stop as last

/-- A thread that writes is alone in its section. The sections that have ended come one after the
other, and one that has not started with what the last of them left; what is protected is that, as
long as somebody reads. Where a thread is not out of the lock, one can do more than wait. -/
structure Sound (data : σ) (s : State σ) : Prop where
  alone : ∀ i j b c, s.At i (.writing b) → i ≠ j → ¬ s.At j (.writing c) ∧ ¬ s.At j (.reading c)
  serial : ∃ last, Serial data s.history last ∧ (∀ i b, s.At i (.writing b) → b = last)
    ∧ ∀ i b, s.At i (.reading b) → b = last ∧ s.data = last
  live : (∃ p ∈ s.pc, p ≠ .out) → ∃ l s', ¬ s.At l.1 .out ∧ step s l = some s' ∧ s'.pc ≠ s.pc

end RwLock

end SkynetGame
