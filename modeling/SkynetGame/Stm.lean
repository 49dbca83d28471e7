import SkynetGame.Lib.Bytes
import SkynetGame.Lib.RefCount
import SkynetGame.Lib.Run

/-!
# Shared memory objects (`lualib-src/lua-stm.c`)

A writer has an object, whose copy is the message of the latest update; a handle that the writer has
copied is made into a reader, which keeps the copy that it has read last. Nothing is shared between
two objects, so there is one. A step is a section under the object's lock, or an operation on a
count; what a thread does between two of them nobody else sees. A copy is known by its update, and
compared by its address, which may be that of one that has been freed.
-/

namespace SkynetGame

namespace Stm

/-- What must not happen: a freed copy or object is used, or an assertion fails. -/
inductive Fault
  | freed
  | assertion
deriving DecidableEq, Repr

/-- `struct stm_copy`, with the address that it is at. -/
structure Copy where
  sz : ℕ
  msg : Bytes
  addr : ℕ
deriving DecidableEq, Repr

/-- What `lread` returns: false, or what the function makes of a message and its size. -/
inductive Outcome
  | noChange
  | message (msg : Bytes) (sz : ℕ)
deriving DecidableEq, Repr

/-- A read: the latest update when it took the copy, whether the writer had been deleted by then, and
what came of it. -/
structure Read where
  latest : ℕ
  gone : Bool
  outcome : Outcome
deriving DecidableEq, Repr

/-- What the writer's thread does: behind the swap of `stm_update`, or behind the assertion of
`stm_release`. -/
inductive Writer
  | idle
  | updating (oldcopy : Option ℕ)
  | deleting
  | deleted
deriving DecidableEq, Repr

/-- What a reader's thread does: behind `stm_copy`, in front of the call of the function, or behind
`stm_releasereader`. -/
inductive Stage
  | idle
  | took (copy : Option ℕ) (latest : ℕ) (gone : Bool)
  | calling (copy latest : ℕ)
  | closing
  | closed
deriving DecidableEq, Repr

/-- `struct boxreader`, with the reads that it has made. -/
structure Reader where
  stage : Stage
  lastcopy : Option ℕ
  reads : List Read
deriving DecidableEq, Repr

/-- The object, whose value is its copy, and the copies that there have been. -/
structure State where
  obj : Cell (Option ℕ)
  copies : List (Cell Copy)
  writer : Writer
  handles : ℕ
  readers : List Reader
deriving DecidableEq, Repr

/-- Something that is used must not have been freed. -/
def touch {α : Type} : Option α → Except Fault α
  | some a => .ok a
  | none => .error .freed

def assert (p : Prop) [Decidable p] : Except Fault Unit := if p then .ok () else .error .assertion

/-- Where a copy is; `NULL` for none. -/
def addrOf (copies : List (Cell Copy)) (copy : Option ℕ) : Option ℕ :=
  copy.bind fun c => (copies[c]?).map fun k => k.value.addr

/-- `stm_newcopy`, of a message whose size is a `uint32_t`. -/
def stm_newcopy (msg : Bytes) (addr : ℕ) : Cell Copy := .alloc ⟨msg.length % 0x100000000, msg, addr⟩

def stm_new (msg : Bytes) (addr : ℕ) : State :=
  ⟨.alloc (some 0), [stm_newcopy msg addr], .idle, 0, []⟩

def stm_releasecopy (copies : List (Cell Copy)) : Option ℕ → Except Fault (List (Cell Copy))
  | none => .ok copies
  | some c => touch (releaseAt c copies)

namespace State

variable (s : State)

/-- The object is used. -/
def useObj : Except Fault Unit := if s.obj.frees = 0 then .ok () else .error .freed

/-- `stm_grab`, for a handle. -/
def stm_grab : Except Fault State := do
  let obj ← touch s.obj.grab
  assert (0 < s.obj.reference)
  .ok { s with obj := obj, handles := s.handles + 1 }

/-- The section of `stm_update`. -/
def stm_update (msg : Bytes) (addr : ℕ) : Except Fault State := do
  s.useObj
  .ok { s with
    copies := s.copies ++ [stm_newcopy msg addr],
    obj := { s.obj with value := some s.copies.length },
    writer := .updating s.obj.value }

/-- The end of `stm_update`. -/
def stm_updateEnd (oldcopy : Option ℕ) : Except Fault State := do
  let copies ← stm_releasecopy s.copies oldcopy
  .ok { s with copies := copies, writer := .idle }

/-- The assertion of `stm_release`. -/
def stm_release : Except Fault State := do
  s.useObj
  assert (s.obj.value ≠ none)
  .ok { s with writer := .deleting }

/-- The section of `stm_release`. -/
def stm_releaseEnd : Except Fault State := do
  s.useObj
  let copies ← stm_releasecopy s.copies s.obj.value
  .ok { s with
    copies := copies,
    obj := {
      value := none,
      reference := s.obj.reference - 1,
      frees := if 1 < s.obj.reference then s.obj.frees else s.obj.frees + 1 },
    writer := .deleted }

def lnewreader : State :=
  { s with handles := s.handles - 1, readers := s.readers ++ [⟨.idle, none, []⟩] }

/-- `stm_copy`, for the reader `i`. -/
def stm_copy (i : ℕ) (r : Reader) : Except Fault State := do
  s.useObj
  let stage := .took s.obj.value (s.copies.length - 1) (s.writer = .deleted)
  match s.obj.value with
  | none => .ok { s with readers := s.readers.set i { r with stage := stage } }
  | some c => do
    let copies ← touch (grabAt c s.copies)
    assert (∀ k ∈ s.copies[c]?, 0 < k.reference)
    .ok { s with copies := copies, readers := s.readers.set i { r with stage := stage } }

/-- The rest of `lread`, up to the call of the function. -/
def lread (i : ℕ) (r : Reader) (copy : Option ℕ) (latest : ℕ) (gone : Bool) :
    Except Fault State :=
  let reads := r.reads ++ [⟨latest, gone, .noChange⟩]
  if addrOf s.copies copy = addrOf s.copies r.lastcopy then do
    let copies ← stm_releasecopy s.copies copy
    .ok { s with
      copies := copies, readers := s.readers.set i { r with stage := .idle, reads := reads } }
  else do
    let copies ← stm_releasecopy s.copies r.lastcopy
    match copy with
    | none => .ok { s with copies := copies, readers := s.readers.set i ⟨.idle, none, reads⟩ }
    | some c => .ok { s with
        copies := copies, readers := s.readers.set i ⟨.calling c latest, some c, r.reads⟩ }

/-- The function is called with the message of a copy and its size. -/
def call (i : ℕ) (r : Reader) (c latest : ℕ) : Except Fault State := do
  let k ← touch (s.copies[c]?)
  if k.frees = 0 then
    let read := ⟨latest, false, .message k.value.msg k.value.sz⟩
    .ok { s with readers := s.readers.set i { r with stage := .idle, reads := r.reads ++ [read] } }
  else .error .freed

def stm_releasereader (i : ℕ) (r : Reader) : Except Fault State := do
  let obj ← touch s.obj.release
  assert (s.obj.reference = 1 → s.obj.value = none)
  .ok { s with obj := obj, readers := s.readers.set i { r with stage := .closing } }

/-- The end of `ldeletereader`. -/
def ldeletereaderEnd (i : ℕ) (r : Reader) : Except Fault State := do
  let copies ← stm_releasecopy s.copies r.lastcopy
  .ok { s with
    copies := copies,
    readers := s.readers.set i { r with stage := .closed, lastcopy := none } }

end State

/-- The steps: those of the writer, and those of the reader `i`. -/
inductive Event
  | update (msg : Bytes) (addr : ℕ)
  | updateEnd
  | delete
  | deleteEnd
  | copy
  | newreader
  | read (i : ℕ)
  | readEnd (i : ℕ)
  | call (i : ℕ)
  | deletereader (i : ℕ)
  | deletereaderEnd (i : ℕ)
deriving DecidableEq, Repr

/-- A new copy is at an address where nothing is. -/
def State.freshAddr (s : State) (addr : ℕ) : Prop :=
  ∀ k ∈ s.copies, k.frees = 0 → k.value.addr ≠ addr

instance (s : State) (addr : ℕ) : Decidable (s.freshAddr addr) :=
  inferInstanceAs (Decidable (∀ k ∈ s.copies, k.frees = 0 → k.value.addr ≠ addr))

/-- What a step of a thread does, where it is the thread's next one. -/
def State.step (s : State) : Event → Option (Except Fault State)
  | .update msg addr =>
    if s.writer = .idle ∧ s.freshAddr addr then some (s.stm_update msg addr) else none
  | .updateEnd =>
    match s.writer with
    | .updating oldcopy => some (s.stm_updateEnd oldcopy)
    | _ => none
  | .delete => if s.writer = .idle then some s.stm_release else none
  | .deleteEnd => if s.writer = .deleting then some s.stm_releaseEnd else none
  | .copy => if s.writer = .idle then some s.stm_grab else none
  | .newreader => if s.handles ≠ 0 then some (.ok s.lnewreader) else none
  | .read i => (s.readers[i]?).bind fun r =>
    if r.stage = .idle then some (s.stm_copy i r) else none
  | .readEnd i => (s.readers[i]?).bind fun r =>
    match r.stage with
    | .took copy latest gone => some (s.lread i r copy latest gone)
    | _ => none
  | .call i => (s.readers[i]?).bind fun r =>
    match r.stage with
    | .calling c latest => some (s.call i r c latest)
    | _ => none
  | .deletereader i => (s.readers[i]?).bind fun r =>
    if r.stage = .idle then some (s.stm_releasereader i r) else none
  | .deletereaderEnd i => (s.readers[i]?).bind fun r =>
    if r.stage = .closing then some (s.ldeletereaderEnd i r) else none

/-- An object with its first message; a fault ends the run. -/
def machine (msg : Bytes) (addr : ℕ) : Machine (Except Fault State) Event where
  init := .ok (stm_new msg addr)
  step σ e := σ.toOption.bind fun s => s.step e

end Stm

end SkynetGame
