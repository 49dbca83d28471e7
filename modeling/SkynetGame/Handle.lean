import SkynetGame.Lib.Run
import SkynetGame.Lib.Bytes
import SkynetGame.Lib.Bisect
import SkynetGame.Lib.Slice

/-!
# The handle table (`skynet_handle.c`) and the launches that fill it

`skynet_context_new` takes two steps: the locked section of `skynet_handle_register`, and the store
of what it returned into `ctx->handle`, which is zero before. In between the table holds a context
that does not know its handle. `skynet_handle_retireall` reads one slot in each locked section and
retires what it found in another; other threads run meanwhile.
-/

namespace SkynetGame

/-- `HANDLE_MASK`. -/
def handleMask : ℕ := 0xffffff

/-- `HANDLE_REMOTE_SHIFT`. -/
def handleRemoteShift : ℕ := 24

/-- `DEFAULT_SLOT_SIZE`. -/
def defaultSlotSize : ℕ := 4

/-- `struct handle_storage`; a slot holds a context or `NULL`. -/
structure HandleStorage where
  harbor : ℕ
  handleIndex : ℕ
  slotSize : ℕ
  slot : ℕ → Option ℕ
  name : List (Bytes × ℕ)

/-- How `skynet_handle_register` can bring the process down. -/
inductive HandleFailure
  -- `assert((s->slot_size*2 - 1) <= HANDLE_MASK)`
  | full
  -- `assert(new_slot[hash] == NULL)`
  | collision
  -- `skynet_context_handle(NULL)`
  | null
  -- the outer loop goes on for ever
  | spin
deriving DecidableEq, Repr

namespace HandleStorage

/-- `skynet_handle_init`. -/
def init (harbor : ℤ) : HandleStorage where
  harbor := (harbor % 256).toNat <<< handleRemoteShift
  handleIndex := 1
  slotSize := defaultSlotSize
  slot := fun _ => none
  name := []

variable (s : HandleStorage)

/-- The slot of a handle. -/
def hash (handle : ℕ) : ℕ := handle &&& (s.slotSize - 1)

/-- The handles that one round of `skynet_handle_register` tries. -/
def candidates : List ℕ :=
  (List.range s.slotSize).map fun i => (i + s.handleIndex) &&& handleMask

/-- The first of them whose slot is free. -/
def probe : Option ℕ := s.candidates.find? fun h => (s.slot (s.hash h)).isNone

/-- The loop that fills `new_slot`; `handle` is `skynet_context_handle`. -/
def rehash (handle : ℕ → ℕ) :
    List ℕ → (ℕ → Option ℕ) → Except HandleFailure (ℕ → Option ℕ)
  | [], newSlot => .ok newSlot
  | i :: is, newSlot =>
    match s.slot i with
    | none => .error .null
    | some ctx =>
      let hash := handle ctx &&& (s.slotSize * 2 - 1)
      match newSlot hash with
      | none => rehash handle is (Function.update newSlot hash (some ctx))
      | some _ => .error .collision

/-- The second half of the outer loop's body: the table at twice the size. -/
def grow (handle : ℕ → ℕ) : Except HandleFailure HandleStorage :=
  if s.slotSize * 2 - 1 ≤ handleMask then
    (s.rehash handle (List.range s.slotSize) fun _ => none).map fun slot =>
      { s with slot := slot, slotSize := s.slotSize * 2 }
  else .error .full

/-- The outer loop of `skynet_handle_register`, at most so many times. -/
def registerLoop (handle : ℕ → ℕ) (ctx : ℕ) :
    ℕ → HandleStorage → Except HandleFailure (HandleStorage × ℕ)
  | 0, _ => .error .spin
  | fuel + 1, s =>
    match s.probe with
    | some h =>
      .ok ({ s with
        slot := Function.update s.slot (s.hash h) (some ctx)
        handleIndex := h + 1 }, h ||| s.harbor)
    | none => (s.grow handle).bind (registerLoop handle ctx fuel)

/-- `skynet_handle_register`. The table can double 22 times. -/
def register (handle : ℕ → ℕ) (ctx : ℕ) : Except HandleFailure (HandleStorage × ℕ) :=
  registerLoop handle ctx 23 s

/-- `skynet_handle_grab`. -/
def grab (handle : ℕ → ℕ) (h : ℕ) : Option ℕ :=
  match s.slot (s.hash h) with
  | some ctx => if handle ctx = h then some ctx else none
  | none => none

/-- `skynet_handle_retire`, with the context that was taken out, `NULL` where it returns 0. -/
def retire (handle : ℕ → ℕ) (h : ℕ) : HandleStorage × Option ℕ :=
  match s.slot (s.hash h) with
  | some ctx =>
    if handle ctx = h then
      ({ s with
        slot := Function.update s.slot (s.hash h) none
        name := s.name.filter fun n => n.2 ≠ h }, some ctx)
    else (s, none)
  | none => (s, none)

end HandleStorage

/-- Where a thread in `skynet_handle_retireall` is. -/
inductive RetireAll
  -- at the head of the inner loop, `n` and `i` as in the code
  | look (n i : ℕ)
  -- it has read a handle: before `skynet_handle_retire`
  | retire (n i handle : ℕ)
  | done
deriving DecidableEq, Repr

/-- The table and who works on it. Contexts are numbered as they are registered: `pending` has
those whose launch is between `skynet_handle_register` and the store, with what was returned to
it, `created` those whose store is done, and `retired` those that were taken out again. -/
structure Handles where
  storage : HandleStorage
  -- the `handle` fields
  handle : ℕ → ℕ
  launched : ℕ
  pending : List (ℕ × ℕ)
  created : List (ℕ × ℕ)
  retired : List ℕ
  retireall : List RetireAll
  failed : Option HandleFailure

namespace Handles

variable (s : Handles)

/-- `skynet_context_new` up to where `skynet_handle_register` returns. -/
def register : Handles :=
  match s.storage.register (Function.update s.handle s.launched 0) s.launched with
  | .ok (storage, h) =>
    { s with
      storage := storage
      handle := Function.update s.handle s.launched 0
      launched := s.launched + 1
      pending := s.pending ++ [(s.launched, h)] }
  | .error e => { s with failed := some e }

/-- The store into `ctx->handle`. -/
def store (ctx h : ℕ) : Handles :=
  { s with
    handle := Function.update s.handle ctx h
    pending := s.pending.erase (ctx, h)
    created := s.created ++ [(ctx, h)] }

def grab (h : ℕ) : Option ℕ := s.storage.grab s.handle h

def retire (h : ℕ) : Handles :=
  let r := s.storage.retire s.handle h
  { s with storage := r.1, retired := s.retired ++ r.2.toList }

/-- The number that `skynet_handle_retire` returns. -/
def retireRet (h : ℕ) : ℕ := if (s.storage.retire s.handle h).2.isSome then 1 else 0

/-- One step of `skynet_handle_retireall`. -/
def retireAllStep (t : ℕ) : RetireAll → Handles
  | .look n i =>
    if i < s.storage.slotSize then
      match s.storage.slot i with
      | some ctx =>
        if s.handle ctx ≠ 0 then
          { s with retireall := s.retireall.set t (.retire n i (s.handle ctx)) }
        else { s with retireall := s.retireall.set t (.look n (i + 1)) }
      | none => { s with retireall := s.retireall.set t (.look n (i + 1)) }
    else { s with retireall := s.retireall.set t (if n = 0 then .done else .look 0 0) }
  | .retire n i h =>
    { s.retire h with retireall := s.retireall.set t (.look (n + s.retireRet h) (i + 1)) }
  | .done => s

inductive Action
  | register
  | store (ctx h : ℕ)
  | retire (h : ℕ)
  | retireall
  | retireallStep (t : ℕ)
deriving DecidableEq, Repr

def step (s : Handles) (a : Action) : Option Handles :=
  if s.failed.isSome then none
  else
    match a with
    | .register => some s.register
    | .store ctx h => if (ctx, h) ∈ s.pending then some (s.store ctx h) else none
    | .retire h => some (s.retire h)
    | .retireall => some { s with retireall := s.retireall ++ [.look 0 0] }
    | .retireallStep t => (s.retireall[t]?).map (s.retireAllStep t)

/-- A node with this harbor, from where `skynet_handle_init` has run. -/
def machine (harbor : ℤ) : Machine Handles Action where
  init := ⟨.init harbor, fun _ => 0, 0, [], [], [], [], none⟩
  step := step

end Handles

/-!
## The names of handles (`skynet_handle.c`)

The array of `struct handle_storage` that is kept sorted by name: names are searched by halving,
inserted by shifting or into a copy twice the size, and those of a handle are squeezed out when it is
retired. Names are C strings, without the zero at their end.
-/

/-- `strcmp`, of unsigned characters. -/
def strcmp : Bytes → Bytes → Ordering
  | [], [] => .eq
  | [], _ :: _ => .lt
  | _ :: _, [] => .gt
  | a :: as, b :: bs => if a = b then strcmp as bs else if a < b then .lt else .gt

/-- `struct handle_name`. -/
structure HandleName where
  name : Bytes
  handle : ℕ
deriving DecidableEq, Repr, Inhabited

/-- `MAX_SLOT_SIZE`. -/
def maxSlotSize : ℕ := 0x40000000

/-- The names of `struct handle_storage`. -/
structure NameStorage where
  nameCap : ℕ
  nameCount : ℕ
  name : ℕ → HandleName

namespace NameStorage

/-- `skynet_handle_init`. -/
def init : NameStorage where
  nameCap := 2
  nameCount := 0
  name := default

variable (s : NameStorage)

/-- The entries of the array that are in use. -/
def entries : List HandleName := slice s.name 0 s.nameCount

/-- The loop that `skynet_handle_findname` and `_insert_name` have both. -/
def search (name : Bytes) : ℕ ⊕ ℕ :=
  bisect (fun i => strcmp (s.name i).name name) (s.nameCount + 1) 0 (s.nameCount - 1)

/-- `skynet_handle_findname`. -/
def findname (name : Bytes) : ℕ :=
  match s.search name with
  | .inl mid => (s.name mid).handle
  | .inr _ => 0

/-- The two loops of `_insert_name_before` that copy to a new array. -/
def copyAround (before : ℕ) : ℕ → HandleName :=
  let n := (List.range before).foldl (fun n i => Function.update n i (s.name i)) default
  (List.range' before (s.nameCount - before)).foldl
    (fun n i => Function.update n (i + 1) (s.name i)) n

/-- The loop of `_insert_name_before` that shifts the entries, from the last one on. -/
def shiftLoop (before : ℕ) : ℕ → (ℕ → HandleName) → ℕ → HandleName
  | 0, name => name
  | i + 1, name =>
    if i + 1 > before then shiftLoop before i (Function.update name (i + 1) (name i)) else name

/-- `_insert_name_before`, with its assertion. -/
def insertNameBefore (name : Bytes) (handle before : ℕ) : Option NameStorage :=
  let r :=
    if s.nameCount ≥ s.nameCap then
      if s.nameCap * 2 ≤ maxSlotSize then some (s.nameCap * 2, s.copyAround before) else none
    else some (s.nameCap, shiftLoop before s.nameCount s.name)
  r.map fun (cap, n) => ⟨cap, s.nameCount + 1, Function.update n before ⟨name, handle⟩⟩

/-- `skynet_handle_namehandle` with `_insert_name`, and whether it does not return `NULL`. -/
def namehandle (handle : ℕ) (name : Bytes) : Option (NameStorage × Bool) :=
  match s.search name with
  | .inl _ => some (s, false)
  | .inr begin => (s.insertNameBefore name handle begin).map fun s => (s, true)

/-- One round of the loop in `skynet_handle_retire`; the array and `j`. -/
def squeeze (handle : ℕ) (st : (ℕ → HandleName) × ℕ) (i : ℕ) : (ℕ → HandleName) × ℕ :=
  if (st.1 i).handle = handle then st
  else (if i ≠ st.2 then Function.update st.1 st.2 (st.1 i) else st.1, st.2 + 1)

/-- What `skynet_handle_retire` does to the names of a handle whose context is in its slot. -/
def retire (handle : ℕ) : NameStorage :=
  let st := (List.range s.nameCount).foldl (squeeze handle) (s.name, 0)
  { s with name := st.1, nameCount := st.2 }

end NameStorage

/-- What changes who has a name. -/
inductive NameCall
  | named (handle : ℕ) (name : Bytes)
  | retired (handle : ℕ)
deriving DecidableEq, Repr

/-- Who has a name after these calls: the first to be registered under it and not retired since. -/
def holder (log : List NameCall) (name : Bytes) : Option ℕ :=
  log.foldl (fun h c => match c with
    | .named handle n => if n = name ∧ h = none then some handle else h
    | .retired handle => if h = some handle then none else h) none

/-- The names, and the calls so far. -/
structure Names where
  storage : NameStorage
  log : List NameCall

namespace Names

/-- The locked sections; a handle is found in its slot, or not. -/
inductive Action
  | namehandle (handle : ℕ) (name : Bytes)
  | retire (handle : ℕ) (found : Bool)
deriving DecidableEq, Repr

def step (s : Names) : Action → Option Names
  | .namehandle handle name =>
    (s.storage.namehandle handle name).map fun (storage, _) =>
      ⟨storage, s.log ++ [.named handle name]⟩
  | .retire handle found =>
    some (if found then ⟨s.storage.retire handle, s.log ++ [.retired handle]⟩ else s)

def machine : Machine Names Action := ⟨⟨.init, []⟩, step⟩

end Names

end SkynetGame
