import Mathlib.Data.List.Basic
import Mathlib.Data.Set.Basic

/-!
# Proxies of a shared configuration (`lualib/sharedata/corelib.lua`)

A client reads the configuration of a host through boxes: one for the root, and one for each table
that was read, which its parent has in its cache. The host makes a new version and marks the old one
dirty; `conf.update` leaves a notice of the version at the `ctrl` of the root box. A read through any
box of an object that is dirty looks for a notice at the `ctrl` of that box, and moves the whole tree
of caches to the version it finds. What has no table there any more is cut off.
-/

namespace SkynetGame

namespace Corelib

/-- What `core.index` gives. -/
inductive Entry (α ω : Type*)
  | nil
  | value (a : α)
  | userdata (o : ω)

/-- The names of the fields of a box: `__obj`, `__gcobj`, `__parent` and `__key`, which each has, and
`__cache`, which a box has with its first child. -/
inductive Field
  | own
  | cache
deriving DecidableEq, Repr

/-- The versions of a configuration and what `sharedata.core` reads of their objects. A table has no
key that is the name of a field. -/
structure Host (κ α ω : Type*) where
  conf : ℕ → ω
  version : ω → ℕ
  index : ω → κ → Entry α ω
  len : ω → ℕ
  nextkey : ω → Option κ → Option κ
  field : κ → Option Field
  version_conf : ∀ v, version (conf v) = v
  version_index : ∀ {o k o'}, index o k = .userdata o' → version o' = version o
  index_field : ∀ {o k}, field k ≠ none → index o k = .nil
  nextkey_field : ∀ {o k k'}, nextkey o k = some k' → field k' = none

/-- How a function ends: it returns, it raises an error, or its calls are too deep. -/
inductive Result (σ ε β : Type*)
  | done (b : β) (s : σ)
  | raised (e : ε) (s : σ)
  | overflow

namespace Result

variable {σ ε β γ : Type*}

def andThen (r : Result σ ε β) (f : β → σ → Result σ ε γ) : Result σ ε γ :=
  match r with
  | .done b s => f b s
  | .raised e s => .raised e s
  | .overflow => .overflow

/-- A loop over a list. -/
def each (f : β → σ → Result σ ε Unit) : List β → σ → Result σ ε Unit
  | [], s => .done () s
  | b :: bs, s => (f b s).andThen fun _ s => each f bs s

/-- The state that is left, that of before for an overflow. -/
def after (r : Result σ ε β) (s : σ) : σ :=
  match r with
  | .done _ s => s
  | .raised _ s => s
  | .overflow => s

/-- The function returns. -/
def isDone : Result σ ε β → Bool
  | .done _ _ => true
  | _ => false

@[simp] theorem done_andThen (b : β) (s : σ) (f : β → σ → Result σ ε γ) :
    (done b s).andThen f = f b s := rfl

@[simp] theorem raised_andThen (e : ε) (s : σ) (f : β → σ → Result σ ε γ) :
    (raised e s).andThen f = .raised e s := rfl

@[simp] theorem after_done (b : β) (s s' : σ) : (done b s : Result σ ε β).after s' = s := rfl

@[simp] theorem after_raised (e : ε) (s s' : σ) : (raised e s : Result σ ε β).after s' = s := rfl

end Result

/-- The errors that are raised. -/
inductive Fault (κ : Type*)
  -- "The key [" .. genkey(self) .. "] doesn't exist after update"
  | notExist (key : List κ)
  -- "Only dirty object can be update"
  | notDirty
  -- "You should update a new object"
  | notNew

/-- The versions of the host that are dirty, the `struct ctrl`s, and the fields of the boxes. Box 0 is
the root, and a box has a parent and a key there unless it is. -/
@[ext]
structure State (κ ω : Type*) where
  current : ℕ
  dirty : ℕ → Bool
  ctrls : ℕ
  root : ℕ → ω
  /-- `c->update` and the `__gcobj` of the user value. -/
  update : ℕ → Option (ω × ℕ)
  boxes : ℕ
  obj : ℕ → ω
  gcobj : ℕ → ℕ
  parent : ℕ → Option (ℕ × κ)
  cache : ℕ → Option (List (κ × ℕ))

variable {κ α ω : Type*}

/-- `findroot`. A box has fewer parents than there are boxes before it. -/
def findrootIn (parent : ℕ → Option (ℕ × κ)) : ℕ → ℕ → ℕ
  | 0, self => self
  | n + 1, self =>
    match parent self with
    | some (p, _) => findrootIn parent n p
    | none => self

def findroot (s : State κ ω) (self : ℕ) : ℕ := findrootIn s.parent self self

/-- The keys of `genkey`. -/
def genkeyIn (parent : ℕ → Option (ℕ × κ)) : ℕ → ℕ → List κ
  | 0, _ => []
  | n + 1, self =>
    match parent self with
    | some (p, k) => genkeyIn parent n p ++ [k]
    | none => []

def genkey (s : State κ ω) (self : ℕ) : List κ := genkeyIn s.parent self self

section Read

variable [DecidableEq κ] [DecidableEq ω] (H : Host κ α ω)

/-- `pairs` goes through a table in some order. -/
def Order (κ : Type*) := { f : List (κ × ℕ) → List (κ × ℕ) // ∀ l, (f l).Perm l }

abbrev Update (κ ω : Type*) := ℕ → ω → ℕ → State κ ω → Result (State κ ω) (Fault κ) Unit

/-- `getcobj`. -/
def getcobjWith (update : Update κ ω) (self : ℕ) (s : State κ ω) :
    Result (State κ ω) (Fault κ) ω :=
  let obj := s.obj self
  if s.dirty (H.version obj) then
    match s.update (s.gcobj self) with
    | some (newobj, newgcobj) =>
      (update (findroot s self) newobj newgcobj s).andThen fun _ s =>
        if obj = s.obj self then .raised (.notExist (genkey s self)) s else .done (s.obj self) s
    | none => .done obj s
  else .done obj s

/-- `self.__cache`. A box without one asks `__index` for it, which finds nothing in the table. -/
def getcacheWith (update : Update κ ω) (self : ℕ) (s : State κ ω) :
    Result (State κ ω) (Fault κ) (Option (List (κ × ℕ))) :=
  match s.cache self with
  | some children => .done (some children) s
  | none => (getcobjWith H update self s).andThen fun _ s => .done none s

/-- The body of the loop of `update`. A field that was cleared before its turn has none. -/
def updateChild (update : Update κ ω) (root : ℕ) (cobj : ω) (gcobj : ℕ) (child : κ × ℕ)
    (s : State κ ω) : Result (State κ ω) (Fault κ) Unit :=
  if child ∈ (s.cache root).getD [] then
    match H.index cobj child.1 with
    | .userdata pointer => update child.2 pointer gcobj s
    | _ => .done () { s with
        cache := Function.update s.cache root
          ((s.cache root).map fun children => children.filter fun e => e.1 ≠ child.1) }
  else .done () s

/-- `update`, that many calls deep at most. -/
def update (pairs : Order κ) : ℕ → Update κ ω
  | 0 => fun _ _ _ _ => .overflow
  | calls + 1 => fun root cobj gcobj s =>
    (getcacheWith H (update pairs calls) root { s with
      obj := Function.update s.obj root cobj
      gcobj := Function.update s.gcobj root gcobj }).andThen fun children s =>
        Result.each (updateChild H (update pairs calls) root cobj gcobj)
          (pairs.1 (children.getD [])) s

variable (pairs : Order κ) (calls : ℕ)

def getcobj : ℕ → State κ ω → Result (State κ ω) (Fault κ) ω :=
  getcobjWith H (update H pairs calls)

/-- What a read gives; a key comes with its value. -/
inductive Answer (κ α : Type*)
  | nil
  | value (a : α)
  | box (b : ℕ)
  | field
  | length (n : ℕ)
  | pair (k : κ) (a : Answer κ α)

/-- The end of `meta.__index`, for a table: the child that is in the cache, or a new one. -/
def child (self : ℕ) (key : κ) (v : ω) (children : List (κ × ℕ)) (s : State κ ω) :
    Result (State κ ω) (Fault κ) (Answer κ α) :=
  match children.find? fun e => e.1 = key with
  | some e => .done (.box e.2) { s with cache := Function.update s.cache self (some children) }
  | none => .done (.box s.boxes) { s with
      boxes := s.boxes + 1
      obj := Function.update s.obj s.boxes v
      gcobj := Function.update s.gcobj s.boxes (s.gcobj self)
      parent := Function.update s.parent s.boxes (some (self, key))
      cache := Function.update (Function.update s.cache self (some (children ++ [(key, s.boxes)])))
        s.boxes none }

/-- `meta.__index`. -/
def metaIndex (self : ℕ) (key : κ) (s : State κ ω) : Result (State κ ω) (Fault κ) (Answer κ α) :=
  (getcobj H pairs calls self s).andThen fun obj s =>
    match H.index obj key with
    | .userdata v =>
      (getcacheWith H (update H pairs calls) self s).andThen fun children s =>
        child self key v (children.getD []) s
    | .value a => .done (.value a) s
    | .nil => .done .nil s

/-- `self[key]`. The fields of the box come first. -/
def gettable (self : ℕ) (key : κ) (s : State κ ω) : Result (State κ ω) (Fault κ) (Answer κ α) :=
  match H.field key, s.cache self with
  | some .own, _ | some .cache, some _ => .done .field s
  | _, _ => metaIndex H pairs calls self key s

/-- `meta.__len`. -/
def metaLen (self : ℕ) (s : State κ ω) : Result (State κ ω) (Fault κ) (Answer κ α) :=
  (getcobj H pairs calls self s).andThen fun obj s => .done (.length (H.len obj)) s

/-- `conf.next`. -/
def next (self : ℕ) (key : Option κ) (s : State κ ω) :
    Result (State κ ω) (Fault κ) (Answer κ α) :=
  (getcobj H pairs calls self s).andThen fun cobj s =>
    match H.nextkey cobj key with
    | some nextkey =>
      (gettable H pairs calls self nextkey s).andThen fun v s => .done (.pair nextkey v) s
    | none => .done .nil s

/-- `conf.box`, of a version; another may be the newest one, and those before it are dirty. -/
def box (v current : ℕ) : State κ ω where
  current := current
  dirty w := w < current
  ctrls := 1
  root _ := H.conf v
  update _ := none
  boxes := 1
  obj _ := H.conf v
  gcobj _ := 0
  parent _ := none
  cache _ := none

/-- `conf.update` of the root box, with the object of a version. -/
def confUpdate (v : ℕ) (s : State κ ω) : Result (State κ ω) (Fault κ) Unit :=
  if s.dirty (H.version (s.obj 0)) then
    let s' := { s with
      ctrls := s.ctrls + 1
      root := Function.update s.root s.ctrls (H.conf v)
      update := Function.update s.update s.ctrls none }
    if s.root (s.gcobj 0) = H.conf v then .raised .notNew s'
    else .done () { s' with
      update := Function.update s'.update (s.gcobj 0) (some (H.conf v, s.ctrls)) }
  else .raised .notDirty s

/-- `CMD.update` of the host, as far as the boxes see it. -/
def hostUpdate (s : State κ ω) : State κ ω :=
  { s with current := s.current + 1, dirty := Function.update s.dirty s.current true }

end Read

/-- What a box is asked for. -/
inductive Read (κ : Type*)
  | index (key : κ)
  | len
  | next (key : Option κ)

section Observe

variable [DecidableEq κ] [DecidableEq ω] (H : Host κ α ω)

def read (pairs : Order κ) (calls self : ℕ) :
    Read κ → State κ ω → Result (State κ ω) (Fault κ) (Answer κ α)
  | .index key => gettable H pairs calls self key
  | .len => metaLen H pairs calls self
  | .next key => next H pairs calls self key

/-- What happens: the host makes a version, the root box gets the notice of one, or a box is read. -/
inductive Event (κ : Type*)
  | host
  | notice (v : ℕ)
  | read (pairs : Order κ) (calls self : ℕ) (r : Read κ)

def step : Event κ → State κ ω → State κ ω
  | .host, s => hostUpdate s
  | .notice v, s => (confUpdate H v s).after s
  | .read pairs calls self r, s => (read H pairs calls self r s).after s

end Observe

end Corelib

end SkynetGame
