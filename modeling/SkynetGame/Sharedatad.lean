import SkynetGame.Lib.Run
import Mathlib.Data.Int.Notation
import Mathlib.Data.List.Basic

/-!
# Shared data: service/sharedatad.lua and lualib/sharedata.lua

The service keeps the objects of the names, and a count for each object. A client asks for the object
of a name, boxes it and confirms it, and asks with `monitor` for the next one, which it boxes in turn;
what it has no use for any more is released. Evaluating new data may yield, so an update is two steps
here: it takes the old entry out of the pool, and goes on when `CMD.new` ends. Objects are addresses,
which may be given again after they were deleted.
-/

namespace SkynetGame

namespace Sharedatad

/-- The object of a name, and the monitors that wait, each by the closure of `skynet.response`. -/
structure Entry where
  obj : ℕ
  watch : List ℕ
deriving DecidableEq, Repr

/-- An entry of `pool_count` -/
structure Count where
  n : ℕ
  threshold : ℕ
deriving DecidableEq, Repr

/-- What `objmap` has for an object: the table of its entry, or `true`. -/
inductive Mark
  | entry
  | gone
deriving DecidableEq, Repr

/-- An update whose `CMD.new` has not ended, with the entry that it took out of the pool. -/
structure Update (ν : Type*) where
  name : ν
  old : Option Entry
deriving DecidableEq, Repr

structure State (ν : Type*) where
  pool : ν → Option Entry
  poolCount : ν → Option Count
  objmap : ℕ → Option Mark
  ref : ℕ → ℤ
  dirty : ℕ → Bool
  updates : ℕ → Option (Update ν)
  /-- The closures there have been, what each was called with, and those whose service is dead. -/
  asked : ℕ → Bool
  answers : ℕ → List (Option ℕ)
  dead : ℕ → Bool
  /-- The objects given by `query` and not boxed, those boxed and not confirmed, the answers of `monitor`
  not boxed, and the boxes. -/
  given : List ℕ
  confirming : List ℕ
  unboxed : List ℕ
  boxes : List ℕ

variable {ν : Type*}

def State.init : State ν where
  pool _ := none
  poolCount _ := none
  objmap _ := none
  ref _ := 0
  dirty _ := false
  updates _ := none
  asked _ := false
  answers _ := []
  dead _ := false
  given := []
  confirming := []
  unboxed := []
  boxes := []

/-- `sharedata.host.incref` -/
def incref (s : State ν) (obj : ℕ) : State ν :=
  { s with ref := Function.update s.ref obj (s.ref obj + 1) }

/-- `sharedata.host.decref` -/
def decref (s : State ν) (obj : ℕ) : State ν :=
  { s with ref := Function.update s.ref obj (s.ref obj - 1) }

/-- Each response is called with an object or nothing; what is sent to a service that is dead gets lost. -/
def answerAll (s : State ν) (watch : List ℕ) (a : Option ℕ) : State ν :=
  { s with
    answers := fun k => s.answers k ++ List.replicate (watch.count k) a
    unboxed := (watch.filter fun k => !s.dead k).flatMap (fun _ => a.toList) ++ s.unboxed }

variable [DecidableEq ν]

/-- `newobj`, where the name is not in the pool, with the object that `sharedata.host.new` makes. -/
def newobj (s : State ν) (name : ν) (cobj : ℕ) : State ν :=
  { s with
    ref := Function.update s.ref cobj 1
    dirty := Function.update s.dirty cobj false
    objmap := Function.update s.objmap cobj (some .entry)
    pool := Function.update s.pool name (some ⟨cobj, []⟩)
    poolCount := Function.update s.poolCount name (some ⟨0, 16⟩) }

/-- The end of `CMD.new`. Without an object the evaluation, or `sharedata.host.new`, raises an error, and
so does `newobj` for a name in the pool. -/
def cmdNew (s : State ν) (name : ν) (cobj : Option ℕ) : Option (State ν) :=
  match s.pool name, cobj with
  | none, some cobj => some (newobj s name cobj)
  | _, _ => none

/-- An entry leaves the pool, in `CMD.delete` and `CMD.update`. -/
def leave (s : State ν) (name : ν) (v : Entry) : State ν :=
  { decref s v.obj with
    objmap := Function.update s.objmap v.obj (some .gone)
    pool := Function.update s.pool name none
    poolCount := Function.update s.poolCount name none }

/-- `CMD.delete`; its second assertion is about an entry of the pool. -/
def cmdDelete (s : State ν) (name : ν) : State ν :=
  match s.pool name with
  | some v => answerAll (leave s name v) v.watch none
  | none => s

/-- `CMD.query` -/
def cmdQuery (s : State ν) (name : ν) : State ν :=
  match s.pool name with
  | some v => { incref s v.obj with given := v.obj :: s.given }
  | none => s

/-- `CMD.confirm` -/
def cmdConfirm (s : State ν) (cobj : ℕ) : State ν :=
  if (s.objmap cobj).isSome then decref s cobj else s

/-- `CMD.update` up to `CMD.new` -/
def updateBegin (s : State ν) (u : ℕ) (name : ν) : State ν :=
  let old := s.pool name
  let s := match old with
    | some v => leave s name v
    | none => s
  { s with updates := Function.update s.updates u (some ⟨name, old⟩) }

/-- `CMD.update` from the end of `CMD.new` -/
def updateEnd (s : State ν) (u : ℕ) (up : Update ν) (cobj : Option ℕ) : State ν :=
  let s := { s with updates := Function.update s.updates u none }
  match cmdNew s up.name cobj, up.old with
  | some s, some v =>
    answerAll { s with dirty := Function.update s.dirty v.obj true } v.watch
      ((s.pool up.name).map Entry.obj)
  | some s, none => s
  | none, _ => s

/-- `check_watch` and the counts of `CMD.monitor` -/
def checkWatch (s : State ν) (v : Entry) (c : Count) : List ℕ × Count :=
  let n := c.n + 1
  if n > c.threshold then
    let watch := v.watch.filter fun k => !s.dead k
    let n := n - (v.watch.length - watch.length)
    (watch, ⟨n, n * 2⟩)
  else (v.watch, ⟨n, c.threshold⟩)

/-- `CMD.monitor`, with the closure that `skynet.response` makes. -/
def cmdMonitor (s : State ν) (name : ν) (obj k : ℕ) : State ν :=
  match s.pool name, s.poolCount name with
  | some v, some c =>
    if obj ≠ v.obj then { s with unboxed := v.obj :: s.unboxed }
    else
      let (watch, c) := checkWatch s v c
      { s with
        pool := Function.update s.pool name (some ⟨v.obj, watch ++ [k]⟩)
        poolCount := Function.update s.poolCount name (some c)
        asked := Function.update s.asked k true }
  | _, _ => s

/-- Whether a sweep of `collectobj` deletes an object. -/
def State.Collects (s : State ν) (obj : ℕ) : Prop := s.objmap obj = some .gone ∧ s.ref obj ≤ 0

instance (s : State ν) (obj : ℕ) : Decidable (s.Collects obj) :=
  inferInstanceAs (Decidable (s.objmap obj = some .gone ∧ s.ref obj ≤ 0))

/-- A sweep of `collectobj` -/
def collect (s : State ν) : State ν :=
  { s with objmap := fun obj => if s.Collects obj then none else s.objmap obj }

/-- What happens: the requests of the service, an update in two steps; a sweep; a client boxes what
`query` gave it, and sends `confirm`; it boxes an answer of `monitor`, or drops it; it releases a box;
and a service that waits in `monitor` is found dead. -/
inductive Label (ν : Type*)
  | new (name : ν) (cobj : Option ℕ)
  | delete (name : ν)
  | query (name : ν)
  | confirm (cobj : ℕ)
  | updateBegin (u : ℕ) (name : ν)
  | updateEnd (u : ℕ) (cobj : Option ℕ)
  | monitor (name : ν) (obj k : ℕ)
  | collect
  | box (obj : ℕ)
  | take (obj : ℕ)
  | drop (obj : ℕ)
  | release (obj : ℕ)
  | die (k : ℕ)
deriving DecidableEq, Repr

/-- An object that is made is at an address where no other is. -/
def State.Fresh (s : State ν) (cobj : Option ℕ) : Prop := ∀ obj ∈ cobj, s.objmap obj = none

instance (s : State ν) (cobj : Option ℕ) : Decidable (s.Fresh cobj) :=
  inferInstanceAs (Decidable (∀ obj ∈ cobj, s.objmap obj = none))

def step (s : State ν) : Label ν → Option (State ν)
  | .new name cobj => if s.Fresh cobj then some ((cmdNew s name cobj).getD s) else none
  | .delete name => some (cmdDelete s name)
  | .query name => some (cmdQuery s name)
  | .confirm cobj =>
    if cobj ∈ s.confirming then
      some (cmdConfirm { s with confirming := s.confirming.erase cobj } cobj)
    else none
  | .updateBegin u name => if s.updates u = none then some (updateBegin s u name) else none
  | .updateEnd u cobj =>
    match s.updates u with
    | some up => if s.Fresh cobj then some (updateEnd s u up cobj) else none
    | none => none
  | .monitor name obj k => if s.asked k = false then some (cmdMonitor s name obj k) else none
  | .collect => some (collect s)
  | .box obj =>
    if obj ∈ s.given then
      some { incref s obj with
        given := s.given.erase obj
        confirming := obj :: s.confirming
        boxes := obj :: s.boxes }
    else none
  | .take obj =>
    if obj ∈ s.unboxed then
      some { incref s obj with
        unboxed := s.unboxed.erase obj
        boxes := obj :: s.boxes }
    else none
  | .drop obj => if obj ∈ s.unboxed then some { s with unboxed := s.unboxed.erase obj } else none
  | .release obj =>
    if obj ∈ s.boxes then some { decref s obj with boxes := s.boxes.erase obj } else none
  | .die k => some { s with dead := Function.update s.dead k true }

def machine : Machine (State ν) (Label ν) := ⟨.init, step⟩

/-! ## What updates and objects are to be -/

/-- The new object is installed, the old one dirty, and each monitor that waited has it. -/
def Installed (up : Update ν) (t : State ν) : Prop :=
  ∃ obj, t.pool up.name = some ⟨obj, []⟩ ∧ t.objmap obj = some .entry
    ∧ ∀ v, up.old = some v → v.obj ≠ obj ∧ t.objmap v.obj = some .gone ∧ t.dirty v.obj = true
      ∧ ∀ k ∈ v.watch, t.answers k = [some obj]

/-- The name, its object and its monitors are as they were. -/
def Untouched (up : Update ν) (s t : State ν) : Prop :=
  match up.old with
  | some v => t.pool up.name = some v ∧ t.objmap v.obj = some .entry
      ∧ ∀ k ∈ v.watch, t.answers k = []
  | none => t.pool up.name = s.pool up.name ∧ t.objmap = s.objmap ∧ t.answers = s.answers

/-- No object is deleted that is in the pool, or that a client can use; no closure is called twice; and
an update ends as it should. -/
structure Sound (s : State ν) (ok : State ν → Label ν → Prop) : Prop where
  pooled : ∀ name v, s.pool name = some v → s.objmap v.obj = some .entry
  unconfirmed : ∀ obj ∈ s.given ++ s.confirming, s.objmap obj ≠ none
  unboxed : ∀ obj ∈ s.unboxed, s.objmap obj ≠ none
  boxed : ∀ obj ∈ s.boxes, s.objmap obj ≠ none
  once : ∀ k, (s.answers k).length ≤ 1
  updated : ∀ u up cobj t, s.updates u = some up → ok s (.updateEnd u cobj) →
    step s (.updateEnd u cobj) = some t → Installed up t ∨ Untouched up s t

/-- No update of a name that was in the pool fails, for its data or for a name that is there again. No
sweep deletes an object that somebody was given by `monitor` and has not boxed, or that an update has
still to mark. -/
def Tame (s : State ν) : Label ν → Prop
  | .updateEnd u cobj => ∀ up, s.updates u = some up → up.old.isSome = true →
      cobj.isSome = true ∧ s.pool up.name = none
  | .collect => ∀ obj, s.Collects obj → obj ∉ s.unboxed
      ∧ ∀ u up v, s.updates u = some up → up.old = some v → v.obj ≠ obj
  | _ => True

end Sharedatad

end SkynetGame
