import SkynetGame.Lib.Run
import SkynetGame.Lib.Bytes

/-!
# The data center (`datacenterd.lua`)

Values and waiters stand in two trees, `database` and `wait_queue`. A path is the keys of a request;
a key is what a Lua table can have as one. A waiter is the `skynet.response` of a WAIT, numbered as
they are made; the record of the answers has the value that the path holds then.
-/

namespace SkynetGame

/-- A value that a Lua table can have as a key. -/
inductive Key
  | bool (b : Bool)
  | int (n : ℤ)
  -- a float that stands for no integer, by its bits
  | float (bits : UInt64)
  | string (s : Bytes)
  | object (n : ℕ)
  deriving DecidableEq, Repr

namespace DataCenter

/-- A Lua value other than `nil`. -/
inductive Value
  | scalar (k : Key)
  | nan
  | table (t : Key → Option Value)

abbrev Table := Key → Option Value

/-- A node of `wait_queue`, by its `mode`. -/
inductive Wait
  | queue (q : List ℕ)
  | branch (b : Key → Option Wait)

abbrev Waits := Key → Option Wait

def empty {α : Type} : Key → Option α := fun _ => none

/-- The functions of the string library, which an index of a string finds. -/
def stringLibrary : List Key :=
  ["byte", "char", "dump", "find", "format", "gmatch", "gsub", "len", "lower", "match", "pack",
    "packsize", "rep", "reverse", "sub", "unpack", "upper"].map fun s => .string (Bytes.ascii s)

/-- `v[key]`; `none` stands for an error. A function is one too: it can be neither indexed nor
packed. -/
def index : Value → Key → Option (Option Value)
  | .table t, key => some (t key)
  | .scalar (.string _), key => if key ∈ stringLibrary then none else some none
  | .scalar _, _ | .nan, _ => none

def truthy : Option Value → Bool
  | none => false
  | some (.scalar (.bool b)) => b
  | some _ => true

def query : Value → List Key → Option (Option Value)
  | db, [] => some (some db)
  | db, key :: keys =>
    match index db key with
    | none => none
    | some none => if keys = [] then some none else none
    | some (some d) => query d keys

/-- `update`: the table, and what the path had before; `none` stands for an error. -/
def update (value : Option Value) : Table → List Key → Option (Table × Option Value)
  | _, [] => none
  | db, [key] => some (Function.update db key value, db key)
  | db, key :: key' :: keys =>
    match db key with
    | none => (update value empty (key' :: keys)).map fun r =>
      (Function.update db key (some (.table r.1)), r.2)
    | some (.table t) => (update value t (key' :: keys)).map fun r =>
      (Function.update db key (some (.table r.1)), r.2)
    | some (.scalar _) | some .nan => none

/-- Whom an update wakes up. -/
inductive Woken
  | nobody
  | queue (q : List ℕ)
  -- `response(false)`
  | failed (q : List ℕ)

/-- `wakeup`; behind the keys of the path comes the value, as one more key. -/
def wakeup (value : Value) : Waits → List Key → Waits × Woken
  | db, [] =>
    match value with
    | .scalar key =>
      match db key with
      | some (.queue q) => (Function.update db key none, .failed q)
      | some (.branch _) | none => (db, .nobody)
    | .nan | .table _ => (db, .nobody)
  | db, key :: keys =>
    match db key with
    | none => (db, .nobody)
    | some (.queue q) =>
      (Function.update db key none, if keys = [] then .queue q else .failed q)
    | some (.branch b) =>
      let r := wakeup value b keys
      (Function.update db key (some (.branch r.1)), r.2)

/-- `waitfor`; `none` stands for a failed assertion. -/
def waitfor (response : ℕ) : Waits → List Key → Option Waits
  | _, [] => none
  | db, [key] =>
    match db key with
    | none => some (Function.update db key (some (.queue [response])))
    | some (.queue q) => some (Function.update db key (some (.queue (q ++ [response]))))
    | some (.branch _) => none
  | db, key :: key' :: keys =>
    match db key with
    | none => (waitfor response empty (key' :: keys)).map fun b =>
      Function.update db key (some (.branch b))
    | some (.branch b) => (waitfor response b (key' :: keys)).map fun b =>
      Function.update db key (some (.branch b))
    | some (.queue _) => none

/-- What a path holds. -/
def Value.get : Value → List Key → Option Value
  | v, [] => some v
  | .table t, key :: keys =>
    match t key with
    | none => none
    | some v => v.get keys
  | .scalar _, _ :: _ | .nan, _ :: _ => none

/-- The answer to a waiter: `response(true, value)`, or `response(false)`. -/
structure Answer where
  waiter : ℕ
  response : Option Value
  present : Option Value

end DataCenter

open DataCenter

/-- The service. `failed` has the paths of the WAITs that ended with an error, with what they
held. -/
structure DataCenter where
  database : Table
  waitQueue : Waits
  asked : List (List Key)
  answers : List Answer
  failed : List (List Key × Option Value)

namespace DataCenter

variable (s : DataCenter)

/-- What a path holds. -/
def get (path : List Key) : Option Value := (Value.table s.database).get path

/-- `command.QUERY`. -/
def queryCommand (key : Key) (keys : List Key) : Option (Option Value) :=
  if truthy (s.database key) then (s.database key).bind fun d => query d keys
  else some none

/-- The responses to the waiters of a queue. -/
def answer (q : List ℕ) (response : Option Value) : DataCenter :=
  { s with
    answers := s.answers ++ q.map fun i => ⟨i, response, s.get ((s.asked[i]?).getD [])⟩ }

/-- `command.UPDATE`, with what it returns; `none` stands for an error. -/
def updateCommand (path : List Key) (value : Option Value) : DataCenter × Option (Option Value) :=
  match update value s.database path with
  | none => (s, none)
  | some (database, ret) =>
    let s := { s with database := database }
    match value with
    | none => (s, some ret)
    | some value =>
      if truthy ret then (s, some ret)
      else
        let r := wakeup value s.waitQueue path
        let s := { s with waitQueue := r.1 }
        match r.2 with
        | .nobody => (s, some none)
        | .queue q => (s.answer q (some value), some none)
        | .failed q => (s.answer q none, some none)

/-- WAIT. -/
def wait (key : Key) (keys : List Key) : DataCenter :=
  match s.queryCommand key keys with
  | none => { s with failed := s.failed ++ [(key :: keys, s.get (key :: keys))] }
  | some ret =>
    if truthy ret then s
    else
      match waitfor s.asked.length s.waitQueue (key :: keys) with
      | none => { s with failed := s.failed ++ [(key :: keys, s.get (key :: keys))] }
      | some waitQueue =>
        { s with
          waitQueue := waitQueue
          asked := s.asked ++ [key :: keys] }

inductive Request
  | query (key : Key) (keys : List Key)
  | update (key : Key) (keys : List Key) (value : Option Value)
  | wait (key : Key) (keys : List Key)

def step (s : DataCenter) : Request → Option DataCenter
  | .query _ _ => some s
  | .update key keys value => some (s.updateCommand (key :: keys) value).1
  | .wait key keys => some (s.wait key keys)

def machine : Machine DataCenter Request where
  init := ⟨empty, empty, [], [], []⟩
  step := step

/-! ## The values by their paths -/

/-- A value, unless it is a table. -/
def leaf : Option Value → Option Value
  | some (.table _) => none
  | v => v

/-- What there is under each path, without the tables. -/
abbrev Flat := List Key → Option Value

/-- No value stands on the way to a path. -/
def Flat.isOpen (f : Flat) (path : List Key) : Bool :=
  (List.range path.length).all fun n => (f (path.take n)).isNone

/-- A path and what is below it become what the value has there. -/
def Flat.put (f : Flat) (path : List Key) (value : Option Value) : Flat := fun p =>
  if path <+: p then leaf (value.bind fun v => v.get (p.drop path.length)) else f p

def Flat.step (f : Flat) : Request → Flat
  | .update key keys value =>
    if f.isOpen (key :: keys) then f.put (key :: keys) value else f
  | .query _ _ | .wait _ _ => f

/-- A value that is returned is the one of the path: it has the same below it. `false` is taken for
`nil`. -/
def Flat.Holds (f : Flat) (path : List Key) (ret : Option Value) : Prop :=
  (∀ q, leaf (ret.bind fun v => v.get q) = f (path ++ q)) ∨
    ret = none ∧ f path = some (.scalar (.bool false))

/-- What a request returns: `none` is an error. -/
def reply (s : DataCenter) : Request → Option (Option Value)
  | .query key keys => s.queryCommand key keys
  | .update key keys value => (s.updateCommand (key :: keys) value).2
  | .wait _ _ => none

/-- A query that goes through returns what the path holds, and does so where that is no table; an update
fails just if a value stands on the way, and otherwise returns what it replaces. -/
def Flat.Answers (f : Flat) (r : Option (Option Value)) : Request → Prop
  | .query key keys => (∀ ret, r = some ret → f.Holds (key :: keys) ret) ∧
      ∀ v, f (key :: keys) = some v → ∃ ret, r = some ret
  | .update key keys _ => (r = none ↔ f.isOpen (key :: keys) = false) ∧
      ∀ ret, r = some ret → f.Holds (key :: keys) ret
  | .wait _ _ => True

/-- The service after some requests. -/
def served (rs : List Request) : DataCenter := rs.foldl (fun s r => (step s r).getD s) machine.init

end DataCenter

end SkynetGame
