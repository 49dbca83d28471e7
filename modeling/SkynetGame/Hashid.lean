import SkynetGame.Lib.Chain
import SkynetGame.Lib.Run
import Mathlib.Algebra.Group.Nat.Defs
import Mathlib.Algebra.Ring.Int.Defs
import Mathlib.Data.List.AList

/-!
# The connection table of the gate (`service-src/hashid.h`, `service-src/service_gate.c`)

The nodes are the slots, and members of the chains of the hash table too. A value of `int` that
leaves its range, a slot outside of the array and an assertion that fails are `none`.
-/

namespace SkynetGame

/-- `struct hashid_node`; `next` is a slot. -/
structure HashidNode where
  id : ℤ
  next : Option ℕ
  deriving DecidableEq, Repr

/-- `struct hashid`. -/
structure Hashid where
  hashmod : ℕ
  cap : ℕ
  count : ℤ
  id : ℕ → HashidNode
  hash : ℕ → Option ℕ

namespace Hashid

/-- The loop of `hashid_init`; an `int` is doubled at most that often. -/
def hashcapLoop (max : ℕ) : ℕ → ℕ → Option ℕ
  | 0, _ => none
  | fuel + 1, hashcap =>
    if hashcap < max then
      if hashcap * 2 < 2 ^ 31 then hashcapLoop max fuel (hashcap * 2) else none
    else some hashcap

/-- `hashid_init`. -/
def init (max : ℕ) : Option Hashid :=
  (hashcapLoop max 32 16).map fun hashcap =>
    ⟨hashcap - 1, max, 0, fun _ => ⟨-1, none⟩, fun _ => none⟩

/-- `id & hi->hashmod`. -/
def bucket (hi : Hashid) (id : ℤ) : ℕ := (BitVec.ofInt 32 id &&& BitVec.ofNat 32 hi.hashmod).toNat

def next (hi : Hashid) (c : ℕ) : Option ℕ := (hi.id c).next

/-- The loop of `hashid_lookup`. -/
def lookupLoop (hi : Hashid) (id : ℤ) : ℕ → Option ℕ → Option ℤ
  | _, none => some (-1)
  | 0, some _ => none
  | fuel + 1, some c => if (hi.id c).id = id then some c else lookupLoop hi id fuel (hi.next c)

/-- `hashid_lookup`. -/
def lookup (hi : Hashid) (id : ℤ) : Option ℤ := lookupLoop hi id hi.cap (hi.hash (hi.bucket id))

/-- What `hashid_remove` does behind `_clear`. -/
def clear (hi : Hashid) (c : ℕ) : Hashid :=
  { hi with id := Function.update hi.id c ⟨-1, none⟩, count := hi.count - 1 }

/-- The loop of `hashid_remove`. -/
def removeLoop (hi : Hashid) (id : ℤ) : ℕ → ℕ → Option (Hashid × ℤ)
  | 0, _ => none
  | fuel + 1, c =>
    match hi.next c with
    | none => some (hi, -1)
    | some temp =>
      if (hi.id temp).id = id then
        let hi := { hi with id := Function.update hi.id c ⟨(hi.id c).id, hi.next temp⟩ }
        some (hi.clear temp, temp)
      else removeLoop hi id fuel temp

/-- `hashid_remove`. -/
def remove (hi : Hashid) (id : ℤ) : Option (Hashid × ℤ) :=
  let h := hi.bucket id
  match hi.hash h with
  | none => some (hi, -1)
  | some c =>
    if (hi.id c).id = id then
      some ({ hi with hash := Function.update hi.hash h (hi.next c) }.clear c, c)
    else removeLoop hi id hi.cap c

/-- The loop of `hashid_insert`, where `n` rounds are left. -/
def probe (hi : Hashid) (id : ℤ) : ℕ → ℕ → Option ℕ
  | 0, _ => none
  | n + 1, i =>
    if i + id < 2 ^ 31 then
      let index := (i + id).tmod hi.cap
      if index < 0 then none
      else if (hi.id index.toNat).id = -1 then some index.toNat
      else probe hi id n (i + 1)
    else none

/-- `hashid_insert`. -/
def insert (hi : Hashid) (id : ℤ) : Option (Hashid × ℕ) :=
  (hi.probe id hi.cap 0).bind fun c =>
    if hi.next c = none then
      let h := hi.bucket id
      let hi := { hi with
        count := hi.count + 1
        id := Function.update hi.id c ⟨id, hi.hash h⟩
        hash := Function.update hi.hash h (some c) }
      some (hi, c)
    else none

/-- `hashid_full`. -/
def full (hi : Hashid) : Bool := hi.count = hi.cap

/-- The table of a gate, `none` once it has done something that is not defined, and the slot that
each connection was given. -/
structure Table where
  hi : Option Hashid
  slots : AList fun _ : ℤ => ℕ

inductive Label where
  | accept (id : ℤ)
  | close (id : ℤ)
  | lookup (id : ℤ)
  deriving DecidableEq, Repr

/-- Whether the socket server can have given an accepted connection this id. -/
def isId (id : ℤ) : Prop := 0 ≤ id ∧ id < 2 ^ 31

instance (id : ℤ) : Decidable (isId id) := inferInstanceAs (Decidable (_ ∧ _))

/-- What `dispatch_socket_message` does to the table for a `SKYNET_SOCKET_TYPE_ACCEPT`, for a
`SKYNET_SOCKET_TYPE_CLOSE` or a `SKYNET_SOCKET_TYPE_ERROR`, and for what only looks an id up. No two
connections have the same id. -/
def step (t : Table) (l : Label) : Option Table :=
  t.hi.bind fun hi =>
    match l with
    | .accept id =>
      if isId id ∧ id ∉ t.slots then
        if hi.full then some t
        else
          let r := hi.insert id
          some ⟨r.map (·.1), (r.map (·.2)).elim t.slots fun c => t.slots.insert id c⟩
      else none
    | .close id => some ⟨(hi.remove id).map (·.1), t.slots.erase id⟩
    | .lookup id => some ⟨(hi.lookup id).map fun _ => hi, t.slots⟩

/-- A free slot is met before the sum of `hashid_insert` leaves the range of `int`. -/
def Meets (hi : Hashid) (id : ℤ) : Prop :=
  ∃ i, i < hi.cap ∧ (i + id < 2 ^ 31 ∧ (hi.id ((i + id).tmod hi.cap).toNat).id = -1)

instance (hi : Hashid) (id : ℤ) : Decidable (hi.Meets id) := inferInstanceAs (Decidable (∃ _, _))

/-- A connection that is accepted gets a slot. -/
def Fits (t : Table) : Label → Prop
  | .accept id => ∀ hi ∈ t.hi, hi.full = false → hi.Meets id
  | _ => True

instance (t : Table) : (l : Label) → Decidable (Fits t l)
  | .accept id => inferInstanceAs (Decidable (∀ hi ∈ t.hi, hi.full = false → hi.Meets id))
  | .close _ => .isTrue trivial
  | .lookup _ => .isTrue trivial

def machine (max : ℕ) : Machine Table Label := ⟨⟨init max, ∅⟩, step⟩

end Hashid

end SkynetGame
