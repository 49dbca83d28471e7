import SkynetGame.Lib.LuaNumber

/-!
# The protocol of redis (`lualib/redis.lua`)

Requests are put together from fragments that are kept in caches, which may lose what they keep;
replies are read from the channel, that gives lines and as many bytes as it is asked for.
-/

namespace SkynetGame

namespace Redis

open LuaNumber
open LuaPattern (memFind)

def crln : Bytes := Bytes.ascii "\r\n"

section Cache

variable {κ : Type} [DecidableEq κ] {f : κ → Bytes}

/-- A table made by `make_cache(f)`: what it keeps under a key was made of the key. -/
structure Cache (f : κ → Bytes) where
  kept : κ → Option Bytes
  made : ∀ k s, kept k = some s → s = f k

/-- Looking a key up: what is not kept is made, and kept. -/
def Cache.get (c : Cache f) (k : κ) : Bytes × Cache f :=
  match c.kept k with
  | some s => (s, c)
  | none => (f k, {
      kept := Function.update c.kept k (some (f k))
      made := by
        intro k' s h
        rcases eq_or_ne k' k with rfl | hne
        · rw [Function.update_self, Option.some.injEq] at h
          exact h.symm
        · rw [Function.update_of_ne hne] at h
          exact c.made k' s h })

@[simp] theorem Cache.get_fst (c : Cache f) (k : κ) : (c.get k).1 = f k := by
  unfold Cache.get
  split
  · exact c.made k _ ‹_›
  · rfl

end Cache

/-- What `header_cache` makes: the line end of what is in front, and the length of an argument. -/
def headerFragment (k : ℕ) : Bytes := crln ++ Bytes.ascii "$" ++ numeral 10 k ++ crln

/-- What `command_cache` makes. -/
def commandFragment (cmd : Bytes) : Bytes :=
  crln ++ Bytes.ascii "$" ++ numeral 10 cmd.length ++ crln ++ Bytes.upper cmd

/-- What `count_cache` makes. -/
def countFragment (k : ℕ) : Bytes := Bytes.ascii "*" ++ numeral 10 k

/-- The three caches. -/
structure Caches where
  header : Cache headerFragment
  command : Cache commandFragment
  count : Cache countFragment

/-- What a command is called with: a list, or a single value. -/
inductive Msg (α : Type)
  | table (vs : List α)
  | value (v : α)

section Compose

variable {α : Type} (tostring : α → Bytes)

/-- The loop over the arguments of `compose_message` and of `compose_table`. -/
def composeArgs (c : Caches) : List α → List Bytes × Caches
  | [] => ([], c)
  | v :: vs =>
    let (h, header) := c.header.get (tostring v).length
    let (lines, c) := composeArgs { c with header := header } vs
    (h :: tostring v :: lines, c)

def compose_message (c : Caches) (cmd : Bytes) : Msg α → List Bytes × Caches
  | .table vs =>
    let (n, count) := c.count.get (vs.length + 1)
    let (h, command) := c.command.get cmd
    let (lines, c) := composeArgs tostring { c with count := count, command := command } vs
    (n :: h :: lines ++ [crln], c)
  | .value v =>
    let (h, command) := c.command.get cmd
    let (l, header) := c.header.get (tostring v).length
    ([Bytes.ascii "*2", h, l, tostring v, crln],
      { c with command := command, header := header })

def compose_table (c : Caches) (vs : List α) : List Bytes × Caches :=
  let (n, count) := c.count.get vs.length
  let (lines, c) := composeArgs tostring { c with count := count } vs
  (n :: lines ++ [crln], c)

/-- The request of `pipeline`. -/
def pipelineRequest (c : Caches) : List (List α) → List Bytes × Caches
  | [] => ([], c)
  | cmd :: ops =>
    let (cmds, c) := compose_table tostring c cmd
    let (lines, c) := pipelineRequest c ops
    (cmds ++ lines, c)

end Compose

/-- What ends a call that returns nothing. -/
inductive Fail
  | socketError
  | raised
deriving DecidableEq, Repr

/-- What a reply comes to. -/
inductive Value (φ : Type)
  | nil
  | str (b : Bytes)
  | num (n : Number φ)
  | table (bulk : List (Value φ))

section Read

/-- What the code uses of floats. -/
structure Floats where
  φ : Type
  /-- `l_str2d` of `3rd/lua/lobject.c` -/
  l_str2d : Bytes → Option φ
  /-- A float as an amount of bytes; it is below 0 as the float is. -/
  amount : φ → Option ℤ
  /-- A float as the limit of a loop; it is below 0 as the float is. -/
  limit : φ → ℤ

/-- A number as an amount of bytes, if it can be one. -/
def Floats.toAmount (F : Floats) : Number F.φ → Option ℤ
  | .int n => some n
  | .float x => F.amount x

/-- A number as the limit of a loop. -/
def Floats.toLimit (F : Floats) : Number F.φ → ℤ
  | .int n => n
  | .float x => F.limit x

variable (F : Floats)

/-- `fd:readline "\r\n"`. -/
def readline (left : Bytes) : Except Fail (Bytes × Bytes) :=
  match memFind left crln with
  | some n => .ok (left.take n, left.drop (n + 2))
  | none => .error .socketError

/-- `fd:read(n)`. -/
def read (n : ℤ) (left : Bytes) : Except Fail (Bytes × Bytes) :=
  if n < 0 then .error .raised
  else if left.length < n then .error .socketError
  else .ok (left.take n.toNat, left.drop n.toNat)

section Redcmd

variable (read_response : Bytes → Except Fail ((Bool × Value F.φ) × Bytes))

/-- The loop of `redcmd[42]`: whether there was no error, and the values. -/
def readBulk : ℕ → Bytes → Except Fail ((Bool × List (Value F.φ)) × Bytes)
  | 0, left => .ok ((true, []), left)
  | n + 1, left => do
    let ((ok, v), left) ← read_response left
    let ((noerr, bulk), left) ← readBulk n left
    .ok ((ok && noerr, v :: bulk), left)

/-- The functions of `redcmd`. -/
def redcmd (firstchar : Option UInt8) (data left : Bytes) :
    Except Fail ((Bool × Value F.φ) × Bytes) :=
  match firstchar with
  | some 36 =>
    match (tonumber F.l_str2d data).bind F.toAmount with
    | none => .error .raised
    | some bytes =>
      if bytes < 0 then .ok ((true, .nil), left)
      else do
        let (firstline, left) ← read (wrap (bytes + 2)) left
        .ok ((true, .str (firstline.take (firstline.length - 2))), left)
  | some 43 => .ok ((true, .str data), left)
  | some 45 => .ok ((false, .str data), left)
  | some 58 => .ok ((true, ((tonumber F.l_str2d data).map .num).getD .nil), left)
  | some 42 =>
    match (tonumber F.l_str2d data).map F.toLimit with
    | none => .error .raised
    | some n =>
      if n < 0 then .ok ((true, .nil), left)
      else do
        let ((noerr, bulk), left) ← readBulk F read_response n.toNat left
        .ok ((noerr, .table bulk), left)
  | _ => .error .raised

end Redcmd

/-- `read_response`, for replies nested less deep than so. -/
def read_response : ℕ → Bytes → Except Fail ((Bool × Value F.φ) × Bytes)
  | 0, _ => .error .socketError
  | depth + 1, left => do
    let (result, left) ← readline left
    redcmd F (read_response depth) result.head? (result.drop 1) left

/-- `read_response`; what is left bounds how deep the replies in it are nested. -/
def response (left : Bytes) : Except Fail ((Bool × Value F.φ) × Bytes) :=
  read_response F left.length left

/-- The loops of `pipeline` over the replies. -/
def pipelineReplies : ℕ → Bytes → Except Fail (List (Bool × Value F.φ) × Bytes)
  | 0, left => .ok ([], left)
  | n + 1, left => do
    let (r, left) ← response F left
    let (outs, left) ← pipelineReplies n left
    .ok (r :: outs, left)

/-- The response of `pipeline`: all replies behind those in the table that was given, or the last
one. -/
def pipelineResponse (resp : Option (List (Bool × Value F.φ))) (n : ℕ) (left : Bytes) :
    Except Fail ((List (Bool × Value F.φ) ⊕ Option (Bool × Value F.φ)) × Bytes) := do
  let (outs, left) ← pipelineReplies F n left
  match resp with
  | some resp => .ok (.inl (resp ++ outs), left)
  | none => .ok (.inr outs.getLast?, left)

end Read

end Redis

end SkynetGame
