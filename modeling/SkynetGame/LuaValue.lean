import SkynetGame.Lib.Bytes

/-!
# Lua values

A value as a tree: what `lua_rawlen` says of a table, and its entries in the order of `lua_next`. A
table is no other's key twice, so two tables are never one key.
-/

namespace SkynetGame

inductive LuaValue
  | nil
  | boolean (b : Bool)
  | integer (v : Int64)
  -- by its bits
  | number (v : UInt64)
  | lightuserdata (p : UInt64)
  | string (s : Bytes)
  | table (rawlen : ℕ) (entries : List (LuaValue × LuaValue))
  deriving Repr

namespace LuaValue

abbrev Entries := List (LuaValue × LuaValue)

/-- Two keys are one. -/
def rawEqual : LuaValue → LuaValue → Bool
  | .nil, .nil => true
  | .boolean a, .boolean b => a == b
  | .integer a, .integer b => a == b
  | .number a, .number b => a == b
  | .lightuserdata a, .lightuserdata b => a == b
  | .string a, .string b => a == b
  | _, _ => false

def isNil : LuaValue → Bool
  | .nil => true
  | _ => false

/-- The exponent's bits of a float. -/
def exponent (v : UInt64) : ℕ := v.toNat / 2 ^ 52 % 2 ^ 11

def mantissa (v : UInt64) : ℕ := v.toNat % 2 ^ 52

def isNaN (v : UInt64) : Bool := exponent v == 2047 && mantissa v != 0

/-- The integer that a float stands for, `luaV_tointeger` without rounding. -/
def floatInteger (v : UInt64) : Option Int64 :=
  let e := exponent v
  let m := 2 ^ 52 + mantissa v
  let sign : ℤ := if v.toNat / 2 ^ 63 = 1 then -1 else 1
  let inRange (n : ℤ) : Option Int64 :=
    if -2 ^ 63 ≤ n ∧ n < 2 ^ 63 then some (Int64.ofInt n) else none
  if e = 0 then if mantissa v = 0 then some 0 else none
  else if e ≤ 1022 ∨ e = 2047 then none
  else if 1075 ≤ e then inRange (sign * (m * 2 ^ (e - 1075) : ℕ))
  else if m % 2 ^ (1075 - e) = 0 then inRange (sign * (m / 2 ^ (1075 - e) : ℕ)) else none

/-- A float with an integer's value is that integer as a key. -/
def normalize : LuaValue → LuaValue
  | .number v => ((floatInteger v).map .integer).getD (.number v)
  | k => k

def rawget (t : Entries) (k : LuaValue) : LuaValue :=
  ((t.find? fun p => p.1.rawEqual k).map (·.2)).getD .nil

def rawgeti (t : Entries) (i : ℕ) : LuaValue := rawget t (.integer (Int64.ofNat i))

/-- `lua_rawset`; a key that is `nil` or no number is an error. -/
def rawset (t : Entries) (k v : LuaValue) : Option Entries :=
  match k with
  | .nil => none
  | .number n => if isNaN n then none else some (set t k.normalize v)
  | _ => some (set t k v)
where
  /-- Under a key that can be one. -/
  set (t : Entries) (k v : LuaValue) : Entries :=
    if v.isNil then t.filter fun p => !p.1.rawEqual k
    else if t.any fun p => p.1.rawEqual k then
      t.map fun p => if p.1.rawEqual k then (p.1, v) else p
    else t ++ [(k, v)]

/-- A key as a table has it. -/
def IsKey : LuaValue → Prop
  | .nil => False
  | .number n => isNaN n = false ∧ floatInteger n = none
  | _ => True

mutual

/-- The same value: tables with the same entries, in any order. -/
inductive Same : LuaValue → LuaValue → Prop
  | nil : Same .nil .nil
  | boolean (b : Bool) : Same (.boolean b) (.boolean b)
  | integer (v : Int64) : Same (.integer v) (.integer v)
  | number (v : UInt64) : Same (.number v) (.number v)
  | lightuserdata (p : UInt64) : Same (.lightuserdata p) (.lightuserdata p)
  | string (s : Bytes) : Same (.string s) (.string s)
  | table (n m : ℕ) {t t' t'' : Entries} (hp : t.Perm t') (h : SameEntries t' t'') :
      Same (.table n t) (.table m t'')

inductive SameEntries : Entries → Entries → Prop
  | nil : SameEntries [] []
  | cons {k k' v v' : LuaValue} {t t' : Entries} (hk : Same k k') (hv : Same v v')
      (h : SameEntries t t') : SameEntries ((k, v) :: t) ((k', v') :: t')

end

/-- A table without metatable, at most `d` deep; a string and a border that C can count. -/
inductive Valid : ℕ → LuaValue → Prop
  | nil (d : ℕ) : Valid d .nil
  | boolean (d : ℕ) (b : Bool) : Valid d (.boolean b)
  | integer (d : ℕ) (v : Int64) : Valid d (.integer v)
  | number (d : ℕ) (v : UInt64) : Valid d (.number v)
  | lightuserdata (d : ℕ) (p : UInt64) : Valid d (.lightuserdata p)
  | string (d : ℕ) {s : Bytes} (hs : s.length < 2 ^ 31) : Valid d (.string s)
  | table {d n : ℕ} {t : Entries} (hn : n < 2 ^ 31) (hk : ∀ p ∈ t, p.1.IsKey)
      (hv : ∀ p ∈ t, p.2.isNil = false) (hd : t.Pairwise fun p q => p.1.rawEqual q.1 = false)
      (hkey : ∀ p ∈ t, Valid d p.1) (hval : ∀ p ∈ t, Valid d p.2) : Valid (d + 1) (.table n t)

theorem sizeOf_rawget (t : Entries) (k : LuaValue) : sizeOf (rawget t k) < 1 + sizeOf t := by
  unfold rawget
  rcases hf : t.find? fun p => p.1.rawEqual k with _ | p
  · rw [hf]
    cases t with
    | nil => exact Nat.lt_add_of_pos_right Nat.one_pos
    | cons p t =>
      have hnil : sizeOf LuaValue.nil = 1 := rfl
      have hcons : sizeOf (p :: t) = 1 + sizeOf p + sizeOf t := rfl
      rw [hcons]
      show sizeOf LuaValue.nil < 1 + (1 + sizeOf p + sizeOf t)
      omega
  · have := List.sizeOf_lt_of_mem (List.mem_of_find?_eq_some hf)
    rcases p with ⟨k', v⟩
    rw [hf]
    simp at this ⊢
    omega

end LuaValue

end SkynetGame
