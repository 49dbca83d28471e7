import SkynetGame.Serialize
import SkynetGame.Proofs.LuaValue

/-!
# What the loader makes of an encoded table (`services/utils/serialize.lua`)

Each key is read up to the bracket that closes it, each string up to its quote. So the fields are the
entries with a string, with whatever the texts of their keys stand for.
-/

namespace SkynetGame

open List Option

namespace Serialize

open LuaLex
open LuaNumber (Number decimal numeral tonumber)
open LuaValue (Entries rawset)

section Keys

variable (lib : Library)

/-- The text of a float: a sign or none, and a numeral or `inf`. -/
def FloatText (text : Bytes) : Prop :=
  ∃ body, (text = body ∨ text = 45 :: body) ∧ (IsNumeral body ∨ body = [105, 110, 102])

def PlainKey : LuaValue → Prop
  | .string _ | .integer _ | .boolean _ => True
  | .number x => LuaValue.IsKey (.number x)
  | _ => False

/-- The expression that the text of a key is read as. -/
def keyExpr (k : LuaValue) : Option Expr :=
  (expr lib.l_str2d (keytext lib k ++ [93])).map Prod.fst

end Keys

section Tokens

variable {l_str2d : Bytes → Option UInt64} {c : UInt8} {r body : Bytes}

theorem checknext_same (hc : c = 93 ∨ c = 123 ∨ c = 125 ∨ c = 44) :
    checknext l_str2d c (c :: r) = some r := by
  rcases hc with rfl | rfl | rfl | rfl <;> rfl

theorem llex_bracket (hr : r.head? ≠ some 91) (hr' : r.head? ≠ some 61) :
    llex l_str2d (91 :: r) = some (.symbol 91, r) := by
  show (if r.head? = some 91 ∨ r.head? = some 61 then none else some (Token.symbol 91, r)) = _
  rw [if_neg (by simp [hr, hr'])]

theorem checknext_bracket (hr : r.head? ≠ some 91) (hr' : r.head? ≠ some 61) :
    checknext l_str2d 91 (91 :: r) = some r := by
  simp [checknext, llex_bracket hr hr']

theorem checknext_twice (hc : c = 61 ∨ c = 45) (hr : r.head? ≠ some c) :
    checknext l_str2d c (c :: r) = some r := by
  have hllex : llex l_str2d (c :: r) = some (.symbol c, r) := by
    rcases hc with rfl | rfl
    · show (if r.head? = some 61 then none else some (Token.symbol 61, r)) = _
      rw [if_neg hr]
    · show (if r.head? = some 45 then none else some (Token.symbol 45, r)) = _
      rw [if_neg hr]
  simp [checknext, hllex]

theorem simpleexp_body (hbody : IsNumeral body ∨ body = [105, 110, 102]) (r : Bytes) :
    simpleexp l_str2d (body ++ 93 :: r) =
      ((simpleexp l_str2d (body ++ [93])).map Prod.fst).map fun e => (e, 93 :: r) := by
  rcases hbody with hnum | rfl
  · have h (r : Bytes) : llex l_str2d (body ++ 93 :: r) =
        (LuaNumber.tonumber l_str2d body).map fun x => (.number x, 93 :: r) :=
      llex_numeral rfl (by decide) hnum
    unfold simpleexp
    rw [h r, h []]
    rcases tonumber l_str2d body with _ | x <;> rfl
  · rfl

theorem checknext_body (hbody : IsNumeral body ∨ body = [105, 110, 102]) (r : Bytes) :
    checknext l_str2d 45 (body ++ 93 :: r) = none := by
  rcases hbody with hnum | rfl
  · have h : llex l_str2d (body ++ 93 :: r) =
        (LuaNumber.tonumber l_str2d body).map fun x => (.number x, 93 :: r) :=
      llex_numeral rfl (by decide) hnum
    unfold checknext
    rw [h]
    rcases tonumber l_str2d body with _ | x <;> rfl
  · rfl

theorem body_head (hbody : IsNumeral body ∨ body = [105, 110, 102]) :
    ∃ b l, body = b :: l ∧ (LuaPattern.isdigit b = true ∨ b = 105) := by
  rcases hbody with hnum | rfl
  · rcases body with _ | ⟨b, l⟩
    · exact hnum.elim
    · exact ⟨b, l, rfl, Or.inl hnum.1⟩
  · exact ⟨105, _, rfl, Or.inr rfl⟩

theorem expr_body (hbody : IsNumeral body ∨ body = [105, 110, 102]) (r : Bytes) :
    expr l_str2d (body ++ 93 :: r) = simpleexp l_str2d (body ++ 93 :: r) := by
  unfold expr
  rw [checknext_body hbody r]

theorem expr_minus (hbody : IsNumeral body ∨ body = [105, 110, 102]) (r : Bytes) :
    expr l_str2d (45 :: body ++ 93 :: r) =
      (simpleexp l_str2d (body ++ 93 :: r)).map fun (e, r) => (.minus e, r) := by
  obtain ⟨b, l, hb, hhead⟩ := body_head hbody
  have hne : (body ++ 93 :: r).head? ≠ some 45 := by
    intro heq
    rw [hb] at heq
    obtain rfl : b = 45 := by simpa using heq
    rcases hhead with hd | hd <;> cases hd
  unfold expr
  rw [cons_append, checknext_twice (Or.inr rfl) hne]

theorem expr_floatText {text : Bytes} (h : FloatText text) (r : Bytes) :
    expr l_str2d (text ++ 93 :: r) =
      ((expr l_str2d (text ++ [93])).map Prod.fst).map fun e => (e, 93 :: r) := by
  obtain ⟨body, rfl | rfl, hbody⟩ := h
  · rw [expr_body hbody r, expr_body hbody []]
    exact simpleexp_body hbody r
  · rw [expr_minus hbody r, expr_minus hbody [], simpleexp_body hbody r]
    rcases simpleexp l_str2d (body ++ [93]) with _ | ⟨e, r'⟩ <;> rfl

theorem expr_addquoted (s r : Bytes) :
    expr l_str2d (addquoted s ++ r) = some (.string s, r) := by
  have h : llex l_str2d (addquoted s ++ r) = some (.string s, r) := llex_addquoted s
  simp [expr, checknext, simpleexp, h]

end Tokens

section Fields

variable {lib : Library} {k : LuaValue} {r : Bytes}

theorem floatText_decimal (n : ℤ) : FloatText (decimal n) := by
  have hnum : IsNumeral (numeral 10 n.natAbs) :=
    isNumeral_digits (LuaNumber.numeral_ne_nil (by decide)) fun c hc =>
      LuaNumber.isdigit_of_mem_numeral hc
  refine ⟨_, ?_, Or.inl hnum⟩
  unfold decimal
  split_ifs
  · exact Or.inr rfl
  · exact Or.inl rfl

variable (htext : ∀ x, LuaValue.IsKey (.number x) → FloatText (lib.number2str x)) (hk : PlainKey k)

include htext hk

theorem expr_keytext (r : Bytes) : expr lib.l_str2d (keytext lib k ++ 93 :: r) =
    (keyExpr lib k).map fun e => (e, 93 :: r) := by
  cases k with
  | string s =>
    unfold keyExpr keytext
    rw [expr_addquoted, expr_addquoted]
    rfl
  | integer n => exact expr_floatText (floatText_decimal _) r
  | number x => exact expr_floatText (htext x hk) r
  | boolean b => cases b <;> rfl
  | nil => exact hk.elim
  | lightuserdata p => exact hk.elim
  | table n t => exact hk.elim

theorem keytext_head (r : Bytes) :
    (keytext lib k ++ r).head? ≠ some 91 ∧ (keytext lib k ++ r).head? ≠ some 61 := by
  have hfloat : ∀ {text}, FloatText text →
      (text ++ r).head? ≠ some 91 ∧ (text ++ r).head? ≠ some 61 := by
    rintro text ⟨body, htext, hbody⟩
    obtain ⟨b, l, rfl, hb⟩ := body_head hbody
    rcases htext with rfl | rfl
    · constructor <;> rintro ⟨⟩ <;> rcases hb with hb | hb <;> cases hb
    · exact ⟨by simp, by simp⟩
  cases k with
  | string s => exact ⟨by simp [keytext, addquoted], by simp [keytext, addquoted]⟩
  | integer n => exact hfloat (floatText_decimal _)
  | number x => exact hfloat (htext x hk)
  | boolean b => cases b <;> exact ⟨by rintro ⟨⟩, by rintro ⟨⟩⟩
  | nil => exact hk.elim
  | lightuserdata p => exact hk.elim
  | table n t => exact hk.elim

omit htext hk in
theorem entry_eq (k : LuaValue) (s r : Bytes) :
    keystr lib k ++ Bytes.ascii "=" ++ addquoted s ++ r =
      91 :: (keytext lib k ++ 93 :: 61 :: (addquoted s ++ r)) := by
  unfold keystr
  rw [show Bytes.ascii "[" = [91] from rfl, show Bytes.ascii "]" = [93] from rfl,
    show Bytes.ascii "=" = [61] from rfl]
  simp

theorem recfield_entry (s r : Bytes) :
    recfield lib.l_str2d (keystr lib k ++ Bytes.ascii "=" ++ addquoted s ++ r) =
      (keyExpr lib k).map fun e => ((e, s), r) := by
  obtain ⟨h₁, h₂⟩ := keytext_head htext hk (93 :: 61 :: (addquoted s ++ r))
  rw [entry_eq, recfield, checknext_bracket h₁ h₂, bind_eq_bind, bind_some,
    expr_keytext htext hk]
  rcases keyExpr lib k with _ | e
  · rfl
  · have hstring : llex lib.l_str2d (addquoted s ++ r) = some (.string s, r) := llex_addquoted s
    have heq : checknext lib.l_str2d 61 (61 :: (addquoted s ++ r)) = some (addquoted s ++ r) :=
      checknext_twice (Or.inl rfl) (by simp [addquoted])
    simp only [map_some, bind_eq_bind, bind_some, checknext_same (Or.inl rfl),
      heq, hstring]

def strings : Entries → List (LuaValue × Bytes)
  | [] => []
  | (k, .string s) :: t => (k, s) :: strings t
  | _ :: t => strings t

/-- What is written for such an entry. -/
def entrytext (lib : Library) (e : LuaValue × Bytes) : Bytes :=
  keystr lib e.1 ++ Bytes.ascii "=" ++ addquoted e.2

/-- Its field, if the text of its key is an expression. -/
def entryField (lib : Library) (e : LuaValue × Bytes) : Option Field :=
  (keyExpr lib e.1).map fun k => (k, e.2)

end Fields

section Load

variable {lib : Library} (htext : ∀ x, LuaValue.IsKey (.number x) → FloatText (lib.number2str x))

include htext

theorem constructorLoop_entries : ∀ {es : List (LuaValue × Bytes)}, (∀ e ∈ es, PlainKey e.1) →
    ∀ {fuel : ℕ}, es.length < fuel →
      constructorLoop lib.l_str2d fuel ([44].intercalate (es.map (entrytext lib)) ++ [125]) =
        (es.mapM (entryField lib)).map fun fs => (fs, [])
  | [], _, fuel + 1, _ => rfl
  | e :: es, hes, fuel + 1, hfuel => by
    have hk := hes e mem_cons_self
    have hes' := fun e he => hes e (mem_cons_of_mem _ he)
    rw [length_cons] at hfuel
    obtain ⟨t, ht, htail⟩ : ∃ t,
        [44].intercalate ((e :: es).map (entrytext lib)) ++ [125] = entrytext lib e ++ t ∧
          ((es = [] ∧ t = [125]) ∨
            t = 44 :: ([44].intercalate (es.map (entrytext lib)) ++ [125])) := by
      rcases es with _ | ⟨e', es⟩
      · exact ⟨[125], by simp [List.intercalate], Or.inl ⟨rfl, rfl⟩⟩
      · exact ⟨_, by simp [List.intercalate], Or.inr rfl⟩
    have hclose : checknext lib.l_str2d 125 (entrytext lib e ++ t) = none := by
      obtain ⟨h₁, h₂⟩ := keytext_head htext hk (93 :: 61 :: (addquoted e.2 ++ t))
      rw [entrytext, entry_eq, checknext, llex_bracket h₁ h₂]
      rfl
    have hfield : recfield lib.l_str2d (entrytext lib e ++ t) =
        (entryField lib e).map fun f => (f, t) := by
      rw [entrytext, recfield_entry htext hk, entryField]
      rcases keyExpr lib e.1 with _ | k <;> rfl
    rw [ht, constructorLoop, hclose, hfield, mapM_cons]
    rcases entryField lib e with _ | f
    · rfl
    · rcases htail with ⟨rfl, rfl⟩ | rfl
      · rfl
      · have hcomma : checknext lib.l_str2d 44
            (44 :: ([44].intercalate (es.map (entrytext lib)) ++ [125])) =
            some ([44].intercalate (es.map (entrytext lib)) ++ [125]) := checknext_same (by simp)
        simp only [map_some, bind_eq_bind, bind_some, hcomma]
        rw [constructorLoop_entries hes' (Nat.lt_of_succ_lt_succ hfuel)]
        rcases es.mapM (entryField lib) with _ | fs <;> rfl

omit htext in
theorem length_le_intercalate : ∀ es : List (LuaValue × Bytes),
    es.length ≤ ([44].intercalate (es.map (entrytext lib))).length
  | [] => Nat.zero_le _
  | [e] => by
    simp only [List.intercalate, map_cons, map_nil, intersperse_singleton,
      flatten_singleton, entrytext, addquoted, length_append, length_cons]
    omega
  | e :: e' :: es => by
    have ih := length_le_intercalate (e' :: es)
    have hcons : [44].intercalate ((e :: e' :: es).map (entrytext lib)) =
        entrytext lib e ++ 44 :: [44].intercalate ((e' :: es).map (entrytext lib)) := by
      simp [List.intercalate]
    simp only [hcons, length_append, length_cons] at ih ⊢
    omega

/-- What is written for entries with a string. -/
def sourcetext (lib : Library) (es : List (LuaValue × Bytes)) : Bytes :=
  Bytes.ascii "return " ++
    (Bytes.ascii "\x7b" ++ (Bytes.ascii ",").intercalate (es.map (entrytext lib)) ++ Bytes.ascii "\x7d")

theorem load_entries {es : List (LuaValue × Bytes)} (hes : ∀ e ∈ es, PlainKey e.1) :
    load lib.l_str2d (sourcetext lib es) =
      (es.mapM (entryField lib)).bind fun fs =>
        if Loadable (sourcetext lib es) fs then some fs else none := by
  obtain ⟨body, hbody⟩ : ∃ b, b = [44].intercalate (es.map (entrytext lib)) ++ [125] := ⟨_, rfl⟩
  have hsource : sourcetext lib es = 114 :: ([101, 116, 117, 114, 110] ++ 32 :: 123 :: body) := by
    rw [hbody, sourcetext]
    rfl
  have hname : llex lib.l_str2d (sourcetext lib es) =
      some (.name (Bytes.ascii "return"), 32 :: 123 :: body) := by
    rw [hsource]
    exact llex_name rfl rfl (List.all_eq_true.1 rfl) rfl
  have hopen : checknext lib.l_str2d 123 (123 :: body) = some body := checknext_same (by simp)
  have hlength : es.length < body.length + 1 := by
    have : es.length ≤ ([44].intercalate (es.map (entrytext lib))).length :=
      length_le_intercalate es
    rw [hbody, length_append]
    omega
  have hloop := constructorLoop_entries htext hes hlength
  rw [← hbody] at hloop
  unfold load
  rw [hname]
  simp only [if_true]
  rw [show (32 :: 123 :: body).dropWhile LuaPattern.isspace = 123 :: body from rfl, hopen,
    bind_eq_bind, bind_some, hloop]
  rcases es.mapM (entryField lib) with _ | fs
  · rfl
  · simp

end Load

end Serialize

end SkynetGame
