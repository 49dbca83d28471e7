import SkynetGame.Proofs.SerializeLoad

/-!
# What comes back (`services/utils/serialize.lua`)

An entry whose value is no string is dropped, or is an error, and a key comes back as what its text
stands for. So a table comes back just when its values are strings and its keys are what their texts
stand for; as no text stands for another key than the text of that key does, no two keys can change
places.
-/

namespace SkynetGame

open List Option

namespace Serialize

open LuaValue (Entries rawset Same SameEntries)

section Table

/-- The key that a value is in a table, unless that is an error. -/
def putKey : LuaValue → Option LuaValue
  | .nil => none
  | .number x => if LuaValue.isNaN x then none else some (LuaValue.normalize (.number x))
  | k => some k

def fieldEntry (f : Field) : Option (LuaValue × LuaValue) :=
  ((eval f.1).bind putKey).map fun k => (k, .string f.2)

/-- Two entries are under different keys. -/
def Apart (p q : LuaValue × LuaValue) : Prop := p.1.rawEqual q.1 = false

theorem rawset_eq (t : Entries) (k v : LuaValue) :
    rawset t k v = (putKey k).map fun k => rawset.set t k v := by
  cases k with
  | number x =>
    cases h : LuaValue.isNaN x <;> simp [rawset, putKey, h]
  | _ => rfl

theorem setField_eq (t : Entries) (f : Field) :
    setField t f = (fieldEntry f).map fun p => rawset.set t p.1 p.2 := by
  unfold setField fieldEntry
  rcases eval f.1 with _ | k
  · rfl
  · rw [bind_eq_bind, bind_some, bind_some, rawset_eq]
    rcases putKey k with _ | k' <;> rfl

theorem set_string (t : Entries) (k : LuaValue) (s : Bytes) :
    ((rawset.set t k (.string s)).length = t.length) ∨
      rawset.set t k (.string s) = t ++ [(k, .string s)] ∧ ∀ p ∈ t, p.1.rawEqual k = false := by
  unfold rawset.set
  rw [show (LuaValue.string s).isNil = false from rfl, if_neg Bool.false_ne_true]
  by_cases h : (t.any fun p => p.1.rawEqual k) = true
  · rw [if_pos h]
    exact Or.inl (length_map _)
  · rw [if_neg h]
    refine Or.inr ⟨rfl, fun p hp => ?_⟩
    simpa using List.any_eq_false.1 (Bool.eq_false_iff.2 h) p hp

theorem foldlM_setField {fs : List Field} : ∀ {acc u : Entries}, fs.foldlM setField acc = some u →
    u.length ≤ acc.length + fs.length ∧ (u.length = acc.length + fs.length →
      acc.Pairwise Apart → ∃ es, fs.mapM fieldEntry = some es ∧ u = acc ++ es ∧
        u.Pairwise Apart) := by
  induction fs with
  | nil =>
    rintro acc u ⟨⟩
    exact ⟨le_rfl, fun _ hacc => ⟨[], rfl, (append_nil _).symm, hacc⟩⟩
  | cons f fs ih =>
    intro acc u h
    rw [foldlM_cons, setField_eq] at h
    rcases hf : fieldEntry f with _ | p
    · rw [hf] at h
      cases h
    · rw [hf] at h
      obtain ⟨hle, heq⟩ := ih h
      have hp : p.2 = .string f.2 := by
        obtain ⟨k, -, rfl⟩ := map_eq_some_iff.1 hf
        rfl
      dsimp only at hle heq
      rw [hp] at hle heq
      rw [length_cons]
      rcases set_string acc p.1 f.2 with hlen | ⟨hset, hnew⟩
      · exact ⟨by omega, fun hu => absurd hu (by omega)⟩
      · rw [hset, length_append, length_singleton] at hle heq
        refine ⟨by omega, fun hu hacc => ?_⟩
        have hacc' : (acc ++ [(p.1, LuaValue.string f.2)]).Pairwise Apart := by
          rw [pairwise_append]
          refine ⟨hacc, pairwise_singleton _ _, fun q hq q' hq' => ?_⟩
          rw [mem_singleton.1 hq']
          exact hnew q hq
        obtain ⟨es, hes, hu', hpair⟩ := heq (by omega) hacc'
        refine ⟨p :: es, by rw [mapM_cons, hf, hes]; rfl, ?_, hpair⟩
        rw [hu', append_assoc, ← hp]
        rfl

theorem foldlM_setField_of {fs : List Field} : ∀ {acc es : Entries},
    fs.mapM fieldEntry = some es → (acc ++ es).Pairwise Apart →
      fs.foldlM setField acc = some (acc ++ es) := by
  induction fs with
  | nil =>
    rintro acc es ⟨⟩ -
    show some acc = some (acc ++ [])
    rw [append_nil]
  | cons f fs ih =>
    intro acc es hes hpair
    rw [mapM_cons] at hes
    obtain ⟨p, hf, hes⟩ := bind_eq_some_iff.1 hes
    obtain ⟨es', hes', heq⟩ := bind_eq_some_iff.1 hes
    cases heq
    have hp : p.2 = .string f.2 := by
      obtain ⟨k, -, rfl⟩ := map_eq_some_iff.1 hf
      rfl
    have hnew : ∀ q ∈ acc, q.1.rawEqual p.1 = false := fun q hq =>
      (pairwise_append.1 hpair).2.2 q hq p mem_cons_self
    have hset : rawset.set acc p.1 p.2 = acc ++ [p] := by
      have hany : (acc.any fun q => q.1.rawEqual p.1) = false :=
        List.any_eq_false.2 fun q hq => by simp [hnew q hq]
      rw [rawset.set, hp, show (LuaValue.string f.2).isNil = false from rfl, hany, ← hp]
      rfl
    rw [foldlM_cons, setField_eq, hf, map_some, bind_eq_bind, bind_some,
      hset, ih hes' (by rwa [append_assoc]), append_assoc]
    rfl

end Table

section Keys

variable {lib : Library}

/-- The key that the text of a key stands for. -/
def readKey (lib : Library) (k : LuaValue) : Option LuaValue :=
  (keyExpr lib k).bind fun e => (eval e).bind putKey

theorem entryField_bind (e : LuaValue × Bytes) : (entryField lib e).bind fieldEntry =
    (readKey lib e.1).map fun k => (k, .string e.2) := by
  unfold entryField readKey fieldEntry
  rcases keyExpr lib e.1 with _ | x <;> rfl

theorem readKey_string (s : Bytes) : readKey lib (.string s) = some (.string s) := by
  have h : keyExpr lib (.string s) = some (.string s) := by
    unfold keyExpr keytext
    rw [expr_addquoted]
    rfl
  rw [readKey, h]
  rfl

theorem readKey_boolean (b : Bool) : readKey lib (.boolean b) = some (.boolean b) := by
  cases b <;> rfl

theorem isNumeral_numeral (n : ℕ) : LuaLex.IsNumeral (LuaNumber.numeral 10 n) :=
  LuaLex.isNumeral_digits (LuaNumber.numeral_ne_nil (by decide)) fun _ hc =>
    LuaNumber.isdigit_of_mem_numeral hc

theorem simpleexp_numeral {n : ℕ} {x : LuaNumber.Number UInt64}
    (h : LuaNumber.tonumber lib.l_str2d (LuaNumber.numeral 10 n) = some x) :
    simpleexp lib.l_str2d (LuaNumber.numeral 10 n ++ [93]) = some (.number x, [93]) := by
  unfold simpleexp
  rw [LuaLex.llex_numeral rfl (by decide) (isNumeral_numeral n), h]
  rfl

theorem tonumber_numeral {n : ℕ} (hn : n < 0x8000000000000000) :
    LuaNumber.tonumber lib.l_str2d (LuaNumber.numeral 10 n) = some (.int n) := by
  rw [← LuaNumber.decimal_natCast]
  exact LuaNumber.tonumber_decimal _ (by omega) (by omega)

theorem keyExpr_integer {n : Int64} {x : LuaNumber.Number UInt64}
    (h : LuaNumber.tonumber lib.l_str2d (LuaNumber.numeral 10 n.toInt.natAbs) = some x) :
    keyExpr lib (.integer n) = some (if n.toInt < 0 then .minus (.number x) else .number x) := by
  have hnum := Or.inl (b := LuaNumber.numeral 10 n.toInt.natAbs = [105, 110, 102])
    (isNumeral_numeral n.toInt.natAbs)
  show (expr lib.l_str2d (LuaNumber.decimal n.toInt ++ [93])).map Prod.fst = _
  unfold LuaNumber.decimal
  by_cases hneg : n.toInt < 0
  · rw [if_pos hneg, if_pos hneg, expr_minus hnum, simpleexp_numeral h]
    rfl
  · rw [if_neg hneg, if_neg hneg, expr_body hnum, simpleexp_numeral h]
    rfl

/-- `2 ^ 63` is no integer for the loader. -/
def two63 : Bytes := [57, 50, 50, 51, 51, 55, 50, 48, 51, 54, 56, 53, 52, 55, 55, 53, 56, 48, 56]

theorem numeral_two63 : LuaNumber.numeral 10 0x8000000000000000 = two63 := by
  have hdigits : Nat.digits 10 0x8000000000000000 =
      [8, 0, 8, 5, 7, 7, 4, 5, 8, 6, 3, 0, 2, 7, 3, 3, 2, 2, 9] := by norm_num
  rw [LuaNumber.numeral, if_neg (by decide), hdigits]
  rfl

theorem tonumber_least (h63 : lib.l_str2d two63 = some 0x43e0000000000000) {n : ℤ}
    (hn : n = -0x8000000000000000) :
    LuaNumber.tonumber lib.l_str2d (LuaNumber.numeral 10 n.natAbs) =
      some (.float 0x43e0000000000000) := by
  have hno : LuaNumber.l_str2int two63 = none := by decide
  rw [hn, show (-0x8000000000000000 : ℤ).natAbs = 0x8000000000000000 from rfl, numeral_two63,
    LuaNumber.tonumber, hno, h63]
  rfl

theorem readKey_integer (h63 : lib.l_str2d two63 = some 0x43e0000000000000) (n : Int64) :
    readKey lib (.integer n) = some (.integer n) := by
  have hlo := n.le_toInt
  have hhi := n.toInt_lt
  by_cases hmin : n.toInt = -0x8000000000000000
  · have hn : n = -0x8000000000000000 := by
      rw [← Int64.toInt_inj, hmin]
      rfl
    rw [readKey, keyExpr_integer (tonumber_least h63 hmin), if_pos (by omega), hn]
    rfl
  · rw [readKey, keyExpr_integer (tonumber_numeral (by omega)), bind_some]
    by_cases hneg : n.toInt < 0
    · rw [if_pos hneg]
      have hval : -Int64.ofInt (n.toInt.natAbs : ℤ) = n := by
        rw [← Int64.ofInt_neg, Int.ofNat_natAbs_of_nonpos (by omega), Int.neg_neg, Int64.ofInt_toInt]
      show some (LuaValue.integer (-Int64.ofInt (n.toInt.natAbs : ℤ))) = _
      rw [hval]
    · rw [if_neg hneg]
      have hval : Int64.ofInt (n.toInt.natAbs : ℤ) = n := by
        rw [Int.natAbs_of_nonneg (by omega), Int64.ofInt_toInt]
      show some (LuaValue.integer (Int64.ofInt (n.toInt.natAbs : ℤ))) = _
      rw [hval]

end Keys

section Limits

variable {lib : Library}

/-- The constant of a key or a string. The least integer is read as a float. -/
def keyConstant : LuaValue → Expr
  | .string s => .string s
  | .boolean b => .boolean b
  | .integer n =>
    if n.toInt = -0x8000000000000000 then .number (.float 0xc3e0000000000000)
    else .number (.int n.toInt)
  | .number x => .number (.float x)
  | _ => .name []

def linebreaks : LuaValue → ℕ
  | .string s => s.count 10
  | _ => 0

def Unsigned : Expr → Prop
  | .minus _ => False
  | _ => True

theorem simpleexp_unsigned {f : Bytes → Option UInt64} {s r : Bytes} {e : Expr}
    (h : simpleexp f s = some (e, r)) : Unsigned e := by
  unfold simpleexp at h
  split at h
  · cases h
    trivial
  · cases h
    trivial
  · split_ifs at h <;> cases h <;> trivial
  · cases h

theorem expr_unsigned {f : Bytes → Option UInt64} {s r : Bytes} {e : Expr}
    (h : expr f s = some (e, r)) : Unsigned e ∨ ∃ e', Unsigned e' ∧ e = .minus e' := by
  unfold expr at h
  split at h
  · obtain ⟨⟨e', r'⟩, he, heq⟩ := map_eq_some_iff.1 h
    cases heq
    exact Or.inr ⟨e', simpleexp_unsigned he, rfl⟩
  · exact Or.inl (simpleexp_unsigned h)

theorem putKey_number {k : LuaValue} {x : UInt64} (h : putKey k = some (.number x)) :
    k = .number x := by
  cases k with
  | number y =>
    simp only [putKey] at h
    split_ifs at h
    simp only [LuaValue.normalize, some.injEq] at h
    rcases hy : LuaValue.floatInteger y with _ | n
    · rw [hy] at h
      exact h
    · rw [hy] at h
      cases h
  | _ => cases h

theorem constant_float {e : Expr} {x : UInt64} (hsign : Unsigned e ∨ ∃ e', Unsigned e' ∧ e = .minus e')
    (h : (eval e).bind putKey = some (.number x)) : constant e = .number (.float x) := by
  obtain ⟨k, he, hk⟩ := bind_eq_some_iff.1 h
  rw [putKey_number hk] at he
  have hplain : ∀ {e y}, Unsigned e → eval e = some (.number y) → e = .number (.float y) := by
    intro e y hu hy
    cases e with
    | number n =>
      cases n with
      | int n => cases hy
      | float z => cases hy; rfl
    | minus e => exact hu.elim
    | _ => cases hy
  rcases hsign with hu | ⟨e', hu, rfl⟩
  · rw [hplain hu he]
    rfl
  · unfold eval at he
    rcases hv : eval e' with _ | v
    · rw [hv] at he
      cases he
    · rw [hv] at he
      cases v with
      | number y =>
        cases he
        rw [hplain hu hv]
        rfl
      | _ => cases he

theorem constant_keyExpr (h63 : lib.l_str2d two63 = some 0x43e0000000000000) {k : LuaValue}
    {e : Expr} (hk : PlainKey k) (hread : readKey lib k = some k) (he : keyExpr lib k = some e) :
    constant e = keyConstant k := by
  cases k with
  | string s =>
    unfold keyExpr keytext at he
    rw [expr_addquoted] at he
    cases he
    rfl
  | boolean b => cases b <;> cases he <;> rfl
  | integer n =>
    have hlo := n.le_toInt
    have hhi := n.toInt_lt
    by_cases hmin : n.toInt = -0x8000000000000000
    · rw [keyExpr_integer (tonumber_least h63 hmin), if_pos (by omega)] at he
      cases he
      simp only [keyConstant, if_pos hmin]
      rfl
    · rw [keyExpr_integer (tonumber_numeral (by omega))] at he
      cases he
      simp only [keyConstant, if_neg hmin]
      by_cases hneg : n.toInt < 0
      · rw [if_pos hneg, constant, Int.ofNat_natAbs_of_nonpos (by omega), Int.neg_neg]
      · rw [if_neg hneg]
        show Expr.number (.int (n.toInt.natAbs : ℤ)) = _
        rw [Int.natAbs_of_nonneg (by omega)]
  | number x =>
    unfold readKey at hread
    rw [he] at hread
    obtain ⟨⟨e', r⟩, hexpr, rfl⟩ := map_eq_some_iff.1 he
    exact constant_float (expr_unsigned hexpr) hread
  | nil => exact hk.elim
  | lightuserdata p => exact hk.elim
  | table n t => exact hk.elim

theorem count_floatText {text : Bytes} (h : FloatText text) : text.count 10 = 0 := by
  obtain ⟨body, htext, hbody⟩ := h
  have hb : body.count 10 = 0 := by
    rcases hbody with hnum | rfl
    · exact count_eq_zero.2 (hnum.not_mem rfl (by decide))
    · rfl
  rcases htext with rfl | rfl
  · exact hb
  · rw [count_cons_of_ne (by decide), hb]

section Lines

variable (htext : ∀ x, LuaValue.IsKey (.number x) → FloatText (lib.number2str x))

include htext

theorem count_keytext {k : LuaValue} (hk : PlainKey k) :
    (keytext lib k).count 10 = linebreaks k := by
  cases k with
  | string s => exact LuaLex.count_addquoted s
  | boolean b => cases b <;> rfl
  | integer n => exact count_floatText (floatText_decimal _)
  | number x => exact count_floatText (htext x hk)
  | nil => exact hk.elim
  | lightuserdata p => exact hk.elim
  | table n t => exact hk.elim

theorem count_intercalate : ∀ {es : List (LuaValue × Bytes)}, (∀ e ∈ es, PlainKey e.1) →
    ([44].intercalate (es.map (entrytext lib))).count 10 =
      (es.map fun e => linebreaks e.1 + e.2.count 10).sum
  | [], _ => rfl
  | e :: es, hes => by
    have hentry : (entrytext lib e).count 10 = linebreaks e.1 + e.2.count 10 := by
      have := @entry_eq lib e.1 e.2 []
      rw [append_nil, append_nil] at this
      rw [entrytext, this]
      simp [count_keytext htext (hes e mem_cons_self), LuaLex.count_addquoted]
    have ih := count_intercalate fun e he => hes e (mem_cons_of_mem _ he)
    rw [map_cons, map_cons, sum_cons, ← hentry, ← ih]
    rcases es with _ | ⟨e', es⟩
    · simp [List.intercalate]
    · simp [List.intercalate]

theorem count_sourcetext {es : List (LuaValue × Bytes)} (hes : ∀ e ∈ es, PlainKey e.1) :
    (sourcetext lib es).count 10 = (es.map fun e => linebreaks e.1 + e.2.count 10).sum := by
  rw [← count_intercalate htext hes, sourcetext]
  simp only [count_append]
  rw [show (Bytes.ascii "return ").count 10 = 0 from rfl, show (Bytes.ascii "\x7b").count 10 = 0 from rfl,
    show (Bytes.ascii "\x7d").count 10 = 0 from rfl, Nat.zero_add, Nat.zero_add, Nat.add_zero]
  rfl

end Lines

end Limits

/-- Tables as the claim has them: without cycles, with plain keys that are all different, and with
strings, numbers, booleans and such tables in them. -/
inductive Plain : LuaValue → Prop
  | string (s : Bytes) : Plain (.string s)
  | integer (n : Int64) : Plain (.integer n)
  | number (x : UInt64) : Plain (.number x)
  | boolean (b : Bool) : Plain (.boolean b)
  | table {n : ℕ} {t : Entries} (hk : ∀ p ∈ t, PlainKey p.1) (hd : t.Pairwise Apart)
      (hv : ∀ p ∈ t, Plain p.2) : Plain (.table n t)

/-- What C promises of floats and their texts: what is printed can be read, a float that is read from a
text of `"%.14g"` is read from its own text, and `2 ^ 63` is itself. -/
structure Lawful (lib : Library) : Prop where
  text : ∀ x, LuaValue.IsKey (.number x) → FloatText (lib.number2str x)
  stable : ∀ x y, LuaValue.IsKey (.number x) → LuaValue.IsKey (.number y) →
    readKey lib (.number x) = some (.number y) → readKey lib (.number y) = some (.number y)
  two63 : lib.l_str2d two63 = some 0x43e0000000000000

/-- The table is encoded and decoded without an error, to a table that is the same. -/
def RoundTrip (lib : Library) (rawlen : Entries → ℕ) (n : ℕ) (t : Entries) : Prop :=
  ∃ text u, encode lib t = some text ∧ decode lib.l_str2d rawlen text = some u ∧
    Same (.table n t) u

/-- All values are strings, all floats among the keys are what their texts say, and the loader can
take the constants and the lines. -/
structure Readable (lib : Library) (t : Entries) : Prop where
  strings : ∀ p ∈ t, ∃ s, p.2 = .string s
  floats : ∀ p ∈ t, ∀ x, p.1 = .number x → readKey lib (.number x) = some (.number x)
  constants : (t.flatMap fun p => [keyConstant p.1, keyConstant p.2]).dedup.length ≤ maxConstants
  lines : (t.map fun p => linebreaks p.1 + linebreaks p.2).sum + 1 < maxInt

section Strings

variable {lib : Library} {t : Entries}

/-- An entry with a string, as the table has it. -/
def withString (e : LuaValue × Bytes) : LuaValue × LuaValue := (e.1, .string e.2)

theorem encodeLoop_eq : ∀ {t : Entries} {seri : List Bytes}, encodeLoop lib t = some seri →
    seri = (strings t).map (entrytext lib)
  | [], _, h => by cases h; rfl
  | (k, v) :: t, seri, h => by
    cases v with
    | string s =>
      obtain ⟨seri', h', rfl⟩ := map_eq_some_iff.1 h
      rw [encodeLoop_eq h']
      rfl
    | table n u => cases h
    | _ => exact encodeLoop_eq (t := t) h

theorem encodeLoop_withString : ∀ es : List (LuaValue × Bytes),
    encodeLoop lib (es.map withString) = some (es.map (entrytext lib))
  | [] => rfl
  | e :: es => by
    rw [map_cons, withString, encodeLoop, encodeLoop_withString es]
    rfl

theorem length_strings : ∀ t : Entries, (strings t).length ≤ t.length ∧
    ((strings t).length = t.length → t = (strings t).map withString)
  | [] => ⟨le_rfl, fun _ => rfl⟩
  | (k, v) :: t => by
    obtain ⟨hle, heq⟩ := length_strings t
    have hother : (strings t).length ≤ ((k, v) :: t).length ∧
        ((strings t).length = ((k, v) :: t).length →
          (k, v) :: t = (strings t).map withString) := by
      rw [length_cons]
      exact ⟨by omega, fun h => absurd h (by omega)⟩
    cases v with
    | string s =>
      have hcons : strings ((k, .string s) :: t) = (k, s) :: strings t := rfl
      rw [hcons, length_cons, length_cons]
      refine ⟨by omega, fun h => ?_⟩
      rw [map_cons, ← heq (by omega)]
      rfl
    | _ => exact hother

theorem exists_withString : ∀ {t : Entries}, (∀ p ∈ t, ∃ s, p.2 = .string s) →
    ∃ es : List (LuaValue × Bytes), t = es.map withString
  | [], _ => ⟨[], rfl⟩
  | (k, v) :: t, h => by
    obtain ⟨s, rfl⟩ : ∃ s, v = .string s := h _ mem_cons_self
    obtain ⟨es, rfl⟩ := exists_withString fun p hp => h p (mem_cons_of_mem _ hp)
    exact ⟨(k, s) :: es, rfl⟩

theorem mem_strings : ∀ {t : Entries} {e : LuaValue × Bytes}, e ∈ strings t → withString e ∈ t
  | (k, v) :: t, e, h => by
    cases v with
    | string s =>
      rcases mem_cons.1 h with rfl | h
      · exact mem_cons_self
      · exact mem_cons_of_mem _ (mem_strings h)
    | _ => exact mem_cons_of_mem _ (mem_strings (t := t) h)

theorem length_of_mapM {α β : Type} {f : α → Option β} : ∀ {l : List α} {bs : List β},
    l.mapM f = some bs → bs.length = l.length
  | [], _, h => by cases h; rfl
  | a :: l, bs, h => by
    rw [mapM_cons] at h
    obtain ⟨b, -, h⟩ := bind_eq_some_iff.1 h
    obtain ⟨bs', hbs', heq⟩ := bind_eq_some_iff.1 h
    cases heq
    rw [length_cons, length_cons, length_of_mapM hbs']

theorem mapM_readKey : ∀ {es : List (LuaValue × Bytes)} {fs : List Field} {u : Entries},
    es.mapM (entryField lib) = some fs → fs.mapM fieldEntry = some u →
      (∀ e ∈ es, ∃ k, readKey lib e.1 = some k) ∧
        u = es.map fun e => ((readKey lib e.1).getD .nil, .string e.2)
  | [], _, _, hfs, hu => by
    cases hfs
    cases hu
    exact ⟨fun e he => absurd he not_mem_nil, rfl⟩
  | e :: es, fs, u, hfs, hu => by
    rw [mapM_cons] at hfs
    obtain ⟨f, hf, hfs⟩ := bind_eq_some_iff.1 hfs
    obtain ⟨fs', hfs', heq⟩ := bind_eq_some_iff.1 hfs
    cases heq
    rw [mapM_cons] at hu
    obtain ⟨p, hp, hu⟩ := bind_eq_some_iff.1 hu
    obtain ⟨u', hu', heq⟩ := bind_eq_some_iff.1 hu
    cases heq
    obtain ⟨hread, rfl⟩ := mapM_readKey hfs' hu'
    have hkey := @entryField_bind lib e
    rw [hf, bind_some, hp] at hkey
    obtain ⟨k, hk, rfl⟩ := map_eq_some_iff.1 hkey.symm
    refine ⟨fun e' he' => ?_, by rw [map_cons, hk]; rfl⟩
    rcases mem_cons.1 he' with rfl | he'
    · exact ⟨k, hk⟩
    · exact hread e' he'

theorem entryField_readBack (h63 : lib.l_str2d two63 = some 0x43e0000000000000) :
    ∀ {es : List (LuaValue × Bytes)}, (∀ e ∈ es, PlainKey e.1 ∧ readKey lib e.1 = some e.1) →
      ∃ fs, es.mapM (entryField lib) = some fs ∧ fs.mapM fieldEntry = some (es.map withString) ∧
        (fs.flatMap fun f => [constant f.1, .string f.2]) =
          (es.map withString).flatMap fun p => [keyConstant p.1, keyConstant p.2]
  | [], _ => ⟨[], rfl, rfl, rfl⟩
  | e :: es, hes => by
    obtain ⟨hk, hread⟩ := hes e mem_cons_self
    obtain ⟨fs, hfs, hu, hconst⟩ := entryField_readBack h63 fun e he =>
      hes e (mem_cons_of_mem _ he)
    obtain ⟨x, hx, hkey⟩ := bind_eq_some_iff.1 hread
    have hfield : entryField lib e = some (x, e.2) := by rw [entryField, hx]; rfl
    have hentry : fieldEntry (x, e.2) = some (withString e) := by
      rw [fieldEntry, hkey]
      rfl
    refine ⟨(x, e.2) :: fs, by rw [mapM_cons, hfield, hfs]; rfl,
      by rw [mapM_cons, hentry, hu]; rfl, ?_⟩
    rw [flatMap_cons, map_cons, flatMap_cons, hconst, constant_keyExpr h63 hk hread hx]
    rfl

theorem length_sameEntries : ∀ {t u : Entries}, SameEntries t u → t.length = u.length
  | _, _, .nil => rfl
  | _, _, .cons _ _ h => congrArg (· + 1) (length_sameEntries h)

theorem sameEntries_eq : ∀ {t u : Entries}, SameEntries t u → (∀ p ∈ t, PlainKey p.1) →
    (∀ q ∈ u, ∃ s, q.2 = .string s) → t = u
  | _, _, .nil, _, _ => rfl
  | (k, v) :: _, (k', v') :: _, .cons hk hv h, ht, hu => by
    have hkey : k = k' := by
      have hplain : PlainKey k := ht _ mem_cons_self
      cases hk with
      | table => exact hplain.elim
      | _ => rfl
    have hval : v = v' := by
      obtain ⟨s, hs⟩ := hu _ mem_cons_self
      cases hv with
      | table => cases hs
      | _ => rfl
    rw [hkey, hval, sameEntries_eq h (fun p hp => ht p (mem_cons_of_mem _ hp)) fun q hq =>
      hu q (mem_cons_of_mem _ hq)]

theorem sameEntries_withString : ∀ {es : List (LuaValue × Bytes)}, (∀ e ∈ es, PlainKey e.1) →
    SameEntries (es.map withString) (es.map withString)
  | [], _ => .nil
  | e :: es, hes => by
    refine .cons ?_ (.string _) (sameEntries_withString fun e he => hes e (mem_cons_of_mem _ he))
    have hplain := hes e mem_cons_self
    rcases e with ⟨k, s⟩
    cases k with
    | string s => exact .string s
    | boolean b => exact .boolean b
    | integer n => exact .integer n
    | number x => exact .number x
    | nil => exact hplain.elim
    | lightuserdata p => exact hplain.elim
    | table n t => exact hplain.elim

end Strings

section RoundTrip

variable {lib : Library} {rawlen : Entries → ℕ} {n : ℕ} {t : Entries}

theorem Lawful.stable_key (h : Lawful lib) {k k' : LuaValue} (hk : PlainKey k) (hk' : PlainKey k')
    (hread : readKey lib k = some k') : readKey lib k' = some k' := by
  cases k' with
  | string s => exact readKey_string s
  | boolean b => exact readKey_boolean b
  | integer n => exact readKey_integer h.two63 n
  | number y =>
    cases k with
    | number x => exact h.stable x y hk hk' hread
    | string s =>
      rw [readKey_string] at hread
      cases hread
    | boolean b =>
      rw [readKey_boolean] at hread
      cases hread
    | integer n =>
      rw [readKey_integer h.two63] at hread
      cases hread
    | nil => exact hk.elim
    | lightuserdata p => exact hk.elim
    | table n t => exact hk.elim
  | nil => exact hk'.elim
  | lightuserdata p => exact hk'.elim
  | table n t => exact hk'.elim

theorem rawEqual_self {k : LuaValue} (hk : PlainKey k) : k.rawEqual k = true := by
  cases k with
  | string s => simp [LuaValue.rawEqual]
  | boolean b => simp [LuaValue.rawEqual]
  | integer n => simp [LuaValue.rawEqual]
  | number x => simp [LuaValue.rawEqual]
  | nil => exact hk.elim
  | lightuserdata p => exact hk.elim
  | table n t => exact hk.elim

/-- Keys that come back as each other come back as themselves: a key that is what another stands for
stands for itself. -/
theorem readKey_of_perm (h : Lawful lib) {es : List (LuaValue × Bytes)}
    (hes : ∀ e ∈ es, PlainKey e.1) (hread : ∀ e ∈ es, ∃ k, readKey lib e.1 = some k)
    (hperm : (es.map withString).Perm
      (es.map fun e => ((readKey lib e.1).getD .nil, LuaValue.string e.2)))
    (hapart : (es.map fun e => ((readKey lib e.1).getD .nil, LuaValue.string e.2)).Pairwise Apart) :
    ∀ e ∈ es, readKey lib e.1 = some e.1 := by
  have hkey : ∀ e ∈ es, ∃ e' ∈ es, e'.1 = (readKey lib e.1).getD .nil := by
    intro e he
    have hmem := hperm.mem_iff.2 (List.mem_map_of_mem (f := fun e : LuaValue × Bytes =>
      ((readKey lib e.1).getD .nil, LuaValue.string e.2)) he)
    obtain ⟨e', he', heq⟩ := List.mem_map.1 hmem
    exact ⟨e', he', congrArg Prod.fst heq⟩
  have hnodup : (es.map fun e => (readKey lib e.1).getD .nil).Nodup := by
    have hne : (es.map fun e => (readKey lib e.1).getD .nil).Pairwise fun a b =>
        a.rawEqual b = false := by
      rw [pairwise_map] at hapart ⊢
      exact hapart
    refine hne.imp_of_mem fun {a b} ha hb hab heq => ?_
    obtain ⟨e, he, rfl⟩ := List.mem_map.1 ha
    obtain ⟨e', he', hkey'⟩ := hkey e he
    rw [← heq, ← hkey', rawEqual_self (hes e' he')] at hab
    cases hab
  intro e he
  obtain ⟨k, hk⟩ := hread e he
  obtain ⟨e', he', hkey'⟩ := hkey e he
  rw [hk, getD_some] at hkey'
  have hself : readKey lib e'.1 = some e'.1 := by
    rw [hkey']
    exact h.stable_key (hes e he) (hkey' ▸ hes e' he') hk
  have hsame : e = e' := by
    refine inj_on_of_nodup_map hnodup he he' ?_
    rw [hk, hself, getD_some, getD_some, hkey']
  rw [hsame]
  exact hself

theorem decode_sourcetext (es : List (LuaValue × Bytes)) :
    decode lib.l_str2d rawlen (Bytes.ascii "\x7b" ++ (Bytes.ascii ",").intercalate
        (es.map (entrytext lib)) ++ Bytes.ascii "\x7d") =
      match load lib.l_str2d (sourcetext lib es) with
      | none => some .nil
      | some fs => (fs.foldlM setField []).map fun t => .table (rawlen t) t := rfl

theorem loadable_iff (h : Lawful lib) {es : List (LuaValue × Bytes)} (hes : ∀ e ∈ es, PlainKey e.1)
    {fs : List Field} (hconst : (fs.flatMap fun f => [constant f.1, .string f.2]) =
      (es.map withString).flatMap fun p => [keyConstant p.1, keyConstant p.2]) :
    Loadable (sourcetext lib es) fs ↔
      ((es.map withString).flatMap fun p => [keyConstant p.1, keyConstant p.2]).dedup.length ≤
          maxConstants ∧
        ((es.map withString).map fun p => linebreaks p.1 + linebreaks p.2).sum + 1 < maxInt := by
  unfold Loadable
  rw [hconst, count_sourcetext h.text hes, List.map_map]
  rfl

theorem roundTrip_of_readable (h : Lawful lib) (ht : Plain (.table n t)) (hr : Readable lib t) :
    RoundTrip lib rawlen n t := by
  obtain ⟨hk, hd⟩ : (∀ p ∈ t, PlainKey p.1) ∧ t.Pairwise Apart := by
    cases ht with
    | table hk hd hv => exact ⟨hk, hd⟩
  obtain ⟨es, rfl⟩ := exists_withString hr.strings
  have hes : ∀ e ∈ es, PlainKey e.1 := fun e he => hk _ (List.mem_map_of_mem he)
  have hread : ∀ e ∈ es, readKey lib e.1 = some e.1 := by
    intro e he
    have hplain := hes e he
    have hfloat := hr.floats _ (List.mem_map_of_mem (f := withString) he)
    rcases hkey : e.1 with _ | b | i | x | p | s | ⟨m, u⟩ <;> rw [hkey] at hplain
    · exact hplain.elim
    · exact readKey_boolean b
    · exact readKey_integer h.two63 i
    · exact hfloat x hkey
    · exact hplain.elim
    · exact readKey_string s
    · exact hplain.elim
  obtain ⟨fs, hfs, hu, hconst⟩ := entryField_readBack h.two63 fun e he => ⟨hes e he, hread e he⟩
  have hload : load lib.l_str2d (sourcetext lib es) = some fs := by
    rw [load_entries h.text hes, hfs, bind_some,
      if_pos ((loadable_iff h hes hconst).2 ⟨hr.constants, hr.lines⟩)]
  have hbuild : fs.foldlM setField [] = some (es.map withString) := foldlM_setField_of hu hd
  refine ⟨_, .table (rawlen (es.map withString)) (es.map withString),
    by rw [encode, encodeLoop_withString]; rfl, ?_,
    .table _ _ (List.Perm.refl _) (sameEntries_withString hes)⟩
  rw [decode_sourcetext, hload]
  show (fs.foldlM setField []).map _ = _
  rw [hbuild]
  rfl

theorem readable_of_roundTrip (h : Lawful lib) (ht : Plain (.table n t))
    (hr : RoundTrip lib rawlen n t) : Readable lib t := by
  obtain ⟨hk, hd⟩ : (∀ p ∈ t, PlainKey p.1) ∧ t.Pairwise Apart := by
    cases ht with
    | table hk hd hv => exact ⟨hk, hd⟩
  obtain ⟨text, w, hencode, hdecode, hsame⟩ := hr
  obtain ⟨seri, hseri, htext⟩ := bind_eq_some_iff.1 hencode
  cases htext
  obtain ⟨es, hstrings⟩ : ∃ es, es = strings t := ⟨_, rfl⟩
  rw [encodeLoop_eq hseri, ← hstrings, decode_sourcetext] at hdecode
  have hes : ∀ e ∈ es, PlainKey e.1 := by
    intro e he
    rw [hstrings] at he
    exact hk _ (mem_strings he)
  rw [load_entries h.text hes] at hdecode
  rcases hfs : es.mapM (entryField lib) with _ | fs
  · -- a source that cannot be loaded gives `nil`
    rw [hfs] at hdecode
    cases hdecode
    cases hsame
  rw [hfs, bind_some] at hdecode
  by_cases hload : Loadable (sourcetext lib es) fs
  · rw [if_pos hload] at hdecode
    obtain ⟨u, hu, rfl⟩ := map_eq_some_iff.1 hdecode
    obtain ⟨t', hperm, hentries⟩ : ∃ t' : Entries, t.Perm t' ∧ SameEntries t' u := by
      cases hsame with
      | table _ _ hp h => exact ⟨_, hp, h⟩
    -- no entry got lost, so there is a string in each, and no two keys became one
    obtain ⟨hle, hall⟩ := length_strings t
    obtain ⟨hule, hkeep⟩ := foldlM_setField hu
    have hlenu : t.length = u.length := hperm.length_eq.trans (length_sameEntries hentries)
    have hlenf : fs.length = es.length := length_of_mapM hfs
    rw [length_nil, Nat.zero_add] at hule hkeep
    rw [← hstrings] at hle hall
    have ht := hall (by omega)
    obtain ⟨es', hes', hu', hapart⟩ := hkeep (by omega) List.Pairwise.nil
    rw [nil_append] at hu'
    subst hu'
    obtain ⟨hread, hkeys⟩ := mapM_readKey hfs hes'
    have heq : t' = u := by
      refine sameEntries_eq hentries (fun p hp => hk p (hperm.mem_iff.2 hp)) fun q hq => ?_
      rw [hkeys] at hq
      obtain ⟨e, -, rfl⟩ := List.mem_map.1 hq
      exact ⟨e.2, rfl⟩
    rw [heq, ht, hkeys] at hperm
    rw [hkeys] at hapart
    have hback := readKey_of_perm h hes hread hperm hapart
    obtain ⟨fs', hfs', -, hconst⟩ := entryField_readBack h.two63 fun e he => ⟨hes e he, hback e he⟩
    cases hfs.symm.trans hfs'
    obtain ⟨hconstants, hlines⟩ := (loadable_iff h hes hconst).1 hload
    rw [ht]
    refine ⟨fun p hp => ?_, fun p hp x hx => ?_, hconstants, hlines⟩
    · obtain ⟨e, -, rfl⟩ := List.mem_map.1 hp
      exact ⟨e.2, rfl⟩
    · obtain ⟨e, he, rfl⟩ := List.mem_map.1 hp
      have hx : e.1 = .number x := hx
      rw [← hx]
      exact hback e he
  · rw [if_neg hload] at hdecode
    cases hdecode
    cases hsame

/-- A table comes back just when it is readable. -/
theorem roundTrip_iff_readable (lib : Library) (rawlen : Entries → ℕ) (n : ℕ) (t : Entries)
    (h : Lawful lib) (ht : Plain (.table n t)) : RoundTrip lib rawlen n t ↔ Readable lib t :=
  ⟨readable_of_roundTrip h ht, roundTrip_of_readable h ht⟩

/-- A library as far as the float 0.5 goes. -/
def halfLibrary : Library where
  l_str2d s := if s = Bytes.ascii "0.5" then some 0x3fe0000000000000
    else if s = two63 then some 0x43e0000000000000 else none
  number2str _ := Bytes.ascii "0.5"
  pointer _ := []

theorem lawful_halfLibrary : Lawful halfLibrary where
  text _ _ := ⟨_, Or.inl rfl, Or.inl ⟨rfl, rfl⟩⟩
  stable _ _ _ _ h := h
  two63 := rfl

/-- `{[0.5] = "a\n"}` -/
def halfTable : Entries := [(.number 0x3fe0000000000000, .string [97, 10])]

theorem roundTrip_iff_readable_half :
    RoundTrip halfLibrary (fun _ => 0) 0 halfTable ↔ Readable halfLibrary halfTable := by
  refine roundTrip_iff_readable halfLibrary (fun _ => 0) 0 halfTable lawful_halfLibrary
    (.table ?_ (List.pairwise_singleton _ _) ?_)
  · intro p hp
    rw [List.mem_singleton.1 hp]
    exact ⟨rfl, rfl⟩
  · intro p hp
    rw [List.mem_singleton.1 hp]
    exact .string _

/-- `{a = {}}` -/
def nestedTable : Entries := [(.string (Bytes.ascii "a"), .table 0 [])]

theorem not_roundTrip_nested : Plain (.table 0 nestedTable) ∧
    ¬ RoundTrip halfLibrary (fun _ => 0) 0 nestedTable := by
  constructor
  · refine .table (fun p hp => ?_) (List.pairwise_singleton _ _) fun p hp => ?_
    · rw [List.mem_singleton.1 hp]
      trivial
    · rw [List.mem_singleton.1 hp]
      exact .table (by simp) List.Pairwise.nil (by simp)
  · rintro ⟨text, u, hencode, -⟩
    cases hencode

end RoundTrip

end Serialize

end SkynetGame
