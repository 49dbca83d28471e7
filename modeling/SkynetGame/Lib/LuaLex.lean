import SkynetGame.Lib.LuaNumber

/-!
# Tokens of Lua (`3rd/lua/llex.c`)

Strings in double quotes, numbers, names, and the bytes that are a token of their own. What `%q` makes
of a string is read back as that string.
-/

namespace SkynetGame

open List

namespace LuaLex

open LuaPattern (isalpha isalnum isdigit isxdigit iscntrl isspace)
open LuaNumber (Number tonumber digitOf digitChar)

section Quote

/-- `"%03d"` of a byte. -/
def paddedByte (n : ℕ) : Bytes := [digitChar (n / 100), digitChar (n / 10 % 10), digitChar (n % 10)]

/-- `"%d"` of a byte. -/
def decimalByte (n : ℕ) : Bytes :=
  if n < 10 then [digitChar n] else if n < 100 then [digitChar (n / 10), digitChar (n % 10)]
  else paddedByte n

/-- What the loop of `addquoted` writes for a byte, where `next` is the one behind it. -/
def quotedByte (c : UInt8) (next : Option UInt8) : Bytes :=
  if c = 34 ∨ c = 92 ∨ c = 10 then [92, c]
  else if iscntrl c then 92 :: if next.any isdigit then paddedByte c.toNat else decimalByte c.toNat
  else [c]

/-- The loop of `addquoted`. -/
def quotedBytes : Bytes → Bytes
  | [] => []
  | c :: s => quotedByte c s.head? ++ quotedBytes s

/-- `addquoted`, for `"%q"` of a string. -/
def addquoted (s : Bytes) : Bytes := 34 :: (quotedBytes s ++ [34])

end Quote

section Strings

/-- Where `read_string` is. -/
inductive Place
  | plain
  -- behind a backslash, and behind what may be the first half of a line break
  | slash
  | newline (old : UInt8)
  -- behind `n` digits of a decimal escape, and in front of the second of a hexadecimal one
  | decimal (n v : ℕ)
  | hex
  | hexSecond (v : ℕ)
  | zap

/-- What is read behind a byte of the string. -/
def saved (c : UInt8) (r : Option (Bytes × Bytes)) : Option (Bytes × Bytes) :=
  r.map fun r => (c :: r.1, r.2)

/-- A byte that is no part of an escape, where `f` reads on. -/
def readPlain (f : Place → Option (Bytes × Bytes)) (c : UInt8) (r : Bytes) :
    Option (Bytes × Bytes) :=
  if c = 34 then some ([], r)
  else if c = 10 ∨ c = 13 then none
  else if c = 92 then f .slash
  else saved c (f .plain)

/-- The byte behind a backslash; `\u` is left out. -/
def readSlash (f : Place → Option (Bytes × Bytes)) (c : UInt8) : Option (Bytes × Bytes) :=
  match Char.ofNat c.toNat with
  | 'a' => saved 7 (f .plain)
  | 'b' => saved 8 (f .plain)
  | 'f' => saved 12 (f .plain)
  | 'n' => saved 10 (f .plain)
  | 'r' => saved 13 (f .plain)
  | 't' => saved 9 (f .plain)
  | 'v' => saved 11 (f .plain)
  | 'x' => f .hex
  | '\n' | '\r' => saved 10 (f (.newline c))
  | '\\' | '"' | '\'' => saved c (f .plain)
  | 'z' => f .zap
  | _ => if isdigit c then f (.decimal 1 (digitOf c)) else none

/-- `read_string` behind a double quote: the string, and what is behind it. -/
def readString : Place → Bytes → Option (Bytes × Bytes)
  | _, [] => none
  | .plain, c :: r => readPlain (fun p => readString p r) c r
  | .slash, c :: r => readSlash (fun p => readString p r) c
  | .newline old, c :: r =>
    if (c = 10 ∨ c = 13) ∧ c ≠ old then readString .plain r
    else readPlain (fun p => readString p r) c r
  | .decimal n v, c :: r =>
    if n < 3 ∧ isdigit c then readString (.decimal (n + 1) (10 * v + digitOf c)) r
    else if v ≤ 255 then saved v.toUInt8 (readPlain (fun p => readString p r) c r)
    else none
  | .hex, c :: r => if isxdigit c then readString (.hexSecond (digitOf c)) r else none
  | .hexSecond v, c :: r =>
    if isxdigit c then saved (v * 16 + digitOf c).toUInt8 (readString .plain r) else none
  | .zap, c :: r =>
    if isspace c then readString .zap r else readPlain (fun p => readString p r) c r

end Strings

section Tokens

/-- Where the loop of `read_numeral` is: at its head, or behind the mark of an exponent, or behind
its sign too. -/
inductive Mark
  | head
  | mark
  | sign

/-- How many bytes the loop of `read_numeral` takes. -/
def numeralLength (hex : Bool) : Mark → Bytes → ℕ
  | _, [] => 0
  | m, c :: r =>
    let digit := if isxdigit c ∨ c = 46 then numeralLength hex .head r + 1 else 0
    match m with
    | .head =>
      if c = (if hex then 80 else 69) ∨ c = (if hex then 112 else 101) then
        numeralLength hex .mark r + 1
      else digit
    | .mark => if c = 43 ∨ c = 45 then numeralLength hex .sign r + 1 else digit
    | .sign => digit

/-- How many bytes `read_numeral` takes behind the first. -/
def numeralRest (first : UInt8) : Bytes → ℕ
  | [] => 0
  | c :: r =>
    if first = 48 ∧ (c = 120 ∨ c = 88) then numeralLength true .head r + 1
    else numeralLength false .head (c :: r)

inductive Token
  | string (s : Bytes)
  | number (n : Number UInt64)
  | name (s : Bytes)
  | symbol (c : UInt8)
deriving DecidableEq, Repr

/-- A byte of a name. -/
def isName (c : UInt8) : Bool := isalnum c || c = 95

/-- `llex`, where no space is in front of the token, for the tokens above; `none` stands for an
error, for the end, and for tokens that are longer. -/
def llex (l_str2d : Bytes → Option UInt64) : Bytes → Option (Token × Bytes)
  | [] => none
  | c :: r =>
    if c = 34 then (readString .plain r).map fun s => (.string s.1, s.2)
    else if isdigit c then
      let n := numeralRest c r
      (tonumber l_str2d (c :: r.take n)).map fun x => (.number x, r.drop n)
    else if isName c then some (.name ((c :: r).takeWhile isName), (c :: r).dropWhile isName)
    else if c = 91 then if r.head? = some 91 ∨ r.head? = some 61 then none else some (.symbol c, r)
    else if c = 61 ∨ c = 45 then if r.head? = some c then none else some (.symbol c, r)
    else if c = 93 ∨ c = 123 ∨ c = 125 ∨ c = 44 then some (.symbol c, r)
    else none

end Tokens

section ReadBack

variable {c : UInt8} {r : Bytes}

/-- Behind a decimal escape that is at its end. -/
theorem readString_decimal {n v : ℕ} (hv : v ≤ 255) (hend : n < 3 → isdigit c = false) :
    readString (.decimal n v) (c :: r) = saved v.toUInt8 (readString .plain (c :: r)) := by
  have hno : ¬ (n < 3 ∧ isdigit c = true) := by
    rintro ⟨hn, hc⟩
    rw [hend hn] at hc
    cases hc
  rw [readString, readString]
  simp only [hno, if_false, if_pos hv]

theorem readString_digit {n v d : ℕ} (hn : n < 3) (hd : d < 10) :
    readString (.decimal n v) (digitChar d :: r) = readString (.decimal (n + 1) (10 * v + d)) r := by
  have hdigit := LuaNumber.isdigit_digitChar d hd
  have hworth := (LuaNumber.digitChar_spec d (by omega)).2.2
  rw [readString]
  simp only [hn, hdigit, true_and, if_true, hworth]

/-- A backslash and a digit. -/
theorem readString_slash {d : ℕ} (hd : d < 10) :
    readString .plain (92 :: digitChar d :: r) = readString (.decimal 1 d) r := by
  have hslash : ∀ f : Place → Option (Bytes × Bytes),
      readSlash f (digitChar d) = f (.decimal 1 d) := by
    intro f
    interval_cases d <;> rfl
  rw [readString, readPlain]
  simp only [readString, hslash]
  simp

theorem readString_padded (hr : r ≠ []) {n : ℕ} (hn : n ≤ 255) :
    readString .plain (92 :: (paddedByte n ++ r)) = saved n.toUInt8 (readString .plain r) := by
  obtain ⟨c, r, rfl⟩ := exists_cons_of_ne_nil hr
  simp only [paddedByte, cons_append, nil_append]
  rw [readString_slash (by omega), readString_digit (by omega) (by omega),
    readString_digit (by omega) (by omega), readString_decimal (by omega) (by omega)]
  congr 2
  omega

theorem readString_decimalByte (hr : r ≠ []) (hdigit : r.head?.any isdigit = false) {n : ℕ}
    (hn : n ≤ 255) :
    readString .plain (92 :: (decimalByte n ++ r)) = saved n.toUInt8 (readString .plain r) := by
  obtain ⟨c, l, rfl⟩ := exists_cons_of_ne_nil hr
  have hc : isdigit c = false := hdigit
  unfold decimalByte
  split_ifs with h₁ h₂
  · simp only [cons_append, nil_append]
    rw [readString_slash h₁, readString_decimal hn fun _ => hc]
  · simp only [cons_append, nil_append]
    rw [readString_slash (by omega), readString_digit (by omega) (by omega),
      readString_decimal (by omega) fun _ => hc]
    congr 2
    omega
  · exact readString_padded hr hn

theorem isdigit_of_iscntrl (h : iscntrl c = true) : isdigit c = false := by
  simp only [iscntrl, Bool.or_eq_true, decide_eq_true_eq] at h
  simp only [isdigit, Bool.and_eq_false_iff, decide_eq_false_iff_not]
  rcases h with h | rfl
  · refine Or.inl fun hle => ?_
    have := UInt8.lt_iff_toNat_lt.1 h
    have := UInt8.le_iff_toNat_le.1 hle
    simp only [UInt8.reduceToNat] at *
    omega
  · exact Or.inr (by decide)

/-- What is written for a string starts with a digit just when the string does. -/
theorem quotedBytes_head (s : Bytes) : (quotedBytes s ++ 34 :: r).head?.any isdigit =
    s.head?.any isdigit := by
  cases s with
  | nil => rfl
  | cons c s =>
    rw [quotedBytes, quotedByte]
    by_cases h₁ : c = 34 ∨ c = 92 ∨ c = 10
    · rw [if_pos h₁]
      rcases h₁ with rfl | rfl | rfl <;> rfl
    · rw [if_neg h₁]
      cases h₂ : iscntrl c
      · rfl
      · show isdigit 92 = isdigit c
        rw [isdigit_of_iscntrl h₂]
        rfl

theorem readString_plain (hc : ¬ (c = 34 ∨ c = 92 ∨ c = 10)) (h : iscntrl c = false) :
    readString .plain (c :: r) = saved c (readString .plain r) := by
  have hreturn : c ≠ 13 := by
    rintro rfl
    cases h
  rw [readString, readPlain]
  simp only [not_or] at hc
  simp only [hc, hreturn, or_self, if_false]

theorem readString_escape (hc : c = 34 ∨ c = 92 ∨ c = 10) (hr : r.head? ≠ some 13) :
    readString .plain (92 :: c :: r) = saved c (readString .plain r) := by
  rcases hc with rfl | rfl | rfl
  · rfl
  · rfl
  · -- a line break that is not two bytes long
    cases r with
    | nil => rfl
    | cons b r =>
      have hb : b ≠ 13 := fun heq => hr (by rw [heq]; rfl)
      have hno : ¬ ((b = 10 ∨ b = 13) ∧ b ≠ 10) := by
        rintro ⟨hb' | hb', hne⟩
        · exact hne hb'
        · exact hb hb'
      show saved 10 (readString (.newline 10) (b :: r)) = saved 10 (readString .plain (b :: r))
      rw [readString, readString]
      simp only [hno, if_false]

theorem quotedBytes_head_ne (s : Bytes) : (quotedBytes s ++ 34 :: r).head? ≠ some 13 := by
  cases s with
  | nil => simp [quotedBytes]
  | cons c s =>
    rw [quotedBytes, quotedByte]
    by_cases h₁ : c = 34 ∨ c = 92 ∨ c = 10
    · simp [if_pos h₁]
    · by_cases h₂ : iscntrl c = true
      · simp [if_neg h₁, if_pos h₂]
      · rw [if_neg h₁, if_neg h₂]
        rintro ⟨⟩
        exact h₂ rfl

theorem readString_quotedBytes (s : Bytes) :
    readString .plain (quotedBytes s ++ 34 :: r) = some (s, r) := by
  induction s with
  | nil => rfl
  | cons c s ih =>
    have hne : quotedBytes s ++ 34 :: r ≠ [] := by simp
    have hc := c.toNat_lt
    have hsaved : saved c (some (s, r)) = some (c :: s, r) := rfl
    rw [quotedBytes, append_assoc, quotedByte]
    by_cases h₁ : c = 34 ∨ c = 92 ∨ c = 10
    · rw [if_pos h₁]
      refine (readString_escape h₁ (quotedBytes_head_ne s)).trans ?_
      rw [ih, hsaved]
    · rw [if_neg h₁]
      cases h₂ : iscntrl c
      · have hplain : readString .plain (c :: (quotedBytes s ++ 34 :: r)) = _ :=
          readString_plain h₁ h₂
        refine hplain.trans ?_
        rw [ih, hsaved]
      · rw [if_pos rfl, cons_append]
        by_cases h₃ : s.head?.any isdigit = true
        · rw [if_pos h₃, readString_padded hne (by omega), ih]
          simpa using hsaved
        · rw [if_neg h₃, readString_decimalByte hne _ (by omega), ih]
          · simpa using hsaved
          · rw [quotedBytes_head]
            simpa using h₃

variable {l_str2d : Bytes → Option UInt64}

theorem llex_addquoted (s : Bytes) : llex l_str2d (addquoted s ++ r) = some (.string s, r) := by
  have h := readString_quotedBytes (r := r) s
  rw [addquoted, cons_append, append_assoc, llex, if_pos rfl]
  show (readString .plain (quotedBytes s ++ 34 :: r)).map _ = _
  rw [h]
  rfl

end ReadBack

section Numerals

variable {c : UInt8} {r : Bytes} {l_str2d : Bytes → Option UInt64}

/-- A byte that no numeral goes on with. -/
def endsNumeral (c : UInt8) : Bool := !isxdigit c && !([43, 45, 46, 69, 80, 101, 112] : Bytes).contains c

theorem numeralLength_stop (h : endsNumeral c = true) (hex : Bool) (m : Mark) :
    numeralLength hex m (c :: r) = 0 := by
  simp only [endsNumeral, Bool.and_eq_true, Bool.not_eq_true', contains_eq_mem,
    decide_eq_false_iff_not, mem_cons, not_mem_nil, or_false, not_or] at h
  cases m <;> cases hex <;> simp [numeralLength, h]

theorem numeralLength_append (h : endsNumeral c = true) {hex : Bool} : ∀ {b : Bytes} {m : Mark},
    numeralLength hex m b = b.length → numeralLength hex m (b ++ c :: r) = b.length
  | [], _, _ => numeralLength_stop h _ _
  | x :: b, m, hb => by
    have hrest : ∀ m, numeralLength hex m b + 1 = b.length + 1 →
        numeralLength hex m (b ++ c :: r) + 1 = b.length + 1 := by
      intro m hm
      rw [numeralLength_append h (Nat.succ.inj hm)]
    rw [length_cons] at hb ⊢
    rw [cons_append]
    cases m <;> simp only [numeralLength] at hb ⊢ <;> split_ifs at hb ⊢ <;>
      exact hrest _ hb

/-- A text that `read_numeral` takes as a whole. -/
def IsNumeral : Bytes → Prop
  | [] => False
  | c :: b => isdigit c = true ∧ numeralRest c b = b.length

theorem numeralRest_append (h : endsNumeral c = true) (hx : c ≠ 120 ∧ c ≠ 88) {first : UInt8}
    {b : Bytes} (hb : numeralRest first b = b.length) :
    numeralRest first (b ++ c :: r) = b.length := by
  cases b with
  | nil =>
    simp only [nil_append, numeralRest, hx, or_self, and_false, if_false, length_nil]
    exact numeralLength_stop h _ _
  | cons x b =>
    rw [cons_append]
    simp only [numeralRest] at hb ⊢
    split_ifs at hb ⊢
    · rw [length_cons] at hb ⊢
      rw [numeralLength_append h (Nat.succ.inj hb)]
    · exact numeralLength_append (b := x :: b) h hb

/-- A numeral in front of a byte that ends it. -/
theorem llex_numeral (h : endsNumeral c = true) (hx : c ≠ 120 ∧ c ≠ 88) {b : Bytes}
    (hb : IsNumeral b) : llex l_str2d (b ++ c :: r) =
      (tonumber l_str2d b).map fun x => (.number x, c :: r) := by
  rcases b with _ | ⟨first, b⟩
  · exact hb.elim
  · obtain ⟨hdigit, hrest⟩ := hb
    have hquote : first ≠ 34 := by
      rintro rfl
      cases hdigit
    rw [cons_append, llex, if_neg hquote, if_pos hdigit]
    simp only [numeralRest_append h hx hrest, take_left, drop_left]

theorem numeralLength_digits {b : Bytes} (hb : ∀ c ∈ b, isdigit c = true) :
    numeralLength false .head b = b.length := by
  induction b with
  | nil => rfl
  | cons c b ih =>
    have hc := hb c mem_cons_self
    have hmark : c ≠ 69 ∧ c ≠ 101 := by
      constructor <;> rintro rfl <;> cases hc
    have hx : isxdigit c = true := by simp [isxdigit, hc]
    simp only [numeralLength, Bool.false_eq_true, if_false, hmark, or_self, hx, true_or, if_true,
      ih fun c hc => hb c (mem_cons_of_mem _ hc), length_cons]

theorem isNumeral_digits {b : Bytes} (hne : b ≠ []) (hb : ∀ c ∈ b, isdigit c = true) :
    IsNumeral b := by
  obtain ⟨first, b, rfl⟩ := exists_cons_of_ne_nil hne
  refine ⟨hb first mem_cons_self, ?_⟩
  rcases b with _ | ⟨c, b⟩
  · rfl
  · have hc := hb c (by simp)
    have hx : c ≠ 120 ∧ c ≠ 88 := by
      constructor <;> rintro rfl <;> cases hc
    have hdigits := numeralLength_digits (b := c :: b) fun d hd => hb d (mem_cons_of_mem _ hd)
    simp only [numeralRest, hx, or_self, and_false, if_false, hdigits]

theorem not_mem_of_numeralLength (h : endsNumeral c = true) {hex : Bool} : ∀ {b : Bytes} {m : Mark},
    numeralLength hex m b = b.length → c ∉ b
  | [], _, _ => not_mem_nil
  | x :: b, m, hb => by
    have hne : c ≠ x := by
      rintro rfl
      rw [numeralLength_stop h] at hb
      simp at hb
    have hrest : ∀ m, numeralLength hex m b + 1 = b.length + 1 → c ∉ b :=
      fun m hm => not_mem_of_numeralLength h (Nat.succ.inj hm)
    rw [length_cons] at hb
    rw [mem_cons, not_or]
    refine ⟨hne, ?_⟩
    cases m <;> simp only [numeralLength] at hb <;> split_ifs at hb <;> exact hrest _ hb

/-- A numeral has no byte that would end it. -/
theorem IsNumeral.not_mem (h : endsNumeral c = true) (hx : c ≠ 120 ∧ c ≠ 88) {b : Bytes}
    (hb : IsNumeral b) : c ∉ b := by
  rcases b with _ | ⟨first, b⟩
  · exact hb.elim
  · obtain ⟨hdigit, hrest⟩ := hb
    have hne : c ≠ first := by
      rintro rfl
      simp [endsNumeral, isxdigit, hdigit] at h
    rw [mem_cons, not_or]
    refine ⟨hne, ?_⟩
    rcases b with _ | ⟨x, b⟩
    · exact not_mem_nil
    · simp only [numeralRest] at hrest
      split_ifs at hrest with hhex
      · rw [mem_cons, not_or]
        refine ⟨?_, not_mem_of_numeralLength h (Nat.succ.inj hrest)⟩
        rintro rfl
        rcases hhex.2 with rfl | rfl
        · exact hx.1 rfl
        · exact hx.2 rfl
      · exact not_mem_of_numeralLength (b := x :: b) h hrest

end Numerals

section Lines

theorem digitChar_ne_newline : ∀ d < 10, digitChar d ≠ 10 := by
  decide

theorem count_quotedBytes (s : Bytes) : (quotedBytes s).count 10 = s.count 10 := by
  induction s with
  | nil => rfl
  | cons c s ih =>
    have hc := c.toNat_lt
    have hpadded : (paddedByte c.toNat).count 10 = 0 := by
      rw [count_eq_zero]
      simp only [paddedByte, mem_cons, not_mem_nil, or_false, not_or]
      exact ⟨(digitChar_ne_newline _ (by omega)).symm, (digitChar_ne_newline _ (by omega)).symm,
        (digitChar_ne_newline _ (by omega)).symm⟩
    have hdecimal : (decimalByte c.toNat).count 10 = 0 := by
      unfold decimalByte
      split_ifs
      · simp [digitChar_ne_newline _ ‹_›]
      · simp [digitChar_ne_newline (c.toNat / 10) (by omega),
          digitChar_ne_newline (c.toNat % 10) (by omega)]
      · exact hpadded
    rw [quotedBytes, count_append, ih, quotedByte]
    by_cases h₁ : c = 34 ∨ c = 92 ∨ c = 10
    · rw [if_pos h₁]
      rcases h₁ with rfl | rfl | rfl <;> simp [Nat.add_comm]
    · rw [if_neg h₁]
      have hne : c ≠ 10 := fun heq => h₁ (Or.inr (Or.inr heq))
      rw [count_cons_of_ne hne]
      split_ifs <;> simp [hpadded, hdecimal, hne]

theorem count_addquoted (s : Bytes) : (addquoted s).count 10 = s.count 10 := by
  simp [addquoted, count_quotedBytes]

end Lines

section Names

theorem llex_name {l_str2d : Bytes → Option UInt64} {c first : UInt8} {r b : Bytes}
    (hfirst : isName first = true) (hdigit : isdigit first = false)
    (hb : ∀ c ∈ b, isName c = true) (hc : isName c = false) :
    llex l_str2d (first :: (b ++ c :: r)) = some (.name (first :: b), c :: r) := by
  have hquote : first ≠ 34 := by
    rintro rfl
    cases hfirst
  have hall : ∀ x ∈ first :: b, isName x = true := by
    intro x hx
    rcases mem_cons.1 hx with rfl | hx
    · exact hfirst
    · exact hb x hx
  have htake : (first :: (b ++ c :: r)).takeWhile isName = first :: b := by
    rw [← cons_append, takeWhile_append_of_pos hall, takeWhile_cons_of_neg (by simp [hc]),
      append_nil]
  have hdrop : (first :: (b ++ c :: r)).dropWhile isName = c :: r := by
    rw [← cons_append, dropWhile_append_of_pos hall, dropWhile_cons_of_neg (by simp [hc])]
  rw [llex, if_neg hquote, if_neg (by simp [hdigit]), if_pos hfirst, htake, hdrop]

end Names

end LuaLex

end SkynetGame
