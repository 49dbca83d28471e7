import Mathlib.Data.Nat.Digits.Lemmas
import SkynetGame.Lib.LuaPattern

/-!
# Numerals of Lua (`l_str2int` of `3rd/lua/lobject.c`, `b_str2int` of `3rd/lua/lbaselib.c`)

What `tonumber` makes of a text, with a base and without one, and the texts that numbers are printed
as. A `lua_Integer` has 64 bits; reading digits wraps around.
-/

namespace SkynetGame

open List

namespace LuaNumber

open LuaPattern (isalnum isdigit isspace isxdigit isalpha)

section Read

/-- How many values a `lua_Unsigned` has. -/
def modulus : ℕ := 0x10000000000000000

/-- `l_castU2S` of a `lua_Unsigned`. -/
def castU2S (n : ℕ) : ℤ := if n < 0x8000000000000000 then n else (n : ℤ) - modulus

/-- What a sum of integers is, which wraps around. -/
def wrap (n : ℤ) : ℤ := castU2S (n % modulus).toNat

/-- `0u - n` if there is a minus, as a `lua_Integer`. -/
def signed (neg : Bool) (n : ℕ) : ℤ := castU2S (if neg then (modulus - n) % modulus else n)

def skipSpaces (s : Bytes) : Bytes := s.dropWhile isspace

/-- `isneg`: whether there is a minus, and what is behind the sign. -/
def isneg : Bytes → Bool × Bytes
  | 45 :: s => (true, s)
  | 43 :: s => (false, s)
  | s => (false, s)

/-- The digit that a letter or digit stands for. -/
def digitOf (c : UInt8) : ℕ :=
  if isdigit c then c.toNat - 48 else (LuaPattern.tolower c).toNat - 97 + 10

/-- The loop of `b_str2int`. -/
def baseDigits (base n : ℕ) : Bytes → Option (ℕ × Bytes)
  | [] => some (n, [])
  | c :: s =>
    if isalnum c then
      if base ≤ digitOf c then none else baseDigits base ((n * base + digitOf c) % modulus) s
    else some (n, c :: s)

/-- `tonumber` of a text with a base. -/
def tonumberBase (base : ℕ) (s : Bytes) : Option ℤ :=
  let (neg, s) := isneg (skipSpaces s)
  if s.head?.any isalnum then do
    let (n, s) ← baseDigits base 0 s
    if skipSpaces s = [] then some (signed neg n) else none
  else none

/-- The hexadecimal loop of `l_str2int`. -/
def hexDigits (a : ℕ) : Bytes → ℕ × Bytes
  | [] => (a, [])
  | c :: s => if isxdigit c then hexDigits ((a * 16 + digitOf c) % modulus) s else (a, c :: s)

/-- The decimal loop of `l_str2int`, which an overflow ends. -/
def decDigits (neg : Bool) (a : ℕ) : Bytes → Option (ℕ × Bytes)
  | [] => some (a, [])
  | c :: s =>
    if isdigit c then
      if 922337203685477580 ≤ a ∧
          (922337203685477580 < a ∨ 7 + (if neg then 1 else 0) < digitOf c) then none
      else decDigits neg (a * 10 + digitOf c) s
    else some (a, c :: s)

/-- `l_str2int` behind the sign. -/
def magnitude (neg : Bool) : Bytes → Option ℤ
  | 48 :: 120 :: s | 48 :: 88 :: s =>
    let (a, r) := hexDigits 0 s
    if r.length = s.length ∨ skipSpaces r ≠ [] then none else some (signed neg a)
  | s => do
    let (a, r) ← decDigits neg 0 s
    if r.length = s.length ∨ skipSpaces r ≠ [] then none else some (signed neg a)

def l_str2int (s : Bytes) : Option ℤ :=
  let (neg, s) := isneg (skipSpaces s)
  magnitude neg s

/-- A number: an integer, or a float. -/
inductive Number (φ : Type)
  | int (n : ℤ)
  | float (x : φ)
deriving DecidableEq, Repr

/-- `tonumber` of a text, where `l_str2d` reads floats. -/
def tonumber {φ : Type} (l_str2d : Bytes → Option φ) (s : Bytes) : Option (Number φ) :=
  match l_str2int s with
  | some n => some (.int n)
  | none => (l_str2d s).map .float

end Read

section Print

/-- A digit as `%x` and `%d` print it. -/
def digitChar (d : ℕ) : UInt8 := if d < 10 then (48 + d).toUInt8 else (87 + d).toUInt8

/-- A number as `%x` (for the base 16) or `%d` (for 10) prints it. -/
def numeral (base n : ℕ) : Bytes :=
  if n = 0 then [48] else (base.digits n).reverse.map digitChar

/-- `%d` of an integer. -/
def decimal (n : ℤ) : Bytes := if n < 0 then 45 :: numeral 10 n.natAbs else numeral 10 n.natAbs

end Print

section Digits

theorem digitChar_spec : ∀ d < 16, isalnum (digitChar d) ∧ isxdigit (digitChar d) ∧
    digitOf (digitChar d) = d := by
  decide

theorem isdigit_digitChar : ∀ d < 10, isdigit (digitChar d) := by
  decide

variable {base n : ℕ}

/-- What the digits are worth, after what is in front of them. -/
def worth (base n : ℕ) (ds : List ℕ) : ℕ := ds.foldl (fun n d => n * base + d) n

theorem worth_digits (base n : ℕ) : worth base 0 (base.digits n).reverse = n := by
  rw [worth, foldl_reverse]
  conv_rhs => rw [← Nat.ofDigits_digits base n, Nat.ofDigits_eq_foldr]
  simp only [Nat.cast_id]
  congr 1
  funext d m
  rw [Nat.mul_comm, Nat.add_comm]

theorem foldl_digitOf (base : ℕ) : ∀ (ds : List ℕ) (n : ℕ), (∀ d ∈ ds, d < 16) →
    (ds.map digitChar).foldl (fun n c => n * base + digitOf c) n = worth base n ds
  | [], _, _ => rfl
  | d :: ds, n, hds => by
    obtain ⟨hd, hds⟩ := forall_mem_cons.1 hds
    rw [map_cons, foldl_cons, (digitChar_spec d hd).2.2, foldl_digitOf base ds _ hds]
    rfl

/-- The digits of a numeral, the first one first. -/
theorem exists_numeral (hb : 1 < base) (n : ℕ) : ∃ ds : List ℕ, ds ≠ [] ∧ (∀ d ∈ ds, d < base) ∧
    numeral base n = ds.map digitChar ∧ worth base 0 ds = n := by
  unfold numeral
  split_ifs with h
  · exact ⟨[0], by simp, by simp; omega, rfl, by simp [worth, h]⟩
  · refine ⟨(base.digits n).reverse, ?_, ?_, rfl, worth_digits base n⟩
    · simpa [Nat.digits_eq_nil_iff_eq_zero] using h
    · intro d hd
      exact Nat.digits_lt_base hb (mem_reverse.1 hd)

theorem worth_mod (m : ℕ) : ∀ (ds : List ℕ) (n : ℕ),
    worth base (n % m) ds % m = worth base n ds % m
  | [], n => Nat.mod_mod n m
  | d :: ds, n => by
    have hstep : (n % m * base + d) % m = (n * base + d) % m := by
      rw [Nat.add_mod, Nat.mul_mod, Nat.mod_mod, ← Nat.mul_mod, ← Nat.add_mod]
    calc worth base (n % m) (d :: ds) % m
        = worth base ((n % m * base + d) % m) ds % m := (worth_mod m ds _).symm
      _ = worth base (n * base + d) ds % m := by rw [hstep, worth_mod m ds]

theorem baseDigits_map (hb : base ≤ 16) : ∀ (ds : List ℕ) (n : ℕ), (∀ d ∈ ds, d < base) →
    n < modulus → baseDigits base n (ds.map digitChar) = some (worth base n ds % modulus, [])
  | [], n, _, hn => by simp [baseDigits, worth, Nat.mod_eq_of_lt hn]
  | d :: ds, n, hds, _ => by
    obtain ⟨hd, hds⟩ := forall_mem_cons.1 hds
    obtain ⟨halnum, -, hdigit⟩ := digitChar_spec d (hd.trans_le hb)
    rw [map_cons, baseDigits, if_pos halnum, hdigit, if_neg (Nat.not_le.2 hd),
      baseDigits_map hb ds _ hds (Nat.mod_lt _ (by decide)), worth_mod]
    rfl

theorem le_worth (hb : 0 < base) : ∀ (ds : List ℕ) (n : ℕ), n ≤ worth base n ds
  | [], _ => le_rfl
  | d :: ds, n => calc
      n ≤ n * base + d := (Nat.le_mul_of_pos_right n hb).trans (Nat.le_add_right _ _)
      _ ≤ worth base n (d :: ds) := le_worth hb ds _

theorem decDigits_map {neg : Bool} : ∀ (ds : List ℕ) (n : ℕ), (∀ d ∈ ds, d < 10) →
    worth 10 n ds ≤ 0x7fffffffffffffff + (if neg then 1 else 0) →
    decDigits neg n (ds.map digitChar) = some (worth 10 n ds, [])
  | [], _, _, _ => rfl
  | d :: ds, n, hds, hn => by
    obtain ⟨hd, hds⟩ := forall_mem_cons.1 hds
    obtain ⟨-, -, hdigit⟩ := digitChar_spec d (hd.trans (by decide))
    have hle : n * 10 + d ≤ worth 10 n (d :: ds) := le_worth (by decide) ds _
    rw [map_cons, decDigits, if_pos (isdigit_digitChar d hd), hdigit, if_neg,
      decDigits_map ds _ hds hn]
    · rfl
    · cases neg <;> simp only [if_true, if_false, Bool.false_eq_true] at hn ⊢ <;> omega

theorem mem_numeral (hb : 1 < base) (hb' : base ≤ 16) {c : UInt8} (hc : c ∈ numeral base n) :
    isxdigit c = true := by
  obtain ⟨ds, -, hds, heq, -⟩ := exists_numeral hb n
  rw [heq, mem_map] at hc
  obtain ⟨d, hd, rfl⟩ := hc
  exact (digitChar_spec d ((hds d hd).trans_le hb')).2.1

theorem isdigit_of_mem_numeral {c : UInt8} (hc : c ∈ numeral 10 n) : isdigit c = true := by
  obtain ⟨ds, -, hds, heq, -⟩ := exists_numeral (by decide : 1 < 10) n
  rw [heq, mem_map] at hc
  obtain ⟨d, hd, rfl⟩ := hc
  exact isdigit_digitChar d (hds d hd)

theorem foldl_numeral (hb : 1 < base) (hb' : base ≤ 16) (n : ℕ) :
    (numeral base n).foldl (fun n c => n * base + digitOf c) 0 = n := by
  obtain ⟨ds, -, hds, heq, hworth⟩ := exists_numeral hb n
  rw [heq, foldl_digitOf base ds 0 fun d hd => (hds d hd).trans_le hb', hworth]

theorem numeral_ne_nil (hb : 1 < base) : numeral base n ≠ [] := by
  obtain ⟨ds, hne, -, heq, -⟩ := exists_numeral hb n
  rw [heq]
  simpa using hne

theorem isspace_eq_false_of_xdigit {c : UInt8} (hc : isxdigit c = true) :
    isspace c = false ∧ c ≠ 45 ∧ c ≠ 43 := by
  simp only [isxdigit, isdigit, isspace, Bool.or_eq_true, Bool.and_eq_true, decide_eq_true_eq,
    Bool.or_eq_false_iff, decide_eq_false_iff_not, UInt8.le_iff_toNat_le, ne_eq,
    ← UInt8.toNat_inj] at hc ⊢
  simp only [UInt8.reduceToNat] at hc ⊢
  rw [Bool.and_eq_false_iff, decide_eq_false_iff_not, decide_eq_false_iff_not]
  omega

theorem length_numeral_le {k : ℕ} (hb : 1 < base) (hk : 0 < k) (hn : n < base ^ k) :
    (numeral base n).length ≤ k := by
  unfold numeral
  split_ifs
  · exact hk
  · rw [length_map, length_reverse]
    exact (Nat.digits_length_le_iff hb n).2 hn

theorem isneg_skipSpaces {c : UInt8} {s : Bytes} (hc : isxdigit c = true) :
    isneg (skipSpaces (c :: s)) = (false, c :: s) := by
  obtain ⟨hspace, hminus, hplus⟩ := isspace_eq_false_of_xdigit hc
  rw [skipSpaces, dropWhile_cons_of_neg (by simp [hspace]), isneg]
  · rintro r h
    exact hminus (List.cons.inj h).1
  · rintro r h
    exact hplus (List.cons.inj h).1

theorem wrap_of_lt {n : ℕ} (hn : n < 0x8000000000000000) : wrap n = n := by
  have hmod : ((n : ℤ) % modulus).toNat = n := by
    rw [modulus]
    omega
  rw [wrap, hmod, castU2S, if_pos hn]

theorem signed_false (hn : n < 0x8000000000000000) : signed false n = n := if_pos hn

theorem signed_true (hn : n ≤ 0x8000000000000000) : signed true n = -n := by
  rcases Nat.eq_zero_or_pos n with rfl | hpos
  · rfl
  · have hmod : (modulus - n) % modulus = modulus - n :=
      Nat.mod_eq_of_lt (Nat.sub_lt (by decide) hpos)
    have hle : ¬ modulus - n < 0x8000000000000000 := by
      rw [modulus]
      omega
    rw [signed, if_pos rfl, hmod, castU2S, if_neg hle, modulus]
    omega

theorem tonumberBase_numeral (hb : 1 < base) (hb' : base ≤ 16) (hn : n < 0x8000000000000000) :
    tonumberBase base (numeral base n) = some (n : ℤ) := by
  obtain ⟨ds, hne, hds, heq, hworth⟩ := exists_numeral hb n
  obtain ⟨d, ds', rfl⟩ := exists_cons_of_ne_nil hne
  have hd := digitChar_spec d ((hds d mem_cons_self).trans_le hb')
  have hloop := baseDigits_map hb' (d :: ds') 0 hds (by decide)
  rw [hworth, Nat.mod_eq_of_lt (hn.trans (by decide))] at hloop
  rw [heq, tonumberBase, map_cons, isneg_skipSpaces hd.2.1]
  rw [map_cons] at hloop
  simp [hd.1, hloop, skipSpaces, signed_false hn]

theorem magnitude_numeral {neg : Bool} (hn : n ≤ 0x7fffffffffffffff + (if neg then 1 else 0)) :
    magnitude neg (numeral 10 n) = some (signed neg n) := by
  obtain ⟨ds, hne, hds, heq, hworth⟩ := exists_numeral (by decide : 1 < 10) n
  have hdec : decDigits neg 0 (ds.map digitChar) = some (worth 10 0 ds, []) :=
    decDigits_map ds 0 hds (by rwa [hworth])
  have hx : ∀ s : Bytes, numeral 10 n ≠ 48 :: 120 :: s ∧ numeral 10 n ≠ 48 :: 88 :: s := by
    refine fun s => ⟨fun h => ?_, fun h => ?_⟩
    all_goals
      obtain ⟨d, hd, hc⟩ := mem_map.1 (heq ▸ h ▸ mem_cons_of_mem _ mem_cons_self)
      have hdigit := isdigit_digitChar d (hds d hd)
      rw [hc] at hdigit
      exact absurd hdigit (by decide)
  rw [magnitude]
  · have hlen : ds.length ≠ 0 := by simpa using hne
    rw [heq, hdec, hworth]
    simp [skipSpaces, hlen.symm]
  · exact fun s => (hx s).1
  · exact fun s => (hx s).2

theorem l_str2int_decimal {n : ℤ} (hlo : -0x8000000000000000 ≤ n) (hhi : n < 0x8000000000000000) :
    l_str2int (decimal n) = some n := by
  have habs := Int.natAbs_of_nonneg (a := n)
  unfold l_str2int decimal
  split_ifs with hneg
  · have hsign : isneg (skipSpaces (45 :: numeral 10 n.natAbs)) = (true, numeral 10 n.natAbs) := by
      simp [skipSpaces, isspace, isneg]
    simp only [hsign]
    rw [magnitude_numeral (by simp only [if_true]; omega), signed_true (by omega)]
    congr 1
    omega
  · have hne : numeral 10 n.natAbs ≠ [] := numeral_ne_nil (by decide)
    obtain ⟨c, s, hs⟩ := exists_cons_of_ne_nil hne
    have hmem : c ∈ numeral 10 n.natAbs := hs ▸ mem_cons_self
    have hc : isxdigit c = true := mem_numeral (by decide) (by decide) hmem
    have hsign := isneg_skipSpaces (s := s) hc
    rw [← hs] at hsign
    simp only [hsign]
    rw [magnitude_numeral (by simp; omega), signed_false (by omega)]
    congr 1
    omega

/-- What `%d` prints is an integer for `tonumber`. -/
theorem tonumber_decimal {φ : Type} (l_str2d : Bytes → Option φ) {n : ℤ}
    (hlo : -0x8000000000000000 ≤ n) (hhi : n < 0x8000000000000000) :
    tonumber l_str2d (decimal n) = some (.int n) := by
  rw [tonumber, l_str2int_decimal hlo hhi]

theorem decimal_natCast (n : ℕ) : decimal n = numeral 10 n := by
  rw [decimal, if_neg (by omega), Int.natAbs_natCast]

end Digits

section Written

/-- The number that digits are, after what is in front of them. -/
def digitsWorth (base n : ℕ) (ds : Bytes) : ℕ := ds.foldl (fun n c => n * base + digitOf c) n

/-- The number that is written, of any size: a sign, digits of a kind, and spaces around them. -/
def writtenAs (kind : UInt8 → Bool) (base : ℕ) (neg : Bool) (s : Bytes) : Option ℤ :=
  let ds := s.takeWhile kind
  if ds ≠ [] ∧ ds.all (fun c => digitOf c < base) ∧ skipSpaces (s.dropWhile kind) = [] then
    some (if neg then -(digitsWorth base 0 ds : ℤ) else digitsWorth base 0 ds)
  else none

/-- The number that a text with a base is. -/
def written (base : ℕ) (s : Bytes) : Option ℤ :=
  let (neg, s) := isneg (skipSpaces s)
  writtenAs isalnum base neg s

/-- The number of an integer of Lua behind its sign, which is hexadecimal behind `0x`. -/
def writtenMagnitude (neg : Bool) : Bytes → Option ℤ
  | 48 :: 120 :: s | 48 :: 88 :: s => writtenAs isxdigit 16 neg s
  | s => writtenAs isdigit 10 neg s

/-- The number that an integer of Lua is. -/
def writtenInteger (s : Bytes) : Option ℤ :=
  let (neg, s) := isneg (skipSpaces s)
  writtenMagnitude neg s

variable {base n : ℕ} {neg : Bool} {s : Bytes}

theorem digitsWorth_mod (m : ℕ) : ∀ (ds : Bytes) (n : ℕ),
    digitsWorth base (n % m) ds % m = digitsWorth base n ds % m
  | [], n => Nat.mod_mod n m
  | c :: ds, n => by
    have hstep : (n % m * base + digitOf c) % m = (n * base + digitOf c) % m := by
      rw [Nat.add_mod, Nat.mul_mod, Nat.mod_mod, ← Nat.mul_mod, ← Nat.add_mod]
    calc digitsWorth base (n % m) (c :: ds) % m
        = digitsWorth base ((n % m * base + digitOf c) % m) ds % m := (digitsWorth_mod m ds _).symm
      _ = digitsWorth base (n * base + digitOf c) ds % m := by rw [hstep, digitsWorth_mod m ds]

theorem le_digitsWorth (hb : 0 < base) : ∀ (ds : Bytes) (n : ℕ), n ≤ digitsWorth base n ds
  | [], _ => le_rfl
  | c :: ds, n => calc
      n ≤ n * base + digitOf c := (Nat.le_mul_of_pos_right n hb).trans (Nat.le_add_right _ _)
      _ ≤ digitsWorth base n (c :: ds) := le_digitsWorth hb ds _

theorem signed_mod (neg : Bool) (n : ℕ) :
    signed neg (n % modulus) = wrap (if neg then -(n : ℤ) else n) := by
  cases neg
  · simp only [signed, wrap, Bool.false_eq_true, if_false]
    congr 1
  · simp only [signed, wrap, if_true]
    congr 1
    rw [modulus]
    omega

theorem baseDigits_eq : ∀ (s : Bytes) (n : ℕ), n < modulus → baseDigits base n s =
    if (s.takeWhile isalnum).all fun c => digitOf c < base then
      some (digitsWorth base n (s.takeWhile isalnum) % modulus, s.dropWhile isalnum)
    else none
  | [], n, hn => by simp [baseDigits, digitsWorth, Nat.mod_eq_of_lt hn]
  | c :: s, n, hn => by
    by_cases hc : isalnum c = true
    · rw [baseDigits, if_pos hc, takeWhile_cons_of_pos hc, dropWhile_cons_of_pos hc]
      by_cases hdigit : base ≤ digitOf c
      · rw [if_pos hdigit, if_neg]
        intro h
        exact (of_decide_eq_true (all_eq_true.1 h c mem_cons_self)).not_ge hdigit
      · rw [if_neg hdigit, baseDigits_eq s _ (Nat.mod_lt _ (by decide)), digitsWorth_mod]
        simp only [all_cons, Nat.not_le.1 hdigit, decide_true, Bool.true_and, digitsWorth,
          foldl_cons]
    · rw [baseDigits, if_neg hc, takeWhile_cons_of_neg hc, dropWhile_cons_of_neg hc]
      simp [digitsWorth, Nat.mod_eq_of_lt hn]

theorem takeWhile_ne_nil {kind : UInt8 → Bool} : s.takeWhile kind ≠ [] ↔ s.head?.any kind = true := by
  cases s with
  | nil => simp
  | cons c s =>
    by_cases hc : kind c = true
    · simp [hc]
    · simp [hc]

/-- What is read with a base is what is written, but for the numbers that wrap around. -/
theorem tonumberBase_eq : tonumberBase base s = (written base s).map wrap := by
  rw [tonumberBase, written]
  obtain ⟨neg, s⟩ := isneg (skipSpaces s)
  simp only [writtenAs, baseDigits_eq s 0 (by decide)]
  by_cases hne : s.head?.any isalnum = true
  · rw [if_pos hne]
    by_cases hdigits : (s.takeWhile isalnum).all fun c => digitOf c < base
    · rw [if_pos hdigits]
      by_cases hrest : skipSpaces (s.dropWhile isalnum) = []
      · rw [if_pos ⟨takeWhile_ne_nil.2 hne, hdigits, hrest⟩, Option.map_some, ← signed_mod]
        exact if_pos hrest
      · rw [if_neg fun h => hrest h.2.2]
        exact if_neg hrest
    · rw [if_neg hdigits, if_neg fun h => hdigits h.2.1]
      rfl
  · rw [if_neg hne, if_neg fun h => hne (takeWhile_ne_nil.1 h.1)]
    rfl

theorem hexDigits_eq : ∀ (s : Bytes) (n : ℕ), n < modulus → hexDigits n s =
    (digitsWorth 16 n (s.takeWhile isxdigit) % modulus, s.dropWhile isxdigit)
  | [], n, hn => by simp [hexDigits, digitsWorth, Nat.mod_eq_of_lt hn]
  | c :: s, n, hn => by
    by_cases hc : isxdigit c = true
    · rw [hexDigits, if_pos hc, takeWhile_cons_of_pos hc, dropWhile_cons_of_pos hc,
        hexDigits_eq s _ (Nat.mod_lt _ (by decide)), digitsWorth_mod]
      rfl
    · rw [hexDigits, if_neg hc, takeWhile_cons_of_neg hc, dropWhile_cons_of_neg hc]
      simp [digitsWorth, Nat.mod_eq_of_lt hn]

/-- Decimal digits are read to their end unless there are too many. -/
theorem decDigits_eq (neg : Bool) : ∀ (s : Bytes) (n : ℕ), decDigits neg n s =
      some (digitsWorth 10 n (s.takeWhile isdigit), s.dropWhile isdigit) ∨
    decDigits neg n s = none ∧ 0x7fffffffffffffff < digitsWorth 10 n (s.takeWhile isdigit)
  | [], n => .inl rfl
  | c :: s, n => by
    by_cases hc : isdigit c = true
    · rw [decDigits, if_pos hc, takeWhile_cons_of_pos hc, dropWhile_cons_of_pos hc]
      by_cases hover : 922337203685477580 ≤ n ∧
          (922337203685477580 < n ∨ 7 + (if neg then 1 else 0) < digitOf c)
      · have hle : n * 10 + digitOf c ≤ digitsWorth 10 n (c :: s.takeWhile isdigit) :=
          le_digitsWorth (by decide) (s.takeWhile isdigit) (n * 10 + digitOf c)
        refine .inr ⟨if_pos hover, ?_⟩
        omega
      · rw [if_neg hover]
        exact decDigits_eq neg s _
    · rw [decDigits, if_neg hc, takeWhile_cons_of_neg hc, dropWhile_cons_of_neg hc]
      exact .inl rfl

theorem digitOf_lt_of_isdigit {c : UInt8} (hc : isdigit c = true) : digitOf c < 10 := by
  rw [digitOf, if_pos hc]
  simp only [isdigit, Bool.and_eq_true, decide_eq_true_eq, UInt8.le_iff_toNat_le,
    UInt8.reduceToNat] at hc
  omega

theorem digitOf_lt_of_isxdigit {c : UInt8} (hc : isxdigit c = true) : digitOf c < 16 := by
  by_cases hdigit : isdigit c = true
  · have := digitOf_lt_of_isdigit hdigit
    omega
  · rw [digitOf, if_neg hdigit, LuaPattern.tolower]
    simp only [isxdigit, hdigit, LuaPattern.isupper, Bool.or_eq_true, Bool.and_eq_true, false_or,
      decide_eq_true_eq, UInt8.le_iff_toNat_le, UInt8.reduceToNat, Bool.false_eq_true] at hc ⊢
    split_ifs with hupper
    · have hsum : (c + 32).toNat = (c.toNat + 32) % 256 := UInt8.toNat_add c 32
      omega
    · omega

theorem dropWhile_length {kind : UInt8 → Bool} :
    (s.dropWhile kind).length = s.length ↔ s.takeWhile kind = [] := by
  have := congrArg List.length (takeWhile_append_dropWhile (p := kind) (l := s))
  rw [length_append] at this
  rw [← length_eq_zero_iff]
  omega

theorem writtenAs_eq_some {kind : UInt8 → Bool} {k : ℕ} (h : writtenAs kind base neg s = some (k : ℤ)) :
    s.takeWhile kind ≠ [] ∧ skipSpaces (s.dropWhile kind) = [] ∧
      digitsWorth base 0 (s.takeWhile kind) = k ∧ (neg = true → k = 0) := by
  simp only [writtenAs, Option.ite_none_right_eq_some, Option.some.injEq] at h
  obtain ⟨⟨hne, -, hrest⟩, h⟩ := h
  cases neg
  · simp only [Bool.false_eq_true, if_false, Nat.cast_inj] at h
    exact ⟨hne, hrest, h, fun h => absurd h Bool.false_ne_true⟩
  · simp only [if_true] at h
    exact ⟨hne, hrest, by omega, fun _ => by omega⟩

theorem signed_of_lt {k : ℕ} (hk : k < 0x8000000000000000) (hneg : neg = true → k = 0) :
    signed neg k = k := by
  cases neg
  · exact signed_false hk
  · obtain rfl := hneg rfl
    rfl

theorem hexMagnitude_eq_some {k : ℕ} (h : writtenAs isxdigit 16 neg s = some (k : ℤ))
    (hk : k < 0x8000000000000000) :
    (if (hexDigits 0 s).2.length = s.length ∨ skipSpaces (hexDigits 0 s).2 ≠ [] then none
      else some (signed neg (hexDigits 0 s).1)) = some (k : ℤ) := by
  obtain ⟨hne, hrest, hworth, hneg⟩ := writtenAs_eq_some h
  simp only [hexDigits_eq s 0 (by decide), dropWhile_length]
  rw [if_neg (by tauto), hworth, Nat.mod_eq_of_lt (hk.trans (by decide)), signed_of_lt hk hneg]

theorem magnitude_eq_some {k : ℕ} (h : writtenMagnitude neg s = some (k : ℤ))
    (hk : k < 0x8000000000000000) : magnitude neg s = some (k : ℤ) := by
  unfold writtenMagnitude at h
  split at h
  · exact hexMagnitude_eq_some h hk
  · exact hexMagnitude_eq_some h hk
  · next hx hx' =>
    obtain ⟨hne, hrest, hworth, hneg⟩ := writtenAs_eq_some h
    rw [magnitude.eq_3 neg _ hx hx']
    rcases decDigits_eq neg s 0 with hdec | ⟨-, hlt⟩
    · simp only [hdec, hworth, Option.bind_eq_bind, Option.bind_some, dropWhile_length]
      rw [if_neg (by tauto), signed_of_lt hk hneg]
    · omega

theorem l_str2int_eq_some {k : ℕ} (h : writtenInteger s = some (k : ℤ))
    (hk : k < 0x8000000000000000) : l_str2int s = some (k : ℤ) :=
  magnitude_eq_some h hk

theorem writtenAs_eq_none {kind : UInt8 → Bool} (hkind : ∀ c, kind c = true → digitOf c < base)
    (h : writtenAs kind base neg s = none) :
    s.takeWhile kind = [] ∨ skipSpaces (s.dropWhile kind) ≠ [] := by
  simp only [writtenAs, ite_eq_right_iff, reduceCtorEq, imp_false] at h
  have hall : (s.takeWhile kind).all (fun c => digitOf c < base) = true :=
    all_eq_true.2 fun c hc => decide_eq_true (hkind c (mem_takeWhile_imp hc))
  tauto

theorem hexMagnitude_eq_none (h : writtenAs isxdigit 16 neg s = none) :
    (if (hexDigits 0 s).2.length = s.length ∨ skipSpaces (hexDigits 0 s).2 ≠ [] then none
      else some (signed neg (hexDigits 0 s).1)) = none := by
  simp only [hexDigits_eq s 0 (by decide), dropWhile_length]
  exact if_pos (writtenAs_eq_none (fun _ => digitOf_lt_of_isxdigit) h)

theorem magnitude_eq_none (h : writtenMagnitude neg s = none) : magnitude neg s = none := by
  unfold writtenMagnitude at h
  split at h
  · exact hexMagnitude_eq_none h
  · exact hexMagnitude_eq_none h
  · next hx hx' =>
    have hbad := writtenAs_eq_none (fun _ => digitOf_lt_of_isdigit) h
    rw [magnitude.eq_3 neg _ hx hx']
    rcases decDigits_eq neg s 0 with hdec | ⟨hdec, -⟩
    · simp only [hdec, Option.bind_eq_bind, Option.bind_some, dropWhile_length]
      exact if_pos hbad
    · simp only [hdec, Option.bind_eq_bind, Option.bind_none]

theorem l_str2int_eq_none (h : writtenInteger s = none) : l_str2int s = none :=
  magnitude_eq_none h

end Written

end LuaNumber

end SkynetGame
