import Mathlib.Data.List.TakeWhile
import SkynetGame.Lib.Bytes

/-!
# Lua patterns (`3rd/lua/lstrlib.c`)

`match` and what is built on it: `string.find`, `string.match`, and `string.gsub` with a table.
A position in the source is a number, a place in the pattern what is left of it from there. An
outer `none` is an error that was raised, an inner one a match that failed.
-/

namespace SkynetGame

open Option

namespace LuaPattern

section Class

def isalpha (c : UInt8) : Bool := (65 ≤ c && c ≤ 90) || (97 ≤ c && c ≤ 122)

def isdigit (c : UInt8) : Bool := 48 ≤ c && c ≤ 57

def isalnum (c : UInt8) : Bool := isalpha c || isdigit c

def islower (c : UInt8) : Bool := 97 ≤ c && c ≤ 122

def isupper (c : UInt8) : Bool := 65 ≤ c && c ≤ 90

def iscntrl (c : UInt8) : Bool := c < 32 || c = 127

def isgraph (c : UInt8) : Bool := 33 ≤ c && c ≤ 126

def isspace (c : UInt8) : Bool := c = 32 || (9 ≤ c && c ≤ 13)

def isxdigit (c : UInt8) : Bool := isdigit c || (65 ≤ c && c ≤ 70) || (97 ≤ c && c ≤ 102)

def tolower (c : UInt8) : UInt8 := if isupper c then c + 32 else c

/-- `match_class`, for the class `%cl`. -/
def matchClass (c cl : UInt8) : Bool :=
  let res : Option Bool :=
    match Char.ofNat (tolower cl).toNat with
    | 'a' => some (isalpha c)
    | 'c' => some (iscntrl c)
    | 'd' => some (isdigit c)
    | 'g' => some (isgraph c)
    | 'l' => some (islower c)
    | 'p' => some (isgraph c && !isalnum c)
    | 's' => some (isspace c)
    | 'u' => some (isupper c)
    | 'w' => some (isalnum c)
    | 'x' => some (isxdigit c)
    | 'z' => some (c = 0)
    | _ => none
  match res with
  | some res => if islower cl then res else !res
  | none => cl = c

/-- The loop of `matchbracketclass` over what stands between the brackets. -/
def inSet (c : UInt8) : Bytes → Bool
  | 37 :: cl :: r => matchClass c cl || inSet c r
  | a :: 45 :: b :: r => (a ≤ c && c ≤ b) || inSet c r
  | a :: r => a = c || inSet c r
  | [] => false

/-- `matchbracketclass`. -/
def matchBracketClass (c : UInt8) : Bytes → Bool
  | 94 :: set => !inSet c set
  | set => inSet c set

/-- How many bytes a set takes from after its bracket on, the closing one included. -/
def setLength : Bytes → Option ℕ
  | [] | [37] => none
  | 37 :: _ :: 93 :: _ => some 3
  | 37 :: _ :: r => (setLength r).map (· + 2)
  | _ :: 93 :: _ => some 2
  | _ :: r => (setLength r).map (· + 1)

/-- `classend`: how many bytes the class at the head of the pattern takes. -/
def classLength : Bytes → Option ℕ
  | [] => some 0
  | [37] => none
  | 37 :: _ :: _ => some 2
  | 91 :: 94 :: r => (setLength r).map (· + 2)
  | 91 :: r => (setLength r).map (· + 1)
  | _ :: _ => some 1

/-- `singlematch`, for a class of `n` bytes at the head of `p`. -/
def singleMatch (p : Bytes) (n : ℕ) : Option UInt8 → Bool
  | none => false
  | some c =>
    match p with
    | 46 :: _ => true
    | 37 :: cl :: _ => matchClass c cl
    | 91 :: set => matchBracketClass c (set.take (n - 2))
    | a :: _ => a = c
    | [] => false

end Class

/-- How long a capture is. -/
inductive CapLen
  | unfinished
  | position
  | closed (n : ℕ)
deriving DecidableEq, Repr

/-- The captures: where each starts, and how long it is. -/
abbrev Caps := List (ℕ × CapLen)

/-- Raised, failed, or matched up to a position, with captures. -/
abbrev Result := Option (Option (ℕ × Caps))

/-- Which capture a `)` closes. -/
def captureToClose (caps : Caps) : Option ℕ :=
  (List.range caps.length).reverse.find? fun i => caps[i]?.any fun c => c.2 = .unfinished

section Match

variable (src : Bytes)

/-- The loop of `matchbalance`, from position `s` on with `cont` open. -/
def balance (b e : UInt8) : Bytes → ℕ → ℕ → Option ℕ
  | [], _, _ => none
  | c :: r, s, cont =>
    if c = e then if cont = 1 then some (s + 1) else balance b e r (s + 1) (cont - 1)
    else balance b e r (s + 1) (if c = b then cont + 1 else cont)

/-- The second loop of `max_expand`: `i` repetitions, and then fewer and fewer. -/
def maxExpand (m : ℕ → Result) (s : ℕ) : ℕ → Result
  | 0 => m s
  | i + 1 => do
    match ← m (s + (i + 1)) with
    | some r => some (some r)
    | none => maxExpand m s i

/-- `min_expand`, with the positions left to go through. -/
def minExpand (m : ℕ → Result) (single : Option UInt8 → Bool) : ℕ → ℕ → Result
  | 0, s => m s
  | n + 1, s => do
    match ← m s with
    | some r => some (some r)
    | none => if single src[s]? then minExpand m single n (s + 1) else some none

/-- One call of `match`, with `rec` for the calls it makes. The pattern is gone through byte by
byte; a `goto init` skips the bytes up to where it goes on. -/
def matchHere (rec : Bytes → ℕ → Caps → Result) : Bytes → ℕ → ℕ → Caps → Result
  | [], _, s, caps => some (some (s, caps))
  | _ :: p, skip + 1, s, caps => matchHere rec p skip s caps
  | c :: p, 0, s, caps =>
    -- a single class, with the suffix that may follow it
    let dflt : Result := do
      let n ← classLength (c :: p)
      let single := singleMatch (c :: p) n
      let next := p.drop n
      match single src[s]?, (c :: p)[n]? with
      | false, some 42 | false, some 63 | false, some 45 => matchHere rec p n s caps
      | false, _ => some none
      | true, some 63 => do
        match ← rec next (s + 1) caps with
        | some r => some (some r)
        | none => matchHere rec p n s caps
      | true, some 43 =>
        let i := ((src.drop (s + 1)).takeWhile fun c => single (some c)).length
        maxExpand (fun s => rec next s caps) (s + 1) i
      | true, some 42 =>
        let i := ((src.drop s).takeWhile fun c => single (some c)).length
        maxExpand (fun s => rec next s caps) s i
      | true, some 45 => minExpand src (fun s => rec next s caps) single src.length s
      | true, _ => matchHere rec p (n - 1) (s + 1) caps
    match c, p with
    | 40, 41 :: q => if caps.length < 32 then rec q s (caps ++ [(s, .position)]) else none
    | 40, _ => if caps.length < 32 then rec p s (caps ++ [(s, .unfinished)]) else none
    | 41, _ => do
      let l ← captureToClose caps
      rec p s (caps.modify l fun c => (c.1, .closed (s - c.1)))
    | 36, [] => some (if s = src.length then some (s, caps) else none)
    | 37, 98 :: b :: e :: _ =>
      if src[s]? = some b then
        match balance b e (src.drop (s + 1)) (s + 1) 1 with
        | some s' => matchHere rec p 3 s' caps
        | none => some none
      else some none
    | 37, [98] | 37, [98, _] => none
    | 37, 102 :: 91 :: q => do
      let n ← classLength (91 :: q)
      let set := q.take (n - 2)
      let previous := if s = 0 then 0 else (src[s - 1]?).getD 0
      if !matchBracketClass previous set && matchBracketClass ((src[s]?).getD 0) set then
        matchHere rec p (n + 1) s caps
      else some none
    | 37, 102 :: _ => none
    | 37, d :: _ =>
      if isdigit d then do
        if d = 48 then none else
        match caps[(d - 49).toNat]? with
        | some (init, .closed len) =>
          let text := (src.drop init).take len
          if text.isPrefixOf (src.drop s) then matchHere rec p 1 (s + len) caps else some none
        -- the length of a position capture is -2, more than is left as a `size_t`
        | some (_, .position) => some none
        | some (_, .unfinished) | none => none
      else dflt
    | _, _ => dflt

/-- `match`, which may call itself so many levels deep. -/
def matchAt : ℕ → Bytes → ℕ → Caps → Result
  | 0, _, _, _ => none
  | depth + 1, p, s, caps => matchHere src (matchAt depth) p 0 s caps

/-- What a capture is worth. -/
inductive Capture
  | str (b : Bytes)
  | pos (n : ℕ)
deriving DecidableEq, Repr

/-- `push_onecapture` of a capture there is. -/
def pushCapture : ℕ × CapLen → Option Capture
  | (_, .unfinished) => none
  | (init, .position) => some (.pos (init + 1))
  | (init, .closed len) => some (.str ((src.drop init).take len))

/-- `push_onecapture` of the first capture, or the whole match from `s` to `e`. -/
def firstCapture (s e : ℕ) : Caps → Option Capture
  | [] => some (.str ((src.drop s).take (e - s)))
  | c :: _ => pushCapture src c

/-- `push_captures`. -/
def pushCaptures (s e : ℕ) : Caps → Option (List Capture)
  | [] => (firstCapture src s e []).map ([·])
  | caps => caps.mapM (pushCapture src)

/-- The first place from `s` on, and `n` more, where the pattern matches. -/
def search (p : Bytes) : ℕ → ℕ → Option (Option (ℕ × ℕ × Caps))
  | 0, s => do
    let r ← matchAt src 200 p s []
    return r.map fun (e, caps) => (s, e, caps)
  | n + 1, s => do
    match ← matchAt src 200 p s [] with
    | some (e, caps) => some (some (s, e, caps))
    | none => search p n (s + 1)

/-- The search of `str_find_aux`; `^` at the head of the pattern lets it look at the start only. -/
def searchAnchored : Bytes → Option (Option (ℕ × ℕ × Caps))
  | 94 :: p => search src p 0 0
  | p => search src p src.length 0

/-- `string.match`; no capture is `nil`. -/
def strMatch (p : Bytes) : Option (List Capture) := do
  match ← searchAnchored src p with
  | some (s, e, caps) => pushCaptures src s e caps
  | none => some []

/-- `nospecials`. -/
def noSpecials (p : Bytes) : Bool := p.all fun c => c ∉ Bytes.ascii "^$*+?.([%-"

/-- `lmemfind`. -/
def memFind (p : Bytes) : Option ℕ :=
  (List.range (src.length + 1)).find? fun i => p.isPrefixOf (src.drop i)

/-- Where `string.find` finds the pattern, from 1 on. -/
def strFind (p : Bytes) : Option (Option ℕ) :=
  if noSpecials p then some ((memFind src p).map (· + 1))
  else do
    let r ← searchAnchored src p
    return r.map fun r => r.1 + 1

/-- What `string.gsub` makes of the source: bytes it keeps, and matches with their first capture. -/
inductive Piece
  | byte (c : UInt8)
  | found (text : Bytes) (key : Capture)
deriving DecidableEq, Repr

/-- The loop of `str_gsub` at position `s`, with `skip` bytes still to go through of the last match,
which ended at `last`. After an empty match the same place gives the same match again, which
ends at `last`, so a byte is kept. -/
def gsubLoop (p : Bytes) : Bytes → ℕ → ℕ → Option ℕ → Option (List Piece)
  | [], s, _, last => do
    match ← matchAt src 200 p s [] with
    | some (e, caps) => if some e = last then some [] else do
      return [.found [] (← firstCapture src s e caps)]
    | none => some []
  | _ :: r, s, skip + 1, last => gsubLoop p r (s + 1) skip last
  | c :: r, s, 0, last => do
    match ← matchAt src 200 p s [] with
    | some (e, caps) =>
      if some e = last then return .byte c :: (← gsubLoop p r (s + 1) 0 last)
      else
        let found := .found ((src.drop s).take (e - s)) (← firstCapture src s e caps)
        if e = s then return found :: .byte c :: (← gsubLoop p r (s + 1) 0 (some e))
        else return found :: (← gsubLoop p r (s + 1) (e - s - 1) (some e))
    | none => return .byte c :: (← gsubLoop p r (s + 1) 0 last)

/-- What `string.gsub` finds; `^` at the head of the pattern lets it look at the start only. -/
def gsubPieces : Bytes → Option (List Piece)
  | 94 :: p => do
    match ← matchAt src 200 p 0 [] with
    | some (e, caps) =>
      return .found (src.take e) (← firstCapture src 0 e caps) :: (src.drop e).map .byte
    | none => return src.map .byte
  | p => gsubLoop src p src 0 0 none

end Match

/-- What a table holds under a key, as far as `string.gsub` tells it apart; a number comes with its
text. -/
inductive Value
  | bool (b : Bool)
  | num (text : Bytes)
  | str (b : Bytes)
  | other
deriving DecidableEq, Repr

/-- A table, as far as `string.gsub` can look into it. -/
abbrev Table := List (Capture × Value)

/-- `add_value`: what a piece is replaced with. -/
def addValue (t : Table) : Piece → Option Bytes
  | .byte c => some [c]
  | .found text key =>
    match t.lookup key with
    | none | some (.bool false) => some text
    | some (.num b) | some (.str b) => some b
    | some (.bool true) | some .other => none

/-- `string.gsub(src, p, t)`, without its second result. -/
def gsub (src p : Bytes) (t : Table) : Option Bytes := do
  let pieces ← gsubPieces src p
  return (← pieces.mapM (addValue t)).flatten

theorem maxExpand_of_some {m : ℕ → Result} {s n : ℕ} {r : ℕ × Caps}
    (h : m (s + n) = some (some r)) : maxExpand m s n = some (some r) := by
  cases n with
  | zero => exact h
  | succ n => simp [maxExpand, h]

section Find

variable {s r text : Bytes} {n m : ℕ}

/-- The text stands behind `n` bytes, and not in front of that. -/
def FirstAt (s text : Bytes) (n : ℕ) : Prop :=
  text <+: s.drop n ∧ ∀ m < n, ¬ text <+: s.drop m

theorem length_of_prefix_drop (h : text <+: s.drop n) : text = [] ∨ n + text.length ≤ s.length := by
  have hle := h.length_le
  rw [List.length_drop] at hle
  rcases Nat.eq_zero_or_pos text.length with hzero | hpos
  · exact .inl (List.length_eq_zero_iff.1 hzero)
  · exact .inr (by omega)

theorem memFind_eq_some : memFind s text = some n ↔ FirstAt s text n := by
  simp only [memFind, List.find?_range_eq_some, List.isPrefixOf_iff_prefix, List.mem_range,
    Bool.not_eq_true', Bool.eq_false_iff, ne_eq, FirstAt]
  constructor
  · rintro ⟨h, -, hmin⟩
    exact ⟨h, hmin⟩
  · rintro ⟨h, hmin⟩
    refine ⟨h, ?_, hmin⟩
    rcases length_of_prefix_drop h with rfl | hle
    · by_contra hn
      exact hmin 0 (by omega) (List.nil_prefix)
    · omega

theorem memFind_eq_none : memFind s text = none ↔ ∀ n, ¬ text <+: s.drop n := by
  simp only [memFind, List.find?_eq_none, List.isPrefixOf_iff_prefix, List.mem_range]
  refine ⟨fun h n hn => ?_, fun h n _ => h n⟩
  rcases length_of_prefix_drop hn with rfl | hle
  · exact h 0 (by omega) List.nil_prefix
  · exact h n (by omega) hn

theorem FirstAt.unique (h : FirstAt s text n) (h' : FirstAt s text m) : n = m := by
  rcases Nat.lt_trichotomy n m with hlt | heq | hlt
  · exact absurd h.1 (h'.2 n hlt)
  · exact heq
  · exact absurd h'.1 (h.2 m hlt)

theorem prefix_drop_append_iff (htext : n + text.length ≤ s.length) :
    text <+: (s ++ r).drop n ↔ text <+: s.drop n := by
  rw [List.drop_append_of_le_length (by omega)]
  refine ⟨fun h => ?_, fun h => h.trans (List.prefix_append _ _)⟩
  exact List.prefix_of_prefix_length_le h (List.prefix_append _ _)
    (by rw [List.length_drop]; omega)

theorem firstAt_append_iff (htext : n + text.length ≤ s.length) :
    FirstAt (s ++ r) text n ↔ FirstAt s text n := by
  have hmin : (∀ m < n, ¬ text <+: (s ++ r).drop m) ↔ ∀ m < n, ¬ text <+: s.drop m :=
    forall₂_congr fun m hm => not_congr (prefix_drop_append_iff (by omega))
  rw [FirstAt, FirstAt, prefix_drop_append_iff htext, hmin]

theorem FirstAt.append (h : FirstAt s text n) (hne : text ≠ []) (r : Bytes) :
    FirstAt (s ++ r) text n :=
  (firstAt_append_iff ((length_of_prefix_drop h.1).resolve_left hne)).2 h

/-- A text is not found before a byte that is its first one. -/
theorem firstAt_of_not_mem {c : UInt8} {x : Bytes} (hx : c ∉ x) :
    FirstAt (x ++ (c :: text ++ r)) (c :: text) x.length := by
  refine ⟨by rw [List.drop_left]; exact List.prefix_append _ _, fun m hm h => ?_⟩
  rw [List.drop_append_of_le_length hm.le, List.drop_eq_getElem_cons hm] at h
  have hhead : c = x[m] := (List.cons_prefix_cons.1 h).1
  exact hx (hhead ▸ List.getElem_mem hm)

/-- Where nothing is found among the first bytes, the search may begin behind them. -/
theorem firstAt_drop_iff (h : ∀ i < m, ¬ text <+: s.drop i) :
    FirstAt (s.drop m) text n ↔ FirstAt s text (m + n) := by
  simp only [FirstAt, List.drop_drop]
  refine and_congr_right fun _ => ⟨fun hmin i hi => ?_, fun hmin i hi => hmin _ (by omega)⟩
  rcases Nat.lt_or_ge i m with hlt | hle
  · exact h i hlt
  · have := hmin (i - m) (by omega)
    rwa [Nat.add_sub_cancel' hle] at this

end Find

section Byte

variable {src : Bytes} {rec : Bytes → ℕ → Caps → Result} {c : UInt8} {p : Bytes}

/-- The bytes that stand for themselves. -/
def Literal (c : UInt8) : Prop := c ∉ ([36, 37, 40, 41, 46, 91] : Bytes)

instance : Decidable (Literal c) := inferInstanceAs (Decidable (_ ∉ _))

theorem Literal.classLength (hc : Literal c) : classLength (c :: p) = some 1 := by
  simp only [Literal, List.mem_cons, List.not_mem_nil, or_false, not_or] at hc
  rw [LuaPattern.classLength] <;> simp [hc]

theorem Literal.singleMatch (hc : Literal c) (o : Option UInt8) :
    singleMatch (c :: p) 1 o = decide (o = some c) := by
  simp only [Literal, List.mem_cons, List.not_mem_nil, or_false, not_or] at hc
  rcases o with _ | b
  · rfl
  · rw [LuaPattern.singleMatch] <;> simp [hc, eq_comm]

/-- A byte with no suffix. -/
theorem matchHere_byte (hc : Literal c) (hp : ∀ x, p[0]? = some x → x ∉ ([42, 43, 45, 63] : Bytes))
    (s : ℕ) (caps : Caps) : matchHere src rec (c :: p) 0 s caps =
      if src[s]? = some c then matchHere src rec p 0 (s + 1) caps else some none := by
  have hlit := hc
  simp only [Literal, List.mem_cons, List.not_mem_nil, or_false, not_or] at hlit hp
  rw [matchHere] <;> simp only [hlit, false_implies, implies_true]
  simp only [hc.classLength, hc.singleMatch, bind_eq_bind, bind_some,
    List.getElem?_cons_succ]
  by_cases h : src[s]? = some c
  · simp only [h, decide_true, if_true]
    split <;> simp_all
  · simp only [h, decide_false, if_false]
    split <;> simp_all

theorem matchHere_star (hc : Literal c) (s : ℕ) (caps : Caps) :
    matchHere src rec (c :: 42 :: p) 0 s caps =
      if src[s]? = some c then
        maxExpand (fun s => rec p s caps) s ((src.drop s).takeWhile fun b => b = c).length
      else matchHere src rec p 0 s caps := by
  have hlit := hc
  simp only [Literal, List.mem_cons, List.not_mem_nil, or_false, not_or] at hlit
  rw [matchHere] <;> simp only [hlit, false_implies, implies_true]
  simp only [hc.classLength, hc.singleMatch, bind_eq_bind, bind_some,
    List.getElem?_cons_succ, List.getElem?_cons_zero]
  by_cases h : src[s]? = some c
  · simp [h]
  · simp [h, matchHere]

theorem matchHere_opt (hc : Literal c) (s : ℕ) (caps : Caps) :
    matchHere src rec (c :: 63 :: p) 0 s caps =
      if src[s]? = some c then (rec p (s + 1) caps).bind fun
        | some r => some (some r)
        | none => matchHere src rec p 0 s caps
      else matchHere src rec p 0 s caps := by
  have hlit := hc
  simp only [Literal, List.mem_cons, List.not_mem_nil, or_false, not_or] at hlit
  rw [matchHere] <;> simp only [hlit, false_implies, implies_true]
  simp only [hc.classLength, hc.singleMatch, bind_eq_bind, bind_some,
    List.getElem?_cons_succ, List.getElem?_cons_zero]
  by_cases h : src[s]? = some c
  · simp only [h, decide_true, if_true, List.drop_one, List.tail_cons]
    rfl
  · simp [h, matchHere]

end Byte

section Field

variable {src : Bytes} {c : UInt8} {p : Bytes} {d s : ℕ} {caps : Caps} {r : ℕ × Caps}

/-- The pattern matches at `s`, in `d` levels or more. -/
def Matches (src : Bytes) (d : ℕ) (p : Bytes) (s : ℕ) (caps : Caps) (r : ℕ × Caps) : Prop :=
  ∀ d', d ≤ d' → matchAt src d' p s caps = some (some r)

theorem matches_nil : Matches src 1 [] s caps (s, caps) := by
  intro d' hd
  obtain ⟨d', rfl⟩ : ∃ n, d' = n + 1 := ⟨d' - 1, by omega⟩
  rfl

theorem Matches.byte (hc : Literal c) (hp : ∀ x, p[0]? = some x → x ∉ ([42, 43, 45, 63] : Bytes))
    (hs : src[s]? = some c) (h : Matches src d p (s + 1) caps r) :
    Matches src (d + 1) (c :: p) s caps r := by
  intro d' hd
  obtain ⟨d', rfl⟩ : ∃ n, d' = n + 1 := ⟨d' - 1, by omega⟩
  rw [matchAt, matchHere_byte hc hp, if_pos hs]
  exact h (d' + 1) (by omega)

theorem captureToClose_append (s : ℕ) :
    captureToClose (caps ++ [(s, CapLen.unfinished)]) = some caps.length := by
  unfold captureToClose
  simp [List.range_succ]

theorem modify_append (s n : ℕ) : (caps ++ [(s, CapLen.unfinished)]).modify caps.length
    (fun x => (x.1, .closed (n - x.1))) = caps ++ [(s, .closed (n - s))] := by
  induction caps with
  | nil => rfl
  | cons x caps ih => simpa using ih

/-- `)` after a capture that was opened at `s`. -/
theorem Matches.close {n : ℕ} (h : Matches src d p n (caps ++ [(s, .closed (n - s))]) r) :
    Matches src (d + 1) (41 :: p) n (caps ++ [(s, .unfinished)]) r := by
  intro d' hd
  obtain ⟨d', rfl⟩ : ∃ n, d' = n + 1 := ⟨d' - 1, by omega⟩
  rw [matchAt, matchHere, captureToClose_append, bind_eq_bind, bind_some,
    modify_append]
  exact h d' (by omega)

theorem classLength_except (hc : c ≠ 37) : classLength (91 :: 94 :: c :: 93 :: p) = some 4 := by
  have hset : setLength (c :: 93 :: p) = some 2 := by
    rw [setLength]
    all_goals simp [hc]
  simp [classLength, hset]

theorem singleMatch_except (b : UInt8) :
    singleMatch (91 :: 94 :: c :: 93 :: p) 4 (some b) = decide (b ≠ c) := by
  simp [singleMatch, matchBracketClass, inSet, eq_comm]

theorem matchHere_except {rec : Bytes → ℕ → Caps → Result} (hc : c ≠ 37) :
    matchHere src rec (91 :: 94 :: c :: 93 :: 42 :: p) 0 s caps =
      if singleMatch (91 :: 94 :: c :: 93 :: 42 :: p) 4 src[s]? then
        maxExpand (fun s => rec p s caps) s ((src.drop s).takeWhile fun b => b ≠ c).length
      else matchHere src rec p 0 s caps := by
  rw [matchHere]
  · simp only [classLength_except hc, bind_eq_bind, bind_some,
      List.getElem?_cons_succ, List.getElem?_cons_zero]
    split_ifs with h
    · simp [h, singleMatch_except]
    · simp [h, matchHere]
  all_goals simp

/-- The bytes up to the first `c` are captured, if the rest of the pattern matches behind them. -/
theorem Matches.field (hc : c ≠ 37) (hlen : caps.length < 32) {n : ℕ}
    (hn : ((src.drop s).takeWhile fun b => b ≠ c).length = n)
    (h : Matches src d p (s + n) (caps ++ [(s, .closed n)]) r) :
    Matches src (d + 3) (40 :: 91 :: 94 :: c :: 93 :: 42 :: 41 :: p) s caps r := by
  intro d' hd
  obtain ⟨d', rfl⟩ : ∃ n, d' = n + 3 := ⟨d' - 3, by omega⟩
  have hclose : Matches src (d + 1) (41 :: p) (s + n) (caps ++ [(s, .unfinished)]) r :=
    Matches.close (by rwa [Nat.add_sub_cancel_left])
  have hopen : matchAt src (d' + 3) (40 :: 91 :: 94 :: c :: 93 :: 42 :: 41 :: p) s caps =
      matchAt src (d' + 2) (91 :: 94 :: c :: 93 :: 42 :: 41 :: p) s
        (caps ++ [(s, .unfinished)]) := by
    rw [matchAt, matchHere]
    · rw [if_pos hlen]
    all_goals simp
  rw [hopen, matchAt, matchHere_except hc]
  split_ifs with hsingle
  · exact maxExpand_of_some (by rw [hn]; exact hclose (d' + 1) (by omega))
  · have hzero : n = 0 := by
      rw [← hn]
      rcases hs : src.drop s with _ | ⟨b, l⟩
      · rfl
      · have hb : src[s]? = some b := by rw [← List.head?_drop, hs]; rfl
        rw [hb, singleMatch_except] at hsingle
        simp_all
    subst hzero
    exact hclose (d' + 2) (by omega)

/-- The bytes up to the first `c` are captured, and `c` is passed over. -/
theorem Matches.fieldThen (hc : Literal c) (hlen : caps.length < 32)
    (hp : ∀ x, p[0]? = some x → x ∉ ([42, 43, 45, 63] : Bytes)) {x z : Bytes}
    (hsrc : src.drop s = x ++ c :: z) (hx : c ∉ x)
    (h : Matches src d p (s + x.length + 1) (caps ++ [(s, .closed x.length)]) r) :
    Matches src (d + 4) (40 :: 91 :: 94 :: c :: 93 :: 42 :: 41 :: c :: p) s caps r := by
  have hne : c ≠ 37 := by
    rintro rfl
    exact hc (by simp)
  have htake : ((src.drop s).takeWhile fun b => b ≠ c).length = x.length := by
    rw [hsrc, List.takeWhile_append_of_pos]
    · simp
    · intro b hb
      simp only [decide_eq_true_eq]
      rintro rfl
      exact hx hb
  have hat : src[s + x.length]? = some c := by
    rw [← List.getElem?_drop, hsrc]
    simp
  exact Matches.field hne hlen htake (Matches.byte hc hp hat h)

/-- `.*` takes all that is left, where the rest of the pattern matches at the end. -/
theorem matchAt_anyStar {p : Bytes} {d : ℕ} {r : ℕ × Caps} (hs : s ≤ src.length)
    (hp : ∀ d', matchAt src (d' + d) p src.length caps = some (some r)) :
    matchAt src (d + 1) (46 :: 42 :: p) s caps = some (some r) := by
  rcases Nat.lt_or_eq_of_le hs with hlt | rfl
  · have hsrc : src[s]? = some src[s] := List.getElem?_eq_getElem hlt
    have htake : ((src.drop s).takeWhile fun _ => true).length = src.length - s := by
      rw [List.takeWhile_eq_self_iff.2 fun _ _ => rfl, List.length_drop]
    have hmax : matchAt src (d + 1) (46 :: 42 :: p) s caps =
        maxExpand (fun n => matchAt src d p n caps) s
          ((src.drop s).takeWhile fun _ => true).length := by
      rw [matchAt, matchHere] <;> simp [classLength, hsrc, singleMatch]
    rw [hmax, htake]
    have hend := hp 0
    rw [Nat.zero_add] at hend
    exact maxExpand_of_some (by rw [Nat.add_sub_of_le hs]; exact hend)
  · have hskip : matchAt src (d + 1) (46 :: 42 :: p) src.length caps =
        matchAt src (1 + d) p src.length caps := by
      rw [Nat.add_comm 1 d, matchAt, matchHere] <;> simp [classLength, singleMatch, matchHere, matchAt]
    rw [hskip, hp]

theorem matches_rest (hs : s ≤ src.length) (hlen : caps.length < 32) :
    Matches src 4 [40, 46, 42, 41] s caps
      (src.length, caps ++ [(s, .closed (src.length - s))]) := by
  intro d' hd
  obtain ⟨d', rfl⟩ : ∃ n, d' = n + 4 := ⟨d' - 4, by omega⟩
  have hclose : Matches src 2 [41] src.length (caps ++ [(s, .unfinished)])
      (src.length, caps ++ [(s, .closed (src.length - s))]) := Matches.close matches_nil
  have hopen : matchAt src (d' + 4) [40, 46, 42, 41] s caps =
      matchAt src (d' + 3) [46, 42, 41] s (caps ++ [(s, .unfinished)]) := by
    simp [matchAt, matchHere, hlen]
  rw [hopen]
  exact matchAt_anyStar hs fun _ => hclose _ (by omega)

/-- A pattern that matches at the start of the source is found there. -/
theorem Matches.strMatch (h : Matches src d p 0 [] r) (hd : d ≤ 200) (hp : p.head? ≠ some 94) :
    strMatch src p = pushCaptures src 0 r.1 r.2 := by
  have hsearch : searchAnchored src p = some (some (0, r)) := by
    have hat := h 200 hd
    rw [searchAnchored]
    · cases src with
      | nil => simp [search, hat]
      | cons b l => simp [search, hat]
    · rintro q rfl
      exact hp rfl
  simp [LuaPattern.strMatch, hsearch]

end Field

end LuaPattern

end SkynetGame
