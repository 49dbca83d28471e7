import SkynetGame.Lib.LuaPattern

/-!
# The lexer of SQL statements

A statement is read byte by byte, with backslash escapes in string literals. In ASCII and in UTF-8
no byte of a character of several bytes is below 128, so none of them is a quote or a backslash,
and reading such characters byte by byte makes no difference.

A template with literals in it (`Fragment`) has the tokens of its texts and one token for each
literal; what a statement has to be for its tokens to be those is `tokens_render`.
-/

namespace SkynetGame

open List

namespace Sql

inductive Token
  -- a keyword, a number, or a name
  | word (b : Bytes)
  -- a string literal, as its value
  | text (v : Bytes)
  -- a name in backticks
  | name (v : Bytes)
  | op (c : UInt8)
  -- a quote or a comment that does not end
  | broken
deriving DecidableEq, Repr

inductive State
  | start
  | word (acc : Bytes)
  -- behind an opening quote, with what the literal is so far
  | quoted (q : UInt8) (acc : Bytes)
  -- behind a backslash
  | escaped (q : UInt8) (acc : Bytes)
  -- behind a quote that closes the literal, or is the first of two that stand for one
  | closing (q : UInt8) (acc : Bytes)
  | dash
  | dashes
  | slash
  | comment
  | star
  | line
deriving DecidableEq, Repr

def isWord (c : UInt8) : Bool := LuaPattern.isalnum c || c = 95 || c = 36 || 128 ≤ c

/-- What a backslash and a byte stand for. -/
def unescape : UInt8 → Bytes
  | 48 => [0]
  | 98 => [8]
  | 110 => [10]
  | 114 => [13]
  | 116 => [9]
  | 90 => [26]
  | 37 => [92, 37]
  | 95 => [92, 95]
  | c => [c]

def quotedToken (q : UInt8) (v : Bytes) : Token := if q = 96 then .name v else .text v

/-- A byte between two tokens. -/
def first (c : UInt8) : State × List Token :=
  if LuaPattern.isspace c then (.start, [])
  else if isWord c then (.word [c], [])
  else if c = 39 || c = 34 || c = 96 then (.quoted c [], [])
  else if c = 45 then (.dash, [])
  else if c = 47 then (.slash, [])
  else if c = 35 then (.line, [])
  else (.start, [.op c])

/-- A byte between two tokens, the first of which ends there. -/
def after (t : List Token) (c : UInt8) : State × List Token := ((first c).1, t ++ (first c).2)

def step : State → UInt8 → State × List Token
  | .start, c => first c
  | .word acc, c => if isWord c then (.word (acc ++ [c]), []) else after [.word acc] c
  | .quoted q acc, c =>
    if c = q then (.closing q acc, [])
    else if c = 92 && q ≠ 96 then (.escaped q acc, [])
    else (.quoted q (acc ++ [c]), [])
  | .escaped q acc, c => (.quoted q (acc ++ unescape c), [])
  | .closing q acc, c =>
    if c = q then (.quoted q (acc ++ [c]), []) else after [quotedToken q acc] c
  | .dash, c => if c = 45 then (.dashes, []) else after [.op 45] c
  | .dashes, c =>
    if c = 10 then (.start, [])
    else if LuaPattern.isspace c || LuaPattern.iscntrl c then (.line, [])
    else if c = 45 then (.dashes, [.op 45])
    else after [.op 45, .op 45] c
  | .slash, c => if c = 42 then (.comment, []) else after [.op 47] c
  | .comment, c => (if c = 42 then .star else .comment, [])
  | .star, c => (if c = 47 then .start else if c = 42 then .star else .comment, [])
  | .line, c => (if c = 10 then .start else .line, [])

/-- The last tokens of a statement that ends there. -/
def finish : State → List Token
  | .word acc => [.word acc]
  | .quoted _ _ | .escaped _ _ | .comment | .star => [.broken]
  | .closing q acc => [quotedToken q acc]
  | .dash => [.op 45]
  | .slash => [.op 47]
  | .start | .dashes | .line => []

def run : State → Bytes → State × List Token
  | s, [] => (s, [])
  | s, c :: b => ((run (step s c).1 b).1, (step s c).2 ++ (run (step s c).1 b).2)

/-- The tokens of what is read from a state on. -/
def tokens (s : State) (b : Bytes) : List Token := (run s b).2 ++ finish (run s b).1

/-- A part of a template: text, or a literal of the value `v`. -/
inductive Fragment
  | text (b : Bytes)
  | literal (v : Bytes)
deriving DecidableEq, Repr

/-- The states in which a value may stand: at no word, to which it would belong, and at no literal,
with which it would become one. What is still open ends there. -/
def State.opens : State → Option (List Token)
  | .start => some []
  | .dash => some [.op 45]
  | .dashes => some [.op 45, .op 45]
  | .slash => some [.op 47]
  | _ => none

/-- The tokens of a template. -/
def templateTokens : State → List Fragment → List Token
  | s, [] => finish s
  | s, .text b :: fs => (run s b).2 ++ templateTokens (run s b).1 fs
  | s, .literal v :: fs => s.opens.getD [] ++ .text v :: templateTokens .start fs

/-- Whether a literal, or a quote, comes next. -/
def quoteNext : List Fragment → Bool
  | [] => false
  | .text [] :: fs => quoteNext fs
  | .text (c :: _) :: _ => c = 39
  | .literal _ :: _ => true

/-- The literals of a template stand where values do. -/
def ValuePositions : State → List Fragment → Prop
  | _, [] => True
  | s, .text b :: fs => ValuePositions (run s b).1 fs
  | s, .literal _ :: fs => s.opens.isSome ∧ quoteNext fs = false ∧ ValuePositions .start fs

instance : ∀ s fs, Decidable (ValuePositions s fs)
  | _, [] => isTrue trivial
  | s, .text b :: fs =>
    have : Decidable (ValuePositions (run s b).1 fs) := instDecidableValuePositions _ fs
    this
  | _, .literal _ :: fs =>
    have : Decidable (ValuePositions .start fs) := instDecidableValuePositions _ fs
    inferInstanceAs (Decidable (_ ∧ _ ∧ _))

/-- The statement of a template, with `body` for the literals from behind their opening quote. -/
def render (body : Bytes → Bytes) : List Fragment → Bytes
  | [] => []
  | .text b :: fs => b ++ render body fs
  | .literal v :: fs => 39 :: body v ++ render body fs

/-- What stands behind an opening quote is the literal of `v`: nothing in it ends the literal but
its last byte. -/
def LiteralOf (v body : Bytes) : Prop := run (.quoted 39 []) body = (.closing 39 v, [])

variable {s : State} {b : Bytes} {c : UInt8}

theorem run_append (s : State) (b₁ b₂ : Bytes) : run s (b₁ ++ b₂) =
    ((run (run s b₁).1 b₂).1, (run s b₁).2 ++ (run (run s b₁).1 b₂).2) := by
  induction b₁ generalizing s with
  | nil => simp [run]
  | cons c b₁ ih => simp [run, ih]

theorem tokens_append (s : State) (b₁ b₂ : Bytes) :
    tokens s (b₁ ++ b₂) = (run s b₁).2 ++ tokens (run s b₁).1 b₂ := by
  simp [tokens, run_append]

theorem step_quote {t : List Token} (h : s.opens = some t) : step s 39 = (.quoted 39 [], t) := by
  cases s <;> simp [State.opens] at h <;> subst h <;> decide

theorem tokens_closing {v : Bytes} (h : b.head? ≠ some 39) :
    tokens (.closing 39 v) b = .text v :: tokens .start b := by
  rcases b with _ | ⟨c, b⟩
  · simp [tokens, run, finish, quotedToken]
  · have hc : c ≠ 39 := by simpa using h
    simp [tokens, run, step, after, quotedToken, hc]

theorem head_render {body : Bytes → Bytes} {fs : List Fragment} (h : quoteNext fs = false) :
    (render body fs).head? ≠ some 39 := by
  induction fs with
  | nil => simp [render]
  | cons f fs ih =>
    rcases f with (_ | ⟨c, b⟩) | v
    · exact ih h
    · simpa [render, quoteNext] using h
    · simp [quoteNext] at h

/-- A statement whose literals are what they stand for has the tokens of its template. -/
theorem tokens_render {body : Bytes → Bytes} : ∀ {s : State} {fs : List Fragment},
    ValuePositions s fs → (∀ v, .literal v ∈ fs → LiteralOf v (body v)) →
    tokens s (render body fs) = templateTokens s fs
  | s, [], _, _ => by simp [render, tokens, run, templateTokens]
  | s, .text b :: fs, hv, hl => by
    have ih : tokens (run s b).1 (render body fs) = templateTokens (run s b).1 fs :=
      tokens_render hv fun v hm => hl v (mem_cons_of_mem _ hm)
    rw [render, tokens_append, templateTokens, ih]
  | s, .literal v :: fs, ⟨ho, hq, hv⟩, hl => by
    obtain ⟨t, ht⟩ := Option.isSome_iff_exists.1 ho
    have hbody : run (.quoted 39 []) (body v) = (.closing 39 v, []) := hl v mem_cons_self
    have hopen : run s [39] = (.quoted 39 [], t) := by simp [run, step_quote ht]
    have ih := tokens_render hv fun v hm => hl v (mem_cons_of_mem _ hm)
    have hsplit : render body (.literal v :: fs) = [39] ++ (body v ++ render body fs) := by
      simp [render]
    rw [hsplit, tokens_append, hopen, tokens_append, hbody, tokens_closing (head_render hq), ih,
      templateTokens, ht]
    simp

section Plain

/-- How much of a literal a state has read. -/
def State.size : State → ℕ
  | .quoted _ acc => acc.length
  | .escaped _ acc | .closing _ acc => acc.length + 1
  | _ => 0

theorem length_unescape_le (c : UInt8) : (unescape c).length ≤ 2 := by
  unfold unescape
  split <;> simp

theorem size_first (c : UInt8) : (first c).1.size = 0 := by
  unfold first
  split_ifs <;> rfl

theorem size_after (t : List Token) (c : UInt8) : (after t c).1.size = 0 := size_first c

theorem size_step (s : State) (c : UInt8) : (step s c).1.size ≤ s.size + 1 := by
  have hu := length_unescape_le c
  have ha : ∀ t, (after t c).1.size = 0 := fun t => size_after t c
  cases s with
  | start => simp only [step, size_first, Nat.zero_le]
  | word acc =>
    simp only [step]
    split_ifs
    · exact Nat.zero_le _
    · simp [ha]
  | quoted q acc =>
    simp only [step]
    split_ifs
    · exact le_rfl
    · exact le_rfl
    · simp [State.size]
  | escaped q acc =>
    simp only [step, State.size, length_append]
    omega
  | closing q acc =>
    simp only [step]
    split_ifs
    · simp [State.size]
    · simp [ha]
  | dash | dashes | slash =>
    simp only [step]
    split_ifs <;> first | exact Nat.zero_le _ | simp [ha]
  | comment | star | line =>
    simp only [step]
    split_ifs <;> exact Nat.zero_le _

theorem size_run (s : State) (b : Bytes) : (run s b).1.size ≤ s.size + b.length := by
  induction b generalizing s with
  | nil => simp [run]
  | cons c b ih =>
    have h1 := ih (step s c).1
    have h2 := size_step s c
    simp only [run, length_cons]
    omega

/-- A text that stands for itself in a literal: without quotes, and with a backslash only before
`%` and `_`, where it stays. -/
def plain : Bytes → Bool
  | [] => true
  | 92 :: c :: b => (c = 37 || c = 95) && plain b
  | c :: b => c ≠ 39 && c ≠ 92 && plain b

theorem run_plain (acc : Bytes) (h : plain b) :
    run (.quoted 39 acc) (b ++ [39]) = (.closing 39 (acc ++ b), []) := by
  induction b using plain.induct generalizing acc with
  | case1 => simp [run, step]
  | case2 c b ih =>
    simp only [plain, Bool.and_eq_true, Bool.or_eq_true, decide_eq_true_eq] at h
    rcases h with ⟨rfl | rfl, h⟩ <;> simp [run, step, unescape, ih _ h]
  | case3 c b hne ih =>
    rw [plain] at h
    · simp only [Bool.and_eq_true, decide_eq_true_eq] at h
      obtain ⟨⟨h1, h2⟩, h3⟩ := h
      simp [run, step, h1, h2, ih _ h3]
    · exact hne

/-- What stands behind an opening quote is its own literal only if it is plain. -/
theorem plain_of_run {acc a : Bytes} (h : run (.quoted 39 acc) (b ++ [39]) = (.closing 39 a, []))
    (hlen : a.length = acc.length + b.length) : plain b := by
  induction b using plain.induct generalizing acc with
  | case1 => rfl
  | case2 c b ih =>
    by_cases hc : c = 37 ∨ c = 95
    · have hu : unescape c = [92, c] := by rcases hc with rfl | rfl <;> rfl
      have hb : run (.quoted 39 (acc ++ [92, c])) (b ++ [39]) = (.closing 39 a, []) := by
        simpa [run, step, hu] using h
      have hp := ih hb (by simp only [length_append, length_cons] at hlen ⊢; simp; omega)
      simp [plain, hp, hc]
    · -- a byte is lost
      have hu : (unescape c).length = 1 := by
        unfold unescape
        split <;> simp_all
      have hb : run (.quoted 39 (acc ++ unescape c)) (b ++ [39]) = (.closing 39 a, []) := by
        simpa [run, step] using h
      have hsize := size_run (.quoted 39 (acc ++ unescape c)) (b ++ [39])
      rw [hb] at hsize
      simp only [State.size, length_append, length_cons, length_nil, hu] at hsize hlen
      omega
  | case3 c b hne ih =>
    by_cases h39 : c = 39
    · subst h39
      rcases b with _ | ⟨d, b⟩
      · simp [run, step] at h
      · by_cases hd : d = 39
        · -- two quotes stand for one
          subst hd
          have hb : run (.quoted 39 (acc ++ [39])) (b ++ [39]) = (.closing 39 a, []) := by
            simpa [run, step] using h
          have hsize := size_run (.quoted 39 (acc ++ [39])) (b ++ [39])
          rw [hb] at hsize
          simp only [State.size, length_append, length_cons, length_nil]
            at hsize hlen
          omega
        · -- the literal ends
          simp [run, step, hd, after] at h
    · by_cases h92 : c = 92
      · subst h92
        rcases b with _ | ⟨d, b⟩
        · simp [run, step, unescape] at h
        · exact absurd rfl (hne d b rfl)
      · have hb : run (.quoted 39 (acc ++ [c])) (b ++ [39]) = (.closing 39 a, []) := by
          simpa [run, step, h39, h92] using h
        have hp := ih hb (by simp only [length_append, length_cons] at hlen ⊢; simp; omega)
        rw [plain]
        · simp [h39, h92, hp]
        · exact hne

end Plain

end Sql

end SkynetGame
