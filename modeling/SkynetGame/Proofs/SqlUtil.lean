import SkynetGame.Lib.SqlLex
import SkynetGame.SqlUtil

/-!
# Statements with quoted arguments

`join_sql_util` puts each string argument into a statement as a literal of its own. Read by the
lexer, the literal is the argument as long as the first pass over it counts what the second pass
adds, which fails only when there are so many bytes to escape that the count overflows
(`SqlUtil.injectionSafe_iff`).
-/

namespace SkynetGame

open List Option

namespace SqlUtil

open LuaPattern (Capture Value Table Piece gsub gsubPieces addValue)
open Sql (Fragment LiteralOf State)

section Escape

def special : Bytes := [0, 8, 10, 13, 9, 26, 92, 39, 34]

/-- How many bytes there are to escape. -/
def escapes (src : Bytes) : ℕ := src.countP fun c => c ∈ special

theorem escapes_cons (c : UInt8) (src : Bytes) :
    escapes (c :: src) = escapes src + if c ∈ special then 1 else 0 := by
  simp [escapes, countP_cons]

theorem numEscapeLoop_cons (n : UInt32) (c : UInt8) (src : Bytes) : numEscapeLoop n (c :: src) =
    numEscapeLoop (if c ∈ special then n + 1 else n) src := by
  by_cases hc : c ∈ special
  · rw [if_pos hc]
    simp only [special, mem_cons, not_mem_nil, or_false] at hc
    rcases hc with rfl | rfl | rfl | rfl | rfl | rfl | rfl | rfl | rfl <;> rfl
  · rw [if_neg hc]
    simp only [special, mem_cons, not_mem_nil, or_false] at hc
    rw [numEscapeLoop, ite_self]
    all_goals
      rintro rfl
      simp at hc

theorem toNat_numEscapeLoop (n : UInt32) (src : Bytes) :
    (numEscapeLoop n src).toNat = (n.toNat + escapes src) % 2 ^ 32 := by
  induction src generalizing n with
  | nil => simp [numEscapeLoop, escapes, Nat.mod_eq_of_lt n.toNat_lt]
  | cons c src ih =>
    rw [numEscapeLoop_cons, ih, escapes_cons]
    split_ifs
    · rw [UInt32.toNat_add]
      simp only [UInt32.toNat_one]
      omega
    · rfl

theorem escapeSqlStr_cons (c : UInt8) (src : Bytes) :
    (c ∉ special ∧ escapeSqlStr (c :: src) = c :: escapeSqlStr src) ∨
      (c ∈ special ∧ ∃ d, escapeSqlStr (c :: src) = 92 :: d :: escapeSqlStr src ∧
        Sql.unescape d = [c]) := by
  by_cases hc : c ∈ special
  · refine .inr ⟨hc, ?_⟩
    simp only [special, mem_cons, not_mem_nil, or_false] at hc
    rcases hc with rfl | rfl | rfl | rfl | rfl | rfl | rfl | rfl | rfl <;> exact ⟨_, rfl, rfl⟩
  · refine .inl ⟨hc, ?_⟩
    simp only [special, mem_cons, not_mem_nil, or_false] at hc
    rw [escapeSqlStr, ite_self]
    all_goals
      rintro rfl
      simp at hc

theorem length_escapeSqlStr (src : Bytes) :
    (escapeSqlStr src).length = src.length + escapes src := by
  induction src with
  | nil => rfl
  | cons c src ih =>
    rw [escapes_cons]
    rcases escapeSqlStr_cons c src with ⟨hc, he⟩ | ⟨hc, d, he, -⟩
    · rw [he, if_neg hc]
      simp only [length_cons, ih]
      omega
    · rw [he, if_pos hc]
      simp only [length_cons, ih]
      omega

theorem run_escapeSqlStr (acc src : Bytes) :
    Sql.run (.quoted 39 acc) (escapeSqlStr src ++ [39]) = (.closing 39 (acc ++ src), []) := by
  induction src generalizing acc with
  | nil => simp [escapeSqlStr, Sql.run, Sql.step]
  | cons c src ih =>
    rcases escapeSqlStr_cons c src with ⟨hc, he⟩ | ⟨-, d, he, hd⟩
    · simp only [special, mem_cons, not_mem_nil, or_false, not_or] at hc
      simp [he, Sql.run, Sql.step, hc, ih]
    · simp [he, Sql.run, Sql.step, hd, ih]

end Escape

section Quote

/-- The texts that `quote_sql_str` quotes right: there are less than 2 ^ 32 bytes to escape, or the
count comes out as 0 and nothing has to be escaped after all. -/
def Quotable (src : Bytes) : Prop :=
  escapes src < 2 ^ 32 ∨ 2 ^ 32 ∣ escapes src ∧ Sql.plain src

theorem plain_of_escapes {src : Bytes} (h : escapes src = 0) : Sql.plain src := by
  induction src using Sql.plain.induct with
  | case1 => rfl
  | case2 c b ih => simp [escapes_cons, special] at h
  | case3 c b hne ih =>
    rw [escapes_cons] at h
    have hc : c ∉ special := fun hc => by simp [hc] at h
    simp only [special, mem_cons, not_mem_nil, or_false, not_or] at hc
    rw [Sql.plain]
    · simp [hc, ih (by omega)]
    · exact hne

theorem quoteSqlStr_of_dvd {src : Bytes} (h : 2 ^ 32 ∣ escapes src) :
    quoteSqlStr src = some (39 :: (src ++ [39])) := by
  rcases src with _ | ⟨c, src⟩
  · rfl
  · have hn : (numEscapeSqlStr (c :: src)).toNat = 0 := by
      rw [numEscapeSqlStr, toNat_numEscapeLoop]
      simpa using Nat.mod_eq_zero_of_dvd h
    have hlen : (c :: src).length ≠ 0 := by simp
    rw [quoteSqlStr, if_neg hlen]
    simp only [hn, if_true]
    rw [if_neg]
    · rfl
    · simp only [length_cons, length_append, length_nil]
      omega

theorem quoteSqlStr_of_not_dvd {src : Bytes} (h : ¬ 2 ^ 32 ∣ escapes src) : quoteSqlStr src =
    if escapes src < 2 ^ 32 then some (39 :: (escapeSqlStr src ++ [39])) else none := by
  have hn : (numEscapeSqlStr src).toNat = escapes src % 2 ^ 32 := by
    rw [numEscapeSqlStr, toNat_numEscapeLoop]
    simp
  have hlen : src.length ≠ 0 := by
    rintro h0
    rw [length_eq_zero_iff.1 h0] at h
    exact h (dvd_zero _)
  have hne : escapes src % 2 ^ 32 ≠ 0 := fun h0 => h (Nat.dvd_of_mod_eq_zero h0)
  have hdst : (39 :: escapeSqlStr src ++ [39]).length = 2 + src.length + escapes src := by
    simp only [length_append, length_cons, length_nil, length_escapeSqlStr]
    omega
  rw [quoteSqlStr, if_neg hlen]
  simp only [hn, if_neg hne, hdst]
  by_cases hlt : escapes src < 2 ^ 32
  · rw [if_pos hlt, if_neg (by rw [Nat.mod_eq_of_lt hlt]; simp)]
    rfl
  · have := Nat.mod_lt (escapes src) (show 0 < 2 ^ 32 by decide)
    rw [if_neg hlt, if_pos (by omega)]

theorem quoteSqlStr_eq_none {src : Bytes} :
    quoteSqlStr src = none ↔ 2 ^ 32 ≤ escapes src ∧ ¬ 2 ^ 32 ∣ escapes src := by
  by_cases h : 2 ^ 32 ∣ escapes src
  · rw [quoteSqlStr_of_dvd h]
    exact iff_of_false (some_ne_none _) fun hn => hn.2 h
  · rw [quoteSqlStr_of_not_dvd h]
    split_ifs with hlt
    · exact iff_of_false not_false fun hn => Nat.not_lt.2 hn.1 hlt
    · exact iff_of_true rfl ⟨Nat.le_of_not_lt hlt, h⟩

theorem literalOf_quoteSqlStr {src : Bytes} :
    (∃ body, quoteSqlStr src = some (39 :: body) ∧ LiteralOf src body) ↔ Quotable src := by
  by_cases h : 2 ^ 32 ∣ escapes src
  · have hplain : LiteralOf src (src ++ [39]) ↔ Sql.plain src := by
      constructor
      · intro hl
        exact Sql.plain_of_run hl (by simp)
      · intro hp
        exact Sql.run_plain [] hp
    have hzero : escapes src < 2 ^ 32 → Sql.plain src := fun hlt =>
      plain_of_escapes (Nat.eq_zero_of_dvd_of_lt h hlt)
    simp only [quoteSqlStr_of_dvd h, some.injEq, List.cons.injEq, true_and,
      exists_eq_left', hplain, Quotable]
    tauto
  · rw [quoteSqlStr_of_not_dvd h, Quotable]
    split_ifs with hlt
    · have hl : LiteralOf src (escapeSqlStr src ++ [39]) := run_escapeSqlStr [] src
      exact iff_of_true ⟨_, rfl, hl⟩ (.inl hlt)
    · refine iff_of_false (fun ⟨_, hn, _⟩ => hn) ?_
      rintro (hlt' | ⟨hd, -⟩)
      · exact hlt hlt'
      · exact h hd

end Quote

/-- What a piece of the template is in the statement that is meant. -/
def fragment (args : Table) : Piece → Option Fragment
  | .byte c => some (.text [c])
  | .found text key =>
    match args.lookup key with
    | none | some (.bool false) => some (.text text)
    | some (.num b) => some (.text b)
    | some (.str b) => some (if exempt key then .text b else .literal b)
    | some (.bool true) | some .other => none

/-- The template, with its string arguments as literals. -/
def fragments (sql parttern : Bytes) (args : Table) : Option (List Fragment) := do
  (← gsubPieces sql parttern).mapM (fragment args)

/-- What `quote_sql_str` has behind the opening quote. -/
def quoteBody (v : Bytes) : Bytes := ((quoteSqlStr v).getD []).tail

/-- The statement is the template with a literal for each string argument: its tokens are those of
the template, and in its place no byte of a literal but the last ends it, and its value is the
argument. -/
def InjectionSafe (sql parttern : Bytes) (args : Table) : Prop :=
  match joinSqlUtil sql parttern args with
  | .ok stmt => ∃ fs, fragments sql parttern args = some fs ∧ stmt = Sql.render quoteBody fs ∧
      Sql.tokens .start stmt = Sql.templateTokens .start fs ∧
      ∀ v, .literal v ∈ fs → LiteralOf v (quoteBody v)
  | .error .overrun => False
  -- there is no statement: the template asks for `true` or a table, or the pattern is no good
  | .error .raised => True

/-- The count of no string argument overflows, but to 0. -/
def Fits (args : Table) : Prop :=
  ∀ key v, (key, .str v) ∈ args → exempt key = false → escapes v < 2 ^ 32 ∨ 2 ^ 32 ∣ escapes v

/-- No string argument has 2 ^ 32 bytes to escape, or more; a multiple of that is fine where there
is nothing to escape in the end, or where the template does not ask for the argument. -/
def Countable (sql parttern : Bytes) (args : Table) : Prop :=
  Fits args ∧ ∀ fs v, fragments sql parttern args = some fs → .literal v ∈ fs →
    escapes v < 2 ^ 32 ∨ Sql.plain v

section Join

variable {args argv : Table} {key : Capture}

theorem quoteSqlStr_eq {v q : Bytes} (h : quoteSqlStr v = some q) : q = 39 :: quoteBody v := by
  have hq : ∃ b, q = 39 :: b := by
    by_cases hd : 2 ^ 32 ∣ escapes v
    · rw [quoteSqlStr_of_dvd hd] at h
      exact ⟨_, (some.inj h).symm⟩
    · rw [quoteSqlStr_of_not_dvd hd] at h
      split_ifs at h
      exact ⟨_, (some.inj h).symm⟩
  obtain ⟨b, rfl⟩ := hq
  simp [quoteBody, h]

theorem argvEntry_cases (key : Capture) (v : Value) : (∃ v', argvEntry (key, v) = .ok (key, v')) ∨
    argvEntry (key, v) = .error .overrun ∧
      ∃ b, v = .str b ∧ exempt key = false ∧ quoteSqlStr b = none := by
  rcases v with _ | _ | b | _
  · exact .inl ⟨_, rfl⟩
  · exact .inl ⟨_, rfl⟩
  · rcases hk : exempt key with _ | _
    · rcases hq : quoteSqlStr b with _ | q
      · exact .inr ⟨by simp [argvEntry, hk, hq], b, rfl, rfl, hq⟩
      · exact .inl ⟨.str q, by simp [argvEntry, hk, hq]⟩
    · exact .inl ⟨.str b, by simp [argvEntry, hk]⟩
  · exact .inl ⟨_, rfl⟩

theorem fits_cons {v : Value} : Fits ((key, v) :: args) ↔
    (∀ b, v = .str b → exempt key = false → quoteSqlStr b ≠ none) ∧ Fits args := by
  have hq : ∀ b : Bytes, quoteSqlStr b ≠ none ↔ escapes b < 2 ^ 32 ∨ 2 ^ 32 ∣ escapes b := by
    intro b
    rw [ne_eq, quoteSqlStr_eq_none, not_and_or, not_not, Nat.not_le]
  simp only [hq, Fits]
  constructor
  · intro h
    refine ⟨fun b hb hk => h key b (by simp [hb]) hk, fun k b hm hk => ?_⟩
    exact h k b (mem_cons_of_mem _ hm) hk
  · rintro ⟨h1, h2⟩ k b hm hk
    rcases mem_cons.1 hm with heq | hm
    · obtain ⟨rfl, rfl⟩ := Prod.mk.inj heq
      exact h1 b rfl hk
    · exact h2 k b hm hk

theorem mapM_argvEntry (args : Table) : Fits args ∧ (∃ argv, args.mapM argvEntry = .ok argv) ∨
    ¬ Fits args ∧ args.mapM argvEntry = .error .overrun := by
  induction args with
  | nil => exact .inl ⟨fun _ _ h => absurd h not_mem_nil, [], rfl⟩
  | cons e args ih =>
    obtain ⟨key, v⟩ := e
    rw [fits_cons, mapM_cons]
    rcases argvEntry_cases key v with ⟨v', hv⟩ | ⟨he, b, rfl, hk, hq⟩
    · have hone : ∀ b, v = .str b → exempt key = false → quoteSqlStr b ≠ none := by
        rintro b rfl hk hq
        simp [argvEntry, hk, hq] at hv
      rcases ih with ⟨hf, argv, ha⟩ | ⟨hf, ha⟩
      · exact .inl ⟨⟨hone, hf⟩, (key, v') :: argv, by rw [hv, ha]; rfl⟩
      · exact .inr ⟨fun h => hf h.2, by rw [hv, ha]; rfl⟩
    · exact .inr ⟨fun h => h.1 b rfl hk hq, by rw [he]; rfl⟩

theorem lookup_argv (key : Capture) (h : args.mapM argvEntry = .ok argv) :
    (args.lookup key = none ∧ argv.lookup key = none) ∨
      ∃ v v', args.lookup key = some v ∧ argvEntry (key, v) = .ok (key, v') ∧
        argv.lookup key = some v' := by
  induction args generalizing argv with
  | nil =>
    obtain rfl : [] = argv := by simpa [pure, Except.pure] using h
    exact .inl ⟨rfl, rfl⟩
  | cons e args ih =>
    obtain ⟨k, v⟩ := e
    rw [mapM_cons] at h
    rcases argvEntry_cases k v with ⟨v', hv⟩ | ⟨he, -⟩
    · rcases ha : args.mapM argvEntry with _ | argv'
      · rw [hv, ha] at h
        cases h
      · rw [hv, ha] at h
        obtain rfl : (k, v') :: argv' = argv := by simpa [pure, Except.pure, bind, Except.bind] using h
        by_cases hk : key = k
        · subst hk
          exact .inr ⟨v, v', by simp, hv, by simp⟩
        · have hk' : (key == k) = false := by simp [hk]
          simpa [lookup_cons, hk'] using ih ha
    · rw [he] at h
      cases h

theorem addValue_eq (h : args.mapM argvEntry = .ok argv) (p : Piece) :
    addValue argv p = (fragment args p).map fun f => Sql.render quoteBody [f] := by
  rcases p with c | ⟨text, key⟩
  · rfl
  · rcases lookup_argv key h with ⟨hl, hl'⟩ | ⟨v, v', hl, hv, hl'⟩
    · simp [addValue, fragment, hl, hl', Sql.render]
    · rcases v with b | b | b | _
      · obtain rfl : Value.bool b = v' := by simpa [argvEntry] using hv
        cases b <;> simp [addValue, fragment, hl, hl', Sql.render]
      · obtain rfl : Value.num b = v' := by simpa [argvEntry] using hv
        simp [addValue, fragment, hl, hl', Sql.render]
      · rcases hk : exempt key with _ | _
        · rcases hq : quoteSqlStr b with _ | q
          · simp [argvEntry, hk, hq] at hv
          · obtain rfl : Value.str q = v' := by simpa [argvEntry, hk, hq] using hv
            simp [addValue, fragment, hl, hl', hk, Sql.render, ← quoteSqlStr_eq hq]
        · obtain rfl : Value.str b = v' := by simpa [argvEntry, hk] using hv
          simp [addValue, fragment, hl, hl', hk, Sql.render]
      · obtain rfl : Value.other = v' := by simpa [argvEntry] using hv
        simp [addValue, fragment, hl, hl']

theorem render_cons (body : Bytes → Bytes) (f : Fragment) (fs : List Fragment) :
    Sql.render body (f :: fs) = Sql.render body [f] ++ Sql.render body fs := by
  cases f <;> simp [Sql.render]

theorem gsub_eq (h : args.mapM argvEntry = .ok argv) (sql parttern : Bytes) :
    gsub sql parttern argv = (fragments sql parttern args).map (Sql.render quoteBody) := by
  unfold gsub fragments
  rcases gsubPieces sql parttern with _ | ps
  · rfl
  · simp only [bind_eq_bind, bind_some]
    induction ps with
    | nil => rfl
    | cons p ps ih =>
      rw [mapM_cons, mapM_cons, addValue_eq h]
      rcases fragment args p with _ | f
      · rfl
      · rcases hps : ps.mapM (addValue argv) with _ | bs <;>
          rcases hfs : ps.mapM (fragment args) with _ | fs <;>
          rw [hps, hfs] at ih
        · rfl
        · cases ih
        · cases ih
        · have hih : bs.flatten = Sql.render quoteBody fs := some.inj ih
          show some (Sql.render quoteBody [f] ++ bs.flatten) = some (Sql.render quoteBody (f :: fs))
          rw [hih, render_cons quoteBody f fs]

theorem joinSqlUtil_eq (sql parttern : Bytes) (args : Table) :
    (Fits args ∧ joinSqlUtil sql parttern args =
      match fragments sql parttern args with
      | some fs => .ok (Sql.render quoteBody fs)
      | none => .error .raised) ∨
    ¬ Fits args ∧ joinSqlUtil sql parttern args = .error .overrun := by
  unfold joinSqlUtil
  rcases mapM_argvEntry args with ⟨hf, argv, ha⟩ | ⟨hf, ha⟩
  · refine .inl ⟨hf, ?_⟩
    have hg := gsub_eq ha sql parttern
    rcases hfs : fragments sql parttern args with _ | fs
    · rw [hfs] at hg
      simp only [ha, bind, Except.bind, hg, map_none]
    · rw [hfs] at hg
      simp only [ha, bind, Except.bind, hg, map_some]
  · refine .inr ⟨hf, ?_⟩
    rw [ha]
    rfl

theorem exists_of_mem_mapM {α β : Type*} {f : α → Option β} {b : β} : ∀ {l : List α} {bs : List β},
    l.mapM f = some bs → b ∈ bs → ∃ a ∈ l, f a = some b
  | [], bs, h, hb => by
    obtain rfl : [] = bs := some.inj h
    simp at hb
  | a :: l, bs, h, hb => by
    rw [mapM_cons] at h
    obtain ⟨b', ha, h⟩ := bind_eq_some_iff.1 h
    obtain ⟨bs', hl, h⟩ := bind_eq_some_iff.1 h
    obtain rfl : b' :: bs' = bs := some.inj h
    rcases mem_cons.1 hb with rfl | hb
    · exact ⟨a, mem_cons_self, ha⟩
    · obtain ⟨a', ha', hf⟩ := exists_of_mem_mapM hl hb
      exact ⟨a', mem_cons_of_mem _ ha', hf⟩

theorem mem_args_of_literal {sql parttern v : Bytes} {fs : List Fragment}
    (h : fragments sql parttern args = some fs) (hv : .literal v ∈ fs) :
    ∃ key, (key, .str v) ∈ args ∧ exempt key = false := by
  obtain ⟨ps, -, hps⟩ := bind_eq_some_iff.1 h
  obtain ⟨p, -, hp⟩ := exists_of_mem_mapM hps hv
  rcases p with c | ⟨text, key⟩
  · simp [fragment] at hp
  · rcases hl : args.lookup key with _ | _ | _ | b | _
    · simp [fragment, hl] at hp
    · rename_i b
      cases b <;> simp [fragment, hl] at hp
    · simp [fragment, hl] at hp
    · rcases hk : exempt key with _ | _
      · obtain rfl : b = v := by simpa [fragment, hl, hk] using hp
        obtain ⟨l₁, l₂, rfl, -⟩ := lookup_eq_some_iff.1 hl
        exact ⟨key, by simp, hk⟩
      · simp [fragment, hl, hk] at hp
    · simp [fragment, hl] at hp

theorem literalOf_quoteBody {v : Bytes} (h : escapes v < 2 ^ 32 ∨ 2 ^ 32 ∣ escapes v) :
    LiteralOf v (quoteBody v) ↔ escapes v < 2 ^ 32 ∨ Sql.plain v := by
  have hq : quoteSqlStr v ≠ none := by
    rw [ne_eq, quoteSqlStr_eq_none, not_and_or, not_not, Nat.not_le]
    exact h
  obtain ⟨q, hq⟩ := ne_none_iff_exists'.1 hq
  have hbody : (∃ body, quoteSqlStr v = some (39 :: body) ∧ LiteralOf v body) ↔
      LiteralOf v (quoteBody v) := by
    rw [hq, quoteSqlStr_eq hq]
    simp
  rw [← hbody, literalOf_quoteSqlStr, Quotable]
  tauto

end Join

/-- A statement is safe from injection exactly if no argument has too many bytes to escape. -/
theorem injectionSafe_iff {sql parttern : Bytes} {args : Table}
    (hv : ∀ fs, fragments sql parttern args = some fs → Sql.ValuePositions .start fs) :
    InjectionSafe sql parttern args ↔ Countable sql parttern args := by
  unfold InjectionSafe Countable
  rcases joinSqlUtil_eq sql parttern args with ⟨hf, hj⟩ | ⟨hf, hj⟩
  · rcases hfs : fragments sql parttern args with _ | fs
    · simp [hj, hfs, hf]
    · have hlit : ∀ v, .literal v ∈ fs →
          (LiteralOf v (quoteBody v) ↔ escapes v < 2 ^ 32 ∨ Sql.plain v) := by
        intro v hm
        obtain ⟨key, hkey, hk⟩ := mem_args_of_literal hfs hm
        exact literalOf_quoteBody (hf key v hkey hk)
      rw [hj, hfs]
      constructor
      · rintro ⟨fs', hfs', -, -, hl⟩
        obtain rfl := Option.some.inj hfs'
        refine ⟨hf, fun fs' v hfs' hm => ?_⟩
        obtain rfl := Option.some.inj hfs'
        exact (hlit v hm).1 (hl v hm)
      · rintro ⟨-, hc⟩
        have hl : ∀ v, .literal v ∈ fs → LiteralOf v (quoteBody v) := fun v hm =>
          (hlit v hm).2 (hc fs v rfl hm)
        exact ⟨fs, rfl, rfl, Sql.tokens_render (hv fs hfs) hl, hl⟩
  · rw [hj]
    exact iff_of_false not_false fun h => hf h.1

/-- `a=$a`. -/
def template : Bytes := Bytes.ascii "a=$a"

/-- The pattern of placeholders that `cache_util.call` uses unless it is told otherwise. -/
def placeholder : Bytes := Bytes.ascii "$([%w_]+)"

/-- An argument that would end its literal early. -/
def breakOut : Table := [(.str (Bytes.ascii "a"), .str (Bytes.ascii "' or 1=1"))]

theorem injectionSafe_breakOut :
    (InjectionSafe template placeholder breakOut ↔ Countable template placeholder breakOut) ∧
      joinSqlUtil template placeholder breakOut = .ok (Bytes.ascii "a='\\' or 1=1'") := by
  refine ⟨injectionSafe_iff fun fs hfs => ?_, by decide⟩
  obtain rfl := Option.some.inj hfs
  decide

theorem fragments_template (v : Bytes) :
    fragments template placeholder [(.str (Bytes.ascii "a"), .str v)] =
      some [.text [97], .text [61], .literal v] := rfl

theorem valuePositions_template {v : Bytes} {fs : List Fragment}
    (h : fragments template placeholder [(.str (Bytes.ascii "a"), .str v)] = some fs) :
    Sql.ValuePositions .start fs := by
  obtain rfl := some.inj ((fragments_template v).symm.trans h)
  exact ⟨rfl, rfl, trivial⟩

theorem not_injectionSafe_of_dvd {v : Bytes} (hd : 2 ^ 32 ∣ escapes v)
    (hn : ¬ (escapes v < 2 ^ 32 ∨ Sql.plain v)) :
    ¬ InjectionSafe template placeholder [(.str (Bytes.ascii "a"), .str v)] := by
  intro h
  unfold InjectionSafe at h
  rcases joinSqlUtil_eq template placeholder [(.str (Bytes.ascii "a"), .str v)] with
    ⟨-, hj⟩ | ⟨-, hj⟩
  · rw [hj, fragments_template] at h
    obtain ⟨fs, hfs, -, -, hl⟩ := h
    obtain rfl := some.inj hfs
    exact hn ((literalOf_quoteBody (.inr hd)).1 (hl v (by simp)))
  · rw [hj] at h
    exact h

/-- What `breakOut` starts with, and behind it in a comment as many bytes to escape as make the
count overflow to 0. -/
def breakOutLong : Bytes := 39 :: (Bytes.ascii " or 1=1 # " ++ List.replicate (2 ^ 32 - 1) 34)

theorem escapes_breakOutLong : escapes breakOutLong = 2 ^ 32 := by
  have h : ∀ n, escapes (39 :: (Bytes.ascii " or 1=1 # " ++ List.replicate n 34)) = n + 1 := by
    intro n
    have h1 : escapes (Bytes.ascii " or 1=1 # ") = 0 := by decide
    have h2 : escapes (List.replicate n 34) = n := by
      simp [escapes, special, countP_replicate]
    have happ : escapes (Bytes.ascii " or 1=1 # " ++ List.replicate n 34) = 0 + n := by
      rw [escapes, countP_append]
      exact congrArg₂ (· + ·) h1 h2
    rw [escapes_cons, happ, Nat.zero_add]
    rfl
  exact h (2 ^ 32 - 1)

theorem plain_breakOutLong : Sql.plain breakOutLong = false := by
  have h : ∀ b, Sql.plain (39 :: b) = false := fun _ => rfl
  exact h _

/-- The argument is copied as it is, and its first byte ends the literal. -/
theorem not_injectionSafe_breakOutLong :
    (∀ fs, fragments template placeholder [(.str (Bytes.ascii "a"), .str breakOutLong)] = some fs →
      Sql.ValuePositions .start fs) ∧
    ¬ InjectionSafe template placeholder [(.str (Bytes.ascii "a"), .str breakOutLong)] := by
  refine ⟨fun fs hfs => valuePositions_template hfs, not_injectionSafe_of_dvd ?_ ?_⟩
  · rw [escapes_breakOutLong]
  · rw [escapes_breakOutLong, plain_breakOutLong]
    simp

end SqlUtil

end SkynetGame
