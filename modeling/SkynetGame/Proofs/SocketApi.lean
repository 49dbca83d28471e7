import SkynetGame.SocketApi
import SkynetGame.Proofs.SocketBuffer

/-!
# The strings that are read are the stream, piece by piece

The bytes in the buffer are those that came and were not returned (`Core`). A coroutine sleeps only
while what it waits for is not there, and the message that makes it so wakes it (`Phase`); whatever
comes before it goes on, what it then finds is right, except that a line that was whole is given back
as the rest of the stream when the end comes first.
-/

namespace SkynetGame

open List Option

namespace SocketApi

open SocketBuffer (Rep findSep)

/-- The bytes of the stream that a returned call used up. -/
def consumed : Call → Result → Bytes
  | .readline sep, .str s => s ++ sep
  | _, .str s => s
  | _, .failed s => s
  | _, _ => []

/-- What a call returns is right, given what came and was not returned before it: exactly the bytes
asked for, or, with the stream at its end before they came, all bytes that were left. -/
def Right (connected : Bool) (rest : Bytes) : Call → Result → Prop
  | .read sz, .str s => s <+: rest ∧ s.length = sz
  | .read sz, .failed s => connected = false ∧ s = rest ∧ s.length < sz
  | .readSome, .str s => s <+: rest ∧ s ≠ []
  | .readSome, .failed s => connected = false ∧ rest = [] ∧ s = []
  | .readline sep, .str s => s ++ sep <+: rest ∧ findSep sep rest = some s.length
  | .readline sep, .failed s => connected = false ∧ s = rest ∧ findSep sep rest = none
  | .readall, .str s => connected = false ∧ s = rest
  | .readall, .no => connected = false ∧ rest = []
  | _, _ => False

/-- The calls returned consecutive pieces of the stream `rest`, each what it had to. -/
def Pieces (connected : Bool) : Bytes → List (Call × Result) → Prop
  | _, [] => True
  | rest, (c, r) :: l => Right connected rest c r ∧ Pieces connected (rest.drop (consumed c r).length) l

def Ready (u : Bytes) : Call → Prop
  | .read sz => sz ≤ u.length
  | .readSome => u ≠ []
  | .readline sep => findSep sep u ≠ none
  | .readall => False

def State.consumed (s : State) : Bytes := s.returned.flatMap fun e => SocketApi.consumed e.1 e.2

def State.unread (s : State) : Bytes := s.arrived.drop s.consumed.length

/-- The strings returned are consecutive pieces of the stream, each what its call asked for, and the
coroutine sleeps only where the stream goes on and what it waits for is not there. -/
structure Streamed (s : State) : Prop where
  alive : s.crashed = false
  pieces : Pieces s.connected s.arrived s.returned
  waits : ∀ c, s.sleeping = some c → s.woken = false → s.connected = true ∧ ¬ Ready s.unread c

/-- A call asks for at least one byte, and its numbers are `int`s. -/
def Fine : Call → Prop
  | .read sz => 0 < sz ∧ sz < 2 ^ 31
  | .readline sep => sep.length < 2 ^ 31
  | _ => True

/-- Calls are fine, an `int` holds the bytes that are unread, and the end of the stream does not come
between the data with a whole line and the coroutine that is woken for it. -/
def Tame (s : State) : Label → Prop
  | .call c => Fine c
  | .resume => True
  | .data chunk => (s.unread ++ chunk).length < 2 ^ 31
  | .close => ∀ sep, s.sleeping = some (.readline sep) → s.woken = true → s.connected = false

section Pieces

theorem Right.used {connected : Bool} {rest : Bytes} {c : Call} {r : Result}
    (h : Right connected rest c r) : consumed c r <+: rest := by
  cases c <;> cases r <;> simp only [Right] at h <;> simp only [consumed]
  all_goals first
    | exact h.1
    | exact h.2 ▸ prefix_rfl
    | exact h.2.1 ▸ prefix_rfl
    | exact h.2.2 ▸ nil_prefix

theorem findSep_append {sep : Bytes} : ∀ {b : Bytes} {i : ℕ}, findSep sep b = some i →
    ∀ x, findSep sep (b ++ x) = some i
  | c :: b, i, h, x => by
    rw [findSep] at h
    rw [cons_append, findSep]
    split_ifs at h with hpre
    · have hpre' : sep.isPrefixOf (c :: (b ++ x)) = true := by
        rw [List.isPrefixOf_iff_prefix] at hpre ⊢
        exact hpre.trans (prefix_append (c :: b) x)
      rw [if_pos hpre']
      exact h
    · obtain ⟨k, hk, rfl⟩ := map_eq_some_iff.1 h
      have hpre' : ¬ sep.isPrefixOf (c :: (b ++ x)) = true := by
        rw [List.isPrefixOf_iff_prefix] at hpre ⊢
        intro hbad
        have hle := SocketBuffer.findSep_le hk
        exact hpre (prefix_of_prefix_length_le hbad (prefix_append (c :: b) x)
          (by rw [length_cons]; omega))
      rw [if_neg hpre', findSep_append hk x]
      rfl

theorem findSep_found {sep : Bytes} : ∀ {b : Bytes} {i : ℕ}, findSep sep b = some i →
    b.take i ++ sep <+: b
  | c :: b, i, h => by
    rw [findSep] at h
    split_ifs at h with hpre
    · obtain rfl : 0 = i := some.inj h
      exact isPrefixOf_iff_prefix.1 hpre
    · obtain ⟨k, hk, rfl⟩ := map_eq_some_iff.1 h
      exact (prefix_cons_inj c).2 (findSep_found hk)

theorem Right.append {rest : Bytes} {c : Call} {r : Result} (h : Right true rest c r) (x : Bytes) :
    Right true (rest ++ x) c r := by
  have hmore : ∀ {s : Bytes}, s <+: rest → s <+: rest ++ x := fun hs =>
    hs.trans (prefix_append rest x)
  cases c <;> cases r <;> simp only [Right] at h ⊢
  case read.str => exact ⟨hmore h.1, h.2⟩
  case readSome.str => exact ⟨hmore h.1, h.2⟩
  case readline.str => exact ⟨hmore h.1, findSep_append h.2 x⟩
  all_goals exact absurd h.1 (by decide)

theorem Right.ended {connected : Bool} {rest : Bytes} {c : Call} {r : Result}
    (h : Right connected rest c r) : Right false rest c r := by
  cases c <;> cases r <;> simp only [Right] at h ⊢
  all_goals first
    | exact h
    | exact ⟨trivial, h.2⟩

theorem Pieces.append : ∀ {rest : Bytes} {l : List (Call × Result)}, Pieces true rest l →
    ∀ x, Pieces true (rest ++ x) l
  | _, [], _, _ => trivial
  | rest, (c, r) :: l, h, x => by
    refine ⟨h.1.append x, ?_⟩
    rw [drop_append_of_le_length h.1.used.length_le]
    exact h.2.append x

theorem Pieces.ended {connected : Bool} : ∀ {rest : Bytes} {l : List (Call × Result)},
    Pieces connected rest l → Pieces false rest l
  | _, [], _ => trivial
  | _, _ :: _, h => ⟨h.1.ended, Pieces.ended h.2⟩

theorem Pieces.concat {connected : Bool} {c : Call} {r : Result} :
    ∀ {rest : Bytes} {l : List (Call × Result)}, Pieces connected rest l →
      Right connected (rest.drop (l.flatMap fun e => consumed e.1 e.2).length) c r →
      Pieces connected rest (l ++ [(c, r)])
  | rest, [], _, hr => by
    rw [flatMap_nil, length_nil, drop_zero] at hr
    exact ⟨hr, trivial⟩
  | rest, (c', r') :: l, h, hr => by
    refine ⟨h.1, h.2.concat ?_⟩
    rw [flatMap_cons, length_append] at hr
    rwa [drop_drop]

end Pieces

section Driver

variable {id : ℕ} {d : SocketBuffer.State} {u : ℕ → Bytes}

/-- The driver holds the bytes `b` for the socket. -/
def Held (id : ℕ) (d : SocketBuffer.State) (b : Bytes) : Prop := ∃ u, Rep d u ∧ u id = b

theorem Held.step {b : Bytes} (h : Held id d b) (op : SocketBuffer.Op)
    (hfits : SocketBuffer.Fits b op) : ∃ d', SocketBuffer.step d id op
      = some ((SocketBuffer.meant b op).1, d') ∧ Held id d' (SocketBuffer.meant b op).2 := by
  obtain ⟨u, hrep, rfl⟩ := h
  obtain ⟨d', hstep, hrep'⟩ := SocketBuffer.step_spec hrep id hfits
  exact ⟨d', hstep, _, hrep', Function.update_self ..⟩

theorem lpopbuffer_held {b : Bytes} (h : Held id d b) {n : ℕ} (hn : 0 < n) (hint : n < 2 ^ 31) :
    (n ≤ b.length → ∃ d' size, SocketBuffer.lpopbuffer d id n = some (some (b.take n), size, d')
        ∧ Held id d' (b.drop n))
      ∧ (b.length < n → ∃ d' size, SocketBuffer.lpopbuffer d id n = some (none, size, d')
        ∧ Held id d' b) := by
  have hfits : SocketBuffer.Fits b (.pop n) := by
    rw [SocketBuffer.Fits]
    omega
  obtain ⟨d', hstep, hheld⟩ := h.step (.pop n) hfits
  rw [SocketBuffer.step] at hstep
  obtain ⟨⟨str, size, d₁⟩, hpop, heq⟩ := map_eq_some_iff.1 hstep
  rw [Prod.mk.injEq] at heq
  obtain ⟨hreply, rfl⟩ := heq
  constructor
  · intro hle
    have hmeant : SocketBuffer.meant b (.pop n)
        = (.popped (some (b.take n)) (b.length - n), b.drop n) := by
      rw [SocketBuffer.meant, if_pos ⟨by omega, by omega⟩, Int.toNat_natCast]
    rw [hmeant] at hreply hheld
    cases hreply
    exact ⟨d₁, _, hpop, hheld⟩
  · intro hlt
    have hmeant : SocketBuffer.meant b (.pop n) = (.popped none b.length, b) := by
      rw [SocketBuffer.meant, if_neg (by omega)]
    rw [hmeant] at hreply hheld
    cases hreply
    exact ⟨d₁, _, hpop, hheld⟩

theorem lreadall_held {b : Bytes} (h : Held id d b) :
    ∃ d', SocketBuffer.lreadall d id = some (b, d') ∧ Held id d' [] := by
  obtain ⟨d', hstep, hheld⟩ := h.step .readall trivial
  obtain ⟨⟨str, d₁⟩, hall, heq⟩ := map_eq_some_iff.1 hstep
  rw [Prod.mk.injEq] at heq
  obtain ⟨hreply, rfl⟩ := heq
  cases hreply
  exact ⟨d₁, hall, hheld⟩

theorem lreadline_held {b sep : Bytes} (h : Held id d b) (hint : sep.length < 2 ^ 31) :
    ∃ d', SocketBuffer.lreadline d id sep = some ((findSep sep b).map (b.take ·), d')
      ∧ Held id d' (b.drop ((findSep sep b).elim 0 (· + sep.length))) := by
  obtain ⟨d', hstep, hheld⟩ := h.step (.readline sep) hint
  obtain ⟨⟨str, d₁⟩, hline, heq⟩ := map_eq_some_iff.1 hstep
  rw [Prod.mk.injEq] at heq
  obtain ⟨hreply, rfl⟩ := heq
  simp only [SocketBuffer.meant] at hreply hheld
  cases hfind : findSep sep b with
  | none =>
    rw [hfind] at hreply hheld
    cases hreply
    exact ⟨d₁, hline, hheld⟩
  | some i =>
    rw [hfind] at hreply hheld
    cases hreply
    exact ⟨d₁, hline, hheld⟩

theorem lreadlineCheck_held {b sep : Bytes} (h : Held id d b) (hint : sep.length < 2 ^ 31) :
    SocketBuffer.lreadlineCheck d id sep = some (findSep sep b).isSome := by
  obtain ⟨d', hstep, -⟩ := h.step (.check sep) hint
  obtain ⟨found, hcheck, heq⟩ := map_eq_some_iff.1 hstep
  rw [Prod.mk.injEq] at heq
  obtain ⟨hreply, -⟩ := heq
  cases hreply
  exact hcheck

theorem lpushbuffer_held {b chunk : Bytes} (h : Held id d b) (hchunk : chunk ≠ [])
    (hint : (b ++ chunk).length < 2 ^ 31) : ∃ d', SocketBuffer.lpushbuffer d id chunk
      = some (((b ++ chunk).length : ℤ), d') ∧ Held id d' (b ++ chunk) := by
  obtain ⟨u, hrep, rfl⟩ := h
  obtain ⟨d', hpush, hrep'⟩ := SocketBuffer.lpushbuffer_spec hrep hchunk hint
  exact ⟨d', hpush, _, hrep', Function.update_self ..⟩

end Driver

/-- The driver holds what came and was not returned, and what was returned is right. -/
structure Core (id : ℕ) (s : State) : Prop where
  held : Held id s.driver s.unread
  alive : s.crashed = false
  pieces : Pieces s.connected s.arrived s.returned

/-- What is stored while a call sleeps. -/
def required : Call → Required
  | .read sz => .number sz
  | .readSome => .number 0
  | .readall => .all
  | .readline sep => .sep sep

/-- Where the coroutine is: between its calls, asleep for want of what it waits for, or woken. -/
inductive Phase (s : State) : Prop
  | between : s.sleeping = none → s.co = false → s.woken = false →
      (s.connected = true → s.readRequired = .none) → Phase s
  | asleep (c : Call) : s.sleeping = some c → Fine c → s.co = true → s.woken = false →
      s.connected = true → s.readRequired = required c → ¬ Ready s.unread c → Phase s
  | woken (c : Call) : s.sleeping = some c → Fine c → s.co = false → s.woken = true →
      (s.connected = true → s.readRequired = .none ∧ Ready s.unread c) →
      (∀ sep, c = .readline sep → s.connected = false → ¬ Ready s.unread c) → Phase s

structure Inv (id : ℕ) (s : State) : Prop where
  core : Core id s
  phase : Phase s

theorem Inv.init (id : ℕ) : Inv id .init :=
  ⟨⟨⟨fun _ => [], Rep.init, rfl⟩, rfl, trivial⟩, .between rfl rfl rfl fun _ => rfl⟩

variable {id : ℕ} {s : State}

theorem Inv.streamed (h : Inv id s) : Streamed s := by
  refine ⟨h.core.alive, h.core.pieces, fun c hc hw => ?_⟩
  cases h.phase with
  | between hs => rw [hs] at hc; cases hc
  | asleep c' hs _ _ _ hconn _ hready =>
    rw [hs] at hc
    cases hc
    exact ⟨hconn, hready⟩
  | woken c' _ _ _ hw' => rw [hw] at hw'; cases hw'

theorem consumed_ret (d : SocketBuffer.State) (c : Call) (r : Result) :
    (ret { s with driver := d } c r).unread = s.unread.drop (consumed c r).length := by
  simp only [ret, State.unread, State.consumed, flatMap_append, flatMap_cons,
    flatMap_nil, append_nil, length_append, drop_drop]

theorem Core.ret (h : Core id s) {d : SocketBuffer.State} {c : Call} {r : Result}
    (hheld : Held id d (s.unread.drop (consumed c r).length))
    (hr : Right s.connected s.unread c r) : Core id (ret { s with driver := d } c r) :=
  ⟨by rw [consumed_ret]; exact hheld, h.alive, h.pieces.concat hr⟩

/-- The coroutine is at work: nothing of it is asleep. -/
structure Free (s : State) : Prop where
  co : s.co = false
  woken : s.woken = false
  required : s.connected = true → s.readRequired = .none

theorem inv_ret (h : Core id s) (hfree : Free s) {d : SocketBuffer.State} {c : Call} {r : Result}
    (hheld : Held id d (s.unread.drop (consumed c r).length))
    (hr : Right s.connected s.unread c r) : Inv id (ret { s with driver := d } c r) :=
  ⟨h.ret hheld hr, .between rfl hfree.co hfree.woken hfree.required⟩

theorem inv_suspend (h : Core id s) (hfree : Free s) {d : SocketBuffer.State}
    (hheld : Held id d s.unread) {c : Call} (hc : Fine c) (hconn : s.connected = true)
    (hready : ¬ Ready s.unread c) : Inv id (suspend { s with driver := d } c (required c)) := by
  have hgo : ¬ (s.readRequired ≠ .none ∨ s.co = true) := by
    rw [hfree.required hconn, hfree.co]
    decide
  rw [suspend, if_neg hgo]
  exact ⟨⟨hheld, h.alive, h.pieces⟩, .asleep c rfl hc rfl hfree.woken hconn rfl hready⟩

theorem inv_failAll (h : Core id s) (hfree : Free s) {d : SocketBuffer.State}
    (hheld : Held id d s.unread) {c : Call} (hused : consumed c (.failed s.unread) = s.unread)
    (hr : Right s.connected s.unread c (.failed s.unread)) :
    Inv id (failAll id { s with driver := d } c) := by
  obtain ⟨d', hall, hheld'⟩ := lreadall_held hheld
  rw [failAll, readallThen]
  simp only [hall]
  refine inv_ret h hfree ?_ hr
  rw [hused, drop_length]
  exact hheld'

theorem inv_popOr (h : Core id s) (hfree : Free s) {sz : ℕ} (hfine : Fine (.read sz))
    {k : State → State} (hk : ∀ d, Held id d s.unread → ¬ Ready s.unread (.read sz) →
      Inv id (k { s with driver := d })) : Inv id (popOr id s (.read sz) sz k) := by
  obtain ⟨henough, hshort⟩ := lpopbuffer_held h.held hfine.1 hfine.2
  rw [popOr]
  rcases Nat.lt_or_ge s.unread.length sz with hlt | hle
  · obtain ⟨d, size, hpop, hheld⟩ := hshort hlt
    simp only [hpop]
    exact hk d hheld (Nat.not_le.2 hlt)
  · obtain ⟨d, size, hpop, hheld⟩ := henough hle
    simp only [hpop]
    have hlen : (s.unread.take sz).length = sz := length_take_of_le hle
    refine inv_ret h hfree ?_ ⟨List.take_prefix sz s.unread, hlen⟩
    show Held id d (s.unread.drop (s.unread.take sz).length)
    rwa [hlen]

theorem inv_readlineOr (h : Core id s) (hfree : Free s) {sep : Bytes} (hint : sep.length < 2 ^ 31)
    {k : State → State} (hk : ∀ d, Held id d s.unread → findSep sep s.unread = none →
      Inv id (k { s with driver := d })) : Inv id (readlineOr id s (.readline sep) sep k) := by
  obtain ⟨d, hline, hheld⟩ := lreadline_held h.held hint
  rw [readlineOr]
  cases hfind : findSep sep s.unread with
  | none =>
    rw [hfind] at hline hheld
    simp only [hline, map_none]
    exact hk d hheld hfind
  | some i =>
    rw [hfind] at hline hheld
    simp only [hline, map_some]
    have hle := SocketBuffer.findSep_le hfind
    have hlen : (s.unread.take i).length = i := length_take_of_le (by omega)
    refine inv_ret h hfree ?_ ⟨findSep_found hfind, hlen.symm ▸ hfind⟩
    show Held id d (s.unread.drop (s.unread.take i ++ sep).length)
    rw [length_append, hlen]
    exact hheld

theorem not_ready_readline {u sep : Bytes} : ¬ Ready u (.readline sep) ↔ findSep sep u = none :=
  not_not

theorem inv_start (h : Core id s) (hfree : Free s) {c : Call} (hc : Fine c) :
    Inv id (start id s c) := by
  cases c with
  | read sz =>
    rw [start]
    refine inv_popOr h hfree hc fun d hheld hready => ?_
    by_cases hconn : s.connected = true
    · rw [if_pos hconn]
      exact inv_suspend h hfree hheld hc hconn hready
    · rw [if_neg hconn]
      exact inv_failAll h hfree hheld rfl ⟨eq_false_of_ne_true hconn, rfl, Nat.lt_of_not_le hready⟩
  | readSome =>
    obtain ⟨d, hall, hheld⟩ := lreadall_held h.held
    rw [start, readallThen]
    simp only [hall]
    by_cases hnil : s.unread = []
    · rw [if_neg (not_not.2 hnil)]
      have hheld' : Held id d s.unread := by rwa [hnil]
      by_cases hconn : s.connected = true
      · rw [if_pos hconn]
        exact inv_suspend h hfree hheld' trivial hconn fun hready => hready hnil
      · rw [if_neg hconn]
        refine inv_ret h hfree ?_ ⟨eq_false_of_ne_true hconn, hnil, hnil⟩
        rwa [hnil, drop_nil]
    · rw [if_pos hnil]
      refine inv_ret h hfree ?_ ⟨prefix_rfl, hnil⟩
      show Held id d (s.unread.drop s.unread.length)
      rwa [drop_length]
  | readall =>
    rw [start]
    by_cases hconn : s.connected = true
    · rw [if_pos hconn]
      exact inv_suspend h hfree h.held hc hconn fun hready => hready
    · obtain ⟨d, hall, hheld⟩ := lreadall_held h.held
      rw [if_neg hconn, readallThen]
      simp only [hall]
      by_cases hnil : s.unread = []
      · rw [if_neg (not_not.2 hnil)]
        refine inv_ret h hfree ?_ ⟨eq_false_of_ne_true hconn, hnil⟩
        rwa [hnil, drop_nil]
      · rw [if_pos hnil]
        refine inv_ret h hfree ?_ ⟨eq_false_of_ne_true hconn, rfl⟩
        show Held id d (s.unread.drop s.unread.length)
        rwa [drop_length]
  | readline sep =>
    rw [start]
    refine inv_readlineOr h hfree hc fun d hheld hfind => ?_
    by_cases hconn : s.connected = true
    · rw [if_pos hconn]
      exact inv_suspend h hfree hheld hc hconn (not_ready_readline.2 hfind)
    · rw [if_neg hconn]
      exact inv_failAll h hfree hheld rfl ⟨eq_false_of_ne_true hconn, rfl, hfind⟩

theorem inv_finish (h : Core id s) (hfree : Free s) {c : Call} (hc : Fine c)
    (hready : s.connected = true → Ready s.unread c)
    (hline : ∀ sep, c = .readline sep → s.connected = false → ¬ Ready s.unread c) :
    Inv id (finish id s c) := by
  cases c with
  | read sz =>
    rw [finish]
    refine inv_popOr h hfree hc fun d hheld hshort => ?_
    have hconn : s.connected = false := eq_false_of_ne_true fun hconn => hshort (hready hconn)
    exact inv_failAll h hfree hheld rfl ⟨hconn, rfl, Nat.lt_of_not_le hshort⟩
  | readSome =>
    obtain ⟨d, hall, hheld⟩ := lreadall_held h.held
    rw [finish, readallThen]
    simp only [hall]
    by_cases hnil : s.unread = []
    · have hconn : s.connected = false := eq_false_of_ne_true fun hconn => hready hconn hnil
      rw [if_neg (not_not.2 hnil)]
      refine inv_ret h hfree ?_ ⟨hconn, hnil, hnil⟩
      rwa [hnil, drop_nil]
    · rw [if_pos hnil]
      refine inv_ret h hfree ?_ ⟨prefix_rfl, hnil⟩
      show Held id d (s.unread.drop s.unread.length)
      rwa [drop_length]
  | readall =>
    have hconn : ¬ s.connected = true := fun hconn => hready hconn
    obtain ⟨d, hall, hheld⟩ := lreadall_held h.held
    rw [finish, if_neg hconn, readallThen]
    simp only [hall]
    refine inv_ret h hfree ?_ ⟨eq_false_of_ne_true hconn, rfl⟩
    show Held id d (s.unread.drop s.unread.length)
    rwa [drop_length]
  | readline sep =>
    rw [finish]
    by_cases hconn : s.connected = true
    · rw [if_pos hconn]
      exact inv_readlineOr h hfree hc fun d _ hfind => absurd hfind (hready hconn)
    · rw [if_neg hconn]
      have hend := eq_false_of_ne_true hconn
      exact inv_failAll h hfree h.held rfl ⟨hend, rfl, not_ready_readline.1 (hline sep rfl hend)⟩

theorem Ready.append {u : Bytes} {c : Call} (h : Ready u c) (x : Bytes) : Ready (u ++ x) c := by
  cases c with
  | read sz => exact Nat.le_trans h (by rw [length_append]; exact Nat.le_add_right _ _)
  | readSome => exact fun hnil => h (append_eq_nil_iff.1 hnil).1
  | readall => exact h
  | readline sep =>
    obtain ⟨i, hi⟩ := ne_none_iff_exists'.1 h
    rw [Ready, findSep_append hi]
    exact some_ne_none i

theorem inv_close (h : Inv id s)
    (hok : ∀ sep, s.sleeping = some (.readline sep) → s.woken = true → s.connected = false) :
    Inv id (onClose s) := by
  have hcore : ∀ s' : State, s'.driver = s.driver → s'.unread = s.unread → s'.crashed = s.crashed →
      s'.connected = false → s'.arrived = s.arrived → s'.returned = s.returned → Core id s' := by
    intro s' hd hu hcr hc ha hret
    refine ⟨by rw [hd, hu]; exact h.core.held, hcr.trans h.core.alive, ?_⟩
    rw [hc, ha, hret]
    exact h.core.pieces.ended
  cases h.phase with
  | between hs hco hw hreq =>
    rw [onClose, wakeup, if_neg (by rw [hco]; decide)]
    exact ⟨hcore _ rfl rfl rfl rfl rfl rfl, .between hs hco hw fun hbad => nomatch hbad⟩
  | asleep c hs hc hco hw hconn hreq hready =>
    rw [onClose, wakeup, if_pos hco]
    exact ⟨hcore _ rfl rfl rfl rfl rfl rfl, .woken c hs hc rfl rfl (fun hbad => nomatch hbad)
      fun _ _ _ => hready⟩
  | woken c hs hc hco hw hreq hline =>
    rw [onClose, wakeup, if_neg (by rw [hco]; decide)]
    refine ⟨hcore _ rfl rfl rfl rfl rfl rfl, .woken c hs hc hco hw (fun hbad => nomatch hbad) ?_⟩
    intro sep hsep _
    exact hline sep hsep (hok sep (hsep ▸ hs) hw)

theorem Pieces.length_le {connected : Bool} : ∀ {rest : Bytes} {l : List (Call × Result)},
    Pieces connected rest l → (l.flatMap fun e => consumed e.1 e.2).length ≤ rest.length
  | _, [], _ => Nat.zero_le _
  | rest, (c, r) :: l, h => by
    have hle := h.2.length_le
    have hused := h.1.used.length_le
    rw [length_drop] at hle
    rw [flatMap_cons, length_append]
    show (consumed c r).length + _ ≤ _
    omega

theorem Core.data (h : Core id s) (hconn : s.connected = true) {chunk : Bytes} {d : SocketBuffer.State}
    (hheld : Held id d (s.unread ++ chunk)) (rr : Required) (co woken : Bool) :
    Core id { s with
      driver := d
      arrived := s.arrived ++ chunk
      readRequired := rr
      co := co
      woken := woken } ∧
    State.unread { s with
      driver := d
      arrived := s.arrived ++ chunk
      readRequired := rr
      co := co
      woken := woken } = s.unread ++ chunk := by
  have hunread : (s.arrived ++ chunk).drop s.consumed.length = s.unread ++ chunk :=
    drop_append_of_le_length h.pieces.length_le
  have hpieces := h.pieces
  rw [hconn] at hpieces
  refine ⟨⟨?_, h.alive, ?_⟩, hunread⟩
  · show Held id d ((s.arrived ++ chunk).drop s.consumed.length)
    rwa [hunread]
  · show Pieces s.connected (s.arrived ++ chunk) s.returned
    rw [hconn]
    exact hpieces.append chunk

theorem inv_data (h : Inv id s) (hconn : s.connected = true) {chunk : Bytes} (hchunk : chunk ≠ [])
    (hint : (s.unread ++ chunk).length < 2 ^ 31) : Inv id (onData id s chunk) := by
  obtain ⟨d, hpush, hheld⟩ := lpushbuffer_held h.core.held hchunk hint
  have hcore := h.core.data hconn hheld
  rw [onData]
  simp only [hpush]
  cases h.phase with
  | between hs hco hw hreq =>
    simp only [hreq hconn]
    exact ⟨(hcore .none s.co s.woken).1, .between hs hco hw fun _ => rfl⟩
  | woken c hs hc hco hw hreq hline =>
    obtain ⟨hnone, hready⟩ := hreq hconn
    obtain ⟨hc', hunread⟩ := hcore .none s.co s.woken
    simp only [hnone]
    refine ⟨hc', .woken c hs hc hco hw (fun _ => ⟨rfl, ?_⟩) fun _ _ hbad => ?_⟩
    · rw [hunread]
      exact hready.append chunk
    · exact absurd (hconn.symm.trans hbad) (by decide)
  | asleep c hs hc hco hw _ hreq hready =>
    have hwake : Ready (s.unread ++ chunk) c → Inv id (wakeup { s with
        driver := d
        arrived := s.arrived ++ chunk
        readRequired := .none }) := by
      intro hr
      obtain ⟨hc', hunread⟩ := hcore .none false true
      rw [wakeup, if_pos hco]
      exact ⟨hc', .woken c hs hc rfl rfl (fun _ => ⟨rfl, by rw [hunread]; exact hr⟩)
        fun _ _ hbad => absurd (hconn.symm.trans hbad) (by decide)⟩
    have hsleep : ¬ Ready (s.unread ++ chunk) c → Inv id { s with
        driver := d
        arrived := s.arrived ++ chunk
        readRequired := required c } := by
      intro hr
      obtain ⟨hc', hunread⟩ := hcore (required c) s.co s.woken
      exact ⟨hc', .asleep c hs hc hco hw hconn rfl (by rw [hunread]; exact hr)⟩
    simp only [hreq]
    cases c with
    | read sz =>
      by_cases hge : sz ≤ (s.unread ++ chunk).length
      · simp only [required, if_pos (show ((s.unread ++ chunk).length : ℤ) ≥ sz by omega)]
        exact hwake hge
      · simp only [required, if_neg (show ¬ ((s.unread ++ chunk).length : ℤ) ≥ sz by omega)]
        exact hsleep hge
    | readSome =>
      simp only [required, if_pos (show ((s.unread ++ chunk).length : ℤ) ≥ 0 by omega)]
      exact hwake fun hnil => hchunk (append_eq_nil_iff.1 hnil).2
    | readall => exact hsleep fun hr => hr
    | readline sep =>
      simp only [required, lreadlineCheck_held hheld hc]
      cases hfind : findSep sep (s.unread ++ chunk) with
      | none => exact hsleep (not_ready_readline.2 hfind)
      | some i =>
        refine hwake ?_
        rw [Ready, hfind]
        exact some_ne_none i

theorem Inv.step {s' : State} {l : Label} (h : Inv id s) (hok : Tame s l)
    (hst : step id s l = some s') : Inv id s' := by
  cases l with
  | call c =>
    obtain ⟨hs, rfl⟩ := of_guard hst
    cases h.phase with
    | between _ hco hw hreq => exact inv_start h.core ⟨hco, hw, hreq⟩ hok
    | asleep c' hs' => rw [hs] at hs'; cases hs'
    | woken c' hs' => rw [hs] at hs'; cases hs'
  | resume =>
    cases h.phase with
    | between hs =>
      simp only [SocketApi.step, hs] at hst
      cases hst
    | asleep c hs _ _ hw =>
      simp only [SocketApi.step, hs, hw] at hst
      cases hst
    | woken c hs hc hco hw hreq hline =>
      have hcore : Core id { s with woken := false } := ⟨h.core.held, h.core.alive, h.core.pieces⟩
      have hfree : Free { s with woken := false } := ⟨hco, rfl, fun hconn => (hreq hconn).1⟩
      have hfinish := inv_finish hcore hfree hc (fun hconn => (hreq hconn).2) hline
      have hstep : SocketApi.step id s .resume = some (finish id { s with woken := false } c) := by
        rw [SocketApi.step, hs]
        exact if_pos hw
      rw [hstep, some.injEq] at hst
      rwa [← hst]
  | data chunk =>
    obtain ⟨hgo, rfl⟩ := of_guard hst
    exact inv_data h hgo.1 hgo.2 hok
  | close =>
    cases hst
    exact inv_close h hok

/-- In every run of tame steps the strings returned are the stream, piece by piece. -/
theorem streamed_of_tame {s : State} (h : (machine id).Reach Tame s) : Streamed s :=
  (h.invariant (I := Inv id) (Inv.init id) fun _ _ _ hi hok hst => hi.step hok hst).streamed

/-- A line, three bytes out of two chunks, and the rest at the end of the stream. -/
theorem streamed_threeCalls : ∃ s, (machine 0).Reach Tame s ∧ Streamed s
    ∧ s.returned = [(.readline [10], .str [97]), (.read 3, .str [98, 99, 100]),
      (.readall, .str [101])] := by
  have h₀ : (machine 0).Reach Tame (machine 0).init := .init
  have h₁ := h₀.step (i := Label.data [97, 10, 98]) (show 3 < 2 ^ 31 by decide) rfl
  have h₂ := h₁.step (i := Label.call (.readline [10])) (show 1 < 2 ^ 31 by decide) rfl
  have h₃ := h₂.step (i := Label.call (.read 3)) ⟨by decide, by decide⟩ rfl
  have h₄ := h₃.step (i := Label.data [99, 100, 101]) (show 4 < 2 ^ 31 by decide) rfl
  have h₅ := h₄.step (i := Label.resume) trivial rfl
  have h₆ := h₅.step (i := Label.call .readall) trivial rfl
  have h₇ := h₆.step (i := Label.close) (fun _ h => by cases h) rfl
  have h₈ := h₇.step (i := Label.resume) trivial rfl
  exact ⟨_, h₈, streamed_of_tame h₈, by decide⟩

/-- `read(0)` waits for data and then returns all of it as the rest of a stream that goes on. -/
theorem not_streamed_read_zero : ¬ ∀ s, (machine 0).Reachable s → Streamed s := by
  intro h
  have h₀ : (machine 0).Reachable (machine 0).init := .init
  have h₁ := h₀.step (i := Label.call (.read 0)) trivial rfl
  have h₂ := h₁.step (i := Label.data [97]) trivial rfl
  have h₃ := h₂.step (i := Label.resume) trivial rfl
  have hpieces := (h _ h₃).pieces
  exact absurd hpieces.1.1 (by decide)

end SocketApi

end SkynetGame
