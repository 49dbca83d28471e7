import SkynetGame.Lib.Bytes

/-!
# Readers of a block of bytes

A cursor has a position and how much is left there, both of which a size that was read may lower. A
reader follows a parser of lists when it gives what the parser gives, never gets out of the block,
and moves backwards just where a condition on the list holds (`Follows`). Such readers go one after
the other (`follows_bind`).
-/

namespace SkynetGame

open List

/-- A position in a block, and how many bytes are left from there. -/
structure Cursor where
  ptr : ℤ
  len : ℤ

namespace Cursor

/-- What becomes of a reader: a value, an error, a position that went backwards, a read outside of
the block, or no end so far. -/
inductive Result (α : Type)
  | ok (a : α) (c : Cursor)
  | error
  | backwards
  | outside
  | running

variable {α β : Type}

def Result.andThen (r : Result α) (k : α → Cursor → Result β) : Result β :=
  match r with
  | .ok a c => k a c
  | .error => .error
  | .backwards => .backwards
  | .outside => .outside
  | .running => .running

def Reader (α : Type) : Type := Cursor → Result α

instance : Monad Reader where
  pure a := fun c => .ok a c
  bind m k := fun c => (m c).andThen k

theorem bind_apply (m : Reader α) (k : α → Reader β) (c : Cursor) :
    (m >>= k) c = (m c).andThen k := rfl

def fail : Reader α := fun _ => .error

/-- A loop that has gone round as often as it may -/
def running : Reader α := fun _ => .running

def ofOption (o : Option α) : Reader α :=
  match o with
  | none => fail
  | some a => pure a

/-- Where a reader is -/
def cursor : Reader Cursor := fun c => .ok c c

/-- A reader with a cursor of its own; the outer one stays where it is. -/
def within (sub : Cursor) (m : Reader α) : Reader α := fun c => (m sub).andThen fun a _ => .ok a c

variable (data : Bytes)

/-- The next bytes, if so many are left. -/
def take (sz : ℤ) : Reader (Option Bytes) := fun c =>
  if c.len < sz then .ok none c
  else if sz < 0 then .backwards
  else if c.ptr < 0 ∨ data.length < c.ptr + sz then .outside
  else .ok (some ((data.drop c.ptr.toNat).take sz.toNat)) ⟨c.ptr + sz, c.len - sz⟩

/-- The cursor has these bytes in front of it, up to the place `e` of the block. -/
def At (e : ℕ) (c : Cursor) (rest : Bytes) : Prop :=
  ∃ front, data.take e = front ++ rest ∧ c.ptr = front.length ∧ c.len = rest.length

theorem at_start (e : ℕ) (he : e ≤ data.length) : At data e ⟨0, e⟩ (data.take e) :=
  ⟨[], rfl, rfl, by simp [he]⟩

variable {data}

theorem At.ptr_eq {e : ℕ} {c : Cursor} (h : At data e c []) (he : e ≤ data.length) :
    c.ptr = e := by
  obtain ⟨front, hfront, hptr, -⟩ := h
  have hlen := congrArg List.length hfront
  simp only [length_take, append_nil] at hlen
  omega

theorem At.take_lt {e : ℕ} {c : Cursor} {rest : Bytes} (h : At data e c rest) {sz : ℤ}
    (hsz : rest.length < sz) : take data sz c = .ok none c := by
  obtain ⟨front, -, -, hlen⟩ := h
  exact if_pos (by omega)

theorem At.take_neg {e : ℕ} {c : Cursor} {rest : Bytes} (h : At data e c rest) {sz : ℤ}
    (hsz : sz < 0) : take data sz c = .backwards := by
  obtain ⟨front, -, -, hlen⟩ := h
  rw [take, if_neg (by omega), if_pos hsz]

/-- What is taken is in the block. -/
theorem At.take_le {e : ℕ} {c : Cursor} {rest : Bytes} (h : At data e c rest) {n : ℕ}
    (hn : n ≤ rest.length) : ∃ c', take data (n : ℤ) c = .ok (some (rest.take n)) c' ∧
      At data e c' (rest.drop n) := by
  obtain ⟨front, hfront, hptr, hlen⟩ := h
  have hdata : data = front ++ (rest ++ data.drop e) := by
    rw [← append_assoc, ← hfront, take_append_drop]
  have hle : front.length + rest.length ≤ data.length := by
    have := congrArg List.length hdata
    simp only [length_append] at this
    omega
  refine ⟨⟨c.ptr + n, c.len - n⟩, ?_, front ++ rest.take n, ?_, ?_, ?_⟩
  · have htake : (data.drop c.ptr.toNat).take n = rest.take n := by
      rw [hptr, Int.toNat_natCast, hdata, drop_left, take_append_of_le_length hn]
    rw [take, if_neg (by omega), if_neg (by omega), if_neg (by omega), Int.toNat_natCast, htake]
  · rw [hfront, append_assoc, take_append_drop]
  · simp [hptr, hn]
  · simp only [length_drop]
    omega

/-- A part of what is in front of the cursor is a block of its own. -/
theorem At.sub {e : ℕ} {c : Cursor} {rest : Bytes} (h : At data e c rest) {n : ℕ}
    (hn : n ≤ rest.length) : ∃ e', At data e' ⟨c.ptr, n⟩ (rest.take n) := by
  obtain ⟨front, hfront, hptr, hlen⟩ := h
  refine ⟨front.length + n, front, ?_, hptr, by simp [hn]⟩
  have hdata : data = front ++ (rest ++ data.drop e) := by
    rw [← append_assoc, ← hfront, take_append_drop]
  rw [hdata, take_length_add_append, take_append_of_le_length hn]

variable (data)

/-- Where at most `N` bytes are left, the reader does what the parser `f` does, which takes `d` bytes
at least, but goes backwards just where `bad` holds. -/
def Follows (d N : ℕ) (m : Reader α) (f : Bytes → Option (α × Bytes)) (bad : Bytes → Prop) : Prop :=
  ∀ (e : ℕ) (c : Cursor) (rest : Bytes), At data e c rest → rest.length ≤ N →
    bad rest ∧ m c = .backwards ∨
    ¬ bad rest ∧ f rest = none ∧ m c = .error ∨
    ¬ bad rest ∧ ∃ a r c', f rest = some (a, r) ∧ m c = .ok a c' ∧ At data e c' r ∧
      r.length + d ≤ rest.length

variable {data} {d N : ℕ} {m : Reader α} {f f' : Bytes → Option (α × Bytes)}
  {bad bad' : Bytes → Prop}

theorem Follows.congr (h : Follows data d N m f bad) (hf : ∀ rest, f' rest = f rest)
    (hbad : ∀ rest, bad' rest ↔ bad rest) : Follows data d N m f' bad' := by
  intro e c rest hat hle
  rw [hf, hbad]
  exact h e c rest hat hle

theorem Follows.mono (h : Follows data d N m f bad) {d' N' : ℕ} (hd : d' ≤ d) (hN : N' ≤ N) :
    Follows data d' N' m f bad := by
  intro e c rest hat hle
  rcases h e c rest hat (hle.trans hN) with h | h | ⟨h, a, r, c', hf, hc, hat', hr⟩
  · exact .inl h
  · exact .inr (.inl h)
  · exact .inr (.inr ⟨h, a, r, c', hf, hc, hat', by omega⟩)

theorem follows_pure (a : α) :
    Follows data 0 N (pure a) (fun rest => some (a, rest)) (fun _ => False) :=
  fun _ c rest hat _ => .inr (.inr ⟨id, a, rest, c, rfl, rfl, hat, le_rfl⟩)

theorem follows_fail : Follows data d N (fail : Reader α) (fun _ => none) (fun _ => False) :=
  fun _ _ _ _ _ => .inr (.inl ⟨id, rfl, rfl⟩)

theorem follows_ofOption (o : Option α) {k : α → Reader β} {g : α → Bytes → Option (β × Bytes)}
    {badk : α → Bytes → Prop} (hk : ∀ a, Follows data d N (k a) (g a) (badk a)) :
    Follows data d N (ofOption o >>= k) (fun rest => o.bind fun a => g a rest)
      (fun rest => ∃ a, o = some a ∧ badk a rest) := by
  rcases o with _ | a
  · refine Follows.congr (follows_fail (α := β)) (fun _ => rfl) fun rest => ?_
    simp
  · exact (hk a).congr (fun _ => rfl) fun rest => by simp

/-- One reader after the other: what is left for the second is what the first did not take. -/
theorem follows_bind {d' : ℕ} {k : α → Reader β} {g : α → Bytes → Option (β × Bytes)}
    {badk : α → Bytes → Prop} (hm : Follows data d N m f bad)
    (hk : ∀ a N', N' + d ≤ N → (∃ rest r, f rest = some (a, r)) →
      Follows data d' N' (k a) (g a) (badk a)) :
    Follows data (d + d') N (m >>= k) (fun rest => (f rest).bind fun p => g p.1 p.2)
      (fun rest => bad rest ∨ ∃ a r, f rest = some (a, r) ∧ badk a r) := by
  intro e c rest hat hle
  rw [bind_apply]
  beta_reduce
  rcases hm e c rest hat hle with ⟨hbad, hc⟩ | ⟨hbad, hf, hc⟩ | ⟨hbad, a, r, c', hf, hc, hat', hr⟩
  · exact .inl ⟨.inl hbad, by rw [hc]; rfl⟩
  · refine .inr (.inl ⟨?_, by rw [hf]; rfl, by rw [hc]; rfl⟩)
    rintro (h | ⟨a, r, h, -⟩)
    · exact hbad h
    · rw [hf] at h
      cases h
  · have hback : (bad rest ∨ ∃ a r, f rest = some (a, r) ∧ badk a r) ↔ badk a r := by
      refine ⟨?_, fun h => .inr ⟨a, r, hf, h⟩⟩
      rintro (h | ⟨a', r', h, hb⟩)
      · exact absurd h hbad
      · rw [hf] at h
        cases h
        exact hb
    rw [hback, hf, hc]
    rcases hk a r.length (by omega) ⟨rest, r, hf⟩ e c' r hat' le_rfl with
      h | h | ⟨h, b, r', c'', hg, hck, hat'', hr'⟩
    · exact .inl h
    · exact .inr (.inl h)
    · exact .inr (.inr ⟨h, b, r', c'', hg, hck, hat'', by omega⟩)

/-- A value that is made of what was read. -/
theorem follows_map (hm : Follows data d N m f bad) (g : α → β) :
    Follows data d N (m >>= fun a => pure (g a)) (fun rest => (f rest).map fun p => (g p.1, p.2))
      bad :=
  ((follows_bind hm fun a _ _ _ => follows_pure (g a)).mono (Nat.le_add_right d 0) le_rfl).congr
    (fun rest => by rcases f rest with _ | p <;> rfl) fun rest => by simp

theorem follows_take (n : ℕ) : Follows data n N (take data n >>= ofOption)
    (fun rest => if rest.length < n then none else some (rest.take n, rest.drop n))
    (fun _ => False) := by
  intro e c rest hat hle
  rw [bind_apply]
  beta_reduce
  by_cases hlt : rest.length < n
  · refine .inr (.inl ⟨id, if_pos hlt, ?_⟩)
    rw [hat.take_lt (by omega)]
    rfl
  · obtain ⟨c', hc, hat'⟩ := hat.take_le (n := n) (by omega)
    refine .inr (.inr ⟨id, _, _, c', if_neg hlt, ?_, hat', ?_⟩)
    · rw [hc]
      rfl
    · rw [length_drop]
      omega

theorem follows_take_neg {sz : ℤ} (h : sz < 0) (f : Bytes → Option (α × Bytes))
    (k : Option Bytes → Reader α) :
    Follows data d N (take data sz >>= k) f (fun _ => True) := by
  intro e c rest hat hle
  rw [bind_apply, hat.take_neg h]
  exact .inl ⟨trivial, rfl⟩

end Cursor

end SkynetGame
