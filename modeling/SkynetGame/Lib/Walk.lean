import SkynetGame.Lib.Cursor

/-!
# Walks over a block

A walk over a list of bytes says how far a format of lengths goes: to what is left, to a place that
is malformed, or to a length that is too short for what it counts. A reader keeps to a walk when it
ends where the walk does, with an error where it is malformed, and goes backwards just where a length
is too short (`Keeps`). So one does not have to say what the reader makes of the bytes.
-/

namespace SkynetGame

inductive Walk
  | leaves (r : Bytes)
  | malformed
  | short
  deriving DecidableEq

namespace Walk

open Cursor

def next (w : Walk) (s : Bytes → Walk) : Walk :=
  match w with
  | .leaves r => s r
  | .malformed => .malformed
  | .short => .short

/-- Behind what a parser reads. -/
def read {α : Type} (f : Bytes → Option (α × Bytes)) (s : α → Bytes → Walk) (rest : Bytes) : Walk :=
  match f rest with
  | none => .malformed
  | some (a, r) => s a r

/-- So many bytes. -/
def counted (sz : ℤ) (rest : Bytes) : Walk :=
  if sz < 0 then .short
  else if rest.length < sz then .malformed
  else .leaves (rest.drop sz.toNat)

/-- Of a kind, if there is one. -/
def given {α : Type} (o : Option α) (s : α → Bytes → Walk) (rest : Bytes) : Walk :=
  match o with
  | none => .malformed
  | some a => s a rest

variable {α β : Type} (data : Bytes)

/-- Where at most `N` bytes are left, the reader keeps to the walk, which takes `d` at least. -/
def Keeps (d N : ℕ) (m : Reader α) (s : Bytes → Walk) : Prop :=
  ∀ (e : ℕ) (c : Cursor) (rest : Bytes), At data e c rest → rest.length ≤ N →
    s rest = .short ∧ m c = .backwards ∨
    s rest = .malformed ∧ m c = .error ∨
    ∃ r a c', s rest = .leaves r ∧ m c = .ok a c' ∧ At data e c' r ∧ r.length + d ≤ rest.length

variable {data} {d d' N : ℕ} {m : Reader α} {k : α → Reader β} {s : Bytes → Walk}

theorem Keeps.mono (h : Keeps data d N m s) {N' : ℕ} (hd : d' ≤ d) (hN : N' ≤ N) :
    Keeps data d' N' m s := by
  intro e c rest hat hle
  rcases h e c rest hat (hle.trans hN) with h | h | ⟨r, a, c', hs, hc, hat', hr⟩
  · exact .inl h
  · exact .inr (.inl h)
  · exact .inr (.inr ⟨r, a, c', hs, hc, hat', by omega⟩)

theorem Keeps.congr (h : Keeps data d N m s) {s' : Bytes → Walk} (hs : ∀ rest, s' rest = s rest) :
    Keeps data d N m s' := by
  intro e c rest hat hle
  rw [hs]
  exact h e c rest hat hle

/-- One reader after the other, whatever the first makes of what it reads. -/
theorem Keeps.next {s' : Bytes → Walk} (hm : Keeps data d N m s)
    (hk : ∀ a N', N' + d ≤ N → Keeps data d' N' (k a) s') :
    Keeps data (d + d') N (m >>= k) fun rest => (s rest).next s' := by
  intro e c rest hat hle
  rw [bind_apply]
  beta_reduce
  rcases hm e c rest hat hle with ⟨hs, hc⟩ | ⟨hs, hc⟩ | ⟨r, a, c', hs, hc, hat', hr⟩
  · exact .inl (by rw [hs, hc]; exact ⟨rfl, rfl⟩)
  · exact .inr (.inl (by rw [hs, hc]; exact ⟨rfl, rfl⟩))
  · rw [hs, hc]
    rcases hk a r.length (by omega) e c' r hat' le_rfl with h | h | ⟨r', b, c'', hs', hck, hat'', hr'⟩
    · exact .inl h
    · exact .inr (.inl h)
    · exact .inr (.inr ⟨r', b, c'', hs', hck, hat'', by omega⟩)

theorem Keeps.map (hm : Keeps data d N m s) (g : α → β) :
    Keeps data d N (m >>= fun a => pure (g a)) s := by
  intro e c rest hat hle
  rw [bind_apply]
  rcases hm e c rest hat hle with ⟨hs, hc⟩ | ⟨hs, hc⟩ | ⟨r, a, c', hs, hc, hat', hr⟩
  · exact .inl ⟨hs, by rw [hc]; rfl⟩
  · exact .inr (.inl ⟨hs, by rw [hc]; rfl⟩)
  · exact .inr (.inr ⟨r, g a, c', hs, by rw [hc]; rfl, hat', hr⟩)

end Walk

end SkynetGame
