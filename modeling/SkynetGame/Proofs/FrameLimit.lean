import SkynetGame.Proofs.Gate

/-!
# The limit of a frame

Of headers of 4 bytes some announce a frame of 16 MB or more. The gate looks at that only where the
whole frame is in its buffer, so it closes a connection for such a header exactly where the frame comes
with it in what is buffered; for any other it waits (`Limited`), and for ever if the length is too much
for an `int`.
-/

namespace SkynetGame

namespace Gate

open Framing

/-- The header at the front announces a frame that is too long. -/
def Long (w : ℕ) (s : Bytes) : Prop := w ≤ s.length ∧ 0x1000000 ≤ announced w s

instance : DecidablePred (Long w) := fun _ => inferInstanceAs (Decidable (_ ∧ _))

/-- From `s` the loop comes to read its header at `t`: whole frames are before it, none too long. -/
inductive Comes (receiver : Option Receiver) (w : ℕ) : Bytes → Bytes → Prop
  | refl {s : Bytes} : Comes receiver w s s
  | frame {s t : Bytes} (hwhole : Whole w s) (hshort : ¬ 0x1000000 ≤ announced w s)
      (h : Comes receiver w (onward receiver w s) t) : Comes receiver w s t

variable {receiver : Option Receiver} {w : ℕ} {s t : Bytes}

theorem exists_comes (receiver : Option Receiver) (w : ℕ) (s : Bytes) :
    ∃ t, Comes receiver w s t ∧ ((scan receiver w s).2 = none ∧ Whole w t ∧ Long w t ∨
      (scan receiver w s).2 = some t ∧ ¬ Whole w t) := by
  by_cases hwhole : Whole w s
  · by_cases hl : 0x1000000 ≤ announced w s
    · have hlen : w ≤ s.length := by
        have := hwhole.2
        omega
      exact ⟨s, .refl, .inl ⟨by rw [scan_long hwhole hl], hwhole, hlen, hl⟩⟩
    · obtain ⟨t, ht, hscan⟩ := exists_comes receiver w (onward receiver w s)
      rw [scan_short hwhole hl]
      exact ⟨t, .frame hwhole hl ht, hscan⟩
  · exact ⟨s, .refl, .inr ⟨by rw [scan_part hwhole], hwhole⟩⟩
termination_by s.length
decreasing_by exact onward_lt receiver hwhole

theorem Comes.final {u : Bytes} (h : Comes receiver w s t) (h' : Comes receiver w s u)
    (ht : Whole w t → Long w t) (hu : Whole w u → Long w u) : t = u := by
  induction h with
  | refl =>
    cases h' with
    | refl => rfl
    | frame hwhole hshort => exact absurd (ht hwhole).2 hshort
  | frame hwhole hshort _ ih =>
    cases h' with
    | refl => exact absurd (hu hwhole).2 hshort
    | frame _ _ h' => exact ih h' ht

/-- What a call of `dispatch_message` with the bytes `s` of a connection, the chunk at their end, has to
come to. It closes the connection exactly if it comes to the header of a frame that is too long, and then
its buffer is cleared. Otherwise no such header is kept, and less than such a frame. -/
structure Limited (receiver : Option Receiver) (s : Bytes) (d : Dispatched) : Prop where
  closed : d.closed = true ↔ ∃ t, Comes receiver 4 s t ∧ Long 4 t
  cleared : d.closed = true → d.db = .zero
  header : d.closed = false → 0 ≤ d.db.header ∧ d.db.header < 0x1000000
  size : d.closed = false → d.db.size < 4 + 0x1000000

/-- The loop does right exactly where it comes to no header of a frame that is too long unless the whole
frame is there. -/
theorem limited_iff {d : Dispatched} {l lf : List ℕ}
    (hclosed : d.closed = (scan receiver 4 s).2.isNone) (hzero : d.closed = true → d.db = .zero)
    (hpending : Pending 4 d.mp d.db l lf ((scan receiver 4 s).2.getD [])) :
    Limited receiver s d ↔ ∀ t, Comes receiver 4 s t → Long 4 t → Whole 4 t := by
  obtain ⟨u, hu, ⟨hscan, hwhole, hlong⟩ | ⟨hscan, hpart⟩⟩ := exists_comes receiver 4 s
  · rw [hscan] at hclosed
    refine ⟨fun _ t ht hl => ?_, fun _ => ⟨⟨fun _ => ⟨u, hu, hlong⟩, fun _ => hclosed⟩, hzero,
      fun h => ?_, fun h => ?_⟩⟩
    · exact ht.final hu (fun _ => hl) (fun _ => hlong) ▸ hwhole
    · rw [hclosed] at h
      cases h
    · rw [hclosed] at h
      cases h
  · rw [hscan] at hclosed
    rw [hscan, Option.getD_some] at hpending
    have hfalse : d.closed = false := hclosed
    refine ⟨fun hlim t ht hl => ?_, fun h => ?_⟩
    · have := hlim.closed.2 ⟨t, ht, hl⟩
      rw [hfalse] at this
      cases this
    have hshort : ¬ Long 4 u := fun hl => hpart (h u hu hl)
    have hsmall : 4 ≤ u.length → announced 4 u < 0x1000000 := fun hle => by
      by_contra hge
      exact hshort ⟨hle, Nat.le_of_not_lt hge⟩
    have hlen : u.length < 4 + 0x1000000 := by
      by_contra hge
      have hlt := hsmall (by omega)
      exact hpart ⟨by omega, by omega⟩
    refine ⟨⟨fun hc => ?_, fun hc => ?_⟩, hzero, fun _ => ?_, fun _ => ?_⟩
    · rw [hfalse] at hc
      cases hc
    · obtain ⟨t, ht, hl⟩ := hc
      exact absurd (ht.final hu (fun _ => hl) (fun hw => absurd hw hpart) ▸ hl) hshort
    · rcases hpending with ⟨hh, -⟩ | ⟨hle, -, hh, -⟩
      · rw [hh]
        decide
      · have hlt : announced 4 u < 0x1000000 := hsmall hle
        rw [hh, cint_of_lt (by omega)]
        omega
    · rcases hpending with ⟨-, hs⟩ | ⟨hle, -, -, hs⟩
      · rw [hs.size]
        exact_mod_cast hlen
      · rw [hs.size, List.length_drop]
        omega

/-- The gate, and of each connection the bytes from the header on that is not done with. -/
structure Watch where
  gate : State
  left : ℕ → Bytes

namespace Watch

def step (s : Watch) (l : Label) : Option Watch :=
  (Gate.step s.gate l).map fun gate => ⟨gate, match l with
    | .data fd chunk => match s.gate.conn fd with
      | some c => Function.update s.left fd
          ((scan (s.gate.receiver c) s.gate.headerSize (s.left fd ++ chunk)).2.getD [])
      | none => s.left
    | .accept fd => Function.update s.left fd []
    | _ => s.left⟩

def machine (headerSize watchdog : ℕ) : Machine Watch Label :=
  ⟨⟨Gate.init headerSize watchdog, fun _ => []⟩, step⟩

/-- An `int` counts the bytes that a connection has with the chunk. -/
def Counted (s : Watch) : Label → Prop
  | .data fd chunk => ∀ c ∈ s.gate.conn fd, (s.left fd ++ chunk).length < 2 ^ 31
  | _ => True

instance : ∀ s l, Decidable (Counted s l)
  | s, .data fd _ => inferInstanceAs (Decidable (∀ c ∈ s.gate.conn fd, _))
  | _, .accept _ | _, .close _ | _, .forward _ _ _ | _, .broker _ => .isTrue trivial

/-- The buffers of the connections hold what is left of their streams. -/
structure Inv (w : ℕ) (s : Watch) : Prop where
  size : s.gate.headerSize = w
  live : s.gate.crashed = false
  shared : ∃ own lf, Shared w s.gate.mp s.gate.conn s.left own lf

variable {s s' : Watch}

theorem Inv.init (w watchdog : ℕ) : Inv w (machine w watchdog).init :=
  ⟨rfl, rfl, (Gate.Inv.init watchdog).shared.imp fun _ h => h.imp fun _ h =>
    h.congr fun _ _ hc => by cases hc⟩

/-- A call of `dispatch_message` does not fail, and does with the bytes of the connection as it should
exactly where the frames that are too long come whole. -/
theorem Inv.dispatch (h : Inv 4 s) {fd : ℕ} {c : Connection} (hc : s.gate.conn fd = some c)
    {chunk : Bytes} (hlen : (s.left fd ++ chunk).length < 2 ^ 31) :
    ∃ d l own lf, dispatchMessage (s.gate.receiver c) fd 4 c.buffer s.gate.mp chunk = some d ∧
      Pending 4 d.mp d.db l lf ((scan (s.gate.receiver c) 4 (s.left fd ++ chunk)).2.getD []) ∧
      (Limited (s.gate.receiver c) (s.left fd ++ chunk) d ↔
        ∀ t, Comes (s.gate.receiver c) 4 (s.left fd ++ chunk) t → Long 4 t → Whole 4 t) ∧
      Shared 4 d.mp (Function.update s.gate.conn fd (some { c with buffer := d.db }))
        (Function.update s.left fd
          ((scan (s.gate.receiver c) 4 (s.left fd ++ chunk)).2.getD [])) own lf := by
  obtain ⟨own, lf, hshared⟩ := h.shared
  obtain ⟨d, l', lf', hd, hlocal, -, hclosed, hzero, hpending⟩ :=
    dispatchMessage_scan (s.gate.receiver c) fd (by decide) (by decide) (hshared.pending fd c hc) hlen
  exact ⟨d, l', _, lf', hd, hpending, limited_iff hclosed hzero hpending,
    hshared.dispatch hc hlocal hpending⟩

theorem Inv.step (h : Inv 4 s) {l : Label} (hok : Counted s l) (hst : s.step l = some s') :
    Inv 4 s' := by
  have hlive : ¬ s.gate.crashed = true := by
    rw [h.live]
    decide
  obtain ⟨own, lf, hshared⟩ := h.shared
  obtain ⟨gate, hg, rfl⟩ := Option.map_eq_some_iff.1 hst
  unfold Gate.step at hg
  rw [if_neg hlive] at hg
  cases l with
  | data fd chunk =>
    obtain rfl := Option.some.inj hg
    cases hc : s.gate.conn fd with
    | none =>
      simp only [hc]
      exact h
    | some c =>
      obtain ⟨d, l, own', lf', hd, -, -, hshared'⟩ := h.dispatch hc (hok c hc)
      have hsize := h.size
      simp only [hc, Gate.data, hsize, hd]
      exact ⟨rfl, h.live, own', lf', hshared'⟩
  | accept fd =>
    simp only [] at hg
    split_ifs at hg
    obtain rfl := Option.some.inj hg
    exact ⟨h.size, h.live, _, lf, hshared.accept fd 0 0⟩
  | close fd =>
    obtain rfl := Option.some.inj hg
    cases hc : s.gate.conn fd with
    | none => exact h
    | some c =>
      obtain ⟨mp', lf', hclear, hshared'⟩ := hshared.close hc
      simp only [hclear]
      exact ⟨h.size, h.live, _, lf', hshared'⟩
  | forward fd agent client =>
    obtain rfl := Option.some.inj hg
    cases hc : s.gate.conn fd with
    | none => exact h
    | some c => exact ⟨h.size, h.live, _, lf, hshared.forward hc agent client⟩
  | broker handle =>
    obtain rfl := Option.some.inj hg
    exact ⟨h.size, h.live, own, lf, hshared⟩

/-- In every run of a gate with headers of 4 bytes a chunk is done right by exactly if each header of a
frame that is too long, which the loop comes to with it, has its whole frame behind it already. -/
theorem limited_iff_of_reach {watchdog : ℕ} (h : (machine 4 watchdog).Reach Counted s) {fd : ℕ}
    {c : Connection} (hc : s.gate.conn fd = some c) (chunk : Bytes)
    (hlen : (s.left fd ++ chunk).length < 2 ^ 31) :
    ∃ d, dispatchMessage (s.gate.receiver c) fd 4 c.buffer s.gate.mp chunk = some d ∧
      (Limited (s.gate.receiver c) (s.left fd ++ chunk) d ↔
        ∀ t, Comes (s.gate.receiver c) 4 (s.left fd ++ chunk) t → Long 4 t → Whole 4 t) := by
  have hinv : Inv 4 s := h.invariant (Inv.init 4 watchdog) fun _ _ _ hi hok hst => hi.step hok hst
  obtain ⟨d, -, -, -, hd, -, hiff, -⟩ := hinv.dispatch hc hlen
  exact ⟨d, hd, hiff⟩

theorem exists_accepted : ∃ s, (machine 4 7).Reach Counted s ∧ s.left 1 = [] ∧
    s.gate.conn 1 = some ⟨0, 0, .zero⟩ ∧ s.gate.receiver ⟨0, 0, .zero⟩ = some (.watchdog 7) ∧
    s.gate.mp = (Gate.init 4 7).mp := by
  have hst : (machine 4 7).step (machine 4 7).init (.accept 1) = some _ := rfl
  exact ⟨_, Machine.Reach.init.step (i := .accept 1) trivial hst, rfl, rfl, rfl, rfl⟩

/-- A frame of one byte and the header of the next one. -/
theorem limited_short : ∃ s c d, (machine 4 7).Reach Counted s ∧ s.gate.conn 1 = some c ∧
    dispatchMessage (s.gate.receiver c) 1 4 c.buffer s.gate.mp [0, 0, 0, 1, 9, 0, 0, 1, 0] = some d ∧
    Limited (s.gate.receiver c) (s.left 1 ++ [0, 0, 0, 1, 9, 0, 0, 1, 0]) d := by
  obtain ⟨s, hs, hleft, hc, hr, -⟩ := exists_accepted
  obtain ⟨d, hd, hiff⟩ := limited_iff_of_reach hs hc [0, 0, 0, 1, 9, 0, 0, 1, 0]
    (by rw [hleft]; decide)
  refine ⟨s, _, d, hs, hc, hd, hiff.2 fun t ht hl => ?_⟩
  rw [hr, hleft, List.nil_append] at ht
  cases ht with
  | refl => exact absurd hl.2 (by decide)
  | frame _ _ ht =>
    change Comes (some (.watchdog 7)) 4 [0, 0, 1, 0] t at ht
    cases ht with
    | refl => exact absurd hl.2 (by decide)
    | frame hw => exact absurd hw (by decide)

/-- The header of a frame of 16 MB, and one that is too much for an `int`: the connection stays open,
and what comes next is buffered. -/
theorem not_limited_header : ∃ s c, (machine 4 7).Reach Counted s ∧ s.left 1 = [] ∧
    s.gate.conn 1 = some c ∧
    (∃ d, dispatchMessage (s.gate.receiver c) 1 4 c.buffer s.gate.mp [1, 0, 0, 0] = some d ∧
      (d.closed, d.db.header) = (false, 0x1000000) ∧
      ¬ Limited (s.gate.receiver c) [1, 0, 0, 0] d) ∧
    ∃ d, dispatchMessage (s.gate.receiver c) 1 4 c.buffer s.gate.mp [128, 0, 0, 0, 5] = some d ∧
      (d.closed, d.db.header) = (false, -2 ^ 31) ∧
      ¬ Limited (s.gate.receiver c) [128, 0, 0, 0, 5] d := by
  obtain ⟨s, hs, hleft, hc, hr, hmp⟩ := exists_accepted
  have hrun (b : Bytes) (n : ℤ) (hl : Long 4 b)
      (h : (dispatchMessage (some (.watchdog 7)) 1 4 .zero (Gate.init 4 7).mp b).map
        (fun d => (d.closed, d.db.header)) = some (false, n)) :
      ∃ d, dispatchMessage (s.gate.receiver ⟨0, 0, .zero⟩) 1 4 .zero s.gate.mp b = some d ∧
        (d.closed, d.db.header) = (false, n) ∧ ¬ Limited (s.gate.receiver ⟨0, 0, .zero⟩) b d := by
    rw [hr, hmp]
    obtain ⟨d, hd, he⟩ := Option.map_eq_some_iff.1 h
    refine ⟨d, hd, he, fun hlim => ?_⟩
    have hclosed := hlim.closed.2 ⟨b, .refl, hl⟩
    rw [(Prod.mk.inj he).1] at hclosed
    cases hclosed
  exact ⟨s, _, hs, hleft, hc, hrun _ _ (by decide) (by decide),
    hrun _ _ (by decide) (by decide)⟩

end Watch

end Gate

end SkynetGame
