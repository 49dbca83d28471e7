import SkynetGame.RwLock
import SkynetGame.Lib.Tally

/-!
# Sections under the lock do not overlap

`write` is set while one thread has set it, and `read` counts those between the addition and the
subtraction, whether they are inside or not. A reader that is inside has read `write` after it was
counted, and a writer has read `read` after it set `write`, so one of them has seen the other.
-/

namespace SkynetGame

open Option

namespace RwLock

variable {σ : Type} {data last : σ} {s s' : State σ} {i j : ℕ} {p q : Pc σ}

/-- The threads that `read` counts. -/
def Pc.counted : Pc σ → ℕ
  | .rtest | .rback | .reading _ => 1
  | _ => 0

/-- The threads that have set `write`. -/
def Pc.owns : Pc σ → ℕ
  | .wspin | .writing _ => 1
  | _ => 0

/-- Whether a thread is in a section. -/
def Pc.inside : Pc σ → Prop
  | .reading _ | .writing _ => True
  | _ => False

theorem serial_concat {a : Section σ} : ∀ {d : σ} {as : List (Section σ)}, Serial d as last →
    a.start = last → (a.writes = false → a.stop = last) → Serial d (as.concat a) a.stop
  | _, [], h, hstart, hstop => by
    obtain rfl : _ = last := h
    exact ⟨hstart, hstop, rfl⟩
  | _, _ :: _, ⟨h₁, h₂, h₃⟩, hstart, hstop => ⟨h₁, h₂, serial_concat h₃ hstart hstop⟩

/-- What those who are in a section found, with `last` left by the last section that has ended. -/
structure Held (last : σ) (s : State σ) : Prop where
  writing : ∀ i b, s.At i (.writing b) → b = last ∧ ∀ j c, ¬ s.At j (.reading c)
  reading : ∀ i b, s.At i (.reading b) → b = last
  stable : (∀ i b, ¬ s.At i (.writing b)) → s.data = last

structure Inv (data : σ) (s : State σ) : Prop where
  few : s.pc.length < 2 ^ 32
  write : tally Pc.owns s.pc = s.write
  one : s.write ≤ 1
  read : s.read = BitVec.ofNat 32 (tally Pc.counted s.pc)
  held : ∃ last, Serial data s.history last ∧ Held last s

theorem at_set (hi : s.At i p) (hpc : s'.pc = s.pc.set i q) (r : Pc σ) :
    s'.At j r ↔ if i = j then q = r else s.At j r := by
  have hlt : i < s.pc.length := (List.getElem?_eq_some_iff.1 hi).1
  rw [State.At, hpc, List.getElem?_set]
  split_ifs with h <;> simp [State.At]

theorem sub_one_add (x : BitVec 32) : x - 1 + BitVec.ofNat 32 1 = x + BitVec.ofNat 32 0 := by
  bv_omega

namespace Inv

/-- A step of one thread, which takes part in the fields with what it is itself. -/
theorem moved (h : Inv data s) (hi : s.At i p) (hpc : s'.pc = s.pc.set i q)
    (hwrite : s'.write + p.owns = s.write + q.owns) (hone : s'.write ≤ 1)
    (hread : s'.read + BitVec.ofNat 32 p.counted = s.read + BitVec.ofNat 32 q.counted)
    (hheld : ∃ last, Serial data s'.history last ∧ Held last s') : Inv data s' := by
  refine ⟨?_, ?_, hone, ?_, hheld⟩
  · rw [hpc, List.length_set]
    exact h.few
  · have := tally_set Pc.owns hi q
    have := h.write
    rw [hpc]
    omega
  · rw [h.read, ← BitVec.ofNat_add, ← tally_set Pc.counted hi q, BitVec.ofNat_add, ← hpc] at hread
    exact (BitVec.add_left_inj _).1 hread

theorem outside (h : Inv data s) (hi : s.At i p) (hpc : s'.pc = s.pc.set i q) (hp : ¬ p.inside)
    (hq : ¬ q.inside) (hdata : s'.data = s.data) (hhist : s'.history = s.history) :
    ∃ last, Serial data s'.history last ∧ Held last s' := by
  obtain ⟨last, hserial, hh⟩ := h.held
  have hat : ∀ j r, r.inside → (s'.At j r ↔ s.At j r) := by
    intro j r hr
    rw [at_set hi hpc]
    split_ifs with hij
    · subst hij
      refine iff_of_false (fun he => hq (he ▸ hr)) fun hj => hp ?_
      rwa [some.inj (hi.symm.trans hj)]
    · rfl
  refine ⟨last, hhist ▸ hserial, fun j b hj => ?_, fun j b hj => ?_, fun hno => ?_⟩
  · obtain ⟨hb, hnone⟩ := hh.writing j b ((hat j (.writing b) trivial).1 hj)
    exact ⟨hb, fun k c hk => hnone k c ((hat k (.reading c) trivial).1 hk)⟩
  · exact hh.reading j b ((hat j (.reading b) trivial).1 hj)
  · rw [hdata]
    exact hh.stable fun j b hj => hno j b ((hat j (.writing b) trivial).2 hj)

theorem not_writing (h : Inv data s) (hwrite : s.write = 0) (j : ℕ) (b : σ) :
    ¬ s.At j (.writing b) := by
  intro hj
  have : 1 ≤ tally Pc.owns s.pc := le_tally Pc.owns hj
  have := h.write
  omega

/-- Two threads have not both set `write`. -/
theorem owner (h : Inv data s) (hi : s.At i p) (hp : p.owns = 1) (hj : s.At j q) (hq : q.owns = 1) :
    i = j := by
  by_contra hne
  have := add_le_tally Pc.owns hne hi hj
  have := h.write
  have := h.one
  omega

/-- Where `read` is zero it counts nobody. -/
theorem not_counted (h : Inv data s) (hread : s.read = 0) (hj : s.At j q) : q.counted = 0 := by
  have hle : tally Pc.counted s.pc ≤ s.pc.length := by
    have := tally_le_tally (f := Pc.counted) (g := fun _ => 1) (by rintro ⟨⟩ <;> simp [Pc.counted]) s.pc
    simpa [tally] using this
  have hzero : tally Pc.counted s.pc % 2 ^ 32 = 0 := by
    have := congrArg BitVec.toNat (h.read.symm.trans hread)
    simpa using this
  have := h.few
  have := le_tally Pc.counted hj
  rw [Nat.mod_eq_of_lt (by omega)] at hzero
  omega

theorem enterRead (h : Inv data s) (hi : s.At i .rtest) (hwrite : s.write = 0) :
    Inv data (s.goto i (.reading s.data)) := by
  obtain ⟨last, hserial, hh⟩ := h.held
  have hnone := h.not_writing hwrite
  refine h.moved hi rfl rfl h.one rfl ⟨last, hserial, fun j b hj => ?_, fun j b hj => ?_, fun _ =>
    hh.stable hnone⟩
  · rw [at_set hi rfl] at hj
    split_ifs at hj
    exact absurd hj (hnone j b)
  · rw [at_set hi rfl] at hj
    split_ifs at hj
    · cases hj
      exact hh.stable hnone
    · exact hh.reading j b hj

theorem enterWrite (h : Inv data s) (hi : s.At i .wspin) (hread : s.read = 0) :
    Inv data (s.goto i (.writing s.data)) := by
  obtain ⟨last, hserial, hh⟩ := h.held
  have hdata : s.data = last := hh.stable fun j b hj => by
    obtain rfl := h.owner hi rfl hj rfl
    exact nomatch hi.symm.trans hj
  have hnone : ∀ j c, ¬ s.At j (.reading c) := fun j c hj => nomatch h.not_counted hread hj
  refine h.moved hi rfl rfl h.one rfl ⟨last, hserial, fun j b hj => ⟨?_, fun k c hk => ?_⟩,
    fun j b hj => ?_, fun _ => hdata⟩
  · rw [at_set hi rfl] at hj
    split_ifs at hj with hij
    · cases hj
      exact hdata
    · exact absurd (h.owner hi rfl hj rfl) hij
  · rw [at_set hi rfl] at hk
    split_ifs at hk
    exact hnone k c hk
  · rw [at_set hi rfl] at hj
    split_ifs at hj
    exact absurd hj (hnone j b)

theorem leaveRead {b : σ} (h : Inv data s) (hi : s.At i (.reading b)) :
    Inv data ({ s with read := s.read - 1 }.leave i false b) := by
  obtain ⟨last, hserial, hh⟩ := h.held
  have hnone : ∀ j c, ¬ s.At j (.writing c) := fun j c hj => (hh.writing j c hj).2 i b hi
  have hdata := hh.stable hnone
  refine h.moved hi rfl rfl h.one (sub_one_add s.read) ⟨s.data, serial_concat hserial
    (hh.reading i b hi) fun _ => hdata, fun j c hj => ?_, fun j c hj => ?_, fun _ => rfl⟩
  · rw [at_set hi rfl] at hj
    split_ifs at hj
    exact absurd hj (hnone j c)
  · rw [at_set hi rfl] at hj
    split_ifs at hj
    exact (hh.reading j c hj).trans hdata.symm

theorem leaveWrite {b : σ} (h : Inv data s) (hi : s.At i (.writing b)) :
    Inv data ({ s with write := 0 }.leave i true b) := by
  obtain ⟨last, hserial, hh⟩ := h.held
  obtain ⟨hb, hnone⟩ := hh.writing i b hi
  have hone : s.write = 1 := by
    have : 1 ≤ tally Pc.owns s.pc := le_tally Pc.owns hi
    have := h.write
    have := h.one
    omega
  refine h.moved hi rfl hone.symm (Nat.zero_le 1) rfl ⟨s.data, serial_concat hserial hb nofun,
    fun j c hj => ?_, fun j c hj => ?_, fun _ => rfl⟩
  · rw [at_set hi rfl] at hj
    split_ifs at hj with hij
    exact absurd (h.owner hi rfl hj rfl) hij
  · rw [at_set hi rfl] at hj
    split_ifs at hj
    exact absurd hj (hnone j c)

/-- What a writer stores is seen by nobody who is in a section. -/
theorem store {b d : σ} (h : Inv data s) (hi : s.At i (.writing b)) : Inv data { s with data := d } := by
  obtain ⟨last, hserial, hh⟩ := h.held
  exact ⟨h.few, h.write, h.one, h.read, last, hserial, hh.writing, hh.reading,
    fun hno => absurd hi (hno i b)⟩

theorem next (h : Inv data s) (hi : s.At i p) (hst : s.next i p = some s') : Inv data s' := by
  cases p with
  | rspin =>
    obtain rfl := some.inj hst
    split_ifs
    · exact h
    · exact h.moved hi rfl rfl h.one rfl (h.outside hi rfl id id rfl rfl)
  | radd =>
    obtain rfl := some.inj hst
    exact h.moved hi rfl rfl h.one (BitVec.add_zero _) (h.outside hi rfl id id rfl rfl)
  | rtest =>
    obtain rfl := some.inj hst
    split_ifs with hw
    · exact h.moved hi rfl rfl h.one rfl (h.outside hi rfl id id rfl rfl)
    · exact h.enterRead hi (not_not.1 hw)
  | rback =>
    obtain rfl := some.inj hst
    exact h.moved hi rfl rfl h.one (sub_one_add s.read) (h.outside hi rfl id id rfl rfl)
  | wset =>
    obtain rfl := some.inj hst
    have hone := h.one
    split_ifs with hw
    · obtain hw : s.write = 1 := by omega
      exact h.moved hi rfl (by simp [Pc.owns, State.goto, hw]) (Nat.le_refl 1) rfl
        (h.outside hi rfl id id rfl rfl)
    · exact h.moved hi rfl (by simp [Pc.owns, State.goto, not_not.1 hw]) (Nat.le_refl 1) rfl
        (h.outside hi rfl id id rfl rfl)
  | wspin =>
    obtain rfl := some.inj hst
    split_ifs with hr
    · exact h
    · exact h.enterWrite hi (not_not.1 hr)
  | out | reading | writing => exact nomatch hst

theorem act {a : Act σ} (h : Inv data s) (hi : s.At i p) (hst : act s i a p = some s') :
    Inv data s' := by
  cases a with
  | next => exact h.next hi hst
  | rlock | wlock =>
    cases p <;> cases hst
    exact h.moved hi rfl rfl h.one rfl (h.outside hi rfl id id rfl rfl)
  | store d =>
    cases p <;> cases hst
    exact h.store hi
  | runlock =>
    cases p <;> cases hst
    exact h.leaveRead hi
  | wunlock =>
    cases p <;> cases hst
    exact h.leaveWrite hi

end Inv

theorem inv_reach {threads : ℕ} (hfew : threads < 2 ^ 32) (h : (machine threads data).Reachable s) :
    Inv data s := by
  refine h.invariant ⟨?_, ?_, Nat.zero_le 1, ?_, data, rfl, fun i b hi => ?_, fun i b hi => ?_,
    fun _ => rfl⟩ fun s l s' hs _ hst => ?_
  · simpa [machine, State.init] using hfew
  · simp [machine, State.init, tally, Pc.owns]
  · simp [machine, State.init, tally, Pc.counted]
  · simp [machine, State.init, State.At, List.getElem?_replicate] at hi
  · simp [machine, State.init, State.At, List.getElem?_replicate] at hi
  · obtain ⟨p, hp, hst⟩ := bind_eq_some_iff.1 hst
    exact hs.act hp hst

/-- A thread that goes on is somewhere else. -/
theorem moves {a : Act σ} (hi : s.At i p) (hp : p ≠ .out) (hst : act s i a p = some s')
    (hpc : s'.pc = s.pc.set i q) (hne : q ≠ p) :
    ∃ l s', ¬ s.At l.1 .out ∧ step s l = some s' ∧ s'.pc ≠ s.pc := by
  refine ⟨(i, a), s', fun hout => hp (some.inj (hi.symm.trans hout)), ?_, fun he => hne ?_⟩
  · rw [step, show s.pc[i]? = some p from hi, bind_some, hst]
  · have := (at_set hi hpc p).1 (by rwa [State.At, he])
    rwa [if_pos rfl] at this

theorem moves_of_counted (hi : s.At i p) (hp : 0 < p.counted) :
    ∃ l s', ¬ s.At l.1 .out ∧ step s l = some s' ∧ s'.pc ≠ s.pc := by
  cases p with
  | rtest =>
    refine moves (a := .next) hi nofun rfl rfl ?_
    split_ifs <;> exact nofun
  | rback => exact moves (a := .next) hi nofun rfl rfl nofun
  | reading b => exact moves (a := .runlock) hi nofun rfl rfl nofun
  | out | rspin | radd | wset | wspin | writing => exact absurd hp (Nat.lt_irrefl 0)

/-- Unless all are out of the lock, somebody in it can do more than wait. -/
theorem Inv.live (h : Inv data s) (hout : ∃ p ∈ s.pc, p ≠ .out) :
    ∃ l s', ¬ s.At l.1 .out ∧ step s l = some s' ∧ s'.pc ≠ s.pc := by
  by_cases hw : s.write = 0
  · obtain ⟨p, hp, hne⟩ := hout
    obtain ⟨i, hi⟩ := List.mem_iff_getElem?.1 hp
    cases p with
    | out => exact absurd rfl hne
    | rspin => exact moves (a := .next) hi nofun (congrArg some (if_neg (not_not.2 hw))) rfl nofun
    | radd => exact moves (a := .next) hi nofun rfl rfl nofun
    | rtest | rback | reading => exact moves_of_counted hi Nat.one_pos
    | wset =>
      refine moves (a := .next) hi nofun rfl rfl ?_
      rw [if_neg (not_not.2 hw)]
      exact nofun
    | wspin | writing =>
      have : 1 ≤ tally Pc.owns s.pc := le_tally_of_mem Pc.owns hp
      have := h.write
      omega
  · obtain ⟨p, hp, hpos⟩ := tally_pos (f := Pc.owns) (l := s.pc) (by have := h.write; omega)
    obtain ⟨i, hi⟩ := List.mem_iff_getElem?.1 hp
    cases p with
    | wspin =>
      by_cases hr : s.read = 0
      · exact moves (a := .next) hi nofun (congrArg some (if_neg (not_not.2 hr))) rfl nofun
      · obtain ⟨q, hq, hpos⟩ := tally_pos (f := Pc.counted) (l := s.pc)
          (Nat.pos_of_ne_zero fun hz => hr (by rw [h.read, hz]; rfl))
        obtain ⟨j, hj⟩ := List.mem_iff_getElem?.1 hq
        exact moves_of_counted hj hpos
    | writing b => exact moves (a := .wunlock) hi nofun rfl rfl nofun
    | out | rspin | radd | rtest | rback | reading | wset => exact absurd hpos (Nat.lt_irrefl 0)

/-- Under the lock the sections of any number of threads that an `int` counts are as if each had run
alone, in the order of their ends, and no order of accesses leaves all threads waiting. -/
theorem sections_of_reachable {threads : ℕ} (hfew : threads < 2 ^ 32)
    (h : (machine threads data).Reachable s) : Sound data s := by
  have hinv := inv_reach hfew h
  obtain ⟨last, hserial, hh⟩ := hinv.held
  refine ⟨fun i j b c hi hne => ⟨fun hj => hne (hinv.owner hi rfl hj rfl), (hh.writing i b hi).2 j c⟩,
    ⟨last, hserial, fun i b hi => (hh.writing i b hi).1, fun i b hi => ⟨hh.reading i b hi,
    hh.stable fun j c hj => (hh.writing j c hj).2 i b hi⟩⟩, hinv.live⟩

/-- The second reader is counted after the writer has set `write`: it goes back, and reads what the
writer leaves. -/
theorem sound_of_late_reader : ∃ s, Sound 7 s ∧ s.pc.length = 3
    ∧ s.history = [⟨false, 7, 7⟩, ⟨true, 7, 8⟩, ⟨false, 8, 8⟩] := by
  have hl : ((machine 3 7).run (fun _ _ => True) (machine 3 7).init
      [(0, .rlock), (0, .next), (0, .next), (0, .next), (2, .rlock), (2, .next), (1, .wlock),
        (1, .next), (2, .next), (2, .next), (0, .runlock), (1, .next), (2, .next), (1, .next),
        (1, .store 8), (2, .next), (1, .wunlock), (2, .next), (2, .next), (2, .next),
        (2, .runlock)]).map (fun s => (s.pc.length, s.history)) =
      some (3, [⟨false, 7, 7⟩, ⟨true, 7, 8⟩, ⟨false, 8, 8⟩]) := by
    rfl
  obtain ⟨s, hr, he⟩ := Machine.exists_reach hl
  obtain ⟨hlen, hhist⟩ := Prod.mk.inj he
  exact ⟨s, sections_of_reachable (by decide) hr, hlen, hhist⟩

end RwLock

end SkynetGame
