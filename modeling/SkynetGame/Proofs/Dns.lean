import SkynetGame.Dns
import SkynetGame.Lib.Orbit

/-!
# Which packets are read to an end

Nothing keeps a pointer from leading back to where the loop has been. The loop ends just where the
places it goes through do not go round; there are no more of them than bytes. So a packet is read to
an end unless a name that it comes to goes round.
-/

namespace SkynetGame

namespace Dns

open Orbit

section Way

variable (chunk : Bytes)

/-- Where the loop of `unpack_name` goes from a place, if it goes on. -/
def next (left : ℕ) : Option ℕ :=
  match nameRound chunk left with
  | .ok (.jump _ target) => some target
  | .ok (.label _ left) => some left
  | .ok (.done _) | .error () => none

def GoesRound (left : ℕ) : Prop := Circular (next chunk) left

/-- The name at a place comes to its end, a zero. -/
def ComesToEnd (left : ℕ) : Prop :=
  ∃ p q, EndsAt (next chunk) left p ∧ nameRound chunk p = .ok (.done q)

/-- Where the name at a place ends as it stands there: behind a zero or a pointer. -/
inductive StandsTo : ℕ → ℕ → Prop
  | zero {left : ℕ} : unpackUint 1 chunk left = .ok (0, left + 1) → StandsTo left (left + 1)
  | pointer {left tag : ℕ} : unpackUint 1 chunk left = .ok (tag, left + 1) → tag &&& 0xc0 = 0xc0 →
      StandsTo left (left + 2)
  | label {left tag stop : ℕ} : unpackUint 1 chunk left = .ok (tag, left + 1) →
      tag &&& 0xc0 ≠ 0xc0 → tag ≠ 0 → StandsTo (left + 1 + tag) stop → StandsTo left stop

end Way

section Condition

variable (chunk : Bytes)

/-- The record at a place is well formed, and ends in front of another place. -/
def RecordTo (left left' : ℕ) : Prop :=
  ∃ stop atype class' ttl rdata, ComesToEnd chunk left ∧ StandsTo chunk left stop ∧
    answerTail chunk stop = .ok (atype, class', ttl, rdata, left') ∧
    ∀ qtype ∈ QType.ofAtype atype, (unpack_rdata qtype rdata).toBool

/-- One of so many records goes round, and those in front of it are well formed. -/
def RecordsGoRound : ℕ → ℕ → Prop
  | 0, _ => False
  | n + 1, left => GoesRound chunk left ∨ ∃ left', RecordTo chunk left left' ∧ RecordsGoRound n left'

/-- The packet comes to a name that goes round. -/
def PacketGoesRound (content : Bytes) : Prop :=
  DNS_HEADER_LEN ≤ content.length ∧ headerField content 2 = 1 ∧
    (GoesRound content 13 ∨ ∃ stop atype class' left, ComesToEnd content 13 ∧
      StandsTo content 13 stop ∧ questionTail content stop = .ok (atype, class', left) ∧
      RecordsGoRound content (headerField content 3) left)

/-- `resolve` reads the packet to an end, with no more rounds for a name than there are bytes, and two
more; and behind a name that has been read it goes on right behind where the name stands. -/
def Finishes (content : Bytes) : Prop :=
  readPacket (content.length + 2) content ≠ none ∧
    ∀ rounds left name left', unpack_name content rounds left = some (.ok (name, left')) →
      StandsTo content left left'

end Condition

section Rounds

variable {chunk : Bytes} {left left' stop : ℕ}

theorem unpackUint_eq_ok {size n : ℕ} (h : unpackUint size chunk left = .ok (n, left')) :
    left - 1 + size ≤ chunk.length ∧ left' = left + size := by
  unfold unpackUint at h
  split_ifs at h with hle
  cases h
  exact ⟨hle, rfl⟩

theorem unpackString_eq_ok {size : ℕ} {b : Bytes} (h : unpackString size chunk left = .ok (b, left')) :
    ∃ len, unpackUint size chunk left = .ok (len, left + size) ∧ left' = left + size + len := by
  unfold unpackString at h
  rcases hlen : unpackUint size chunk left with _ | ⟨len, l⟩
  · rw [hlen] at h
    cases h
  · obtain rfl := (unpackUint_eq_ok hlen).2
    rw [hlen] at h
    simp only [bind, Except.bind] at h
    split_ifs at h
    cases h
    exact ⟨len, rfl, rfl⟩

theorem nameRound_eq_ok {r : Round} (h : nameRound chunk left = .ok r) : ∃ tag,
    unpackUint 1 chunk left = .ok (tag, left + 1) ∧
      ((tag &&& 0xc0 = 0xc0 ∧ ∃ target, r = .jump (left + 2) target) ∨
        (tag = 0 ∧ r = .done (left + 1)) ∨
        (tag &&& 0xc0 ≠ 0xc0 ∧ tag ≠ 0 ∧ ∃ text, r = .label text (left + 1 + tag))) := by
  unfold nameRound at h
  rcases htag : unpackUint 1 chunk left with _ | ⟨tag, l⟩
  · rw [htag] at h
    cases h
  obtain rfl := (unpackUint_eq_ok htag).2
  refine ⟨tag, rfl, ?_⟩
  rw [htag] at h
  simp only [bind, Except.bind, Nat.add_sub_cancel] at h
  by_cases hpointer : tag &&& 0xc0 = 0xc0
  · rw [if_pos hpointer] at h
    rcases hoffset : unpackUint 2 chunk left with _ | ⟨offset, l⟩
    · rw [hoffset] at h
      cases h
    · obtain rfl := (unpackUint_eq_ok hoffset).2
      rw [hoffset] at h
      cases h
      exact .inl ⟨hpointer, _, rfl⟩
  rw [if_neg hpointer] at h
  by_cases hzero : tag = 0
  · rw [if_pos hzero] at h
    cases h
    exact .inr (.inl ⟨hzero, rfl⟩)
  rw [if_neg hzero] at h
  rcases hlabel : unpackString 1 chunk left with _ | ⟨text, l⟩
  · rw [hlabel] at h
    cases h
  · obtain ⟨len, hlen, rfl⟩ := unpackString_eq_ok hlabel
    rw [htag] at hlen
    cases hlen
    rw [hlabel] at h
    cases h
    exact .inr (.inr ⟨hpointer, hzero, text, rfl⟩)

theorem mem_range_of_next (h : (next chunk left).isSome) :
    left ∈ Finset.range (chunk.length + 1) := by
  rcases hr : nameRound chunk left with _ | r
  · simp [next, hr] at h
  · obtain ⟨tag, htag, -⟩ := nameRound_eq_ok hr
    have := (unpackUint_eq_ok htag).1
    rw [Finset.mem_range]
    omega

theorem nameLoop_next (h : next chunk left = some left') (jump_pointer : Option ℕ)
    (t : List Bytes) : ∃ jump_pointer' t', ∀ n,
      nameLoop chunk jump_pointer t (n + 1) left = nameLoop chunk jump_pointer' t' n left' := by
  rcases hr : nameRound chunk left with _ | r
  · simp [next, hr] at h
  · cases r with
    | jump behind target =>
      simp only [next, hr, Option.some.injEq] at h
      subst h
      exact ⟨_, _, fun n => by simp only [nameLoop, hr]; rfl⟩
    | label text l =>
      simp only [next, hr, Option.some.injEq] at h
      subst h
      exact ⟨_, _, fun n => by simp only [nameLoop, hr]; rfl⟩
    | done l => simp [next, hr] at h

theorem nameLoop_of_goesRound (h : GoesRound chunk left) (n : ℕ) (jump_pointer : Option ℕ)
    (t : List Bytes) : nameLoop chunk jump_pointer t n left = none := by
  induction n generalizing left jump_pointer t with
  | zero => rfl
  | succ n ih =>
    obtain ⟨left', hnext, hcirc⟩ := h.step
    obtain ⟨j, t', hloop⟩ := nameLoop_next hnext jump_pointer t
    rw [hloop]
    exact ih hcirc j t'

theorem nameLoop_steps {k : ℕ} (h : steps (next chunk) k left = some left')
    (jump_pointer : Option ℕ) (t : List Bytes) : ∃ jump_pointer' t', ∀ n,
      nameLoop chunk jump_pointer t (k + n) left = nameLoop chunk jump_pointer' t' n left' := by
  induction k generalizing left jump_pointer t with
  | zero =>
    cases h
    exact ⟨jump_pointer, t, fun n => by rw [Nat.zero_add]⟩
  | succ k ih =>
    rw [steps, Option.bind_eq_some_iff] at h
    obtain ⟨l, hnext, hsteps⟩ := h
    obtain ⟨j, t₁, hloop⟩ := nameLoop_next hnext jump_pointer t
    obtain ⟨j', t', hrest⟩ := ih hsteps j t₁
    refine ⟨j', t', fun n => ?_⟩
    rw [Nat.add_right_comm, hloop, hrest]

theorem unpack_name_ne_none (h : ¬ GoesRound chunk left) :
    unpack_name chunk (chunk.length + 2) left ≠ none := by
  obtain ⟨k, hk, p, hsteps, hend⟩ := exists_endsAt (fun _ => mem_range_of_next) h
  rw [Finset.card_range] at hk
  obtain ⟨j, t, hloop⟩ := nameLoop_steps hsteps none []
  obtain ⟨m, hm⟩ : ∃ m, chunk.length + 2 = k + (m + 1) := ⟨chunk.length + 1 - k, by omega⟩
  rw [unpack_name, hm, hloop, nameLoop]
  unfold next at hend
  split at hend <;> simp_all

theorem comesToEnd_of_next (h : next chunk left = some left') (hend : ComesToEnd chunk left') :
    ComesToEnd chunk left := by
  obtain ⟨p, q, ⟨hway, hp⟩, hq⟩ := hend
  exact ⟨p, q, ⟨.head h hway, hp⟩, hq⟩

theorem nameLoop_eq_ok {name : Bytes} : ∀ (n left : ℕ) (jump_pointer : Option ℕ) (t : List Bytes),
    nameLoop chunk jump_pointer t n left = some (.ok (name, stop)) →
    ComesToEnd chunk left ∧ (∀ j ∈ jump_pointer, stop = j) ∧
      (jump_pointer = none → StandsTo chunk left stop) := by
  intro n
  induction n with
  | zero =>
    intro left jump_pointer t h
    cases h
  | succ n ih =>
    intro left jump_pointer t h
    rcases hr : nameRound chunk left with _ | r
    · simp [nameLoop, hr] at h
    obtain ⟨tag, htag, ⟨hpointer, target, rfl⟩ | ⟨rfl, rfl⟩ | ⟨hnot, hne, text, rfl⟩⟩ :=
      nameRound_eq_ok hr
    · simp only [nameLoop, hr] at h
      obtain ⟨hend, hjump, -⟩ := ih target _ t h
      refine ⟨comesToEnd_of_next (by simp [next, hr]) hend, ?_, ?_⟩
      · rintro j hj
        rw [Option.mem_def.1 hj] at hjump
        exact hjump j rfl
      · rintro rfl
        rw [hjump (left + 2) rfl]
        exact .pointer htag hpointer
    · simp only [nameLoop, hr] at h
      cases h
      refine ⟨⟨left, _, ⟨.refl, by simp [next, hr]⟩, hr⟩, ?_, ?_⟩
      · rintro j hj
        rw [Option.mem_def.1 hj, Option.getD_some]
      · rintro rfl
        exact .zero htag
    · simp only [nameLoop, hr] at h
      obtain ⟨hend, hjump, hstands⟩ := ih _ jump_pointer _ h
      exact ⟨comesToEnd_of_next (by simp [next, hr]) hend, hjump,
        fun hnone => .label htag hnot hne (hstands hnone)⟩

theorem nameLoop_eq_error : ∀ (n left : ℕ) (jump_pointer : Option ℕ) (t : List Bytes),
    nameLoop chunk jump_pointer t n left = some (.error ()) → ¬ ComesToEnd chunk left := by
  intro n
  induction n with
  | zero =>
    intro left jump_pointer t h
    cases h
  | succ n ih =>
    rintro left jump_pointer t h ⟨p, q, ⟨hway, hp⟩, hq⟩
    rcases Relation.ReflTransGen.cases_head hway with rfl | ⟨l, hnext, hrest⟩
    · simp [nameLoop, hq] at h
    · obtain ⟨j, t', hloop⟩ := nameLoop_next hnext jump_pointer t
      rw [hloop] at h
      exact ih l j t' h ⟨p, q, ⟨hrest, hp⟩, hq⟩

theorem StandsTo.unique (h : StandsTo chunk left stop) (h' : StandsTo chunk left left') :
    stop = left' := by
  induction h with
  | zero htag =>
    cases h' with
    | zero => rfl
    | pointer htag' hpointer =>
      rw [htag] at htag'
      cases htag'
      cases hpointer
    | label htag' _ hne =>
      rw [htag] at htag'
      cases htag'
      exact absurd rfl hne
  | pointer htag hpointer =>
    cases h' with
    | zero htag' =>
      rw [htag] at htag'
      cases htag'
      cases hpointer
    | pointer => rfl
    | label htag' hnot =>
      rw [htag] at htag'
      cases htag'
      exact absurd hpointer hnot
  | label htag hnot hne _ ih =>
    cases h' with
    | zero htag' =>
      rw [htag] at htag'
      cases htag'
      exact absurd rfl hne
    | pointer htag' hpointer =>
      rw [htag] at htag'
      cases htag'
      exact absurd hpointer hnot
    | label htag' _ _ hrest =>
      rw [htag] at htag'
      cases htag'
      exact ih hrest

theorem unpack_name_cases (rounds : ℕ) (h : ComesToEnd chunk left) (hstop : StandsTo chunk left stop) :
    unpack_name chunk rounds left = none ∨
      ∃ name, unpack_name chunk rounds left = some (.ok (name, stop)) := by
  rcases hloop : unpack_name chunk rounds left with _ | _ | ⟨name, l⟩
  · exact .inl rfl
  · exact absurd h (nameLoop_eq_error _ _ _ _ hloop)
  · obtain ⟨-, -, hstands⟩ := nameLoop_eq_ok _ _ _ _ hloop
    rw [hstop.unique (hstands rfl)]
    exact .inr ⟨name, rfl⟩

end Rounds

section Packets

variable {content : Bytes} {left : ℕ}

theorem unpack_name_of_goesRound (h : GoesRound content left) (rounds : ℕ) :
    unpack_name content rounds left = none :=
  nameLoop_of_goesRound h rounds none []

theorem exists_addAnswer_iff (a : Addresses) (answer : Answer) :
    (∃ a', addAnswer a answer = .ok a') ↔
      ∀ qtype ∈ QType.ofAtype answer.atype, (unpack_rdata qtype answer.rdata).toBool := by
  unfold addAnswer
  rcases QType.ofAtype answer.atype with _ | qtype
  · simp
  · rcases hip : unpack_rdata qtype answer.rdata with _ | ip
    · simp [hip, bind, Except.bind, Except.toBool]
    · cases qtype <;> simp [hip, bind, Except.bind, Except.toBool]

theorem readAnswers_of_goesRound (rounds : ℕ) : ∀ (n : ℕ) (a : Addresses) (left : ℕ),
    RecordsGoRound content n left → readAnswers rounds content a n left = none
  | n + 1, a, left, h => by
    rcases h with h | ⟨left', ⟨stop, atype, class', ttl, rdata, hend, hstop, htail, hdata⟩, hrest⟩
    · simp [readAnswers, unpack_answer, unpack_name_of_goesRound h]
    · rcases unpack_name_cases rounds hend hstop with hnone | ⟨name, hname⟩
      · simp [readAnswers, unpack_answer, hnone]
      · obtain ⟨a', ha'⟩ := (exists_addAnswer_iff a ⟨name, atype, class', ttl, rdata⟩).2 hdata
        have hread := readAnswers_of_goesRound rounds n a' left' hrest
        simp [readAnswers, unpack_answer, hname, htail, ha', hread, bind, Except.bind]

theorem readAnswers_ne_none : ∀ (n : ℕ) (a : Addresses) (left : ℕ),
    ¬ RecordsGoRound content n left →
    readAnswers (content.length + 2) content a n left ≠ none
  | 0, a, left, _ => by simp [readAnswers]
  | n + 1, a, left, h => by
    rw [RecordsGoRound, not_or] at h
    obtain ⟨r, hr⟩ := Option.ne_none_iff_exists'.1 (unpack_name_ne_none h.1)
    rcases r with _ | ⟨name, stop⟩
    · simp [readAnswers, unpack_answer, hr, bind, Except.bind]
    · obtain ⟨hend, -, hstop⟩ := nameLoop_eq_ok _ _ _ _ hr
      rcases htail : answerTail content stop with _ | ⟨atype, class', ttl, rdata, left'⟩
      · simp [readAnswers, unpack_answer, hr, htail, bind, Except.bind]
      · rcases ha : addAnswer a ⟨name, atype, class', ttl, rdata⟩ with _ | a'
        · simp [readAnswers, unpack_answer, hr, htail, ha, bind, Except.bind]
        · have hdata := (exists_addAnswer_iff a ⟨name, atype, class', ttl, rdata⟩).1 ⟨a', ha⟩
          have hrest := readAnswers_ne_none n a' left' fun hround =>
            h.2 ⟨left', ⟨stop, atype, class', ttl, rdata, hend, hstop rfl, htail, hdata⟩, hround⟩
          simpa [readAnswers, unpack_answer, hr, htail, ha, bind, Except.bind] using hrest

theorem readPacket_of_goesRound (h : PacketGoesRound content) (rounds : ℕ) :
    readPacket rounds content = none := by
  obtain ⟨hlen, hcount, hround⟩ := h
  rw [readPacket, if_neg (Nat.not_lt.2 hlen), if_neg (not_not.2 hcount)]
  rcases hround with hround | ⟨stop, atype, class', left, hend, hstop, htail, hrest⟩
  · simp [unpack_question, unpack_name_of_goesRound hround]
  · rcases unpack_name_cases rounds hend hstop with hnone | ⟨name, hname⟩
    · simp [unpack_question, hnone]
    · simp [unpack_question, hname, htail, readAnswers_of_goesRound rounds _ _ _ hrest, bind,
        Except.bind]

theorem readPacket_ne_none (h : ¬ PacketGoesRound content) :
    readPacket (content.length + 2) content ≠ none := by
  unfold readPacket
  split_ifs with hlen hcount
  · simp
  · simp
  · rw [Nat.not_lt] at hlen
    rw [not_not] at hcount
    have hname : ¬ GoesRound content 13 := fun hround => h ⟨hlen, hcount, .inl hround⟩
    obtain ⟨r, hr⟩ := Option.ne_none_iff_exists'.1 (unpack_name_ne_none hname)
    rcases r with _ | ⟨name, stop⟩
    · simp [unpack_question, hr, bind, Except.bind]
    · obtain ⟨hend, -, hstop⟩ := nameLoop_eq_ok _ _ _ _ hr
      rcases htail : questionTail content stop with _ | ⟨atype, class', left⟩
      · simp [unpack_question, hr, htail, bind, Except.bind]
      · have hrest : ¬ RecordsGoRound content (headerField content 3) left := fun hround =>
          h ⟨hlen, hcount, .inr ⟨stop, atype, class', left, hend, hstop rfl, htail, hround⟩⟩
        have hread := readAnswers_ne_none (headerField content 3) ⟨none, [], []⟩ left hrest
        simpa [unpack_question, hr, htail, bind, Except.bind] using hread

/-- Just the packets that come to no name that goes round are read to an end. -/
theorem finishes_iff (content : Bytes) : Finishes content ↔ ¬ PacketGoesRound content := by
  constructor
  · rintro ⟨hread, -⟩ h
    exact hread (readPacket_of_goesRound h _)
  · intro h
    refine ⟨readPacket_ne_none h, fun rounds left name left' hname => ?_⟩
    exact (nameLoop_eq_ok _ _ _ _ hname).2.2 rfl

/-- A question whose name is a pointer to itself. -/
def loopPacket : Bytes := [0, 1, 0x81, 0x80, 0, 1, 0, 0, 0, 0, 0, 0, 0xc0, 12, 0, 1, 0, 1]

theorem not_finishes_loop : ¬ Finishes loopPacket := by
  rintro ⟨hread, -⟩
  refine hread (readPacket_of_goesRound ⟨by decide, by decide, .inl ⟨13, .refl, ?_⟩⟩ _)
  exact .single (show next loopPacket 13 = some 13 by decide)

end Packets

end Dns

end SkynetGame
