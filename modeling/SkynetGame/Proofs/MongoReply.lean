import SkynetGame.MongoReply

/-!
# Which replies are taken

The loop follows the length words, whatever they are: one of zero keeps it where it is, a negative
one takes it back, and one of less than 5 bytes is no document.
-/

namespace SkynetGame

namespace Mongo

section Documents

variable (data : Bytes)

/-- From `p` to the end of the reply there are documents, at these positions. -/
inductive Documents : ℕ → List ℕ → Prop
  | nil : Documents data.length []
  | cons {p n : ℕ} {ps : List ℕ} (hlen : get_length data p = n) (hmin : 5 ≤ n)
      (hle : p + n ≤ data.length) (h : Documents (p + n) ps) : Documents p (p :: ps)

/-- Behind the header there are the documents that it announces, at these positions. -/
def Announced (ps : List ℕ) : Prop := Documents data header ps ∧ (ps.length : ℤ) = number data

/-- Following the length words from `p` one passes these positions, and is then at `q`, less than
5 bytes in front of `e`, or behind it. -/
inductive Walk (e : ℤ) : ℕ → List ℕ → ℕ → Prop
  | stop {p : ℕ} (h : e - p ≤ 4) : Walk e p [] p
  | step {p p' q : ℕ} {ps : List ℕ} (hp : 4 < e - p) (hle : p + 4 ≤ data.length)
      (hnext : (p' : ℤ) = p + get_length data p) (hmax : e - p' ≤ INT_MAX)
      (h : Walk e p' ps q) : Walk e p (p :: ps) q

end Documents

/-- Where `op_reply` takes the end of the reply to be: `sz` is an `int`. -/
def assumed (data : Bytes) : ℤ := header + toInt (data.length - header)

/-- The table with positions from `i` on. -/
def filledFrom : ℕ → List ℕ → Table → Table
  | _, [], t => t
  | i, p :: ps, t => filledFrom (i + 1) ps (rawseti t i (some (.document p)))

/-- The table holds these positions and nothing else. -/
def Holds (t : Table) (ps : List ℕ) : Prop :=
  (∀ (i p : ℕ), ps[i]? = some p → t (.index (i + 1)) = some (.document p)) ∧
    ∀ k, (∀ i < ps.length, k ≠ .index (i + 1)) → t k = none

def Succeeds (r : Except String Reply) : Prop :=
  ∃ id document cursor_id startfrom, r = .ok (.success id document cursor_id startfrom)

/-- It comes to an end without a read outside of the reply, succeeds just if the announced documents
are there, and then the table holds their positions. -/
def Parsed (rawlen : Table → ℕ) (data : Bytes) (t : Table) : Prop :=
  ∃ fuel r t', op_reply rawlen fuel data (some t) = .done (r, some t') ∧
    (Succeeds r ↔ ∃ ps, Announced data ps) ∧ (Succeeds r → ∀ ps, Announced data ps → Holds t' ps)

/-- Where the loop ends at the end of the reply after the announced number of turns, it passed
documents only, and whatever else is in the table is within its length. -/
def Followed (rawlen : Table → ℕ) (data : Bytes) (t : Table) : Prop :=
  ∃ ps q, Walk data (assumed data) header ps q ∧ (ps.length : ℤ) < INT_MAX ∧ number data < INT_MAX ∧
    (assumed data ≠ data.length → ¬ ∃ ps, Announced data ps) ∧
    ((q : ℤ) = assumed data → (ps.length : ℤ) = number data → assumed data = data.length ∧
      (∀ p ∈ ps, 5 ≤ get_length data p) ∧
      ∀ k, (∀ i < ps.length, k ≠ .index (i + 1)) → t k = none ∨
        ∃ i, k = .index i ∧ ps.length < i ∧ i ≤ rawlen (filledFrom 1 ps t))

section Documents

variable {data : Bytes} {e : ℤ}

theorem Documents.le {p : ℕ} {ps : List ℕ} (h : Documents data p ps) : p ≤ data.length := by
  cases h with
  | nil => exact Nat.le_refl _
  | cons _ _ hle _ => omega

theorem Announced.le {ps : List ℕ} (h : Announced data ps) : header ≤ data.length := h.1.le

theorem Documents.walk {p : ℕ} {ps : List ℕ} (h : Documents data p ps)
    (hmax : (data.length : ℤ) - p ≤ INT_MAX) : Walk data data.length p ps data.length := by
  induction h with
  | nil => exact .stop (by omega)
  | @cons p n ps hlen hmin hle h ih =>
    have hnext : ((p + n : ℕ) : ℤ) = p + get_length data p := by
      rw [hlen]
      rfl
    exact .step (by omega) (by omega) hnext (by omega) (ih (by omega))

theorem Walk.documents {p q : ℕ} {ps : List ℕ} (h : Walk data data.length p ps q)
    (hq : q = data.length) (hmin : ∀ p ∈ ps, 5 ≤ get_length data p) : Documents data p ps := by
  induction h with
  | stop h =>
    rw [hq]
    exact .nil
  | @step p p' q ps hp hle hnext hmax h ih =>
    have h5 := hmin p (by simp)
    have hd := ih hq fun p hp => hmin p (by simp [hp])
    have hle' := hd.le
    obtain ⟨n, hn⟩ : ∃ n, p' = p + n := ⟨p' - p, by omega⟩
    subst hn
    exact .cons (by omega) (by omega) hle' hd

theorem Walk.unique {p q q' : ℕ} {ps ps' : List ℕ} (h : Walk data e p ps q)
    (h' : Walk data e p ps' q') : ps = ps' ∧ q = q' := by
  induction h generalizing ps' q' with
  | stop h =>
    cases h' with
    | stop h' => exact ⟨rfl, rfl⟩
    | step h' => omega
  | @step p p₁ q ps hp hle hnext hmax h ih =>
    cases h' with
    | stop h' => omega
    | @step _ p₂ _ ps' hp' hle' hnext' hmax' h' =>
      obtain rfl : p₁ = p₂ := by omega
      obtain ⟨rfl, rfl⟩ := ih h'
      exact ⟨rfl, rfl⟩

theorem not_walk_zero {p : ℕ} (hzero : get_length data p = 0) (hp : 4 < e - p) {ps : List ℕ}
    {q : ℕ} (h : Walk data e p ps q) : False := by
  induction h with
  | stop h => omega
  | @step p p' q ps _ _ hnext _ _ ih =>
    obtain rfl : p' = p := by omega
    exact ih hzero hp

theorem Documents.min {p : ℕ} {ps : List ℕ} (h : Documents data p ps) :
    ∀ p ∈ ps, 5 ≤ get_length data p := by
  induction h with
  | nil => simp
  | @cons p n ps hlen hmin hle h ih =>
    intro p' hp'
    rcases List.mem_cons.1 hp' with rfl | hp'
    · omega
    · exact ih p' hp'

theorem Documents.end_eq {p q : ℕ} {ps ps' : List ℕ} (h : Documents data p ps)
    (h' : Walk data e p ps' q) (hlen : ps.length = ps'.length) : q = data.length := by
  induction h' generalizing ps with
  | stop _ =>
    cases h with
    | nil => rfl
    | cons => cases hlen
  | @step p p' q ps' hp hle hnext hmax h' ih =>
    cases h with
    | nil => cases hlen
    | @cons _ n ps hn hmin hle' h =>
      obtain rfl : p' = p + n := by omega
      exact ih h (by simpa using hlen)

end Documents

section Table

theorem filledFrom_other {k : Key} : ∀ (ps : List ℕ) {i : ℕ} (t : Table),
    (∀ j < ps.length, k ≠ .index (i + j)) → filledFrom i ps t k = t k
  | [], _, _, _ => rfl
  | p :: ps, i, t, h => by
    have h0 : k ≠ .index i := h 0 (by simp)
    rw [filledFrom, filledFrom_other ps, rawseti, if_neg h0]
    intro j hj
    have hk := h (j + 1) (by simpa using hj)
    rwa [← Nat.add_assoc, Nat.add_right_comm] at hk

theorem filledFrom_at : ∀ (ps : List ℕ) {i j p : ℕ} (t : Table), ps[j]? = some p →
    filledFrom i ps t (.index (i + j)) = some (.document p)
  | [], _, _, _, _, h => by simp at h
  | p :: ps, i, 0, p', t, h => by
    obtain rfl : p = p' := by simpa using h
    rw [Nat.add_zero, filledFrom, filledFrom_other, rawseti, if_pos rfl]
    intro j _ hj
    injection hj
    omega
  | p :: ps, i, j + 1, p', t, h => by
    have hrec := filledFrom_at ps (i := i + 1) (rawseti t i (some (.document p)))
      (show ps[j]? = some p' by simpa using h)
    rwa [Nat.add_right_comm, Nat.add_assoc] at hrec

theorem trimLoop_other {k : Key} : ∀ (n : ℕ) {i : ℕ} (t : Table),
    (∀ j < n, k ≠ .index (i + j)) → trimLoop n i t k = t k
  | 0, _, _, _ => rfl
  | n + 1, i, t, h => by
    have h0 : k ≠ .index i := h 0 (by omega)
    rw [trimLoop, trimLoop_other n, rawseti, if_neg h0]
    intro j hj
    have hk := h (j + 1) (by omega)
    rwa [← Nat.add_assoc, Nat.add_right_comm] at hk

theorem trimLoop_at : ∀ (n : ℕ) {i j : ℕ} (t : Table), j < n → trimLoop n i t (.index (i + j)) = none
  | 0, _, _, _, h => by omega
  | n + 1, i, 0, t, h => by
    change trimLoop (n + 1) i t (.index i) = none
    rw [trimLoop, trimLoop_other, rawseti, if_pos rfl]
    intro j _ hj
    injection hj
    omega
  | n + 1, i, j + 1, t, h => by
    have hrec := trimLoop_at n (i := i + 1) (rawseti t i none) (show j < n by omega)
    rwa [Nat.add_right_comm, Nat.add_assoc] at hrec

theorem holds_iff (ps : List ℕ) (t : Table) (c : ℕ) :
    Holds (trimLoop (c + 1 - (1 + ps.length)) (1 + ps.length) (filledFrom 1 ps t)) ps ↔
      ∀ k, (∀ i < ps.length, k ≠ .index (i + 1)) → t k = none ∨
        ∃ i, k = .index i ∧ ps.length < i ∧ i ≤ c := by
  constructor
  · rintro ⟨-, hnone⟩ k hk
    by_cases hi : ∃ i, k = .index i ∧ ps.length < i ∧ i ≤ c
    · exact .inr hi
    · left
      have h := hnone k hk
      rw [trimLoop_other, filledFrom_other] at h
      · exact h
      · intro j hj hkj
        exact hk j hj (by rw [hkj, Nat.add_comm])
      · rintro j hj rfl
        exact hi ⟨_, rfl, by omega, by omega⟩
  · intro hall
    refine ⟨fun i p hp => ?_, fun k hk => ?_⟩
    · obtain ⟨hi, -⟩ := List.getElem?_eq_some_iff.1 hp
      rw [trimLoop_other, Nat.add_comm, filledFrom_at ps t hp]
      intro j _ hj
      injection hj
      omega
    · rcases hall k hk with hnone | ⟨i, rfl, hi, hc⟩
      · by_cases hj : ∃ j < c + 1 - (1 + ps.length), k = .index (1 + ps.length + j)
        · obtain ⟨j, hj, rfl⟩ := hj
          exact trimLoop_at _ _ hj
        · rw [trimLoop_other, filledFrom_other, hnone]
          · intro j hj hkj
            exact hk j hj (by rw [hkj, Nat.add_comm])
          · intro j hlt hkj
            exact hj ⟨j, hlt, hkj⟩
      · obtain ⟨j, rfl⟩ : ∃ j, i = 1 + ps.length + j := ⟨i - (1 + ps.length), by omega⟩
        exact trimLoop_at _ _ (by omega)

end Table

section Loop

variable {data : Bytes} {e : ℤ}

theorem docLoop_front {w w' : Walker} (hdoc : w.doc < 0) (hsz : 4 < w.sz) :
    ∀ fuel, docLoop data fuel w ≠ .done w'
  | 0, h => by cases h
  | fuel + 1, h => by
    rw [docLoop, if_pos hsz, if_pos (.inl hdoc)] at h
    cases h

theorem docLoop_done : ∀ (fuel : ℕ) {t : Table} {p : ℕ} {sz : ℤ} {i : ℕ} {w : Walker},
    docLoop data fuel ⟨t, p, sz, i⟩ = .done w → p + sz = e → (i : ℤ) ≤ INT_MAX →
    ∃ ps q, Walk data e p ps q ∧ ((i + ps.length : ℕ) : ℤ) ≤ INT_MAX ∧
      w = ⟨filledFrom i ps t, q, e - q, i + ps.length⟩
  | 0, t, p, sz, i, w, h, _, _ => by cases h
  | fuel + 1, t, p, sz, i, w, h, he, hi => by
    rw [docLoop] at h
    dsimp only at h
    by_cases hsz : 4 < sz
    · rw [if_pos hsz] at h
      by_cases hin : (p : ℤ) < 0 ∨ (data.length : ℤ) < p + 4
      · rw [if_pos hin] at h
        cases h
      · rw [if_neg hin, Int.toNat_natCast] at h
        by_cases hint : INT_MAX < sz - get_length data p ∨ INT_MAX ≤ (i : ℤ)
        · rw [if_pos hint] at h
          cases h
        · rw [if_neg hint] at h
          obtain ⟨p', hp'⟩ : ∃ p' : ℕ, (p' : ℤ) = p + get_length data p := by
            refine ⟨(p + get_length data p).toNat, Int.toNat_of_nonneg ?_⟩
            by_contra hneg
            exact docLoop_front (by dsimp only; omega) (by dsimp only; omega) fuel h
          rw [← hp'] at h
          obtain ⟨ps, q, hw, hmax, rfl⟩ := docLoop_done fuel h (by omega) (by push_cast; omega)
          refine ⟨p :: ps, q, .step (by omega) (by omega) hp' (by omega) hw, ?_, ?_⟩
          · rw [List.length_cons]
            omega
          · rw [List.length_cons, filledFrom]
            congr 1
            omega
    · rw [if_neg hsz] at h
      injection h with h
      refine ⟨[], p, .stop (by omega), by simpa using hi, ?_⟩
      rw [← h, ← he]
      simp [filledFrom]

theorem docLoop_of_walk {p q : ℕ} {ps : List ℕ} (h : Walk data e p ps q) :
    ∀ {t : Table} {sz : ℤ} {i : ℕ}, p + sz = e → ((i + ps.length : ℕ) : ℤ) ≤ INT_MAX →
      docLoop data (ps.length + 1) ⟨t, p, sz, i⟩ =
        .done ⟨filledFrom i ps t, q, e - q, i + ps.length⟩ := by
  induction h with
  | stop h =>
    intro t sz i he hi
    rw [docLoop]
    dsimp only
    rw [if_neg (by omega), ← he]
    simp [filledFrom]
  | @step p p' q ps hp hle hnext hmax h ih =>
    intro t sz i he hi
    rw [List.length_cons] at hi ⊢
    rw [docLoop]
    dsimp only
    rw [if_pos (by omega), if_neg (by omega), Int.toNat_natCast, if_neg (by push_cast at hi; omega),
      ← hnext, ih (by omega) (by omega), filledFrom]
    congr 2
    omega

end Loop

section Reply

variable {rawlen : Table → ℕ} {data : Bytes} {t : Table}

theorem assumed_eq (data : Bytes) : (header : ℤ) + toInt (data.length - header) = assumed data := rfl

theorem toInt_le (n : ℤ) : toInt n ≤ INT_MAX := by
  have h := Int.bmod_lt (x := n) (show 0 < 0x100000000 by decide)
  rw [toInt, INT_MAX]
  omega

theorem not_succeeds_failure {id document : ℤ} : ¬ Succeeds (.ok (.failure id document)) := by
  rintro ⟨_, _, _, _, h⟩
  cases h

theorem not_succeeds_mismatch {id : ℤ} : ¬ Succeeds (.ok (.mismatch id)) := by
  rintro ⟨_, _, _, _, h⟩
  cases h

theorem succeeds_finish {sz : ℤ} : Succeeds (finish data sz) ↔ sz = 0 := by
  rw [finish]
  by_cases hz : sz ≠ 0
  · rw [if_pos hz]
    refine iff_of_false ?_ hz
    rintro ⟨_, _, _, _, h⟩
    cases h
  · rw [if_neg hz]
    exact iff_of_true ⟨_, _, _, _, rfl⟩ (not_not.1 hz)

theorem parsed_of_not {fuel : ℕ} {r : Except String Reply} {t' : Table}
    (h : op_reply rawlen fuel data (some t) = .done (r, some t')) (hr : ¬ Succeeds r)
    (hnot : ¬ ∃ ps, Announced data ps) : Parsed rawlen data t :=
  ⟨fuel, r, t', h, iff_of_false hr hnot, fun hs => absurd hs hr⟩

theorem not_announced_short (h : data.length < header) : ¬ ∃ ps, Announced data ps := by
  rintro ⟨ps, hps⟩
  have := hps.le
  omega

theorem parsed_failed (hlen : ¬ data.length < header) (hf : failed data = true) :
    Parsed rawlen data t ↔ ¬ ∃ ps, Announced data ps := by
  have heq : ∀ fuel, op_reply rawlen fuel data (some t) =
      .done (.ok (.failure (response_id data) header), some t) := fun fuel => by
    rw [op_reply, if_neg hlen, if_pos hf]
  constructor
  · rintro ⟨fuel, r, t', h, hiff, -⟩ hex
    rw [heq fuel] at h
    injection h with h
    injection h with hr
    subst hr
    exact not_succeeds_failure (hiff.2 hex)
  · exact parsed_of_not (heq 0) not_succeeds_failure

def reached (rawlen : Table → ℕ) (data : Bytes) (t : Table) (ps : List ℕ) (q : ℕ) :
    Except String Reply × Option Table :=
  if (ps.length : ℤ) ≠ number data then
    (.ok (.mismatch (response_id data)), some (filledFrom 1 ps t))
  else
    (finish data (assumed data - q), some (trimLoop
      (rawlen (filledFrom 1 ps t) + 1 - (1 + ps.length)) (1 + ps.length) (filledFrom 1 ps t)))

theorem op_reply_done {fuel : ℕ} {r : Except String Reply × Option Table}
    (hlen : ¬ data.length < header) (hf : failed data = false)
    (h : op_reply rawlen fuel data (some t) = .done r) :
    ∃ ps q, Walk data (assumed data) header ps q ∧ (ps.length : ℤ) < INT_MAX ∧
      number data < INT_MAX ∧ r = reached rawlen data t ps q := by
  rw [op_reply, if_neg hlen, if_neg (by simp [hf])] at h
  dsimp only at h
  rcases hl : docLoop data fuel ⟨t, header, toInt (data.length - header), 1⟩ with w | _ | _
  · rw [hl] at h
    dsimp only at h
    obtain ⟨ps, q, hw, hmax, rfl⟩ := docLoop_done fuel hl (assumed_eq data) (by decide)
    dsimp only at h
    by_cases hn : INT_MAX ≤ number data
    · rw [if_pos hn] at h
      cases h
    · rw [if_neg hn] at h
      refine ⟨ps, q, hw, by omega, by omega, ?_⟩
      rw [reached]
      by_cases hne : (ps.length : ℤ) ≠ number data
      · rw [if_pos (by push_cast; omega)] at h
        rw [if_pos hne]
        injection h with h
        exact h.symm
      · rw [if_neg (by push_cast; omega)] at h
        rw [if_neg hne]
        injection h with h
        exact h.symm
  · rw [hl] at h
    cases h
  · rw [hl] at h
    cases h

theorem op_reply_of_walk (rawlen : Table → ℕ) (t : Table) {ps : List ℕ} {q : ℕ}
    (hlen : ¬ data.length < header)
    (hf : failed data = false) (hw : Walk data (assumed data) header ps q)
    (hmax : (ps.length : ℤ) < INT_MAX) (hn : number data < INT_MAX) :
    op_reply rawlen (ps.length + 1) data (some t) = .done (reached rawlen data t ps q) := by
  have hl := docLoop_of_walk hw (t := t) (i := 1) (assumed_eq data) (by push_cast; omega)
  rw [op_reply, if_neg hlen, if_neg (by simp [hf])]
  dsimp only
  rw [hl]
  dsimp only
  rw [if_neg (by omega), reached]
  by_cases hne : (ps.length : ℤ) ≠ number data
  · rw [if_pos hne, if_pos (by push_cast; omega)]
  · rw [if_neg hne, if_neg (by push_cast; omega)]

theorem succeeds_reached (rawlen : Table → ℕ) (data : Bytes) (t : Table) (ps : List ℕ) (q : ℕ) :
    Succeeds (reached rawlen data t ps q).1 ↔ (q : ℤ) = assumed data ∧ (ps.length : ℤ) = number data := by
  rw [reached]
  by_cases hne : (ps.length : ℤ) ≠ number data
  · rw [if_pos hne]
    exact iff_of_false not_succeeds_mismatch fun h => hne h.2
  · rw [if_neg hne, succeeds_finish]
    omega

theorem Announced.walk {ps : List ℕ} (h : Announced data ps)
    (he : assumed data = data.length) : Walk data (assumed data) header ps data.length := by
  have hmax := toInt_le (data.length - header)
  have hdef := assumed_eq data
  rw [he]
  exact h.1.walk (by omega)

theorem parsed_iff_followed (hlen : ¬ data.length < header) (hf : failed data = false) :
    Parsed rawlen data t ↔ Followed rawlen data t := by
  constructor
  · rintro ⟨fuel, r, t', h, hiff, hholds⟩
    obtain ⟨ps, q, hw, hmax, hn, hr⟩ := op_reply_done hlen hf h
    have hsucc := succeeds_reached rawlen data t ps q
    rw [← hr] at hsucc
    dsimp only at hsucc
    refine ⟨ps, q, hw, hmax, hn, fun hne hex => ?_, fun hq hps => ?_⟩
    · obtain ⟨ps', hps'⟩ := hex
      obtain ⟨hq, hcount⟩ := hsucc.1 (hiff.2 ⟨ps', hps'⟩)
      have hend := hps'.1.end_eq hw (by have := hps'.2; omega)
      exact hne (by omega)
    · have hs := hsucc.2 ⟨hq, hps⟩
      obtain ⟨ps', hps'⟩ := hiff.1 hs
      have hend := hps'.1.end_eq hw (by have := hps'.2; omega)
      have he : assumed data = data.length := by omega
      obtain ⟨rfl, -⟩ := hw.unique (hps'.walk he)
      refine ⟨he, hps'.1.min, ?_⟩
      have ht := hholds hs ps hps'
      rw [reached, if_neg (not_not.2 hps), Prod.mk.injEq, Option.some.injEq] at hr
      rw [hr.2] at ht
      exact (holds_iff ps t _).1 ht
  · rintro ⟨ps, q, hw, hmax, hn, hlarge, hend⟩
    have hrun := op_reply_of_walk rawlen t hlen hf hw hmax hn
    have hsucc := succeeds_reached rawlen data t ps q
    by_cases hq : (q : ℤ) = assumed data ∧ (ps.length : ℤ) = number data
    · obtain ⟨he, hmin, hk⟩ := hend hq.1 hq.2
      have hs := hsucc.2 hq
      have hann : Announced data ps := by
        refine ⟨Walk.documents (q := q) ?_ (by omega) hmin, hq.2⟩
        rwa [he] at hw
      rw [reached, if_neg (not_not.2 hq.2)] at hrun hs
      refine ⟨_, _, _, hrun, iff_of_true hs ⟨ps, hann⟩, fun _ ps' hps' => ?_⟩
      obtain ⟨rfl, -⟩ := (hann.walk he).unique (hps'.walk he)
      exact (holds_iff ps t _).2 hk
    · have hs : ¬ Succeeds (reached rawlen data t ps q).1 := fun h => hq (hsucc.1 h)
      have hnot : ¬ ∃ ps, Announced data ps := by
        rintro ⟨ps', hps'⟩
        by_cases he : assumed data = data.length
        · obtain ⟨rfl, rfl⟩ := hw.unique (hps'.walk he)
          exact hq ⟨he.symm, hps'.2⟩
        · exact hlarge he ⟨ps', hps'⟩
      rw [reached] at hrun hs
      by_cases hps : (ps.length : ℤ) ≠ number data
      · rw [if_pos hps] at hrun hs
        exact parsed_of_not hrun hs hnot
      · rw [if_neg hps] at hrun hs
        exact parsed_of_not hrun hs hnot

/-- Just the replies that are parsed as they should be. -/
theorem parsed_iff (rawlen : Table → ℕ) (data : Bytes) (t : Table) :
    Parsed rawlen data t ↔ data.length < header ∨
      (failed data = true ∧ ¬ ∃ ps, Announced data ps) ∨
      (header ≤ data.length ∧ failed data = false ∧ Followed rawlen data t) := by
  by_cases hlen : data.length < header
  · have hrun : op_reply rawlen 0 data (some t) = .done (.ok .short, some t) := by
      rw [op_reply, if_pos hlen]
    refine iff_of_true (parsed_of_not hrun ?_ (not_announced_short hlen)) (.inl hlen)
    rintro ⟨_, _, _, _, h⟩
    cases h
  · cases hf : failed data with
    | true => simp [parsed_failed hlen hf, hlen]
    | false => simp [parsed_iff_followed hlen hf, hlen, Nat.le_of_not_lt hlen]

/-- A header and five zeros, for an empty table. -/
theorem not_parsed_zeros : ¬ Parsed (fun _ => 0) (List.replicate 37 0) fun _ => none := by
  have hlen : (List.replicate 37 (0 : UInt8)).length = 37 := List.length_replicate ..
  have hword : get_length (List.replicate 37 0) header = 0 := by decide
  have hassumed : assumed (List.replicate 37 0) = 37 := by decide
  rw [parsed_iff_followed (by rw [hlen]; decide) (by decide)]
  rintro ⟨ps, q, hw, -⟩
  rw [hassumed] at hw
  exact not_walk_zero hword (by decide) hw

end Reply

end Mongo

end SkynetGame
