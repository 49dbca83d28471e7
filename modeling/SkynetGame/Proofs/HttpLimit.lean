import SkynetGame.Proofs.HttpChunked

/-!
# The length of a body

What is behind the header is read as chunks where each size that is come to is a number from 0 that a
`lua_Integer` holds. A size with a minus is added as well, and one that is too large wraps around;
then what is taken of the buffer is not what the size says. In the identity mode the length has to be
one that the header has once and that is a number. A field that is repeated is a table, for which
`tonumber` gives nil, and then the body is whatever has been read, without a limit.
-/

namespace SkynetGame

open List

namespace Http

open LuaNumber LuaPattern

section Declared

/-- Chunks to the one of size 0, each with its size in front, and the body that they make. -/
inductive Framed : Bytes → Bytes → Prop
  | last {t : Bytes} {f : ℕ} (hf : FirstAt t crln f) (hz : written 16 (t.take f) = some 0) :
      Framed t []
  | chunk {t body : Bytes} {f n : ℕ} (hf : FirstAt t crln f)
      (hz : written 16 (t.take f) = some (n : ℤ)) (hn : n ≠ 0) (hend : crln <+: t.drop (f + 2 + n))
      (h : Framed (t.drop (f + 2 + n + 2)) body) : Framed t ((t.drop (f + 2)).take n ++ body)

/-- Behind such chunks there is one whose size is negative or is too large. -/
inductive Misread : Bytes → Prop
  | here {t : Bytes} {f : ℕ} {z : ℤ} (hf : FirstAt t crln f) (hz : written 16 (t.take f) = some z)
      (hbad : z < 0 ∨ 0x8000000000000000 ≤ z) : Misread t
  | behind {t : Bytes} {f n : ℕ} (hf : FirstAt t crln f)
      (hz : written 16 (t.take f) = some (n : ℤ)) (hn : n ≠ 0) (hend : crln <+: t.drop (f + 2 + n))
      (h : Misread (t.drop (f + 2 + n + 2))) : Misread t

variable (F : Floats) (cut : ℕ → ℕ) (bodylimit : Option ℕ)

/-- The float that the text is, where it is not the text of an integer. -/
def FloatText (v : Bytes) (x : F.φ) : Prop := writtenInteger v = none ∧ F.l_str2d v = some x

def Declares (v : Bytes) (k : ℕ) : Prop :=
  writtenInteger v = some (k : ℤ) ∨ ∃ x, FloatText F v x ∧ F.toInteger x = some (k : ℤ)

def Chunked (header : Header) : Prop :=
  header transferEncoding = some (.str (Bytes.ascii "chunked"))

/-- The body is the one that is declared, of what is behind the header, and is not above the limit. -/
def BodyIs (header : Header) (t body : Bytes) : Prop :=
  (∀ limit ∈ bodylimit, (Chunked header ∨ header contentLength ≠ none) → body.length ≤ limit) ∧
    (Chunked header → Framed t body) ∧
    (¬ Chunked header → ∀ field ∈ header contentLength, ∃ v k, field = .str v ∧ Declares F v k ∧
      body.length = k ∧ body = t.take k)

/-- The sizes of the chunks are read as they are written; or else the length is a number from 0, and a
float is one from which what is in the buffer can be subtracted. -/
def ReadsLengths (header : Header) (body left : Bytes) : Prop :=
  (Chunked header → ¬ Misread (body ++ left)) ∧
    (¬ Chunked header → ∀ field ∈ header contentLength, ∃ (v : Bytes) (k : ℕ), field = .str v ∧
      (writtenInteger v = some (k : ℤ) ∧ k < 0x8000000000000000 ∨
        ∃ x, FloatText F v x ∧ F.toInteger x = some (k : ℤ) ∧
          (k ≤ body.length ∨ F.toInteger (F.minus x body.length) = some ((k : ℤ) - body.length))))

/-- The header, with what of the buffer and of the stream is behind it. -/
def Behind (left : Bytes) (header : Header) (body rest : Bytes) : Prop :=
  ∃ request lines, recvheader cut [] left = .ok (some (request :: lines, body), rest) ∧
    parseheader none (fun _ => none) lines = .ok (some header)

/-- No negative amount is asked for, and each body that is returned is one that is declared. -/
def Limited (left : Bytes) : Prop :=
  readall F cut bodylimit left ≠ .error .negative ∧ ∀ url method fields result left',
    readall F cut bodylimit left = .ok (.request url method fields result, left') →
    ∃ header body rest, Behind cut left header body rest ∧
      BodyIs F bodylimit header (body ++ rest) result

/-- What the code relies on of floats: they are compared with integers as the numbers that they are,
and what is subtracted from a larger one leaves nothing negative. -/
structure Floats.Lawful : Prop where
  gt_iff {x : F.φ} {k : ℤ} (h : F.toInteger x = some k) (n : ℕ) : F.gt x n = true ↔ n < k
  le_iff {x : F.φ} {k : ℤ} (h : F.toInteger x = some k) (n : ℕ) : F.le x n = true ↔ k ≤ n
  minus_nonneg {x : F.φ} {n : ℕ} {k : ℤ} (h : F.le x n = false)
    (hk : F.toInteger (F.minus x n) = some k) : 0 ≤ k

end Declared

section Sizes

variable {t body : Bytes}

theorem length_of_crln_prefix {n : ℕ} (h : crln <+: t.drop n) : n + 2 ≤ t.length :=
  (length_of_prefix_drop h).resolve_left (by decide)

theorem Framed.not_misread (h : Framed t body) (hlen : t.length < 0x8000000000000000) :
    ¬ Misread t := by
  induction h with
  | last hf hz =>
    intro hmis
    cases hmis with
    | here hf' hz' hbad =>
      obtain rfl := hf.unique hf'
      rw [hz, Option.some.injEq] at hz'
      omega
    | behind hf' hz' hn =>
      obtain rfl := hf.unique hf'
      rw [hz, Option.some.injEq] at hz'
      omega
  | @chunk t body f n hf hz hn hend h ih =>
    have hle := length_of_crln_prefix hend
    intro hmis
    cases hmis with
    | here hf' hz' hbad =>
      obtain rfl := hf.unique hf'
      rw [hz, Option.some.injEq] at hz'
      omega
    | behind hf' hz' hn' hend' hmis =>
      obtain rfl := hf.unique hf'
      rw [hz, Option.some.injEq, Nat.cast_inj] at hz'
      subst hz'
      exact ih (by rw [length_drop]; omega) hmis

end Sizes

section Rounds

variable (cut : ℕ → ℕ) {body left body' left' x result : Bytes}

theorem readbytes_eq_ok {sz : ℤ} (h : readbytes sz left = .ok (x, left')) :
    x.length = sz ∧ left = x ++ left' := by
  unfold readbytes at h
  split_ifs at h with hneg hlt
  cases h
  refine ⟨?_, (take_append_drop _ _).symm⟩
  rw [length_take, min_eq_left (by omega)]
  omega

theorem found_eq_ok {f : ℕ} {sz : ℤ} (hf : memFind body crln = some f)
    (h : (.ok ((tonumberBase 16 (body.take f)).map fun sz => (sz, body.drop (f + 2)), left) :
      Except Fail (Option (ℤ × Bytes) × Bytes)) = .ok (some (sz, body'), left')) :
    ∃ f, FirstAt (body ++ left) crln f ∧ tonumberBase 16 ((body ++ left).take f) = some sz ∧
      body' ++ left' = (body ++ left).drop (f + 2) := by
  have hfirst := memFind_eq_some.1 hf
  have hle := length_of_crln_prefix hfirst.1
  rw [Except.ok.injEq, Prod.mk.injEq, Option.map_eq_some_iff] at h
  obtain ⟨⟨z, hz, heq⟩, rfl⟩ := h
  cases heq
  refine ⟨f, hfirst.append (by decide) left, ?_, ?_⟩
  · rw [take_append_of_le_length (by omega)]
    exact hz
  · exact (drop_append_of_le_length hle).symm

theorem chunksize_eq_ok {sz : ℤ} : ∀ (n : ℕ) (body left : Bytes),
    chunksize cut body left n = .ok (some (sz, body'), left') → ∃ f, FirstAt (body ++ left) crln f ∧
      tonumberBase 16 ((body ++ left).take f) = some sz ∧
        body' ++ left' = (body ++ left).drop (f + 2) := by
  intro n
  induction n with
  | zero =>
    intro body left h
    rw [chunksize] at h
    rcases hfind : memFind body crln with _ | f
    · simp only [hfind] at h
      by_cases hlong : 128 < body.length
      · rw [if_pos hlong] at h
        cases h
      · rw [if_neg hlong] at h
        cases h
    · simp only [hfind] at h
      exact found_eq_ok hfind h
  | succ n ih =>
    intro body left h
    rw [chunksize] at h
    rcases hfind : memFind body crln with _ | f
    · simp only [hfind] at h
      by_cases hlong : 128 < body.length
      · rw [if_pos hlong] at h
        cases h
      rw [if_neg hlong] at h
      rcases eq_or_ne left [] with rfl | hne
      · cases h
      obtain ⟨y, z, -, rfl, hread⟩ := readsome_of_ne_nil cut hne
      simp only [hread, bind, Except.bind] at h
      rw [← append_assoc]
      exact ih (body ++ y) z h
    · simp only [hfind] at h
      exact found_eq_ok hfind h

theorem readcrln_eq_ok (h : readcrln body left = .ok (some body', left')) :
    body ++ left = crln ++ (body' ++ left') := by
  unfold readcrln at h
  by_cases hlen : 2 ≤ body.length
  · rw [if_pos hlen] at h
    split_ifs at h with htake
    · cases h
      rw [← htake, ← append_assoc, take_append_drop]
    · cases h
  · rw [if_neg hlen] at h
    rcases hread : readbytes (2 - body.length) left with _ | ⟨bytes, left₁⟩
    · rw [hread] at h
      cases h
    rw [hread] at h
    simp only [bind, Except.bind] at h
    split_ifs at h with heq
    · cases h
      rw [(readbytes_eq_ok hread).2, ← append_assoc, heq]
      rfl
    · cases h

theorem chunkedLoop_eq_ok {bodylimit : Option ℕ} {size : ℤ} {n : ℕ} {r : Bytes × Bytes}
    (h : chunkedLoop cut bodylimit result size body left (n + 1) = .ok (some r, left')) :
    ∃ f sz body₁ left₁, FirstAt (body ++ left) crln f ∧
      tonumberBase 16 ((body ++ left).take f) = some sz ∧
      body₁ ++ left₁ = (body ++ left).drop (f + 2) ∧
      ((sz = 0 ∧ r = (result, body₁) ∧ left' = left₁) ∨
        (sz ≠ 0 ∧ ∀ k : ℕ, sz = k → exceeds bodylimit (wrap (size + sz)) = false ∧ ∃ body₂ left₂,
          k ≤ (body₁ ++ left₁).length ∧ (body₁ ++ left₁).drop k = crln ++ (body₂ ++ left₂) ∧
          chunkedLoop cut bodylimit (result ++ (body₁ ++ left₁).take k) (wrap (size + sz)) body₂ left₂
            n = .ok (some r, left'))) := by
  rw [chunkedLoop] at h
  rcases hsize : chunksize cut body left left.length with _ | ⟨_ | ⟨sz, body₁⟩, left₁⟩
  · rw [hsize] at h
    cases h
  · rw [hsize] at h
    cases h
  obtain ⟨f, hf, hz, hrest⟩ := chunksize_eq_ok cut _ _ _ hsize
  refine ⟨f, sz, body₁, left₁, hf, hz, hrest, ?_⟩
  simp only [hsize, bind, Except.bind] at h
  by_cases hzero : sz = 0
  · rw [if_pos hzero] at h
    cases h
    exact .inl ⟨hzero, rfl, rfl⟩
  rw [if_neg hzero] at h
  refine .inr ⟨hzero, ?_⟩
  rintro k rfl
  by_cases hlimit : exceeds bodylimit (wrap (size + k)) = true
  · rw [if_pos hlimit] at h
    cases h
  rw [if_neg hlimit] at h
  refine ⟨Bool.not_eq_true _ ▸ hlimit, ?_⟩
  by_cases hbuf : (k : ℤ) ≤ body₁.length
  · rw [if_pos hbuf] at h
    have hbuf' : k ≤ body₁.length := by omega
    rw [sub_take hbuf', sub_drop] at h
    rcases hcrln : readcrln (body₁.drop k) left₁ with _ | ⟨_ | body₂, left₂⟩
    · simp [hcrln] at h
    · simp [hcrln] at h
    simp only [hcrln] at h
    refine ⟨body₂, left₂, ?_, ?_, ?_⟩
    · rw [length_append]
      omega
    · rw [drop_append_of_le_length hbuf', readcrln_eq_ok hcrln]
    · rw [take_append_of_le_length hbuf']
      exact h
  · rw [if_neg hbuf] at h
    rcases hread : readbytes (k - body₁.length) left₁ with _ | ⟨bytes, left₂⟩
    · simp [hread] at h
    simp only [hread] at h
    obtain ⟨hlen, rfl⟩ := readbytes_eq_ok hread
    rcases hcrln : readcrln [] left₂ with _ | ⟨_ | body₂, left₃⟩
    · simp [hcrln] at h
    · simp [hcrln] at h
    simp only [hcrln] at h
    have hk : k = (body₁ ++ bytes).length := by
      rw [length_append]
      omega
    refine ⟨body₂, left₃, ?_, ?_, ?_⟩
    · rw [← append_assoc, length_append, ← hk]
      omega
    · rw [← append_assoc, hk, drop_left]
      exact readcrln_eq_ok hcrln
    · rw [← append_assoc, hk, take_left, ← hk, ← append_assoc]
      exact h

end Rounds

section Run

variable (cut : ℕ → ℕ) {body left left' : Bytes} {bodylimit : Option ℕ}

theorem le_of_not_exceeds {size : ℕ} (h : exceeds bodylimit size = false) :
    ∀ limit ∈ bodylimit, size ≤ limit := by
  rintro limit rfl
  simpa [exceeds] using h

theorem chunkedLoop_framed : ∀ (n size : ℕ) (result body left : Bytes) (r : Bytes × Bytes),
    size + (body ++ left).length < 0x8000000000000000 → (∀ limit ∈ bodylimit, size ≤ limit) →
    ¬ Misread (body ++ left) →
    chunkedLoop cut bodylimit result size body left n = .ok (some r, left') →
    ∃ s, r.1 = result ++ s ∧ Framed (body ++ left) s ∧ ∀ limit ∈ bodylimit, size + s.length ≤ limit
  | 0, _, _, _, _, _, _, _, _, h => by cases h
  | n + 1, size, result, body, left, r, hlen, hlimit, hmis, h => by
    obtain ⟨f, sz, body₁, left₁, hf, hz, hrest, ⟨rfl, rfl, rfl⟩ | ⟨hzero, hround⟩⟩ :=
      chunkedLoop_eq_ok cut h
    all_goals
      rw [tonumberBase_eq, Option.map_eq_some_iff] at hz
      obtain ⟨z, hz, hwrap⟩ := hz
      have hgood : ¬ (z < 0 ∨ 0x8000000000000000 ≤ z) := fun hbad => hmis (.here hf hz hbad)
      lift z to ℕ using by omega with k
      rw [wrap_of_lt (by omega)] at hwrap
    · refine ⟨[], (append_nil _).symm, .last hf ?_, hlimit⟩
      rw [hz, hwrap]
    · obtain ⟨hexceeds, body₂, left₂, hle, hcrln, hrun⟩ := hround k hwrap.symm
      rw [hrest, drop_drop] at hcrln
      rw [hrest, length_drop] at hle
      have hend : crln <+: (body ++ left).drop (f + 2 + k) := hcrln ▸ prefix_append _ _
      have hdrop : body₂ ++ left₂ = (body ++ left).drop (f + 2 + k + 2) := by
        rw [← drop_drop, hcrln]
        rfl
      have hbound := length_of_crln_prefix hend
      have hk : k ≠ 0 := by
        rintro rfl
        exact hzero hwrap.symm
      rw [← hwrap, ← Nat.cast_add, wrap_of_lt (by omega)] at hexceeds hrun
      obtain ⟨s, hresult, hframed, hs⟩ := chunkedLoop_framed n (size + k) _ body₂ left₂ r
        (by rw [hdrop, length_drop]; omega) (le_of_not_exceeds hexceeds)
        (by rw [hdrop]; exact fun hmis' => hmis (.behind hf hz hk hend hmis')) hrun
      rw [hrest, append_assoc] at hresult
      rw [hdrop] at hframed
      refine ⟨_, hresult, .chunk hf hz hk hend hframed, fun limit hmem => ?_⟩
      have := hs limit hmem
      rw [length_append, length_take, length_drop]
      omega

end Run

section Amounts

variable {α β : Type} (cut : ℕ → ℕ) {bodylimit : Option ℕ}

theorem bind_ne {x : Except Fail α} {k : α → Except Fail β} (hx : x ≠ .error .negative)
    (hk : ∀ a, x = .ok a → k a ≠ .error .negative) : (x >>= k) ≠ .error .negative := by
  rcases x with e | a
  · exact fun h => hx (congrArg Except.error (Except.error.inj h))
  · exact hk a rfl

theorem readsome_ne (left : Bytes) : readsome cut left ≠ .error .negative := by
  unfold readsome
  split_ifs <;> simp

theorem readbytes_ne {sz : ℤ} (h : 0 ≤ sz) (left : Bytes) : readbytes sz left ≠ .error .negative := by
  rw [readbytes, if_neg (by omega)]
  split_ifs <;> simp

theorem chunksize_ne (n : ℕ) (body left : Bytes) :
    chunksize cut body left n ≠ .error .negative := by
  induction n generalizing body left with
  | zero =>
    rw [chunksize]
    split
    · simp
    · split_ifs <;> simp
  | succ n ih =>
    rw [chunksize]
    split
    · simp
    · split_ifs
      · simp
      · exact bind_ne (readsome_ne cut left) fun a _ => ih _ _

theorem readcrln_ne (body left : Bytes) : readcrln body left ≠ .error .negative := by
  unfold readcrln
  by_cases hlen : 2 ≤ body.length
  · rw [if_pos hlen]
    split_ifs <;> simp
  · rw [if_neg hlen]
    refine bind_ne (readbytes_ne (by omega) left) fun a _ => ?_
    dsimp only
    split_ifs <;> simp

theorem chunkedLoop_ne (n : ℕ) (result : Bytes) (size : ℤ) (body left : Bytes) :
    chunkedLoop cut bodylimit result size body left n ≠ .error .negative := by
  induction n generalizing result size body left with
  | zero => simp [chunkedLoop]
  | succ n ih =>
    rw [chunkedLoop]
    refine bind_ne (chunksize_ne cut _ _ _) fun a _ => ?_
    rcases a with ⟨_ | ⟨sz, body⟩, left⟩
    · simp
    dsimp only
    by_cases hzero : sz = 0
    · simp [hzero]
    rw [if_neg hzero]
    by_cases hlimit : exceeds bodylimit (wrap (size + sz)) = true
    · simp [hlimit]
    rw [if_neg hlimit]
    split_ifs with hbuf
    · refine bind_ne (by simp) fun a _ => bind_ne (readcrln_ne _ _) fun b _ => ?_
      rcases b with ⟨_ | body, left⟩
      · simp
      · exact ih _ _ _ _
    · refine bind_ne (readbytes_ne (by omega) left) fun a _ => bind_ne (by simp) fun b _ =>
        bind_ne (readcrln_ne _ _) fun c _ => ?_
      rcases c with ⟨_ | body, left⟩
      · simp
      · exact ih _ _ _ _

theorem recvheaderLoop_ne (n : ℕ) (header left : Bytes) :
    recvheaderLoop cut header left n ≠ .error .negative := by
  induction n generalizing header left with
  | zero => simp [recvheaderLoop]
  | succ n ih =>
    rw [recvheaderLoop]
    refine bind_ne (readsome_ne cut left) fun a _ => ?_
    dsimp only
    by_cases hlong : 8192 < (header ++ a.1).length
    · rw [if_pos hlong]
      simp
    rw [if_neg hlong]
    split
    · simp
    · split_ifs
      · simp
      · exact ih _ _

theorem recvheader_ne (header left : Bytes) : recvheader cut header left ≠ .error .negative := by
  unfold recvheader
  split_ifs
  · simp
  split
  · simp
  · exact recvheaderLoop_ne cut _ _ _

theorem parseheader_ne (lines : List Bytes) (name : Option Bytes) (header : Header) :
    parseheader name header lines ≠ .error .negative := by
  induction lines generalizing name header with
  | nil => simp [parseheader]
  | cons line lines ih =>
    rw [parseheader.eq_def]
    dsimp only
    split_ifs
    · split
      · simp
      · split
        · exact ih _ _
        · simp
    · split
      · simp
      · exact ih _ _
      · simp

theorem recvchunkedbody_ne (header : Header) (body left : Bytes) :
    recvchunkedbody cut bodylimit header body left ≠ .error .negative := by
  refine bind_ne (chunkedLoop_ne cut _ _ _ _ _) fun a _ => ?_
  rcases a with ⟨_ | ⟨result, body⟩, left⟩
  · simp
  refine bind_ne (recvheader_ne cut _ _) fun b _ => ?_
  rcases b with ⟨_ | ⟨tmpline, rest⟩, left⟩
  · simp
  · exact bind_ne (parseheader_ne _ _ _) fun c _ => by simp

variable {F : Floats}

theorem integer_ne (length : Number F.φ) : F.integer length ≠ .error .negative := by
  unfold Floats.integer
  split
  · simp
  · split <;> simp

theorem missing_nonneg (hF : F.Lawful) {length : Number F.φ} {n : ℕ} {sz : ℤ}
    (h : F.numLe length n = false) (hsz : F.integer (F.numMinus length n) = .ok sz) : 0 ≤ sz := by
  cases length with
  | int k =>
    simp only [Floats.numLe, decide_eq_false_iff_not] at h
    cases hsz
    omega
  | float x =>
    simp only [Floats.numMinus, Floats.integer] at hsz
    split at hsz
    · cases hsz
      exact hF.minus_nonneg h ‹_›
    · cases hsz

theorem identityBody_ne (hF : F.Lawful) (length : Option (Number F.φ)) (body left : Bytes) :
    identityBody F bodylimit length body left ≠ .error .negative := by
  unfold identityBody
  rcases length with _ | length
  · simp
  dsimp only
  split_ifs with hlimit hle
  · simp
  · exact bind_ne (integer_ne _) fun a _ => by simp
  · exact bind_ne (integer_ne _) fun sz hsz =>
      bind_ne (readbytes_ne (missing_nonneg hF (Bool.not_eq_true _ ▸ hle) hsz) left) fun a _ => by simp

theorem readall_ne (hF : F.Lawful) (left : Bytes) :
    readall F cut bodylimit left ≠ .error .negative := by
  refine bind_ne (recvheader_ne cut _ _) fun a _ => ?_
  rcases a with ⟨_ | ⟨_ | ⟨request, lines⟩, body⟩, left⟩
  · simp
  · simp
  dsimp only
  split
  · split
    · simp
    · split_ifs
      · refine bind_ne (parseheader_ne _ _ _) fun header _ => ?_
        rcases header with _ | header
        · simp
        dsimp only [readbody]
        split_ifs
        · refine bind_ne (recvchunkedbody_ne cut _ _ _) fun b _ => ?_
          rcases b with ⟨_ | ⟨result, header⟩, left⟩ <;> simp
        · refine bind_ne (identityBody_ne hF _ _ _) fun b _ => ?_
          rcases b with ⟨_ | body, left⟩ <;> simp
        · simp
      · simp
  · simp

end Amounts

section Identity

variable {F : Floats} {bodylimit : Option ℕ} {header : Header} {body left left' result v : Bytes}
  {field : Field} {k : ℕ}

theorem fieldNumber_int (h : writtenInteger v = some (k : ℤ)) (hk : k < 0x8000000000000000) :
    F.fieldNumber (some (.str v)) = some (.int k) := by
  rw [Floats.fieldNumber, tonumber, l_str2int_eq_some h hk]

theorem fieldNumber_float {x : F.φ} (h : FloatText F v x) :
    F.fieldNumber (some (.str v)) = some (.float x) := by
  rw [Floats.fieldNumber, tonumber, l_str2int_eq_none h.1]
  simp only [h.2, Option.map_some]

/-- A number that is as large as `k`, of which what is in the buffer can be subtracted. -/
def Counts (F : Floats) (length : Number F.φ) (k n : ℕ) : Prop :=
  (∀ m, F.numGt length m = true ↔ m < k) ∧ (∀ m, F.numLe length m = true ↔ k ≤ m) ∧
    F.integer length = .ok (k : ℤ) ∧
    (n < k → F.integer (F.numMinus length n) = .ok (k - n : ℤ))

theorem counts_int (k n : ℕ) : Counts F (.int k) k n := by
  refine ⟨fun m => ?_, fun m => ?_, rfl, fun _ => rfl⟩
  · simp [Floats.numGt]
  · simp [Floats.numLe]

theorem counts_float (hF : F.Lawful) {x : F.φ} {n : ℕ} (hk : F.toInteger x = some (k : ℤ))
    (hminus : k ≤ n ∨ F.toInteger (F.minus x n) = some (k - n : ℤ)) :
    Counts F (.float x) k n := by
  refine ⟨fun m => ?_, fun m => ?_, by simp only [Floats.integer, hk], fun hn => ?_⟩
  · rw [Floats.numGt, hF.gt_iff hk, Nat.cast_lt]
  · rw [Floats.numLe, hF.le_iff hk, Nat.cast_le]
  · rw [Floats.numMinus]
    simp only [Floats.integer, hminus.resolve_left (by omega)]

theorem identityBody_counts {length : Number F.φ} (hcount : Counts F length k body.length)
    (h : identityBody F bodylimit (some length) body left = .ok (some result, left')) :
    result.length = k ∧ result = (body ++ left).take k ∧ ∀ limit ∈ bodylimit, k ≤ limit := by
  obtain ⟨hgt, hle, hint, hminus⟩ := hcount
  simp only [identityBody] at h
  by_cases hlimit : (bodylimit.any fun limit : ℕ => F.numGt length limit) = true
  · rw [if_pos hlimit] at h
    cases h
  rw [if_neg hlimit] at h
  have hlimits : ∀ limit ∈ bodylimit, k ≤ limit := by
    rintro limit rfl
    rw [Option.any_some, hgt] at hlimit
    omega
  by_cases hbuf : F.numLe length body.length = true
  · have hk := (hle _).1 hbuf
    rw [if_pos hbuf, hint] at h
    simp only [bind, Except.bind, sub_take hk] at h
    cases h
    refine ⟨?_, ?_, hlimits⟩
    · rw [length_take, min_eq_left hk]
    · rw [take_append_of_le_length hk]
  · have hk : body.length < k := Nat.not_le.1 fun hle' => hbuf ((hle _).2 hle')
    rw [if_neg hbuf, hminus hk] at h
    rcases hread : readbytes (k - body.length) left with _ | ⟨padding, rest⟩
    · simp [hread, bind, Except.bind] at h
    obtain ⟨hlen, rfl⟩ := readbytes_eq_ok hread
    simp only [hread, bind, Except.bind] at h
    cases h
    have hresult : k = (body ++ padding).length := by
      rw [length_append]
      omega
    exact ⟨hresult.symm, by rw [hresult, ← append_assoc, take_left], hlimits⟩

theorem identityBody_float (hF : F.Lawful) {x : F.φ} (hk : F.toInteger x = some (k : ℤ))
    (h : identityBody F bodylimit (some (.float x)) body left = .ok (some result, left'))
    (hresult : result.length = k) :
    k ≤ body.length ∨ F.toInteger (F.minus x body.length) = some ((k : ℤ) - body.length) := by
  simp only [identityBody] at h
  by_cases hlimit : (bodylimit.any fun limit : ℕ => F.numGt (.float x) limit) = true
  · rw [if_pos hlimit] at h
    cases h
  rw [if_neg hlimit] at h
  by_cases hbuf : F.numLe (.float x) body.length = true
  · rw [Floats.numLe, hF.le_iff hk, Nat.cast_le] at hbuf
    exact .inl hbuf
  · rw [if_neg hbuf, Floats.numMinus, Floats.integer] at h
    rcases hminus : F.toInteger (F.minus x body.length) with _ | sz
    · simp [hminus, bind, Except.bind] at h
    rcases hread : readbytes sz left with _ | ⟨padding, rest⟩
    · simp [hminus, hread, bind, Except.bind] at h
    obtain ⟨hlen, -⟩ := readbytes_eq_ok hread
    simp only [hminus, hread, bind, Except.bind] at h
    cases h
    rw [length_append] at hresult
    refine .inr (congrArg some ?_)
    omega

end Identity

section Request

variable (cut : ℕ → ℕ) {F : Floats} {bodylimit : Option ℕ} {header : Header}
  {body left left' rest result url method : Bytes} {fields : Option Header}

theorem recvheaderLoop_length {lines : List Bytes} : ∀ (n : ℕ) (header left : Bytes),
    recvheaderLoop cut header left n = .ok (some (lines, body), rest) →
    (body ++ rest).length ≤ (header ++ left).length
  | 0, _, _, h => by cases h
  | n + 1, header, left, h => by
    rcases eq_or_ne left [] with rfl | hne
    · cases h
    obtain ⟨x, y, -, rfl, hread⟩ := readsome_of_ne_nil cut hne
    simp only [recvheaderLoop, hread, bind, Except.bind] at h
    by_cases hlong : 8192 < (header ++ x).length
    · rw [if_pos hlong] at h
      cases h
    rw [if_neg hlong] at h
    split at h
    · cases h
      simp only [length_append, length_drop]
      omega
    · split_ifs at h
      · cases h
        simp only [length_append, length_drop]
        omega
      · have := recvheaderLoop_length n _ _ h
        simp only [length_append] at this ⊢
        omega

theorem Behind.length_le (h : Behind cut left header body rest) :
    (body ++ rest).length ≤ left.length := by
  obtain ⟨request, lines, hrecv, -⟩ := h
  have hnone : memFind [] blank = none := memFind_blank_of_short (by decide)
  rw [recvheader, if_neg (by decide), hnone] at hrecv
  exact recvheaderLoop_length cut _ _ _ hrecv

theorem readall_request
    (h : readall F cut bodylimit left = .ok (.request url method fields result, left')) :
    ∃ header body rest url' method', Behind cut left header body rest ∧
      readbody F cut bodylimit url' method' header body rest =
        .ok (.request url method fields result, left') := by
  unfold readall at h
  rcases hrecv : recvheader cut [] left with _ | ⟨_ | ⟨_ | ⟨request, lines⟩, body⟩, rest⟩
  · simp [hrecv, bind, Except.bind] at h
  · simp [hrecv, bind, Except.bind] at h
  · simp [hrecv, bind, Except.bind] at h
  simp only [hrecv, bind, Except.bind] at h
  split at h
  · split at h
    · cases h
    · split_ifs at h
      · rcases hparse : parseheader none (fun _ => none) lines with _ | _ | header
        · simp [hparse] at h
        · simp [hparse] at h
        exact ⟨header, body, rest, _, _, ⟨request, lines, hrecv, hparse⟩, by simpa [hparse] using h⟩
      · cases h
  · cases h

theorem readbody_chunked {url' method' : Bytes} (hmode : Chunked header)
    (h : readbody F cut bodylimit url' method' header body rest =
      .ok (.request url method fields result, left')) : ∃ behind left₁,
    chunkedLoop cut bodylimit [] (0 : ℕ) body rest (body.length + rest.length) =
      .ok (some (result, behind), left₁) := by
  unfold Chunked at hmode
  rw [readbody, if_pos hmode] at h
  rcases hloop : chunkedLoop cut bodylimit [] 0 body rest (body.length + rest.length) with
    _ | ⟨_ | ⟨s, behind⟩, left₁⟩
  · simp [recvchunkedbody, hloop, bind, Except.bind] at h
  · simp [recvchunkedbody, hloop, bind, Except.bind] at h
  rcases hrecv : recvheader cut behind left₁ with _ | ⟨_ | ⟨lines, behind'⟩, left₂⟩
  · simp [recvchunkedbody, hloop, hrecv, bind, Except.bind] at h
  · simp [recvchunkedbody, hloop, hrecv, bind, Except.bind] at h
  rcases hparse : parseheader none header lines with _ | fields'
  · simp [recvchunkedbody, hloop, hrecv, hparse, bind, Except.bind] at h
  simp only [recvchunkedbody, hloop, hrecv, hparse, bind, Except.bind] at h
  cases h
  exact ⟨behind, left₁, rfl⟩

theorem readbody_identity {url' method' : Bytes} (hmode : ¬ Chunked header)
    (h : readbody F cut bodylimit url' method' header body rest =
      .ok (.request url method fields result, left')) :
    identityBody F bodylimit (F.fieldNumber (header contentLength)) body rest =
      .ok (some result, left') := by
  unfold Chunked at hmode
  rw [readbody, if_neg hmode] at h
  split_ifs at h
  · rcases hbody : identityBody F bodylimit (F.fieldNumber (header contentLength)) body rest with
      _ | ⟨_ | s, left₁⟩
    · simp [hbody, bind, Except.bind] at h
    · simp [hbody, bind, Except.bind] at h
    simp only [hbody, bind, Except.bind] at h
    cases h
    rfl
  · cases h

theorem bodyIs_iff_chunked {url' method' : Bytes} (hmode : Chunked header)
    (hlen : (body ++ rest).length < 0x8000000000000000)
    (h : readbody F cut bodylimit url' method' header body rest =
      .ok (.request url method fields result, left')) :
    BodyIs F bodylimit header (body ++ rest) result ↔ ReadsLengths F header body rest := by
  constructor
  · intro hbody
    exact ⟨fun _ => (hbody.2.1 hmode).not_misread hlen, fun hnot => absurd hmode hnot⟩
  · intro hreads
    obtain ⟨behind, left₁, hloop⟩ := readbody_chunked cut hmode h
    obtain ⟨s, hs, hframed, hlimit⟩ := chunkedLoop_framed cut _ 0 [] body rest _ (by omega)
      (fun limit _ => Nat.zero_le limit) (hreads.1 hmode) hloop
    obtain rfl : result = s := hs
    refine ⟨fun limit hmem _ => ?_, fun _ => hframed, fun hnot => absurd hmode hnot⟩
    simpa using hlimit limit hmem

theorem bodyIs_iff_identity {url' method' : Bytes} (hF : F.Lawful) (hmode : ¬ Chunked header)
    (hlen : (body ++ rest).length < 0x8000000000000000)
    (h : readbody F cut bodylimit url' method' header body rest =
      .ok (.request url method fields result, left')) :
    BodyIs F bodylimit header (body ++ rest) result ↔ ReadsLengths F header body rest := by
  have hbody := readbody_identity cut hmode h
  constructor
  · rintro ⟨-, -, hdecl⟩
    refine ⟨fun hyes => absurd hyes hmode, fun _ field hfield => ?_⟩
    obtain ⟨v, k, rfl, hint | ⟨x, hx, hk⟩, hlength, hresult⟩ := hdecl hmode field hfield
    · refine ⟨v, k, rfl, .inl ⟨hint, ?_⟩⟩
      have := congrArg List.length hresult
      rw [length_take] at this
      omega
    · rw [Option.mem_def.1 hfield, fieldNumber_float hx] at hbody
      exact ⟨v, k, rfl, .inr ⟨x, hx, hk, identityBody_float hF hk hbody hlength⟩⟩
  · rintro ⟨-, hreads⟩
    have hcounts : ∀ field ∈ header contentLength, ∃ v k, field = .str v ∧ Declares F v k ∧
        ∃ length, F.fieldNumber (header contentLength) = some length ∧
          Counts F length k body.length := by
      intro field hfield
      rw [Option.mem_def.1 hfield]
      obtain ⟨v, k, rfl, ⟨hint, hk⟩ | ⟨x, hx, hk, hminus⟩⟩ := hreads hmode field hfield
      · exact ⟨v, k, rfl, .inl hint, _, fieldNumber_int hint hk, counts_int k _⟩
      · exact ⟨v, k, rfl, .inr ⟨x, hx, hk⟩, _, fieldNumber_float hx, counts_float hF hk hminus⟩
    refine ⟨fun limit hmem hpresent => ?_, fun hyes => absurd hyes hmode, fun _ field hfield => ?_⟩
    · obtain ⟨field, hfield⟩ := Option.ne_none_iff_exists'.1 (hpresent.resolve_left hmode)
      obtain ⟨v, k, -, -, length, hlength, hcount⟩ := hcounts field hfield
      rw [hlength] at hbody
      obtain ⟨hk, -, hlimits⟩ := identityBody_counts hcount hbody
      exact hk.trans_le (hlimits limit hmem)
    · obtain ⟨v, k, rfl, hdecl, length, hlength, hcount⟩ := hcounts field hfield
      rw [hlength] at hbody
      obtain ⟨hk, htake, -⟩ := identityBody_counts hcount hbody
      exact ⟨v, k, rfl, hdecl, hk, htake⟩

/-- No amount that is asked for is negative, and a body that is returned is the one that is declared,
below the limit, just when the lengths are read as they are written. -/
theorem readall_body_iff (hF : F.Lawful) (hlen : left.length < 0x8000000000000000) :
    readall F cut bodylimit left ≠ .error .negative ∧
      ∀ url method fields result left',
        readall F cut bodylimit left = .ok (.request url method fields result, left') →
        ∃ header body rest, Behind cut left header body rest ∧
          (BodyIs F bodylimit header (body ++ rest) result ↔ ReadsLengths F header body rest) := by
  refine ⟨readall_ne cut hF left, fun url method fields result left' h => ?_⟩
  obtain ⟨header, body, rest, url', method', hbehind, hbody⟩ := readall_request cut h
  have hle := hbehind.length_le
  refine ⟨header, body, rest, hbehind, ?_⟩
  by_cases hmode : Chunked header
  · exact bodyIs_iff_chunked cut hmode (hle.trans_lt hlen) hbody
  · exact bodyIs_iff_identity cut hF hmode (hle.trans_lt hlen) hbody

def noFloats : Floats where
  φ := Empty
  l_str2d _ := none
  gt x _ := x.elim
  le x _ := x.elim
  minus x _ := x
  toInteger x := x.elim
  version
    | .int k => k = 1
    | .float x => x.elim

theorem noFloats_lawful : noFloats.Lawful where
  gt_iff {x} := x.elim
  le_iff {x} := x.elim
  minus_nonneg {x} := x.elim

/-- A body of two bytes, the second of which is read behind the header. -/
theorem readall_body_iff_two : ∃ header body rest,
    Behind (fun _ => 36) (Bytes.ascii "POST / HTTP/1\r\ncontent-length: 2\r\n\r\nhi") header body rest ∧
      (BodyIs noFloats (some 4) header (body ++ rest) [104, 105] ↔
        ReadsLengths noFloats header body rest) :=
  (readall_body_iff (fun _ => 36) noFloats_lawful (by decide)).2 [47] (Bytes.ascii "POST") _ _ []
    (by rfl)

/-- The chunk has the size -8, and the limit is 4: what is returned is the buffer but for its last seven
bytes. -/
theorem not_limited_of_minus : ¬ Limited noFloats (fun _ => 200) (some 4) (Bytes.ascii
    "POST / HTTP/1\r\ntransfer-encoding: chunked\r\n\r\n-8\r\nhello world\r\n0\r\n\r\n") := by
  rintro ⟨-, h⟩
  obtain ⟨header, body, rest, ⟨request, lines, hrecv, hparse⟩, hlimit, -⟩ :=
    h [47] (Bytes.ascii "POST") _ (Bytes.ascii "hello world") [] rfl
  have hlines : request :: lines =
      [Bytes.ascii "POST / HTTP/1", Bytes.ascii "transfer-encoding: chunked"] := by
    cases hrecv
    rfl
  cases hlines
  cases hparse
  exact absurd (hlimit 4 rfl (.inl rfl)) (by decide)

end Request

end Http

end SkynetGame
