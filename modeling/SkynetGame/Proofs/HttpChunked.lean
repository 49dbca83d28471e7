import SkynetGame.Http

/-!
# A chunked body comes back

The line end in front of a chunk is the one behind the chunk before it, or the end of the header. So
behind the header there are just the chunks, each with a line end behind it. Wherever the stream is
split, a call leaves what it has not used in the buffer, and the buffer and the rest of the stream
are what has not been used yet.
-/

namespace SkynetGame

open List

namespace Http

open LuaNumber LuaPattern

variable (cut : ℕ → ℕ) {body left rest x : Bytes}

section Strings

theorem crln_eq : crln = [13, 10] := rfl

theorem blank_eq : blank = [13, 10, 13, 10] := rfl

theorem posrelat_of_nonneg {pos : ℤ} (h : 0 ≤ pos) (n : ℕ) : posrelat pos n = pos := if_pos h

theorem posrelat_neg_one (n : ℕ) : posrelat (-1) n = n := by
  unfold posrelat
  split_ifs <;> omega

theorem sub_take {n : ℕ} (h : n ≤ x.length) : sub x 1 n = x.take n := by
  rw [sub, posrelat_of_nonneg (by omega), posrelat_of_nonneg (by omega), max_self,
    min_eq_left (by omega)]
  simp

theorem sub_drop (n : ℕ) (x : Bytes) : sub x (n + 1) (-1) = x.drop n := by
  have hlen : ((x.length : ℤ) - (n + 1) + 1).toNat = (x.drop n).length := by
    rw [length_drop]
    omega
  rw [sub, posrelat_neg_one, posrelat_of_nonneg (by omega), max_eq_left (by omega), min_self]
  simp only [add_sub_cancel_right, Int.toNat_natCast, hlen, take_length]

end Strings

section Reading

theorem readsome_of_ne_nil (h : left ≠ []) :
    ∃ x y, x ≠ [] ∧ left = x ++ y ∧ readsome cut left = .ok (x, y) := by
  refine ⟨left.take (cut left.length + 1), left.drop (cut left.length + 1), ?_, ?_, if_neg h⟩
  · simpa using h
  · exact (take_append_drop _ _).symm

theorem readbytes_append (x y : Bytes) : readbytes x.length (x ++ y) = .ok (x, y) := by
  rw [readbytes, if_neg (by omega), if_neg (by simp)]
  simp

theorem exists_of_short (heq : body ++ left = x ++ rest) (h : body.length ≤ x.length) :
    ∃ z, x = body ++ z ∧ left = z ++ rest := by
  rcases append_eq_append_iff.1 heq with hz | ⟨z, rfl, rfl⟩
  · exact hz
  · obtain rfl : z = [] := length_eq_zero_iff.1 (by rw [length_append] at h; omega)
    exact ⟨[], by simp, rfl⟩

theorem exists_of_long (heq : body ++ left = x ++ rest) (h : x.length ≤ body.length) :
    ∃ z, body = x ++ z ∧ rest = z ++ left :=
  exists_of_short heq.symm h

theorem firstAt_crln (hx : 13 ∉ x) : FirstAt (x ++ (crln ++ rest)) crln x.length :=
  firstAt_of_not_mem hx

theorem drop_of_firstAt {text : Bytes} (hne : text ≠ []) {n : ℕ} (h : FirstAt body text n)
    (hx : FirstAt (x ++ (text ++ rest)) text x.length) (heq : body ++ left = x ++ (text ++ rest)) :
    n = x.length ∧ body.take n = x ∧ body.drop (n + text.length) ++ left = rest := by
  have hn : n = x.length := (heq ▸ h.append hne left : FirstAt _ text n).unique hx
  have hle := (length_of_prefix_drop h.1).resolve_left hne
  refine ⟨hn, ?_, ?_⟩
  · have htake : (body ++ left).take n = body.take n := take_append_of_le_length (by omega)
    rw [← htake, heq, hn, take_left]
  · rw [← drop_append_of_le_length hle, heq, hn, ← drop_drop, drop_left,
      drop_left]

theorem length_of_memFind {text : Bytes} (h : memFind body text = none)
    (hx : FirstAt (x ++ (text ++ rest)) text x.length) (heq : body ++ left = x ++ (text ++ rest)) :
    body.length < x.length + text.length := by
  by_contra hle
  rw [← heq, firstAt_append_iff (by omega), ← memFind_eq_some, h] at hx
  cases hx

end Reading

section Chunks

theorem chunksize_line (hx : 13 ∉ x) (hlen : x.length ≤ 126) : ∀ (n : ℕ) (body left : Bytes),
    left.length ≤ n → body ++ left = x ++ (crln ++ rest) →
    ∃ body' left', body' ++ left' = rest ∧ chunksize cut body left n =
      .ok ((tonumberBase 16 x).map fun sz => (sz, body'), left') := by
  intro n
  induction n with
  | zero =>
    intro body left hn heq
    obtain rfl : left = [] := length_eq_zero_iff.1 (by omega)
    have hfind : memFind body crln = some x.length := by
      rw [append_nil] at heq
      rw [memFind_eq_some, heq]
      exact firstAt_crln hx
    obtain ⟨-, htake, hdrop⟩ :=
      drop_of_firstAt (by decide) (memFind_eq_some.1 hfind) (firstAt_crln hx) heq
    refine ⟨_, [], hdrop, ?_⟩
    rw [chunksize, hfind]
    simp only [htake, crln_eq, length_cons, length_nil]
  | succ n ih =>
    intro body left hn heq
    rw [chunksize]
    rcases hfind : memFind body crln with _ | f
    · have hlt := length_of_memFind hfind (firstAt_crln hx) heq
      have hne : left ≠ [] := by
        rintro rfl
        have := congrArg List.length heq
        simp only [append_nil, length_append] at this
        omega
      obtain ⟨y, z, hy, rfl, hread⟩ := readsome_of_ne_nil cut hne
      have hshort : ¬ 128 < body.length := by
        rw [crln_eq, length_cons, length_cons, length_nil] at hlt
        omega
      have hz : z.length ≤ n := by
        have := length_pos_iff.2 hy
        rw [length_append] at hn
        omega
      obtain ⟨body', left', hrest, hrun⟩ := ih (body ++ y) z hz (by rw [append_assoc, heq])
      refine ⟨body', left', hrest, ?_⟩
      simp only [if_neg hshort, hread]
      exact hrun
    · obtain ⟨-, htake, hdrop⟩ :=
        drop_of_firstAt (by decide) (memFind_eq_some.1 hfind) (firstAt_crln hx) heq
      refine ⟨_, left, hdrop, ?_⟩
      simp only [htake, crln_eq, length_cons, length_nil]

theorem readcrln_line (heq : body ++ left = crln ++ rest) :
    ∃ body' left', body' ++ left' = rest ∧ readcrln body left = .ok (some body', left') := by
  rcases Nat.lt_or_ge body.length crln.length with hlt | hle
  · obtain ⟨z, hz, rfl⟩ := exists_of_short heq hlt.le
    have hlen : (2 : ℤ) - body.length = z.length := by
      have := congrArg List.length hz
      rw [crln_eq, length_append] at this
      simp only [length_cons, length_nil] at this
      omega
    refine ⟨[], rest, rfl, ?_⟩
    rw [readcrln, hlen, readbytes_append]
    exact (if_neg (Nat.not_le.2 hlt)).trans (if_pos hz.symm)
  · obtain ⟨z, rfl, rfl⟩ := exists_of_long heq hle
    refine ⟨z, left, rfl, ?_⟩
    rw [readcrln]
    exact (if_pos hle).trans (if_pos rfl)

/-- What a chunk is made of behind the line end in front of it. -/
def chunkText (s : Bytes) : Bytes := numeral 16 s.length ++ (crln ++ (s ++ crln))

theorem size_line {n : ℕ} (hn : n < 0x8000000000000000) :
    13 ∉ numeral 16 n ∧ (numeral 16 n).length ≤ 126 ∧
      tonumberBase 16 (numeral 16 n) = some (n : ℤ) := by
  refine ⟨fun hmem => ?_, ?_, tonumberBase_numeral (by decide) (by decide) hn⟩
  · have := mem_numeral (by decide) (by decide) hmem
    revert this
    decide
  · have hle : (numeral 16 n).length ≤ 16 :=
      length_numeral_le (by decide) (by decide) (hn.trans (by decide))
    omega

theorem chunkedLoop_chunk {s result : Bytes} {size n : ℕ} {bodylimit : Option ℕ} (hs : s ≠ [])
    (hsize : size + s.length < 0x8000000000000000)
    (hlimit : ∀ limit ∈ bodylimit, size + s.length ≤ limit)
    (heq : body ++ left = chunkText s ++ rest) :
    ∃ body' left', body' ++ left' = rest ∧
      chunkedLoop cut bodylimit result size body left (n + 1) =
        chunkedLoop cut bodylimit (result ++ s) (size + s.length : ℕ) body' left' n := by
  obtain ⟨hnot, hlen, hnum⟩ := size_line (show s.length < 0x8000000000000000 by omega)
  rw [chunkText, append_assoc, append_assoc, append_assoc] at heq
  obtain ⟨body₁, left₁, heq₁, hsz⟩ := chunksize_line cut hnot hlen _ _ _ le_rfl heq
  have hzero : (s.length : ℤ) ≠ 0 := by simpa using hs
  have hwrap : wrap ((size : ℤ) + s.length) = (size + s.length : ℕ) := by
    rw [← Nat.cast_add, wrap_of_lt hsize]
  have hok : ¬ exceeds bodylimit (size + s.length : ℕ) = true := by
    rw [exceeds, Option.any_eq_true]
    rintro ⟨limit, hmem, hlt⟩
    have := hlimit limit hmem
    simp only [decide_eq_true_eq, Nat.cast_lt] at hlt
    omega
  rcases Nat.lt_or_ge body₁.length s.length with hlt | hle
  · obtain ⟨z, hz, rfl⟩ := exists_of_short heq₁ hlt.le
    obtain ⟨body', left', hrest, hcrln⟩ := readcrln_line (nil_append (crln ++ rest))
    have hpad : (s.length : ℤ) - body₁.length = z.length := by
      rw [hz, length_append]
      omega
    refine ⟨body', left', hrest, ?_⟩
    simp only [chunkedLoop, hsz, hnum, Option.map_some, bind, Except.bind, if_neg hzero, hwrap,
      if_neg hok, Nat.cast_le, if_neg (Nat.not_le.2 hlt), hpad, readbytes_append, hcrln]
    rw [append_assoc, ← hz]
  · obtain ⟨z, rfl, hz⟩ := exists_of_long heq₁ hle
    obtain ⟨body', left', hrest, hcrln⟩ := readcrln_line hz.symm
    refine ⟨body', left', hrest, ?_⟩
    simp only [chunkedLoop, hsz, hnum, Option.map_some, bind, Except.bind, if_neg hzero, hwrap,
      if_neg hok, Nat.cast_le, if_pos hle, sub_take hle, sub_drop, take_left, drop_left,
      hcrln]

theorem chunkedLoop_zero {result : Bytes} {size n : ℕ} {bodylimit : Option ℕ}
    (heq : body ++ left = 48 :: (crln ++ rest)) :
    ∃ body' left', body' ++ left' = rest ∧
      chunkedLoop cut bodylimit result size body left (n + 1) =
        .ok (some (result, body'), left') := by
  obtain ⟨body', left', hrest, hsz⟩ :=
    chunksize_line cut (x := [48]) (by decide) (by decide) _ _ _ le_rfl heq
  have hnum : tonumberBase 16 [48] = some 0 := by decide
  refine ⟨body', left', hrest, ?_⟩
  simp only [chunkedLoop, hsz, hnum, Option.map_some, bind, Except.bind, if_true]

theorem chunkedLoop_chunks {bodylimit : Option ℕ} : ∀ (ss : List Bytes) (n : ℕ) (result : Bytes)
    (size : ℕ) (body left : Bytes), (∀ s ∈ ss, s ≠ []) →
    size + ss.flatten.length < 0x8000000000000000 →
    (∀ limit ∈ bodylimit, size + ss.flatten.length ≤ limit) → ss.length < n →
    body ++ left = ss.flatMap chunkText ++ 48 :: (crln ++ rest) →
    ∃ body' left', body' ++ left' = rest ∧ chunkedLoop cut bodylimit result size body left n =
      .ok (some (result ++ ss.flatten, body'), left')
  | [], n + 1, result, size, body, left, _, _, _, _, heq => by
    rw [flatten_nil, append_nil]
    exact chunkedLoop_zero cut heq
  | s :: ss, n + 1, result, size, body, left, hne, hsize, hlimit, hn, heq => by
    rw [flatten_cons, length_append] at hsize hlimit
    rw [flatMap_cons, append_assoc] at heq
    have hsize' : size + s.length < 0x8000000000000000 := by omega
    have hlimit' : ∀ limit ∈ bodylimit, size + s.length ≤ limit := fun limit hmem => by
      have := hlimit limit hmem
      omega
    obtain ⟨body₁, left₁, heq₁, hstep⟩ :=
      chunkedLoop_chunk cut (hne s mem_cons_self) hsize' hlimit' heq
    obtain ⟨body', left', hrest, hrun⟩ := chunkedLoop_chunks ss n (result ++ s) (size + s.length)
      body₁ left₁ (fun t ht => hne t (mem_cons_of_mem _ ht)) (by omega)
      (fun limit hmem => by have := hlimit limit hmem; omega) (by simpa using hn) heq₁
    exact ⟨body', left', hrest, by rw [hstep, hrun, flatten_cons, append_assoc]⟩

end Chunks

section Header

theorem memFind_blank_of_short (h : x.length < 4) : memFind x blank = none := by
  refine memFind_eq_none.2 fun n hn => ?_
  have := (length_of_prefix_drop hn).resolve_left (by decide)
  rw [blank_eq] at this
  simp only [length_cons, length_nil] at this
  omega

theorem recvheaderLoop_crln : ∀ (n : ℕ) (header left : Bytes), left ≠ [] → left.length ≤ n →
    header ++ left = crln → recvheaderLoop cut header left n = .ok (some ([], []), [])
  | 0, _, left, hne, hn, _ => absurd (length_eq_zero_iff.1 (Nat.le_zero.1 hn)) hne
  | n + 1, header, left, hne, hn, heq => by
    obtain ⟨x, y, hx, rfl, hread⟩ := readsome_of_ne_nil cut hne
    have hpos := length_pos_iff.2 hx
    rw [← append_assoc] at heq
    have hlen := congrArg List.length heq
    simp only [crln_eq, length_append, length_cons, length_nil] at hlen hn
    have hsmall : ¬ 8192 < (header ++ x).length := by
      rw [length_append]
      omega
    have hfind : findFrom (header ++ x) ((header ++ x).length - (x.length + 3)) blank = none := by
      rw [findFrom, memFind_blank_of_short, Option.map_none]
      rw [length_drop, length_append]
      omega
    simp only [recvheaderLoop, hread, bind, Except.bind, if_neg hsmall, hfind]
    rcases y.eq_nil_or_concat with rfl | ⟨y, b, rfl⟩
    · rw [append_nil] at heq
      rw [heq]
      rfl
    · have htake : (header ++ x).take 2 ≠ crln := by
        intro h
        have := congrArg List.length h
        simp only [length_append, length_take, crln_eq, length_cons, length_nil,
          concat_eq_append] at this hlen
        omega
      rw [if_neg htake]
      exact recvheaderLoop_crln n _ _ (by simp) (by omega) heq

theorem recvheader_crln (heq : body ++ left = crln) :
    recvheader cut body left = .ok (some ([], []), []) := by
  have hlen := congrArg List.length heq
  simp only [crln_eq, length_append, length_cons, length_nil] at hlen
  unfold recvheader
  split_ifs with h
  · obtain rfl : left = [] := length_eq_zero_iff.1 (by omega)
    rw [append_nil] at heq
    rw [heq]
    rfl
  · rw [memFind_blank_of_short (by omega)]
    refine recvheaderLoop_crln cut _ _ _ ?_ le_rfl heq
    rintro rfl
    rw [append_nil] at heq
    exact h (by rw [heq]; decide)

theorem findFrom_eq_memFind {text : Bytes} {k : ℕ} (h : ∀ i < k, ¬ text <+: x.drop i) :
    findFrom x k text = memFind x text := by
  rcases hx : memFind x text with _ | e
  · have hdrop : memFind (x.drop k) text = none := by
      refine memFind_eq_none.2 fun n => ?_
      rw [drop_drop]
      exact memFind_eq_none.1 hx _
    rw [findFrom, hdrop, Option.map_none]
  · have hfirst := memFind_eq_some.1 hx
    obtain ⟨n, rfl⟩ : ∃ n, e = k + n :=
      Nat.exists_eq_add_of_le (Nat.le_of_not_lt fun hlt => h e hlt hfirst.1)
    rw [findFrom, memFind_eq_some.2 ((firstAt_drop_iff h).2 hfirst), Option.map_some, Nat.add_comm]

theorem findFrom_blank {header : Bytes} (h : memFind header blank = none) (y : Bytes) :
    findFrom (header ++ y) ((header ++ y).length - (y.length + 3)) blank =
      memFind (header ++ y) blank := by
  refine findFrom_eq_memFind fun i hi => ?_
  rw [length_append] at hi
  rw [prefix_drop_append_iff (by rw [blank_eq]; simp only [length_cons, length_nil]; omega)]
  exact memFind_eq_none.1 h i

theorem recvheaderLoop_header {lines : List Bytes} (hx : FirstAt (x ++ (blank ++ rest)) blank x.length)
    (hstart : ¬ crln <+: x ++ (blank ++ rest)) : ∀ (n : ℕ) (header left : Bytes) {left' : Bytes},
    memFind header blank = none → header ++ left = x ++ (blank ++ rest) →
    recvheaderLoop cut header left n = .ok (some (lines, body), left') → body ++ left' = rest
  | 0, _, _, _, _, _, h => by cases h
  | n + 1, header, left, left', hnone, heq, h => by
    rcases eq_or_ne left [] with rfl | hne
    · cases h
    obtain ⟨y, z, -, rfl, hread⟩ := readsome_of_ne_nil cut hne
    rw [← append_assoc] at heq
    simp only [recvheaderLoop, hread, bind, Except.bind, findFrom_blank hnone] at h
    by_cases hlimit : 8192 < (header ++ y).length
    · rw [if_pos hlimit] at h
      cases h
    rw [if_neg hlimit] at h
    rcases hfind : memFind (header ++ y) blank with _ | e
    · simp only [hfind] at h
      by_cases hcrln : (header ++ y).take 2 = crln
      · refine absurd ?_ hstart
        rw [← hcrln, ← heq]
        exact (List.take_prefix _ _).trans (prefix_append _ _)
      · rw [if_neg hcrln] at h
        exact recvheaderLoop_header hx hstart n _ _ hfind heq h
    · simp only [hfind] at h
      cases h
      exact (drop_of_firstAt (by decide) (memFind_eq_some.1 hfind) hx heq).2.2

theorem recvheader_header {lines : List Bytes} (hx : FirstAt (x ++ (blank ++ rest)) blank x.length)
    (hstart : ¬ crln <+: x ++ (blank ++ rest))
    (h : recvheader cut [] (x ++ (blank ++ rest)) = .ok (some (lines, body), left)) :
    body ++ left = rest := by
  have hnone : memFind [] blank = none := memFind_blank_of_short (by decide)
  rw [recvheader, if_neg (by decide), hnone] at h
  exact recvheaderLoop_header cut hx hstart _ _ _ hnone rfl h

end Header

section Written

variable {header : List (Bytes × Field)} {ss : List Bytes} {statuscode : ℕ}

/-- What is written in front of the chunks. -/
def head (statuscode : ℕ) (header : List (Bytes × Field)) : Bytes :=
  statusLine statuscode ++ (header.flatMap fieldLines).flatten ++
    Bytes.ascii "transfer-encoding: chunked\r\n"

theorem exists_head (statuscode : ℕ) (header : List (Bytes × Field)) :
    ∃ x, head statuscode header = x ++ crln ∧ x.head? = some 72 := by
  refine ⟨statusLine statuscode ++ (header.flatMap fieldLines).flatten ++
    Bytes.ascii "transfer-encoding: chunked", ?_, rfl⟩
  rw [head, append_assoc _ _ crln]
  rfl

theorem exists_chunks : ∀ ss : List Bytes, ∃ ts : List Bytes, (∀ t ∈ ts, t ≠ []) ∧
    ts.flatten = ss.flatten ∧ (ss.flatMap chunk).flatten ++ Bytes.ascii "\r\n0\r\n\r\n" =
      crln ++ (ts.flatMap chunkText ++ 48 :: (crln ++ crln))
  | [] => ⟨[], by simp, rfl, rfl⟩
  | s :: ss => by
    obtain ⟨ts, hne, hflat, htext⟩ := exists_chunks ss
    rcases eq_or_ne s [] with rfl | hs
    · exact ⟨ts, hne, by simpa using hflat, by simpa [chunk] using htext⟩
    · refine ⟨s :: ts, by simpa [hs] using hne, by simp [hflat], ?_⟩
      rw [flatMap_cons, flatMap_cons, flatten_append, append_assoc, htext,
        chunk, if_neg hs, chunkText]
      simp

theorem writeall_func (statuscode : ℕ) (header : List (Bytes × Field)) (ss : List Bytes) :
    (writeall statuscode header (.func ss)).flatten = head statuscode header ++
      ((ss.flatMap chunk).flatten ++ Bytes.ascii "\r\n0\r\n\r\n") := by
  simp [writeall, bodyLines, head]

theorem length_le_chunks : ∀ ss : List Bytes, ss.length ≤ (ss.flatMap chunkText).length
  | [] => le_rfl
  | s :: ss => by
    have ih := length_le_chunks ss
    simp only [flatMap_cons, chunkText, crln_eq, length_append, length_cons] at ih ⊢
    omega

theorem firstAt_blank (h : ¬ blank <:+: x ++ crln) :
    FirstAt (x ++ (blank ++ rest)) blank x.length := by
  have hsplit : x ++ (blank ++ rest) = x ++ crln ++ (crln ++ rest) := by
    rw [blank_eq, crln_eq]
    simp
  refine ⟨by rw [drop_left]; exact prefix_append _ _, fun m hm hpre => ?_⟩
  rcases Nat.lt_or_ge (x.length + 2) (m + 4) with hlt | hle
  · -- only the last byte is in front of the line end: the line feeds are out of place
    obtain ⟨y, b, rfl⟩ := eq_nil_or_concat x |>.resolve_left (by rintro rfl; simp at hm)
    rw [concat_eq_append, length_append, length_singleton] at hm hlt
    obtain rfl : m = y.length := by omega
    rw [concat_eq_append, append_assoc, drop_left, blank_eq] at hpre
    simp at hpre
  · rw [hsplit, prefix_drop_append_iff (by simpa [crln_eq, blank_eq] using hle)] at hpre
    exact h (hpre.isInfix.trans (drop_suffix _ _).isInfix)

/-- What `write_response` writes of a function's strings is what `recvchunkedbody` reads behind the
header, to the end of the stream and no further. -/
theorem recvchunkedbody_writeall {lines : List Bytes} {table : Header} {bodylimit : Option ℕ}
    (hhead : ¬ blank <:+: head statuscode header) (hlen : ss.flatten.length < 0x8000000000000000)
    (hlimit : ∀ limit ∈ bodylimit, ss.flatten.length ≤ limit)
    (h : recvheader cut [] (writeall statuscode header (.func ss)).flatten =
      .ok (some (lines, body), left)) :
    recvchunkedbody cut bodylimit table body left = .ok (some (ss.flatten, some table), []) := by
  obtain ⟨x, hx, hfirst⟩ := exists_head statuscode header
  obtain ⟨ts, hne, hflat, htext⟩ := exists_chunks ss
  have hsplit : (writeall statuscode header (.func ss)).flatten =
      x ++ (blank ++ (ts.flatMap chunkText ++ 48 :: (crln ++ crln))) := by
    rw [writeall_func, htext, hx, blank_eq, crln_eq]
    simp
  rw [hsplit] at h
  rw [hx] at hhead
  have hstart : ¬ crln <+: x ++ (blank ++ (ts.flatMap chunkText ++ 48 :: (crln ++ crln))) := by
    obtain ⟨r, rfl⟩ := List.head?_eq_some_iff.1 hfirst
    rw [crln_eq, List.cons_append, List.cons_prefix_cons]
    rintro ⟨h, -⟩
    cases h
  have hrest := recvheader_header cut (firstAt_blank hhead) hstart h
  have hfuel : ts.length < body.length + left.length := by
    have := length_le_chunks ts
    rw [← List.length_append, hrest, List.length_append, List.length_cons]
    omega
  obtain ⟨body', left', hcrln, hloop⟩ := chunkedLoop_chunks cut ts (body.length + left.length) [] 0
    body left hne (by rwa [hflat, Nat.zero_add]) (by rwa [hflat, Nat.zero_add]) hfuel hrest
  rw [Nat.cast_zero, List.nil_append, hflat] at hloop
  simp only [recvchunkedbody, hloop, recvheader_crln cut hcrln, parseheader, bind, Except.bind]

/-- Two strings and an empty one, of which seven bytes are there when the header has been read. -/
theorem recvchunkedbody_writeall_two :
    recvheader (fun _ => 61) [] (writeall 204 [] (.func [[104, 105], [], [33]])).flatten =
      .ok (some ([Bytes.ascii "HTTP/1.1 204 No Content", Bytes.ascii "transfer-encoding: chunked"],
        Bytes.ascii "2\r\nhi\r\n"), Bytes.ascii "1\r\n!\r\n0\r\n\r\n") ∧
    recvchunkedbody (fun _ => 61) (some 3) (fun _ => none) (Bytes.ascii "2\r\nhi\r\n")
      (Bytes.ascii "1\r\n!\r\n0\r\n\r\n") =
      .ok (some ([104, 105, 33], some fun _ => none), []) := by
  have h : recvheader (fun _ => 61) [] (writeall 204 [] (.func [[104, 105], [], [33]])).flatten =
      .ok (some ([Bytes.ascii "HTTP/1.1 204 No Content", Bytes.ascii "transfer-encoding: chunked"],
        Bytes.ascii "2\r\nhi\r\n"), Bytes.ascii "1\r\n!\r\n0\r\n\r\n") := by
    rfl
  have hhead : ¬ blank <:+: head 204 [] := by
    decide
  exact ⟨h, recvchunkedbody_writeall _ hhead (by decide) (by simp) h⟩

end Written

end Http

end SkynetGame
