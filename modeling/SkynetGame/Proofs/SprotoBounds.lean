import SkynetGame.Proofs.SprotoUnpack
import Mathlib.Data.List.GetD

/-!
# The bounds of `sproto_unpack`

The tests are `srcsz < 0` where nothing is left at 0, so an input that ends one byte too early is not
noticed, and one that ends behind the tag `0xff` has its count read beyond the end. A run is written
as a whole or not at all.
-/

namespace SkynetGame

open List

namespace SprotoPack

/-- A segment or a run of the input, as it stands there. -/
inductive Piece
  | plain (header : UInt8) (bytes : Bytes)
  | run (count : UInt8) (bytes : Bytes)

def isSet (header : UInt8) (i : ℕ) : Bool := header >>> i.toUInt8 &&& 1 != 0

def marks (header : UInt8) (is : List ℕ) : ℕ := is.countP (isSet header)

def runLength (count : UInt8) : ℕ := (count.toNat + 1) * 8

/-- The bytes of a segment put to the places the tag has for them. -/
def spread (header : UInt8) : List ℕ → Bytes → Bytes
  | [], _ => []
  | i :: is, bytes =>
    if isSet header i then bytes.headD 0 :: spread header is bytes.tail
    else 0 :: spread header is bytes

/-- How many bytes come in front of the one behind the first `n` of a segment. -/
def place (header : UInt8) : List ℕ → ℕ → ℕ
  | [], _ => 0
  | i :: is, n =>
    if isSet header i then if n = 0 then 0 else place header is (n - 1) + 1
    else place header is n + 1

namespace Piece

def content : Piece → Bytes
  | plain header bytes => spread header (List.range 8) bytes
  | run _ bytes => bytes

def encode : Piece → Bytes
  | plain header bytes => header :: bytes
  | run count bytes => 0xff :: count :: bytes

def Valid : Piece → Prop
  | plain header bytes => header ≠ 0xff ∧ bytes.length = marks header (List.range 8)
  | run count bytes => bytes.length = runLength count

end Piece

/-- The pieces of an input, and what is left where it ends inside of one. -/
def cut : Bytes → List Piece × Bytes
  | [] => ([], [])
  | header :: rest =>
    if header = 0xff then
      if _h : rest = [] ∨ rest.tail.length < runLength (rest.headD 0) then ([], header :: rest)
      else
        let n := runLength (rest.headD 0)
        let r := cut (rest.tail.drop n)
        (.run (rest.headD 0) (rest.tail.take n) :: r.1, r.2)
    else
      let n := marks header (List.range 8)
      if rest.length < n then ([], header :: rest)
      else
        let r := cut (rest.drop n)
        (.plain header (rest.take n) :: r.1, r.2)
termination_by x => x.length
decreasing_by
  · simp only [List.length_drop, List.length_tail, List.length_cons]
    omega
  · simp only [List.length_drop, List.length_cons]
    omega

/-- What the pieces of an input stand for. -/
def unpacked (x : Bytes) : Bytes := (cut x).1.flatMap Piece.content

/-- What the code is expected to do with an input and a buffer of that size. -/
def InBounds (x : Bytes) (bufsz : ℕ) : Prop :=
  ∀ (behind buffer : ℕ → UInt8),
    (sprotoUnpackEnds (source x behind) x.length bufsz buffer).1 ≤ x.length ∧
    (sprotoUnpackEnds (source x behind) x.length bufsz buffer).2 ≤ bufsz ∧
    ((cut x).2 ≠ [] → sprotoUnpack (source x behind) x.length bufsz buffer = some none) ∧
    ((cut x).2 = [] → ∃ buf, sprotoUnpack (source x behind) x.length bufsz buffer =
        some (some ((unpacked x).length, buf)) ∧
      (∀ k < min (unpacked x).length bufsz, buf k = (unpacked x).getD k 0) ∧
      ∀ k, min (unpacked x).length bufsz ≤ k → buf k = buffer k)

/-- No run begins in front of the end of the buffer and ends behind it. -/
def NoneAcross (bufsz : ℕ) : ℕ → List Piece → Prop
  | _, [] => True
  | size, p :: ps =>
    (∀ count bytes, p = .run count bytes → ¬ (size < bufsz ∧ bufsz < size + bytes.length)) ∧
      NoneAcross bufsz (size + p.content.length) ps

/-- What is left breaks off inside of a run, or at least two bytes of a segment are missing, of which
the first would be written behind the end of the buffer. -/
def Noticed (bufsz size : ℕ) : Bytes → Prop
  | [] => True
  | header :: rest =>
    if header = 0xff then rest ≠ []
    else size + 8 ≤ INT_MAX ∧ rest.length + 2 ≤ marks header (List.range 8) ∧
      bufsz ≤ size + place header (List.range 8) rest.length

section Bits

variable {bufsz : ℕ} {buffer : ℕ → UInt8} (src : ℕ → UInt8)

/-- The state behind what stands for `out`, of which the first `w` bytes were written. -/
structure Behind (bufsz : ℕ) (buffer : ℕ → UInt8) (out : Bytes) (w : ℕ) (s : Unpack) : Prop where
  size : s.size = out.length
  le : w ≤ min out.length bufsz
  inside : out.length ≤ bufsz → w = out.length ∧ s.bufsz = bufsz - out.length ∧ s.pos = out.length
  outside : bufsz < out.length → s.bufsz ≤ 0
  written : ∀ k < w, s.buffer k = out.getD k 0
  kept : ∀ k, w ≤ k → s.buffer k = buffer k

theorem Behind.bufsz_pos {out : Bytes} {w : ℕ} {s : Unpack} (h : Behind bufsz buffer out w s) :
    0 < s.bufsz ↔ out.length < bufsz := by
  have h₁ := h.inside
  have h₂ := h.outside
  omega

theorem Behind.put {out : Bytes} {w : ℕ} {s t : Unpack} {b : UInt8}
    (h : Behind bufsz buffer out w s) (hsize : t.size = s.size + 1)
    (hpos : 0 < s.bufsz → t.bufsz = s.bufsz - 1 ∧ t.pos = s.pos + 1 ∧
      t.buffer = Function.update s.buffer s.pos b)
    (hneg : ¬ 0 < s.bufsz → t.bufsz = s.bufsz ∧ t.buffer = s.buffer) :
    ∃ w', Behind bufsz buffer (out ++ [b]) w' t ∧
      (w' = min (out.length + 1) bufsz ↔ w = min out.length bufsz) := by
  have hb := h.bufsz_pos
  have hle := h.le
  have hsz := h.size
  by_cases hlt : out.length < bufsz
  · obtain ⟨hw, hbz, hp⟩ := h.inside (by omega)
    obtain ⟨h₁, h₂, h₃⟩ := hpos (hb.2 hlt)
    refine ⟨w + 1, ⟨by simp [hsize, hsz], by simp; omega, fun _ => ?_, fun h => ?_, ?_, ?_⟩, by omega⟩
    · simp only [length_append, length_singleton]
      omega
    · simp only [length_append, length_singleton] at h
      omega
    · intro k hk
      rw [h₃, hp]
      rcases Nat.lt_succ_iff_lt_or_eq.1 hk with hk | rfl
      · rw [Function.update_of_ne (by omega), h.written k hk, getD_append _ _ _ _ (by omega)]
      · rw [hw, Function.update_self, getD_append_right _ _ _ _ (Nat.le_refl _), Nat.sub_self,
          getD_cons_zero]
    · intro k hk
      rw [h₃, Function.update_of_ne (by omega), h.kept k (by omega)]
  · obtain ⟨h₁, h₂⟩ := hneg fun h => hlt (hb.1 h)
    have hin := h.inside
    have hout := h.outside
    refine ⟨w, ⟨by simp [hsize, hsz], by simp; omega, fun h => ?_, fun _ => by omega, ?_, ?_⟩,
      by omega⟩
    · simp only [length_append, length_singleton] at h
      omega
    · intro k hk
      rw [h₂, h.written k hk, getD_append _ _ _ _ (by omega)]
    · intro k hk
      rw [h₂, h.kept k hk]

theorem isSet_iff {header : UInt8} {i : ℕ} : isSet header i = true ↔ header >>> i.toUInt8 &&& 1 ≠ 0 :=
  bne_iff_ne

theorem bit_clear {header : UInt8} {i : ℕ} (hi : isSet header i = false) {out : Bytes} {w : ℕ}
    {s : Unpack} (h : Behind bufsz buffer out w s) :
    ∃ t w', s.bit src header i = some t ∧ Behind bufsz buffer (out ++ [0]) w' t ∧
      (w' = min (out.length + 1) bufsz ↔ w = min out.length bufsz) ∧ t.src = s.src ∧
      t.srcsz = s.srcsz ∧ (s.bitEnds header i).1 = 0 ∧ (s.bitEnds header i).2 ≤ bufsz := by
  have hnot : ¬ header >>> i.toUInt8 &&& 1 ≠ 0 := fun hc => by simp [isSet_iff.2 hc] at hi
  have hb := h.bufsz_pos
  rw [Unpack.bit, if_neg hnot, Unpack.bitEnds, if_neg hnot]
  by_cases hz : 0 < s.bufsz
  · obtain ⟨w', hw', hiff⟩ := h.put (b := 0) (t := { s with
        buffer := Function.update s.buffer s.pos 0
        pos := s.pos + 1
        bufsz := s.bufsz - 1
        size := s.size + 1 }) rfl (fun _ => ⟨rfl, rfl, rfl⟩) fun h => absurd hz h
    have hin := h.inside
    simp only [if_pos hz]
    exact ⟨_, w', rfl, hw', hiff, rfl, rfl, trivial, by omega⟩
  · obtain ⟨w', hw', hiff⟩ := h.put (b := 0) (t := { s with size := s.size + 1 }) rfl
      (fun h => absurd h hz) fun _ => ⟨rfl, rfl⟩
    simp only [if_neg hz]
    exact ⟨_, w', rfl, hw', hiff, rfl, rfl, trivial, Nat.zero_le _⟩

theorem bit_set {header : UInt8} {i : ℕ} (hi : isSet header i = true) {out : Bytes} {w : ℕ}
    {s : Unpack} (h : Behind bufsz buffer out w s) (hs : 0 ≤ s.srcsz) :
    ∃ t w', s.bit src header i = some t ∧ Behind bufsz buffer (out ++ [src s.src]) w' t ∧
      (w' = min (out.length + 1) bufsz ↔ w = min out.length bufsz) ∧ t.src = s.src + 1 ∧
      t.srcsz = s.srcsz - 1 ∧
      (s.bitEnds header i).1 = (if out.length < bufsz then s.src + 1 else 0) ∧
      (s.bitEnds header i).2 ≤ bufsz := by
  have hset := isSet_iff.1 hi
  have hb := h.bufsz_pos
  rw [Unpack.bit, if_pos hset, if_neg (by omega), Unpack.bitEnds, if_pos hset, if_neg (by omega)]
  by_cases hz : 0 < s.bufsz
  · obtain ⟨w', hw', hiff⟩ := h.put (b := src s.src) (t := { s with
        buffer := Function.update s.buffer s.pos (src s.src)
        pos := s.pos + 1
        bufsz := s.bufsz - 1
        src := s.src + 1
        srcsz := s.srcsz - 1
        size := s.size + 1 }) rfl (fun _ => ⟨rfl, rfl, rfl⟩) fun h => absurd hz h
    have hin := h.inside
    simp only [if_pos hz, if_pos (hb.1 hz)]
    exact ⟨_, w', rfl, hw', hiff, rfl, rfl, trivial, by omega⟩
  · obtain ⟨w', hw', hiff⟩ := h.put (b := src s.src) (t := { s with
        src := s.src + 1
        srcsz := s.srcsz - 1
        size := s.size + 1 }) rfl (fun h => absurd h hz) fun _ => ⟨rfl, rfl⟩
    simp only [if_neg hz, if_neg (mt hb.2 hz)]
    exact ⟨_, w', rfl, hw', hiff, rfl, rfl, trivial, Nat.zero_le _⟩

theorem bit_none {header : UInt8} {i : ℕ} (hi : isSet header i = true) {s : Unpack}
    (hs : s.srcsz < 0) : s.bit src header i = none ∧ s.bitEnds header i = (0, 0) := by
  have hset := isSet_iff.1 hi
  rw [Unpack.bit, if_pos hset, if_pos hs, Unpack.bitEnds, if_pos hset, if_pos hs]
  exact ⟨rfl, rfl⟩

theorem marks_cons (header : UInt8) (i : ℕ) (is : List ℕ) :
    marks header (i :: is) = marks header is + if isSet header i then 1 else 0 :=
  countP_cons

theorem bits_whole {header : UInt8} : ∀ (is : List ℕ) {bytes out : Bytes} {w : ℕ} {s : Unpack},
    Behind bufsz buffer out w s → bytes.length = marks header is →
    slice src s.src bytes.length = bytes → (bytes.length : ℤ) ≤ s.srcsz →
    ∃ t w', is.foldlM (fun s i => s.bit src header i) s = some t ∧
      Behind bufsz buffer (out ++ spread header is bytes) w' t ∧
      (w' = min (out.length + is.length) bufsz ↔ w = min out.length bufsz) ∧
      t.src = s.src + bytes.length ∧ t.srcsz = s.srcsz - bytes.length ∧
      (s.bitsEnds src header is).1 ≤ s.src + bytes.length ∧ (s.bitsEnds src header is).2 ≤ bufsz
  | [], bytes, out, w, s, h, hlen, _, _ => by
    obtain rfl : bytes = [] := length_eq_zero_iff.1 hlen
    refine ⟨s, w, rfl, by rwa [spread, append_nil], Iff.rfl, rfl, by simp, ?_, ?_⟩
    · exact Nat.zero_le _
    · exact Nat.zero_le _
  | i :: is, bytes, out, w, s, h, hlen, hsrc, hsz => by
    rw [marks_cons] at hlen
    rw [foldlM_cons, Unpack.bitsEnds, spread]
    cases hi : isSet header i with
    | false =>
      obtain ⟨t, w₁, ht, hb, hw₁, hts, htz, he₁, he₂⟩ := bit_clear src hi h
      rw [if_neg (by simp [hi])] at hlen
      obtain ⟨u, w₂, hu, hb', hw₂, hus, huz, he₃, he₄⟩ := bits_whole is hb hlen
        (by rwa [hts]) (by rwa [htz])
      rw [ht, if_neg (by simp)]
      refine ⟨u, w₂, hu, ?_, ?_, by omega, by omega, ?_, ?_⟩
      · simpa using hb'
      · rw [length_append, length_singleton] at hw₂
        rw [length_cons, ← hw₁, ← hw₂]
        simp only [Nat.add_assoc, Nat.add_comm 1]
      · simp only [Ends.join]
        omega
      · simp only [Ends.join]
        omega
    | true =>
      rw [if_pos hi] at hlen
      obtain ⟨b, bytes, rfl⟩ := exists_cons_of_length_eq_add_one hlen
      simp only [length_cons] at hlen hsrc hsz ⊢
      rw [slice_succ, List.cons.injEq] at hsrc
      obtain ⟨t, w₁, ht, hb, hw₁, hts, htz, he₁, he₂⟩ := bit_set src hi h (by omega)
      obtain ⟨u, w₂, hu, hb', hw₂, hus, huz, he₃, he₄⟩ := bits_whole is hb
        (Nat.add_right_cancel hlen) (by rw [hts]; exact hsrc.2) (by omega)
      rw [ht, if_pos trivial]
      refine ⟨u, w₂, hu, ?_, ?_, by omega, by push_cast; omega, ?_, ?_⟩
      · rw [hsrc.1] at hb'
        simpa using hb'
      · rw [length_append, length_singleton] at hw₂
        rw [← hw₁, ← hw₂]
        simp only [Nat.add_assoc, Nat.add_comm 1]
      · simp only [Ends.join]
        rw [he₁]
        split_ifs <;> omega
      · simp only [Ends.join]
        omega

theorem bits_out (header : UInt8) : ∀ (is : List ℕ) {out : Bytes} {w : ℕ} {s : Unpack},
    Behind bufsz buffer out w s → s.srcsz = -1 →
    (s.bitsEnds src header is).1 = 0 ∧ (s.bitsEnds src header is).2 ≤ bufsz ∧
      (0 < marks header is → is.foldlM (fun s i => s.bit src header i) s = none) ∧
      (marks header is = 0 → ∃ t, is.foldlM (fun s i => s.bit src header i) s = some t ∧
        t.srcsz = -1)
  | [], out, w, s, _, hs => ⟨rfl, Nat.zero_le _, fun h => absurd h (Nat.lt_irrefl _), fun _ => ⟨s, rfl, hs⟩⟩
  | i :: is, out, w, s, h, hs => by
    rw [marks_cons, foldlM_cons, Unpack.bitsEnds]
    cases hi : isSet header i with
    | false =>
      obtain ⟨t, w₁, ht, hb, -, -, htz, he₁, he₂⟩ := bit_clear src hi h
      obtain ⟨h₁, h₂, h₃, h₄⟩ := bits_out header is hb (by rw [htz, hs])
      rw [ht]
      simp only [Ends.join]
      exact ⟨by omega, by omega, fun hm => h₃ (by simpa using hm), fun hm => h₄ (by simpa using hm)⟩
    | true =>
      obtain ⟨hn, he⟩ := bit_none src hi (show s.srcsz < 0 by omega)
      rw [hn, he]
      exact ⟨rfl, Nat.zero_le _, fun _ => rfl, fun hm => by simp at hm⟩

/-- The inner loop where bytes are missing: the first of them is read, unless it would be put behind
the end of the buffer, and only the second one is noticed. -/
theorem bits_broken {header : UInt8} : ∀ (is : List ℕ) {bytes out : Bytes} {w : ℕ} {s : Unpack},
    Behind bufsz buffer out w s → bytes.length < marks header is →
    (bytes.length : ℤ) = s.srcsz →
    ((s.bitsEnds src header is).1 ≤ s.src + bytes.length ↔
      bufsz ≤ out.length + place header is bytes.length) ∧
    (s.bitsEnds src header is).2 ≤ bufsz ∧
    (bytes.length + 2 ≤ marks header is → is.foldlM (fun s i => s.bit src header i) s = none) ∧
    (bytes.length + 1 = marks header is → ∃ t, is.foldlM (fun s i => s.bit src header i) s = some t ∧
      t.srcsz = -1)
  | [], bytes, out, w, s, _, hlen, _ => absurd hlen (Nat.not_lt_zero _)
  | i :: is, bytes, out, w, s, h, hlen, hsz => by
    rw [marks_cons] at hlen
    rw [marks_cons, foldlM_cons, Unpack.bitsEnds, place]
    cases hi : isSet header i with
    | false =>
      obtain ⟨t, w₁, ht, hb, -, hts, htz, he₁, he₂⟩ := bit_clear src hi h
      rw [if_neg (by simp [hi])] at hlen
      obtain ⟨h₁, h₂, h₃, h₄⟩ := bits_broken is hb hlen (by rw [htz, hsz])
      rw [ht, if_neg (by simp), if_neg (by simp)]
      rw [length_append, length_singleton, hts] at h₁
      simp only [Ends.join]
      refine ⟨?_, by omega, h₃, h₄⟩
      clear h₃ h₄
      omega
    | true =>
      rw [if_pos hi] at hlen
      obtain ⟨t, w₁, ht, hb, -, hts, htz, he₁, he₂⟩ := bit_set src hi h (by omega)
      rw [ht, if_pos rfl, if_pos rfl]
      cases bytes with
      | nil =>
        rw [length_nil] at hsz ⊢
        obtain ⟨h₁, h₂, h₃, h₄⟩ := bits_out src header is hb (by omega)
        rw [if_pos rfl]
        simp only [Ends.join]
        refine ⟨?_, by omega, fun hm => h₃ (by omega), fun hm => h₄ (by omega)⟩
        rw [he₁, h₁]
        split_ifs <;> omega
      | cons b bytes =>
        rw [length_cons] at hlen hsz ⊢
        have hlen' : bytes.length < marks header is := by omega
        have hsz' : (bytes.length : ℤ) = t.srcsz := by omega
        obtain ⟨h₁, h₂, h₃, h₄⟩ := bits_broken is hb hlen' hsz'
        rw [if_neg (by omega), Nat.add_sub_cancel]
        rw [length_append, length_singleton, hts] at h₁
        simp only [Ends.join]
        refine ⟨?_, by omega, fun hm => h₃ (by omega), fun hm => h₄ (by omega)⟩
        clear h₃ h₄
        rw [he₁]
        split_ifs <;> omega

end Bits

section Steps

variable {src : ℕ → UInt8} {bufsz : ℕ} {buffer : ℕ → UInt8}

theorem length_spread (header : UInt8) : ∀ (is : List ℕ) (bytes : Bytes),
    (spread header is bytes).length = is.length
  | [], _ => rfl
  | i :: is, bytes => by
    rw [spread]
    split_ifs
    · rw [length_cons, length_spread, length_cons]
    · rw [length_cons, length_spread, length_cons]

/-- What is a run longer than the room for it. -/
def Across (bufsz size : ℕ) (p : Piece) : Prop :=
  ∃ count bytes, p = .run count bytes ∧ size < bufsz ∧ bufsz < size + bytes.length

theorem step_piece {p : Piece} (hp : p.Valid) {out : Bytes} {w : ℕ} {s : Unpack}
    (h : Behind bufsz buffer out w s) (hsrc : slice src s.src p.encode.length = p.encode)
    (hsz : (p.encode.length : ℤ) ≤ s.srcsz) :
    (s.stepEnds src).1 ≤ s.src + p.encode.length ∧ (s.stepEnds src).2 ≤ bufsz ∧
    (INT_MAX < out.length + p.content.length → s.step src = none) ∧
    (out.length + p.content.length ≤ INT_MAX → ∃ t w', s.step src = some (some t) ∧
      Behind bufsz buffer (out ++ p.content) w' t ∧
      (w' = min (out.length + p.content.length) bufsz ↔
        w = min out.length bufsz ∧ ¬ Across bufsz out.length p) ∧
      t.src = s.src + p.encode.length ∧ t.srcsz = s.srcsz - p.encode.length) := by
  cases p with
  | plain header bytes =>
    obtain ⟨hh, hlen⟩ := hp
    have hc : (Piece.plain header bytes).content.length = 8 := length_spread ..
    rw [Piece.encode, length_cons] at hsrc hsz ⊢
    rw [slice_succ, List.cons.injEq] at hsrc
    have hb : Behind bufsz buffer out w { s with
        src := s.src + 1
        srcsz := s.srcsz - 1 } := ⟨h.size, h.le, h.inside, h.outside, h.written, h.kept⟩
    obtain ⟨t, w', ht, hbt, hw, hts, htz, he₁, he₂⟩ := bits_whole src (List.range 8) hb
      hlen hsrc.2 (by dsimp only; omega)
    rw [Unpack.stepEnds, Unpack.step, hsrc.1]
    dsimp only at hts htz he₁ ⊢
    have hsize := h.size
    rw [if_neg hh, if_neg hh, hc]
    refine ⟨?_, ?_, fun hlt => if_pos (by omega), fun hle => ?_⟩
    · simp only [Ends.join]
      omega
    · simp only [Ends.join]
      omega
    · rw [if_neg (by omega), ht]
      refine ⟨t, w', rfl, hbt, ?_, by omega, by push_cast; omega⟩
      have hnot : ¬ Across bufsz out.length (.plain header bytes) := by
        rintro ⟨_, _, hr, -⟩
        cases hr
      rw [and_iff_left hnot, ← hw]
      rfl
  | run count bytes =>
    have hlen : bytes.length = (count.toNat + 1) * 8 := hp
    have hc : (Piece.run count bytes).content = bytes := rfl
    simp only [Piece.encode, length_cons] at hsrc hsz ⊢
    rw [slice_succ, slice_succ, List.cons.injEq, List.cons.injEq] at hsrc
    obtain ⟨h₁, h₂, h₃⟩ := hsrc
    have hsize := h.size
    have hin := h.inside
    have hout := h.outside
    rw [Unpack.stepEnds, Unpack.step, h₁, hc]
    dsimp only
    have hA : ¬ s.srcsz - 1 < 0 := by omega
    have hB : ¬ s.srcsz - 1 < (bytes.length : ℤ) + 1 := by omega
    rw [if_pos rfl, if_pos rfl, h₂, ← hlen]
    simp only [if_neg hA, if_neg hB]
    refine ⟨?_, ?_, fun hlt => if_pos (by omega), fun hle => ?_⟩
    · simp only [Ends.join]
      split_ifs <;> omega
    · simp only [Ends.join]
      split_ifs <;> omega
    · rw [if_neg (by omega)]
      have hnot : ∀ {size : ℕ}, Across bufsz size (.run count bytes) ↔
          size < bufsz ∧ bufsz < size + bytes.length := by
        intro size
        constructor
        · rintro ⟨_, _, hr, hlt⟩
          cases hr
          exact hlt
        · exact fun h => ⟨count, bytes, rfl, h⟩
      have hle' := h.le
      rw [hnot]
      by_cases hroom : out.length + bytes.length ≤ bufsz
      · -- the run fits
        obtain ⟨hw, hbz, hpos⟩ := hin (by omega)
        rw [if_pos (show (bytes.length : ℤ) ≤ s.bufsz by omega), h₃, hpos]
        refine ⟨_, out.length + bytes.length, rfl, ⟨?_, ?_, fun _ => ?_, fun h => ?_, ?_, ?_⟩, ?_, ?_,
          ?_⟩
        · simp [hsize]
        · rw [length_append]
          omega
        · rw [length_append]
          dsimp only
          omega
        · rw [length_append] at h
          omega
        · intro k hk
          dsimp only
          by_cases hlt : k < out.length
          · rw [blit_of_lt _ _ hlt, h.written k (by omega), getD_append _ _ _ _ hlt]
          · obtain ⟨j, rfl⟩ : ∃ j, k = out.length + j := ⟨k - out.length, by omega⟩
            rw [blit_at _ _ (by omega), getD_append_right _ _ _ _ (by omega),
              Nat.add_sub_cancel_left, getD_eq_getElem _ _ (by omega)]
        · intro k hk
          dsimp only
          rw [blit_of_le _ _ (by omega), h.kept k (by omega)]
        · omega
        · dsimp only
          omega
        · dsimp only
          push_cast
          omega
      · rw [if_neg (show ¬ (bytes.length : ℤ) ≤ s.bufsz by omega)]
        refine ⟨_, w, rfl, ⟨?_, ?_, fun h => ?_, fun _ => ?_, ?_, ?_⟩, ?_, ?_, ?_⟩
        · simp [hsize]
        · rw [length_append]
          omega
        · rw [length_append] at h
          omega
        · dsimp only
          omega
        · intro k hk
          rw [h.written k hk, getD_append _ _ _ _ (by omega)]
        · exact h.kept
        · omega
        · dsimp only
          omega
        · dsimp only
          push_cast
          omega

/-- The bytes of pieces as they stand in the input. -/
def encoded (ps : List Piece) : Bytes := ps.flatMap Piece.encode

theorem encode_pos (p : Piece) : 0 < p.encode.length := by
  cases p <;> exact Nat.succ_pos _

theorem loop_pieces {rest : Bytes} : ∀ (ps : List Piece) (fuel : ℕ) {out : Bytes} {w : ℕ} {s : Unpack},
    (∀ p ∈ ps, p.Valid) → Behind bufsz buffer out w s →
    slice src s.src (encoded ps ++ rest).length = encoded ps ++ rest →
    s.srcsz = (encoded ps ++ rest).length → (encoded ps ++ rest).length ≤ fuel →
    (INT_MAX < out.length + (ps.flatMap Piece.content).length → out.length ≤ INT_MAX →
      unpackLoop src fuel s = none) ∧
    (out.length + (ps.flatMap Piece.content).length ≤ INT_MAX → ∃ fuel' t w',
      rest.length ≤ fuel' ∧ unpackLoop src fuel s = unpackLoop src fuel' t ∧
      Behind bufsz buffer (out ++ ps.flatMap Piece.content) w' t ∧
      (w' = min (out.length + (ps.flatMap Piece.content).length) bufsz ↔
        w = min out.length bufsz ∧ NoneAcross bufsz out.length ps) ∧
      t.src = s.src + (encoded ps).length ∧ t.srcsz = rest.length ∧
      (∀ n, t.src ≤ n → ((unpackEnds src fuel s).1 ≤ n ↔ (unpackEnds src fuel' t).1 ≤ n)) ∧
      ((unpackEnds src fuel s).2 ≤ bufsz ↔ (unpackEnds src fuel' t).2 ≤ bufsz))
  | [], fuel, out, w, s, _, h, _, hsz, hfuel => by
    simp only [encoded, flatMap_nil, nil_append, append_nil, length_nil,
      Nat.add_zero] at hsz hfuel ⊢
    exact ⟨fun h₁ h₂ => absurd h₁ (by omega), fun _ => ⟨fuel, s, w, hfuel, rfl, h,
      (and_iff_left trivial).symm, rfl, hsz, fun _ _ => Iff.rfl, Iff.rfl⟩⟩
  | p :: ps, fuel, out, w, s, hv, h, hsrc, hsz, hfuel => by
    have henc : encoded (p :: ps) = p.encode ++ encoded ps := flatMap_cons
    have hpos := encode_pos p
    rw [henc, append_assoc, length_append] at hsrc hsz hfuel
    rw [slice_add] at hsrc
    obtain ⟨h₁, h₂⟩ := append_inj hsrc (length_slice _ _ _)
    obtain ⟨he₁, he₂, hover, hstep⟩ := step_piece (hv p (by simp)) h h₁ (by omega)
    rw [flatMap_cons, length_append, henc, length_append]
    obtain ⟨fuel, rfl⟩ : ∃ n, fuel = n + 1 := ⟨fuel - 1, by omega⟩
    rw [unpackLoop, unpackEnds, if_pos (by omega), if_pos (by omega)]
    by_cases hmax : out.length + p.content.length ≤ INT_MAX
    · obtain ⟨t, w₁, ht, hb, hw₁, hts, htz⟩ := hstep hmax
      obtain ⟨hnone, hloop⟩ := loop_pieces ps fuel (fun p hp => hv p (by simp [hp])) hb
        (by rw [hts]; exact h₂) (by omega) (by omega)
      rw [length_append] at hnone hloop
      rw [ht]
      refine ⟨fun h _ => hnone (by omega) hmax, fun hle => ?_⟩
      obtain ⟨fuel', u, w₂, hf, hu, hb', hw₂, hus, huz, hr₁, hr₂⟩ := hloop (by omega)
      refine ⟨fuel', u, w₂, hf, hu, by rwa [append_assoc] at hb', ?_, by omega, huz, ?_, ?_⟩
      · rw [← Nat.add_assoc, hw₂, hw₁, NoneAcross, and_assoc]
        refine and_congr_right fun _ => and_congr_left fun _ => ?_
        constructor
        · rintro hno count bytes rfl hlt
          exact hno ⟨count, bytes, rfl, hlt⟩
        · rintro hno ⟨count, bytes, rfl, hlt⟩
          exact hno count bytes rfl hlt
      · intro n hn
        rw [← hr₁ n hn, Ends.join]
        dsimp only
        omega
      · rw [← hr₂, Ends.join]
        dsimp only
        omega
    · rw [hover (by omega)]
      exact ⟨fun _ _ => rfl, fun hle => by omega⟩

end Steps

section Cut

/-- What is left is nothing, or breaks off inside of a run or a segment. -/
def Broken : Bytes → Prop
  | [] => True
  | header :: rest =>
    if header = 0xff then rest = [] ∨ rest.tail.length < runLength (rest.headD 0)
    else rest.length < marks header (List.range 8)

theorem cut_spec : ∀ x : Bytes, x = encoded (cut x).1 ++ (cut x).2 ∧
    (∀ p ∈ (cut x).1, p.Valid) ∧ Broken (cut x).2
  | [] => by
    rw [cut]
    exact ⟨rfl, by simp, trivial⟩
  | header :: rest => by
    rw [cut]
    by_cases hh : header = 0xff
    · rw [if_pos hh]
      by_cases hr : rest = [] ∨ rest.tail.length < runLength (rest.headD 0)
      · rw [dif_pos hr]
        exact ⟨rfl, by simp, by rw [Broken, if_pos hh]; exact hr⟩
      · rw [dif_neg hr]
        rw [not_or] at hr
        obtain ⟨c, tl, hcons⟩ := exists_cons_of_ne_nil hr.1
        have hlt : (tl.drop (runLength c)).length < rest.length + 1 := by
          rw [hcons, length_drop, length_cons]
          omega
        obtain ⟨ih₁, ih₂, ih₃⟩ := cut_spec (tl.drop (runLength c))
        subst hcons
        simp only [tail_cons, headD_cons] at hr ⊢
        refine ⟨?_, ?_, ih₃⟩
        · rw [encoded, flatMap_cons, ← encoded, append_assoc, ← ih₁, Piece.encode, hh]
          simp
        · intro p hp
          rcases mem_cons.1 hp with rfl | hp
          · change (tl.take _).length = _
            rw [length_take]
            omega
          · exact ih₂ p hp
    · rw [if_neg hh]
      by_cases hr : rest.length < marks header (List.range 8)
      · rw [if_pos hr]
        exact ⟨rfl, by simp, by rw [Broken, if_neg hh]; exact hr⟩
      · rw [if_neg hr]
        obtain ⟨ih₁, ih₂, ih₃⟩ := cut_spec (rest.drop (marks header (List.range 8)))
        refine ⟨?_, ?_, ih₃⟩
        · rw [encoded, flatMap_cons, ← encoded, append_assoc, ← ih₁, Piece.encode]
          simp
        · intro p hp
          rcases mem_cons.1 hp with rfl | hp
          · refine ⟨hh, ?_⟩
            rw [length_take]
            omega
          · exact ih₂ p hp
termination_by x => x.length
decreasing_by
  · exact hlt
  · simp only [length_drop, length_cons]
    omega

section Rest

variable {src : ℕ → UInt8} {bufsz : ℕ} {buffer : ℕ → UInt8}

theorem loop_run {r : Bytes} {fuel : ℕ} {t : Unpack}
    (hr : r = [] ∨ r.tail.length < runLength (r.headD 0)) (hsrc : slice src t.src (r.length + 1) = 0xff :: r)
    (hsz : t.srcsz = (r.length + 1 : ℕ)) (hfuel : r.length + 1 ≤ fuel) :
    unpackLoop src fuel t = some none ∧ (unpackEnds src fuel t).2 = 0 ∧
      ((unpackEnds src fuel t).1 ≤ t.src + (r.length + 1) ↔ r ≠ []) := by
  obtain ⟨fuel, rfl⟩ : ∃ n, fuel = n + 1 := ⟨fuel - 1, by omega⟩
  rw [slice_succ, List.cons.injEq] at hsrc
  obtain ⟨h₁, h₂⟩ := hsrc
  have hA : ¬ t.srcsz - 1 < 0 := by omega
  rw [unpackLoop, unpackEnds, if_pos (by omega), if_pos (by omega), Unpack.step, Unpack.stepEnds, h₁]
  dsimp only
  rw [if_pos rfl, if_pos rfl]
  have hB : t.srcsz - 1 < ((((src (t.src + 1)).toNat + 1) * 8 : ℕ) : ℤ) + 1 := by
    cases r with
    | nil =>
      rw [length_nil] at hsz
      omega
    | cons c tl =>
      have hr' := hr.resolve_left (cons_ne_nil _ _)
      rw [length_cons, slice_succ, List.cons.injEq] at h₂
      rw [length_cons] at hsz
      rw [tail_cons, headD_cons, runLength, ← h₂.1] at hr'
      omega
  simp only [if_neg hA, if_pos hB, Ends.join]
  refine ⟨trivial, rfl, ?_⟩
  rw [← length_pos_iff]
  omega

theorem loop_plain {header : UInt8} {r out : Bytes} {w fuel : ℕ} {t : Unpack} (hh : header ≠ 0xff)
    (hr : r.length < marks header (List.range 8)) (h : Behind bufsz buffer out w t)
    (hsrc : src t.src = header) (hsz : t.srcsz = (r.length + 1 : ℕ)) (hfuel : r.length + 1 ≤ fuel) :
    (unpackLoop src fuel t = some none ∧ (unpackEnds src fuel t).1 ≤ t.src + (r.length + 1) ∧
        (unpackEnds src fuel t).2 ≤ bufsz) ↔
      out.length + 8 ≤ INT_MAX ∧ r.length + 2 ≤ marks header (List.range 8) ∧
        bufsz ≤ out.length + place header (List.range 8) r.length := by
  obtain ⟨fuel, rfl⟩ : ∃ n, fuel = n + 1 := ⟨fuel - 1, by omega⟩
  have hb : Behind bufsz buffer out w { t with
      src := t.src + 1
      srcsz := t.srcsz - 1 } := ⟨h.size, h.le, h.inside, h.outside, h.written, h.kept⟩
  have hsize := h.size
  obtain ⟨h₁, h₂, h₃, h₄⟩ := bits_broken src (List.range 8) hb hr (by dsimp only; omega)
  rw [unpackLoop, unpackEnds, if_pos (by omega), if_pos (by omega), Unpack.step, Unpack.stepEnds,
    hsrc]
  dsimp only at h₁ ⊢
  rw [if_neg hh, if_neg hh]
  by_cases hmax : INT_MAX < t.size + 8
  · rw [if_pos hmax]
    refine iff_of_false ?_ fun h => by omega
    rintro ⟨h, -⟩
    cases h
  · rw [if_neg hmax]
    by_cases hm : r.length + 2 ≤ marks header (List.range 8)
    · rw [h₃ hm]
      simp only [Ends.join]
      constructor
      · rintro ⟨-, hle, -⟩
        exact ⟨by omega, hm, h₁.1 (by omega)⟩
      · rintro ⟨-, -, hle⟩
        have := h₁.2 hle
        exact ⟨trivial, by omega, by omega⟩
    · obtain ⟨u, hu, huz⟩ := h₄ (by omega)
      rw [hu]
      refine iff_of_false ?_ fun h => hm h.2.1
      rintro ⟨hloop, -⟩
      dsimp only at hloop
      cases fuel with
      | zero => cases hloop
      | succ fuel =>
        rw [unpackLoop, if_neg (by omega)] at hloop
        cases hloop

end Rest

end Cut

theorem behind_start (bufsz srcsz : ℕ) (buffer : ℕ → UInt8) :
    Behind bufsz buffer [] 0 ⟨0, srcsz, 0, bufsz, 0, buffer⟩ :=
  ⟨rfl, Nat.zero_le _, fun _ => ⟨rfl, by simp, rfl⟩, fun h => absurd h (Nat.not_lt_zero _),
    fun _ h => absurd h (Nat.not_lt_zero _), fun _ _ => rfl⟩

section Run

variable (x : Bytes) (bufsz : ℕ) (behind buffer : ℕ → UInt8)

def start (srcsz : ℕ) : Unpack := ⟨0, srcsz, 0, bufsz, 0, buffer⟩

theorem run_pieces (hmax : (unpacked x).length ≤ INT_MAX) :
    ∃ fuel t w, (cut x).2.length ≤ fuel ∧
      unpackLoop (source x behind) x.length (start bufsz buffer x.length) =
        unpackLoop (source x behind) fuel t ∧
      Behind bufsz buffer (unpacked x) w t ∧
      (w = min (unpacked x).length bufsz ↔ NoneAcross bufsz 0 (cut x).1) ∧
      t.src + (cut x).2.length = x.length ∧
      slice (source x behind) t.src (cut x).2.length = (cut x).2 ∧ t.srcsz = (cut x).2.length ∧
      ((sprotoUnpackEnds (source x behind) x.length bufsz buffer).1 ≤ x.length ↔
        (unpackEnds (source x behind) fuel t).1 ≤ x.length) ∧
      ((sprotoUnpackEnds (source x behind) x.length bufsz buffer).2 ≤ bufsz ↔
        (unpackEnds (source x behind) fuel t).2 ≤ bufsz) := by
  obtain ⟨hx, hv, -⟩ := cut_spec x
  have hself := slice_source_self x behind
  have hlen : x.length = (encoded (cut x).1).length + (cut x).2.length := by
    rw [← length_append, ← hx]
  obtain ⟨-, hloop⟩ := loop_pieces (cut x).1 x.length hv
    (behind_start bufsz x.length buffer) (by rw [← hx]; exact hself) (by rw [← hx]) (by rw [← hx])
  obtain ⟨fuel, t, w, hf, hl, hb, hw, hts, htz, h₁, h₂⟩ := hloop
    (by rw [length_nil, Nat.zero_add]; exact hmax)
  rw [length_nil, Nat.zero_add, ← unpacked] at hw
  dsimp only at hts h₁
  refine ⟨fuel, t, w, hf, hl, hb, ?_, by omega, ?_, htz, h₁ _ (by omega), h₂⟩
  · rw [hw]
    simp
  · have hsplit := slice_add (source x behind) 0 (encoded (cut x).1).length (cut x).2.length
    rw [← hlen, hself] at hsplit
    have hin := append_inj (hx.symm.trans hsplit) (length_slice _ _ _).symm
    rw [hts]
    exact hin.2.symm

theorem run_overflow (hmax : INT_MAX < (unpacked x).length) :
    sprotoUnpack (source x behind) x.length bufsz buffer = none := by
  obtain ⟨hx, hv, -⟩ := cut_spec x
  obtain ⟨hnone, -⟩ := loop_pieces (cut x).1 x.length hv
    (behind_start bufsz x.length buffer) (by rw [← hx]; exact slice_source_self x behind)
    (by rw [← hx]) (by rw [← hx])
  have hover : INT_MAX < ([] : Bytes).length + ((cut x).1.flatMap Piece.content).length := by
    rw [length_nil, Nat.zero_add]
    exact hmax
  rw [sprotoUnpack, hnone hover (Nat.zero_le _)]
  rfl

theorem run_broken (hmax : (unpacked x).length ≤ INT_MAX) (hrest : (cut x).2 ≠ []) :
    (sprotoUnpack (source x behind) x.length bufsz buffer = some none ∧
        (sprotoUnpackEnds (source x behind) x.length bufsz buffer).1 ≤ x.length ∧
        (sprotoUnpackEnds (source x behind) x.length bufsz buffer).2 ≤ bufsz) ↔
      Noticed bufsz (unpacked x).length (cut x).2 := by
  obtain ⟨-, -, hbroken⟩ := cut_spec x
  obtain ⟨fuel, t, w, hf, hl, hb, -, hts, hsrc, htz, h₁, h₂⟩ := run_pieces x bufsz behind buffer hmax
  have hunpack : sprotoUnpack (source x behind) x.length bufsz buffer = some none ↔
      unpackLoop (source x behind) fuel t = some none := by
    change (unpackLoop _ _ (start bufsz buffer x.length)).map _ = _ ↔ _
    rw [hl]
    rcases unpackLoop (source x behind) fuel t with _ | _ | u <;> simp
  rw [hunpack, h₁, h₂]
  obtain ⟨header, r, hr⟩ := exists_cons_of_ne_nil hrest
  rw [hr] at hbroken hf hts hsrc htz ⊢
  rw [length_cons] at hf hts hsrc htz
  rw [Broken] at hbroken
  rw [Noticed, ← hts]
  by_cases hh : header = 0xff
  · rw [if_pos hh] at hbroken ⊢
    rw [hh] at hsrc
    obtain ⟨hn, hw, hrd⟩ := loop_run hbroken hsrc htz hf
    rw [hrd, hw]
    exact ⟨fun h => h.2.1, fun h => ⟨hn, h, Nat.zero_le _⟩⟩
  · rw [if_neg hh] at hbroken ⊢
    rw [slice_succ, List.cons.injEq] at hsrc
    exact loop_plain hh hbroken hb hsrc.1 htz hf

end Run

section Whole

variable {x : Bytes} {bufsz : ℕ}

theorem InBounds.noticed (h : InBounds x bufsz) (hmax : (unpacked x).length ≤ INT_MAX) :
    Noticed bufsz (unpacked x).length (cut x).2 := by
  by_cases hrest : (cut x).2 = []
  · rw [hrest]
    trivial
  · obtain ⟨h₁, h₂, hnone, -⟩ := h (fun _ => 0) fun _ => 0
    exact (run_broken x bufsz _ _ hmax hrest).1 ⟨hnone hrest, h₁, h₂⟩

theorem InBounds.length_le (h : InBounds x bufsz) : (unpacked x).length ≤ INT_MAX := by
  by_contra hmax
  have hnone := run_overflow x bufsz (fun _ => 0) (fun _ => 0) (by omega)
  obtain ⟨-, -, hbroken, hwhole⟩ := h (fun _ => 0) fun _ => 0
  rw [hnone] at hbroken hwhole
  by_cases hrest : (cut x).2 = []
  · obtain ⟨buf, hbuf, -⟩ := hwhole hrest
    cases hbuf
  · cases hbroken hrest

end Whole

end SprotoPack

end SkynetGame
