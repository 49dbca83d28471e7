import SkynetGame.SprotoPack
import Mathlib.Tactic.IntervalCases

/-!
# What `sproto_pack` writes

A packed stream is a list of blocks: a segment behind its tag, without its zeros, or a run of
segments behind its length. `blocks x` is the packing of `x`, worked out on the segments alone, and
`sproto_pack` writes it whatever the buffer's size is. Only where the last segment is a padded one
and completes a run of 256 does it read the padding from behind `x`.
-/

namespace SkynetGame

open Function List Option

namespace SprotoPack

/-- The tag of a segment, from its byte `i` on. -/
def tagFrom : ℕ → List Bool → UInt8 → UInt8
  | _, [], h => h
  | i, b :: bs, h => tagFrom (i + 1) bs (if b then h ||| 1 <<< i.toUInt8 else h)

def tag (seg : Bytes) : UInt8 := tagFrom 0 (seg.map (· ≠ 0)) 0

/-- How many bytes of a segment are not zero. -/
def notzero (seg : Bytes) : ℕ := seg.countP (· ≠ 0)

theorem notzero_cons (b : UInt8) (bs : Bytes) :
    notzero (b :: bs) = (if b ≠ 0 then 1 else 0) + notzero bs := by
  rw [notzero, countP_cons, Nat.add_comm]
  simp [notzero]

theorem notzero_le (seg : Bytes) : notzero seg ≤ seg.length := countP_le_length

theorem tag_bits : ∀ b₀ b₁ b₂ b₃ b₄ b₅ b₆ b₇ : Bool,
    let bs := [b₀, b₁, b₂, b₃, b₄, b₅, b₆, b₇]
    (∀ i : Fin 8, (tagFrom 0 bs 0 >>> i.val.toUInt8 &&& 1 ≠ 0) = bs[i]) ∧
      (tagFrom 0 bs 0 = 0xff → false ∉ bs) := by
  decide

theorem exists_eight {α : Type*} {l : List α} (h : l.length = 8) :
    ∃ a₀ a₁ a₂ a₃ a₄ a₅ a₆ a₇, l = [a₀, a₁, a₂, a₃, a₄, a₅, a₆, a₇] := by
  rcases l with _ | ⟨a₀, _ | ⟨a₁, _ | ⟨a₂, _ | ⟨a₃, _ | ⟨a₄, _ | ⟨a₅, _ | ⟨a₆, _ | ⟨a₇, _ | _⟩⟩⟩⟩⟩⟩⟩⟩ <;>
    simp at h
  exact ⟨a₀, a₁, a₂, a₃, a₄, a₅, a₆, a₇, rfl⟩

theorem tag_bit {seg : Bytes} (h : seg.length = 8) {i : ℕ} (hi : i < 8) :
    tag seg >>> i.toUInt8 &&& 1 ≠ 0 ↔ seg.getD i 0 ≠ 0 := by
  obtain ⟨a₀, a₁, a₂, a₃, a₄, a₅, a₆, a₇, rfl⟩ := exists_eight h
  have hb := (tag_bits (a₀ ≠ 0) (a₁ ≠ 0) (a₂ ≠ 0) (a₃ ≠ 0) (a₄ ≠ 0) (a₅ ≠ 0) (a₆ ≠ 0) (a₇ ≠ 0)).1
    ⟨i, hi⟩
  simp only [tag, map_cons, map_nil]
  rw [hb]
  interval_cases i <;> simp

theorem tag_ne {seg : Bytes} (h : seg.length = 8) (hz : 0 ∈ seg) : tag seg ≠ 0xff := by
  obtain ⟨a₀, a₁, a₂, a₃, a₄, a₅, a₆, a₇, rfl⟩ := exists_eight h
  intro ht
  have hb := (tag_bits (a₀ ≠ 0) (a₁ ≠ 0) (a₂ ≠ 0) (a₃ ≠ 0) (a₄ ≠ 0) (a₅ ≠ 0) (a₆ ≠ 0) (a₇ ≠ 0)).2
    ht
  simp at hb hz
  tauto

inductive Block
  | plain (seg : Bytes)
  | full (segs : Bytes)

namespace Block

def content : Block → Bytes
  | plain seg => seg
  | full segs => segs

def encode : Block → Bytes
  | plain seg => tag seg :: seg.filter (· ≠ 0)
  | full segs => 0xff :: (segs.length / 8 - 1).toUInt8 :: segs

/-- A segment with a zero byte, or up to 256 segments. -/
def Valid : Block → Prop
  | plain seg => seg.length = 8 ∧ 0 ∈ seg
  | full segs => ∃ m, 0 < m ∧ m ≤ 256 ∧ segs.length = 8 * m

end Block

section PackSeg

variable {src : ℕ → UInt8}

theorem Seg.put_zero (s : Seg) (i : ℕ) : s.put i 0 = s := rfl

theorem Seg.put_notzero (s : Seg) (i : ℕ) {b : UInt8} (hb : b ≠ 0) :
    (s.put i b).notzero = s.notzero + 1 ∧ (s.put i b).header = s.header ||| 1 <<< i.toUInt8 ∧
      (s.sz ≤ 0 → (s.put i b).pos = s.pos ∧ (s.put i b).sz = s.sz ∧
        (s.put i b).buffer = s.buffer) ∧
      (0 < s.sz → (s.put i b).pos = s.pos + 1 ∧ (s.put i b).sz = s.sz - 1 ∧
        (s.put i b).buffer = update s.buffer s.pos b) := by
  unfold Seg.put
  rw [if_pos hb]
  rcases le_or_gt s.sz 0 with h | h
  · simp [h, Int.not_lt.2 h]
  · simp [h, Int.not_le.2 h]

theorem fold_put (n : ℕ) : ∀ (i : ℕ) (s : Seg),
    let seg := slice src i n
    let t := (List.range' i n).foldl (fun s i => s.put i (src i)) s
    t.notzero = s.notzero + notzero seg ∧ t.header = tagFrom i (seg.map (· ≠ 0)) s.header ∧
      (∀ k < s.pos, t.buffer k = s.buffer k) ∧
      ((notzero seg : ℤ) ≤ s.sz →
        slice t.buffer s.pos (notzero seg) = seg.filter (· ≠ 0)) := by
  induction n with
  | zero => exact fun i s => ⟨rfl, rfl, fun _ _ => rfl, fun _ => rfl⟩
  | succ n ih =>
    intro i s
    simp only [slice_succ, range'_succ, foldl_cons, map_cons]
    obtain ⟨h1, h2, h3, h4⟩ := ih (i + 1) (s.put i (src i))
    by_cases hb : src i = 0
    · rw [hb, Seg.put_zero] at h1 h2 h3 h4 ⊢
      exact ⟨by simpa [notzero_cons] using h1, by simpa [tagFrom] using h2, h3, by
        simpa [notzero_cons] using h4⟩
    · obtain ⟨p1, p2, p3, p4⟩ := s.put_notzero i hb
      rw [notzero_cons, if_pos hb]
      refine ⟨by omega, by rw [h2, p2]; simp [tagFrom, hb], fun k hk => ?_, fun hsz => ?_⟩
      · rcases le_or_gt s.sz 0 with h | h
        · obtain ⟨q1, -, q3⟩ := p3 h
          rw [h3 k (by omega), q3]
        · obtain ⟨q1, -, q3⟩ := p4 h
          rw [h3 k (by omega), q3, update_of_ne (by omega)]
      · obtain ⟨q1, q2, q3⟩ := p4 (by omega)
        rw [q1] at h4
        rw [Nat.add_comm 1, slice_succ, h4 (by omega), h3 _ (by omega), q3, update_self]
        simp [hb]

theorem packSeg_spec (buffer : ℕ → UInt8) (pos : ℕ) (sz : ℤ) (n : ℕ) :
    let c := notzero (slice src 0 8)
    let r := packSeg src buffer pos sz n
    (∀ k < pos, r.1 k = buffer k) ∧
      (c = 8 ∧ n = 0 → r.2 = 10) ∧ (6 ≤ c ∧ 0 < n → r.2 = 8) ∧
      (¬ (c = 8 ∧ n = 0) ∧ ¬ (6 ≤ c ∧ 0 < n) → r.2 = c + 1 ∧ ((c : ℤ) + 1 ≤ sz →
        slice r.1 pos (c + 1) = Block.encode (.plain (slice src 0 8)))) := by
  intro c r
  obtain ⟨h1, h2, h3, h4⟩ := @fold_put src 8 0 ⟨0, 0, pos + 1, sz - 1, buffer⟩
  have hr : r = packSeg src buffer pos sz n := rfl
  have hc : c ≤ 8 := by simpa using notzero_le (slice src 0 8)
  unfold packSeg at hr
  rw [range_eq_range'] at hr
  generalize (List.range' 0 8).foldl (fun s i => s.put i (src i))
    (⟨0, 0, pos + 1, sz - 1, buffer⟩ : Seg) = t at h1 h2 h3 h4 hr
  replace h1 : t.notzero = c := by simpa using h1
  dsimp only at h2 h3 h4 hr
  rw [h1] at hr
  have hbelow : ∀ k < pos, t.buffer k = buffer k := fun k hk => h3 k (by omega)
  by_cases hin : 6 ≤ c ∧ 0 < n
  · have hr' : r = (t.buffer, 8) := by
      rw [hr]
      split
      · simp [hin.2]
      · have : c = 8 := by omega
        simp [this, hin.2]
    rw [hr']
    exact ⟨hbelow, by omega, fun _ => rfl, fun h => absurd hin h.2⟩
  by_cases hfirst : c = 8
  · have hn : ¬ 0 < n := by omega
    have hr' : r = (t.buffer, 10) := by
      rw [hr]
      simp [hfirst, hn]
    rw [hr']
    exact ⟨hbelow, fun _ => rfl, fun h => absurd h hin, by omega⟩
  · have hr' : r = (if sz - 1 < 0 then t.buffer else update t.buffer pos t.header, c + 1) := by
      rw [hr]
      have : ¬ ((c = 7 ∨ c = 6) ∧ 0 < n) := by omega
      simp [this, hfirst]
    rw [hr']
    refine ⟨fun k hk => ?_, by omega, fun h => absurd h hin, fun _ => ⟨rfl, fun hsz => ?_⟩⟩
    · split
      · exact hbelow k hk
      · exact (update_of_ne (by omega) _ _).trans (hbelow k hk)
    · rw [if_neg (by omega), slice_succ]
      dsimp only
      rw [update_self]
      have hrest : slice (update t.buffer pos t.header) (pos + 1) c =
          slice t.buffer (pos + 1) c :=
        slice_congr fun k hk _ => update_of_ne (by omega) _ _
      have hcsz : (c : ℤ) ≤ sz - 1 := by omega
      rw [hrest, h4 hcsz, h2]
      rfl

end PackSeg

section Source

variable (x : Bytes)

/-- `x` with zeros behind it. -/
def zeros (x : Bytes) : ℕ → UInt8 := source x fun _ => 0

def segments (x : Bytes) : ℕ := (x.length + 7) / 8

/-- `x` padded to a multiple of 8 bytes. -/
def padded (x : Bytes) : Bytes := x ++ List.replicate (8 * segments x - x.length) 0

theorem source_of_lt (behind : ℕ → UInt8) {k : ℕ} (h : k < x.length) :
    source x behind k = zeros x k := by
  simp [zeros, source, h]

theorem zeros_of_le {k : ℕ} (h : x.length ≤ k) : zeros x k = 0 := by
  simp [zeros, source, h]

theorem length_segments : 8 * segments x < x.length + 8 ∧ x.length ≤ 8 * segments x := by
  unfold segments
  omega

theorem slice_source (behind : ℕ → UInt8) {a n : ℕ} (h : a + n ≤ x.length) :
    slice (source x behind) a n = slice (zeros x) a n :=
  slice_congr fun _ _ hk => source_of_lt x behind (by omega)

theorem slice_zeros_of_le {a : ℕ} (n : ℕ) (h : x.length ≤ a) :
    slice (zeros x) a n = List.replicate n 0 := by
  refine eq_replicate_iff.2 ⟨length_slice _ _ _, fun b hb => ?_⟩
  obtain ⟨k, hk, rfl⟩ := List.mem_map.1 hb
  exact zeros_of_le x (h.trans (mem_range'_1.1 hk).1)

theorem slice_zeros : slice (zeros x) 0 (8 * segments x) = padded x := by
  have hle := (length_segments x).2
  have hx : slice (zeros x) 0 x.length = x := by
    refine ext_getElem (length_slice _ _ _) fun k h₁ h₂ => ?_
    simp [slice, zeros, source, h₂]
  rw [show 8 * segments x = x.length + (8 * segments x - x.length) by omega, slice_add, hx,
    slice_zeros_of_le x _ (by omega), padded]

theorem slice_segment (behind : ℕ → UInt8) (i : ℕ) :
    slice (segment x behind i) 0 8 = slice (zeros x) i 8 := by
  simp only [slice, range'_eq_map_range, List.map_map]
  refine map_congr_left fun k hk => ?_
  have hk : k < 8 := mem_range.1 hk
  simp only [Function.comp_apply, Nat.zero_add, segment]
  split
  · exact (zeros_of_le x (by omega)).symm
  · exact source_of_lt x behind (by omega)

theorem writeFf_eq (behind buffer : ℕ → UInt8) {start n m : ℕ} (des : ℕ)
    (hx : start + n ≤ x.length) (hn : 8 * m < n + 8) (hm : n ≤ 8 * m)
    (hend : n = 8 * m ∨ start + n = x.length) :
    writeFf (source x behind) start buffer des n =
      blit buffer des (Block.encode (.full (slice (zeros x) start (8 * m)))) := by
  have halign : (n + 7) / 8 * 8 = 8 * m := by omega
  have hsplit : slice (zeros x) start (8 * m) =
      slice (source x behind) start n ++ List.replicate (8 * m - n) 0 := by
    rw [show 8 * m = n + (8 * m - n) by omega, slice_add, slice_source x behind hx,
      Nat.add_sub_cancel_left]
    rcases hend with h | h
    · simp [h]
    · rw [slice_zeros_of_le x (8 * m - n) h.ge]
  have hlen : (slice (source x behind) start n).length = n := length_slice _ _ _
  have h₁ := blit_blit (update (update buffer des 0xff) (des + 1)
    (m - 1).toUInt8) (List.replicate (8 * m - n) 0) (slice (source x behind) start n) (des + 2)
  rw [hlen, ← hsplit] at h₁
  unfold writeFf
  dsimp only
  rw [halign, Nat.mul_div_cancel_left m (by omega), h₁, Block.encode, length_slice,
    Nat.mul_div_cancel_left m (by omega)]
  rw [blit, blit, blit_update _ _ _ (by omega), blit_update _ _ _ (by omega),
    update_comm (by omega)]

end Source

/-- A packing on the way: the blocks that are finished, and the run that goes on. -/
structure Blocks where
  done : List Block
  run : Bytes

namespace Blocks

variable (b : Blocks)

def all : List Block := b.done ++ if b.run = [] then [] else [.full b.run]

def packed (bs : List Block) : Bytes := bs.flatMap Block.encode

/-- One more segment: a full one starts a run, one with at most two zeros goes on with it, up to
256, and any other ends it. -/
def add (seg : Bytes) : Blocks :=
  if notzero seg = 8 ∧ b.run = [] then { b with run := seg }
  else if 6 ≤ notzero seg ∧ b.run ≠ [] then
    if b.run.length = 8 * 255 then ⟨b.done ++ [.full (b.run ++ seg)], []⟩
    else { b with run := b.run ++ seg }
  else ⟨b.all ++ [.plain seg], []⟩

end Blocks

/-- The packing of the first `k` segments. -/
def blocks (x : Bytes) : ℕ → Blocks
  | 0 => ⟨[], []⟩
  | k + 1 => (blocks x k).add (slice (zeros x) (8 * k) 8)

/-- A run has up to 255 segments, and the first one is full. -/
structure Blocks.Sound (b : Blocks) : Prop where
  valid : ∀ a ∈ b.done, a.Valid
  run : ∃ m ≤ 255, b.run.length = 8 * m
  first : b.run ≠ [] → notzero (b.run.take 8) = 8

namespace Blocks

variable {b : Blocks} {seg : Bytes}

theorem Sound.validAll (h : b.Sound) : ∀ a ∈ b.all, a.Valid := by
  intro a ha
  rcases mem_append.1 ha with ha | ha
  · exact h.valid a ha
  · by_cases hr : b.run = []
    · rw [if_pos hr] at ha
      exact nomatch ha
    · rw [if_neg hr] at ha
      obtain rfl := mem_singleton.1 ha
      obtain ⟨m, hm, hl⟩ := h.run
      have := length_pos_iff.2 hr
      exact ⟨m, by omega, by omega, hl⟩

theorem content_all : b.all.flatMap Block.content = b.done.flatMap Block.content ++ b.run := by
  unfold all
  split
  · next h => simp [h]
  · simp [Block.content]

theorem content_add : (b.add seg).all.flatMap Block.content = b.all.flatMap Block.content ++ seg := by
  unfold add
  split
  · next h => simp [content_all, h.2]
  · split
    · split
      · simp [content_all, Block.content]
      · simp [content_all]
    · simp [content_all, Block.content]

theorem Sound.add (h : b.Sound) (hseg : seg.length = 8) : (b.add seg).Sound := by
  obtain ⟨m, hm, hl⟩ := h.run
  unfold Blocks.add
  split
  · next hc => exact ⟨h.valid, ⟨1, by omega, hseg⟩, fun _ => by
      rw [take_of_length_le hseg.le, hc.1]⟩
  · next hfull =>
    split
    · next hc =>
      split
      · next hmax =>
        refine ⟨fun a ha => ?_, ⟨0, by omega, rfl⟩, fun h => absurd rfl h⟩
        rcases mem_append.1 ha with ha | ha
        · exact h.valid a ha
        · obtain rfl := mem_singleton.1 ha
          exact ⟨256, by omega, by omega, by simp [hmax, hseg]⟩
      · next hmax =>
        have hpos := length_pos_iff.2 hc.2
        refine ⟨h.valid, ⟨m + 1, by omega, by simp [hl, hseg]; omega⟩, fun _ => ?_⟩
        rw [take_append_of_le_length (by omega)]
        exact h.first hc.2
    · next hc =>
      refine ⟨fun a ha => ?_, ⟨0, by omega, rfl⟩, fun h => absurd rfl h⟩
      rcases mem_append.1 ha with ha | ha
      · exact h.validAll a ha
      · obtain rfl := mem_singleton.1 ha
        refine ⟨hseg, ?_⟩
        by_contra hz
        have hall : notzero seg = 8 := by
          rw [← hseg, notzero, countP_eq_length]
          exact fun c hc => by simpa using fun h0 : c = 0 => hz (h0 ▸ hc)
        by_cases hr : b.run = []
        · exact hfull ⟨hall, hr⟩
        · exact hc ⟨by omega, hr⟩

end Blocks

theorem blocks_spec (x : Bytes) : ∀ k, (blocks x k).Sound ∧
    (blocks x k).all.flatMap Block.content = slice (zeros x) 0 (8 * k)
  | 0 => ⟨⟨nofun, ⟨0, by omega, rfl⟩, fun h => absurd rfl h⟩, rfl⟩
  | k + 1 => by
    obtain ⟨h1, h2⟩ := blocks_spec x k
    exact ⟨h1.add (length_slice _ _ _), by
      rw [blocks, Blocks.content_add, h2, Nat.mul_succ, slice_add, Nat.zero_add]⟩

section Loop

variable {x : Bytes} (behind : ℕ → UInt8)

/-- The variables after `pack_seg`, before the runs are looked at. -/
def Pack.put (x : Bytes) (s : Pack) (i : ℕ) : Pack :=
  let r := packSeg (segment x behind i) s.buffer s.size s.bufsz s.ffN
  { s with
    buffer := r.1
    bufsz := s.bufsz - r.2
    size := s.size + r.2
    readEnd := max s.readEnd (min (i + 8) x.length) }

theorem step_eq (s : Pack) (i : ℕ) :
    let c := notzero (slice (zeros x) i 8)
    let t := s.put behind x i
    s.step x behind i =
      if INT_MAX < i + 8 ∨ INT_MAX < t.size then none
      else if c = 8 ∧ s.ffN = 0 then some { t with ffSrc := i, ffDes := s.size, ffN := 1 }
      else if 6 ≤ c ∧ 0 < s.ffN then
        if s.ffN = 255 then some { t.flush x behind (256 * 8) with ffN := 0 }
        else some { t with ffN := s.ffN + 1 }
      else if 0 < s.ffN then some { t.flush x behind (s.ffN * 8) with ffN := 0 }
      else some t := by
  intro c t
  obtain ⟨-, h1, h2, h3⟩ :=
    @packSeg_spec (segment x behind i) s.buffer s.size s.bufsz s.ffN
  rw [slice_segment] at h1 h2 h3
  have hc : c ≤ 8 := by simpa using notzero_le (slice (zeros x) i 8)
  unfold Pack.step
  by_cases hi : INT_MAX < i + 8
  · rw [if_pos hi, if_pos (.inl hi)]
  rw [if_neg hi]
  dsimp only
  by_cases hs : INT_MAX < t.size
  · exact (if_pos hs).trans (if_pos (.inr hs)).symm
  refine (if_neg hs).trans ?_
  rw [if_neg (not_or.2 ⟨hi, hs⟩)]
  by_cases hfirst : c = 8 ∧ s.ffN = 0
  · rw [if_pos hfirst, if_pos (h1 hfirst)]
    rfl
  rw [if_neg hfirst]
  by_cases hin : 6 ≤ c ∧ 0 < s.ffN
  · rw [if_pos hin, if_neg (by rw [h2 hin]; omega), if_pos ⟨h2 hin, hin.2⟩]
    simp only [Nat.reduceEqDiff]
    rfl
  · obtain ⟨hn, -⟩ := h3 ⟨hfirst, hin⟩
    rw [if_neg hin, if_neg (by rw [hn]; omega), if_neg (by rw [hn]; omega)]
    rfl

theorem Blocks.packed_append (as bs : List Block) : packed (as ++ bs) = packed as ++ packed bs :=
  flatMap_append

theorem Blocks.packed_singleton (a : Block) : packed [a] = a.encode := by simp [packed]

theorem Blocks.packed_all {b : Blocks} (h : b.run ≠ []) :
    packed b.all = packed b.done ++ Block.encode (.full b.run) := by
  simp [all, h, packed]

theorem Block.length_full (segs : Bytes) : (full segs).encode.length = 2 + segs.length := by
  rw [encode, length_cons, length_cons]
  omega

theorem Block.length_plain (seg : Bytes) : (plain seg).encode.length = notzero seg + 1 := by
  simp [encode, notzero, countP_eq_length_filter]

theorem Blocks.length_add (b : Blocks) {seg : Bytes} (hseg : seg.length = 8) :
    (packed (b.add seg).all).length = (packed b.all).length +
      if notzero seg = 8 ∧ b.run = [] then 10
      else if 6 ≤ notzero seg ∧ b.run ≠ [] then 8
      else notzero seg + 1 := by
  unfold Blocks.add
  split
  · next h =>
    have hne : seg ≠ [] := length_pos_iff.1 (by omega)
    have hall : b.all = b.done := by simp [all, h.2]
    rw [packed_all hne, length_append, Block.length_full, hall, hseg]
  · split
    · next h =>
      rw [packed_all h.2, length_append, Block.length_full]
      split
      · have hall : Blocks.all ⟨b.done ++ [.full (b.run ++ seg)], []⟩ =
            b.done ++ [.full (b.run ++ seg)] := by simp [all]
        rw [hall, packed_append, packed_singleton, length_append, Block.length_full,
          length_append, hseg]
        omega
      · have hne : b.run ++ seg ≠ [] := append_ne_nil_of_left_ne_nil h.2 _
        rw [packed_all hne, length_append, Block.length_full, length_append, hseg]
        dsimp only
        omega
    · have hall : Blocks.all ⟨b.all ++ [.plain seg], []⟩ = b.all ++ [.plain seg] := by simp [all]
      rw [hall, packed_append, packed_singleton, length_append, Block.length_plain]

/-- What the variables of `sproto_pack` say of the packing so far, for a buffer of so many bytes. -/
structure Tracks (x : Bytes) (bufsz k : ℕ) (b : Blocks) (s : Pack) : Prop where
  run : b.run = slice (zeros x) s.ffSrc (8 * s.ffN)
  size : s.size = (Blocks.packed b.all).length
  bufsz : s.bufsz = bufsz - s.size
  readEnd : s.readEnd ≤ x.length
  ffSrc : 0 < s.ffN → s.ffSrc + 8 * s.ffN = 8 * k ∧ s.ffSrc + 8 ≤ x.length
  ffDes : 0 < s.ffN → s.ffDes = (Blocks.packed b.done).length
  buffer : 0 ≤ s.bufsz →
    slice s.buffer 0 (Blocks.packed b.done).length = Blocks.packed b.done

theorem flush_spec (s : Pack) {n m : ℕ} (hx : s.ffSrc + n ≤ x.length) (hn : 8 * m < n + 8)
    (hm : n ≤ 8 * m) (hend : n = 8 * m ∨ s.ffSrc + n = x.length) (hr : s.readEnd ≤ x.length) :
    (s.flush x behind n).size = s.size ∧ (s.flush x behind n).bufsz = s.bufsz ∧
      (s.flush x behind n).readEnd ≤ x.length ∧ (0 ≤ s.bufsz → (s.flush x behind n).buffer =
        blit s.buffer s.ffDes (Block.encode (.full (slice (zeros x) s.ffSrc (8 * m))))) := by
  unfold Pack.flush
  split
  · exact ⟨rfl, rfl, max_le hr hx, fun _ => writeFf_eq x behind s.buffer s.ffDes hx hn hm hend⟩
  · next h => exact ⟨rfl, rfl, hr, fun h' => absurd h' h⟩

theorem le_of_full {i : ℕ} (h : notzero (slice (zeros x) i 8) = 8) : i + 8 ≤ x.length := by
  by_contra hlt
  have hall := countP_eq_length.1 (h.trans (length_slice (zeros x) i 8).symm) (zeros x (i + 7))
    (List.mem_map.2 ⟨i + 7, mem_range'_1.2 ⟨by omega, by omega⟩, rfl⟩)
  rw [zeros_of_le x (by omega)] at hall
  exact absurd hall (by decide)

theorem put_plain {s : Pack} {i : ℕ} (hc : ¬ (notzero (slice (zeros x) i 8) = 8 ∧ s.ffN = 0) ∧
      ¬ (6 ≤ notzero (slice (zeros x) i 8) ∧ 0 < s.ffN)) (hb : 0 ≤ (s.put behind x i).bufsz) :
    slice (s.put behind x i).buffer s.size (Block.plain (slice (zeros x) i 8)).encode.length =
      (Block.plain (slice (zeros x) i 8)).encode := by
  obtain ⟨-, -, -, h3⟩ := @packSeg_spec (segment x behind i) s.buffer s.size s.bufsz s.ffN
  rw [slice_segment] at h3
  obtain ⟨h4, h5⟩ := h3 hc
  have hbz : (s.put behind x i).bufsz =
      s.bufsz - (packSeg (segment x behind i) s.buffer s.size s.bufsz s.ffN).2 := rfl
  rw [Block.length_plain]
  exact h5 (by omega)

namespace Tracks

variable {bufsz k : ℕ} {b : Blocks} {s : Pack}

theorem length_run (h : Tracks x bufsz k b s) : b.run.length = 8 * s.ffN := by
  rw [h.run, length_slice]

theorem run_eq_nil (h : Tracks x bufsz k b s) : b.run = [] ↔ s.ffN = 0 := by
  rw [← length_eq_zero_iff, h.length_run]
  omega

theorem size_done (h : Tracks x bufsz k b s) : s.size =
    (Blocks.packed b.done).length + if s.ffN = 0 then 0 else 2 + 8 * s.ffN := by
  rw [h.size]
  split
  · next hn => simp [Blocks.all, h.run_eq_nil.2 hn]
  · next hn =>
    rw [Blocks.packed_all (mt h.run_eq_nil.1 hn), length_append, Block.length_full,
      h.length_run]

theorem put_buffer (h : Tracks x bufsz k b s) (i : ℕ) (hb : 0 ≤ (s.put behind x i).bufsz) :
    slice (s.put behind x i).buffer 0 (Blocks.packed b.done).length = Blocks.packed b.done := by
  obtain ⟨hkeep, -⟩ := @packSeg_spec (segment x behind i) s.buffer s.size s.bufsz s.ffN
  have hsz := h.size_done
  have hb' : 0 ≤ s.bufsz := by
    have : (s.put behind x i).bufsz =
        s.bufsz - (packSeg (segment x behind i) s.buffer s.size s.bufsz s.ffN).2 := rfl
    omega
  have hsame : slice (s.put behind x i).buffer 0 (Blocks.packed b.done).length =
      slice s.buffer 0 (Blocks.packed b.done).length := by
    refine slice_congr fun j _ hj => hkeep j ?_
    omega
  rw [hsame, h.buffer hb']

theorem put_size (h : Tracks x bufsz k b s) :
    (s.put behind x (8 * k)).size =
      (Blocks.packed (b.add (slice (zeros x) (8 * k) 8)).all).length := by
  obtain ⟨-, h1, h2, h3⟩ :=
    @packSeg_spec (segment x behind (8 * k)) s.buffer s.size s.bufsz s.ffN
  rw [slice_segment] at h1 h2 h3
  have hsize : (s.put behind x (8 * k)).size =
      s.size + (packSeg (segment x behind (8 * k)) s.buffer s.size s.bufsz s.ffN).2 := rfl
  have hrun := h.run_eq_nil
  rw [hsize, Blocks.length_add b (length_slice _ _ _), ← h.size]
  congr 1
  by_cases hfirst : notzero (slice (zeros x) (8 * k) 8) = 8 ∧ s.ffN = 0
  · rw [if_pos ⟨hfirst.1, hrun.2 hfirst.2⟩, h1 hfirst]
  rw [if_neg fun hc => hfirst ⟨hc.1, hrun.1 hc.2⟩]
  by_cases hin : 6 ≤ notzero (slice (zeros x) (8 * k) 8) ∧ 0 < s.ffN
  · rw [if_pos ⟨hin.1, fun hnil => Nat.ne_of_gt hin.2 (hrun.1 hnil)⟩, h2 hin]
  · rw [if_neg fun hc => hin ⟨hc.1, Nat.pos_of_ne_zero fun h0 => hc.2 (hrun.2 h0)⟩,
      (h3 ⟨hfirst, hin⟩).1]

theorem buffer_blit {buffer : ℕ → UInt8} {done : Bytes} (enc : Bytes)
    (h : slice buffer 0 done.length = done) :
    slice (blit buffer done.length enc) 0 (done ++ enc).length = done ++ enc := by
  rw [length_append, slice_add, slice_blit_of_le _ _ (by omega), h, Nat.zero_add, slice_blit]

theorem put_bufsz (h : Tracks x bufsz k b s) (i : ℕ) :
    (s.put behind x i).bufsz = bufsz - (s.put behind x i).size := by
  have hb : (s.put behind x i).bufsz =
      s.bufsz - (packSeg (segment x behind i) s.buffer s.size s.bufsz s.ffN).2 := rfl
  have hsz : (s.put behind x i).size =
      s.size + (packSeg (segment x behind i) s.buffer s.size s.bufsz s.ffN).2 := rfl
  rw [hb, hsz, h.bufsz]
  omega

theorem put_readEnd (h : Tracks x bufsz k b s) (i : ℕ) : (s.put behind x i).readEnd ≤ x.length :=
  max_le h.readEnd (min_le_right _ _)

theorem buffer_append {buffer : ℕ → UInt8} {done enc : Bytes}
    (h : slice buffer 0 done.length = done) (he : slice buffer done.length enc.length = enc) :
    slice buffer 0 (done ++ enc).length = done ++ enc := by
  rw [length_append, slice_add, h, Nat.zero_add, he]

/-- One turn of the loop, unless it completes a run of 256 with the padded segment. -/
theorem step (h : Tracks x bufsz k b s) (hk : 8 * k < x.length)
    (hclean : 8 * (k + 1) ≤ x.length ∨
      ¬ (s.ffN = 255 ∧ 6 ≤ notzero (slice (zeros x) (8 * k) 8))) {s' : Pack}
    (hs : s.step x behind (8 * k) = some s') :
    Tracks x bufsz (k + 1) (b.add (slice (zeros x) (8 * k) 8)) s' := by
  have hsz := h.put_size behind
  have hbz := h.put_bufsz behind (8 * k)
  have hre := h.put_readEnd behind (8 * k)
  have hbuf := h.put_buffer behind (8 * k)
  have hplain := @put_plain x behind s (8 * k)
  have hdone := h.size_done
  have htsrc : (s.put behind x (8 * k)).ffSrc = s.ffSrc := rfl
  have htdes : (s.put behind x (8 * k)).ffDes = s.ffDes := rfl
  have htn : (s.put behind x (8 * k)).ffN = s.ffN := rfl
  rw [step_eq] at hs
  generalize s.put behind x (8 * k) = t at *
  dsimp only at hs
  split at hs
  · exact nomatch hs
  split at hs
  · next hfirst =>
    obtain rfl := some.inj hs
    have hadd : b.add (slice (zeros x) (8 * k) 8) = { b with run := slice (zeros x) (8 * k) 8 } :=
      if_pos ⟨hfirst.1, h.run_eq_nil.2 hfirst.2⟩
    rw [hadd] at hsz ⊢
    rw [if_pos hfirst.2] at hdone
    exact ⟨rfl, hsz, hbz, hre, fun _ => ⟨by dsimp only; omega, le_of_full hfirst.1⟩,
      fun _ => hdone, hbuf⟩
  next hfirst =>
  have hnil : ¬ (notzero (slice (zeros x) (8 * k) 8) = 8 ∧ b.run = []) := by
    rwa [h.run_eq_nil]
  split at hs
  · next hin =>
    obtain ⟨hsrc, hx⟩ := h.ffSrc hin.2
    have hrun : b.run ++ slice (zeros x) (8 * k) 8 =
        slice (zeros x) s.ffSrc (8 * (s.ffN + 1)) := by
      rw [h.run, ← hsrc, Nat.mul_succ, slice_add]
    have hne : 6 ≤ notzero (slice (zeros x) (8 * k) 8) ∧ b.run ≠ [] :=
      ⟨hin.1, mt h.run_eq_nil.1 (by omega)⟩
    split at hs
    · next hmax =>
      obtain rfl := some.inj hs
      have hadd : b.add (slice (zeros x) (8 * k) 8) =
          ⟨b.done ++ [.full (b.run ++ slice (zeros x) (8 * k) 8)], []⟩ := by
        rw [Blocks.add, if_neg hnil, if_pos hne, if_pos (by rw [h.length_run, hmax])]
      have hend : 8 * (k + 1) ≤ x.length := by
        rcases hclean with hc | hc
        · exact hc
        · exact absurd ⟨hmax, hin.1⟩ hc
      obtain ⟨f1, f2, f3, f4⟩ := @flush_spec x behind t (256 * 8) 256 (by omega) (by omega)
        (by omega) (.inl rfl) hre
      rw [hadd] at hsz ⊢
      refine ⟨rfl, f1.trans hsz, f2.trans (hbz.trans (by rw [f1])), f3,
        fun h0 => absurd h0 (Nat.lt_irrefl 0), fun h0 => absurd h0 (Nat.lt_irrefl 0), fun hb => ?_⟩
      have hb' : 0 ≤ t.bufsz := f2 ▸ hb
      have hwhole : slice (zeros x) s.ffSrc (8 * 256) = b.run ++ slice (zeros x) (8 * k) 8 := by
        rw [hrun, hmax]
      rw [Blocks.packed_append, Blocks.packed_singleton]
      dsimp only
      rw [f4 hb', htsrc, hwhole, htdes, h.ffDes hin.2]
      exact buffer_blit _ (hbuf hb')
    · next hmax =>
      obtain rfl := some.inj hs
      have hadd : b.add (slice (zeros x) (8 * k) 8) =
          { b with run := b.run ++ slice (zeros x) (8 * k) 8 } := by
        rw [Blocks.add, if_neg hnil, if_pos hne, if_neg (by rw [h.length_run]; omega)]
      rw [hadd] at hsz ⊢
      exact ⟨htsrc ▸ hrun, hsz, hbz, hre, fun _ => ⟨by dsimp only; omega, htsrc ▸ hx⟩,
        fun _ => htdes.trans (h.ffDes hin.2), hbuf⟩
  next hin =>
  have hadd : b.add (slice (zeros x) (8 * k) 8) =
      ⟨b.all ++ [.plain (slice (zeros x) (8 * k) 8)], []⟩ := by
    rw [Blocks.add, if_neg hnil, if_neg]
    exact fun hc => hin ⟨hc.1, Nat.pos_of_ne_zero (mt h.run_eq_nil.2 hc.2)⟩
  rw [hadd] at hsz ⊢
  split at hs
  · next hpos =>
    obtain rfl := some.inj hs
    obtain ⟨hsrc, hx⟩ := h.ffSrc hpos
    obtain ⟨f1, f2, f3, f4⟩ := @flush_spec x behind t (s.ffN * 8) s.ffN (by omega) (by omega)
      (by omega) (.inl (by omega)) hre
    refine ⟨rfl, f1.trans hsz, f2.trans (hbz.trans (by rw [f1])), f3,
      fun h0 => absurd h0 (Nat.lt_irrefl 0), fun h0 => absurd h0 (Nat.lt_irrefl 0), fun hb => ?_⟩
    have hb' : 0 ≤ t.bufsz := f2 ▸ hb
    have hall : Blocks.packed b.all = Blocks.packed b.done ++ Block.encode (.full b.run) :=
      Blocks.packed_all (mt h.run_eq_nil.1 (by omega))
    have hend : (Blocks.packed b.done).length + (Block.encode (.full b.run)).length = s.size := by
      rw [h.size, hall, length_append]
    rw [Blocks.packed_append, Blocks.packed_singleton]
    dsimp only
    rw [f4 hb', htsrc, ← h.run, htdes, h.ffDes hpos]
    refine buffer_append ?_ ?_
    · rw [hall]
      exact buffer_blit _ (hbuf hb')
    · rw [← h.size, slice_blit_of_ge _ _ _ hend.le]
      exact hplain ⟨hfirst, hin⟩ hb'
  · next hpos =>
    obtain rfl := some.inj hs
    have hzero : s.ffN = 0 := by omega
    have hall : b.all = b.done := by simp [Blocks.all, h.run_eq_nil.2 hzero]
    refine ⟨by rw [htn, hzero]; rfl, hsz, hbz, hre, fun h0 => absurd h0 (by omega),
      fun h0 => absurd h0 (by omega), fun hb => ?_⟩
    rw [Blocks.packed_append, Blocks.packed_singleton]
    refine buffer_append ?_ ?_
    · rw [hall]
      exact hbuf hb
    · rw [← h.size]
      exact hplain ⟨hfirst, hin⟩ hb

end Tracks

theorem Blocks.length_packed_add (b : Blocks) {seg : Bytes} (hseg : seg.length = 8) :
    (packed b.all).length ≤ (packed (b.add seg).all).length := by
  rw [length_add b hseg]
  exact Nat.le_add_right _ _

/-- The padded last segment completes a run of 256 segments. -/
def PaddedRun (x : Bytes) : Prop :=
  x.length % 8 ≠ 0 ∧ (blocks x (x.length / 8)).run.length = 8 * 255 ∧
    6 ≤ notzero (slice (zeros x) (8 * (x.length / 8)) 8)

instance (x : Bytes) : Decidable (PaddedRun x) := inferInstanceAs (Decidable (_ ∧ _ ∧ _))

/-- `x` zero-packed. -/
def packing (x : Bytes) : Bytes := Blocks.packed (blocks x (segments x)).all

/-- The sizes fit an `int`. -/
def Fits (x : Bytes) : Prop := 8 * segments x ≤ INT_MAX ∧ (packing x).length ≤ INT_MAX

variable {bufsz : ℕ} {buffer : ℕ → UInt8}

theorem packLoop_succ (k : ℕ) : packLoop x behind bufsz buffer (k + 1) =
    (packLoop x behind bufsz buffer k).bind fun s => s.step x behind (8 * k) := by
  simp [packLoop, range_succ, foldlM_append]

theorem tracks_start : Tracks x bufsz 0 (blocks x 0) ⟨0, 0, 0, 0, bufsz, buffer, 0⟩ :=
  ⟨rfl, rfl, by simp, Nat.zero_le _, fun h => absurd h (Nat.lt_irrefl 0),
    fun h => absurd h (Nat.lt_irrefl 0), fun _ => rfl⟩

theorem clean_of_lt {k : ℕ} {s : Pack} (h : Tracks x bufsz k (blocks x k) s)
    (hk : k < segments x) (hx : k + 1 = segments x → ¬ PaddedRun x) : 8 * (k + 1) ≤ x.length ∨
      ¬ (s.ffN = 255 ∧ 6 ≤ notzero (slice (zeros x) (8 * k) 8)) := by
  rcases Nat.lt_or_ge x.length (8 * (k + 1)) with hlt | hge
  · have hseg := length_segments x
    refine .inr fun hc => hx (by omega) ?_
    obtain rfl : k = x.length / 8 := by omega
    exact ⟨by omega, by rw [h.length_run, hc.1], hc.2⟩
  · exact .inl hge

theorem tracks_loop : ∀ {k : ℕ} {s : Pack}, k ≤ segments x →
    (k = segments x → ¬ PaddedRun x) → packLoop x behind bufsz buffer k = some s →
    Tracks x bufsz k (blocks x k) s
  | 0, s, _, _, h => by
    obtain rfl := some.inj h
    exact tracks_start
  | k + 1, s, hk, hx, h => by
    rw [packLoop_succ] at h
    obtain ⟨t, ht, hs⟩ := bind_eq_some_iff.1 h
    have htr := tracks_loop (by omega) (by omega) ht
    have hseg := length_segments x
    exact htr.step behind (by omega) (clean_of_lt htr (by omega) hx) hs

theorem exists_loop : ∀ {k : ℕ}, k ≤ segments x → 8 * k ≤ INT_MAX →
    (Blocks.packed (blocks x k).all).length ≤ INT_MAX →
    ∃ s, packLoop x behind bufsz buffer k = some s
  | 0, _, _, _ => ⟨_, rfl⟩
  | k + 1, hk, hi, hs => by
    have hle := Blocks.length_packed_add (blocks x k) (length_slice (zeros x) (8 * k) 8)
    obtain ⟨s, h⟩ := exists_loop (by omega) (by omega) (hle.trans hs)
    have htr := tracks_loop behind (by omega) (by omega) h
    have hsize := htr.put_size behind
    rw [packLoop_succ, h, bind_some, step_eq]
    dsimp only
    rw [if_neg (by rw [hsize]; change ¬ (_ ∨ INT_MAX < (Blocks.packed (blocks x (k + 1)).all).length); omega)]
    split
    · exact ⟨_, rfl⟩
    · split
      · split <;> exact ⟨_, rfl⟩
      · split <;> exact ⟨_, rfl⟩

theorem sprotoPack_eq (hx : ¬ PaddedRun x) (hf : Fits x) :
    ∃ s, sprotoPack x behind bufsz buffer = some s ∧ s.size = (packing x).length ∧
      s.readEnd ≤ x.length ∧
      ((packing x).length ≤ bufsz → slice s.buffer 0 (packing x).length = packing x) := by
  obtain ⟨s, hs⟩ := @exists_loop x behind bufsz buffer (segments x) le_rfl hf.1 hf.2
  have h := tracks_loop behind le_rfl (fun _ => hx) hs
  have hseg := length_segments x
  rw [sprotoPack, show (x.length + 7) / 8 = segments x from rfl, hs, map_some]
  refine ⟨_, rfl, ?_⟩
  have hdone : s.ffN = 0 → (blocks x (segments x)).all = (blocks x (segments x)).done := fun h0 => by
    simp [Blocks.all, h.run_eq_nil.2 h0]
  have hbuf : (packing x).length ≤ bufsz → 0 ≤ s.bufsz := fun hle => by
    rw [h.bufsz, h.size]
    have : (Blocks.packed (blocks x (segments x)).all).length ≤ bufsz := hle
    omega
  -- the run that goes on to the end of `x`
  have hflush : ∀ n, 0 < s.ffN → s.ffSrc + n ≤ x.length → 8 * s.ffN < n + 8 → n ≤ 8 * s.ffN →
      (n = 8 * s.ffN ∨ s.ffSrc + n = x.length) →
      (s.flush x behind n).size = (packing x).length ∧ (s.flush x behind n).readEnd ≤ x.length ∧
        ((packing x).length ≤ bufsz →
          slice (s.flush x behind n).buffer 0 (packing x).length = packing x) := by
    intro n hpos h1 h2 h3 h4
    obtain ⟨f1, -, f3, f4⟩ := flush_spec behind s h1 h2 h3 h4 h.readEnd
    refine ⟨f1.trans h.size, f3, fun hle => ?_⟩
    have hall : packing x = Blocks.packed (blocks x (segments x)).done ++
        Block.encode (.full (blocks x (segments x)).run) :=
      Blocks.packed_all (mt h.run_eq_nil.1 (by omega))
    rw [f4 (hbuf hle), ← h.run, h.ffDes hpos, hall]
    exact Tracks.buffer_blit _ (h.buffer (hbuf hle))
  split
  · next h1 =>
    obtain ⟨-, hsrc⟩ := h.ffSrc (by omega)
    exact hflush 8 (by omega) hsrc (by omega) (by omega) (.inl (by omega))
  · split
    · next h1 =>
      obtain ⟨hsrc, hsrc'⟩ := h.ffSrc (by omega)
      exact hflush _ (by omega) (by omega) (by omega) (by omega) (.inr (by omega))
    · next h0 =>
      have hp : packing x = Blocks.packed (blocks x (segments x)).done := by
        rw [packing, hdone (by omega)]
      refine ⟨h.size, h.readEnd, fun hle => ?_⟩
      rw [hp]
      exact h.buffer (hbuf hle)

/-- `sproto_pack` goes through only where the sizes fit, and reads from behind `x` where the padded
segment completes a run. -/
theorem fits_of_sprotoPack {s : Pack} (h : sprotoPack x behind bufsz buffer = some s) :
    Fits x ∧ (PaddedRun x → (packing x).length ≤ bufsz → x.length < s.readEnd) := by
  obtain ⟨t, ht, rfl⟩ := map_eq_some_iff.1 h
  have hseg := length_segments x
  change packLoop x behind bufsz buffer (segments x) = some t at ht
  rcases hk : segments x with _ | k
  · refine ⟨⟨by rw [hk]; exact Nat.zero_le _, by rw [packing, hk]; exact Nat.zero_le _⟩, ?_⟩
    rintro ⟨hx, -⟩
    omega
  rw [hk, packLoop_succ] at ht
  obtain ⟨s, hs, ht⟩ := bind_eq_some_iff.1 ht
  have htr := tracks_loop behind (by omega) (by omega) hs
  have hsize := htr.put_size behind
  have hp : packing x = Blocks.packed ((blocks x k).add (slice (zeros x) (8 * k) 8)).all := by
    rw [packing, hk, blocks]
  rw [← hp] at hsize
  have hbz := htr.put_bufsz behind (8 * k)
  rw [step_eq] at ht
  dsimp only at ht
  split at ht
  · exact nomatch ht
  next hlimit =>
  rw [hsize] at hlimit
  refine ⟨⟨by omega, by omega⟩, fun ⟨hmod, hrun, hc⟩ hle => ?_⟩
  obtain rfl : k = x.length / 8 := by omega
  have hffN : s.ffN = 255 := by
    have := htr.length_run
    omega
  obtain ⟨hsrc, -⟩ := htr.ffSrc (by omega)
  rw [if_neg (by omega), if_pos ⟨hc, by omega⟩, if_pos hffN] at ht
  obtain rfl := some.inj ht
  have hread : x.length < ((s.put behind x (8 * (x.length / 8))).flush x behind
      (256 * 8)).readEnd := by
    have hsrc' : (s.put behind x (8 * (x.length / 8))).ffSrc = s.ffSrc := rfl
    rw [Pack.flush, if_pos (by omega)]
    refine lt_max_of_lt_right ?_
    omega
  exact hread

end Loop

end SprotoPack

end SkynetGame
