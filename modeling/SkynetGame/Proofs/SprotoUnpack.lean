import SkynetGame.Proofs.SprotoPack

/-!
# The round trip of zero packing

`sproto_unpack` takes the packed stream block by block. What it gives for the packing of `x` is `x`,
padded to a multiple of 8 bytes.
-/

namespace SkynetGame

open List

namespace SprotoPack

section Unpack

variable {src : ℕ → UInt8}

/-- `t` is behind a block of the packed stream, with its content in the buffer. -/
structure Took (enc : ℕ) (content : Bytes) (s t : Unpack) : Prop where
  src : t.src = s.src + enc
  srcsz : t.srcsz = s.srcsz - enc
  size : t.size = s.size + content.length
  buffer : (content.length : ℤ) ≤ s.bufsz → t.bufsz = s.bufsz - content.length ∧
    t.pos = s.pos + content.length ∧ t.buffer = blit s.buffer s.pos content

theorem Took.refl (s : Unpack) : Took 0 [] s s := ⟨rfl, by simp, rfl, fun _ => ⟨by simp, rfl, rfl⟩⟩

theorem Took.trans {m n : ℕ} {as bs : Bytes} {s t u : Unpack} (h₁ : Took m as s t)
    (h₂ : Took n bs t u) : Took (m + n) (as ++ bs) s u where
  src := by rw [h₂.src, h₁.src, Nat.add_assoc]
  srcsz := by
    rw [h₂.srcsz, h₁.srcsz]
    omega
  size := by rw [h₂.size, h₁.size, length_append, Nat.add_assoc]
  buffer h := by
    rw [length_append] at h ⊢
    obtain ⟨p1, p2, p3⟩ := h₁.buffer (by omega)
    obtain ⟨q1, q2, q3⟩ := h₂.buffer (by omega)
    refine ⟨by omega, by omega, ?_⟩
    rw [q3, p2, p3, blit_blit]

theorem bit_zero {h : UInt8} {i : ℕ} (hb : ¬ h >>> i.toUInt8 &&& 1 ≠ 0) (s : Unpack) :
    ∃ t, s.bit src h i = some t ∧ Took 0 [0] s t := by
  unfold Unpack.bit
  rw [if_neg hb]
  refine ⟨_, rfl, ?_⟩
  by_cases hz : 0 < s.bufsz
  · simp only [hz, ↓reduceIte]
    exact ⟨rfl, by simp, rfl, fun _ => ⟨rfl, rfl, rfl⟩⟩
  · simp only [hz, ↓reduceIte]
    exact ⟨rfl, by simp, rfl, fun h => absurd h (by simp; omega)⟩

theorem bit_one {h : UInt8} {i : ℕ} (hb : h >>> i.toUInt8 &&& 1 ≠ 0) {s : Unpack}
    (hs : 0 ≤ s.srcsz) : ∃ t, s.bit src h i = some t ∧ Took 1 [src s.src] s t := by
  unfold Unpack.bit
  rw [if_pos hb, if_neg (by omega)]
  refine ⟨_, rfl, ?_⟩
  by_cases hz : 0 < s.bufsz
  · simp only [hz, ↓reduceIte]
    exact ⟨rfl, rfl, rfl, fun _ => ⟨rfl, rfl, rfl⟩⟩
  · simp only [hz, ↓reduceIte]
    exact ⟨rfl, rfl, rfl, fun h => absurd h (by simp; omega)⟩

theorem bits_spec {h : UInt8} : ∀ (seg : Bytes) (i : ℕ) (s : Unpack),
    (∀ j < seg.length, h >>> (i + j).toUInt8 &&& 1 ≠ 0 ↔ seg.getD j 0 ≠ 0) →
    slice src s.src (notzero seg) = seg.filter (· ≠ 0) → (notzero seg : ℤ) ≤ s.srcsz →
    ∃ t, (List.range' i seg.length).foldlM (fun s i => s.bit src h i) s = some t ∧
      Took (notzero seg) seg s t
  | [], _, s, _, _, _ => ⟨s, rfl, .refl s⟩
  | b :: seg, i, s, hbit, hsrc, hsz => by
    have hfirst := hbit 0 (by simp)
    have hrest : ∀ j < seg.length, h >>> (i + 1 + j).toUInt8 &&& 1 ≠ 0 ↔ seg.getD j 0 ≠ 0 :=
      fun j hj => by simpa [Nat.add_assoc, Nat.add_comm 1] using hbit (j + 1) (by simpa using hj)
    rw [length_cons, range'_succ, foldlM_cons]
    by_cases hb : b = 0
    · subst hb
      rw [notzero_cons, if_neg (by simp), Nat.zero_add] at hsrc hsz ⊢
      obtain ⟨t, ht, htook⟩ := @bit_zero src h i (by simpa using hfirst) s
      obtain ⟨u, hu, hutook⟩ := bits_spec seg (i + 1) t hrest
        (by rw [htook.src]; simpa using hsrc) (by rw [htook.srcsz]; omega)
      rw [ht]
      exact ⟨u, hu, by simpa using htook.trans hutook⟩
    · rw [notzero_cons, if_pos hb, Nat.add_comm 1] at hsrc hsz ⊢
      rw [slice_succ, filter_cons_of_pos (by simpa using hb), List.cons.injEq] at hsrc
      obtain ⟨t, ht, htook⟩ := @bit_one src h i (by simpa using hfirst.2 (by simpa using hb))
        s (by omega)
      obtain ⟨u, hu, hutook⟩ := bits_spec seg (i + 1) t hrest
        (by rw [htook.src]; exact hsrc.2) (by rw [htook.srcsz]; omega)
      rw [ht]
      refine ⟨u, hu, ?_⟩
      have := htook.trans hutook
      rwa [hsrc.1, Nat.add_comm 1] at this

theorem unpackStep_spec {a : Block} (ha : a.Valid) {s : Unpack}
    (hsrc : slice src s.src a.encode.length = a.encode) (hsz : (a.encode.length : ℤ) ≤ s.srcsz)
    (hmax : s.size + a.content.length ≤ INT_MAX) :
    ∃ t, s.step src = some (some t) ∧ Took a.encode.length a.content s t := by
  unfold Unpack.step
  dsimp only
  rcases a with seg | segs
  · obtain ⟨hlen, hz⟩ := ha
    rw [Block.length_plain] at hsrc hsz ⊢
    rw [slice_succ, Block.encode, List.cons.injEq] at hsrc
    have hlen' : (Block.plain seg).content.length = 8 := hlen
    rw [if_neg (by rw [hsrc.1]; exact tag_ne hlen hz), if_neg (by omega)]
    obtain ⟨t, ht, htook⟩ := @bits_spec src (tag seg) seg 0
      { s with
        src := s.src + 1
        srcsz := s.srcsz - 1 }
      (fun j hj => by rw [Nat.zero_add]; exact tag_bit hlen (hlen ▸ hj)) hsrc.2
      (by dsimp only; omega)
    rw [hlen, ← range_eq_range', ← hsrc.1] at ht
    refine ⟨t, by rw [ht], ?_⟩
    have hsrc' := htook.src
    have hsz' := htook.srcsz
    dsimp only at hsrc' hsz'
    exact ⟨by omega, by omega, htook.size, htook.buffer⟩
  · obtain ⟨m, hm, hm', hlen⟩ := ha
    have hb : ((m - 1).toUInt8).toNat + 1 = m := by
      rw [Nat.toUInt8_eq, UInt8.toNat_ofNat', Nat.mod_eq_of_lt (by omega)]
      omega
    have hcount : segs.length / 8 = m := by omega
    rw [Block.length_full] at hsrc hsz ⊢
    rw [Nat.add_comm 2, slice_succ, slice_succ, Block.encode, List.cons.injEq, List.cons.injEq,
      hcount] at hsrc
    obtain ⟨h1, h2, h3⟩ := hsrc
    have hc : (Block.full segs).content.length = 8 * m := hlen
    rw [if_pos h1, if_neg (by omega)]
    simp only [h2, hb]
    rw [if_neg (by omega), if_neg (by omega)]
    refine ⟨_, rfl, ?_, ?_, ?_, fun hbz => ?_⟩
    · dsimp only
      omega
    · dsimp only
      omega
    · dsimp only
      omega
    · dsimp only
      rw [hc] at hbz ⊢
      rw [if_pos (by push_cast at hbz ⊢; omega)]
      refine ⟨by push_cast; omega, by omega, ?_⟩
      rw [Nat.mul_comm m, ← hlen, h3]
      rfl

theorem unpackLoop_spec : ∀ (bs : List Block) (fuel : ℕ) (s : Unpack), (∀ a ∈ bs, a.Valid) →
    slice src s.src (Blocks.packed bs).length = Blocks.packed bs →
    s.srcsz = (Blocks.packed bs).length → (Blocks.packed bs).length ≤ fuel →
    s.size + (bs.flatMap Block.content).length ≤ INT_MAX →
    ∃ t, unpackLoop src fuel s = some (some t) ∧
      Took (Blocks.packed bs).length (bs.flatMap Block.content) s t
  | [], fuel, s, _, _, hsz, _, _ => by
    refine ⟨s, ?_, .refl s⟩
    rcases fuel with _ | fuel
    · rfl
    · rw [unpackLoop, if_neg (by rw [hsz]; simp [Blocks.packed])]
  | a :: bs, fuel, s, hv, hsrc, hsz, hfuel, hmax => by
    have hp : Blocks.packed (a :: bs) = a.encode ++ Blocks.packed bs := flatMap_cons
    have hpos : 0 < a.encode.length := by
      rcases a with seg | segs
      · rw [Block.length_plain]
        omega
      · rw [Block.length_full]
        omega
    rw [hp, length_append] at hsrc hsz hfuel ⊢
    rw [slice_add] at hsrc
    obtain ⟨h1, h2⟩ := append_inj hsrc (length_slice _ _ _)
    rw [flatMap_cons, length_append] at hmax
    rcases fuel with _ | fuel
    · omega
    obtain ⟨t, ht, htook⟩ := unpackStep_spec (hv a mem_cons_self) h1 (by omega) (by omega)
    have hsize := htook.size
    have hleft := htook.srcsz
    obtain ⟨u, hu, hutook⟩ := unpackLoop_spec bs fuel t
      (fun b hb => hv b (mem_cons_of_mem a hb)) (by rw [htook.src]; exact h2) (by omega)
      (by omega) (by omega)
    rw [unpackLoop, if_pos (by omega), ht]
    exact ⟨u, hu, by simpa using htook.trans hutook⟩

end Unpack

/-- `sproto_pack` gives bytes that are a function of `x` alone, for any buffer and whatever stands
behind `x`, and reads no byte behind it; and `sproto_unpack` gives `x` padded for them. -/
def RoundTrip (x : Bytes) : Prop :=
  ∃ packed : Bytes,
    (∀ (behind : ℕ → UInt8) (bufsz : ℕ) (buffer : ℕ → UInt8),
      ∃ s, sprotoPack x behind bufsz buffer = some s ∧ s.size = packed.length ∧
        s.readEnd ≤ x.length ∧
        (packed.length ≤ bufsz → slice s.buffer 0 packed.length = packed)) ∧
    ∀ (behind : ℕ → UInt8) (bufsz : ℕ) (buffer : ℕ → UInt8),
      ∃ buf, sprotoUnpack (source packed behind) packed.length bufsz buffer =
          some (some ((padded x).length, buf)) ∧
        ((padded x).length ≤ bufsz → slice buf 0 (padded x).length = padded x)

theorem length_padded (x : Bytes) : (padded x).length = 8 * segments x := by
  rw [← slice_zeros, length_slice]

theorem slice_source_self (x : Bytes) (behind : ℕ → UInt8) :
    slice (source x behind) 0 x.length = x := by
  refine ext_getElem (length_slice _ _ _) fun k h₁ h₂ => ?_
  simp [slice, source, h₂]

theorem RoundTrip.fits {x : Bytes} : RoundTrip x → Fits x ∧ ¬ PaddedRun x := by
  rintro ⟨packed, hpack, -⟩
  obtain ⟨s, hs, -⟩ := hpack (fun _ => 0) (packing x).length fun _ => 0
  obtain ⟨hf, -⟩ := fits_of_sprotoPack (fun _ => 0) hs
  refine ⟨hf, fun hx => ?_⟩
  obtain ⟨s, hs, -, hread, -⟩ := hpack (fun _ => 0) (packing x).length fun _ => 0
  have := (fits_of_sprotoPack (fun _ => 0) hs).2 hx le_rfl
  omega

/-- The round trip holds exactly where the sizes fit and the padded segment completes no run. -/
theorem roundTrip_iff (x : Bytes) : RoundTrip x ↔ Fits x ∧ ¬ PaddedRun x := by
  constructor
  · exact RoundTrip.fits
  · rintro ⟨hf, hx⟩
    refine ⟨packing x, fun behind bufsz buffer => sprotoPack_eq behind hx hf,
      fun behind bufsz buffer => ?_⟩
    obtain ⟨hsound, hcontent⟩ := blocks_spec x (segments x)
    rw [slice_zeros] at hcontent
    obtain ⟨t, ht, htook⟩ := @unpackLoop_spec (source (packing x) behind)
      (blocks x (segments x)).all (packing x).length ⟨0, (packing x).length, 0, bufsz, 0, buffer⟩
      hsound.validAll (slice_source_self _ _) rfl le_rfl
      (by rw [hcontent, length_padded]; dsimp only; have := hf.1; omega)
    rw [hcontent] at htook
    refine ⟨t.buffer, ?_, fun hle => ?_⟩
    · rw [sprotoUnpack, ht, Option.map_some, Option.map_some, htook.size]
      simp
    · obtain ⟨-, -, hb⟩ := htook.buffer (by simpa using hle)
      rw [hb]
      exact slice_blit _ _ _

theorem notzero_slice {x : Bytes} (hx : ∀ c ∈ x, c ≠ 0) {a n : ℕ} (h : a + n ≤ x.length) :
    notzero (slice (zeros x) a n) = n := by
  refine (countP_eq_length.2 fun c hc => ?_).trans (length_slice _ _ _)
  obtain ⟨k, hk, rfl⟩ := List.mem_map.1 hc
  have hlt : k < x.length := by
    have := mem_range'_1.1 hk
    omega
  simpa [zeros, source, hlt] using hx _ (getElem_mem hlt)

theorem blocks_of_ones {x : Bytes} (hx : ∀ c ∈ x, c ≠ 0) : ∀ {k : ℕ}, k ≤ 255 → 8 * k ≤ x.length →
    blocks x k = ⟨[], slice (zeros x) 0 (8 * k)⟩
  | 0, _, _ => rfl
  | k + 1, hk, hle => by
    have hfull : notzero (slice (zeros x) (8 * k) 8) = 8 := notzero_slice hx (by omega)
    rw [blocks, blocks_of_ones hx (by omega) (by omega), Blocks.add, Nat.mul_succ 8 k, slice_add,
      Nat.zero_add]
    rcases Nat.eq_zero_or_pos k with h0 | hpos
    · subst h0
      rw [if_pos ⟨hfull, rfl⟩]
      rfl
    · have hne : slice (zeros x) 0 (8 * k) ≠ [] := length_pos_iff.1 (by
        rw [length_slice]
        omega)
      rw [if_neg fun hc => hne hc.2, if_pos ⟨by omega, hne⟩, if_neg (by
        rw [length_slice]
        omega)]

theorem not_roundTrip_of_ones : ¬ ∀ x, RoundTrip x := by
  intro h
  have hlen : (List.replicate 2047 (1 : UInt8)).length = 2047 := List.length_replicate
  have hones : ∀ c ∈ List.replicate 2047 (1 : UInt8), c ≠ 0 := fun c hc => by
    rw [List.eq_of_mem_replicate hc]
    decide
  refine (h (List.replicate 2047 1)).fits.2 ⟨?_, ?_, ?_⟩
  · rw [hlen]
    decide
  · rw [hlen, blocks_of_ones hones (by omega) (by omega), length_slice]
  · have hseg := @notzero_slice _ hones (8 * (2047 / 8)) 7 (by omega)
    rw [hlen, slice_add _ _ 7 1, notzero, List.countP_append]
    exact le_add_right (by rw [← notzero, hseg]; omega)

end SprotoPack

end SkynetGame
