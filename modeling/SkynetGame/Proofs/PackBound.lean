import SkynetGame.Proofs.SprotoPack

/-!
# The packing fits the buffer of `lpack`

A run costs two bytes, and is paid for by the segment that ends it, which has three zeros, or by the
256 segments of it. Only the last run may be paid for by neither.
-/

namespace SkynetGame

open Option

namespace SprotoPack

section Length

variable {b : Blocks} {k m : ℕ} {seg x : Bytes}

/-- What the packing of `k` segments costs, where the run that goes on has `m` of them. -/
structure Blocks.Light (b : Blocks) (k m : ℕ) : Prop where
  run : b.run.length = 8 * m
  le : m ≤ k
  length : (packed b.all).length ≤ 8 * k + 2 * ((k - m) / 256) + if m = 0 then 0 else 2

theorem Blocks.Light.run_eq_nil (h : b.Light k m) : b.run = [] ↔ m = 0 := by
  rw [← List.length_eq_zero_iff, h.run]
  omega

theorem Blocks.Light.add (h : b.Light k m) (hseg : seg.length = 8) :
    ∃ m', (b.add seg).Light (k + 1) m' := by
  have hlen := Blocks.length_add b hseg
  have hc : notzero seg ≤ 8 := hseg ▸ notzero_le seg
  have hrun := h.run
  have hle := h.le
  have hold := h.length
  unfold Blocks.add at hlen ⊢
  simp only [ne_eq, h.run_eq_nil] at hlen ⊢
  by_cases hfirst : notzero seg = 8 ∧ m = 0
  · rw [if_pos hfirst] at hlen ⊢
    rw [if_pos hfirst] at hlen
    refine ⟨1, hseg, by omega, ?_⟩
    rw [hlen, if_neg Nat.one_ne_zero]
    rw [if_pos hfirst.2] at hold
    rw [hfirst.2] at hold
    omega
  rw [if_neg hfirst] at hlen ⊢
  rw [if_neg hfirst] at hlen
  by_cases hin : 6 ≤ notzero seg ∧ ¬ m = 0
  · rw [if_pos hin] at hlen ⊢
    rw [if_pos hin] at hlen
    rw [if_neg hin.2] at hold
    by_cases hmax : b.run.length = 8 * 255
    · rw [if_pos hmax] at hlen ⊢
      refine ⟨0, rfl, Nat.zero_le _, ?_⟩
      rw [hlen, if_pos rfl]
      omega
    · rw [if_neg hmax] at hlen ⊢
      refine ⟨m + 1, by simp only [List.length_append]; omega, by omega, ?_⟩
      rw [hlen, if_neg (Nat.succ_ne_zero m)]
      omega
  · rw [if_neg hin] at hlen ⊢
    rw [if_neg hin] at hlen
    refine ⟨0, rfl, Nat.zero_le _, ?_⟩
    rw [hlen, if_pos rfl]
    split at hold <;> omega

theorem light_blocks (x : Bytes) : ∀ k, ∃ m, (blocks x k).Light k m
  | 0 => ⟨0, rfl, Nat.le_refl 0, Nat.le_refl 0⟩
  | k + 1 => by
    obtain ⟨m, h⟩ := light_blocks x k
    exact h.add (length_slice _ _ _)

theorem notzero_append (a b : Bytes) : notzero (a ++ b) = notzero a + notzero b :=
  List.countP_append

theorem notzero_zeros (n : ℕ) : notzero (List.replicate n 0) = 0 := by simp [notzero]

theorem notzero_padded (h : x.length < 8 * (k + 1)) (hk : 8 * k ≤ x.length) :
    notzero (slice (zeros x) (8 * k) 8) ≤ x.length - 8 * k := by
  have hsplit : slice (zeros x) (8 * k) 8 = slice (zeros x) (8 * k) (x.length - 8 * k) ++
      List.replicate (8 * (k + 1) - x.length) 0 := by
    have h8 : slice (zeros x) (8 * k) 8 =
        slice (zeros x) (8 * k) (x.length - 8 * k + (8 * (k + 1) - x.length)) :=
      congrArg (slice (zeros x) (8 * k)) (by omega)
    rw [h8, slice_add,
      slice_zeros_of_le x (a := 8 * k + (x.length - 8 * k)) _ (by omega)]
  rw [hsplit, notzero_append, notzero_zeros, Nat.add_zero]
  exact (notzero_le _).trans_eq (length_slice _ _ _)

theorem length_packing_le (x : Bytes) : (packing x).length ≤ maxsz x.length := by
  have hseg := length_segments x
  obtain ⟨m, h⟩ := light_blocks x (x.length / 8)
  have hle := h.le
  have hold := h.length
  unfold maxsz packing
  by_cases hmod : 8 * (x.length / 8) = x.length
  · rw [show segments x = x.length / 8 by omega]
    split at hold <;> omega
  · have hpad := notzero_padded (x := x) (k := x.length / 8) (by omega) (by omega)
    have hlen := Blocks.length_add (blocks x (x.length / 8))
      (length_slice (zeros x) (8 * (x.length / 8)) 8)
    simp only [ne_eq, h.run_eq_nil] at hlen
    rw [show segments x = x.length / 8 + 1 by omega, blocks, hlen]
    split at hold <;> split <;> (try split) <;> omega

end Length

section Writes

variable {x : Bytes} {behind : ℕ → UInt8}

theorem Seg.put_beyond (s : Seg) (i : ℕ) (b : UInt8) :
    ((s.put i b).pos : ℤ) + (s.put i b).sz = s.pos + s.sz ∧
      ∀ j : ℕ, (s.pos : ℤ) + s.sz ≤ j → (s.put i b).buffer j = s.buffer j := by
  by_cases hb : b = 0
  · rw [hb, Seg.put_zero]
    exact ⟨rfl, fun _ _ => rfl⟩
  · obtain ⟨-, -, hfull, hroom⟩ := s.put_notzero i hb
    by_cases hsz : 0 < s.sz
    · obtain ⟨hpos, hsz', hbuf⟩ := hroom hsz
      refine ⟨by rw [hpos, hsz']; omega, fun j hj => ?_⟩
      rw [hbuf, Function.update_of_ne (by omega)]
    · obtain ⟨hpos, hsz', hbuf⟩ := hfull (Int.not_lt.1 hsz)
      exact ⟨by rw [hpos, hsz'], fun j _ => by rw [hbuf]⟩

theorem fold_put_beyond (src : ℕ → UInt8) : ∀ (is : List ℕ) (s : Seg),
    ∀ j : ℕ, (s.pos : ℤ) + s.sz ≤ j →
      (is.foldl (fun s i => s.put i (src i)) s).buffer j = s.buffer j
  | [], _, _, _ => rfl
  | i :: is, s, j, hj => by
    obtain ⟨hsum, hput⟩ := s.put_beyond i (src i)
    rw [List.foldl_cons, fold_put_beyond src is _ j (by rw [hsum]; exact hj), hput j hj]

theorem packSeg_beyond (src buffer : ℕ → UInt8) (pos : ℕ) (sz : ℤ) (n : ℕ) {j : ℕ}
    (hj : (pos : ℤ) + sz ≤ j) : (packSeg src buffer pos sz n).1 j = buffer j := by
  have hfold := fold_put_beyond src (List.range 8) ⟨0, 0, pos + 1, sz - 1, buffer⟩ j
    (by dsimp only; omega)
  unfold packSeg
  generalize (List.range 8).foldl (fun s i => s.put i (src i))
    (⟨0, 0, pos + 1, sz - 1, buffer⟩ : Seg) = t at hfold
  dsimp only at hfold ⊢
  by_cases h8 : (if (t.notzero = 7 ∨ t.notzero = 6) ∧ 0 < n then 8 else t.notzero) = 8
  · rw [if_pos h8]
    exact hfold
  · rw [if_neg h8]
    dsimp only
    split
    · exact hfold
    · rw [Function.update_of_ne (by omega)]
      exact hfold

theorem writeFf_beyond (src buffer : ℕ → UInt8) (start des n : ℕ) {j : ℕ}
    (hj : des + 2 + (n + 7) / 8 * 8 ≤ j) : writeFf src start buffer des n j = buffer j := by
  unfold writeFf
  rw [blit_of_le _ _ (by rw [List.length_replicate]; omega),
    blit_of_le _ _ (by rw [length_slice]; omega), Function.update_of_ne (by omega),
    Function.update_of_ne (by omega)]

/-- What is not written yet of the run ends with the packing so far, and nothing behind the buffer was
written. -/
structure Within (room : ℕ) (memory : ℕ → UInt8) (k : ℕ) (s : Pack) : Prop where
  bufsz : s.bufsz = room - s.size
  run : 0 < s.ffN → s.ffDes + 2 + 8 * s.ffN = s.size ∧ s.ffSrc + 8 * s.ffN = 8 * k
  beyond : ∀ j, room ≤ j → s.buffer j = memory j

theorem flush_beyond (x : Bytes) (behind : ℕ → UInt8) {room n : ℕ} {memory : ℕ → UInt8} {s : Pack}
    (hb : s.bufsz = room - s.size) (hrun : s.ffDes + 2 + (n + 7) / 8 * 8 ≤ s.size)
    (hs : ∀ j, room ≤ j → s.buffer j = memory j) :
    (s.flush x behind n).bufsz = room - (s.flush x behind n).size ∧
      (s.flush x behind n).size = s.size ∧
      ∀ j, room ≤ j → (s.flush x behind n).buffer j = memory j := by
  unfold Pack.flush
  split
  · next h0 =>
    refine ⟨hb, rfl, fun j hj => ?_⟩
    dsimp only
    rw [writeFf_beyond _ _ _ _ _ (by omega), hs j hj]
  · exact ⟨hb, rfl, hs⟩

theorem Within.step {room k : ℕ} {memory : ℕ → UInt8} {s s' : Pack} (h : Within room memory k s)
    (hs : s.step x behind (8 * k) = some s') : Within room memory (k + 1) s' := by
  obtain ⟨-, h1, h2, h3⟩ :=
    @packSeg_spec (segment x behind (8 * k)) s.buffer s.size s.bufsz s.ffN
  rw [slice_segment] at h1 h2 h3
  have hsize : (s.put behind x (8 * k)).size =
      s.size + (packSeg (segment x behind (8 * k)) s.buffer s.size s.bufsz s.ffN).2 := rfl
  have hbufsz : (s.put behind x (8 * k)).bufsz = room - (s.put behind x (8 * k)).size := by
    have : (s.put behind x (8 * k)).bufsz =
        s.bufsz - (packSeg (segment x behind (8 * k)) s.buffer s.size s.bufsz s.ffN).2 := rfl
    rw [this, hsize, h.bufsz]
    omega
  have hbeyond : ∀ j, room ≤ j → (s.put behind x (8 * k)).buffer j = memory j := fun j hj => by
    have hb := h.bufsz
    exact (packSeg_beyond _ _ _ _ _ (by omega)).trans (h.beyond j hj)
  have hsrc : (s.put behind x (8 * k)).ffSrc = s.ffSrc := rfl
  have hdes : (s.put behind x (8 * k)).ffDes = s.ffDes := rfl
  have hn : (s.put behind x (8 * k)).ffN = s.ffN := rfl
  rw [step_eq] at hs
  generalize s.put behind x (8 * k) = t at *
  dsimp only at hs
  split at hs
  · cases hs
  by_cases hfirst : notzero (slice (zeros x) (8 * k) 8) = 8 ∧ s.ffN = 0
  · rw [if_pos hfirst] at hs
    obtain rfl := some.inj hs
    rw [h1 hfirst] at hsize
    exact ⟨hbufsz, fun _ => ⟨by dsimp only; omega, by dsimp only; omega⟩, hbeyond⟩
  rw [if_neg hfirst] at hs
  by_cases hin : 6 ≤ notzero (slice (zeros x) (8 * k) 8) ∧ 0 < s.ffN
  · rw [if_pos hin] at hs
    rw [h2 hin] at hsize
    obtain ⟨hrun, hrun'⟩ := h.run hin.2
    by_cases hmax : s.ffN = 255
    · rw [if_pos hmax] at hs
      obtain rfl := some.inj hs
      obtain ⟨f1, f2, f3⟩ := flush_beyond x behind (n := 256 * 8) hbufsz
        (by omega) hbeyond
      exact ⟨f1, fun h0 => absurd h0 (Nat.lt_irrefl 0), f3⟩
    · rw [if_neg hmax] at hs
      obtain rfl := some.inj hs
      exact ⟨hbufsz, fun _ => ⟨by dsimp only; omega, by dsimp only; omega⟩, hbeyond⟩
  · rw [if_neg hin] at hs
    by_cases hpos : 0 < s.ffN
    · rw [if_pos hpos] at hs
      obtain rfl := some.inj hs
      obtain ⟨hrun, -⟩ := h.run hpos
      obtain ⟨f1, f2, f3⟩ := flush_beyond x behind (n := s.ffN * 8) hbufsz
        (by omega) hbeyond
      exact ⟨f1, fun h0 => absurd h0 (Nat.lt_irrefl 0), f3⟩
    · rw [if_neg hpos] at hs
      obtain rfl := some.inj hs
      exact ⟨hbufsz, fun h0 => absurd h0 (by omega), hbeyond⟩

theorem within_loop {room : ℕ} {memory : ℕ → UInt8} : ∀ {k : ℕ} {s : Pack},
    packLoop x behind room memory k = some s → Within room memory k s
  | 0, s, h => by
    obtain rfl := some.inj h
    exact ⟨by simp, fun h0 => absurd h0 (Nat.lt_irrefl 0), fun _ _ => rfl⟩
  | k + 1, s, h => by
    rw [packLoop_succ] at h
    obtain ⟨t, ht, hs⟩ := bind_eq_some_iff.1 h
    exact (within_loop ht).step hs

theorem sprotoPack_beyond {room : ℕ} {memory : ℕ → UInt8} {s : Pack}
    (h : sprotoPack x behind room memory = some s) : ∀ j, room ≤ j → s.buffer j = memory j := by
  obtain ⟨t, ht, rfl⟩ := map_eq_some_iff.1 h
  have hw := within_loop ht
  have hseg := length_segments x
  have hsegments : segments x = (x.length + 7) / 8 := rfl
  split
  · next h1 =>
    obtain ⟨hrun, -⟩ := hw.run (by omega)
    exact (flush_beyond x behind hw.bufsz (by omega) hw.beyond).2.2
  · split
    · next h1 =>
      obtain ⟨hrun, hrun'⟩ := hw.run (by omega)
      exact (flush_beyond x behind hw.bufsz (by omega) hw.beyond).2.2
    · exact hw.beyond

theorem flush_size (s : Pack) (n : ℕ) : (s.flush x behind n).size = s.size := by
  unfold Pack.flush
  split <;> rfl

theorem step_size {s s' : Pack} {i : ℕ} (h : s.step x behind i = some s') :
    s'.size = (s.put behind x i).size := by
  rw [step_eq] at h
  dsimp only at h
  split at h
  · cases h
  split at h
  · cases h
    rfl
  split at h
  · split at h
    · cases h
      exact flush_size _ _
    · cases h
      rfl
  · split at h
    · cases h
      exact flush_size _ _
    · cases h
      rfl

theorem sprotoPack_size (hf : Fits x) (behind : ℕ → UInt8) (room : ℕ) (memory : ℕ → UInt8) :
    ∃ s, sprotoPack x behind room memory = some s ∧ s.size = (packing x).length := by
  obtain ⟨s, hs⟩ := @exists_loop x behind room memory (segments x) le_rfl hf.1 hf.2
  have hsize : s.size = (packing x).length := by
    rcases hk : segments x with _ | k
    · rw [hk] at hs
      obtain rfl := some.inj hs
      rw [packing, hk]
      rfl
    · rw [hk, packLoop_succ] at hs
      obtain ⟨t, ht, hst⟩ := bind_eq_some_iff.1 hs
      rw [step_size hst, (tracks_loop behind (by omega) (by omega) ht).put_size behind, packing, hk,
        blocks]
  rw [sprotoPack, show (x.length + 7) / 8 = segments x from rfl, hs, map_some]
  refine ⟨_, rfl, ?_⟩
  split
  · exact (flush_size _ _).trans hsize
  · split
    · exact (flush_size _ _).trans hsize
    · exact hsize

end Writes

section Lpack

variable {x : Bytes} {behind buffer : ℕ → UInt8} {osz : ℕ}

/-- A size that `expand_buffer` comes to. -/
def Doubled (osz : ℕ) : Prop := ∃ i ≤ 12, osz = ENCODE_BUFFERSIZE * 2 ^ i

theorem double_eq {nsz i n : ℕ} (hin : i < n) (hn : nsz ≤ ENCODE_BUFFERSIZE * 2 ^ n) (hmax : n ≤ 19)
    {fuel : ℕ} (hfuel : n - i ≤ fuel) : ∃ k, i < k ∧ k ≤ n ∧
      double nsz fuel (ENCODE_BUFFERSIZE * 2 ^ i) = some (ENCODE_BUFFERSIZE * 2 ^ k) ∧
      nsz ≤ ENCODE_BUFFERSIZE * 2 ^ k := by
  induction fuel generalizing i with
  | zero => omega
  | succ fuel ih =>
    have htwice : ENCODE_BUFFERSIZE * 2 ^ i * 2 = ENCODE_BUFFERSIZE * 2 ^ (i + 1) := by
      rw [Nat.pow_succ, Nat.mul_assoc]
    have hfit : ENCODE_BUFFERSIZE * 2 ^ (i + 1) ≤ INT_MAX :=
      (Nat.mul_le_mul_left _ (Nat.pow_le_pow_right (by decide) (by omega : i + 1 ≤ 19))).trans
        (by decide)
    rw [double, htwice, if_neg (Nat.not_lt.2 hfit)]
    by_cases hlt : ENCODE_BUFFERSIZE * 2 ^ (i + 1) < nsz
    · rw [if_pos hlt]
      have hne : i + 1 ≠ n := fun heq => by rw [heq] at hlt; omega
      obtain ⟨k, hik, hkn, hd, hle⟩ := ih (i := i + 1) (by omega) (by omega)
      exact ⟨k, by omega, hkn, hd, hle⟩
    · rw [if_neg hlt]
      exact ⟨i + 1, Nat.lt_succ_self i, hin, rfl, Nat.not_lt.1 hlt⟩

theorem expandBuffer_eq (h : Doubled osz) {nsz : ℕ} (hlt : osz < nsz) :
    (nsz ≤ ENCODE_BUFFERSIZE * 2 ^ 12 →
      ∃ osz', expandBuffer osz nsz = some (.ok osz') ∧ nsz ≤ osz') ∧
    (ENCODE_BUFFERSIZE * 2 ^ 12 < nsz → nsz ≤ ENCODE_BUFFERSIZE * 2 ^ 19 →
      expandBuffer osz nsz = some (.error (.tooLarge ENCODE_MAXSIZE))) := by
  obtain ⟨i, hi, rfl⟩ := h
  have hmono : ∀ {a b : ℕ}, a ≤ b → ENCODE_BUFFERSIZE * 2 ^ a ≤ ENCODE_BUFFERSIZE * 2 ^ b :=
    fun hab => Nat.mul_le_mul_left _ (Nat.pow_le_pow_right (by decide) hab)
  constructor
  · intro hn
    have hin : i < 12 := by
      by_contra hge
      have := hmono (Nat.le_of_not_lt hge)
      omega
    obtain ⟨k, -, hk, hd, hle⟩ := double_eq hin hn (by omega) (by omega : 12 - i ≤ 32)
    have hmax : ¬ ENCODE_MAXSIZE < ENCODE_BUFFERSIZE * 2 ^ k :=
      Nat.not_lt.2 ((hmono hk).trans (by decide))
    refine ⟨_, ?_, hle⟩
    simp only [expandBuffer, hd, bind_eq_bind, bind_some, if_neg hmax]
    rfl
  · intro hlarge hn
    obtain ⟨k, -, -, hd, hle⟩ := double_eq (by omega : i < 19) hn (by omega) (by omega : 19 - i ≤ 32)
    have hk : 13 ≤ k := by
      by_contra hlt
      have := hmono (by omega : k ≤ 12)
      omega
    have hmax : ENCODE_MAXSIZE < ENCODE_BUFFERSIZE * 2 ^ k :=
      Nat.lt_of_lt_of_le (by decide : ENCODE_MAXSIZE < ENCODE_BUFFERSIZE * 2 ^ 13) (hmono hk)
    simp only [expandBuffer, hd, bind_eq_bind, bind_some, if_pos hmax]
    rfl

theorem doubled_of_double {nsz fuel i r : ℕ}
    (h : double nsz fuel (ENCODE_BUFFERSIZE * 2 ^ i) = some r) : ∃ k, r = ENCODE_BUFFERSIZE * 2 ^ k := by
  induction fuel generalizing i with
  | zero => cases h
  | succ fuel ih =>
    have htwice : ENCODE_BUFFERSIZE * 2 ^ i * 2 = ENCODE_BUFFERSIZE * 2 ^ (i + 1) := by
      rw [Nat.pow_succ, Nat.mul_assoc]
    rw [double, htwice] at h
    split at h
    · cases h
    split at h
    · exact ih h
    · exact ⟨i + 1, (some.inj h).symm⟩

theorem doubled_of_expandBuffer (h : Doubled osz) {nsz osz' : ℕ}
    (he : expandBuffer osz nsz = some (.ok osz')) : Doubled osz' := by
  obtain ⟨i, -, rfl⟩ := h
  obtain ⟨r, hr, hif⟩ := bind_eq_some_iff.1 he
  obtain ⟨k, rfl⟩ := doubled_of_double hr
  split at hif
  · cases hif
  · next hmax =>
    cases hif
    refine ⟨k, ?_, rfl⟩
    by_contra hk
    refine hmax (Nat.lt_of_lt_of_le (by decide : ENCODE_MAXSIZE < ENCODE_BUFFERSIZE * 2 ^ 13) ?_)
    exact Nat.mul_le_mul_left _ (Nat.pow_le_pow_right (by decide) (by omega))

theorem lpack_eq (hint : maxsz x.length ≤ INT_MAX) {osz' : ℕ}
    (hbuf : outputSize osz x.length = some (.ok osz')) {s : Pack} (hs : sprotoPack x behind (maxsz x.length) buffer = some s)
    (hsize : s.size ≤ maxsz x.length) : lpack x behind osz buffer = some (.ok (osz', s)) := by
  rw [lpack, if_neg (Nat.not_lt.2 hint), hbuf]
  simp only [bind_eq_bind, bind_some, hs, if_neg (Nat.not_lt.2 hsize)]
  rfl

theorem doubled_of_reachable (h : packer.Reachable osz) : Doubled osz := by
  refine h.invariant ⟨0, Nat.zero_le _, rfl⟩ fun osz call osz' hd _ hst => ?_
  obtain ⟨r, hr, rfl⟩ := map_eq_some_iff.1 hst
  cases r with
  | error e => exact hd
  | ok p =>
    rw [lpack] at hr
    split at hr
    · cases hr
    obtain ⟨res, hres, hr⟩ := bind_eq_some_iff.1 hr
    cases res with
    | error e => cases hr
    | ok osz₁ =>
      obtain ⟨s, -, hr⟩ := bind_eq_some_iff.1 hr
      split at hr
      · cases hr
      cases hr
      unfold outputSize at hres
      split at hres
      · exact doubled_of_expandBuffer hd hres
      · cases hres
        exact hd

theorem fits_of_maxsz (hint : maxsz x.length ≤ INT_MAX) : Fits x := by
  have hseg := length_segments x
  have hlen := length_packing_le x
  unfold maxsz at hint hlen
  have hmax : INT_MAX = 0x7fffffff := rfl
  exact ⟨by omega, by omega⟩

theorem sprotoPack_within (hint : maxsz x.length ≤ INT_MAX) (behind buffer : ℕ → UInt8) :
    ∃ s, sprotoPack x behind (maxsz x.length) buffer = some s ∧ s.size ≤ maxsz x.length ∧
      ∀ j, maxsz x.length ≤ j → s.buffer j = buffer j := by
  obtain ⟨s, hs, hsize⟩ := sprotoPack_size (fits_of_maxsz hint) behind (maxsz x.length)
    buffer
  exact ⟨s, hs, hsize.trans_le (length_packing_le x), sprotoPack_beyond hs⟩

/-- After any calls before, `sproto_pack` returns no more than `lpack` reckons with and writes nothing
behind that, and `lpack` raises an error just where the buffer would be too large. -/
theorem lpack_within (h : packer.Reachable osz) (x : Bytes) (hint : maxsz x.length ≤ INT_MAX)
    (behind buffer : ℕ → UInt8) :
    (∃ s, sprotoPack x behind (maxsz x.length) buffer = some s ∧ s.size ≤ maxsz x.length ∧
      ∀ j, maxsz x.length ≤ j → s.buffer j = buffer j) ∧
    (maxsz x.length ≤ ENCODE_BUFFERSIZE * 2 ^ 12 → ∃ osz' s,
      lpack x behind osz buffer = some (.ok (osz', s)) ∧ maxsz x.length ≤ osz' ∧
      sprotoPack x behind (maxsz x.length) buffer = some s) ∧
    (ENCODE_BUFFERSIZE * 2 ^ 12 < maxsz x.length → maxsz x.length ≤ ENCODE_BUFFERSIZE * 2 ^ 19 →
      lpack x behind osz buffer = some (.error (.tooLarge ENCODE_MAXSIZE))) := by
  have hd := doubled_of_reachable h
  obtain ⟨s, hs, hsize, hbeyond⟩ := sprotoPack_within hint behind buffer
  refine ⟨⟨s, hs, hsize, hbeyond⟩, fun hn => ?_, fun hlarge hn => ?_⟩
  · by_cases hlt : osz < maxsz x.length
    · obtain ⟨osz', he, hle⟩ := (expandBuffer_eq hd hlt).1 hn
      exact ⟨osz', s, lpack_eq hint ((if_pos hlt).trans he) hs hsize, hle, hs⟩
    · exact ⟨osz, s, lpack_eq hint (if_neg hlt) hs hsize, Nat.not_lt.1 hlt, hs⟩
  · have hlt : osz < maxsz x.length := by
      obtain ⟨i, hi, rfl⟩ := hd
      refine Nat.lt_of_le_of_lt ?_ hlarge
      exact Nat.mul_le_mul_left _ (Nat.pow_le_pow_right (by decide) hi)
    have hout : outputSize osz x.length = some (.error (.tooLarge ENCODE_MAXSIZE)) :=
      (if_pos hlt).trans ((expandBuffer_eq hd hlt).2 hlarge hn)
    rw [lpack, if_neg (Nat.not_lt.2 hint), hout]
    rfl

/-- 2047 bytes of 1, whose packing takes all that is reckoned with but two bytes. -/
theorem lpack_within_ones : ∃ osz s,
    lpack (List.replicate 2047 1) (fun _ => 0) ENCODE_BUFFERSIZE (fun _ => 0) = some (.ok (osz, s)) ∧
      s.size ≤ 2051 := by
  have hmax : maxsz (List.replicate 2047 (1 : UInt8)).length = 2051 := by
    rw [List.length_replicate]
    rfl
  obtain ⟨⟨s, hs, hsize, -⟩, hok, -⟩ := lpack_within
    (.init : packer.Reachable ENCODE_BUFFERSIZE) (List.replicate 2047 1) (by rw [hmax]; decide)
    (fun _ => 0) (fun _ => 0)
  obtain ⟨osz, s', hl, -, hs'⟩ := hok (by rw [hmax]; decide)
  rw [hs, Option.some.injEq] at hs'
  exact ⟨osz, s', hl, by rw [← hs', ← hmax]; exact hsize⟩

/-- 8 MiB are two bytes too many for a buffer that is doubled. -/
theorem lpack_tooLarge :
    lpack (List.replicate (2 ^ 23) 0) (fun _ => 0) ENCODE_BUFFERSIZE (fun _ => 0) =
      some (.error (.tooLarge ENCODE_MAXSIZE)) := by
  have hmax : maxsz (List.replicate (2 ^ 23) (0 : UInt8)).length = 8396802 := by
    rw [List.length_replicate]
    decide
  have hlarge : expandBuffer ENCODE_BUFFERSIZE 8396802 = some (.error (.tooLarge ENCODE_MAXSIZE)) := by
    decide
  rw [lpack, outputSize, hmax, if_neg (by decide), if_pos (by decide), hlarge]
  rfl

end Lpack

end SprotoPack

end SkynetGame
