import SkynetGame.Proofs.LuaSeri

/-!
# What is unpacked

A value is read back from its bytes whatever stands behind them; its table is built from the array
and the other entries, which are those of the table that was packed (`perm_parts`).
-/

namespace SkynetGame

open List Option

namespace LuaSeri

open LuaValue

theorem read_append (a r : Bytes) : read (a ++ r) a.length = some (a, r) := by
  rw [read, if_neg (by simp), take_left, drop_left]

theorem read_cons (c : UInt8) (r : Bytes) : read (c :: r) 1 = some ([c], r) := read_append [c] r

theorem read_le (w n : ℕ) (r : Bytes) :
    read (Endian.le w n ++ r) w = some (Endian.le w n, r) := by
  have := read_append (Endian.le w n) r
  rwa [Endian.length_le] at this

theorem ofLe_singleton (c : UInt8) : Endian.ofLe [c] = c.toNat := Endian.ofLe_cons c []

theorem toNat_combineType {t c : ℕ} (ht : t < 8) (hc : c < 32) :
    (combineType t c).toNat = t + c * 8 := by
  rw [combineType, UInt8.toNat_ofNat']
  omega

theorem ofLe_word (x : UInt16) : Endian.ofLe (Endian.le 2 x.toNat) = x.toNat :=
  Endian.ofLe_le_of_lt x.toNat_lt

theorem ofLe_dword (x : UInt32) : Endian.ofLe (Endian.le 4 x.toNat) = x.toNat :=
  Endian.ofLe_le_of_lt x.toNat_lt

theorem ofLe_qword (x : UInt64) : Endian.ofLe (Endian.le 8 x.toNat) = x.toNat :=
  Endian.ofLe_le_of_lt x.toNat_lt

theorem ofNat_low {v : Int64} (h : 0 ≤ v) {m : ℕ} (hm : v.toInt < m) :
    Int64.ofNat (v.toUInt64.toNat % m) = v := by
  have hnat := Int64.toNat_toUInt64_of_le h
  have hlt : v.toNatClampNeg < m := by
    rw [Int64.toNatClampNeg, Int.toNat_lt (Int64.le_iff_toInt_le.1 h)]
    exact hm
  rw [hnat, Nat.mod_eq_of_lt hlt, Int64.ofNat_toNatClampNeg v h]

theorem getInteger_bytes (v : Int64) : ∃ c payload, integerBytes v = combineType 2 c :: payload ∧
    c < 8 ∧ ∀ r, getInteger (payload ++ r) c = some (v, r) := by
  have hbyte : v < 0x100 ↔ v.toInt < 0x100 := Int64.lt_iff_toInt_lt
  have hword : v < 0x10000 ↔ v.toInt < 0x10000 := Int64.lt_iff_toInt_lt
  unfold integerBytes
  split
  · next hz => exact ⟨0, [], rfl, by omega, fun r => by rw [hz]; rfl⟩
  · split
    · refine ⟨6, _, rfl, by omega, fun r => ?_⟩
      rw [getInteger, read_le, map_some]
      dsimp only
      rw [ofLe_qword]
      simp
    · next hfit =>
      have hfit : v = v.toInt32.toInt64 := not_not.1 hfit
      split
      · refine ⟨4, _, rfl, by omega, fun r => ?_⟩
        rw [getInteger, read_le, map_some]
        dsimp only
        rw [ofLe_dword]
        simp [← hfit]
      · next hpos =>
        have hpos : 0 ≤ v := Int64.not_lt.1 hpos
        split
        · next hlt =>
          refine ⟨1, [v.toUInt64.toUInt8], rfl, by omega, fun r => ?_⟩
          rw [singleton_append, getInteger, read_cons, map_some]
          dsimp only
          rw [ofLe_singleton, UInt64.toNat_toUInt8, ofNat_low hpos (hbyte.1 hlt)]
        · split
          · next hlt =>
            refine ⟨2, _, rfl, by omega, fun r => ?_⟩
            rw [getInteger, read_le, map_some]
            dsimp only
            rw [ofLe_word, UInt64.toNat_toUInt16, ofNat_low hpos (hword.1 hlt)]
          · refine ⟨4, _, rfl, by omega, fun r => ?_⟩
            rw [getInteger, read_le, map_some]
            dsimp only
            rw [ofLe_dword]
            have hlow : v.toUInt64.toUInt32.toInt32 = v.toInt32 := by
              rw [← Int32.toBitVec_inj]
              simp [BitVec.signExtend_eq_setWidth_of_le]
            rw [UInt32.ofNat_toNat, hlow, ← hfit]

/-- The entries of the array that are not `nil`. -/
def arrayEntries (t : Entries) (i n : ℕ) : Entries :=
  (List.range' i n).flatMap fun j =>
    if (rawgeti t j).isNil then [] else [(.integer (Int64.ofNat j), rawgeti t j)]

theorem ofNat_inj {i j : ℕ} (hi : i < 2 ^ 63) (hj : j < 2 ^ 63) :
    Int64.ofNat i = Int64.ofNat j ↔ i = j := by
  rw [← Int64.toInt_inj, Int64.toInt_ofNat', Int64.toInt_ofNat']
  simp only [Int64.size]
  rw [Int.bmod_eq_of_le (by omega) (by omega), Int.bmod_eq_of_le (by omega) (by omega)]
  omega

theorem inArray_iff {n : ℕ} (hn : n < 2 ^ 32) {k : LuaValue} :
    inArray n k = true ↔ ∃ j, 1 ≤ j ∧ j ≤ n ∧ k = .integer (Int64.ofNat j) := by
  constructor
  · intro h
    obtain ⟨x, rfl⟩ : ∃ x, k = .integer x := by
      rcases k with _ | _ | x | _ | _ | _ | _ <;> first | exact ⟨_, rfl⟩ | exact nomatch h
    rw [inArray, Bool.and_eq_true, decide_eq_true_eq, decide_eq_true_eq, Int64.lt_iff_toInt_lt] at h
    have hpos : 0 < x.toInt := h.1
    refine ⟨x.toInt.toNat, by omega, by omega, ?_⟩
    exact congrArg _ (Int64.ofNat_toNatClampNeg x (Int64.le_of_lt (Int64.lt_iff_toInt_lt.2 hpos))).symm
  · rintro ⟨j, hj, hjn, rfl⟩
    have hnat : (Int64.ofNat j).toInt = j := by
      rw [Int64.toInt_ofNat']
      exact Int.bmod_eq_of_le (by simp only [Int64.size]; omega) (by simp only [Int64.size]; omega)
    rw [inArray, Bool.and_eq_true, decide_eq_true_eq, decide_eq_true_eq, Int64.lt_iff_toInt_lt, hnat]
    exact ⟨by change (0 : ℤ) < j; omega, by omega⟩

theorem mem_arrayEntries {t : Entries} {n : ℕ} {p : LuaValue × LuaValue} :
    p ∈ arrayEntries t 1 n ↔ ∃ j, 1 ≤ j ∧ j ≤ n ∧ (rawgeti t j).isNil = false ∧
      p = (.integer (Int64.ofNat j), rawgeti t j) := by
  rw [arrayEntries, mem_flatMap]
  refine exists_congr fun j => ?_
  rw [mem_range'_1]
  rcases hnil : (rawgeti t j).isNil with _ | _
  · rw [if_neg Bool.false_ne_true, mem_singleton]
    constructor
    · rintro ⟨hj, rfl⟩
      exact ⟨hj.1, by omega, rfl, rfl⟩
    · rintro ⟨hj, hjn, -, rfl⟩
      exact ⟨⟨hj, by omega⟩, rfl⟩
  · rw [if_pos rfl]
    constructor
    · rintro ⟨-, hp⟩
      exact nomatch hp
    · rintro ⟨-, -, hf, -⟩
      exact nomatch hf

theorem nodup_arrayEntries (t : Entries) {n : ℕ} (hn : n < 2 ^ 32) :
    (arrayEntries t 1 n).Nodup := by
  rw [arrayEntries, nodup_flatMap]
  refine ⟨fun j _ => ?_, ?_⟩
  · split
    · exact nodup_nil
    · exact nodup_singleton _
  · have hne : (List.range' 1 n).Pairwise (· ≠ ·) := nodup_range'
    refine hne.imp_of_mem fun {i j} hi hj hne => ?_
    rw [mem_range'_1] at hi hj
    intro p hpi hpj
    dsimp only at hpi hpj
    split at hpi
    · exact nomatch hpi
    · split at hpj
      · exact nomatch hpj
      · have := congrArg Prod.fst ((mem_singleton.1 hpi).symm.trans (mem_singleton.1 hpj))
        exact hne ((ofNat_inj (by omega) (by omega)).1 (LuaValue.integer.inj this))

theorem perm_parts {t : Entries} {n : ℕ} (hn : n < 2 ^ 32)
    (hd : t.Pairwise fun p q => p.1.rawEqual q.1 = false) (hv : ∀ p ∈ t, p.2.isNil = false) :
    t.Perm (arrayEntries t 1 n ++ t.filter fun p => !inArray n p.1) := by
  refine (filter_append_perm (fun p => inArray n p.1) t).symm.trans (List.Perm.append_right _ ?_)
  have hnodup : (t.filter fun p => inArray n p.1).Nodup := by
    refine (hd.filter fun p => inArray n p.1).imp_of_mem fun {p q} hp _ hpq he => ?_
    obtain ⟨j, -, -, hk⟩ := (inArray_iff hn).1 (mem_filter.1 hp).2
    rw [← he, hk, rawEqual_integer.2 rfl] at hpq
    exact nomatch hpq
  refine (perm_ext_iff_of_nodup hnodup (nodup_arrayEntries t hn)).2 fun p => ?_
  rw [mem_filter, inArray_iff hn, mem_arrayEntries]
  constructor
  · rintro ⟨hp, j, hj, hjn, hk⟩
    have hg : rawgeti t j = p.2 := rawget_of_mem hd hp hk
    refine ⟨j, hj, hjn, by rw [hg]; exact hv p hp, ?_⟩
    rw [hg, ← hk]
  · rintro ⟨j, hj, hjn, hnil, rfl⟩
    exact ⟨mem_of_rawget hnil, j, hj, hjn, rfl⟩

section Unpack

variable (rawlen : Entries → ℕ)

theorem unpackOne_cons {t c : ℕ} (ht : t < 8) (hc : c < 32) (fuel : ℕ) (r : Bytes) :
    unpackOne rawlen (fuel + 1) (combineType t c :: r) =
      pushValue rawlen (unpackOne rawlen fuel) r t c := by
  have hcombine := toNat_combineType ht hc
  rw [unpackOne, read_cons, bind_eq_bind, bind_some]
  dsimp only
  rw [ofLe_singleton, hcombine, (by omega : (t + c * 8) % 8 = t), (by omega : (t + c * 8) / 8 = c)]

theorem getQword_le (x : UInt64) (r : Bytes) :
    getQword (Endian.le 8 x.toNat ++ r) = some (x, r) := by
  rw [getQword, read_le, map_some]
  dsimp only
  rw [ofLe_qword, UInt64.ofNat_toNat]

theorem getBuffer_append {s : Bytes} (hs : s.length < 2 ^ 31) (r : Bytes) :
    getBuffer (s ++ r) s.length = some (s, r) := by
  rw [getBuffer, if_pos hs, read_append]

/-- The value is read back, as the same value, from its bytes. -/
def Reads (one : Bytes → Option (LuaValue × Bytes)) (v : LuaValue) : Prop :=
  ∀ r, ∃ w, one (encode v ++ r) = some (w, r) ∧ Same v w

theorem reads_scalar {d : ℕ} {v : LuaValue} (h : Valid d v) (hv : ∀ n t, v ≠ .table n t)
    (fuel : ℕ) : Reads (unpackOne rawlen (fuel + 1)) v := by
  intro r
  rcases h with _ | ⟨_, v⟩ | ⟨_, v⟩ | ⟨_, v⟩ | ⟨_, p⟩ | ⟨_, hs⟩ | _
  · refine ⟨_, ?_, .nil⟩
    rw [encode]
    exact unpackOne_cons rawlen (t := 0) (c := 0) (by omega) (by omega) fuel r
  · refine ⟨_, ?_, .boolean v⟩
    have hc : v.toNat < 32 := by rcases v with _ | _ <;> decide
    rw [encode, singleton_append, unpackOne_cons rawlen (by omega) hc]
    rcases v with _ | _ <;> rfl
  · obtain ⟨c, payload, hbytes, hc, hget⟩ := getInteger_bytes v
    refine ⟨_, ?_, .integer v⟩
    rw [encode, hbytes, cons_append, unpackOne_cons rawlen (by omega) (by omega), pushValue,
      if_neg (by omega), hget, map_some]
  · refine ⟨_, ?_, .number v⟩
    rw [encode, cons_append, unpackOne_cons rawlen (by omega) (by omega), pushValue,
      if_pos rfl, getQword_le, map_some]
  · refine ⟨_, ?_, .lightuserdata p⟩
    rw [encode, cons_append, show (3 : UInt8) = combineType 3 0 from rfl,
      unpackOne_cons rawlen (by omega) (by omega), pushValue, getQword_le, map_some]
  · next s =>
    refine ⟨_, ?_, .string s⟩
    rw [encode, stringBytes, maxCookie]
    split
    · next hlt =>
      rw [cons_append, unpackOne_cons rawlen (by omega) hlt, pushValue,
        getBuffer_append hs, map_some]
    · split
      · next hlt =>
        rw [cons_append, unpackOne_cons rawlen (by omega) (by omega), pushValue, if_pos rfl,
          append_assoc, read_le, bind_some]
        dsimp only
        rw [Endian.ofLe_le_of_lt hlt, getBuffer_append hs, map_some]
      · rw [cons_append, unpackOne_cons rawlen (by omega) (by omega), pushValue,
          if_neg (by omega), if_pos rfl, append_assoc, read_le, bind_some]
        dsimp only
        rw [Endian.ofLe_le_of_lt (by omega), getBuffer_append hs, map_some]
  · exact absurd rfl (hv _ _)

section Table

variable {one : Bytes → Option (LuaValue × Bytes)}

theorem unpackArray_spec {t : Entries} (r : Bytes) : ∀ (n i : ℕ) {es t₀ : Entries},
    (∀ j, i ≤ j → j < i + n → Reads one (rawgeti t j)) → i + n ≤ 2 ^ 32 → SameEntries es t₀ →
    (∀ p ∈ es, ∃ j < i, p.1 = .integer (Int64.ofNat j)) →
    ∃ t₁, unpackArray one n i t₀ ((List.range' i n).flatMap (fun j => encode (rawgeti t j)) ++ r) =
      some (t₁, r) ∧ SameEntries (es ++ arrayEntries t i n) t₁
  | 0, i, es, t₀, _, _, hs, _ => ⟨t₀, rfl, by rwa [arrayEntries, range'_zero, flatMap_nil,
      append_nil]⟩
  | n + 1, i, es, t₀, ho, hi, hs, hkeys => by
    have ho' : ∀ j, i + 1 ≤ j → j < i + 1 + n → Reads one (rawgeti t j) :=
      fun j hj hjn => ho j (by omega) (by omega)
    obtain ⟨w, hw, hsame⟩ := ho i (Nat.le_refl i) (by omega) ((List.range' (i + 1) n).flatMap
      (fun j => encode (rawgeti t j)) ++ r)
    have hnew : ∀ p ∈ t₀, p.1.rawEqual (.integer (Int64.ofNat i)) = false := fun p hp => by
      obtain ⟨q, hq, hqp⟩ := hs.mem hp
      obtain ⟨j, hj, hkey⟩ := hkeys q hq
      rw [Same.rawEqual hqp (.integer _), hkey, LuaValue.rawEqual]
      refine beq_eq_false_iff_ne.2 fun he => ?_
      rw [ofNat_inj (by omega) (by omega)] at he
      omega
    rw [range'_succ, flatMap_cons, append_assoc, unpackArray, hw,
      bind_eq_bind, bind_some]
    dsimp only
    rcases hnil : (rawgeti t i).isNil with _ | _
    · rw [rawset_new (k := .integer (Int64.ofNat i)) trivial (hsame.isNil.trans hnil) hnew, bind_eq_bind,
        bind_some]
      have hs' : SameEntries (es ++ [(.integer (Int64.ofNat i), rawgeti t i)])
          (t₀ ++ [(.integer (Int64.ofNat i), w)]) := hs.append (.cons (.integer _) hsame .nil)
      obtain ⟨t₁, ht₁, hs₁⟩ := unpackArray_spec r n (i + 1) ho' (by omega) hs' fun p hp => by
        rcases mem_append.1 hp with hp | hp
        · obtain ⟨j, hj, hkey⟩ := hkeys p hp
          exact ⟨j, by omega, hkey⟩
        · rw [mem_singleton.1 hp]
          exact ⟨i, by omega, rfl⟩
      refine ⟨t₁, ht₁, ?_⟩
      rw [arrayEntries, range'_succ, flatMap_cons, hnil, if_neg Bool.false_ne_true,
        ← append_assoc]
      exact hs₁
    · rw [rawset_nil (hsame.isNil.trans hnil) hnew, bind_eq_bind,
        bind_some]
      obtain ⟨t₁, ht₁, hs₁⟩ := unpackArray_spec r n (i + 1) ho' (by omega) hs fun p hp => by
        obtain ⟨j, hj, hkey⟩ := hkeys p hp
        exact ⟨j, by omega, hkey⟩
      refine ⟨t₁, ht₁, ?_⟩
      rw [arrayEntries, range'_succ, flatMap_cons, hnil, if_pos rfl, nil_append]
      exact hs₁

theorem unpackHash_spec (hnil : Reads one .nil) (r : Bytes) : ∀ (rest : Entries) {es t₀ : Entries}
    {fuel : ℕ}, rest.length < fuel → SameEntries es t₀ →
    (es ++ rest).Pairwise (fun p q => p.1.rawEqual q.1 = false) →
    (∀ p ∈ rest, p.1.IsKey ∧ p.2.isNil = false ∧ Reads one p.1 ∧ Reads one p.2) →
    ∃ t₁, unpackHash one fuel t₀ (rest.flatMap (fun p => encode p.1 ++ encode p.2) ++ (0 :: r)) =
      some (t₁, r) ∧ SameEntries (es ++ rest) t₁
  | [], es, t₀, fuel + 1, _, hs, _, _ => by
    obtain ⟨w, hw, hsame⟩ := hnil r
    rw [encode] at hw
    refine ⟨t₀, ?_, by rwa [append_nil]⟩
    rw [flatMap_nil, unpackHash, nil_append, show (0 : UInt8) :: r = [0] ++ r from rfl, hw,
      bind_eq_bind, bind_some]
    dsimp only
    rw [hsame.isNil]
    rfl
  | (k, v) :: rest, es, t₀, fuel + 1, hf, hs, hd, hr => by
    obtain ⟨hk, hv, hrk, hrv⟩ := hr (k, v) mem_cons_self
    obtain ⟨k', hk', hsk⟩ := hrk (encode v ++ (rest.flatMap (fun p => encode p.1 ++ encode p.2) ++
      (0 :: r)))
    obtain ⟨v', hv', hsv⟩ := hrv (rest.flatMap (fun p => encode p.1 ++ encode p.2) ++ (0 :: r))
    have hnew : ∀ p ∈ t₀, p.1.rawEqual k' = false := fun p hp => by
      obtain ⟨q, hq, hqp⟩ := hs.mem hp
      rw [Same.rawEqual hqp hsk]
      exact (pairwise_append.1 hd).2.2 q hq (k, v) mem_cons_self
    have hknil : k'.isNil = false := by
      rw [hsk.isNil]
      rcases k with _ | _ | _ | _ | _ | _ | _
      · exact absurd hk (fun hf => hf)
      all_goals rfl
    rw [flatMap_cons, append_assoc, append_assoc, unpackHash, hk',
      bind_eq_bind, bind_some]
    dsimp only
    rw [hknil, if_neg Bool.false_ne_true, hv', bind_eq_bind, bind_some]
    dsimp only
    rw [rawset_new (hsk.isKey hk) (hsv.isNil.trans hv) hnew, bind_some]
    have happ : es ++ (k, v) :: rest = es ++ [(k, v)] ++ rest := by simp
    rw [happ] at hd ⊢
    exact unpackHash_spec hnil r rest (Nat.lt_of_succ_lt_succ hf)
      (hs.append (.cons hsk hsv .nil)) hd fun p hp => hr p (mem_cons_of_mem _ hp)

theorem arraySize_bytes {n : ℕ} (hn : n < 2 ^ 31) : ∃ c payload,
    tableBytes n = combineType 6 c :: payload ∧ c < 32 ∧
      ∀ r, arraySize (payload ++ r) c = some (n, r) := by
  unfold tableBytes
  rw [maxCookie]
  split
  · obtain ⟨c, payload, hbytes, hc, hget⟩ := getInteger_bytes (Int64.ofNat n)
    refine ⟨_, _, rfl, by omega, fun r => ?_⟩
    have hcombine := toNat_combineType (t := 2) (c := c) (by omega) (by omega)
    rw [arraySize, maxCookie, if_pos rfl, hbytes, cons_append, read_cons,
      bind_eq_bind, bind_some]
    dsimp only
    rw [ofLe_singleton, hcombine, if_neg (by omega), (by omega : (2 + c * 8) / 8 = c), hget,
      map_some]
    dsimp only
    have hsmall : (n : ℤ).bmod Int64.size = n :=
      Int.bmod_eq_of_le (by simp only [Int64.size]; omega) (by simp only [Int64.size]; omega)
    have hsmall' : (n : ℤ).bmod (2 ^ 32) = n := Int.bmod_eq_of_le (by omega) (by omega)
    rw [Int64.toInt_toInt32, Int64.toInt_ofNat', hsmall, hsmall', Int.toNat_natCast]
  · next hlt =>
    refine ⟨n, [], rfl, by omega, fun r => ?_⟩
    rw [arraySize, maxCookie, if_neg (by omega), nil_append]

theorem flatMap_rest (n : ℕ) : ∀ t : Entries,
    (t.flatMap fun p => if inArray n p.1 then [] else [p.1, p.2]).flatMap encode =
      (t.filter fun p => !inArray n p.1).flatMap fun p => encode p.1 ++ encode p.2
  | [] => rfl
  | p :: t => by
    rw [flatMap_cons, flatMap_append, flatMap_rest n t]
    rcases h : inArray n p.1 with _ | _
    · rw [filter_cons_of_pos (by rw [h]; rfl), flatMap_cons]
      simp
    · rw [filter_cons_of_neg (by rw [h]; exact Bool.false_ne_true)]
      simp

theorem length_le_flatMap {α : Type} {f : α → Bytes} (hf : ∀ a, f a ≠ []) :
    ∀ l : List α, l.length ≤ (l.flatMap f).length
  | [] => Nat.le_refl 0
  | a :: l => by
    have := length_le_flatMap hf l
    have := length_pos_iff.2 (hf a)
    rw [flatMap_cons, length_append, length_cons]
    omega

theorem encode_ne_nil (v : LuaValue) : encode v ≠ [] := by
  rcases v with _ | v | v | v | p | s | ⟨n, t⟩
  · rw [encode]
    exact cons_ne_nil _ _
  · rw [encode]
    exact cons_ne_nil _ _
  · rw [encode]
    obtain ⟨c, payload, hbytes, -⟩ := getInteger_bytes v
    rw [hbytes]
    exact cons_ne_nil _ _
  · rw [encode]
    exact cons_ne_nil _ _
  · rw [encode]
    exact cons_ne_nil _ _
  · rw [encode, stringBytes]
    split_ifs <;> exact cons_ne_nil _ _
  · rw [encode]
    exact append_ne_nil_of_right_ne_nil _ (cons_ne_nil _ _)

theorem reads_table {d n fuel : ℕ} {t : Entries} (h : Valid (d + 1) (.table n t))
    (ho : ∀ w ∈ items n t, Reads (unpackOne rawlen fuel) w)
    (hnil : Reads (unpackOne rawlen fuel) .nil) :
    Reads (unpackOne rawlen (fuel + 1)) (.table n t) := by
  rcases h with _ | _ | _ | _ | _ | _ | ⟨hn, hk, hv, hd, -, -⟩
  intro r
  obtain ⟨c, payload, hbytes, hc, hsize⟩ := arraySize_bytes hn
  generalize hrest : t.filter (fun p => !inArray n p.1) = rest
  have hflat : (items n t).flatMap encode = ((List.range' 1 n).flatMap fun j =>
      encode (rawgeti t j)) ++ rest.flatMap fun p => encode p.1 ++ encode p.2 := by
    rw [items, flatMap_append, flatMap_rest, hrest, flatMap_map, range'_eq_map_range,
      flatMap_map]
    simp only [Nat.add_comm]
  have hperm := perm_parts (n := n) (by omega) hd hv
  rw [hrest] at hperm
  have hpair : (arrayEntries t 1 n ++ rest).Pairwise fun p q => p.1.rawEqual q.1 = false :=
    (hperm.pairwise_iff fun {p q} hpq => by rw [rawEqual_comm]; exact hpq).1 hd
  have hitem : ∀ p ∈ rest, p.1 ∈ items n t ∧ p.2 ∈ items n t := fun p hp => by
    rw [← hrest, mem_filter] at hp
    have hin : inArray n p.1 = false := by simpa using hp.2
    constructor <;>
      exact mem_append_right _ (mem_flatMap.2 ⟨p, hp.1, by rw [hin]; simp⟩)
  have harr : ∀ j, 1 ≤ j → j < 1 + n → Reads (unpackOne rawlen fuel) (rawgeti t j) :=
    fun j hj hjn => ho _ (mem_append_left _ (List.mem_map.2 ⟨j - 1,
      mem_range.2 (by omega), by rw [Nat.sub_add_cancel hj]⟩))
  have hrlen : rest.length <
      (rest.flatMap (fun p => encode p.1 ++ encode p.2) ++ (0 :: r)).length + 1 := by
    have := length_le_flatMap (fun p : LuaValue × LuaValue =>
      append_ne_nil_of_left_ne_nil (encode_ne_nil p.1) (encode p.2)) rest
    rw [length_append]
    omega
  obtain ⟨t₁, ht₁, hs₁⟩ := unpackArray_spec
    (rest.flatMap (fun p => encode p.1 ++ encode p.2) ++ (0 :: r)) n 1 harr (by omega) .nil fun _ hp => absurd hp not_mem_nil
  obtain ⟨t₂, ht₂, hs₂⟩ := unpackHash_spec hnil r rest hrlen hs₁ hpair fun p hp => by
    have hpt : p ∈ t := by
      rw [← hrest] at hp
      exact mem_of_mem_filter hp
    exact ⟨hk p hpt, hv p hpt, ho _ (hitem p hp).1, ho _ (hitem p hp).2⟩
  refine ⟨.table (rawlen t₂) t₂, ?_, .table _ _ hperm hs₂⟩
  rw [encode_table, hbytes, hflat, cons_append, cons_append, cons_append,
    unpackOne_cons rawlen (by omega) hc, pushValue, unpackTable]
  have happ : payload ++ ((List.range' 1 n).flatMap (fun j => encode (rawgeti t j)) ++
      rest.flatMap (fun p => encode p.1 ++ encode p.2)) ++ [0] ++ r =
      payload ++ ((List.range' 1 n).flatMap (fun j => encode (rawgeti t j)) ++
        (rest.flatMap (fun p => encode p.1 ++ encode p.2) ++ (0 :: r))) := by
    simp
  rw [happ, hsize, bind_eq_bind, bind_some]
  dsimp only
  rw [ht₁, bind_eq_bind, bind_some]
  dsimp only
  rw [ht₂, bind_some]

theorem reads_valid {d : ℕ} {v : LuaValue} (h : Valid d v) : ∀ {fuel : ℕ},
    (encode v).length ≤ fuel → Reads (unpackOne rawlen fuel) v := by
  induction d generalizing v with
  | zero =>
    intro fuel hf
    obtain ⟨fuel, rfl⟩ : ∃ f, fuel = f + 1 :=
      ⟨fuel - 1, by have := length_pos_iff.2 (encode_ne_nil v); omega⟩
    refine reads_scalar rawlen h (fun n t hv => ?_) fuel
    subst hv
    exact nomatch h
  | succ d ih =>
    intro fuel hf
    obtain ⟨fuel, rfl⟩ : ∃ f, fuel = f + 1 :=
      ⟨fuel - 1, by have := length_pos_iff.2 (encode_ne_nil v); omega⟩
    by_cases hv : ∃ n t, v = .table n t
    · obtain ⟨n, t, rfl⟩ := hv
      have hlen : (tableBytes n).length + ((items n t).flatMap encode).length + 1 ≤ fuel + 1 := by
        rw [encode_table, length_append, length_append] at hf
        exact hf
      have htb : 1 ≤ (tableBytes n).length := by
        unfold tableBytes
        split <;> exact Nat.succ_le_succ (Nat.zero_le _)
      refine reads_table rawlen h (fun w hw => ih (valid_items h hw) ?_)
        (ih (.nil d) (by rw [encode]; exact Nat.le_trans htb (by omega)))
      have hsub : (encode w).length ≤ ((items n t).flatMap encode).length := by
        rw [flatMap_def]
        exact (sublist_flatten_of_mem (List.mem_map_of_mem hw)).length_le
      omega
    · exact reads_scalar rawlen h (fun n t hv' => hv ⟨n, t, hv'⟩) fuel

end Table

theorem unpackFrom_encode {one : Bytes → Option (LuaValue × Bytes)} : ∀ {vs : List LuaValue}
    {fuel : ℕ}, (∀ v ∈ vs, Reads one v) → vs.length < fuel →
    ∃ ws, unpackFrom one fuel (vs.flatMap encode) = some ws ∧ List.Forall₂ Same vs ws
  | [], fuel + 1, _, _ => ⟨[], rfl, .nil⟩
  | v :: vs, fuel + 1, h, hf => by
    obtain ⟨w, hw, hsame⟩ := h v mem_cons_self (vs.flatMap encode)
    obtain ⟨ws, hws, hall⟩ := unpackFrom_encode (fun v' hv' => h v' (mem_cons_of_mem _ hv'))
      (Nat.lt_of_succ_lt_succ hf)
    refine ⟨w :: ws, ?_, .cons hsame hall⟩
    rw [flatMap_cons, unpackFrom, if_neg (append_ne_nil_of_left_ne_nil
      (encode_ne_nil v) _), hw, bind_eq_bind, bind_some]
    dsimp only
    rw [hws]
    rfl

theorem luaseriUnpack_encode {vs : List LuaValue} (h : ∀ v ∈ vs, Valid maxDepth v) :
    ∃ ws, luaseriUnpack rawlen (vs.flatMap encode) = some ws ∧ List.Forall₂ Same vs ws :=
  unpackFrom_encode (fun v hv => reads_valid rawlen (h v hv) (by
      rw [flatMap_def]
      exact (sublist_flatten_of_mem (List.mem_map_of_mem hv)).length_le))
    (Nat.lt_succ_of_le (length_le_flatMap encode_ne_nil vs))

end Unpack

/-! What is read does not depend on what stands behind it. -/

section Append

variable {x : Bytes}

theorem read_mono {rb a r : Bytes} {sz : ℕ} (h : read rb sz = some (a, r)) :
    read (rb ++ x) sz = some (a, r ++ x) := by
  unfold read at *
  split at h
  · exact nomatch h
  · next hlen =>
    obtain ⟨rfl, rfl⟩ := Prod.mk.inj (some.inj h)
    rw [if_neg (by rw [length_append]; omega), take_append_of_le_length (by omega),
      drop_append_of_le_length (by omega)]

theorem map_read_mono {α : Type} {f : Bytes → α} {g : Bytes × Bytes → α × Bytes}
    (hg : ∀ a r, g (a, r) = (f a, r)) {rb r : Bytes} {sz : ℕ} {v : α}
    (h : (read rb sz).map g = some (v, r)) : (read (rb ++ x) sz).map g = some (v, r ++ x) := by
  obtain ⟨⟨a, r'⟩, hr, he⟩ := map_eq_some_iff.1 h
  rw [hg] at he
  obtain ⟨rfl, rfl⟩ := Prod.mk.inj he
  rw [read_mono hr, map_some, hg]

theorem getInteger_mono {rb r : Bytes} {c : ℕ} {v : Int64} (h : getInteger rb c = some (v, r)) :
    getInteger (rb ++ x) c = some (v, r ++ x) := by
  unfold getInteger at *
  split at h
  · obtain ⟨rfl, rfl⟩ := Prod.mk.inj (some.inj h)
    rfl
  · exact map_read_mono (fun _ _ => rfl) h
  · exact map_read_mono (fun _ _ => rfl) h
  · exact map_read_mono (fun _ _ => rfl) h
  · exact map_read_mono (fun _ _ => rfl) h
  · exact nomatch h

theorem getQword_mono {rb r : Bytes} {v : UInt64} (h : getQword rb = some (v, r)) :
    getQword (rb ++ x) = some (v, r ++ x) := map_read_mono (fun _ _ => rfl) h

theorem getBuffer_mono {rb s r : Bytes} {n : ℕ} (h : getBuffer rb n = some (s, r)) :
    getBuffer (rb ++ x) n = some (s, r ++ x) := by
  unfold getBuffer at *
  split at h
  · next hn =>
    rw [if_pos hn]
    exact read_mono h
  · exact nomatch h

theorem arraySize_mono {rb r : Bytes} {n c : ℕ} (h : arraySize rb c = some (n, r)) :
    arraySize (rb ++ x) c = some (n, r ++ x) := by
  unfold arraySize at *
  split at h
  · next hc =>
    obtain ⟨⟨a, r'⟩, hr, he⟩ := bind_eq_some_iff.1 h
    rw [if_pos hc, read_mono hr, bind_eq_bind, bind_some]
    dsimp only at he ⊢
    split at he
    · exact nomatch he
    · next hi =>
      obtain ⟨⟨v, r''⟩, hg, he⟩ := map_eq_some_iff.1 he
      obtain ⟨rfl, rfl⟩ := Prod.mk.inj he
      rw [if_neg hi, getInteger_mono hg]
      rfl
  · next hc =>
    obtain ⟨rfl, rfl⟩ := Prod.mk.inj (some.inj h)
    rw [if_neg hc]

/-- Reading a value does not depend on it. -/
def Mono (x : Bytes) (one one' : Bytes → Option (LuaValue × Bytes)) : Prop :=
  ∀ rb v r, one rb = some (v, r) → one' (rb ++ x) = some (v, r ++ x)

variable {one one' : Bytes → Option (LuaValue × Bytes)}

theorem unpackArray_mono (h : Mono x one one') : ∀ (n i : ℕ) {t t' : Entries} {rb r : Bytes},
    unpackArray one n i t rb = some (t', r) → unpackArray one' n i t (rb ++ x) = some (t', r ++ x)
  | 0, _, _, _, _, _, hu => by
    obtain ⟨rfl, rfl⟩ := Prod.mk.inj (some.inj hu)
    rfl
  | n + 1, i, t, t', rb, r, hu => by
    obtain ⟨⟨v, r'⟩, hv, hu⟩ := bind_eq_some_iff.1 hu
    obtain ⟨t₁, hset, hu⟩ := bind_eq_some_iff.1 hu
    rw [unpackArray, h _ _ _ hv, bind_eq_bind, bind_some]
    dsimp only at hset ⊢
    rw [hset]
    exact unpackArray_mono h n (i + 1) hu

theorem unpackHash_mono (h : Mono x one one') : ∀ {f f' : ℕ} {t t' : Entries} {rb r : Bytes},
    f ≤ f' → unpackHash one f t rb = some (t', r) → unpackHash one' f' t (rb ++ x) = some (t', r ++ x)
  | 0, _, _, _, _, _, _, hu => nomatch hu
  | f + 1, 0, _, _, _, _, hf, _ => absurd hf (Nat.not_succ_le_zero f)
  | f + 1, f' + 1, t, t', rb, r, hf, hu => by
    obtain ⟨⟨k, r'⟩, hk, hu⟩ := bind_eq_some_iff.1 hu
    rw [unpackHash, h _ _ _ hk, bind_eq_bind, bind_some]
    dsimp only at hu ⊢
    split at hu
    · next hnil =>
      obtain ⟨rfl, rfl⟩ := Prod.mk.inj (some.inj hu)
      rw [if_pos hnil]
    · next hnil =>
      obtain ⟨⟨v, r''⟩, hv, hu⟩ := bind_eq_some_iff.1 hu
      obtain ⟨t₁, hset, hu⟩ := bind_eq_some_iff.1 hu
      rw [if_neg hnil, h _ _ _ hv, bind_eq_bind, bind_some]
      dsimp only at hset ⊢
      rw [hset]
      exact unpackHash_mono h (Nat.le_of_succ_le_succ hf) hu

variable (rawlen : Entries → ℕ)

theorem unpackTable_mono (h : Mono x one one') {c : ℕ} {rb r : Bytes} {v : LuaValue}
    (hu : unpackTable rawlen one rb c = some (v, r)) :
    unpackTable rawlen one' (rb ++ x) c = some (v, r ++ x) := by
  obtain ⟨⟨n, r₁⟩, hn, hu⟩ := bind_eq_some_iff.1 hu
  obtain ⟨⟨t₁, r₂⟩, ha, hu⟩ := bind_eq_some_iff.1 hu
  obtain ⟨⟨t₂, r₃⟩, hh, hu⟩ := bind_eq_some_iff.1 hu
  obtain ⟨rfl, rfl⟩ := Prod.mk.inj (some.inj hu)
  change unpackArray one n 1 [] r₁ = some (t₁, r₂) at ha
  change unpackHash one (r₂.length + 1) t₁ r₂ = some (t₂, r₃) at hh
  have hlen : r₂.length + 1 ≤ (r₂ ++ x).length + 1 := by
    rw [length_append]
    omega
  rw [unpackTable, arraySize_mono hn, bind_eq_bind, bind_some]
  dsimp only
  rw [unpackArray_mono h n 1 ha, bind_eq_bind, bind_some]
  dsimp only
  rw [unpackHash_mono h hlen hh]
  rfl

theorem pushValue_mono (h : Mono x one one') {ty c : ℕ} {rb r : Bytes} {v : LuaValue}
    (hu : pushValue rawlen one rb ty c = some (v, r)) :
    pushValue rawlen one' (rb ++ x) ty c = some (v, r ++ x) := by
  unfold pushValue at *
  split at hu
  · obtain ⟨rfl, rfl⟩ := Prod.mk.inj (some.inj hu)
    rfl
  · obtain ⟨rfl, rfl⟩ := Prod.mk.inj (some.inj hu)
    rfl
  · split at hu
    · next hc =>
      obtain ⟨⟨a, r'⟩, hr, he⟩ := map_eq_some_iff.1 hu
      obtain ⟨rfl, rfl⟩ := Prod.mk.inj he
      rw [if_pos hc, getQword_mono hr]
      rfl
    · next hc =>
      obtain ⟨⟨a, r'⟩, hr, he⟩ := map_eq_some_iff.1 hu
      obtain ⟨rfl, rfl⟩ := Prod.mk.inj he
      rw [if_neg hc, getInteger_mono hr]
      rfl
  · obtain ⟨⟨a, r'⟩, hr, he⟩ := map_eq_some_iff.1 hu
    obtain ⟨rfl, rfl⟩ := Prod.mk.inj he
    dsimp only
    rw [getQword_mono hr]
    rfl
  · obtain ⟨⟨a, r'⟩, hr, he⟩ := map_eq_some_iff.1 hu
    obtain ⟨rfl, rfl⟩ := Prod.mk.inj he
    dsimp only
    rw [getBuffer_mono hr]
    rfl
  · obtain ⟨⟨a, r'⟩, hr, hu⟩ := bind_eq_some_iff.1 hu
    obtain ⟨⟨s, r''⟩, hs, he⟩ := map_eq_some_iff.1 hu
    obtain ⟨rfl, rfl⟩ := Prod.mk.inj he
    dsimp only at hs ⊢
    have hr' : (if c = 2 then read (rb ++ x) 2 else if c = 4 then read (rb ++ x) 4 else none) =
        some (a, r' ++ x) := by
      split at hr
      · next hc => rw [if_pos hc, read_mono hr]
      · next hc =>
        rw [if_neg hc]
        split at hr
        · next hc' => rw [if_pos hc', read_mono hr]
        · exact nomatch hr
    rw [hr', bind_some]
    dsimp only
    rw [getBuffer_mono hs]
    rfl
  · exact unpackTable_mono rawlen h hu
  · exact nomatch hu

theorem unpackOne_mono : ∀ {f f' : ℕ}, f ≤ f' → Mono x (unpackOne rawlen f) (unpackOne rawlen f')
  | 0, _, _ => fun _ _ _ hu => nomatch hu
  | f + 1, 0, hf => absurd hf (Nat.not_succ_le_zero f)
  | f + 1, f' + 1, hf => fun rb v r hu => by
    obtain ⟨⟨a, r'⟩, hr, hu⟩ := bind_eq_some_iff.1 hu
    rw [unpackOne, read_mono hr, bind_eq_bind, bind_some]
    exact pushValue_mono rawlen (unpackOne_mono (Nat.le_of_succ_le_succ hf)) hu

theorem unpackFrom_mono (h : Mono x one one') (hx : x ≠ []) : ∀ {f f' : ℕ} {rb : Bytes}
    {ws us : List LuaValue}, unpackFrom one f rb = some ws →
    unpackFrom one' f' (rb ++ x) = some us → ws.length < us.length
  | 0, _, _, _, _, hu, _ => nomatch hu
  | _ + 1, 0, _, _, _, _, hu' => nomatch hu'
  | f + 1, f' + 1, rb, ws, us, hu, hu' => by
    unfold unpackFrom at hu hu'
    rw [if_neg (append_ne_nil_of_right_ne_nil _ hx)] at hu'
    split at hu
    · obtain rfl := some.inj hu
      obtain ⟨⟨v, r⟩, -, hu'⟩ := bind_eq_some_iff.1 hu'
      obtain ⟨us', -, hu'⟩ := bind_eq_some_iff.1 hu'
      obtain rfl := some.inj hu'
      exact Nat.succ_pos _
    · obtain ⟨⟨v, r⟩, hv, hu⟩ := bind_eq_some_iff.1 hu
      obtain ⟨ws', hws, hu⟩ := bind_eq_some_iff.1 hu
      obtain rfl := some.inj hu
      rw [h _ _ _ hv, bind_eq_bind, bind_some] at hu'
      obtain ⟨us', hus, hu'⟩ := bind_eq_some_iff.1 hu'
      obtain rfl := some.inj hu'
      exact Nat.succ_lt_succ (unpackFrom_mono h hx hws hus)

end Append

/-- The values come back from the buffer they are packed to. -/
def RoundTrip (rawlen : Entries → ℕ) (vs : List LuaValue) : Prop :=
  ∃ buffer, luaseriPack vs = some buffer ∧
    ∃ ws, luaseriUnpack rawlen buffer = some ws ∧ List.Forall₂ Same vs ws

theorem length_flatMap_encode {vs : List LuaValue} (h : ∀ v ∈ vs, Valid maxDepth v) :
    (vs.flatMap encode).length = (vs.map size).sum := by
  rw [length_flatMap, map_congr_left fun v hv => length_encode (h v hv)]

theorem RoundTrip.size_lt {rawlen : Entries → ℕ} {vs : List LuaValue}
    (h : ∀ v ∈ vs, Valid maxDepth v) : RoundTrip rawlen vs → (vs.map size).sum < 2 ^ 31 := by
  rw [← length_flatMap_encode h]
  have hpack := luaseriPack_eq h
  obtain ⟨us, hus, hall⟩ := luaseriUnpack_encode rawlen h
  generalize hbuf : vs.flatMap encode = buf at *
  rintro ⟨buffer, hb, ws, hws, hsame⟩
  by_contra hlen
  rw [hpack] at hb
  split at hb
  · exact nomatch hb
  · next hpos =>
    obtain rfl := some.inj hb
    generalize hk : (Int32.ofNat buf.length).toInt.toNat = k at *
    have hlt : k < buf.length := by
      have := Int32.toInt_lt (Int32.ofNat buf.length)
      omega
    have hx : buf.drop k ≠ [] := ne_nil_of_length_pos (by rw [length_drop]; omega)
    have hmore := unpackFrom_mono (unpackOne_mono rawlen (x := buf.drop k)
      (length_take_le' k buf)) hx hws (by rw [take_append_drop]; exact hus)
    have := hsame.length_eq
    have := hall.length_eq
    omega

/-- They do so as long as an `int` counts their bytes. -/
theorem roundTrip_iff_size (rawlen : Entries → ℕ) {vs : List LuaValue}
    (h : ∀ v ∈ vs, Valid maxDepth v) : RoundTrip rawlen vs ↔ (vs.map size).sum < 2 ^ 31 := by
  refine ⟨RoundTrip.size_lt h, fun hlen => ?_⟩
  rw [← length_flatMap_encode h] at hlen
  have hpack := luaseriPack_eq h
  obtain ⟨us, hus, hall⟩ := luaseriUnpack_encode rawlen h
  generalize vs.flatMap encode = buf at *
  have hnat : (Int32.ofNat buf.length).toInt = buf.length := by
    rw [Int32.toInt_ofNat']
    exact Int.bmod_eq_of_le (by simp only [Int32.size]; omega) (by simp only [Int32.size]; omega)
  rw [if_neg (by
    rw [Int32.lt_iff_toInt_lt, hnat]
    exact not_lt_of_ge (Int.natCast_nonneg _)), hnat, Int.toNat_natCast, List.take_length] at hpack
  exact ⟨buf, hpack, us, hus, hall⟩

/-- A table with an element in its array and one outside. -/
theorem roundTrip_iff_size_table : RoundTrip (fun _ => 0)
    [.integer 7, .table 1 [(.integer 1, .boolean true), (.string [97], .integer 0)]] := by
  refine (roundTrip_iff_size (fun _ => 0) fun v hv => ?_).2 ?_
  · rcases List.mem_pair.1 hv with rfl | rfl
    · exact .integer _ _
    · refine .table (by omega) ?_ ?_ ?_ ?_ ?_
      · exact List.forall_mem_cons.2 ⟨trivial, List.forall_mem_singleton.2 trivial⟩
      · exact List.forall_mem_cons.2 ⟨rfl, List.forall_mem_singleton.2 rfl⟩
      · exact .cons (List.forall_mem_singleton.2 rfl) (List.pairwise_singleton _ _)
      · exact List.forall_mem_cons.2 ⟨.integer _ _, List.forall_mem_singleton.2
          (.string _ (by decide))⟩
      · exact List.forall_mem_cons.2 ⟨.boolean _ _, List.forall_mem_singleton.2 (.integer _ _)⟩
  · simp [size_table, items, rawgeti, rawget, LuaValue.rawEqual, inArray, size,
      Cmaster.integerLength, Cmaster.stringLength]

/-- Two strings of a gigabyte. -/
theorem not_roundTrip_of_size : ¬ ∀ (rawlen : Entries → ℕ) (vs : List LuaValue),
    (∀ v ∈ vs, Valid maxDepth v) → RoundTrip rawlen vs := by
  intro h
  generalize hs : List.replicate (2 ^ 30) (0 : UInt8) = s
  have hlen : s.length = 2 ^ 30 := by rw [← hs, List.length_replicate]
  have hv : ∀ v ∈ [LuaValue.string s, .string s], Valid maxDepth v := fun v hv => by
    obtain rfl : v = .string s := by simpa using hv
    exact .string _ (by omega)
  have hsize := (h (fun _ => 0) _ hv).size_lt hv
  have hstr : Cmaster.stringLength s = 5 + 2 ^ 30 := by
    rw [Cmaster.stringLength, hlen]
    rfl
  simp only [List.map_cons, List.map_nil, List.sum_cons, List.sum_nil, size, hstr] at hsize
  omega

end LuaSeri

end SkynetGame
