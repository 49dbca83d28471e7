import SkynetGame.LuaSeriRead

/-!
# What the read block reads

Each reader of `luaseri_unpack` follows the one that reads a list of bytes, and goes backwards just
where it comes to the length of a long string that is no `int` (`follows_unpackOne`). So a buffer is
read in its bounds but for such a length, and but for a buffer whose own length is no `int`
(`luaseriUnpack_inBounds_iff`).
-/

namespace SkynetGame

namespace LuaSeri

open LuaValue Cursor

theorem toInt_of_lt {n : ℕ} (h : n < 0x80000000) : toInt n = n := by
  rw [toInt, Int.bmod_eq_of_le (by omega) (by omega)]

theorem toInt_neg {n : ℕ} (h : 0x80000000 ≤ n) (hn : n < 0x100000000) : toInt n < 0 := by
  rw [toInt, Int.bmod_def]
  omega

variable {data : Bytes} {d N : ℕ}

namespace ReadBlock

theorem follows_read (n : ℕ) :
    Follows data n N (read data n) (fun rb => LuaSeri.read rb n) (fun _ => False) := follows_take n

theorem follows_read_map {α : Type} (n : ℕ) (g : Bytes → α) :
    Follows data 0 N (do let b ← read data n; pure (g b))
      (fun rb => (LuaSeri.read rb n).map fun p => (g p.1, p.2)) (fun _ => False) :=
  (follows_map (follows_read n) g).mono (Nat.zero_le n) le_rfl

theorem follows_getInteger : ∀ cookie, Follows data 0 N (getInteger data cookie)
    (fun rb => LuaSeri.getInteger rb cookie) (fun _ => False)
  | 0 => follows_pure 0
  | 1 => follows_read_map 1 _
  | 2 => follows_read_map 2 _
  | 4 => follows_read_map 4 _
  | 6 => follows_read_map 8 _
  | 3 | 5 | _ + 7 => follows_fail

theorem follows_getQword :
    Follows data 0 N (getQword data) LuaSeri.getQword (fun _ => False) := follows_read_map 8 _

theorem follows_getBuffer {len : ℕ} (hlen : len < 0x100000000) :
    Follows data 0 N (getBuffer data len) (fun rb => LuaSeri.getBuffer rb len)
      (fun _ => 0x80000000 ≤ len) := by
  by_cases h : len < 0x80000000
  · have hread : Follows data 0 N (getBuffer data len) (fun rb => LuaSeri.read rb len)
        (fun _ => False) := by
      rw [getBuffer, toInt_of_lt h]
      exact (follows_read len).mono (Nat.zero_le len) le_rfl
    exact hread.congr (fun rb => if_pos h) fun _ => iff_false_intro (by omega)
  · exact (follows_take_neg (toInt_neg (by omega) hlen) _ _).congr (fun rb => rfl)
      fun _ => iff_true_intro (by omega)

section Table

variable {one : Reader LuaValue} {oneL : Bytes → Option (LuaValue × Bytes)} {long : Bytes → Prop}

theorem follows_unpackArray : ∀ (n i : ℕ) (t : Entries) {N : ℕ}, Follows data 1 N one oneL long →
    Follows data 0 N (unpackArray one n i t) (LuaSeri.unpackArray oneL n i t)
      (LongInArray oneL long n i t)
  | 0, _, t, _, _ => follows_pure t
  | n + 1, i, t, N, hone => by
    have hstep := follows_bind hone fun v N' hN' _ =>
      follows_ofOption (rawset t (.integer (Int64.ofNat i)) v) fun t' =>
        follows_unpackArray n (i + 1) t' (hone.mono le_rfl (Nat.le_of_succ_le hN'))
    refine (hstep.mono (Nat.zero_le _) le_rfl).congr (fun rb => rfl) fun rb => ?_
    simp only [LongInArray, exists_and_left]

theorem follows_unpackHash : ∀ {F G : ℕ} (t : Entries) {N : ℕ}, N < F → N < G →
    Follows data 1 N one oneL long → Follows data 0 N (unpackHash one F t)
      (LuaSeri.unpackHash oneL G t) (LongInHash oneL long G t)
  | F + 1, G + 1, t, N, hF, hG, hone => by
    have hvalue : ∀ k N', N' + 1 ≤ N → Follows data 0 N'
        (do let v ← one; let t ← ofOption (rawset t k v); unpackHash one F t)
        (fun rb => (oneL rb).bind fun p => (rawset t k p.1).bind fun t =>
          LuaSeri.unpackHash oneL G t p.2)
        (fun rb => long rb ∨ ∃ v r, oneL rb = some (v, r) ∧ ∃ t', rawset t k v = some t' ∧
          LongInHash oneL long G t' r) := fun k N' hN' =>
      (follows_bind (hone.mono le_rfl (by omega)) fun v N'' hN'' _ =>
        follows_ofOption (rawset t k v) fun t' =>
          follows_unpackHash t' (by omega) (by omega) (hone.mono le_rfl (by omega))).mono
        (Nat.zero_le _) le_rfl
    have hround : ∀ k N', N' + 1 ≤ N → Follows data 0 N'
        (if k.isNil then pure t
          else do let v ← one; let t ← ofOption (rawset t k v); unpackHash one F t)
        (fun rb => if k.isNil then some (t, rb) else (oneL rb).bind fun p =>
          (rawset t k p.1).bind fun t => LuaSeri.unpackHash oneL G t p.2)
        (fun rb => k.isNil = false ∧ (long rb ∨ ∃ v r, oneL rb = some (v, r) ∧
          ∃ t', rawset t k v = some t' ∧ LongInHash oneL long G t' r)) := by
      intro k N' hN'
      by_cases hk : k.isNil = true
      · rw [if_pos hk]
        exact (follows_pure t).congr (fun rb => if_pos hk) fun rb => by simp [hk]
      · rw [if_neg hk]
        exact (hvalue k N' hN').congr (fun rb => if_neg hk) fun rb => by simp [hk]
    refine ((follows_bind hone fun k N' hN' _ => hround k N' hN').mono (Nat.zero_le _) le_rfl).congr (fun rb => rfl)
      fun rb => ?_
    simp only [LongInHash, exists_and_left]

theorem follows_arraySize (cookie : ℕ) : Follows data 0 N (arraySize data cookie)
    (fun rb => LuaSeri.arraySize rb cookie) (fun _ => False) := by
  unfold arraySize LuaSeri.arraySize
  by_cases hc : cookie = maxCookie - 1
  · rw [if_pos hc]
    have hsize : ∀ (t : Bytes) (N' : ℕ), N' + 1 ≤ N → Follows data 0 N'
        (if Endian.ofLe t % 8 ≠ 2 ∨ Endian.ofLe t / 8 = 8 then fail
          else do
            let n ← getInteger data (Endian.ofLe t / 8)
            pure n.toInt32.toInt.toNat)
        (fun rb => if Endian.ofLe t % 8 ≠ 2 ∨ Endian.ofLe t / 8 = 8 then none
          else (LuaSeri.getInteger rb (Endian.ofLe t / 8)).map fun p =>
            (p.1.toInt32.toInt.toNat, p.2))
        (fun _ => False) := by
      intro t N' _
      by_cases ht : Endian.ofLe t % 8 ≠ 2 ∨ Endian.ofLe t / 8 = 8
      · rw [if_pos ht]
        exact follows_fail.congr (fun rb => if_pos ht) fun _ => Iff.rfl
      · rw [if_neg ht]
        exact (follows_map (follows_getInteger _) _).congr (fun rb => if_neg ht) fun _ => Iff.rfl
    refine ((follows_bind (follows_read 1) fun t N' hN' _ => hsize t N' hN').mono (Nat.zero_le _) le_rfl).congr
      (fun rb => if_pos hc) fun rb => by simp
  · rw [if_neg hc]
    exact (follows_pure cookie).congr (fun rb => if_neg hc) fun _ => Iff.rfl

variable (rawlen : Entries → ℕ)

theorem follows_unpackTable {F : ℕ} (hF : N < F) (hone : Follows data 1 N one oneL long)
    (cookie : ℕ) : Follows data 0 N (unpackTable data one rawlen F cookie)
      (fun rb => LuaSeri.unpackTable rawlen oneL rb cookie)
      (fun rb => LongInTable oneL long rb cookie) := by
  have hhash : ∀ (t : Entries) (N' : ℕ), N' ≤ N → Follows data 0 N' (unpackHash one F t)
      (fun rb => LuaSeri.unpackHash oneL (rb.length + 1) t rb)
      (fun rb => LongInHash oneL long (rb.length + 1) t rb) := fun t N' hN' e c rest hat hle =>
    follows_unpackHash t (hle.trans hN' |>.trans_lt hF) (Nat.lt_succ_self _)
      (hone.mono le_rfl (hle.trans hN')) e c rest hat le_rfl
  have hsize : Follows data 0 N (arraySize data cookie) _ _ := follows_arraySize cookie
  have htable := follows_bind hsize fun n N₁ h₁ _ =>
    follows_bind (follows_unpackArray n 1 [] (hone.mono le_rfl (by omega))) fun t N₂ h₂ _ =>
      follows_bind (hhash t N₂ (by omega)) fun t _ _ _ => follows_pure (LuaValue.table (rawlen t) t)
  exact htable.congr (fun rb => rfl) fun rb => by simp [LongInTable]

theorem follows_string {len : ℕ} (hlen : len < 0x100000000) : Follows data 0 N
    (do let s ← getBuffer data len; pure (LuaValue.string s))
    (fun rb => (LuaSeri.getBuffer rb len).map fun p => (LuaValue.string p.1, p.2))
    (fun _ => 0x80000000 ≤ len) := follows_map (follows_getBuffer hlen) LuaValue.string

theorem ofLe_read_lt {rb n r : Bytes} {w : ℕ} (h : LuaSeri.read rb w = some (n, r)) :
    Endian.ofLe n < 256 ^ w := by
  unfold LuaSeri.read at h
  split at h
  · cases h
  · next hw =>
    obtain ⟨rfl, -⟩ := Prod.mk.inj (Option.some.inj h)
    have hlt := Endian.ofLe_lt (rb.take w)
    rwa [List.length_take, Nat.min_eq_left (not_lt.1 hw)] at hlt

theorem follows_lengthString {w : ℕ} (hw : 256 ^ w ≤ 0x100000000) : Follows data 0 N
    (do let n ← read data w; let s ← getBuffer data (Endian.ofLe n); pure (LuaValue.string s))
    (fun rb => (LuaSeri.read rb w).bind fun p =>
      (LuaSeri.getBuffer p.2 (Endian.ofLe p.1)).map fun p => (LuaValue.string p.1, p.2))
    (fun rb => ∃ n r, LuaSeri.read rb w = some (n, r) ∧ 0x80000000 ≤ Endian.ofLe n) := by
  have hread : Follows data w N (read data w) _ _ := follows_read w
  have hstring := follows_bind hread fun n N' _ hn => by
    obtain ⟨rest, r, hn⟩ := hn
    exact follows_string ((ofLe_read_lt hn).trans_le hw)
  exact (hstring.mono (Nat.zero_le _) le_rfl).congr (fun rb => rfl) fun rb => by simp

theorem follows_longString (cookie : ℕ) : Follows data 0 N
    (do
      let n ← if cookie = 2 then read data 2 else if cookie = 4 then read data 4 else fail
      let s ← getBuffer data (Endian.ofLe n)
      pure (LuaValue.string s))
    (fun rb => (if cookie = 2 then LuaSeri.read rb 2
      else if cookie = 4 then LuaSeri.read rb 4 else none).bind fun p =>
        (LuaSeri.getBuffer p.2 (Endian.ofLe p.1)).map fun p => (LuaValue.string p.1, p.2))
    (fun rb => LongString rb cookie) := by
  by_cases h2 : cookie = 2
  · simp only [if_pos h2]
    refine (follows_lengthString (w := 2) (by norm_num)).congr (fun rb => rfl) fun rb => ?_
    have hshort : ∀ {n r}, LuaSeri.read rb 2 = some (n, r) → Endian.ofLe n < 0x80000000 :=
      fun h => (ofLe_read_lt h).trans_le (by norm_num)
    constructor
    · rintro ⟨h4, -⟩
      omega
    · rintro ⟨n, r, h, hn⟩
      have := hshort h
      omega
  · simp only [if_neg h2]
    by_cases h4 : cookie = 4
    · simp only [if_pos h4]
      exact (follows_lengthString (w := 4) (by norm_num)).congr (fun rb => rfl)
        fun rb => by simp [LongString, h4]
    · simp only [if_neg h4]
      exact follows_fail.congr (fun rb => rfl) fun rb => by simp [LongString, h4]

theorem follows_pushValue {F : ℕ} (hF : N < F) (hone : Follows data 1 N one oneL long)
    {cookie : ℕ} (hc : cookie < 32) : ∀ type : ℕ,
    Follows data 0 N (pushValue data one rawlen F type cookie)
      (fun rb => LuaSeri.pushValue rawlen oneL rb type cookie)
      (fun rb => LongInValue oneL long rb type cookie)
  | 0 => (follows_pure _).congr (fun _ => rfl) fun _ => by simp [LongInValue]
  | 1 => (follows_pure _).congr (fun _ => rfl) fun _ => by simp [LongInValue]
  | 2 => by
    by_cases h8 : cookie = 8
    · subst h8
      exact (follows_map follows_getQword _).congr (fun _ => rfl) fun _ => by simp [LongInValue]
    · unfold pushValue LuaSeri.pushValue
      simp only [if_neg h8]
      exact (follows_map (follows_getInteger cookie) _).congr (fun _ => rfl) fun _ => by
        simp [LongInValue]
  | 3 => (follows_map follows_getQword _).congr (fun _ => rfl) fun _ => by simp [LongInValue]
  | 4 => (follows_string (by omega)).congr (fun _ => rfl) fun _ => by
      simp [LongInValue]
      omega
  | 5 => (follows_longString cookie).congr (fun _ => rfl) fun _ => by simp [LongInValue]
  | 6 => (follows_unpackTable rawlen hF hone cookie).congr (fun _ => rfl) fun _ => by
      simp [LongInValue]
  | _ + 7 => follows_fail.congr (fun _ => rfl) fun _ => by simp [LongInValue]

end Table

variable (rawlen : Entries → ℕ)

theorem follows_unpackOne : ∀ {F G N : ℕ}, N < F → N ≤ G →
    Follows data 1 N (unpackOne data rawlen F) (LuaSeri.unpackOne rawlen G) (LongInOne rawlen G)
  | F + 1, 0, N, _, hG => by
    obtain rfl : N = 0 := by omega
    intro e c rest hat hle
    obtain rfl := List.length_eq_zero_iff.1 (Nat.le_zero.1 hle)
    refine .inr (.inl ⟨id, rfl, ?_⟩)
    rw [unpackOne, read, bind_apply, bind_apply, hat.take_lt (by simp)]
    rfl
  | F + 1, G + 1, N, hF, hG => by
    have hread : Follows data 1 N (read data 1) _ _ := follows_read 1
    have hpush : ∀ t N', N' + 1 ≤ N → (∃ rest r, LuaSeri.read rest 1 = some (t, r)) →
        Follows data 0 N'
          (pushValue data (unpackOne data rawlen F) rawlen F (Endian.ofLe t % 8) (Endian.ofLe t / 8))
          (fun rb => LuaSeri.pushValue rawlen (LuaSeri.unpackOne rawlen G) rb (Endian.ofLe t % 8)
            (Endian.ofLe t / 8))
          (fun rb => LongInValue (LuaSeri.unpackOne rawlen G) (LongInOne rawlen G) rb
            (Endian.ofLe t % 8) (Endian.ofLe t / 8)) := by
      rintro t N' hN' ⟨rest, r, ht⟩
      have hlt := ofLe_read_lt ht
      exact follows_pushValue rawlen (by omega) (follows_unpackOne (by omega) (by omega)) (by omega) _
    exact (follows_bind hread hpush).congr (fun rb => rfl) fun rb => by simp [LongInOne]

theorem unpackFrom_succ {e : ℕ} {c : Cursor} {rest : Bytes} (hat : At data e c rest)
    (h : rest ≠ []) (F : ℕ) : unpackFrom data rawlen (F + 1) c =
      (do
        let v ← unpackOne data rawlen (F + 1)
        let vs ← unpackFrom data rawlen F
        pure (v :: vs)) c := by
  obtain ⟨c', hc, -⟩ := hat.take_le (n := 1) (List.length_pos_iff.2 h)
  rw [unpackFrom, unpackOne, read]
  simp only [bind_apply, Nat.cast_one] at hc ⊢
  rw [hc]
  rfl

theorem not_longInOne_nil (G : ℕ) : ¬ LongInOne rawlen G [] := by
  rcases G with _ | G
  · exact id
  · rintro ⟨t, r, h, -⟩
    cases h

theorem follows_unpackFrom {L : ℕ} : ∀ {F G N : ℕ}, N < F → N < G → N ≤ L →
    Follows data 0 N (unpackFrom data rawlen F)
      (fun rb => (LuaSeri.unpackFrom (LuaSeri.unpackOne rawlen L) G rb).map fun vs => (vs, []))
      (LongFrom (LuaSeri.unpackOne rawlen L) (LongInOne rawlen L) G)
  | F + 1, G + 1, N, hF, hG, hL => by
    have hrest : ∀ v N', N' + 1 ≤ N → Follows data 0 N'
        (do let vs ← unpackFrom data rawlen F; pure (v :: vs))
        (fun rb => ((LuaSeri.unpackFrom (LuaSeri.unpackOne rawlen L) G rb).map
          fun vs => (vs, ([] : Bytes))).map fun p => (v :: p.1, p.2))
        (LongFrom (LuaSeri.unpackOne rawlen L) (LongInOne rawlen L) G) := fun v N' hN' =>
      follows_map (follows_unpackFrom (by omega) (by omega) (by omega)) fun vs => v :: vs
    have hone : Follows data 1 N (unpackOne data rawlen (F + 1)) _ _ := follows_unpackOne rawlen hF hL
    have hvalues := follows_bind hone fun v N' hN' _ => hrest v N' hN'
    intro e c rest hat hle
    by_cases h : rest = []
    · subst h
      refine .inr (.inr ⟨?_, [], [], c, rfl, ?_, hat, le_rfl⟩)
      · rintro (h | ⟨v, r, h, -⟩)
        · exact not_longInOne_nil rawlen L h
        · rcases L with _ | L <;> cases h
      · rw [unpackFrom, bind_apply, hat.take_lt (by simp)]
        rfl
    · rw [unpackFrom_succ rawlen hat h]
      have hlist : (LuaSeri.unpackFrom (LuaSeri.unpackOne rawlen L) (G + 1) rest).map
          (fun vs => (vs, ([] : Bytes))) = (LuaSeri.unpackOne rawlen L rest).bind fun p =>
            ((LuaSeri.unpackFrom (LuaSeri.unpackOne rawlen L) G p.2).map
              fun vs => (vs, ([] : Bytes))).map fun q => (p.1 :: q.1, q.2) := by
        rw [LuaSeri.unpackFrom, if_neg h]
        rcases LuaSeri.unpackOne rawlen L rest with _ | ⟨v, r⟩
        · rfl
        · simp only [Option.bind_eq_bind, Option.bind_some]
          rcases LuaSeri.unpackFrom (LuaSeri.unpackOne rawlen L) G r with _ | vs <;> rfl
      beta_reduce
      rw [hlist]
      exact hvalues.mono (Nat.zero_le _) le_rfl e c rest hat hle

theorem length_counted_le (buffer : Bytes) : (counted buffer).length ≤ buffer.length := by
  rw [counted, List.length_take]
  exact Nat.min_le_right _ _

theorem toInt_le (n : ℕ) : toInt n ≤ n := by
  rw [toInt, Int.bmod_def]
  omega

theorem luaseriUnpack_spec {buffer : Bytes} (h : 0 < toInt buffer.length) :
    MeetsLong rawlen (counted buffer) ∧ luaseriUnpack buffer rawlen = .backwards ∨
    ¬ MeetsLong rawlen (counted buffer) ∧ LuaSeri.luaseriUnpack rawlen (counted buffer) = none ∧
      luaseriUnpack buffer rawlen = .error ∨
    ¬ MeetsLong rawlen (counted buffer) ∧ LuaSeri.luaseriUnpack rawlen (counted buffer) ≠ none ∧
      ∃ vs c, luaseriUnpack buffer rawlen = .ok vs c ∧ c.ptr = toInt buffer.length := by
  have hle := toInt_le buffer.length
  have hat : At buffer (toInt buffer.length).toNat ⟨0, toInt buffer.length⟩ (counted buffer) := by
    have := at_start buffer (toInt buffer.length).toNat (by omega)
    rwa [Int.toNat_of_nonneg h.le] at this
  have hfollows : Follows buffer 0 (counted buffer).length
      (unpackFrom buffer rawlen (buffer.length + 1)) _ _ :=
    follows_unpackFrom rawlen (L := (counted buffer).length) (G := (counted buffer).length + 1)
      (Nat.lt_succ_of_le (length_counted_le buffer)) (Nat.lt_succ_self _) le_rfl
  have hrun := hfollows _ _ _ hat le_rfl
  have hcode : luaseriUnpack buffer rawlen =
      unpackFrom buffer rawlen (buffer.length + 1) ⟨0, toInt buffer.length⟩ := by
    rw [luaseriUnpack]
    exact if_neg h.ne'
  rw [hcode]
  rcases hrun with ⟨hlong, hc⟩ | ⟨hlong, hlist, hc⟩ | ⟨hlong, vs, r, c', hlist, hc, hat', -⟩
  · exact .inl ⟨hlong, hc⟩
  · exact .inr (.inl ⟨hlong, Option.map_eq_none_iff.1 hlist, hc⟩)
  · obtain ⟨ws, hws, he⟩ := Option.map_eq_some_iff.1 hlist
    obtain ⟨rfl, rfl⟩ := Prod.mk.inj he
    refine .inr (.inr ⟨hlong, ?_, ws, c', hc, ?_⟩)
    · rw [LuaSeri.luaseriUnpack, hws]
      exact Option.some_ne_none ws
    · rw [hat'.ptr_eq (by omega), Int.toNat_of_nonneg h.le]

theorem not_meetsLong_nil : ¬ MeetsLong rawlen [] := by
  rintro (h | ⟨v, r, h, -⟩)
  · exact h
  · cases h

theorem luaseriUnpack_nonpos {buffer : Bytes} (h : toInt buffer.length ≤ 0) :
    ∃ c, luaseriUnpack buffer rawlen = .ok [] c ∧ c.ptr = 0 := by
  by_cases hz : toInt buffer.length = 0
  · exact ⟨⟨0, 0⟩, by simp only [luaseriUnpack, if_pos hz], rfl⟩
  · refine ⟨⟨0, toInt buffer.length⟩, ?_, rfl⟩
    simp only [luaseriUnpack, if_neg hz]
    have hshort : take buffer 1 ⟨0, toInt buffer.length⟩ = .ok none ⟨0, toInt buffer.length⟩ :=
      if_pos (by dsimp only; omega)
    rw [unpackFrom, bind_apply, hshort]
    rfl

/-- A buffer is read in its bounds exactly when the values in it come to no long string from
`2 ^ 31` on, and its length is an `int` or the part that is counted is malformed. -/
theorem luaseriUnpack_inBounds_iff (buffer : Bytes) : InBounds buffer rawlen ↔
    ¬ MeetsLong rawlen (counted buffer) ∧
      (buffer.length < 0x80000000 ∨ LuaSeri.luaseriUnpack rawlen (counted buffer) = none) := by
  have hint : toInt buffer.length = buffer.length ↔ buffer.length < 0x80000000 := by
    refine ⟨fun h => ?_, toInt_of_lt⟩
    rw [toInt] at h
    have := Int.bmod_lt (x := (buffer.length : ℤ)) (m := 0x100000000) (by norm_num)
    omega
  unfold InBounds
  rcases lt_or_ge 0 (toInt buffer.length) with hpos | hnonpos
  · rcases luaseriUnpack_spec rawlen hpos with ⟨hlong, hc⟩ | ⟨hlong, hlist, hc⟩ |
      ⟨hlong, hlist, vs, c, hc, hptr⟩
    · simp [hc, hlong]
    · simp [hc, hlong, hlist]
    · simp [hc, hlong, hlist, hptr, hint]
  · obtain ⟨c, hc, hptr⟩ := luaseriUnpack_nonpos rawlen hnonpos
    have hnil : counted buffer = [] := by
      rw [counted, Int.toNat_of_nonpos hnonpos, List.take_zero]
    have hlist : LuaSeri.luaseriUnpack rawlen [] ≠ none := by
      rw [LuaSeri.luaseriUnpack, LuaSeri.unpackFrom, if_pos rfl]
      exact Option.some_ne_none _
    simp only [hc, hnil, hlist, not_meetsLong_nil, reduceCtorEq, false_or,
      Result.ok.injEq, not_false_iff, true_and, or_false]
    constructor
    · rintro ⟨vs, c', ⟨-, rfl⟩, h⟩
      omega
    · intro h
      have := toInt_of_lt h
      exact ⟨[], c, ⟨rfl, rfl⟩, by omega⟩

/-- A long string of length `2 ^ 32 - 1` makes the position go backwards. -/
theorem not_inBounds_long :
    ¬ ∀ (buffer : Bytes) (rawlen : Entries → ℕ), InBounds buffer rawlen := by
  intro h
  have hback : luaseriUnpack [0x25, 0xff, 0xff, 0xff, 0xff] (fun _ => 0) = .backwards := rfl
  rcases h [0x25, 0xff, 0xff, 0xff, 0xff] fun _ => 0 with h | ⟨vs, c, h, -⟩
  · rw [hback] at h
    cases h
  · rw [hback] at h
    cases h

end ReadBlock

end LuaSeri

end SkynetGame
