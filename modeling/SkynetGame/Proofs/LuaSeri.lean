import SkynetGame.LuaSeri
import SkynetGame.Proofs.LuaValue
import SkynetGame.Cmaster

/-!
# What is packed

The blocks hold the bytes of one value after the other wherever they end (`WriteBlock.Sound`), and
these bytes are a function of the values (`encode`).
-/

namespace SkynetGame

open List

namespace LuaSeri

open LuaValue

namespace WriteBlock

def bytes (b : WriteBlock) : Bytes := b.full.flatten ++ b.buffer

/-- Every block but the current one is full, and `len` counts the bytes as far as an `int` can. -/
structure Sound (b : WriteBlock) : Prop where
  full : ∀ x ∈ b.full, x.length = blockSize
  buffer : b.buffer.length ≤ blockSize
  len : b.len = Int32.ofNat b.bytes.length

theorem sound_init : init.Sound := ⟨nofun, Nat.zero_le _, rfl⟩

theorem newBlock_spec {b : WriteBlock} (h : b.Sound) (hb : b.buffer.length = blockSize) :
    b.newBlock.Sound ∧ b.newBlock.bytes = b.bytes := by
  have hbytes : b.newBlock.bytes = b.bytes := by simp [newBlock, bytes]
  refine ⟨⟨fun x hx => ?_, Nat.zero_le _, ?_⟩, hbytes⟩
  · rcases mem_append.1 hx with hx | hx
    · exact h.full x hx
    · rw [mem_singleton.1 hx, hb]
  · rw [hbytes]
    exact h.len

theorem copy_spec (b : WriteBlock) (buf : Bytes) (h : b.Sound) :
    (b.copy buf).Sound ∧ (b.copy buf).bytes = b.bytes ++ buf := by
  induction b, buf using copy.induct with
  | case1 b buf hfit =>
    rw [copy, if_pos hfit]
    have hbytes : bytes { b with
        buffer := b.buffer ++ buf
        len := b.len + Int32.ofNat buf.length } = b.bytes ++ buf := by
      simp [bytes]
    refine ⟨⟨h.full, by simpa using hfit, ?_⟩, hbytes⟩
    rw [hbytes, length_append, Int32.ofNat_add, ← h.len]
  | case2 b buf hfit n ih =>
    rw [copy, if_neg hfit]
    have hbuf := h.buffer
    have hn : n ≤ buf.length := by omega
    have hbytes : bytes { newBlock { b with buffer := b.buffer ++ buf.take n } with
        len := b.len + Int32.ofNat n } = b.bytes ++ buf.take n := by
      simp [bytes, newBlock]
    have hsound : Sound { newBlock { b with buffer := b.buffer ++ buf.take n } with
        len := b.len + Int32.ofNat n } := by
      refine ⟨fun x hx => ?_, Nat.zero_le _, ?_⟩
      · rcases mem_append.1 hx with hx | hx
        · exact h.full x hx
        · rw [mem_singleton.1 hx, length_append, length_take, Nat.min_eq_left hn]
          omega
      · rw [hbytes, length_append, length_take, Nat.min_eq_left hn, Int32.ofNat_add,
          ← h.len]
    obtain ⟨hs, hb⟩ := ih hsound
    refine ⟨hs, hb.trans ?_⟩
    rw [hbytes, append_assoc, take_append_drop]

theorem push_spec {b : WriteBlock} (buf : Bytes) (h : b.Sound) :
    (b.push buf).Sound ∧ (b.push buf).bytes = b.bytes ++ buf := by
  unfold push
  split
  · next hb =>
    obtain ⟨hs, hbytes⟩ := newBlock_spec h hb
    rw [← hbytes]
    exact copy_spec _ buf hs
  · exact copy_spec b buf h

end WriteBlock

/-- A function of `wb_push`es writes these bytes. -/
def Writes (f : WriteBlock → WriteBlock) (buf : Bytes) : Prop :=
  ∀ b : WriteBlock, b.Sound → (f b).Sound ∧ (f b).bytes = b.bytes ++ buf

theorem Writes.push (buf : Bytes) : Writes (·.push buf) buf := fun _ h => WriteBlock.push_spec buf h

theorem Writes.comp {f g : WriteBlock → WriteBlock} {buf buf' : Bytes} (h : Writes f buf)
    (h' : Writes g buf') : Writes (fun b => g (f b)) (buf ++ buf') := fun b hb => by
  obtain ⟨hs, hbytes⟩ := h b hb
  obtain ⟨hs', hbytes'⟩ := h' (f b) hs
  exact ⟨hs', by rw [hbytes', hbytes, append_assoc]⟩

/-- The bytes of `wb_integer`. -/
def integerBytes (v : Int64) : Bytes :=
  if v = 0 then [combineType 2 0]
  else if v ≠ v.toInt32.toInt64 then combineType 2 6 :: Endian.le 8 v.toUInt64.toNat
  else if v < 0 then combineType 2 4 :: Endian.le 4 v.toInt32.toUInt32.toNat
  else if v < 0x100 then [combineType 2 1, v.toUInt64.toUInt8]
  else if v < 0x10000 then combineType 2 2 :: Endian.le 2 v.toUInt64.toUInt16.toNat
  else combineType 2 4 :: Endian.le 4 v.toUInt64.toUInt32.toNat

/-- The bytes of `wb_string`. -/
def stringBytes (str : Bytes) : Bytes :=
  if str.length < maxCookie then combineType 4 str.length :: str
  else if str.length < 0x10000 then combineType 5 2 :: (Endian.le 2 str.length ++ str)
  else combineType 5 4 :: (Endian.le 4 str.length ++ str)

/-- The bytes before the first element of a table. -/
def tableBytes (arraySize : ℕ) : Bytes :=
  if maxCookie - 1 ≤ arraySize then
    combineType 6 (maxCookie - 1) :: integerBytes (Int64.ofNat arraySize)
  else [combineType 6 arraySize]

theorem writes_integer (v : Int64) : Writes (·.integer v) (integerBytes v) := by
  unfold WriteBlock.integer integerBytes
  split
  · exact .push _
  · split
    · exact .comp (.push [_]) (.push _)
    · split
      · exact .comp (.push [_]) (.push _)
      · split
        · exact .comp (.push [_]) (.push _)
        · split <;> exact .comp (.push [_]) (.push _)

theorem writes_string (str : Bytes) : Writes (·.string str) (stringBytes str) := by
  unfold WriteBlock.string stringBytes
  dsimp only
  split
  · split
    · exact .comp (.push [_]) (.push _)
    · next hz =>
      obtain rfl : str = [] := eq_nil_of_length_eq_zero (by omega)
      exact .push _
  · split <;> exact .comp (.comp (.push [_]) (.push _)) (.push _)

theorem writes_tableArray (n : ℕ) : Writes (·.tableArray n) (tableBytes n) := by
  unfold WriteBlock.tableArray tableBytes
  split
  · exact .comp (.push [_]) (writes_integer _)
  · exact .push _

/-- The values that are written for a table, in order: the array, then the keys and values of the
other entries. -/
def items (n : ℕ) (t : Entries) : List LuaValue :=
  (List.range n).map (fun i => rawgeti t (i + 1)) ++
    t.flatMap fun p => if inArray n p.1 then [] else [p.1, p.2]

theorem sizeOf_items {n : ℕ} {t : Entries} {w : LuaValue} (h : w ∈ items n t) :
    sizeOf w < 1 + sizeOf t := by
  rcases mem_append.1 h with h | h
  · obtain ⟨i, -, rfl⟩ := mem_map.1 h
    exact sizeOf_rawget _ _
  · obtain ⟨⟨k, v⟩, hp, hw⟩ := mem_flatMap.1 h
    have := sizeOf_lt_of_mem hp
    split at hw
    · exact nomatch hw
    · simp at this hw
      rcases hw with rfl | rfl <;> omega

def encode : LuaValue → Bytes
  | .nil => [0]
  | .boolean v => [combineType 1 v.toNat]
  | .integer v => integerBytes v
  | .number v => combineType 2 8 :: Endian.le 8 v.toNat
  | .lightuserdata p => 3 :: Endian.le 8 p.toNat
  | .string s => stringBytes s
  | .table n t => tableBytes n ++ (items n t).attach.flatMap (fun w => encode w.1) ++ [0]
termination_by v => sizeOf v
decreasing_by
  have := sizeOf_items w.2
  simp only [table.sizeOf_spec]
  omega

theorem encode_table (n : ℕ) (t : Entries) :
    encode (.table n t) = tableBytes n ++ (items n t).flatMap encode ++ [0] := by
  rw [encode]
  congr 2
  conv_rhs => rw [← attach_map_subtype_val (items n t)]
  rw [flatMap_map]

/-- A fallible function writes these bytes. -/
def Puts (f : WriteBlock → Option WriteBlock) (buf : Bytes) : Prop :=
  ∀ b : WriteBlock, b.Sound → ∃ b', f b = some b' ∧ b'.Sound ∧ b'.bytes = b.bytes ++ buf

theorem Writes.puts {f : WriteBlock → WriteBlock} {buf : Bytes} (h : Writes f buf) :
    Puts (fun b => some (f b)) buf := fun b hb => ⟨f b, rfl, h b hb⟩

theorem Puts.bind {f g : WriteBlock → Option WriteBlock} {buf buf' : Bytes} (h : Puts f buf)
    (h' : Puts g buf') : Puts (fun b => (f b).bind g) (buf ++ buf') := fun b hb => by
  obtain ⟨b₁, hf, hs, hbytes⟩ := h b hb
  obtain ⟨b₂, hg, hs', hbytes'⟩ := h' b₁ hs
  exact ⟨b₂, by rw [← hg, ← Option.bind_some b₁ g, ← hf], hs', by rw [hbytes', hbytes, append_assoc]⟩

theorem Puts.foldlM {α : Type} {f : WriteBlock → α → Option WriteBlock} {g : α → Bytes} :
    ∀ {l : List α}, (∀ a ∈ l, Puts (f · a) (g a)) → Puts (l.foldlM f ·) (l.flatMap g)
  | [], _ => fun b hb => ⟨b, rfl, hb, (append_nil _).symm⟩
  | a :: l, h => by
    have hl := Puts.foldlM fun a ha => h a (mem_cons_of_mem _ ha)
    simp only [foldlM_cons, flatMap_cons]
    exact (h a mem_cons_self).bind hl

theorem valid_rawgeti {d n : ℕ} {t : Entries} (h : Valid (d + 1) (.table n t)) (i : ℕ) :
    Valid d (rawgeti t i) := by
  rcases h with _ | _ | _ | _ | _ | _ | ⟨_, _, _, _, _, hval⟩
  unfold rawgeti rawget
  rcases hf : t.find? _ with _ | p
  · exact .nil d
  · exact hval p (mem_of_find?_eq_some hf)

theorem valid_items {d n : ℕ} {t : Entries} (h : Valid (d + 1) (.table n t)) {w : LuaValue}
    (hw : w ∈ items n t) : Valid d w := by
  rcases mem_append.1 hw with hw | hw
  · obtain ⟨i, -, rfl⟩ := mem_map.1 hw
    exact valid_rawgeti h _
  · obtain ⟨p, hp, hw⟩ := mem_flatMap.1 hw
    rcases h with _ | _ | _ | _ | _ | _ | ⟨_, _, _, _, hkey, hval⟩
    split at hw
    · exact nomatch hw
    · rcases mem_cons.1 hw with rfl | hw
      · exact hkey p hp
      · rw [mem_singleton.1 hw]
        exact hval p hp

theorem puts_scalar {v : LuaValue} (hv : ∀ n t, v ≠ .table n t) {depth : ℕ}
    (hd : depth ≤ maxDepth) : Puts (packOne · depth v) (encode v) := by
  intro b hb
  have hdepth : ¬ maxDepth < depth := by omega
  dsimp only
  rw [packOne.eq_def, if_neg hdepth]
  rcases v with _ | v | v | v | p | s | ⟨n, t⟩
  all_goals dsimp only
  · rw [encode]
    exact (Writes.push _).puts b hb
  · rw [encode]
    exact (Writes.push _).puts b hb
  · rw [encode]
    exact (writes_integer _).puts b hb
  · rw [encode]
    exact (Writes.comp (.push [_]) (.push _)).puts b hb
  · rw [encode]
    exact (Writes.comp (.push [_]) (.push _)).puts b hb
  · rw [encode]
    exact (writes_string _).puts b hb
  · exact absurd rfl (hv n t)

theorem puts_table {n : ℕ} {t : Entries} {depth : ℕ} (hd : depth ≤ maxDepth)
    (harr : ∀ i, Puts (packOne · (depth + 1) (rawgeti t i)) (encode (rawgeti t i)))
    (hent : ∀ p ∈ t, Puts (packOne · (depth + 1) p.1) (encode p.1) ∧
      Puts (packOne · (depth + 1) p.2) (encode p.2)) :
    Puts (packOne · depth (.table n t)) (encode (.table n t)) := by
  have hfirst : Puts ((List.range n).foldlM (fun b i =>
      packOne b (depth + 1) (rawgeti t (i + 1))) ·)
      ((List.range n).flatMap fun i => encode (rawgeti t (i + 1))) :=
    .foldlM fun i _ => harr (i + 1)
  have hrest : Puts (t.attach.foldlM (fun b p =>
      if inArray n p.1.1 then some b
      else (packOne b (depth + 1) p.1.1).bind fun b => packOne b (depth + 1) p.1.2) ·)
      (t.attach.flatMap fun p => (if inArray n p.1.1 then [] else [p.1.1, p.1.2]).flatMap
        encode) := by
    refine .foldlM fun p _ => ?_
    obtain ⟨hk, hv⟩ := hent p.1 p.2
    rcases hin : inArray n p.1.1 with _ | _
    · simpa using hk.bind hv
    · intro b hb
      exact ⟨b, rfl, hb, (append_nil _).symm⟩
  have hflat : (items n t).flatMap encode =
      ((List.range n).flatMap fun i => encode (rawgeti t (i + 1))) ++
        t.attach.flatMap fun p => (if inArray n p.1.1 then [] else [p.1.1, p.1.2]).flatMap
          encode := by
    rw [items, flatMap_append, flatMap_map, flatMap_assoc]
    congr 1
    conv_lhs => rw [← attach_map_subtype_val t, flatMap_map]
  have hdepth : ¬ maxDepth < depth := by omega
  rw [encode_table, hflat, append_assoc, append_assoc]
  intro b hb
  dsimp only
  rw [packOne.eq_def, if_neg hdepth]
  exact (writes_tableArray n).puts.bind (hfirst.bind (hrest.bind (Writes.push [0]).puts)) b hb

theorem puts_packOne {d : ℕ} {v : LuaValue} (h : Valid d v) {depth : ℕ}
    (hd : depth + d ≤ maxDepth) : Puts (packOne · depth v) (encode v) := by
  induction d generalizing v depth with
  | zero =>
    refine puts_scalar (fun n t hv => ?_) hd
    subst hv
    exact nomatch h
  | succ d ih =>
    by_cases hv : ∃ n t, v = .table n t
    · obtain ⟨n, t, rfl⟩ := hv
      rcases hvt : h with _ | _ | _ | _ | _ | _ | ⟨hn, hk, hvn, hdis, hkey, hval⟩
      exact puts_table (by omega) (fun i => ih (valid_rawgeti h i) (by omega)) fun p hp =>
        ⟨ih (hkey p hp) (by omega), ih (hval p hp) (by omega)⟩
    · exact puts_scalar (fun n t hv' => hv ⟨n, t, hv'⟩) (by omega)

def size : LuaValue → ℕ
  | .nil => 1
  | .boolean _ => 1
  | .integer v => Cmaster.integerLength v.toInt
  | .number _ => 9
  | .lightuserdata _ => 9
  | .string s => Cmaster.stringLength s
  | .table n t => (if n < 31 then 1 else 1 + Cmaster.integerLength n) +
      ((items n t).attach.map fun w => size w.1).sum + 1
termination_by v => sizeOf v
decreasing_by
  have := sizeOf_items w.2
  simp only [table.sizeOf_spec]
  omega

theorem size_table (n : ℕ) (t : Entries) :
    size (.table n t) = (if n < 31 then 1 else 1 + Cmaster.integerLength n) +
      ((items n t).map size).sum + 1 := by
  rw [size]
  congr 2
  conv_rhs => rw [← attach_map_subtype_val (items n t)]
  rw [map_map]
  rfl

theorem fits_iff (v : Int64) : v = v.toInt32.toInt64 ↔ -2 ^ 31 ≤ v.toInt ∧ v.toInt < 2 ^ 31 := by
  rw [← Int64.toInt_inj, Int32.toInt_toInt64, Int64.toInt_toInt32]
  constructor
  · intro h
    rw [h]
    exact ⟨Int.le_bmod (by omega), Int.bmod_lt (by omega)⟩
  · rintro ⟨hle, hlt⟩
    exact (Int.bmod_eq_of_le hle hlt).symm

theorem length_integerBytes (v : Int64) :
    (integerBytes v).length = Cmaster.integerLength v.toInt := by
  have hz : v = 0 ↔ v.toInt = 0 := by rw [← Int64.toInt_inj]; rfl
  have hfit := fits_iff v
  have hneg : v < 0 ↔ v.toInt < 0 := Int64.lt_iff_toInt_lt
  have hbyte : v < 0x100 ↔ v.toInt < 0x100 := Int64.lt_iff_toInt_lt
  have hword : v < 0x10000 ↔ v.toInt < 0x10000 := Int64.lt_iff_toInt_lt
  unfold integerBytes Cmaster.integerLength
  simp only [hz, ne_eq, hfit, hneg, hbyte, hword]
  split_ifs <;> simp <;> omega

theorem length_stringBytes (s : Bytes) : (stringBytes s).length = Cmaster.stringLength s := by
  unfold stringBytes Cmaster.stringLength
  rw [maxCookie]
  split_ifs <;> simp <;> omega

theorem length_tableBytes {n : ℕ} (hn : n < 2 ^ 31) :
    (tableBytes n).length = if n < 31 then 1 else 1 + Cmaster.integerLength n := by
  have hnat : (Int64.ofNat n).toInt = n := by
    rw [Int64.toInt_ofNat']
    exact Int.bmod_eq_of_le (by omega) (by simp only [Int64.size]; omega)
  unfold tableBytes
  rw [maxCookie]
  split_ifs
  · omega
  · rw [length_cons, length_integerBytes, hnat, Nat.add_comm]
  · rfl
  · omega

theorem length_encode {d : ℕ} {v : LuaValue} (h : Valid d v) : (encode v).length = size v := by
  have hscalar : ∀ v, (∀ n t, v ≠ .table n t) → (encode v).length = size v := fun v hv => by
    rcases v with _ | v | v | v | p | s | ⟨n, t⟩
    · rw [encode, size]
      rfl
    · rw [encode, size]
      rfl
    · rw [encode, size, length_integerBytes]
    · rw [encode, size, length_cons, Endian.length_le]
    · rw [encode, size, length_cons, Endian.length_le]
    · rw [encode, size, length_stringBytes]
    · exact absurd rfl (hv n t)
  induction d generalizing v with
  | zero =>
    refine hscalar v fun n t hv => ?_
    subst hv
    exact nomatch h
  | succ d ih =>
    by_cases hv : ∃ n t, v = .table n t
    · obtain ⟨n, t, rfl⟩ := hv
      have hn : n < 2 ^ 31 := by
        rcases h with _ | _ | _ | _ | _ | _ | ⟨hn, _, _, _, _, _⟩
        exact hn
      rw [encode_table, size_table, length_append, length_append, length_flatMap,
        length_tableBytes hn, map_congr_left fun w hw => ih (valid_items h hw)]
      rfl
    · exact hscalar v fun n t hv' => hv ⟨n, t, hv'⟩

theorem copyBlocks_eq : ∀ {full : List Bytes} {buffer : Bytes} (len : ℕ),
    (∀ x ∈ full, x.length = blockSize) → buffer.length ≤ blockSize →
    copyBlocks (full ++ [buffer]) len = (full.flatten ++ buffer).take len
  | [], buffer, len, _, hb => by
    unfold blockSize at hb
    simp only [nil_append, copyBlocks, flatten_nil]
    split
    · next hl =>
      unfold blockSize at *
      rw [append_nil, take_of_length_le hb, take_of_length_le (by omega)]
    · rfl
  | x :: full, buffer, len, hf, hb => by
    have hx := hf x mem_cons_self
    rw [cons_append, copyBlocks, flatten_cons, append_assoc, take_append, hx]
    split
    · next hl =>
      rw [copyBlocks_eq (len - blockSize) (fun y hy => hf y (mem_cons_of_mem _ hy)) hb,
        take_of_length_le (by omega : x.length ≤ blockSize),
        take_of_length_le (by omega : x.length ≤ len)]
    · next hl =>
      rw [(by omega : len - blockSize = 0), take_zero, append_nil]

theorem luaseriPack_eq {vs : List LuaValue} (h : ∀ v ∈ vs, Valid maxDepth v) :
    luaseriPack vs = if Int32.ofNat (vs.flatMap encode).length < 0 then none
      else some ((vs.flatMap encode).take (Int32.ofNat (vs.flatMap encode).length).toInt.toNat) := by
  have hputs : Puts (packFrom · vs) (vs.flatMap encode) :=
    .foldlM fun v hv => puts_packOne (h v hv) (by omega)
  obtain ⟨b, hb, hs, hbytes⟩ := hputs .init WriteBlock.sound_init
  rw [show WriteBlock.init.bytes = [] from rfl, nil_append] at hbytes
  unfold luaseriPack
  rw [show packFrom .init vs = some b from hb, Option.bind_some, seri, hs.len, hbytes,
    copyBlocks_eq _ hs.full hs.buffer, show b.full.flatten ++ b.buffer = b.bytes from rfl, hbytes]

end LuaSeri

end SkynetGame
