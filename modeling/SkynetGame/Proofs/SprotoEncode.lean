import SkynetGame.SprotoEncode

/-!
# Records and tags of a loaded type (`sproto.c`)

The fields of a loaded type ascend, so that a type as long as its tags go has them side by side, and
the two ways of `findtag` are one. A record for tags that are passed over is charged to a gap that
the type has there, or to the field without a value in front of it.
-/

namespace SkynetGame

open Option

namespace SprotoEncode

/-- The tags ascend from behind `last`, with so many gaps, and are ints. -/
inductive Ascends : ℤ → List Field → ℕ → Prop
  | nil (last : ℤ) : Ascends last [] 0
  | cons {last : ℤ} {f : Field} {fs : List Field} {gaps : ℕ} (hlt : last < f.tag)
      (hle : f.tag < 0x8000) (h : Ascends f.tag fs gaps) :
      Ascends last (f :: fs) (if last + 1 < f.tag then gaps + 1 else gaps)

section Load

variable {mem : ℕ → UInt8} {type_n : ℕ}

theorem toword_lt (p : ℕ) : toword mem p < 0x10000 := by
  have h₀ := (mem p).toNat_lt
  have h₁ := (mem (p + 1)).toNat_lt
  unfold toword
  omega

theorem importValue_tag {f f' : Partial} {tag value : ℕ} {name : Bytes}
    (h : importValue type_n f tag value name = some f') (hv : value < 0x10000)
    (hf : ∀ t, f.tag = some t → t < 0x8000) : ∀ t, f'.tag = some t → t < 0x8000 := by
  unfold importValue at h
  by_cases htag : tag = 0
  · rw [if_pos htag] at h
    split_ifs at h
    cases h
    exact hf
  · rw [if_neg htag] at h
    by_cases hzero : value = 0
    · rw [if_pos hzero] at h
      cases h
    · rw [if_neg hzero] at h
      dsimp only at h
      split at h
      · split at h <;> cases h <;> exact hf
      · split_ifs at h
        cases h
        exact hf
      · cases h
        rintro _ ⟨⟩
        omega
      · split_ifs at h <;> cases h <;> exact hf
      · cases h
        exact hf
      · cases h

theorem importFieldLoop_tag {stream fn : ℕ} : ∀ (n i tag : ℕ) {f f' : Partial},
    importFieldLoop mem type_n stream fn n i tag f = some f' →
      (∀ t, f.tag = some t → t < 0x8000) → ∀ t, f'.tag = some t → t < 0x8000
  | 0, _, _, _, _, h, hf => by
    cases h
    exact hf
  | n + 1, i, tag, f, f', h, hf => by
    unfold importFieldLoop at h
    dsimp only at h
    split_ifs at h
    · exact importFieldLoop_tag n _ _ h hf
    · obtain ⟨f₁, h₁, h⟩ := bind_eq_some_iff.1 h
      exact importFieldLoop_tag n _ _ h (importValue_tag h₁ (toword_lt _) hf)

theorem import_field_tag {stream stream' : ℕ} {f : Field}
    (h : import_field mem type_n stream = some (f, stream')) : f.tag < 0x8000 := by
  unfold import_field at h
  obtain ⟨fn, -, h⟩ := bind_eq_some_iff.1 h
  obtain ⟨f', hloop, h⟩ := bind_eq_some_iff.1 h
  obtain ⟨tag, htag, h⟩ := bind_eq_some_iff.1 h
  obtain ⟨type, -, h⟩ := bind_eq_some_iff.1 h
  obtain ⟨name, -, h⟩ := bind_eq_some_iff.1 h
  cases h
  refine importFieldLoop_tag _ _ _ hloop (fun t ht => ?_) tag htag
  cases ht

theorem importFields_ascends : ∀ (n stream : ℕ) (last : ℤ) {fs : List Field} {gaps : ℕ},
    importFields mem type_n n stream last = some (fs, gaps) → fs.length = n ∧ Ascends last fs gaps
  | 0, _, last, _, _, h => by
    cases h
    exact ⟨rfl, .nil last⟩
  | n + 1, stream, last, fs, gaps, h => by
    unfold importFields at h
    obtain ⟨⟨f, stream'⟩, hf, h⟩ := bind_eq_some_iff.1 h
    dsimp only at h
    by_cases hle : (f.tag : ℤ) ≤ last
    · rw [if_pos hle] at h
      cases h
    rw [if_neg hle] at h
    obtain ⟨⟨fs', gaps'⟩, hfs, h⟩ := bind_eq_some_iff.1 h
    cases h
    obtain ⟨hlen, hasc⟩ := importFields_ascends n stream' f.tag hfs
    exact ⟨by rw [List.length_cons, hlen], .cons (by omega) (import_field_tag hf) hasc⟩

/-- A type that has been loaded: its tags ascend, its records are its fields and its gaps, and with a
base its tags are side by side. -/
structure Loaded (t : SprotoType) : Prop where
  ascends : ∃ gaps, Ascends (-1) t.f gaps ∧ t.maxn = t.f.length + gaps
  base : 0 ≤ t.base → ∀ f last, t.f.head? = some f → t.f.getLast? = some last →
    t.base = f.tag ∧ last.tag - t.base + 1 = t.f.length

theorem loaded_of_import {garbage : ℤ × ℤ} {stream stream' : ℕ} {t : SprotoType}
    (h : import_type mem garbage type_n stream = some (t, stream')) : Loaded t := by
  unfold import_type at h
  obtain ⟨fn, -, h⟩ := bind_eq_some_iff.1 h
  dsimp only at h
  by_cases hfn : fn = 0 ∨ 2 < fn
  · rw [if_pos hfn] at h
    cases h
  rw [if_neg hfn] at h
  by_cases hany : ((List.range fn).any fun i => toword mem (stream + 6 + i * 2) ≠ 0) = true
  · rw [if_pos hany] at h
    cases h
  rw [if_neg hany] at h
  by_cases hone : fn = 1
  · rw [if_pos hone] at h
    cases h
    exact ⟨⟨0, .nil _, rfl⟩, fun _ f last hf => by cases hf⟩
  rw [if_neg hone] at h
  obtain ⟨n, -, h⟩ := bind_eq_some_iff.1 h
  obtain ⟨⟨fs, gaps⟩, hfs, h⟩ := bind_eq_some_iff.1 h
  cases h
  obtain ⟨hlen, hasc⟩ := importFields_ascends n _ (-1) hfs
  refine ⟨⟨gaps, hasc, by rw [hlen]⟩, fun hbase f last hf hlast => ?_⟩
  dsimp only at hf hlast hbase ⊢
  rw [hf, hlast] at hbase ⊢
  dsimp only [map_some, getD_some] at hbase ⊢
  by_cases he : (last.tag : ℤ) - f.tag + 1 = n
  · rw [if_pos he]
    exact ⟨rfl, by rw [he, hlen]⟩
  · rw [if_neg he] at hbase
    omega

end Load

section Find

variable {last : ℤ} {fs : List Field} {gaps : ℕ}

theorem Ascends.tag_ge (h : Ascends last fs gaps) : ∀ (i : ℕ) (f : Field), fs[i]? = some f →
    last + 1 + i ≤ f.tag := by
  induction h with
  | nil => intro i f hf; cases hf
  | @cons last f fs gaps hlt hle h ih =>
    intro i g hg
    cases i with
    | zero =>
      cases hg
      push_cast
      omega
    | succ i =>
      have := ih i g hg
      push_cast
      omega

theorem Ascends.tail (h : Ascends last fs gaps) (i : ℕ) {f : Field} (hf : fs[i]? = some f) :
    ∃ gaps', Ascends f.tag (fs.drop (i + 1)) gaps' := by
  induction h generalizing i with
  | nil => cases hf
  | @cons last g fs gaps hlt hle h ih =>
    cases i with
    | zero =>
      cases hf
      exact ⟨gaps, h⟩
    | succ i => exact ih i hf

theorem Ascends.tag_lt (h : Ascends last fs gaps) {i : ℕ} {f : Field} (hf : fs[i]? = some f) :
    f.tag < 0x8000 := by
  induction h generalizing i with
  | nil => cases hf
  | @cons last g fs gaps hlt hle h ih =>
    cases i with
    | zero =>
      cases hf
      exact hle
    | succ i => exact ih hf

theorem Ascends.tag_add (h : Ascends last fs gaps) {i j : ℕ} {f g : Field} (hf : fs[i]? = some f)
    (hg : fs[j]? = some g) (hij : i ≤ j) : f.tag + (j - i) ≤ g.tag := by
  rcases Nat.lt_or_eq_of_le hij with hlt | rfl
  · obtain ⟨gaps', h'⟩ := h.tail i hf
    have hg' : (fs.drop (i + 1))[j - (i + 1)]? = some g := by
      rw [List.getElem?_drop, Nat.add_sub_cancel' hlt]
      exact hg
    have := h'.tag_ge _ g hg'
    omega
  · rw [hf] at hg
    cases hg
    omega

theorem searchTag_spec (h : Ascends last fs gaps) (tag : ℤ) : ∀ (fuel begin stop : ℕ),
    stop ≤ fs.length → stop < begin + fuel →
      (∀ (i : ℕ) (f : Field), fs[i]? = some f →
        (i < begin → f.tag < tag) ∧ (stop ≤ i → tag < f.tag)) →
        (∀ (i : ℕ) (f : Field), fs[i]? = some f → f.tag = tag → searchTag fs tag fuel begin stop = some f) ∧
        ((∀ f ∈ fs, (f.tag : ℤ) ≠ tag) → searchTag fs tag fuel begin stop = none)
  | 0, begin, stop, hle, hfuel, hout => by
    refine ⟨fun i f hf htag => ?_, fun _ => rfl⟩
    have := hout i f hf
    omega
  | fuel + 1, begin, stop, hle, hfuel, hout => by
    unfold searchTag
    by_cases hlt : begin < stop
    · obtain ⟨mid, hmid⟩ : ∃ mid, mid = (begin + stop) / 2 := ⟨_, rfl⟩
      obtain ⟨m, hm⟩ : ∃ m, fs[mid]? = some m := ⟨_, List.getElem?_eq_getElem (by omega)⟩
      simp only [if_pos hlt, ← hmid, hm]
      by_cases heq : (m.tag : ℤ) = tag
      · rw [if_pos heq]
        refine ⟨fun i f hf htag => ?_, fun hno => ?_⟩
        · -- two fields with one tag are one
          have h₁ := fun hij => h.tag_add hf hm (i := i) (j := mid) hij
          have h₂ := fun hij => h.tag_add hm hf (i := mid) (j := i) hij
          have hi : i = mid := by omega
          rw [hi, hm] at hf
          exact hf
        · exact absurd heq (hno m (List.mem_of_getElem? hm))
      · rw [if_neg heq]
        by_cases hgt : (m.tag : ℤ) < tag
        · rw [if_pos hgt]
          refine searchTag_spec h tag fuel (mid + 1) stop hle (by omega) fun i f hf => ?_
          refine ⟨fun hi => ?_, (hout i f hf).2⟩
          have := h.tag_add hf hm (i := i) (j := mid) (by omega)
          omega
        · rw [if_neg hgt]
          refine searchTag_spec h tag fuel begin mid (by omega) (by omega) fun i f hf => ?_
          refine ⟨(hout i f hf).1, fun hi => ?_⟩
          have := h.tag_add hm hf (i := mid) (j := i) hi
          omega
    · rw [if_neg hlt]
      refine ⟨fun i f hf htag => ?_, fun _ => rfl⟩
      have := hout i f hf
      omega

theorem binarySearch_spec {t : SprotoType} (h : Loaded t) (tag : ℤ) :
    (∀ (i : ℕ) (f : Field), t.f[i]? = some f → f.tag = tag → binarySearch t tag = some f) ∧
      ((∀ f ∈ t.f, (f.tag : ℤ) ≠ tag) → binarySearch t tag = none) := by
  obtain ⟨gaps, hasc, -⟩ := h.ascends
  refine searchTag_spec hasc tag _ 0 _ le_rfl (by omega) fun i f hf => ⟨fun hi => ?_, fun hi => ?_⟩
  · omega
  · rw [List.getElem?_eq_none hi] at hf
    cases hf

theorem findtag_eq {t : SprotoType} (h : Loaded t) (tag : Int32) :
    findtag t tag = binarySearch t tag.toInt := by
  obtain ⟨hfound, hmissed⟩ := binarySearch_spec h tag.toInt
  unfold findtag
  by_cases hbase : 0 ≤ t.base
  · rw [if_pos hbase]
    obtain ⟨gaps, hasc, -⟩ := h.ascends
    dsimp only
    rcases hlen : t.f.length with _ | n
    · -- without fields any base will do
      have hnil := List.length_eq_zero_iff.1 hlen
      rw [hmissed (by rw [hnil]; simp)]
      split_ifs
      · rfl
      · rw [hnil]
        rfl
    · obtain ⟨a, hfirst⟩ : ∃ a, t.f[0]? = some a := ⟨_, List.getElem?_eq_getElem (by omega)⟩
      obtain ⟨b, hend⟩ : ∃ b, t.f[n]? = some b := ⟨_, List.getElem?_eq_getElem (by omega)⟩
      obtain ⟨hb, hn⟩ := h.base hbase a b (by rw [List.head?_eq_getElem?, hfirst])
        (by rw [List.getLast?_eq_getElem?, hlen, Nat.add_sub_cancel, hend])
      have hsmall := hasc.tag_lt hend
      rw [hlen] at hn
      -- the tags are one after the other, as there are as many of them as from the first to the last
      have htag : ∀ (i : ℕ) (f : Field), t.f[i]? = some f → (f.tag : ℤ) = t.base + i := by
        intro i f hf
        have hi := (List.getElem?_eq_some_iff.1 hf).1
        have h₁ := hasc.tag_add hfirst hf (Nat.zero_le i)
        have h₂ := hasc.tag_add hf hend (by omega)
        push_cast at hn h₁ h₂
        omega
      have hlo := tag.le_toInt
      have hhi := tag.toInt_lt
      by_cases hin : t.base ≤ tag.toInt ∧ tag.toInt - t.base < n + 1
      · obtain ⟨i, hi⟩ : ∃ i : ℕ, tag.toInt - t.base = i :=
          ⟨(tag.toInt - t.base).toNat, (Int.toNat_of_nonneg (by omega)).symm⟩
        have hmod : (tag.toInt - t.base).bmod 0x100000000 = i := by
          rw [hi]
          exact Int.bmod_eq_of_le (by omega) (by omega)
        obtain ⟨f, hf⟩ : ∃ f, t.f[i]? = some f := ⟨_, List.getElem?_eq_getElem (by omega)⟩
        rw [hmod, if_neg (by push_cast; omega), Int.toNat_natCast, hf,
          hfound i f hf (by rw [htag i f hf]; omega)]
      · rw [hmissed]
        · -- outside, also where the difference wraps around
          rw [if_pos]
          have hmod := Int.bmod_eq_emod (tag.toInt - t.base) 0x100000000
          push_cast at hmod hn ⊢
          split_ifs at hmod <;> omega
        · intro f hf
          obtain ⟨i, hi, rfl⟩ := List.getElem_of_mem hf
          have := htag i _ (List.getElem?_eq_getElem hi)
          omega
  · rw [if_neg hbase]

end Find

section Records

variable {σ : Type} {cb : Arg → σ → Reply × σ}

/-- The records are below their number up to here, with one to spare behind a field without a
value. -/
def Charged (n : ℕ) (last : ℤ) (w : Writer) : Prop :=
  w.records.length ≤ n ∧ (w.lasttag = last ∨ w.records.length + 1 ≤ n)

theorem Writer.record_spec {w w' : Writer} {n : ℕ} {last : ℤ} {f : Field} {sz : ℤ} {value : ℕ}
    (h : Charged n last w) (hr : w.record f sz value = some w') :
    Charged (n + 1 + if last + 1 < f.tag then 1 else 0) f.tag w' := by
  obtain ⟨hle, hspare⟩ := h
  unfold Writer.record at hr
  have hsame : ∀ w₁ : Writer, w₁ = (if value = 0 then
      { w with datasz := w.datasz + sz, size := w.size - sz } else w) →
        w₁.records = w.records ∧ w₁.lasttag = w.lasttag := by
    rintro w₁ rfl
    split_ifs <;> exact ⟨rfl, rfl⟩
  generalize (if value = 0 then
    { w with datasz := w.datasz + sz, size := w.size - sz } else w) = w₁ at hr hsame
  obtain ⟨hrec, hlast⟩ := hsame w₁ rfl
  dsimp only at hr
  rw [hrec, hlast] at hr
  split_ifs at hr with hskip hlarge
  · cases hr
    refine ⟨?_, Or.inl rfl⟩
    rw [List.length_append, List.length_cons, List.length_singleton]
    split_ifs <;> omega
  · cases hr
    refine ⟨?_, Or.inl rfl⟩
    rw [List.length_append, List.length_singleton]
    omega

theorem encodeFields_length {fuel : ℕ} {fs : List Field} {last : ℤ} {gaps : ℕ}
    (h : Ascends last fs gaps) : ∀ {n : ℕ} {w : Writer} (ud : σ), Charged n last w →
      (encodeFields cb fuel fs w ud).2.records.length ≤ n + fs.length + gaps := by
  induction h with
  | nil => exact fun ud hw => hw.1
  | @cons last f fs gaps hlt hle h ih =>
    intro n w ud hw
    have hnext : ∀ {w' : Writer} (ud : σ),
        Charged (n + 1 + if last + 1 < f.tag then 1 else 0) f.tag w' →
          (encodeFields cb fuel fs w' ud).2.records.length ≤
            n + (f :: fs).length + if last + 1 < f.tag then gaps + 1 else gaps := by
      intro w' ud hw'
      have := ih ud hw'
      rw [List.length_cons]
      split_ifs at this ⊢ <;> omega
    have hstop : w.records.length ≤
        n + (f :: fs).length + if last + 1 < f.tag then gaps + 1 else gaps := by
      have := hw.1
      omega
    unfold encodeFields
    rcases encodeField cb fuel f w.size ud with ⟨r, ud'⟩
    cases r with
    | next =>
      -- a field without a value pays for the tags passed over
      refine hnext ud' ⟨?_, Or.inr ?_⟩
      · have := hw.1
        omega
      · have := hw.1
        split_ifs <;> omega
    | stop o => exact hstop
    | data sz =>
      dsimp only
      rcases hr : w.record f sz 0 with _ | w'
      · exact hstop
      · exact hnext ud' (Writer.record_spec hw hr)
    | value v =>
      dsimp only
      rcases hr : w.record f 2 v with _ | w'
      · exact hstop
      · exact hnext ud' (Writer.record_spec hw hr)

end Records

/-- The records of an object fit in front of the data area, and a tag is found alike in both
ways. -/
theorem records_le_and_findtag {mem : ℕ → UInt8} {garbage : ℤ × ℤ} {type_n stream stream' : ℕ}
    {t : SprotoType} (h : import_type mem garbage type_n stream = some (t, stream')) :
    (∀ (σ : Type) (cb : Arg → σ → Reply × σ) (fuel : ℕ) (size : ℤ) (ud : σ),
      (sproto_encode cb fuel t size ud).2.length ≤ t.maxn) ∧
    ∀ tag : Int32, findtag t tag = binarySearch t tag.toInt := by
  have hloaded := loaded_of_import h
  refine ⟨fun σ cb fuel size ud => ?_, findtag_eq hloaded⟩
  obtain ⟨gaps, hasc, hmaxn⟩ := hloaded.ascends
  have hrun : (encodeFields cb fuel t.f ⟨[], 0, size - headerSz t, -1⟩ ud).2.records.length ≤
      0 + t.f.length + gaps := encodeFields_length hasc ud ⟨Nat.le_refl 0, Or.inl rfl⟩
  unfold sproto_encode
  split_ifs
  · exact Nat.zero_le _
  · rw [hmaxn, ← Nat.zero_add t.f.length]
    rcases hr : encodeFields cb fuel t.f ⟨[], 0, size - headerSz t, -1⟩ ud with ⟨o, w⟩
    rw [hr] at hrun
    cases o <;> exact hrun

def twoTags : Bytes :=
  [53, 0, 0, 0, 2, 0, 0, 0, 0, 0, 1, 0, 0, 0, 84, 38, 0, 0, 0,
    15, 0, 0, 0, 4, 0, 0, 0, 2, 0, 1, 0, 4, 0, 1, 0, 0, 0, 97,
    15, 0, 0, 0, 4, 0, 0, 0, 2, 0, 1, 0, 8, 0, 1, 0, 0, 0, 98]

def twoTagsType : SprotoType :=
  ⟨[84], -1, 4, [⟨1, .integer, false, [97], none⟩, ⟨3, .integer, false, [98], none⟩]⟩

theorem records_twoTags :
    (sproto_encode (fun _ n => (⟨4, 5⟩, n)) 2 twoTagsType 100 ()).2.length ≤ 4 ∧
    findtag twoTagsType 3 = some ⟨3, .integer, false, [98], none⟩ := by
  have himport : import_type (fun i => twoTags.getD i 0) (0, 0) 0 0 = some (twoTagsType, 57) := by
    decide +kernel
  have h := records_le_and_findtag himport
  have hfind : binarySearch twoTagsType (3 : Int32).toInt =
      some ⟨3, .integer, false, [98], none⟩ := by decide
  exact ⟨h.1 Unit _ 2 100 (), (h.2 3).trans hfind⟩

end SprotoEncode

end SkynetGame
