import SkynetGame.Handle

/-!
# The names of handles are a sorted map

Each operation is a list operation on the entries in use: inserting cuts them at the place that the
search comes to, whether the array is shifted or copied, and retiring filters them. So they stay sorted,
and a name has one entry, for who was the first to be registered under it (`Names.Inv`).
-/

namespace SkynetGame

open Function List Option

theorem strcmp_lt_iff : ∀ a b : Bytes, strcmp a b = .lt ↔ a < b
  | [], [] => by simp [strcmp]
  | [], _ :: _ => by simp [strcmp]
  | _ :: _, [] => by simp [strcmp]
  | a :: as, b :: bs => by
    rw [strcmp, cons_lt_cons_iff]
    split_ifs with he hlt
    · subst he
      rw [strcmp_lt_iff as bs]
      simp
    · simp [hlt]
    · simp [hlt, he]

theorem strcmp_swap : ∀ a b : Bytes, strcmp a b = .gt ↔ strcmp b a = .lt
  | [], [] => by simp [strcmp]
  | [], _ :: _ => by simp [strcmp]
  | _ :: _, [] => by simp [strcmp]
  | a :: as, b :: bs => by
    rw [strcmp, strcmp]
    rcases Std.lt_trichotomy a b with hlt | rfl | hgt
    · have hne : a ≠ b := Std.ne_of_lt hlt
      have hle : ¬ b < a := Std.not_gt_of_lt hlt
      simp [hne, hne.symm, hlt, hle]
    · simp [strcmp_swap as bs]
    · have hne : a ≠ b := (Std.ne_of_lt hgt).symm
      have hle : ¬ a < b := Std.not_gt_of_lt hgt
      simp [hne, hne.symm, hgt, hle]

theorem strcmp_eq_iff : ∀ a b : Bytes, strcmp a b = .eq ↔ a = b
  | [], [] => by simp [strcmp]
  | [], _ :: _ => by simp [strcmp]
  | _ :: _, [] => by simp [strcmp]
  | a :: as, b :: bs => by
    rw [strcmp]
    split_ifs with he hlt
    · subst he
      rw [strcmp_eq_iff as bs]
      simp
    · simp [he]
    · simp [he]

theorem strcmp_trans {a b c : Bytes} (h : strcmp a b = .lt) (h' : strcmp b c = .lt) :
    strcmp a c = .lt := by
  rw [strcmp_lt_iff] at h h' ⊢
  exact List.lt_trans h h'

theorem ne_of_strcmp {a b : Bytes} (h : strcmp a b = .lt) : a ≠ b := by
  rintro rfl
  rw [(strcmp_eq_iff a a).2 rfl] at h
  cases h

namespace NameStorage

variable {s t : NameStorage} {name : Bytes} {handle before : ℕ}

/-! ## The array -/

/-- Strictly sorted by `strcmp`. -/
def Sorted (l : List HandleName) : Prop := l.Pairwise fun a b => strcmp a.name b.name = .lt

theorem length_entries (s : NameStorage) : s.entries.length = s.nameCount := length_slice ..

theorem getElem_entries {i : ℕ} (hi : i < s.entries.length) : s.entries[i] = s.name i := by
  simp [entries, slice]

theorem mem_entries {e : HandleName} : e ∈ s.entries ↔ ∃ i < s.nameCount, s.name i = e := by
  simp [entries, slice, mem_range'_1]

theorem sorted_lt (h : Sorted s.entries) {i j : ℕ} (hij : i < j) (hj : j < s.nameCount) :
    strcmp (s.name i).name (s.name j).name = .lt := by
  rw [← length_entries] at hj
  have hp := pairwise_iff_getElem.1 h i j (hij.trans hj) hj hij
  rwa [getElem_entries (hij.trans hj), getElem_entries hj] at hp

theorem splits (h : Sorted s.entries) (name : Bytes) :
    Splits (fun i => strcmp (s.name i).name name) s.nameCount := by
  intro i j hij hj hne
  have hlt := sorted_lt h hij hj
  dsimp only at hne ⊢
  rw [strcmp_swap]
  cases hi : strcmp (s.name i).name name with
  | lt => exact absurd hi hne
  | eq => rwa [(strcmp_eq_iff _ _).1 hi] at hlt
  | gt => exact strcmp_trans ((strcmp_swap _ _).1 hi) hlt

theorem search_found (h : Sorted s.entries) {i : ℕ} (hs : s.search name = .inl i) :
    i < s.nameCount ∧ (s.name i).name = name := by
  obtain ⟨hi, heq⟩ := bisect_found (splits h name) hs
  exact ⟨hi, (strcmp_eq_iff _ _).1 heq⟩

theorem search_missed (h : Sorted s.entries) (hs : s.search name = .inr before) :
    before ≤ s.nameCount ∧ (∀ e ∈ s.entries.take before, strcmp e.name name = .lt)
      ∧ ∀ e ∈ s.entries.drop before, strcmp name e.name = .lt := by
  obtain ⟨hle, hbelow, habove⟩ := bisect_missed (splits h name) hs
  refine ⟨hle, fun e he => ?_, fun e he => ?_⟩
  · obtain ⟨i, hi, rfl⟩ := mem_take_iff_getElem.1 he
    rw [getElem_entries (by omega)]
    exact hbelow i (by omega)
  · obtain ⟨i, hi, rfl⟩ := mem_drop_iff_getElem.1 he
    rw [getElem_entries (by omega)]
    rw [length_entries] at hi
    exact (strcmp_swap _ _).1 (habove _ (by omega) (by omega))

theorem not_mem_of_missed (h : Sorted s.entries) (hs : s.search name = .inr before)
    {e : HandleName} (he : e.name = name) : e ∉ s.entries := by
  obtain ⟨-, hbelow, habove⟩ := search_missed h hs
  intro hmem
  rw [← take_append_drop before s.entries] at hmem
  rcases mem_append.1 hmem with hmem | hmem
  · exact ne_of_strcmp (hbelow e hmem) he
  · exact ne_of_strcmp (habove e hmem) he.symm

/-! ## Inserting -/

theorem foldl_update (g : ℕ → HandleName) (d : ℕ) : ∀ (k a : ℕ) (m : ℕ → HandleName) (x : ℕ),
    (List.range' a k).foldl (fun n i => update n (i + d) (g i)) m x
      = if a + d ≤ x ∧ x < a + d + k then g (x - d) else m x
  | 0, a, m, x => by
    rw [if_neg (by omega)]
    rfl
  | k + 1, a, m, x => by
    rw [range'_succ, foldl_cons, foldl_update g d k (a + 1)]
    rcases eq_or_ne x (a + d) with rfl | hne
    · rw [if_neg (by omega), update_self, if_pos (by omega), Nat.add_sub_cancel]
    · rw [update_of_ne hne]
      by_cases hx : a + d ≤ x ∧ x < a + d + (k + 1)
      · rw [if_pos hx, if_pos (by omega)]
      · rw [if_neg hx, if_neg (by omega)]

theorem copyAround_apply (hle : before ≤ s.nameCount) {i : ℕ} (hi : i ≤ s.nameCount)
    (hne : i ≠ before) :
    s.copyAround before i = if i < before then s.name i else s.name (i - 1) := by
  have hcopy := foldl_update s.name 1 (s.nameCount - before) before
    ((List.range before).foldl (fun n i => update n i (s.name i)) default) i
  rw [copyAround, hcopy]
  split_ifs with h h'
  · omega
  · rfl
  · have hfirst := foldl_update s.name 0 before 0 default i
    rw [range_eq_range']
    exact hfirst.trans (if_pos (by omega))
  · omega

theorem shiftLoop_apply (before : ℕ) : ∀ (k : ℕ) (name : ℕ → HandleName) (i : ℕ), i ≠ before →
    shiftLoop before k name i = if before < i ∧ i ≤ k then name (i - 1) else name i
  | 0, name, i, hne => by
    rw [if_neg (by omega)]
    rfl
  | k + 1, name, i, hne => by
    rw [shiftLoop]
    split_ifs with hk hi
    · rw [shiftLoop_apply before k _ i hne]
      rcases eq_or_ne i (k + 1) with rfl | hik
      · rw [if_neg (by omega), update_self, Nat.add_sub_cancel]
      · rw [if_pos (by omega), update_of_ne (by omega)]
    · rw [shiftLoop_apply before k _ i hne, if_neg (by omega), update_of_ne (by omega)]
    · omega
    · rfl

theorem insertNameBefore_eq (hle : before ≤ s.nameCount)
    (h : s.insertNameBefore name handle before = some t) : t.nameCount = s.nameCount + 1
      ∧ ∀ i ≤ s.nameCount, t.name i = if i < before then s.name i
        else if i = before then ⟨name, handle⟩ else s.name (i - 1) := by
  obtain ⟨⟨cap, n⟩, hr, rfl⟩ := map_eq_some_iff.1 h
  refine ⟨rfl, fun i hi => ?_⟩
  dsimp only
  rcases eq_or_ne i before with rfl | hne
  · rw [update_self, if_neg (Nat.lt_irrefl i), if_pos rfl]
  rw [update_of_ne hne, if_neg hne]
  split_ifs at hr
  · obtain ⟨-, rfl⟩ := Prod.mk.inj (some.inj hr)
    exact copyAround_apply hle hi hne
  · obtain ⟨-, rfl⟩ := Prod.mk.inj (some.inj hr)
    rw [shiftLoop_apply before _ _ i hne]
    split_ifs
    · omega
    · rfl
    · rfl
    · omega

theorem slice_eq {m m' : ℕ → HandleName} {a b n : ℕ} (h : ∀ k < n, m (a + k) = m' (b + k)) :
    slice m a n = slice m' b n := by
  refine ext_getElem (by simp) fun k hk _ => ?_
  rw [length_slice] at hk
  simp only [slice, getElem_map, getElem_range', Nat.one_mul]
  exact h k hk

theorem take_entries (hle : before ≤ s.nameCount) : s.entries.take before = slice s.name 0 before := by
  obtain ⟨k, hk⟩ := Nat.exists_eq_add_of_le hle
  rw [entries, hk, slice_add, take_append_of_le_length (by rw [length_slice]),
    take_of_length_le (by rw [length_slice])]

theorem drop_entries (hle : before ≤ s.nameCount) :
    s.entries.drop before = slice s.name before (s.nameCount - before) := by
  obtain ⟨k, hk⟩ := Nat.exists_eq_add_of_le hle
  rw [entries, hk, slice_add, drop_append_of_le_length (by rw [length_slice]),
    drop_of_length_le (by rw [length_slice]), nil_append, Nat.zero_add,
    Nat.add_sub_cancel_left]

theorem entries_insertNameBefore (hle : before ≤ s.nameCount)
    (h : s.insertNameBefore name handle before = some t) :
    t.entries = s.entries.take before ++ ⟨name, handle⟩ :: s.entries.drop before := by
  obtain ⟨hcount, hname⟩ := insertNameBefore_eq hle h
  rw [take_entries hle, drop_entries hle, entries, hcount,
    show s.nameCount + 1 = before + ((s.nameCount - before) + 1) by omega, slice_add, slice_succ,
    Nat.zero_add]
  refine congrArg₂ (· ++ ·) ?_ (congrArg₂ List.cons ?_ ?_)
  · refine slice_eq fun k hk => ?_
    rw [hname _ (by omega), if_pos (by omega)]
  · rw [hname before hle, if_neg (Nat.lt_irrefl before), if_pos rfl]
  · refine slice_eq fun k hk => ?_
    rw [hname _ (by omega), if_neg (by omega), if_neg (by omega)]
    exact congrArg s.name (by omega)

/-! ## Retiring -/

theorem foldl_squeeze (name : ℕ → HandleName) (handle : ℕ) : ∀ n : ℕ,
    ((List.range n).foldl (squeeze handle) (name, 0)).2 ≤ n
      ∧ (∀ k, n ≤ k → ((List.range n).foldl (squeeze handle) (name, 0)).1 k = name k)
      ∧ slice ((List.range n).foldl (squeeze handle) (name, 0)).1 0
          ((List.range n).foldl (squeeze handle) (name, 0)).2
        = (slice name 0 n).filter fun e => e.handle ≠ handle
  | 0 => ⟨Nat.le_refl 0, fun _ _ => rfl, rfl⟩
  | n + 1 => by
    obtain ⟨hle, hrest, hslice⟩ := foldl_squeeze name handle n
    rw [range_succ, foldl_append]
    generalize (List.range n).foldl (squeeze handle) (name, 0) = st at hle hrest hslice ⊢
    obtain ⟨m, j⟩ := st
    rw [slice_add name 0 n 1, filter_append, ← hslice, Nat.zero_add]
    have hone : slice name n 1 = [name n] := rfl
    have hn : m n = name n := hrest n (Nat.le_refl n)
    rw [hone, foldl_cons, foldl_nil, squeeze]
    dsimp only at hle hrest hn ⊢
    simp only [hn]
    split_ifs with he hj
    · refine ⟨Nat.le_succ_of_le hle, fun k hk => hrest k (Nat.le_of_succ_le hk), ?_⟩
      simp [he]
    · refine ⟨Nat.succ_le_succ hle, fun k hk => ?_, ?_⟩
      · dsimp only
        rw [update_of_ne (by omega)]
        exact hrest k (Nat.le_of_succ_le hk)
      · dsimp only
        rw [slice_add, Nat.zero_add, filter_cons_of_pos (by simpa using he), filter_nil]
        refine congrArg₂ (· ++ ·) (slice_congr fun k _ hk => update_of_ne (by omega) ..) ?_
        exact congrArg (· :: []) (update_self ..)
    · refine ⟨Nat.succ_le_succ hle, fun k hk => hrest k (Nat.le_of_succ_le hk), ?_⟩
      dsimp only
      rw [slice_add, Nat.zero_add, filter_cons_of_pos (by simpa using he), filter_nil]
      exact congrArg (slice m 0 j ++ [·]) ((congrArg m (not_not.1 hj).symm).trans hn)

theorem entries_retire (s : NameStorage) (handle : ℕ) :
    (s.retire handle).entries = s.entries.filter fun e => e.handle ≠ handle :=
  (foldl_squeeze s.name handle s.nameCount).2.2

/-! ## The operations on the entries -/

theorem findname_eq (h : Sorted s.entries) {e : HandleName} (he : e ∈ s.entries) :
    s.findname e.name = e.handle := by
  obtain ⟨i, hi, rfl⟩ := mem_entries.1 he
  rw [findname]
  cases hs : s.search (s.name i).name with
  | inl mid =>
    obtain ⟨hmid, hname⟩ := search_found h hs
    rcases Nat.lt_trichotomy i mid with hlt | rfl | hgt
    · exact absurd hname.symm (ne_of_strcmp (sorted_lt h hlt hmid))
    · rfl
    · exact absurd hname (ne_of_strcmp (sorted_lt h hgt hi))
  | inr begin => exact absurd he (not_mem_of_missed h hs rfl)

theorem findname_missing (h : Sorted s.entries) (hn : ∀ e ∈ s.entries, e.name ≠ name) :
    s.findname name = 0 := by
  rw [findname]
  cases hs : s.search name with
  | inl mid =>
    obtain ⟨hmid, hname⟩ := search_found h hs
    exact absurd hname (hn _ (mem_entries.2 ⟨mid, hmid, rfl⟩))
  | inr begin => rfl

theorem namehandle_refused (h : Sorted s.entries) {e : HandleName} (he : e ∈ s.entries)
    (handle : ℕ) : s.namehandle handle e.name = some (s, false) := by
  rw [namehandle]
  cases hs : s.search e.name with
  | inl mid => rfl
  | inr begin => exact absurd he (not_mem_of_missed h hs rfl)

theorem namehandle_named (h : Sorted s.entries) (hn : ∀ e ∈ s.entries, e.name ≠ name) {ok : Bool}
    (hst : s.namehandle handle name = some (t, ok)) : ok = true
      ∧ ∃ before, t.entries = s.entries.take before ++ ⟨name, handle⟩ :: s.entries.drop before
        ∧ (∀ e ∈ s.entries.take before, strcmp e.name name = .lt)
        ∧ ∀ e ∈ s.entries.drop before, strcmp name e.name = .lt := by
  rw [namehandle] at hst
  cases hs : s.search name with
  | inl mid =>
    obtain ⟨hmid, hname⟩ := search_found h hs
    exact absurd hname (hn _ (mem_entries.2 ⟨mid, hmid, rfl⟩))
  | inr before =>
    simp only [hs] at hst
    obtain ⟨u, hu, heq⟩ := map_eq_some_iff.1 hst
    obtain ⟨rfl, rfl⟩ := Prod.mk.inj heq
    obtain ⟨hle, hbelow, habove⟩ := search_missed h hs
    exact ⟨rfl, before, entries_insertNameBefore hle hu, hbelow, habove⟩

theorem namehandle_none (hst : s.namehandle handle name = none) :
    maxSlotSize < s.nameCount * 2 := by
  rw [namehandle] at hst
  cases hs : s.search name with
  | inl mid =>
    simp only [hs] at hst
    cases hst
  | inr before =>
    simp only [hs, insertNameBefore, map_eq_none_iff] at hst
    split_ifs at hst with hcap hmax
    omega

theorem nameCap_namehandle (hcap : s.nameCount ≤ s.nameCap ∧ 0 < s.nameCap) {ok : Bool}
    (hst : s.namehandle handle name = some (t, ok)) : t.nameCount ≤ t.nameCap ∧ 0 < t.nameCap := by
  rw [namehandle] at hst
  cases hs : s.search name with
  | inl mid =>
    simp only [hs] at hst
    obtain ⟨rfl, -⟩ := Prod.mk.inj (some.inj hst)
    exact hcap
  | inr before =>
    simp only [hs] at hst
    obtain ⟨u, hu, heq⟩ := map_eq_some_iff.1 hst
    obtain ⟨rfl, rfl⟩ := Prod.mk.inj heq
    obtain ⟨⟨cap, n⟩, hr, rfl⟩ := map_eq_some_iff.1 hu
    dsimp only
    split_ifs at hr with hfull
    · obtain ⟨rfl, -⟩ := Prod.mk.inj (some.inj hr)
      omega
    · obtain ⟨rfl, -⟩ := Prod.mk.inj (some.inj hr)
      omega

theorem nameCount_retire_le (s : NameStorage) (handle : ℕ) :
    (s.retire handle).nameCount ≤ s.nameCount :=
  (foldl_squeeze s.name handle s.nameCount).1

end NameStorage

/-! ## Who has a name -/

section Holder

variable {log : List NameCall} {handle h : ℕ} {name n : Bytes}

theorem holder_named : holder (log ++ [.named handle n]) name
    = if n = name ∧ holder log name = none then some handle else holder log name := by
  rw [holder, foldl_append]
  rfl

theorem holder_retired : holder (log ++ [.retired handle]) name
    = if holder log name = some handle then none else holder log name := by
  rw [holder, foldl_append]
  rfl

end Holder

namespace Names

open NameStorage (Sorted)

variable {s s' : Names}

/-- The entries are sorted, and say who has which name. -/
structure Inv (s : Names) : Prop where
  sorted : Sorted s.storage.entries
  fits : s.storage.nameCount ≤ s.storage.nameCap ∧ 0 < s.storage.nameCap
  holder : ∀ name h, holder s.log name = some h ↔ (⟨name, h⟩ : HandleName) ∈ s.storage.entries

theorem Inv.initial : Inv machine.init :=
  ⟨List.Pairwise.nil, by decide, fun name h => by
    rw [show machine.init.storage.entries = [] from rfl]
    simp [machine, SkynetGame.holder]⟩

theorem Inv.taken (h : Inv s) {name : Bytes} (hn : SkynetGame.holder s.log name ≠ none) :
    ∃ e ∈ s.storage.entries, e.name = name := by
  obtain ⟨handle, hh⟩ := ne_none_iff_exists'.1 hn
  exact ⟨⟨name, handle⟩, (h.holder name handle).1 hh, rfl⟩

theorem Inv.free (h : Inv s) {name : Bytes} (hn : SkynetGame.holder s.log name = none) :
    ∀ e ∈ s.storage.entries, e.name ≠ name := by
  rintro ⟨n, handle⟩ he rfl
  rw [(h.holder n handle).2 he] at hn
  cases hn

theorem Inv.namehandle (h : Inv s) {handle : ℕ} {name : Bytes} {t : NameStorage} {ok : Bool}
    (hst : s.storage.namehandle handle name = some (t, ok)) :
    Inv ⟨t, s.log ++ [.named handle name]⟩ := by
  have hfits := NameStorage.nameCap_namehandle h.fits hst
  by_cases hn : SkynetGame.holder s.log name = none
  · obtain ⟨-, before, hent, hbelow, habove⟩ := NameStorage.namehandle_named h.sorted (h.free hn) hst
    have hmem : ∀ e, e ∈ t.entries ↔ e = ⟨name, handle⟩ ∨ e ∈ s.storage.entries := by
      intro e
      conv_rhs => rw [← take_append_drop before s.storage.entries]
      simp only [hent, mem_append, mem_cons]
      tauto
    refine ⟨?_, hfits, fun n k => ?_⟩
    · have hsorted := h.sorted
      rw [← take_append_drop before s.storage.entries] at hsorted
      obtain ⟨hfirst, hlast, hcross⟩ := pairwise_append.1 hsorted
      dsimp only
      rw [hent]
      refine pairwise_append.2 ⟨hfirst, pairwise_cons.2 ⟨habove, hlast⟩, fun a ha b hb => ?_⟩
      rcases mem_cons.1 hb with rfl | hb
      · exact hbelow a ha
      · exact hcross a ha b hb
    · dsimp only
      rw [holder_named, hmem, ← h.holder n k]
      by_cases hname : name = n
      · subst hname
        simp [hn, eq_comm]
      · simp [hname, Ne.symm hname]
  · obtain ⟨e, he, rfl⟩ := h.taken hn
    obtain ⟨rfl, -⟩ := Prod.mk.inj (some.inj
      ((NameStorage.namehandle_refused h.sorted he handle).symm.trans hst))
    refine ⟨h.sorted, hfits, fun n k => ?_⟩
    dsimp only
    rw [holder_named, if_neg (fun hc : e.name = n ∧ _ => hn (hc.1 ▸ hc.2)), h.holder n k]

theorem Inv.retire (h : Inv s) (handle : ℕ) :
    Inv ⟨s.storage.retire handle, s.log ++ [.retired handle]⟩ := by
  have hent := NameStorage.entries_retire s.storage handle
  refine ⟨?_, ?_, fun n k => ?_⟩
  · dsimp only
    rw [hent]
    exact h.sorted.filter _
  · exact ⟨(NameStorage.nameCount_retire_le s.storage handle).trans h.fits.1, h.fits.2⟩
  · dsimp only
    rw [hent, mem_filter, ← h.holder n k, holder_retired]
    split_ifs with heq
    · rw [heq]
      constructor
      · intro hc
        cases hc
      · rintro ⟨hk, hne⟩
        exact absurd (some.inj hk).symm (of_decide_eq_true hne)
    · simp only [decide_not, Bool.not_eq_eq_eq_not, Bool.not_true, decide_eq_false_iff_not]
      exact ⟨fun hk => ⟨hk, fun hc => heq (hc ▸ hk)⟩, And.left⟩

theorem Inv.step (h : Inv s) (a : Action) (hst : s.step a = some s') : Inv s' := by
  cases a with
  | namehandle handle name =>
    obtain ⟨⟨t, ok⟩, ht, rfl⟩ := map_eq_some_iff.1 hst
    exact h.namehandle ht
  | retire handle found =>
    obtain rfl := some.inj hst
    cases found with
    | true => exact h.retire handle
    | false => exact h

theorem inv_of_reachable (h : machine.Reachable s) : Inv s :=
  h.invariant Inv.initial fun _ a _ hi _ hst => hi.step a hst

/-- The storage is a map from names to handles, sorted by name. -/
structure Sound (s : Names) : Prop where
  sorted : Sorted s.storage.entries
  fits : s.storage.nameCount ≤ s.storage.nameCap
  find : ∀ name, s.storage.findname name = (holder s.log name).getD 0
  refused : ∀ name handle, holder s.log name ≠ none →
    s.storage.namehandle handle name = some (s.storage, false)
  named : ∀ name handle t ok, holder s.log name = none →
    s.storage.namehandle handle name = some (t, ok) → ok = true ∧
      ∃ before, t.entries = s.storage.entries.take before
        ++ ⟨name, handle⟩ :: s.storage.entries.drop before
  asserts : ∀ name handle, s.storage.namehandle handle name = none →
    maxSlotSize < s.storage.nameCount * 2
  retired : ∀ handle, (s.storage.retire handle).entries
    = s.storage.entries.filter fun e => e.handle ≠ handle

theorem Inv.sound (h : Inv s) : Sound s where
  sorted := h.sorted
  fits := h.fits.1
  find name := by
    cases hh : SkynetGame.holder s.log name with
    | none => exact NameStorage.findname_missing h.sorted (h.free hh)
    | some handle => exact NameStorage.findname_eq h.sorted ((h.holder name handle).1 hh)
  refused name handle hn := by
    obtain ⟨e, he, rfl⟩ := h.taken hn
    exact NameStorage.namehandle_refused h.sorted he handle
  named name handle t ok hn hst := by
    obtain ⟨hok, before, hent, -⟩ := NameStorage.namehandle_named h.sorted (h.free hn) hst
    exact ⟨hok, before, hent⟩
  asserts _ _ hst := NameStorage.namehandle_none hst
  retired handle := NameStorage.entries_retire s.storage handle

/-- In every run of registering and retiring the storage is the sorted map of the names. -/
theorem sorted_map_of_reachable (h : machine.Reachable s) : s.Sound := (inv_of_reachable h).sound

/-- The third and the fourth name need a greater array, and a handle has two of them. -/
def crew : List Action :=
  [.namehandle 1 [100], .namehandle 2 [97], .namehandle 1 [98, 0xff], .namehandle 3 [98],
    .namehandle 9 [98], .namehandle 4 [120], .retire 1 true, .retire 7 false, .namehandle 5 [100]]

theorem sorted_map_crew : ∃ s, machine.run (fun _ _ => True) machine.init crew = some s ∧ s.Sound
    ∧ s.storage.nameCap = 8
    ∧ s.storage.entries = [⟨[97], 2⟩, ⟨[98], 3⟩, ⟨[100], 5⟩, ⟨[120], 4⟩] := by
  have hrun : (machine.run (fun _ _ => True) machine.init crew).map
      (fun s => (s.storage.nameCap, s.storage.entries))
      = some (8, [⟨[97], 2⟩, ⟨[98], 3⟩, ⟨[100], 5⟩, ⟨[120], 4⟩]) := by decide +kernel
  obtain ⟨s, hs, heq⟩ := Option.map_eq_some_iff.1 hrun
  obtain ⟨hcap, hent⟩ := Prod.mk.inj heq
  exact ⟨s, hs, sorted_map_of_reachable (Machine.reach_of_run hs), hcap, hent⟩

end Names

end SkynetGame
