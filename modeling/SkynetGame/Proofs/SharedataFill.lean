import SkynetGame.Lib.Ends
import SkynetGame.Proofs.SharedataConf
import Mathlib.Data.List.Find

/-!
# A shared configuration is filled

The first pass leaves every key that it has put in its main slot, and a key in every main slot
(`FirstPass`). So the second pass knows the keys that are there by their main slots, and has a main
slot to link each of the others to (`SecondPass`); as there are as many slots as keys, it finds a
free one. A table that cannot be converted has no `Room`.
-/

namespace SkynetGame

open Function List

namespace SharedataCore

open LuaValue (Entries)

section Keyed

variable {Q : LuaValue → Prop} {n : ℕ} {t : Entries}

theorem supported_notnil {v : LuaValue} (h : Supported v) : v.isNil = false := by
  cases h <;> rfl

theorem keyed_of_supported (hs : Supported (.table n t)) (hn : Narrow Q (.table n t)) : Keyed t := by
  cases hs with
  | table hkey hnd hvalue =>
    cases hn with
    | plain h => cases h
    | table hfit =>
      have hback : ∀ p ∈ t, (cut p.1).value = p.1 := fun p hp => value_cut (hkey p hp) (hfit p hp)
      refine ⟨hkey, hback, ?_, fun p hp => supported_notnil (hvalue p hp)⟩
      have hmap : (t.map fun p => cut p.1) = (t.map (·.1)).map cut := by rw [map_map]; rfl
      rw [hmap, nodup_map_iff_inj_on hnd]
      intro k hk k' hk' he
      obtain ⟨p, hp, rfl⟩ := mem_map.1 hk
      obtain ⟨p', hp', rfl⟩ := mem_map.1 hk'
      exact cut_injective (hback p hp) (hback p' hp') he

theorem cut_not_mem (ht : Keyed t) (hn : Narrow Q (.table n t)) {k : LuaValue} (hk : IsConfKey k)
    (hQ : Q k) (hne : ∀ p ∈ t, p.1 ≠ k) : cut k ∉ t.map fun p => cut p.1 := by
  intro hm
  obtain ⟨p, hp, he⟩ := mem_map.1 hm
  have hp' : p.1 = (cut k).value := by
    rw [← he, ht.back p hp]
  cases hn with
  | plain h => cases h
  | table hkey hask =>
    refine hne p hp (hp'.trans (value_cut hk ?_))
    rintro v rfl
    exact hask v hQ ⟨p, hp, hp'⟩

theorem border_lt (hs : Supported (.table n t)) (hn : Narrow Q (.table n t)) : n < 2 ^ 31 := by
  cases hs with
  | table hkey hnd hvalue hlt hborder =>
    cases hn with
    | plain h => cases h
    | table hfit =>
      rcases hborder with rfl | ⟨p, hp, he⟩
      · exact Nat.two_pow_pos 31
      · have hfits := hfit p hp _ he
        have hint := congrArg Int64.toInt hfits
        rw [Int32.toInt_toInt64, Int64.toInt_ofNat_of_lt hlt] at hint
        have := (Int64.ofNat n).toInt32.toInt_lt
        omega

theorem countkey_eq {k : LuaValue} (hk : IsConfKey k) (hback : (cut k).value = k) (m : ℕ) :
    countkey n m k = .ok (if (cut k).InArray n then m else m + 1) := by
  cases k with
  | integer v =>
    have hfits : v.toInt32.toInt64 = v := LuaValue.integer.inj hback
    have hint : v.toInt32.toInt = v.toInt := by
      rw [← Int32.toInt_toInt64, hfits]
    unfold countkey
    refine congrArg Except.ok (if_congr ?_ rfl rfl)
    show 0 < v.toInt ∧ v.toInt ≤ n ↔ 0 < v.toInt32.toInt ∧ v.toInt32.toInt ≤ n
    rw [hint]
  | string s => rfl
  | _ => cases hk

theorem outside_cons (p : LuaValue × LuaValue) :
    outside n (p :: t) =
      if (cut p.1).InArray n then outside n t else cut p.1 :: outside n t := by
  unfold outside
  rw [map_cons, filter_cons]
  split_ifs <;> simp_all

theorem countsize_eq (ht : Keyed t) : countsize n t = .ok (outside n t).length := by
  have hrun : ∀ (l : Entries) (m : ℕ), (∀ p ∈ l, IsConfKey p.1 ∧ (cut p.1).value = p.1) →
      l.foldlM (fun m p => countkey n m p.1) m = .ok (m + (outside n l).length) := by
    intro l
    induction l with
    | nil => exact fun m _ => rfl
    | cons p l ih =>
      intro m hl
      obtain ⟨hconf, hback⟩ := hl p mem_cons_self
      rw [foldlM_cons, countkey_eq hconf hback, outside_cons]
      show l.foldlM (fun m p => countkey n m p.1) _ = _
      rw [ih _ fun q hq => hl q (mem_cons_of_mem p hq)]
      split_ifs
      · rfl
      · rw [length_cons, Nat.add_assoc, Nat.add_comm 1]
  unfold countsize
  rw [hrun t 0 fun p hp => ⟨ht.conf p hp, ht.back p hp⟩, Nat.zero_add]

end Keyed

/-- What is known of `convtable`, where it is called for tables that are `d` deep at most. -/
def Converts (Q : LuaValue → Prop) (d : ℕ)
    (convtable : List Bytes → ℕ → Entries → Except Fault Context) : Prop :=
  ∀ strings n t, strings.Nodup → Supported (.table n t) → Narrow Q (.table n t) →
    Ends (fun ctx => Grows (Mentions (.table n t)) strings ctx.strings ∧
      Stored Q d ctx.strings (.table n t) (.table ctx.tbl)) (¬ Room d (.table n t))
      (convtable strings n t)

section SetValue

variable {Q : LuaValue → Prop} {d : ℕ}
variable {convtable : List Bytes → ℕ → Entries → Except Fault Context} {strings : List Bytes}

theorem stored_plain {v : LuaValue} {y : Value} (h : isTable v = false) (hnil : y.isNil = v.isNil)
    (htexts : ∀ s, Mentions v s → s ∈ strings)
    (hshow : ∀ c : Conf, strings <+: c.L → c.pushvalue y = .value v) : Stored Q d strings v y where
  nil := hnil
  room := .plain h
  texts := htexts
  shows c hc := by
    rw [hshow c hc]
    exact .plain h

theorem setvalue_spec (hconv : Converts Q d convtable) (hnd : strings.Nodup) {v : LuaValue}
    (hs : v = .nil ∨ Supported v) (hn : Narrow Q v) :
    Ends (fun r => Grows (Mentions v) strings r.2 ∧ Stored Q d r.2 v r.1) (¬ Room d v)
      (setvalue convtable strings v) := by
  have hrefl : Grows (Mentions v) strings strings := Grows.refl hnd
  rcases hs with rfl | hs
  · exact ⟨hrefl, stored_nil⟩
  · cases hs with
    | boolean b => exact ⟨hrefl, stored_plain rfl rfl (fun s h => by cases h) fun _ _ => rfl⟩
    | integer i => exact ⟨hrefl, stored_plain rfl rfl (fun s h => by cases h) fun _ _ => rfl⟩
    | number x => exact ⟨hrefl, stored_plain rfl rfl (fun s h => by cases h) fun _ _ => rfl⟩
    | string s =>
      obtain ⟨hgrows, hplace⟩ := stringindex_spec s hnd
      refine ⟨⟨hgrows.le, hgrows.nodup, fun s' hs' => ?_⟩, stored_plain rfl rfl ?_ ?_⟩
      · rcases hgrows.within s' hs' with hs' | rfl
        · exact Or.inl hs'
        · exact Or.inr (.string s')
      · rintro _ ⟨⟩
        exact mem_of_getElem? hplace
      · intro c hc
        exact congrArg (fun s => Pushed.value (.string s)) (tolstring_eq hplace hc)
    | @table n t hkey hnd' hvalue hlt hborder =>
      refine Ends.bind (hconv strings n t hnd (.table hkey hnd' hvalue hlt hborder) hn) ?_
      intro ctx hctx
      exact hctx

end SetValue

section Array

variable {Q : LuaValue → Prop} {d n : ℕ} {strings : List Bytes} {t : Entries} {array : List Value}
variable {p : LuaValue × LuaValue}

theorem indexKey_inArray (hn : n < 2 ^ 31) {i : ℕ} (hi : i < n) : (indexKey i).InArray n :=
  inArray_index hn hi

theorem Arrayed.set (h : Arrayed Q d strings n t array) (hn : n < 2 ^ 31) {key : Int32}
    (hkey : cut p.1 = .integer key) (hin : inArray n key) (hnew : ∀ q ∈ t, cut q.1 ≠ cut p.1)
    {y : Value} (hy : Stored Q d strings p.2 y) :
    Arrayed Q d strings n (t ++ [p]) (array.set (key.toInt.toNat - 1) y) where
  length := by rw [length_set, h.length]
  stored i y' hy' := by
    obtain ⟨hlt, hi⟩ := indexKey_of_inArray hin
    rw [← hkey] at hi
    rw [getElem?_set] at hy'
    split_ifs at hy' with he hin'
    · cases hy'
      rw [← he, hi, valueAt_concat_self hnew]
      exact hy
    · have hi' : i < n := by
        rw [← h.length]
        exact (List.getElem?_eq_some_iff.1 hy').1
      rw [valueAt_concat_ne]
      · exact h.stored i y' hy'
      · rw [← hi]
        exact fun heq => he (indexKey_injOn hn hlt hi' heq)

theorem Arrayed.skip (h : Arrayed Q d strings n t array) (hn : n < 2 ^ 31)
    (hout : ¬ (cut p.1).InArray n) : Arrayed Q d strings n (t ++ [p]) array where
  length := h.length
  stored i y hy := by
    have hi : i < n := by
      rw [← h.length]
      exact (List.getElem?_eq_some_iff.1 hy).1
    rw [valueAt_concat_ne]
    · exact h.stored i y hy
    · rintro heq
      rw [heq] at hout
      exact hout (indexKey_inArray hn hi)

theorem arrayed_nil : Arrayed Q d strings n [] (List.replicate n .nil) where
  length := length_replicate
  stored i y hy := by
    rw [eq_of_mem_replicate (mem_of_getElem? hy), valueAt_eq_nil (by simp)]
    exact stored_nil

end Array

section Hash

variable {Q : LuaValue → Prop} {d : ℕ} {strings : List Bytes} {t : Entries}
variable {hash hash' : List (Node × Value)} {key : ℕ → Option ConfKey} {k : ConfKey}
variable {node : NodeKey} {y : Value}

theorem nextAt_eq {i : ℕ} {m : Node × Value} (h : hash[i]? = some m) :
    nextAt hash i = m.1.next := by
  unfold nextAt
  rw [h]
  rfl

theorem hashed_blank {garbage : ℕ → Node} (m : ℕ) : Hashed Q d strings t
    ((List.range m).map fun i => ({ garbage i with nocolliding := false }, .nil))
    fun _ => none where
  chained := ChainedHash.empty
  slot i n k _ hk := by cases hk
  free i n hn _ := by
    obtain ⟨j, -, rfl⟩ := mem_map.1 (mem_of_getElem? hn)
    rfl

theorem Hashed.write (h : Hashed Q d strings t hash key) {s : ℕ} {m : Node × Value}
    (hlen : hash'.length = hash.length)
    (hchained : ChainedHash (mainpos hash.length) hash.length (update key s (some k))
      (nextAt hash'))
    (hs : hash'[s]? = some m) (hslot : Slot Q d strings t k m)
    (hother : ∀ i n, i ≠ s → hash'[i]? = some n → ∃ n', hash[i]? = some n' ∧ n'.1.key = n.1.key ∧
      n'.1.keyhash = n.1.keyhash ∧ n'.2 = n.2 ∧
      (n.1.nocolliding = true → n' = n)) :
    Hashed Q d strings t hash' (update key s (some k)) where
  chained := by
    rw [hlen]
    exact hchained
  slot i n k' hn hk' := by
    by_cases hi : i = s
    · rw [hi, update_self] at hk'
      rw [hi, hs] at hn
      cases hk'
      cases hn
      exact hslot
    · rw [update_of_ne hi] at hk'
      obtain ⟨n', hn', hkey, hhash, hval, halone⟩ := hother i n hi hn
      have hslot' := h.slot i n' k' hn' hk'
      refine ⟨hkey ▸ hslot'.enc, hhash ▸ hslot'.hash, fun hno => ?_, hval ▸ hslot'.notnil,
        hval ▸ hslot'.stored⟩
      have he := halone hno
      rw [← he] at hno ⊢
      exact hslot'.alone hno
  free i n hn hk' := by
    by_cases hi : i = s
    · rw [hi, update_self] at hk'
      cases hk'
    · rw [update_of_ne hi] at hk'
      obtain ⟨n', hn', -, -, hval, -⟩ := hother i n hi hn
      rw [← hval]
      exact h.free i n' hn' hk'

theorem Hashed.put (h : Hashed Q d strings t hash key) (hk : ∀ i, key i ≠ some k)
    (hs : mainpos hash.length k < hash.length) (hfree : key (mainpos hash.length k) = none)
    (hslot : Slot Q d strings t k (⟨node, none, k.hash, true⟩, y)) :
    Hashed Q d strings t (hash.set (mainpos hash.length k) (⟨node, none, k.hash, true⟩, y))
      (update key (mainpos hash.length k) (some k)) := by
  refine h.write (m := _) (length_set ..) ?_ (getElem?_set_self hs) hslot ?_
  · refine (h.chained.put hk hs hfree).congr fun i k' _ => ?_
    by_cases hi : i = mainpos hash.length k
    · rw [hi, update_self]
      exact nextAt_eq (getElem?_set_self hs)
    · rw [update_of_ne hi]
      unfold nextAt
      rw [getElem?_set_ne fun he => hi he.symm]
  · intro i n hi hn
    rw [getElem?_set_ne fun he => hi he.symm] at hn
    exact ⟨n, hn, rfl, rfl, rfl, fun _ => rfl⟩

section Linked

variable {i s : ℕ} {next : Option ℕ} {keyhash : UInt32} {m mf : Node × Value}

theorem linked_slot (hne : i ≠ s) (hs : hash[s]? = some mf) :
    (linked hash i s next node keyhash y)[s]? = some (⟨node, next, keyhash, false⟩, y) := by
  unfold linked
  simp [hne, hs]

theorem linked_main (hne : i ≠ s) (hm : hash[i]? = some m) :
    (linked hash i s next node keyhash y)[i]? =
      some ({ m.1 with next := some s, nocolliding := false }, m.2) := by
  unfold linked
  simp [Ne.symm hne, hm]

theorem linked_other {j : ℕ} (hi : i ≠ j) (hs : s ≠ j) :
    (linked hash i s next node keyhash y)[j]? = hash[j]? := by
  unfold linked
  simp [hi, hs]

theorem length_linked : (linked hash i s next node keyhash y).length = hash.length := by
  unfold linked
  rw [length_modify, length_modify, length_modify]

end Linked

theorem Hashed.link (h : Hashed Q d strings t hash key) (hk : ∀ i, key i ≠ some k) {s : ℕ}
    {m mf : Node × Value} (hs : hash[s]? = some mf) (hfree : key s = none) {k₀ : ConfKey}
    (hm : hash[mainpos hash.length k]? = some m) (h₀ : key (mainpos hash.length k) = some k₀)
    (hm₀ : mainpos hash.length k₀ = mainpos hash.length k)
    (hslot : Slot Q d strings t k (⟨node, m.1.next, k.hash, false⟩, y)) :
    Hashed Q d strings t (linked hash (mainpos hash.length k) s m.1.next node k.hash y)
      (update key s (some k)) := by
  have hlt : s < hash.length := (List.getElem?_eq_some_iff.1 hs).1
  have hne : mainpos hash.length k ≠ s := by
    rintro he
    rw [he, hfree] at h₀
    cases h₀
  refine h.write length_linked ?_ (linked_slot hne hs) hslot ?_
  · refine (h.chained.link hk hlt hfree h₀ hm₀).congr fun i k' _ => ?_
    by_cases hi : i = mainpos hash.length k
    · rw [hi, update_self]
      exact nextAt_eq (linked_main hne hm)
    · rw [update_of_ne hi]
      by_cases his : i = s
      · rw [his, update_self, nextAt_eq hm, nextAt_eq (linked_slot hne hs)]
      · rw [update_of_ne his]
        unfold nextAt
        rw [linked_other (Ne.symm hi) (Ne.symm his)]
  · intro i n hi hn
    by_cases him : i = mainpos hash.length k
    · rw [him, linked_main hne hm] at hn
      cases hn
      refine ⟨m, him ▸ hm, rfl, rfl, rfl, fun hno => ?_⟩
      cases hno
    · rw [linked_other (Ne.symm him) (Ne.symm hi)] at hn
      exact ⟨n, hn, rfl, rfl, rfl, fun _ => rfl⟩

end Hash

section Outside

variable {n : ℕ} {t before after : Entries} {p : LuaValue × LuaValue}

theorem outside_concat_in (h : (cut p.1).InArray n) : outside n (t ++ [p]) = outside n t := by
  unfold outside
  rw [map_append, filter_append]
  simp [h]

theorem mem_outside_concat {k : ConfKey} (h : ¬ (cut p.1).InArray n) :
    k ∈ outside n (t ++ [p]) ↔ k ∈ outside n t ∨ k = cut p.1 := by
  unfold outside
  rw [map_append, filter_append, mem_append]
  simp [h]

theorem Keyed.ne_before (ht : Keyed t) (hsplit : t = before ++ p :: after) :
    ∀ q ∈ before, cut q.1 ≠ cut p.1 := by
  intro q hq he
  have hnd := ht.nodup
  rw [hsplit, map_append] at hnd
  refine (nodup_append.1 hnd).2.2 (cut q.1) (mem_map.2 ⟨q, hq, rfl⟩) (cut p.1) ?_ he
  exact mem_map.2 ⟨p, mem_cons_self, rfl⟩

theorem Keyed.not_mem_before (ht : Keyed t) (hsplit : t = before ++ p :: after) :
    cut p.1 ∉ outside n before := by
  intro hm
  obtain ⟨q, hq, he⟩ := mem_map.1 (mem_outside.1 hm).1
  exact ht.ne_before hsplit q hq he

end Outside

section Pass

variable {Q : LuaValue → Prop} {d n : ℕ} {t before after : Entries} {start : List Bytes}
variable {convtable : List Bytes → ℕ → Entries → Except Fault Context} {ctx : Context}
variable {p : LuaValue × LuaValue}

/-- The values of a table that is converted. -/
def Convertible (Q : LuaValue → Prop) (t : Entries) : Prop :=
  ∀ p ∈ t, Supported p.2 ∧ Narrow Q p.2

/-- What the first pass has done behind these entries: a key is in its main slot, or some other one
is. -/
structure FirstPass (Q : LuaValue → Prop) (d n : ℕ) (t : Entries) (start : List Bytes)
    (before : Entries) (ctx : Context) : Prop where
  grows : Grows (Mentions (.table n t)) start ctx.strings
  array : Arrayed Q d ctx.strings n before ctx.tbl.array
  size : ctx.tbl.hash.length = (outside n t).length
  keys : ∃ key, Hashed Q d ctx.strings t ctx.tbl.hash key ∧
    (∀ i k, key i = some k → i = mainpos ctx.tbl.hash.length k ∧ k ∈ outside n before) ∧
    ∀ k ∈ outside n before, key (mainpos ctx.tbl.hash.length k) ≠ none

/-- What the second pass has done behind these entries: a key that is there is in its main slot, or
it has been linked to it. -/
structure SecondPass (Q : LuaValue → Prop) (d n : ℕ) (t : Entries) (start : List Bytes)
    (before : Entries) (ctx : Context) : Prop where
  grows : Grows (Mentions (.table n t)) start ctx.strings
  array : Arrayed Q d ctx.strings n t ctx.tbl.array
  size : ctx.tbl.hash.length = (outside n t).length
  keys : ∃ key, Hashed Q d ctx.strings t ctx.tbl.hash key ∧
    (∀ i k, key i = some k → k ∈ outside n t ∧
      (key (mainpos ctx.tbl.hash.length k) = some k ∨ k ∈ outside n before)) ∧
    (∀ k ∈ outside n before, ∃ i, key i = some k) ∧
    ∀ k ∈ outside n t, ∃ k', key (mainpos ctx.tbl.hash.length k) = some k' ∧
      mainpos ctx.tbl.hash.length k' = mainpos ctx.tbl.hash.length k

theorem setvalue_of_mem (hconv : Converts Q d convtable) (hval : Convertible Q t) (hp : p ∈ t)
    {strings : List Bytes} (hnd : strings.Nodup) :
    Ends (fun r => Grows (Mentions (.table n t)) strings r.2 ∧ Stored Q d r.2 p.2 r.1)
      (¬ ∀ p ∈ t, Room d p.2) (setvalue convtable strings p.2) := by
  refine (setvalue_spec hconv hnd (Or.inr (hval p hp).1) (hval p hp).2).mono ?_ ?_
  · rintro r ⟨hgrows, hstored⟩
    refine ⟨⟨hgrows.le, hgrows.nodup, fun s hs => ?_⟩, hstored⟩
    rcases hgrows.within s hs with hs | hs
    · exact Or.inl hs
    · exact Or.inr (.value hp hs)
  · exact fun hroom hall => hroom (hall p hp)

theorem key_mentions (hp : p ∈ t) : ∀ s, p.1 = .string s → Mentions (.table n t) s :=
  fun _ h => .key hp h

theorem fillnocolliding_spec (hconv : Converts Q d convtable) (ht : Keyed t)
    (hval : Convertible Q t) (hn : n < 2 ^ 31) (hsplit : t = before ++ p :: after)
    (h : FirstPass Q d n t start before ctx) :
    Ends (FirstPass Q d n t start (before ++ [p])) (¬ ∀ p ∈ t, Room d p.2)
      (fillnocolliding convtable ctx p) := by
  have hp : p ∈ t := by
    rw [hsplit]
    exact mem_append_right before mem_cons_self
  have hnew := ht.ne_before hsplit
  obtain ⟨key, hhash, hhome, hmain⟩ := h.keys
  unfold fillnocolliding
  by_cases hin : (cut p.1).InArray ctx.tbl.array.length
  · obtain ⟨k, hk, hink, heq⟩ := ishashkey_array ctx.strings hin
    rw [h.array.length] at hin hink
    rw [heq]
    refine Ends.bind (setvalue_of_mem (n := n) hconv hval hp h.grows.nodup) ?_
    rintro ⟨y, strings⟩ ⟨hgrows, hy⟩
    refine ⟨h.grows.trans hgrows fun _ hs => hs, ?_, h.size, ⟨key, hhash.mono hgrows.le, ?_, ?_⟩⟩
    · exact (h.array.mono hgrows.le).set hn hk hink hnew hy
    · rw [outside_concat_in hin]
      exact hhome
    · rw [outside_concat_in hin]
      exact hmain
  · obtain ⟨node, strings, hgrows, henc, heq⟩ :=
      ishashkey_hash (ht.conf p hp) hin h.grows.nodup
    rw [h.array.length] at hin
    rw [heq]
    have hmem : cut p.1 ∈ outside n t := mem_outside.2 ⟨mem_map.2 ⟨p, hp, rfl⟩, hin⟩
    have hlt : mainpos ctx.tbl.hash.length (cut p.1) < ctx.tbl.hash.length := by
      refine Nat.mod_lt _ ?_
      rw [h.size]
      exact length_pos_of_mem hmem
    obtain ⟨m, hm⟩ : ∃ m, ctx.tbl.hash[mainpos ctx.tbl.hash.length (cut p.1)]? = some m :=
      ⟨_, getElem?_eq_getElem hlt⟩
    have hm' : ctx.tbl.hash[(cut p.1).hash.toNat % ctx.tbl.hash.length]? = some m := hm
    have hstart := h.grows.trans hgrows (key_mentions hp)
    simp only [hm']
    rcases hkey : key (mainpos ctx.tbl.hash.length (cut p.1)) with _ | k'
    · -- the main slot is free
      rw [if_pos (hhash.free _ m hm hkey)]
      refine Ends.bind (setvalue_of_mem (n := n) hconv hval hp hgrows.nodup) ?_
      rintro ⟨y, strings'⟩ ⟨hgrows', hy⟩
      have hle := hgrows.le.trans hgrows'.le
      have habsent : ∀ i, key i ≠ some (cut p.1) := fun i hi =>
        ht.not_mem_before hsplit (hhome i _ hi).2
      have hslot : Slot Q d strings' t (cut p.1) (⟨node, none, (cut p.1).hash, true⟩, y) := by
        refine ⟨henc.mono hgrows'.le, rfl, fun _ => rfl, ?_, ?_⟩
        · rw [hy.nil, ht.notnil p hp]
        · rw [valueAt_of_mem ht.nodup hp]
          exact hy
      refine ⟨hstart.trans hgrows' fun _ hs => hs, (h.array.mono hle).skip hn hin, ?_,
        ⟨_, (hhash.mono hle).put habsent hlt hkey hslot, ?_, ?_⟩⟩
      · exact (length_set ..).trans h.size
      · intro i k hk
        rw [length_set, mem_outside_concat hin]
        by_cases hi : i = mainpos ctx.tbl.hash.length (cut p.1)
        · rw [hi, update_self] at hk
          cases hk
          exact ⟨hi, Or.inr rfl⟩
        · rw [update_of_ne hi] at hk
          exact ⟨(hhome i k hk).1, Or.inl (hhome i k hk).2⟩
      · intro k hk
        rw [length_set]
        by_cases hi : mainpos ctx.tbl.hash.length k = mainpos ctx.tbl.hash.length (cut p.1)
        · rw [hi, update_self]
          exact Option.some_ne_none _
        · rw [update_of_ne hi]
          rcases (mem_outside_concat hin).1 hk with hk | rfl
          · exact hmain k hk
          · exact absurd rfl hi
    · -- another key is there already
      have hfull := (hhash.slot _ m k' hm hkey).notnil
      rw [if_neg (by rw [hfull]; exact Bool.false_ne_true)]
      refine ⟨hstart, (h.array.mono hgrows.le).skip hn hin, h.size,
        ⟨key, hhash.mono hgrows.le, fun i k hk => ?_, fun k hk => ?_⟩⟩
      · exact ⟨(hhome i k hk).1, (mem_outside_concat hin).2 (Or.inl (hhome i k hk).2)⟩
      · rcases (mem_outside_concat hin).1 hk with hk | rfl
        · exact hmain k hk
        · rw [hkey]
          exact Option.some_ne_none k'

theorem FirstPass.second (h : FirstPass Q d n t start t ctx) :
    SecondPass Q d n t start [] ctx where
  grows := h.grows
  array := h.array
  size := h.size
  keys := by
    obtain ⟨key, hhash, hhome, hmain⟩ := h.keys
    refine ⟨key, hhash, fun i k hk => ?_, fun k hk => ?_, fun k hk => ?_⟩
    · obtain ⟨rfl, hmem⟩ := hhome i k hk
      exact ⟨hmem, Or.inl hk⟩
    · cases hk
    · obtain ⟨k', hk'⟩ := Option.ne_none_iff_exists'.1 (hmain k hk)
      exact ⟨k', hk', (hhome _ k' hk').1.symm⟩

theorem fillcolliding_spec (hconv : Converts Q d convtable) (ht : Keyed t)
    (hval : Convertible Q t) (hsplit : t = before ++ p :: after)
    (h : SecondPass Q d n t start before ctx) :
    Ends (SecondPass Q d n t start (before ++ [p])) (¬ ∀ p ∈ t, Room d p.2)
      (fillcolliding convtable ctx p) := by
  have hp : p ∈ t := by
    rw [hsplit]
    exact mem_append_right before mem_cons_self
  obtain ⟨key, hhash, hthere, hdone, hmain⟩ := h.keys
  unfold fillcolliding
  by_cases hin : (cut p.1).InArray ctx.tbl.array.length
  · obtain ⟨k, hk, hink, heq⟩ := ishashkey_array ctx.strings hin
    rw [h.array.length] at hin
    rw [heq]
    refine ⟨h.grows, h.array, h.size, ⟨key, hhash, ?_, ?_, hmain⟩⟩
    · rw [outside_concat_in hin]
      exact hthere
    · rw [outside_concat_in hin]
      exact hdone
  · obtain ⟨node, strings, hgrows, henc, heq⟩ :=
      ishashkey_hash (ht.conf p hp) hin h.grows.nodup
    rw [h.array.length] at hin
    rw [heq]
    have hmem : cut p.1 ∈ outside n t := mem_outside.2 ⟨mem_map.2 ⟨p, hp, rfl⟩, hin⟩
    obtain ⟨k₀, h₀, hm₀⟩ := hmain _ hmem
    obtain ⟨m, hm, hslot₀⟩ := hhash.getElem? h₀
    have hm' : ctx.tbl.hash[(cut p.1).hash.toNat % ctx.tbl.hash.length]? = some m := hm
    have hstart := h.grows.trans hgrows (key_mentions hp)
    have hsame : m.1.key = node ↔ k₀ = cut p.1 :=
      Enc.unique hgrows.nodup (hslot₀.enc.mono hgrows.le) henc
    simp only [hm', hsame]
    by_cases hk₀ : k₀ = cut p.1
    · -- the key is in its main slot
      rw [if_pos hk₀]
      refine ⟨hstart, h.array.mono hgrows.le, h.size, ⟨key, hhash.mono hgrows.le, fun i k hk => ?_,
        fun k hk => ?_, hmain⟩⟩
      · obtain ⟨hmemk, hor⟩ := hthere i k hk
        refine ⟨hmemk, hor.imp_right fun hk => (mem_outside_concat hin).2 (Or.inl hk)⟩
      · rcases (mem_outside_concat hin).1 hk with hk | rfl
        · exact hdone k hk
        · exact ⟨_, hk₀ ▸ h₀⟩
    · rw [if_neg hk₀]
      have habsent : ∀ i, key i ≠ some (cut p.1) := by
        intro i hi
        rcases (hthere i _ hi).2 with hhome | hbefore
        · rw [h₀] at hhome
          exact hk₀ (Option.some.inj hhome)
        · exact ht.not_mem_before hsplit hbefore
      -- one slot for each key, so that one is free
      obtain ⟨s₀, hs₀, hfree₀⟩ := hhash.chained.exists_free (fun i k hk => (hthere i k hk).1)
        h.size.ge hmem habsent
      rcases hfind : ctx.tbl.hash.findIdx? fun n => n.2.isNil with _ | s
      · have hnone := findIdx?_eq_none_iff.1 hfind _ (getElem_mem hs₀)
        rw [hhash.free s₀ _ (getElem?_eq_getElem hs₀) hfree₀] at hnone
        cases hnone
      · obtain ⟨hs, hnil, -⟩ := findIdx?_eq_some_iff_getElem.1 hfind
        have hs' : ctx.tbl.hash[s]? = some ctx.tbl.hash[s] := getElem?_eq_getElem hs
        have hfree : key s = none := by
          rcases hkey : key s with _ | k'
          · rfl
          · rw [(hhash.slot s _ k' hs' hkey).notnil] at hnil
            cases hnil
        rw [hfind]
        refine Ends.bind (setvalue_of_mem (n := n) hconv hval hp hgrows.nodup) ?_
        rintro ⟨y, strings'⟩ ⟨hgrows', hy⟩
        have hle := hgrows.le.trans hgrows'.le
        have hslot : Slot Q d strings' t (cut p.1)
            (⟨node, m.1.next, (cut p.1).hash, false⟩, y) := by
          refine ⟨henc.mono hgrows'.le, rfl, fun hno => ?_, ?_, ?_⟩
          · cases hno
          · rw [hy.nil, ht.notnil p hp]
          · rw [valueAt_of_mem ht.nodup hp]
            exact hy
        have hnew := (hhash.mono hle).link habsent hs' hfree hm h₀ hm₀ hslot
        have hkeep : ∀ i k, key i = some k → update key s (some (cut p.1)) i = some k := by
          intro i k hk
          rw [update_of_ne]
          · exact hk
          · rintro rfl
            rw [hfree] at hk
            cases hk
        have hlen : (linked ctx.tbl.hash (mainpos ctx.tbl.hash.length (cut p.1)) s m.1.next node
            (cut p.1).hash y).length = ctx.tbl.hash.length := length_linked
        show Ends _ _ (Except.ok (Context.mk ⟨ctx.tbl.array, linked ctx.tbl.hash
          (mainpos ctx.tbl.hash.length (cut p.1)) s m.1.next node (cut p.1).hash y⟩ strings'))
        generalize linked ctx.tbl.hash (mainpos ctx.tbl.hash.length (cut p.1)) s m.1.next node
          (cut p.1).hash y = hash at hnew hlen ⊢
        rw [← hlen] at hthere hmain
        refine ⟨hstart.trans hgrows' fun _ hs => hs, h.array.mono hle, hlen.trans h.size,
          ⟨_, hnew, fun i k hk => ?_, fun k hk => ?_, fun k hk => ?_⟩⟩
        · rw [mem_outside_concat hin]
          by_cases hi : i = s
          · rw [hi, update_self] at hk
            cases hk
            exact ⟨hmem, Or.inr (Or.inr rfl)⟩
          · rw [update_of_ne hi] at hk
            obtain ⟨hmemk, hor⟩ := hthere i k hk
            exact ⟨hmemk, hor.imp (hkeep _ k) Or.inl⟩
        · rcases (mem_outside_concat hin).1 hk with hk | rfl
          · obtain ⟨i, hi⟩ := hdone k hk
            exact ⟨i, hkeep i k hi⟩
          · exact ⟨s, update_self ..⟩
        · obtain ⟨k', hk', hm⟩ := hmain k hk
          exact ⟨k', hkeep _ k' hk', hm⟩

end Pass

section Convert

variable {Q : LuaValue → Prop} {d n : ℕ} {t : Entries} {start : List Bytes}
variable {convtable : List Bytes → ℕ → Entries → Except Fault Context} {ctx : Context}

theorem SecondPass.filled (h : SecondPass Q d n t start t ctx) (hn : n < 2 ^ 31) :
    ∃ key, Filled Q d ctx.strings n t ctx.tbl key := by
  obtain ⟨key, hhash, hthere, hdone, -⟩ := h.keys
  refine ⟨key, hn, h.array, hhash, fun k => ⟨hdone k, ?_⟩, h.size⟩
  rintro ⟨i, hi⟩
  exact (hthere i k hi).1

/-- The array alone is filled, up to these indices. -/
structure ArrayPass (Q : LuaValue → Prop) (d n : ℕ) (t : Entries) (start : List Bytes)
    (before : List ℕ) (ctx : Context) : Prop where
  grows : Grows (Mentions (.table n t)) start ctx.strings
  hash : ctx.tbl.hash = []
  length : ctx.tbl.array.length = n
  stored : ∀ i y, ctx.tbl.array[i]? = some y → i + 1 ∈ before →
    Stored Q d ctx.strings (valueAt t (indexKey i)) y

theorem rawgeti_eq (ht : Keyed t) {i : ℕ} (hi : i + 1 < 2 ^ 31) :
    LuaValue.rawgeti t (i + 1) = valueAt t (indexKey i) := by
  have hkey : (indexKey i).value = .integer (Int64.ofNat (i + 1)) :=
    congrArg LuaValue.integer (Int32.toInt64_ofNat' (Int.ofNat_le.2 (Nat.le_of_lt_succ hi)))
  unfold LuaValue.rawgeti LuaValue.rawget valueAt
  congr 2
  refine find?_congr fun p hp => ?_
  have hback := ht.back p hp
  have hconf := ht.conf p hp
  rw [← hkey, ← hback, cut_value]
  generalize cut p.1 = k
  cases k with
  | integer a =>
    show (a.toInt64 == (Int32.ofNat (i + 1)).toInt64) = _
    rw [Bool.eq_iff_iff, beq_iff_eq, beq_iff_eq]
    constructor
    · intro he
      rw [← toInt32_toInt64 a, he, toInt32_toInt64]
      rfl
    · intro he
      rw [ConfKey.integer.inj he]
  | string s =>
    symm
    exact beq_eq_false_iff_ne.2 fun he => by cases he

theorem valueAt_cases (t : Entries) (k : ConfKey) :
    valueAt t k = .nil ∨ ∃ p ∈ t, valueAt t k = p.2 := by
  unfold valueAt
  rcases hf : t.find? fun p => cut p.1 == k with _ | p
  · exact Or.inl (by rw [hf]; rfl)
  · exact Or.inr ⟨p, mem_of_find?_eq_some hf, by rw [hf]; rfl⟩

theorem setarray_spec (hconv : Converts Q d convtable) (ht : Keyed t) (hval : Convertible Q t)
    (hn : n < 2 ^ 31) {before : List ℕ} {x : ℕ} (hx : x ∈ List.range' 1 n)
    (h : ArrayPass Q d n t start before ctx) :
    Ends (ArrayPass Q d n t start (before ++ [x])) (¬ ∀ p ∈ t, Room d p.2)
      (setarray convtable ctx x (LuaValue.rawgeti t x)) := by
  rw [mem_range'_1] at hx
  obtain ⟨i, rfl⟩ : ∃ i, x = i + 1 := ⟨x - 1, by omega⟩
  rw [rawgeti_eq ht (by omega)]
  have hset : Ends (fun r => Grows (Mentions (.table n t)) ctx.strings r.2 ∧
      Stored Q d r.2 (valueAt t (indexKey i)) r.1) (¬ ∀ p ∈ t, Room d p.2)
      (setvalue convtable ctx.strings (valueAt t (indexKey i))) := by
    rcases valueAt_cases t (indexKey i) with he | ⟨p, hp, he⟩
    · rw [he]
      exact ⟨Grows.refl h.grows.nodup, stored_nil⟩
    · rw [he]
      exact setvalue_of_mem hconv hval hp h.grows.nodup
  refine Ends.bind hset ?_
  rintro ⟨y, strings⟩ ⟨hgrows, hy⟩
  refine ⟨h.grows.trans hgrows fun _ hs => hs, h.hash, (length_set ..).trans h.length, ?_⟩
  intro j y' hy' hj
  dsimp only at hy'
  rw [Nat.add_sub_cancel, getElem?_set] at hy'
  split_ifs at hy' with he hlt
  · cases hy'
    rw [← he]
    exact hy
  · rcases mem_append.1 hj with hj | hj
    · exact (h.stored j y' hy' hj).mono hgrows.le
    · rw [mem_singleton] at hj
      omega

theorem ArrayPass.filled (h : ArrayPass Q d n t start (List.range' 1 n) ctx) (hn : n < 2 ^ 31)
    (hnone : outside n t = []) : Filled Q d ctx.strings n t ctx.tbl fun _ => none where
  small := hn
  array := by
    refine ⟨h.length, fun i y hy => h.stored i y hy ?_⟩
    have hi := (List.getElem?_eq_some_iff.1 hy).1
    rw [h.length] at hi
    exact mem_range'_1.2 ⟨by omega, by omega⟩
  hash := by
    rw [h.hash]
    refine ⟨ChainedHash.empty, fun i n k _ hk => ?_, fun i n hn _ => ?_⟩
    · cases hk
    · cases hn
  mem k := by
    rw [hnone]
    simp
  size := by
    rw [h.hash, hnone]
    rfl

theorem Filled.stored {key : ℕ → Option ConfKey} {strings : List Bytes} {tbl : Table}
    (h : Filled Q d strings n t tbl key) (ht : Keyed t) (hn : Narrow Q (.table n t))
    (hcount : (outside n t).length < 2 ^ 31) :
    Stored Q (d + 1) strings (.table n t) (.table tbl) := by
  have hvalue : ∀ p ∈ t, ∃ y, Stored Q d strings p.2 y := by
    intro p hp
    have hspec := Filled.index_spec (c := ⟨tbl, strings⟩) h ht (prefix_refl _) (ht.conf p hp)
    rcases hspec with ⟨y, -, hy⟩ | ⟨-, hnot⟩
    · rw [valueAt_of_mem ht.nodup hp] at hy
      exact ⟨y, hy⟩
    · exact absurd (mem_map.2 ⟨p, hp, rfl⟩) hnot
  refine ⟨rfl, .table hcount fun p hp => ?_, fun s hs => ?_, fun c hc => ?_⟩
  · obtain ⟨y, hy⟩ := hvalue p hp
    exact hy.room
  · cases hs with
    | @key _ _ p _ hp he =>
      have hcut : cut p.1 = .string s := by rw [he]; rfl
      have hmem : ConfKey.string s ∈ outside n t :=
        mem_outside.2 ⟨mem_map.2 ⟨p, hp, hcut⟩, id⟩
      obtain ⟨i, hi⟩ := (h.mem _).1 hmem
      obtain ⟨m, -, hslot⟩ := h.hash.getElem? hi
      have henc := hslot.enc
      rcases hm : m.1.key with a | j
      · rw [hm] at henc
        cases henc
      · rw [hm] at henc
        exact mem_of_getElem? henc
    | @value _ _ p _ hp hs =>
      obtain ⟨y, hy⟩ := hvalue p hp
      exact hy.texts s hs
  · exact Filled.represents (c := ⟨tbl, c.L⟩) h ht hc fun k hk hQ hne => cut_not_mem ht hn hk hQ hne

theorem convert_spec (hconv : Converts Q d convtable) (garbage : ℕ → Node) :
    Converts Q (d + 1) (convert convtable garbage) := by
  intro strings n t hnd hs hnarrow
  have ht := keyed_of_supported hs hnarrow
  have hn := border_lt hs hnarrow
  have hval : Convertible Q t := by
    cases hs with
    | table _ _ hvalue =>
      cases hnarrow with
      | plain h => cases h
      | table _ _ hvalue' => exact fun p hp => ⟨hvalue p hp, hvalue' p hp⟩
  have hbad : (¬ ∀ p ∈ t, Room d p.2) → ¬ Room (d + 1) (.table n t) := by
    intro hnot hroom
    cases hroom with
    | plain h => cases h
    | table _ hvalue => exact hnot hvalue
  have hsize : (Int32.ofNat n).toInt = n := Int32.toInt_ofNat_of_lt hn
  have hgrows : Grows (Mentions (.table n t)) strings strings := Grows.refl hnd
  unfold convert
  simp only [hsize, if_neg (Int.not_lt.2 (Int.natCast_nonneg n)), Int.toNat_natCast,
    countsize_eq ht, bind, Except.bind]
  by_cases hcount : 2 ^ 31 ≤ (outside n t).length
  · rw [if_pos hcount]
    intro hroom
    cases hroom with
    | plain h => cases h
    | table hlt => omega
  · rw [if_neg hcount]
    have hdone : ∀ {ctx : Context} {key}, Filled Q d ctx.strings n t ctx.tbl key →
        Stored Q (d + 1) ctx.strings (.table n t) (.table ctx.tbl) :=
      fun h => h.stored ht hnarrow (Nat.lt_of_not_le hcount)
    by_cases hzero : 0 < (outside n t).length
    · rw [if_pos hzero]
      have hfirst := Ends.foldlM (FirstPass Q d n t strings) (f := fillnocolliding convtable)
        (s := ⟨⟨List.replicate n .nil, (List.range (outside n t).length).map fun i =>
          ({ garbage i with nocolliding := false }, .nil)⟩, strings⟩)
        ⟨hgrows, arrayed_nil, by simp, ⟨_, hashed_blank _, fun i k hk => (by cases hk),
          fun k hk => (by cases hk)⟩⟩
        fun before p after ctx hsplit h => fillnocolliding_spec hconv ht hval hn hsplit h
      refine Ends.mono (Ends.bind hfirst fun ctx h => Ends.foldlM (SecondPass Q d n t strings)
        h.second fun before p after ctx hsplit h => fillcolliding_spec hconv ht hval hsplit h)
        (fun ctx h => ?_) hbad
      obtain ⟨key, hfilled⟩ := h.filled hn
      exact ⟨h.grows, hdone hfilled⟩
    · rw [if_neg hzero]
      have hnone : outside n t = [] := length_eq_zero_iff.1 (by omega)
      refine Ends.mono (Ends.foldlM (ArrayPass Q d n t strings) ⟨hgrows, rfl, by simp, ?_⟩ ?_)
        (fun ctx h => ⟨h.grows, hdone (h.filled hn hnone)⟩) hbad
      · intro i y _ hi
        cases hi
      · intro before x after ctx hsplit h
        refine setarray_spec hconv ht hval hn ?_ h
        rw [hsplit]
        exact mem_append_right before mem_cons_self

end Convert

theorem convtable_spec (Q : LuaValue → Prop) (garbage : ℕ → Node) :
    ∀ calls, Converts Q calls (convtable garbage calls)
  | 0 => by
    intro strings n t _ _ _ hroom
    cases hroom with
    | plain h => cases h
  | calls + 1 => convert_spec (convtable_spec Q garbage calls) garbage

end SharedataCore

end SkynetGame
