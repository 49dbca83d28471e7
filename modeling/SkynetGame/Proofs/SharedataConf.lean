import SkynetGame.Lib.ChainedHash
import SkynetGame.Proofs.SharedataKeys

/-!
# What a shared configuration represents

A configuration represents a table where `index` has the table's values, `nextkey` goes through its
keys, and `len` is its border (`Represents`). The two parts that `new` fills (`Filled`) are enough
for that: a search of the hash table finds the slot of its key (`Hashed.lookup_key_spec`), and the
slots in their order are the keys outside of the array.
-/

namespace SkynetGame

open List

namespace SharedataCore

open LuaValue (Entries)

def Nothing : Option Pushed → Prop
  | none | some (.value .nil) => True
  | _ => False

def isTable : LuaValue → Bool
  | .table .. => true
  | _ => false

/-- `nextkey` gives these keys, one after the other, and then none. -/
inductive Enumerates (c : Conf) : LuaValue → List LuaValue → Prop
  | stop {k : LuaValue} (h : c.lnextkey k = .ok none) : Enumerates c k []
  | next {k k' : LuaValue} {ks : List LuaValue} (h : c.lnextkey k = .ok (some k'))
      (hks : Enumerates c k' ks) : Enumerates c k (k' :: ks)

/-- What is read is the value, where the keys that may be asked for are those of `Q`. -/
inductive Represents (Q : LuaValue → Prop) : LuaValue → Pushed → Prop
  | plain {v : LuaValue} (h : isTable v = false) : Represents Q v (.value v)
  | table {n : ℕ} {t : Entries} {c : Conf} (get : LuaValue → Pushed)
      (hindex : ∀ p ∈ t, c.lindexconf p.1 = .ok (some (get p.1)))
      (hget : ∀ p ∈ t, Represents Q p.2 (get p.1))
      (hother : ∀ k, IsConfKey k → Q k → (∀ p ∈ t, p.1 ≠ k) →
        ∃ r, c.lindexconf k = .ok r ∧ Nothing r)
      (hnext : ∃ ks, Enumerates c .nil ks ∧ ks.Perm (t.map (·.1)))
      (hlen : c.llen = n) : Represents Q (.table n t) (.conf c)

/-- The strings of a value, with those of its keys. -/
inductive Mentions : LuaValue → Bytes → Prop
  | string (s : Bytes) : Mentions (.string s) s
  | key {n : ℕ} {t : Entries} {p : LuaValue × LuaValue} {s : Bytes} (hp : p ∈ t)
      (h : p.1 = .string s) : Mentions (.table n t) s
  | value {n : ℕ} {t : Entries} {p : LuaValue × LuaValue} {s : Bytes} (hp : p ∈ t)
      (h : Mentions p.2 s) : Mentions (.table n t) s

def outside (n : ℕ) (t : Entries) : List ConfKey :=
  (t.map fun p => cut p.1).filter fun k => !decide (k.InArray n)

/-- Tables are at most `d` deep, and the keys of each outside of its array are counted by an
`int`. -/
inductive Room : ℕ → LuaValue → Prop
  | plain {d : ℕ} {v : LuaValue} (h : isTable v = false) : Room d v
  | table {d n : ℕ} {t : Entries} (hcount : (outside n t).length < 2 ^ 31)
      (hvalue : ∀ p ∈ t, Room d p.2) : Room (d + 1) (.table n t)

/-- A table may be shared: its keys are integers and strings, its values are supported, and its border
has a value. -/
inductive Supported : LuaValue → Prop
  | boolean (b : Bool) : Supported (.boolean b)
  | integer (v : Int64) : Supported (.integer v)
  | number (v : UInt64) : Supported (.number v)
  | string (s : Bytes) : Supported (.string s)
  | table {n : ℕ} {t : Entries} (hkey : ∀ p ∈ t, IsConfKey p.1) (hnd : (t.map (·.1)).Nodup)
      (hvalue : ∀ p ∈ t, Supported p.2) (hn : n < 2 ^ 63)
      (hborder : n = 0 ∨ ∃ p ∈ t, p.1 = .integer (Int64.ofNat n)) : Supported (.table n t)

/-- The integer keys are ints, and no integer that may be asked for and is none is made into a
key. -/
inductive Narrow (Q : LuaValue → Prop) : LuaValue → Prop
  | plain {v : LuaValue} (h : isTable v = false) : Narrow Q v
  | table {n : ℕ} {t : Entries} (hkey : ∀ p ∈ t, ∀ k, p.1 = .integer k → FitsInt k)
      (hask : ∀ k, Q (.integer k) → (∃ p ∈ t, p.1 = .integer k.toInt32.toInt64) → FitsInt k)
      (hvalue : ∀ p ∈ t, Narrow Q p.2) : Narrow Q (.table n t)

/-- Keys that are ints and differ, with values. -/
structure Keyed (t : Entries) : Prop where
  conf : ∀ p ∈ t, IsConfKey p.1
  back : ∀ p ∈ t, (cut p.1).value = p.1
  nodup : (t.map fun p => cut p.1).Nodup
  notnil : ∀ p ∈ t, p.2.isNil = false

/-- The value of a key, `nil` for none. -/
def valueAt (t : Entries) (k : ConfKey) : LuaValue :=
  ((t.find? fun p => cut p.1 == k).map (·.2)).getD .nil

section ValueAt

variable {t : Entries} {p : LuaValue × LuaValue} {k : ConfKey}

theorem valueAt_eq_nil (h : ∀ p ∈ t, cut p.1 ≠ k) : valueAt t k = .nil := by
  unfold valueAt
  rw [find?_eq_none.2 fun p hp he => h p hp (eq_of_beq he)]
  rfl

theorem valueAt_concat_self (h : ∀ q ∈ t, cut q.1 ≠ cut p.1) :
    valueAt (t ++ [p]) (cut p.1) = p.2 := by
  unfold valueAt
  rw [find?_append, find?_eq_none.2 fun q hq he => h q hq (eq_of_beq he)]
  simp

theorem valueAt_concat_ne (h : cut p.1 ≠ k) : valueAt (t ++ [p]) k = valueAt t k := by
  unfold valueAt
  have hp : [p].find? (fun p => cut p.1 == k) = none := by simp [h]
  rw [find?_append, hp, Option.or_none]

theorem valueAt_of_mem (hnd : (t.map fun p => cut p.1).Nodup) (hp : p ∈ t) :
    valueAt t (cut p.1) = p.2 := by
  unfold valueAt
  rcases hf : t.find? fun q => cut q.1 == cut p.1 with _ | q
  · have hne := find?_eq_none.1 hf p hp
    simp at hne
  · have hq := mem_of_find?_eq_some hf
    have hq' := find?_some hf
    have he : cut q.1 = cut p.1 := eq_of_beq hq'
    rw [hf, inj_on_of_nodup_map hnd hq hp he]
    rfl

theorem Keyed.valueAt_isNil (h : Keyed t) : (valueAt t k).isNil = true ↔ k ∉ t.map fun p => cut p.1 := by
  constructor
  · intro hnil hk
    obtain ⟨p, hp, rfl⟩ := mem_map.1 hk
    rw [valueAt_of_mem h.nodup hp, h.notnil p hp] at hnil
    cases hnil
  · intro hk
    rw [valueAt_eq_nil fun p hp he => hk (mem_map.2 ⟨p, hp, he⟩)]
    rfl

end ValueAt

section Index

variable {n : ℕ}

def indexKey (i : ℕ) : ConfKey := .integer (Int32.ofNat (i + 1))

theorem toInt_index {i : ℕ} (hi : i + 1 < 2 ^ 31) : (Int32.ofNat (i + 1)).toInt = i + 1 := by
  rw [Int32.toInt_ofNat_of_lt hi]
  push_cast
  rfl

theorem inArray_index {i : ℕ} (hn : n < 2 ^ 31) (hi : i < n) :
    inArray n (Int32.ofNat (i + 1)) := by
  unfold inArray
  rw [toInt_index (by omega)]
  omega

theorem indexKey_injOn (hn : n < 2 ^ 31) {i j : ℕ} (hi : i < n) (hj : j < n)
    (h : indexKey i = indexKey j) : i = j := by
  have he := congrArg Int32.toInt (ConfKey.integer.inj h)
  rw [toInt_index (by omega), toInt_index (by omega)] at he
  omega

theorem indexKey_of_inArray {key : Int32} (h : inArray n key) :
    key.toInt.toNat - 1 < n ∧ indexKey (key.toInt.toNat - 1) = .integer key := by
  obtain ⟨hpos, hle⟩ := h
  refine ⟨by omega, congrArg ConfKey.integer ?_⟩
  rw [show key.toInt.toNat - 1 + 1 = key.toInt.toNat by omega, ← Int32.toInt_inj,
    Int32.toInt_ofNat_of_lt]
  · omega
  · have := key.toInt_lt
    omega

end Index

/-- A value that has been converted: it is `nil` where it was, and is read as what it was. -/
structure Stored (Q : LuaValue → Prop) (d : ℕ) (strings : List Bytes) (v : LuaValue) (y : Value) :
    Prop where
  nil : y.isNil = v.isNil
  room : Room d v
  texts : ∀ s, Mentions v s → s ∈ strings
  shows : ∀ c : Conf, strings <+: c.L → Represents Q v (c.pushvalue y)

/-- A slot with the key `k`. -/
structure Slot (Q : LuaValue → Prop) (d : ℕ) (strings : List Bytes) (t : Entries) (k : ConfKey)
    (n : Node × Value) : Prop where
  enc : Enc strings k n.1.key
  hash : n.1.keyhash = k.hash
  alone : n.1.nocolliding = true → n.1.next = none
  notnil : n.2.isNil = false
  stored : Stored Q d strings (valueAt t k) n.2

def mainpos (size : ℕ) (k : ConfKey) : ℕ := k.hash.toNat % size

def nextAt (hash : List (Node × Value)) (i : ℕ) : Option ℕ := (hash[i]?).bind (·.1.next)

/-- The slots have the keys `key`. -/
structure Hashed (Q : LuaValue → Prop) (d : ℕ) (strings : List Bytes) (t : Entries)
    (hash : List (Node × Value)) (key : ℕ → Option ConfKey) : Prop where
  chained : ChainedHash (mainpos hash.length) hash.length key (nextAt hash)
  slot : ∀ i n k, hash[i]? = some n → key i = some k → Slot Q d strings t k n
  free : ∀ i n, hash[i]? = some n → key i = none → n.2.isNil = true

/-- The array has the values of `t`. -/
structure Arrayed (Q : LuaValue → Prop) (d : ℕ) (strings : List Bytes) (n : ℕ) (t : Entries)
    (array : List Value) : Prop where
  length : array.length = n
  stored : ∀ i y, array[i]? = some y → Stored Q d strings (valueAt t (indexKey i)) y

/-- A table that `convtable` has filled. -/
structure Filled (Q : LuaValue → Prop) (d : ℕ) (strings : List Bytes) (n : ℕ) (t : Entries)
    (tbl : Table) (key : ℕ → Option ConfKey) : Prop where
  small : n < 2 ^ 31
  array : Arrayed Q d strings n t tbl.array
  hash : Hashed Q d strings t tbl.hash key
  mem : ∀ k, k ∈ outside n t ↔ ∃ i, key i = some k
  size : tbl.hash.length = (outside n t).length

section Mono

variable {Q : LuaValue → Prop} {d n : ℕ} {strings strings' : List Bytes} {t : Entries}

theorem Stored.mono {v : LuaValue} {y : Value} (h : Stored Q d strings v y)
    (hle : strings <+: strings') : Stored Q d strings' v y where
  nil := h.nil
  room := h.room
  texts s hs := hle.subset (h.texts s hs)
  shows c hc := h.shows c (hle.trans hc)

theorem stored_nil : Stored Q d strings .nil .nil where
  nil := rfl
  room := .plain rfl
  texts s hs := by cases hs
  shows c _ := .plain rfl

theorem Slot.mono {k : ConfKey} {m : Node × Value} (h : Slot Q d strings t k m)
    (hle : strings <+: strings') : Slot Q d strings' t k m where
  enc := h.enc.mono hle
  hash := h.hash
  alone := h.alone
  notnil := h.notnil
  stored := h.stored.mono hle

theorem Hashed.mono {hash : List (Node × Value)} {key : ℕ → Option ConfKey}
    (h : Hashed Q d strings t hash key) (hle : strings <+: strings') :
    Hashed Q d strings' t hash key where
  chained := h.chained
  slot i m k hm hk := (h.slot i m k hm hk).mono hle
  free := h.free

theorem Arrayed.mono {array : List Value} (h : Arrayed Q d strings n t array)
    (hle : strings <+: strings') : Arrayed Q d strings' n t array where
  length := h.length
  stored i y hy := (h.stored i y hy).mono hle

theorem Hashed.getElem? {hash : List (Node × Value)} {key : ℕ → Option ConfKey}
    (h : Hashed Q d strings t hash key) {i : ℕ} {k : ConfKey} (hk : key i = some k) :
    ∃ m, hash[i]? = some m ∧ Slot Q d strings t k m := by
  have hi := h.chained.bound i k hk
  exact ⟨hash[i], getElem?_eq_getElem hi,
    h.slot i hash[i] k (getElem?_eq_getElem hi) hk⟩

end Mono

section Lookup

variable {Q : LuaValue → Prop} {d : ℕ} {strings : List Bytes} {t : Entries} {c : Conf}
variable {key : ℕ → Option ConfKey}

theorem tolstring_eq {i : ℕ} {s : Bytes} (hi : strings[i]? = some s) (hL : strings <+: c.L) :
    c.tolstring i = s := by
  unfold Conf.tolstring
  rw [getD_eq_getElem?_getD, getElem?_of_prefix hL hi]
  rfl

theorem isKey_iff {k k' : ConfKey} {m : NodeKey} (h : Enc strings k' m) (hL : strings <+: c.L) :
    c.isKey m k = true ↔ k' = k := by
  cases k' with
  | integer a =>
    cases m with
    | string i => cases h
    | integer b =>
      cases h
      cases k with
      | integer a' => simp [Conf.isKey]
      | string s => simp [Conf.isKey]
  | string s =>
    cases m with
    | integer b => cases h
    | string i =>
      cases k with
      | integer a' => simp [Conf.isKey]
      | string s' => simp [Conf.isKey, tolstring_eq h hL]

theorem pushkey_eq {k : ConfKey} {m : NodeKey} (h : Enc strings k m) (hL : strings <+: c.L) :
    c.pushkey m = k.value := by
  cases k with
  | integer a =>
    cases m with
    | integer b =>
      cases h
      rfl
    | string i => cases h
  | string s =>
    cases m with
    | integer b => cases h
    | string i => exact congrArg LuaValue.string (tolstring_eq h hL)

theorem Hashed.lookup_eq (h : Hashed Q d strings t c.tbl.hash key) (hL : strings <+: c.L)
    (k : ConfKey) : ∀ (l : List ℕ) (i fuel : ℕ), Chain (nextAt c.tbl.hash) (some i) l →
      l.length ≤ fuel → (∀ j ∈ l, key j ≠ none) →
        c.lookup k.hash k fuel i = .ok (l.find? fun j => key j = some k)
  | [], _, _, hc, _, _ => by cases hc
  | j :: l, i, fuel, hc, hlen, hocc => by
    obtain ⟨hij, hrest⟩ := hc
    have hij : i = j := Option.some.inj hij
    subst hij
    obtain ⟨fuel, rfl⟩ : ∃ fuel', fuel = fuel' + 1 := by
      rw [length_cons] at hlen
      exact ⟨fuel - 1, by omega⟩
    obtain ⟨k', hk'⟩ := Option.ne_none_iff_exists'.1 (hocc i mem_cons_self)
    obtain ⟨m, hm, hslot⟩ := h.getElem? hk'
    have htest : (k.hash = m.1.keyhash ∧ c.isKey m.1.key k = true) ↔ k' = k := by
      rw [isKey_iff hslot.enc hL, hslot.hash, and_iff_right_iff_imp]
      rintro rfl
      rfl
    unfold Conf.lookup
    simp only [hm, htest]
    by_cases he : k' = k
    · rw [if_pos he, find?_cons_of_pos]
      rw [hk', he]
      exact decide_eq_true rfl
    · rw [if_neg he, find?_cons_of_neg]
      · have hnext : nextAt c.tbl.hash i = m.1.next := by
          unfold nextAt
          rw [hm]
          rfl
        rw [hnext] at hrest
        rcases hj : m.1.next with _ | j
        · rw [hj] at hrest
          rw [hrest.eq_nil]
          rfl
        · rw [hj] at hrest
          rw [length_cons] at hlen
          exact h.lookup_eq hL k l j fuel hrest (by omega)
            fun x hx => hocc x (mem_cons_of_mem i hx)
      · simpa [hk'] using he

theorem Hashed.lookup_key_spec (h : Hashed Q d strings t c.tbl.hash key) (hL : strings <+: c.L)
    (hfull : ∀ i < c.tbl.hash.length, key i ≠ none) (k : ConfKey) :
    ∃ o, c.lookup_key k.hash k = .ok o ∧ ∀ i, o = some i ↔ key i = some k := by
  unfold Conf.lookup_key
  by_cases hzero : c.tbl.hash.length = 0
  · refine ⟨none, if_pos hzero, fun i => ⟨?_, fun hi => ?_⟩⟩
    · rintro ⟨⟩
    · have := h.chained.bound i k hi
      omega
  · rw [if_neg hzero]
    have hmain : mainpos c.tbl.hash.length k < c.tbl.hash.length :=
      Nat.mod_lt _ (Nat.pos_of_ne_zero hzero)
    obtain ⟨l, hl, hlen, hocc, hmem⟩ := h.chained.walk (hfull _ hmain)
    obtain ⟨k', hk'⟩ := Option.ne_none_iff_exists'.1 (hfull _ hmain)
    obtain ⟨m, hm, hslot⟩ := h.getElem? hk'
    have hfind := h.lookup_eq hL k l _ c.tbl.hash.length hl hlen hocc
    have hiff : ∀ i, (l.find? fun j => key j = some k) = some i ↔ key i = some k := by
      intro i
      constructor
      · intro hi
        simpa using find?_some hi
      · intro hi
        rcases hf : l.find? fun j => key j = some k with _ | j
        · have hne := find?_eq_none.1 hf i (hmem i hi)
          simp [hi] at hne
        · have hj : key j = some k := by simpa using find?_some hf
          rw [h.chained.inj i j k hi hj]
    have hm' : c.tbl.hash[k.hash.toNat % c.tbl.hash.length]? = some m := hm
    simp only [hm']
    by_cases hquick : k.hash ≠ m.1.keyhash ∧ m.1.nocolliding = true
    · -- a key that is alone in its chain, and is not the one
      rw [if_pos hquick]
      refine ⟨none, rfl, fun i => ?_⟩
      rw [← hiff i]
      obtain ⟨rest, rfl, hrest⟩ := hl.eq_cons
      have hnext : nextAt c.tbl.hash (mainpos c.tbl.hash.length k) = none := by
        unfold nextAt
        rw [hm]
        exact hslot.alone hquick.2
      rw [hnext] at hrest
      have hne : k' ≠ k := by
        rintro rfl
        exact hquick.1 hslot.hash.symm
      rw [hrest.eq_nil, find?_cons_of_neg, find?_nil]
      simpa [hk'] using hne
    · rw [if_neg hquick]
      exact ⟨_, hfind, hiff⟩

end Lookup

section Read

variable {Q : LuaValue → Prop} {d n : ℕ} {strings : List Bytes} {t : Entries} {c : Conf}
variable {key : ℕ → Option ConfKey}

theorem Filled.full (h : Filled Q d strings n t c.tbl key) (ht : Keyed t) :
    ∀ i < c.tbl.hash.length, key i ≠ none := by
  intro i hi
  have hnd : (outside n t).Nodup := ht.nodup.filter _
  exact h.hash.chained.full hnd (fun k hk => (h.mem k).1 hk) h.size.le hi

theorem lindexconf_hash {k : LuaValue} (hk : IsConfKey k)
    (hout : ¬ (cut k).InArray c.tbl.array.length) :
    c.lindexconf k = c.indexhash (cut k).hash (cut k) := by
  cases k with
  | integer v => exact if_neg hout
  | string s => rfl
  | _ => cases hk

theorem lnextkey_hash {k : LuaValue} (hk : IsConfKey k)
    (hout : ¬ (cut k).InArray c.tbl.array.length) :
    c.lnextkey k = c.nexthash (cut k).hash (cut k) := by
  cases k with
  | integer v => exact if_neg hout
  | string s => rfl
  | _ => cases hk

theorem mem_outside {k : ConfKey} :
    k ∈ outside n t ↔ k ∈ t.map (fun p => cut p.1) ∧ ¬ k.InArray n := by
  unfold outside
  rw [mem_filter]
  simp

theorem Filled.index_spec (h : Filled Q d strings n t c.tbl key) (ht : Keyed t)
    (hL : strings <+: c.L) {k : LuaValue} (hk : IsConfKey k) :
    (∃ y, c.lindexconf k = .ok (some (c.pushvalue y)) ∧
      Stored Q d strings (valueAt t (cut k)) y) ∨
    (c.lindexconf k = .ok none ∧ cut k ∉ t.map fun p => cut p.1) := by
  by_cases hin : (cut k).InArray c.tbl.array.length
  · left
    cases k with
    | integer v =>
      have hin' : inArray c.tbl.array.length v.toInt32 := hin
      obtain ⟨hlt, hi⟩ := indexKey_of_inArray hin'
      refine ⟨c.tbl.array[v.toInt32.toInt.toNat - 1], ?_, ?_⟩
      · unfold Conf.lindexconf
        simp only [if_pos hin', getElem?_eq_getElem hlt, Option.map_some]
      · have hs := h.array.stored _ _ (getElem?_eq_getElem hlt)
        rw [hi] at hs
        exact hs
    | _ => cases hin
  · rw [lindexconf_hash hk hin]
    obtain ⟨o, ho, hiff⟩ := h.hash.lookup_key_spec hL (h.full ht) (cut k)
    unfold Conf.indexhash
    rw [ho]
    cases o with
    | none =>
      refine Or.inr ⟨rfl, fun hmem => ?_⟩
      rw [h.array.length] at hin
      obtain ⟨i, hi⟩ := (h.mem _).1 (mem_outside.2 ⟨hmem, hin⟩)
      cases (hiff i).2 hi
    | some i =>
      obtain ⟨m, hm, hslot⟩ := h.hash.getElem? ((hiff i).1 rfl)
      refine Or.inl ⟨m.2, ?_, hslot.stored⟩
      simp only [bind, Except.bind, hm, Option.map_some]

section Enumerate

/-- The keys of the slots from `j` on. -/
def hashKeys (key : ℕ → Option ConfKey) (j m : ℕ) : List ConfKey := (List.range' j m).filterMap key

/-- The keys of the array from `i` on. -/
def arrayKeys (t : Entries) (i m : ℕ) : List ConfKey :=
  ((List.range' i m).map indexKey).filter fun k => !(valueAt t k).isNil

theorem Filled.pushslot_eq (h : Filled Q d strings n t c.tbl key) (hL : strings <+: c.L) {j : ℕ}
    {k : ConfKey} (hk : key j = some k) : c.pushslot j = some k.value := by
  obtain ⟨m, hm, hslot⟩ := h.hash.getElem? hk
  unfold Conf.pushslot
  rw [hm, Option.map_some, pushkey_eq hslot.enc hL]

theorem Filled.lnextkey_slot (h : Filled Q d strings n t c.tbl key) (ht : Keyed t)
    (hL : strings <+: c.L) {j : ℕ} {k : ConfKey} (hk : key j = some k) :
    c.lnextkey k.value = .ok (c.pushslot (j + 1)) := by
  have hout := (mem_outside.1 ((h.mem k).2 ⟨j, hk⟩)).2
  rw [lnextkey_hash (isConfKey_value k) (by rwa [cut_value, h.array.length]), cut_value]
  obtain ⟨o, ho, hiff⟩ := h.hash.lookup_key_spec hL (h.full ht) k
  rw [(hiff j).2 hk] at ho
  unfold Conf.nexthash
  rw [ho]
  rfl

theorem Filled.enumerates_hash (h : Filled Q d strings n t c.tbl key) (ht : Keyed t)
    (hL : strings <+: c.L) : ∀ (m j : ℕ) (k : LuaValue), j + m = c.tbl.hash.length →
      c.lnextkey k = .ok (c.pushslot j) →
        Enumerates c k ((hashKeys key j m).map ConfKey.value)
  | 0, j, k, hj, hk => by
    refine .stop ?_
    rw [hk]
    unfold Conf.pushslot
    rw [getElem?_eq_none (by omega)]
    rfl
  | m + 1, j, k, hj, hk => by
    obtain ⟨k', hk'⟩ := Option.ne_none_iff_exists'.1 (h.full ht j (by omega))
    have hcons : hashKeys key j (m + 1) = k' :: hashKeys key (j + 1) m := by
      unfold hashKeys
      rw [range'_succ, filterMap_cons_some hk']
    rw [h.pushslot_eq hL hk'] at hk
    rw [hcons, map_cons]
    exact .next hk (h.enumerates_hash ht hL m (j + 1) _ (by omega) (h.lnextkey_slot ht hL hk'))

theorem Filled.lnextkey_index (h : Filled Q d strings n t c.tbl key) {i : ℕ} (hi : i < n) :
    c.lnextkey (indexKey i).value = .ok (c.nextindex (i + 1)) := by
  have hin := inArray_index h.small hi
  have hsmall := h.small
  rw [← h.array.length] at hin
  unfold indexKey ConfKey.value Conf.lnextkey
  simp only [toInt32_toInt64, if_pos hin]
  rw [toInt_index (by omega)]
  rfl

theorem Filled.nextindex_nil (h : Filled Q d strings n t c.tbl key) {i : ℕ} (hi : i < n)
    (hnil : (valueAt t (indexKey i)).isNil = true) : c.nextindex i = c.nextindex (i + 1) := by
  have hlt : i < c.tbl.array.length := by
    rw [h.array.length]
    exact hi
  have hy := (h.array.stored i _ (getElem?_eq_getElem hlt)).nil
  rw [hnil] at hy
  unfold Conf.nextindex
  rw [drop_eq_getElem_cons hlt, findIdx?_cons, hy]
  rcases hf : (c.tbl.array.drop (i + 1)).findIdx? fun y => !y.isNil with _ | j
  · rw [hf]
    rfl
  · have he : i + (j + 1) + 1 = i + 1 + j + 1 := by omega
    rw [hf]
    simp only [Bool.not_true, Bool.false_eq_true, if_false, Option.map_some, he]

theorem Filled.nextindex_some (h : Filled Q d strings n t c.tbl key) {i : ℕ} (hi : i < n)
    (hnil : (valueAt t (indexKey i)).isNil = false) :
    c.nextindex i = some (indexKey i).value := by
  have hlt : i < c.tbl.array.length := by
    rw [h.array.length]
    exact hi
  have hy := (h.array.stored i _ (getElem?_eq_getElem hlt)).nil
  rw [hnil] at hy
  unfold Conf.nextindex
  rw [drop_eq_getElem_cons hlt, findIdx?_cons, hy]
  rfl

theorem Filled.enumerates_array (h : Filled Q d strings n t c.tbl key) (ht : Keyed t)
    (hL : strings <+: c.L) : ∀ (m i : ℕ) (k : LuaValue), i + m = n →
      c.lnextkey k = .ok (c.nextindex i) →
        Enumerates c k ((arrayKeys t i m ++ hashKeys key 0 c.tbl.hash.length).map ConfKey.value)
  | 0, i, k, hi, hk => by
    have hnext : c.nextindex i = c.pushslot 0 := by
      unfold Conf.nextindex
      rw [drop_eq_nil_of_le (by rw [h.array.length]; omega)]
      rfl
    rw [hnext] at hk
    exact h.enumerates_hash ht hL _ 0 k (Nat.zero_add _) hk
  | m + 1, i, k, hi, hk => by
    rcases hnil : (valueAt t (indexKey i)).isNil with _ | _
    · have hcons : arrayKeys t i (m + 1) = indexKey i :: arrayKeys t (i + 1) m := by
        unfold arrayKeys
        rw [range'_succ, map_cons, filter_cons, hnil]
        rfl
      rw [h.nextindex_some (by omega) hnil] at hk
      rw [hcons, cons_append, map_cons]
      exact .next hk (h.enumerates_array ht hL m (i + 1) _ (by omega)
        (h.lnextkey_index (by omega)))
    · have hcons : arrayKeys t i (m + 1) = arrayKeys t (i + 1) m := by
        unfold arrayKeys
        rw [range'_succ, map_cons, filter_cons, hnil]
        rfl
      rw [h.nextindex_nil (by omega) hnil] at hk
      rw [hcons]
      exact h.enumerates_array ht hL m (i + 1) k (by omega) hk

theorem arrayKeys_perm (ht : Keyed t) (hn : n < 2 ^ 31) :
    (arrayKeys t 0 n).Perm ((t.map fun p => cut p.1).filter fun k => decide (k.InArray n)) := by
  refine (perm_ext_iff_of_nodup ?_ (ht.nodup.filter _)).2 fun k => ?_
  · refine Nodup.filter _ ?_
    rw [nodup_map_iff_inj_on (nodup_range')]
    intro i hi j hj he
    rw [mem_range'_1] at hi hj
    exact indexKey_injOn hn (by omega) (by omega) he
  · unfold arrayKeys
    rw [mem_filter, mem_filter, mem_map, Bool.not_eq_true', decide_eq_true_iff,
      ← Bool.not_eq_true, ht.valueAt_isNil, not_not, and_comm]
    refine and_congr_right fun _ => ?_
    constructor
    · rintro ⟨i, hi, rfl⟩
      rw [mem_range'_1] at hi
      exact inArray_index hn (by omega)
    · intro hk
      cases k with
      | integer key =>
        obtain ⟨hlt, he⟩ := indexKey_of_inArray hk
        exact ⟨_, mem_range'_1.2 ⟨Nat.zero_le _, by omega⟩, he⟩
      | string s => cases hk

theorem Filled.enumerates (h : Filled Q d strings n t c.tbl key) (ht : Keyed t)
    (hL : strings <+: c.L) : ∃ ks, Enumerates c .nil ks ∧ ks.Perm (t.map (·.1)) := by
  refine ⟨_, h.enumerates_array ht hL n 0 .nil (Nat.zero_add n) rfl, ?_⟩
  have hhash : (hashKeys key 0 c.tbl.hash.length).Perm (outside n t) := by
    unfold hashKeys
    rw [← range_eq_range']
    exact h.hash.chained.perm (ht.nodup.filter _) h.mem
  have hback : (t.map fun p => cut p.1).map ConfKey.value = t.map (·.1) := by
    rw [map_map]
    exact map_congr_left fun p hp => ht.back p hp
  rw [← hback]
  refine Perm.map _ (((arrayKeys_perm ht h.small).append hhash).trans ?_)
  exact filter_append_perm (fun k => decide (ConfKey.InArray n k)) _

end Enumerate

theorem Filled.represents (h : Filled Q d strings n t c.tbl key) (ht : Keyed t)
    (hL : strings <+: c.L)
    (hother : ∀ k, IsConfKey k → Q k → (∀ p ∈ t, p.1 ≠ k) → cut k ∉ t.map fun p => cut p.1) :
    Represents Q (.table n t) (.conf c) := by
  have hindex : ∀ p ∈ t, ∃ y, c.lindexconf p.1 = .ok (some (c.pushvalue y)) ∧
      Stored Q d strings p.2 y := by
    intro p hp
    rcases h.index_spec ht hL (ht.conf p hp) with ⟨y, hy, hstored⟩ | ⟨-, hnot⟩
    · rw [valueAt_of_mem ht.nodup hp] at hstored
      exact ⟨y, hy, hstored⟩
    · exact absurd (mem_map.2 ⟨p, hp, rfl⟩) hnot
  let get : LuaValue → Pushed := fun k => ((c.lindexconf k).toOption.getD none).getD (.value .nil)
  have hget : ∀ {k : LuaValue} {r : Pushed}, c.lindexconf k = .ok (some r) → get k = r := by
    intro k r hr
    simp only [get, hr]
    rfl
  refine .table get ?_ ?_ ?_ (h.enumerates ht hL) h.array.length
  · intro p hp
    obtain ⟨y, hy, -⟩ := hindex p hp
    rw [hget hy, hy]
  · intro p hp
    obtain ⟨y, hy, hstored⟩ := hindex p hp
    rw [hget hy]
    exact hstored.shows c hL
  · intro k hk hQ hne
    rcases h.index_spec ht hL hk with ⟨y, hy, hstored⟩ | ⟨hnone, -⟩
    · have hnil := hstored.nil
      rw [(ht.valueAt_isNil).2 (hother k hk hQ hne)] at hnil
      refine ⟨_, hy, ?_⟩
      cases y with
      | nil => trivial
      | _ => cases hnil
    · exact ⟨none, hnone, trivial⟩

end Read

end SharedataCore

end SkynetGame
