import SkynetGame.SharedataCore

/-!
# The keys of a shared configuration

A key of the Lua table is made into an `int` or into the place of its string. What the strings are
grows, and a place is good for ever (`Enc.mono`), so a key is known by what it is made into
(`Enc.unique`), and two keys that are ints are not made into one (`cut_injective`).
-/

namespace SkynetGame

namespace SharedataCore

/-- A key of the kinds that a configuration may have. -/
def IsConfKey : LuaValue → Prop
  | .integer _ | .string _ => True
  | _ => False

/-- An integer that is an `int`. -/
def FitsInt (k : Int64) : Prop := k.toInt32.toInt64 = k

instance (k : Int64) : Decidable (FitsInt k) := inferInstanceAs (Decidable (_ = _))

def cut : LuaValue → ConfKey
  | .integer k => .integer k.toInt32
  | k => .string (tolstring k)

/-- The key that a `ConfKey` is. -/
def ConfKey.value : ConfKey → LuaValue
  | .integer key => .integer key.toInt64
  | .string s => .string s

def ConfKey.hash : ConfKey → UInt32
  | .integer key => key.toUInt32
  | .string s => calchash s

def ConfKey.InArray (sizearray : ℕ) : ConfKey → Prop
  | .integer key => inArray sizearray key
  | .string _ => False

instance (sizearray : ℕ) : DecidablePred (ConfKey.InArray sizearray)
  | .integer key => inferInstanceAs (Decidable (inArray sizearray key))
  | .string _ => inferInstanceAs (Decidable False)

section Cut

theorem toInt32_toInt64 (k : Int32) : k.toInt64.toInt32 = k := Int32.toInt32_toInt64 k

theorem fitsInt_toInt64 (k : Int32) : FitsInt k.toInt64 := by
  unfold FitsInt
  rw [toInt32_toInt64]

theorem cut_value (k : ConfKey) : cut k.value = k := by
  cases k with
  | integer key => exact congrArg ConfKey.integer (toInt32_toInt64 key)
  | string s => rfl

theorem isConfKey_value (k : ConfKey) : IsConfKey k.value := by
  cases k with
  | integer key => trivial
  | string s => trivial

theorem value_cut {k : LuaValue} (hk : IsConfKey k) (hfit : ∀ v, k = .integer v → FitsInt v) :
    (cut k).value = k := by
  cases k with
  | integer v => exact congrArg LuaValue.integer (hfit v rfl)
  | string s => rfl
  | _ => cases hk

theorem cut_injective {k k' : LuaValue} (hk : (cut k).value = k) (hk' : (cut k').value = k')
    (h : cut k = cut k') : k = k' := by
  rw [← hk, ← hk', h]

end Cut

section Strings

variable {strings strings' : List Bytes} {S : Bytes → Prop}

/-- The strings grow, each is there once, and the new ones are of `S`. -/
structure Grows (S : Bytes → Prop) (strings strings' : List Bytes) : Prop where
  le : strings <+: strings'
  nodup : strings'.Nodup
  within : ∀ s ∈ strings', s ∈ strings ∨ S s

theorem Grows.refl (h : strings.Nodup) : Grows S strings strings :=
  ⟨List.prefix_refl _, h, fun _ hs => Or.inl hs⟩

theorem Grows.trans {strings'' : List Bytes} {S' : Bytes → Prop} (h : Grows S strings strings')
    (h' : Grows S' strings' strings'') (hS : ∀ s, S' s → S s) : Grows S strings strings'' where
  le := h.le.trans h'.le
  nodup := h'.nodup
  within s hs := by
    rcases h'.within s hs with hs | hs
    · exact h.within s hs
    · exact Or.inr (hS s hs)

theorem getElem?_of_prefix {i : ℕ} {s : Bytes} (h : strings <+: strings')
    (hi : strings[i]? = some s) : strings'[i]? = some s := by
  obtain ⟨more, rfl⟩ := h
  obtain ⟨hlt, -⟩ := List.getElem?_eq_some_iff.1 hi
  rw [List.getElem?_append_left hlt]
  exact hi

theorem stringindex_spec (s : Bytes) (h : strings.Nodup) :
    Grows (· = s) strings (stringindex strings s).2 ∧
      (stringindex strings s).2[(stringindex strings s).1]? = some s := by
  unfold stringindex
  rcases hf : strings.findIdx? (· == s) with _ | i
  · have hs : s ∉ strings := by
      intro hm
      have hne := List.findIdx?_eq_none_iff.1 hf s hm
      simp at hne
    refine ⟨⟨List.prefix_append _ _, ?_, fun s' hs' => ?_⟩, ?_⟩
    · exact List.nodup_append.2 ⟨h, List.nodup_singleton s, by
        intro a ha b hb
        rw [List.mem_singleton.1 hb]
        exact ne_of_mem_of_not_mem ha hs⟩
    · rcases List.mem_append.1 hs' with hs' | hs'
      · exact Or.inl hs'
      · exact Or.inr (List.mem_singleton.1 hs')
    · exact List.getElem?_concat_length
  · obtain ⟨hlt, heq, -⟩ := List.findIdx?_eq_some_iff_getElem.1 hf
    refine ⟨Grows.refl h, ?_⟩
    rw [List.getElem?_eq_getElem hlt]
    exact congrArg some (eq_of_beq heq)

/-- A node has the key `k`. -/
def Enc (strings : List Bytes) : ConfKey → NodeKey → Prop
  | .integer a, .integer b => a = b
  | .string s, .string i => strings[i]? = some s
  | _, _ => False

theorem Enc.mono {k : ConfKey} {n : NodeKey} (h : Enc strings k n) (hle : strings <+: strings') :
    Enc strings' k n := by
  cases k with
  | integer a =>
    cases n with
    | integer b => exact h
    | string i => exact h
  | string s =>
    cases n with
    | integer b => exact h
    | string i => exact getElem?_of_prefix hle h

theorem Enc.unique (hnd : strings.Nodup) {k k' : ConfKey} {n n' : NodeKey} (h : Enc strings k n)
    (h' : Enc strings k' n') : n = n' ↔ k = k' := by
  cases k with
  | integer a =>
    cases n with
    | string i => cases h
    | integer b =>
      cases k' with
      | integer a' =>
        cases n' with
        | string i => cases h'
        | integer b' =>
          cases h
          cases h'
          simp
      | string s' =>
        cases n' with
        | integer b' => cases h'
        | string i => simp
  | string s =>
    cases n with
    | integer b => cases h
    | string i =>
      cases k' with
      | integer a' =>
        cases n' with
        | string j => cases h'
        | integer b' => simp
      | string s' =>
        cases n' with
        | integer b' => cases h'
        | string j =>
          have hi : strings[i]? = some s := h
          have hj : strings[j]? = some s' := h'
          simp only [NodeKey.string.injEq, ConfKey.string.injEq]
          constructor
          · rintro rfl
            rw [hi] at hj
            exact Option.some.inj hj
          · rintro rfl
            obtain ⟨hlt, hs⟩ := List.getElem?_eq_some_iff.1 hi
            obtain ⟨hlt', hs'⟩ := List.getElem?_eq_some_iff.1 hj
            exact (List.Nodup.getElem_inj_iff hnd).1 (hs.trans hs'.symm)

end Strings

section Place

variable {sizearray : ℕ} {k : LuaValue}

theorem ishashkey_array (strings : List Bytes) (hk : (cut k).InArray sizearray) :
    ∃ key, cut k = .integer key ∧ inArray sizearray key ∧
      ishashkey sizearray strings k = (.array key, strings) := by
  cases k with
  | integer v => exact ⟨v.toInt32, rfl, hk, if_pos hk⟩
  | _ => cases hk

theorem ishashkey_hash {strings : List Bytes} (hk : IsConfKey k) (hout : ¬ (cut k).InArray sizearray)
    (hnd : strings.Nodup) : ∃ n strings', Grows (fun s => k = .string s) strings strings' ∧
      Enc strings' (cut k) n ∧
      ishashkey sizearray strings k = (.hash n (cut k).hash, strings') := by
  cases k with
  | integer v => exact ⟨.integer v.toInt32, strings, Grows.refl hnd, rfl, if_neg hout⟩
  | string s =>
    obtain ⟨hgrows, hs⟩ := stringindex_spec s hnd
    refine ⟨.string (stringindex strings s).1, _, ⟨hgrows.le, hgrows.nodup, fun s' hs' => ?_⟩, hs,
      rfl⟩
    rcases hgrows.within s' hs' with hs' | hs'
    · exact Or.inl hs'
    · exact Or.inr (by rw [hs'])
  | _ => cases hk

end Place

end SharedataCore

end SkynetGame
