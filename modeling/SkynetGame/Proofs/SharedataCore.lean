import SkynetGame.Proofs.SharedataFill

/-!
# Shared configurations are exact (`lualib-src/lua-sharedata.c`)

A configuration represents its table, as far as it is asked, exactly where the integer keys are ints
and no other integer that it is asked for is cut to one of them, and where the tables of it are not
too deep and not too large for Lua and C (`represents_iff`). Nothing but the last 32 bits of an
integer is looked at.
-/

namespace SkynetGame

namespace SharedataCore

open LuaValue (Entries)

/-- No more strings than the stack of a Lua state has room for. -/
def FewStrings (room : ℕ) (v : LuaValue) : Prop :=
  ∀ l : List Bytes, l.Nodup → (∀ s ∈ l, Mentions v s) → l.length ≤ room

section Cut

variable {c : Conf}

theorem lindexconf_cut (c : Conf) (k : Int64) :
    c.lindexconf (.integer k.toInt32.toInt64) = c.lindexconf (.integer k) := by
  unfold Conf.lindexconf
  simp only [toInt32_toInt64]

theorem pushslot_fits {i : ℕ} {k : Int64} (h : c.pushslot i = some (.integer k)) : FitsInt k := by
  unfold Conf.pushslot at h
  obtain ⟨m, -, hm⟩ := Option.map_eq_some_iff.1 h
  rcases hkey : m.1.key with a | j
  · rw [hkey] at hm
    cases hm
    exact fitsInt_toInt64 a
  · rw [hkey] at hm
    cases hm

theorem nextindex_fits {i : ℕ} {k : Int64} (h : c.nextindex i = some (.integer k)) :
    FitsInt k := by
  unfold Conf.nextindex at h
  split at h
  · cases h
    exact fitsInt_toInt64 _
  · exact pushslot_fits h

theorem nexthash_fits {keyhash : UInt32} {key : ConfKey} {k : Int64}
    (h : c.nexthash keyhash key = .ok (some (.integer k))) : FitsInt k := by
  unfold Conf.nexthash at h
  rcases ho : c.lookup_key keyhash key with e | o
  · rw [ho] at h
    cases h
  · rw [ho] at h
    cases o with
    | none => cases h
    | some i => exact pushslot_fits (Except.ok.inj h)

theorem lnextkey_fits {key : LuaValue} {k : Int64}
    (h : c.lnextkey key = .ok (some (.integer k))) : FitsInt k := by
  cases key with
  | nil => exact nextindex_fits (Except.ok.inj h)
  | integer v =>
    unfold Conf.lnextkey at h
    dsimp only at h
    split_ifs at h
    · exact nextindex_fits (Except.ok.inj h)
    · exact nexthash_fits h
  | string s => exact nexthash_fits h
  | number x => cases Except.ok.inj h
  | _ => cases h

theorem enumerates_fits {key : LuaValue} {ks : List LuaValue} (h : Enumerates c key ks) {k : Int64}
    (hk : .integer k ∈ ks) : FitsInt k := by
  induction h with
  | stop => cases hk
  | next h _ ih =>
    rcases List.mem_cons.1 hk with rfl | hk
    · exact lnextkey_fits h
    · exact ih hk

end Cut

theorem not_nothing_of_represents {Q : LuaValue → Prop} {v : LuaValue} {r : Pushed}
    (h : Represents Q v r) (hnil : v.isNil = false) : ¬ Nothing (some r) := by
  cases h with
  | plain h =>
    cases v with
    | nil => cases hnil
    | _ => exact id
  | table => exact id

theorem narrow_of_represents {Q : LuaValue → Prop} {v : LuaValue} {r : Pushed}
    (h : Represents Q v r) (hs : Supported v) : Narrow Q v := by
  induction h with
  | plain h => exact .plain h
  | @table n t c get hindex hget hother hnext hlen ih =>
    obtain ⟨hkey, hvalue⟩ : (∀ p ∈ t, IsConfKey p.1) ∧ ∀ p ∈ t, Supported p.2 := by
      cases hs with
      | table hkey _ hvalue => exact ⟨hkey, hvalue⟩
    obtain ⟨ks, hks, hperm⟩ := hnext
    have hfit : ∀ p ∈ t, ∀ k, p.1 = .integer k → FitsInt k := by
      intro p hp k hk
      refine enumerates_fits hks (hperm.mem_iff.2 (List.mem_map.2 ⟨p, hp, hk⟩))
    refine .table hfit ?_ fun p hp => ih p hp (hvalue p hp)
    rintro k hQ ⟨p, hp, hpk⟩
    by_contra hno
    -- the integer is none of the keys, and the table has a value for it
    have hne : ∀ q ∈ t, q.1 ≠ .integer k := fun q hq he => hno (hfit q hq k he)
    obtain ⟨r, hr, hnothing⟩ := hother (.integer k) trivial hQ hne
    rw [← lindexconf_cut, ← hpk, hindex p hp] at hr
    cases hr
    exact not_nothing_of_represents (hget p hp) (supported_notnil (hvalue p hp)) hnothing

theorem fewStrings_iff {room : ℕ} {v : LuaValue} {strings : List Bytes}
    (hgrows : Grows (Mentions v) [] strings) (htexts : ∀ s, Mentions v s → s ∈ strings) :
    FewStrings room v ↔ strings.length ≤ room := by
  constructor
  · intro h
    refine h strings hgrows.nodup fun s hs => ?_
    rcases hgrows.within s hs with hs | hs
    · cases hs
    · exact hs
  · intro h l hl hmem
    exact ((List.subperm_of_subset hl fun s hs => htexts s (hmem s hs)).length_le).trans h

/-- `new` gives what represents the table exactly where its keys are narrow, as far as they are
asked for, and it has room. -/
theorem represents_iff (Q : LuaValue → Prop) (garbage : ℕ → Node) (calls room : ℕ) {n : ℕ}
    {t : Entries} (hs : Supported (.table n t)) :
    (∃ c, lnewconf garbage calls room (.table n t) = .ok c ∧
      Represents Q (.table n t) (.conf c)) ↔
      Narrow Q (.table n t) ∧ Room calls (.table n t) ∧ FewStrings room (.table n t) := by
  constructor
  · rintro ⟨c, hc, hrep⟩
    have hn := narrow_of_represents hrep hs
    have hspec := convtable_spec Q garbage calls [] n t List.nodup_nil hs hn
    unfold lnewconf at hc
    dsimp only at hc
    rcases hconv : convtable garbage calls [] n t with e | ctx
    · rw [hconv] at hc
      cases hc
    · rw [hconv] at hc hspec
      obtain ⟨hgrows, hstored⟩ := hspec
      refine ⟨hn, hstored.room, (fewStrings_iff hgrows hstored.texts).2 (Nat.le_of_not_lt ?_)⟩
      intro hlt
      simp only [bind, Except.bind, if_pos hlt] at hc
      cases hc
  · rintro ⟨hn, hroom, hfew⟩
    have hspec := convtable_spec Q garbage calls [] n t List.nodup_nil hs hn
    obtain ⟨ctx, hconv, hgrows, hstored⟩ := Ends.exists_ok hspec (not_not.2 hroom)
    have hle := (fewStrings_iff hgrows hstored.texts).1 hfew
    refine ⟨⟨ctx.tbl, ctx.strings⟩, ?_, hstored.shows ⟨ctx.tbl, ctx.strings⟩ (List.prefix_refl _)⟩
    unfold lnewconf
    simp only [hconv, bind, Except.bind, if_neg (Nat.not_lt.2 hle)]

/-- A table with an element, and an empty one under a string. -/
def nestedConf : LuaValue :=
  .table 1 [(.integer 1, .integer 10), (.string [120], .table 0 [])]

theorem represents_nested :
    ∃ c, lnewconf (fun _ => ⟨.integer 0, none, 0, true⟩) 2 1 nestedConf = .ok c ∧
      Represents (fun k => k = .integer 5) nestedConf (.conf c) := by
  have hempty : Supported (.table 0 []) := by
    refine .table ?_ List.nodup_nil ?_ (by decide) (Or.inl rfl) <;> simp
  refine (represents_iff _ _ _ _ (.table ?_ ?_ ?_ (by decide) (Or.inr ?_))).2 ⟨?_, ?_, ?_⟩
  · simp [IsConfKey]
  · simp
  · simp only [List.forall_mem_cons]
    exact ⟨.integer 10, hempty, by simp⟩
  · exact ⟨_, List.mem_cons_self, rfl⟩
  · refine .table ?_ ?_ ?_
    · simp only [List.forall_mem_cons]
      refine ⟨?_, ?_, by simp⟩
      · rintro _ ⟨⟩
        rfl
      · rintro _ ⟨⟩
    · rintro k hk -
      cases hk
      rfl
    · simp only [List.forall_mem_cons]
      exact ⟨.plain rfl, .table (by simp) (by simp) (by simp), by simp⟩
  · refine .table (by decide) ?_
    simp only [List.forall_mem_cons]
    exact ⟨.plain rfl, .table (by decide) (by simp), by simp⟩
  · intro l hl hmem
    have hsub : l ⊆ [[120]] := by
      intro s hs
      rcases hmem s hs with _ | ⟨hp, he⟩ | ⟨hp, he⟩
      · rcases List.mem_pair.1 hp with rfl | rfl
        · cases he
        · cases he
          exact List.mem_cons_self
      · rcases List.mem_pair.1 hp with rfl | rfl
        · cases he
        · rcases he with _ | ⟨hp', -⟩ | ⟨hp', -⟩ <;> cases hp'
    exact (List.subperm_of_subset hl hsub).length_le

/-- Two keys that are the same in their last 32 bits. -/
def largeKeys : LuaValue :=
  .table 0 [(.integer 5, .integer 10), (.integer 0x100000005, .integer 20)]

theorem not_represents_largeKeys : Supported largeKeys ∧
    ¬ ∃ c, lnewconf (fun _ => ⟨.integer 0, none, 0, true⟩) 200 1000000 largeKeys = .ok c ∧
      Represents (fun _ => True) largeKeys (.conf c) := by
  have hs : Supported largeKeys := by
    refine .table ?_ ?_ ?_ (by decide) (Or.inl rfl)
    · simp [IsConfKey]
    · simp
    · simp only [List.forall_mem_cons]
      exact ⟨.integer 10, .integer 20, by simp⟩
  refine ⟨hs, ?_⟩
  rintro ⟨c, -, hrep⟩
  cases narrow_of_represents hrep hs with
  | plain h => cases h
  | table hkey =>
    have hfit := hkey _ (List.mem_cons_of_mem _ List.mem_cons_self) 0x100000005 rfl
    exact absurd hfit (by decide)

end SharedataCore

end SkynetGame
