import SkynetGame.LuaValue

/-!
# Tables and their entries

Values that are the same have the same keys, a key that is new to a table is put behind the others,
and the entries of a table are those of its array and the rest.
-/

namespace SkynetGame

namespace LuaValue

theorem Same.isNil {v w : LuaValue} (h : Same v w) : w.isNil = v.isNil := by
  rcases h with _ | _ | _ | _ | _ | _ | _ <;> rfl

theorem Same.isKey {v w : LuaValue} (h : Same v w) (hk : v.IsKey) : w.IsKey := by
  rcases h with _ | _ | _ | _ | _ | _ | _ <;> exact hk

theorem Same.rawEqual {a a' b b' : LuaValue} (h : Same a a') (h' : Same b b') :
    a'.rawEqual b' = a.rawEqual b := by
  rcases h with _ | _ | _ | _ | _ | _ | _ <;> rcases h' with _ | _ | _ | _ | _ | _ | _ <;> rfl

theorem SameEntries.append {a a' b b' : Entries} (h : SameEntries a a') (h' : SameEntries b b') :
    SameEntries (a ++ b) (a' ++ b') := by
  induction a generalizing a' with
  | nil =>
    rcases h with _ | _
    exact h'
  | cons p a ih =>
    rcases h with _ | ⟨hk, hv, h⟩
    exact .cons hk hv (ih h)

theorem SameEntries.mem {a a' : Entries} (h : SameEntries a a') {q : LuaValue × LuaValue}
    (hq : q ∈ a') : ∃ p ∈ a, Same p.1 q.1 := by
  induction a generalizing a' with
  | nil =>
    rcases h with _ | _
    exact nomatch hq
  | cons p a ih =>
    rcases h with _ | ⟨hk, hv, h⟩
    rcases List.mem_cons.1 hq with rfl | hq
    · exact ⟨_, List.mem_cons_self, hk⟩
    · obtain ⟨p', hp', hs⟩ := ih h hq
      exact ⟨p', List.mem_cons_of_mem _ hp', hs⟩

theorem rawset_new {t : Entries} {k v : LuaValue} (hk : k.IsKey) (hv : v.isNil = false)
    (hnew : ∀ p ∈ t, p.1.rawEqual k = false) : rawset t k v = some (t ++ [(k, v)]) := by
  have hset : rawset.set t k v = t ++ [(k, v)] := by
    have hany : t.any (fun p => p.1.rawEqual k) = false := List.any_eq_false.2 fun p hp => by
      rw [hnew p hp]
      exact Bool.false_ne_true
    rw [rawset.set, hv, hany, if_neg Bool.false_ne_true, if_neg Bool.false_ne_true]
  rcases k with _ | b | i | n | p | s | ⟨m, t'⟩
  · exact absurd hk (fun hf => hf)
  · exact congrArg some hset
  · exact congrArg some hset
  · rw [rawset, if_neg (by rw [hk.1]; exact Bool.false_ne_true)]
    have hnorm : normalize (.number n) = .number n := by rw [normalize, hk.2]; rfl
    rw [hnorm, hset]
  · exact congrArg some hset
  · exact congrArg some hset
  · exact congrArg some hset

theorem rawset_nil {t : Entries} {i : Int64} {v : LuaValue} (hv : v.isNil = true)
    (hnew : ∀ p ∈ t, p.1.rawEqual (.integer i) = false) : rawset t (.integer i) v = some t := by
  refine congrArg some ?_
  rw [rawset.set, hv, if_pos rfl]
  exact List.filter_eq_self.2 fun p hp => by
    rw [hnew p hp]
    rfl

theorem rawEqual_comm (a b : LuaValue) : a.rawEqual b = b.rawEqual a := by
  rcases a with _ | _ | _ | _ | _ | _ | _ <;> rcases b with _ | _ | _ | _ | _ | _ | _ <;>
    first | rfl | exact Bool.beq_comm

theorem rawEqual_integer {k : LuaValue} {x : Int64} :
    k.rawEqual (.integer x) = true ↔ k = .integer x := by
  rcases k with _ | _ | y | _ | _ | _ | _ <;> simp [LuaValue.rawEqual]

theorem rawget_of_mem {t : Entries} (hd : t.Pairwise fun p q => p.1.rawEqual q.1 = false)
    {p : LuaValue × LuaValue} (hp : p ∈ t) {x : Int64} (hk : p.1 = .integer x) :
    rawget t (.integer x) = p.2 := by
  induction t with
  | nil => exact nomatch hp
  | cons q t ih =>
    obtain ⟨hq, hd⟩ := List.pairwise_cons.1 hd
    unfold rawget
    rcases List.mem_cons.1 hp with rfl | hp
    · simp [rawEqual_integer, hk]
    · have hne : q.1.rawEqual (.integer x) = false := by rw [← hk, hq p hp]
      rw [List.find?_cons, hne]
      exact ih hd hp

theorem mem_of_rawget {t : Entries} {x : Int64} (h : (rawget t (.integer x)).isNil = false) :
    (.integer x, rawget t (.integer x)) ∈ t := by
  rcases hf : t.find? fun p => p.1.rawEqual (.integer x) with _ | p
  · rw [rawget, hf] at h
    exact nomatch h
  · have hk : p.1 = .integer x := by
      have := List.find?_some hf
      exact rawEqual_integer.1 this
    have hg : rawget t (.integer x) = p.2 := by
      rw [rawget, hf]
      rfl
    rw [hg, ← hk]
    exact List.mem_of_find?_eq_some hf

end LuaValue

end SkynetGame
