import SkynetGame.SkynetUtil

/-!
# What gets through (`util.lua_docmd` of `services/utils/skynet_util.lua`)

Three results are kept, in a table whose length is not theirs where there is a `nil` among them.
-/

namespace SkynetGame

namespace SkynetUtil

variable {σ : Type}

/-- These values go to the caller: as they are, or in a reply. -/
def Delivered (session : ℤ) (vs : List Value) (o : Outcome) : Prop :=
  if session = 0 then o = .returned vs else ∃ msg, pack vs = some msg ∧ o = .replied vs msg

section Spec

variable (cmdhandler : CmdHandler σ) (cmd : Value) (args : List Value) (s : σ)

/-- All the results of the handler, or the pair `false` and a message. -/
def Wanted (vs : List Value) : Prop :=
  match cmdhandler.find cmd with
  | none => ∃ m, vs = [.false, .string m]
  | some f =>
    match (f args s).1 with
    | none => ∃ m, vs = [.false, .string m]
    | some rs => vs = rs

/-- The state after one call of the handler, if there is one. -/
def calledOnce : σ :=
  match cmdhandler.find cmd with
  | none => s
  | some f => (f args s).2

/-- The handler has been called once, and what is wanted goes to the caller. -/
def Meets (tostring : Value → Bytes) (session : ℤ) : Prop :=
  (lua_docmd tostring (some cmdhandler) session cmd args s).2 = calledOnce cmdhandler cmd args s ∧
    ∃ vs, Wanted cmdhandler cmd args s vs ∧
      Delivered session vs (lua_docmd tostring (some cmdhandler) session cmd args s).1

/-- Three results at most, no `nil` at the end, and none in front of a second one that is the
last. -/
def Fits (rs : List Value) : Prop :=
  rs.length ≤ 3 ∧ (∀ v, rs.getLast? = some v → v.isNil = false) ∧
    (rs.length = 2 → ∀ v, rs.head? = some v → v.isNil = false)

/-- A reply can be made of these values, if there is to be one. -/
def Packs (session : ℤ) (vs : List Value) : Prop := session ≠ 0 → (pack vs).isSome

/-- The results fit in the table, and what goes to the caller can be packed. -/
def Kept (tostring : Value → Bytes) (session : ℤ) : Prop :=
  match cmdhandler.find cmd with
  | none => Packs session [.false, .string (unknownCommand tostring cmd)]
  | some f =>
    match (f args s).1 with
    | none => Packs session [.false, .string raiseError]
    | some rs => Fits rs ∧ Packs session rs

end Spec

section Unpack

variable {a b c : Value}

theorem unpack_pair (h : b.isNil = false) : unpack [a, b] = [a, b] := by
  simp [unpack, luaH_getn, h]

theorem unpack_three : unpack [a, b, c] =
    if c.isNil then if a.isNil then [] else if b.isNil then [a] else [a, b] else [a, b, c] := by
  cases hc : c.isNil
  · simp [unpack, luaH_getn, hc]
  · cases ha : a.isNil
    · cases hb : b.isNil <;> simp [unpack, luaH_getn, boundary, ha, hb, hc]
    · simp [unpack, luaH_getn, boundary, ha, hc]

theorem unpack_eq_iff (rs : List Value) :
    unpack [rs.getD 0 .nil, rs.getD 1 .nil, rs.getD 2 .nil] = rs ↔ Fits rs := by
  rw [unpack_three]
  have hnil : Value.nil.isNil = true := rfl
  rcases rs with _ | ⟨a, _ | ⟨b, _ | ⟨c, _ | ⟨d, rs⟩⟩⟩⟩
  · simp [Fits, hnil]
  · cases ha : a.isNil <;> simp [Fits, hnil, ha]
  · cases ha : a.isNil <;> cases hb : b.isNil <;> simp [Fits, hnil, ha, hb]
  · cases ha : a.isNil <;> cases hb : b.isNil <;> cases hc : c.isNil <;> simp [Fits, ha, hb, hc]
  · -- a fourth result is dropped
    have hlen : (unpack [a, b, c]).length ≤ 3 := by
      rw [unpack, List.length_take]
      exact Nat.min_le_right _ _
    rw [← unpack_three]
    constructor
    · intro h
      have heq : unpack [a, b, c] = a :: b :: c :: d :: rs := h
      rw [heq] at hlen
      simp only [List.length_cons] at hlen
      omega
    · rintro ⟨hle, -⟩
      simp only [List.length_cons] at hle
      omega

end Unpack

section Finish

variable {session : ℤ} {vs res : List Value}

theorem delivered_finish : Delivered session vs (finish session res) ↔
    unpack res = vs ∧ Packs session vs := by
  unfold Delivered finish Packs
  by_cases h : session = 0
  · simp [h]
  · rw [if_neg h, if_neg h]
    rcases hpack : pack (unpack res) with _ | msg
    · simp only [reduceCtorEq, and_false, exists_false, false_iff, not_and]
      rintro rfl hp
      have := hp h
      rw [hpack] at this
      cases this
    · constructor
      · rintro ⟨msg', hmsg, heq⟩
        injection heq with h₁ h₂
        exact ⟨h₁, fun _ => by rw [hmsg]; rfl⟩
      · rintro ⟨rfl, -⟩
        exact ⟨msg, hpack, rfl⟩

theorem delivered_failure (m : Bytes) :
    (∃ vs, (∃ m, vs = [.false, .string m]) ∧
      Delivered session vs (finish session [.false, .string m])) ↔
        Packs session [.false, .string m] := by
  have hunpack : unpack [.false, .string m] = [.false, .string m] := unpack_pair rfl
  constructor
  · rintro ⟨vs, -, hd⟩
    obtain ⟨rfl, hp⟩ := delivered_finish.1 hd
    rwa [hunpack] at hp
  · intro hp
    exact ⟨_, ⟨m, rfl⟩, delivered_finish.2 ⟨hunpack, hp⟩⟩

end Finish

/-- The command is dispatched as it should be just when its results are kept. -/
theorem meets_iff (tostring : Value → Bytes) (cmdhandler : CmdHandler σ) (session : ℤ) (cmd : Value)
    (args : List Value) (s : σ) : Meets cmdhandler cmd args s tostring session ↔
      Kept cmdhandler cmd args s tostring session := by
  rcases hf : cmdhandler.find cmd with _ | f
  · simp only [Meets, Kept, Wanted, calledOnce, lua_docmd, hf, true_and]
    exact delivered_failure _
  · rcases hr : f args s with ⟨_ | rs, s'⟩
    · simp only [Meets, Kept, Wanted, calledOnce, lua_docmd, hf, hr, true_and]
      exact delivered_failure _
    · simp only [Meets, Kept, Wanted, calledOnce, lua_docmd, hf, hr, true_and]
      constructor
      · rintro ⟨_, rfl, hd⟩
        obtain ⟨hu, hp⟩ := delivered_finish.1 hd
        exact ⟨(unpack_eq_iff _).1 hu, hp⟩
      · rintro ⟨hfits, hp⟩
        exact ⟨rs, rfl, delivered_finish.2 ⟨(unpack_eq_iff rs).2 hfits, hp⟩⟩

def fourResults : CmdHandler ℕ :=
  .function fun _ n => (some ([1, 2, 3, 4].map fun i => .value (.integer i)), n + 1)

theorem not_meets_fourResults :
    ¬ Meets fourResults (.string (Bytes.ascii "get")) [] 0 (fun _ => []) 0 := by
  rintro ⟨-, vs, hvs, hd⟩
  cases hvs
  have hlen : (lua_docmd (fun _ => []) (some fourResults) 0 (.string (Bytes.ascii "get")) [] 0).1 =
      .returned ([1, 2, 3].map fun i => .value (.integer i)) := rfl
  rw [hlen, Delivered, if_pos rfl] at hd
  cases hd

end SkynetUtil

end SkynetGame
