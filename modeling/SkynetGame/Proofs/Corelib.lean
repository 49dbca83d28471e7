import Mathlib.Data.List.TakeDrop
import SkynetGame.Lib.Run
import SkynetGame.Proofs.CorelibMove

/-!
# Proxies read the newest version (`lualib/sharedata/corelib.lua`)

A read through a box gives what its table has (`read_done`) and may add a box. In a run in which no box
is read that was cut off by an older version than the one noticed last, the boxes in the caches are
those whose paths have been tables in every version that the root was moved to since they were got: a
read through one of them gives what the newest version has, or is an error, as it is for the others
(`reads_newest`).
-/

namespace SkynetGame

open Function List Option

namespace Corelib

variable {κ α ω : Type*} (H : Host κ α ω)

/-- Boxes have been added, with their tables. -/
structure Extends (live : ℕ → Prop) (n : ℕ) (why : ℕ → ℕ → Prop) (s s' : State κ ω) : Prop where
  le : s.boxes ≤ s'.boxes
  obj : ∀ x < s.boxes, s'.obj x = s.obj x
  parent : ∀ x < s.boxes, s'.parent x = s.parent x
  kept : Kept H (fun x => live x ∨ s.boxes ≤ x ∧ x < s'.boxes) n why s'

/-- What an entry of the table of a box gives. -/
def Shows (s : State κ ω) (b : ℕ) (k : κ) : Entry α ω → Answer κ α → Prop
  | .nil, .nil => True
  | .value a, .value a' => a' = a
  | .userdata o, .box c => c < s.boxes ∧ s.obj c = o ∧ genkey s c = genkey s b ++ [k]
  | _, _ => False

/-- What a read of a box gives, which has this table. -/
def Gives (s : State κ ω) (b : ℕ) (o : ω) : Read κ → Answer κ α → Prop
  | .index k, a => Shows s b k (H.index o k) a
  | .len, a => a = .length (H.len o)
  | .next k, a => match H.nextkey o k with
    | some k' => ∃ v, a = .pair k' v ∧ Shows s b k' (H.index o k') v
    | none => a = .nil

section Reads

variable {H} {live live' : ℕ → Prop} {why : ℕ → ℕ → Prop} {s s' : State κ ω} {n g b w calls : ℕ}
  {k : κ} {o v : ω}

theorem Kept.congr {why' : ℕ → ℕ → Prop} (h : Kept H live n why s) (hlive : ∀ x, live x ↔ live' x)
    (hwhy : ∀ b < s.boxes, ¬ live b → ∀ w, why b w → why' b w) : Kept H live' n why' s := by
  obtain rfl : live = live' := funext fun x => propext (hlive x)
  refine { h with cut := fun b hb hnot => ?_ }
  obtain ⟨w, hw, hcut⟩ := h.cut b hb hnot
  exact ⟨w, hwhy b hb hnot w hw, hcut⟩

theorem Extends.refl (h : Kept H live n why s) : Extends H live n why s s where
  le := le_rfl
  obj _ _ := rfl
  parent _ _ := rfl
  kept := h.congr (fun x => ⟨.inl, fun hx => hx.resolve_right fun hlt => by omega⟩)
    fun _ _ _ _ => id

theorem Extends.genkey (h : Extends H live n why s s') (hs : Older s.boxes s.parent) (hb : b < s.boxes) :
    genkey s' b = genkey s b := genkeyIn_congr hs h.parent hb

theorem Kept.update_none (h : Kept H live n why s) (hat : s.at H = n) (hb : live b) :
    s.update (s.gcobj b) = none := by
  obtain ⟨g, hg⟩ := h.notice
  obtain rfl := (hg.at_or.resolve_right fun h => absurd h.1 (by omega)).2
  rw [h.gcobj hb]
  exact hg.update

/-- The state with a new box, in the cache of its parent. -/
def addBox (s : State κ ω) (b : ℕ) (k : κ) (v : ω) : State κ ω :=
  { s with
    boxes := s.boxes + 1
    obj := Function.update s.obj s.boxes v
    gcobj := Function.update s.gcobj s.boxes (s.gcobj b)
    parent := Function.update s.parent s.boxes (some (b, k))
    cache := Function.update
      (Function.update s.cache b (some ((s.cache b).getD [] ++ [(k, s.boxes)]))) s.boxes none }

section AddBox

variable {x : ℕ}

theorem addBox_obj (hx : x < s.boxes) : (addBox s b k v).obj x = s.obj x :=
  update_of_ne hx.ne _ _

theorem addBox_gcobj (hx : x < s.boxes) : (addBox s b k v).gcobj x = s.gcobj x :=
  update_of_ne hx.ne _ _

theorem addBox_parent (hx : x < s.boxes) : (addBox s b k v).parent x = s.parent x :=
  update_of_ne hx.ne _ _

theorem addBox_cache (hx : x < s.boxes) (hne : x ≠ b) : (addBox s b k v).cache x = s.cache x :=
  (update_of_ne hx.ne _ _).trans (update_of_ne hne _ _)

theorem addBox_cache_parent (hb : b < s.boxes) :
    (addBox s b k v).cache b = some ((s.cache b).getD [] ++ [(k, s.boxes)]) :=
  (update_of_ne hb.ne _ _).trans (update_self _ _ _)

theorem addBox_obj_new : (addBox s b k v).obj s.boxes = v := update_self _ _ _

theorem addBox_gcobj_new : (addBox s b k v).gcobj s.boxes = s.gcobj b := update_self _ _ _

theorem addBox_parent_new : (addBox s b k v).parent s.boxes = some (b, k) :=
  update_self _ _ _

theorem addBox_cache_new : (addBox s b k v).cache s.boxes = none := update_self _ _ _

theorem addBox_at (h : 0 < s.boxes) : (addBox s b k v).at H = s.at H :=
  congrArg H.version (addBox_obj h)

theorem addBox_older (h : Older s.boxes s.parent) (hb : b < s.boxes) :
    Older (addBox s b k v).boxes (addBox s b k v).parent := by
  refine ⟨(addBox_parent (b.zero_le.trans_lt hb)).trans h.1, fun x hx hne => ?_⟩
  rcases Nat.lt_succ_iff_lt_or_eq.1 hx with hx | rfl
  · rw [addBox_parent hx]
    exact h.2 x hx hne
  · exact ⟨b, k, addBox_parent_new, hb⟩

theorem addBox_genkey (h : Older s.boxes s.parent) (hx : x < s.boxes) :
    genkey (addBox s b k v) x = genkey s x := genkeyIn_congr h (fun _ => addBox_parent) hx

theorem addBox_genkey_new (h : Older s.boxes s.parent) (hb : b < s.boxes) :
    genkey (addBox s b k v) s.boxes = genkey s b ++ [k] := by
  rw [genkey_child (addBox_older h hb) (Nat.lt_succ_self _) addBox_parent_new, addBox_genkey h hb]

variable [DecidableEq κ]

theorem Sound.addBox (h : Sound H live s) (hb : live b) (hv : H.index (s.obj b) k = .userdata v)
    (hfind : ((s.cache b).getD []).find? (fun e => e.1 = k) = none) :
    Sound H (fun x => live x ∨ s.boxes ≤ x ∧ x < (addBox s b k v).boxes) (addBox s b k v) := by
  have hlt := h.lt hb
  have hzero := h.lt h.root
  have hnew : ∀ {x : ℕ}, s.boxes ≤ x ∧ x < (Corelib.addBox s b k v).boxes → x = s.boxes := fun hx =>
    le_antisymm (Nat.lt_succ_iff.1 hx.2) hx.1
  refine ⟨addBox_older h.older hlt, .inl h.root, ?lt, ?linked, ?cached, ?nodup, ?obj, ?gcobj⟩
  case lt =>
    rintro x (hx | hx)
    · exact (h.lt hx).trans (Nat.lt_succ_self _)
    · exact hx.2
  case linked =>
    rintro x p k' (hx | hx) hp
    · rw [addBox_parent (h.lt hx)] at hp
      obtain ⟨hlive, l, hl, hmem⟩ := h.linked hx hp
      refine ⟨.inl hlive, ?_⟩
      by_cases hpb : p = b
      · obtain rfl := hpb
        refine ⟨_, addBox_cache_parent hlt, mem_append_left _ ?_⟩
        rw [hl]
        exact hmem
      · exact ⟨l, (addBox_cache (h.lt hlive) hpb).trans hl, hmem⟩
    · obtain rfl := hnew hx
      rw [addBox_parent_new, some.injEq, Prod.mk.injEq] at hp
      obtain ⟨rfl, rfl⟩ := hp
      exact ⟨.inl hb, _, addBox_cache_parent hlt, mem_append_right _ (mem_singleton_self _)⟩
  case cached =>
    rintro p l e (hp | hp) hl he
    · by_cases hpb : p = b
      · obtain rfl := hpb
        rw [addBox_cache_parent hlt, some.injEq] at hl
        rw [← hl, mem_append, mem_singleton] at he
        rcases he with he | rfl
        · rcases hc : s.cache p with _ | l'
          · rw [hc] at he
            cases he
          · rw [hc] at he
            obtain ⟨hlive, hpar⟩ := h.cached hb hc he
            exact ⟨.inl hlive, (addBox_parent (h.lt hlive)).trans hpar⟩
        · exact ⟨.inr ⟨le_rfl, Nat.lt_succ_self _⟩, addBox_parent_new⟩
      · rw [addBox_cache (h.lt hp) hpb] at hl
        obtain ⟨hlive, hpar⟩ := h.cached hp hl he
        exact ⟨.inl hlive, (addBox_parent (h.lt hlive)).trans hpar⟩
    · obtain rfl := hnew hp
      rw [addBox_cache_new] at hl
      cases hl
  case nodup =>
    rintro p l (hp | hp) hl
    · by_cases hpb : p = b
      · obtain rfl := hpb
        rw [addBox_cache_parent hlt, some.injEq] at hl
        rw [← hl, map_append, nodup_append]
        refine ⟨?_, nodup_singleton _, ?_⟩
        · rcases hc : s.cache p with _ | l'
          · exact nodup_nil
          · exact h.nodup hb hc
        · rintro a ha a' ha'
          obtain ⟨e, he, rfl⟩ := List.mem_map.1 ha
          obtain rfl := mem_singleton.1 ha'
          exact of_decide_eq_false (Bool.eq_false_iff.2 (find?_eq_none.1 hfind e he))
      · rw [addBox_cache (h.lt hp) hpb] at hl
        exact h.nodup hp hl
    · obtain rfl := hnew hp
      rw [addBox_cache_new] at hl
      cases hl
  case obj =>
    rintro x (hx | hx)
    · rw [addBox_at hzero, addBox_genkey h.older (h.lt hx), addBox_obj (h.lt hx)]
      exact h.obj hx
    · obtain rfl := hnew hx
      rw [addBox_at hzero, addBox_genkey_new h.older hlt, addBox_obj_new, Host.tableAt_concat, h.obj hb,
        bind_some]
      exact Host.child_userdata hv
  case gcobj =>
    rintro x (hx | hx)
    · rw [addBox_gcobj (h.lt hx), addBox_gcobj hzero]
      exact h.gcobj hx
    · obtain rfl := hnew hx
      rw [addBox_gcobj_new, addBox_gcobj hzero]
      exact h.gcobj hb

theorem extends_addBox (h : Kept H live n why s) (hb : live b)
    (hv : H.index (s.obj b) k = .userdata v)
    (hfind : ((s.cache b).getD []).find? (fun e => e.1 = k) = none) :
    Extends H live n why s (addBox s b k v) := by
  have hzero := h.lt h.root
  have hat : (addBox s b k v).at H = s.at H := addBox_at hzero
  have hgcobj : (addBox s b k v).gcobj 0 = s.gcobj 0 := addBox_gcobj hzero
  obtain ⟨g, hg⟩ := h.notice
  refine ⟨Nat.le_succ _, fun _ => addBox_obj, fun _ => addBox_parent,
    { h.toSound.addBox hb hv hfind with
      dirty := h.dirty
      le := h.le
      notice := ⟨g, hg.lt, hg.update, hg.root, by rw [hat, hgcobj]; exact hg.at_or⟩
      self := by rw [hat, hgcobj]; exact h.self
      cut := fun x hx hnot => ?_ }⟩
  have hxlt : x < s.boxes := not_le.1 fun hge => hnot (.inr ⟨hge, hx⟩)
  obtain ⟨w, hw, hcut⟩ := h.cut x hxlt fun hl => hnot (.inl hl)
  refine ⟨w, hw, ?_, ?_, hat.symm ▸ hcut.le, ?_⟩
  · rw [addBox_gcobj hxlt, hgcobj, hat]
    exact hcut.notice
  · rw [addBox_obj hxlt]
    exact hcut.lt
  · rw [addBox_gcobj hxlt, hgcobj]
    exact hcut.gcobj

end AddBox

section Done

theorem getcacheWith_eq [DecidableEq ω] {update : Update κ ω} (h : Kept H live n why s) (hat : s.at H = n)
    (hb : live b) : getcacheWith H update b s = .done (s.cache b) s := by
  rw [getcacheWith]
  rcases hc : s.cache b with _ | l
  · dsimp only
    rw [getcobjWith_of_none (h.update_none hat hb), Result.done_andThen]
  · rfl

variable [DecidableEq κ] {s₁ : State κ ω}

theorem child_done (h : Kept H live n why s) (hb : live b) (hv : H.index (s.obj b) k = .userdata v) :
    ∃ c s', (child b k v ((s.cache b).getD []) s : Result (State κ ω) (Fault κ) (Answer κ α)) =
      .done (.box c) s' ∧ c < s'.boxes ∧ s'.obj c = v ∧ genkey s' c = genkey s' b ++ [k] ∧
        Extends H live n why s s' := by
  unfold child
  split
  · next e hfind =>
    obtain ⟨l, hl⟩ : ∃ l, s.cache b = some l := by
      rcases hc : s.cache b with _ | l
      · rw [hc] at hfind
        cases hfind
      · exact ⟨l, rfl⟩
    rw [hl, getD_some] at hfind ⊢
    have hk : e.1 = k := of_decide_eq_true (find?_some (p := fun e : κ × ℕ => decide (e.1 = k)) hfind)
    obtain ⟨hlive, hkey⟩ := h.child_genkey hb hl (mem_of_find?_eq_some hfind)
    have hobj := h.obj hlive
    rw [hkey, Host.tableAt_concat, h.obj hb, bind_some, hk, Host.child_userdata hv] at hobj
    have hsame : { s with cache := Function.update s.cache b (some l) } = s := by
      rw [← hl, update_eq_self]
    exact ⟨e.2, s, congrArg _ hsame, h.lt hlive, (some.inj hobj).symm, hk ▸ hkey, Extends.refl h⟩
  · next hfind =>
    exact ⟨s.boxes, addBox s b k v, rfl, Nat.lt_succ_self _, addBox_obj_new,
      by rw [addBox_genkey_new h.older (h.lt hb), addBox_genkey h.older (h.lt hb)],
      extends_addBox h hb hv hfind⟩

variable [DecidableEq ω]

theorem metaIndex_done {pairs : Order κ} (h : Kept H live n why s₁) (hat : s₁.at H = n) (hb : live b)
    (hget : getcobj H pairs calls b s = .done (s₁.obj b) s₁) :
    ∃ a s', metaIndex H pairs calls b k s = .done a s' ∧
      Shows s' b k (H.index (s₁.obj b) k) a ∧ Extends H live n why s₁ s' := by
  rw [metaIndex, hget, Result.done_andThen]
  cases hi : H.index (s₁.obj b) k with
  | nil => exact ⟨.nil, s₁, rfl, trivial, Extends.refl h⟩
  | value a => exact ⟨.value a, s₁, rfl, rfl, Extends.refl h⟩
  | userdata v =>
    dsimp only
    rw [getcacheWith_eq h hat hb, Result.done_andThen]
    obtain ⟨c, s', hc, hlt, hobj, hkey, hext⟩ := child_done h hb hi
    exact ⟨.box c, s', hc, ⟨hlt, hobj, hkey⟩, hext⟩

theorem gettable_of_field {pairs : Order κ} (hk : H.field k = none) :
    gettable H pairs calls b k s = metaIndex H pairs calls b k s := by
  rw [gettable, hk]

theorem read_done {pairs : Order κ} {r : Read κ} (h : Kept H live n why s₁) (hat : s₁.at H = n)
    (hb : live b) (hr : ∀ k, r = .index k → H.field k = none)
    (hget : getcobj H pairs calls b s = .done (s₁.obj b) s₁) :
    ∃ a s', read H pairs calls b r s = .done a s' ∧ Gives H s' b (s₁.obj b) r a ∧
      Extends H live n why s₁ s' := by
  cases r with
  | index k =>
    rw [read, gettable_of_field (hr k rfl)]
    exact metaIndex_done h hat hb hget
  | len =>
    rw [read, metaLen, hget]
    exact ⟨_, s₁, rfl, rfl, Extends.refl h⟩
  | next key =>
    rw [read, next, hget, Result.done_andThen]
    rcases hn : H.nextkey (s₁.obj b) key with _ | k
    · refine ⟨.nil, s₁, rfl, ?_, Extends.refl h⟩
      rw [Gives, hn]
    · have hget' : getcobj H pairs calls b s₁ = .done (s₁.obj b) s₁ :=
        getcobjWith_of_none (h.update_none hat hb)
      obtain ⟨v, s', hv, hshows, hext⟩ := metaIndex_done (k := k) h hat hb hget'
      refine ⟨.pair k v, s', ?_, ?_, hext⟩
      · dsimp only
        rw [gettable_of_field (H.nextkey_field hn), hv]
        rfl
      · rw [Gives, hn]
        exact ⟨v, rfl, hshows⟩

theorem read_raised {pairs : Order κ} {r : Read κ} {e : Fault κ}
    (hr : ∀ k, r = .index k → H.field k = none)
    (hget : getcobj H pairs calls b s = .raised e s₁) :
    read H pairs calls b r s = .raised e s₁ := by
  cases r with
  | index k => rw [read, gettable_of_field (hr k rfl), metaIndex, hget, Result.raised_andThen]
  | len => rw [read, metaLen, hget, Result.raised_andThen]
  | next key => rw [read, next, hget, Result.raised_andThen]

end Done

end Reads

/-- A run as it is seen: the version noticed last, the versions that the root has been moved to, and how
many of them there were when a box was got, but for the one it was got at. -/
structure Observed (κ ω : Type*) where
  state : State κ ω
  noticed : ℕ
  moves : List ℕ
  since : ℕ → ℕ

namespace Observed

variable [DecidableEq κ] [DecidableEq ω]

/-- The root is boxed in version `v`. -/
def start (v current : ℕ) : Observed κ ω := ⟨box H v current, v, [v], fun _ => 0⟩

def noticedBy (noticed : ℕ) : Event κ → ℕ
  | .notice v => v
  | _ => noticed

def observe (o : Observed κ ω) (e : Event κ) : Observed κ ω :=
  let s := step H e o.state
  let moves := if s.at H = o.state.at H then o.moves else o.moves ++ [s.at H]
  ⟨s, noticedBy o.noticed e, moves,
    fun b => if b < o.state.boxes then o.since b else moves.length - 1⟩

/-- The path of the box has a table in each version that the root was moved to since it was got. -/
def Stays (o : Observed κ ω) (b : ℕ) : Prop :=
  ∀ w ∈ o.moves.drop (o.since b), H.tableAt w (genkey o.state b) ≠ none

/-- Notices are of newer versions; no box is read that was cut off by an older one than the version
noticed last, and enough calls may be open. -/
def Orderly (o : Observed κ ω) : Event κ → Prop
  | .host => True
  | .notice v => o.noticed < v ∧ v ≤ o.state.current
  | .read _ calls b r => b < o.state.boxes ∧ o.state.boxes < calls ∧
    (∀ k, r = .index k → H.field k = none) ∧
    ∀ w ∈ o.moves.drop (o.since b), H.tableAt w (genkey o.state b) = none → w = o.noticed

def machine (v current : ℕ) : Machine (Observed κ ω) (Event κ) where
  init := start H v current
  step o e := some (o.observe H e)

/-- A read through a box whose path has stayed a table gives what the version noticed last has there, any
other is an error, and no box comes to an older version. -/
structure ReadsNewest (o : Observed κ ω) (stays : Prop) (pairs : Order κ) (calls b : ℕ) (r : Read κ) :
    Prop where
  newest : stays → ∀ obj, H.tableAt o.noticed (genkey o.state b) = some obj → ∃ a s,
    read H pairs calls b r o.state = .done a s ∧ Gives H s b obj r a
  gone : ¬ (stays ∧ H.tableAt o.noticed (genkey o.state b) ≠ none) → ∃ s,
    read H pairs calls b r o.state = .raised (.notExist (genkey o.state b)) s
  forward : ∀ x < o.state.boxes, H.version (o.state.obj x) ≤
    H.version (((read H pairs calls b r o.state).after o.state).obj x)

/-- The boxes in the caches are those whose paths have stayed tables. -/
structure Inv (o : Observed κ ω) : Prop where
  kept : Kept H (fun b => b < o.state.boxes ∧ o.Stays H b) o.noticed
    (fun b w => w ∈ o.moves.drop (o.since b) ∧ H.tableAt w (genkey o.state b) = none) o.state
  last : o.moves.getLast? = some (o.state.at H)
  since : ∀ b < o.state.boxes, o.since b < o.moves.length

variable {H} {o : Observed κ ω} {pairs : Order κ} {calls b : ℕ} {r : Read κ}

omit [DecidableEq κ] [DecidableEq ω] in
theorem version_le_moved {live : ℕ → Prop} {n g x : ℕ} {s : State κ ω} (h : Sound H live s)
    (hg : Notice H n g s) :
    H.version (s.obj x) ≤ H.version ((moved H live n g s fun _ => True).obj x) := by
  by_cases hx : live x → H.tableAt n (genkey s x) = none
  · rw [moved_obj_of_not fun hl _ => hx hl]
  · obtain ⟨hl, ho⟩ := Classical.not_imp.1 hx
    obtain ⟨obj, ho⟩ := ne_none_iff_exists'.1 ho
    rw [moved_obj hl trivial ho, Host.version_tableAt ho, Host.version_tableAt (h.obj hl)]
    exact hg.at_le

/-- The moves there have been once the root is at the version noticed last. -/
def moves' (H : Host κ α ω) (o : Observed κ ω) : List ℕ :=
  if o.noticed = o.state.at H then o.moves else o.moves ++ [o.noticed]

omit [DecidableEq κ] [DecidableEq ω] in
theorem Inv.mem_moves' (h : Inv H o) (hb : b < o.state.boxes) {w : ℕ} :
    w ∈ (o.moves' H).drop (o.since b) ↔ w ∈ o.moves.drop (o.since b) ∨ w = o.noticed := by
  have hlt := h.since b hb
  rw [moves']
  split_ifs with heq
  · refine ⟨.inl, fun hw => hw.elim id fun hw => ?_⟩
    rw [hw, heq]
    refine mem_of_getLast? ?_
    rw [getLast?_drop, if_neg (by omega)]
    exact h.last
  · rw [drop_append_of_le_length hlt.le, mem_append, mem_singleton]

omit [DecidableEq κ] [DecidableEq ω] in
theorem Inv.last_moves' (h : Inv H o) : (o.moves' H).getLast? = some o.noticed := by
  rw [moves']
  split_ifs with heq
  · rw [heq]
    exact h.last
  · exact getLast?_concat

/-- The boxes that are in the caches once the root is at the version noticed last. -/
def Comes (H : Host κ α ω) (o : Observed κ ω) (b : ℕ) : Prop :=
  (b < o.state.boxes ∧ o.Stays H b) ∧ H.tableAt o.noticed (genkey o.state b) ≠ none

theorem Inv.read (h : Inv H o) (hr : o.Orderly H (.read pairs calls b r)) : ∃ g s',
    Notice H o.noticed g o.state ∧
    Extends H (o.Comes H) o.noticed (fun x w => w ∈ (o.moves' H).drop (o.since x) ∧
      H.tableAt w (genkey o.state x) = none)
      (moved H (fun x => x < o.state.boxes ∧ o.Stays H x) o.noticed g o.state fun _ => True) s' ∧
    (o.Comes H b → ∀ obj, H.tableAt o.noticed (genkey o.state b) = some obj → ∃ a,
      read H pairs calls b r o.state = .done a s' ∧ Gives H s' b obj r a) ∧
    (¬ o.Comes H b → read H pairs calls b r o.state =
      .raised (.notExist (genkey o.state b)) s') := by
  obtain ⟨hb, hcalls, hfield, hold⟩ := hr
  obtain ⟨g, hg⟩ := h.kept.notice
  obtain ⟨hkept, -⟩ := h.kept.arrive hg (fun x w => x < o.state.boxes →
      w ∈ (o.moves' H).drop (o.since x) ∧ H.tableAt w (genkey o.state x) = none)
    (fun x w _ hw hx => ⟨(h.mem_moves' hx).2 (.inl hw.1), hw.2⟩)
    fun x hx hnone hlt => ⟨(h.mem_moves' hlt).2 (.inr rfl), hnone⟩
  have hkept₁ := hkept.congr (fun x => (Iff.rfl : _ ↔ o.Comes H x)) fun x hx _ w hw => hw hx
  have hat := Notice.at_moved (n := o.noticed) (g := g) h.kept.toSound
  refine ⟨g, ?_⟩
  by_cases hcomes : o.Comes H b
  · obtain ⟨obj, ho⟩ := ne_none_iff_exists'.1 hcomes.2
    have hget := getcobj_done h.kept hg pairs hcalls hcomes.1 ho
    have hobj : (moved H (fun x => x < o.state.boxes ∧ o.Stays H x) o.noticed g o.state
        fun _ => True).obj b = obj := moved_obj hcomes.1 trivial ho
    rw [← hobj] at hget
    obtain ⟨a, s', hrun, hgives, hext⟩ := read_done hkept₁ hat hcomes hfield hget
    refine ⟨s', hg, hext, fun _ obj' ho' => ⟨a, hrun, ?_⟩, fun hnot => absurd hcomes hnot⟩
    rwa [hobj, some.inj (ho.symm.trans ho')] at hgives
  · have hget := getcobj_raised h.kept hg pairs hcalls hb
      (fun hl => not_not.1 fun ho => hcomes ⟨hl, ho⟩) fun hl => by
        obtain ⟨w, ⟨hmem, hnone⟩, hcut⟩ := h.kept.cut b hb hl
        rwa [hold w hmem hnone] at hcut
    exact ⟨_, hg, Extends.refl hkept₁, fun hc => absurd hc hcomes,
      fun _ => read_raised hfield hget⟩

theorem Inv.after (h : Inv H o) (hr : o.Orderly H (.read pairs calls b r)) : ∃ g s',
    Notice H o.noticed g o.state ∧ (Corelib.read H pairs calls b r o.state).after o.state = s' ∧
    Extends H (o.Comes H) o.noticed (fun x w => w ∈ (o.moves' H).drop (o.since x) ∧
      H.tableAt w (genkey o.state x) = none)
      (moved H (fun x => x < o.state.boxes ∧ o.Stays H x) o.noticed g o.state fun _ => True) s' := by
  obtain ⟨g, s', hg, hext, hdone, hraised⟩ := h.read hr
  refine ⟨g, s', hg, ?_, hext⟩
  by_cases hcomes : o.Comes H b
  · obtain ⟨obj, ho⟩ := ne_none_iff_exists'.1 hcomes.2
    obtain ⟨a, hrun, -⟩ := hdone hcomes obj ho
    rw [hrun, Result.after_done]
  · rw [hraised hcomes, Result.after_raised]

theorem Inv.observe_read (h : Inv H o) (hr : o.Orderly H (.read pairs calls b r)) :
    Inv H (o.observe H (.read pairs calls b r)) := by
  obtain ⟨g, s', hg, hafter, hext⟩ := h.after hr
  have hzero := h.kept.lt h.kept.root
  have hat : s'.at H = o.noticed := by
    rw [State.at, hext.obj 0 hzero]
    exact Notice.at_moved h.kept.toSound
  have ho' : o.observe H (.read pairs calls b r) = ⟨s', o.noticed, o.moves' H,
      fun x => if x < o.state.boxes then o.since x else (o.moves' H).length - 1⟩ := by
    rw [observe, step, hafter, hat]
    rfl
  have hlast := h.last_moves'
  have hlen : 0 < (o.moves' H).length := length_pos_of_ne_nil fun hnil => by
    rw [hnil] at hlast
    cases hlast
  have hkey : ∀ x < o.state.boxes, genkey s' x = genkey o.state x := fun x hx =>
    hext.genkey h.kept.older hx
  rw [ho']
  refine ⟨hext.kept.congr (fun x => ?_) fun x hx hnot w hw => ?_, hlast.trans (congrArg some hat.symm),
    fun x hx => ?_⟩
  · dsimp only
    by_cases hx : x < o.state.boxes
    · have hlt : x < s'.boxes := hx.trans_le hext.le
      rw [Stays]
      dsimp only
      rw [if_pos hx, hkey x hx]
      refine ⟨fun hc => ?_, fun hs => .inl ⟨⟨hx, fun w hw => ?_⟩, ?_⟩⟩
      · obtain ⟨hc, ho⟩ := hc.resolve_right fun hge => absurd hx (not_lt.2 hge.1)
        refine ⟨hlt, fun w hw => ?_⟩
        rcases (h.mem_moves' hx).1 hw with hw | rfl
        · exact hc.2 w hw
        · exact ho
      · exact hs.2 w ((h.mem_moves' hx).2 (.inl hw))
      · exact hs.2 o.noticed ((h.mem_moves' hx).2 (.inr rfl))
    · rw [Stays]
      dsimp only
      rw [if_neg hx]
      refine ⟨fun hc => ?_, fun hs => .inr ⟨not_lt.1 hx, hs.1⟩⟩
      have hnew := hc.resolve_left fun hc => hx hc.1.1
      refine ⟨hnew.2, fun w hw => ?_⟩
      obtain rfl : w = o.noticed := by
        have hne := ne_nil_of_length_pos hlen
        rw [drop_length_sub_one hne, mem_singleton] at hw
        rw [getLast?_eq_some_getLast hne, some.injEq] at hlast
        exact hw.trans hlast
      rw [← hat, hext.kept.obj hc]
      exact some_ne_none _
  · have hx' : x < o.state.boxes := not_le.1 fun hge => hnot (.inr ⟨hge, hx⟩)
    dsimp only
    rw [if_pos hx', hkey x hx']
    exact hw
  · dsimp only
    split_ifs with hx'
    · have := h.since x hx'
      rw [moves']
      split_ifs
      · exact this
      · rw [length_append]
        omega
    · omega

theorem Inv.observe_quiet (h : Inv H o) {e : Event κ} (hobj : (step H e o.state).obj = o.state.obj)
    (hparent : (step H e o.state).parent = o.state.parent)
    (hboxes : (step H e o.state).boxes = o.state.boxes)
    (hkept : Kept H (fun b => b < o.state.boxes ∧ o.Stays H b) (noticedBy o.noticed e)
      (fun b w => w ∈ o.moves.drop (o.since b) ∧ H.tableAt w (genkey o.state b) = none)
      (step H e o.state)) : Inv H (o.observe H e) := by
  have hat : (step H e o.state).at H = o.state.at H := by rw [State.at, hobj, State.at]
  have hkey : genkey (step H e o.state) = genkey o.state := by
    funext b
    rw [genkey, hparent, genkey]
  have ho' : o.observe H e = ⟨step H e o.state, noticedBy o.noticed e, o.moves,
      fun x => if x < o.state.boxes then o.since x else o.moves.length - 1⟩ := by
    simp only [observe, hat, if_true]
  rw [ho']
  refine ⟨hkept.congr (fun x => ?_) fun x hx _ w hw => ?_, h.last.trans (congrArg some hat.symm),
    fun x hx => ?_⟩
  · dsimp only [Stays]
    rw [hboxes, hkey]
    refine and_congr_right fun hx => ?_
    rw [if_pos hx]
  · dsimp only
    rw [if_pos (hboxes ▸ hx), hkey]
    exact hw
  · dsimp only at hx ⊢
    rw [if_pos (hboxes ▸ hx)]
    exact h.since x (hboxes ▸ hx)

theorem Inv.observe_host (h : Inv H o) : Inv H (o.observe H .host) := by
  obtain ⟨g, hg⟩ := h.kept.notice
  refine h.observe_quiet rfl rfl rfl { h.kept with
    linked := h.kept.linked
    cached := h.kept.cached
    dirty := fun v => ?_
    le := h.kept.le.trans (Nat.le_succ _)
    notice := ⟨g, hg.lt, hg.update, hg.root, hg.at_or⟩
    cut := fun b hb hnot => ?_ }
  · have := h.kept.dirty v
    change Function.update o.state.dirty o.state.current true v = true ↔ v < o.state.current + 1
    by_cases hv : v = o.state.current
    · rw [hv, update_self]
      exact iff_of_true rfl (Nat.lt_succ_self _)
    · rw [update_of_ne hv, this]
      exact ⟨fun h => h.trans (Nat.lt_succ_self _), fun h => (Nat.lt_succ_iff.1 h).lt_of_ne hv⟩
  · obtain ⟨w, hw, hcut⟩ := h.kept.cut b hb hnot
    exact ⟨w, hw, hcut.notice, hcut.lt, hcut.le, hcut.gcobj⟩

theorem Inv.observe_notice (h : Inv H o) {v : ℕ} (hlt : o.noticed < v) (hle : v ≤ o.state.current) :
    Inv H (o.observe H (.notice v)) := by
  obtain ⟨g, hg⟩ := h.kept.notice
  have hdirty : o.state.dirty (H.version (o.state.obj 0)) = true :=
    (h.kept.dirty _).2 (hg.at_le.trans_lt (hlt.trans_le hle))
  have hroot : o.state.root (o.state.gcobj 0) ≠ H.conf v := fun heq => by
    have hv := congrArg H.version (h.kept.self.symm.trans heq)
    rw [H.version_conf, H.version_conf] at hv
    exact absurd hg.at_le (by omega)
  have hne : o.state.gcobj 0 ≠ o.state.ctrls := (hg.gcobj_le.trans_lt hg.lt).ne
  have hs' : step H (.notice v) o.state = { o.state with
      ctrls := o.state.ctrls + 1
      root := Function.update o.state.root o.state.ctrls (H.conf v)
      update := Function.update (Function.update o.state.update o.state.ctrls none)
        (o.state.gcobj 0) (some (H.conf v, o.state.ctrls)) } := by
    rw [step, confUpdate, if_pos hdirty]
    dsimp only
    rw [if_neg hroot, Result.after_done]
  refine h.observe_quiet (by rw [hs']) (by rw [hs']) (by rw [hs']) ?_
  rw [hs']
  refine { h.kept with
    linked := h.kept.linked
    cached := h.kept.cached
    le := hle
    notice := ⟨o.state.ctrls, Nat.lt_succ_self _, ?_, update_self _ _ _,
      .inr ⟨hg.at_le.trans_lt hlt, hg.gcobj_le.trans_lt hg.lt, update_self _ _ _⟩⟩
    self := (update_of_ne hne _ _).trans h.kept.self
    cut := fun b hb hnot => ?_ }
  · exact (update_of_ne hne.symm _ _).trans (update_self _ _ _)
  · obtain ⟨w, hw, hcut⟩ := h.kept.cut b hb hnot
    refine ⟨w, hw, ?_, hcut.lt, hcut.le, hcut.gcobj⟩
    obtain ⟨g', hupdate, hg'⟩ := hcut.notice
    refine ⟨g', ?_, hg'⟩
    have hbg := hcut.gcobj
    have hlow := hbg.trans (hg.gcobj_le.trans_lt hg.lt)
    exact (update_of_ne hbg.ne _ _).trans ((update_of_ne hlow.ne _ _).trans hupdate)

omit [DecidableEq κ] [DecidableEq ω] in
theorem inv_start {v current : ℕ} (hle : v ≤ current) :
    Inv H (start H v current : Observed κ ω) where
  kept :=
    { older := ⟨rfl, fun b hb hne => absurd (Nat.lt_one_iff.1 hb) hne⟩
      root := ⟨Nat.one_pos, fun w hw => some_ne_none _⟩
      lt := fun hb => hb.1
      linked := fun _ hp => by cases hp
      cached := fun _ hl => by cases hl
      nodup := fun _ hl => by cases hl
      obj := fun {b} hb => by
        obtain rfl : b = 0 := Nat.lt_one_iff.1 hb.1
        exact congrArg (H.tableAt · []) (H.version_conf v)
      gcobj := fun _ => rfl
      dirty := fun w => decide_eq_true_iff
      le := hle
      notice := ⟨0, Nat.one_pos, rfl, rfl, .inl ⟨H.version_conf v, rfl⟩⟩
      self := congrArg H.conf (H.version_conf v).symm
      cut := fun b hb hnot => absurd ⟨hb, fun w hw => by
        obtain rfl : b = 0 := Nat.lt_one_iff.1 hb
        exact some_ne_none _⟩ hnot }
  last := congrArg some (H.version_conf v).symm
  since _ _ := Nat.one_pos

/-- In a run without reads of boxes that were cut off by an older version than the one noticed last, a
read gives what the newest version noticed has at the path of the box, if that has been a table in every
version that the root was moved to, and is an error otherwise. -/
theorem reads_newest {v current : ℕ} (hle : v ≤ current)
    (ho : (machine H v current).Reach (fun o e => o.Orderly H e) o)
    (hr : o.Orderly H (.read pairs calls b r)) : o.ReadsNewest H (o.Stays H b) pairs calls b r := by
  have h : Inv H o := ho.invariant (inv_start hle) fun o e o' h hok hst => by
    obtain rfl := Option.some.inj hst
    cases e with
    | host => exact h.observe_host
    | notice v => exact h.observe_notice hok.1 hok.2
    | read pairs calls b r => exact h.observe_read hok
  refine ⟨fun hs obj ho => ?_, fun hnot => ?_, fun x hx => ?_⟩
  · obtain ⟨g, s', -, -, hdone, -⟩ := h.read hr
    obtain ⟨a, hrun, hgives⟩ := hdone ⟨⟨hr.1, hs⟩, by rw [ho]; exact Option.some_ne_none _⟩ obj ho
    exact ⟨a, s', hrun, hgives⟩
  · obtain ⟨g, s', -, -, -, hraised⟩ := h.read hr
    exact ⟨s', hraised fun hc => hnot ⟨hc.1.2, hc.2⟩⟩
  · obtain ⟨g, s', hg, hafter, hext⟩ := h.after hr
    rw [hafter, hext.obj x hx]
    exact version_le_moved h.kept.toSound hg

end Observed

section Examples

/-- Three versions, or more, with a table at the key 0 in all of them but version 1; 9 is the name of a
field. -/
def tables : Host ℕ ℕ (ℕ × ℕ) where
  conf v := (v, 0)
  version := Prod.fst
  index o k := if o.2 = 0 ∧ k = 0 ∧ o.1 ≠ 1 then .userdata (o.1, 1) else .nil
  len _ := 0
  nextkey _ _ := none
  field k := if k = 9 then some .own else none
  version_conf _ := rfl
  version_index {o k o'} h := by
    split_ifs at h
    rw [← (Entry.userdata.inj h)]
  index_field {o k} h := by
    have hk : k = 9 := by
      by_contra hne
      exact h (if_neg hne)
    exact if_neg fun hand => absurd (hk ▸ hand.2.1) (by decide)
  nextkey_field h := by cases h

def inOrder : Order ℕ := ⟨id, fun l => .refl l⟩

def readBox (b : ℕ) (r : Read ℕ) : Event ℕ := .read inOrder 5 b r

/-- The root is boxed in version 0, and this happens. -/
def happens (es : List (Event ℕ)) : Observed ℕ (ℕ × ℕ) :=
  es.foldl (Observed.observe tables) (Observed.start tables 0 0)

/-- The path of the box has had a table in each version from the one it was got at. -/
def TableSince (o : Observed ℕ (ℕ × ℕ)) (b : ℕ) : Prop :=
  ∀ w, o.moves.getD (o.since b) 0 ≤ w → w ≤ o.noticed → tables.tableAt w (genkey o.state b) ≠ none

/-- The table at 0 is boxed, and each version noticed by the root at once. -/
def cutOff : Observed ℕ (ℕ × ℕ) := happens [readBox 0 (.index 0), .host, .notice 1, readBox 0 .len,
  .host, .notice 2, readBox 0 .len]

/-- The table at 0 is boxed, and version 2 is there before anything is read. -/
def overtaken : Observed ℕ (ℕ × ℕ) :=
  happens [readBox 0 (.index 0), .host, .notice 1, .host, .notice 2]

/-- A box that was cut off takes the root back; a box whose path was no table for a while may be read
unless the root was moved to such a version; and the fields of a box are no keys. -/
theorem not_readsNewest :
    ¬ cutOff.ReadsNewest tables (TableSince cutOff 1) inOrder 5 1 .len ∧
    ¬ overtaken.ReadsNewest tables (TableSince overtaken 1) inOrder 5 1 .len ∧
    ¬ (happens []).ReadsNewest tables (TableSince (happens []) 0) inOrder 5 0 (.index 9) := by
  refine ⟨fun h => ?_, fun h => ?_, fun h => ?_⟩
  · exact absurd (h.forward 0 (by decide)) (by decide)
  · obtain ⟨s, hs⟩ := h.gone fun hs => hs.1 1 (by decide) (by decide) rfl
    have hdone : (read tables inOrder 5 1 .len overtaken.state).isDone = true := by decide
    rw [hs] at hdone
    cases hdone
  · obtain ⟨a, s, hrun, hgives⟩ := h.newest (fun w _ _ => Option.some_ne_none _) (0, 0) rfl
    obtain ⟨rfl, rfl⟩ := Result.done.inj hrun
    exact hgives

/-- A sub-table is got in version 0, and version 2 is noticed next. -/
def later : Observed ℕ (ℕ × ℕ) := happens [readBox 0 (.index 0), .host, .host, .notice 2]

theorem reads_newest_later :
    later.ReadsNewest tables (later.Stays tables 1) inOrder 5 1 .len := by
  have hread : (happens []).Orderly tables (readBox 0 (.index 0)) := by
    refine ⟨by decide, by decide, fun k hk => ?_, by decide⟩
    obtain rfl := Read.index.inj hk
    rfl
  have hrun : (Observed.machine tables 0 0).Reach (fun o e => o.Orderly tables e) later :=
    ((((Machine.Reach.init.step hread rfl).step trivial rfl).step trivial rfl).step
      (i := .notice 2) ⟨by decide, by decide⟩ rfl)
  have hlen : later.Orderly tables (readBox 1 .len) := by
    refine ⟨by decide, by decide, fun k hk => ?_, by decide⟩
    cases hk
  exact Observed.reads_newest (le_refl 0) hrun hlen

end Examples

end Corelib

end SkynetGame
