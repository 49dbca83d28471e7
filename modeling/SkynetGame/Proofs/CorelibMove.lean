import Mathlib.Data.List.Nodup
import SkynetGame.Corelib

/-!
# Moving the tree of boxes (`lualib/sharedata/corelib.lua`)

The boxes in the caches have the tables at their paths (`Sound`). Moving the root moves each of them
that has a table in the new version, whatever the order of the caches, cuts the others off, and changes
nothing else (`update_moved`). A box that was cut off finds the notice of the version that did it: to
read it is an error, and moves the tree to where it is as long as nothing newer has been noticed
(`getcobj_raised`).
-/

namespace SkynetGame

open List

namespace Corelib

variable {κ α ω : Type*}

namespace Host

variable (H : Host κ α ω)

def child (o : ω) (k : κ) : Option ω :=
  match H.index o k with
  | .userdata o' => some o'
  | _ => none

def walk : ω → List κ → Option ω
  | o, [] => some o
  | o, k :: p => (H.child o k).bind fun o' => walk o' p

def tableAt (v : ℕ) (p : List κ) : Option ω := H.walk (H.conf v) p

variable {H}

theorem child_userdata {o o' : ω} {k : κ} (h : H.index o k = .userdata o') :
    H.child o k = some o' := by
  rw [child, h]

theorem child_eq_some {o o' : ω} {k : κ} (h : H.child o k = some o') :
    H.index o k = .userdata o' := by
  unfold child at h
  split at h
  · next hi => rw [hi, Option.some.inj h]
  · cases h

theorem walk_append (p q : List κ) (o : ω) :
    H.walk o (p ++ q) = (H.walk o p).bind fun o' => H.walk o' q := by
  induction p generalizing o with
  | nil => rfl
  | cons k p ih =>
    rw [cons_append, walk, walk, Option.bind_assoc]
    exact congrArg _ (funext ih)

theorem tableAt_concat {v : ℕ} (p : List κ) (k : κ) :
    H.tableAt v (p ++ [k]) = (H.tableAt v p).bind fun o => H.child o k := by
  rw [tableAt, walk_append]
  refine congrArg _ (funext fun o => ?_)
  exact Option.bind_fun_some _

theorem tableAt_of_prefix {v : ℕ} {p q : List κ} (hpq : p <+: q) (h : H.tableAt v q ≠ none) :
    H.tableAt v p ≠ none := by
  obtain ⟨t, rfl⟩ := hpq
  intro hp
  refine h ?_
  rw [tableAt, walk_append, ← tableAt, hp]
  rfl

theorem version_walk {p : List κ} {o o' : ω} (h : H.walk o p = some o') :
    H.version o' = H.version o := by
  induction p generalizing o with
  | nil => rw [Option.some.inj h]
  | cons k p ih =>
    obtain ⟨o₁, ho₁, hw⟩ := Option.bind_eq_some_iff.1 h
    rw [ih hw, H.version_index (child_eq_some ho₁)]

theorem version_tableAt {v : ℕ} {p : List κ} {o : ω} (h : H.tableAt v p = some o) :
    H.version o = v := by
  rw [version_walk h, H.version_conf]

end Host

section Chain

variable {parent parent' : ℕ → Option (ℕ × κ)} {n b : ℕ}

/-- Boxes have parents from before them. -/
def Older (n : ℕ) (parent : ℕ → Option (ℕ × κ)) : Prop :=
  parent 0 = none ∧ ∀ b < n, b ≠ 0 → ∃ p k, parent b = some (p, k) ∧ p < b

theorem findrootIn_eq (h : Older n parent) : ∀ {m b : ℕ}, b ≤ m → b < n →
    findrootIn parent m b = 0
  | 0, b, hm, _ => Nat.le_zero.1 hm
  | m + 1, b, hm, hb => by
    rw [findrootIn]
    by_cases hz : b = 0
    · rw [hz, h.1]
    · obtain ⟨p, k, hp, hlt⟩ := h.2 b hb hz
      simp only [hp]
      exact findrootIn_eq h (by omega) (by omega)

theorem genkeyIn_fuel (h : Older n parent) : ∀ {m l b : ℕ}, b ≤ m → b ≤ l → b < n →
    genkeyIn parent m b = genkeyIn parent l b
  | 0, l, b, hm, _, _ => by
    obtain rfl := Nat.le_zero.1 hm
    cases l with
    | zero => rfl
    | succ l => rw [genkeyIn, genkeyIn, h.1]
  | m + 1, 0, b, _, hm', _ => by
    obtain rfl := Nat.le_zero.1 hm'
    rw [genkeyIn, genkeyIn, h.1]
  | m + 1, l + 1, b, hm, hm', hb => by
    by_cases hz : b = 0
    · rw [hz, genkeyIn, genkeyIn, h.1]
    · obtain ⟨p, k, hp, hlt⟩ := h.2 b hb hz
      simp only [genkeyIn, hp]
      rw [genkeyIn_fuel h (m := m) (l := l) (by omega) (by omega) (by omega)]

theorem genkeyIn_congr (h : Older n parent) (hsame : ∀ b < n, parent' b = parent b) :
    ∀ {m b : ℕ}, b < n → genkeyIn parent' m b = genkeyIn parent m b
  | 0, _, _ => rfl
  | m + 1, b, hb => by
    rw [genkeyIn, genkeyIn, hsame b hb]
    by_cases hz : b = 0
    · rw [hz, h.1]
    · obtain ⟨p, k, hp, hlt⟩ := h.2 b hb hz
      simp only [hp]
      rw [genkeyIn_congr h hsame (by omega)]

theorem length_genkeyIn : ∀ {m b : ℕ}, (genkeyIn parent m b).length ≤ m
  | 0, _ => le_rfl
  | m + 1, b => by
    rw [genkeyIn]
    split
    · next p k _ =>
      rw [length_append, length_singleton]
      exact Nat.succ_le_succ length_genkeyIn
    · exact Nat.zero_le _

end Chain

variable (H : Host κ α ω)

def State.at (s : State κ ω) : ℕ := H.version (s.obj 0)

/-- The boxes of `live` are those that are in the caches, each once, and each has the table at its
path and the `ctrl` of the root. -/
structure Sound (live : ℕ → Prop) (s : State κ ω) : Prop where
  older : Older s.boxes s.parent
  root : live 0
  lt : ∀ {b}, live b → b < s.boxes
  linked : ∀ {b p k}, live b → s.parent b = some (p, k) →
    live p ∧ ∃ l, s.cache p = some l ∧ (k, b) ∈ l
  cached : ∀ {p l e}, live p → s.cache p = some l → e ∈ l → live e.2 ∧ s.parent e.2 = some (p, e.1)
  nodup : ∀ {p l}, live p → s.cache p = some l → (l.map Prod.fst).Nodup
  obj : ∀ {b}, live b → H.tableAt (s.at H) (genkey s b) = some (s.obj b)
  gcobj : ∀ {b}, live b → s.gcobj b = s.gcobj 0

/-- The boxes from `b` down. -/
def Below (live : ℕ → Prop) (s : State κ ω) (b x : ℕ) : Prop :=
  live x ∧ genkey s b <+: genkey s x

section Sound

variable {H} {live : ℕ → Prop} {s : State κ ω} {b c p x : ℕ} {k : κ}

theorem genkey_zero (s : State κ ω) : genkey s 0 = [] := rfl

theorem genkey_child (h : Older s.boxes s.parent) (hb : b < s.boxes) (hp : s.parent b = some (p, k)) :
    genkey s b = genkey s p ++ [k] := by
  have hz : b ≠ 0 := by
    rintro rfl
    rw [h.1] at hp
    cases hp
  obtain ⟨p', k', hp', hlt⟩ := h.2 b hb hz
  obtain ⟨rfl, rfl⟩ : p' = p ∧ k' = k := by simpa [hp'] using hp
  obtain ⟨n, rfl⟩ := Nat.exists_eq_succ_of_ne_zero hz
  rw [genkey, genkeyIn, hp']
  exact congrArg (· ++ [k']) (genkeyIn_fuel h (by omega) le_rfl (by omega))

theorem findroot_eq (h : Older s.boxes s.parent) (hb : b < s.boxes) : findroot s b = 0 :=
  findrootIn_eq h le_rfl hb

namespace Sound

variable (h : Sound H live s)

include h

theorem child_genkey {l : List (κ × ℕ)} {e : κ × ℕ} (hb : live b) (hl : s.cache b = some l)
    (he : e ∈ l) : live e.2 ∧ genkey s e.2 = genkey s b ++ [e.1] := by
  obtain ⟨hc, hp⟩ := h.cached hb hl he
  exact ⟨hc, genkey_child h.older (h.lt hc) hp⟩

theorem parent_cases (hb : live b) : b = 0 ∨ ∃ p k l, live p ∧ p < b ∧ s.cache p = some l ∧
    (k, b) ∈ l ∧ genkey s b = genkey s p ++ [k] := by
  rcases Nat.eq_zero_or_pos b with hz | hpos
  · exact .inl hz
  · obtain ⟨p, k, hp, hlt⟩ := h.older.2 b (h.lt hb) (by omega)
    obtain ⟨hlive, l, hl, hmem⟩ := h.linked hb hp
    exact .inr ⟨p, k, l, hlive, hlt, hl, hmem, genkey_child h.older (h.lt hb) hp⟩

theorem key_unique {l : List (κ × ℕ)} {e e' : κ × ℕ} (hb : live b) (hl : s.cache b = some l)
    (he : e ∈ l) (he' : e' ∈ l) (hk : e.1 = e'.1) : e = e' :=
  inj_on_of_nodup_map (h.nodup hb hl) he he' hk

theorem genkey_inj : ∀ {b c : ℕ}, live b → live c → genkey s b = genkey s c → b = c := by
  intro b
  induction b using Nat.strong_induction_on with
  | _ b ih =>
    intro c hb hc heq
    rcases h.parent_cases hb with rfl | ⟨p, k, l, hp, hlt, hl, hmem, hkey⟩
    · rcases h.parent_cases hc with rfl | ⟨q, k', l', -, -, -, -, hkey'⟩
      · rfl
      · rw [genkey_zero, hkey'] at heq
        exact absurd heq.symm (append_ne_nil_of_right_ne_nil _ (cons_ne_nil _ _))
    · rcases h.parent_cases hc with rfl | ⟨q, k', l', hq, -, hl', hmem', hkey'⟩
      · rw [genkey_zero, hkey] at heq
        exact absurd heq (append_ne_nil_of_right_ne_nil _ (cons_ne_nil _ _))
      · rw [hkey, hkey'] at heq
        obtain ⟨hpq, hkk⟩ := append_inj' heq rfl
        obtain rfl := ih p hlt hp hq hpq
        obtain rfl := Option.some.inj (hl.symm.trans hl')
        exact congrArg Prod.snd (h.key_unique hp hl hmem hmem' (singleton_inj.1 hkk))

theorem below_cases : ∀ {x : ℕ}, Below live s b x → live b → x = b ∨
    ∃ l e, s.cache b = some l ∧ e ∈ l ∧ Below live s e.2 x := by
  intro x
  induction x using Nat.strong_induction_on with
  | _ x ih =>
    rintro ⟨hx, hpre⟩ hb
    rcases h.parent_cases hx with rfl | ⟨p, k, l, hp, hlt, hl, hmem, hkey⟩
    · rw [genkey_zero] at hpre
      exact .inl (h.genkey_inj h.root hb (prefix_nil.1 hpre).symm)
    · rw [hkey] at hpre
      rcases prefix_concat_iff.1 hpre with heq | hpre
      · exact .inl (h.genkey_inj hx hb (hkey.trans heq.symm))
      · right
        rcases ih p hlt ⟨hp, hpre⟩ hb with rfl | ⟨l', e, hl', he, hbelow⟩
        · exact ⟨l, (k, x), hl, hmem, hx, prefix_rfl⟩
        · exact ⟨l', e, hl', he, hx, hbelow.2.trans (hkey ▸ prefix_append _ _)⟩

theorem below_child {l : List (κ × ℕ)} {e : κ × ℕ} (hb : live b) (hl : s.cache b = some l)
    (he : e ∈ l) (hx : Below live s e.2 x) : Below live s b x ∧ x ≠ b := by
  obtain ⟨-, hkey⟩ := h.child_genkey hb hl he
  have hpre := hx.2
  rw [hkey] at hpre
  refine ⟨⟨hx.1, (prefix_append _ _).trans hpre⟩, ?_⟩
  rintro rfl
  have := hpre.length_le
  rw [length_append, length_singleton] at this
  omega

theorem below_disjoint {l : List (κ × ℕ)} {e e' : κ × ℕ} (hb : live b) (hl : s.cache b = some l)
    (he : e ∈ l) (he' : e' ∈ l) (hx : Below live s e.2 x) (hx' : Below live s e'.2 x) : e = e' := by
  have hpre := hx.2
  have hpre' := hx'.2
  rw [(h.child_genkey hb hl he).2] at hpre
  rw [(h.child_genkey hb hl he').2] at hpre'
  have heq := prefix_of_prefix_length_le hpre hpre' (by simp)
  have := heq.eq_of_length (by simp)
  exact h.key_unique hb hl he he' (singleton_inj.1 (append_cancel_left this))

end Sound

end Sound

section Moved

open Classical in
/-- What is left of a cache, where the children in `P` without a table in version `n` are cut off. -/
noncomputable def left (n : ℕ) (s : State κ ω) (P : ℕ → Prop) (l : List (κ × ℕ)) : List (κ × ℕ) :=
  l.filter fun e => ¬ (P e.2 ∧ H.tableAt n (genkey s e.2) = none)

open Classical in
/-- The boxes of `live` that are in `P` and have a table in version `n` are moved to it, and the others
are cut off. -/
noncomputable def moved (live : ℕ → Prop) (n g : ℕ) (s : State κ ω) (P : ℕ → Prop) : State κ ω :=
  { s with
    obj := fun b => if live b ∧ P b then (H.tableAt n (genkey s b)).getD (s.obj b) else s.obj b
    gcobj := fun b => if live b ∧ P b ∧ H.tableAt n (genkey s b) ≠ none then g else s.gcobj b
    cache := fun b => if live b ∧ H.tableAt n (genkey s b) ≠ none then
      (s.cache b).map (left H n s P) else s.cache b }

variable {H} {live P Q : ℕ → Prop} {s : State κ ω} {n g b c p x : ℕ} {k : κ} {o : ω}
  {l : List (κ × ℕ)} {e : κ × ℕ}

theorem mem_left : e ∈ left H n s P l ↔ e ∈ l ∧ (P e.2 → H.tableAt n (genkey s e.2) ≠ none) := by
  classical
  rw [left, mem_filter, decide_eq_true_eq, not_and]

theorem left_congr (h : ∀ e ∈ l, H.tableAt n (genkey s e.2) = none → (P e.2 ↔ Q e.2)) :
    left H n s P l = left H n s Q l := by
  classical
  refine filter_congr fun e he => decide_eq_decide.2 (not_congr ?_)
  exact and_congr_left (h e he)

theorem left_eq_self (h : ∀ e ∈ l, P e.2 → H.tableAt n (genkey s e.2) ≠ none) :
    left H n s P l = l := by
  classical
  exact filter_eq_self.2 fun e he => decide_eq_true (not_and.2 (h e he))

theorem moved_obj (hb : live b) (hP : P b) (ho : H.tableAt n (genkey s b) = some o) :
    (moved H live n g s P).obj b = o := by
  dsimp only [moved]
  rw [if_pos ⟨hb, hP⟩, ho, Option.getD_some]

theorem moved_obj_of_not (h : live b → P b → H.tableAt n (genkey s b) = none) :
    (moved H live n g s P).obj b = s.obj b := by
  dsimp only [moved]
  split_ifs with hb
  · rw [h hb.1 hb.2, Option.getD_none]
  · rfl

theorem moved_gcobj (hb : live b) (hP : P b) (ho : H.tableAt n (genkey s b) ≠ none) :
    (moved H live n g s P).gcobj b = g := if_pos ⟨hb, hP, ho⟩

theorem moved_gcobj_of_not (h : live b → P b → H.tableAt n (genkey s b) = none) :
    (moved H live n g s P).gcobj b = s.gcobj b := if_neg fun hb => hb.2.2 (h hb.1 hb.2.1)

theorem moved_cache (hb : live b) (ho : H.tableAt n (genkey s b) ≠ none) :
    (moved H live n g s P).cache b = (s.cache b).map (left H n s P) := if_pos ⟨hb, ho⟩

theorem moved_cache_of_not (h : live b → H.tableAt n (genkey s b) = none) :
    (moved H live n g s P).cache b = s.cache b := if_neg fun hb => hb.2 (h hb.1)

theorem moved_obj_congr (h : live b → H.tableAt n (genkey s b) ≠ none → (P b ↔ Q b)) :
    (moved H live n g s P).obj b = (moved H live n g s Q).obj b := by
  by_cases hmoved : live b ∧ H.tableAt n (genkey s b) ≠ none
  · obtain ⟨hb, ho⟩ := hmoved
    obtain ⟨o, hsome⟩ := Option.ne_none_iff_exists'.1 ho
    by_cases hP : P b
    · rw [moved_obj hb hP hsome, moved_obj hb ((h hb ho).1 hP) hsome]
    · rw [moved_obj_of_not fun _ h => absurd h hP,
        moved_obj_of_not fun _ hP' => absurd ((h hb ho).2 hP') hP]
  · have hnot := fun hb : live b => not_not.1 fun ho => hmoved ⟨hb, ho⟩
    rw [moved_obj_of_not fun hb _ => hnot hb, moved_obj_of_not fun hb _ => hnot hb]

theorem moved_gcobj_congr (h : live b → H.tableAt n (genkey s b) ≠ none → (P b ↔ Q b)) :
    (moved H live n g s P).gcobj b = (moved H live n g s Q).gcobj b := by
  by_cases hmoved : live b ∧ H.tableAt n (genkey s b) ≠ none
  · obtain ⟨hb, ho⟩ := hmoved
    by_cases hP : P b
    · rw [moved_gcobj hb hP ho, moved_gcobj hb ((h hb ho).1 hP) ho]
    · rw [moved_gcobj_of_not fun _ h => absurd h hP,
        moved_gcobj_of_not fun _ hP' => absurd ((h hb ho).2 hP') hP]
  · have hnot := fun hb : live b => not_not.1 fun ho => hmoved ⟨hb, ho⟩
    rw [moved_gcobj_of_not fun hb _ => hnot hb, moved_gcobj_of_not fun hb _ => hnot hb]

theorem moved_cache_congr (h : ∀ l, s.cache b = some l → live b → H.tableAt n (genkey s b) ≠ none →
      ∀ e ∈ l, H.tableAt n (genkey s e.2) = none → (P e.2 ↔ Q e.2)) :
    (moved H live n g s P).cache b = (moved H live n g s Q).cache b := by
  by_cases hb : live b → H.tableAt n (genkey s b) = none
  · rw [moved_cache_of_not hb, moved_cache_of_not hb]
  · obtain ⟨hl, ho⟩ := Classical.not_imp.1 hb
    rw [moved_cache hl ho, moved_cache hl ho]
    exact Option.map_congr fun l hc => left_congr (h l hc hl ho)

theorem moved_congr (h : Sound H live s) (hP : ∀ b, live b → (P b ↔ Q b)) :
    moved H live n g s P = moved H live n g s Q := by
  refine State.ext rfl rfl rfl rfl rfl rfl (funext fun b => ?_) (funext fun b => ?_) rfl
    (funext fun b => ?_)
  · exact moved_obj_congr fun hb _ => hP b hb
  · exact moved_gcobj_congr fun hb _ => hP b hb
  · exact moved_cache_congr fun l hc hl _ e he _ => hP e.2 (h.cached hl hc he).1

theorem moved_empty : moved H live n g s (fun _ => False) = s := by
  have hcache : ∀ b, (moved H live n g s fun _ => False).cache b = s.cache b := fun b => by
    by_cases hb : live b → H.tableAt n (genkey s b) = none
    · exact moved_cache_of_not hb
    · obtain ⟨hl, ho⟩ := Classical.not_imp.1 hb
      rw [moved_cache hl ho]
      cases s.cache b with
      | none => rfl
      | some l => exact congrArg some (left_eq_self fun e _ h => h.elim)
  have hobj : ∀ b, (moved H live n g s fun _ => False).obj b = s.obj b :=
    fun b => moved_obj_of_not fun _ h => h.elim
  have hgcobj : ∀ b, (moved H live n g s fun _ => False).gcobj b = s.gcobj b :=
    fun b => moved_gcobj_of_not fun _ h => h.elim
  exact State.ext rfl rfl rfl rfl rfl rfl (funext hobj) (funext hgcobj) rfl (funext hcache)

theorem moved_insert (hb : live b) (ho : H.tableAt n (genkey s b) = some o) :
    { moved H live n g s P with
      obj := Function.update (moved H live n g s P).obj b o
      gcobj := Function.update (moved H live n g s P).gcobj b g } =
    moved H live n g s fun x => P x ∨ x = b := by
  have hne : H.tableAt n (genkey s b) ≠ none := ho ▸ Option.some_ne_none _
  have hother : ∀ x, x ≠ b → (P x ↔ P x ∨ x = b) := fun x hx => ⟨.inl, fun h => h.resolve_right hx⟩
  have hobj : ∀ x, Function.update (moved H live n g s P).obj b o x =
      (moved H live n g s fun x => P x ∨ x = b).obj x := fun x => by
    by_cases hx : x = b
    · rw [hx, Function.update_self, moved_obj hb (.inr rfl) ho]
    · rw [Function.update_of_ne hx]
      exact moved_obj_congr fun _ _ => hother x hx
  have hgcobj : ∀ x, Function.update (moved H live n g s P).gcobj b g x =
      (moved H live n g s fun x => P x ∨ x = b).gcobj x := fun x => by
    by_cases hx : x = b
    · rw [hx, Function.update_self, moved_gcobj hb (.inr rfl) hne]
    · rw [Function.update_of_ne hx]
      exact moved_gcobj_congr fun _ _ => hother x hx
  have hcache : ∀ x, (moved H live n g s P).cache x =
      (moved H live n g s fun x => P x ∨ x = b).cache x := fun x =>
    moved_cache_congr fun l _ _ _ e _ hnone => hother e.2 fun heq => by
      rw [heq] at hnone
      exact hne hnone
  exact State.ext rfl rfl rfl rfl rfl rfl (funext hobj) (funext hgcobj) rfl (funext hcache)

end Moved

section Update

variable {H} {live P : ℕ → Prop} {s : State κ ω} {n g b : ℕ} {cobj : ω} {l : List (κ × ℕ)}
  {e : κ × ℕ}

theorem getcobjWith_of_none [DecidableEq ω] {update : Update κ ω}
    (hg : s.update (s.gcobj b) = none) : getcobjWith H update b s = .done (s.obj b) s := by
  rw [getcobjWith]
  split_ifs
  · rw [hg]
  · rfl

theorem getcobjWith_of_notice [DecidableEq ω] {update : Update κ ω} {s' : State κ ω} {o : ω}
    {newgcobj : ℕ}
    (h : Older s.boxes s.parent) (hb : b < s.boxes)
    (hdirty : s.dirty (H.version (s.obj b)) = true)
    (hupdate : s.update (s.gcobj b) = some (o, newgcobj))
    (hrun : update 0 o newgcobj s = .done () s') :
    getcobjWith H update b s = if s.obj b = s'.obj b then .raised (.notExist (genkey s' b)) s'
      else .done (s'.obj b) s' := by
  rw [getcobjWith, if_pos hdirty]
  simp only [hupdate]
  rw [findroot_eq h hb, hrun, Result.done_andThen]

variable [DecidableEq κ]

theorem moved_cut (h : Sound H live s) (hb : live b) (hbo : H.tableAt n (genkey s b) ≠ none)
    (hl : s.cache b = some l) (he : e ∈ l) (ho : H.tableAt n (genkey s e.2) = none) :
    { moved H live n g s P with
      cache := Function.update (moved H live n g s P).cache b
        (((moved H live n g s P).cache b).map fun children => children.filter fun e' => e'.1 ≠ e.1) } =
    moved H live n g s fun x => P x ∨ Below live s e.2 x := by
  obtain ⟨hc, hkey⟩ := h.child_genkey hb hl he
  have hnone : ∀ x, Below live s e.2 x → H.tableAt n (genkey s x) = none := fun x hx =>
    not_not.1 fun hne => Host.tableAt_of_prefix hx.2 hne ho
  have hother : ∀ x, H.tableAt n (genkey s x) ≠ none → (P x ↔ P x ∨ Below live s e.2 x) :=
    fun x hx => ⟨.inl, fun h => h.resolve_right fun hbelow => hx (hnone x hbelow)⟩
  have hcache : ∀ x, Function.update (moved H live n g s P).cache b
        (((moved H live n g s P).cache b).map fun children => children.filter fun e' => e'.1 ≠ e.1) x =
      (moved H live n g s fun x => P x ∨ Below live s e.2 x).cache x := fun x => by
    by_cases hx : x = b
    · rw [hx, Function.update_self, moved_cache hb hbo, moved_cache hb hbo, hl]
      classical
      rw [Option.map_some, Option.map_some, Option.map_some, left, left, List.filter_filter]
      refine congrArg some (filter_congr fun e' he' => ?_)
      rw [← Bool.decide_and]
      refine decide_eq_decide.2 ?_
      by_cases heq : e' = e
      · rw [heq]
        exact iff_of_false (fun h => h.1 rfl) fun h => h ⟨.inr ⟨hc, prefix_rfl⟩, ho⟩
      · have hne : e'.1 ≠ e.1 := fun hk => heq (h.key_unique hb hl he' he hk)
        have hnot : ¬ Below live s e.2 e'.2 := fun hbelow => heq (h.below_disjoint hb hl he' he
          ⟨hbelow.1, prefix_rfl⟩ hbelow)
        simp only [hne, hnot, ne_eq, not_false_eq_true, true_and, or_false]
    · rw [Function.update_of_ne hx]
      refine moved_cache_congr fun l' hl' hxl hxo e' he' _ => ⟨.inl, fun hP => hP.resolve_right ?_⟩
      intro hbelow
      obtain ⟨hc', hkey'⟩ := h.child_genkey hxl hl' he'
      have hpre := hbelow.2
      rw [hkey'] at hpre
      rcases prefix_concat_iff.1 hpre with heq | hpre
      · rw [hkey] at heq
        exact hx (h.genkey_inj hxl hb (append_inj' heq rfl).1.symm)
      · exact hxo (hnone x ⟨hxl, hpre⟩)
  exact State.ext rfl rfl rfl rfl rfl rfl (funext fun x => moved_obj_congr fun _ => hother x)
    (funext fun x => moved_gcobj_congr fun _ => hother x) rfl (funext hcache)

theorem updateChild_moved (h : Sound H live s) {update : Update κ ω} (hb : live b)
    (ho : H.tableAt n (genkey s b) = some cobj) (hl : s.cache b = some l) (he : e ∈ l)
    (hP : ∀ x, Below live s e.2 x → ¬ P x)
    (hupdate : ∀ o, H.tableAt n (genkey s e.2) = some o → update e.2 o g (moved H live n g s P) =
      .done () (moved H live n g s fun x => P x ∨ Below live s e.2 x)) :
    updateChild H update b cobj g e (moved H live n g s P) =
      .done () (moved H live n g s fun x => P x ∨ Below live s e.2 x) := by
  have hne : H.tableAt n (genkey s b) ≠ none := ho ▸ Option.some_ne_none _
  obtain ⟨hc, hkey⟩ := h.child_genkey hb hl he
  have hmem : e ∈ ((moved H live n g s P).cache b).getD [] := by
    rw [moved_cache hb hne, hl]
    exact mem_left.2 ⟨he, fun hPe => absurd hPe (hP e.2 ⟨hc, prefix_rfl⟩)⟩
  have hchild : H.tableAt n (genkey s e.2) = H.child cobj e.1 := by
    rw [hkey, Host.tableAt_concat, ho, Option.bind_some]
  rw [updateChild, if_pos hmem]
  cases hi : H.index cobj e.1 with
  | userdata pointer => exact hupdate pointer (hchild.trans (Host.child_userdata hi))
  | nil =>
    rw [Host.child, hi] at hchild
    exact congrArg (Result.done ()) (moved_cut h hb hne hl he hchild)
  | value a =>
    rw [Host.child, hi] at hchild
    exact congrArg (Result.done ()) (moved_cut h hb hne hl he hchild)

theorem each_moved (h : Sound H live s) {update : Update κ ω} (hb : live b)
    (ho : H.tableAt n (genkey s b) = some cobj) (hl : s.cache b = some l)
    (hupdate : ∀ e ∈ l, ∀ (P : ℕ → Prop) o, H.tableAt n (genkey s e.2) = some o →
      (∀ x, Below live s e.2 x → ¬ P x) → update e.2 o g (moved H live n g s P) =
        .done () (moved H live n g s fun x => P x ∨ Below live s e.2 x)) :
    ∀ {L : List (κ × ℕ)} {P : ℕ → Prop}, (∀ e ∈ L, e ∈ l) → L.Nodup →
      (∀ e ∈ L, ∀ x, Below live s e.2 x → ¬ P x) →
      Result.each (updateChild H update b cobj g) L (moved H live n g s P) =
        .done () (moved H live n g s fun x => P x ∨ ∃ e ∈ L, Below live s e.2 x)
  | [], P, _, _, _ => by
    refine congrArg (Result.done ()) (moved_congr h fun x _ => ⟨.inl, fun hx => hx.resolve_right ?_⟩)
    rintro ⟨e, he, -⟩
    cases he
  | e :: L, P, hL, hnd, hP => by
    have he := hL e mem_cons_self
    have hPe := hP e mem_cons_self
    rw [Result.each, updateChild_moved h hb ho hl he hPe fun o ho => hupdate e he P o ho hPe,
      Result.done_andThen, each_moved h hb ho hl hupdate
        (fun e' he' => hL e' (mem_cons_of_mem _ he')) (nodup_cons.1 hnd).2]
    · refine congrArg _ (moved_congr h fun x _ => ?_)
      simp only [mem_cons, exists_eq_or_imp, or_assoc]
    · rintro e' he' x hx (hPx | hx')
      · exact hP e' (mem_cons_of_mem _ he') x hx hPx
      · obtain rfl := h.below_disjoint hb hl he (hL e' (mem_cons_of_mem _ he')) hx' hx
        exact (nodup_cons.1 hnd).1 he'

variable [DecidableEq ω]

theorem update_moved (h : Sound H live s) (hg : s.update g = none) (pairs : Order κ) :
    ∀ {calls b : ℕ} {cobj : ω} {P : ℕ → Prop}, live b → H.tableAt n (genkey s b) = some cobj →
      s.boxes < calls + (genkey s b).length → (∀ x, Below live s b x → ¬ P x) →
      update H pairs calls b cobj g (moved H live n g s P) =
        .done () (moved H live n g s fun x => P x ∨ Below live s b x)
  | 0, b, cobj, P, hb, ho, hcalls, hP => by
    have := h.lt hb
    have : (genkey s b).length ≤ b := length_genkeyIn
    omega
  | calls + 1, b, cobj, P, hb, ho, hcalls, hP => by
    have hne : H.tableAt n (genkey s b) ≠ none := ho ▸ Option.some_ne_none _
    have hself : Below live s b b := ⟨hb, prefix_rfl⟩
    rw [update]
    dsimp only
    rw [moved_insert hb ho, getcacheWith, moved_cache hb hne]
    rcases hl : s.cache b with _ | l
    · have hnone : (moved H live n g s fun x => P x ∨ x = b).update
          ((moved H live n g s fun x => P x ∨ x = b).gcobj b) = none := by
        rw [moved_gcobj hb (.inr rfl) hne]
        exact hg
      have hpairs : pairs.1 [] = [] := (pairs.2 []).eq_nil
      rw [Option.map_none]
      dsimp only
      rw [getcobjWith_of_none hnone, Result.done_andThen, Result.done_andThen, Option.getD_none, hpairs,
        Result.each]
      refine congrArg _ (moved_congr h fun x _ => or_congr_right ⟨fun hx => hx ▸ hself, fun hx => ?_⟩)
      refine (h.below_cases hx hb).resolve_right ?_
      rintro ⟨l, e, hc, -⟩
      rw [hl] at hc
      cases hc
    · have hchild : ∀ {e : κ × ℕ}, e ∈ l → ∀ x, Below live s e.2 x → ¬ (P x ∨ x = b) := by
        intro e he x hx hor
        obtain ⟨hbelow, hxb⟩ := h.below_child hb hl he hx
        exact hor.elim (hP x hbelow) hxb
      have hleft : left H n s (fun x => P x ∨ x = b) l = l := left_eq_self fun e he hPe =>
        absurd hPe (hchild he e.2 ⟨(h.cached hb hl he).1, prefix_rfl⟩)
      have hperm := pairs.2 l
      rw [Option.map_some, hleft]
      dsimp only
      rw [Result.done_andThen, Option.getD_some, each_moved h hb ho hl
        (fun e he P o ho hP => update_moved h hg pairs (h.cached hb hl he).1 ho
          (by rw [(h.child_genkey hb hl he).2, length_append, length_singleton]; omega) hP)
        (fun e he => hperm.mem_iff.1 he) (hperm.nodup_iff.2 (h.nodup hb hl).of_map)
        fun e he => hchild (hperm.mem_iff.1 he)]
      refine congrArg _ (moved_congr h fun x _ => ⟨?_, ?_⟩)
      · rintro ((hPx | rfl) | ⟨e, he, hx⟩)
        · exact .inl hPx
        · exact .inr hself
        · exact .inr (h.below_child hb hl (hperm.mem_iff.1 he) hx).1
      · rintro (hPx | hx)
        · exact .inl (.inl hPx)
        · rcases h.below_cases hx hb with rfl | ⟨l', e, hl', he, hx⟩
          · exact .inl (.inr rfl)
          · obtain rfl := Option.some.inj (hl.symm.trans hl')
            exact .inr ⟨e, hperm.mem_iff.2 he, hx⟩

end Update

/-- The newest notice that the root has: its `ctrl` is the one of the root, or the one that the root is to
be moved to. -/
structure Notice (n g : ℕ) (s : State κ ω) : Prop where
  lt : g < s.ctrls
  update : s.update g = none
  root : s.root g = H.conf n
  at_or : (s.at H = n ∧ s.gcobj 0 = g) ∨
    (s.at H < n ∧ s.gcobj 0 < g ∧ s.update (s.gcobj 0) = some (H.conf n, g))

/-- A box that version `w` cut off. -/
structure CutOff (w b : ℕ) (s : State κ ω) : Prop where
  notice : ∃ g, s.update (s.gcobj b) = some (H.conf w, g) ∧ (w = s.at H → g = s.gcobj 0)
  lt : H.version (s.obj b) < w
  le : w ≤ s.at H
  gcobj : s.gcobj b < s.gcobj 0

/-- The boxes, with the version that has been noticed last, and why the others have been cut off. -/
structure Kept (live : ℕ → Prop) (n : ℕ) (why : ℕ → ℕ → Prop) (s : State κ ω) : Prop
    extends Sound H live s where
  dirty : ∀ v, s.dirty v = true ↔ v < s.current
  le : n ≤ s.current
  notice : ∃ g, Notice H n g s
  self : s.root (s.gcobj 0) = H.conf (s.at H)
  cut : ∀ b < s.boxes, ¬ live b → ∃ w, why b w ∧ CutOff H w b s

section Getcobj

variable {H} {live : ℕ → Prop} {why : ℕ → ℕ → Prop} {s : State κ ω} {n g b w calls : ℕ} {o : ω}

theorem tableAt_root (v : ℕ) (s : State κ ω) : H.tableAt v (genkey s 0) = some (H.conf v) := rfl

theorem moved_self (h : Sound H live s) (P : ℕ → Prop) :
    moved H live (s.at H) (s.gcobj 0) s P = s := by
  have hcache : ∀ b, (moved H live (s.at H) (s.gcobj 0) s P).cache b = s.cache b := fun b => by
    rw [moved_cache_congr (Q := fun _ => False)]
    · exact congrFun (congrArg State.cache moved_empty) b
    · intro l hl hb _ e he hnone
      rw [h.obj (h.cached hb hl he).1] at hnone
      cases hnone
  refine State.ext rfl rfl rfl rfl rfl rfl (funext fun b => ?_) (funext fun b => ?_) rfl
    (funext hcache)
  · by_cases hb : live b ∧ P b
    · exact moved_obj hb.1 hb.2 (h.obj hb.1)
    · exact moved_obj_of_not fun hl hP => absurd ⟨hl, hP⟩ hb
  · by_cases hb : live b ∧ P b
    · rw [moved_gcobj hb.1 hb.2 (by rw [h.obj hb.1]; exact Option.some_ne_none _), h.gcobj hb.1]
    · exact moved_gcobj_of_not fun hl hP => absurd ⟨hl, hP⟩ hb

theorem Notice.at_le (h : Notice H n g s) : s.at H ≤ n :=
  h.at_or.elim (fun h => h.1.le) fun h => h.1.le

theorem Notice.gcobj_le (h : Notice H n g s) : s.gcobj 0 ≤ g :=
  h.at_or.elim (fun h => h.2.le) fun h => h.2.1.le

theorem Notice.at_moved (h : Sound H live s) : (moved H live n g s fun _ => True).at H = n := by
  rw [State.at, moved_obj h.root trivial (tableAt_root n s), H.version_conf]

section

variable [DecidableEq κ] [DecidableEq ω]

theorem update_root (h : Sound H live s) (hg : s.update g = none) (pairs : Order κ)
    (hcalls : s.boxes < calls) :
    update H pairs calls 0 (H.conf n) g s = .done () (moved H live n g s fun _ => True) := by
  have hlt : s.boxes < calls + (genkey s 0).length := by
    rw [genkey_zero]
    exact hcalls
  have hrun := update_moved (n := n) (P := fun _ => False) h hg pairs h.root (tableAt_root n s) hlt
    fun _ _ hP => hP
  rw [moved_empty] at hrun
  rw [hrun]
  refine congrArg _ (moved_congr h fun x hx => ⟨fun _ => trivial, fun _ => .inr ⟨hx, ?_⟩⟩)
  rw [genkey_zero]
  exact nil_prefix

theorem getcobj_live (h : Kept H live n why s) (hg : Notice H n g s) (pairs : Order κ)
    (hcalls : s.boxes < calls) (hb : live b) (hlt : s.at H < n) :
    getcobj H pairs calls b s =
      if s.obj b = (moved H live n g s fun _ => True).obj b then
        .raised (.notExist (genkey s b)) (moved H live n g s fun _ => True)
      else .done ((moved H live n g s fun _ => True).obj b) (moved H live n g s fun _ => True) := by
  have hupdate : s.update (s.gcobj b) = some (H.conf n, g) := by
    rw [h.gcobj hb]
    exact (hg.at_or.resolve_left fun heq => by omega).2.2
  have hdirty : s.dirty (H.version (s.obj b)) = true := by
    rw [Host.version_tableAt (h.obj hb), h.dirty]
    exact hlt.trans_le h.le
  exact getcobjWith_of_notice h.older (h.lt hb) hdirty hupdate
    (update_root h.toSound hg.update pairs hcalls)

theorem getcobj_done (h : Kept H live n why s) (hg : Notice H n g s) (pairs : Order κ)
    (hcalls : s.boxes < calls) (hb : live b) (ho : H.tableAt n (genkey s b) = some o) :
    getcobj H pairs calls b s = .done o (moved H live n g s fun _ => True) := by
  have hobj : (moved H live n g s fun _ => True).obj b = o := moved_obj hb trivial ho
  rcases hg.at_or with ⟨rfl, rfl⟩ | ⟨hlt, -, -⟩
  · have hnone : s.update (s.gcobj b) = none := by
      rw [h.gcobj hb]
      exact hg.update
    rw [moved_self h.toSound] at hobj ⊢
    rw [← hobj]
    exact getcobjWith_of_none hnone
  · rw [getcobj_live h hg pairs hcalls hb hlt, hobj, if_neg]
    intro heq
    have := Host.version_tableAt (h.obj hb)
    rw [heq, Host.version_tableAt ho] at this
    omega

/-- A box in the caches that has no table any more raises an error, and so does one that was cut
off. -/
theorem getcobj_raised (h : Kept H live n why s) (hg : Notice H n g s) (pairs : Order κ)
    (hcalls : s.boxes < calls) (hb : b < s.boxes)
    (hgone : live b → H.tableAt n (genkey s b) = none) (hcut : ¬ live b → CutOff H n b s) :
    getcobj H pairs calls b s =
      .raised (.notExist (genkey s b)) (moved H live n g s fun _ => True) := by
  have hobj : (moved H live n g s fun _ => True).obj b = s.obj b :=
    moved_obj_of_not fun hl _ => hgone hl
  by_cases hl : live b
  · have hlt : s.at H < n := by
      rcases hg.at_or with ⟨rfl, -⟩ | ⟨hlt, -, -⟩
      · have := hgone hl
        rw [h.obj hl] at this
        cases this
      · exact hlt
    rw [getcobj_live h hg pairs hcalls hl hlt, hobj, if_pos rfl]
  · obtain ⟨⟨g', hupdate, hg'⟩, hlt, hle, -⟩ := hcut hl
    have hat : s.at H = n := le_antisymm hg.at_le hle
    obtain rfl := hat
    obtain rfl : s.gcobj 0 = g := (hg.at_or.resolve_right fun h => absurd h.1 (lt_irrefl _)).2
    obtain rfl := hg' rfl
    rw [getcobj, getcobjWith_of_notice h.older hb ((h.dirty _).2 (hlt.trans_le h.le)) hupdate
      (update_root h.toSound hg.update pairs hcalls), hobj, if_pos rfl]
    rfl

end

theorem Sound.arrive (h : Sound H live s) :
    Sound H (fun b => live b ∧ H.tableAt n (genkey s b) ≠ none) (moved H live n g s fun _ => True) where
  older := h.older
  root := ⟨h.root, Option.some_ne_none _⟩
  lt hb := h.lt hb.1
  linked {b p k} hb hp := by
    obtain ⟨hlive, l, hl, hmem⟩ := h.linked hb.1 hp
    have hpre : genkey s p <+: genkey s b := by
      rw [genkey_child h.older (h.lt hb.1) hp]
      exact prefix_append _ _
    have ho := Host.tableAt_of_prefix hpre hb.2
    refine ⟨⟨hlive, ho⟩, left H n s (fun _ => True) l, ?_, mem_left.2 ⟨hmem, fun _ => hb.2⟩⟩
    rw [moved_cache hlive ho, hl]
    rfl
  cached {p l e} hp hl he := by
    rw [moved_cache hp.1 hp.2, Option.map_eq_some_iff] at hl
    obtain ⟨l', hl', rfl⟩ := hl
    obtain ⟨hmem, ho⟩ := mem_left.1 he
    obtain ⟨hlive, hparent⟩ := h.cached hp.1 hl' hmem
    exact ⟨⟨hlive, ho trivial⟩, hparent⟩
  nodup {p l} hp hl := by
    classical
    rw [moved_cache hp.1 hp.2, Option.map_eq_some_iff] at hl
    obtain ⟨l', hl', rfl⟩ := hl
    exact (h.nodup hp.1 hl').sublist (filter_sublist.map _)
  obj {b} hb := by
    obtain ⟨o, ho⟩ := Option.ne_none_iff_exists'.1 hb.2
    rw [Notice.at_moved h, moved_obj hb.1 trivial ho]
    exact ho
  gcobj {b} hb := by
    rw [moved_gcobj hb.1 trivial hb.2, moved_gcobj h.root trivial (Option.some_ne_none _)]

theorem Kept.arrive (h : Kept H live n why s) (hg : Notice H n g s) (why' : ℕ → ℕ → Prop)
    (hwhy : ∀ b w, ¬ live b → why b w → why' b w)
    (hnew : ∀ b, live b → H.tableAt n (genkey s b) = none → why' b n) :
    Kept H (fun b => live b ∧ H.tableAt n (genkey s b) ≠ none) n why'
      (moved H live n g s fun _ => True) ∧
    Notice H n g (moved H live n g s fun _ => True) := by
  have hat := Notice.at_moved (n := n) (g := g) h.toSound
  have hgcobj : (moved H live n g s fun _ => True).gcobj 0 = g :=
    moved_gcobj h.root trivial (Option.some_ne_none _)
  have hself : s.root g = H.conf n := hg.root
  refine ⟨{ h.toSound.arrive with
    dirty := h.dirty
    le := h.le
    notice := ⟨g, hg.lt, hg.update, hg.root, .inl ⟨hat, hgcobj⟩⟩
    self := by rw [hgcobj, hat]; exact hself
    cut := fun b hb hnot => ?_ }, ⟨hg.lt, hg.update, hg.root, .inl ⟨hat, hgcobj⟩⟩⟩
  have hnone : live b → H.tableAt n (genkey s b) = none := fun hl => not_not.1 fun ho => hnot ⟨hl, ho⟩
  have hobj : (moved H live n g s fun _ => True).obj b = s.obj b :=
    moved_obj_of_not fun hl _ => hnone hl
  have hbg : (moved H live n g s fun _ => True).gcobj b = s.gcobj b :=
    moved_gcobj_of_not fun hl _ => hnone hl
  by_cases hl : live b
  · -- cut off by the version that the tree comes to
    rcases hg.at_or with ⟨rfl, -⟩ | ⟨hlt, hglt, hupdate⟩
    · have := hnone hl
      rw [h.obj hl] at this
      cases this
    · refine ⟨n, hnew b hl (hnone hl), ⟨g, ?_, fun _ => hgcobj.symm⟩, ?_, hat.ge, ?_⟩
      · rw [hbg, h.gcobj hl]
        exact hupdate
      · rw [hobj, Host.version_tableAt (h.obj hl)]
        exact hlt
      · rw [hbg, hgcobj, h.gcobj hl]
        exact hglt
  · obtain ⟨w, hw, ⟨g', hupdate, hg'⟩, hlt, hle, hlow⟩ := h.cut b hb hl
    refine ⟨w, hwhy b w hl hw, ⟨g', by rw [hbg]; exact hupdate, fun heq => ?_⟩, by rw [hobj]; exact hlt,
      hat.symm ▸ hle.trans hg.at_le, by rw [hbg, hgcobj]; exact hlow.trans_le hg.gcobj_le⟩
    rw [hat] at heq
    rcases hg.at_or with ⟨heq', hg₀⟩ | ⟨hlt', -, -⟩
    · rw [hgcobj, hg' (heq.trans heq'.symm), hg₀]
    · omega

end Getcobj

end Corelib

end SkynetGame
