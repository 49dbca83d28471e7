import SkynetGame.Sharedatad
import Mathlib.Data.List.Nodup
import Mathlib.Data.Sum.Basic

/-!
# Shared data

The count of an object is the number of those that hold it, and one for the pool (`Objs`), so only
answers of `monitor` that are not boxed are not counted. A monitor waits in one place, with its name or
with an update of it, and was not answered (`Monitors`).
-/

namespace SkynetGame

open Function List Option

namespace Sharedatad

variable {ν : Type*} {s t : State ν} {name : ν} {obj k u : ℕ} {v : Entry}

/-! ## Objects -/

/-- How often an object is given and not confirmed, or boxed. -/
def State.holds (s : State ν) (obj : ℕ) : ℕ :=
  s.given.count obj + s.confirming.count obj + s.boxes.count obj

structure Objs (s : State ν) : Prop where
  pooled : ∀ name v, s.pool name = some v → s.objmap v.obj = some .entry
  inj : ∀ name name' v v', s.pool name = some v → s.pool name' = some v' → v.obj = v'.obj →
    name = name'
  refs : ∀ obj, s.objmap obj ≠ none →
    s.ref obj = (if s.objmap obj = some .entry then 1 else 0) + (s.holds obj : ℤ)
  held : ∀ obj, s.objmap obj = none → s.holds obj = 0 ∧ obj ∉ s.unboxed
  old : ∀ u up v, s.updates u = some up → up.old = some v → s.objmap v.obj = some .gone

theorem Objs.init : Objs (State.init : State ν) :=
  ⟨(fun _ _ h => nomatch h), (fun _ _ _ _ h => nomatch h), fun _ h => absurd rfl h,
    fun _ _ => ⟨rfl, not_mem_nil⟩, (fun _ _ _ h => nomatch h)⟩

theorem Objs.hold (h : Objs s)
    (hpool : ∀ name v, t.pool name = some v → ∃ v', s.pool name = some v' ∧ v'.obj = v.obj)
    (hobjmap : t.objmap = s.objmap) (hupdates : t.updates = s.updates)
    (hrefs : ∀ obj, s.objmap obj ≠ none → t.ref obj - (t.holds obj : ℤ) = s.ref obj - s.holds obj)
    (hheld : ∀ obj, s.objmap obj = none → t.holds obj = 0 ∧ obj ∉ t.unboxed) : Objs t := by
  refine ⟨fun name v hv => ?_, fun n₁ n₂ v₁ v₂ h₁ h₂ he => ?_, fun obj hobj => ?_, ?_, ?_⟩
  · obtain ⟨v', hv', hobj⟩ := hpool name v hv
    rw [hobjmap, ← hobj]
    exact h.pooled name v' hv'
  · obtain ⟨v₁', h₁', ho₁⟩ := hpool n₁ v₁ h₁
    obtain ⟨v₂', h₂', ho₂⟩ := hpool n₂ v₂ h₂
    exact h.inj n₁ n₂ v₁' v₂' h₁' h₂' (ho₁.trans (he.trans ho₂.symm))
  · rw [hobjmap] at hobj ⊢
    have hold := h.refs obj hobj
    have hnew := hrefs obj hobj
    omega
  · rw [hobjmap]
    exact hheld
  · rw [hupdates, hobjmap]
    exact h.old

theorem Objs.same (h : Objs s)
    (hpool : ∀ name v, t.pool name = some v → ∃ v', s.pool name = some v' ∧ v'.obj = v.obj)
    (hobjmap : t.objmap = s.objmap) (hupdates : t.updates = s.updates) (href : t.ref = s.ref)
    (hgiven : t.given = s.given) (hconfirming : t.confirming = s.confirming) (hboxes : t.boxes = s.boxes)
    (hunboxed : ∀ obj ∈ t.unboxed, s.objmap obj ≠ none) : Objs t := by
  have hholds : t.holds = s.holds := by
    funext obj
    rw [State.holds, hgiven, hconfirming, hboxes, State.holds]
  refine h.hold hpool hobjmap hupdates (fun obj _ => by rw [href, hholds]) fun obj hobj => ?_
  rw [hholds]
  exact ⟨(h.held obj hobj).1, fun hin => hunboxed obj hin hobj⟩

theorem Objs.ne_none_of_holds (h : Objs s) (hpos : 0 < s.holds obj) : s.objmap obj ≠ none :=
  fun hnone => Nat.ne_of_gt hpos (h.held obj hnone).1

theorem Objs.mem_given (h : Objs s) (hin : obj ∈ s.given) : s.objmap obj ≠ none := by
  refine h.ne_none_of_holds ?_
  have hpos := count_pos_iff.2 hin
  rw [State.holds]
  omega

theorem Objs.mem_confirming (h : Objs s) (hin : obj ∈ s.confirming) : s.objmap obj ≠ none := by
  refine h.ne_none_of_holds ?_
  have hpos := count_pos_iff.2 hin
  rw [State.holds]
  omega

theorem Objs.mem_boxes (h : Objs s) (hin : obj ∈ s.boxes) : s.objmap obj ≠ none := by
  refine h.ne_none_of_holds ?_
  have hpos := count_pos_iff.2 hin
  rw [State.holds]
  omega

theorem Objs.mem_unboxed (h : Objs s) (hin : obj ∈ s.unboxed) : s.objmap obj ≠ none :=
  fun hnone => (h.held obj hnone).2 hin

theorem Objs.pool_ne_none (h : Objs s) (hv : s.pool name = some v) : s.objmap v.obj ≠ none := by
  rw [h.pooled name v hv]
  exact fun hbad => nomatch hbad

theorem update_add (f : ℕ → ℤ) (obj o : ℕ) (n : ℤ) :
    update f obj (f obj + n) o = f o + if obj = o then n else 0 := by
  rcases eq_or_ne o obj with rfl | hne
  · rw [update_self, if_pos rfl]
  · rw [update_of_ne hne, if_neg fun he => hne he.symm, Int.add_zero]

theorem count_cons (l : List ℕ) (obj o : ℕ) :
    (obj :: l).count o = l.count o + if obj = o then 1 else 0 := by
  rw [List.count_cons]
  simp only [beq_iff_eq]

theorem count_erase {l : List ℕ} (hin : obj ∈ l) (o : ℕ) :
    l.count o = (l.erase obj).count o + if obj = o then 1 else 0 := by
  rw [List.count_erase]
  simp only [beq_iff_eq]
  split_ifs with he
  · subst he
    have := count_pos_iff.2 hin
    omega
  · omega

theorem Objs.counted (h : Objs s) {n : ℤ} (hobj : s.objmap obj ≠ none) (hpool : t.pool = s.pool)
    (hobjmap : t.objmap = s.objmap) (hupdates : t.updates = s.updates)
    (href : t.ref = update s.ref obj (s.ref obj + n))
    (hholds : ∀ o, (t.holds o : ℤ) = s.holds o + if obj = o then n else 0)
    (hunboxed : t.unboxed ⊆ s.unboxed) : Objs t := by
  refine h.hold (fun _ v hv => ⟨v, hpool ▸ hv, rfl⟩) hobjmap hupdates (fun o _ => ?_) fun o ho => ?_
  · rw [href, update_add, hholds]
    omega
  · obtain ⟨hzero, hout⟩ := h.held o ho
    have hsame := hholds o
    rw [if_neg (by rintro rfl; exact hobj ho)] at hsame
    exact ⟨by omega, fun hbad => hout (hunboxed hbad)⟩

theorem objs_box (h : Objs s) (hin : obj ∈ s.given) : Objs { incref s obj with
    given := s.given.erase obj
    confirming := obj :: s.confirming
    boxes := obj :: s.boxes } := by
  refine h.counted (h.mem_given hin) rfl rfl rfl rfl (fun o => ?_) fun _ => id
  have h₁ := count_erase hin o
  have h₂ := count_cons s.confirming obj o
  have h₃ := count_cons s.boxes obj o
  simp only [State.holds]
  split_ifs at * <;> omega

theorem objs_take (h : Objs s) (hin : obj ∈ s.unboxed) : Objs { incref s obj with
    unboxed := s.unboxed.erase obj
    boxes := obj :: s.boxes } := by
  refine h.counted (h.mem_unboxed hin) rfl rfl rfl rfl (fun o => ?_) erase_subset
  have h₁ := count_cons s.boxes obj o
  simp only [State.holds, incref]
  split_ifs at * <;> omega

theorem objs_release (h : Objs s) (hin : obj ∈ s.boxes) :
    Objs { decref s obj with boxes := s.boxes.erase obj } := by
  refine h.counted (n := -1) (h.mem_boxes hin) rfl rfl rfl rfl (fun o => ?_) fun _ => id
  have h₁ := count_erase hin o
  simp only [State.holds, decref]
  split_ifs at * <;> omega

theorem objs_confirm (h : Objs s) (hin : obj ∈ s.confirming) :
    Objs (cmdConfirm { s with confirming := s.confirming.erase obj } obj) := by
  have hobj := h.mem_confirming hin
  rw [cmdConfirm, if_pos (isSome_iff_ne_none.2 hobj)]
  refine h.counted (n := -1) hobj rfl rfl rfl rfl (fun o => ?_) fun _ => id
  have h₁ := count_erase hin o
  simp only [State.holds, decref]
  split_ifs at * <;> omega

theorem objs_query (h : Objs s) (name : ν) : Objs (cmdQuery s name) := by
  rw [cmdQuery]
  cases hv : s.pool name with
  | none => exact h
  | some v =>
    refine h.counted (h.pool_ne_none hv) rfl rfl rfl rfl (fun o => ?_) fun _ => id
    have h₁ := count_cons s.given v.obj o
    simp only [State.holds, incref]
    split_ifs at * <;> omega

theorem objs_answerAll (h : Objs s) (watch : List ℕ) {a : Option ℕ}
    (ha : ∀ obj ∈ a, s.objmap obj ≠ none) : Objs (answerAll s watch a) := by
  refine h.same (fun _ v hv => ⟨v, hv, rfl⟩) rfl rfl rfl rfl rfl rfl fun obj hin => ?_
  rcases mem_append.1 hin with hin | hin
  · obtain ⟨k, -, hk⟩ := mem_flatMap.1 hin
    exact ha obj (mem_toList.1 hk)
  · exact h.mem_unboxed hin

theorem objs_collect (h : Objs s) (htame : ∀ obj, s.Collects obj → obj ∉ s.unboxed
    ∧ ∀ u up v, s.updates u = some up → up.old = some v → v.obj ≠ obj) : Objs (collect s) := by
  have hkeep : ∀ {obj}, ¬ s.Collects obj → (collect s).objmap obj = s.objmap obj := fun hnot =>
    if_neg hnot
  have hentry : ∀ {obj}, s.objmap obj = some .entry → ¬ s.Collects obj := fun hobj hbad => by
    cases hobj.symm.trans hbad.1
  refine ⟨fun name v hv => ?_, h.inj, fun obj hobj => ?_, fun obj hobj => ?_,
    fun u up v hup hv => ?_⟩
  · have hobj := h.pooled name v hv
    exact (hkeep (hentry hobj)).trans hobj
  · have hnot : ¬ s.Collects obj := fun hbad => hobj (if_pos hbad)
    rw [hkeep hnot] at hobj ⊢
    exact h.refs obj hobj
  · by_cases hc : s.Collects obj
    · obtain ⟨hgone, href⟩ := hc
      have hrefs := h.refs obj (by rw [hgone]; exact fun hbad => nomatch hbad)
      rw [hgone, if_neg fun hbad => nomatch hbad] at hrefs
      exact ⟨show s.holds obj = 0 by omega, (htame obj ⟨hgone, href⟩).1⟩
    · exact h.held obj ((hkeep hc).symm.trans hobj)
  · have hnot : ¬ s.Collects v.obj := fun hbad => (htame _ hbad).2 u up v hup hv rfl
    exact (hkeep hnot).trans (h.old u up v hup hv)

section Pool

variable [DecidableEq ν]

theorem objs_newobj (h : Objs s) (hname : s.pool name = none) (hobj : s.objmap obj = none) :
    Objs (newobj s name obj) := by
  obtain ⟨hzero, hout⟩ := h.held obj hobj
  have hother : ∀ {obj'}, s.objmap obj' ≠ none → obj' ≠ obj := by
    rintro _ hne rfl
    exact hne hobj
  have hpool : ∀ name' v, (newobj s name obj).pool name' = some v →
      name' = name ∧ v = ⟨obj, []⟩ ∨ name' ≠ name ∧ s.pool name' = some v ∧ v.obj ≠ obj := by
    intro name' v hv
    have hnew : (newobj s name obj).pool = update s.pool name (some ⟨obj, []⟩) := rfl
    rw [hnew] at hv
    rcases eq_or_ne name' name with rfl | hne
    · rw [update_self] at hv
      exact .inl ⟨rfl, (some.inj hv).symm⟩
    · rw [update_of_ne hne] at hv
      exact .inr ⟨hne, hv, hother (h.pool_ne_none hv)⟩
  refine ⟨fun name' v hv => ?_, fun n₁ n₂ v₁ v₂ h₁ h₂ he => ?_, fun obj' hne => ?_,
    fun obj' hnone => ?_, fun u up v hup hv => ?_⟩
  · rcases hpool name' v hv with ⟨-, rfl⟩ | ⟨-, hv, hne⟩
    · exact update_self ..
    · exact (update_of_ne hne ..).trans (h.pooled name' v hv)
  · rcases hpool n₁ v₁ h₁ with ⟨rfl, rfl⟩ | ⟨-, h₁, hne₁⟩
    · rcases hpool n₂ v₂ h₂ with ⟨rfl, -⟩ | ⟨-, -, hne₂⟩
      · rfl
      · exact absurd he.symm hne₂
    · rcases hpool n₂ v₂ h₂ with ⟨-, rfl⟩ | ⟨-, h₂, -⟩
      · exact absurd he hne₁
      · exact h.inj n₁ n₂ v₁ v₂ h₁ h₂ he
  · rcases eq_or_ne obj' obj with rfl | hne'
    · have href : (newobj s name obj').ref obj' = 1 := update_self ..
      have hmap : (newobj s name obj').objmap obj' = some .entry := update_self ..
      have hholds : (newobj s name obj').holds obj' = 0 := hzero
      rw [href, hmap, if_pos rfl, hholds]
      rfl
    · have href : (newobj s name obj).ref obj' = s.ref obj' := update_of_ne hne' ..
      have hmap : (newobj s name obj).objmap obj' = s.objmap obj' := update_of_ne hne' ..
      rw [hmap] at hne ⊢
      rw [href]
      exact h.refs obj' hne
  · have hnew : (newobj s name obj).objmap = update s.objmap obj (some .entry) := rfl
    rw [hnew] at hnone
    have hne' : obj' ≠ obj := by
      rintro rfl
      rw [update_self] at hnone
      cases hnone
    rw [update_of_ne hne'] at hnone
    exact h.held obj' hnone
  · have hgone := h.old u up v hup hv
    have hne : v.obj ≠ obj := hother (by rw [hgone]; exact fun hbad => nomatch hbad)
    exact (update_of_ne hne ..).trans hgone

theorem objs_leave (h : Objs s) (hv : s.pool name = some v) : Objs (leave s name v) := by
  have hentry := h.pooled name v hv
  have hpool : ∀ name' v', (leave s name v).pool name' = some v' →
      s.pool name' = some v' ∧ v'.obj ≠ v.obj := by
    intro name' v' hv'
    have hnew : (leave s name v).pool = update s.pool name none := rfl
    rw [hnew] at hv'
    have hne : name' ≠ name := by
      rintro rfl
      rw [update_self] at hv'
      cases hv'
    rw [update_of_ne hne] at hv'
    exact ⟨hv', fun he => hne (h.inj name' name v' v hv' hv he)⟩
  refine ⟨fun name' v' hv' => ?_, fun n₁ n₂ v₁ v₂ h₁ h₂ he => ?_, fun obj hne => ?_,
    fun obj hnone => ?_, fun u up v' hup hv' => ?_⟩
  · obtain ⟨hv', hne⟩ := hpool name' v' hv'
    exact (update_of_ne hne ..).trans (h.pooled name' v' hv')
  · exact h.inj n₁ n₂ v₁ v₂ (hpool n₁ v₁ h₁).1 (hpool n₂ v₂ h₂).1 he
  · rcases eq_or_ne obj v.obj with rfl | hne'
    · have href : (leave s name v).ref v.obj = s.ref v.obj - 1 := update_self ..
      have hmap : (leave s name v).objmap v.obj = some .gone := update_self ..
      have hholds : (leave s name v).holds v.obj = s.holds v.obj := rfl
      have hold := h.refs v.obj (h.pool_ne_none hv)
      rw [hentry, if_pos rfl] at hold
      rw [href, hmap, hholds, if_neg fun hbad => nomatch hbad]
      omega
    · have href : (leave s name v).ref obj = s.ref obj := update_of_ne hne' ..
      have hmap : (leave s name v).objmap obj = s.objmap obj := update_of_ne hne' ..
      rw [hmap] at hne ⊢
      rw [href]
      exact h.refs obj hne
  · have hnew : (leave s name v).objmap = update s.objmap v.obj (some .gone) := rfl
    rw [hnew] at hnone
    have hne' : obj ≠ v.obj := by
      rintro rfl
      rw [update_self] at hnone
      cases hnone
    rw [update_of_ne hne'] at hnone
    exact h.held obj hnone
  · rcases eq_or_ne v'.obj v.obj with he | hne
    · rw [he]
      exact update_self ..
    · exact (update_of_ne hne ..).trans (h.old u up v' hup hv')

end Pool

/-! ## Monitors -/

/-- The monitors that wait with a name or with an update. -/
def State.watchOf (s : State ν) : ν ⊕ ℕ → List ℕ
  | .inl name => ((s.pool name).map Entry.watch).getD []
  | .inr u => (((s.updates u).bind Update.old).map Entry.watch).getD []

structure Monitors (s : State ν) : Prop where
  nodup : ∀ p, (s.watchOf p).Nodup
  unique : ∀ p p' k, k ∈ s.watchOf p → k ∈ s.watchOf p' → p = p'
  silent : ∀ p, ∀ k ∈ s.watchOf p, s.asked k = true ∧ s.answers k = []
  fresh : ∀ k, s.asked k = false → s.answers k = []
  once : ∀ k, (s.answers k).length ≤ 1

theorem watchOf_init (p : ν ⊕ ℕ) : (State.init : State ν).watchOf p = [] := by
  cases p <;> rfl

theorem Monitors.init : Monitors (State.init : State ν) := by
  refine ⟨fun p => ?_, fun p _ k hk => ?_, fun p k hk => ?_, fun _ _ => rfl, fun _ => Nat.zero_le 1⟩
  · rw [watchOf_init]
    exact nodup_nil
  · rw [watchOf_init] at hk
    exact absurd hk not_mem_nil
  · rw [watchOf_init] at hk
    exact absurd hk not_mem_nil

theorem watchOf_pool (hv : s.pool name = some v) : s.watchOf (.inl name) = v.watch := by
  simp only [State.watchOf, hv, map_some, getD_some]

theorem watchOf_update {up : Update ν} (hup : s.updates u = some up) (hv : up.old = some v) :
    s.watchOf (.inr u) = v.watch := by
  simp only [State.watchOf, hup, bind_some, hv, map_some, getD_some]

theorem Monitors.move (h : Monitors s) (f : ν ⊕ ℕ → ν ⊕ ℕ)
    (hsub : ∀ p, (t.watchOf p).Sublist (s.watchOf (f p)))
    (hinj : ∀ p p' k, k ∈ t.watchOf p → k ∈ t.watchOf p' → f p = f p' → p = p')
    (hasked : t.asked = s.asked) (hanswers : t.answers = s.answers) : Monitors t := by
  refine ⟨fun p => (h.nodup (f p)).sublist (hsub p), fun p p' k hk hk' => ?_, fun p k hk => ?_, ?_, ?_⟩
  · exact hinj p p' k hk hk' (h.unique _ _ k ((hsub p).subset hk) ((hsub p').subset hk'))
  · rw [hasked, hanswers]
    exact h.silent (f p) k ((hsub p).subset hk)
  · rw [hasked, hanswers]
    exact h.fresh
  · rw [hanswers]
    exact h.once

theorem Monitors.sub (h : Monitors s) (hsub : ∀ p, t.watchOf p = s.watchOf p ∨ t.watchOf p = [])
    (hasked : t.asked = s.asked) (hanswers : t.answers = s.answers) : Monitors t := by
  refine h.move id (fun p => ?_) (fun p p' _ _ _ he => he) hasked hanswers
  rcases hsub p with hp | hp
  · rw [hp]
    exact List.Sublist.refl _
  · rw [hp]
    exact nil_sublist _

theorem Monitors.ask (h : Monitors s) {p : ν ⊕ ℕ} {watch : List ℕ} (hk : s.asked k = false)
    (hsub : watch.Sublist (s.watchOf p)) (hself : t.watchOf p = watch ++ [k])
    (hother : ∀ q, q ≠ p → t.watchOf q = s.watchOf q)
    (hasked : t.asked = update s.asked k true) (hanswers : t.answers = s.answers) :
    Monitors t := by
  have hold : ∀ {q k'}, k' ∈ s.watchOf q → k' ≠ k := fun {q k'} hin he => by
    cases hk.symm.trans (he ▸ (h.silent q k' hin).1)
  have hin : ∀ {q k'}, k' ∈ t.watchOf q → k' ∈ s.watchOf q ∨ q = p ∧ k' = k := by
    intro q k' hk'
    by_cases hq : q = p
    · rw [hq, hself] at hk'
      rw [hq]
      exact (mem_append.1 hk').imp (hsub.subset ·) fun hk' => ⟨rfl, mem_singleton.1 hk'⟩
    · exact .inl (hother q hq ▸ hk')
  refine ⟨fun q => ?_, fun q q' k' hq hq' => ?_, fun q k' hq => ?_, fun k' hk' => ?_, ?_⟩
  · by_cases hq : q = p
    · rw [hq, hself]
      refine nodup_append.2 ⟨(h.nodup p).sublist hsub, nodup_singleton k, ?_⟩
      rintro x hx y hy rfl
      exact hold (hsub.subset hx) (mem_singleton.1 hy)
    · rw [hother q hq]
      exact h.nodup q
  · rcases hin hq with hold₁ | ⟨rfl, rfl⟩
    · rcases hin hq' with hold₂ | ⟨-, rfl⟩
      · exact h.unique q q' k' hold₁ hold₂
      · exact absurd rfl (hold hold₁)
    · rcases hin hq' with hold₂ | ⟨rfl, -⟩
      · exact absurd rfl (hold hold₂)
      · rfl
  · rw [hasked, hanswers]
    rcases hin hq with hq | ⟨-, rfl⟩
    · obtain ⟨hasked', hanswers'⟩ := h.silent q k' hq
      exact ⟨(update_of_ne (hold hq) ..).trans hasked', hanswers'⟩
    · exact ⟨update_self .., h.fresh k' hk⟩
  · rw [hanswers]
    refine h.fresh k' ?_
    rcases eq_or_ne k' k with rfl | hne
    · exact hk
    · rwa [hasked, update_of_ne hne] at hk'
  · rw [hanswers]
    exact h.once

theorem Monitors.same (h : Monitors s) (hpool : t.pool = s.pool) (hupdates : t.updates = s.updates)
    (hasked : t.asked = s.asked) (hanswers : t.answers = s.answers) : Monitors t := by
  refine h.sub (fun p => .inl ?_) hasked hanswers
  cases p with
  | inl name => rw [State.watchOf, hpool]; rfl
  | inr u => rw [State.watchOf, hupdates]; rfl

theorem monitors_answerAll {watch : List ℕ} (h : Monitors s) (hnodup : watch.Nodup)
    (hwatch : ∀ k ∈ watch, (s.asked k = true ∧ s.answers k = []) ∧ ∀ p, k ∉ s.watchOf p)
    (a : Option ℕ) : Monitors (answerAll s watch a)
      ∧ ∀ k ∈ watch, (answerAll s watch a).answers k = [a] := by
  have hwatchOf : ∀ p, (answerAll s watch a).watchOf p = s.watchOf p := fun p => by
    cases p <;> rfl
  have hself : ∀ k ∈ watch, (answerAll s watch a).answers k = [a] := by
    intro k hk
    have hcount : watch.count k = 1 := count_eq_one_of_mem hnodup hk
    simp only [answerAll, (hwatch k hk).1.2, hcount, nil_append, replicate_one]
  have hother : ∀ k, k ∉ watch → (answerAll s watch a).answers k = s.answers k := by
    intro k hk
    have hcount : watch.count k = 0 := count_eq_zero_of_not_mem hk
    simp only [answerAll, hcount, replicate_zero, append_nil]
  refine ⟨⟨fun p => ?_, fun p p' k hk hk' => ?_, fun p k hk => ?_, fun k hk => ?_, fun k => ?_⟩, hself⟩
  · rw [hwatchOf]
    exact h.nodup p
  · rw [hwatchOf] at hk hk'
    exact h.unique p p' k hk hk'
  · rw [hwatchOf] at hk
    rw [hother k fun hbad => (hwatch k hbad).2 p hk]
    exact h.silent p k hk
  · rw [hother k fun hbad => ?_]
    · exact h.fresh k hk
    · cases (hwatch k hbad).1.1.symm.trans hk
  · by_cases hk : k ∈ watch
    · rw [hself k hk]
      exact Nat.le_refl 1
    · rw [hother k hk]
      exact h.once k

theorem checkWatch_sublist (s : State ν) (v : Entry) (c : Count) :
    (checkWatch s v c).1.Sublist v.watch := by
  rw [checkWatch]
  split_ifs
  · exact filter_sublist
  · exact List.Sublist.refl _

section Pool

variable [DecidableEq ν]

theorem watchOf_newobj (hname : s.pool name = none) (p : ν ⊕ ℕ) :
    (newobj s name obj).watchOf p = s.watchOf p := by
  cases p with
  | inl name' =>
    rcases eq_or_ne name' name with rfl | hne
    · simp only [State.watchOf, newobj, update_self, hname]
      rfl
    · simp only [State.watchOf, newobj, update_of_ne hne]
  | inr u => rfl

theorem watchOf_leave (p : ν ⊕ ℕ) : (leave s name v).watchOf p
    = if p = .inl name then [] else s.watchOf p := by
  cases p with
  | inl name' =>
    rcases eq_or_ne name' name with rfl | hne
    · rw [if_pos rfl]
      simp only [State.watchOf, leave, update_self]
      rfl
    · rw [if_neg fun he => hne (Sum.inl.inj he)]
      simp only [State.watchOf, leave, update_of_ne hne]
  | inr u =>
    rw [if_neg fun he => nomatch he]
    rfl

theorem monitors_leave (h : Monitors s) : Monitors (leave s name v) := by
  refine h.sub (fun p => ?_) rfl rfl
  rw [watchOf_leave]
  split_ifs
  · exact .inr rfl
  · exact .inl rfl

theorem monitors_delete (h : Monitors s) (name : ν) : Monitors (cmdDelete s name) := by
  rw [cmdDelete]
  cases hv : s.pool name with
  | none => exact h
  | some v =>
    have hwatch := watchOf_pool hv
    refine (monitors_answerAll (monitors_leave h) (hwatch ▸ h.nodup (.inl name))
      (fun k hk => ⟨?_, fun p hp => ?_⟩) none).1
    · exact h.silent (.inl name) k (hwatch ▸ hk)
    · rw [watchOf_leave] at hp
      split_ifs at hp with hne
      · exact not_mem_nil hp
      · exact hne (h.unique p (.inl name) k hp (hwatch ▸ hk))

theorem watchOf_updateBegin (hu : s.updates u = none) (name : ν) (p : ν ⊕ ℕ) :
    (updateBegin s u name).watchOf p = if p = .inr u then s.watchOf (.inl name)
      else if p = .inl name then [] else s.watchOf p := by
  cases hv : s.pool name with
  | none =>
    simp only [updateBegin, hv]
    cases p with
    | inl name' =>
      rw [if_neg fun he => nomatch he]
      split_ifs with he
      · obtain rfl := Sum.inl.inj he
        simp only [State.watchOf, hv]
        rfl
      · rfl
    | inr u' =>
      rw [if_neg (c := Sum.inr u' = Sum.inl name) fun he => nomatch he]
      split_ifs with he
      · obtain rfl := Sum.inr.inj he
        simp only [State.watchOf, update_self, hv]
        rfl
      · simp only [State.watchOf, update_of_ne fun hbad => he (congrArg Sum.inr hbad)]
  | some v =>
    simp only [updateBegin, hv]
    cases p with
    | inl name' =>
      rw [if_neg (fun he => nomatch he), ← watchOf_leave (v := v)]
      rfl
    | inr u' =>
      rw [if_neg (c := Sum.inr u' = Sum.inl name) fun he => nomatch he]
      split_ifs with he
      · obtain rfl := Sum.inr.inj he
        simp only [State.watchOf, update_self, hv]
        rfl
      · have hne : u' ≠ u := fun hbad => he (congrArg Sum.inr hbad)
        simp only [State.watchOf, update_of_ne hne]
        rfl

theorem monitors_updateBegin (h : Monitors s) (hu : s.updates u = none) (name : ν) :
    Monitors (updateBegin s u name) := by
  have hwatch := watchOf_updateBegin hu name
  refine h.move (fun p => if p = .inr u then .inl name else p) (fun p => ?_)
    (fun p p' k hk hk' he => ?_) ?_ ?_
  · rw [hwatch]
    split_ifs
    · exact List.Sublist.refl _
    · exact nil_sublist _
    · exact List.Sublist.refl _
  · rw [hwatch] at hk hk'
    have hout : ∀ {p}, p ≠ .inr u → Sum.inl name = p →
        k ∉ (if p = .inr u then s.watchOf (.inl name)
          else if p = .inl name then [] else s.watchOf p) := by
      rintro p hne rfl
      rw [if_neg hne, if_pos rfl]
      exact not_mem_nil
    by_cases hp : p = .inr u
    · by_cases hp' : p' = .inr u
      · exact hp.trans hp'.symm
      · exact absurd hk' (hout hp' ((if_pos hp).symm.trans (he.trans (if_neg hp'))))
    · by_cases hp' : p' = .inr u
      · exact absurd hk (hout hp ((if_pos hp').symm.trans (he.symm.trans (if_neg hp))))
      · exact (if_neg hp).symm.trans (he.trans (if_neg hp'))
  · rw [updateBegin]
    split <;> rfl
  · rw [updateBegin]
    split <;> rfl

end Pool

/-! ## The steps -/

structure Inv (s : State ν) : Prop where
  objs : Objs s
  monitors : Monitors s

theorem Inv.init : Inv (State.init : State ν) := ⟨Objs.init, Monitors.init⟩

theorem Inv.objs_step (h : Inv s) (hobjs : Objs t) (hpool : t.pool = s.pool)
    (hupdates : t.updates = s.updates) (hasked : t.asked = s.asked)
    (hanswers : t.answers = s.answers) : Inv t :=
  ⟨hobjs, h.monitors.same hpool hupdates hasked hanswers⟩

theorem inv_query (h : Inv s) (name : ν) : Inv (cmdQuery s name) := by
  refine ⟨objs_query h.objs name, ?_⟩
  rw [cmdQuery]
  cases s.pool name with
  | none => exact h.monitors
  | some v => exact h.monitors.same rfl rfl rfl rfl

section Pool

variable [DecidableEq ν]

theorem watchOf_ended (s : State ν) (u : ℕ) (p : ν ⊕ ℕ) :
    ({ s with updates := update s.updates u none } : State ν).watchOf p
      = if p = .inr u then [] else s.watchOf p := by
  cases p with
  | inl name =>
    rw [if_neg fun he => nomatch he]
    rfl
  | inr u' =>
    split_ifs with he
    · obtain rfl := Sum.inr.inj he
      simp only [State.watchOf, update_self]
      rfl
    · simp only [State.watchOf, update_of_ne fun hbad => he (congrArg Sum.inr hbad)]

theorem inv_ended (h : Inv s) (u : ℕ) :
    Inv { s with updates := update s.updates u none } := by
  refine ⟨⟨h.objs.pooled, h.objs.inj, h.objs.refs, h.objs.held, fun u' up v hup hv => ?_⟩,
    h.monitors.sub (fun p => ?_) rfl rfl⟩
  · have hup : update s.updates u none u' = some up := hup
    rcases eq_or_ne u' u with rfl | hne
    · rw [update_self] at hup
      cases hup
    · rw [update_of_ne hne] at hup
      exact h.objs.old u' up v hup hv
  · rw [watchOf_ended]
    split_ifs
    · exact .inr rfl
    · exact .inl rfl

theorem inv_newobj (h : Inv s) (hname : s.pool name = none) (hobj : s.objmap obj = none) :
    Inv (newobj s name obj) := by
  refine ⟨objs_newobj h.objs hname hobj, h.monitors.sub (fun p => .inl ?_) rfl rfl⟩
  exact watchOf_newobj hname p

theorem inv_new {cobj : Option ℕ} (h : Inv s) (name : ν) (hfresh : s.Fresh cobj) :
    Inv ((cmdNew s name cobj).getD s) := by
  cases hname : s.pool name with
  | some v =>
    simp only [cmdNew, hname, getD_none]
    exact h
  | none =>
    cases cobj with
    | none =>
      simp only [cmdNew, hname, getD_none]
      exact h
    | some obj =>
      simp only [cmdNew, hname, getD_some]
      exact inv_newobj h hname (hfresh obj rfl)

theorem inv_delete (h : Inv s) (name : ν) : Inv (cmdDelete s name) := by
  refine ⟨?_, monitors_delete h.monitors name⟩
  rw [cmdDelete]
  cases hv : s.pool name with
  | none => exact h.objs
  | some v => exact objs_answerAll (objs_leave h.objs hv) _ fun _ hbad => nomatch hbad

theorem inv_updateBegin (h : Inv s) (hu : s.updates u = none) (name : ν) :
    Inv (updateBegin s u name) := by
  refine ⟨?_, monitors_updateBegin h.monitors hu name⟩
  have hobjs : ∀ {s' : State ν} {old : Option Entry}, Objs s' →
      (∀ v, old = some v → s'.objmap v.obj = some .gone) →
      Objs { s' with updates := update s'.updates u (some ⟨name, old⟩) } := by
    intro s' old h' hold
    refine ⟨h'.pooled, h'.inj, h'.refs, h'.held, fun u' up v hup hv => ?_⟩
    have hup : update s'.updates u (some ⟨name, old⟩) u' = some up := hup
    rcases eq_or_ne u' u with rfl | hne
    · rw [update_self] at hup
      cases hup
      exact hold v hv
    · rw [update_of_ne hne] at hup
      exact h'.old u' up v hup hv
  rw [updateBegin]
  cases hv : s.pool name with
  | none => exact hobjs h.objs fun _ hbad => nomatch hbad
  | some v =>
    refine hobjs (objs_leave h.objs hv) fun v' hv' => ?_
    cases hv'
    exact update_self ..

theorem inv_monitor (h : Inv s) (name : ν) (obj : ℕ) (hk : s.asked k = false) :
    Inv (cmdMonitor s name obj k) := by
  rw [cmdMonitor]
  cases hv : s.pool name with
  | none => exact h
  | some v =>
    cases hc : s.poolCount name with
    | none => exact h
    | some c =>
      simp only []
      by_cases hobj : obj ≠ v.obj
      · rw [if_pos hobj]
        refine h.objs_step (h.objs.same (fun _ v hv => ⟨v, hv, rfl⟩) rfl rfl rfl rfl rfl rfl
          fun o ho => ?_) rfl rfl rfl rfl
        rcases mem_cons.1 ho with rfl | ho
        · exact h.objs.pool_ne_none hv
        · exact h.objs.mem_unboxed ho
      · rw [if_neg hobj]
        have hsub : (checkWatch s v c).1.Sublist (s.watchOf (.inl name)) := by
          rw [watchOf_pool hv]
          exact checkWatch_sublist s v c
        refine ⟨h.objs.same (fun name' v' hv' => ?_) rfl rfl rfl rfl rfl rfl
            fun _ => h.objs.mem_unboxed,
          h.monitors.ask hk hsub ?_ (fun q hq => ?_) rfl rfl⟩
        · rcases eq_or_ne name' name with rfl | hne
          · cases (update_self name' _ s.pool).symm.trans hv'
            exact ⟨v, hv, rfl⟩
          · exact ⟨v', (update_of_ne hne ..).symm.trans hv', rfl⟩
        · simp only [State.watchOf, update_self]
          rfl
        · cases q with
          | inl name' =>
            have hne : name' ≠ name := fun he => hq (congrArg Sum.inl he)
            simp only [State.watchOf, update_of_ne hne]
          | inr u => rfl

/-! ## The end of an update -/

theorem updateEnd_of_new {up : Update ν} (cobj : Option ℕ) (hold : up.old = none) :
    updateEnd s u up cobj
      = (cmdNew { s with updates := update s.updates u none } up.name cobj).getD
        { s with updates := update s.updates u none } := by
  rw [updateEnd, hold]
  cases cmdNew { s with updates := update s.updates u none } up.name cobj <;> rfl

theorem updateEnd_of_old {up : Update ν} (hold : up.old = some v) (hname : s.pool up.name = none) :
    updateEnd s u up (some obj)
      = answerAll { newobj { s with updates := update s.updates u none } up.name obj with
          dirty := update (update s.dirty obj false) v.obj true }
        v.watch (some obj) := by
  simp only [updateEnd, cmdNew, hname, hold, newobj, update_self, map_some]

theorem installed_or_untouched_new {up : Update ν} (cobj : Option ℕ) (hold : up.old = none) :
    Installed up (updateEnd s u up cobj) ∨ Untouched up s (updateEnd s u up cobj) := by
  rw [updateEnd_of_new cobj hold]
  have huntouched : Untouched up s { s with updates := update s.updates u none } := by
    rw [Untouched, hold]
    exact ⟨rfl, rfl, rfl⟩
  cases hname : s.pool up.name with
  | some v =>
    simp only [cmdNew, hname, getD_none]
    exact .inr huntouched
  | none =>
    cases cobj with
    | none =>
      simp only [cmdNew, hname, getD_none]
      exact .inr huntouched
    | some obj =>
      simp only [cmdNew, hname, getD_some]
      refine .inl ⟨obj, update_self .., update_self .., fun v hv => ?_⟩
      cases hold.symm.trans hv

theorem inv_replace {up : Update ν} (h : Inv s) (hup : s.updates u = some up)
    (hold : up.old = some v) (hname : s.pool up.name = none) (hobj : s.objmap obj = none) :
    Inv (updateEnd s u up (some obj)) ∧ Installed up (updateEnd s u up (some obj)) := by
  have hgone := h.objs.old u up v hup hold
  have hne : v.obj ≠ obj := by
    intro he
    rw [he, hobj] at hgone
    cases hgone
  rw [updateEnd_of_old hold hname]
  obtain ⟨s₁, hs₁⟩ : ∃ s₁, s₁ = { s with updates := update s.updates u none } := ⟨_, rfl⟩
  obtain ⟨t, ht⟩ : ∃ t, t = { newobj s₁ up.name obj with
    dirty := update (update s.dirty obj false) v.obj true } := ⟨_, rfl⟩
  have hnew : Inv (newobj s₁ up.name obj) := by
    refine inv_newobj ?_ ?_ ?_
    · exact hs₁ ▸ inv_ended h u
    · exact hs₁ ▸ hname
    · exact hs₁ ▸ hobj
  have hinv : Inv t := by
    rw [ht]
    exact hnew.objs_step (hnew.objs.same (fun _ v hv => ⟨v, hv, rfl⟩) rfl rfl rfl rfl rfl rfl
      fun _ hin => hnew.objs.mem_unboxed hin) rfl rfl rfl rfl
  have hmap : t.objmap = update s.objmap obj (some .entry) := by rw [ht, hs₁]; rfl
  have hwait : ∀ k ∈ v.watch, (t.asked k = true ∧ t.answers k = []) ∧ ∀ p, k ∉ t.watchOf p := by
    intro k hk
    have hin : k ∈ s.watchOf (.inr u) := by
      rw [watchOf_update hup hold]
      exact hk
    have hsilent := h.monitors.silent (.inr u) k hin
    refine ⟨?_, fun p hp => ?_⟩
    · rw [ht, hs₁]
      exact hsilent
    · have hwatch : t.watchOf p = s₁.watchOf p := by
        have hsame : (newobj s₁ up.name obj).watchOf p = s₁.watchOf p :=
          watchOf_newobj (hs₁ ▸ hname) p
        rw [ht, ← hsame]
        cases p <;> rfl
      rw [hwatch, hs₁, watchOf_ended] at hp
      split_ifs at hp with he
      · exact not_mem_nil hp
      · exact he (h.monitors.unique p (.inr u) k hp hin)
  have hnodup : v.watch.Nodup := by
    rw [← watchOf_update hup hold]
    exact h.monitors.nodup (.inr u)
  have hmonitors := monitors_answerAll hinv.monitors hnodup hwait (some obj)
  rw [← hs₁, ← ht]
  refine ⟨⟨objs_answerAll hinv.objs _ fun o ho => ?_, hmonitors.1⟩, obj, ?_, ?_, fun v' hv' => ?_⟩
  · cases ho
    rw [hmap, update_self]
    exact fun hbad => nomatch hbad
  · rw [ht]
    exact update_self ..
  · exact (congrFun hmap obj).trans (update_self ..)
  · cases hold.symm.trans hv'
    refine ⟨hne, ?_, ?_, hmonitors.2⟩
    · exact (congrFun hmap v.obj).trans ((update_of_ne hne ..).trans hgone)
    · rw [ht]
      exact update_self ..

theorem inv_updateEnd {up : Update ν} {cobj : Option ℕ} (h : Inv s) (hup : s.updates u = some up)
    (hfresh : s.Fresh cobj)
    (htame : up.old.isSome = true → cobj.isSome = true ∧ s.pool up.name = none) :
    Inv (updateEnd s u up cobj)
      ∧ (Installed up (updateEnd s u up cobj) ∨ Untouched up s (updateEnd s u up cobj)) := by
  cases hold : up.old with
  | none =>
    refine ⟨?_, installed_or_untouched_new cobj hold⟩
    rw [updateEnd_of_new cobj hold]
    exact inv_new (inv_ended h u) up.name hfresh
  | some v =>
    obtain ⟨hsome, hname⟩ := htame (by rw [hold]; rfl)
    obtain ⟨obj, rfl⟩ := isSome_iff_exists.1 hsome
    obtain ⟨hinv, hinstalled⟩ := inv_replace h hup hold hname (hfresh obj rfl)
    exact ⟨hinv, .inl hinstalled⟩

/-! ## Runs -/

theorem inv_step {i : Label ν} (h : Inv s) (hok : Tame s i) (hst : step s i = some t) : Inv t := by
  cases i with
  | new name cobj =>
    obtain ⟨hfresh, rfl⟩ := of_guard hst
    exact inv_new h name hfresh
  | delete name =>
    cases hst
    exact inv_delete h name
  | query name =>
    cases hst
    exact inv_query h name
  | confirm cobj =>
    obtain ⟨hin, rfl⟩ := of_guard hst
    have hobjs := objs_confirm h.objs hin
    have hsome := isSome_iff_ne_none.2 (h.objs.mem_confirming hin)
    rw [cmdConfirm, if_pos hsome] at hobjs ⊢
    exact h.objs_step hobjs rfl rfl rfl rfl
  | updateBegin u name =>
    obtain ⟨hu, rfl⟩ := of_guard hst
    exact inv_updateBegin h hu name
  | updateEnd u cobj =>
    rw [step] at hst
    split at hst
    next up hup =>
      split_ifs at hst with hfresh
      cases hst
      exact (inv_updateEnd h hup hfresh (hok up hup)).1
    next => cases hst
  | monitor name obj k =>
    obtain ⟨hk, rfl⟩ := of_guard hst
    exact inv_monitor h name obj hk
  | collect =>
    cases hst
    exact h.objs_step (objs_collect h.objs hok) rfl rfl rfl rfl
  | box obj =>
    obtain ⟨hin, rfl⟩ := of_guard hst
    exact h.objs_step (objs_box h.objs hin) rfl rfl rfl rfl
  | take obj =>
    obtain ⟨hin, rfl⟩ := of_guard hst
    exact h.objs_step (objs_take h.objs hin) rfl rfl rfl rfl
  | drop obj =>
    obtain ⟨hin, rfl⟩ := of_guard hst
    refine h.objs_step (h.objs.same (fun _ v hv => ⟨v, hv, rfl⟩) rfl rfl rfl rfl rfl rfl
      fun o ho => ?_) rfl rfl rfl rfl
    exact h.objs.mem_unboxed (mem_of_mem_erase ho)
  | release obj =>
    obtain ⟨hin, rfl⟩ := of_guard hst
    exact h.objs_step (objs_release h.objs hin) rfl rfl rfl rfl
  | die k =>
    cases hst
    exact h.objs_step (h.objs.same (fun _ v hv => ⟨v, hv, rfl⟩) rfl rfl rfl rfl rfl rfl
      fun _ ho => h.objs.mem_unboxed ho) rfl rfl rfl rfl

theorem inv_of_reach (h : (machine (ν := ν)).Reach Tame s) : Inv s :=
  h.invariant Inv.init fun _ _ _ hinv hok hst => inv_step hinv hok hst

/-- In a run where no update of a name in the pool fails, and no sweep deletes an object that a client
has still to box as the answer of `monitor` or an update has still to mark, updates and objects are as
they are to be. -/
theorem sound_of_tame_updates (h : (machine (ν := ν)).Reach Tame s) : Sound s Tame := by
  have hinv := inv_of_reach h
  refine ⟨hinv.objs.pooled, fun obj hin => ?_, fun obj hin => hinv.objs.mem_unboxed hin,
    fun obj hin => hinv.objs.mem_boxes hin, hinv.monitors.once, fun u up cobj t hup hok hst => ?_⟩
  · rcases List.mem_append.1 hin with hin | hin
    · exact hinv.objs.mem_given hin
    · exact hinv.objs.mem_confirming hin
  · have hst : (if s.Fresh cobj then some (updateEnd s u up cobj) else none) = some t := by
      simpa only [step, hup] using hst
    split_ifs at hst with hfresh
    cases hst
    exact (inv_updateEnd hinv hup hfresh (hok up hup)).2

end Pool

/-- A client queries an object and monitors it; after the update it boxes the answer and releases the
old object, which the sweep deletes. -/
theorem sound_of_tame_updates_monitored : ∃ s : State ℕ, Sound s Tame ∧ s.pool 0 = some ⟨2, []⟩
    ∧ s.answers 7 = [some 2] ∧ s.boxes = [2] ∧ s.objmap 1 = none ∧ s.objmap 2 = some .entry := by
  have h₀ : machine.Reach Tame (State.init : State ℕ) := .init
  have h₁ := h₀.step (i := Label.new 0 (some 1)) trivial rfl
  have h₂ := h₁.step (i := Label.query 0) trivial rfl
  have h₃ := h₂.step (i := Label.box 1) trivial rfl
  have h₄ := h₃.step (i := Label.confirm 1) trivial rfl
  have h₅ := h₄.step (i := Label.monitor 0 1 7) trivial rfl
  have h₆ := h₅.step (i := Label.updateBegin 0 0) trivial rfl
  have h₇ := h₆.step (i := Label.updateEnd 0 (some 2)) (fun up hup _ => by
    cases hup
    exact ⟨rfl, rfl⟩) rfl
  have h₈ := h₇.step (i := Label.take 2) trivial rfl
  have h₉ := h₈.step (i := Label.release 1) trivial rfl
  have h₁₀ := h₉.step (i := Label.collect) (fun obj _ => ⟨List.not_mem_nil, fun u up v hup => by
    have hup : Function.update (Function.update (fun _ => none) 0 (some ⟨0, some ⟨1, [7]⟩⟩)) 0 none u
      = some up := hup
    rcases eq_or_ne u 0 with rfl | hne
    · cases hup
    · rw [Function.update_of_ne hne, Function.update_of_ne hne] at hup
      cases hup⟩) rfl
  exact ⟨_, sound_of_tame_updates h₁₀, rfl, by decide, rfl, by decide, by decide⟩

/-- An update whose data cannot be evaluated takes the name away, and its monitors are not answered. -/
theorem not_sound_failed_update : ∃ s : State ℕ, machine.Reachable s
    ∧ s.updates 3 = some ⟨0, some ⟨1, [7]⟩⟩ ∧ ¬ Sound s (fun _ _ => True) := by
  have h₀ : machine.Reachable (State.init : State ℕ) := .init
  have h₁ := h₀.step (i := Label.new 0 (some 1)) trivial rfl
  have h₂ := h₁.step (i := Label.monitor 0 1 7) trivial rfl
  have h₃ := h₂.step (i := Label.updateBegin 3 0) trivial rfl
  refine ⟨_, h₃, rfl, fun hsound => ?_⟩
  rcases hsound.updated 3 _ none _ rfl trivial rfl with ⟨obj, hpool, -⟩ | ⟨hpool, -⟩
  · cases hpool
  · cases hpool

end Sharedatad

end SkynetGame
