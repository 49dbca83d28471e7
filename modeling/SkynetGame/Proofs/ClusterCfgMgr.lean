import SkynetGame.ClusterCfgMgr

/-!
# What the store of endpoints reports

The loop of `set_all` takes out of the old map what the new one has too, so where it has come to the
end there is nothing left just if the two are the same (`setAllLoop_eq`, `setAllLoop_left`). This
takes two tables: given the map in the store itself, it empties it and reports nothing. And no file
is ever written, since `_pathm` is `nil`: a call that has to write one raises an error.
-/

namespace SkynetGame

open List

namespace ClusterCfgMgr

section Loops

variable {t old : Nodes} {order : List Entry}

theorem IsOrder.mem_iff (h : IsOrder order t) {e : Entry} : e ∈ order ↔ t.lookup e.1 = some e.2 := by
  rw [← Multiset.mem_coe, show (order : Multiset Entry) = t.entries from h]
  exact Finmap.mem_lookup_iff.symm

theorem IsOrder.nodup (h : IsOrder order t) : (order.map Sigma.fst).Nodup := by
  have hkeys : (t.entries.map Sigma.fst).Nodup := t.nodupKeys.nodup_keys
  rw [← show (order : Multiset Entry) = t.entries from h] at hkeys
  exact hkeys

theorem setAllLoop_eq : ∀ {order : List Entry} {old : Nodes}, (order.map Sigma.fst).Nodup →
    ((setAllLoop order old).1 = false ↔ ∀ e ∈ order, old.lookup e.1 = some e.2)
  | [], _, _ => by simp [setAllLoop]
  | e :: order, old, h => by
    rw [map_cons, nodup_cons] at h
    unfold setAllLoop
    by_cases he : old.lookup e.1 = some e.2
    · have herase : ∀ e' ∈ order, (old.erase e.1).lookup e'.1 = old.lookup e'.1 := fun e' he' =>
        Finmap.lookup_erase_ne fun heq => h.1 (heq ▸ mem_map_of_mem he')
      rw [if_neg (not_not.2 he), setAllLoop_eq h.2, forall_mem_cons]
      refine ⟨fun hall => ⟨he, fun e' he' => ?_⟩, fun hall e' he' => ?_⟩
      · rw [← herase e' he']
        exact hall e' he'
      · rw [herase e' he']
        exact hall.2 e' he'
    · rw [if_pos he]
      simp [he]

theorem setAllLoop_left : ∀ {order : List Entry} {old : Nodes},
    (setAllLoop order old).1 = false → ∀ k, (setAllLoop order old).2.lookup k =
      if k ∈ order.map Sigma.fst then none else old.lookup k
  | [], _, _, k => by simp [setAllLoop]
  | e :: order, old, h, k => by
    unfold setAllLoop at h ⊢
    by_cases he : old.lookup e.1 = some e.2
    · rw [if_neg (not_not.2 he)] at h ⊢
      rw [setAllLoop_left h k, map_cons]
      by_cases hk : k ∈ order.map Sigma.fst
      · rw [if_pos hk, if_pos (mem_cons_of_mem _ hk)]
      · by_cases hke : k = e.1
        · subst hke
          simp [hk, Finmap.lookup_erase]
        · simp [hk, hke, Finmap.lookup_erase_ne hke]
    · rw [if_pos he] at h
      cases h

theorem setAllLoop_iff (h : IsOrder order t) :
    ((setAllLoop order old).1 = true ∨ (setAllLoop order old).2 ≠ ∅) ↔ t ≠ old := by
  rcases hfound : (setAllLoop order old).1 with _ | _
  · have hall := (setAllLoop_eq h.nodup).1 hfound
    have hleft := setAllLoop_left hfound
    simp only [Bool.false_eq_true, false_or, ne_eq, not_iff_not]
    refine ⟨fun hempty => Finmap.ext_lookup fun k => ?_, ?_⟩
    · have hk := hleft k
      rw [hempty, Finmap.lookup_empty] at hk
      by_cases hmem : k ∈ order.map Sigma.fst
      · obtain ⟨e, he, rfl⟩ := mem_map.1 hmem
        rw [h.mem_iff.1 he, hall e he]
      · rw [if_neg hmem] at hk
        rw [← hk]
        rcases hv : t.lookup k with _ | v
        · rfl
        · exact absurd (mem_map_of_mem (f := Sigma.fst)
            ((h.mem_iff (e := ⟨k, v⟩)).2 hv)) hmem
    · rintro rfl
      refine Finmap.ext_lookup fun k => ?_
      rw [hleft k, Finmap.lookup_empty, ite_eq_left_iff]
      intro hmem
      rcases hv : t.lookup k with _ | v
      · rfl
      · exact absurd (mem_map_of_mem (f := Sigma.fst)
          ((h.mem_iff (e := ⟨k, v⟩)).2 hv)) hmem
  · simp only [true_or, true_iff]
    rintro rfl
    rw [(setAllLoop_eq h.nodup).2 fun e he => h.mem_iff.1 he] at hfound
    cases hfound

theorem setAllLoop_self (h : IsOrder order t) : setAllLoop order t = (false, ∅) := by
  have hno : ¬ ((setAllLoop order t).1 = true ∨ (setAllLoop order t).2 ≠ ∅) := by
    rw [setAllLoop_iff h]
    exact not_not.2 rfl
  rw [not_or, not_not, Bool.not_eq_true] at hno
  exact Prod.ext hno.1 hno.2

theorem msetLoop_lookup (k : Bytes) : ∀ (order : List Entry) (changed : Option Bool) (old : Nodes),
    (order.map Sigma.fst).Nodup →
      (∀ v, ⟨k, v⟩ ∈ order → (msetLoop order changed old).2.lookup k = some v) ∧
      (k ∉ order.map Sigma.fst → (msetLoop order changed old).2.lookup k = old.lookup k)
  | [], _, _, _ => ⟨fun v hv => absurd hv not_mem_nil, fun _ => rfl⟩
  | e :: order, changed, old, h => by
    rw [map_cons, nodup_cons] at h
    obtain ⟨hin, hout⟩ := msetLoop_lookup k order
      (if changed = some true then changed else some (old.lookup e.1 ≠ some e.2))
      (old.insert e.1 e.2) h.2
    refine ⟨fun v hv => ?_, fun hk => ?_⟩
    · rcases mem_cons.1 hv with rfl | hv
      · exact (hout h.1).trans (Finmap.lookup_insert _)
      · exact hin v hv
    · rw [map_cons, mem_cons, not_or] at hk
      exact (hout hk.2).trans (Finmap.lookup_insert_of_ne _ hk.1)

theorem msetLoop_changed : ∀ {order : List Entry} {changed : Option Bool} {old : Nodes},
    (order.map Sigma.fst).Nodup → ((msetLoop order changed old).1 = some true ↔
      changed = some true ∨ ∃ e ∈ order, old.lookup e.1 ≠ some e.2)
  | [], changed, old, _ => by simp [msetLoop]
  | e :: order, changed, old, h => by
    rw [map_cons, nodup_cons] at h
    have hinsert : ∀ e' ∈ order, (old.insert e.1 e.2).lookup e'.1 = old.lookup e'.1 := fun e' he' =>
      Finmap.lookup_insert_of_ne _ fun heq => h.1 (heq ▸ mem_map_of_mem he')
    rw [msetLoop, msetLoop_changed h.2, exists_mem_cons_iff]
    have hex : (∃ e' ∈ order, (old.insert e.1 e.2).lookup e'.1 ≠ some e'.2) ↔
        ∃ e' ∈ order, old.lookup e'.1 ≠ some e'.2 :=
      exists_congr fun e' => and_congr_right fun he' => by rw [hinsert e' he']
    rw [hex]
    by_cases hchanged : changed = some true
    · simp [hchanged]
    · rw [if_neg hchanged, Option.some.injEq, decide_eq_true_iff]
      simp [hchanged]

theorem msetLoop_iff (h : IsOrder order t) : (∃ e ∈ order, old.lookup e.1 ≠ some e.2) ↔
    (msetLoop order none old).2 ≠ old := by
  refine ⟨?_, fun hne => ?_⟩
  · rintro ⟨e, he, hold⟩ heq
    rw [← heq] at hold
    exact hold ((msetLoop_lookup e.1 order none old h.nodup).1 e.2 he)
  · by_contra hall
    push Not at hall
    refine hne (Finmap.ext_lookup fun k => ?_)
    by_cases hk : k ∈ order.map Sigma.fst
    · obtain ⟨e, he, rfl⟩ := mem_map.1 hk
      rw [(msetLoop_lookup e.1 order none old h.nodup).1 e.2 he, hall e he]
    · exact (msetLoop_lookup k order none old h.nodup).2 hk

end Loops

/-- The map is given, and so is the endpoint. -/
def Call.Given : Call → Prop
  | .set _ endpoit => endpoit.isSome
  | .setAll nodes _ => nodes.isSome
  | .mset nodes _ => nodes.isSome

/-- The endpoints given are others than those in the store, or not the same for all names. -/
def Call.Alters (s : State) : Call → Prop
  | .set name endpoit => s.stored.lookup name ≠ endpoit
  | .setAll nodes _ => nodes.elim ∅ s.table ≠ s.stored
  | .mset nodes _ => ∃ name endpoit, (nodes.elim ∅ s.table).lookup name = some endpoit ∧
      s.stored.lookup name ≠ some endpoit

section Calls

variable {s : State} {c : Call} {noSync : Bool} {written : List Entry}

/-- What a call does up to its last lines: `changed`, and the state then. Where it is given the map
in the store itself, `set_all` empties it. -/
structure Does (c : Call) (s : State) (changed : Option Bool) (s' : State) : Prop where
  files : s'.files = s.files
  path : s'.mgr.path = s.mgr.path
  pathm : s'.mgr.pathm = s.mgr.pathm
  pending : s'.mgr.changed = s.mgr.changed
  valid : s'.mgr.nodes < s'.tables.length
  reports : (∀ order, c ≠ .setAll (some s.mgr.nodes) order) →
    (changed = some true ↔ s'.stored ≠ s.stored)
  alters : changed = some true ↔ c.Alters s
  untouched : (∀ order, c ≠ .setAll (some s.mgr.nodes) order) →
    ∀ r, c.nodes = some r → s'.table r = s.table r
  emptied : (∃ order, c = .setAll (some s.mgr.nodes) order) →
    changed = none ∧ s'.mgr.nodes = s.mgr.nodes ∧ s'.stored = ∅

theorem table_setTable {r : ℕ} {t : Nodes} (h : r < s.tables.length) : (s.setTable r t).table r = t := by
  simp [State.table, State.setTable, h]

theorem table_setTable_of_ne {r r' : ℕ} {t : Nodes} (h : r' ≠ r) :
    (s.setTable r t).table r' = s.table r' := by
  simp [State.table, State.setTable, getElem?_set_ne h.symm]

@[simp] theorem length_setTable {r : ℕ} {t : Nodes} :
    (s.setTable r t).tables.length = s.tables.length := length_set

theorem does_set {name : Bytes} {endpoit : Bytes} (hs : s.mgr.nodes < s.tables.length) :
    ∃ changed s', set name (some endpoit) noSync written s = finish changed noSync written s' ∧
      Does (.set name (some endpoit)) s changed s' := by
  unfold set
  by_cases h : s.stored.lookup name ≠ some endpoit
  · rw [if_pos h]
    refine ⟨_, _, rfl, rfl, rfl, rfl, rfl, ?_, fun _ => ?_,
      iff_of_true rfl h, fun _ _ hr => absurd hr (Option.some_ne_none _).symm, fun ⟨_, heq⟩ => by cases heq⟩
    · rwa [length_setTable]
    · refine iff_of_true rfl fun heq => h ?_
      rw [← heq]
      show ((s.setTable s.mgr.nodes _).table s.mgr.nodes).lookup name = _
      rw [table_setTable hs, Finmap.lookup_insert]
  · rw [if_neg h]
    exact ⟨_, s, rfl, rfl, rfl, rfl, rfl, hs, fun _ => by simp,
      iff_of_false (by simp) h, fun _ r hr => rfl,
      fun ⟨_, heq⟩ => by cases heq⟩

theorem does_setAll {r : ℕ} {order : List Entry} (hs : s.mgr.nodes < s.tables.length)
    (hv : (Call.setAll (some r) order).Valid s) :
    ∃ changed s', setAll (some r) order noSync written s = finish changed noSync written s' ∧
      Does (.setAll (some r) order) s changed s' := by
  obtain ⟨hr, horder⟩ := hv
  obtain ⟨s₁, hs₁⟩ : ∃ s₁, s₁ = ({ s with mgr := { s.mgr with nodes := r } } : State).setTable
      s.mgr.nodes (setAllLoop order s.stored).2 := ⟨_, rfl⟩
  refine ⟨if (setAllLoop order s.stored).1 ∨ (setAllLoop order s.stored).2 ≠ ∅ then some true
    else none, s₁, ?_, ?_⟩
  · rw [hs₁]
    rfl
  · have hstored : s₁.stored = s₁.table r := by rw [hs₁]; rfl
    subst hs₁
    have halters : (if (setAllLoop order s.stored).1 ∨ (setAllLoop order s.stored).2 ≠ ∅
        then some true else none) = some true ↔ s.table r ≠ s.stored := by
      rw [← setAllLoop_iff horder]
      split_ifs with h
      · exact iff_of_true rfl h
      · exact iff_of_false (by simp) h
    refine ⟨rfl, rfl, rfl, rfl, by rwa [length_setTable], fun hne => ?_, halters,
      fun hne r' hr' => ?_, fun ⟨order', heq⟩ => ?_⟩
    · have hold : r ≠ s.mgr.nodes := fun heq => hne order (heq ▸ rfl)
      rw [hstored, table_setTable_of_ne hold]
      exact halters
    · have hold : r ≠ s.mgr.nodes := fun heq => hne order (heq ▸ rfl)
      cases hr'
      exact table_setTable_of_ne hold
    · cases heq
      have hself : setAllLoop order s.stored = (false, ∅) := setAllLoop_self horder
      rw [hself] at hstored ⊢
      exact ⟨by simp, rfl, hstored.trans (table_setTable hs)⟩

theorem does_mset {r : ℕ} {order : List Entry} (hs : s.mgr.nodes < s.tables.length)
    (hv : (Call.mset (some r) order).Valid s) :
    ∃ changed s', mset (some r) order noSync written s = finish changed noSync written s' ∧
      Does (.mset (some r) order) s changed s' := by
  obtain ⟨hr, horder⟩ := hv
  refine ⟨_, _, rfl, rfl, rfl, rfl, rfl, ?_, fun _ => ?_, ?_, fun _ r' hr' => ?_,
    fun ⟨_, heq⟩ => by cases heq⟩
  · rwa [length_setTable]
  · show _ ↔ (s.setTable s.mgr.nodes _).table s.mgr.nodes ≠ s.stored
    rw [table_setTable hs, ← msetLoop_iff horder, msetLoop_changed horder.nodup]
    simp
  · rw [msetLoop_changed horder.nodup]
    refine ⟨fun h => ?_, fun ⟨name, endpoit, he, hold⟩ => .inr ⟨⟨name, endpoit⟩, horder.mem_iff.2 he,
      hold⟩⟩
    obtain ⟨e, he, hold⟩ := h.resolve_left (by simp)
    exact ⟨e.1, e.2, horder.mem_iff.1 he, hold⟩
  · cases hr'
    by_cases hself : r = s.mgr.nodes
    · subst hself
      rw [table_setTable hs]
      by_contra hne
      obtain ⟨e, he, hold⟩ := (msetLoop_iff horder).2 hne
      exact hold (horder.mem_iff.1 he)
    · exact table_setTable_of_ne hself

theorem does_run (noSync : Bool) (written : List Entry) (hs : s.mgr.nodes < s.tables.length) (hc : c.Given) (hv : c.Valid s) :
    ∃ changed s', c.run noSync written s = finish changed noSync written s' ∧
      Does c s changed s' := by
  cases c with
  | set name endpoit =>
    obtain ⟨endpoit, rfl⟩ := Option.isSome_iff_exists.1 hc
    exact does_set hs
  | setAll nodes order =>
    obtain ⟨r, rfl⟩ := Option.isSome_iff_exists.1 hc
    exact does_setAll hs hv
  | mset nodes order =>
    obtain ⟨r, rfl⟩ := Option.isSome_iff_exists.1 hc
    exact does_mset hs hv

theorem lor_eq_true {a b : Option Bool} :
    lor a b = some true ↔ a = some true ∨ b = some true := by
  unfold lor
  split_ifs with h <;> simp [h]

@[simp] theorem stored_setChanged {changed : Option Bool} :
    (s.setChanged changed).stored = s.stored := rfl

@[simp] theorem table_setChanged {changed : Option Bool} {r : ℕ} :
    (s.setChanged changed).table r = s.table r := rfl

theorem finish_sync {changed : Option Bool} (hp : s.mgr.pathm = none) :
    finish changed false written s =
      if s.mgr.path.isSome ∧ (s.mgr.changed = some true ∨ changed = some true) then
        (.raised, s.setChanged (lor s.mgr.changed changed))
      else (.returned changed, s.setChanged none) := by
  have hsync : sync false written (s.setChanged (lor s.mgr.changed changed)) =
      if s.mgr.path.isSome ∧ (s.mgr.changed = some true ∨ changed = some true) then none
      else some (s.setChanged none) := by
    simp only [sync, State.setChanged, hp, lor_eq_true]
    simp
  simp only [finish, Bool.false_eq_true, if_false, hsync]
  split_ifs <;> rfl

end Calls

/-- What a call is to do: it reports a change just if the map in the store is another one then, it
leaves the map alone that it is given, and the file gives the map in the store, unless it is not
written yet. -/
structure Meets (load : Bytes → Option Nodes) (c : Call) (noSync : Bool) (s : State)
    (r : Outcome × State) : Prop where
  reports : ∃ changed, r.1 = .returned changed ∧ (changed = some true ↔ r.2.stored ≠ s.stored)
  untouched : ∀ a, c.nodes = some a → r.2.table a = s.table a
  kept : noSync = false → s.mgr.path.isSome →
    loadconfig load s.mgr.path r.2.files = some r.2.stored

/-- The map that `set_all` is given is not the one in the store, unless that is empty, and where
there is a file it need not be written: nothing has changed, or it is not asked for. -/
structure Harmless (c : Call) (noSync : Bool) (s : State) : Prop where
  other : (∃ order, c = .setAll (some s.mgr.nodes) order) → s.stored = ∅
  written : noSync = false → s.mgr.path.isSome → s.mgr.changed ≠ some true ∧ ¬ c.Alters s

/-- What holds of a store before and after calls that do no harm. -/
structure Inv (load : Bytes → Option Nodes) (s : State) : Prop where
  pathm : s.mgr.pathm = none
  valid : s.mgr.nodes < s.tables.length
  loaded : s.mgr.path.isSome → s.mgr.changed ≠ some true →
    loadconfig load s.mgr.path s.files = some s.stored

section Runs

variable {load : Bytes → Option Nodes} {s : State} {c : Call} {noSync : Bool}
  {written : List Entry}

theorem Does.stored_eq {changed : Option Bool} {s' : State} (hd : Does c s changed s')
    (hother : (∃ order, c = .setAll (some s.mgr.nodes) order) → s.stored = ∅)
    (hno : changed ≠ some true) : s'.stored = s.stored := by
  by_cases hself : ∃ order, c = .setAll (some s.mgr.nodes) order
  · rw [(hd.emptied hself).2.2, hother hself]
  · exact not_not.1 fun hne => hno ((hd.reports fun order heq => hself ⟨order, heq⟩).2 hne)

/-- A call reports what it does to the store, and leaves its map alone, unless that is the one in the
store. -/
theorem Does.meets {changed : Option Bool} {s' : State} (hd : Does c s changed s')
    (hother : (∃ order, c = .setAll (some s.mgr.nodes) order) → s.stored = ∅) :
    (changed = some true ↔ s'.stored ≠ s.stored) ∧
      ∀ a, c.nodes = some a → s'.table a = s.table a := by
  by_cases hself : ∃ order, c = .setAll (some s.mgr.nodes) order
  · obtain ⟨hnone, hnodes, hempty⟩ := hd.emptied hself
    refine ⟨by simp [hnone, hempty, hother hself], fun a ha => ?_⟩
    have hstored := hother hself
    obtain ⟨order, rfl⟩ := hself
    cases ha
    calc s'.table s.mgr.nodes = s'.stored := by rw [State.stored, hnodes]
      _ = s.stored := hempty.trans hstored.symm
  · have hne : ∀ order, c ≠ .setAll (some s.mgr.nodes) order := fun order heq => hself ⟨order, heq⟩
    exact ⟨hd.reports hne, hd.untouched hne⟩

theorem meets_of_harmless (hi : Inv load s) (hc : c.Given) (hv : c.Valid s)
    (h : Harmless c noSync s) :
    Meets load c noSync s (c.run noSync written s) ∧ Inv load (c.run noSync written s).2 := by
  obtain ⟨changed, s', hrun, hd⟩ := does_run noSync written hi.valid hc hv
  obtain ⟨hreports, huntouched⟩ := hd.meets h.other
  have hloaded : s.mgr.path.isSome → s.mgr.changed ≠ some true → changed ≠ some true →
      loadconfig load s'.mgr.path s'.files = some s'.stored := fun hpath hpending hno => by
    rw [hd.path, hd.files, hd.stored_eq h.other hno]
    exact hi.loaded hpath hpending
  rw [hrun]
  rcases noSync with _ | _
  · have hno : ¬ (s'.mgr.path.isSome ∧ (s'.mgr.changed = some true ∨ changed = some true)) := by
      rw [hd.path, hd.pending]
      rintro ⟨hpath, hpending | hchanged⟩
      · exact (h.written rfl hpath).1 hpending
      · exact (h.written rfl hpath).2 (hd.alters.1 hchanged)
    have hkept : s.mgr.path.isSome → loadconfig load s'.mgr.path s'.files = some s'.stored :=
      fun hpath => hloaded hpath (h.written rfl hpath).1 fun hchanged =>
        (h.written rfl hpath).2 (hd.alters.1 hchanged)
    rw [finish_sync (hd.pathm.trans hi.pathm), if_neg hno]
    refine ⟨⟨⟨changed, rfl, hreports⟩, huntouched, fun _ hpath => ?_⟩,
      ⟨hd.pathm.trans hi.pathm, hd.valid, fun hpath _ => ?_⟩⟩
    · rw [← hd.path]
      exact hkept hpath
    · exact hkept (by rwa [← hd.path])
  · refine ⟨⟨⟨changed, rfl, hreports⟩, huntouched, fun hsync => by cases hsync⟩,
      ⟨hd.pathm.trans hi.pathm, hd.valid, fun hpath hno => ?_⟩⟩
    have hpending : ¬ lor s'.mgr.changed changed = some true := hno
    rw [lor_eq_true, hd.pending, not_or] at hpending
    exact hloaded (by rwa [← hd.path]) hpending.1 hpending.2

theorem harmless_of_meets (hi : Inv load s) (hc : c.Given) (hv : c.Valid s)
    (h : Meets load c noSync s (c.run noSync written s)) : Harmless c noSync s := by
  obtain ⟨changed, s', hrun, hd⟩ := does_run noSync written hi.valid hc hv
  obtain ⟨reported, hreturned, hreports⟩ := h.reports
  rw [hrun] at hreturned hreports
  have hfound : (noSync = false → s.mgr.path.isSome →
      ¬ (s.mgr.changed = some true ∨ changed = some true)) ∧
        (changed = some true ↔ s'.stored ≠ s.stored) := by
    rcases noSync with _ | _
    · rw [finish_sync (hd.pathm.trans hi.pathm), hd.path, hd.pending] at hreturned hreports
      by_cases hwrite : s.mgr.path.isSome ∧ (s.mgr.changed = some true ∨ changed = some true)
      · rw [if_pos hwrite] at hreturned
        cases hreturned
      · rw [if_neg hwrite] at hreturned hreports
        cases hreturned
        exact ⟨fun _ hpath hchanged => hwrite ⟨hpath, hchanged⟩, hreports⟩
    · cases hreturned
      exact ⟨fun hsync => absurd hsync (by decide), hreports⟩
  refine ⟨fun hself => ?_, fun hsync hpath => ?_⟩
  · obtain ⟨hnone, -, hempty⟩ := hd.emptied hself
    have hsame := not_not.1 (mt hfound.2.2 (by simp [hnone]))
    rw [← hsame, hempty]
  · have hno := not_or.1 (hfound.1 hsync hpath)
    exact ⟨hno.1, fun halters => hno.2 (hd.alters.2 halters)⟩

/-- The calls have their arguments, and do no harm. -/
def Fits (s : State) : Label → Prop
  | .call c noSync _ => c.Given ∧ Harmless c noSync s
  | _ => True

theorem Inv.append (h : Inv load s) (t : Nodes) :
    Inv load { s with tables := s.tables ++ [t] } := by
  have hstored : ({ s with tables := s.tables ++ [t] } : State).stored = s.stored := by
    simp only [State.stored, State.table, getD_eq_getElem?_getD]
    rw [getElem?_append_left h.valid]
  refine ⟨h.pathm, ?_, fun hpath hno => ?_⟩
  · rw [length_append]
    exact Nat.lt_add_right _ h.valid
  · rw [hstored]
    exact h.loaded hpath hno

theorem Inv.step {s' : State} {l : Label} (h : Inv load s) (hf : Fits s l)
    (hst : step s l = some s') : Inv load s' := by
  cases l with
  | call c noSync written =>
    obtain ⟨hv, rfl⟩ := of_guard hst
    exact (meets_of_harmless h hf.1 hv.1 hf.2).2
  | getAll clone =>
    cases hst
    unfold getAll
    split_ifs
    · exact h.append s.stored
    · exact h
  | table t =>
    cases hst
    exact h.append t

theorem inv_new {path : Option Bytes} {nodes : Option Nodes} {files : Bytes → Option Bytes}
    (h : new load path nodes files written = some s) : Inv load s := by
  unfold new at h
  rcases nodes with _ | t
  · obtain ⟨t, ht, h⟩ := Option.map_eq_some_iff.1 h
    cases h
    exact ⟨rfl, Nat.zero_lt_one, fun _ _ => ht⟩
  · simp only [sync] at h
    split_ifs at h with hpath
    · cases h
    · cases h
      exact ⟨rfl, Nat.zero_lt_one, fun hsome => absurd ⟨hsome, .inl trivial⟩ hpath⟩

/-- In every run of calls that do no harm, a call does what it is to do just if it does no harm. -/
theorem meets_iff_harmless {path : Option Bytes} {nodes : Option Nodes}
    {files : Bytes → Option Bytes} {written₀ : List Entry} {s₀ : State}
    (hnew : new load path nodes files written₀ = some s₀) (h : (machine s₀).Reach Fits s)
    (hc : c.Given) (hv : c.Valid s) :
    Meets load c noSync s (c.run noSync written s) ↔ Harmless c noSync s := by
  have hi : Inv load s := h.invariant (inv_new hnew) fun _ _ _ hi hf hst => hi.step hf hst
  exact ⟨harmless_of_meets hi hc hv, fun hh => (meets_of_harmless hi hc hv hh).1⟩

end Runs

def gate : Entry := ⟨Bytes.ascii "gate", Bytes.ascii "127.0.0.1:2528"⟩

/-- A store without a file, and the tables. -/
def noFile (tables : List Nodes) : State := ⟨tables, fun _ => none, ⟨none, none, 0, none⟩⟩

/-- A store without a file is given a map with one node, and reports the change. -/
theorem meets_setAll : Meets (fun _ => none) (.setAll (some 1) [gate]) false
    (noFile [∅, .singleton gate.1 gate.2])
    ((Call.setAll (some 1) [gate]).run false [] (noFile [∅, .singleton gate.1 gate.2])) :=
  (@meets_iff_harmless (fun _ => none) _ (.setAll (some 1) [gate]) false [] none (some ∅)
    (fun _ => none) [] (noFile [∅]) rfl
    (.step .init trivial (i := .table (.singleton gate.1 gate.2)) rfl) rfl ⟨by decide, rfl⟩).2
    ⟨fun _ => rfl, fun _ hpath => by cases hpath⟩

/-- A store with a file that is not there yet. -/
def newFile : State :=
  ⟨[∅], fun _ => none, ⟨some (Bytes.ascii "clustername.lua"), none, 0, some false⟩⟩

/-- The map that `get_all` gave is emptied by `set_all`, which reports no change. And where there is
a file, no endpoint can be set. -/
theorem not_meets_getAll :
    new (fun _ => none) none (some (.singleton gate.1 gate.2)) (fun _ => none) [gate] =
      some (noFile [.singleton gate.1 gate.2]) ∧
    ¬ Meets (fun _ => none)
      (.setAll (some (getAll false (noFile [.singleton gate.1 gate.2])).1) [gate]) false
      (noFile [.singleton gate.1 gate.2])
      ((Call.setAll (some 0) [gate]).run false [] (noFile [.singleton gate.1 gate.2])) ∧
    new (fun _ => none) (some (Bytes.ascii "clustername.lua")) none (fun _ => none) [] =
      some newFile ∧
    ¬ Meets (fun _ => none) (.set gate.1 (some gate.2)) false newFile
      ((Call.set gate.1 (some gate.2)).run false [gate] newFile) := by
  refine ⟨rfl, fun h => ?_, rfl, fun h => ?_⟩
  · have hlookup := congrArg (Finmap.lookup gate.1) (h.untouched 0 rfl)
    revert hlookup
    decide
  · obtain ⟨changed, hreturned, -⟩ := h.reports
    cases hreturned

end ClusterCfgMgr

end SkynetGame
