import SkynetGame.ServiceMgr

/-!
# One launch for a name, and one answer

A name is not asked for, asked for by queries only, in a call, or settled (`Stage`). While nothing
launches a name that the manager of another node is queried for, and no call comes back with `nil`,
it only goes forward through these.
-/

namespace SkynetGame

open List Option

namespace ServiceMgr

/-- The same handle, or the same error wherever it was raised. -/
def Answer.Same : Answer → Answer → Prop
  | .handle h, .handle h' => h = h'
  | .nil, .nil => True
  | .error _ e, .error _ e' => e = e'
  | _, _ => False

/-- What a settled name gives its callers. -/
def Service.Gives : Service → Answer → Prop
  | .handle h, a => a = .handle h
  | .failed e, a => ∃ line, a = .error line e
  | .waiting _ _, _ => False

def Service.Settled : Service → Prop
  | .handle _ | .failed _ => True
  | .waiting _ _ => False

/-- What is promised for a name: it is launched once, its callers get the same, each once and as
soon as it is settled, and none of them waits for a launch that nobody made. -/
structure Unique (s : ServiceMgr) (name : Bytes) : Prop where
  once : ((s.issued name).filter Call.launches).length ≤ 1
  same : ∀ a ∈ s.answers name, ∀ b ∈ s.answers name, a.2.Same b.2
  answered : ((s.answers name).map (·.1)).Nodup
  gets : ∀ v, s.service name = some v → v.Settled →
    ∀ p ∈ s.asked name, p.1 ∈ (s.answers name).map (·.1)
  issued : ∀ l q, s.service name = some (.waiting l q) → ∀ p ∈ s.asked name, p.1 ∈ q →
    p.2 = true → ∃ call ∈ s.issued name, call.launches = true

/-- Nothing is to launch a name that another manager is queried for, and no call is to come back
with `nil`. -/
def Tame (standalone : Bool) (s : ServiceMgr) : Action → Prop
  | .request r => r.launches = true → ∀ name func, r.func standalone = some (name, func) →
    ∀ p ∈ s.calls name, p.2.launches = true
  | .returned _ _ out => out ≠ .nil

inductive Stage (s : ServiceMgr) (name : Bytes) : Prop
  | unasked (hs : s.service name = none) (hc : s.calls name = []) (hi : s.issued name = [])
      (hq : s.asked name = []) (ha : s.answers name = [])
  | queried (q : List ℕ) (hs : s.service name = some (.waiting false q)) (hc : s.calls name = [])
      (hi : s.issued name = []) (hq : (s.asked name).map (·.1) = q)
      (hl : ∀ p ∈ s.asked name, p.2 = false) (ha : s.answers name = [])
  | called (q : List ℕ) (co : ℕ) (call : Call) (hs : s.service name = some (.waiting true q))
      (hc : s.calls name = [(co, call)]) (hi : s.issued name = [call])
      (hq : ((s.asked name).map (·.1)).Perm (co :: q))
      (hl : call.launches = false → ∀ p ∈ s.asked name, p.2 = false) (ha : s.answers name = [])
  | settled (v : Service) (hs : s.service name = some v) (hv : v.Settled) (hc : s.calls name = [])
      (hi : (s.issued name).length ≤ 1)
      (hq : ((s.answers name).map (·.1)).Perm ((s.asked name).map (·.1)))
      (ha : ∀ a ∈ s.answers name, v.Gives a.2)

/-- What holds of a name in every run of tame steps. -/
structure Inv (s : ServiceMgr) (name : Bytes) : Prop where
  fresh : ∀ p ∈ s.asked name, p.1 < s.running
  nodup : ((s.asked name).map (·.1)).Nodup
  stage : Stage s name

theorem Service.Gives.same {v : Service} {a b : Answer} (ha : v.Gives a) (hb : v.Gives b) :
    a.Same b := by
  rcases v with h | e | ⟨l, q⟩
  · obtain rfl : a = .handle h := ha
    obtain rfl : b = .handle h := hb
    rfl
  · obtain ⟨l, rfl⟩ := ha
    obtain ⟨l', rfl⟩ := hb
    rfl
  · exact absurd ha (fun hf => hf)

namespace Inv

variable {s s' : ServiceMgr} {name : Bytes}

theorem unique (h : Inv s name) : s.Unique name := by
  rcases h.stage with ⟨hs, hc, hi, hq, ha⟩ | ⟨q, hs, hc, hi, hq, hl, ha⟩ |
    ⟨q, co, call, hs, hc, hi, hq, hl, ha⟩ | ⟨v, hs, hv, hc, hi, hq, ha⟩
  · refine ⟨by simp [hi], by simp [ha], by simp [ha], fun v hv => ?_, fun l q hw => ?_⟩
    · rw [hs] at hv
      exact nomatch hv
    · rw [hs] at hw
      exact nomatch hw
  · refine ⟨by simp [hi], by simp [ha], by simp [ha], fun v hv hset => ?_, fun l q' _ p hp _ ht => ?_⟩
    · rw [hs] at hv
      obtain rfl := some.inj hv
      exact absurd hset (fun hf => hf)
    · rw [hl p hp] at ht
      exact nomatch ht
  · refine ⟨?_, by simp [ha], by simp [ha], fun v hv hset => ?_, fun l q' _ p hp _ ht => ?_⟩
    · rw [hi]
      exact length_filter_le _ _
    · rw [hs] at hv
      obtain rfl := some.inj hv
      exact absurd hset (fun hf => hf)
    · refine ⟨call, by simp [hi], ?_⟩
      by_contra hcall
      rw [hl (Bool.eq_false_iff.2 hcall) p hp] at ht
      exact nomatch ht
  · refine ⟨(length_filter_le _ _).trans hi, fun a hma b hmb => (ha a hma).same (ha b hmb),
      hq.nodup_iff.2 h.nodup, fun _ _ _ p hp => hq.mem_iff.2 (List.mem_map_of_mem hp),
      fun l q hw => ?_⟩
    rw [hs] at hw
    obtain rfl := some.inj hw
    exact absurd hv (fun hf => hf)

theorem congr (h : Inv s name) (hs : s'.service name = s.service name)
    (hc : s'.calls name = s.calls name) (hi : s'.issued name = s.issued name)
    (hq : s'.asked name = s.asked name) (ha : s'.answers name = s.answers name)
    (hr : s.running ≤ s'.running) : Inv s' name where
  fresh p hp := Nat.lt_of_lt_of_le (h.fresh p (hq ▸ hp)) hr
  nodup := hq ▸ h.nodup
  stage := by
    rcases h.stage with ⟨hs', hc', hi', hq', ha'⟩ | ⟨q, hs', hc', hi', hq', hl, ha'⟩ |
      ⟨q, co, call, hs', hc', hi', hq', hl, ha'⟩ | ⟨v, hs', hv, hc', hi', hq', ha'⟩
    · exact .unasked (hs.trans hs') (hc.trans hc') (hi.trans hi') (hq.trans hq') (ha.trans ha')
    · exact .queried q (hs.trans hs') (hc.trans hc') (hi.trans hi') (hq ▸ hq') (hq ▸ hl)
        (ha.trans ha')
    · exact .called q co call (hs.trans hs') (hc.trans hc') (hi.trans hi') (hq ▸ hq') (hq ▸ hl)
        (ha.trans ha')
    · exact .settled v (hs.trans hs') hv (hc.trans hc') (hi ▸ hi') (by rw [ha, hq]; exact hq')
        (ha ▸ ha')

end Inv

theorem func_launches {standalone : Bool} {r : Request} {name : Bytes} {func : Option Call}
    (h : r.func standalone = some (name, func)) (hr : r.launches = true) :
    ∃ call, func = some call ∧ call.launches = true := by
  have hlaunch : ∀ serviceName args, launchFunc serviceName args = some (name, func) →
      ∃ call, func = some call ∧ call.launches = true := fun serviceName args h => by
    unfold launchFunc at h
    split at h
    · obtain ⟨_, -, he⟩ := map_eq_some_iff.1 h
      obtain ⟨rfl, rfl⟩ := Prod.mk.inj he
      exact ⟨_, rfl, rfl⟩
    · obtain ⟨rfl, rfl⟩ := Prod.mk.inj (some.inj h)
      exact ⟨_, rfl, rfl⟩
  rcases r with ⟨n, args⟩ | ⟨n, args⟩ | ⟨n, args⟩ | ⟨n, args⟩
  · exact hlaunch n args h
  · exact nomatch hr
  · unfold Request.func at h
    rcases standalone with _ | _
    · obtain ⟨_, -, he⟩ := map_eq_some_iff.1 h
      obtain ⟨rfl, rfl⟩ := Prod.mk.inj he
      exact ⟨_, rfl, rfl⟩
    · exact hlaunch _ args h
  · exact nomatch hr

/-- The state that a request finds after its coroutine is made. -/
def enter (s : ServiceMgr) (name : Bytes) (launches : Bool) : ServiceMgr :=
  { s with
    running := s.running + 1
    asked := Function.update s.asked name (s.asked name ++ [(s.running, launches)]) }

section Waitfor

variable (s : ServiceMgr) (name : Bytes)

theorem waitfor_none (func : Option Call) (co : ℕ) (hs : s.service name = none) :
    s.waitfor name func co = waitfor.start s name func co false [] := by
  rw [waitfor, hs]

theorem waitfor_waiting (func : Option Call) (co : ℕ) {l : Bool} {q : List ℕ}
    (hs : s.service name = some (.waiting l q)) :
    s.waitfor name func co = waitfor.start s name func co l q := by
  rw [waitfor, hs]

theorem waitfor_settled (func : Option Call) (co : ℕ) {v : Service}
    (hs : s.service name = some v) (hv : v.Settled) :
    ∃ a, v.Gives a ∧ s.waitfor name func co = s.answer name co a := by
  rcases v with h | e | ⟨l, q⟩
  · exact ⟨.handle h, rfl, by rw [waitfor, hs]⟩
  · exact ⟨.error (some 40) e, ⟨_, rfl⟩, by rw [waitfor, hs]⟩
  · exact absurd hv (fun hf => hf)

theorem waitfor_other {m : Bytes} (func : Option Call) (co : ℕ) (hm : m ≠ name) :
    (s.waitfor name func co).service m = s.service m ∧
      (s.waitfor name func co).calls m = s.calls m ∧
      (s.waitfor name func co).issued m = s.issued m ∧
      (s.waitfor name func co).asked m = s.asked m ∧
      (s.waitfor name func co).answers m = s.answers m ∧
      (s.waitfor name func co).running = s.running := by
  have hstart : ∀ l q, (waitfor.start s name func co l q).service m = s.service m ∧
      (waitfor.start s name func co l q).calls m = s.calls m ∧
      (waitfor.start s name func co l q).issued m = s.issued m ∧
      (waitfor.start s name func co l q).asked m = s.asked m ∧
      (waitfor.start s name func co l q).answers m = s.answers m ∧
      (waitfor.start s name func co l q).running = s.running := fun l q => by
    unfold waitfor.start
    split <;> simp [setService, hm]
  unfold waitfor
  split
  · simp [answer, hm]
  · simp [answer, hm]
  · exact hstart _ _
  · exact hstart _ _

end Waitfor

namespace Inv

variable {s : ServiceMgr} {name : Bytes}

theorem enter_asked (s : ServiceMgr) (name : Bytes) (l : Bool) :
    (s.enter name l).asked name = s.asked name ++ [(s.running, l)] := Function.update_self _ _ _

theorem waitfor (h : Inv s name) {l : Bool} {func : Option Call}
    (hf : l = true → ∃ call, func = some call ∧ call.launches = true)
    (ht : l = true → ∀ p ∈ s.calls name, p.2.launches = true) :
    Inv ((s.enter name l).waitfor name func s.running) name := by
  have hasked : ((s.enter name l).asked name).map (·.1) =
      (s.asked name).map (·.1) ++ [s.running] := by rw [enter_asked, map_append]; rfl
  have hfresh : ∀ p ∈ (s.enter name l).asked name, p.1 < s.running + 1 := fun p hp => by
    rw [enter_asked] at hp
    rcases mem_append.1 hp with hp | hp
    · exact Nat.lt_succ_of_lt (h.fresh p hp)
    · obtain rfl := mem_singleton.1 hp
      exact Nat.lt_succ_self _
  have hnew : s.running ∉ (s.asked name).map (·.1) := fun hx => by
    obtain ⟨p, hp, he⟩ := List.mem_map.1 hx
    exact Nat.lt_irrefl _ (he ▸ h.fresh p hp)
  have hnodup : (((s.enter name l).asked name).map (·.1)).Nodup := by
    rw [hasked, nodup_append]
    refine ⟨h.nodup, nodup_singleton _, fun a ha b hb he => ?_⟩
    rw [mem_singleton.1 hb] at he
    exact hnew (he ▸ ha)
  -- who asks for no launch keeps a list of queries one
  have hquery : (∀ p ∈ s.asked name, p.2 = false) → l = false →
      ∀ p ∈ (s.enter name l).asked name, p.2 = false := fun hall hl p hp => by
    rw [enter_asked] at hp
    rcases mem_append.1 hp with hp | hp
    · exact hall p hp
    · obtain rfl := mem_singleton.1 hp
      exact hl
  -- the first call for the name, or a query more
  have hstart : ∀ q, (s.asked name).map (·.1) = q → (∀ p ∈ s.asked name, p.2 = false) →
      s.calls name = [] → s.issued name = [] → s.answers name = [] →
      Inv (waitfor.start (s.enter name l) name func s.running false q) name := by
    intro q hq hl hc hi ha
    rcases func with _ | call
    · have hfalse : l = false := by
        by_contra hl
        obtain ⟨_, hcall, -⟩ := hf (Bool.eq_true_of_not_eq_false hl)
        exact nomatch hcall
      refine ⟨hfresh, hnodup, .queried (q ++ [s.running]) (by simp [waitfor.start, setService]) hc
        hi (by rw [← hq]; exact hasked) (hquery hl hfalse) ha⟩
    · refine ⟨hfresh, hnodup, .called q s.running call (by simp [waitfor.start, setService])
        (by simp [waitfor.start, enter, hc]) (by simp [waitfor.start, enter, hi]) ?_
        (fun hcall => hquery hl ?_) ha⟩
      · rw [← hq]
        exact (Perm.of_eq hasked).trans perm_append_comm
      · by_contra hl
        obtain ⟨_, he, htrue⟩ := hf (Bool.eq_true_of_not_eq_false hl)
        obtain rfl := some.inj he
        exact Bool.false_ne_true (hcall.symm.trans htrue)
  rcases h.stage with ⟨hs, hc, hi, hq, ha⟩ | ⟨q, hs, hc, hi, hq, hl, ha⟩ |
    ⟨q, co, call, hs, hc, hi, hq, hl, ha⟩ | ⟨v, hs, hv, hc, hi, hq, ha⟩
  · rw [waitfor_none (s.enter name l) _ _ _ hs]
    exact hstart [] (by rw [hq]; rfl) (by rw [hq]; exact nofun) hc hi ha
  · rw [waitfor_waiting (s.enter name l) _ _ _ hs]
    exact hstart q hq hl hc hi ha
  · rw [waitfor_waiting (s.enter name l) _ _ _ hs]
    refine ⟨hfresh, hnodup, .called (q ++ [s.running]) co call (by simp [waitfor.start, setService])
      hc hi ?_ (fun hcall => hquery (hl hcall) ?_) ha⟩
    · refine (Perm.of_eq hasked).trans ?_
      rw [← cons_append]
      exact hq.append_right _
    · by_contra hl
      have := ht (Bool.eq_true_of_not_eq_false hl) (co, call) (by rw [hc]; exact mem_cons_self)
      exact Bool.false_ne_true (hcall.symm.trans this)
  · obtain ⟨a, hga, he⟩ := waitfor_settled (s.enter name l) name func s.running hs hv
    rw [he]
    have hans : ((s.enter name l).answer name s.running a).answers name =
        s.answers name ++ [(s.running, a)] := Function.update_self _ _ _
    refine ⟨hfresh, hnodup, .settled v hs hv hc hi ?_ fun b hb => ?_⟩
    · rw [hans, map_append]
      exact (hq.append_right _).trans (Perm.of_eq hasked.symm)
    · rw [hans] at hb
      rcases mem_append.1 hb with hb | hb
      · exact ha b hb
      · obtain rfl := mem_singleton.1 hb
        exact hga

theorem foldl_woken (name : Bytes) : ∀ (q : List ℕ) (s : ServiceMgr),
    q.foldl (fun s v => s.answer name v (s.woken name)) s =
      { s with
        answers := Function.update s.answers name
          (s.answers name ++ q.map fun v => (v, s.woken name)) }
  | [], s => by simp
  | v :: q, s => by
    rw [foldl_cons, foldl_woken name q]
    simp [answer, woken]

theorem returned (h : Inv s name) {i : ℕ} {out : Outcome} (ht : out ≠ .nil) {s' : ServiceMgr}
    (hst : s.returned name i out = some s') : Inv s' name := by
  obtain ⟨⟨co', call'⟩, hcall, rfl⟩ := map_eq_some_iff.1 hst
  rcases h.stage with ⟨hs, hc, hi, hq, ha⟩ | ⟨q, hs, hc, hi, hq, hl, ha⟩ |
    ⟨q, co, call, hs, hc, hi, hq, hl, ha⟩ | ⟨v, hs, hv, hc, hi, hq, ha⟩
  · rw [hc] at hcall
    exact nomatch hcall
  · rw [hc] at hcall
    exact nomatch hcall
  · rw [hc] at hcall
    obtain ⟨rfl, hco⟩ : i = 0 ∧ (co, call) = (co', call') := by
      rcases i with _ | i
      · exact ⟨rfl, some.inj hcall⟩
      · exact nomatch hcall
    obtain ⟨rfl, rfl⟩ := Prod.mk.inj hco
    obtain ⟨v, hv, hstore, hout, hwoken⟩ : ∃ v : Service, v.Settled ∧ out.stored = some v ∧
        v.Gives out.answer ∧ ∀ u : ServiceMgr, u.service name = some v →
          v.Gives (u.woken name) := by
      rcases out with m | _ | e
      · exact ⟨.handle m, trivial, rfl, rfl, fun u hu => by rw [woken, hu]; rfl⟩
      · exact absurd rfl ht
      · exact ⟨.failed e, trivial, rfl, ⟨_, rfl⟩, fun u hu => by rw [woken, hu]; exact ⟨_, rfl⟩⟩
    dsimp only
    rw [hs]
    dsimp only
    rw [foldl_woken]
    refine ⟨h.fresh, h.nodup, .settled v ?_ hv ?_ ?_ ?_ fun a hma => ?_⟩
    · simp [answer, setService, hstore]
    · simp [answer, setService, hc]
    · simp [answer, setService, hi]
    · simp only [answer, setService, Function.update_self, ha, nil_append, map_append,
        List.map_map]
      refine Perm.trans (Perm.of_eq ?_) hq.symm
      exact congrArg (co :: ·) (List.map_id' q)
    · simp only [answer, setService, Function.update_self, ha, nil_append] at hma
      rcases mem_append.1 hma with hma | hma
      · obtain rfl := mem_singleton.1 hma
        exact hout
      · obtain ⟨w, -, rfl⟩ := List.mem_map.1 hma
        exact hwoken _ (by simp [hstore])
  · rw [hc] at hcall
    exact nomatch hcall

end Inv

theorem returned_other {s s' : ServiceMgr} {name m : Bytes} {i : ℕ} {out : Outcome} (hm : m ≠ name)
    (hst : s.returned name i out = some s') (h : Inv s m) : Inv s' m := by
  obtain ⟨⟨co, call⟩, -, rfl⟩ := map_eq_some_iff.1 hst
  dsimp only
  split
  · rw [Inv.foldl_woken]
    exact h.congr (by simp [answer, setService, hm]) (by simp [answer, setService, hm]) rfl rfl
      (by simp [answer, setService, hm]) (Nat.le_refl _)
  all_goals exact h.congr rfl (by simp [answer, hm]) rfl rfl (by simp [answer, hm]) (Nat.le_refl _)

theorem request_inv {standalone : Bool} {s : ServiceMgr} {r : Request}
    (ht : s.Tame standalone (.request r)) {name : Bytes} (h : Inv s name) :
    Inv (s.request standalone r) name := by
  unfold request
  dsimp only
  rcases hfunc : r.func standalone with _ | ⟨n, func⟩
  · exact h.congr rfl rfl rfl rfl rfl (Nat.le_succ _)
  · by_cases hn : name = n
    · subst hn
      exact h.waitfor (func_launches hfunc) fun hl => ht hl name func hfunc
    · obtain ⟨hs, hc, hi, hq, ha, hr⟩ := waitfor_other (s.enter n r.launches) n func s.running hn
      exact h.congr hs hc hi (hq.trans (Function.update_of_ne hn _ _)) ha
        (Nat.le_trans (Nat.le_succ _) (Nat.le_of_eq hr.symm))

/-- In every run of tame steps. -/
theorem unique_of_tame {standalone : Bool} {s : ServiceMgr}
    (h : (machine standalone).Reach (Tame standalone) s) (name : Bytes) : s.Unique name := by
  refine (h.invariant (I := fun s => ∀ name, Inv s name)
    (fun name => ⟨nofun, List.nodup_nil, .unasked rfl rfl rfl rfl rfl⟩)
    (fun s act s' hs ht hst name => ?_) name).unique
  rcases act with r | ⟨n, i, out⟩
  · obtain rfl := Option.some.inj hst
    exact request_inv ht (hs name)
  · by_cases hn : name = n
    · subst hn
      exact (hs name).returned ht hst
    · exact returned_other hn hst (hs name)

theorem unique_of_tame_two : ∃ s : ServiceMgr, s.answers [97] = [(0, .handle 5), (1, .handle 5)] ∧
    s.Unique [97] := by
  have h₀ : (machine true).Reach (Tame true) (machine true).init := .init
  have h₁ := h₀.step (i := Action.request (.launch [97] [])) (fun _ _ _ _ _ hp => nomatch hp) rfl
  have hq : Tame true ((machine true).init.request true (.launch [97] []))
      (.request (.query [97] [])) := fun hl => nomatch hl
  have h₂ := (h₁.step hq rfl).step (i := Action.returned [97] 0 (.handle 5)) Outcome.noConfusion rfl
  exact ⟨_, rfl, unique_of_tame h₂ _⟩

/-- The launched service exits while it starts; and a global launch finds the flag taken by a
query. -/
theorem not_unique_of_nil :
    (¬ ∀ s, (machine true).Reachable s → ∀ name, s.Unique name) ∧
      ¬ ∀ s, (machine false).Reachable s → ∀ name, s.Unique name := by
  constructor
  · intro h
    have h₀ : (machine true).Reachable (machine true).init := Machine.Reach.init
    have h₁ := ((h₀.step (i := Action.request (.launch [97] [])) trivial rfl).step
      (i := Action.request (.launch [97] [])) trivial rfl).step (i := Action.returned [97] 0 .nil) trivial rfl
    exact (h _ h₁ [97]).same (0, .nil) List.mem_cons_self (1, assertionFailed)
      (List.mem_cons_of_mem _ List.mem_cons_self)
  · intro h
    have h₀ : (machine false).Reachable (machine false).init := Machine.Reach.init
    have h₁ := (h₀.step (i := Action.request (.gquery [97] [])) trivial rfl).step
      (i := Action.request (.glaunch [97] [])) trivial rfl
    obtain ⟨call, hcall, htrue⟩ := (h _ h₁ [64, 97]).issued true [1] rfl (1, true)
      (List.mem_cons_of_mem _ List.mem_cons_self) List.mem_cons_self rfl
    obtain rfl : call = .remoteQuery [64, 97] [] := List.mem_singleton.1 hcall
    exact nomatch htrue

end ServiceMgr

end SkynetGame
