import SkynetGame.Launcher

/-!
# Every launch is answered once

A launch is closed, by the first message about its handle, or it waits at its handle and no such
message has come (`Closed`, `Waiting`). A launch that waits although its service is not listed any
more was killed, and the `REMOVE` of that is on its way.
-/

namespace SkynetGame

open Function List Option

namespace Launcher

/-- The answer of each launch is that of the first message about its handle, no response is called
twice, a launch that was killed has its answer or a `REMOVE` on the way, and the list is right. A
caller that is down before it is answered may be left without an answer. -/
structure Sound (s : State) : Prop where
  once : s.twice = false
  answered : ∀ l < s.nLaunches, (s.launches l).session ≠ 0 →
    .down (s.launches l).address ∉ s.events l →
      (s.launches l).answers = ((s.launches l).verdict (s.events l)).toList
  atMost : ∀ l < s.nLaunches, (s.launches l).answers = []
    ∨ (s.launches l).answers = ((s.launches l).verdict (s.events l)).toList
  killed : ∀ l < s.nLaunches, ∀ h v, (s.launches l).inst = some h →
    .kill (some v) ∈ s.events l → v % 2 ^ 32 = h →
      (s.launches l).verdict (s.events l) = none → h ∈ s.mailbox
  services : ∀ h, s.services h = listed h s.log

def Closed (r : Launch) (events : List Label) : Prop :=
  ∃ a, r.verdict events = some a
    ∧ (r.answers = [a] ∨ r.answers = [] ∧ (r.session = 0 ∨ .down r.address ∈ events))

/-- A launch that no message about its handle has come for. -/
def Waiting (r : Launch) (events : List Label) : Prop :=
  r.verdict events = none ∧ r.answers = []

section Record

variable {r : Launch} {events : List Label} {i : Label} {a : Answer} {h : ℕ}

theorem verdict_append (hv : r.verdict events = some a) :
    r.verdict (events ++ [i]) = some a := by
  unfold Launch.verdict at hv ⊢
  cases hi : r.inst with
  | none =>
    simp only [hi] at hv ⊢
    exact hv
  | some h =>
    simp only [hi] at hv ⊢
    rw [List.findSome?_append, hv]
    rfl

theorem verdict_last (hinst : r.inst = some h) (hv : r.verdict events = none) :
    r.verdict (events ++ [i]) = closing h i := by
  unfold Launch.verdict at hv ⊢
  simp only [hinst] at hv ⊢
  rw [List.findSome?_append, hv]
  cases hc : closing h i with
  | none => simp [hc]
  | some a => simp [hc]

theorem Closed.append (hr : Closed r events) : Closed r (events ++ [i]) := by
  obtain ⟨a, hv, ha⟩ := hr
  refine ⟨a, verdict_append hv, ha.imp_right fun ⟨hnil, hwhy⟩ => ⟨hnil, ?_⟩⟩
  exact hwhy.imp_right (mem_append_left _)

theorem Waiting.append (hr : Waiting r events) (hinst : r.inst = some h)
    (hi : closing h i = none) : Waiting r (events ++ [i]) :=
  ⟨(verdict_last hinst hr.1).trans hi, hr.2⟩

theorem Waiting.close {dead : Bool} (hr : Waiting r events) (hinst : r.inst = some h)
    (hi : closing h i = some a) (hdead : dead = true → .down r.address ∈ events) :
    Closed (r.called dead a) (events ++ [i]) := by
  refine ⟨a, (verdict_last hinst hr.1).trans hi, ?_⟩
  cases hd : dead with
  | false => exact .inl (by rw [Launch.called, hr.2]; rfl)
  | true => exact .inr ⟨hr.2, .inr (mem_append_left _ (hdead hd))⟩

end Record

structure Inv (s : State) : Prop where
  twice : s.twice = false
  since : ∀ l < s.nLaunches, (s.launches l).since ≤ s.log.length
  closed : ∀ l < s.nLaunches, (s.launches l).f = false → Closed (s.launches l) (s.events l)
  waiting : ∀ l < s.nLaunches, (s.launches l).f = true → Waiting (s.launches l) (s.events l)
    ∧ ∃ h, (s.launches l).inst = some h ∧ s.instances h = some l
  instances : ∀ h l, s.instances h = some l →
    l < s.nLaunches ∧ (s.launches l).inst = some h ∧ (s.launches l).f = true
  dead : ∀ l < s.nLaunches, (s.launches l).f = true →
    s.deadService (s.launches l).address = true → .down (s.launches l).address ∈ s.events l
  listed : ∀ h, s.services h = listed h s.log
  small : ∀ h, s.services h ≠ none → h < 2 ^ 32
  killed : ∀ h l v, s.instances h = some l → .kill (some v) ∈ s.events l → v % 2 ^ 32 = h →
    h ∈ s.mailbox
  unlisted : ∀ h l, s.instances h = some l → s.services h = none → h ∈ s.mailbox

theorem Inv.init : Inv .init :=
  ⟨rfl, (fun _ h => nomatch h), (fun _ h => nomatch h), (fun _ h => nomatch h),
    (fun _ _ h => nomatch h), (fun _ h => nomatch h), fun _ => rfl, fun _ h => absurd rfl h,
    (fun _ _ _ h => nomatch h), (fun _ _ h => nomatch h)⟩

variable {s s' : State} {i : Label} {a : Answer} {x l : ℕ}

theorem Inv.sound (h : Inv s) : Sound s where
  once := h.twice
  answered l hl hsession hdown := by
    cases hf : (s.launches l).f with
    | true =>
      obtain ⟨⟨hv, ha⟩, -⟩ := h.waiting l hl hf
      rw [hv, ha]
      rfl
    | false =>
      obtain ⟨a, hv, ha | ⟨-, hbad | hbad⟩⟩ := h.closed l hl hf
      · rw [hv, ha]
        rfl
      · exact absurd hbad hsession
      · exact absurd hbad hdown
  atMost l hl := by
    cases hf : (s.launches l).f with
    | true => exact .inl (h.waiting l hl hf).1.2
    | false =>
      obtain ⟨a, hv, ha | ⟨ha, -⟩⟩ := h.closed l hl hf
      · exact .inr (by rw [hv, ha]; rfl)
      · exact .inl ha
  killed l hl x v hinst hkill hx hv := by
    cases hf : (s.launches l).f with
    | true =>
      obtain ⟨-, y, hy, hl⟩ := h.waiting l hl hf
      obtain rfl := some.inj (hinst.symm.trans hy)
      exact h.killed x l v hl hkill hx
    | false =>
      obtain ⟨a, ha, -⟩ := h.closed l hl hf
      cases hv.symm.trans ha
  services := h.listed

theorem listed_append (h : ℕ) (log : List Label) :
    listed h (log ++ [i]) = (relist h i).getD (listed h log) := by
  rw [listed, foldl_append]
  rfl

theorem Inv.events (h : Inv s) (hl : l < s.nLaunches) :
    (s.log ++ [i]).drop (s.launches l).since = s.events l ++ [i] :=
  drop_append_of_le_length (h.since l hl)

theorem Inv.handle_unique (h : Inv s) {y : ℕ} (hx : s.instances x = some l)
    (hy : s.instances y = some l) : x = y :=
  some.inj ((h.instances x l hx).2.1.symm.trans (h.instances y l hy).2.1)

theorem inv_message {t : State} (h : Inv s) (hlog : t.log = s.log ++ [i]) (htwice : t.twice = false)
    (hn : t.nLaunches = s.nLaunches)
    (hclose : ∀ x l a, s.instances x = some l → closing x i = some a →
      t.launches l = (s.launches l).called (s.deadService (s.launches l).address) a)
    (hkeep : ∀ l < s.nLaunches, (∀ x, s.instances x = some l → closing x i = none) →
      t.launches l = s.launches l)
    (hinst : ∀ x l, t.instances x = some l ↔ s.instances x = some l ∧ closing x i = none)
    (hdead : ∀ a, t.deadService a = true → s.deadService a = true ∨ i = .down a)
    (hlisted : ∀ x, t.services x = listed x t.log)
    (hsmall : ∀ x, t.services x ≠ none → x < 2 ^ 32)
    (hmail : ∀ x, t.instances x ≠ none → x ∈ s.mailbox → x ∈ t.mailbox)
    (hkill : ∀ x v, t.instances x ≠ none → i = .kill (some v) → v % 2 ^ 32 = x → x ∈ t.mailbox)
    (hun : ∀ x, t.instances x ≠ none → t.services x = none → x ∈ t.mailbox) : Inv t := by
  have hcases : ∀ l < s.nLaunches, (t.launches l = s.launches l
      ∧ ∀ x, s.instances x = some l → closing x i = none)
        ∨ ∃ x a, s.instances x = some l ∧ closing x i = some a
          ∧ t.launches l = (s.launches l).called (s.deadService (s.launches l).address) a := by
    intro l hl
    by_cases hall : ∀ x, s.instances x = some l → closing x i = none
    · exact .inl ⟨hkeep l hl hall, hall⟩
    · simp only [not_forall] at hall
      obtain ⟨x, hx, hc⟩ := hall
      obtain ⟨a, ha⟩ := ne_none_iff_exists'.1 hc
      exact .inr ⟨x, a, hx, ha, hclose x l a hx ha⟩
  have hevents : ∀ l < s.nLaunches, t.events l = s.events l ++ [i] := by
    intro l hl
    have hsince : (t.launches l).since = (s.launches l).since := by
      rcases hcases l hl with ⟨hr, -⟩ | ⟨x, a, -, -, hr⟩ <;> rw [hr]
      rfl
    rw [State.events, hlog, hsince, h.events hl]
  refine ⟨htwice, fun l hl => ?_, fun l hl hf => ?_, fun l hl hf => ?_, fun x l hx => ?_,
    fun l hl hf hd => ?_, hlisted, hsmall, fun x l v hx hv hvx => ?_, fun x l hx hs => ?_⟩
  · have hle := h.since l (hn ▸ hl)
    rw [hlog, length_append, length_singleton]
    rcases hcases l (hn ▸ hl) with ⟨hr, -⟩ | ⟨x, a, -, -, hr⟩ <;> rw [hr]
    · omega
    · exact Nat.le_succ_of_le hle
  · rw [hevents l (hn ▸ hl)]
    rcases hcases l (hn ▸ hl) with ⟨hr, -⟩ | ⟨x, a, hx, ha, hr⟩
    · rw [hr] at hf ⊢
      exact (h.closed l (hn ▸ hl) hf).append
    · obtain ⟨hl', hinst', hf'⟩ := h.instances x l hx
      rw [hr]
      exact (h.waiting l hl' hf').1.close hinst' ha (h.dead l hl' hf')
  · rw [hevents l (hn ▸ hl)]
    rcases hcases l (hn ▸ hl) with ⟨hr, hnone⟩ | ⟨x, a, hx, ha, hr⟩
    · rw [hr] at hf ⊢
      obtain ⟨hw, x, hx, hxl⟩ := h.waiting l (hn ▸ hl) hf
      exact ⟨hw.append hx (hnone x hxl), x, hx, (hinst x l).2 ⟨hxl, hnone x hxl⟩⟩
    · rw [hr] at hf
      cases hf
  · obtain ⟨hx, hc⟩ := (hinst x l).1 hx
    obtain ⟨hl, hi, hf⟩ := h.instances x l hx
    have hr : t.launches l = s.launches l := hkeep l hl fun y hy => h.handle_unique hx hy ▸ hc
    exact ⟨hn ▸ hl, hr ▸ hi, hr ▸ hf⟩
  · rw [hevents l (hn ▸ hl)]
    rcases hcases l (hn ▸ hl) with ⟨hr, -⟩ | ⟨x, a, -, -, hr⟩
    · rw [hr] at hf hd ⊢
      rcases hdead _ hd with hd | hi
      · exact mem_append_left _ (h.dead l (hn ▸ hl) hf hd)
      · exact mem_append_right _ (mem_singleton.2 hi.symm)
    · rw [hr] at hf
      cases hf
  · have hsome : t.instances x ≠ none := by rw [hx]; exact some_ne_none l
    obtain ⟨hx, -⟩ := (hinst x l).1 hx
    rw [hevents l (h.instances x l hx).1] at hv
    rcases mem_append.1 hv with hv | hv
    · exact hmail x hsome (h.killed x l v hx hv hvx)
    · exact hkill x v hsome (mem_singleton.1 hv).symm hvx
  · exact hun x (by rw [hx]; exact some_ne_none l) hs

theorem confirm_with (sv : ℕ → Option String) (mb : List ℕ) :
    confirm { s with services := sv, mailbox := mb } x a
      = (confirm s x a).map fun s => { s with services := sv, mailbox := mb } := by
  unfold confirm
  cases s.instances x with
  | none => rfl
  | some l =>
    simp only [response]
    split <;> rfl

theorem confirm_none (hx : s.instances x = none) : confirm s x a = some s := by
  rw [confirm, hx]

theorem confirm_some (hx : s.instances x = some l) (hf : (s.launches l).f = true) :
    confirm s x a = some { s with
      launches := update s.launches l
        ((s.launches l).called (s.deadService (s.launches l).address) a)
      watchingService := update s.watchingService (s.launches l).address
        (s.watchingService (s.launches l).address - 1)
      instances := update s.instances x none } := by
  simp only [confirm, hx, response, hf, if_true, map_some]

theorem inv_close (h : Inv s) (hc : closing x i = some a) (hother : ∀ y, y ≠ x → closing y i = none)
    (hnokill : ∀ v, i ≠ .kill (some v)) {sv : ℕ → Option String} {mb : List ℕ}
    (hlisted : ∀ y, sv y = listed y (s.log ++ [i])) (hsmall : ∀ y, sv y ≠ none → s.services y ≠ none)
    (hsv : ∀ y, y ≠ x → sv y = s.services y)
    (hmb : ∀ y, y ≠ x → y ∈ s.mailbox → y ∈ mb) :
    ∃ s₁, confirm s x a = some s₁ ∧ s₁.services = s.services ∧ s₁.mailbox = s.mailbox
      ∧ Inv { s₁ with services := sv, mailbox := mb, log := s.log ++ [i] } := by
  cases hx : s.instances x with
  | none =>
    have hne : ∀ y l, s.instances y = some l → y ≠ x := by
      rintro y l hy rfl
      rw [hx] at hy
      cases hy
    have hne' : ∀ y, s.instances y ≠ none → y ≠ x := fun y hy he => hy (he ▸ hx)
    refine ⟨s, confirm_none hx, rfl, rfl, inv_message h rfl h.twice rfl ?_ ?_ ?_ ?_ hlisted
      (fun y hy => h.small y (hsmall y hy)) ?_ ?_ ?_⟩
    · intro y l b hy hb
      rw [hother y (hne y l hy)] at hb
      cases hb
    · exact fun _ _ _ => rfl
    · exact fun y l => ⟨fun hy => ⟨hy, hother y (hne y l hy)⟩, fun hy => hy.1⟩
    · exact fun _ => .inl
    · exact fun y hy => hmb y (hne' y hy)
    · exact fun _ v _ hi => absurd hi (hnokill v)
    · intro y hy hs
      obtain ⟨l, hl⟩ := ne_none_iff_exists'.1 hy
      exact hmb y (hne' y hy) (h.unlisted y l hl ((hsv y (hne' y hy)).symm.trans hs))
  | some l =>
    obtain ⟨hl, hinst, hf⟩ := h.instances x l hx
    have hupd : ∀ y m, update s.instances x none y = some m ↔ s.instances y = some m
        ∧ closing y i = none := by
      intro y m
      rcases eq_or_ne y x with rfl | hne
      · rw [update_self, hc]
        simp
      · rw [update_of_ne hne, hother y hne]
        simp
    have hne : ∀ y, update s.instances x none y ≠ none → y ≠ x := by
      rintro y hy rfl
      exact hy (update_self ..)
    refine ⟨_, confirm_some hx hf, rfl, rfl,
      inv_message h rfl h.twice rfl ?_ ?_ hupd ?_ hlisted
        (fun y hy => h.small y (hsmall y hy)) ?_ ?_ ?_⟩
    · intro y m b hy hb
      obtain rfl : y = x := by
        by_contra hne
        rw [hother y hne] at hb
        cases hb
      obtain rfl := some.inj (hx.symm.trans hy)
      obtain rfl := some.inj (hc.symm.trans hb)
      exact update_self ..
    · intro m hm hall
      refine update_of_ne ?_ ..
      rintro rfl
      have hnone := hall x hx
      rw [hc] at hnone
      cases hnone
    · exact fun _ => .inl
    · exact fun y hy => hmb y (hne y hy)
    · exact fun _ v _ hi => absurd hi (hnokill v)
    · intro y hy hs
      obtain ⟨m, hm⟩ := ne_none_iff_exists'.1 hy
      exact hmb y (hne y hy)
        (h.unlisted y m ((hupd y m).1 hm).1 ((hsv y (hne y hy)).symm.trans hs))

theorem ne_none_of_update {y : ℕ} (hy : update s.services x none y ≠ none) :
    s.services y ≠ none := by
  rcases eq_or_ne y x with rfl | hne
  · exact absurd (update_self ..) hy
  · rwa [update_of_ne hne] at hy

theorem listed_relist {y : ℕ} {e : Option String} (hi : relist y i = some e) :
    listed y (s.log ++ [i]) = e := by
  rw [listed_append, hi]
  rfl

theorem listed_keep (h : Inv s) {y : ℕ} (hi : relist y i = none) :
    listed y (s.log ++ [i]) = s.services y := by
  rw [listed_append, hi, h.listed y]
  rfl

theorem listed_unlist (h : Inv s) (hx : relist x i = some none)
    (hother : ∀ y, y ≠ x → relist y i = none) (y : ℕ) :
    update s.services x none y = listed y (s.log ++ [i]) := by
  rcases eq_or_ne y x with rfl | hne
  · rw [update_self, listed_relist hx]
  · rw [update_of_ne hne, listed_keep h (hother y hne)]

theorem inv_remove (h : Inv s) {b : Bool} (mb : List ℕ)
    (hc : closing x i = some (if b then .failure else .nil))
    (hother : ∀ y, y ≠ x → closing y i = none) (hrelist : relist x i = some none)
    (hrelist' : ∀ y, y ≠ x → relist y i = none) (hnokill : ∀ v, i ≠ .kill (some v))
    (hmb : ∀ y, y ≠ x → y ∈ s.mailbox → y ∈ mb) :
    Inv { REMOVE { s with mailbox := mb } x b with log := s.log ++ [i] } := by
  obtain ⟨s₁, hs₁, -, -, hinv⟩ := inv_close h hc hother hnokill (listed_unlist h hrelist hrelist')
    (fun _ => ne_none_of_update)
    (fun y hy => update_of_ne hy ..) hmb
  have hconf := confirm_with (s := s) (x := x) (a := if b then .failure else .nil)
    (update s.services x none) mb
  rw [hs₁] at hconf
  rw [REMOVE, hconf]
  exact hinv

theorem inv_error (h : Inv s) : Inv { ERROR s x with log := s.log ++ [.error x] } := by
  obtain ⟨s₁, hs₁, hsv, hmb, hinv⟩ := inv_close (i := .error x) (x := x) h (if_pos rfl)
    (fun y hy => if_neg (Ne.symm hy)) (fun _ he => nomatch he)
    (listed_unlist h (if_pos rfl) fun y hy => if_neg (Ne.symm hy)) (fun _ => ne_none_of_update)
    (fun y hy => update_of_ne hy ..) fun _ _ hy => hy
  rw [← hsv, ← hmb] at hinv
  simp only [ERROR, hs₁]
  exact hinv

theorem inv_launchok (h : Inv s) : Inv { LAUNCHOK s x with log := s.log ++ [.launchok x] } := by
  obtain ⟨s₁, hs₁, hsv, hmb, hinv⟩ := inv_close (i := .launchok x) (x := x) h (if_pos rfl)
    (fun y hy => if_neg (Ne.symm hy)) (fun _ he => nomatch he)
    (fun y => (listed_keep h rfl).symm) (fun _ hy => hy) (fun _ _ => rfl) fun _ _ hy => hy
  rw [← hsv, ← hmb] at hinv
  rw [LAUNCHOK, hs₁]
  exact hinv

theorem inv_quiet (h : Inv s) (hc : ∀ x, closing x i = none) (hr : ∀ x, relist x i = none)
    (hnokill : ∀ v, i ≠ .kill (some v)) {dead : ℕ → Bool} {live : ℕ → Bool}
    (hdead : ∀ a, dead a = true → s.deadService a = true ∨ i = .down a) :
    Inv { s with deadService := dead, live := live, log := s.log ++ [i] } := by
  refine inv_message h rfl h.twice rfl ?_ (fun _ _ _ => rfl) ?_ hdead
    (fun x => (listed_keep h (hr x)).symm) h.small (fun _ _ hx => hx)
    (fun _ v _ hi => absurd hi (hnokill v)) ?_
  · intro x l a _ ha
    rw [hc x] at ha
    cases ha
  · exact fun x l => ⟨fun hx => ⟨hx, hc x⟩, fun hx => hx.1⟩
  · intro x hx hs
    obtain ⟨l, hl⟩ := ne_none_iff_exists'.1 hx
    exact h.unlisted x l hl hs

theorem inv_kill (h : Inv s) (htame : x < 2 ^ 32 ∨ s.services (x % 2 ^ 32) = none) :
    Inv { (KILL s x).1 with log := s.log ++ [.kill (some x)] } := by
  have hlisted : ∀ y, update s.services x none y
      = listed y (s.log ++ [.kill (some x)]) := by
    intro y
    rcases eq_or_ne (x % 2 ^ 32) y with rfl | hne
    · rw [listed_relist (i := .kill (some x)) (if_pos rfl)]
      rcases htame with hx | hnone
      · rw [Nat.mod_eq_of_lt hx, update_self]
      · exact not_not.1 fun hy => ne_none_of_update hy hnone
    · rw [listed_keep (i := .kill (some x)) h (if_neg hne)]
      rcases eq_or_ne y x with rfl | hyx
      · rw [update_self]
        exact (not_not.1 fun hy => hne (Nat.mod_eq_of_lt (h.small y hy))).symm
      · exact update_of_ne hyx ..
  refine inv_message h rfl h.twice rfl ?_ (fun _ _ _ => rfl) ?_ (fun _ => .inl) hlisted
    (fun y hy => h.small y (ne_none_of_update hy)) (fun _ _ hx => mem_append_left _ hx) ?_ ?_
  · exact fun _ _ _ _ ha => nomatch ha
  · exact fun y l => ⟨fun hy => ⟨hy, rfl⟩, fun hy => hy.1⟩
  · rintro y v hy hv rfl
    obtain rfl : x = v := some.inj (Label.kill.inj hv)
    rcases htame with hx | hnone
    · rw [Nat.mod_eq_of_lt hx]
      exact mem_append_right _ (mem_singleton.2 rfl)
    · obtain ⟨l, hl⟩ := ne_none_iff_exists'.1 hy
      exact mem_append_left _ (h.unlisted _ l hl hnone)
  · intro y hy hs
    rcases eq_or_ne y x with rfl | hyx
    · exact mem_append_right _ (mem_singleton.2 rfl)
    · obtain ⟨l, hl⟩ := ne_none_iff_exists'.1 hy
      exact mem_append_left _
        (h.unlisted y l hl ((update_of_ne hyx ..).symm.trans hs))

/-! ## A launch -/

theorem inv_add (h : Inv s) {r : Launch} {inst : ℕ → Option ℕ} {w : ℕ → ℕ}
    (hsince : r.since = s.log.length) (hclosed : r.f = false → Closed r [])
    (hwaiting : r.f = true →
      Waiting r [] ∧ ∃ x, r.inst = some x ∧ inst x = some s.nLaunches)
    (hold : ∀ x l, s.instances x = some l → inst x = some l)
    (hnew : ∀ x l, inst x = some l → s.instances x = some l
      ∨ l = s.nLaunches ∧ r.inst = some x ∧ r.f = true ∧ s.services x ≠ none)
    (hdead : r.f = true → s.deadService r.address = false) : Inv { s with
      launches := update s.launches s.nLaunches r
      nLaunches := s.nLaunches + 1
      watchingService := w
      instances := inst } := by
  have hself : update s.launches s.nLaunches r s.nLaunches = r := update_self ..
  have hother : ∀ l < s.nLaunches, update s.launches s.nLaunches r l = s.launches l :=
    fun l hl => update_of_ne (Nat.ne_of_lt hl) ..
  have hevents : s.log.drop r.since = [] := by rw [hsince, drop_length]
  refine ⟨h.twice, fun l hl => ?_, fun l hl hf => ?_, fun l hl hf => ?_, fun x l hx => ?_,
    fun l hl hf hd => ?_, h.listed, h.small, fun x l v hx hv hvx => ?_, fun x l hx hs => ?_⟩
  · rcases Nat.lt_succ_iff_lt_or_eq.1 hl with hl | rfl
    · exact le_of_eq_of_le (congrArg Launch.since (hother l hl)) (h.since l hl)
    · exact Nat.le_of_eq ((congrArg Launch.since hself).trans hsince)
  · rcases Nat.lt_succ_iff_lt_or_eq.1 hl with hl | rfl
    · simp only [State.events, hother l hl] at hf ⊢
      exact h.closed l hl hf
    · simp only [State.events, hself, hevents] at hf ⊢
      exact hclosed hf
  · rcases Nat.lt_succ_iff_lt_or_eq.1 hl with hl | rfl
    · simp only [State.events, hother l hl] at hf ⊢
      obtain ⟨hw, x, hx, hxl⟩ := h.waiting l hl hf
      exact ⟨hw, x, hx, hold x l hxl⟩
    · simp only [State.events, hself, hevents] at hf ⊢
      exact hwaiting hf
  · rcases hnew x l hx with hx | ⟨rfl, hi, hf, -⟩
    · obtain ⟨hl, hi, hf⟩ := h.instances x l hx
      exact ⟨Nat.lt_succ_of_lt hl, (congrArg Launch.inst (hother l hl)).trans hi,
        (congrArg Launch.f (hother l hl)).trans hf⟩
    · exact ⟨Nat.lt_succ_self _, (congrArg Launch.inst hself).trans hi,
        (congrArg Launch.f hself).trans hf⟩
  · rcases Nat.lt_succ_iff_lt_or_eq.1 hl with hl | rfl
    · simp only [State.events, hother l hl] at hf hd ⊢
      exact h.dead l hl hf hd
    · simp only [hself] at hf hd
      rw [hdead hf] at hd
      cases hd
  · rcases hnew x l hx with hx | ⟨rfl, -⟩
    · simp only [State.events, hother l (h.instances x l hx).1] at hv
      exact h.killed x l v hx hv hvx
    · simp only [State.events, hself, hevents] at hv
      exact absurd hv not_mem_nil
  · rcases hnew x l hx with hx | ⟨-, -, -, hlisted⟩
    · exact h.unlisted x l hx hs
    · exact absurd hs hlisted

def relisted (s : State) (r : Request) (inst : Option ℕ) : ℕ → Option String :=
  match inst, r.description with
  | some x, some d => Function.update s.services x (some d)
  | _, _ => s.services

theorem relisted_of_none {r : Request} {inst : Option ℕ} (hd : r.description = none) :
    relisted s r inst = s.services := by
  cases inst <;> simp only [relisted, hd]

theorem relisted_of_some {r : Request} {d : String} (hd : r.description = some d) :
    relisted s r (some x) = update s.services x (some d) := by
  simp only [relisted, hd]

theorem relisted_cases (s : State) (r : Request) (inst : Option ℕ) (y : ℕ) :
    (relisted s r inst y = s.services y ∧ (inst = some y → r.description = none))
      ∨ ∃ d, inst = some y ∧ r.description = some d ∧ relisted s r inst y = some d := by
  cases inst with
  | none => exact .inl ⟨rfl, (fun h => nomatch h)⟩
  | some x =>
    cases hd : r.description with
    | none => exact .inl ⟨by simp only [relisted, hd], fun _ => rfl⟩
    | some d =>
      rw [relisted_of_some hd]
      rcases eq_or_ne y x with rfl | hne
      · exact .inr ⟨d, rfl, rfl, update_self ..⟩
      · exact .inl ⟨update_of_ne hne .., fun he => absurd (some.inj he).symm hne⟩

theorem inv_relisted (h : Inv s) {r : Request} {inst : Option ℕ} (live : ℕ → Bool)
    (logOn : List ℕ) (hi : i = .launch r inst ∨ i = .loglaunch r inst)
    (hgiven : ∀ x ∈ inst, x < 2 ^ 32) : Inv { s with
      services := relisted s r inst
      logOn := logOn
      live := live
      log := s.log ++ [i] } := by
  have hclosing : ∀ x, closing x i = none := by
    rcases hi with rfl | rfl <;> exact fun _ => rfl
  have hrelist : ∀ y, relist y i = if inst = some y then r.description.map some else none := by
    rcases hi with rfl | rfl <;> exact fun _ => rfl
  have hnokill : ∀ v, i ≠ .kill (some v) := by
    rcases hi with rfl | rfl <;> exact fun _ he => nomatch he
  have hlisted : ∀ y, relisted s r inst y = listed y (s.log ++ [i]) := by
    intro y
    rcases relisted_cases s r inst y with ⟨hy, hnone⟩ | ⟨d, hinst, hd, hy⟩
    · rw [hy, listed_keep h]
      rw [hrelist]
      split_ifs with hinst
      · rw [hnone hinst]
        rfl
      · rfl
    · rw [hy, listed_relist (e := some d)]
      rw [hrelist, if_pos hinst, hd]
      rfl
  refine inv_message h rfl h.twice rfl ?_ (fun _ _ _ => rfl) ?_ (fun _ => .inl) hlisted ?_
    (fun _ _ hx => hx) (fun _ v _ hv => absurd hv (hnokill v)) ?_
  · intro x l a _ ha
    rw [hclosing x] at ha
    cases ha
  · exact fun x l => ⟨fun hx => ⟨hx, hclosing x⟩, fun hx => hx.1⟩
  · intro y hy
    have hy : relisted s r inst y ≠ none := hy
    rcases relisted_cases s r inst y with ⟨heq, -⟩ | ⟨d, hinst, -, -⟩
    · exact h.small y (heq ▸ hy)
    · exact hgiven y hinst
  · intro y hy hs
    have hs : relisted s r inst y = none := hs
    rcases relisted_cases s r inst y with ⟨heq, -⟩ | ⟨d, -, -, heq⟩
    · obtain ⟨l, hl⟩ := ne_none_iff_exists'.1 hy
      exact h.unlisted y l hl (heq ▸ hs)
    · rw [heq] at hs
      cases hs

theorem launchService_of_none {r : Request} {inst : Option ℕ} (hd : r.description = none) :
    launchService s r inst = launchError s r := by
  unfold Request.description at hd
  unfold launchService
  split at hd
  · cases hd
  · rfl

theorem launchService_of_some {r : Request} {inst : Option ℕ} {d : String}
    (hd : r.description = some d) : launchService s r inst = match inst with
      | some h =>
        { newResponse s r inst with
          services := update s.services h (some d)
          instances := update s.instances h (some s.nLaunches)
          live := update s.live h true }
      | none =>
        (response (newResponse s r inst) s.nLaunches .failure).getD (raise (newResponse s r inst)) := by
  unfold Request.description at hd
  unfold launchService
  split at hd
  · obtain rfl := some.inj hd
    rfl
  · cases hd

theorem inv_launch (h : Inv s) {r : Request} {inst : Option ℕ} (logOn : List ℕ)
    (hi : i = .launch r inst ∨ i = .loglaunch r inst) (hgiven : ∀ x ∈ inst, x < 2 ^ 32)
    (hfree : ∀ x ∈ inst, s.instances x = none) (hdead : s.deadService r.address = false) :
    Inv { launchService s r inst with logOn := logOn, log := s.log ++ [i] } := by
  have hsince : s.log.length + 1 = (s.log ++ [i]).length := by simp
  cases hd : r.description with
  | none =>
    have hbase := inv_relisted h s.live logOn hi hgiven
    rw [relisted_of_none hd] at hbase
    rw [launchService_of_none hd]
    refine inv_add hbase hsince (fun _ => ⟨.failure, rfl, ?_⟩) (fun hf => nomatch hf)
      (fun _ _ hx => hx) (fun _ _ hx => .inl hx) fun _ => hdead
    show (if r.session = 0 then [] else [Answer.failure]) = _ ∨ _
    split_ifs with hsession
    · exact .inr ⟨rfl, .inl hsession⟩
    · exact .inl rfl
  | some d =>
    rw [launchService_of_some hd]
    cases inst with
    | some x =>
      have hbase := inv_relisted h (update s.live x true) logOn hi hgiven
      rw [relisted_of_some hd] at hbase
      refine inv_add hbase hsince (fun hf => nomatch hf)
        (fun _ => ⟨⟨rfl, rfl⟩, x, rfl, update_self ..⟩) (fun y l hy => ?_)
        (fun y l hy => ?_) fun _ => hdead
      · have hne : y ≠ x := by
          rintro rfl
          cases (hfree y rfl).symm.trans hy
        exact (update_of_ne hne ..).trans hy
      · have hy : update s.instances x (some s.nLaunches) y = some l := hy
        rcases eq_or_ne y x with rfl | hne
        · rw [update_self] at hy
          refine .inr ⟨(some.inj hy).symm, rfl, rfl, ?_⟩
          show update s.services y (some d) y ≠ none
          rw [update_self]
          exact some_ne_none d
        · exact .inl ((update_of_ne hne ..).symm.trans hy)
    | none =>
      have hbase := inv_relisted h s.live logOn hi hgiven
      have hnew : (newResponse s r none).launches s.nLaunches
          = ⟨r.address, r.session, none, true, [], s.log.length + 1⟩ := update_self ..
      have hdead' : (newResponse s r none).deadService r.address = false := hdead
      have hlaunches : ∀ q, update (newResponse s r none).launches s.nLaunches q
          = update s.launches s.nLaunches q := fun q => update_idem ..
      simp only [response, hnew, if_true, getD_some, hdead', hlaunches]
      exact inv_add hbase hsince (fun _ => ⟨.failure, rfl, .inl rfl⟩) (fun hf => nomatch hf)
        (fun _ _ hx => hx) (fun _ _ hx => .inl hx) fun hf => nomatch hf

theorem LOGLAUNCH_eq (s : State) (r : Request) (inst : Option ℕ) :
    ∃ logOn, LOGLAUNCH s r inst = { launchService s r inst with logOn := logOn } := by
  unfold LOGLAUNCH
  simp only []
  split
  · exact ⟨_, rfl⟩
  · exact ⟨_, rfl⟩

theorem inv_step (h : Inv s) (htame : Tame s i) (hst : step s i = some s') : Inv s' := by
  obtain ⟨t, ht, rfl⟩ := map_eq_some_iff.1 hst
  cases i with
  | launch r inst =>
    obtain ⟨hg, rfl⟩ := of_guard ht
    exact inv_launch h (launchService s r inst).logOn (.inl rfl)
      (fun x hx => (hg x hx).1) htame.1 htame.2
  | loglaunch r inst =>
    obtain ⟨hg, rfl⟩ := of_guard ht
    obtain ⟨logOn, hlog⟩ := LOGLAUNCH_eq s r inst
    rw [hlog]
    exact inv_launch h logOn (.inr rfl) (fun x hx => (hg x hx).1) htame.1 htame.2
  | kill handle =>
    cases handle with
    | none =>
      obtain rfl := some.inj ht
      exact inv_quiet (i := .kill none) h (fun _ => rfl) (fun _ => rfl) (fun _ he => nomatch he)
        fun _ => .inl
    | some v =>
      obtain rfl := some.inj ht
      exact inv_kill h htame
  | remove v b =>
    obtain rfl := some.inj ht
    exact inv_remove h s.mailbox (if_pos rfl) (fun y hy => if_neg (Ne.symm hy))
      (if_pos rfl) (fun y hy => if_neg (Ne.symm hy)) (fun _ he => nomatch he) fun _ _ hy => hy
  | own v =>
    simp only [handle] at ht
    cases hm : s.mailbox with
    | nil =>
      rw [hm] at ht
      cases ht
    | cons x mailbox =>
      simp only [hm] at ht
      obtain ⟨hx, rfl⟩ := of_guard ht
      refine inv_remove h mailbox (if_pos rfl) (fun y hy => if_neg (Ne.symm hy)) (if_pos rfl)
        (fun y hy => if_neg (Ne.symm hy)) (fun _ he => nomatch he) fun y hy hin => ?_
      exact (mem_cons.1 (hm ▸ hin)).resolve_left (hx ▸ hy)
  | error a =>
    obtain rfl := some.inj ht
    exact inv_error h
  | launchok a =>
    obtain rfl := some.inj ht
    exact inv_launchok h
  | down a =>
    obtain rfl := some.inj ht
    unfold errorDispatch
    split_ifs
    · refine inv_quiet (i := .down a) h (fun _ => rfl) (fun _ => rfl) (fun _ he => nomatch he)
        fun b hb => ?_
      rcases eq_or_ne b a with rfl | hne
      · exact .inr rfl
      · exact .inl ((update_of_ne hne ..).symm.trans hb)
    · exact inv_quiet (i := .down a) h (fun _ => rfl) (fun _ => rfl) (fun _ he => nomatch he)
        fun _ => .inl
  | ends v =>
    obtain rfl := some.inj ht
    exact inv_quiet (i := .ends v) h (fun _ => rfl) (fun _ => rfl) (fun _ he => nomatch he)
      fun _ => .inl

end Launcher

end SkynetGame
