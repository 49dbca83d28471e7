import SkynetGame.Stm

/-!
# Every copy is freed once

The count of a copy is the number of those who have it: the object, the writer behind the swap, and
the readers that keep it or have just taken it. The object's count is the number of its writer, of the
handles and of the readers. So each is freed when nobody has it any more, and an address is not used
again while somebody could compare with it. Until the writer is deleted a reader keeps the copy of
the update that its last read saw.
-/

namespace SkynetGame

open List Option

namespace Stm

section Referrers

/-- The references that a reader's thread has to the copy `c`. -/
def Stage.refs (c : ℕ) : Stage → ℕ
  | .took copy _ _ => if copy = some c then 1 else 0
  | _ => 0

def Reader.refs (c : ℕ) (r : Reader) : ℕ := (if r.lastcopy = some c then 1 else 0) + r.stage.refs c

/-- The writer's thread has the copy that it has replaced. -/
def Writer.refs (c : ℕ) : Writer → ℕ
  | .updating oldcopy => if oldcopy = some c then 1 else 0
  | _ => 0

/-- A reader refers to the object until `stm_releasereader`. -/
def Reader.holds (r : Reader) : ℕ := if r.stage = .closing ∨ r.stage = .closed then 0 else 1

/-- Who refers to the copy `c`. -/
def State.referrers (s : State) (c : ℕ) : ℕ :=
  (if s.obj.value = some c then 1 else 0) + s.writer.refs c + tally (Reader.refs c) s.readers

/-- Who refers to the object. -/
def State.holders (s : State) : ℕ :=
  (if s.writer = .deleted then 0 else 1) + s.handles + tally Reader.holds s.readers

end Referrers

section Spec

/-- A read gives the message of its update, and the size of one below 4 GiB. -/
def Gives (copies : List Copy) (x : Read) : Prop :=
  ∃ k sz, copies[x.latest]? = some k ∧ x.outcome = .message k.msg sz ∧
    (k.msg.length < 0x100000000 → sz = k.msg.length)

/-- Each read gives the message of the latest update, and no change just if the one before it gave that
message too, or did not see a change from it. -/
def ReadsLatest (copies : List Copy) : Option ℕ → List Read → Prop
  | _, [] => True
  | last, x :: xs =>
    (if last = some x.latest then x.outcome = .noChange else Gives copies x) ∧
      ReadsLatest copies (some x.latest) xs

/-- What is read before the writer is deleted is the latest; after that, there is no change. -/
def ReadsUntilGone (copies : List Copy) (xs : List Read) : Prop :=
  ReadsLatest copies none (xs.filter fun x => !x.gone) ∧ ∀ x ∈ xs, x.gone = true → x.outcome = .noChange

/-- Each copy and the object have been freed once if nobody refers to them, and not if somebody does. -/
structure FreedOnce (s : State) : Prop where
  copies : ∀ {c : ℕ} {k : Cell Copy}, s.copies[c]? = some k →
    k.frees = if s.referrers c = 0 then 1 else 0
  obj : s.obj.frees = if s.holders = 0 then 1 else 0

end Spec

section Reads

variable {copies : List Copy} {last : Option ℕ} {xs : List Read} {x : Read}

/-- The update that the last read saw. -/
def seen (last : Option ℕ) (xs : List Read) : Option ℕ := xs.foldl (fun _ x => some x.latest) last

@[simp] theorem seen_nil : seen last [] = last := rfl

@[simp] theorem seen_concat : seen last (xs ++ [x]) = some x.latest := by simp [seen]

theorem readsLatest_concat : ∀ {xs : List Read} {last : Option ℕ},
    ReadsLatest copies last (xs ++ [x]) ↔ ReadsLatest copies last xs ∧
      if seen last xs = some x.latest then x.outcome = .noChange else Gives copies x
  | [], last => ⟨fun h => ⟨trivial, h.1⟩, fun h => ⟨h.2, trivial⟩⟩
  | y :: ys, last => by
    rw [cons_append, ReadsLatest, ReadsLatest, readsLatest_concat, and_assoc]
    rfl

theorem Gives.append (h : Gives copies x) (ks : List Copy) : Gives (copies ++ ks) x := by
  obtain ⟨k, sz, hk, hx⟩ := h
  refine ⟨k, sz, ?_, hx⟩
  rw [getElem?_append_left (List.getElem?_eq_some_iff.1 hk).1]
  exact hk

theorem ReadsLatest.append (ks : List Copy) : ∀ {xs : List Read} {last : Option ℕ},
    ReadsLatest copies last xs → ReadsLatest (copies ++ ks) last xs
  | [], _, _ => trivial
  | x :: xs, last, ⟨hx, hxs⟩ => by
    refine ⟨?_, hxs.append ks⟩
    split_ifs at hx ⊢
    · exact hx
    · exact hx.append ks

theorem ReadsUntilGone.append (h : ReadsUntilGone copies xs) (ks : List Copy) :
    ReadsUntilGone (copies ++ ks) xs :=
  ⟨h.1.append ks, h.2⟩

theorem ReadsUntilGone.concat (h : ReadsUntilGone copies xs) (hxs : ∀ y ∈ xs, y.gone = false)
    (hgone : x.gone = false)
    (hx : if seen none xs = some x.latest then x.outcome = .noChange else Gives copies x) :
    ReadsUntilGone copies (xs ++ [x]) := by
  have hall : ∀ ys : List Read, (∀ y ∈ ys, y.gone = false) → ys.filter (fun y => !y.gone) = ys :=
    fun ys hys => filter_eq_self.2 fun y hy => by rw [hys y hy]; rfl
  have hconcat : ∀ y ∈ xs ++ [x], y.gone = false := by
    simpa [or_imp, forall_and] using ⟨hxs, hgone⟩
  obtain ⟨hreads, -⟩ := h
  rw [hall xs hxs] at hreads
  refine ⟨?_, fun y hy hyes => absurd (hconcat y hy) (by rw [hyes]; decide)⟩
  rw [hall _ hconcat]
  exact readsLatest_concat.2 ⟨hreads, hx⟩

theorem ReadsUntilGone.concat_gone (h : ReadsUntilGone copies xs) (hgone : x.gone = true)
    (hx : x.outcome = .noChange) : ReadsUntilGone copies (xs ++ [x]) := by
  refine ⟨?_, fun y hy hyes => ?_⟩
  · rw [filter_append]
    simpa [hgone] using h.1
  · rcases mem_append.1 hy with hy | hy
    · exact h.2 y hy hyes
    · rw [mem_singleton.1 hy]
      exact hx

end Reads

section Invariant

/-- A reader keeps what its last read saw, as long as this read was not behind the deletion. -/
def Fresh (gone : Prop) (lastcopy : Option ℕ) (xs : List Read) : Prop :=
  (lastcopy = seen none xs ∧ ∀ x ∈ xs, x.gone = false) ∨ (lastcopy = none ∧ gone)

/-- What holds of a reader, where `n` is the number of updates and `deleted` is whether the writer has
been deleted. -/
structure Reader.Inv (copies : List Copy) (deleted : Prop) (r : Reader) : Prop where
  reads : ReadsUntilGone copies r.reads
  idle : r.stage = .idle → Fresh deleted r.lastcopy r.reads
  took : ∀ {copy latest gone}, r.stage = .took copy latest gone →
    copy = (if gone then none else some latest) ∧ (gone = true → deleted) ∧
      Fresh (gone = true) r.lastcopy r.reads ∧ latest < copies.length
  calling : ∀ {c latest}, r.stage = .calling c latest → c = latest ∧ r.lastcopy = some c ∧
    seen none r.reads ≠ some latest ∧ (∀ x ∈ r.reads, x.gone = false) ∧ latest < copies.length
  closed : r.stage = .closed → r.lastcopy = none

structure Inv (s : State) : Prop where
  copies : Counted s.copies s.referrers
  obj : s.obj.Counts s.holders
  value : s.obj.value = if s.writer = .deleted then none else some (s.copies.length - 1)
  pos : s.copies ≠ []
  sized : ∀ k ∈ s.copies.map Cell.value, k.sz = k.msg.length % 0x100000000
  apart : ∀ {c d : ℕ}, s.referrers c ≠ 0 → s.referrers d ≠ 0 →
    addrOf s.copies (some c) = addrOf s.copies (some d) → c = d
  readers : ∀ r ∈ s.readers, r.Inv (s.copies.map Cell.value) (s.writer = .deleted)

variable {s : State} {copies : List Copy} {cells : List (Cell Copy)} {r r' : Reader} {i : ℕ}

theorem Fresh.mono {gone gone' : Prop} {lastcopy : Option ℕ} {xs : List Read}
    (h : Fresh gone lastcopy xs) (himp : gone → gone') : Fresh gone' lastcopy xs :=
  h.imp_right fun h => ⟨h.1, himp h.2⟩

theorem Reader.Inv.mono {deleted deleted' : Prop} (h : r.Inv copies deleted) (ks : List Copy)
    (himp : deleted → deleted') : r.Inv (copies ++ ks) deleted' := by
  have hlen : copies.length ≤ (copies ++ ks).length := by
    rw [length_append]
    omega
  refine ⟨h.reads.append ks, fun hr => (h.idle hr).mono himp, fun hr => ?_, fun hr => ?_, h.closed⟩
  · obtain ⟨hcopy, hgone, hfresh, hlatest⟩ := h.took hr
    exact ⟨hcopy, fun hg => himp (hgone hg), hfresh, hlatest.trans_le hlen⟩
  · obtain ⟨hc, hlast, hseen, hgone, hlatest⟩ := h.calling hr
    exact ⟨hc, hlast, hseen, hgone, hlatest.trans_le hlen⟩

theorem addrOf_congr {cells' : List (Cell Copy)}
    (h : cells'.map Cell.value = cells.map Cell.value) (copy : Option ℕ) :
    addrOf cells' copy = addrOf cells copy := by
  rcases copy with _ | c
  · rfl
  · have hc := congrArg (·[c]?) h
    simp only [getElem?_map] at hc
    have := congrArg (Option.map Copy.addr) hc
    simpa [addrOf, Option.map_map, Function.comp_def] using this

theorem stm_releasecopy_counted (copy : Option ℕ) {n m : ℕ → ℕ} (h : Counted cells n)
    (hm : ∀ d, m d + (if copy = some d then 1 else 0) = n d) :
    ∃ cells', stm_releasecopy cells copy = .ok cells' ∧ Counted cells' m ∧
      cells'.map Cell.value = cells.map Cell.value := by
  rcases copy with _ | c
  · obtain rfl : m = n := funext fun d => by simpa using hm d
    exact ⟨cells, rfl, h, rfl⟩
  · obtain ⟨cells', hrelease, hcounted, hv⟩ := h.release (by simpa using hm c)
      fun d hd => by simpa [Ne.symm hd] using hm d
    exact ⟨cells', by rw [stm_releasecopy, hrelease]; rfl, hcounted, hv⟩

theorem useObj_ok (h : Inv s) (hn : s.holders ≠ 0) : s.useObj = .ok () := if_pos (h.obj.live hn)

theorem assert_ok {p : Prop} [Decidable p] (h : p) : assert p = .ok () := if_pos h

theorem holders_ne_zero_of_writer (h : s.writer ≠ .deleted) : s.holders ≠ 0 := by
  rw [State.holders, if_neg h]
  omega

theorem holders_ne_zero_of_reader (hi : s.readers[i]? = some r) (hr : r.holds ≠ 0) :
    s.holders ≠ 0 := by
  have := le_tally Reader.holds hi
  rw [State.holders]
  omega

theorem referrers_set (cells : List (Cell Copy)) (hi : s.readers[i]? = some r) (r' : Reader) (c : ℕ) :
    ({ s with copies := cells, readers := s.readers.set i r' } : State).referrers c + r.refs c =
      s.referrers c + r'.refs c := by
  have := tally_set (Reader.refs c) hi r'
  simp only [State.referrers]
  omega

theorem Inv.frame {s' : State} (h : Inv s) (hcounted : Counted s'.copies s'.referrers)
    (hv : s'.copies.map Cell.value = s.copies.map Cell.value) (hobj : s'.obj.Counts s'.holders)
    (hvalue : s'.obj.value = if s'.writer = .deleted then none else some (s.copies.length - 1))
    (hrefs : ∀ c, s'.referrers c ≠ 0 → s.referrers c ≠ 0)
    (hreaders : ∀ r ∈ s'.readers, r.Inv (s.copies.map Cell.value) (s'.writer = .deleted)) :
    Inv s' := by
  have hlen : s'.copies.length = s.copies.length := by simpa using congrArg List.length hv
  refine ⟨hcounted, hobj, hlen ▸ hvalue, ?_, hv ▸ h.sized, fun hc hd heq => ?_, hv ▸ hreaders⟩
  · exact ne_nil_of_length_pos (hlen ▸ length_pos_iff.2 h.pos)
  · rw [addrOf_congr hv, addrOf_congr hv] at heq
    exact h.apart (hrefs _ hc) (hrefs _ hd) heq

theorem Inv.setReader (h : Inv s) (hi : s.readers[i]? = some r)
    (hr' : r'.Inv (s.copies.map Cell.value) (s.writer = .deleted)) (hholds : r'.holds = r.holds)
    (hcounted : Counted cells
      ({ s with copies := cells, readers := s.readers.set i r' } : State).referrers)
    (hv : cells.map Cell.value = s.copies.map Cell.value)
    (hrefs : ∀ c, r'.refs c ≠ 0 → s.referrers c ≠ 0) :
    Inv { s with copies := cells, readers := s.readers.set i r' } := by
  refine h.frame hcounted hv ?_ h.value (fun c hc hzero => ?_) fun x hx => ?_
  · have hsame : ({ s with copies := cells, readers := s.readers.set i r' } : State).holders =
        s.holders := by
      have := tally_set Reader.holds hi r'
      simp only [State.holders]
      omega
    exact hsame ▸ h.obj
  · have := referrers_set cells hi r' c
    have := hrefs c
    omega
  · rcases mem_or_eq_of_mem_set hx with hx | rfl
    · exact h.readers x hx
    · exact hr'

end Invariant

section Writer

variable {s : State} {msg : Bytes} {addr : ℕ}

theorem inv_new (msg : Bytes) (addr : ℕ) : Inv (stm_new msg addr) := by
  have hzero : ∀ c, (stm_new msg addr).referrers c = if c = 0 then 1 else 0 := fun c => by
    simp [State.referrers, stm_new, Cell.alloc, Writer.refs, eq_comm]
  refine ⟨⟨fun {c k} hk => ?_, fun {c} hc => ?_⟩, .alloc _, rfl, by simp [stm_new], ?_,
    fun {c d} hc hd _ => ?_, fun r hr => ?_⟩
  · obtain ⟨hc, rfl⟩ := List.getElem?_eq_some_iff.1 hk
    obtain rfl : c = 0 := Nat.lt_one_iff.1 hc
    exact .alloc _
  · rw [hzero] at hc
    obtain rfl : c = 0 := by simpa using hc
    exact Nat.one_pos
  · simp [stm_new, stm_newcopy, Cell.alloc]
  · rw [hzero] at hc hd
    rw [ne_eq, ite_eq_right_iff, Classical.not_imp] at hc hd
    exact hc.1.trans hd.1.symm
  · cases hr

/-- What `stm_update` leaves behind its section. -/
def State.updated (s : State) (msg : Bytes) (addr : ℕ) : State :=
  { s with
    copies := s.copies ++ [stm_newcopy msg addr],
    obj := { s.obj with value := some s.copies.length },
    writer := .updating s.obj.value }

theorem referrers_updated (hw : s.writer = .idle) (msg : Bytes) (addr d : ℕ) :
    (s.updated msg addr).referrers d = s.referrers d + if s.copies.length = d then 1 else 0 := by
  simp only [State.updated, State.referrers, hw, Writer.refs, some.injEq]
  omega

theorem stm_update_inv (h : Inv s) (hw : s.writer = .idle) (haddr : s.freshAddr addr) :
    ∃ s', s.stm_update msg addr = .ok s' ∧ Inv s' := by
  have hlive := holders_ne_zero_of_writer (s := s) (by rw [hw]; decide)
  have hunknown : ∀ d, s.copies.length ≤ d → s.referrers d = 0 := fun d hd =>
    by_contra fun hne => absurd (h.copies.known hne) (by omega)
  have hrefs := referrers_updated hw msg addr
  have haddrOf : ∀ d, s.referrers d ≠ 0 →
      addrOf (s.updated msg addr).copies (some d) = addrOf s.copies (some d) := fun d hd => by
    simp only [State.updated, addrOf, bind_some,
      getElem?_append_left (h.copies.known hd)]
  have hnew : addrOf (s.updated msg addr).copies (some s.copies.length) = some addr := by
    simp [State.updated, addrOf, stm_newcopy, Cell.alloc]
  have hfresh : ∀ d, s.referrers d ≠ 0 → addrOf s.copies (some d) ≠ some addr := by
    intro d hd heq
    obtain ⟨k, hk, hcounts⟩ := h.copies.exists_cell hd
    simp only [addrOf, bind_some, hk, map_some, some.injEq] at heq
    exact haddr k (mem_of_getElem? hk) (hcounts.live hd) heq
  refine ⟨s.updated msg addr, by rw [State.stm_update, useObj_ok h hlive]; rfl, ?_⟩
  refine ⟨h.copies.alloc _ ?_ ?_ ?_, ?_, ?_, ?_, ?_, ?_, ?_⟩
  · rw [hrefs, hunknown _ le_rfl, if_pos rfl]
  · intro d hd
    rw [hrefs, if_neg (by omega), Nat.add_zero]
  · intro d hd
    rw [hrefs, hunknown d (by omega), if_neg (by omega)]
  · have hholders : (s.updated msg addr).holders = s.holders := by
      simp only [State.updated, State.holders, hw, reduceCtorEq, if_false]
    exact hholders ▸ ⟨h.obj.reference, h.obj.frees⟩
  · simp [State.updated]
  · simp [State.updated]
  · intro k hk
    simp only [State.updated, map_append, mem_append, map_cons, map_nil,
      mem_singleton] at hk
    rcases hk with hk | rfl
    · exact h.sized k hk
    · rfl
  · intro c d hc hd heq
    rw [hrefs] at hc hd
    by_cases hc' : s.referrers c = 0
    · by_cases hd' : s.referrers d = 0
      · simp only [hc', hd', Nat.zero_add, ne_eq, ite_eq_right_iff, Classical.not_imp] at hc hd
        exact hc.1.symm.trans hd.1
      · obtain rfl : s.copies.length = c := by simpa [hc'] using hc
        rw [hnew, haddrOf d hd'] at heq
        exact absurd heq.symm (hfresh d hd')
    · by_cases hd' : s.referrers d = 0
      · obtain rfl : s.copies.length = d := by simpa [hd'] using hd
        rw [hnew, haddrOf c hc'] at heq
        exact absurd heq (hfresh c hc')
      · rw [haddrOf c hc', haddrOf d hd'] at heq
        exact h.apart hc' hd' heq
  · intro r hr
    rw [State.updated, map_append]
    exact (h.readers r hr).mono _ fun hdel => absurd (hw.symm.trans hdel) (by decide)

theorem stm_updateEnd_inv {oldcopy : Option ℕ} (h : Inv s) (hw : s.writer = .updating oldcopy) :
    ∃ s', s.stm_updateEnd oldcopy = .ok s' ∧ Inv s' := by
  have hrefs : ∀ cells d, ({ s with copies := cells, writer := .idle } : State).referrers d +
      (if oldcopy = some d then 1 else 0) = s.referrers d := fun cells d => by
    simp only [State.referrers, hw, Writer.refs]
    omega
  obtain ⟨cells, hrelease, hcounted, hv⟩ :=
    stm_releasecopy_counted oldcopy h.copies (hrefs s.copies)
  refine ⟨{ s with copies := cells, writer := .idle }, ?_, ?_⟩
  · rw [State.stm_updateEnd, hrelease]
    rfl
  · have hvalue := h.value
    have hobj := h.obj
    simp only [State.holders, hw, reduceCtorEq, if_false] at hvalue hobj
    refine h.frame hcounted hv hobj hvalue (fun c hc hzero => ?_) fun r hr => ?_
    · have := hrefs cells c
      omega
    · simpa [hw] using h.readers r hr

theorem stm_release_inv (h : Inv s) (hw : s.writer = .idle) :
    ∃ s', s.stm_release = .ok s' ∧ Inv s' := by
  have hlive := holders_ne_zero_of_writer (s := s) (by rw [hw]; decide)
  have hvalue := h.value
  have hobj := h.obj
  have hcopies := h.copies
  refine ⟨{ s with writer := .deleting }, ?_, ?_⟩
  · rw [State.stm_release, useObj_ok h hlive]
    simp only [bind, Except.bind]
    rw [assert_ok (by rw [hvalue, hw]; simp)]
  · have hrefs : ({ s with writer := .deleting } : State).referrers = s.referrers := by
      funext d
      simp only [State.referrers, hw, Writer.refs]
    simp only [State.holders, hw, reduceCtorEq, if_false] at hvalue hobj
    refine h.frame (hrefs ▸ hcopies) rfl hobj hvalue (fun c hc => hrefs ▸ hc) fun r hr => ?_
    simpa [hw] using h.readers r hr

theorem stm_releaseEnd_inv (h : Inv s) (hw : s.writer = .deleting) :
    ∃ s', s.stm_releaseEnd = .ok s' ∧ Inv s' := by
  have hlive := holders_ne_zero_of_writer (s := s) (by rw [hw]; decide)
  have hrefs : ∀ cells (obj : Cell (Option ℕ)), obj.value = none → ∀ d,
      (State.mk obj cells .deleted s.handles s.readers).referrers d +
        (if s.obj.value = some d then 1 else 0) = s.referrers d := fun cells obj hobj d => by
    simp only [State.referrers, hw, hobj, Writer.refs, reduceCtorEq, if_false]
    omega
  obtain ⟨cells, hrelease, hcounted, hv⟩ :=
    stm_releasecopy_counted s.obj.value h.copies (hrefs s.copies ⟨none, 0, 0⟩ rfl)
  refine ⟨⟨⟨none, s.obj.reference - 1, if 1 < s.obj.reference then s.obj.frees else s.obj.frees + 1⟩,
    cells, .deleted, s.handles, s.readers⟩, ?_, ?_⟩
  · simp only [State.stm_releaseEnd, useObj_ok h hlive, hrelease, bind, Except.bind]
  have hholders : (if s.writer = .deleted then 0 else 1) = 1 := by rw [hw]; rfl
  refine h.frame hcounted hv ⟨?_, ?_⟩ (if_pos rfl).symm (fun c hc hzero => ?_) fun r hr => ?_
  · simp only [State.holders, if_true, h.obj.reference, hholders]
    omega
  · have hfrees := h.obj.live hlive
    simp only [State.holders, if_true, h.obj.reference, hholders, hfrees]
    split_ifs <;> omega
  · have := hrefs cells ⟨none, s.obj.reference - 1, if 1 < s.obj.reference then s.obj.frees else
      s.obj.frees + 1⟩ rfl c
    omega
  · have hr' : r.Inv (s.copies.map Cell.value ++ []) (Writer.deleted = Writer.deleted) :=
      (h.readers r hr).mono [] fun _ => rfl
    rwa [append_nil] at hr'

theorem stm_grab_inv (h : Inv s) (hw : s.writer = .idle) :
    ∃ s', s.stm_grab = .ok s' ∧ Inv s' := by
  have hlive := holders_ne_zero_of_writer (s := s) (by rw [hw]; decide)
  obtain ⟨obj, hgrab, hcounts, hv⟩ := h.obj.grab hlive
  refine ⟨{ s with obj := obj, handles := s.handles + 1 }, ?_, ?_⟩
  · rw [State.stm_grab, hgrab]
    simp only [touch, bind, Except.bind]
    rw [assert_ok (by rw [h.obj.reference]; omega)]
  · have hrefs : ({ s with obj := obj, handles := s.handles + 1 } : State).referrers =
        s.referrers := by
      funext d
      simp only [State.referrers, hv]
    have hholders : ({ s with obj := obj, handles := s.handles + 1 } : State).holders =
        s.holders + 1 := by
      simp only [State.holders]
      omega
    exact h.frame (hrefs ▸ h.copies) rfl (hholders ▸ hcounts) (hv.trans h.value)
      (fun c hc => hrefs ▸ hc) h.readers

theorem lnewreader_inv (h : Inv s) (hn : s.handles ≠ 0) : Inv s.lnewreader := by
  have hrefs : s.lnewreader.referrers = s.referrers := by
    funext d
    have htally : tally (Reader.refs d) (s.readers ++ [⟨.idle, none, []⟩]) =
        tally (Reader.refs d) s.readers := by
      simp [Reader.refs, Stage.refs]
    exact congrArg (_ + ·) htally
  have hholders : s.lnewreader.holders = s.holders := by
    have htally : tally Reader.holds (s.readers ++ [⟨.idle, none, []⟩]) =
        tally Reader.holds s.readers + 1 := by
      simp [Reader.holds]
    have hsplit : s.lnewreader.holders = (if s.writer = .deleted then 0 else 1) + (s.handles - 1) +
        tally Reader.holds (s.readers ++ [⟨.idle, none, []⟩]) := rfl
    rw [hsplit, htally, State.holders]
    omega
  refine h.frame (hrefs ▸ h.copies) rfl (hholders ▸ h.obj) h.value (fun c hc => hrefs ▸ hc)
    fun r hr => ?_
  rcases mem_append.1 hr with hr | hr
  · exact h.readers r hr
  · obtain rfl := mem_singleton.1 hr
    have hnone : ∀ x ∈ ([] : List Read), x.gone = false := fun x hx => by cases hx
    refine ⟨⟨trivial, fun x hx => by cases hx⟩, fun _ => .inl ⟨rfl, hnone⟩, ?_, ?_, ?_⟩
    · intro copy latest gone heq
      cases heq
    · intro c latest heq
      cases heq
    · intro heq
      cases heq

end Writer

section Readers

variable {s : State} {i : ℕ} {r : Reader} {copies : List Copy} {deleted : Prop}
  {lastcopy copy : Option ℕ} {xs : List Read} {c latest : ℕ} {gone : Bool}

theorem inv_idle (hreads : ReadsUntilGone copies xs) (h : Fresh deleted lastcopy xs) :
    Reader.Inv copies deleted ⟨.idle, lastcopy, xs⟩ where
  reads := hreads
  idle _ := h
  took heq := by cases heq
  calling heq := by cases heq
  closed heq := by cases heq

theorem inv_took (hreads : ReadsUntilGone copies xs)
    (hcopy : copy = if gone then none else some latest) (hgone : gone = true → deleted)
    (h : Fresh (gone = true) lastcopy xs) (hlatest : latest < copies.length) :
    Reader.Inv copies deleted ⟨.took copy latest gone, lastcopy, xs⟩ where
  reads := hreads
  idle heq := by cases heq
  took heq := by
    cases heq
    exact ⟨hcopy, hgone, h, hlatest⟩
  calling heq := by cases heq
  closed heq := by cases heq

theorem inv_calling (hreads : ReadsUntilGone copies xs) (hseen : seen none xs ≠ some c)
    (hxs : ∀ x ∈ xs, x.gone = false) (hc : c < copies.length) :
    Reader.Inv copies deleted ⟨.calling c c, some c, xs⟩ where
  reads := hreads
  idle heq := by cases heq
  took heq := by cases heq
  calling heq := by
    cases heq
    exact ⟨rfl, rfl, hseen, hxs, hc⟩
  closed heq := by cases heq

theorem inv_closing (hreads : ReadsUntilGone copies xs) :
    Reader.Inv copies deleted ⟨.closing, lastcopy, xs⟩ where
  reads := hreads
  idle heq := by cases heq
  took heq := by cases heq
  calling heq := by cases heq
  closed heq := by cases heq

theorem inv_closed (hreads : ReadsUntilGone copies xs) :
    Reader.Inv copies deleted ⟨.closed, none, xs⟩ where
  reads := hreads
  idle heq := by cases heq
  took heq := by cases heq
  calling heq := by cases heq
  closed _ := rfl

theorem refs_le_referrers (hi : s.readers[i]? = some r) (c : ℕ) : r.refs c ≤ s.referrers c := by
  have := le_tally (Reader.refs c) hi
  rw [State.referrers]
  omega

theorem stm_copy_inv (h : Inv s) (hi : s.readers[i]? = some r) (hr : r.stage = .idle) :
    ∃ s', s.stm_copy i r = .ok s' ∧ Inv s' := by
  have hlive := holders_ne_zero_of_reader hi (by rw [Reader.holds, hr]; decide)
  have hinv := h.readers r (mem_of_getElem? hi)
  have hlatest : s.copies.length - 1 < (s.copies.map Cell.value).length := by
    have := length_pos_iff.2 h.pos
    rw [length_map]
    omega
  obtain ⟨stage, hstage⟩ : ∃ stage, stage =
      Stage.took s.obj.value (s.copies.length - 1) (s.writer = .deleted) := ⟨_, rfl⟩
  have hinv' : Reader.Inv (s.copies.map Cell.value) (s.writer = .deleted)
      ⟨stage, r.lastcopy, r.reads⟩ := by
    rw [hstage]
    refine inv_took hinv.reads ?_ of_decide_eq_true ((hinv.idle hr).mono decide_eq_true) hlatest
    rw [h.value]
    by_cases hdel : s.writer = .deleted <;> simp [hdel]
  have hholds : Reader.holds ⟨stage, r.lastcopy, r.reads⟩ = r.holds := by
    simp [hstage, Reader.holds, hr]
  have hrefs : ∀ d, Reader.refs d ⟨stage, r.lastcopy, r.reads⟩ =
      r.refs d + if s.obj.value = some d then 1 else 0 := fun d => by
    simp only [hstage, Reader.refs, hr, Stage.refs]
    omega
  have hvalue : ∀ d, s.obj.value = some d → s.referrers d ≠ 0 := fun d hd => by
    rw [State.referrers, if_pos hd]
    omega
  have hne : ∀ d, Reader.refs d ⟨stage, r.lastcopy, r.reads⟩ ≠ 0 → s.referrers d ≠ 0 := by
    intro d hd hzero
    have hle := refs_le_referrers hi d
    by_cases hd' : s.obj.value = some d
    · exact hvalue d hd' hzero
    · rw [hrefs, if_neg hd'] at hd
      omega
  have hset : ∀ cells d, ({ s with
      copies := cells, readers := s.readers.set i ⟨stage, r.lastcopy, r.reads⟩ } : State).referrers d =
        s.referrers d + if s.obj.value = some d then 1 else 0 := fun cells d => by
    have := referrers_set cells hi ⟨stage, r.lastcopy, r.reads⟩ d
    have := hrefs d
    omega
  rw [State.stm_copy, useObj_ok h hlive]
  simp only [bind, Except.bind, ← hstage]
  rcases hobj : s.obj.value with _ | c
  · refine ⟨_, rfl, h.setReader hi hinv' hholds ?_ rfl hne⟩
    have hsame : ({ s with
        readers := s.readers.set i ⟨stage, r.lastcopy, r.reads⟩ } : State).referrers = s.referrers := by
      funext d
      simpa [hobj] using hset s.copies d
    exact hsame ▸ h.copies
  · obtain ⟨k, hk, hcounts⟩ := h.copies.exists_cell (hvalue c hobj)
    obtain ⟨cells, hgrab, hcounted, hv⟩ := h.copies.grab (hvalue c hobj)
      (by simpa [hobj] using hset s.copies c) fun d hd => by
        simpa [hobj, Ne.symm hd] using hset s.copies d
    refine ⟨_, ?_, h.setReader hi hinv' hholds hcounted hv hne⟩
    have hpos : ∀ k ∈ s.copies[c]?, 0 < k.reference := by
      rintro k' hk'
      obtain rfl := some.inj (hk.symm.trans hk')
      rw [hcounts.reference]
      exact Nat.pos_of_ne_zero (hvalue c hobj)
    simp only [hgrab, touch, assert_ok hpos]

theorem addrOf_eq_iff (h : Inv s) (hi : s.readers[i]? = some r)
    (hcopy : ∀ c, copy = some c → s.referrers c ≠ 0) :
    addrOf s.copies copy = addrOf s.copies r.lastcopy ↔ copy = r.lastcopy := by
  have hlast : ∀ c, r.lastcopy = some c → s.referrers c ≠ 0 := fun c hc hzero => by
    have := refs_le_referrers hi c
    rw [Reader.refs, if_pos hc] at this
    omega
  have hsome : ∀ c, s.referrers c ≠ 0 → addrOf s.copies (some c) ≠ none := fun c hc => by
    obtain ⟨k, hk, -⟩ := h.copies.exists_cell hc
    simp [addrOf, hk]
  refine ⟨fun heq => ?_, fun heq => by rw [heq]⟩
  rcases copy with _ | c
  · rcases hl : r.lastcopy with _ | d
    · rfl
    · rw [hl] at heq
      exact absurd heq.symm (hsome d (hlast d hl))
  · rcases hl : r.lastcopy with _ | d
    · rw [hl] at heq
      exact absurd heq (hsome c (hcopy c rfl))
    · rw [hl] at heq
      rw [h.apart (hcopy c rfl) (hlast d hl) heq]

theorem release_inv (h : Inv s) (hi : s.readers[i]? = some r) {r' : Reader} (copy : Option ℕ)
    (hr' : r'.Inv (s.copies.map Cell.value) (s.writer = .deleted)) (hholds : r'.holds = r.holds)
    (hrefs : ∀ d, r'.refs d + (if copy = some d then 1 else 0) = r.refs d) :
    ∃ cells, stm_releasecopy s.copies copy = .ok cells ∧
      Inv { s with copies := cells, readers := s.readers.set i r' } := by
  have hset : ∀ cells d, ({ s with
      copies := cells, readers := s.readers.set i r' } : State).referrers d +
        (if copy = some d then 1 else 0) = s.referrers d := fun cells d => by
    have := referrers_set cells hi r' d
    have := hrefs d
    omega
  obtain ⟨cells, hrelease, hcounted, hv⟩ := stm_releasecopy_counted copy h.copies (hset s.copies)
  refine ⟨cells, hrelease, h.setReader hi hr' hholds hcounted hv fun d hd hzero => ?_⟩
  have := refs_le_referrers hi d
  have := hrefs d
  omega

theorem lread_inv (h : Inv s) (hi : s.readers[i]? = some r)
    (hr : r.stage = .took copy latest gone) :
    ∃ s', s.lread i r copy latest gone = .ok s' ∧ Inv s' := by
  have hinv := h.readers r (mem_of_getElem? hi)
  obtain ⟨hcopy, hgone, hfresh, hlatest⟩ := hinv.took hr
  have hrefs : ∀ d, r.refs d = (if r.lastcopy = some d then 1 else 0) +
      if copy = some d then 1 else 0 := fun d => by rw [Reader.refs, hr]; rfl
  have htaken : ∀ c, copy = some c → s.referrers c ≠ 0 := fun c hc hzero => by
    have := refs_le_referrers hi c
    have := hrefs c
    rw [if_pos hc] at this
    omega
  have hholds : r.holds = 1 := by simp [Reader.holds, hr]
  have hsame := addrOf_eq_iff h hi htaken
  unfold State.lread
  by_cases heq : copy = r.lastcopy
  · -- the copy is the one that the reader has: one of its two references is given back
    have hinv' : Reader.Inv (s.copies.map Cell.value) (s.writer = .deleted)
        ⟨.idle, r.lastcopy, r.reads ++ [⟨latest, gone, .noChange⟩]⟩ := by
      rcases gone with _ | _
      · obtain ⟨hlast, hxs⟩ := hfresh.resolve_right fun hr => by simpa using hr.2
        have hseen : seen none r.reads = some latest := by rw [← hlast, ← heq, hcopy]; rfl
        refine inv_idle (hinv.reads.concat hxs rfl (by rw [if_pos hseen])) (.inl ⟨?_, ?_⟩)
        · rw [seen_concat, hlast, hseen]
        · simpa [or_imp, forall_and] using hxs
      · exact inv_idle (hinv.reads.concat_gone rfl rfl) (.inr ⟨by rw [← heq, hcopy]; rfl, hgone rfl⟩)
    obtain ⟨cells, hrelease, hinvs⟩ := release_inv h hi copy hinv' (by rw [hholds]; rfl)
      fun d => (hrefs d).symm
    refine ⟨_, ?_, hinvs⟩
    simp only [if_pos (hsame.2 heq), hrelease, bind, Except.bind]
  · rcases hc : copy with _ | c
    · -- the object has no copy any more
      have hdel : gone = true := by
        by_contra hno
        rw [hc, if_neg hno] at hcopy
        cases hcopy
      have hinv' : Reader.Inv (s.copies.map Cell.value) (s.writer = .deleted)
          ⟨.idle, none, r.reads ++ [⟨latest, gone, .noChange⟩]⟩ :=
        inv_idle (hinv.reads.concat_gone hdel rfl) (.inr ⟨rfl, hgone hdel⟩)
      obtain ⟨cells, hrelease, hinvs⟩ := release_inv h hi r.lastcopy hinv' (by rw [hholds]; rfl)
        fun d => by rw [hrefs, hc]; exact Nat.zero_add _
      refine ⟨_, ?_, hinvs⟩
      rw [hc] at hsame heq
      simp only [if_neg fun h => heq (hsame.1 h), hrelease, bind, Except.bind]
    · -- the new copy takes the place of the old one
      have hdel : gone = false := by
        by_contra hyes
        rw [hc, if_pos (Bool.not_eq_false _ ▸ hyes)] at hcopy
        cases hcopy
      subst hdel
      rw [hc] at hcopy hsame heq
      cases hcopy
      obtain ⟨hlast, hxs⟩ := hfresh.resolve_right fun hr => by simpa using hr.2
      obtain ⟨cells, hrelease, hinvs⟩ := release_inv h hi r.lastcopy
        (inv_calling hinv.reads (hlast ▸ Ne.symm heq) hxs hlatest) (by rw [hholds]; rfl)
        fun d => by rw [hrefs, hc, Nat.add_comm]; rfl
      refine ⟨_, ?_, hinvs⟩
      simp only [if_neg fun h => heq (hsame.1 h), hrelease, bind, Except.bind]

theorem call_inv (h : Inv s) (hi : s.readers[i]? = some r) (hr : r.stage = .calling c latest) :
    ∃ s', s.call i r c latest = .ok s' ∧ Inv s' := by
  have hinv := h.readers r (mem_of_getElem? hi)
  obtain ⟨rfl, hlast, hseen, hxs, hlatest⟩ := hinv.calling hr
  have hrefs : ∀ d, r.refs d = if r.lastcopy = some d then 1 else 0 := fun d => by
    rw [Reader.refs, hr]
    rfl
  have hne : s.referrers c ≠ 0 := fun hzero => by
    have := refs_le_referrers hi c
    rw [hrefs, if_pos hlast] at this
    omega
  obtain ⟨k, hk, hcounts⟩ := h.copies.exists_cell hne
  have hvalue : k.value ∈ s.copies.map Cell.value := List.mem_map_of_mem (mem_of_getElem? hk)
  have hgives : Gives (s.copies.map Cell.value) ⟨c, false, .message k.value.msg k.value.sz⟩ := by
    refine ⟨k.value, k.value.sz, by simp [hk], rfl, fun hlt => ?_⟩
    rw [h.sized _ hvalue, Nat.mod_eq_of_lt hlt]
  have hinv' : Reader.Inv (s.copies.map Cell.value) (s.writer = .deleted)
      ⟨.idle, r.lastcopy, r.reads ++ [⟨c, false, .message k.value.msg k.value.sz⟩]⟩ := by
    refine inv_idle (hinv.reads.concat hxs rfl (by rw [if_neg hseen]; exact hgives)) (.inl ⟨?_, ?_⟩)
    · rw [seen_concat, hlast]
    · simpa [or_imp, forall_and] using hxs
  have hholds : r.holds = 1 := by simp [Reader.holds, hr]
  obtain ⟨cells, hrelease, hinvs⟩ := release_inv h hi none hinv' (by rw [hholds]; rfl)
    fun d => (hrefs d).symm
  cases hrelease
  refine ⟨_, ?_, hinvs⟩
  simp only [State.call, hk, touch, hcounts.live hne, bind, Except.bind, if_true]

theorem ldeletereaderEnd_inv (h : Inv s) (hi : s.readers[i]? = some r) (hr : r.stage = .closing) :
    ∃ s', s.ldeletereaderEnd i r = .ok s' ∧ Inv s' := by
  have hinv := h.readers r (mem_of_getElem? hi)
  have hholds : r.holds = 0 := by simp [Reader.holds, hr]
  have hrefs : ∀ d, r.refs d = if r.lastcopy = some d then 1 else 0 := fun d => by
    rw [Reader.refs, hr]
    rfl
  obtain ⟨cells, hrelease, hinvs⟩ := release_inv h hi r.lastcopy (inv_closed hinv.reads)
    (by rw [hholds]; rfl) fun d => by
      rw [hrefs]
      exact Nat.zero_add _
  refine ⟨_, ?_, hinvs⟩
  simp only [State.ldeletereaderEnd, hrelease, bind, Except.bind]

theorem stm_releasereader_inv (h : Inv s) (hi : s.readers[i]? = some r) (hr : r.stage = .idle) :
    ∃ s', s.stm_releasereader i r = .ok s' ∧ Inv s' := by
  have hinv := h.readers r (mem_of_getElem? hi)
  have hholds : r.holds = 1 := by simp [Reader.holds, hr]
  have hlive := holders_ne_zero_of_reader hi (by rw [hholds]; decide)
  obtain ⟨obj, hrelease, hcounts, hv⟩ := h.obj.release hlive
  have hassert : s.obj.reference = 1 → s.obj.value = none := by
    intro hone
    have hle := le_tally Reader.holds hi
    rw [h.obj.reference, State.holders] at hone
    rw [h.value, if_pos]
    by_contra hw
    rw [if_neg hw] at hone
    omega
  obtain ⟨r', hr'⟩ : ∃ r', r' = { r with stage := .closing } := ⟨_, rfl⟩
  have hholds' : r'.holds = 0 := by rw [hr']; rfl
  refine ⟨{ s with obj := obj, readers := s.readers.set i r' }, ?_, ?_⟩
  · rw [State.stm_releasereader, hrelease, hr']
    simp only [touch, assert_ok hassert, bind, Except.bind]
  · have hrefs : ({ s with obj := obj, readers := s.readers.set i r' } : State).referrers =
        s.referrers := by
      funext d
      have hsame : r'.refs d = r.refs d := by rw [hr', Reader.refs, Reader.refs, hr]; rfl
      have := tally_set (Reader.refs d) hi r'
      simp only [State.referrers, hv]
      omega
    have hcount : ({ s with obj := obj, readers := s.readers.set i r' } : State).holders =
        s.holders - 1 := by
      have := tally_set Reader.holds hi r'
      have := le_tally Reader.holds hi
      simp only [State.holders]
      omega
    refine h.frame (hrefs ▸ h.copies) rfl (hcount ▸ hcounts) (hv.trans h.value)
      (fun c hc => hrefs ▸ hc) fun x hx => ?_
    rcases mem_or_eq_of_mem_set hx with hx | rfl
    · exact h.readers x hx
    · rw [hr']
      exact inv_closing hinv.reads

end Readers

section Runs

variable {s : State}

theorem step_inv {e : Event} {σ : Except Fault State} (h : Inv s) (hstep : s.step e = some σ) :
    ∃ s', σ = .ok s' ∧ Inv s' := by
  cases e with
  | update msg addr =>
    simp only [State.step, ite_none_right_eq_some, some.injEq] at hstep
    obtain ⟨⟨hw, haddr⟩, rfl⟩ := hstep
    exact stm_update_inv h hw haddr
  | updateEnd =>
    simp only [State.step] at hstep
    split at hstep
    · next hw =>
      cases hstep
      exact stm_updateEnd_inv h hw
    · cases hstep
  | delete =>
    simp only [State.step, ite_none_right_eq_some, some.injEq] at hstep
    obtain ⟨hw, rfl⟩ := hstep
    exact stm_release_inv h hw
  | deleteEnd =>
    simp only [State.step, ite_none_right_eq_some, some.injEq] at hstep
    obtain ⟨hw, rfl⟩ := hstep
    exact stm_releaseEnd_inv h hw
  | copy =>
    simp only [State.step, ite_none_right_eq_some, some.injEq] at hstep
    obtain ⟨hw, rfl⟩ := hstep
    exact stm_grab_inv h hw
  | newreader =>
    simp only [State.step, ite_none_right_eq_some, some.injEq] at hstep
    obtain ⟨hn, rfl⟩ := hstep
    exact ⟨_, rfl, lnewreader_inv h hn⟩
  | read i =>
    obtain ⟨r, hi, hstep⟩ := bind_eq_some_iff.1 hstep
    simp only [ite_none_right_eq_some, some.injEq] at hstep
    obtain ⟨hr, rfl⟩ := hstep
    exact stm_copy_inv h hi hr
  | readEnd i =>
    obtain ⟨r, hi, hstep⟩ := bind_eq_some_iff.1 hstep
    split at hstep
    · next hr =>
      cases hstep
      exact lread_inv h hi hr
    · cases hstep
  | call i =>
    obtain ⟨r, hi, hstep⟩ := bind_eq_some_iff.1 hstep
    split at hstep
    · next hr =>
      cases hstep
      exact call_inv h hi hr
    · cases hstep
  | deletereader i =>
    obtain ⟨r, hi, hstep⟩ := bind_eq_some_iff.1 hstep
    simp only [ite_none_right_eq_some, some.injEq] at hstep
    obtain ⟨hr, rfl⟩ := hstep
    exact stm_releasereader_inv h hi hr
  | deletereaderEnd i =>
    obtain ⟨r, hi, hstep⟩ := bind_eq_some_iff.1 hstep
    simp only [ite_none_right_eq_some, some.injEq] at hstep
    obtain ⟨hr, rfl⟩ := hstep
    exact ldeletereaderEnd_inv h hi hr

theorem Inv.freedOnce (h : Inv s) : FreedOnce s :=
  ⟨fun hk => (h.copies.counts hk).frees, h.obj.frees⟩

variable {msg : Bytes} {addr : ℕ} {σ : Except Fault State}

theorem reachable_inv (h : (machine msg addr).Reachable σ) : ∃ s, σ = .ok s ∧ Inv s := by
  refine Machine.Reach.invariant (I := fun σ => ∃ s, σ = .ok s ∧ Inv s) h
    ⟨_, rfl, inv_new msg addr⟩ ?_
  rintro _ e σ' ⟨s, rfl, hinv⟩ - hstep
  exact step_inv hinv hstep

/-- In every run no step faults, each copy and the object are freed once and when nobody refers to
them, and reads give the latest message until the writer is deleted, and no change after that. -/
theorem freedOnce_and_reads (h : (machine msg addr).Reachable σ) : ∃ s, σ = .ok s ∧ FreedOnce s ∧
    ∀ r ∈ s.readers, ReadsUntilGone (s.copies.map Cell.value) r.reads := by
  obtain ⟨s, rfl, hinv⟩ := reachable_inv h
  exact ⟨s, rfl, hinv.freedOnce, fun r hr => (hinv.readers r hr).reads⟩

/-- The writer updates while a reader has the first copy, and is deleted before the next read: the
first copy has been freed, and then the second one. -/
theorem freedOnce_and_reads_update : ∃ s, (machine [97] 0).run (fun _ _ => True)
    (machine [97] 0).init [.copy, .newreader, .read 0, .readEnd 0, .call 0, .update [98] 1, .updateEnd,
      .read 0, .delete, .deleteEnd, .readEnd 0, .call 0, .deletereader 0, .deletereaderEnd 0] =
      some (.ok s) ∧ FreedOnce s ∧
    ∀ r ∈ s.readers, ReadsUntilGone (s.copies.map Cell.value) r.reads := by
  have hrun : (machine [97] 0).run (fun _ _ => True) (machine [97] 0).init [.copy, .newreader, .read 0,
      .readEnd 0, .call 0, .update [98] 1, .updateEnd, .read 0, .delete, .deleteEnd, .readEnd 0,
      .call 0, .deletereader 0, .deletereaderEnd 0] = some (.ok ⟨⟨none, 0, 1⟩,
        [⟨⟨1, [97], 0⟩, 0, 1⟩, ⟨⟨1, [98], 1⟩, 0, 1⟩], .deleted, 0, [⟨.closed, none,
          [⟨0, false, .message [97] 1⟩, ⟨1, false, .message [98] 1⟩]⟩]⟩) := by
    rfl
  obtain ⟨s, hs, h⟩ := freedOnce_and_reads (Machine.reach_of_run hrun)
  exact ⟨s, hrun.trans (congrArg some hs), h⟩

/-- The writer is deleted before a reader has read the message, which then reads no change. -/
theorem not_readsLatest_of_deleted : ¬ ∀ σ, (machine [97] 0).Reachable σ → ∃ s, σ = .ok s ∧
    FreedOnce s ∧ ∀ r ∈ s.readers, ReadsLatest (s.copies.map Cell.value) none r.reads := by
  intro h
  have hrun : (machine [97] 0).run (fun _ _ => True) (machine [97] 0).init [.copy, .newreader, .delete,
      .deleteEnd, .read 0, .readEnd 0] = some (.ok ⟨⟨none, 1, 0⟩, [⟨⟨1, [97], 0⟩, 0, 1⟩], .deleted, 0,
        [⟨.idle, none, [⟨0, true, .noChange⟩]⟩]⟩) := by
    rfl
  obtain ⟨s, hs, -, hreads⟩ := h _ (Machine.reach_of_run hrun)
  cases hs
  obtain ⟨⟨k, sz, -, hout, -⟩, -⟩ := hreads _ List.mem_cons_self
  cases hout

end Runs

end Stm

end SkynetGame
