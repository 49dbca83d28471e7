import SkynetGame.Proofs.WriteOrder

/-!
# Closing a socket

A request to close without shutdown leaves a socket half closed while it has something to send.
From then on it takes no package, and it ends in one of five ways: drained, by a write that fails,
by an end of file or an error of its fd, by a later request to shut down, or at once
(`Socket.Ending`). What ends it reports that, once.
-/

namespace SkynetGame

open Packages

namespace Socket

/-- What was written are all packages whole, each once. -/
def Drained (s : Socket) : Prop :=
  ∃ done : List ℕ, done.Perm (List.range s.life.accepted.length) ∧
    s.life.written = done.flatMap (body s.life.accepted)

/-- The message reports the end of the socket, to its owner or to a service that asked for it. -/
structure Reports (s : Socket) (m : SocketMessage) : Prop where
  type : m.type = .socketClose ∨ m.type = .socketError
  id : m.id = s.id
  owner : m.owner = s.owner ∨ m.owner ∈ s.life.closers

/-- Why the socket could end without everything being written. -/
def CutShort (s : Socket) : Prop :=
  s.life.failed = true ∨ s.life.ended = true ∨ s.life.shut = true

/-- What is kept about the end of a socket. -/
structure Ending (s : Socket) : Prop where
  asked : s.type = .halfclose → s.life.closing ≠ none
  waits : s.type ≠ .invalid → s.life.finals = []
  closed : ∀ n, s.life.closing = some n →
    (s.type = .halfclose ∨ s.type = .invalid) ∧ s.life.accepted.length = n
  reported : s.life.closing ≠ none → s.type = .invalid → ∃ m, s.life.finals = [m] ∧ s.Reports m
  drained : s.life.closing ≠ none → s.type = .invalid → s.CutShort ∨ s.Drained

variable {soi : SocketObjectInterface} {s t : Socket} {m : Option SocketMessage} {asked : Bool}

theorem Ending.closing_eq_none (h : Ending s) (hi : s.type ≠ .invalid) (hh : s.type ≠ .halfclose) :
    s.life.closing = none := by
  rcases hc : s.life.closing with _ | n
  · rfl
  · obtain h' | h' := (h.closed n hc).1
    · exact absurd h' hh
    · exact absurd h' hi

theorem ending_of_open (hi : t.type ≠ .invalid) (hasked : t.type = .halfclose → t.life.closing ≠ none)
    (hfin : t.life.finals = []) (hclosed : ∀ n, t.life.closing = some n →
      t.type = .halfclose ∧ t.life.accepted.length = n) : Ending (t.note asked s m) := by
  rw [note_of_type hi]
  exact ⟨hasked, fun _ => hfin, fun n hn => ⟨.inl (hclosed n hn).1, (hclosed n hn).2⟩,
    fun _ h => absurd h hi, fun _ h => absurd h hi⟩

/-- A socket that was in use and ends with a message that reports it. -/
theorem ending_of_over {x : SocketMessage} (hi : s.type ≠ .invalid) (ht : t.type = .invalid)
    (hfin : t.life.finals = []) (hclosed : ∀ n, t.life.closing = some n → t.life.accepted.length = n)
    (hx : t.Reports x) (hdrained : t.life.closing ≠ none → t.CutShort ∨ t.Drained) :
    Ending (t.note asked s (some x)) := by
  have hn : t.note asked s (some x) =
      { t with life := { t.life with finals := t.life.finals ++ [x] } } :=
    if_pos ⟨hx.type, ht, hx.id.symm, .inl hi⟩
  rw [hn]
  refine ⟨fun h => ?_, fun h => absurd ht h, fun n hn => ⟨.inr ht, hclosed n hn⟩, fun _ _ => ?_,
    fun hc _ => hdrained hc⟩
  · rw [show t.type = .invalid from ht] at h
    cases h
  · exact ⟨x, by rw [hfin, List.nil_append], hx.type, hx.id, hx.owner⟩

theorem note_of_asked (hi : s.type = .invalid) : t.note true s m = t := by
  cases m with
  | none => rfl
  | some m => exact if_neg fun h => h.2.2.2.elim (fun h => h hi) fun h => Bool.noConfusion h

theorem Ending.turned (h : Ending s) (hm : Turned s t m) (hi : s.type ≠ .invalid) :
    Ending (t.note asked s m) := by
  have hfin := h.waits hi
  have hclosed : ∀ n, s.life.closing = some n →
      s.type = .halfclose ∧ s.life.accepted.length = n := fun n hn =>
    ⟨(h.closed n hn).1.resolve_right hi, (h.closed n hn).2⟩
  cases hm with
  | same => exact ending_of_open hi h.asked hfin hclosed
  | on _ _ _ hlife hi' hhalf =>
    refine ending_of_open hi' (fun ht => ?_) (by rw [hlife, hfin]) fun n hn => ?_
    · rw [hlife]
      exact h.asked (hhalf.1 ht)
    · rw [hlife] at hn ⊢
      exact ⟨hhalf.2 (hclosed n hn).1, (hclosed n hn).2⟩
  | finished _ ht hc =>
    have hlife := forceClose_life hc
    refine ending_of_over hi (forceClose_type hc) (by rw [hlife]; exact hfin) (fun n hn => ?_)
      ⟨ht, (forceClose_id hc).symm, .inl (forceClose_owner hc).symm⟩ fun _ => .inl (.inr (.inl ?_))
    · rw [hlife] at hn ⊢
      exact (hclosed n hn).2
    · rw [hlife]
      rfl

theorem Sent.ending {u : Socket} (hm : Sent soi u t m) (hi : s.type ≠ .invalid)
    (hu : u.type ≠ .invalid) (hfin : u.life.finals = [])
    (hhalf : u.type = .halfclose → u.life.closing ≠ none)
    (hclosed : ∀ n, u.life.closing = some n → u.life.accepted.length = n)
    (hstay : m = none → u.life.closing ≠ none → u.type = .halfclose) :
    Ending (t.note asked s m) := by
  cases hm with
  | kept hk hf hr =>
    refine ending_of_open (by rw [hk.type]; exact hu) (fun ht => ?_) (by rw [hk.life]; exact hfin)
      fun n hn => ?_
    · rw [hk.life]
      exact hhalf (hk.type ▸ ht)
    · rw [hk.life] at hn ⊢
      exact ⟨hk.type.trans (hstay rfl (by rw [hn]; exact Option.some_ne_none n)), hclosed n hn⟩
  | @finished v _ done part q hk hcut hwhy hc =>
    have hlife := (forceClose_life hc).trans hk.life
    refine ending_of_over hi (forceClose_type hc) (by rw [hlife]; exact hfin) (fun n hn => ?_)
      ⟨.inl rfl, ((forceClose_id hc).trans hk.id).symm, .inl ((forceClose_owner hc).trans hk.owner).symm⟩
      fun _ => hwhy.imp (fun h => .inl ?_) fun hq => ?_
    · rw [hlife] at hn ⊢
      exact hclosed n hn
    · rw [forceClose_life hc]
      exact h
    · subst hq
      refine ⟨done, ?_, ?_⟩
      · rw [forceClose_life hc]
        simpa using hcut.once
      · rw [forceClose_life hc, hcut.out, hcut.part_eq_nil, List.append_nil]

theorem Ending.posted {p : Priority} {r : SendRequest soi} (h : Ending s) (hm : Posted s p r t m)
    (hi : s.type ≠ .invalid) : Ending (t.note asked s m) := by
  have hfin := h.waits hi
  have hopen {u : Socket} (hh : s.type ≠ .halfclose) (ht : u.type = s.type)
      (hfin : u.life.finals = s.life.finals) (hc : u.life.closing = s.life.closing) :
      Ending (u.note asked s none) := by
    have hnone := h.closing_eq_none hi hh
    refine ending_of_open (by rw [ht]; exact hi) (fun h' => absurd (ht ▸ h') hh)
      (by rw [hfin, h.waits hi]) fun n hn => ?_
    rw [hc, hnone] at hn
    cases hn
  have hne {k : SocketType} (ht : s.type = k) (hk : k ≠ .halfclose) : s.type ≠ .halfclose := ht ▸ hk
  cases hm with
  | refused =>
    exact h.turned .same hi
  | queued _ hh =>
    refine hopen hh ?_ ?_ ?_
    · cases p <;> rfl
    · rw [accept_life]
      rfl
    · rw [accept_life]
      rfl
  | direct ht =>
    refine hopen (hne ht (by decide)) ?_ ?_ ?_ <;>
      (unfold sendDirect; simp only; split_ifs <;> rfl)
  | datagram ht => exact hopen (hne ht (by decide)) rfl rfl rfl
  | delayed ht =>
    refine hopen (hne ht (by decide)) ?_ ?_ ?_
    · cases p <;> rfl
    · change ((s.appendSendbuffer p r 0).accept p r).life.finals = _
      rw [accept_life]
      rfl
    · change ((s.appendSendbuffer p r 0).accept p r).life.closing = _
      rw [accept_life]
      rfl
  | error ht hc =>
    have hlife := forceClose_life hc
    have hnone := h.closing_eq_none hi (hne ht (by decide))
    refine ending_of_over hi (forceClose_type hc) (by rw [hlife]; exact hfin) (fun n hn => ?_)
      ⟨.inl rfl, (forceClose_id hc).symm, .inl (forceClose_owner hc).symm⟩ fun hn => ?_
    · rw [hlife] at hn
      exact absurd hn (by rw [show s.writeFailed.life.closing = none from hnone]; simp)
    · rw [hlife] at hn
      exact absurd hnone hn

theorem Ending.asked_close {id : ℤ} {shutdown : Bool} {owner : ℕ} (h : Ending s)
    (hm : Asked soi s id shutdown owner t m) (hi : s.type ≠ .invalid) :
    Ending (t.note asked s m) := by
  have hfin := h.waits hi
  have hclosed : ∀ n, (s.askClose shutdown owner).life.closing = some n →
      s.life.accepted.length = n := by
    intro n hn
    simp only [askClose] at hn
    rcases hc : s.life.closing with _ | k
    · rw [hc, Option.none_or] at hn
      split_ifs at hn
      exact Option.some.inj hn
    · rw [hc, Option.some_or] at hn
      exact (h.closed k hc).2.trans (Option.some.inj hn)
  cases hm with
  | gone hg => exact h.turned .same hi
  | sent _ hs =>
    refine hs.ending hi hi hfin (fun ht => ?_) hclosed fun h' => nomatch h'
    obtain ⟨n, hn⟩ := Option.ne_none_iff_exists'.1 (h.asked ht)
    simp only [askClose, hn, Option.some_or]
    exact Option.some_ne_none n
  | @finished u _ done part _ hid hk hf hwhy hc =>
    have hlife := (forceClose_life hc).trans hk.life
    refine ending_of_over hi (forceClose_type hc) (by rw [hlife]; exact hfin) (fun n hn => ?_)
      ⟨.inl rfl, ?_, .inr ?_⟩ fun _ => ?_
    · rw [hlife] at hn ⊢
      exact hclosed n hn
    · exact (((forceClose_id hc).trans hk.id).trans hid).symm
    · rw [hlife]
      exact List.mem_append_right _ List.mem_cons_self
    · obtain hsd | hq := hwhy
      · refine .inl (.inr (.inr ?_))
        rw [hlife]
        simp [askClose, hsd]
      · have hcut := hf.cut
        rw [hq, List.map_nil] at hcut
        refine .inr ⟨done, ?_, ?_⟩
        · rw [forceClose_life hc]
          simpa using hcut.once
        · rw [forceClose_life hc, hcut.out, hcut.part_eq_nil, List.append_nil]
  | @half u done part _ hk hf hr hsd =>
    have hcl : u.life.closing = (s.askClose shutdown owner).life.closing := by rw [hk.life]
    have hacc : u.life.accepted = s.life.accepted := by rw [hk.life]; rfl
    refine ending_of_open (fun h' => nomatch h') (fun _ => ?_) ?_ fun n hn => ?_
    · change u.life.closing ≠ none
      rw [hcl, hsd]
      cases hc : s.life.closing <;> simp [askClose, hc]
    · change u.life.finals = []
      rw [hk.life]
      exact hfin
    · refine ⟨rfl, ?_⟩
      change u.life.accepted.length = n
      rw [hacc]
      exact hclosed n (hcl ▸ hn)

theorem Ending.moved (ha : soi.Apart) (ho : Ordered soi s) (h : Ending s) (hm : Moved soi s t m)
    (hasked : s.type = .invalid → asked = true) : Ending (t.note asked s m) := by
  by_cases hi : s.type = .invalid
  · obtain rfl := hm.eq_of_invalid hi
    rw [hasked hi, note_of_asked hi]
    exact h
  cases hm with
  | turned ht => exact h.turned ht hi
  | sent _ hs =>
    obtain ⟨done, part, hf, hr⟩ := ho.filed hi
    exact (hf.sendBuffer ha hr hs).ending hi hi (h.waits hi) h.asked (fun n hn => (h.closed n hn).2)
      fun _ hc => by
        obtain ⟨n, hn⟩ := Option.ne_none_iff_exists'.1 hc
        exact (h.closed n hn).1.resolve_right hi
  | posted hs => exact h.posted hs hi
  | closed hs => exact h.asked_close (ho.closeSocket ha hs) hi

end Socket

namespace SocketServer

variable {soi : SocketObjectInterface} {ss : SocketServer soi}

end SocketServer

end SkynetGame
