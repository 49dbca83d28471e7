import SkynetGame.Netpack
import SkynetGame.Lib.Framing

/-!
# What `filter` makes of a stream is its packages

What is stored for an fd is the rest of its stream behind the last whole package (`Kept`). A chunk
adds the packages that it completes: a single one with nothing behind it is delivered at once, others
go to the ring, from which they are popped in order.
-/

namespace SkynetGame

open Function List

namespace Netpack

open Framing

section Framed

theorem readSize_eq (b₀ b₁ : UInt8) : readSize b₀ b₁ = b₁.toNat + 256 * b₀.toNat := by
  have hlt : b₁.toNat < 2 ^ 8 := b₁.toNat_lt
  rw [readSize, ← Nat.shiftLeft_add_eq_or_of_lt hlt, Nat.shiftLeft_eq]
  omega

theorem announced_two (b₀ b₁ : UInt8) (r : Bytes) : announced 2 (b₀ :: b₁ :: r) = readSize b₀ b₁ := by
  have h : announced 2 (b₀ :: b₁ :: r) = Endian.ofLe [b₁, b₀] := rfl
  rw [h, readSize_eq, Endian.ofLe_cons, Endian.ofLe_cons]
  rfl

theorem lpack_eq {msg b : Bytes} (h : lpack msg = .ok b) :
    msg.length < 0x10000 ∧ frame 2 msg = b := by
  have hmask : ∀ n, UInt8.ofNat (n &&& 0xff) = UInt8.ofNat n := fun n => by
    rw [Nat.and_two_pow_sub_one_eq_mod n 8]
    exact UInt8.ofNat_mod_size
  rw [lpack] at h
  split_ifs at h with hlen
  refine ⟨not_le.1 hlen, ?_⟩
  rw [← Except.ok.inj h, writeSize, hmask, hmask, Nat.shiftRight_eq_div_pow]
  rfl

theorem whole_two {b₀ b₁ : UInt8} {r : Bytes} :
    Whole 2 (b₀ :: b₁ :: r) ↔ readSize b₀ b₁ ≤ r.length := by
  rw [Whole, announced_two, length_cons, length_cons]
  omega

theorem first_two (b₀ b₁ : UInt8) (r : Bytes) :
    first 2 (b₀ :: b₁ :: r) = r.take (readSize b₀ b₁) := by
  rw [first, announced_two]
  rfl

theorem behind_two (b₀ b₁ : UInt8) (r : Bytes) :
    behind 2 (b₀ :: b₁ :: r) = r.drop (readSize b₀ b₁) := by
  rw [behind, announced_two, Nat.add_comm]
  rfl

theorem not_whole_of_short {s : Bytes} (h : s.length < 2) : ¬ Whole 2 s := by
  rintro ⟨-, hle⟩
  omega

end Framed

section Chains

def Queue.stored (q : Queue) (fd : ℕ) : Option Uncomplete :=
  (q.hash (hashFd fd)).find? (·.id = fd)

/-- The packages that wait to be popped. -/
def Queue.waiting (q : Queue) : List Pack := ringList q.queue q.cap q.head q.tail

/-- The ring is within bounds, and each fd has one entry at most. -/
structure Queue.Ok (q : Queue) : Prop where
  head : q.head < q.cap
  tail : q.tail < q.cap
  chain : ∀ h, ((q.hash h).map Uncomplete.id).Nodup

theorem unlink_none {fd : ℕ} : ∀ {l : List Uncomplete}, unlink fd l = none →
    l.find? (·.id = fd) = none
  | [], _ => rfl
  | uc :: l, h => by
    rw [unlink] at h
    split_ifs at h with hid
    rw [find?_cons_of_neg (by simpa using hid)]
    exact unlink_none (Option.map_eq_none_iff.1 h)

theorem unlink_some {fd : ℕ} {u : Uncomplete} : ∀ {l : List Uncomplete} (l' : List Uncomplete),
    unlink fd l = some (u, l') → l.Perm (u :: l') ∧ u.id = fd ∧ l.find? (·.id = fd) = some u ∧
      ∀ fd', fd' ≠ fd → l'.find? (·.id = fd') = l.find? (·.id = fd')
  | [], _, h => by cases h
  | uc :: l, l', h => by
    rw [unlink] at h
    split_ifs at h with hid
    · cases h
      refine ⟨.refl _, hid, find?_cons_of_pos (by simpa using hid), ?_⟩
      intro fd' hne
      rw [find?_cons_of_neg (by simpa [hid] using hne.symm)]
    · obtain ⟨r, hr, heq⟩ := Option.map_eq_some_iff.1 h
      cases heq
      obtain ⟨hperm, huid, hfind, hother⟩ := unlink_some r.2 hr
      refine ⟨(hperm.cons uc).trans (.swap ..), huid, ?_, ?_⟩
      · rw [find?_cons_of_neg (by simpa using hid)]
        exact hfind
      · intro fd' hne
        rw [find?_cons, find?_cons, hother fd' hne]

theorem find_none_of_nodup {fd : ℕ} {u : Uncomplete} {l : List Uncomplete} (hid : u.id = fd)
    (h : ((u :: l).map Uncomplete.id).Nodup) : l.find? (·.id = fd) = none := by
  rw [map_cons, nodup_cons] at h
  rw [find?_eq_none]
  intro x hx hxid
  rw [decide_eq_true_eq] at hxid
  exact h.1 (mem_map.2 ⟨x, hx, hxid.trans hid.symm⟩)

/-- A queue changed for one fd: the others' unfinished packages stay, and packages of the fd went
behind those that wait. -/
structure Moved (q q' : Queue) (fd : ℕ) (ps : List Bytes) : Prop where
  ok : q'.Ok
  others : ∀ fd', fd' ≠ fd → q'.stored fd' = q.stored fd'
  waiting : q'.waiting = q.waiting ++ ps.map (Pack.mk fd)

theorem Moved.refl {q : Queue} (h : q.Ok) (fd : ℕ) : Moved q q fd [] :=
  ⟨h, fun _ _ => rfl, (append_nil _).symm⟩

theorem Moved.trans {q q' q'' : Queue} {fd : ℕ} {ps ps' : List Bytes} (h : Moved q q' fd ps)
    (h' : Moved q' q'' fd ps') : Moved q q'' fd (ps ++ ps') :=
  ⟨h'.ok, fun fd' hne => (h'.others fd' hne).trans (h.others fd' hne), by
    rw [h'.waiting, h.waiting, map_append, append_assoc]⟩

theorem stored_update (q : Queue) (fd : ℕ) (l : List Uncomplete)
    (h : ∀ fd', fd' ≠ fd → hashFd fd' = hashFd fd →
      l.find? (·.id = fd') = (q.hash (hashFd fd)).find? (·.id = fd')) :
    (∀ fd', fd' ≠ fd → { q with hash := Function.update q.hash (hashFd fd) l : Queue }.stored fd' =
      q.stored fd') ∧
      { q with hash := Function.update q.hash (hashFd fd) l : Queue }.stored fd =
        l.find? (·.id = fd) := by
  constructor
  · intro fd' hne
    show ((Function.update q.hash (hashFd fd) l) (hashFd fd')).find? _ = _
    by_cases hhash : hashFd fd' = hashFd fd
    · rw [hhash, update_self, h fd' hne hhash, Queue.stored, hhash]
    · rw [update_of_ne hhash]
      rfl
  · show ((Function.update q.hash (hashFd fd) l) (hashFd fd)).find? _ = _
    rw [update_self]

theorem findUncomplete_none {q : Option Queue} {fd : ℕ} (h : findUncomplete q fd = none) :
    (getQueue q).stored fd = none := by
  cases q with
  | none => rfl
  | some q => exact unlink_none (Option.map_eq_none_iff.1 h)

theorem findUncomplete_some {q : Option Queue} {q' : Queue} {fd : ℕ} {uc : Uncomplete}
    (hok : (getQueue q).Ok) (h : findUncomplete q fd = some (uc, q')) :
    (getQueue q).stored fd = some uc ∧ uc.id = fd ∧ q'.stored fd = none ∧
      Moved (getQueue q) q' fd [] := by
  cases q with
  | none => cases h
  | some q =>
    obtain ⟨⟨uc', l'⟩, hunlink, heq⟩ := Option.map_eq_some_iff.1 h
    cases heq
    obtain ⟨hperm, hid, hfind, hother⟩ := unlink_some _ hunlink
    have hnodup : ((uc' :: l').map Uncomplete.id).Nodup :=
      (hperm.map Uncomplete.id).nodup_iff.1 (hok.chain _)
    obtain ⟨hothers, hself⟩ := stored_update q fd l' fun fd' hne _ => hother fd' hne
    refine ⟨hfind, hid, hself.trans (find_none_of_nodup hid hnodup), ⟨hok.head, hok.tail, ?_⟩,
      hothers, (append_nil _).symm⟩
    intro h'
    by_cases hh : h' = hashFd fd
    · show (((Function.update q.hash (hashFd fd) l') h').map _).Nodup
      rw [hh, update_self]
      exact (nodup_cons.1 hnodup).2
    · show (((Function.update q.hash (hashFd fd) l') h').map _).Nodup
      rw [update_of_ne hh]
      exact hok.chain h'

theorem saveUncomplete_spec {q : Option Queue} {u : Uncomplete} (hok : (getQueue q).Ok)
    (hnone : (getQueue q).stored u.id = none) :
    Moved (getQueue q) (saveUncomplete q u) u.id [] ∧
      (saveUncomplete q u).stored u.id = some u := by
  obtain ⟨hothers, hself⟩ := stored_update (getQueue q) u.id
    (u :: (getQueue q).hash (hashFd u.id)) fun fd' hne _ =>
      find?_cons_of_neg (by simpa using hne.symm)
  refine ⟨⟨⟨hok.head, hok.tail, ?_⟩, hothers, (append_nil _).symm⟩,
    hself.trans (find?_cons_of_pos (by simp))⟩
  intro h
  show (((Function.update (getQueue q).hash (hashFd u.id) _) h).map _).Nodup
  by_cases hh : h = hashFd u.id
  · rw [hh, update_self, map_cons, nodup_cons]
    refine ⟨?_, hok.chain _⟩
    intro hmem
    obtain ⟨x, hx, hxid⟩ := mem_map.1 hmem
    have hneg := find?_eq_none.1 hnone x hx
    rw [decide_eq_true_eq] at hneg
    exact hneg hxid
  · rw [update_of_ne hh]
    exact hok.chain h

theorem pushData_spec {q : Option Queue} (fd : ℕ) (p : Bytes) (hok : (getQueue q).Ok) :
    Moved (getQueue q) (pushData q fd p) fd [p] ∧
      (pushData q fd p).stored fd = (getQueue q).stored fd := by
  have hnext : (if (getQueue q).tail + 1 ≥ (getQueue q).cap
      then (getQueue q).tail + 1 - (getQueue q).cap else (getQueue q).tail + 1) =
      ringNext (getQueue q).cap (getQueue q).tail := by
    have htail := hok.tail
    rw [ringNext]
    split_ifs <;> omega
  simp only [pushData, hnext]
  by_cases hfull : (getQueue q).head = ringNext (getQueue q).cap (getQueue q).tail
  · rw [if_pos hfull]
    have hlt : (getQueue q).cap < (getQueue q).cap + QUEUESIZE :=
      Nat.lt_add_of_pos_right (by decide)
    refine ⟨⟨⟨?_, hlt, hok.chain⟩, fun _ _ => rfl, ?_⟩, rfl⟩
    · exact (Nat.zero_le _).trans_lt hlt
    · exact ringList_write_grow _ _ hok.head hok.tail hfull hlt
  · rw [if_neg hfull]
    have hcap : 0 < (getQueue q).cap := (Nat.zero_le _).trans_lt hok.head
    exact ⟨⟨⟨hok.head, ringNext_lt hcap _, hok.chain⟩, fun _ _ => rfl,
      ringList_write _ _ hok.head hok.tail hfull⟩, rfl⟩

end Chains

section Stream

/-- What is stored for an fd is the unfinished rest of its stream. -/
def Kept (fd : ℕ) : Bytes → Option Uncomplete → Prop
  | [], u => u = none
  | [b], u => ∃ x, u = some x ∧ x.id = fd ∧ x.read = -1 ∧ x.header = b
  | b₀ :: b₁ :: r, u => ∃ x, u = some x ∧ x.id = fd ∧ x.read = r.length ∧
      x.size = readSize b₀ b₁ ∧ x.buffer = r

theorem pushMore_spec (fd : ℕ) (buffer : Bytes) {q : Option Queue} (hok : (getQueue q).Ok)
    (hnone : (getQueue q).stored fd = none) :
    Moved (getQueue q) (getQueue (pushMore q fd buffer)) fd (packages 2 buffer) ∧
      Kept fd (rest 2 buffer) ((getQueue (pushMore q fd buffer)).stored fd) := by
  match buffer with
  | [] =>
    rw [pushMore, packages_nil, rest_nil]
    exact ⟨.refl hok fd, hnone⟩
  | [b] =>
    have hpart : ¬ Whole 2 [b] := not_whole_of_short (by simp)
    rw [pushMore, packages_part hpart, rest_part hpart]
    obtain ⟨hmoved, hself⟩ := saveUncomplete_spec (u := ⟨fd, 0, [], -1, b⟩) hok hnone
    exact ⟨hmoved, _, hself, rfl, rfl, rfl⟩
  | b₀ :: b₁ :: r =>
    rw [pushMore]
    by_cases hlt : r.length < readSize b₀ b₁
    · have hpart : ¬ Whole 2 (b₀ :: b₁ :: r) := fun h => absurd (whole_two.1 h) (not_le.2 hlt)
      rw [if_pos hlt, packages_part hpart, rest_part hpart]
      obtain ⟨hmoved, hself⟩ := saveUncomplete_spec
        (u := ⟨fd, readSize b₀ b₁, r, r.length, 0⟩) hok hnone
      exact ⟨hmoved, _, hself, rfl, rfl, rfl, rfl⟩
    · have hwhole : Whole 2 (b₀ :: b₁ :: r) := whole_two.2 (not_lt.1 hlt)
      obtain ⟨hmoved, hself⟩ := pushData_spec fd (r.take (readSize b₀ b₁)) hok
      rw [if_neg hlt, packages_whole hwhole, rest_whole hwhole, first_two, behind_two]
      by_cases hnil : r.drop (readSize b₀ b₁) = []
      · simp only [hnil, packages_nil, rest_nil]
        exact ⟨hmoved, hself.trans hnone⟩
      · simp only [if_neg hnil]
        obtain ⟨hmoved', hkept⟩ := pushMore_spec fd (r.drop (readSize b₀ b₁))
          (q := some (pushData q fd (r.take (readSize b₀ b₁)))) hmoved.ok (hself.trans hnone)
        exact ⟨hmoved.trans hmoved', hkept⟩
termination_by buffer.length
decreasing_by
  rw [length_drop, length_cons, length_cons]
  omega

/-- What becomes of the packages that a chunk completes: the only one is delivered if nothing is
behind it, else all go to the ring. -/
inductive Handed (fd : ℕ) : List Bytes → Bytes → Event → List Bytes → Prop
  | none {t : Bytes} : Handed fd [] t .none []
  | data {p : Bytes} : Handed fd [p] [] (.data fd p) []
  | more {ps : List Bytes} {t : Bytes} : ps ≠ [] → Handed fd ps t .more ps

/-- A chunk for an fd turned the rest of its stream and the bytes of the chunk, `s` together, into
the packages of `s` and their rest. -/
def Filtered (q : Queue) (fd : ℕ) (s : Bytes) (r : Option Queue × Event) : Prop :=
  ∃ ps, Handed fd (packages 2 s) (rest 2 s) r.2 ps ∧ Moved q (getQueue r.1) fd ps ∧
    Kept fd (rest 2 s) ((getQueue r.1).stored fd)

theorem filtered_part {q q' : Queue} {fd : ℕ} {s : Bytes} {u : Uncomplete} (h : ¬ Whole 2 s)
    (hmoved : Moved q q' fd []) (hself : q'.stored fd = some u) (hkept : Kept fd s (some u)) :
    Filtered q fd s (some q', .none) := by
  rw [Filtered, packages_part h, rest_part h]
  exact ⟨[], .none, hmoved, hself ▸ hkept⟩

theorem filtered_more {q : Option Queue} {fd : ℕ} {s : Bytes} (h : Whole 2 s)
    (hok : (getQueue q).Ok) (hnone : (getQueue q).stored fd = none) :
    Filtered (getQueue q) fd s
      (pushMore (some (pushData q fd (first 2 s))) fd (behind 2 s), .more) := by
  obtain ⟨hmoved, hself⟩ := pushData_spec fd (first 2 s) hok
  obtain ⟨hmoved', hkept⟩ := pushMore_spec fd (behind 2 s)
    (q := some (pushData q fd (first 2 s))) hmoved.ok (hself.trans hnone)
  rw [Filtered, packages_whole h, rest_whole h]
  exact ⟨_, .more (cons_ne_nil _ _), hmoved.trans hmoved', hkept⟩

theorem filtered_data {q : Queue} {r : Option Queue} {fd : ℕ} {s : Bytes} (h : Whole 2 s)
    (hnil : behind 2 s = []) (hmoved : Moved q (getQueue r) fd [])
    (hnone : (getQueue r).stored fd = none) :
    Filtered q fd s (r, .data fd (first 2 s)) := by
  rw [Filtered, packages_whole h, rest_whole h, hnil, packages_nil, rest_nil]
  exact ⟨[], .data, hmoved, hnone⟩

theorem fillUncomplete_spec {q : Queue} {u : Uncomplete} {fd : ℕ} {b₀ b₁ : UInt8} (buffer : Bytes)
    (hok : q.Ok) (hnone : q.stored fd = none) (hid : u.id = fd) (hread : u.read = u.buffer.length)
    (hsize : u.size = readSize b₀ b₁) (hle : u.buffer.length ≤ u.size) :
    Filtered q fd (b₀ :: b₁ :: (u.buffer ++ buffer)) (fillUncomplete q u fd buffer) := by
  have hneed : u.size - u.read.toNat = readSize b₀ b₁ - u.buffer.length := by
    rw [hread, hsize, Int.toNat_natCast]
  rw [hsize] at hle
  rw [fillUncomplete, hneed]
  by_cases hlt : buffer.length < readSize b₀ b₁ - u.buffer.length
  · have hpart : ¬ Whole 2 (b₀ :: b₁ :: (u.buffer ++ buffer)) := by
      rw [whole_two, length_append]
      omega
    subst hid
    obtain ⟨hmoved, hself⟩ := saveUncomplete_spec (q := some q)
      (u := { u with buffer := u.buffer ++ buffer, read := u.read + buffer.length }) hok hnone
    rw [if_pos hlt]
    refine filtered_part hpart hmoved hself ⟨_, rfl, rfl, ?_, hsize, rfl⟩
    rw [hread, length_append, Nat.cast_add]
  · have hwhole : Whole 2 (b₀ :: b₁ :: (u.buffer ++ buffer)) := by
      rw [whole_two, length_append]
      omega
    have hfirst : first 2 (b₀ :: b₁ :: (u.buffer ++ buffer)) =
        u.buffer ++ buffer.take (readSize b₀ b₁ - u.buffer.length) := by
      rw [first_two, take_append, take_of_length_le hle]
    have hbehind : behind 2 (b₀ :: b₁ :: (u.buffer ++ buffer)) =
        buffer.drop (readSize b₀ b₁ - u.buffer.length) := by
      rw [behind_two, drop_append, drop_of_length_le hle, nil_append]
    rw [if_neg hlt, ← hfirst, ← hbehind]
    by_cases hnil : behind 2 (b₀ :: b₁ :: (u.buffer ++ buffer)) = []
    · simp only [if_pos hnil]
      exact filtered_data hwhole hnil (.refl hok fd) hnone
    · simp only [if_neg hnil]
      exact filtered_more (q := some q) hwhole hok hnone

theorem filterData_spec {q : Option Queue} {fd : ℕ} {t buffer : Bytes} (hok : (getQueue q).Ok)
    (ht : ¬ Whole 2 t) (hkept : Kept fd t ((getQueue q).stored fd)) (hne : buffer ≠ []) :
    Filtered (getQueue q) fd (t ++ buffer) (filterData q fd buffer) := by
  unfold filterData
  cases hfind : findUncomplete q fd with
  | none =>
    have hnone := findUncomplete_none hfind
    rw [hnone] at hkept
    have ht' : t = [] := by
      rcases t with _ | ⟨b, _ | ⟨b', r⟩⟩
      · rfl
      · obtain ⟨x, hx, -⟩ := hkept
        cases hx
      · obtain ⟨x, hx, -⟩ := hkept
        cases hx
    rw [ht', nil_append]
    rcases buffer with _ | ⟨b₀, _ | ⟨b₁, r⟩⟩
    · exact absurd rfl hne
    · obtain ⟨hmoved, hself⟩ := saveUncomplete_spec (u := ⟨fd, 0, [], -1, b₀⟩) hok hnone
      exact filtered_part (not_whole_of_short (by simp)) hmoved hself ⟨_, rfl, rfl, rfl, rfl⟩
    · simp only []
      by_cases hlt : r.length < readSize b₀ b₁
      · obtain ⟨hmoved, hself⟩ := saveUncomplete_spec
          (u := ⟨fd, readSize b₀ b₁, r, r.length, 0⟩) hok hnone
        rw [if_pos hlt]
        exact filtered_part (fun h => absurd (whole_two.1 h) (not_le.2 hlt)) hmoved hself
          ⟨_, rfl, rfl, rfl, rfl, rfl⟩
      · have hwhole : Whole 2 (b₀ :: b₁ :: r) := whole_two.2 (not_lt.1 hlt)
        rw [if_neg hlt]
        by_cases heq : r.length = readSize b₀ b₁
        · have hfirst : first 2 (b₀ :: b₁ :: r) = r := by
            rw [first_two, take_of_length_le heq.le]
          have hbehind : behind 2 (b₀ :: b₁ :: r) = [] := by
            rw [behind_two, drop_of_length_le heq.le]
          have hdata := filtered_data (r := q) hwhole hbehind (.refl hok fd) hnone
          rw [hfirst] at hdata
          rw [if_pos heq]
          exact hdata
        · rw [if_neg heq, ← first_two, ← behind_two]
          exact filtered_more hwhole hok hnone
  | some r =>
    rcases r with ⟨u, q'⟩
    obtain ⟨hstored, hid, hnone, hmoved⟩ := findUncomplete_some hok hfind
    rw [hstored] at hkept
    have htrans : ∀ {s r}, Filtered q' fd s r → Filtered (getQueue q) fd s r := by
      rintro s r ⟨ps, hhanded, hm, hk⟩
      exact ⟨ps, hhanded, hmoved.trans hm, hk⟩
    refine htrans ?_
    rcases t with _ | ⟨b, _ | ⟨b', r⟩⟩
    · cases hkept
    · -- the second byte of the header comes first
      obtain ⟨x, hx, -, hread, hheader⟩ := hkept
      cases hx
      rcases buffer with _ | ⟨b₁, r⟩
      · exact absurd rfl hne
      · have htake : takeHeader u (b₁ :: r) =
            ({ u with size := readSize b b₁, buffer := [], read := 0 }, r) := by
          rw [takeHeader, if_pos (by rw [hread]; decide), hheader]
          rfl
        simp only [htake]
        exact fillUncomplete_spec (u := { u with size := readSize b b₁, buffer := [], read := 0 })
          r hmoved.ok hnone hid rfl rfl (Nat.zero_le _)
    · obtain ⟨x, hx, -, hread, hsize, hbuffer⟩ := hkept
      cases hx
      have htake : takeHeader u buffer = (u, buffer) := by
        rw [takeHeader, if_neg (by rw [hread]; omega)]
      have hle : u.buffer.length ≤ u.size := by
        rw [whole_two] at ht
        rw [hbuffer, hsize]
        omega
      rw [← hbuffer] at hread ⊢
      simp only [htake]
      exact fillUncomplete_spec buffer hmoved.ok hnone hid hread hsize hle

theorem closeUncomplete_spec {q : Option Queue} {fd : ℕ} (hok : (getQueue q).Ok) :
    Moved (getQueue q) (getQueue (closeUncomplete q fd)) fd [] ∧
      (getQueue (closeUncomplete q fd)).stored fd = none := by
  rw [closeUncomplete]
  cases hfind : findUncomplete q fd with
  | none => exact ⟨.refl hok fd, findUncomplete_none hfind⟩
  | some r =>
    obtain ⟨-, -, hnone, hmoved⟩ := findUncomplete_some hok hfind
    exact ⟨hmoved, hnone⟩

theorem lpop_spec {q : Option Queue} {p : Pack} {q' : Queue} (hok : (getQueue q).Ok)
    (h : lpop q = some (p, q')) : (getQueue q).waiting = p :: q'.waiting ∧ q'.Ok ∧
      ∀ fd, q'.stored fd = (getQueue q).stored fd := by
  cases q with
  | none => cases h
  | some q =>
    have hok' : q.Ok := hok
    rw [lpop] at h
    by_cases hempty : q.head = q.tail
    · rw [if_pos hempty] at h
      cases h
    · rw [if_neg hempty] at h
      cases h
      have hcap : 0 < q.cap := (Nat.zero_le _).trans_lt hok'.head
      exact ⟨ringList_read q.queue hok'.head hok'.tail hempty,
        ⟨ringNext_lt hcap q.head, hok'.tail, hok'.chain⟩, fun _ => rfl⟩

end Stream

section Run

def State.queue (s : State) : Queue := getQueue s.q

/-- The packages of the streams of an fd. -/
def State.framed (s : State) (fd : ℕ) : List Bytes :=
  (s.ended fd).flatMap (packages 2) ++ packages 2 (s.stream fd)

def State.deliveredTo (s : State) (fd : ℕ) : List Bytes :=
  (s.delivered.filter (·.fd = fd)).map Delivery.package

/-- Those of them that were delivered at once, or out of the queue. -/
def State.deliveredBy (s : State) (direct : Bool) (fd : ℕ) : List Bytes :=
  (s.delivered.filter fun d => d.fd = fd ∧ d.direct = direct).map Delivery.package

/-- The packages of an fd that wait in the queue. -/
def State.waitingFor (s : State) (fd : ℕ) : List Bytes :=
  (s.queue.waiting.filter (·.id = fd)).map Pack.buffer

/-- Nothing but the rest of each open stream is stored. -/
structure Stored (s : State) : Prop where
  ok : s.queue.Ok
  kept : ∀ fd, Kept fd (rest 2 (s.stream fd)) (s.queue.stored fd)

/-- What a step does with the packages. -/
inductive Change (s s' : State) : Label → Prop
  | fed {fd : ℕ} {buffer : Bytes} {new ps : List Bytes} {t : Bytes} {ev : Event} :
      (filterData s.q fd buffer).2 = ev → Handed fd new t ev ps →
      s'.framed fd = s.framed fd ++ new → (∀ fd', fd' ≠ fd → s'.framed fd' = s.framed fd') →
      s'.delivered = s.delivered ++ ev.delivery →
      s'.queue.waiting = s.queue.waiting ++ ps.map (Pack.mk fd) →
      Change s s' (.message (.data fd buffer))
  | popped (p : Pack) : s'.framed = s.framed →
      s'.delivered = s.delivered ++ [⟨false, p.id, p.buffer⟩] →
      s.queue.waiting = p :: s'.queue.waiting → Change s s' .pop
  | quiet {m : Message} : s'.framed = s.framed → s'.delivered = s.delivered →
      s'.queue.waiting = s.queue.waiting → Change s s' (.message m)

theorem framed_data (s : State) (fd : ℕ) (buffer : Bytes) {q : Option Queue} {d : List Delivery} :
    let s' : State := ⟨q, Function.update s.stream fd (s.stream fd ++ buffer), s.ended, d⟩
    s'.framed fd = s.framed fd ++ packages 2 (rest 2 (s.stream fd) ++ buffer) ∧
      ∀ fd', fd' ≠ fd → s'.framed fd' = s.framed fd' := by
  constructor
  · simp only [State.framed, update_self, (packages_append buffer (s.stream fd)).1,
      append_assoc]
  · intro fd' hne
    simp only [State.framed, update_of_ne hne]

theorem framed_close (s : State) (fd : ℕ) {q : Option Queue} {d : List Delivery} :
    State.framed ⟨q, Function.update s.stream fd [],
      Function.update s.ended fd (s.ended fd ++ [s.stream fd]), d⟩ = s.framed := by
  funext fd'
  by_cases h : fd' = fd
  · subst h
    simp only [State.framed, update_self, flatMap_append, flatMap_singleton,
      packages_nil, append_nil]
  · simp only [State.framed, update_of_ne h]

theorem Stored.update {s : State} (h : Stored s) {fd : ℕ} {ps : List Bytes} {t : Bytes}
    {q : Option Queue} {ended : ℕ → List Bytes} {d : List Delivery}
    (hmoved : Moved s.queue (getQueue q) fd ps)
    (hkept : Kept fd (rest 2 t) ((getQueue q).stored fd)) :
    Stored ⟨q, Function.update s.stream fd t, ended, d⟩ := by
  refine ⟨hmoved.ok, fun fd' => ?_⟩
  show Kept fd' (rest 2 (Function.update s.stream fd t fd')) ((getQueue q).stored fd')
  by_cases hfd : fd' = fd
  · rw [hfd, update_self]
    exact hkept
  · rw [update_of_ne hfd, hmoved.others fd' hfd]
    exact h.kept fd'

theorem step_change {s s' : State} {l : Label} (h : Stored s) (hs : step s l = some s') :
    Stored s' ∧ Change s s' l := by
  cases l with
  | pop =>
    obtain ⟨⟨p, q'⟩, hpop, rfl⟩ := Option.map_eq_some_iff.1 hs
    obtain ⟨hwaiting, hok, hstored⟩ := lpop_spec h.ok hpop
    refine ⟨⟨hok, fun fd => ?_⟩, .popped p rfl rfl hwaiting⟩
    show Kept fd _ (q'.stored fd)
    rw [hstored fd]
    exact h.kept fd
  | message m =>
    have hclose : ∀ fd, Moved s.queue (getQueue (closeUncomplete s.q fd)) fd [] ∧
        (getQueue (closeUncomplete s.q fd)).stored fd = none := fun fd => closeUncomplete_spec h.ok
    cases m with
    | data fd buffer =>
      simp only [step] at hs
      by_cases hne : buffer = []
      · rw [if_pos hne] at hs
        cases hs
      · rw [if_neg hne, Option.some.injEq] at hs
        rw [← hs]
        obtain ⟨ps, hhanded, hmoved, hkept⟩ :=
          filterData_spec h.ok (not_whole_rest _) (h.kept fd) hne
        obtain ⟨hself, hothers⟩ := framed_data s fd buffer
        refine ⟨h.update hmoved ?_, .fed rfl hhanded hself hothers rfl hmoved.waiting⟩
        rw [(packages_append buffer (s.stream fd)).2]
        exact hkept
    | close fd | error fd =>
      rw [← Option.some.inj hs]
      refine ⟨h.update (hclose fd).1 ?_, .quiet (framed_close s fd) (append_nil _)
        ((hclose fd).1.waiting.trans (append_nil _))⟩
      rw [rest_nil]
      exact (hclose fd).2
    | connect fd | accept fd | warning fd =>
      rw [← Option.some.inj hs]
      exact ⟨⟨h.ok, h.kept⟩, .quiet rfl (append_nil _) rfl⟩

/-- Each package of an fd took one of the two ways, and each way keeps the order. -/
def Routed (s : State) (fd : ℕ) : Prop :=
  ∃ l : List (Bool × Bytes), l.map Prod.snd = s.framed fd ∧
    (l.filter (·.1 = true)).map Prod.snd = s.deliveredBy true fd ∧
    (l.filter (·.1 = false)).map Prod.snd = s.deliveredBy false fd ++ s.waitingFor fd

/-- The packages of an fd were delivered in their order. -/
def InOrder (s : State) (fd : ℕ) : Prop := s.deliveredTo fd ++ s.waitingFor fd = s.framed fd

/-- A chunk delivers a package at once only where none of its fd waits. -/
def Drained (s : State) : Label → Prop
  | .message (.data fd buffer) =>
    (filterData s.q fd buffer).2.delivery = [] ∨ ∀ p ∈ s.queue.waiting, p.id ≠ fd
  | _ => True

instance (s : State) : ∀ l, Decidable (Drained s l)
  | .message (.data fd buffer) => inferInstanceAs (Decidable
      ((filterData s.q fd buffer).2.delivery = [] ∨ ∀ p ∈ s.queue.waiting, p.id ≠ fd))
  | .message (.connect _) | .message (.close _) | .message (.accept _) | .message (.error _)
  | .message (.warning _) | .pop => .isTrue trivial

theorem waitingFor_append {s s' : State} {fd : ℕ} (fd' : ℕ) {ps : List Bytes}
    (h : s'.queue.waiting = s.queue.waiting ++ ps.map (Pack.mk fd)) :
    s'.waitingFor fd' = s.waitingFor fd' ++ if fd = fd' then ps else [] := by
  rw [State.waitingFor, h, filter_append, map_append, State.waitingFor]
  congr 1
  split_ifs with heq
  · rw [filter_eq_self.2, map_map]
    · exact map_id' ps
    · intro p hp
      obtain ⟨b, -, rfl⟩ := mem_map.1 hp
      exact decide_eq_true heq
  · rw [filter_eq_nil_iff.2, map_nil]
    intro p hp
    obtain ⟨b, -, rfl⟩ := mem_map.1 hp
    simpa using heq

theorem inOrder_step {s s' : State} {l : Label} (hc : Change s s' l) (hd : Drained s l) {fd : ℕ}
    (h : InOrder s fd) : InOrder s' fd := by
  unfold InOrder at h ⊢
  cases hc with
  | @fed fd' _ new ps _ _ hev hhanded hself hothers hdelivered hwaiting =>
    have hwait := waitingFor_append fd hwaiting
    by_cases hfd : fd' = fd
    · subst hfd
      rw [if_pos rfl] at hwait
      rw [hself, ← h, hwait, State.deliveredTo, hdelivered]
      cases hhanded with
      | none => simp [Event.delivery, State.deliveredTo]
      | @data p =>
        have hnone : s.waitingFor fd' = [] := by
          rcases hd with hd | hd
          · rw [hev] at hd
            cases hd
          · rw [State.waitingFor, filter_eq_nil_iff.2, map_nil]
            intro q hq
            simpa using hd q hq
        rw [hnone]
        simp [Event.delivery, State.deliveredTo]
      | more hne => simp [Event.delivery, State.deliveredTo]
    · rw [if_neg hfd, append_nil] at hwait
      rw [hwait, hothers fd (Ne.symm hfd), ← h, State.deliveredTo, hdelivered]
      cases hhanded <;> simp [Event.delivery, State.deliveredTo, hfd]
  | popped p hsame hdelivered hwaiting =>
    rw [hsame, ← h, State.deliveredTo, State.deliveredTo, State.waitingFor, State.waitingFor,
      hdelivered, hwaiting]
    by_cases hp : p.id = fd <;> simp [hp]
  | quiet hsame hdelivered hwaiting =>
    rw [State.deliveredTo, State.waitingFor, hsame, hdelivered, hwaiting]
    exact h

theorem stored_init : Stored init :=
  ⟨⟨by decide, by decide, fun _ => nodup_nil⟩, fun fd => by rw [init, rest_nil]; exact rfl⟩

theorem framed_init (fd : ℕ) : init.framed fd = [] := by
  simp only [State.framed, init, flatMap_nil, packages_nil, append_nil]

theorem inOrder_of_reach {s : State} (h : machine.Reach Drained s) :
    Stored s ∧ ∀ fd, InOrder s fd := by
  have h₀ : Stored init ∧ ∀ fd, InOrder init fd :=
    ⟨stored_init, fun fd => (framed_init fd).symm⟩
  refine h.invariant (I := fun s => Stored s ∧ ∀ fd, InOrder s fd) h₀ ?_
  rintro s l s' ⟨hstored, horder⟩ hd hst
  obtain ⟨hstored', hchange⟩ := step_change hstored hst
  exact ⟨hstored', fun fd => inOrder_step hchange hd (horder fd)⟩

end Run

end Netpack

end SkynetGame
