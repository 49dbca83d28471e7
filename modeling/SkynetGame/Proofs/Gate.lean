import SkynetGame.Gate
import SkynetGame.Lib.Chain
import Mathlib.Data.List.TakeWhile

/-!
# The chain of a connection is the unread end of its stream

Each connection's messages and the free ones are chains of their own in the pool (`Buffered`). To
read takes bytes off the front and gives the messages that are done back; to push puts a chunk
behind. So the loop of `dispatch_message` cuts the stream as its framing does, as long as a frame
that is whole is also read.
-/

namespace SkynetGame

open Function List Option

namespace Gate

open Framing

section Pool

/-- The bytes of a chain of messages, from the offset on. -/
def unread (mp : Messagepool) (l : List ℕ) (offset : ℕ) : Bytes :=
  (l.flatMap fun m => (mp.mem m).buffer).drop offset

/-- The messages `l` of a buffer, and the free ones `lf`, are chains of their own. -/
structure Linked (mp : Messagepool) (head tail : Option ℕ) (l lf : List ℕ) : Prop where
  chain : Chain mp.next head l
  last : tail = l.getLast?
  free : Chain mp.next mp.freelist lf
  nodup : (l ++ lf).Nodup
  bound : ∀ m ∈ l ++ lf, m < mp.count

/-- The messages of a buffer hold the bytes `b`. -/
structure Buffered (mp : Messagepool) (db : Databuffer) (l lf : List ℕ) (b : Bytes) : Prop
    extends Linked mp db.head db.tail l lf where
  bytes : unread mp l db.offset = b
  offset : ∀ m ∈ l.head?, db.offset ≤ (mp.mem m).buffer.length
  empty : l = [] → db.offset = 0

/-- What an operation on a buffer leaves alone: the messages of others. -/
structure Local (mp mp' : Messagepool) (l l' : List ℕ) : Prop where
  outside : ∀ m < mp.count, m ∉ l → mp'.mem m = mp.mem m
  members : ∀ m ∈ l', m ∈ l ∨ mp.count ≤ m
  count : mp.count ≤ mp'.count

theorem Local.refl (mp : Messagepool) (l : List ℕ) : Local mp mp l l :=
  ⟨fun _ _ _ => rfl, fun _ h => .inl h, le_rfl⟩

theorem Local.trans {mp mp' mp'' : Messagepool} {l l' l'' : List ℕ} (h : Local mp mp' l l')
    (h' : Local mp' mp'' l' l'') : Local mp mp'' l l'' := by
  refine ⟨?_, ?_, h.count.trans h'.count⟩
  · intro m hm hl
    have hl' : m ∉ l' := by
      intro hmem
      rcases h.members m hmem with hin | hge
      · exact hl hin
      · omega
    rw [h'.outside m (hm.trans_le h.count) hl', h.outside m hm hl]
  · intro m hm
    rcases h'.members m hm with hin | hge
    · exact h.members m hin
    · exact .inr (h.count.trans hge)

theorem unread_congr {mp mp' : Messagepool} {l : List ℕ} (h : ∀ m ∈ l, mp'.mem m = mp.mem m)
    (offset : ℕ) : unread mp' l offset = unread mp l offset := by
  unfold unread
  congr 1
  exact flatMap_congr fun m hm => by rw [h m hm]

theorem unread_cons {mp : Messagepool} {m : ℕ} {l : List ℕ} {offset : ℕ}
    (h : offset ≤ (mp.mem m).buffer.length) :
    unread mp (m :: l) offset = (mp.mem m).buffer.drop offset ++ unread mp l 0 := by
  rw [unread, flatMap_cons, drop_append_of_le_length h, unread, drop_zero]

theorem returnMessage_spec {mp : Messagepool} {head tail : Option ℕ} {m : ℕ} {l lf : List ℕ}
    (h : Linked mp head tail (m :: l) lf) : ∃ head' tail' mp',
      (∀ header offset size, returnMessage ⟨header, offset, size, head, tail⟩ mp =
        some (⟨header, offset, size, head', tail'⟩, mp')) ∧
      Linked mp' head' tail' l (m :: lf) ∧ Local mp mp' (m :: l ++ lf) (l ++ m :: lf) ∧
      ∀ x ∈ l, mp'.mem x = mp.mem x := by
  obtain ⟨hhead, hrest⟩ := h.chain
  subst hhead
  obtain ⟨hfresh, -⟩ := nodup_cons.1 h.nodup
  have hmem : ∀ x, x ≠ m → Function.update mp.mem m ⟨[], mp.freelist⟩ x = mp.mem x :=
    fun x hx => update_of_ne hx ..
  have hmem' : ∀ x ∈ l ++ lf, Function.update mp.mem m ⟨[], mp.freelist⟩ x = mp.mem x :=
    fun x hx => hmem x fun he => hfresh (he ▸ hx)
  have hperm : (l ++ m :: lf).Perm (m :: l ++ lf) := perm_middle
  have hlinked : Linked ⟨Function.update mp.mem m ⟨[], mp.freelist⟩, mp.count, some m⟩
      (mp.next m) l.getLast? l (m :: lf) := by
    refine ⟨?_, rfl, ⟨rfl, ?_⟩, hperm.nodup_iff.2 h.nodup, fun x hx =>
      h.bound x (hperm.mem_iff.1 hx)⟩
    · exact hrest.frame fun x hx => congrArg Message.next (hmem' x (mem_append_left _ hx))
    · show Chain _ (Function.update mp.mem m ⟨[], mp.freelist⟩ m).next lf
      rw [update_self]
      exact h.free.frame fun x hx => congrArg Message.next (hmem' x (mem_append_right _ hx))
  have hlocal : Local mp ⟨Function.update mp.mem m ⟨[], mp.freelist⟩, mp.count, some m⟩
      (m :: l ++ lf) (l ++ m :: lf) :=
    ⟨fun x _ hx => hmem x fun he => hx (he ▸ mem_cons_self),
      fun x hx => .inl (hperm.mem_iff.1 hx), le_rfl⟩
  have hlast := h.last
  unfold returnMessage
  simp only []
  cases hnext : mp.next m with
  | none =>
    rw [hnext] at hrest hlinked
    have hl := hrest.eq_nil
    subst hl
    have htail : tail = some m := hlast
    simp only [if_pos htail]
    exact ⟨_, _, _, fun _ _ _ => rfl, hlinked, hlocal, fun x hx => absurd hx not_mem_nil⟩
  | some n =>
    rw [hnext] at hrest hlinked
    obtain ⟨l', rfl, -⟩ := hrest.eq_cons
    rw [getLast?_cons_cons] at hlast
    rw [← hlast] at hlinked
    exact ⟨_, _, _, fun _ _ _ => rfl, hlinked, hlocal,
      fun x hx => hmem' x (mem_append_left _ hx)⟩

theorem Linked.rewind {mp : Messagepool} (db : Databuffer) {l lf : List ℕ}
    (h : Linked mp db.head db.tail l lf) :
    Buffered mp { db with offset := 0 } l lf (unread mp l 0) :=
  ⟨h, rfl, fun _ _ => Nat.zero_le _, fun _ => rfl⟩

theorem Linked.length_le {mp : Messagepool} {head tail : Option ℕ} {l lf : List ℕ}
    (h : Linked mp head tail l lf) : l.length ≤ mp.count := by
  have hnodup : l.Nodup := (nodup_append.1 h.nodup).1
  have hsub : l ⊆ List.range mp.count := fun m hm =>
    mem_range.2 (h.bound m (mem_append_left _ hm))
  have hle := (subperm_of_subset hnodup hsub).length_le
  rwa [length_range] at hle

theorem readLoop_spec : ∀ {l : List ℕ} {fuel sz : ℕ} {mp : Messagepool} {db : Databuffer}
    {lf : List ℕ} {b : Bytes}, Buffered mp db l lf b → 0 < sz → sz ≤ b.length → l.length ≤ fuel →
      ∃ db' mp' l' lf', readLoop fuel db mp sz = some (b.take sz, db', mp') ∧
        Buffered mp' db' l' lf' (b.drop sz) ∧ Local mp mp' (l ++ lf) (l' ++ lf') ∧
        db'.header = db.header ∧ db'.size = db.size
  | [], _, _, _, _, _, _, h, hpos, hle, _ => by
    have hnil := congrArg List.length h.bytes
    rw [unread, flatMap_nil, drop_nil, length_nil] at hnil
    omega
  | m :: l, 0, _, _, _, _, _, _, _, _, hfuel => by
    rw [length_cons] at hfuel
    omega
  | m :: l, fuel + 1, sz, mp, ⟨header, offset, size, head, tail⟩, lf, b, h, hpos, hle, hfuel => by
    obtain rfl : head = some m := h.chain.1
    have hoffset : offset ≤ (mp.mem m).buffer.length := h.offset m rfl
    have hbytes : (mp.mem m).buffer.drop offset ++ unread mp l 0 = b := by
      rw [← unread_cons hoffset, ← h.bytes]
    rw [readLoop]
    simp only []
    by_cases hgt : ((mp.mem m).buffer.drop offset).length > sz
    · have hgt' : sz + offset < (mp.mem m).buffer.length := by
        rw [length_drop] at hgt
        omega
      rw [if_pos hgt]
      refine ⟨⟨header, offset + sz, size, some m, tail⟩, mp, m :: l, lf, ?_,
        ⟨h.toLinked, ?_, ?_, ?_⟩, .refl mp _, rfl, rfl⟩
      · rw [← hbytes, take_append_of_le_length hgt.le]
      · have hle' : offset + sz ≤ (mp.mem m).buffer.length := by omega
        rw [unread_cons hle', ← hbytes, drop_append_of_le_length hgt.le, drop_drop]
      · rintro x ⟨⟩
        show offset + sz ≤ _
        omega
      · rintro ⟨⟩
    · rw [if_neg hgt]
      obtain ⟨head', tail', mp', hret, hlinked, hlocal, hmem⟩ := returnMessage_spec h.toLinked
      have hbuf : Buffered mp' ⟨header, 0, size, head', tail'⟩ l (m :: lf) (unread mp l 0) := by
        rw [← unread_congr hmem]
        exact Linked.rewind ⟨header, 0, size, head', tail'⟩ hlinked
      by_cases heq : ((mp.mem m).buffer.drop offset).length = sz
      · rw [if_pos heq, hret]
        refine ⟨⟨header, 0, size, head', tail'⟩, mp', l, m :: lf, ?_, ?_, hlocal, rfl, rfl⟩
        · rw [← hbytes, ← heq, take_left]
          rfl
        · rw [← hbytes, ← heq, drop_left]
          exact hbuf
      · have hlen := congrArg List.length hbytes
        rw [length_append] at hlen
        rw [length_cons] at hfuel
        have hpos' : 0 < sz - ((mp.mem m).buffer.drop offset).length := by omega
        have hle' : sz - ((mp.mem m).buffer.drop offset).length ≤ (unread mp l 0).length := by omega
        obtain ⟨db'', mp'', l', lf', hloop, hbuf', hlocal', hheader', hsize'⟩ :=
          readLoop_spec hbuf hpos' hle' (Nat.le_of_succ_le_succ hfuel)
        rw [if_neg heq, hret, bind_some, hloop]
        refine ⟨db'', mp'', l', lf', ?_, ?_, hlocal.trans hlocal', hheader', hsize'⟩
        · rw [← hbytes, take_append, take_of_length_le (not_lt.1 hgt)]
          rfl
        · rw [← hbytes, drop_append, drop_of_length_le (not_lt.1 hgt), nil_append]
          exact hbuf'

structure Sized (mp : Messagepool) (db : Databuffer) (l lf : List ℕ) (b : Bytes) : Prop
    extends Buffered mp db l lf b where
  size : db.size = b.length

theorem databufferRead_spec {mp : Messagepool} {db : Databuffer} {l lf : List ℕ} {b : Bytes}
    {sz : ℕ} (h : Sized mp db l lf b) (hpos : 0 < sz) (hle : sz ≤ b.length) :
    ∃ db' mp' l' lf', databufferRead db mp sz = some (b.take sz, db', mp') ∧
      Sized mp' db' l' lf' (b.drop sz) ∧ Local mp mp' (l ++ lf) (l' ++ lf') ∧
      db'.header = db.header := by
  have hbuf : Buffered mp { db with size := db.size - sz } l lf b := { h.toBuffered with }
  obtain ⟨db', mp', l', lf', hloop, hbuf', hlocal, hheader, hsize⟩ :=
    readLoop_spec hbuf hpos hle (h.length_le.trans (Nat.le_succ _))
  have henough : db.size ≥ sz := by
    rw [h.size]
    exact_mod_cast hle
  refine ⟨db', mp', l', lf', ?_, ⟨hbuf', ?_⟩, hlocal, hheader⟩
  · rw [databufferRead, if_pos henough, hloop]
  · rw [hsize, length_drop]
    show db.size - sz = _
    rw [h.size]
    omega

theorem clearLoop_spec : ∀ {l : List ℕ} {fuel : ℕ} {mp : Messagepool} {db : Databuffer}
    {lf : List ℕ}, Linked mp db.head db.tail l lf → l.length < fuel →
      ∃ mp' lf', clearLoop fuel db mp = some mp' ∧ Linked mp' none none [] lf' ∧
        Local mp mp' (l ++ lf) lf'
  | _, 0, _, _, _, _, hfuel => by omega
  | [], fuel + 1, mp, db, lf, h, _ => by
    have hhead : db.head = none := h.chain
    refine ⟨mp, lf, ?_, ⟨rfl, rfl, h.free, h.nodup, h.bound⟩, .refl mp lf⟩
    rw [clearLoop, hhead]
  | m :: l, fuel + 1, mp, ⟨header, offset, size, head, tail⟩, lf, h, hfuel => by
    obtain rfl : head = some m := h.chain.1
    obtain ⟨head', tail', mp', hret, hlinked, hlocal, -⟩ := returnMessage_spec h
    rw [length_cons] at hfuel
    have hnext : Linked mp' (Databuffer.mk header offset size head' tail').head
        (Databuffer.mk header offset size head' tail').tail l (m :: lf) := hlinked
    obtain ⟨mp'', lf', hloop, hlinked', hlocal'⟩ :=
      clearLoop_spec hnext (Nat.lt_of_succ_lt_succ hfuel)
    refine ⟨mp'', lf', ?_, hlinked', hlocal.trans hlocal'⟩
    rw [clearLoop]
    simp only [hret, bind_some]
    exact hloop

theorem databufferClear_spec {mp : Messagepool} {db : Databuffer} {l lf : List ℕ}
    (h : Linked mp db.head db.tail l lf) : ∃ mp' lf', databufferClear db mp = some (.zero, mp') ∧
      Sized mp' .zero [] lf' [] ∧ Local mp mp' (l ++ lf) lf' := by
  obtain ⟨mp', lf', hloop, hlinked, hlocal⟩ := clearLoop_spec h (Nat.lt_succ_of_le h.length_le)
  refine ⟨mp', lf', ?_, ⟨⟨hlinked, rfl, (fun _ hm => nomatch hm), fun _ => rfl⟩, rfl⟩, hlocal⟩
  rw [databufferClear, hloop]
  rfl

theorem allocMessage_spec {mp : Messagepool} {head tail : Option ℕ} {l lf : List ℕ}
    (h : Linked mp head tail l lf) : ∃ lf', Linked (allocMessage mp).2 head tail l lf' ∧
      (allocMessage mp).1 ∉ l ++ lf' ∧ (allocMessage mp).1 < (allocMessage mp).2.count ∧
      Local mp (allocMessage mp).2 (l ++ lf) (l ++ (allocMessage mp).1 :: lf') ∧
      ∀ x ∈ l, (allocMessage mp).2.mem x = mp.mem x := by
  have hfree := h.free
  unfold allocMessage
  cases hlist : mp.freelist with
  | some m =>
    rw [hlist] at hfree
    obtain ⟨lf', rfl, hrest⟩ := hfree.eq_cons
    have hperm : (l ++ m :: lf').Perm (m :: (l ++ lf')) := perm_middle
    have hnodup := nodup_cons.1 (hperm.nodup_iff.1 h.nodup)
    have hbound : ∀ x ∈ m :: (l ++ lf'), x < mp.count := fun x hx =>
      h.bound x (hperm.mem_iff.2 hx)
    exact ⟨lf', ⟨h.chain, h.last, hrest, hnodup.2, fun x hx => hbound x (mem_cons_of_mem m hx)⟩,
      hnodup.1, hbound m mem_cons_self, ⟨fun _ _ _ => rfl, fun _ hx => .inl hx, le_rfl⟩,
      fun _ _ => rfl⟩
  | none =>
    rw [hlist] at hfree
    obtain rfl := hfree.eq_nil
    have hl : ∀ x ∈ l, x < mp.count := fun x hx => h.bound x (mem_append_left _ hx)
    have hrange : ∀ x ∈ List.range' (mp.count + 1) (MESSAGEPOOL - 1),
        mp.count < x ∧ x < mp.count + MESSAGEPOOL := by
      intro x hx
      rw [mem_range'_1] at hx
      rw [MESSAGEPOOL] at hx ⊢
      omega
    have hmem : ∀ x < mp.count, (if mp.count ≤ x ∧ x < mp.count + MESSAGEPOOL then
        (⟨[], if x + 1 < mp.count + MESSAGEPOOL then some (x + 1) else none⟩ : Message)
        else mp.mem x) = mp.mem x := fun x hx => if_neg (by omega)
    refine ⟨List.range' (mp.count + 1) (MESSAGEPOOL - 1), ⟨?_, h.last, ?_, ?_, ?_⟩, ?_, ?_, ?_,
      fun x hx => hmem x (hl x hx)⟩
    · exact h.chain.frame fun x hx => congrArg Message.next (hmem x (hl x hx))
    · refine Chain.range (n := MESSAGEPOOL - 1) (a := mp.count + 1) fun i hi => ?_
      have hin : mp.count ≤ mp.count + 1 + i ∧ mp.count + 1 + i < mp.count + MESSAGEPOOL := by
        rw [MESSAGEPOOL] at hi ⊢
        omega
      refine (congrArg Message.next (if_pos hin)).trans ?_
      exact if_congr (by rw [MESSAGEPOOL]; omega) rfl rfl
    · refine nodup_append.2 ⟨(nodup_append.1 h.nodup).1, nodup_range', ?_⟩
      intro x hx y hy
      have h₁ := hl x hx
      have h₂ := (hrange y hy).1
      omega
    · intro x hx
      rcases mem_append.1 hx with hx | hx
      · exact (hl x hx).trans (Nat.lt_add_of_pos_right (by decide))
      · exact (hrange x hx).2
    · intro hx
      rcases mem_append.1 hx with hx | hx
      · exact absurd (hl _ hx) (lt_irrefl _)
      · exact absurd (hrange _ hx).1 (lt_irrefl _)
    · exact Nat.lt_add_of_pos_right (by decide)
    · refine ⟨fun x hx _ => hmem x hx, ?_, Nat.le_add_right _ _⟩
      intro x hx
      rcases mem_append.1 hx with hx | hx
      · exact .inl (mem_append_left _ hx)
      · rcases mem_cons.1 hx with rfl | hx
        · exact .inr le_rfl
        · exact .inr (hrange x hx).1.le

theorem cint_of_lt {n : ℕ} (h : n < 2 ^ 31) : cint n = n := by
  rw [cint, Int.bmod_eq_of_le] <;> omega

theorem unread_concat {mp mp' : Messagepool} {l : List ℕ} {m offset : ℕ}
    (hl : ∀ x ∈ l, (mp'.mem x).buffer = (mp.mem x).buffer)
    (hoffset : ∀ x ∈ l.head?, offset ≤ (mp.mem x).buffer.length) (hempty : l = [] → offset = 0) :
    unread mp' (l ++ [m]) offset = unread mp l offset ++ (mp'.mem m).buffer := by
  have hle : offset ≤ (l.flatMap fun x => (mp.mem x).buffer).length := by
    cases l with
    | nil => exact (hempty rfl).le
    | cons x l =>
      rw [flatMap_cons, length_append]
      exact (hoffset x rfl).trans (Nat.le_add_right _ _)
  have hsame : (l.flatMap fun x => (mp'.mem x).buffer) = l.flatMap fun x => (mp.mem x).buffer :=
    flatMap_congr hl
  rw [unread, flatMap_append, hsame, flatMap_singleton,
    drop_append_of_le_length hle, unread]

theorem databufferPush_spec {mp : Messagepool} {db : Databuffer} {l lf : List ℕ} {b : Bytes}
    (data : Bytes) (h : Sized mp db l lf b) (hlt : (b ++ data).length < 2 ^ 31) :
    ∃ db' mp' l' lf', databufferPush db mp data = some (db', mp') ∧
      Sized mp' db' l' lf' (b ++ data) ∧ Local mp mp' (l ++ lf) (l' ++ lf') ∧
      db'.header = db.header := by
  obtain ⟨lf', hlinked, hfresh, hcount, hlocal, hmem⟩ := allocMessage_spec h.toLinked
  obtain ⟨hlnodup, hlfnodup, hapart⟩ := nodup_append.1 hlinked.nodup
  generalize hm : (allocMessage mp).1 = m at hfresh hcount hlocal
  generalize hmp : (allocMessage mp).2 = mp₁ at hlinked hcount hlocal hmem
  have hml : m ∉ l := fun hx => hfresh (mem_append_left _ hx)
  have hmlf : m ∉ lf' := fun hx => hfresh (mem_append_right _ hx)
  have hsize : cint (db.size + data.length) = ((b ++ data).length : ℕ) := by
    rw [h.size, ← Nat.cast_add, ← length_append, cint_of_lt hlt]
  have hput : ∀ x, x ≠ m → Function.update mp₁.mem m ⟨data, none⟩ x = mp₁.mem x :=
    fun x hx => update_of_ne hx ..
  have hputl : ∀ x ∈ l, Function.update mp₁.mem m ⟨data, none⟩ x = mp.mem x :=
    fun x hx => (hput x fun he => hml (he ▸ hx)).trans (hmem x hx)
  have hnodup : (l ++ [m] ++ lf').Nodup := by
    rw [append_assoc, singleton_append]
    exact (perm_middle.nodup_iff).2 (nodup_cons.2 ⟨hfresh, hlinked.nodup⟩)
  have hmemb : ∀ x ∈ l ++ [m] ++ lf', x ∈ l ++ m :: lf' := by
    intro x hx
    rwa [append_assoc, singleton_append] at hx
  have hbound : ∀ x ∈ l ++ [m] ++ lf', x < mp₁.count := by
    intro x hx
    rcases mem_append.1 (hmemb x hx) with hx | hx
    · exact hlinked.bound x (mem_append_left _ hx)
    · rcases mem_cons.1 hx with rfl | hx
      · exact hcount
      · exact hlinked.bound x (mem_append_right _ hx)
  -- what is left to see of the pool that comes out of the two cases
  have hdone : ∀ (mem : ℕ → Message) (head : Option ℕ),
      Chain (fun x => (mem x).next) head (l ++ [m]) → (mem m).buffer = data →
      (∀ x ∈ l, (mem x).buffer = (mp.mem x).buffer) → (∀ x, x ≠ m → x ∉ l → mem x = mp₁.mem x) →
      Sized ⟨mem, mp₁.count, mp₁.freelist⟩
          ⟨db.header, db.offset, cint (db.size + data.length), head, some m⟩ (l ++ [m]) lf'
          (b ++ data) ∧
        Local mp ⟨mem, mp₁.count, mp₁.freelist⟩ (l ++ lf) (l ++ [m] ++ lf') := by
    intro mem head hchain hself hbuffer hother
    have hfree : Chain (fun x => (mem x).next) mp₁.freelist lf' := by
      refine hlinked.free.frame fun x hx => congrArg Message.next (hother x ?_ ?_)
      · exact fun he => hmlf (he ▸ hx)
      · exact fun hxl => hapart x hxl x hx rfl
    refine ⟨⟨⟨⟨hchain, getLast?_concat.symm, hfree, hnodup, hbound⟩, ?_, ?_, ?_⟩, hsize⟩,
      ⟨?_, fun x hx => hlocal.members x (hmemb x hx), hlocal.count⟩⟩
    · rw [unread_concat hbuffer h.offset h.empty]
      exact congrArg₂ (· ++ ·) h.bytes hself
    · intro x hx
      rcases l with _ | ⟨y, l⟩
      · show db.offset ≤ _
        rw [h.empty rfl]
        exact Nat.zero_le _
      · obtain rfl : y = x := some.inj hx
        show db.offset ≤ (mem y).buffer.length
        rw [hbuffer y mem_cons_self]
        exact h.offset y rfl
    · intro hnil
      exact absurd hnil (append_ne_nil_of_right_ne_nil l (cons_ne_nil m []))
    · intro x hx hxl
      rw [mem_append, not_or] at hxl
      have hxm : x ≠ m := by
        rintro rfl
        rcases hlocal.members x (mem_append_right _ mem_cons_self) with hin | hge
        · exact (mem_append.1 hin).elim hxl.1 hxl.2
        · omega
      rw [← hlocal.outside x hx fun hin => (mem_append.1 hin).elim hxl.1 hxl.2]
      exact hother x hxm hxl.1
  unfold databufferPush
  rw [hm, hmp]
  rcases eq_nil_or_concat' l with rfl | ⟨l', t, rfl⟩
  · have hhead : db.head = none := h.chain
    have htail : db.tail = none := h.last
    have hself : Function.update mp₁.mem m ⟨data, none⟩ m = ⟨data, none⟩ :=
      update_self ..
    obtain ⟨hsized, hloc⟩ := hdone (Function.update mp₁.mem m ⟨data, none⟩) (some m)
      ⟨rfl, congrArg Message.next hself⟩ (congrArg Message.buffer hself)
      (fun x hx => absurd hx not_mem_nil) fun x hx _ => hput x hx
    rw [hhead, htail]
    exact ⟨_, _, _, lf', rfl, hsized, hloc, rfl⟩
  · have hlast : db.tail = some t := by rw [h.last, getLast?_concat]
    have htl : t ∈ l' ++ [t] := mem_append_right _ (mem_singleton_self t)
    have htm : t ≠ m := fun he => hml (he ▸ htl)
    obtain ⟨x, hhead⟩ : ∃ x, db.head = some x := by
      cases hh : db.head with
      | none =>
        have hchain := h.chain
        rw [hh] at hchain
        exact absurd hchain.eq_nil (append_ne_nil_of_right_ne_nil l' (cons_ne_nil t []))
      | some x => exact ⟨x, rfl⟩
    set mem₁ := Function.update mp₁.mem m ⟨data, none⟩ with hmem₁
    have hself : mem₁ m = ⟨data, none⟩ := update_self ..
    have hchain₁ : Chain (fun y => (mem₁ y).next) db.head (l' ++ [t]) :=
      h.chain.frame fun y hy => congrArg Message.next (hputl y hy)
    have hchain := hchain₁.concat (x := m) (t := t) getLast?_concat hlnodup hml
      (congrArg Message.next hself)
    have hat : ∀ y, y ≠ t → Function.update mem₁ t { mem₁ t with next := some m } y = mem₁ y :=
      fun y hy => update_of_ne hy ..
    have hbuffer : ∀ y, (Function.update mem₁ t { mem₁ t with next := some m } y).buffer =
        (mem₁ y).buffer := by
      intro y
      by_cases hy : y = t
      · rw [hy, update_self]
      · rw [hat y hy]
    have hnext : ∀ y ∈ l' ++ [t] ++ [m],
        (Function.update mem₁ t { mem₁ t with next := some m } y).next =
          Function.update (fun y => (mem₁ y).next) t (some m) y := by
      intro y _
      by_cases hy : y = t
      · rw [hy, update_self, update_self]
      · rw [hat y hy, update_of_ne hy]
    obtain ⟨hsized, hloc⟩ := hdone
      (Function.update mem₁ t { mem₁ t with next := some m }) db.head (hchain.frame hnext)
      ((hbuffer m).trans (congrArg Message.buffer hself))
      (fun y hy => (hbuffer y).trans (congrArg Message.buffer (hputl y hy)))
      fun y hym hyl => (hat y fun he => hyl (he ▸ htl)).trans (hput y hym)
    rw [hhead] at hsized
    rw [hhead, hlast]
    exact ⟨_, _, _, lf', rfl, hsized, hloc, rfl⟩

/-- A buffer for which the bytes `s` of the stream are still to be framed: the length of the frame
that comes may have been read. -/
def Pending (w : ℕ) (mp : Messagepool) (db : Databuffer) (l lf : List ℕ) (s : Bytes) : Prop :=
  (db.header = 0 ∧ Sized mp db l lf s) ∨
    (w ≤ s.length ∧ 0 < announced w s ∧ db.header = cint (announced w s) ∧
      Sized mp db l lf (s.drop w))

theorem Pending.linked {w : ℕ} {mp : Messagepool} {db : Databuffer} {l lf : List ℕ} {s : Bytes}
    (h : Pending w mp db l lf s) : Linked mp db.head db.tail l lf := by
  rcases h with ⟨-, h⟩ | ⟨-, -, -, h⟩
  · exact h.toLinked
  · exact h.toLinked

theorem Sized.header {mp : Messagepool} {db : Databuffer} {l lf : List ℕ} {b : Bytes}
    (h : Sized mp db l lf b) (n : ℤ) : Sized mp { db with header := n } l lf b :=
  { h with }

theorem announced_lt {w : ℕ} (hw : w ≤ 4) (s : Bytes) : announced w s < 2 ^ 32 := by
  refine (Endian.ofBe_lt (s.take w)).trans_le ?_
  have hle : (s.take w).length ≤ 4 := (length_take_le w s).trans hw
  exact (Nat.pow_le_pow_right (by decide) hle).trans (by decide)

theorem cint_of_ge {n : ℕ} (h : 2 ^ 31 ≤ n) (hlt : n < 2 ^ 32) : cint n < 0 := by
  rw [cint, Int.bmod_def]
  omega

theorem databufferReadheader_spec {w : ℕ} {mp : Messagepool} {db : Databuffer} {l lf : List ℕ}
    {s : Bytes} (hw : 0 < w) (hw4 : w ≤ 4) (h : Pending w mp db l lf s) (hlen : s.length < 2 ^ 31) :
    ∃ n db' mp' l' lf', databufferReadheader db mp w = some (n, db', mp') ∧
      Local mp mp' (l ++ lf) (l' ++ lf') ∧
      (¬ Whole w s ∧ n < 0 ∧ Pending w mp' db' l' lf' s ∨
        Whole w s ∧ n = announced w s ∧ db'.header = n ∧ Sized mp' db' l' lf' (s.drop w)) := by
  -- both ways come to a buffer with the header read
  have hread : ∀ {db' : Databuffer} {mp' : Messagepool} {l' lf' : List ℕ}, w ≤ s.length →
      Sized mp' db' l' lf' (s.drop w) → db'.header = cint (announced w s) →
      (¬ Whole w s ∧ (if db'.size < db'.header then -1 else db'.header) < 0 ∧
          Pending w mp' db' l' lf' s ∨
        Whole w s ∧ (if db'.size < db'.header then -1 else db'.header) = announced w s ∧
          db'.header = (if db'.size < db'.header then -1 else db'.header) ∧
          Sized mp' db' l' lf' (s.drop w)) := by
    intro db' mp' l' lf' hle hsized hheader
    have hsize := hsized.size
    rw [length_drop] at hsize
    by_cases hbig : 2 ^ 31 ≤ announced w s
    · have hneg := cint_of_ge hbig (announced_lt hw4 s)
      have hpart : ¬ Whole w s := by
        rintro ⟨-, hwhole⟩
        omega
      rw [if_neg (by omega)]
      exact .inl ⟨hpart, by omega, .inr ⟨hle, by omega, hheader, hsized⟩⟩
    · have hcint := cint_of_lt (Nat.lt_of_not_le hbig)
      by_cases hlt : db'.size < db'.header
      · have hpart : ¬ Whole w s := by
          rintro ⟨-, hwhole⟩
          omega
        rw [if_pos hlt]
        exact .inl ⟨hpart, by omega, .inr ⟨hle, by omega, hheader, hsized⟩⟩
      · rw [if_neg hlt]
        exact .inr ⟨⟨hw, by omega⟩, hheader.trans hcint, rfl, hsized⟩
  rcases h with ⟨hzero, hsized⟩ | ⟨hle, hpos, hheader, hsized⟩
  · unfold databufferReadheader
    simp only []
    rw [if_pos hzero]
    have hsize := hsized.size
    by_cases hlt : db.size < w
    · have hpart : ¬ Whole w s := by
        rintro ⟨-, hwhole⟩
        omega
      rw [if_pos hlt]
      exact ⟨-1, db, mp, l, lf, rfl, .refl mp _, .inl ⟨hpart, by omega, .inl ⟨hzero, hsized⟩⟩⟩
    · have hle : w ≤ s.length := by omega
      obtain ⟨db', mp', l', lf', hget, hsized', hlocal, -⟩ := databufferRead_spec hsized hw hle
      have hannounced : cint (Endian.ofBe (s.take w)) = cint (announced w s) := by rw [announced]
      rw [if_neg hlt, hget]
      simp only [map_some, hannounced]
      generalize hn : cint (announced w s) = n
      exact ⟨_, _, mp', l', lf', rfl, hlocal, hread hle (hsized'.header n) hn.symm⟩
  · have hne : db.header ≠ 0 := by
      by_cases hbig : 2 ^ 31 ≤ announced w s
      · have hneg := cint_of_ge hbig (announced_lt hw4 s)
        omega
      · have hcint := cint_of_lt (Nat.lt_of_not_le hbig)
        omega
    unfold databufferReadheader
    simp only []
    rw [if_neg hne]
    exact ⟨_, db, mp, l, lf, rfl, .refl mp _, hread hle hsized hheader⟩

end Pool

section Dispatch

theorem frames_long {p : Bytes} (h : 0x1000000 ≤ p.length) (ps : List Bytes) :
    frames (p :: ps) = [] := by
  rw [frames, takeWhile_cons_of_neg (by simpa using h), filter_nil]

theorem frames_cons {p : Bytes} (h : p.length < 0x1000000) (ps : List Bytes) :
    frames (p :: ps) = if p = [] then frames ps else p :: frames ps := by
  rw [frames, takeWhile_cons_of_pos (by simpa using h), filter_cons, frames]
  by_cases hp : p = []
  · simp [hp]
  · simp [hp]

/-- A frame that is too long is in the stream, for which the gate closes the connection. -/
def tooLong (ps : List Bytes) : Bool := ps.any (0x1000000 ≤ ·.length)

/-- Where the loop goes on after a frame: with nobody to receive it, it is not read. -/
def onward (receiver : Option Receiver) (w : ℕ) (s : Bytes) : Bytes :=
  if receiver.isSome then behind w s else s.drop w

theorem length_onward_le (receiver : Option Receiver) (w : ℕ) (s : Bytes) :
    (onward receiver w s).length ≤ s.length - w := by
  rw [onward, behind]
  split_ifs
  · rw [length_drop]
    omega
  · exact length_drop.le

theorem onward_lt {w : ℕ} {s : Bytes} (receiver : Option Receiver) (h : Whole w s) :
    (onward receiver w s).length < s.length := by
  have hle := length_onward_le receiver w s
  obtain ⟨hw, hwhole⟩ := h
  omega

/-- What the loop does with a stream: the frames that it sends on, and what it leaves, unless it comes
to a whole frame that is too long. -/
def scan (receiver : Option Receiver) (w : ℕ) (s : Bytes) : List Bytes × Option Bytes :=
  if _h : Whole w s then
    if 0x1000000 ≤ announced w s then ([], none)
    else
      let r := scan receiver w (onward receiver w s)
      (if first w s = [] then r.1 else first w s :: r.1, r.2)
  else ([], some s)
termination_by s.length
decreasing_by exact onward_lt receiver ‹_›

section Scan

variable {receiver : Option Receiver} {w : ℕ} {s : Bytes}

theorem scan_part (h : ¬ Whole w s) : scan receiver w s = ([], some s) := by
  rw [scan, dif_neg h]

theorem scan_long (h : Whole w s) (hl : 0x1000000 ≤ announced w s) :
    scan receiver w s = ([], none) := by
  rw [scan, dif_pos h, if_pos hl]

theorem scan_short (h : Whole w s) (hl : ¬ 0x1000000 ≤ announced w s) :
    scan receiver w s = (if first w s = [] then (scan receiver w (onward receiver w s)).1
      else first w s :: (scan receiver w (onward receiver w s)).1,
      (scan receiver w (onward receiver w s)).2) := by
  rw [scan, dif_pos h, if_neg hl]

theorem scan_eq : ∀ s : Bytes, receiver.isSome ∨ frames (packages w s) = [] →
    scan receiver w s = (frames (packages w s),
      if tooLong (packages w s) then none else some (rest w s)) :=
  induct_packages (fun s h _ => by
    rw [scan_part h, packages_part h, rest_part h]
    rfl) fun s h ih hsome => by
    have hlen := length_first h
    have htoo : tooLong (packages w s) =
        (decide (0x1000000 ≤ (first w s).length) || tooLong (packages w (behind w s))) := by
      rw [packages_whole h, tooLong, any_cons, tooLong]
    by_cases hl : 0x1000000 ≤ announced w s
    · rw [scan_long h hl, packages_whole h, frames_long (hlen ▸ hl), ← packages_whole h, htoo,
        decide_eq_true (hlen ▸ hl), Bool.true_or, if_pos rfl]
    have hshort : (first w s).length < 0x1000000 := by omega
    rw [packages_whole h, frames_cons hshort] at hsome
    have hnext : onward receiver w s = behind w s := by
      rw [onward]
      split_ifs with hr
      · rfl
      · have hnil : first w s = [] := by
          by_contra hne
          rw [if_neg hne] at hsome
          rcases hsome with hsome | hsome
          · exact hr hsome
          · cases hsome
        rw [behind, ← hlen, hnil, length_nil, Nat.add_zero]
    have hsome' : receiver.isSome ∨ frames (packages w (behind w s)) = [] :=
      hsome.imp_right fun he => by
        split_ifs at he
        exact he
    rw [scan_short h hl, hnext, ih hsome', htoo, decide_eq_false (by omega), Bool.false_or,
      packages_whole h, frames_cons hshort, rest_whole h]

end Scan

theorem dispatchLoop_scan (receiver : Option Receiver) (fd : ℕ) {w : ℕ} (hw : 0 < w) (hw4 : w ≤ 4) :
    ∀ {fuel : ℕ} {mp : Messagepool} {db : Databuffer} {l lf : List ℕ} {s : Bytes},
      Pending w mp db l lf s → db.size.toNat + (if db.header = 0 then 1 else 2) ≤ fuel →
      s.length < 2 ^ 31 →
      ∃ d l' lf', dispatchLoop receiver fd w fuel db mp = some d ∧
        Local mp d.mp (l ++ lf) (l' ++ lf') ∧
        d.sent = messages receiver fd (scan receiver w s).1 ∧
        d.closed = (scan receiver w s).2.isNone ∧ (d.closed = true → d.db = .zero) ∧
        Pending w d.mp d.db l' lf' ((scan receiver w s).2.getD [])
  | 0, _, _, _, _, _, _, hfuel, _ => by
    split_ifs at hfuel <;> omega
  | fuel + 1, mp, db, l, lf, s, h, hfuel, hlen => by
    obtain ⟨n, db', mp', l', lf', hread, hlocal, hcase⟩ := databufferReadheader_spec hw hw4 h hlen
    rw [dispatchLoop, hread, bind_some]
    rcases hcase with ⟨hpart, hneg, hpending⟩ | ⟨hwhole, hn, hheader, hsized⟩
    · refine ⟨⟨[], db', mp', false⟩, l', lf', if_pos hneg, hlocal, ?_, ?_,
        fun h : false = true => Bool.noConfusion h, ?_⟩
      · rw [scan_part hpart]
        cases receiver <;> rfl
      · rw [scan_part hpart]
        rfl
      · rw [scan_part hpart]
        exact hpending
    have hfirst := length_first hwhole
    have hlt := onward_lt receiver hwhole
    rw [if_neg (show ¬ n < 0 by omega)]
    -- the loop goes on behind the frame
    have hnext : ∀ {db₁ : Databuffer} {mp₁ : Messagepool} {l₁ lf₁ : List ℕ},
        db₁.header = 0 → Sized mp₁ db₁ l₁ lf₁ (onward receiver w s) →
        Local mp mp₁ (l ++ lf) (l₁ ++ lf₁) → ∃ d l' lf',
          dispatchLoop receiver fd w fuel db₁ mp₁ = some d ∧
          Local mp d.mp (l ++ lf) (l' ++ lf') ∧
          d.sent = messages receiver fd (scan receiver w (onward receiver w s)).1 ∧
          d.closed = (scan receiver w (onward receiver w s)).2.isNone ∧
          (d.closed = true → d.db = .zero) ∧
          Pending w d.mp d.db l' lf' ((scan receiver w (onward receiver w s)).2.getD []) := by
      intro db₁ mp₁ l₁ lf₁ hzero hsized₁ hlocal₁
      have hsize := hsized₁.size
      have hfuel₁ : db₁.size.toNat + (if db₁.header = 0 then 1 else 2) ≤ fuel := by
        rw [if_pos hzero]
        rcases h with ⟨hz, hs⟩ | ⟨hle, hpos, hh, hs⟩
        · rw [if_pos hz] at hfuel
          have := hs.size
          omega
        · have hlt31 : announced w s < 2 ^ 31 := by
            have := hwhole.2
            omega
          have hne : db.header ≠ 0 := by
            rw [hh, cint_of_lt hlt31]
            exact_mod_cast hpos.ne'
          rw [if_neg hne] at hfuel
          have hsize' := hs.size
          rw [length_drop] at hsize'
          have hle := length_onward_le receiver w s
          omega
      obtain ⟨d, l', lf', hloop, hlocal', hdone⟩ :=
        dispatchLoop_scan receiver fd hw hw4 (.inl ⟨hzero, hsized₁⟩) hfuel₁ (by omega)
      exact ⟨d, l', lf', hloop, hlocal₁.trans hlocal', hdone⟩
    by_cases hzero : n = 0
    · have hempty : announced w s = 0 := by omega
      have hnil : first w s = [] := eq_nil_of_length_eq_zero (hfirst.trans hempty)
      have honward : onward receiver w s = s.drop w := by
        rw [onward, behind, hempty, Nat.add_zero, ite_self]
      rw [if_pos hzero, scan_short hwhole (by omega), if_pos hnil]
      exact hnext (hheader.trans hzero) (honward ▸ hsized) hlocal
    rw [if_neg hzero]
    by_cases hlong : n ≥ 0x1000000
    · obtain ⟨mp'', lf'', hclear, hsized', hlocal'⟩ := databufferClear_spec hsized.toLinked
      rw [if_pos hlong, hclear, scan_long hwhole (by omega)]
      refine ⟨⟨[], .zero, mp'', true⟩, [], lf'', rfl, hlocal.trans hlocal', ?_, rfl, fun _ => rfl,
        .inl ⟨rfl, hsized'⟩⟩
      cases receiver <;> rfl
    · have hne : first w s ≠ [] := by
        rintro hnil
        rw [hnil, length_nil] at hfirst
        omega
      rw [if_neg hlong, scan_short hwhole (by omega), if_neg hne]
      cases receiver with
      | none =>
        obtain ⟨d, l₁, lf₁, hloop, hlocal₁, hsent, hdone⟩ :=
          hnext (rfl : (databufferReset db').header = 0) (hsized.header 0) hlocal
        refine ⟨d, l₁, lf₁, ?_, hlocal₁, hsent, hdone⟩
        rw [forward, bind_some, hloop]
        rfl
      | some r =>
        have hn' : n.toNat = announced w s := by omega
        have hpos : 0 < announced w s := by omega
        have hthere : announced w s ≤ (s.drop w).length := by
          have hle := hwhole.2
          rw [length_drop]
          omega
        obtain ⟨db'', mp'', l'', lf'', hget, hsized', hlocal', -⟩ :=
          databufferRead_spec hsized hpos hthere
        rw [drop_drop] at hsized'
        obtain ⟨d, l₁, lf₁, hloop, hlocal₁, hsent, hdone⟩ :=
          hnext (rfl : (databufferReset db'').header = 0) (hsized'.header 0) (hlocal.trans hlocal')
        refine ⟨{ d with sent := ⟨fd, r, r.lead fd ++ first w s⟩ :: d.sent }, l₁, lf₁, ?_,
          hlocal₁, congrArg (_ :: ·) hsent, hdone⟩
        rw [forward, hn', hget, map_some, bind_some, hloop]
        rfl

theorem Pending.push {w : ℕ} {mp : Messagepool} {db : Databuffer} {l lf : List ℕ} {s : Bytes}
    (h : Pending w mp db l lf s) (data : Bytes) (hlt : (s ++ data).length < 2 ^ 31) :
    ∃ db' mp' l' lf', databufferPush db mp data = some (db', mp') ∧
      Local mp mp' (l ++ lf) (l' ++ lf') ∧ Pending w mp' db' l' lf' (s ++ data) := by
  rcases h with ⟨hzero, hsized⟩ | ⟨hle, hpos, hheader, hsized⟩
  · obtain ⟨db', mp', l', lf', hpush, hsized', hlocal, hkept⟩ :=
      databufferPush_spec data hsized hlt
    exact ⟨db', mp', l', lf', hpush, hlocal, .inl ⟨hkept.trans hzero, hsized'⟩⟩
  · have hlt' : (s.drop w ++ data).length < 2 ^ 31 := by
      rw [length_append] at hlt ⊢
      rw [length_drop]
      omega
    obtain ⟨db', mp', l', lf', hpush, hsized', hlocal, hkept⟩ :=
      databufferPush_spec data hsized hlt'
    rw [← drop_append_of_le_length hle] at hsized'
    rw [← announced_append hle data] at hpos hheader
    refine ⟨db', mp', l', lf', hpush, hlocal, .inr ⟨?_, hpos, hkept.trans hheader, hsized'⟩⟩
    rw [length_append]
    omega

theorem dispatchMessage_scan (receiver : Option Receiver) (fd : ℕ) {w : ℕ} {mp : Messagepool}
    {db : Databuffer} {l lf : List ℕ} {s chunk : Bytes} (hw : 0 < w) (hw4 : w ≤ 4)
    (h : Pending w mp db l lf s) (hlen : (s ++ chunk).length < 2 ^ 31) :
    ∃ d l' lf', dispatchMessage receiver fd w db mp chunk = some d ∧
      Local mp d.mp (l ++ lf) (l' ++ lf') ∧
      d.sent = messages receiver fd (scan receiver w (s ++ chunk)).1 ∧
      d.closed = (scan receiver w (s ++ chunk)).2.isNone ∧ (d.closed = true → d.db = .zero) ∧
      Pending w d.mp d.db l' lf' ((scan receiver w (s ++ chunk)).2.getD []) := by
  obtain ⟨db', mp', l', lf', hpush, hlocal, hpending⟩ := h.push chunk hlen
  obtain ⟨d, l'', lf'', hloop, hlocal', hdone⟩ :=
    dispatchLoop_scan receiver fd hw hw4 hpending
      (show _ ≤ db'.size.toNat + 2 by split_ifs <;> omega) hlen
  refine ⟨d, l'', lf'', ?_, hlocal.trans hlocal', hdone⟩
  rw [dispatchMessage, hpush]
  exact hloop

theorem dispatchMessage_spec {receiver : Option Receiver} (fd : ℕ) {w : ℕ} {mp : Messagepool}
    {db : Databuffer} {l lf : List ℕ} {s chunk : Bytes} (hw : 0 < w) (hw4 : w ≤ 4)
    (h : Pending w mp db l lf s)
    (hsome : receiver.isSome ∨ frames (packages w (s ++ chunk)) = [])
    (hlen : (s ++ chunk).length < 2 ^ 31) :
    ∃ d l' lf', dispatchMessage receiver fd w db mp chunk = some d ∧
      Local mp d.mp (l ++ lf) (l' ++ lf') ∧
      d.sent = messages receiver fd (frames (packages w (s ++ chunk))) ∧
      d.closed = tooLong (packages w (s ++ chunk)) ∧
      Pending w d.mp d.db l' lf' (if d.closed then [] else rest w (s ++ chunk)) := by
  obtain ⟨d, l', lf', hd, hlocal, hsent, hclosed, -, hpending⟩ :=
    dispatchMessage_scan receiver fd hw hw4 h hlen
  rw [scan_eq (s ++ chunk) hsome] at hsent hclosed hpending
  have hlong : d.closed = tooLong (packages w (s ++ chunk)) := by
    rw [hclosed]
    cases tooLong (packages w (s ++ chunk)) <;> rfl
  refine ⟨d, l', lf', hd, hlocal, hsent, hlong, ?_⟩
  rw [hlong]
  cases htoo : tooLong (packages w (s ++ chunk)) with
  | true =>
    rw [htoo] at hpending
    exact hpending
  | false =>
    rw [htoo] at hpending
    exact hpending

end Dispatch

section Shared

/-- The connections share the pool: of each the bytes `left` are still to be framed. -/
structure Shared (w : ℕ) (mp : Messagepool) (conn : ℕ → Option Connection) (left : ℕ → Bytes)
    (own : ℕ → List ℕ) (lf : List ℕ) : Prop where
  free : Linked mp none none [] lf
  pending : ∀ fd c, conn fd = some c → Pending w mp c.buffer (own fd) lf (left fd)
  apart : ∀ fd fd' c c', fd ≠ fd' → conn fd = some c → conn fd' = some c' →
    (own fd).Disjoint (own fd')

theorem Linked.free_only {mp : Messagepool} {head tail : Option ℕ} {l lf : List ℕ}
    (h : Linked mp head tail l lf) : Linked mp none none [] lf :=
  ⟨rfl, rfl, h.free, (nodup_append.1 h.nodup).2.1, fun m hm =>
    h.bound m (mem_append_right _ hm)⟩

theorem Pending.frame {w : ℕ} {mp mp' : Messagepool} {db : Databuffer} {l l' l₂ lf lf' : List ℕ}
    {s : Bytes} (h : Pending w mp db l₂ lf s) (hfree : Linked mp' none none [] lf')
    (hlocal : Local mp mp' (l ++ lf) (l' ++ lf')) (hapart : l.Disjoint l₂) :
    Pending w mp' db l₂ lf' s ∧ l'.Disjoint l₂ := by
  have hl := h.linked
  obtain ⟨hnodup, -, hne⟩ := nodup_append.1 hl.nodup
  have hbound : ∀ x ∈ l₂, x < mp.count := fun x hx => hl.bound x (mem_append_left _ hx)
  have hout : ∀ x ∈ l₂, x ∉ l ++ lf := by
    intro x hx hin
    rcases mem_append.1 hin with hin | hin
    · exact hapart hin hx
    · exact hne x hx x hin rfl
  have hmem : ∀ x ∈ l₂, mp'.mem x = mp.mem x := fun x hx =>
    hlocal.outside x (hbound x hx) (hout x hx)
  have hfresh : ∀ x ∈ l' ++ lf', x ∉ l₂ := by
    intro x hx hx₂
    rcases hlocal.members x hx with hin | hge
    · exact hout x hx₂ hin
    · exact absurd (hbound x hx₂) (not_lt.2 hge)
  have hlinked : Linked mp' db.head db.tail l₂ lf' := by
    refine ⟨hl.chain.frame fun x hx => congrArg Message.next (hmem x hx), hl.last, hfree.free,
      nodup_append.2 ⟨hnodup, hfree.nodup, ?_⟩, ?_⟩
    · rintro x hx y hy rfl
      exact hfresh x (mem_append_right _ hy) hx
    · intro x hx
      rcases mem_append.1 hx with hx | hx
      · exact (hbound x hx).trans_le hlocal.count
      · exact hfree.bound x hx
  have hsized : ∀ {b : Bytes}, Sized mp db l₂ lf b → Sized mp' db l₂ lf' b := by
    intro b hb
    refine ⟨⟨hlinked, (unread_congr hmem _).trans hb.bytes, ?_, hb.empty⟩, hb.size⟩
    intro x hx
    rw [hmem x (mem_of_mem_head? hx)]
    exact hb.offset x hx
  refine ⟨?_, fun x hx => hfresh x (mem_append_left _ hx)⟩
  rcases h with ⟨hzero, hb⟩ | ⟨hle, hpos, hheader, hb⟩
  · exact .inl ⟨hzero, hsized hb⟩
  · exact .inr ⟨hle, hpos, hheader, hsized hb⟩

theorem Shared.update {w : ℕ} {mp mp' : Messagepool} {conn conn' : ℕ → Option Connection}
    {left left' : ℕ → Bytes} {own : ℕ → List ℕ} {lf l l' lf' : List ℕ} {fd : ℕ}
    (h : Shared w mp conn left own lf) (hfree : Linked mp' none none [] lf')
    (hlocal : Local mp mp' (l ++ lf) (l' ++ lf'))
    (hapart : ∀ fd' c', fd' ≠ fd → conn fd' = some c' → l.Disjoint (own fd'))
    (hself : ∀ c', conn' fd = some c' → Pending w mp' c'.buffer l' lf' (left' fd))
    (hother : ∀ fd', fd' ≠ fd → conn' fd' = conn fd' ∧ left' fd' = left fd') :
    Shared w mp' conn' left' (Function.update own fd l') lf' := by
  have hkeep : ∀ fd' c', fd' ≠ fd → conn' fd' = some c' →
      Pending w mp' c'.buffer (own fd') lf' (left fd') ∧ l'.Disjoint (own fd') := by
    intro fd' c' hne hc
    rw [(hother fd' hne).1] at hc
    exact (h.pending fd' c' hc).frame hfree hlocal (hapart fd' c' hne hc)
  refine ⟨hfree, ?_, ?_⟩
  · intro fd' c' hc
    by_cases hfd : fd' = fd
    · subst hfd
      rw [update_self]
      exact hself c' hc
    · rw [update_of_ne hfd, (hother fd' hfd).2]
      exact (hkeep fd' c' hfd hc).1
  · intro fd₁ fd₂ c₁ c₂ hne hc₁ hc₂
    by_cases h₁ : fd₁ = fd
    · subst h₁
      rw [update_self, update_of_ne hne.symm]
      exact (hkeep fd₂ c₂ hne.symm hc₂).2
    · rw [update_of_ne h₁]
      by_cases h₂ : fd₂ = fd
      · subst h₂
        rw [update_self]
        exact (hkeep fd₁ c₁ h₁ hc₁).2.symm
      · rw [update_of_ne h₂]
        rw [(hother fd₁ h₁).1] at hc₁
        rw [(hother fd₂ h₂).1] at hc₂
        exact h.apart fd₁ fd₂ c₁ c₂ hne hc₁ hc₂

theorem Shared.congr {w : ℕ} {mp : Messagepool} {conn : ℕ → Option Connection}
    {left left' : ℕ → Bytes} {own : ℕ → List ℕ} {lf : List ℕ} (h : Shared w mp conn left own lf)
    (hleft : ∀ fd c, conn fd = some c → left' fd = left fd) : Shared w mp conn left' own lf :=
  ⟨h.free, fun fd c hc => hleft fd c hc ▸ h.pending fd c hc, h.apart⟩

section Steps

variable {w : ℕ} {mp : Messagepool} {conn : ℕ → Option Connection} {left : ℕ → Bytes}
  {own : ℕ → List ℕ} {lf : List ℕ} {c : Connection} {fd : ℕ}

theorem Shared.accept (h : Shared w mp conn left own lf) (fd agent client : ℕ) :
    Shared w mp (Function.update conn fd (some ⟨agent, client, .zero⟩))
      (Function.update left fd []) (Function.update own fd []) lf := by
  refine h.update (l := []) h.free (.refl mp _) (fun _ _ _ _ => disjoint_nil_left _) ?_ ?_
  · intro c' hc'
    rw [update_self] at hc' ⊢
    obtain rfl := some.inj hc'
    exact .inl ⟨rfl, ⟨h.free, rfl, (fun _ hm => by cases hm), fun _ => rfl⟩, rfl⟩
  · intro fd' hne
    exact ⟨update_of_ne hne .., update_of_ne hne ..⟩

theorem Shared.close (h : Shared w mp conn left own lf) (hc : conn fd = some c) :
    ∃ mp' lf', databufferClear c.buffer mp = some (.zero, mp') ∧
      Shared w mp' (Function.update conn fd none) left (Function.update own fd []) lf' := by
  obtain ⟨mp', lf', hclear, hsized, hlocal⟩ := databufferClear_spec (h.pending fd c hc).linked
  refine ⟨mp', lf', hclear, ?_⟩
  rw [← nil_append lf'] at hlocal
  refine h.update hsized.toLinked hlocal
    (fun fd' c' hne hc' => h.apart fd fd' c c' hne.symm hc hc') ?_ ?_
  · intro c' hc'
    rw [update_self] at hc'
    cases hc'
  · intro fd' hne
    exact ⟨update_of_ne hne .., rfl⟩

theorem Shared.forward (h : Shared w mp conn left own lf) (hc : conn fd = some c)
    (agent client : ℕ) : Shared w mp (Function.update conn fd (some ⟨agent, client, c.buffer⟩)) left
      (Function.update own fd (own fd)) lf := by
  refine h.update h.free (.refl mp _)
    (fun fd' c' hne hc' => h.apart fd fd' c c' hne.symm hc hc') ?_ ?_
  · intro c' hc'
    rw [update_self] at hc'
    obtain rfl := some.inj hc'
    exact h.pending fd c hc
  · intro fd' hne
    exact ⟨update_of_ne hne .., rfl⟩

theorem Shared.dispatch {db : Databuffer} {mp' : Messagepool} {l' lf' : List ℕ} {b : Bytes}
    (h : Shared w mp conn left own lf) (hc : conn fd = some c)
    (hlocal : Local mp mp' (own fd ++ lf) (l' ++ lf')) (hpending : Pending w mp' db l' lf' b) :
    Shared w mp' (Function.update conn fd (some { c with buffer := db })) (Function.update left fd b)
      (Function.update own fd l') lf' := by
  refine h.update hpending.linked.free_only hlocal
    (fun fd' c' hne hc' => h.apart fd fd' c c' hne.symm hc hc') ?_ ?_
  · intro c' hc'
    rw [update_self] at hc' ⊢
    obtain rfl := some.inj hc'
    exact hpending
  · intro fd' hne
    exact ⟨update_of_ne hne .., update_of_ne hne ..⟩

end Steps

end Shared

section Gate

/-- The messages that were sent on for a connection are the ones that its stream makes due, and no
buffer was asked for more than it holds. -/
def Framed (s : State) : Prop :=
  s.crashed = false ∧ ∀ fd, s.sent.filter (·.fd = fd) = s.due fd

/-- The messages due for a connection end in one for each frame of the stream so far. -/
def Complete (s : State) (fd : ℕ) : Prop :=
  ∃ early late, s.due fd = early ++ late ∧
    List.Forall₂ (fun x p => x.data = x.receiver.lead fd ++ p) late
      (frames (packages s.headerSize (s.stream fd)))

/-- A chunk comes before the gate closed its connection, somebody is set for the frames that it
completes, and neither the size of the buffer nor an announced length is too much for an `int`. -/
def Fits (s : State) : Label → Prop
  | .data fd chunk => ∀ c ∈ s.conn fd, s.closed fd = false ∧
      ((s.receiver c).isSome ∨ frames (s.completed fd chunk) = []) ∧
      (rest s.headerSize (s.stream fd) ++ chunk).length < 2 ^ 31 ∧
      (s.headerSize ≤ (rest s.headerSize (s.stream fd ++ chunk)).length →
        announced s.headerSize (rest s.headerSize (s.stream fd ++ chunk)) < 2 ^ 31)
  | _ => True

instance : ∀ s l, Decidable (Fits s l)
  | s, .data fd _ => inferInstanceAs (Decidable (∀ c ∈ s.conn fd, _))
  | _, .accept _ | _, .close _ | _, .forward _ _ _ | _, .broker _ => .isTrue trivial

/-- What of the stream a connection still has to frame. -/
def State.left (s : State) (fd : ℕ) : Bytes :=
  if s.closed fd then [] else rest s.headerSize (s.stream fd)

structure Inv (w : ℕ) (s : State) : Prop where
  size : s.headerSize = w
  shared : ∃ own lf, Shared w s.mp s.conn s.left own lf
  short : ∀ fd, s.closed fd = false → tooLong (packages w (s.stream fd)) = false
  framed : Framed s
  complete : ∀ fd, Complete s fd

theorem tooLong_append (ps qs : List Bytes) : tooLong (ps ++ qs) = (tooLong ps || tooLong qs) :=
  any_append

theorem frames_append {ps : List Bytes} (h : tooLong ps = false) (qs : List Bytes) :
    frames (ps ++ qs) = frames ps ++ frames qs := by
  have hall : ∀ p ∈ ps, decide (p.length < 0x1000000) = true := by
    intro p hp
    have hno := List.any_eq_false.1 h p hp
    simpa using hno
  rw [frames, takeWhile_append_of_pos hall, filter_append, frames, frames,
    takeWhile_eq_self_iff.2 hall]

theorem filter_messages (receiver : Option Receiver) (fd fd' : ℕ) (ps : List Bytes) :
    (messages receiver fd ps).filter (·.fd = fd') =
      if fd = fd' then messages receiver fd ps else [] := by
  cases receiver with
  | none => split_ifs <;> rfl
  | some r =>
    rw [messages, elim_some]
    by_cases h : fd = fd'
    · rw [if_pos h]
      refine filter_eq_self.2 fun x hx => ?_
      obtain ⟨p, -, rfl⟩ := List.mem_map.1 hx
      exact decide_eq_true h
    · rw [if_neg h]
      refine filter_eq_nil_iff.2 fun x hx => ?_
      obtain ⟨p, -, rfl⟩ := List.mem_map.1 hx
      rwa [decide_eq_true_eq]

theorem forall₂_messages {receiver : Option Receiver} {fd : ℕ} {ps : List Bytes}
    (h : receiver.isSome ∨ ps = []) :
    List.Forall₂ (fun x p => x.data = x.receiver.lead fd ++ p) (messages receiver fd ps) ps := by
  cases receiver with
  | none =>
    rcases h with h | rfl
    · cases h
    · exact .nil
  | some r =>
    rw [messages, elim_some, forall₂_map_left_iff]
    exact forall₂_same.2 fun _ _ => rfl

theorem Inv.data {w : ℕ} {s : State} {fd : ℕ} {chunk : Bytes} {c : Connection} (hw : 0 < w)
    (hw4 : w ≤ 4) (h : Inv w s) (hc : s.conn fd = some c) (hfits : Fits s (.data fd chunk)) :
    Inv w (data fd chunk c s) := by
  obtain ⟨hclosed, hsome, hlen, -⟩ := hfits c hc
  obtain ⟨own, lf, hshared⟩ := h.shared
  obtain rfl := h.size
  obtain ⟨happ, hrest⟩ := packages_append (w := s.headerSize) chunk (s.stream fd)
  have hpending := hshared.pending fd c hc
  have hleft : s.left fd = rest s.headerSize (s.stream fd) := if_neg (by rw [hclosed]; decide)
  rw [hleft] at hpending
  obtain ⟨d, l', lf', hdispatch, hlocal, hsent, hlong, hpending'⟩ :=
    dispatchMessage_spec fd hw hw4 hpending hsome hlen
  rw [← hrest] at hpending'
  have hcompleted : packages s.headerSize (rest s.headerSize (s.stream fd) ++ chunk) =
    s.completed fd chunk := rfl
  rw [hcompleted] at hsent hlong happ
  rw [Gate.data, hdispatch]
  simp only []
  refine ⟨rfl, ⟨Function.update own fd l', lf', ?_⟩, ?_, ⟨h.framed.1, ?_⟩, ?_⟩
  · refine (hshared.dispatch hc hlocal hpending').congr fun fd' c' _ => ?_
    by_cases hfd : fd' = fd
    · subst hfd
      simp only [State.left, update_self, hclosed, Bool.false_or]
    · simp only [State.left, update_of_ne hfd]
  · intro fd'
    by_cases hfd : fd' = fd
    · subst hfd
      simp only [update_self, hclosed, Bool.false_or, happ]
      intro hno
      rw [tooLong_append, h.short fd' hclosed, ← hlong, hno, Bool.or_self]
    · simp only [update_of_ne hfd]
      exact h.short fd'
  · intro fd'
    show (s.sent ++ d.sent).filter (·.fd = fd') = _
    rw [filter_append, h.framed.2 fd', hsent, filter_messages]
    by_cases hfd : fd' = fd
    · subst hfd
      simp only [if_true, update_self]
    · simp only [if_neg (Ne.symm hfd), append_nil, update_of_ne hfd]
  · intro fd'
    by_cases hfd : fd' = fd
    · subst hfd
      obtain ⟨early, late, hdue, hlate⟩ := h.complete fd'
      refine ⟨early, late ++ messages (s.receiver c) fd' (frames (s.completed fd' chunk)), ?_, ?_⟩
      · simp only [update_self, hdue, append_assoc]
      · simp only [update_self, happ, frames_append (h.short fd' hclosed)]
        exact rel_append hlate (forall₂_messages hsome)
    · simp only [Complete, update_of_ne hfd]
      exact h.complete fd'

theorem Inv.keep {w : ℕ} {s s' : State} (h : Inv w s)
    (hshared : ∃ own lf, Shared w s'.mp s'.conn s'.left own lf) (hsize : s'.headerSize = s.headerSize)
    (hsent : s'.sent = s.sent) (hdue : s'.due = s.due) (hcrashed : s'.crashed = s.crashed)
    (hstream : ∀ fd, s'.stream fd = s.stream fd ∧ s'.closed fd = s.closed fd ∨ s'.stream fd = []) :
    Inv w s' := by
  refine ⟨hsize.trans h.size, hshared, ?_, ⟨hcrashed.trans h.framed.1, ?_⟩, ?_⟩
  · intro fd hclosed
    rcases hstream fd with ⟨hst, hcl⟩ | hst
    · rw [hst]
      exact h.short fd (hcl.symm.trans hclosed)
    · rw [hst, packages_nil]
      rfl
  · rw [hsent, hdue]
    exact h.framed.2
  · intro fd
    rw [Complete, hdue, hsize]
    rcases hstream fd with ⟨hst, -⟩ | hst
    · rw [hst]
      exact h.complete fd
    · rw [hst, packages_nil]
      exact ⟨s.due fd, [], (append_nil _).symm, .nil⟩

theorem Inv.step {w : ℕ} {s s' : State} {l : Label} (hw : 0 < w) (hw4 : w ≤ 4) (h : Inv w s) (hfits : Fits s l)
    (hs : step s l = some s') : Inv w s' := by
  have hlive : ¬ s.crashed = true := by
    rw [h.framed.1]
    decide
  obtain ⟨own, lf, hshared⟩ := h.shared
  unfold Gate.step at hs
  rw [if_neg hlive] at hs
  cases l with
  | data fd chunk =>
    rw [← some.inj hs]
    cases hc : s.conn fd with
    | none => exact h
    | some c => exact h.data hw hw4 hc hfits
  | accept fd =>
    simp only [] at hs
    split_ifs at hs with hopen
    rw [← some.inj hs]
    refine h.keep ⟨Function.update own fd [], lf, ?_⟩ rfl rfl rfl rfl ?_
    · refine (hshared.accept fd 0 0).congr fun fd' c' _ => ?_
      by_cases hfd : fd' = fd
      · subst hfd
        simp only [State.left, update_self, rest_nil]
        rfl
      · simp only [State.left, update_of_ne hfd]
    · intro fd'
      by_cases hfd : fd' = fd
      · subst hfd
        simp only [update_self, or_true]
      · simp only [update_of_ne hfd, and_self, true_or]
  | close fd =>
    cases hc : s.conn fd with
    | none =>
      simp only [hc] at hs
      rw [← some.inj hs]
      exact h
    | some c =>
      obtain ⟨mp', lf', hclear, hshared'⟩ := hshared.close hc
      simp only [hc, hclear] at hs
      rw [← some.inj hs]
      exact h.keep ⟨_, lf', hshared'⟩ rfl rfl rfl rfl fun _ => .inl ⟨rfl, rfl⟩
  | forward fd agent client =>
    rw [← some.inj hs]
    cases hc : s.conn fd with
    | none => exact h
    | some c =>
      exact h.keep ⟨_, lf, hshared.forward hc agent client⟩ rfl rfl rfl rfl
        fun _ => .inl ⟨rfl, rfl⟩
  | broker handle =>
    rw [← some.inj hs]
    exact h.keep ⟨own, lf, hshared⟩ rfl rfl rfl rfl fun _ => .inl ⟨rfl, rfl⟩

theorem Inv.init {w : ℕ} (watchdog : ℕ) : Inv w (init w watchdog) := by
  refine ⟨rfl, ⟨fun _ => [], [], ?_⟩, ?_, ⟨rfl, fun _ => rfl⟩, ?_⟩
  · exact ⟨⟨rfl, rfl, rfl, nodup_nil, fun _ hm => absurd hm not_mem_nil⟩,
      fun _ _ hc => (nomatch hc), fun _ _ _ _ _ hc => (nomatch hc)⟩
  · intro fd _
    show tooLong (packages w []) = false
    rw [packages_nil]
    rfl
  · intro fd
    refine ⟨[], [], rfl, ?_⟩
    show List.Forall₂ _ [] (frames (packages w []))
    rw [packages_nil]
    exact .nil

/-- Frames for which somebody is set when they are whole go on, each once and in order, however the
stream is cut and whoever is set. -/
theorem gate_framed {w watchdog : ℕ} {s : State} (hw : w = 2 ∨ w = 4)
    (h : (machine w watchdog).Reach Fits s) : Framed s ∧ ∀ fd, Complete s fd := by
  have hpos : 0 < w := by omega
  have hinv : Inv w s := h.invariant (Inv.init watchdog) fun _ _ _ hi hfits hs =>
    hi.step hpos (by omega) hfits hs
  exact ⟨hinv.framed, hinv.complete⟩

/-- A header in pieces, an empty frame, and two frames in one chunk for an agent and a broker. -/
theorem gate_framed_pieces : ∃ s, (machine 2 7).Reach Fits s ∧
    s.sent.map (fun x => (x.receiver, x.data.drop (x.receiver.lead x.fd).length)) =
      [(.watchdog 7, [1, 2]), (.agent 8 9, [1, 3]), (.broker 5, [4])] ∧
    Framed s ∧ ∀ fd, Complete s fd := by
  have hl : ((machine 2 7).run Fits (init 2 7) [.accept 1, .data 1 [0], .data 1 [2, 1],
      .data 1 [2, 0, 0, 0], .forward 1 8 9, .data 1 [2, 1, 3, 0], .broker 5, .data 1 [1, 4]]).map
      (fun s => s.sent.map fun x => (x.receiver, x.data.drop (x.receiver.lead x.fd).length)) =
        some [(.watchdog 7, [1, 2]), (.agent 8 9, [1, 3]), (.broker 5, [4])] := by
    decide +kernel
  obtain ⟨s, hreach, he⟩ := Machine.exists_reach hl
  exact ⟨s, hreach, he, gate_framed (.inl rfl) hreach⟩

/-- The payload that nobody is set for stays in the buffer, and is framed again. -/
theorem gate_not_framed : ∃ s, (machine 2 0).Reachable s ∧ ¬ Framed s ∧
    s.sent = [⟨1, .broker 5, [0]⟩] ∧ s.due 1 = [⟨1, .broker 5, [9]⟩] := by
  have hl : ((machine 2 0).run (fun _ _ => True) (init 2 0) [.accept 1,
      .data 1 [0, 4, 0, 0, 0, 1], .broker 5, .data 1 [0, 1, 9]]).map
      (fun s => (s.sent, s.due 1)) =
        some ([⟨1, .broker 5, [0]⟩], [⟨1, .broker 5, [9]⟩]) := by
    decide +kernel
  obtain ⟨s, hr, he⟩ := Machine.exists_reach hl
  obtain ⟨hsent, hdue⟩ := Prod.mk.inj he
  refine ⟨s, hr, ?_, hsent, hdue⟩
  rintro ⟨-, hframed⟩
  have hbad := hframed 1
  rw [hsent, hdue] at hbad
  revert hbad
  decide

end Gate

end Gate

end SkynetGame
