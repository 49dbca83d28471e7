import SkynetGame.Lib.LuaPattern

/-!
# Iterating over matches (`string.gmatch`, and `string.gsub` with a function)

Both go through the source from match to match. A pattern is told by what it does at a place: where it
matches the loop goes on behind the match, where it does not at the next byte.
-/

namespace SkynetGame

open List Option

namespace LuaPattern

section Loop

variable (src p : Bytes)

/-- The calls of `gmatch_aux` from position `s` on, with `skip` bytes still to go through of the last
match, which ended at `last`: the captures of each match. -/
def gmatchLoop : Bytes → ℕ → ℕ → Option ℕ → Option (List (List Capture))
  | [], s, _, last => do
    match ← matchAt src 200 p s [] with
    | some (e, caps) => if some e = last then some [] else return [← pushCaptures src s e caps]
    | none => some []
  | _ :: r, s, skip + 1, last => gmatchLoop r (s + 1) skip last
  | _ :: r, s, 0, last => do
    match ← matchAt src 200 p s [] with
    | some (e, caps) =>
      if some e = last then gmatchLoop r (s + 1) 0 last
      else return (← pushCaptures src s e caps) :: (← gmatchLoop r (s + 1) (e - s - 1) (some e))
    | none => gmatchLoop r (s + 1) 0 last

/-- What a loop over `string.gmatch` goes through. -/
def gmatch : Option (List (List Capture)) := gmatchLoop src p src 0 0 none

/-- `add_value` with a function `f` that gives a string, or raises an error. -/
def addFunction (f : Capture → Option Bytes) : Piece → Option Bytes
  | .byte c => some [c]
  | .found _ key => f key

/-- `string.gsub(src, p, f)`, without its second result. -/
def gsubFunction (f : Capture → Option Bytes) : Option Bytes := do
  let pieces ← gsubPieces src p
  return (← pieces.mapM (addFunction f)).flatten

end Loop

section Rules

variable {src p : Bytes} {s e : ℕ} {caps : Caps}

theorem gmatchLoop_skip : ∀ (l : Bytes) (s : ℕ) (last : Option ℕ) (r : Bytes),
    gmatchLoop src p (l ++ r) s l.length last = gmatchLoop src p r (s + l.length) 0 last
  | [], _, _, _ => rfl
  | _ :: l, s, last, r => by
    rw [cons_append, length_cons, gmatchLoop, gmatchLoop_skip l, Nat.add_assoc,
      Nat.add_comm 1]

theorem gsubLoop_skip : ∀ (l : Bytes) (s : ℕ) (last : Option ℕ) (r : Bytes),
    gsubLoop src p (l ++ r) s l.length last = gsubLoop src p r (s + l.length) 0 last
  | [], _, _, _ => rfl
  | _ :: l, s, last, r => by
    rw [cons_append, length_cons, gsubLoop, gsubLoop_skip l, Nat.add_assoc,
      Nat.add_comm 1]

theorem gmatchLoop_found {l r : Bytes} {last : Option ℕ} {cs : List Capture} (hl : l ≠ [])
    (h : matchAt src 200 p s [] = some (some (s + l.length, caps)))
    (hlast : ∀ n, last = some n → n ≤ s) (hcaps : pushCaptures src s (s + l.length) caps = some cs) :
    gmatchLoop src p (l ++ r) s 0 last =
      (gmatchLoop src p r (s + l.length) 0 (some (s + l.length))).map (cs :: ·) := by
  obtain ⟨c, l, rfl⟩ := exists_cons_of_ne_nil hl
  rw [length_cons] at h hcaps ⊢
  have hne : some (s + (l.length + 1)) ≠ last := by
    intro heq
    have := hlast _ heq.symm
    omega
  rw [cons_append, gmatchLoop, h, bind_eq_bind, bind_some]
  simp only [if_neg hne, hcaps, bind_eq_bind, bind_some]
  rw [show s + (l.length + 1) - s - 1 = l.length by omega, gmatchLoop_skip,
    show s + 1 + l.length = s + (l.length + 1) by omega, map_eq_bind]
  rfl

theorem gsubLoop_found {l r : Bytes} {last : Option ℕ} {key : Capture} (hl : l ≠ [])
    (hsrc : src.drop s = l ++ r)
    (h : matchAt src 200 p s [] = some (some (s + l.length, caps)))
    (hlast : ∀ n, last = some n → n ≤ s) (hkey : firstCapture src s (s + l.length) caps = some key) :
    gsubLoop src p (l ++ r) s 0 last =
      (gsubLoop src p r (s + l.length) 0 (some (s + l.length))).map (.found l key :: ·) := by
  obtain ⟨c, l, rfl⟩ := exists_cons_of_ne_nil hl
  rw [length_cons] at h hkey ⊢
  have hne : some (s + (l.length + 1)) ≠ last := by
    intro heq
    have := hlast _ heq.symm
    omega
  rw [cons_append, gsubLoop, h, bind_eq_bind, bind_some]
  simp only [if_neg hne, hkey, bind_eq_bind, bind_some]
  rw [if_neg (by omega), show s + (l.length + 1) - s - 1 = l.length by omega, gsubLoop_skip,
    show s + 1 + l.length = s + (l.length + 1) by omega, hsrc,
    show s + (l.length + 1) - s = l.length + 1 by omega]
  simp only [cons_append, take_succ_cons, take_left, map_eq_bind]
  rfl

theorem gsubLoop_byte {c : UInt8} {r : Bytes} {last : Option ℕ}
    (h : matchAt src 200 p s [] = some none) : gsubLoop src p (c :: r) s 0 last =
      (gsubLoop src p r (s + 1) 0 last).map (.byte c :: ·) := by
  rw [gsubLoop, h, map_eq_bind]
  rfl

/-- The pieces of a source without a match are its bytes. -/
theorem gsubLoop_bytes : ∀ (l : Bytes) (s : ℕ) (last : Option ℕ),
    (∀ n, s ≤ n → n ≤ s + l.length → matchAt src 200 p n [] = some none) →
      gsubLoop src p l s 0 last = some (l.map .byte)
  | [], s, last, h => by
    rw [gsubLoop, h s le_rfl (by omega)]
    rfl
  | c :: l, s, last, h => by
    rw [gsubLoop_byte (h s le_rfl (by omega)), gsubLoop_bytes l (s + 1) last fun n hn hle =>
      h n (by omega) (by rw [length_cons]; omega)]
    rfl

/-- The pieces for a pattern that captures one byte of a kind, wherever there is one. -/
theorem gsubLoop_kind (kind : UInt8 → Bool)
    (hfound : ∀ s c, src[s]? = some c → kind c = true →
      ∃ caps, matchAt src 200 p s [] = some (some (s + 1, caps)) ∧
        firstCapture src s (s + 1) caps = some (.str [c]))
    (hfails : ∀ s, src[s]?.any kind = false → matchAt src 200 p s [] = some none) :
    ∀ (l : Bytes) (s : ℕ) (last : Option ℕ), src.drop s = l → (∀ n, last = some n → n ≤ s) →
      gsubLoop src p l s 0 last =
        some (l.map fun c => if kind c then .found [c] (.str [c]) else .byte c)
  | [], s, last, hl, _ => by
    have hnone : src[s]? = none := getElem?_eq_none (drop_eq_nil_iff.1 hl)
    exact gsubLoop_bytes [] s last fun n hn hle => by
      obtain rfl : n = s := Nat.le_antisymm hle hn
      exact hfails n (by rw [hnone]; rfl)
  | c :: l, s, last, hl, hlast => by
    have hc : src[s]? = some c := by rw [← head?_drop, hl]; rfl
    have htail : src.drop (s + 1) = l := by rw [← tail_drop, hl]; rfl
    rw [map_cons]
    by_cases hkind : kind c = true
    · obtain ⟨caps, hmatch, hkey⟩ := hfound s c hc hkind
      rw [if_pos hkind]
      have hrest := gsubLoop_kind kind hfound hfails l (s + 1) (some (s + 1)) htail (by
        rintro n ⟨⟩
        exact le_rfl)
      refine (gsubLoop_found (l := [c]) (by simp) hl hmatch hlast hkey).trans ?_
      exact congrArg _ hrest
    · rw [if_neg hkind, gsubLoop_byte (hfails s (by rw [hc]; simpa using hkind)),
        gsubLoop_kind kind hfound hfails l (s + 1) last htail]
      · rfl
      · intro n hn
        have := hlast n hn
        omega

end Rules

section Class

variable {src : Bytes} {rec : Bytes → ℕ → Caps → Result} {c : UInt8} {p : Bytes}

theorem matchHere_skip : ∀ (l p : Bytes) (s : ℕ) (caps : Caps),
    matchHere src rec (l ++ p) l.length s caps = matchHere src rec p 0 s caps
  | [], _, _, _ => rfl
  | _ :: l, p, s, caps => by
    rw [cons_append, length_cons, matchHere, matchHere_skip l]

theorem matchHere_class {set : Bytes} (hc : c ∉ ([36, 37, 40, 41] : Bytes))
    (hlen : classLength (c :: (set ++ p)) = some (set.length + 1))
    (hp : ∀ x, p[0]? = some x → x ∉ ([42, 43, 45, 63] : Bytes)) (s : ℕ) (caps : Caps) :
    matchHere src rec (c :: (set ++ p)) 0 s caps =
      if singleMatch (c :: (set ++ p)) (set.length + 1) src[s]? then
        matchHere src rec p 0 (s + 1) caps
      else some none := by
  simp only [mem_cons, not_mem_nil, or_false, not_or] at hc hp
  have hnext : (c :: (set ++ p))[set.length + 1]? = p[0]? := by
    rw [getElem?_cons_succ, getElem?_append_right le_rfl, Nat.sub_self]
  rw [matchHere] <;> simp only [hc, false_implies, implies_true]
  simp only [hlen, hnext, bind_eq_bind, bind_some, Nat.add_sub_cancel]
  by_cases h : singleMatch (c :: (set ++ p)) (set.length + 1) src[s]? = true
  · rw [if_pos h]
    split <;> simp_all [matchHere_skip]
  · rw [if_neg h]
    split <;> simp_all
theorem matchHere_percent (hp : ∀ x, p[0]? = some x → x ∉ ([42, 43, 45, 63] : Bytes)) (s : ℕ)
    (caps : Caps) : matchHere src rec (37 :: 37 :: p) 0 s caps =
      if src[s]? = some 37 then matchHere src rec p 0 (s + 1) caps else some none := by
  have hsingle : singleMatch (37 :: 37 :: p) 2 src[s]? = decide (src[s]? = some 37) := by
    rcases src[s]? with _ | b
    · rfl
    · simp [singleMatch, matchClass, tolower, isupper, eq_comm]
  simp only [mem_cons, not_mem_nil, or_false, not_or] at hp
  rw [matchHere]
  · simp only [show isdigit 37 = false from rfl, classLength, hsingle, bind_eq_bind,
      bind_some, Bool.false_eq_true, if_false]
    by_cases h : src[s]? = some 37
    · rw [if_pos h]
      simp only [h, decide_true]
      split <;> simp_all [matchHere]
    · rw [if_neg h]
      simp only [h, decide_false]
      split <;> simp_all
  all_goals simp

end Class

section Lazy

variable {src : Bytes} {c : UInt8} {p : Bytes} {d s : ℕ} {caps : Caps} {r : ℕ × Caps}

/-- The pattern does not match at `s`, in `d` levels or more. -/
def Fails (src : Bytes) (d : ℕ) (p : Bytes) (s : ℕ) (caps : Caps) : Prop :=
  ∀ d', d ≤ d' → matchAt src d' p s caps = some none

theorem Fails.byte (hc : Literal c) (hp : ∀ x, p[0]? = some x → x ∉ ([42, 43, 45, 63] : Bytes))
    (hs : src[s]? ≠ some c) : Fails src 1 (c :: p) s caps := by
  intro d' hd
  obtain ⟨d', rfl⟩ : ∃ n, d' = n + 1 := ⟨d' - 1, by omega⟩
  rw [matchAt, matchHere_byte hc hp, if_neg hs]

/-- `)` after a capture that was opened at `n`. -/
theorem Fails.close {n : ℕ} (h : Fails src d p s (caps ++ [(n, .closed (s - n))])) :
    Fails src (d + 1) (41 :: p) s (caps ++ [(n, .unfinished)]) := by
  intro d' hd
  obtain ⟨d', rfl⟩ : ∃ n, d' = n + 1 := ⟨d' - 1, by omega⟩
  rw [matchAt, matchHere, captureToClose_append, bind_eq_bind, bind_some,
    modify_append]
  exact h d' (by omega)

theorem matchAt_open (hp : p.head? ≠ some 41) (hlen : caps.length < 32) (d s : ℕ) :
    matchAt src (d + 1) (40 :: p) s caps = matchAt src d p s (caps ++ [(s, .unfinished)]) := by
  rw [matchAt, matchHere]
  · rw [if_pos hlen]
  · rintro q rfl
    exact hp rfl

/-- `(` starts a capture. -/
theorem Matches.start (hp : p.head? ≠ some 41) (hlen : caps.length < 32)
    (h : Matches src d p s (caps ++ [(s, .unfinished)]) r) :
    Matches src (d + 1) (40 :: p) s caps r := by
  intro d' hd
  obtain ⟨d', rfl⟩ : ∃ n, d' = n + 1 := ⟨d' - 1, by omega⟩
  rw [matchAt_open hp hlen]
  exact h d' (by omega)

theorem Fails.start (hp : p.head? ≠ some 41) (hlen : caps.length < 32)
    (h : Fails src d p s (caps ++ [(s, .unfinished)])) : Fails src (d + 1) (40 :: p) s caps := by
  intro d' hd
  obtain ⟨d', rfl⟩ : ∃ n, d' = n + 1 := ⟨d' - 1, by omega⟩
  rw [matchAt_open hp hlen]
  exact h d' (by omega)

section Single

variable {set : Bytes} (hc : c ∉ ([36, 37, 40, 41] : Bytes))
  (hlen : classLength (c :: (set ++ p)) = some (set.length + 1))
  (hp : ∀ x, p[0]? = some x → x ∉ ([42, 43, 45, 63] : Bytes))

include hc hlen hp

/-- A byte of a class. -/
theorem Matches.single (hs : singleMatch (c :: (set ++ p)) (set.length + 1) src[s]? = true)
    (h : Matches src d p (s + 1) caps r) : Matches src (d + 1) (c :: (set ++ p)) s caps r := by
  intro d' hd
  obtain ⟨d', rfl⟩ : ∃ n, d' = n + 1 := ⟨d' - 1, by omega⟩
  rw [matchAt, matchHere_class hc hlen hp, if_pos hs]
  exact h (d' + 1) (by omega)

theorem Fails.single (hs : singleMatch (c :: (set ++ p)) (set.length + 1) src[s]? = false) :
    Fails src 1 (c :: (set ++ p)) s caps := by
  intro d' hd
  obtain ⟨d', rfl⟩ : ∃ n, d' = n + 1 := ⟨d' - 1, by omega⟩
  rw [matchAt, matchHere_class hc hlen hp, if_neg (by simp [hs])]

end Single

theorem Matches.dot {b : UInt8} (hp : ∀ x, p[0]? = some x → x ∉ ([42, 43, 45, 63] : Bytes))
    (hs : src[s]? = some b) (h : Matches src d p (s + 1) caps r) :
    Matches src (d + 1) (46 :: p) s caps r :=
  @Matches.single src 46 p d s caps r [] (by decide) rfl hp (by rw [hs]; rfl) h

section Percent

variable (hp : ∀ x, p[0]? = some x → x ∉ ([42, 43, 45, 63] : Bytes))

include hp

theorem Matches.percent (hs : src[s]? = some 37) (h : Matches src d p (s + 1) caps r) :
    Matches src (d + 1) (37 :: 37 :: p) s caps r := by
  intro d' hd
  obtain ⟨d', rfl⟩ : ∃ n, d' = n + 1 := ⟨d' - 1, by omega⟩
  rw [matchAt, matchHere_percent hp, if_pos hs]
  exact h (d' + 1) (by omega)

theorem Fails.percent (hs : src[s]? ≠ some 37) : Fails src 1 (37 :: 37 :: p) s caps := by
  intro d' hd
  obtain ⟨d', rfl⟩ : ∃ n, d' = n + 1 := ⟨d' - 1, by omega⟩
  rw [matchAt, matchHere_percent hp, if_neg hs]

end Percent

theorem minExpand_of_some {m : ℕ → Result} {single : Option UInt8 → Bool} {k : ℕ}
    (h : m (s + k) = some (some r)) (hfail : ∀ i < k, m (s + i) = some none)
    (hsingle : ∀ i < k, single src[s + i]? = true) {n : ℕ} (hk : k ≤ n) :
    minExpand src m single n s = some (some r) := by
  induction k generalizing s n with
  | zero => cases n <;> simp_all [minExpand]
  | succ k ih =>
    obtain ⟨n, rfl⟩ : ∃ n', n = n' + 1 := ⟨n - 1, by omega⟩
    have hnext : minExpand src m single n (s + 1) = some (some r) :=
      ih (by rw [Nat.add_right_comm]; exact h)
        (fun i hi => by rw [Nat.add_right_comm]; exact hfail (i + 1) (by omega))
        (fun i hi => by rw [Nat.add_right_comm]; exact hsingle (i + 1) (by omega)) (by omega)
    have hhere : m s = some none := hfail 0 (by omega)
    have hbyte : single src[s]? = true := hsingle 0 (by omega)
    rw [minExpand, hhere, bind_eq_bind, bind_some]
    simp only [hbyte, if_true, hnext]

/-- `(.-)` captures the bytes up to the first `c` behind it, if the rest matches there. -/
theorem Matches.lazy (hc : Literal c) (hlen : caps.length < 32)
    (hp : ∀ x, p[0]? = some x → x ∉ ([42, 43, 45, 63] : Bytes)) {x z : Bytes}
    (hsrc : src.drop s = x ++ c :: z) (hx : c ∉ x)
    (h : Matches src d p (s + x.length + 1) (caps ++ [(s, .closed x.length)]) r) :
    Matches src (d + 4) (40 :: 46 :: 45 :: 41 :: c :: p) s caps r := by
  intro d' hd
  obtain ⟨d', rfl⟩ : ∃ n, d' = n + 3 := ⟨d' - 3, by omega⟩
  have hat : ∀ i, src[s + i]? = (x ++ c :: z)[i]? := fun i => by rw [← hsrc, getElem?_drop]
  have hsome : src[s]?.isSome := by
    have := hat 0
    rw [Nat.add_zero] at this
    rw [this]
    cases x <;> rfl
  obtain ⟨b, hb⟩ := isSome_iff_exists.1 hsome
  have hmin : matchAt src (d' + 2) (46 :: 45 :: 41 :: c :: p) s (caps ++ [(s, .unfinished)]) =
      minExpand src (fun n => matchAt src (d' + 1) (41 :: c :: p) n (caps ++ [(s, .unfinished)]))
        (singleMatch (46 :: 45 :: 41 :: c :: p) 1) src.length s := by
    rw [matchAt, matchHere] <;> simp [classLength, hb, singleMatch]
  rw [matchAt_open (by simp) hlen, hmin]
  refine minExpand_of_some (k := x.length) ?_ (fun i hi => ?_) (fun i hi => ?_) ?_
  · have hbyte : src[s + x.length]? = some c := by
      rw [hat, getElem?_append_right le_rfl, Nat.sub_self]
      rfl
    refine Matches.close (d := d + 1) (Matches.byte hc hp hbyte ?_) (d' + 1) (by omega)
    rwa [Nat.add_sub_cancel_left]
  · refine Fails.close (d := 1) (Fails.byte hc hp fun heq => hx ?_) (d' + 1) (by omega)
    rw [hat, getElem?_append_left hi] at heq
    exact mem_of_getElem? heq
  · rw [hat, getElem?_append_left hi, getElem?_eq_getElem hi]
    rfl
  · have := congrArg List.length hsrc
    rw [length_drop, length_append, length_cons] at this
    omega

/-- At the end of the source there is nothing for `(.-)`, and no `c` behind it. -/
theorem Fails.lazy (hc : Literal c) (hlen : caps.length < 32)
    (hp : ∀ x, p[0]? = some x → x ∉ ([42, 43, 45, 63] : Bytes)) (hs : src.length ≤ s) :
    Fails src 4 (40 :: 46 :: 45 :: 41 :: c :: p) s caps := by
  intro d' hd
  obtain ⟨d', rfl⟩ : ∃ n, d' = n + 3 := ⟨d' - 3, by omega⟩
  have hnone : src[s]? = none := getElem?_eq_none hs
  have hskip : matchAt src (d' + 2) (46 :: 45 :: 41 :: c :: p) s (caps ++ [(s, .unfinished)]) =
      matchAt src (d' + 2) (41 :: c :: p) s (caps ++ [(s, .unfinished)]) := by
    rw [matchAt, matchHere] <;> simp [classLength, hnone, singleMatch, matchHere, matchAt]
  rw [matchAt_open (by simp) hlen, hskip]
  exact Fails.close (Fails.byte hc hp (by rw [hnone]; simp)) (d' + 2) (by omega)

theorem Matches.opt (hc : Literal c) :
    Matches src 2 [c, 63] s caps (if src[s]? = some c then s + 1 else s, caps) := by
  intro d' hd
  obtain ⟨d', rfl⟩ : ∃ n, d' = n + 2 := ⟨d' - 2, by omega⟩
  rw [matchAt, matchHere_opt hc]
  split_ifs
  · rw [matches_nil (d' + 1) (by omega)]
    rfl
  · rfl

end Lazy

end LuaPattern

end SkynetGame
