import SkynetGame.ClusterMgr

/-!
# What a node reads of the others

The pattern of `updateCluster` lacks a bracket: it asks for `^;` where it should ask for anything
but `;`, so what it takes for an address starts with `^;`. Hence no entry that `regSelf` writes is
read back, and the configuration is right only where it is of no other node at all
(`ClusterMgr.codec_iff`).
-/

namespace SkynetGame

open List

open LuaPattern

namespace ClusterMgr

section Match

variable {src : Bytes} {s d : ℕ} {caps : Caps} {c : ℕ × CapLen}

theorem matchAt_close (i : ℕ) : matchAt src (d + 2) [41, 36] src.length [c, (i, .unfinished)] =
    some (some (src.length, [c, (i, .closed (src.length - i))])) := by
  have hclose : captureToClose [c, (i, .unfinished)] = some 1 := rfl
  simp [matchAt, matchHere, hclose]

theorem matchAt_rest (hs : s ≤ src.length) (i : ℕ) :
    matchAt src (d + 3) [46, 42, 41, 36] s [c, (i, .unfinished)] =
      some (some (src.length, [c, (i, .closed (src.length - i))])) := by
  exact matchAt_anyStar hs fun d' => matchAt_close i

theorem matchAt_capture (hs : s ≤ src.length) :
    matchAt src (d + 4) [40, 46, 42, 41, 36] s [c] =
      some (some (src.length, [c, (s, .closed (src.length - s))])) := by
  have hopen : matchAt src (d + 4) [40, 46, 42, 41, 36] s [c] =
      matchAt src (d + 3) [46, 42, 41, 36] s [c, (s, .unfinished)] := by
    simp [matchAt, matchHere]
  rw [hopen, matchAt_rest hs]

theorem matchAt_time (hs : s ≤ src.length) :
    matchAt src (d + 5) [59, 63, 40, 46, 42, 41, 36] s [c] = some (some (src.length,
      [c, (if src[s]? = some 59 then s + 1 else s,
        .closed (src.length - if src[s]? = some 59 then s + 1 else s))])) := by
  rw [matchAt, matchHere_opt (by decide)]
  split_ifs with h
  · have hlt : s + 1 ≤ src.length := (List.getElem?_eq_some_iff.1 h).1
    rw [matchAt_capture hlt]
    rfl
  · exact matchAt_capture hs

/-- Where the time starts, behind the semicolon if there is one. -/
def timeAt (src : Bytes) (s : ℕ) : ℕ := if src[s]? = some 59 then s + 1 else s

theorem matchAt_address (hs : s ≤ src.length) (i : ℕ) :
    matchAt src (d + 6) [41, 59, 63, 40, 46, 42, 41, 36] s [(i, .unfinished)] =
      some (some (src.length, [(i, .closed (s - i)),
        (timeAt src s, .closed (src.length - timeAt src s))])) := by
  have hclose : captureToClose [(i, .unfinished)] = some 0 := rfl
  have hstep : matchAt src (d + 6) [41, 59, 63, 40, 46, 42, 41, 36] s [(i, .unfinished)] =
      matchAt src (d + 5) [59, 63, 40, 46, 42, 41, 36] s [(i, .closed (s - i))] := by
    simp [matchAt, matchHere, hclose]
  rw [hstep]
  exact matchAt_time hs

/-- How many closing brackets there are. -/
def brackets (src : Bytes) (s : ℕ) : ℕ := ((src.drop s).takeWhile fun b => b = 93).length

theorem brackets_le (hs : s ≤ src.length) : s + brackets src s ≤ src.length := by
  have h := (takeWhile_sublist (fun b => decide (b = 93)) (l := src.drop s)).length_le
  rw [length_drop] at h
  unfold brackets
  omega

theorem matchAt_brackets (hs : s ≤ src.length) (i : ℕ) :
    matchAt src (d + 7) [93, 42, 41, 59, 63, 40, 46, 42, 41, 36] s [(i, .unfinished)] =
      some (some (src.length, [(i, .closed (s + brackets src s - i)),
        (timeAt src (s + brackets src s),
          .closed (src.length - timeAt src (s + brackets src s)))])) := by
  rw [matchAt, matchHere_star (by decide)]
  split_ifs with h
  · exact maxExpand_of_some (matchAt_address (brackets_le hs) i)
  · have h0 : brackets src s = 0 := by
      unfold brackets
      rcases hd : src.drop s with _ | ⟨b, r⟩
      · rfl
      · have hb : src[s]? = some b := by
          rw [← head?_drop, hd]
          rfl
        have hne : ¬ (b = 93) := fun he => h (by rw [hb, he])
        simp [hne]
    rw [h0]
    exact matchAt_address hs i

/-- `^;` at a place of the source. -/
def CaretAt (src : Bytes) (s : ℕ) : Prop := src[s]? = some 94 ∧ src[s + 1]? = some 59

/-- The captures of an entry with `^;` at `s`. -/
def entryCaps (src : Bytes) (s : ℕ) : Caps :=
  [(s, .closed (s + 2 + brackets src (s + 2) - s)),
    (timeAt src (s + 2 + brackets src (s + 2)),
      .closed (src.length - timeAt src (s + 2 + brackets src (s + 2))))]

theorem matchAt_open : matchAt src (d + 8) entryPattern s [] =
    matchAt src (d + 7) [94, 59, 93, 42, 41, 59, 63, 40, 46, 42, 41, 36] s [(s, .unfinished)] := by
  rw [matchAt, show entryPattern = [40, 94, 59, 93, 42, 41, 59, 63, 40, 46, 42, 41, 36] from rfl,
    matchHere]
  · simp
  · simp

theorem matchAt_entry (h : CaretAt src s) :
    matchAt src (d + 8) entryPattern s [] = some (some (src.length, entryCaps src s)) := by
  have hs : s + 2 ≤ src.length := (List.getElem?_eq_some_iff.1 h.2).1
  rw [matchAt_open, matchAt, matchHere_byte (by decide) (by simp), if_pos h.1,
    matchHere_byte (by decide) (by simp), if_pos h.2]
  exact matchAt_brackets hs s

theorem matchAt_entry_not (h : ¬ CaretAt src s) :
    matchAt src (d + 8) entryPattern s [] = some none := by
  rw [matchAt_open, matchAt, matchHere_byte (by decide) (by simp)]
  by_cases h' : src[s]? = some 94
  · rw [if_pos h', matchHere_byte (by decide) (by simp), if_neg fun hn => h ⟨h', hn⟩]
  · rw [if_neg h']

theorem search_entry : ∀ (n s : ℕ), s + n = src.length →
    (search src entryPattern n s = some none ∧ ∀ i, s ≤ i → ¬ CaretAt src i) ∨
      ∃ i, CaretAt src i ∧ search src entryPattern n s =
        some (some (i, src.length, entryCaps src i))
  | 0, s, hs => by
    have hend : ∀ i, s ≤ i → ¬ CaretAt src i := fun i hi h => by
      have := (List.getElem?_eq_some_iff.1 h.1).1
      omega
    left
    refine ⟨?_, hend⟩
    rw [search, show 200 = 192 + 8 from rfl, matchAt_entry_not (hend s le_rfl)]
    rfl
  | n + 1, s, hs => by
    rw [search, show 200 = 192 + 8 from rfl]
    by_cases h : CaretAt src s
    · right
      exact ⟨s, h, by rw [matchAt_entry h]; rfl⟩
    · rw [matchAt_entry_not h]
      rcases search_entry n (s + 1) (by omega) with ⟨hn, hall⟩ | ⟨i, hi, he⟩
      · left
        refine ⟨hn, fun i hi => ?_⟩
        rcases Nat.eq_or_lt_of_le hi with rfl | hlt
        · exact h
        · exact hall i hlt
      · right
        exact ⟨i, hi, he⟩

theorem caretAt_of_eq {x y : Bytes} (h : src = x ++ 94 :: 59 :: y) : CaretAt src x.length := by
  subst h
  exact ⟨by simp, by simp⟩

theorem CaretAt.eq_append (h : CaretAt src s) :
    ∃ x, x.length = s ∧ src = x ++ 94 :: 59 :: src.drop (s + 2) := by
  obtain ⟨h1, h2⟩ := h
  obtain ⟨hlt, h1⟩ := List.getElem?_eq_some_iff.1 h1
  obtain ⟨hlt', h2⟩ := List.getElem?_eq_some_iff.1 h2
  refine ⟨src.take s, length_take_of_le hlt.le, ?_⟩
  rw [← h1, ← h2, getElem_cons_drop, getElem_cons_drop, take_append_drop]

end Match

variable {ν : Type*} (N : Numbers ν)

theorem searchAnchored_entry (v : Bytes) :
    searchAnchored v entryPattern = search v entryPattern v.length 0 := rfl

theorem readEntry_spec (v : Bytes) :
    (readEntry N v = some (none, none) ∧ ∀ x y, v ≠ x ++ 94 :: 59 :: y) ∨
      ∃ x y a t, v = x ++ 94 :: 59 :: y ∧
        readEntry N v = some (some (94 :: 59 :: a), N.tonumber t) ∧
        (y.head? ≠ some 93 → y.head? ≠ some 59 → t = y) := by
  rcases search_entry v.length 0 (Nat.zero_add _) with ⟨hs, hno⟩ | ⟨i, hi, hs⟩
  · refine .inl ⟨?_, fun x y hv => hno x.length (Nat.zero_le _) (caretAt_of_eq hv)⟩
    rw [readEntry, strMatch, searchAnchored_entry, hs]
    rfl
  · obtain ⟨x, hx, hv⟩ := hi.eq_append
    set e := i + 2 + brackets v (i + 2) with he
    have hread : readEntry N v = some (some ((v.drop i).take (e - i)),
        N.tonumber ((v.drop (timeAt v e)).take (v.length - timeAt v e))) := by
      rw [readEntry, strMatch, searchAnchored_entry, hs]
      rfl
    have hdrop : v.drop i = 94 :: 59 :: v.drop (i + 2) := by
      conv_lhs => rw [hv, ← hx]
      rw [drop_left, hx]
    have htake : (v.drop (timeAt v e)).take (v.length - timeAt v e) = v.drop (timeAt v e) :=
      take_of_length_le (by rw [length_drop])
    refine .inr ⟨x, v.drop (i + 2), (v.drop (i + 2)).take (brackets v (i + 2)),
      v.drop (timeAt v e), hv, ?_, fun h93 h59 => ?_⟩
    · have hn : e - i = brackets v (i + 2) + 1 + 1 := by omega
      rw [hread, hdrop, htake, hn, take_succ_cons, take_succ_cons]
    · have h0 : brackets v (i + 2) = 0 := by
        unfold brackets
        rcases hd : v.drop (i + 2) with _ | ⟨b, r⟩
        · rfl
        · have hne : ¬ (b = 93) := fun hb => h93 (by rw [hd, hb]; rfl)
          simp [hne]
      have hsemi : v[i + 2]? ≠ some 59 := by rwa [← head?_drop]
      rw [he, h0, timeAt, Nat.add_zero, if_neg hsemi]

section Wanted

variable (node : Node) (now : ν) (configKeys : List Bytes) (reg : Registry)

/-- What is before the semicolon of an entry. -/
def endpointOf (v : Bytes) : Bytes := v.takeWhile (· ≠ 59)

def timeOf (v : Bytes) : Option ν := N.tonumber ((v.dropWhile (· ≠ 59)).drop 1)

/-- An entry without a time, or with one less than 60 seconds ago. -/
def fresh (v : Bytes) : Bool := (timeOf N v).all (N.younger now)

def others (es : List (Bytes × Bytes)) : List (Bytes × Bytes) :=
  es.filter fun e => node.map (·.1) ≠ some e.1

/-- The configuration that is meant: the node itself, and the endpoint of the last fresh entry of
each other node. -/
def wantedConf : Conf := fun name =>
  match node.filter (·.1 = name) with
  | some (_, nodeEndpoint) => some nodeEndpoint
  | none => (((configKeys.flatMap fun key => others node (reg key)).filter fun e =>
      e.1 = name && fresh N now e.2).getLast?).map fun e => endpointOf e.2

/-- What is meant to be deleted: from each group the others that are not fresh. -/
def wantedDeleted : List (Bytes × List Bytes) :=
  configKeys.filterMap fun key =>
    let names := ((others node (reg key)).filter fun e => !fresh N now e.2).map (·.1)
    if names.length > 0 then some (key, names) else none

/-- What `regSelf` writes is read back. -/
def Decodes (nodeEndpoint : Bytes) : Prop :=
  readEntry N (regValue N nodeEndpoint now) = some (some nodeEndpoint, some now)

/-- `updateCluster` does what is meant. -/
def Installs : Prop := updateCluster N configKeys node now reg =
  some (wantedConf N node now configKeys reg, wantedDeleted N node now configKeys reg)

/-- An entry with an endpoint that ends in `^`, and a time too long ago. -/
def CaretExpired (v : Bytes) : Prop := ∃ x y t, v = x ++ 94 :: 59 :: y ∧ 59 ∉ x ∧
  N.tonumber y = some t ∧ N.younger now t = false

end Wanted

/-- Neither a semicolon nor a bracket is part of a number. -/
structure Numbers.Lawful : Prop where
  semicolon : ∀ b n, N.tonumber b = some n → 59 ∉ b
  bracket : ∀ b n, N.tonumber b = some n → 93 ∉ b

section Read

variable (node : Node) (now : ν)

/-- What `updateCluster` reads as the address of an entry. -/
def address (v : Bytes) : Option Bytes := ((readEntry N v).getD (none, none)).1

/-- Whether it takes the entry for expired. -/
def expired (v : Bytes) : Bool := !((readEntry N v).getD (none, none)).2.all (N.younger now)

theorem readEntry_eq (v : Bytes) : readEntry N v =
    some (address N v, ((readEntry N v).getD (none, none)).2) := by
  rcases readEntry_spec N v with ⟨h, -⟩ | ⟨x, y, a, t, -, h, -⟩ <;> simp [address, h]

/-- What an entry does to the configuration. -/
def setEntry (allConf : Conf) (e : Bytes × Bytes) : Conf :=
  if expired N now e.2 then allConf else Function.update allConf e.1 (address N e.2)

theorem readEntries_eq (es : List (Bytes × Bytes)) (allConf : Conf) (names : List Bytes) :
    readEntries N (node.map (·.1)) now (es.flatMap fun e => [e.1, e.2]) allConf names =
      some ((others node es).foldl (setEntry N now) allConf,
        names ++ ((others node es).filter fun e => expired N now e.2).map (·.1)) := by
  induction es generalizing allConf names with
  | nil => simp [readEntries, others]
  | cons e es ih =>
    obtain ⟨name, v⟩ := e
    simp only [flatMap_cons, cons_append, nil_append, readEntries]
    by_cases hname : node.map (·.1) = some name
    · have hothers : others node ((name, v) :: es) = others node es := by simp [others, hname]
      rw [if_pos hname, ih, hothers]
    · have hothers : others node ((name, v) :: es) = (name, v) :: others node es := by
        simp [others, hname]
      rw [if_neg hname, readEntry_eq, hothers]
      rcases hexp : expired N now v with _ | _
      · have hall : ((readEntry N v).getD (none, none)).2.all (N.younger now) = true := by
          simpa [expired] using hexp
        simp [hall, ih, setEntry, hexp]
      · have hall : ((readEntry N v).getD (none, none)).2.all (N.younger now) = false := by
          simpa [expired] using hexp
        simp [hall, ih, setEntry, hexp]

theorem readGroups_eq (configKeys : List Bytes) (reg : Registry) (allConf : Conf)
    (deleted : List (Bytes × List Bytes)) :
    readGroups N (node.map (·.1)) now reg configKeys allConf deleted =
      some ((configKeys.flatMap fun key => others node (reg key)).foldl (setEntry N now) allConf,
        deleted ++ configKeys.filterMap fun key =>
          let names := ((others node (reg key)).filter fun e => expired N now e.2).map (·.1)
          if names.length > 0 then some (key, names) else none) := by
  induction configKeys generalizing allConf deleted with
  | nil => simp [readGroups]
  | cons key keys ih =>
    have hread := readEntries_eq N node now (reg key) allConf []
    simp only [readGroups, hgetall, hread, nil_append, ih, flatMap_cons,
      foldl_append, filterMap_cons]
    split_ifs <;> simp

theorem semicolon_of_address {v a : Bytes} (h : address N v = some a) : 59 ∈ a := by
  rcases readEntry_spec N v with ⟨hr, -⟩ | ⟨x, y, a', t, -, hr, -⟩
  · simp [address, hr] at h
  · obtain rfl : 94 :: 59 :: a' = a := by simpa [address, hr] using h
    simp

theorem foldl_setEntry (es : List (Bytes × Bytes)) (allConf : Conf) (name a : Bytes)
    (h : es.foldl (setEntry N now) allConf name = some a) : allConf name = some a ∨ 59 ∈ a := by
  induction es generalizing allConf with
  | nil => exact .inl h
  | cons e es ih =>
    rcases ih _ h with hc | hc
    · unfold setEntry at hc
      split_ifs at hc
      · exact .inl hc
      · by_cases hn : name = e.1
        · subst hn
          rw [Function.update_self] at hc
          exact .inr (semicolon_of_address N hc)
        · rw [Function.update_of_ne hn] at hc
          exact .inl hc
    · exact .inr hc

theorem foldl_setEntry_expired (es : List (Bytes × Bytes)) (allConf : Conf)
    (h : ∀ e ∈ es, expired N now e.2 = true) : es.foldl (setEntry N now) allConf = allConf := by
  induction es with
  | nil => rfl
  | cons e es ih =>
    rw [forall_mem_cons] at h
    rw [foldl_cons, setEntry, if_pos h.1, ih h.2]

theorem dropWhile_caret {x y : Bytes} (hx : 59 ∉ x) :
    ((x ++ 94 :: 59 :: y).dropWhile (· ≠ 59)).drop 1 = y := by
  rw [dropWhile_append_of_pos]
  · rfl
  · intro c hc
    simpa using fun h : c = 59 => hx (h ▸ hc)

theorem timeOf_eq {x y : Bytes} (hx : 59 ∉ x) : timeOf N (x ++ 94 :: 59 :: y) = N.tonumber y := by
  rw [timeOf, dropWhile_caret hx]

theorem semicolon_of_timeOf {x y : Bytes} (hx : 59 ∈ x) :
    59 ∈ ((x ++ 94 :: 59 :: y).dropWhile (· ≠ 59)).drop 1 := by
  induction x with
  | nil => simp at hx
  | cons c x ih =>
    by_cases hc : c = 59
    · simp [hc]
    · have hx' : 59 ∈ x := by
        rcases mem_cons.1 hx with h | h
        · exact absurd h.symm hc
        · exact h
      simpa [hc] using ih hx'

variable {N}

theorem caretExpired_iff (hN : N.Lawful) {v : Bytes} :
    CaretExpired N now v ↔ expired N now v = true ∧ fresh N now v = false := by
  constructor
  · rintro ⟨x, y, t, rfl, hx, ht, hold⟩
    refine ⟨?_, by simp [fresh, timeOf_eq N hx, ht, hold]⟩
    rcases readEntry_spec N (x ++ 94 :: 59 :: y) with ⟨-, hno⟩ | ⟨x', y', a, t', hv, hr, htime⟩
    · exact absurd rfl (hno x y)
    · have hy := hN.semicolon y t ht
      have hx' : 59 ∉ x' := by
        have hcount := congrArg (List.count 59) hv
        simp only [count_append, count_cons] at hcount
        rw [count_eq_zero_of_not_mem hx, count_eq_zero_of_not_mem hy] at hcount
        refine count_eq_zero.1 ?_
        simp at hcount
        omega
      have hyy : y = y' := by
        rw [← dropWhile_caret (y := y) hx, hv, dropWhile_caret hx']
      subst hyy
      have hhead : ∀ c, c ∉ y → y.head? ≠ some c := fun c hc h =>
        hc (mem_of_mem_head? h)
      obtain rfl : t' = y := htime (hhead 93 (hN.bracket y t ht)) (hhead 59 hy)
      simp [expired, hr, ht, hold]
  · rintro ⟨hexp, hfresh⟩
    rcases readEntry_spec N v with ⟨hr, -⟩ | ⟨x, y, a, t', rfl, -, -⟩
    · simp [expired, hr] at hexp
    · rcases ht : timeOf N (x ++ 94 :: 59 :: y) with _ | t
      · simp [fresh, ht] at hfresh
      · have hx : 59 ∉ x := fun hx =>
          hN.semicolon _ t ht (semicolon_of_timeOf hx)
        rw [timeOf_eq N hx] at ht
        exact ⟨x, y, t, rfl, hx, ht, by simpa [fresh, timeOf_eq N hx, ht] using hfresh⟩

end Read

section Main

variable (node : Node) (now : ν) (configKeys : List Bytes) (reg : Registry)

theorem not_decodes {nodeEndpoint : Bytes} (h : 59 ∉ nodeEndpoint) :
    ¬ Decodes N now nodeEndpoint := by
  intro hd
  have ha : address N (regValue N nodeEndpoint now) = some nodeEndpoint := by
    rw [address, hd]
    rfl
  exact h (semicolon_of_address N ha)

theorem installs_of_caretExpired (hN : N.Lawful)
    (h : ∀ key ∈ configKeys, ∀ e ∈ others node (reg key), CaretExpired N now e.2) :
    Installs N node now configKeys reg := by
  have hexp : ∀ key ∈ configKeys, ∀ e ∈ others node (reg key),
      expired N now e.2 = true ∧ fresh N now e.2 = false := fun key hk e he =>
    (caretExpired_iff now hN).1 (h key hk e he)
  unfold Installs updateCluster
  rw [readGroups_eq, foldl_setEntry_expired]
  · refine congrArg some (Prod.ext ?_ ?_)
    · funext name
      have hnil : ((configKeys.flatMap fun key => others node (reg key)).filter fun e =>
          e.1 = name && fresh N now e.2) = [] := by
        refine filter_eq_nil_iff.2 fun e he => ?_
        obtain ⟨key, hk, he⟩ := mem_flatMap.1 he
        simp [(hexp key hk e he).2]
      rcases node with _ | ⟨nodeName, nodeEndpoint⟩
      · simp [wantedConf, hnil]
      · by_cases hn : nodeName = name
        · subst hn
          simp [wantedConf, Option.filter]
        · simp [wantedConf, Option.filter, hnil, hn, Function.update_of_ne (Ne.symm hn)]
    · refine filterMap_congr fun key hk => ?_
      have hfilter : ((others node (reg key)).filter fun e => expired N now e.2) =
          (others node (reg key)).filter fun e => !fresh N now e.2 :=
        filter_congr fun e he => by
          rw [(hexp key hk e he).1, (hexp key hk e he).2]
          rfl
      rw [hfilter]
  · intro e he
    obtain ⟨key, hk, he⟩ := mem_flatMap.1 he
    exact (hexp key hk e he).1

theorem flatMap_deleted (names : Bytes → List Bytes) :
    (configKeys.filterMap fun key => if (names key).length > 0 then some (key, names key)
      else none).flatMap (·.2) = configKeys.flatMap names := by
  induction configKeys with
  | nil => rfl
  | cons key keys ih =>
    rw [filterMap_cons, flatMap_cons, ← ih]
    rcases hn : names key with _ | ⟨name, r⟩ <;> simp

theorem caretExpired_of_installs (hN : N.Lawful) (h : Installs N node now configKeys reg) :
    ∀ key ∈ configKeys, ∀ e ∈ others node (reg key), CaretExpired N now e.2 := by
  unfold Installs updateCluster at h
  rw [readGroups_eq, Option.some.injEq, Prod.mk.injEq] at h
  obtain ⟨hconf, hdel⟩ := h
  -- no entry is fresh, for its endpoint would be missing
  have hfresh : ∀ key ∈ configKeys, ∀ e ∈ others node (reg key), fresh N now e.2 = false := by
    intro key hk e he
    by_contra hf
    rw [Bool.not_eq_false] at hf
    have hown : node.map (·.1) ≠ some e.1 := by simpa [others] using (mem_filter.1 he).2
    have hmem : e ∈ (configKeys.flatMap fun key => others node (reg key)).filter fun e' =>
        e'.1 = e.1 && fresh N now e'.2 :=
      mem_filter.2 ⟨mem_flatMap.2 ⟨key, hk, he⟩, by simp [hf]⟩
    obtain ⟨last, hlast⟩ := Option.ne_none_iff_exists'.1
      (fun hn => ne_nil_of_mem hmem (getLast?_eq_none_iff.1 hn))
    have hwanted : wantedConf N node now configKeys reg e.1 = some (endpointOf last.2) := by
      have hfilter : node.filter (·.1 = e.1) = none := by
        rcases node with _ | ⟨nodeName, nodeEndpoint⟩
        · rfl
        · simpa [Option.filter] using hown
      simp [wantedConf, hfilter, hlast]
    rcases foldl_setEntry N now _ _ e.1 _ ((congrFun hconf e.1).trans hwanted) with hinit | hsemi
    · rcases node with _ | ⟨nodeName, nodeEndpoint⟩
      · cases hinit
      · have hne : e.1 ≠ nodeName := fun hn => hown (by rw [hn]; rfl)
        simp [Function.update_of_ne hne] at hinit
    · exact absurd (mem_takeWhile_imp hsemi) (by simp)
  -- so all the others are to be deleted, and as many are
  have hnames := congrArg (fun l => l.flatMap (·.2)) hdel
  simp only [nil_append, wantedDeleted, flatMap_deleted] at hnames
  have hkeep : ∀ key ∈ configKeys, ((others node (reg key)).filter fun e => !fresh N now e.2) =
      others node (reg key) := fun key hk =>
    filter_eq_self.2 fun e he => by rw [hfresh key hk e he]; rfl
  rw [flatMap_congr fun key hk => congrArg (List.map (·.1)) (hkeep key hk)] at hnames
  have hlen := congrArg List.length hnames
  rw [← map_flatMap, ← map_flatMap, ← filter_flatMap, length_map,
    length_map, length_filter_eq_length_iff] at hlen
  intro key hk e he
  have hexp := hlen e (mem_flatMap.2 ⟨key, hk, he⟩)
  exact (caretExpired_iff now hN).2 ⟨hexp, hfresh key hk e he⟩

/-- No entry is read back, and the configuration is right exactly if there is no other node left to
put into it, and the expired ones end their endpoints in `^`. -/
theorem codec_iff (hN : N.Lawful) :
    (∀ nodeEndpoint, 59 ∉ nodeEndpoint → ¬ Decodes N now nodeEndpoint) ∧
      (Installs N node now configKeys reg ↔
        ∀ key ∈ configKeys, ∀ e ∈ others node (reg key), CaretExpired N now e.2) :=
  ⟨fun _ => not_decodes N now, caretExpired_of_installs N node now configKeys reg hN,
    installs_of_caretExpired N node now configKeys reg hN⟩

end Main

section Examples

/-- Numbers that are texts of decimal digits. -/
def decimals : Numbers ℕ where
  tonumber b :=
    if b ≠ [] ∧ b.all isdigit then some (b.foldl (fun n c => 10 * n + (c.toNat - 48)) 0) else none
  tostring n := (Nat.toDigits 10 n).map fun c => c.toNat.toUInt8
  younger now t := now < t + 60

theorem lawful_decimals : decimals.Lawful := by
  have hdigit : ∀ b n, decimals.tonumber b = some n → ∀ c ∈ b, isdigit c := by
    intro b n h
    simp only [decimals] at h
    split_ifs at h with hb
    exact all_eq_true.1 hb.2
  exact ⟨fun b n h hm => absurd (hdigit b n h _ hm) (by decide),
    fun b n h hm => absurd (hdigit b n h _ hm) (by decide)⟩

def nodeA : Node := some (Bytes.ascii "a", Bytes.ascii "10.0.0.1:2528")

def group : Bytes := Bytes.ascii "clusterconfig:wt:default"

/-- A registry with one entry of a node `b`. -/
def registryOf (entry : Bytes) : Registry := fun _ => [(Bytes.ascii "b", entry)]

theorem codec_decimals : (Installs decimals nodeA 1000 [group]
    (registryOf (Bytes.ascii "10.0.0.2:2528^;900"))) ∧ decimals.Lawful := by
  refine ⟨((codec_iff decimals nodeA 1000 [group] _ lawful_decimals).2.2 ?_), lawful_decimals⟩
  intro key _ e he
  obtain rfl : e = (Bytes.ascii "b", Bytes.ascii "10.0.0.2:2528^;900") := by
    simpa [registryOf] using (List.mem_filter.1 he).1
  exact ⟨Bytes.ascii "10.0.0.2:2528", Bytes.ascii "900", 900, rfl, by decide, by decide, by decide⟩

/-- A node registers at time 990, and another finds nothing of it in the registry ten seconds
later. -/
theorem not_codec_decimals :
    ¬ Decodes decimals 990 (Bytes.ascii "10.0.0.2:2528") ∧
    ¬ Installs decimals nodeA 1000 [group]
      (regSelf decimals [group] (Bytes.ascii "b") (Bytes.ascii "10.0.0.2:2528") 990 fun _ => []) := by
  refine ⟨not_decodes decimals 990 (by decide), fun h => ?_⟩
  have hb := congrArg (Option.map fun r => r.1 (Bytes.ascii "b")) h
  exact absurd hb (by decide)

end Examples

end ClusterMgr

end SkynetGame
