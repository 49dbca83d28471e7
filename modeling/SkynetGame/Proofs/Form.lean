import SkynetGame.Form
import Mathlib.Data.Finmap

/-!
# Forms come back (`lualib/http/httpc.lua`, `lualib/http/url.lua`)

What is escaped has no separators, and no `+`. So the body is taken apart where it was put together,
and each part is decoded to what it was.
-/

namespace SkynetGame

open List Option

namespace Form

open LuaPattern
open LuaNumber (tonumberBase)

/-- The bytes that stand for themselves. -/
def plain (c : UInt8) : Bool := isalnum c || c = 95

def escaped (c : UInt8) : Bytes :=
  if plain c then [c] else [37, hexDigit (c.toNat / 16), hexDigit (c.toNat % 16)]

section Digits

theorem hexDigit_spec : ∀ n < 16, isalnum (hexDigit n) = true ∧
    LuaNumber.digitOf (hexDigit n) = n ∧ isspace (hexDigit n) = false ∧
      hexDigit n ∉ ([43, 45] : Bytes) := by
  decide

theorem tonumberBase_hexDigit (c : UInt8) :
    tonumberBase 16 [hexDigit (c.toNat / 16), hexDigit (c.toNat % 16)] = some (c.toNat : ℤ) := by
  have hc := c.toNat_lt
  obtain ⟨hhi, hhi', hspace, hsign⟩ := hexDigit_spec (c.toNat / 16) (by omega)
  obtain ⟨hlo, hlo', -⟩ := hexDigit_spec (c.toNat % 16) (by omega)
  simp only [mem_cons, not_mem_nil, or_false, not_or] at hsign
  have hskip : LuaNumber.isneg (LuaNumber.skipSpaces
      [hexDigit (c.toNat / 16), hexDigit (c.toNat % 16)]) =
        (false, [hexDigit (c.toNat / 16), hexDigit (c.toNat % 16)]) := by
    rw [LuaNumber.skipSpaces, dropWhile_cons_of_neg (by simp [hspace]), LuaNumber.isneg]
    · exact fun l hl => hsign.2 (List.cons.inj hl).1
    · exact fun l hl => hsign.1 (List.cons.inj hl).1
  have hdigits : LuaNumber.baseDigits 16 0 [hexDigit (c.toNat / 16), hexDigit (c.toNat % 16)] =
      some (c.toNat, []) := by
    unfold LuaNumber.baseDigits
    rw [if_pos hhi, if_neg (by omega)]
    unfold LuaNumber.baseDigits
    rw [if_pos hlo, if_neg (by omega), hhi', hlo', LuaNumber.baseDigits]
    have : ((0 * 16 + c.toNat / 16) % LuaNumber.modulus * 16 + c.toNat % 16) %
        LuaNumber.modulus = c.toNat := by
      unfold LuaNumber.modulus
      omega
    rw [this]
  rw [tonumberBase, hskip]
  simp only [head?_cons, any_some, hhi, if_true, hdigits, bind_eq_bind,
    bind_some, LuaNumber.skipSpaces, dropWhile_nil]
  rw [LuaNumber.signed_false (by omega)]

theorem decode_func_escaped (c : UInt8) :
    decode_func (.str [hexDigit (c.toNat / 16), hexDigit (c.toNat % 16)]) = some [c] := by
  have hc := c.toNat_lt
  simp only [decode_func, tonumberBase_hexDigit, bind_eq_bind, bind_some]
  rw [if_pos (by omega)]
  simp

theorem plain_of_isalnum {c : UInt8} (h : isalnum c = true) : plain c = true := by
  simp [plain, h]

theorem mem_escaped {b c : UInt8} (h : b ∈ escaped c) : plain b = true ∨ b = 37 := by
  have hc := c.toNat_lt
  unfold escaped at h
  split_ifs at h with hplain
  · rw [mem_singleton] at h
    exact Or.inl (h ▸ hplain)
  · simp only [mem_cons, not_mem_nil, or_false] at h
    rcases h with rfl | rfl | rfl
    · exact Or.inr rfl
    · exact Or.inl (plain_of_isalnum (hexDigit_spec _ (by omega)).1)
    · exact Or.inl (plain_of_isalnum (hexDigit_spec _ (by omega)).1)

theorem not_mem_escaped {b : UInt8} (hb : plain b = false) (hb' : b ≠ 37) (s : Bytes) :
    b ∉ s.flatMap escaped := by
  intro h
  obtain ⟨c, -, hc⟩ := mem_flatMap.1 h
  rcases mem_escaped hc with hp | rfl
  · rw [hb] at hp
    cases hp
  · exact hb' rfl

end Digits

section Escape

variable {src : Bytes} {s : ℕ} {c : UInt8}

/-- `A-Za-z0-9_` behind its `^`, with the bracket that closes it. -/
def escapeSet : Bytes := [94, 65, 45, 90, 97, 45, 122, 48, 45, 57, 95, 93]

theorem matchBracketClass_escape (c : UInt8) :
    matchBracketClass c [94, 65, 45, 90, 97, 45, 122, 48, 45, 57, 95] = !plain c := by
  simp [matchBracketClass, inSet, plain, isalnum, isalpha, isdigit, Bool.or_assoc, eq_comm]

theorem classLength_escape (p : Bytes) : classLength (91 :: (escapeSet ++ p)) = some 13 := by
  simp [escapeSet, classLength, setLength]

theorem singleMatch_escape (p : Bytes) (o : Option UInt8) :
    singleMatch (91 :: (escapeSet ++ p)) 13 o = o.any fun c => !plain c := by
  rcases o with _ | c
  · rfl
  · exact matchBracketClass_escape c

theorem matches_escape (hc : src[s]? = some c) (hplain : plain c = false) :
    Matches src 4 (40 :: 91 :: (escapeSet ++ [41])) s [] (s + 1, [(s, .closed 1)]) := by
  refine Matches.start (by simp) (by simp) (Matches.single (by decide) (classLength_escape _)
    (by simp) ?_ (Matches.close (d := 1) ?_))
  · exact (singleMatch_escape _ _).trans (by rw [hc]; simp [hplain])
  · rw [Nat.add_sub_cancel_left]
    exact matches_nil

theorem fails_escape (h : (src[s]?.any fun c => !plain c) = false) :
    Fails src 2 (40 :: 91 :: (escapeSet ++ [41])) s [] :=
  Fails.start (by simp) (by simp) (Fails.single (by decide) (classLength_escape _) (by simp)
    ((singleMatch_escape _ _).trans h))

theorem escape_eq (s : Bytes) : escape s = some (s.flatMap escaped) := by
  have hpat : Bytes.ascii "([^A-Za-z0-9_])" = 40 :: 91 :: (escapeSet ++ [41]) := by decide
  have hpieces : gsubPieces s (40 :: 91 :: (escapeSet ++ [41])) =
      some (s.map fun c => if !plain c then .found [c] (.str [c]) else .byte c) := by
    rw [gsubPieces]
    · refine gsubLoop_kind (fun c => !plain c) (fun i c hc hkind => ?_) (fun i hi => ?_)
        s 0 none rfl (by simp)
      · refine ⟨_, matches_escape hc (by simpa using hkind) 200 (by omega), ?_⟩
        rw [firstCapture, pushCapture, take_one, head?_drop, hc]
        rfl
      · exact fails_escape hi 200 (by omega)
    · simp
  have hbytes : ∀ c, addFunction escapeFunc (if !plain c then .found [c] (.str [c]) else .byte c) =
      pure (escaped c) := by
    intro c
    unfold escaped
    cases plain c <;> rfl
  unfold escape gsubFunction
  rw [hpat, hpieces, bind_eq_bind, bind_some, mapM_map]
  simp only [Function.comp_def, hbytes, mapM_pure]
  rfl

end Escape

section Decode

variable {src : Bytes} {s : ℕ}

theorem matches_decode {a b : UInt8} {r : Bytes} (h : src.drop s = 37 :: a :: b :: r) :
    Matches src 6 [37, 37, 40, 46, 46, 41] s [] (s + 3, [(s + 1, .closed 2)]) := by
  have hat : ∀ i, src[s + i]? = (37 :: a :: b :: r)[i]? := fun i => by rw [← h, getElem?_drop]
  refine Matches.percent (by simp) (hat 0) (Matches.start (by simp) (by simp)
    (Matches.dot (b := a) (by simp) (hat 1)
      (Matches.dot (b := b) (by simp) ?_ (Matches.close (d := 1) ?_))))
  · exact hat 2
  · rw [show s + 1 + 1 + 1 - (s + 1) = 2 by omega]
    exact matches_nil

theorem gsubLoop_decode : ∀ (l : Bytes) (s : ℕ) (last : Option ℕ), src.drop s = l.flatMap escaped →
    (∀ n, last = some n → n ≤ s) →
      gsubLoop src [37, 37, 40, 46, 46, 41] (l.flatMap escaped) s 0 last =
        some (l.map fun c => if plain c then .byte c else .found (escaped c)
          (.str [hexDigit (c.toNat / 16), hexDigit (c.toNat % 16)]))
  | [], s, last, h, _ => by
    have hnone : src[s]? = none := getElem?_eq_none (drop_eq_nil_iff.1 h)
    refine gsubLoop_bytes [] s last fun n hn hle => ?_
    obtain rfl : n = s := Nat.le_antisymm hle hn
    exact Fails.percent (by simp) (by rw [hnone]; simp) 200 (by omega)
  | c :: l, s, last, h, hlast => by
    rw [flatMap_cons] at h ⊢
    rw [map_cons]
    by_cases hplain : plain c = true
    · have hc : escaped c = [c] := if_pos hplain
      rw [hc, singleton_append] at h ⊢
      have hhead : src[s]? = some c := by rw [← head?_drop, h]; rfl
      have hne : c ≠ 37 := by
        rintro rfl
        cases hplain
      rw [if_pos hplain, gsubLoop_byte, gsubLoop_decode l (s + 1) last]
      · rfl
      · rw [← tail_drop, h]
        rfl
      · intro n hn
        have := hlast n hn
        omega
      · exact Fails.percent (by simp) (by rw [hhead]; simpa using hne) 200 (by omega)
    · have hc : escaped c = [37, hexDigit (c.toNat / 16), hexDigit (c.toNat % 16)] := if_neg hplain
      rw [hc] at h ⊢
      rw [if_neg hplain]
      have hkey : firstCapture src s (s + 3) [(s + 1, .closed 2)] =
          some (.str [hexDigit (c.toNat / 16), hexDigit (c.toNat % 16)]) := by
        rw [firstCapture, pushCapture, ← drop_drop, h]
        rfl
      have hrest : gsubLoop src [37, 37, 40, 46, 46, 41] (l.flatMap escaped) (s + 3) 0
          (some (s + 3)) = some (l.map fun c => if plain c then .byte c else .found (escaped c)
            (.str [hexDigit (c.toNat / 16), hexDigit (c.toNat % 16)])) := by
        refine gsubLoop_decode l (s + 3) _ ?_ ?_
        · rw [← drop_drop, h]
          rfl
        · rintro n ⟨⟩
          exact le_rfl
      refine (gsubLoop_found (l := [37, hexDigit (c.toNat / 16), hexDigit (c.toNat % 16)])
        (by simp) h (matches_decode h 200 (by omega)) hlast hkey).trans ?_
      exact congrArg _ hrest

theorem flatten_singletons (l : Bytes) : (l.map fun c => [c]).flatten = l := by
  rw [← flatMap_def, flatMap_singleton']

theorem gsub_plus (h : 43 ∉ src) (f : Capture → Option Bytes) :
    gsubFunction src (Bytes.ascii "+") f = some src := by
  have hpieces : gsubPieces src [43] = some (src.map .byte) := by
    refine gsubLoop_bytes src 0 none fun n _ _ => ?_
    refine Fails.byte (by decide) (by simp) (fun hn => h ?_) 200 (by omega)
    exact mem_of_getElem? hn
  have hbytes : ∀ c, addFunction f (.byte c) = pure [c] := fun _ => rfl
  unfold gsubFunction
  rw [show Bytes.ascii "+" = [43] from rfl, hpieces, bind_eq_bind, bind_some,
    mapM_map]
  simp only [Function.comp_def, hbytes, mapM_pure]
  exact congrArg some (flatten_singletons src)

theorem decode_escaped (s : Bytes) : decode (s.flatMap escaped) = some s := by
  have hpieces := @gsubLoop_decode (s.flatMap escaped) s 0 none rfl (by simp)
  have hbytes : ∀ c, addFunction decode_func (if plain c then .byte c else .found (escaped c)
      (.str [hexDigit (c.toNat / 16), hexDigit (c.toNat % 16)])) = pure [c] := by
    intro c
    split_ifs
    · rfl
    · exact decode_func_escaped c
  unfold decode
  rw [gsub_plus (not_mem_escaped rfl (by decide) s), bind_eq_bind, bind_some]
  unfold gsubFunction
  rw [show Bytes.ascii "%%(..)" = [37, 37, 40, 46, 46, 41] from rfl]
  rw [gsubPieces, hpieces, bind_eq_bind, bind_some, mapM_map]
  · simp only [Function.comp_def, hbytes, mapM_pure]
    exact congrArg some (flatten_singletons s)
  · simp

end Decode

section Query

variable {src : Bytes} {s : ℕ}

def field (e : Sigma fun _ : Bytes => Bytes) : Bytes :=
  e.1.flatMap escaped ++ 61 :: e.2.flatMap escaped

theorem postBody_eq (form : StringTable) :
    postBody form = some ([38].intercalate (form.entries.map field)) := by
  have hfield : ∀ e : Sigma fun _ : Bytes => Bytes,
      (do return (← escape e.1) ++ Bytes.ascii "=" ++ (← escape e.2) : Option Bytes) =
        pure (field e) := by
    intro e
    rw [escape_eq, escape_eq, bind_eq_bind, bind_some, bind_some,
      show Bytes.ascii "=" = [61] from rfl, append_assoc]
    rfl
  unfold postBody
  simp only [hfield, mapM_pure]
  rfl

/-- `(.-)=([^&]*)&?`. -/
def queryPattern : Bytes := [40, 46, 45, 41, 61, 40, 91, 94, 38, 93, 42, 41, 38, 63]

theorem matches_field {x y t r : Bytes} (hx : 61 ∉ x) (hy : 38 ∉ y)
    (hsrc : src.drop s = x ++ 61 :: (y ++ (t ++ r))) (ht : t = [38] ∨ t = [] ∧ r = []) :
    Matches src 9 queryPattern s [] (s + (x ++ 61 :: (y ++ t)).length,
      [(s, .closed x.length), (s + x.length + 1, .closed y.length)]) := by
  have hdrop : src.drop (s + x.length + 1) = y ++ (t ++ r) := by
    rw [Nat.add_assoc, ← drop_drop, hsrc, ← drop_drop, drop_left]
    rfl
  have htake : ((src.drop (s + x.length + 1)).takeWhile fun b => b ≠ 38).length = y.length := by
    rw [hdrop, takeWhile_append_of_pos fun b hb => by simpa using ne_of_mem_of_not_mem hb hy]
    rcases ht with rfl | ⟨rfl, rfl⟩ <;> simp
  have hopt : (if src[s + x.length + 1 + y.length]? = some 38 then s + x.length + 1 + y.length + 1
      else s + x.length + 1 + y.length) = s + (x ++ 61 :: (y ++ t)).length := by
    rw [← getElem?_drop, hdrop, getElem?_append_right le_rfl, Nat.sub_self]
    rcases ht with rfl | ⟨rfl, rfl⟩ <;> simp <;> omega
  refine Matches.lazy (d := 5) (by decide) (by simp) (by simp) hsrc hx ?_
  refine Matches.field (d := 2) (by decide) (by simp) htake ?_
  have hend := @Matches.opt src 38 (s + x.length + 1 + y.length)
    [(s, .closed x.length), (s + x.length + 1, .closed y.length)] (by decide)
  rwa [hopt] at hend

theorem pushCaptures_field {x y z : Bytes} (e : ℕ) (hsrc : src.drop s = x ++ 61 :: (y ++ z)) :
    pushCaptures src s e [(s, .closed x.length), (s + x.length + 1, .closed y.length)] =
      some [.str x, .str y] := by
  have hdrop : src.drop (s + x.length + 1) = y ++ z := by
    rw [Nat.add_assoc, ← drop_drop, hsrc, ← drop_drop, drop_left]
    rfl
  simp [pushCaptures, pushCapture, hsrc, hdrop]

theorem gmatchLoop_body : ∀ (es : List (Sigma fun _ : Bytes => Bytes)) (s : ℕ) (last : Option ℕ),
    src.drop s = [38].intercalate (es.map field) → (∀ n, last = some n → n ≤ s) →
      gmatchLoop src queryPattern ([38].intercalate (es.map field)) s 0 last =
        some (es.map fun e => [.str (e.1.flatMap escaped), .str (e.2.flatMap escaped)])
  | [], s, last, h, _ => by
    have hs : src.length ≤ s := drop_eq_nil_iff.1 h
    have hfails : matchAt src 200 queryPattern s [] = some none :=
      Fails.lazy (by decide) (by simp) (by simp) hs 200 (by omega)
    show gmatchLoop src queryPattern [] s 0 last = _
    rw [gmatchLoop, hfails]
    rfl
  | e :: es, s, last, h, hlast => by
    obtain ⟨t, ht, hbody⟩ : ∃ t, (t = [38] ∨ t = [] ∧ [38].intercalate (es.map field) = []) ∧
        [38].intercalate ((e :: es).map field) =
          (e.1.flatMap escaped ++ 61 :: (e.2.flatMap escaped ++ t)) ++
            [38].intercalate (es.map field) := by
      rcases es with _ | ⟨e', es⟩
      · exact ⟨[], Or.inr ⟨rfl, rfl⟩, by simp [List.intercalate, field]⟩
      · exact ⟨[38], Or.inl rfl, by simp [List.intercalate, field]⟩
    rw [hbody] at h ⊢
    have hx := not_mem_escaped (b := 61) rfl (by decide) e.1
    have hy := not_mem_escaped (b := 38) rfl (by decide) e.2
    have hsrc := h
    rw [append_assoc, cons_append, append_assoc] at hsrc
    have hrest := gmatchLoop_body es _ (some (s +
      (e.1.flatMap escaped ++ 61 :: (e.2.flatMap escaped ++ t)).length))
        (by rw [← drop_drop, h, drop_left]) (by
          rintro n ⟨⟩
          exact le_rfl)
    refine (gmatchLoop_found (by simp) (matches_field hx hy hsrc ht 200 (by omega)) hlast
      (pushCaptures_field _ hsrc)).trans ?_
    exact congrArg _ hrest

theorem foldlM_addField (es : List (Sigma fun _ : Bytes => Bytes)) (r : StringTable) :
    (es.map fun e => [.str (e.1.flatMap escaped), .str (e.2.flatMap escaped)]).foldlM addField r =
      some (es.foldl (fun r e => r.insert e.1 e.2) r) := by
  induction es generalizing r with
  | nil => rfl
  | cons e es ih =>
    have hstep : addField r [.str (e.1.flatMap escaped), .str (e.2.flatMap escaped)] =
        some (r.insert e.1 e.2) := by
      simp only [addField, decode_escaped, bind_eq_bind, bind_some]
      rfl
    rw [map_cons, foldlM_cons, hstep]
    exact ih _

theorem lookup_foldl_insert {es : List (Sigma fun _ : Bytes => Bytes)} (hes : es.NodupKeys)
    (r : StringTable) (k : Bytes) : (es.foldl (fun r e => r.insert e.1 e.2) r).lookup k =
      (es.dlookup k).or (r.lookup k) := by
  induction es generalizing r with
  | nil => rfl
  | cons e es ih =>
    obtain ⟨hnew, hes⟩ := nodupKeys_cons.1 hes
    rw [foldl_cons, ih hes]
    rcases eq_or_ne k e.1 with rfl | hne
    · rw [AList.lookup_insert, dlookup_cons_eq, dlookup_eq_none.2 hnew]
      rfl
    · rw [AList.lookup_insert_ne hne, dlookup_cons_ne _ _ hne]

/-- A form that is posted and taken apart is the table it was. -/
theorem parse_query_postBody (form : StringTable) :
    ∃ body r, postBody form = some body ∧ parse_query body = some r ∧
      r.toFinmap = form.toFinmap := by
  refine ⟨_, form.entries.foldl (fun r e => r.insert e.1 e.2) ∅, postBody_eq form, ?_, ?_⟩
  · have hloop := @gmatchLoop_body ([38].intercalate (form.entries.map field))
      form.entries 0 none rfl (by simp)
    unfold parse_query gmatch
    rw [show Bytes.ascii "(.-)=([^&]*)&?" = queryPattern from rfl, hloop, Option.bind_eq_bind,
      Option.bind_some]
    exact foldlM_addField _ _
  · refine Finmap.ext_lookup fun k => ?_
    rw [Finmap.lookup_toFinmap, Finmap.lookup_toFinmap, lookup_foldl_insert form.nodupKeys]
    simp [AList.lookup]

end Query

end Form

end SkynetGame
