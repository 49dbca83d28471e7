import SkynetGame.UserName
import SkynetGame.Proofs.Base64

/-!
# What a user name gives back

None of the separators is a character of base64, so each pattern ends where the field does. Just the
triples have a code whose codes have a size that is an `int`.
-/

namespace SkynetGame

namespace UserName

open Base64
open LuaPattern

section Patterns

variable {a b : UInt8} {x y z p : Bytes} {d : ℕ} {r : ℕ × Caps}

theorem drop_field (x z : Bytes) (a : UInt8) : (x ++ a :: z).drop (x.length + 1) = z := by
  rw [← List.drop_drop, List.drop_left]
  rfl

theorem drop_fields (x y z : Bytes) (a b : UInt8) :
    (x ++ a :: (y ++ b :: z)).drop (x.length + 1 + y.length + 1) = z := by
  rw [Nat.add_assoc, ← List.drop_drop, drop_field, drop_field]

theorem matches_fields (ha : Literal a) (hb : Literal b) (hx : a ∉ x) (hy : b ∉ y)
    (hp : ∀ c, p[0]? = some c → c ∉ ([42, 43, 45, 63] : Bytes))
    (h : Matches (x ++ a :: (y ++ b :: z)) d p (x.length + 1 + y.length + 1)
      [(0, .closed x.length), (x.length + 1, .closed y.length)] r) :
    Matches (x ++ a :: (y ++ b :: z)) (d + 8) (40 :: 91 :: 94 :: a :: 93 :: 42 :: 41 :: a ::
      40 :: 91 :: 94 :: b :: 93 :: 42 :: 41 :: b :: p) 0 [] r := by
  have hsecond : Matches (x ++ a :: (y ++ b :: z)) (d + 4)
      (40 :: 91 :: 94 :: b :: 93 :: 42 :: 41 :: b :: p) (x.length + 1)
      [(0, .closed x.length)] r := Matches.fieldThen hb (by simp) hp
    (drop_field x _ a) hy h
  exact Matches.fieldThen ha (by simp) (by simp) rfl hx (by rwa [Nat.zero_add])

theorem pushCaptures_fields (a b : UInt8) (e n : ℕ) :
    pushCaptures (x ++ a :: (y ++ b :: z)) 0 e [(0, .closed x.length),
      (x.length + 1, .closed y.length), (x.length + 1 + y.length + 1, .closed n)] =
      some [.str x, .str y, .str (z.take n)] := by
  simp [pushCaptures, pushCapture, drop_fields]

theorem strMatch_userid (hx : 64 ∉ x) (hy : 35 ∉ y) :
    strMatch (x ++ 64 :: (y ++ 35 :: z)) (Bytes.ascii "([^@]*)@([^#]*)#(.*)") =
      some [.str x, .str y, .str z] := by
  have hend : x.length + 1 + y.length + 1 ≤ (x ++ 64 :: (y ++ 35 :: z)).length := by
    simp only [List.length_append, List.length_cons]
    omega
  have hmatch := matches_fields (by decide) (by decide) hx hy (by simp)
    (matches_rest hend (by simp))
  have hlast : (x ++ 64 :: (y ++ 35 :: z)).length - (x.length + 1 + y.length + 1) = z.length := by
    simp only [List.length_append, List.length_cons]
    omega
  refine (hmatch.strMatch (by decide) (by decide)).trans ((pushCaptures_fields 64 35 _ _).trans ?_)
  rw [hlast, List.take_length]

theorem fields_name (hx : 58 ∉ x) (index hmac : Bytes) : ∃ index' hmac', MsgServer.fields
    (x ++ Bytes.ascii ":" ++ index ++ Bytes.ascii ":" ++ hmac) =
      some (some (x, index', hmac')) := by
  have hcolon : (58 : UInt8) ∈ index ++ 58 :: hmac := by simp
  obtain ⟨y, z, hrest, hy⟩ := List.eq_append_cons_of_mem hcolon
  have hsrc : x ++ Bytes.ascii ":" ++ index ++ Bytes.ascii ":" ++ hmac =
      x ++ 58 :: (y ++ 58 :: z) := by
    rw [← hrest]
    simp [Bytes.ascii]
  have hmatch := matches_fields (a := 58) (b := 58) (z := z) (by decide) (by decide) hx hy (by simp)
    (Matches.field (c := 58) (p := []) (by decide) (by simp) rfl matches_nil)
  have hstr : strMatch (x ++ 58 :: (y ++ 58 :: z)) (Bytes.ascii "([^:]*):([^:]*):([^:]*)") = _ :=
    (hmatch.strMatch (by decide) (by decide)).trans (pushCaptures_fields 58 58 _ _)
  rw [hsrc, MsgServer.fields, hstr]
  exact ⟨_, _, rfl⟩

end Patterns

section Fields

variable {x : Bytes} {uid subid servername name : Bytes}

theorem lb64encode_eq_some {code : Bytes} :
    lb64encode x = some code ↔ Base64.Encodable x ∧ base64encode x = code := by
  unfold lb64encode
  split_ifs with h
  · simp [h]
  · simp [h]

theorem not_mem_base64encode {c : UInt8} (hc : b64index c = -1) : c ∉ base64encode x :=
  fun hmem => b64index_base64encode x c hmem hc

theorem b64decode_base64encode (h : Base64.Encodable x) : b64decode (base64encode x) = some x := by
  have hlt : (base64encode x).length < 0x80000000 := by
    rw [length_base64encode]
    exact h
  unfold b64decode
  rw [lb64decode_eq_some.2 ⟨hlt, decodeLoop_base64encode x⟩]
  rfl

theorem username_eq_some : username uid subid servername = some name ↔
    (Base64.Encodable uid ∧ Base64.Encodable subid ∧ Base64.Encodable servername) ∧
      base64encode uid ++ 64 :: (base64encode servername ++ 35 :: base64encode subid) = name := by
  simp only [username, Option.bind_eq_bind, Option.bind_eq_some_iff, lb64encode_eq_some,
    Option.some.injEq]
  constructor
  · rintro ⟨_, ⟨hu, rfl⟩, _, ⟨hv, rfl⟩, _, ⟨hs, rfl⟩, rfl⟩
    exact ⟨⟨hu, hs, hv⟩, by simp [Bytes.ascii]⟩
  · rintro ⟨⟨hu, hs, hv⟩, rfl⟩
    exact ⟨_, ⟨hu, rfl⟩, _, ⟨hv, rfl⟩, _, ⟨hs, rfl⟩, by simp [Bytes.ascii]⟩

theorem userid_username (h : username uid subid servername = some name) :
    userid name = some (uid, subid, servername) := by
  obtain ⟨⟨hu, hs, hv⟩, rfl⟩ := username_eq_some.1 h
  have hat : (64 : UInt8) ∉ base64encode uid := not_mem_base64encode (by decide)
  have hash : (35 : UInt8) ∉ base64encode servername := not_mem_base64encode (by decide)
  simp [userid, strMatch_userid hat hash, b64decode_base64encode, hu, hs, hv]

theorem recovered_username (h : username uid subid servername = some name) : Recovered name := by
  obtain ⟨-, rfl⟩ := username_eq_some.1 h
  have hcolon : ∀ x, (58 : UInt8) ∉ base64encode x := fun _ => not_mem_base64encode (by decide)
  have hname : (58 : UInt8) ∉
      base64encode uid ++ 64 :: (base64encode servername ++ 35 :: base64encode subid) := by
    simp [hcolon]
  exact ⟨hname, fields_name hname⟩

/-- The names are good just for the fields whose codes have a size that is an `int`. -/
theorem coded_iff : Coded uid subid servername ↔
    Base64.Encodable uid ∧ Base64.Encodable subid ∧ Base64.Encodable servername := by
  constructor
  · rintro ⟨name, h, -⟩
    exact (username_eq_some.1 h).1
  · intro h
    have hname := username_eq_some.2 ⟨h, rfl⟩
    refine ⟨_, hname, userid_username hname, ?_, recovered_username hname⟩
    intro uid' subid' servername' h'
    have heq := (userid_username h').symm.trans (userid_username hname)
    simpa only [Option.some.injEq, Prod.mk.injEq] using heq

/-- The code of 3 * 2^29 bytes has 2^31 characters. -/
theorem not_coded_of_size : ¬ Coded (List.replicate 0x60000000 0) [] [] := by
  rintro ⟨name, h, -⟩
  have henc := (username_eq_some.1 h).1.1
  rw [Base64.Encodable, List.length_replicate] at henc
  omega

end Fields

end UserName

end SkynetGame
