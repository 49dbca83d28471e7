import SkynetGame.MongoAuth
import SkynetGame.UserName

/-!
# When SCRAM accepts (`auth_scram_sha1` of `lualib/mongo.lua`)

Of the five checks four reject what they should. The one of the server's nonce compares a boolean
with a string, so it rejects nothing, and a server that gets all the others right is accepted with
any nonce.
-/

namespace SkynetGame

open Option

namespace MongoAuth

section Accepts

variable (lib : Library) (key username : Bytes) (server : Server) (password : Bytes)

/-- An exchange up to the client's last message: the first reply is ok, and can be answered. -/
structure Exchange where
  first : Reply
  message : ServerFirst
  client_final : Bytes
  server_sig : Bytes
  replied : server [saslStart lib key username] = some first
  ok : isOne first.ok = true
  parsed : serverFirst lib first.payload = some message
  answered : clientFinal lib username password (firstBare lib key username) message =
    some (client_final, server_sig)

variable {lib key username server password}

namespace Exchange

/-- The client's last message, as it is sent. -/
def final (x : Exchange lib key username server password) : Command :=
  .saslContinue x.first.conversationId x.client_final

/-- The server's nonce begins with the client's. -/
def Begins (x : Exchange lib key username server password) : Prop :=
  clientNonce lib key <+: x.message.rnonce

/-- The second reply is ok, and has the signature. -/
def Signed (x : Exchange lib key username server password) : Prop :=
  ∃ r, server [saslStart lib key username, x.final] = some r ∧ isOne r.ok = true ∧
    serverSignature lib r.payload = some (some x.server_sig)

/-- The second reply reports done, or the third one does. -/
def Done (x : Exchange lib key username server password) : Prop :=
  ∃ r, server [saslStart lib key username, x.final] = some r ∧ (truthy r.done = true ∨
    ∃ r', server [saslStart lib key username, x.final, .saslContinue x.first.conversationId []] =
      some r' ∧ isOne r'.ok = true ∧ truthy r'.done = true)

end Exchange

theorem exchange_unique (x y : Exchange lib key username server password) : x = y := by
  obtain ⟨f, m, c, s, hf, hok, hm, hc⟩ := x
  obtain ⟨f', m', c', s', hf', hok', hm', hc'⟩ := y
  obtain rfl : f = f' := some.inj (hf.symm.trans hf')
  obtain rfl : m = m' := some.inj (hm.symm.trans hm')
  obtain ⟨rfl, rfl⟩ := Prod.mk.inj (some.inj (hc.symm.trans hc'))
  rfl

theorem invalidNonce_eq (rnonce nonce : Bytes) : invalidNonce rnonce nonce = false := rfl

theorem auth_of_exchange (x : Exchange lib key username server password) :
    auth_scram_sha1 lib key username server password = some true ↔ x.Signed ∧ x.Done := by
  unfold auth_scram_sha1
  simp only [x.replied, x.ok, x.parsed, x.answered, invalidNonce_eq, bind_eq_bind,
    bind_some, Bool.not_true, Bool.false_eq_true, if_false]
  unfold Exchange.Signed Exchange.Done Exchange.final
  rcases hr : server [saslStart lib key username,
    .saslContinue x.first.conversationId x.client_final] with _ | r
  · simp
  · rw [bind_some]
    by_cases hok : isOne r.ok = true
    · rw [if_neg (by simp [hok])]
      rcases hv : serverSignature lib r.payload with _ | v
      · simp [hv]
      · rw [bind_some]
        by_cases hsig : v = some x.server_sig
        · rw [if_neg (by simp [hsig])]
          by_cases hdone : truthy r.done = true
          · simp [hok, hv, hsig, hdone]
          · rw [if_neg hdone]
            rcases hr' : server [saslStart lib key username,
              .saslContinue x.first.conversationId x.client_final,
              .saslContinue x.first.conversationId []] with _ | r'
            · simp [hdone]
            · rcases hok' : isOne r'.ok <;> simp_all
        · rw [if_pos hsig]
          simp [hv, hsig]
    · rw [if_pos (by simp [hok])]
      simp [hok]

theorem auth_eq_true_iff : auth_scram_sha1 lib key username server password = some true ↔
    ∃ x : Exchange lib key username server password, x.Signed ∧ x.Done := by
  refine ⟨fun h => ?_, fun ⟨x, hx⟩ => (auth_of_exchange x).2 hx⟩
  have hauth := h
  unfold auth_scram_sha1 at h
  obtain ⟨r, hr, h⟩ := bind_eq_some_iff.1 h
  by_cases hok : isOne r.ok = true
  · rw [if_neg (by simp [hok])] at h
    obtain ⟨m, hm, h⟩ := bind_eq_some_iff.1 h
    rw [if_neg (by simp [invalidNonce_eq])] at h
    obtain ⟨⟨c, s⟩, hc, -⟩ := bind_eq_some_iff.1 h
    exact ⟨⟨r, m, c, s, hr, hok, hm, hc⟩, (auth_of_exchange _).1 hauth⟩
  · rw [if_pos (by simp [hok])] at h
    cases h

/-- What is accepted is signed and done; its nonce is right just when no exchange that is signed and
done has a wrong one. -/
theorem secure_iff (lib : Library) (key username : Bytes) (server : Server) (password : Bytes) :
    (auth_scram_sha1 lib key username server password = some true →
      ∃ x : Exchange lib key username server password, x.Begins ∧ x.Signed ∧ x.Done) ↔
    ∀ x : Exchange lib key username server password, x.Signed → x.Done → x.Begins := by
  rw [auth_eq_true_iff]
  constructor
  · intro h x hs hd
    obtain ⟨y, hy, -⟩ := h ⟨x, hs, hd⟩
    rwa [exchange_unique x y]
  · rintro h ⟨x, hs, hd⟩
    exact ⟨x, h x hs hd, hs, hd⟩

end Accepts

section WrongNonce

def shortHashes : Library where
  hmac_sha1 _ _ := [1]
  sha1 _ := [1]
  base64encode text := (Base64.lb64encode text).getD []
  base64decode := UserName.b64decode
  sumhexa _ := Bytes.ascii "01"
  l_str2d _ := none
  forlimit _ := 0
  number2str _ := []

/-- A server that has the signature right, but a nonce of its own. -/
def otherNonce : Server := fun commands =>
  let payload := if commands.length = 1 then Bytes.ascii "r=other,s=AAAA,i=2" else Bytes.ascii "v=AQ=="
  some ⟨.integer 1, .integer 7, .string (shortHashes.base64encode payload), .boolean true⟩

theorem not_secure_otherNonce :
    ¬ (auth_scram_sha1 shortHashes [1, 2, 3, 4, 5, 6, 7, 8] [117] otherNonce [112] = some true →
      ∃ x : Exchange shortHashes [1, 2, 3, 4, 5, 6, 7, 8] [117] otherNonce [112],
        x.Begins ∧ x.Signed ∧ x.Done) := by
  have hauth : auth_scram_sha1 shortHashes [1, 2, 3, 4, 5, 6, 7, 8] [117] otherNonce [112] =
      some true := by decide +kernel
  have hnonce : (serverFirst shortHashes (.string (shortHashes.base64encode
      (Bytes.ascii "r=other,s=AAAA,i=2")))).map (·.rnonce) = some (Bytes.ascii "other") := by
    decide +kernel
  have hbegins : ¬ clientNonce shortHashes [1, 2, 3, 4, 5, 6, 7, 8] <+: Bytes.ascii "other" := by
    decide +kernel
  intro h
  obtain ⟨x, hx, -⟩ := h hauth
  have hparsed := x.parsed
  rw [← Option.some.inj x.replied] at hparsed
  have hother : some x.message.rnonce = some (Bytes.ascii "other") :=
    (congrArg (Option.map ServerFirst.rnonce) hparsed).symm.trans hnonce
  rw [Exchange.Begins, Option.some.inj hother] at hx
  exact hbegins hx

end WrongNonce

end MongoAuth

end SkynetGame
