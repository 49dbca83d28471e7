import SkynetGame.Proofs.Crypt
import SkynetGame.Proofs.LoginServer

/-!
# The client of the login server

A client that answers what it gets has the slave's secret after the second line (`Conn.Shared`), and each
line that it sends is taken, whatever the other connections do (`Fair`).
-/

namespace SkynetGame

open Function List Option

namespace LoginServer

open Base64 (base64encode base64decode Encodable)

variable {σ κ : Type*} {client : Client} {line text rest : Bytes}

theorem base64decode_base64encode (x : Bytes) : base64decode (base64encode x) = .ok x := by
  rw [base64decode, Base64.decodeLoop_base64encode]

theorem ten_notMem_base64encode (x : Bytes) : 10 ∉ base64encode x :=
  fun hin => Base64.b64index_base64encode x 10 hin (by decide)

theorem ofLe_ne_zero : ∀ {b : Bytes} {x : UInt8}, x ∈ b → x ≠ 0 → Endian.ofLe b ≠ 0
  | y :: b, x, hin, hne => by
    rw [Endian.ofLe_cons]
    rcases mem_cons.1 hin with rfl | hin
    · have : x.toNat ≠ 0 := fun h => hne (UInt8.toNat_inj.1 h)
      omega
    · have := ofLe_ne_zero hin hne
      omega

theorem length_randomkey (random : Bytes) : (randomkey random).length = random.length := by
  rw [randomkey]
  split
  · rw [length_modifyHead]
  · rfl

theorem ofLe_randomkey {random : Bytes} (h : random.length = 8) :
    Endian.ofLe (randomkey random) ≠ 0 := by
  rw [randomkey]
  split
  · cases random with
    | nil => cases h
    | cons x random =>
      refine ofLe_ne_zero (mem_cons_self (a := x ||| 1)) fun hbad => ?_
      exact absurd (UInt8.or_eq_zero_iff.1 hbad).2 (by decide)
  · rename_i hsum
    by_contra hzero
    have hall : ∀ x ∈ random, x = 0 := fun x hx => by
      by_contra hne
      exact ofLe_ne_zero hx hne hzero
    rw [eq_replicate_of_mem hall, h] at hsum
    exact hsum (by decide)

theorem exchange {x y : Bytes} (hx : x.length = 8) (hy : y.length = 8) :
    ∃ ex ey secret, Crypt.dhexchange (randomkey x) = some (.ok ex)
      ∧ Crypt.dhexchange (randomkey y) = some (.ok ey) ∧ ex.length = 8
      ∧ Crypt.dhsecret ex (randomkey y) = some (.ok secret)
      ∧ Crypt.dhsecret ey (randomkey x) = some (.ok secret) ∧ secret.length = 8 := by
  have hx' := (length_randomkey x).trans hx
  have hy' := (length_randomkey y).trans hy
  obtain ⟨rx, hex, hrx⟩ := Crypt.dhexchange_eq hx' (ofLe_randomkey hx)
  obtain ⟨ry, hey, hry⟩ := Crypt.dhexchange_eq hy' (ofLe_randomkey hy)
  obtain ⟨s, hs, hsv⟩ := Crypt.dhsecret_eq hrx hy' (ofLe_randomkey hy)
  obtain ⟨t, ht, htv⟩ := Crypt.dhsecret_eq hry hx' (ofLe_randomkey hx)
  obtain rfl : t = s := by rw [← BitVec.toNat_inj, hsv, htv, Nat.mul_comm]
  exact ⟨_, _, _, hex, hey, Crypt.length_push64 _, hs, ht, Crypt.length_push64 _⟩

theorem hmac64_ok {x y : Bytes} (hx : x.length = 8) (hy : y.length = 8) :
    ∃ hmac, Hmac.hmac64 x y = .ok hmac ∧ hmac.length = 8 := by
  rw [Hmac.hmac64, if_neg (not_not.2 hx), if_neg (not_not.2 hy)]
  exact ⟨_, rfl, by rw [length_append, Endian.length_le, Endian.length_le]⟩

theorem desencode_ok {secret token : Bytes} (hkey : secret.length = 8) (hlen : token.length < 2 ^ 31) :
    ∃ etoken, Des.desencode (fun _ => 0) secret token = some (.ok etoken)
      ∧ etoken.length = 8 * (token.length / 8 + 1) ∧ Conn.decrypt secret etoken = some token := by
  refine ⟨_, Des.desencode_eq hkey hlen, ?_, ?_⟩
  · rw [Des.length_eachBlock (Des.length_desCrypt _)]
  · rw [Conn.decrypt, Des.desdecode_eq hkey hlen]

theorem unpackLine_line : ∀ {line : Bytes} (rest : Bytes), 10 ∉ line →
    unpackLine (line ++ newline ++ rest) = some (line, rest)
  | [], _, _ => rfl
  | ch :: line, rest, h => by
    have hrec := unpackLine_line rest fun hin => h (mem_cons_of_mem _ hin)
    have hne : ch ≠ 10 := by
      rintro rfl
      exact h mem_cons_self
    rw [cons_append, cons_append, unpackLine, if_neg hne, hrec]
    rfl

theorem unpackLine_append : ∀ {text : Bytes} {r : Bytes × Bytes} (more : Bytes),
    unpackLine text = some r → unpackLine (text ++ more) = some (r.1, r.2 ++ more)
  | ch :: text, r, more, h => by
    rw [unpackLine] at h
    rw [cons_append, unpackLine]
    split_ifs at h ⊢ with hten
    · cases h
      rfl
    · obtain ⟨r', hr', rfl⟩ := map_eq_some_iff.1 h
      rw [unpackLine_append more hr']
      rfl

theorem agreed_append {p : Bytes × Bytes} (more : Bytes) (h : client.agreed text = some p) :
    client.agreed (text ++ more) = some p := by
  rw [Client.agreed] at h ⊢
  obtain ⟨⟨line, rest⟩, hline, h⟩ := bind_eq_some_iff.1 h
  rw [unpackLine_append more hline, bind_some]
  dsimp only at h ⊢
  cases hc : base64decode line with
  | error e => simp [hc] at h
  | ok challenge =>
    simp only [hc] at h ⊢
    obtain ⟨⟨line', rest'⟩, hline', h⟩ := bind_eq_some_iff.1 h
    rw [unpackLine_append more hline', bind_some]
    exact h

/-- The slave and the client have the same secret. -/
def Conn.Shared (c : Conn σ κ) (client : Client) (secret : Bytes) : Prop :=
  secret.length = 8 ∧ c.challenge.length = 8 ∧ ∃ key, client.secret (base64encode key) = some secret
    ∧ c.written = [base64encode c.challenge ++ newline, base64encode key ++ newline]

/-- What a connection with `client` has come to. -/
def Conn.Along (c : Conn σ κ) (client : Client) : Prop :=
  match c.phase with
  | .idle | .starting => c.lines = [] ∧ c.written = []
  | .handshake => c.lines = [] ∧ c.challenge.length = 8
      ∧ c.written = [base64encode c.challenge ++ newline]
  | .response secret => c.lines.length = 1 ∧ c.Shared client secret
  | .token secret => c.lines.length = 2 ∧ c.Shared client secret
  | .auth token secret => token = client.token ∧ c.Shared client secret
  | .replied (.accepted _ _ secret) | .login _ _ secret => c.Shared client secret
  | .replied .rejected => False
  | _ => True

structure Fair (client : Client) (c : Conn σ κ) : Prop where
  along : c.Along client
  accepted : ∀ p ∈ c.accepted, p.1 = client.token
  called : ∀ p ∈ c.called, client.agreed c.written.flatten = some (c.challenge, p.2.2)
  notRefused : ∀ line ∈ c.written, refused line = false

variable {c c' : Conn σ κ} {fd : ℕ} {up : Bool} {s t : State σ κ}

theorem refused_base64 (x : Bytes) : refused (base64encode x ++ newline) = false := by
  refine Bool.of_not_eq_true fun hbad => Bool.eq_false_iff.1 (isStatus_base64 x) ?_
  obtain ⟨code, hcode, hline⟩ := List.any_eq_true.1 hbad
  have hmem : ∀ code ∈ ["400 ", "401 "], code ∈ ["200 ", "400 ", "401 ", "403 ", "406 "] := by decide
  exact List.any_eq_true.2 ⟨code, hmem code hcode, hline⟩

theorem refused_200 (x : Bytes) : refused (Bytes.ascii "200 " ++ x) = false := rfl

theorem agreed_of_shared {secret : Bytes} (h : c.Shared client secret) :
    client.agreed c.written.flatten = some (c.challenge, secret) := by
  obtain ⟨-, -, key, hsecret, hwritten⟩ := h
  have hkey := unpackLine_line [] (ten_notMem_base64encode key)
  rw [append_nil] at hkey
  rw [hwritten, flatten_cons, flatten_singleton, Client.agreed,
    unpackLine_line _ (ten_notMem_base64encode _), bind_some]
  simp only [base64decode_base64encode, hkey, bind_some, hsecret, map_some]

theorem sent_key {e : Bytes} (client : Client) (written : List Bytes) (challenge : Bytes)
    (he : Crypt.dhexchange client.clientkey = some (.ok e)) :
    (client.sent ((base64encode challenge ++ newline) :: written).flatten)[0]?
      = some (base64encode e) := by
  rw [flatten_cons, Client.sent, unpackLine_line _ (ten_notMem_base64encode _)]
  simp only [base64decode_base64encode, he, List.getElem?_cons_zero]

theorem sent_answers {secret e hmac etoken : Bytes} (h : c.Shared client secret)
    (he : Crypt.dhexchange client.clientkey = some (.ok e))
    (hhmac : Hmac.hmac64 c.challenge secret = .ok hmac)
    (htoken : Des.desencode (fun _ => 0) secret client.token = some (.ok etoken)) :
    client.sent c.written.flatten = [base64encode e, base64encode hmac, base64encode etoken] := by
  have hagreed := agreed_of_shared h
  obtain ⟨-, -, key, -, hwritten⟩ := h
  rw [hwritten] at hagreed ⊢
  rw [flatten_cons] at hagreed ⊢
  rw [Client.sent, unpackLine_line _ (ten_notMem_base64encode _)]
  simp only [base64decode_base64encode, he, hagreed, Client.answers, hhmac, htoken]

theorem Conn.Shared.answers {secret : Bytes} (h : c.Shared client secret)
    (hclient : client.random.length = 8) (htoken : client.token.length < 2 ^ 31) :
    ∃ e hmac etoken,
      client.sent c.written.flatten = [base64encode e, base64encode hmac, base64encode etoken]
        ∧ Hmac.hmac64 c.challenge secret = .ok hmac ∧ hmac.length = 8
        ∧ etoken.length = 8 * (client.token.length / 8 + 1)
        ∧ Conn.decrypt secret etoken = some client.token := by
  obtain ⟨e, -, -, he, -⟩ := exchange hclient hclient
  obtain ⟨hmac, hhmac, height⟩ := hmac64_ok h.2.1 h.1
  obtain ⟨etoken, hetoken, hlength, hdecrypt⟩ := desencode_ok h.1 htoken
  exact ⟨e, hmac, etoken, sent_answers h he hhmac hetoken, hhmac, height, hlength, hdecrypt⟩

theorem Fair.goes (h : Fair client c) (halong : c'.Along client)
    (haccepted : c'.accepted = c.accepted) (hcalled : c'.called = c.called)
    (hchallenge : c'.challenge = c.challenge) {more : List Bytes}
    (hwritten : c'.written = c.written ++ more) (hmore : ∀ line ∈ more, refused line = false) :
    Fair client c' := by
  refine ⟨halong, haccepted ▸ h.accepted, fun p hp => ?_, fun line hin => ?_⟩
  · rw [hwritten, flatten_append, hchallenge]
    exact agreed_append _ (h.called p (hcalled ▸ hp))
  · rcases mem_append.1 (hwritten ▸ hin) with hin | hin
    · exact h.notRefused line hin
    · exact hmore line hin

theorem Fair.quiet (h : Fair client c) (halong : c'.Along client)
    (haccepted : c'.accepted = c.accepted) (hcalled : c'.called = c.called)
    (hchallenge : c'.challenge = c.challenge) (hwritten : c'.written = c.written) :
    Fair client c' :=
  h.goes halong haccepted hcalled hchallenge (hwritten.trans (append_nil _).symm)
    fun _ hin => absurd hin not_mem_nil

theorem Fair.socketError (h : Fair client c) (lines : List Bytes) :
    Fair client ({ c with lines := lines }.reply .socketError) :=
  h.quiet trivial rfl rfl rfl rfl

theorem Fair.authStart {random : Bytes} (h : Fair client c) (hphase : c.phase = .starting)
    (hrandom : random.length = 8) : Fair client (c.authStart random up) := by
  have halong := h.along
  simp only [Conn.Along, hphase] at halong
  cases up with
  | false => exact h.socketError c.lines
  | true =>
    refine ⟨⟨halong.1, (length_randomkey random).trans hrandom, ?_⟩, h.accepted, fun p hp => ?_,
      fun line hin => ?_⟩
    · change c.written ++ _ = _
      rw [halong.2, nil_append]
      rfl
    · have hagreed := h.called p hp
      rw [halong.2] at hagreed
      cases hagreed
    · change line ∈ c.written ++ _ at hin
      rw [halong.2, nil_append, mem_singleton] at hin
      exact hin ▸ refused_base64 _

theorem Fair.authHandshake {random : Bytes} (h : Fair client c) (hphase : c.phase = .handshake)
    (hclient : client.random.length = 8) (hrandom : random.length = 8)
    (hline : (client.sent c.written.flatten)[c.lines.length]? = some text) :
    Fair client ({ c with lines := c.lines ++ [text] }.authHandshake text random up) := by
  have halong := h.along
  simp only [Conn.Along, hphase] at halong
  obtain ⟨hlines, hchallenge, hwritten⟩ := halong
  obtain ⟨e, key, secret, he, hkey, hlength, hserver, hsecret, height⟩ := exchange hclient hrandom
  rw [hwritten, hlines, length_nil, sent_key client [] c.challenge he] at hline
  obtain rfl := some.inj hline
  simp only [Conn.authHandshake, base64decode_base64encode, hlength, ne_eq, not_true_eq_false,
    if_false, hkey]
  cases up with
  | false => exact h.socketError _
  | true =>
    simp only [Conn.write, if_true, hserver]
    refine h.goes ⟨?_, height, hchallenge, key, ?_, ?_⟩ rfl rfl rfl rfl
      (fun line hin => mem_singleton.1 hin ▸ refused_base64 _)
    · rw [hlines]
      rfl
    · simp only [Client.secret, base64decode_base64encode, Client.clientkey, hsecret]
    · rw [hwritten]
      rfl

theorem Fair.authResponse {secret : Bytes} (h : Fair client c) (hphase : c.phase = .response secret)
    (hclient : client.random.length = 8) (htoken : client.token.length < 2 ^ 31)
    (hline : (client.sent c.written.flatten)[c.lines.length]? = some text) :
    Fair client ({ c with lines := c.lines ++ [text] }.authResponse secret text up) := by
  have halong := h.along
  simp only [Conn.Along, hphase] at halong
  obtain ⟨hlines, hshared⟩ := halong
  obtain ⟨e, hmac, etoken, hsent, hhmac, -⟩ := hshared.answers hclient htoken
  rw [hsent, hlines] at hline
  obtain rfl := some.inj hline
  simp only [Conn.authResponse, hhmac, base64decode_base64encode, ne_eq, not_true_eq_false, if_false]
  refine h.quiet ⟨?_, hshared⟩ rfl rfl rfl rfl
  rw [length_append, hlines]
  rfl

theorem Fair.authToken {secret : Bytes} (h : Fair client c) (hphase : c.phase = .token secret)
    (hclient : client.random.length = 8) (htoken : client.token.length < 2 ^ 31)
    (hline : (client.sent c.written.flatten)[c.lines.length]? = some text) :
    Fair client ({ c with lines := c.lines ++ [text] }.authToken secret text) := by
  have halong := h.along
  simp only [Conn.Along, hphase] at halong
  obtain ⟨hlines, hshared⟩ := halong
  obtain ⟨e, hmac, etoken, hsent, -, -, -, hdecrypt⟩ := hshared.answers hclient htoken
  rw [hsent, hlines] at hline
  obtain rfl := some.inj hline
  simp only [Conn.authToken, base64decode_base64encode, hdecrypt]
  exact h.quiet ⟨rfl, hshared⟩ rfl rfl rfl rfl

theorem Fair.read {random : Bytes} (h : Fair client c) (hclient : client.random.length = 8)
    (htoken : client.token.length < 2 ^ 31) (hrandom : random.length = 8)
    (hline : (client.sent c.written.flatten)[c.lines.length]? = some text)
    (hread : c.read text random up = some c') : Fair client c' := by
  cases hphase : c.phase with
  | handshake =>
    simp only [Conn.read, hphase, some.injEq] at hread
    exact hread ▸ h.authHandshake hphase hclient hrandom hline
  | response secret =>
    simp only [Conn.read, hphase, some.injEq] at hread
    exact hread ▸ h.authResponse hphase hclient htoken hline
  | token secret =>
    simp only [Conn.read, hphase, some.injEq] at hread
    exact hread ▸ h.authToken hphase hclient htoken hline
  | _ => simp [Conn.read, hphase] at hread

theorem Fair.answer (h : Fair client c) (up : Bool) {line : Bytes} (hline : refused line = false) :
    Fair client (c.answer up line) := by
  cases up with
  | true => exact h.goes trivial rfl rfl rfl rfl fun _ hin => mem_singleton.1 hin ▸ hline
  | false => exact h.quiet trivial rfl rfl rfl rfl

theorem Fair.close (h : Fair client c) : Fair client { c with phase := .closed } :=
  h.quiet trivial rfl rfl rfl rfl

theorem Fair.call {server : σ} {uid : Option κ} {secret : Bytes} (h : Fair client c)
    (hshared : c.Shared client secret) : Fair client (c.call server uid secret) := by
  refine ⟨hshared, h.accepted, fun p hp => ?_, h.notRefused⟩
  rcases mem_append.1 hp with hp | hp
  · exact h.called p hp
  · obtain rfl := mem_singleton.1 hp
    exact agreed_of_shared hshared

theorem Fair.loginReturn (h : Fair client c) (up : Bool) :
    ∀ r, Fair client (c.loginReturn up r)
  | .raises => h.answer up (by decide)
  | .empty => by
    rw [Conn.loginReturn, append_assoc]
    exact h.answer up (refused_200 _)
  | .text err => by
    rw [Conn.loginReturn, append_assoc]
    split_ifs
    · exact h.answer up (refused_200 _)
    · exact h.close
  | .other => h.close

section Step

variable [DecidableEq κ]

end Step

theorem length_base64encode_lt {x : Bytes} (h : x.length < 6142) :
    (base64encode x).length < bufferLimit := by
  rw [Base64.length_base64encode, bufferLimit]
  omega

theorem Fair.answered (h : Fair client c) (hclient : client.random.length = 8)
    (htoken : client.token.length < 6136) (hreads : c.phase.reads = true) : ∃ line,
    (client.sent c.written.flatten)[c.lines.length]? = some line ∧ line.length < bufferLimit := by
  have halong := h.along
  cases hphase : c.phase with
  | handshake =>
    simp only [Conn.Along, hphase] at halong
    obtain ⟨e, -, -, he, -, hlength, -⟩ := exchange hclient hclient
    rw [halong.1, halong.2.2]
    exact ⟨_, sent_key client [] c.challenge he, length_base64encode_lt (by omega)⟩
  | response secret =>
    simp only [Conn.Along, hphase] at halong
    obtain ⟨e, hmac, etoken, hsent, -, height, -⟩ := halong.2.answers hclient (by omega)
    rw [hsent, halong.1]
    exact ⟨_, rfl, length_base64encode_lt (by omega)⟩
  | token secret =>
    simp only [Conn.Along, hphase] at halong
    obtain ⟨e, hmac, etoken, hsent, -, -, hlength, -⟩ := halong.2.answers hclient (by omega)
    rw [hsent, halong.1]
    exact ⟨_, rfl, length_base64encode_lt (by omega)⟩
  | _ =>
    rw [hphase] at hreads
    cases hreads

theorem Fair.subid {server : σ} {uid : Option κ} {secret err : Bytes} (h : Fair client c)
    (hphase : c.phase = .login server uid secret) (herr : Base64.Encodable err) :
    Client.subid (c.loginReturn true (.text err)).written.flatten = some err := by
  have halong := h.along
  simp only [Conn.Along, hphase] at halong
  obtain ⟨-, -, key, -, hwritten⟩ := halong
  have hnot : 10 ∉ Bytes.ascii "200 " ++ base64encode err := by
    intro hin
    rcases mem_append.1 hin with hin | hin
    · exact absurd hin (by decide)
    · exact ten_notMem_base64encode _ hin
  have hlast := unpackLine_line [] hnot
  rw [append_nil] at hlast
  rw [Conn.loginReturn, if_pos herr]
  simp only [Conn.answer, if_true, hwritten, cons_append, nil_append, flatten_cons,
    flatten_nil, append_nil, Client.subid, unpackLine_line _ (ten_notMem_base64encode _),
    hlast, bind_some]
  rw [if_pos (by rfl)]
  change (base64decode (base64encode err)).toOption = _
  rw [base64decode_base64encode]
  rfl

theorem Fair.served (h : Fair client c) (hclient : client.random.length = 8)
    (htoken : client.token.length < 6136) : Served client c :=
  ⟨h.accepted, h.called, h.notRefused, h.answered hclient htoken, fun _ _ _ _ => h.subid⟩

end LoginServer

end SkynetGame
