import SkynetGame.LoginServer
import SkynetGame.Proofs.Base64
import SkynetGame.Proofs.Des

/-!
# The login server

What a connection has come to allows for what it does next (`Conn.Reached`), so each step of the slave
leaves a connection fine, and the master locks a uid around `login_handler` (`Locks`).
-/

namespace SkynetGame

open Function List Option

namespace LoginServer

open Base64 (base64encode base64decode Encodable)

variable {σ κ : Type*}

/-! ## Status lines -/

theorem space_notMem_base64encode (x : Bytes) : 32 ∉ base64encode x :=
  fun hin => Base64.b64index_base64encode x 32 hin (by decide)

theorem space_mem_of_isStatus {line : Bytes} (h : isStatus line = true) : 32 ∈ line := by
  obtain ⟨code, hcode, hline⟩ := List.any_eq_true.1 h
  have hspace : ∀ code ∈ ["200 ", "400 ", "401 ", "403 ", "406 "], 32 ∈ Bytes.ascii code := by
    decide
  exact (List.isPrefixOf_iff_prefix.1 hline).subset (hspace code hcode)

theorem isStatus_base64 (x : Bytes) : isStatus (base64encode x ++ newline) = false := by
  refine Bool.of_not_eq_true fun hbad => ?_
  rcases mem_append.1 (space_mem_of_isStatus hbad) with h | h
  · exact space_notMem_base64encode x h
  · cases mem_singleton.1 h

theorem isStatus_200 (text : Bytes) : isStatus (Bytes.ascii "200 " ++ text) = true := by
  refine List.any_eq_true.2 ⟨"200 ", mem_cons_self, ?_⟩
  exact isPrefixOf_iff_prefix.2 (prefix_append _ _)

/-! ## The slave -/

def Conn.Reached (c : Conn σ κ) : Prop :=
  match c.phase with
  | .idle | .starting => c.lines = [] ∧ c.written = []
  | .handshake => c.lines = [] ∧ c.written = [base64encode c.challenge ++ newline]
  | .response secret => ∃ handshake, c.lines = [handshake] ∧ Agreed c handshake secret
  | .token secret => ∃ handshake response, c.lines = [handshake, response]
      ∧ Agreed c handshake secret ∧ Proved c response secret
  | .auth token secret => ∃ handshake response etoken, c.lines = [handshake, response, etoken]
      ∧ Agreed c handshake secret ∧ Proved c response secret ∧ Decrypted etoken secret token
  | .replied (.accepted server uid secret) => Justified c server uid secret
      ∧ (uid.isSome = true ∨ c.lost = true)
  | .replied .dead | .replied .socketError => c.lost = true
  | .login _ uid _ => uid.isSome = true ∨ c.lost = true
  | _ => True

/-- Whether a connection has not come to `login_handler`. -/
def Phase.early : Phase σ κ → Bool
  | .login _ _ _ | .closed => false
  | _ => true

structure Fine (c : Conn σ κ) : Prop where
  reached : c.Reached
  called : ∀ p ∈ c.called, Justified c p.1 p.2.1 p.2.2
  fresh : c.phase.early = true → c.called = []
  once : c.called.length ≤ 1
  closed : c.lost = false → c.phase = .closed → (c.written.filter isStatus).length = 1
  before : c.lost = false → c.phase ≠ .closed → c.written.filter isStatus = []

/-- A step of the slave on a connection. -/
structure Goes (c c' : Conn σ κ) : Prop where
  early : c'.phase.early = true
  called : c'.called = c.called
  lost : c'.lost = c.lost
  reached : c'.Reached
  status : c.lost = false → c'.written.filter isStatus = []

variable {c c' : Conn σ κ} {up : Bool}

theorem early_ne_closed (h : c.phase.early = true) : c.phase ≠ .closed := by
  intro hbad
  rw [hbad] at h
  cases h

theorem Fine.goes (h : Fine c) (hearly : c.phase.early = true) (hgoes : Goes c c') : Fine c' := by
  have hnil : c'.called = [] := hgoes.called.trans (h.fresh hearly)
  refine ⟨hgoes.reached, fun p hp => ?_, fun _ => hnil, ?_, fun _ hbad => ?_, fun hlost _ => ?_⟩
  · rw [hnil] at hp
    exact absurd hp not_mem_nil
  · rw [hnil]
    exact Nat.zero_le 1
  · exact absurd hbad (early_ne_closed hgoes.early)
  · exact hgoes.status (hgoes.lost.symm.trans hlost)

theorem Fine.status (h : Fine c) (hearly : c.phase.early = true) (hlost : c.lost = false) :
    c.written.filter isStatus = [] := h.before hlost (early_ne_closed hearly)

theorem goes_reply {r : Reply σ κ} (hcalled : c'.called = c.called) (hlost : c'.lost = c.lost)
    (hstatus : c.lost = false → c'.written.filter isStatus = [])
    (hr : (c'.reply r).Reached) : Goes c (c'.reply r) :=
  ⟨rfl, hcalled, hlost, hr, hstatus⟩

theorem filter_append_status {l : List Bytes} (h : l.filter isStatus = []) (x : Bytes) :
    (l ++ [base64encode x ++ newline]).filter isStatus = [] := by
  rw [filter_append, h, filter_singleton, isStatus_base64]
  rfl

theorem Conn.MayWrite.lost (h : c.MayWrite false) : c.lost = true :=
  h.resolve_left fun hbad => nomatch hbad

theorem goes_authStart (h : Fine c) (hphase : c.phase = .starting) (hmay : c.MayWrite up)
    (random : Bytes) :
    Goes c (c.authStart random up) := by
  have hearly : c.phase.early = true := by rw [hphase]; rfl
  have hreached := h.reached
  simp only [Conn.Reached, hphase] at hreached
  obtain ⟨hlines, hwritten⟩ := hreached
  cases up with
  | false => exact goes_reply rfl rfl (h.status hearly) hmay.lost
  | true =>
    refine ⟨rfl, rfl, rfl, ⟨hlines, ?_⟩, fun hlost => filter_append_status (h.status hearly hlost) _⟩
    exact congrArg (· ++ [base64encode (randomkey random) ++ newline]) hwritten

theorem goes_authHandshake (h : Fine c) (hphase : c.phase = .handshake) (hmay : c.MayWrite up)
    (line random : Bytes) :
    Goes c ({ c with lines := c.lines ++ [line] }.authHandshake line random up) := by
  have hearly : c.phase.early = true := by rw [hphase]; rfl
  have hreached := h.reached
  simp only [Conn.Reached, hphase] at hreached
  obtain ⟨hlines, hwritten⟩ := hreached
  have hstatus := h.status hearly
  rw [Conn.authHandshake]
  cases hkey : base64decode line with
  | error m => exact goes_reply rfl rfl hstatus trivial
  | ok clientkey =>
    simp only []
    by_cases hlen : clientkey.length ≠ 8
    · rw [if_pos hlen]
      exact goes_reply rfl rfl hstatus trivial
    · rw [if_neg hlen]
      cases hexchange : Crypt.dhexchange (randomkey random) with
      | none => exact goes_reply rfl rfl hstatus trivial
      | some e =>
        cases e with
        | error m => exact goes_reply rfl rfl hstatus trivial
        | ok e =>
          cases up with
          | false => exact goes_reply rfl rfl hstatus hmay.lost
          | true =>
            have hstatus' := fun hlost => filter_append_status (hstatus hlost) e
            simp only [Conn.write, if_true]
            cases hsecret : Crypt.dhsecret clientkey (randomkey random) with
            | none => exact goes_reply rfl rfl hstatus' trivial
            | some secret =>
              cases secret with
              | error m => exact goes_reply rfl rfl hstatus' trivial
              | ok secret =>
                refine ⟨rfl, rfl, rfl, ⟨line, congrArg (· ++ [line]) hlines, clientkey, e, hkey,
                  not_not.1 hlen, hexchange, ?_, hsecret⟩, hstatus'⟩
                rw [hwritten]
                exact prefix_rfl

theorem goes_authResponse {secret : Bytes} (h : Fine c) (hphase : c.phase = .response secret)
    (hmay : c.MayWrite up) (line : Bytes) (htame : ∀ hmac r, Hmac.hmac64 c.challenge secret = .ok hmac →
      base64decode line = .ok r → r = hmac ∨ c.lost = true) :
    Goes c ({ c with lines := c.lines ++ [line] }.authResponse secret line up) := by
  have hearly : c.phase.early = true := by rw [hphase]; rfl
  have hreached := h.reached
  simp only [Conn.Reached, hphase] at hreached
  obtain ⟨handshake, hlines, hagreed⟩ := hreached
  have hstatus := h.status hearly
  rw [Conn.authResponse]
  simp only []
  cases hhmac : Hmac.hmac64 c.challenge secret with
  | error m => exact goes_reply rfl rfl hstatus trivial
  | ok hmac =>
    cases hr : base64decode line with
    | error m => exact goes_reply rfl rfl hstatus trivial
    | ok r =>
      simp only []
      by_cases hne : hmac ≠ r
      · rw [if_pos hne]
        have hlost : c.lost = true :=
          (htame hmac r hhmac hr).resolve_left fun he => hne he.symm
        cases up with
        | false => exact goes_reply rfl rfl hstatus hmay.lost
        | true =>
          refine goes_reply rfl rfl (fun hbad => ?_) trivial
          cases hlost.symm.trans hbad
      · rw [if_neg hne]
        obtain rfl := not_not.1 hne
        refine ⟨rfl, rfl, rfl, ⟨handshake, line, congrArg (· ++ [line]) hlines, hagreed, hmac, hhmac,
          hr⟩, hstatus⟩

theorem goes_authToken {secret : Bytes} (h : Fine c) (hphase : c.phase = .token secret)
    (line : Bytes) : Goes c ({ c with lines := c.lines ++ [line] }.authToken secret line) := by
  have hearly : c.phase.early = true := by rw [hphase]; rfl
  have hreached := h.reached
  simp only [Conn.Reached, hphase] at hreached
  obtain ⟨handshake, response, hlines, hagreed, hproved⟩ := hreached
  have hstatus := h.status hearly
  rw [Conn.authToken]
  cases htext : base64decode line with
  | error m => exact goes_reply rfl rfl hstatus trivial
  | ok text =>
    simp only []
    cases htoken : Conn.decrypt secret text with
    | none => exact goes_reply rfl rfl hstatus trivial
    | some token =>
      exact ⟨rfl, rfl, rfl, ⟨handshake, response, line, congrArg (· ++ [line]) hlines, hagreed,
        hproved, text, htext, htoken⟩, hstatus⟩

theorem goes_authReturn {token secret : Bytes} {r : AuthResult σ κ} (h : Fine c)
    (hphase : c.phase = .auth token secret)
    (htame : ∀ server uid, r = .returns server uid → uid.isSome = true ∨ c.lost = true) :
    Goes c (c.authReturn token secret r) := by
  have hearly : c.phase.early = true := by rw [hphase]; rfl
  have hreached := h.reached
  simp only [Conn.Reached, hphase] at hreached
  obtain ⟨handshake, response, etoken, hlines, hagreed, hproved, htoken⟩ := hreached
  have hstatus := h.status hearly
  cases r with
  | raises => exact goes_reply rfl rfl hstatus trivial
  | unpackable => exact goes_reply rfl rfl hstatus trivial
  | returns server uid =>
    refine ⟨rfl, rfl, rfl, ⟨⟨handshake, response, etoken, token, hlines, hagreed, hproved, htoken,
      ?_⟩, htame server uid rfl⟩, hstatus⟩
    exact mem_append_right _ (mem_singleton.2 rfl)

/-! ## The master -/

theorem Justified.mono {server : σ} {uid : Option κ} {secret : Bytes}
    (h : Justified c server uid secret) (hlines : c'.lines = c.lines)
    (hchallenge : c'.challenge = c.challenge) (hserverkey : c'.serverkey = c.serverkey)
    (haccepted : c'.accepted = c.accepted) (hwritten : c.written <+: c'.written) :
    Justified c' server uid secret := by
  obtain ⟨handshake, response, etoken, token, hl, ⟨clientkey, e, hk, hlen, he, hw, hs⟩, hp, hd, ha⟩ := h
  refine ⟨handshake, response, etoken, token, hlines.trans hl,
    ⟨clientkey, e, hk, hlen, ?_, ?_, ?_⟩, ?_, hd, ?_⟩
  · rw [hserverkey, he]
  · rw [hchallenge]
    exact hw.trans hwritten
  · rw [hserverkey, hs]
  · rw [Proved, hchallenge]
    exact hp
  · rw [haccepted]
    exact ha

theorem fine_closed (h : Fine c) (hphase : c.phase ≠ .closed) (hphase' : c'.phase = .closed)
    (hlines : c'.lines = c.lines) (hchallenge : c'.challenge = c.challenge)
    (hserverkey : c'.serverkey = c.serverkey) (haccepted : c'.accepted = c.accepted)
    (hcalled : c'.called = c.called) (hlost : c'.lost = c.lost)
    (hwritten : c'.written = c.written
      ∨ ∃ line, isStatus line = true ∧ c'.written = c.written ++ [line])
    (hstatus : c.lost = false →
      ∃ line, isStatus line = true ∧ c'.written = c.written ++ [line]) : Fine c' := by
  have hgrows : c.written <+: c'.written := by
    rcases hwritten with hw | ⟨line, -, hw⟩
    · rw [hw]
    · rw [hw]
      exact prefix_append _ _
  refine ⟨?_, fun p hp => ?_, fun hbad => ?_, hcalled ▸ h.once, fun hl _ => ?_,
    fun _ hbad => absurd hphase' hbad⟩
  · simp only [Conn.Reached, hphase']
  · exact (h.called p (hcalled ▸ hp)).mono hlines hchallenge hserverkey haccepted hgrows
  · rw [hphase'] at hbad
    cases hbad
  · have hl : c.lost = false := hlost.symm.trans hl
    obtain ⟨line, hline, hw⟩ := hstatus hl
    rw [hw, filter_append, h.before hl hphase, filter_singleton, hline]
    rfl

theorem fine_answer {text : Bytes} (h : Fine c) (hphase : c.phase ≠ .closed)
    (hmay : c.MayWrite up) (htext : isStatus text = true) : Fine (c.answer up text) := by
  refine fine_closed h hphase rfl rfl rfl rfl rfl rfl rfl ?_ fun hlost => ?_
  · cases up with
    | false => exact .inl rfl
    | true => exact .inr ⟨text, htext, rfl⟩
  · have hup : up = true := hmay.resolve_right fun hbad => by cases hlost.symm.trans hbad
    subst hup
    exact ⟨text, htext, rfl⟩

theorem fine_dropped (h : Fine c) (hphase : c.phase ≠ .closed) (hlost : c.lost = true) :
    Fine { c with phase := .closed } :=
  fine_closed h hphase rfl rfl rfl rfl rfl rfl rfl (.inl rfl) fun hbad => by
    cases hlost.symm.trans hbad

theorem fine_call {server : σ} {uid : Option κ} {secret : Bytes} (h : Fine c)
    (hphase : c.phase = .replied (.accepted server uid secret)) : Fine (c.call server uid secret) := by
  have hearly : c.phase.early = true := by rw [hphase]; rfl
  have hreached := h.reached
  simp only [Conn.Reached, hphase] at hreached
  have hcalled : (c.call server uid secret).called = [(server, uid, secret)] :=
    congrArg (· ++ [(server, uid, secret)]) (h.fresh hearly)
  refine ⟨hreached.2, fun p hp => ?_, (fun hbad => nomatch hbad), ?_, (fun _ hbad => nomatch hbad),
    fun hlost _ => h.status hearly hlost⟩
  · rw [hcalled] at hp
    rw [mem_singleton.1 hp]
    exact hreached.1.mono rfl rfl rfl rfl prefix_rfl
  · rw [hcalled]
    exact le_rfl

theorem fine_loginReturn {r : LoginResult} (h : Fine c) (hphase : c.phase ≠ .closed)
    (hmay : c.MayWrite up) (htext : ∀ err, r = .text err → Encodable err ∨ c.lost = true)
    (hother : r = .other → c.lost = true) : Fine (c.loginReturn up r) := by
  cases r with
  | raises => exact fine_answer h hphase hmay (by decide)
  | empty =>
    refine fine_answer h hphase hmay ?_
    rw [append_assoc]
    exact isStatus_200 _
  | text err =>
    rw [Conn.loginReturn]
    by_cases hfits : Encodable err
    · rw [if_pos hfits, append_assoc]
      exact fine_answer h hphase hmay (isStatus_200 _)
    · rw [if_neg hfits]
      exact fine_dropped h hphase ((htext err rfl).resolve_left hfits)
  | other => exact fine_dropped h hphase (hother rfl)

theorem fine_lose (h : Fine c) : Fine { c with lost := true } := by
  refine ⟨?_, h.called, h.fresh, h.once, (fun hbad => nomatch hbad), fun hbad => nomatch hbad⟩
  have hreached := h.reached
  cases hphase : c.phase with
  | replied r =>
    cases r with
    | accepted server uid secret =>
      simp only [Conn.Reached, hphase] at hreached ⊢
      exact ⟨hreached.1, .inr trivial⟩
    | _ => simp only [Conn.Reached]
  | login server uid secret => simp only [Conn.Reached, or_true]
  | closed => simp only [Conn.Reached]
  | _ =>
    simp only [Conn.Reached, hphase] at hreached ⊢
    exact hreached

/-! ## The steps -/

variable {s t : State σ κ} {fd : ℕ}

/-- A uid is locked while `login_handler` is at work for it, for one connection; with `multilogin`
nothing is locked. -/
structure Locks (s : State σ κ) : Prop where
  alone : s.multilogin = false → ∀ fd fd' uid, (s.conns fd).LogsIn uid →
    (s.conns fd').LogsIn uid → fd = fd'
  held : s.multilogin = false → ∀ fd uid, (s.conns fd).LogsIn uid → s.userLogin uid = true
  unlocked : ∀ uid, s.userLogin uid = true → ∃ fd, (s.conns fd).LogsIn uid
  free : s.multilogin = true → ∀ uid, s.userLogin uid = false

structure Inv (s : State σ κ) : Prop where
  fine : ∀ fd, Fine (s.conns fd)
  locks : Locks s

theorem setConn_self (s : State σ κ) (fd : ℕ) (c : Conn σ κ) : (s.setConn fd c).conns fd = c :=
  update_self ..

theorem setConn_of_ne {fd' : ℕ} (s : State σ κ) (c : Conn σ κ) (h : fd' ≠ fd) :
    (s.setConn fd c).conns fd' = s.conns fd' := update_of_ne h ..

theorem fine_setConn (h : ∀ fd, Fine (s.conns fd)) (hc : Fine c) (fd' : ℕ) :
    Fine ((s.setConn fd c).conns fd') := by
  rcases eq_or_ne fd' fd with rfl | hne
  · rw [setConn_self]
    exact hc
  · rw [setConn_of_ne s c hne]
    exact h fd'

theorem logsIn_setConn {fd' : ℕ} {uid : κ} (hnew : ∀ uid, ¬ c.LogsIn uid)
    (h : ((s.setConn fd c).conns fd').LogsIn uid) : fd' ≠ fd ∧ (s.conns fd').LogsIn uid := by
  rcases eq_or_ne fd' fd with rfl | hne
  · rw [setConn_self] at h
    exact absurd h (hnew uid)
  · rw [setConn_of_ne s c hne] at h
    exact ⟨hne, h⟩

theorem locks_setConn (h : Locks s) (hold : ∀ uid, ¬ (s.conns fd).LogsIn uid)
    (hnew : ∀ uid, ¬ c.LogsIn uid) : Locks (s.setConn fd c) := by
  refine ⟨fun hm fd₁ fd₂ uid h₁ h₂ => ?_, fun hm fd₁ uid h₁ => ?_, fun uid huid => ?_, h.free⟩
  · exact h.alone hm fd₁ fd₂ uid (logsIn_setConn hnew h₁).2 (logsIn_setConn hnew h₂).2
  · exact h.held hm fd₁ uid (logsIn_setConn hnew h₁).2
  · obtain ⟨fd', hlogs⟩ := h.unlocked uid huid
    have hne : fd' ≠ fd := by
      rintro rfl
      exact hold uid hlogs
    exact ⟨fd', (setConn_of_ne s c hne).symm ▸ hlogs⟩

theorem not_logsIn_of_early (h : c.phase.early = true) (uid : κ) : ¬ c.LogsIn uid := by
  rintro ⟨server, secret, hphase⟩
  rw [hphase] at h
  cases h

theorem not_logsIn_of_closed (h : c.phase = .closed) (uid : κ) : ¬ c.LogsIn uid := by
  rintro ⟨server, secret, hphase⟩
  cases h.symm.trans hphase

theorem inv_goes (h : Inv s) (hearly : (s.conns fd).phase.early = true)
    (hgoes : Goes (s.conns fd) c) : Inv (s.setConn fd c) :=
  ⟨fine_setConn h.fine ((h.fine fd).goes hearly hgoes),
    locks_setConn h.locks (not_logsIn_of_early hearly) (not_logsIn_of_early hgoes.early)⟩

theorem inv_closed (h : Inv s) (hearly : (s.conns fd).phase.early = true) (hc : Fine c)
    (hclosed : c.phase = .closed) : Inv (s.setConn fd c) :=
  ⟨fine_setConn h.fine hc,
    locks_setConn h.locks (not_logsIn_of_early hearly) (not_logsIn_of_closed hclosed)⟩

theorem logsIn_call {server : σ} {uid : Option κ} {secret : Bytes} {k : κ} :
    (c.call server uid secret).LogsIn k ↔ uid = some k := by
  constructor
  · rintro ⟨_, _, h⟩
    cases h
    rfl
  · rintro rfl
    exact ⟨server, secret, rfl⟩

section Lock

variable [DecidableEq κ] {k : κ}

theorem locks_call {server : σ} {secret : Bytes} (h : Locks s)
    (hold : ∀ uid, ¬ (s.conns fd).LogsIn uid) (hfree : s.userLogin k = false)
    (hm : s.multilogin = false) : Locks { s.setConn fd (c.call server (some k) secret) with
      userLogin := update s.userLogin k true } := by
  have hconns : ∀ fd' uid, ((s.setConn fd (c.call server (some k) secret)).conns fd').LogsIn uid →
      fd' = fd ∧ uid = k ∨ fd' ≠ fd ∧ uid ≠ k ∧ (s.conns fd').LogsIn uid := by
    intro fd' uid hlogs
    rcases eq_or_ne fd' fd with rfl | hne
    · rw [setConn_self] at hlogs
      exact .inl ⟨rfl, (some.inj (logsIn_call.1 hlogs)).symm⟩
    · rw [setConn_of_ne s _ hne] at hlogs
      refine .inr ⟨hne, ?_, hlogs⟩
      rintro rfl
      cases hfree.symm.trans (h.held hm fd' uid hlogs)
  refine ⟨fun _ fd₁ fd₂ uid h₁ h₂ => ?_, fun _ fd₁ uid h₁ => ?_, fun uid huid => ?_,
    fun hbad => ?_⟩
  · rcases hconns fd₁ uid h₁ with ⟨rfl, rfl⟩ | ⟨-, hne, h₁⟩
    · rcases hconns fd₂ uid h₂ with ⟨rfl, -⟩ | ⟨-, hne, -⟩
      · rfl
      · exact absurd rfl hne
    · rcases hconns fd₂ uid h₂ with ⟨-, rfl⟩ | ⟨-, -, h₂⟩
      · exact absurd rfl hne
      · exact h.alone hm fd₁ fd₂ uid h₁ h₂
  · rcases hconns fd₁ uid h₁ with ⟨-, rfl⟩ | ⟨-, hne, h₁⟩
    · exact update_self ..
    · exact (update_of_ne hne ..).trans (h.held hm fd₁ uid h₁)
  · rcases eq_or_ne uid k with rfl | hne
    · exact ⟨fd, (setConn_self s fd _).symm ▸ logsIn_call.2 rfl⟩
    · obtain ⟨fd', hlogs⟩ := h.unlocked uid ((update_of_ne hne ..).symm.trans huid)
      have hne' : fd' ≠ fd := by
        rintro rfl
        exact hold uid hlogs
      exact ⟨fd', (setConn_of_ne s _ hne').symm ▸ hlogs⟩
  · cases hm.symm.trans hbad

theorem locks_unlock (h : Locks s) (hlogs : (s.conns fd).LogsIn k) (hclosed : c.phase = .closed) :
    Locks { s.setConn fd c with userLogin := update s.userLogin k false } := by
  have hnew := not_logsIn_of_closed hclosed
  have honly : ∀ uid, (s.conns fd).LogsIn uid → uid = k := by
    rintro uid ⟨server, secret, hphase⟩
    obtain ⟨server', secret', hphase'⟩ := hlogs
    cases hphase.symm.trans hphase'
    rfl
  refine ⟨fun hm fd₁ fd₂ uid h₁ h₂ => ?_, fun hm fd₁ uid h₁ => ?_, fun uid huid => ?_,
    fun hm uid => ?_⟩
  · exact h.alone hm fd₁ fd₂ uid (logsIn_setConn hnew h₁).2 (logsIn_setConn hnew h₂).2
  · obtain ⟨hne, hlogs'⟩ := logsIn_setConn hnew h₁
    have huid : uid ≠ k := by
      rintro rfl
      exact hne (h.alone hm fd₁ fd uid hlogs' hlogs)
    exact (update_of_ne huid ..).trans (h.held hm fd₁ uid hlogs')
  · have hne : uid ≠ k := by
      rintro rfl
      cases (update_self uid false s.userLogin).symm.trans huid
    obtain ⟨fd', h'⟩ := h.unlocked uid ((update_of_ne hne ..).symm.trans huid)
    have hne' : fd' ≠ fd := by
      rintro rfl
      exact hne (honly uid h')
    exact ⟨fd', (setConn_of_ne s c hne').symm ▸ h'⟩
  · rcases eq_or_ne uid k with rfl | hne
    · exact update_self ..
    · exact (update_of_ne hne ..).trans (h.free hm uid)

end Lock

theorem locks_multilogin (h : Locks s) (hm : s.multilogin = true) : Locks (s.setConn fd c) := by
  refine ⟨fun hbad => ?_, fun hbad => ?_, fun uid hbad => ?_, h.free⟩
  · cases hm.symm.trans hbad
  · cases hm.symm.trans hbad
  · cases (h.free hm uid).symm.trans hbad

theorem locks_samePhase (h : Locks s) (hphase : c.phase = (s.conns fd).phase) :
    Locks (s.setConn fd c) := by
  have hlogs : ∀ fd' uid, ((s.setConn fd c).conns fd').LogsIn uid ↔ (s.conns fd').LogsIn uid := by
    intro fd' uid
    rcases eq_or_ne fd' fd with rfl | hne
    · rw [setConn_self, Conn.LogsIn, hphase]
      rfl
    · rw [setConn_of_ne s c hne]
  refine ⟨fun hm fd₁ fd₂ uid h₁ h₂ => ?_, fun hm fd₁ uid h₁ => ?_, fun uid huid => ?_, h.free⟩
  · exact h.alone hm fd₁ fd₂ uid ((hlogs fd₁ uid).1 h₁) ((hlogs fd₂ uid).1 h₂)
  · exact h.held hm fd₁ uid ((hlogs fd₁ uid).1 h₁)
  · exact (h.unlocked uid huid).imp fun fd' => (hlogs fd' uid).2

theorem closed_loginReturn (c : Conn σ κ) (up : Bool) (r : LoginResult) :
    (c.loginReturn up r).phase = .closed := by
  cases r with
  | text err =>
    rw [Conn.loginReturn]
    split_ifs <;> rfl
  | _ => rfl

theorem goes_read {line random : Bytes} (h : Fine c) (hmay : c.MayWrite up)
    (htame : ∀ secret hmac r, c.phase = .response secret →
      Hmac.hmac64 c.challenge secret = .ok hmac → base64decode line = .ok r →
      r = hmac ∨ c.lost = true) (hread : c.read line random up = some c') :
    c.phase.early = true ∧ Goes c c' := by
  cases hphase : c.phase with
  | handshake =>
    simp only [Conn.read, hphase, some.injEq] at hread
    subst hread
    have hgoes := goes_authHandshake h hphase hmay line random
    rw [hphase] at hgoes
    exact ⟨rfl, hgoes⟩
  | response secret =>
    simp only [Conn.read, hphase, some.injEq] at hread
    subst hread
    have hgoes := goes_authResponse h hphase hmay line fun hmac r => htame secret hmac r hphase
    rw [hphase] at hgoes
    exact ⟨rfl, hgoes⟩
  | token secret =>
    simp only [Conn.read, hphase, some.injEq] at hread
    subst hread
    have hgoes := goes_authToken h hphase line
    rw [hphase] at hgoes
    exact ⟨rfl, hgoes⟩
  | _ => simp [Conn.read, hphase] at hread

theorem Inv.init (multilogin : Bool) : Inv (State.init multilogin : State σ κ) := by
  have hlogs : ∀ fd uid, ¬ ((State.init multilogin : State σ κ).conns fd).LogsIn uid := by
    rintro fd uid ⟨server, secret, hphase⟩
    cases hphase
  refine ⟨fun fd => ⟨⟨rfl, rfl⟩, fun p hp => absurd hp not_mem_nil, fun _ => rfl, Nat.zero_le 1,
    (fun _ hbad => nomatch hbad), fun _ _ => rfl⟩, fun _ fd _ uid hbad => absurd hbad (hlogs fd uid),
    fun _ fd uid hbad => absurd hbad (hlogs fd uid), (fun _ hbad => nomatch hbad), fun _ _ => rfl⟩

theorem Inv.sound (h : Inv s) : Sound s :=
  ⟨fun fd => (h.fine fd).called, fun fd => (h.fine fd).once, h.locks.alone, h.locks.unlocked,
    fun fd => (h.fine fd).closed, fun fd => (h.fine fd).before⟩

section Step

variable [DecidableEq κ]

theorem inv_accept {r : Reply σ κ} (h : Inv s) (hphase : (s.conns fd).phase = .replied r)
    (hmay : (s.conns fd).MayWrite up) : Inv (accept s fd up r) := by
  have hfine := h.fine fd
  have hearly : (s.conns fd).phase.early = true := by rw [hphase]; rfl
  have hne := early_ne_closed hearly
  have hreached := hfine.reached
  cases r with
  | accepted server uid secret =>
    simp only [Conn.Reached, hphase] at hreached
    cases hm : s.multilogin with
    | true =>
      simp only [accept, hm, if_true]
      exact ⟨fine_setConn h.fine (fine_call hfine hphase), locks_multilogin h.locks hm⟩
    | false =>
      simp only [accept, hm, Bool.false_eq_true, if_false]
      cases uid with
      | none =>
        have hlost := hreached.2.resolve_left fun hbad => nomatch hbad
        exact inv_closed h hearly (fine_dropped hfine hne hlost) rfl
      | some k =>
        cases hk : s.userLogin k with
        | true =>
          simp only [hk, if_true]
          exact inv_closed h hearly (fine_answer hfine hne hmay (by decide)) rfl
        | false =>
          simp only [hk, Bool.false_eq_true, if_false]
          exact ⟨fine_setConn h.fine (fine_call hfine hphase),
            locks_call h.locks (not_logsIn_of_early hearly) hk hm⟩
  | rejected => exact inv_closed h hearly (fine_answer hfine hne hmay (by decide)) rfl
  | socketError =>
    simp only [Conn.Reached, hphase] at hreached
    exact inv_closed h hearly (fine_dropped hfine hne hreached) rfl
  | dead =>
    simp only [Conn.Reached, hphase] at hreached
    exact inv_closed h hearly (fine_dropped hfine hne hreached) rfl

theorem inv_unlock {server : σ} {uid : Option κ} {secret : Bytes} {r : LoginResult} (h : Inv s)
    (hphase : (s.conns fd).phase = .login server uid secret) (hmay : (s.conns fd).MayWrite up)
    (htext : ∀ err, r = .text err → Encodable err ∨ (s.conns fd).lost = true)
    (hother : r = .other → (s.conns fd).lost = true) : Inv (unlock s fd uid r up) := by
  have hfine := h.fine fd
  have hne : (s.conns fd).phase ≠ .closed := by
    rw [hphase]
    exact fun hbad => nomatch hbad
  have hreached := hfine.reached
  simp only [Conn.Reached, hphase] at hreached
  cases uid with
  | none =>
    have hlost := hreached.resolve_left fun hbad => nomatch hbad
    refine ⟨fine_setConn h.fine (fine_dropped hfine hne hlost), locks_setConn h.locks ?_
      (not_logsIn_of_closed rfl)⟩
    rintro uid ⟨server', secret', hphase'⟩
    cases hphase.symm.trans hphase'
  | some k =>
    exact ⟨fine_setConn h.fine (fine_loginReturn hfine hne hmay htext hother),
      locks_unlock h.locks ⟨server, secret, hphase⟩ (closed_loginReturn ..)⟩

theorem inv_step {i : Label σ κ} (h : Inv s) (htame : Tame s i) (hst : step s i = some t) :
    Inv t := by
  cases i with
  | connect fd =>
    cases hphase : (s.conns fd).phase with
    | idle =>
      simp only [step, hphase, some.injEq] at hst
      have hearly : (s.conns fd).phase.early = true := by rw [hphase]; rfl
      have hreached := (h.fine fd).reached
      simp only [Conn.Reached, hphase] at hreached
      exact hst ▸ inv_goes h hearly ⟨rfl, rfl, rfl, hreached, (h.fine fd).status hearly⟩
    | _ => simp [step, hphase] at hst
  | startFails fd =>
    cases hphase : (s.conns fd).phase with
    | starting =>
      simp only [step, hphase, some.injEq] at hst
      have hearly : (s.conns fd).phase.early = true := by rw [hphase]; rfl
      exact hst ▸ inv_goes h hearly (goes_reply rfl rfl ((h.fine fd).status hearly) trivial)
    | _ => simp [step, hphase] at hst
  | start fd random up =>
    cases hphase : (s.conns fd).phase with
    | starting =>
      simp only [step, hphase] at hst
      split_ifs at hst with hif
      have hearly : (s.conns fd).phase.early = true := by rw [hphase]; rfl
      exact some.inj hst ▸
        inv_goes h hearly (goes_authStart (h.fine fd) hphase hif.2 random)
    | _ => simp [step, hphase] at hst
  | line fd text random up =>
    simp only [step] at hst
    split_ifs at hst with hif
    obtain ⟨c, hread, rfl⟩ := map_eq_some_iff.1 hst
    obtain ⟨hearly, hgoes⟩ := goes_read (h.fine fd) hif.2.2 htame hread
    exact inv_goes h hearly hgoes
  | eof fd =>
    simp only [step] at hst
    split_ifs at hst with hif
    have hearly : (s.conns fd).phase.early = true := by
      cases hphase : (s.conns fd).phase with
      | login server uid secret =>
        rw [hphase] at hif
        cases hif.1
      | closed =>
        rw [hphase] at hif
        cases hif.1
      | _ => rfl
    exact some.inj hst ▸
      inv_goes h hearly (goes_reply rfl rfl ((h.fine fd).status hearly) hif.2)
  | lose fd =>
    obtain rfl := some.inj hst
    exact ⟨fine_setConn h.fine (fine_lose (h.fine fd)), locks_samePhase h.locks rfl⟩
  | authed fd r =>
    cases hphase : (s.conns fd).phase with
    | auth token secret =>
      simp only [step, hphase, some.injEq] at hst
      have hearly : (s.conns fd).phase.early = true := by rw [hphase]; rfl
      refine hst ▸ inv_goes h hearly (goes_authReturn (h.fine fd) hphase fun server uid hr => ?_)
      subst hr
      exact htame
    | _ => simp [step, hphase] at hst
  | slaveDied fd =>
    simp only [step] at hst
    split_ifs at hst with hif
    have hearly : (s.conns fd).phase.early = true := by
      cases hphase : (s.conns fd).phase with
      | login server uid secret =>
        rw [hphase] at hif
        cases hif
      | closed =>
        rw [hphase] at hif
        cases hif
      | _ => rfl
    exact some.inj hst ▸
      inv_goes h hearly (goes_reply rfl rfl ((h.fine fd).status hearly) htame)
  | replied fd up =>
    cases hphase : (s.conns fd).phase with
    | replied r =>
      simp only [step, hphase] at hst
      split_ifs at hst with hif
      exact some.inj hst ▸ inv_accept h hphase hif
    | _ => simp [step, hphase] at hst
  | loggedIn fd r up =>
    cases hphase : (s.conns fd).phase with
    | login server uid secret =>
      simp only [step, hphase] at hst
      split_ifs at hst with hif
      refine some.inj hst ▸ inv_unlock h hphase hif (fun err hr => ?_) fun hr => ?_
      · subst hr
        exact htame
      · subst hr
        exact htame
    | _ => simp [step, hphase] at hst

end Step

/-! ## Two connections -/

section Example

theorem randomkey_one : randomkey [1, 0, 0, 0, 0, 0, 0, 0] = [1, 0, 0, 0, 0, 0, 0, 0] := by decide

theorem read64_one : Crypt.read64 [1, 0, 0, 0, 0, 0, 0, 0] = 1 := by decide

theorem powModP_one : Crypt.powModP Crypt.G 1 = some 5 := by
  rw [Crypt.powModP, Crypt.powModPRec]
  decide

theorem dhexchange_one : Crypt.dhexchange [1, 0, 0, 0, 0, 0, 0, 0]
    = some (.ok [5, 0, 0, 0, 0, 0, 0, 0]) := by
  rw [Crypt.dhexchange, read64_one, powModP_one]
  decide

theorem dhsecret_one : Crypt.dhsecret [5, 0, 0, 0, 0, 0, 0, 0] [1, 0, 0, 0, 0, 0, 0, 0]
    = some (.ok [5, 0, 0, 0, 0, 0, 0, 0]) := by
  have hfive : Crypt.read64 [5, 0, 0, 0, 0, 0, 0, 0] = Crypt.G := by decide
  rw [Crypt.dhsecret, read64_one, hfive, powModP_one]
  decide

theorem read_handshake (c : Conn σ κ) (hphase : c.phase = .handshake) :
    c.read (Bytes.ascii "BQAAAAAAAAA=") [1, 0, 0, 0, 0, 0, 0, 0] true = some { c with
      lines := c.lines ++ [Bytes.ascii "BQAAAAAAAAA="]
      written := c.written ++ [Bytes.ascii "BQAAAAAAAAA=\n"]
      serverkey := [1, 0, 0, 0, 0, 0, 0, 0]
      phase := .response [5, 0, 0, 0, 0, 0, 0, 0] } := by
  have hkey : base64decode (Bytes.ascii "BQAAAAAAAAA=") = .ok [5, 0, 0, 0, 0, 0, 0, 0] := by
    decide
  have hline : base64encode [5, 0, 0, 0, 0, 0, 0, 0] ++ newline
      = Bytes.ascii "BQAAAAAAAAA=\n" := by decide
  simp only [Conn.read, hphase, Conn.authHandshake, hkey, randomkey_one, dhexchange_one,
    dhsecret_one, Conn.write, hline, if_true]
  rfl

/-- The authentication code of the challenge 1 and the secret 5 -/
theorem hmac64_one : Hmac.hmac64 [1, 0, 0, 0, 0, 0, 0, 0] [5, 0, 0, 0, 0, 0, 0, 0]
    = .ok [183, 226, 144, 18, 63, 204, 103, 111] := by decide +kernel

theorem read_response (c : Conn σ κ) (hphase : c.phase = .response [5, 0, 0, 0, 0, 0, 0, 0])
    (hchallenge : c.challenge = [1, 0, 0, 0, 0, 0, 0, 0]) :
    c.read (Bytes.ascii "t+KQEj/MZ28=") [1, 0, 0, 0, 0, 0, 0, 0] true = some { c with
      lines := c.lines ++ [Bytes.ascii "t+KQEj/MZ28="]
      phase := .token [5, 0, 0, 0, 0, 0, 0, 0] } := by
  have hr : base64decode (Bytes.ascii "t+KQEj/MZ28=")
      = .ok [183, 226, 144, 18, 63, 204, 103, 111] := by decide
  simp only [Conn.read, hphase, Conn.authResponse, hchallenge, hmac64_one, hr]
  rfl

theorem read_response_wrong (c : Conn σ κ) (hphase : c.phase = .response [5, 0, 0, 0, 0, 0, 0, 0])
    (hchallenge : c.challenge = [1, 0, 0, 0, 0, 0, 0, 0]) :
    c.read (Bytes.ascii "AAAAAAAAAAA=") [1, 0, 0, 0, 0, 0, 0, 0] true = some { c with
      lines := c.lines ++ [Bytes.ascii "AAAAAAAAAAA="]
      written := c.written ++ [Bytes.ascii "400 Bad Request\n"]
      phase := .replied .rejected } := by
  have hr : base64decode (Bytes.ascii "AAAAAAAAAAA=") = .ok [0, 0, 0, 0, 0, 0, 0, 0] := by
    decide
  simp only [Conn.read, hphase, Conn.authResponse, hchallenge, hmac64_one, hr]
  rfl

theorem block_me : Des.eachBlock (Des.desCrypt (Des.desMainKs [5, 0, 0, 0, 0, 0, 0, 0])) 1
    (Bytes.ascii "me" ++ Des.pad (Bytes.ascii "me")) = [121, 152, 132, 126, 1, 236, 73, 13] := by
  decide +kernel

theorem read_token (c : Conn σ κ) (hphase : c.phase = .token [5, 0, 0, 0, 0, 0, 0, 0]) :
    c.read (Bytes.ascii "eZiEfgHsSQ0=") [1, 0, 0, 0, 0, 0, 0, 0] true = some { c with
      lines := c.lines ++ [Bytes.ascii "eZiEfgHsSQ0="]
      phase := .auth (Bytes.ascii "me") [5, 0, 0, 0, 0, 0, 0, 0] } := by
  have htext : base64decode (Bytes.ascii "eZiEfgHsSQ0=")
      = .ok [121, 152, 132, 126, 1, 236, 73, 13] := by decide
  have htoken : Conn.decrypt [5, 0, 0, 0, 0, 0, 0, 0] [121, 152, 132, 126, 1, 236, 73, 13]
      = some (Bytes.ascii "me") := by
    have h : Des.desdecode (fun _ => 0) [5, 0, 0, 0, 0, 0, 0, 0] (Des.eachBlock
        (Des.desCrypt (Des.desMainKs [5, 0, 0, 0, 0, 0, 0, 0])) 1
        (Bytes.ascii "me" ++ Des.pad (Bytes.ascii "me"))) = some (.ok (Bytes.ascii "me")) :=
      Des.desdecode_eq rfl (by decide)
    rw [block_me] at h
    rw [Conn.decrypt, h]
  simp only [Conn.read, hphase, Conn.authToken, htext, htoken]

theorem step_line {text : Bytes} [DecidableEq κ] (s : State σ κ) (c : Conn σ κ)
    (hlength : text.length < bufferLimit)
    (hread : (s.conns 0).read text [1, 0, 0, 0, 0, 0, 0, 0] true = some c) :
    step s (.line 0 text [1, 0, 0, 0, 0, 0, 0, 0] true) = some (s.setConn 0 c) := by
  rw [step, if_pos ⟨hlength, rfl, .inl rfl⟩, hread]
  rfl

end Example

/-- `login_handler` is called where it may be, a uid is locked around it, and each connection has one
status line, in every run of such steps. -/
theorem sound_of_honest [DecidableEq κ] {multilogin : Bool} (h : (machine multilogin).Reach Tame s) : Sound s :=
  (h.invariant (Inv.init multilogin) fun _ _ _ hs ht hst => inv_step hs ht hst).sound

/-- A login, from the first line to the last. -/
theorem sound_of_honest_login : ∃ s : State ℕ ℕ, Sound s
    ∧ (s.conns 0).called = [(3, some 7, [5, 0, 0, 0, 0, 0, 0, 0])]
    ∧ (s.conns 0).written.filter isStatus = [Bytes.ascii "200 b2s=\n"]
    ∧ s.userLogin 7 = false := by
  have h₀ : (machine false).Reach Tame (State.init false : State ℕ ℕ) := .init
  have h₁ := h₀.step (i := Label.connect 0) trivial rfl
  have h₂ := h₁.step (i := Label.start 0 [1, 0, 0, 0, 0, 0, 0, 0] true) trivial rfl
  have h₃ := h₂.step (i := Label.line 0 _ _ true) (fun _ _ _ hphase => nomatch hphase)
    (step_line _ _ (by decide) (read_handshake _ (by rfl)))
  have h₄ := h₃.step (i := Label.line 0 _ _ true) (fun secret hmac r hphase hhmac hr => by
    obtain rfl : [5, 0, 0, 0, 0, 0, 0, 0] = secret := by
      cases hphase
      rfl
    have hhmac' := hmac64_one.symm.trans hhmac
    have hr' : Except.ok [183, 226, 144, 18, 63, 204, 103, 111] = (.ok r : Except String Bytes) :=
      Eq.trans (by decide) hr
    cases hhmac'
    cases hr'
    exact .inl rfl) (step_line _ _ (by decide) (read_response _ (by rfl) (by rfl)))
  have h₅ := h₄.step (i := Label.line 0 _ _ true) (fun _ _ _ hphase => nomatch hphase)
    (step_line _ _ (by decide) (read_token _ (by rfl)))
  have h₆ := h₅.step (i := Label.authed 0 (.returns 3 (some 7))) (.inl rfl) rfl
  have h₇ := h₆.step (i := Label.replied 0 true) trivial rfl
  have h₈ := h₇.step (i := Label.loggedIn 0 (.text (Bytes.ascii "ok")) true) (.inl (by decide)) rfl
  exact ⟨_, sound_of_honest h₈, rfl, by decide, rfl⟩

/-- A client that does not know the secret is told so twice, by the slave and by the master. -/
theorem not_sound_challenge : ∃ s : State ℕ ℕ, (machine false).Reachable s
    ∧ (s.conns 0).lost = false ∧ (s.conns 0).phase = .closed
    ∧ (s.conns 0).written.filter isStatus
      = [Bytes.ascii "400 Bad Request\n", Bytes.ascii "401 Unauthorized\n"] ∧ ¬ Sound s := by
  have h₀ : (machine false).Reachable (State.init false : State ℕ ℕ) := .init
  have h₁ := h₀.step (i := Label.connect 0) trivial rfl
  have h₂ := h₁.step (i := Label.start 0 [1, 0, 0, 0, 0, 0, 0, 0] true) trivial rfl
  have h₃ := h₂.step (i := Label.line 0 _ _ true) trivial
    (step_line _ _ (by decide) (read_handshake _ (by rfl)))
  have h₄ := h₃.step (i := Label.line 0 _ _ true) trivial
    (step_line _ _ (by decide) (read_response_wrong _ (by rfl) (by rfl)))
  have h₅ := h₄.step (i := Label.replied 0 true) trivial rfl
  refine ⟨_, h₅, rfl, rfl, by decide, fun hsound => ?_⟩
  exact absurd (hsound.closed 0 rfl rfl) (by decide)

end LoginServer

end SkynetGame
