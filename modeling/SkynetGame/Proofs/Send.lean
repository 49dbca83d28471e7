import SkynetGame.Send

/-!
# Who owns the payload of a message

A call takes the payload from the runtime's hands once, unless it sends to the handle 0: there the
function returns between the copy and the queues. A global name skips the check of the size, and
where a message is delivered the caller's own session is the result, a negative one included.
-/

namespace SkynetGame

open Option

namespace Send

/-- The event ends the runtime's ownership of a payload. -/
def Event.Takes (p : ℕ) : Event → Prop
  | .pushed _ message => message.data = p
  | .harbor _ rmsg _ _ _ => rmsg.message = p
  | .freed data => data = p
  | .tooLarge _ | .copied _ _ _ => False

instance (p : ℕ) : ∀ e : Event, Decidable (e.Takes p)
  | .pushed _ message => inferInstanceAs (Decidable (message.data = p))
  | .harbor _ rmsg _ _ _ => inferInstanceAs (Decidable (rmsg.message = p))
  | .freed data => inferInstanceAs (Decidable (data = p))
  | .tooLarge _ | .copied _ _ _ => isFalse (fun h => h)

@[simp] theorem takes_freed {p data : ℕ} : (Event.freed data).Takes p ↔ data = p := Iff.rfl

def Event.Delivers : Event → Prop
  | .pushed _ _ | .harbor _ _ _ _ _ => True
  | .tooLarge _ | .copied _ _ _ | .freed _ => False

/-- The block that `_filter_args` copied into, `NULL` where it did not copy. -/
def Event.copy : Event → Option ℕ
  | .copied _ msg _ => some msg
  | _ => none

/-- The payload that the runtime owns, `NULL` where there is none. -/
def payload (type : Int32) (data : ℕ) (log : List Event) : ℕ :=
  if Dontcopy type then data else (log.findSome? Event.copy).getD 0

/-- The call takes its payload out of the runtime's hands once and nothing else, has delivered
nothing where its result is negative, and refuses a size that does not fit. -/
structure Kept (type : Int32) (data : ℕ) (sz : UInt64) (s : Sent) : Prop where
  once : ∀ p ≠ 0,
    s.log.countP (fun e => e.Takes p) = if p = payload type data s.log then 1 else 0
  negative : s.result < 0 → ∀ e ∈ s.log, ¬ e.Delivers
  refused : ¬ Fits sz → s.result < 0

/-- A message to the handle is put into a queue. -/
def Arrives (node : Node) (destination : UInt32) : Prop :=
  destination ≠ 0 ∧ (messageIsremote node destination = some true ∨
    (node.handles.grab destination.toNat).isSome)

/-- A message that fits has no payload where the destination is 0, and a session that is not
negative where it arrives. -/
def HandleSound (node : Node) (destination : UInt32) (session : Int32) (data : ℕ) (sz : UInt64) :
    Prop :=
  Fits sz → (destination = 0 → data = 0) ∧ (Arrives node destination → 0 ≤ session)

/-- A message to a global name fits and has a session that is not negative; another name is
unknown, or stands for a handle for which the message is sound. -/
def Sound (node : Node) (session : Int32) (data : ℕ) (sz : UInt64) : Address → Prop
  | .handle destination => HandleSound node destination session data sz
  | .name addr =>
    if addr.head? = some 58 then
      HandleSound node (strtoul addr.tail).toUInt32 session data sz
    else if addr.head? = some 46 then
      findname node.handles.storage addr.tail = 0 ∨
        HandleSound node (findname node.handles.storage addr.tail) session data sz
    else Fits sz ∧ 0 ≤ session

theorem newsession_pos (ctx : Context) : 0 < ctx.newsession.2 := by
  unfold Context.newsession
  dsimp only
  split
  · exact (by decide : (0 : Int32) < 1)
  · next h => exact Int32.not_le.1 h

theorem payload_append {type : Int32} {data : ℕ} {log : List Event} {e : Event}
    (he : e.copy = none) : payload type data (log ++ [e]) = payload type data log := by
  simp [payload, List.findSome?_append, he]

/-- What `_filter_args` leaves: the payload, which nothing has taken yet. -/
structure Filtered.Spec (f : Filtered) (type session : Int32) (data : ℕ) : Prop where
  payload : f.data = payload type data f.log
  null : f.data = 0 ↔ data = 0
  session : 0 ≤ f.session ↔ 0 ≤ session
  quiet : ∀ e ∈ f.log, ¬ e.Delivers ∧ ∀ p, ¬ e.Takes p

theorem filterArgs_spec {node : Node} {context : Context} {type session : Int32} {data : ℕ}
    {sz : UInt64} {f : Filtered} (h : filterArgs node context type session data sz = some f) :
    f.Spec type session data := by
  unfold filterArgs at h
  dsimp only at h
  split at h
  · exact nomatch h
  · next hs =>
    have hsession : 0 ≤ (if type &&& PTYPE_TAG_ALLOCSESSION ≠ 0 then context.newsession
        else (context, session)).2 ↔ 0 ≤ session := by
      split
      · next ha =>
        have hz : session = 0 := by
          by_contra hne
          exact hs ⟨ha, hne⟩
        rw [hz]
        exact iff_of_true (Int32.le_of_lt (newsession_pos context)) (by decide)
      · rfl
    split at h
    · next hc =>
      obtain ⟨msg, hm, rfl⟩ := map_eq_some_iff.1 h
      exact {
        payload := by simp [Send.payload, hc.1, Event.copy]
        null := iff_of_false msg.2 hc.2
        session := hsession
        quiet := by simp [Event.Delivers, Event.Takes] }
    · next hc =>
      obtain rfl := some.inj h
      refine ⟨?_, Iff.rfl, hsession, by simp⟩
      by_cases hd : Dontcopy type
      · simp [Send.payload, hd]
      · have hz : data = 0 := by
          by_contra hne
          exact hc ⟨hd, hne⟩
        simp [Send.payload, hd, hz]

namespace Filtered.Spec

variable {f : Filtered} {type session : Int32} {data : ℕ} {sz : UInt64} {c : Context}

theorem countP_log (hf : f.Spec type session data) (p : ℕ) :
    f.log.countP (fun e => e.Takes p) = 0 := by
  simpa [List.countP_eq_zero] using fun e he => (hf.quiet e he).2 p

theorem once (hf : f.Spec type session data) {e : Event} (hc : e.copy = none)
    (he : ∀ p, e.Takes p ↔ f.data = p) (p : ℕ) :
    (f.log ++ [e]).countP (fun e => e.Takes p) =
      if p = Send.payload type data (f.log ++ [e]) then 1 else 0 := by
  rw [payload_append hc, ← hf.payload, List.countP_append, hf.countP_log]
  simp [he, eq_comm]

theorem kept_delivered (hf : f.Spec type session data) {e : Event} (hc : e.copy = none)
    (hd : e.Delivers) (he : ∀ p, e.Takes p ↔ f.data = p) :
    Kept type data sz ⟨f.session, c, f.log ++ [e]⟩ ↔ Fits sz ∧ 0 ≤ session := by
  rw [← hf.session, ← Int32.not_lt]
  refine ⟨fun h => ?_, fun h => ⟨fun p _ => hf.once hc he p, fun hn => absurd hn h.2, ?_⟩⟩
  · have hn : ¬ f.session < 0 := fun hn => h.negative hn e (by simp) hd
    exact ⟨Decidable.byContradiction fun hz => hn (h.refused hz), hn⟩
  · exact fun hz => absurd h.1 hz

theorem kept_freed (hf : f.Spec type session data) :
    Kept type data sz ⟨-1, c, f.log ++ [.freed f.data]⟩ where
  once p _ := hf.once rfl (fun _ => Iff.rfl) p
  negative _ e he := by
    rcases List.mem_append.1 he with he | he
    · exact (hf.quiet e he).1
    · obtain rfl := List.mem_singleton.1 he
      exact fun h => h
  refused _ := (by decide : (-1 : Int32) < 0)

theorem kept_forgotten (hf : f.Spec type session data) (hfit : Fits sz) :
    Kept type data sz ⟨f.session, c, f.log⟩ ↔ data = 0 := by
  rw [← hf.null]
  refine ⟨fun h => ?_, fun h => ⟨fun p hp => ?_, fun _ e he => (hf.quiet e he).1, ?_⟩⟩
  · by_contra hne
    have hone := h.once f.data hne
    rw [if_pos hf.payload, hf.countP_log] at hone
    exact nomatch hone
  · rw [hf.countP_log, if_neg]
    rw [← hf.payload, h]
    exact hp
  · exact fun hz => absurd hfit hz

end Filtered.Spec

theorem harborSend_spec {node : Node} {rmsg : RemoteMessage} {source : UInt32} {session : Int32}
    {e : Event} (h : harborSend node rmsg source session = some e) :
    e.copy = none ∧ e.Delivers ∧ ∀ p, e.Takes p ↔ rmsg.message = p := by
  unfold harborSend at h
  dsimp only at h
  split at h
  · obtain ⟨ctx, _, rfl⟩ := map_eq_some_iff.1 h
    exact ⟨rfl, trivial, fun _ => Iff.rfl⟩
  · exact nomatch h

theorem kept_refused {type : Int32} {data : ℕ} {sz : UInt64} {c : Context} {log : List Event}
    (hlog : ∀ e ∈ log, e.copy = none ∧ ¬ e.Delivers ∧ ∀ p, ¬ e.Takes p) :
    Kept type data sz ⟨-1, c, log ++ if Dontcopy type then [.freed data] else []⟩ := by
  have hcount : ∀ p, log.countP (fun e => e.Takes p) = 0 := fun p => by
    simpa [List.countP_eq_zero] using fun e he => (hlog e he).2.2 p
  have hcopy : log.findSome? Event.copy = none :=
    List.findSome?_eq_none_iff.2 fun e he => (hlog e he).1
  refine ⟨fun p hp => ?_, fun _ e he => ?_, fun _ => (by decide : (-1 : Int32) < 0)⟩
  · rw [List.countP_append, hcount]
    by_cases hd : Dontcopy type
    · simp [payload, hd, eq_comm (a := data)]
    · simp [payload, hd, hcopy, hp]
  · rcases List.mem_append.1 he with he | he
    · exact (hlog e he).2.1
    · by_cases hd : Dontcopy type
      · rw [if_pos hd] at he
        obtain rfl := List.mem_singleton.1 he
        exact fun h => h
      · rw [if_neg hd] at he
        exact nomatch he

theorem kept_skynetSend {node : Node} {context : Context} {source destination : UInt32}
    {type session : Int32} {data : ℕ} {sz : UInt64} {r : Sent}
    (h : skynetSend node context source destination type session data sz = some r) :
    Kept type data sz r ↔ HandleSound node destination session data sz := by
  unfold skynetSend at h
  by_cases hfit : Fits sz
  · rw [if_neg (not_not.2 hfit)] at h
    obtain ⟨f, hf, h⟩ := bind_eq_some_iff.1 h
    have hspec := filterArgs_spec hf
    by_cases hdes : destination = 0
    · rw [if_pos hdes] at h
      obtain rfl := some.inj h
      rw [hspec.kept_forgotten hfit]
      exact ⟨fun hz _ => ⟨fun _ => hz, fun ha => absurd hdes ha.1⟩, fun hs => (hs hfit).1 hdes⟩
    · rw [if_neg hdes] at h
      have hsound : HandleSound node destination session data sz ↔
          (Arrives node destination → 0 ≤ session) :=
        ⟨fun hs => (hs hfit).2, fun ha _ => ⟨fun hz => absurd hz hdes, ha⟩⟩
      obtain ⟨isremote, hr, h⟩ := bind_eq_some_iff.1 h
      rw [hsound]
      rcases isremote with _ | _
      · simp only [Bool.false_eq_true, ↓reduceIte] at h
        rcases hg : node.handles.grab destination.toNat with _ | ctx
        · rw [hg] at h
          obtain rfl := some.inj h
          refine iff_of_true hspec.kept_freed fun ha => ?_
          rcases ha.2 with hr' | hg'
          · rw [hr] at hr'
            exact nomatch hr'
          · rw [hg] at hg'
            exact nomatch hg'
        · rw [hg] at h
          obtain rfl := some.inj h
          have ha : Arrives node destination := ⟨hdes, .inr (by rw [hg]; rfl)⟩
          rw [hspec.kept_delivered (e := .pushed ctx _) rfl trivial fun _ => Iff.rfl]
          exact ⟨fun hk _ => hk.2, fun hs => ⟨hfit, hs ha⟩⟩
      · simp only [↓reduceIte] at h
        obtain ⟨_, _, h⟩ := bind_eq_some_iff.1 h
        obtain ⟨e, he, rfl⟩ := map_eq_some_iff.1 h
        have ha : Arrives node destination := ⟨hdes, .inl hr⟩
        obtain ⟨hc, hd, ht⟩ := harborSend_spec he
        rw [hspec.kept_delivered hc hd ht]
        exact ⟨fun hk _ => hk.2, fun hs => ⟨hfit, hs ha⟩⟩
  · rw [if_pos hfit] at h
    obtain rfl := some.inj h
    have hlog : ∀ e ∈ [Event.tooLarge destination],
        e.copy = none ∧ ¬ e.Delivers ∧ ∀ p, ¬ e.Takes p := by
      simp [Event.copy, Event.Delivers, Event.Takes]
    exact iff_of_true (kept_refused hlog) fun hf => absurd hf hfit

theorem kept_skynetSendname {node : Node} {context : Context} {source : UInt32} {addr : Bytes}
    {type session : Int32} {data : ℕ} {sz : UInt64} {r : Sent}
    (h : skynetSendname node context source addr type session data sz = some r) :
    Kept type data sz r ↔ Sound node session data sz (.name addr) := by
  unfold skynetSendname at h
  simp only [Sound]
  by_cases hcolon : addr.head? = some 58
  · rw [if_pos hcolon] at h ⊢
    exact kept_skynetSend h
  rw [if_neg hcolon] at h ⊢
  by_cases hdot : addr.head? = some 46
  · rw [if_pos hdot] at h ⊢
    by_cases hdes : findname node.handles.storage addr.tail = 0
    · rw [if_pos hdes] at h
      obtain rfl := some.inj h
      have hlog : ∀ e ∈ ([] : List Event), e.copy = none ∧ ¬ e.Delivers ∧ ∀ p, ¬ e.Takes p := by
        simp
      exact iff_of_true (kept_refused hlog) (.inl hdes)
    · rw [if_neg hdes] at h
      rw [kept_skynetSend h, or_iff_right hdes]
  · rw [if_neg hdot] at h ⊢
    obtain ⟨f, hf, h⟩ := bind_eq_some_iff.1 h
    obtain ⟨_, _, h⟩ := bind_eq_some_iff.1 h
    obtain ⟨e, he, rfl⟩ := map_eq_some_iff.1 h
    obtain ⟨hc, hd, ht⟩ := harborSend_spec he
    exact (filterArgs_spec hf).kept_delivered hc hd ht

/-- A call that returns keeps the account of its payload exactly where it is sound. -/
theorem kept_iff_sound {node : Node} {context : Context} {source : UInt32} {address : Address}
    {type session : Int32} {data : ℕ} {sz : UInt64} {r : Sent}
    (h : call node context source address type session data sz = some r) :
    Kept type data sz r ↔ Sound node session data sz address := by
  rcases address with destination | addr
  · exact kept_skynetSend h
  · exact kept_skynetSendname h

/-- A node with no service, in the harbor 1. -/
def emptyNode : Node where
  handles := (Handles.machine 1).init
  harbor := 0x1000000
  remote := some 0
  malloc := fun _ => some ⟨7, by decide⟩

theorem kept_of_remote :
    Kept 0 5 3 ⟨9, ⟨0x1000001, 8⟩, [.copied 5 7 3,
      .harbor 0 ⟨none, 0x2000001, 7, 3⟩ 0x1000001 0 9]⟩ := by
  have h : call emptyNode ⟨0x1000001, 8⟩ 0 (.handle 0x2000001) 0 9 5 3 = some ⟨9, ⟨0x1000001, 8⟩,
      [.copied 5 7 3, .harbor 0 ⟨none, 0x2000001, 7, 3⟩ 0x1000001 0 9]⟩ := by
    decide
  exact (kept_iff_sound h).2 fun _ => ⟨by decide, fun _ => by decide⟩

theorem not_kept_of_zero : ¬ ∀ (node : Node) (context : Context) (source : UInt32)
    (address : Address) (type session : Int32) (data : ℕ) (sz : UInt64) (r : Sent),
    call node context source address type session data sz = some r → Kept type data sz r := by
  intro h
  have hk := h emptyNode ⟨0x1000001, 8⟩ 0 (.handle 0) 0 9 5 3
    ⟨9, ⟨0x1000001, 8⟩, [.copied 5 7 3]⟩ (by decide)
  exact absurd (hk.once 7 (by decide)) (by decide)

end Send

end SkynetGame
