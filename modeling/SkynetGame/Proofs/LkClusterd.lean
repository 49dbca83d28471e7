import SkynetGame.LkClusterd

/-!
# No request of the cluster daemon reaches another node

The metatable of `node_channel` has a field `_index`, and it is `__index` that Lua looks for. So a
node never has a channel, every request raises before it is written, and no handler runs for it.
What comes in from elsewhere is handled and not answered.
-/

namespace SkynetGame

namespace LkClusterd

open LuaCluster

/-- What a call through the cluster promises: it gives what the handler returned or fails, the
handler ran once for it, and where no answer is wanted none came. -/
structure Served (s : State) (i : ℕ) (c : Call) : Prop where
  answer : ∀ ok data, c.outcome = .answered ok data → ok = false ∨ ∃ n h b, c.node = some n ∧
    h ∈ (s.there n).handled ∧ h.origin = some i ∧ h.result = some (.ok b) ∧ data = [.bytes b]
  once : ∀ n, c.node = some n → (s.there n).handled.countP (·.origin = some i) = 1
  silent : c.noResponse = true → ∀ ok data, c.outcome ≠ .answered ok data

/-- No channel, nothing on its way, every call over at once and no handler run for one. -/
structure Idle (s : State) : Prop where
  channel : ∀ n, s.here.nodeChannel n = none
  calls : ∀ c ∈ s.calls, c.outcome = .nothing ∨ ∃ e, c.outcome = .raised e
  wire : ∀ n, s.wire n = []
  handled : ∀ n, ∀ h ∈ (s.there n).handled, h.origin = none
  replies : ∀ n, (s.there n).replies = []

theorem indexChannel_none (connects : Bool) {d : Clusterd} {n : Node}
    (h : d.nodeChannel n = none) : indexChannel connects d n = .ok (none, d) := by
  unfold indexChannel
  rw [h]
  rfl

theorem loadconfig_channel : ∀ (config : List (Node × Bytes)) {d : Clusterd},
    (∀ n, d.nodeChannel n = none) → ∀ n, (loadconfig d config).nodeChannel n = none
  | [], _, h, n => h n
  | e :: config, d, h, n => by
    have hentry : ∀ m, (loadEntry d e).nodeChannel m = none := by
      intro m
      unfold loadEntry
      split_ifs
      · exact h m
      · by_cases hm : m = e.1
        · rw [hm]
          exact Function.update_self ..
        · exact (Function.update_of_ne hm ..).trans (h m)
    exact loadconfig_channel config hentry n

theorem sendRequest_idle (connects noResponse : Bool) (node : Option Node) (addr : Addr)
    (msg : Bytes) {d : Clusterd} (h : ∀ n, d.nodeChannel n = none) :
    (∀ n, (sendRequest connects noResponse node addr msg d).1.nodeChannel n = none) ∧
      ((sendRequest connects noResponse node addr msg d).2 = .ok none ∨
        ∃ e, (sendRequest connects noResponse node addr msg d).2 = .error e) := by
  unfold sendRequest
  generalize lpackrequest addr (dsession noResponse (nodeSession d node)) msg = packed
  rcases packed with e | p
  · exact ⟨h, .inr ⟨e, rfl⟩⟩
  · rcases node with _ | n
    · exact ⟨h, .inl rfl⟩
    · have hc : (nextNodeSession d n).nodeChannel n = none := h n
      simp only [indexChannel_none connects hc]
      exact ⟨h, .inr ⟨_, rfl⟩⟩

theorem request_idle {noResponse connects : Bool} {node : Option Node} {addr : Addr} {msg : Bytes}
    {s : State} (h : Idle s) : Idle (request noResponse connects node addr msg s) := by
  obtain ⟨hchannel, hsent⟩ := sendRequest_idle connects noResponse node addr msg h.channel
  have hcalls : ∀ {o : Outcome}, (o = .nothing ∨ ∃ e, o = .raised e) →
      ∀ c ∈ s.calls ++ [Call.mk noResponse node addr msg o],
        c.outcome = .nothing ∨ ∃ e, c.outcome = .raised e := by
    intro o ho c hc
    rcases List.mem_append.1 hc with hc | hc
    · exact h.calls c hc
    · rw [List.mem_singleton.1 hc]
      exact ho
  unfold request
  generalize sendRequest connects noResponse node addr msg s.here = r at hchannel hsent ⊢
  rcases r with ⟨d, r⟩
  rcases hsent with rfl | ⟨e, rfl⟩
  · exact { h with channel := hchannel, calls := hcalls (.inl rfl) }
  · exact { h with channel := hchannel, calls := hcalls (.inr ⟨e, rfl⟩) }

theorem writeResponse_eq (origin : Option ℕ) (session : ℕ) (result : Except Bytes Bytes)
    (r : Remote) : writeResponse origin session result r = r := rfl

theorem commandSocket_cases (origin : Option ℕ) (data : Bytes) (r : Remote) :
    commandSocket origin data r = r ∨ ∃ session addr msg, commandSocket origin data r =
      { r with handled := r.handled ++ [⟨origin, session, addr, msg, none⟩] } := by
  have hraises : ∀ u err, commandSocket.raises origin r u err = r := by
    intro u err
    unfold commandSocket.raises
    rw [writeResponse_eq, ite_self]
  unfold commandSocket
  simp only [hraises]
  repeat' split
  all_goals first | exact .inl rfl | exact .inr ⟨_, _, _, rfl⟩

theorem handlerReturns_eq {k : ℕ} {result : Except Bytes Bytes} {r r' : Remote}
    (h : handlerReturns k result r = some r') : ∃ x, r.handled[k]? = some x ∧
      r' = { r with handled := r.handled.set k { x with result := some result } } := by
  unfold handlerReturns at h
  split at h
  case h_1 x hx =>
    split_ifs at h
    · exact ⟨x, hx, (Option.some.inj h).symm⟩
    · exact ⟨x, hx, (Option.some.inj h).symm⟩
  case h_2 => cases h

theorem Idle.update {s : State} (h : Idle s) {n : Node} {r : Remote}
    (hhandled : ∀ x ∈ r.handled, x.origin = none) (hreplies : r.replies = []) :
    Idle { s with there := Function.update s.there n r } := by
  refine { h with handled := ?_, replies := ?_ }
  · intro m
    show ∀ x ∈ (Function.update s.there n r m).handled, x.origin = none
    by_cases hm : m = n
    · rw [hm, Function.update_self]
      exact hhandled
    · rw [Function.update_of_ne hm]
      exact h.handled m
  · intro m
    show (Function.update s.there n r m).replies = []
    by_cases hm : m = n
    · rw [hm, Function.update_self]
      exact hreplies
    · rw [Function.update_of_ne hm]
      exact h.replies m

theorem step_idle {s s' : State} {l : Label} (h : Idle s) (hs : step s l = some s') : Idle s' := by
  cases l with
  | reload config =>
    rw [← Option.some.inj hs]
    exact { h with channel := loadconfig_channel config h.channel }
  | request noResponse connects node addr msg =>
    rw [← Option.some.inj hs]
    exact request_idle h
  | deliver n =>
    simp only [step, h.wire n] at hs
    cases hs
  | arrive n body =>
    rw [← Option.some.inj hs]
    rcases commandSocket_cases none body (s.there n) with heq | ⟨session, addr, msg, heq⟩
    · rw [heq]
      exact h.update (h.handled n) (h.replies n)
    · rw [heq]
      refine h.update ?_ (h.replies n)
      intro x hx
      rcases List.mem_append.1 hx with hx | hx
      · exact h.handled n x hx
      · rw [List.mem_singleton.1 hx]
  | returns n k result =>
    obtain ⟨r, hr, rfl⟩ := Option.map_eq_some_iff.1 hs
    obtain ⟨x, hx, rfl⟩ := handlerReturns_eq hr
    refine h.update ?_ (h.replies n)
    intro y hy
    rcases List.mem_or_eq_of_mem_set hy with hy | rfl
    · exact h.handled n y hy
    · exact h.handled n x (List.mem_of_getElem? hx)
  | reply n =>
    simp only [step, h.replies n] at hs
    cases hs

theorem idle_of_reachable {s : State} (h : machine.Reachable s) : Idle s :=
  h.invariant ⟨fun _ => rfl, fun _ hc => absurd hc List.not_mem_nil, fun _ => rfl,
    fun _ _ hh => absurd hh List.not_mem_nil, fun _ => rfl⟩ fun _ _ _ hi _ hst => step_idle hi hst

/-- The handler does not run for a call, however long the daemons go on after it. -/
theorem not_served_of_reachable {s : State} (h : machine.Reachable s) {i : ℕ} {c : Call}
    {n : Node} (_ : s.calls[i]? = some c) (hn : c.node = some n) : ¬ Served s i c := by
  intro hserved
  have hzero : (s.there n).handled.countP (·.origin = some i) = 0 := by
    rw [List.countP_eq_zero]
    intro x hx
    rw [(idle_of_reachable h).handled n x hx, decide_eq_true_eq]
    exact nofun
  rw [hserved.once n hn] at hzero
  exact absurd hzero one_ne_zero

theorem one_request : ∃ s c, machine.Reachable s ∧ s.calls[0]? = some c ∧ c.node = some [97] ∧
    (s.there [97]).handled = [] := by
  have hl : (machine.run (fun _ _ => True) init
      [.reload [([97], [104, 58, 49])], .request false true (some [97]) (.number 8) [1]]).map
      (fun s => (s.calls.map Call.node, (s.there [97]).handled.length)) = some ([some [97]], 0) := by
    decide
  obtain ⟨s, hr, he⟩ := Machine.exists_reach hl
  obtain ⟨hcalls, hhandled⟩ := Prod.mk.inj he
  obtain ⟨c, l, hcons, hc, -⟩ := List.map_eq_cons_iff.1 hcalls
  exact ⟨s, c, hr, by rw [hcons]; rfl, hc, List.length_eq_zero_iff.1 hhandled⟩

theorem not_served_of_one_request :
    ∃ s c, machine.Reachable s ∧ s.calls[0]? = some c ∧ ¬ Served s 0 c := by
  obtain ⟨s, c, hs, hc, hn, -⟩ := one_request
  exact ⟨s, c, hs, hc, not_served_of_reachable hs hc hn⟩

theorem not_always_served : ¬ ∀ s, machine.Reachable s → ∀ i c n, s.calls[i]? = some c →
    c.node = some n → Served s i c := by
  intro h
  obtain ⟨s, c, hs, hc, hn, hnone⟩ := one_request
  have honce := (h s hs 0 c [97] hc hn).once [97] hn
  rw [hnone] at honce
  exact absurd honce zero_ne_one

end LkClusterd

end SkynetGame
