import SkynetGame.Proofs.DnsIds

/-!
# Where addresses come from

`resolve` puts the addresses of a packet into the cache before it looks for a query with its id, and
only logs it when the query asked for another name. So the caches are as good as the packets that
come: while every packet with addresses answers a query in flight, by id and name, and no packet has
the id of a query with another name, what is returned was in an answer.
-/

namespace SkynetGame

open List

namespace Dns

section Property

/-- The packet has the id of a query in flight, and its question is this query's name. -/
def genuine (s : State) (p : Packet) : Bool :=
  (s.request_pool p.tid).any fun i => s.requests[i]?.any fun r => p.question.name = r.name

/-- The packet has no address, and not the id of a query in flight. -/
def Idle (s : State) (p : Packet) : Prop :=
  s.request_pool p.tid = none ∧ p.addresses.ipv4 = [] ∧ p.addresses.ipv6 = []

/-- A packet that can be read is genuine or idle. -/
def Trusted (s : State) : Event → Prop
  | .recv content => ∀ p, received content = some (.ok (some p)) → genuine s p = true ∨ Idle s p
  | _ => True

/-- The genuine answer that an event brings. -/
def heard (s : State) : Event → List Packet
  | .recv content =>
    match received content with
    | some (.ok (some p)) => if genuine s p then [p] else []
    | _ => []
  | _ => []

/-- The service, with the genuine answers it has received. -/
def hearing : Machine (State × List Packet) Event where
  init := (State.init, [])
  step x e := (step x.1 e).map fun s' => (s', x.2 ++ heard x.1 e)

/-- One of the answers was for the name, and has these addresses of the type. -/
def Told (ps : List Packet) (name : Bytes) (qtype : QType) (as : List Bytes) : Prop :=
  ∃ p ∈ ps, p.question.name = name ∧ p.addresses.of qtype = as

/-- What the caches have and what was returned is from genuine answers; a step changes an entry only
if it brings one for this name, or a weak table has lost the entry; and a packet that is not genuine
does nothing to the queries. -/
structure Integrity (x : State × List Packet) : Prop where
  cached : ∀ {qtype : QType} {name : Bytes} {e : Entry}, x.1.CACHE qtype name = some e →
    Told x.2 name qtype e.answers
  returned : ∀ {name : Bytes} {qtype : QType} {as : List Bytes},
    (name, qtype, Outcome.answers as) ∈ x.1.ended → Told x.2 name qtype as
  changed : ∀ {e : Event} {s' : State}, Trusted x.1 e → step x.1 e = some s' →
    ∀ (qtype : QType) (name : Bytes), s'.CACHE qtype name = x.1.CACHE qtype name ∨
      e = .collect qtype name ∨ ∃ p ∈ heard x.1 e, p.question.name = name
  foreign : ∀ {content : Bytes} {s' : State}, Trusted x.1 (.recv content) →
    step x.1 (.recv content) = some s' → heard x.1 (.recv content) = [] →
    s'.requests = x.1.requests ∧ s'.request_pool = x.1.request_pool

end Property

section Caches

variable {s s' : State}

theorem Told.mono {ps ps' : List Packet} {name : Bytes} {qtype : QType} {as : List Bytes}
    (h : Told ps name qtype as) : Told (ps ++ ps') name qtype as := by
  obtain ⟨p, hp, hname, has⟩ := h
  exact ⟨p, mem_append_left _ hp, hname, has⟩

theorem setEntry_eq (s : State) (qtype qtype' : QType) (name name' : Bytes) (e : Option Entry) :
    (s.setEntry qtype name e).CACHE qtype' name' =
      if qtype' = qtype ∧ name' = name then e else s.CACHE qtype' name' := by
  unfold State.setEntry
  rcases eq_or_ne qtype' qtype with rfl | hq
  · rcases eq_or_ne name' name with rfl | hn
    · simp
    · simp [hn]
  · simp [hq]

theorem keep_cache (s : State) (name : Bytes) (a : Addresses) (qtype qtype' : QType)
    (name' : Bytes) : (s.keep name a qtype).CACHE qtype' name' = s.CACHE qtype' name' ∨
      name' = name ∧ ∃ ttl, (s.keep name a qtype).CACHE qtype' name' = some ⟨a.of qtype', ttl⟩ := by
  unfold State.keep
  split_ifs
  · exact .inl rfl
  · rw [setEntry_eq]
    split_ifs with h
    · obtain ⟨rfl, rfl⟩ := h
      exact .inr ⟨rfl, _, rfl⟩
    · exact .inl rfl

theorem store_cache (s : State) (p : Packet) (qtype : QType) (name : Bytes) :
    (s.store p).CACHE qtype name = s.CACHE qtype name ∨ name = p.question.name ∧
      ∃ ttl, (s.store p).CACHE qtype name = some ⟨p.addresses.of qtype, ttl⟩ := by
  rcases keep_cache (s.keep p.question.name p.addresses .A) p.question.name p.addresses .AAAA
    qtype name with h | h
  · rw [State.store, h]
    exact keep_cache s p.question.name p.addresses .A qtype name
  · exact .inr h

theorem wake_data (r : Request) :
    r.wake.name = r.name ∧ r.wake.qtype = r.qtype ∧ r.wake.answers = r.answers := by
  unfold Request.wake
  split_ifs
  · exact ⟨rfl, rfl, rfl⟩
  · exact ⟨rfl, rfl, rfl⟩

theorem answer_cache (s : State) (p : Packet) : (answer s p).CACHE = (s.store p).CACHE := by
  simp only [answer]
  split <;> rfl

theorem answer_of_idle {p : Packet} (h : Idle s p) : answer s p = s := by
  obtain ⟨hp, h4, h6⟩ := h
  have hstore : s.store p = s := by
    simp [State.store, State.keep, Addresses.of, h4, h6]
  simp only [answer, hstore, hp]

theorem heard_recv {content : Bytes} {p : Packet} (h : received content = some (.ok (some p))) :
    heard s (.recv content) = if genuine s p then [p] else [] := by
  rw [heard, h]

theorem heard_of_other {e : Event} (he : ∀ content, e ≠ .recv content) : heard s e = [] := by
  cases e with
  | recv content => exact absurd rfl (he content)
  | _ => rfl

theorem recv_cases {content : Bytes} (hok : Trusted s (.recv content))
    (hstep : step s (.recv content) = some s') :
    s' = s ∧ heard s (.recv content) = [] ∨
      ∃ p, heard s (.recv content) = [p] ∧ s' = answer s p := by
  simp only [step, Option.map_eq_some_iff] at hstep
  obtain ⟨r, hr, rfl⟩ := hstep
  rcases r with _ | _ | p
  · exact .inl ⟨rfl, by rw [heard, hr]⟩
  · exact .inl ⟨rfl, by rw [heard, hr]⟩
  · rcases hok p hr with hgen | hidle
    · exact .inr ⟨p, by rw [heard_recv hr, if_pos hgen], rfl⟩
    · have hgen : genuine s p = false := by
        rw [genuine, hidle.1]
        rfl
      exact .inl ⟨answer_of_idle hidle, by rw [heard_recv hr, hgen]; rfl⟩

theorem exists_of_lookup {name : Bytes} {qtype : QType} {ignorettl : Bool} {as : List Bytes}
    (h : lookup_cache s name qtype ignorettl = some as) :
    ∃ e, s.CACHE qtype name = some e ∧ e.answers = as := by
  unfold lookup_cache at h
  split at h
  · rename_i e he
    split_ifs at h
    cases h
    exact ⟨e, he, rfl⟩
  · cases h

theorem of_mem_finish {name n : Bytes} {qtype q : QType} {o : Outcome} {as : List Bytes}
    (h : (n, q, Outcome.answers as) ∈ (s.finish name qtype o).ended) :
    (n, q, Outcome.answers as) ∈ s.ended ∨ n = name ∧ q = qtype ∧ o = .answers as := by
  simp only [State.finish, mem_append, mem_singleton, Prod.mk.injEq] at h
  rcases h with h | ⟨hn, hq, ho⟩
  · exact .inl h
  · exact .inr ⟨hn, hq, ho.symm⟩

theorem resolve_spec (s : State) (name : Bytes) (ipv6 : Bool) :
    (resolve s name ipv6).CACHE = s.CACHE ∧
      (∀ r ∈ (resolve s name ipv6).requests, r ∈ s.requests ∨ r.answers = none) ∧
      ∀ {n : Bytes} {q : QType} {as : List Bytes}, (n, q, Outcome.answers as) ∈
        (resolve s name ipv6).ended → (n, q, Outcome.answers as) ∈ s.ended ∨
          lookup_cache s n q false = some as := by
  unfold resolve
  dsimp only
  by_cases hverify : verify_domain_name (Bytes.lower name) = true
  · rw [hverify, Bool.not_true, if_neg Bool.false_ne_true]
    rcases hlookup : lookup_cache s (Bytes.lower name) (qtypeOf ipv6) false with _ | as
    · rcases hpack : pack_header s.next_tid with _ | header
      · exact ⟨rfl, fun r hr => .inl hr, fun h => (of_mem_finish h).imp_right fun h => by cases h.2.2⟩
      · by_cases hserver : s.dns_server = true
        · simp only [hserver, if_true]
          refine ⟨rfl, fun r hr => ?_, fun h => .inl h⟩
          simp only [suspend, mem_append, mem_singleton] at hr
          rcases hr with hr | rfl
          · exact .inl hr
          · exact .inr rfl
        · simp only [hserver]
          exact ⟨rfl, fun r hr => .inl hr,
            fun h => (of_mem_finish h).imp_right fun h => by cases h.2.2⟩
    · refine ⟨rfl, fun r hr => .inl hr, fun h => ?_⟩
      rcases of_mem_finish h with h | ⟨rfl, rfl, ho⟩
      · exact .inl h
      · cases ho
        exact .inr hlookup
  · rw [Bool.eq_false_iff.2 hverify, Bool.not_false, if_pos rfl]
    exact ⟨rfl, fun r hr => .inl hr, fun h => (of_mem_finish h).imp_right fun h => by cases h.2.2⟩

theorem resume_data (s : State) (r : Request) : (resume s r).CACHE = s.CACHE ∧
    (resume s r).requests = s.requests ∧ ∀ {n : Bytes} {q : QType} {as : List Bytes},
      (n, q, Outcome.answers as) ∈ (resume s r).ended → (n, q, Outcome.answers as) ∈ s.ended ∨
        n = r.name ∧ q = r.qtype ∧
          (r.answers = some as ∨ lookup_cache s r.name r.qtype true = some as) := by
  have hpool : ∀ f, lookup_cache { s with request_pool := f } r.name r.qtype true =
      lookup_cache s r.name r.qtype true := fun _ => rfl
  unfold resume
  rcases hanswers : r.answers with _ | as
  · rcases hlookup : lookup_cache s r.name r.qtype true with _ | as
    · simp only [hpool, hlookup]
      exact ⟨rfl, rfl, fun h => (of_mem_finish h).imp_right fun h => by cases h.2.2⟩
    · simp only [hpool, hlookup]
      refine ⟨rfl, rfl, fun h => (of_mem_finish h).imp_right ?_⟩
      rintro ⟨rfl, rfl, ho⟩
      cases ho
      exact ⟨rfl, rfl, .inr rfl⟩
  · dsimp only
    refine ⟨rfl, rfl, fun h => (of_mem_finish h).imp_right ?_⟩
    rintro ⟨rfl, rfl, ho⟩
    cases ho
    exact ⟨rfl, rfl, .inl rfl⟩

/-- The request is one of another state, as far as names and answers go. -/
def Stems (rs : List Request) (r : Request) : Prop :=
  ∃ r' ∈ rs, r.name = r'.name ∧ r.qtype = r'.qtype ∧ r.answers = r'.answers

theorem timeout_data (s : State) (r : Request) : (timeout s r).CACHE = s.CACHE ∧
    (timeout s r).ended = s.ended ∧ ∀ x ∈ (timeout s r).requests, Stems s.requests x := by
  unfold timeout
  rcases s.request_pool r.tid with _ | j
  · exact ⟨rfl, rfl, fun x hx => ⟨x, hx, rfl, rfl, rfl⟩⟩
  · refine ⟨rfl, rfl, fun x hx => ?_⟩
    obtain ⟨i, hi⟩ := mem_iff_getElem?.1 hx
    simp only [wakeup, getElem?_modify, Option.map_eq_map, Option.map_eq_some_iff] at hi
    obtain ⟨r', hr', rfl⟩ := hi
    refine ⟨r', mem_of_getElem? hr', ?_⟩
    split_ifs
    · exact wake_data r'
    · exact ⟨rfl, rfl, rfl⟩

theorem stems_of_mem_set {rs : List Request} {k : ℕ} {r x y : Request} (hr : rs[k]? = some r)
    (hy : y.name = r.name ∧ y.qtype = r.qtype ∧ y.answers = r.answers) (hx : x ∈ rs.set k y) :
    Stems rs x := by
  rcases mem_or_eq_of_mem_set hx with hx | rfl
  · exact ⟨x, hx, rfl, rfl, rfl⟩
  · exact ⟨r, mem_of_getElem? hr, hy⟩

theorem Stems.trans {rs rs' : List Request} {r : Request} (h : Stems rs' r)
    (h' : ∀ x ∈ rs', Stems rs x) : Stems rs r := by
  obtain ⟨x, hx, h₁, h₂, h₃⟩ := h
  obtain ⟨y, hy, k₁, k₂, k₃⟩ := h' x hx
  exact ⟨y, hy, h₁.trans k₁, h₂.trans k₂, h₃.trans k₃⟩

theorem timeout_step {k : ℕ} (h : step s (.timeout k) = some s') : ∃ r, s.requests[k]? = some r ∧
    s' = timeout { s with requests := s.requests.set k { r with timer := false } } r := by
  simp only [step] at h
  rcases hr : s.requests[k]? with _ | r
  · rw [hr] at h
    cases h
  · rw [hr] at h
    simp only [Option.ite_none_right_eq_some, Option.some.injEq] at h
    exact ⟨r, rfl, h.2.symm⟩

theorem resume_step {k : ℕ} (h : step s (.resume k) = some s') : ∃ r, s.requests[k]? = some r ∧
    s' = resume { s with requests := s.requests.set k r.resume } r := by
  simp only [step] at h
  rcases hr : s.requests[k]? with _ | r
  · rw [hr] at h
    cases h
  · rw [hr] at h
    simp only [Option.ite_none_right_eq_some, Option.some.injEq] at h
    exact ⟨r, rfl, h.2.symm⟩

theorem cache_of_other {e : Event} (he : ∀ content, e ≠ .recv content)
    (hstep : step s e = some s') (qtype : QType) (name : Bytes) :
    s'.CACHE qtype name = s.CACHE qtype name ∨
      e = .collect qtype name ∧ s'.CACHE qtype name = none := by
  cases e with
  | server =>
    cases hstep
    exact .inl rfl
  | resolve name' ipv6 =>
    cases hstep
    rw [(resolve_spec s name' ipv6).1]
    exact .inl rfl
  | recv content => exact absurd rfl (he content)
  | timeout k =>
    obtain ⟨r, -, rfl⟩ := timeout_step hstep
    rw [(timeout_data _ r).1]
    exact .inl rfl
  | resume k =>
    obtain ⟨r, -, rfl⟩ := resume_step hstep
    rw [(resume_data _ r).1]
    exact .inl rfl
  | tick =>
    cases hstep
    exact .inl rfl
  | collect qtype' name' =>
    cases hstep
    rw [setEntry_eq]
    split_ifs with h
    · obtain ⟨rfl, rfl⟩ := h
      exact .inr ⟨rfl, rfl⟩
    · exact .inl rfl

end Caches

section Run

/-- What holds in a run: also what a request has got is from an answer. -/
structure CacheInv (x : State × List Packet) : Prop where
  cached : ∀ {qtype : QType} {name : Bytes} {e : Entry}, x.1.CACHE qtype name = some e →
    Told x.2 name qtype e.answers
  returned : ∀ {name : Bytes} {qtype : QType} {as : List Bytes},
    (name, qtype, Outcome.answers as) ∈ x.1.ended → Told x.2 name qtype as
  got : ∀ r ∈ x.1.requests, ∀ as ∈ r.answers, Told x.2 r.name r.qtype as

theorem cacheInv_init : CacheInv hearing.init where
  cached h := by cases h
  returned h := by cases h
  got _ h := by cases h

variable {s s' : State} {ps : List Packet}

theorem CacheInv.answer (h : CacheInv (s, ps)) (p : Packet) :
    CacheInv (Dns.answer s p, ps ++ [p]) := by
  have hp : ∀ qtype, Told (ps ++ [p]) p.question.name qtype (p.addresses.of qtype) := fun qtype =>
    ⟨p, mem_append_right _ (mem_singleton_self p), rfl, rfl⟩
  have hcached : ∀ {qtype : QType} {name : Bytes} {e : Entry},
      (s.store p).CACHE qtype name = some e → Told (ps ++ [p]) name qtype e.answers := by
    intro qtype name e he
    rcases store_cache s p qtype name with heq | ⟨rfl, ttl, heq⟩
    · rw [heq] at he
      exact (h.cached he).mono
    · rw [heq] at he
      cases he
      exact hp qtype
  obtain ⟨hreq, -, -, hended⟩ := answer_spec s p
  refine ⟨fun he => hcached (answer_cache s p ▸ he), fun ho => ?_, fun r hr as has => ?_⟩
  · rw [hended] at ho
    exact (h.returned ho).mono
  · obtain ⟨i, hi⟩ := mem_iff_getElem?.1 hr
    rw [hreq, Option.map_eq_some_iff] at hi
    obtain ⟨r', hr', rfl⟩ := hi
    have hold : ∀ as ∈ r'.answers, Told (ps ++ [p]) r'.name r'.qtype as := fun as has =>
      (h.got r' (mem_of_getElem? hr') as has).mono
    unfold answered at has ⊢
    split_ifs at has ⊢
    · obtain ⟨hname, hqtype, hanswers⟩ := wake_data (takeAnswers (s.store p) r')
      rw [hanswers] at has
      rw [hname, hqtype]
      unfold takeAnswers at has ⊢
      split at has
      · rename_i e he
        cases has
        exact hcached he
      · exact hold as has
    · exact hold as has

theorem CacheInv.other (h : CacheInv (s, ps)) {e : Event} (he : ∀ content, e ≠ .recv content)
    (hstep : step s e = some s') : CacheInv (s', ps) := by
  have hcached : ∀ {qtype : QType} {name : Bytes} {entry : Entry},
      s'.CACHE qtype name = some entry → Told ps name qtype entry.answers := by
    intro qtype name entry hentry
    rcases cache_of_other he hstep qtype name with heq | ⟨-, heq⟩
    · exact h.cached (heq ▸ hentry)
    · rw [heq] at hentry
      cases hentry
  have hlookup : ∀ {name : Bytes} {qtype : QType} {ignorettl : Bool} {as : List Bytes},
      lookup_cache s name qtype ignorettl = some as → Told ps name qtype as := by
    intro name qtype ignorettl as has
    obtain ⟨entry, hentry, rfl⟩ := exists_of_lookup has
    exact h.cached hentry
  have hstems : ∀ {r : Request}, Stems s.requests r → ∀ as ∈ r.answers,
      Told ps r.name r.qtype as := by
    rintro r ⟨r', hr', hname, hqtype, hanswers⟩ as has
    rw [hname, hqtype]
    exact h.got r' hr' as (hanswers ▸ has)
  cases e with
  | server =>
    cases hstep
    exact ⟨hcached, h.returned, h.got⟩
  | resolve name ipv6 =>
    cases hstep
    obtain ⟨-, hreq, hended⟩ := resolve_spec s name ipv6
    refine ⟨hcached, fun ho => (hended ho).elim h.returned hlookup, fun r hr as has => ?_⟩
    rcases hreq r hr with hr | hnone
    · exact h.got r hr as has
    · rw [hnone] at has
      cases has
  | recv content => exact absurd rfl (he content)
  | timeout k =>
    obtain ⟨r, hr, rfl⟩ := timeout_step hstep
    obtain ⟨-, hended, hreq⟩ :=
      timeout_data { s with requests := s.requests.set k { r with timer := false } } r
    refine ⟨hcached, fun ho => h.returned (hended ▸ ho), fun x hx => hstems ?_⟩
    exact (hreq x hx).trans fun y hy =>
      stems_of_mem_set (y := { r with timer := false }) hr ⟨rfl, rfl, rfl⟩ hy
  | resume k =>
    obtain ⟨r, hr, rfl⟩ := resume_step hstep
    obtain ⟨-, hreq, hended⟩ := resume_data { s with requests := s.requests.set k r.resume } r
    refine ⟨hcached, fun ho => ?_, fun x hx => hstems ?_⟩
    · rcases hended ho with ho | ⟨rfl, rfl, has | has⟩
      · exact h.returned ho
      · exact h.got r (mem_of_getElem? hr) _ has
      · exact hlookup has
    · rw [hreq] at hx
      exact stems_of_mem_set (y := r.resume) hr ⟨rfl, rfl, rfl⟩ hx
  | tick =>
    cases hstep
    exact ⟨hcached, h.returned, h.got⟩
  | collect qtype name =>
    cases hstep
    exact ⟨hcached, h.returned, h.got⟩

theorem CacheInv.step {x x' : State × List Packet} {e : Event} (h : CacheInv x)
    (hok : Trusted x.1 e) (hstep : hearing.step x e = some x') : CacheInv x' := by
  obtain ⟨s, ps⟩ := x
  simp only [hearing, Option.map_eq_some_iff] at hstep
  obtain ⟨s', hstep, rfl⟩ := hstep
  by_cases he : ∃ content, e = .recv content
  · obtain ⟨content, rfl⟩ := he
    rcases recv_cases hok hstep with ⟨rfl, hheard⟩ | ⟨p, hheard, rfl⟩
    · rw [hheard, append_nil]
      exact h
    · rw [hheard]
      exact h.answer p
  · have hother : ∀ content, e ≠ .recv content := fun content hc => he ⟨content, hc⟩
    rw [heard_of_other hother, append_nil]
    exact h.other hother hstep

theorem CacheInv.integrity {x : State × List Packet} (h : CacheInv x) : Integrity x where
  cached := h.cached
  returned := h.returned
  changed := by
    intro e s' hok hstep qtype name
    by_cases he : ∃ content, e = .recv content
    · obtain ⟨content, rfl⟩ := he
      rcases recv_cases hok hstep with ⟨rfl, -⟩ | ⟨p, hheard, rfl⟩
      · exact .inl rfl
      · rw [answer_cache, hheard]
        rcases store_cache x.1 p qtype name with heq | ⟨rfl, -⟩
        · exact .inl heq
        · exact .inr (.inr ⟨p, mem_singleton_self p, rfl⟩)
    · rcases cache_of_other (fun content hc => he ⟨content, hc⟩) hstep qtype name with heq | heq
      · exact .inl heq
      · exact .inr (.inl heq.1)
  foreign := by
    intro content s' hok hstep hnone
    rcases recv_cases hok hstep with ⟨rfl, -⟩ | ⟨p, hheard, -⟩
    · exact ⟨rfl, rfl⟩
    · rw [hnone] at hheard
      cases hheard

/-- As long as no packet with addresses is foreign, and none that has the id of a query asks for
another name, addresses come from answers. -/
theorem integrity_of_trusted {x : State × List Packet}
    (h : hearing.Reach (fun x e => Trusted x.1 e) x) : Integrity x :=
  (h.invariant cacheInv_init fun _ _ _ hinv hok hstep => hinv.step hok hstep).integrity

/-- An answer with an id, and an address for `a`. -/
def answerPacket (tid : UInt8) (ip : List UInt8) : Bytes :=
  [0, tid, 0x81, 0x80, 0, 1, 0, 1, 0, 0, 0, 0, 1, 97, 0, 0, 1, 0, 1, 0xc0, 12, 0, 1, 0, 1,
    0, 0, 0, 60, 0, 4] ++ ip

def onePacket : Packet := ⟨1, ⟨[97], 1, 1⟩, ⟨some 60, [Bytes.ascii "6.7.8.9"], []⟩⟩

theorem received_one : received (answerPacket 1 [6, 7, 8, 9]) = some (.ok (some onePacket)) := by
  rfl

/-- A query and its answer. -/
theorem integrity_of_trusted_one : ∃ s, Integrity (s, [onePacket]) ∧
    s.ended = [(Bytes.ascii "a", .A, .answers [Bytes.ascii "6.7.8.9"])] := by
  have hserver : hearing.Reach (fun x e => Trusted x.1 e)
      ({ State.init with dns_server := true }, []) :=
    Machine.Reach.init.step (i := .server) trivial rfl
  obtain ⟨s, hs⟩ : ∃ s, s = resolve { State.init with dns_server := true } (Bytes.ascii "a") false :=
    ⟨_, rfl⟩
  have hquery : hearing.Reach (fun x e => Trusted x.1 e) (s, []) :=
    hserver.step (i := .resolve (Bytes.ascii "a") false) trivial (by rw [hs]; rfl)
  have hgen : genuine s onePacket = true := by
    rw [hs]
    rfl
  have htrusted : Trusted s (.recv (answerPacket 1 [6, 7, 8, 9])) := by
    intro p hp
    rw [received_one] at hp
    cases hp
    exact .inl hgen
  have hanswer : hearing.step (s, []) (.recv (answerPacket 1 [6, 7, 8, 9])) =
      some (answer s onePacket, [onePacket]) := by
    simp [hearing, step, heard, received_one, hgen]
  have hresume : ∃ s', step (answer s onePacket) (.resume 0) = some s' ∧
      s'.ended = [(Bytes.ascii "a", .A, .answers [Bytes.ascii "6.7.8.9"])] := by
    rw [hs]
    exact ⟨_, rfl, rfl⟩
  obtain ⟨s', hstep, hended⟩ := hresume
  have hlast : hearing.step (answer s onePacket, [onePacket]) (.resume 0) =
      some (s', [onePacket]) := by
    simp [hearing, hstep, heard]
  have hok : Trusted (answer s onePacket) (.resume 0) := trivial
  exact ⟨s', integrity_of_trusted ((hquery.step htrusted hanswer).step hok hlast), hended⟩

/-- Nobody has asked for anything. -/
theorem not_integrity_of_foreign : ¬ ∀ x, hearing.Reachable x → Integrity x := by
  intro h
  have hgen : genuine State.init onePacket = false := rfl
  have hstep : hearing.step (State.init, []) (.recv (answerPacket 1 [6, 7, 8, 9])) =
      some (answer State.init onePacket, []) := by
    simp [hearing, step, heard, received_one, hgen]
  have hreach : hearing.Reachable (answer State.init onePacket, []) :=
    Machine.Reach.init.step trivial hstep
  have hcache : (answer State.init onePacket).CACHE .A [97] =
      some ⟨[Bytes.ascii "6.7.8.9"], 6000⟩ := rfl
  obtain ⟨p, hp, -⟩ := (h _ hreach).cached hcache
  cases hp

end Run

end Dns

end SkynetGame
