import SkynetGame.Proofs.HarborDown

/-!
# The harbor as queues

What happens to messages takes queues alone: one for each name that is not known, one for each harbor
that is not connected yet, and the log of what left. The service takes steps of that (`step_queues`);
the bytes of the connections do not show in it.
-/

namespace SkynetGame

open Function List

namespace Harbor

/-- The messages on their way, and whether a connection is past its handshake. -/
@[ext] structure Queues where
  own : UInt8
  home : UInt8
  sent : List Sent
  value : Bytes → UInt32
  first : Bytes → UInt32
  waiting : Bytes → List HarborMsg
  queue : UInt8 → List HarborMsg
  fd : UInt8 → ℤ
  ready : UInt8 → Bool
  log : List Out

namespace Queues

/-- What is said about payloads of this node. -/
def carried : Out → Bool
  | .remote _ _ _ | .local _ _ _ _ _ | .free _ => true
  | _ => false

def Target (v : Queues) (r : Sent) (handle : UInt32) : Prop :=
  r.addr = .handle handle ∨ ∃ n, r.addr = .name n ∧ v.value n = handle ∧ handle ≠ 0

def buffer (v : Queues) (r : Sent) : Buffer := ⟨v.sent.length, r.bytes⟩

/-- A message that is sent to a handle, as it is queued or written. -/
def msg (v : Queues) (r : Sent) (handle : UInt32) : HarborMsg :=
  ⟨⟨r.source, high r.type ||| (handle &&& HANDLE_MASK), r.session.toUInt32⟩, v.buffer r⟩

/-- A message of a name that is not known, as it is queued. -/
def asked (v : Queues) (r : Sent) : HarborMsg :=
  ⟨⟨r.source, high r.type, r.session.toUInt32⟩, v.buffer r⟩

/-- The handle of the name, in its place. -/
def merge (handle : UInt32) (m : HarborMsg) : HarborMsg :=
  { m with header.destination := m.header.destination ||| (handle &&& HANDLE_MASK) }

/-- A message that is sent on within this node. -/
def passOn (handle : UInt32) (m : HarborMsg) : Out :=
  .local m.header.source handle (harborOf m.header.destination) m.header.session.toInt32 m.buffer

def learn (v : Queues) (n : Bytes) (handle : UInt32) : Queues :=
  { v with
    value := Function.update v.value n handle
    first := if v.value n = 0 then Function.update v.first n handle else v.first
    waiting := Function.update v.waiting n [] }

inductive Event where
  | send (r : Sent)
  -- the queue of a name goes behind the one of a harbor
  | move (n : Bytes)
  | other

inductive Step : Queues → Event → Queues → Prop
  | ask {v : Queues} {r : Sent} {n : Bytes} : r.addr = .name n → r.known = false → v.value n = 0 →
      Step v (.send r) { v with
        sent := v.sent ++ [r]
        waiting := Function.update v.waiting n (v.waiting n ++ [v.asked r]) }
  | here {v : Queues} {r : Sent} {handle : UInt32} : v.Target r handle → r.known = true →
      harborOf handle = v.own → Step v (.send r) { v with
        sent := v.sent ++ [r]
        log := v.log ++ [.local r.source handle r.type r.session (v.buffer r)] }
  | put {v : Queues} {r : Sent} {handle : UInt32} : v.Target r handle → r.known = true →
      harborOf handle ≠ v.own →
      v.fd (harborOf handle) = 0 ∨ v.ready (harborOf handle) = false → Step v (.send r) { v with
        sent := v.sent ++ [r]
        queue := Function.update v.queue (harborOf handle)
          (v.queue (harborOf handle) ++ [v.msg r handle]) }
  | write {v : Queues} {r : Sent} {handle : UInt32} : v.Target r handle → r.known = true →
      harborOf handle ≠ v.own → v.fd (harborOf handle) ≠ 0 → v.ready (harborOf handle) = true →
      Step v (.send r) { v with
        sent := v.sent ++ [r]
        log := v.log ++
          (drain (harborOf handle) (v.fd (harborOf handle)) [v.msg r handle]).filter carried }
  | lose {v : Queues} {id : UInt8} : v.fd id ≠ 0 → Step v .other { v with
      queue := Function.update v.queue id []
      ready := Function.update v.ready id true
      log := v.log ++ (v.queue id).map fun m => .free m.buffer }
  | dial {v : Queues} {id : UInt8} {fd : ℤ} : v.fd id = 0 → fd ≠ 0 → Step v .other { v with
      fd := Function.update v.fd id fd
      ready := Function.update v.ready id false }
  | drain {v : Queues} {id : UInt8} : v.fd id ≠ 0 → Step v .other { v with
      queue := Function.update v.queue id []
      ready := Function.update v.ready id true
      log := v.log ++ (drain id (v.fd id) (v.queue id)).filter carried }
  | learn {v : Queues} {n : Bytes} {handle : UInt32} : handle ≠ 0 → v.waiting n = [] →
      Step v .other (v.learn n handle)
  | learnHere {v : Queues} {n : Bytes} {handle : UInt32} : handle ≠ 0 →
      v.fd (harborOf handle) = 0 → harborOf handle = v.home →
      Step v .other { v.learn n handle with
        queue := Function.update v.queue (harborOf handle) []
        log := v.log ++ (v.queue (harborOf handle) ++ v.waiting n).map (passOn handle) }
  | learnWrite {v : Queues} {n : Bytes} {handle : UInt32} : handle ≠ 0 →
      v.fd (harborOf handle) ≠ 0 → Step v .other { v.learn n handle with
        log := v.log ++ (Harbor.drain (harborOf handle) (v.fd (harborOf handle))
          ((v.waiting n).map (merge handle))).filter carried }
  | learnMove {v : Queues} {n : Bytes} {handle : UInt32} : handle ≠ 0 →
      v.fd (harborOf handle) = 0 → harborOf handle ≠ v.home → Step v (.move n) { v.learn n handle with
        queue := Function.update v.queue (harborOf handle)
          (v.queue (harborOf handle) ++ v.waiting n) }

/-- Steps whose events meet `E`. -/
def Path (E : Event → Prop) : Queues → Queues → Prop :=
  Relation.ReflTransGen fun v v' => ∃ e, E e ∧ Step v e v'

theorem Path.invariant {E : Event → Prop} {I : Queues → Prop} {v v' : Queues} (h : Path E v v')
    (h₀ : I v) (hstep : ∀ v e v', I v → E e → Step v e v' → I v') : I v' := by
  induction h with
  | refl => exact h₀
  | tail _ hst ih =>
    obtain ⟨e, he, hst⟩ := hst
    exact hstep _ e _ ih he hst

theorem Path.single {E : Event → Prop} {e : Event} {v v' : Queues} (he : E e) (h : Step v e v') :
    Path E v v' := Relation.ReflTransGen.single ⟨e, he, h⟩

theorem Path.of_eq {E : Event → Prop} {e : Event} {v v' v'' : Queues} (he : E e)
    (h : Step v e v') (heq : v'' = v') : Path E v v'' := by
  rw [heq]
  exact .single he h

end Queues

open Queues (carried Path)

section View

/-- The byte of its handshake is not awaited. -/
def Slave.ready (sl : Slave) : Bool := sl.status != .handshake

def State.queues (h : State) : Queues where
  own := h.id
  home := harborOf h.slave
  sent := h.sent
  value := fun n => (h.map n).value
  first := h.first
  waiting := fun n => (h.map n).queue.getD []
  queue := fun id => (h.s id).queue.getD []
  fd := fun id => (h.s id).fd
  ready := fun id => (h.s id).ready
  log := h.log.filter carried

variable (h : State) (id : UInt8)

theorem queues_emit (outs : List Out) : (h.emit outs).queues =
    { h.queues with log := h.queues.log ++ outs.filter carried } := by
  simp only [State.queues, State.emit, filter_append]

theorem update_fun {ι α β : Type*} [DecidableEq ι] (f : ι → α) (i : ι) (x : α) (g : α → β) :
    (fun j => g (update f i x j)) = update (fun j => g (f j)) i (g x) :=
  Function.comp_update g f i x

theorem queues_setSlave (sl : Slave) : (h.setSlave id sl).queues =
    { h.queues with
      queue := update h.queues.queue id (sl.queue.getD [])
      fd := update h.queues.fd id sl.fd
      ready := update h.queues.ready id sl.ready } := by
  simp only [State.queues, State.setSlave, update_fun h.s id sl fun sl => sl.queue.getD [],
    update_fun h.s id sl Slave.fd, update_fun h.s id sl Slave.ready]

theorem queues_setName (n : Bytes) (node : KeyValue) : (h.setName n node).queues =
    { h.queues with
      value := update h.queues.value n node.value
      waiting := update h.queues.waiting n (node.queue.getD []) } := by
  simp only [State.queues, State.setName, update_fun h.map n node KeyValue.value,
    update_fun h.map n node fun node => node.queue.getD []]

end View

section Bytes

variable {fails : ℕ → Bool} {id : UInt8} {h : State} {E : Queues.Event → Prop}

theorem queues_same {sl : Slave} (hq : sl.queue = (h.s id).queue) (hfd : sl.fd = (h.s id).fd)
    (hready : sl.ready = (h.s id).ready) : (h.setSlave id sl).queues = h.queues := by
  have hq' : sl.queue.getD [] = h.queues.queue id := by
    rw [hq]
    rfl
  have hfd' : sl.fd = h.queues.fd id := hfd
  have hready' : sl.ready = h.queues.ready id := hready
  rw [queues_setSlave, hq', hfd', hready', update_eq_self, update_eq_self,
    update_eq_self]

theorem filter_free (queue : Option (List HarborMsg)) :
    (releaseQueue queue).filter carried = releaseQueue queue := by
  refine filter_eq_self.2 fun o ho => ?_
  obtain ⟨m, -, rfl⟩ := List.mem_map.1 ho
  rfl

theorem closeHarbor_path (hE : E .other) (hfd : (h.s id).fd ≠ 0) :
    Path E h.queues (closeHarbor id h).queues := by
  refine Path.single hE ?_
  have hq : (closeHarbor id h).queues = { h.queues with
      queue := update h.queues.queue id []
      ready := update h.queues.ready id true
      log := h.queues.log ++ (h.queues.queue id).map fun m => .free m.buffer } := by
    show ((h.setSlave id _).emit _).queues = _
    have hself : update h.queues.fd id (h.s id).fd = h.queues.fd :=
      update_eq_self id h.queues.fd
    rw [queues_emit, queues_setSlave, hself, if_pos hfd, filter_append, filter_free]
    rfl
  rw [hq]
  exact .lose hfd

theorem dispatchQueue_path (hE : E .other) (hfd : (h.s id).fd ≠ 0) : Path E h.queues
    (dispatchQueue id (h.setSlave id { h.s id with status := .header })).queues := by
  refine Path.single hE ?_
  have hq : (dispatchQueue id (h.setSlave id { h.s id with status := .header })).queues =
      { h.queues with
        queue := update h.queues.queue id []
        ready := update h.queues.ready id true
        log := h.queues.log ++ (drain id (h.queues.fd id) (h.queues.queue id)).filter carried } := by
    have hself : update h.queues.fd id (h.s id).fd = h.queues.fd :=
      update_eq_self id h.queues.fd
    rw [dispatchQueue_eq, queues_emit, setSlave_setSlave, queues_setSlave]
    simp only [setSlave_self, hself]
    rfl
  rw [hq]
  exact .drain hfd

theorem filter_arrival (own : UInt8) (n : ℕ) (msg : Bytes) :
    (arrival fails own n msg).filter carried = [] := by
  unfold arrival
  simp only []
  split_ifs <;> rfl

theorem deliver_queues (hst : (h.s id).status = .content) (msg : Bytes) :
    (deliver fails id msg h).queues = h.queues := by
  have hready : (h.s id).ready = true := by
    rw [Slave.ready, hst]
    rfl
  have hsame : (h.setSlave id { h.s id with length := 0, part := [], status := .header }).queues =
      h.queues := queues_same rfl rfl hready.symm
  rw [deliver, queues_emit, filter_arrival, append_nil]
  exact hsame

theorem eatHeader_path (hE : E .other) (hst : (h.s id).status = .header)
    (hfd : (h.s id).fd ≠ 0) (b : UInt8) : Path E h.queues (eatHeader id h b).queues := by
  have hready : (h.s id).ready = true := by
    rw [Slave.ready, hst]
    rfl
  have hpart : (h.setSlave id { h.s id with part := (h.s id).part ++ [b] }).queues = h.queues :=
    queues_same rfl rfl rfl
  have hlength : ∀ length, (h.setSlave id
      { h.s id with length := length, part := [], status := .content }).queues = h.queues :=
    fun _ => queues_same rfl rfl hready.symm
  unfold eatHeader
  simp only []
  split_ifs
  · rw [hpart]
    exact .refl
  · rw [← hpart]
    exact closeHarbor_path hE (by rwa [setSlave_self])
  · rw [hlength]
    exact .refl

theorem eat_path (hE : E .other) (hfd : (h.s id).fd ≠ 0) (b : UInt8) :
    Path E h.queues (eat fails id h b).queues := by
  have hpart : (h.setSlave id { h.s id with part := (h.s id).part ++ [b] }).queues = h.queues :=
    queues_same rfl rfl rfl
  cases hst : (h.s id).status with
  | wait =>
    rw [eat_idle (.inl hst)]
    exact .refl
  | down =>
    rw [eat_idle (.inr hst)]
    exact .refl
  | handshake =>
    rw [eat_handshake hst]
    split_ifs
    · exact closeHarbor_path hE hfd
    · exact dispatchQueue_path hE hfd
  | header =>
    rw [eat_header hst]
    exact eatHeader_path hE hst hfd b
  | content =>
    rw [eat_content hst]
    split_ifs
    · rw [← deliver_queues hst []]
      exact eatHeader_path hE (by rw [deliver_s]) (by rwa [deliver_s]) b
    · rw [hpart]
      exact .refl
    · rw [deliver_queues hst]
      exact .refl

theorem foldl_eat_path (hE : E .other) : ∀ {buffer : Bytes} {h : State}, (h.s id).fd ≠ 0 →
    Path E h.queues (buffer.foldl (eat fails id) h).queues
  | [], _, _ => .refl
  | b :: buffer, h, hfd =>
    (eat_path hE hfd b).trans (foldl_eat_path hE (by rwa [eat_fd]))

end Bytes

section Steps

variable {fails : ℕ → Bool} {h h' : State} {E : Queues.Event → Prop}

theorem filter_passOn (handle : UInt32) (queue : List HarborMsg) :
    (queue.map (Queues.passOn handle)).filter carried = queue.map (Queues.passOn handle) := by
  refine filter_eq_self.2 fun o ho => ?_
  obtain ⟨m, -, rfl⟩ := List.mem_map.1 ho
  rfl

theorem connect_path (hE : E .other) (accept : Bool) (fd id : ℤ) :
    Path E h.queues (connect accept fd id h).queues := by
  unfold connect
  split
  next => exact .refl
  next hbad =>
    have hne : fd ≠ 0 := fun hz => hbad (.inl hz)
    simp only []
    generalize UInt8.ofNat id.toNat = id
    split
    next => exact .refl
    next hfd =>
      -- until its handshake the connection is not ready, also where it was accepted
      have hdial : ∀ outs : List Out, outs.filter carried = [] → Path E h.queues
          ((h.emit outs).setSlave id { h.s id with fd := fd, status := .handshake }).queues := by
        intro outs hnone
        refine Path.single hE ?_
        have hself : update h.queues.queue id ((h.s id).queue.getD []) = h.queues.queue :=
          update_eq_self id h.queues.queue
        have hq : ((h.emit outs).setSlave id
            { h.s id with fd := fd, status := .handshake }).queues =
            { h.queues with
              fd := update h.queues.fd id fd
              ready := update h.queues.ready id false } := by
          rw [emit_setSlave, queues_emit, queues_setSlave, hnone, hself, append_nil]
          rfl
        rw [hq]
        exact .dial (not_not.1 hfd) hne
      have hstart := hdial [.start fd, .handshake fd] rfl
      split
      · refine hstart.trans ?_
        have hfd' : (((h.emit [.start fd, .handshake fd]).setSlave id
            { h.s id with fd := fd, status := .handshake }).s id).fd ≠ 0 := by rwa [setSlave_self]
        have hd := dispatchQueue_path hE hfd'
        rw [setSlave_setSlave] at hd
        simp only [setSlave_self] at hd
        exact hd
      · exact hstart

theorem learn_queues (n : Bytes) (handle : UInt32) : (learn n handle h).queues =
    { h.queues.learn n handle with waiting := h.queues.waiting } := by
  simp only [State.queues, Queues.learn, learn,
    update_fun h.map n { h.map n with value := handle } KeyValue.value,
    update_fun h.map n { h.map n with value := handle } fun node => node.queue.getD []]
  rw [update_eq_self n fun m => (h.map m).queue.getD []]
  rfl

theorem giveUp_queues {n : Bytes} (hnil : (h.map n).queue.getD [] = []) :
    ((h.emit (releaseQueue (h.map n).queue)).setName n { h.map n with queue := none }).queues =
      { h.queues with waiting := update h.queues.waiting n [] } := by
  have hv : update h.queues.value n (h.map n).value = h.queues.value :=
    update_eq_self n h.queues.value
  have hnone : releaseQueue (h.map n).queue = [] := by rw [releaseQueue, hnil, map_nil]
  rw [queues_setName, queues_emit, hnone, filter_nil, append_nil, hv]
  rfl

theorem dispatchNameQueue_wait {n : Bytes} (queue : List HarborMsg)
    (hfd : (h.s (harborOf (h.map n).value)).fd = 0)
    (hst : (h.s (harborOf (h.map n).value)).status = .wait) :
    ((dispatchNameQueue n queue h).map n).queue.getD [] = [] ∧
      (dispatchNameQueue n queue h).queues =
        if harborOf (h.map n).value = h.queues.home then
          { h.queues with
            waiting := update h.queues.waiting n []
            queue := update h.queues.queue (harborOf (h.map n).value) []
            log := h.queues.log ++ (h.queues.queue (harborOf (h.map n).value) ++ queue).map
              (Queues.passOn (h.map n).value) }
        else { h.queues with
          waiting := update h.queues.waiting n []
          queue := update h.queues.queue (harborOf (h.map n).value)
            (h.queues.queue (harborOf (h.map n).value) ++ queue) } := by
  have hdown : ¬ (h.s (harborOf (h.map n).value)).status = .down := by
    rw [hst]
    decide
  have hvalue : update h.queues.value n (h.map n).value = h.queues.value :=
    update_eq_self n h.queues.value
  have hsfd : ∀ id, update h.queues.fd id (h.s id).fd = h.queues.fd := fun id =>
    update_eq_self id h.queues.fd
  have hready : ∀ id, update h.queues.ready id (h.s id).ready = h.queues.ready :=
    fun id => update_eq_self id h.queues.ready
  unfold dispatchNameQueue
  simp only []
  rw [if_pos hfd, if_neg hdown]
  generalize hq : (if (h.s (harborOf (h.map n).value)).queue.isNone then none else some []) = q
  have hnil : q.getD [] = ([] : List HarborMsg) := by
    rw [← hq]
    split_ifs <;> rfl
  have hset : ∀ queue : Option (List HarborMsg), ((h.setName n ⟨(h.map n).value, q⟩).setSlave
      (harborOf (h.map n).value) { h.s (harborOf (h.map n).value) with queue := queue }).queues =
      { h.queues with
        waiting := update h.queues.waiting n []
        queue := update h.queues.queue (harborOf (h.map n).value) (queue.getD []) } := by
    intro queue
    rw [queues_setSlave, queues_setName, hvalue, hnil]
    simp only [Queues.mk.injEq, true_and, and_true]
    exact ⟨hsfd _, hready _⟩
  by_cases hhome : harborOf (h.map n).value = harborOf h.slave
  · have hhome' : harborOf (h.map n).value = h.queues.home := hhome
    have hslave : harborOf (h.map n).value =
      harborOf (h.setName n ⟨(h.map n).value, q⟩).slave := hhome
    rw [if_pos hslave, if_pos hhome']
    refine ⟨?_, ?_⟩
    · show ((update h.map n ⟨(h.map n).value, q⟩) n).queue.getD [] = []
      rw [update_self]
      exact hnil
    · have hfilter := filter_passOn (h.map n).value
        (h.queues.queue (harborOf (h.map n).value) ++ queue)
      rw [queues_emit, hset]
      exact congrArg (fun log => { h.queues with
        waiting := update h.queues.waiting n []
        queue := update h.queues.queue (harborOf (h.map n).value) []
        log := h.queues.log ++ log }) hfilter
  · have hhome' : ¬ harborOf (h.map n).value = h.queues.home := hhome
    have hslave : ¬ harborOf (h.map n).value =
      harborOf (h.setName n ⟨(h.map n).value, q⟩).slave := hhome
    rw [if_neg hslave, if_neg hhome']
    refine ⟨?_, ?_⟩
    · show ((update h.map n ⟨(h.map n).value, q⟩) n).queue.getD [] = []
      rw [update_self]
      exact hnil
    · rw [hset]
      rfl

theorem dispatchNameQueue_fd {n : Bytes} (queue : List HarborMsg)
    (hfd : (h.s (harborOf (h.map n).value)).fd ≠ 0) :
    ((dispatchNameQueue n queue h).map n).queue.getD [] = [] ∧
      (dispatchNameQueue n queue h).queues =
        { h.queues with
          waiting := update h.queues.waiting n []
          log := h.queues.log ++ (drain (harborOf (h.map n).value)
            (h.queues.fd (harborOf (h.map n).value))
            (queue.map (Queues.merge (h.map n).value))).filter carried } := by
  have hvalue : update h.queues.value n (h.map n).value = h.queues.value :=
    update_eq_self n h.queues.value
  unfold dispatchNameQueue
  simp only []
  rw [if_neg hfd]
  refine ⟨?_, ?_⟩
  · show ((update h.map n _) n).queue.getD [] = []
    rw [update_self]
    rfl
  · rw [queues_emit, queues_setName, hvalue]
    rfl

theorem updateName_path (hE : E .other) (hs : Sound h) {n : Bytes} {handle : UInt32}
    (hne : handle ≠ 0)
    (hmove : (h.map n).queue.isSome → (h.s (harborOf handle)).fd = 0 →
      harborOf handle ≠ harborOf h.slave → E (.move n)) :
    Path E h.queues (updateName n handle h).queues := by
  have hlearn := learn_queues (h := h) n handle
  have hvalue : ((learn n handle h).map n).value = handle := by
    show (update h.map n _ n).value = handle
    rw [update_self]
  cases hq : (h.map n).queue with
  | none =>
    have hnil : h.queues.waiting n = [] := by
      show (h.map n).queue.getD [] = []
      rw [hq]
      rfl
    have hsame : update h.queues.waiting n [] = h.queues.waiting := by
      rw [← hnil, update_eq_self]
    rw [updateName_none hq, hlearn, ← hsame]
    exact Path.single hE (.learn hne hnil)
  | some queue =>
    have hwaiting : h.queues.waiting n = queue := by
      show (h.map n).queue.getD [] = queue
      rw [hq]
      rfl
    have hidem : update (update h.queues.waiting n []) n [] =
        (h.queues.learn n handle).waiting := update_idem ..
    have hlwaiting : (learn n handle h).queues.waiting = h.queues.waiting := by rw [hlearn]
    rw [updateName_some hq]
    by_cases hfd : ((learn n handle h).s (harborOf ((learn n handle h).map n).value)).fd = 0
    · obtain ⟨hnil, hqueues⟩ := dispatchNameQueue_wait queue hfd
        ((hs _).fresh hfd).1
      rw [giveUp_queues hnil, hqueues, hvalue]
      rw [hvalue] at hfd
      by_cases hhome : harborOf handle = h.queues.home
      · have hhome' : harborOf handle = (learn n handle h).queues.home := hhome
        rw [if_pos hhome', hlwaiting]
        simp only [hidem, hlearn, ← hwaiting]
        exact Path.single hE (.learnHere hne hfd hhome)
      · have hhome' : ¬ harborOf handle = (learn n handle h).queues.home := hhome
        rw [if_neg hhome', hlwaiting]
        simp only [hidem, hlearn, ← hwaiting]
        exact Path.single (hmove (by rw [hq]; rfl) hfd hhome) (.learnMove hne hfd hhome)
    · obtain ⟨hnil, hqueues⟩ := dispatchNameQueue_fd queue hfd
      rw [giveUp_queues hnil, hqueues, hvalue, hlwaiting]
      rw [hvalue] at hfd
      simp only [hidem, hlearn, ← hwaiting]
      exact Path.single hE (.learnWrite hne hfd)

theorem sent_queues (r : Sent) : ({ h with sent := h.sent ++ [r] } : State).queues =
    { h.queues with sent := h.queues.sent ++ [r] } := rfl

theorem remoteSendHandle_path (hs : Sound h) {r : Sent} {handle : UInt32} (hE : E (.send r))
    (ht : h.queues.Target r handle) (hk : r.known = true) {x : State × Bool}
    (hx : remoteSendHandle r.source handle r.type r.session ⟨h.sent.length, r.bytes⟩
      { h with sent := h.sent ++ [r] } = x) :
    Path E h.queues (if x.2 then x.1 else x.1.emit [.free ⟨h.sent.length, r.bytes⟩]).queues := by
  unfold remoteSendHandle at hx
  simp only [] at hx
  by_cases hown : harborOf handle = h.id
  · rw [if_pos hown] at hx
    rw [← hx, if_pos rfl, queues_emit, sent_queues]
    exact Path.single hE (.here ht hk hown)
  · rw [if_neg hown] at hx
    by_cases hwait : (h.s (harborOf handle)).fd = 0 ∨ (h.s (harborOf handle)).status = .handshake
    · have hdown : ¬ (h.s (harborOf handle)).status = .down := by
        rcases hwait with hz | hst
        · rw [((hs _).fresh hz).1]
          decide
        · rw [hst]
          decide
      have hwait' : h.queues.fd (harborOf handle) = 0 ∨ h.queues.ready (harborOf handle) = false := by
        refine hwait.imp_right fun hst => ?_
        show (h.s (harborOf handle)).ready = false
        rw [Slave.ready, hst]
        rfl
      have hfd : update h.queues.fd (harborOf handle) (h.s (harborOf handle)).fd =
        h.queues.fd := update_eq_self _ h.queues.fd
      have hready : update h.queues.ready (harborOf handle)
          (h.s (harborOf handle)).ready = h.queues.ready :=
        update_eq_self _ h.queues.ready
      rw [if_pos hwait, if_neg hdown] at hx
      rw [← hx, if_pos rfl, queues_setSlave, sent_queues]
      refine Path.of_eq hE (.put ht hk hown hwait') ?_
      simp only [hfd]
      exact congrArg (fun ready => { h.queues with
        sent := h.queues.sent ++ [r]
        queue := update h.queues.queue (harborOf handle)
          (h.queues.queue (harborOf handle) ++ [h.queues.msg r handle])
        ready := ready }) hready
    · have hfd : h.queues.fd (harborOf handle) ≠ 0 := fun hz => hwait (.inl hz)
      have hready : h.queues.ready (harborOf handle) = true := by
        refine bne_iff_ne.2 fun hst => hwait (.inr hst)
      rw [if_neg hwait] at hx
      rw [← hx, if_neg Bool.false_ne_true, queues_emit, queues_emit, sent_queues]
      refine Path.of_eq hE (.write ht hk hown hfd hready) ?_
      simp only [drain, flatMap_cons, flatMap_nil, append_nil, filter_append,
        append_assoc]
      rfl

theorem send_path (hs : Sound h) {source : UInt32} {addr : Addr} {type : UInt8} {session : Int32}
    {bytes : Bytes} (hE : ∀ r : Sent, r.bytes = bytes → E (.send r)) :
    Path E h.queues (send source addr type session bytes h).queues := by
  unfold send
  cases addr with
  | handle destination => exact remoteSendHandle_path hs (hE _ rfl) (.inl rfl) rfl rfl
  | name n =>
    simp only []
    by_cases hvalue : (h.map n).value = 0
    · have hknown : h.knows (.name n) = false := by
        show decide ((h.map n).value ≠ 0) = false
        rw [hvalue]
        rfl
      have hself : update h.queues.value n (h.map n).value = h.queues.value :=
        update_eq_self n h.queues.value
      unfold remoteSendName
      simp only []
      rw [if_pos hvalue, if_pos rfl, queues_emit, queues_setName, sent_queues, hknown]
      refine Path.of_eq (hE ⟨source, .name n, type, session, bytes, false⟩ rfl)
        (.ask rfl rfl hvalue) ?_
      simp only [hself]
      exact congrArg (fun log => { h.queues with
        sent := h.queues.sent ++ [(⟨source, .name n, type, session, bytes, false⟩ : Sent)]
        waiting := update h.queues.waiting n (h.queues.waiting n ++
          [h.queues.asked ⟨source, .name n, type, session, bytes, false⟩])
        log := log }) (append_nil _)
    · have hknown : h.knows (.name n) = true := decide_eq_true hvalue
      have ht : h.queues.Target ⟨source, .name n, type, session, bytes, h.knows (.name n)⟩
        (h.map n).value := by
        right
        exact ⟨n, rfl, rfl, hvalue⟩
      refine remoteSendHandle_path hs (hE _ rfl) ht hknown ?_
      unfold remoteSendName
      simp only []
      rw [if_neg hvalue]

/-- A name is registered, whose messages wait, for a harbor that has no fd. -/
def Moves (h : State) (n : Bytes) : Label → Prop
  | .name name source => key name = n ∧ (h.map n).queue.isSome ∧
      (h.s (harborOf source)).fd = 0 ∧ harborOf source ≠ harborOf h.slave
  | _ => False

theorem step_queues {l : Label} (hs : Sound h) (hstep : step fails h l = some h') (hE : E .other)
    (hmove : ∀ n, Moves h n l → E (.move n))
    (hsend : ∀ source addr type session bytes, l = .send source addr type session bytes →
      ∀ r : Sent, r.bytes = bytes → E (.send r)) : Path E h.queues h'.queues := by
  unfold step at hstep
  cases l with
  | send source addr type session bytes =>
    simp only [] at hstep
    split_ifs at hstep
    rw [← Option.some.inj hstep]
    exact send_path hs (hsend source addr type session bytes rfl)
  | name n source =>
    simp only [] at hstep
    split_ifs at hstep with hzero
    · rw [← Option.some.inj hstep]
      exact .refl
    · rw [← Option.some.inj hstep]
      exact updateName_path hE hs hzero fun hq hfd hhome => hmove _ ⟨rfl, hq, hfd, hhome⟩
  | connect accept fd id =>
    rw [← Option.some.inj hstep]
    exact connect_path hE accept fd id
  | data fd buffer =>
    simp only [] at hstep
    split_ifs at hstep with hbad
    rw [not_or] at hbad
    rw [← Option.some.inj hstep]
    have hcases : pushSocketData fails fd buffer h = h ∨ _ := pushSocketData_cases hs hbad.2
    rcases hcases with heq | ⟨id, hfd, heq⟩
    · rw [heq]
      exact .refl
    · rw [heq]
      exact foldl_eat_path hE (hfd ▸ hbad.1)
  | close fd =>
    simp only [] at hstep
    split_ifs at hstep
    rw [← Option.some.inj hstep]
    unfold socketClose
    cases h.harborId fd with
    | none => exact .refl
    | some id =>
      have hsame : ({ h.emit [.down id] with closed := update h.closed id true } :
          State).queues = h.queues :=
        congrArg (fun log => { h.queues with log := log })
          ((filter_append ..).trans (append_nil _))
      rw [hsame]
      exact .refl

end Steps

end Harbor

end SkynetGame
