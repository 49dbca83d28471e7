import SkynetGame.DataCenter

/-!
# The waiters of the data center

`queued w p` are the waiters on a path. An update wakes up the queue that it meets first on its way
down, so a waiter on the path gets the value and one above it an error. One below it is not looked
at, and where the tree of the waiters has a branch no one can wait.
-/

namespace SkynetGame

open List

namespace DataCenter

def Wait.queued : Option Wait → List Key → List ℕ
  | some (.queue q), [] => q
  | some (.branch b), key :: keys => Wait.queued (b key) keys
  | _, _ => []

def queued (w : Waits) (path : List Key) : List ℕ := Wait.queued (some (.branch w)) path

theorem queued_nil (w : Waits) : queued w [] = [] := rfl

theorem queued_cons (w : Waits) (key : Key) (keys : List Key) :
    queued w (key :: keys) = Wait.queued (w key) keys := rfl

theorem queued_none (path : List Key) : Wait.queued none path = [] := by cases path <;> rfl

theorem queued_empty : ∀ path, queued empty path = []
  | [] => rfl
  | _ :: path => queued_none path

theorem queued_update_self (w : Waits) (key : Key) (n : Option Wait) (keys : List Key) :
    queued (Function.update w key n) (key :: keys) = Wait.queued n keys := by
  rw [queued_cons, Function.update_self]

theorem queued_update_ne (w : Waits) {key : Key} (n : Option Wait) {path : List Key}
    (h : path.head? ≠ some key) : queued (Function.update w key n) path = queued w path := by
  rcases path with _ | ⟨k, ks⟩
  · rfl
  · have hk : k ≠ key := fun hk => h (by rw [hk]; rfl)
    rw [queued_cons, Function.update_of_ne hk, queued_cons]

/-- The tree is as before but for the waiters `q` on `path`, which are gone. -/
structure Emptied (w w' : Waits) (path : List Key) (q : List ℕ) : Prop where
  was : queued w path = q
  gone : queued w' path = []
  same : ∀ p ≠ path, queued w' p = queued w p

theorem Emptied.below {w b b' : Waits} {path : List Key} {q : List ℕ} {key : Key}
    (h : Emptied b b' path q) (hb : w key = some (.branch b)) :
    Emptied w (Function.update w key (some (.branch b'))) (key :: path) q where
  was := by rw [queued_cons, hb]; exact h.was
  gone := by rw [queued_update_self]; exact h.gone
  same p hp := by
    by_cases hk : p.head? = some key
    · obtain ⟨ks, rfl⟩ := head?_eq_some_iff.1 hk
      rw [queued_update_self, queued_cons, hb]
      exact h.same ks fun he => hp (by rw [he])
    · exact queued_update_ne w _ hk

theorem emptied_queue {w : Waits} {q : List ℕ} {key : Key} (h : w key = some (.queue q)) :
    Emptied w (Function.update w key none) [key] q where
  was := by rw [queued_cons, h]; rfl
  gone := by rw [queued_update_self]; rfl
  same p hp := by
    by_cases hk : p.head? = some key
    · obtain ⟨ks, rfl⟩ := head?_eq_some_iff.1 hk
      rw [queued_update_self, queued_cons, h]
      rcases ks with _ | ⟨k, ks⟩
      · exact absurd rfl hp
      · rfl
    · exact queued_update_ne w _ hk

/-- Whom an update wakes up: nobody, who waits on the path, or those of a queue above it or, where
the value is a key, right below it. Nobody else waits on the way. -/
def Woken.Spec (value : Value) (path : List Key) (w w' : Waits) : Woken → Prop
  | .nobody => (∀ p, queued w' p = queued w p) ∧ ∀ p, p <+: path → queued w p = []
  | .queue q => Emptied w w' path q ∧ ∀ p, p <+: path → p ≠ path → queued w p = []
  | .failed q =>
    (∃ p, p <+: path ∧ p ≠ path ∧ Emptied w w' p q ∧
      ∀ p', p' <+: path → p' ≠ p → queued w p' = []) ∨
    ∃ key, value = .scalar key ∧ Emptied w w' (path ++ [key]) q ∧
      ∀ p, p <+: path → queued w p = []

theorem wakeup_spec (value : Value) : ∀ (w : Waits) (path : List Key),
    (wakeup value w path).2.Spec value path w (wakeup value w path).1
  | w, [] => by
    have hnil : ∀ p, p <+: ([] : List Key) → queued w p = [] := fun p hp => by
      rw [prefix_nil.1 hp, queued_nil]
    unfold wakeup
    rcases value with key | _ | t
    · dsimp only
      rcases hn : w key with _ | q | b
      · exact ⟨fun _ => rfl, hnil⟩
      · exact .inr ⟨key, rfl, emptied_queue hn, hnil⟩
      · exact ⟨fun _ => rfl, hnil⟩
    · exact ⟨fun _ => rfl, hnil⟩
    · exact ⟨fun _ => rfl, hnil⟩
  | w, key :: keys => by
    unfold wakeup
    -- what a prefix of the path is
    have hprefix : ∀ p, p <+: key :: keys → p = [] ∨ ∃ p', p = key :: p' ∧ p' <+: keys :=
      fun p hp => prefix_cons_iff.1 hp
    rcases hn : w key with _ | q | b
    · refine ⟨fun _ => rfl, fun p hp => ?_⟩
      rcases hprefix p hp with rfl | ⟨p', rfl, -⟩
      · rfl
      · rw [queued_cons, hn, queued_none]
    · dsimp only
      have hself := emptied_queue hn
      have hother : ∀ p, p <+: key :: keys → p ≠ [key] → queued w p = [] := fun p hp hne => by
        rcases hprefix p hp with rfl | ⟨p', rfl, -⟩
        · rfl
        · rw [queued_cons, hn]
          rcases p' with _ | _
          · exact absurd rfl hne
          · rfl
      by_cases hk : keys = []
      · subst hk
        exact ⟨hself, hother⟩
      · rw [if_neg hk]
        exact .inl ⟨[key], ⟨keys, rfl⟩, fun he => hk (List.cons.inj he).2.symm, hself, hother⟩
    · dsimp only
      have ih := wakeup_spec value b keys
      have hbelow : ∀ p', queued w (key :: p') = queued b p' := fun p' => by
        rw [queued_cons, hn]
        rfl
      rcases hr : (wakeup value b keys).2 with _ | q | q
      · rw [hr] at ih
        refine ⟨fun p => ?_, fun p hp => ?_⟩
        · by_cases hk : p.head? = some key
          · obtain ⟨ks, rfl⟩ := head?_eq_some_iff.1 hk
            rw [queued_update_self, hbelow]
            exact ih.1 ks
          · exact queued_update_ne w _ hk
        · rcases hprefix p hp with rfl | ⟨p', rfl, hp'⟩
          · rfl
          · rw [hbelow, ih.2 p' hp']
      · rw [hr] at ih
        refine ⟨ih.1.below hn, fun p hp hne => ?_⟩
        rcases hprefix p hp with rfl | ⟨p', rfl, hp'⟩
        · rfl
        · rw [hbelow, ih.2 p' hp' fun he => hne (by rw [he])]
      · rw [hr] at ih
        rcases ih with ⟨p₀, hp₀, hne, he, hother⟩ | ⟨k, hv, he, hother⟩
        · refine .inl ⟨key :: p₀, cons_prefix_cons.2 ⟨rfl, hp₀⟩,
            fun he => hne (List.cons.inj he).2, he.below hn, fun p hp hne => ?_⟩
          rcases hprefix p hp with rfl | ⟨p', rfl, hp'⟩
          · rfl
          · rw [hbelow, hother p' hp' fun he => hne (by rw [he])]
        · refine .inr ⟨k, hv, he.below hn, fun p hp => ?_⟩
          rcases hprefix p hp with rfl | ⟨p', rfl, hp'⟩
          · rfl
          · rw [hbelow, hother p' hp']

/-- Nobody waits above the path, and below it nobody waits or has waited. -/
def Free : Waits → List Key → Prop
  | _, [] => True
  | w, [key] => ∀ b, w key ≠ some (.branch b)
  | w, key :: key' :: keys =>
    match w key with
    | none => True
    | some (.branch b) => Free b (key' :: keys)
    | some (.queue _) => False

theorem free_empty (key : Key) (keys : List Key) : Free empty (key :: keys) := by
  rcases keys with _ | _
  · exact nofun
  · trivial

/-- One more waiter on the path. -/
structure Enqueued (w w' : Waits) (path : List Key) (i : ℕ) : Prop where
  here : queued w' path = queued w path ++ [i]
  same : ∀ p ≠ path, queued w' p = queued w p

theorem Enqueued.below {w b b' : Waits} {path : List Key} {i : ℕ} {key : Key}
    (h : Enqueued b b' path i) (hb : ∀ p, Wait.queued (w key) p = queued b p) :
    Enqueued w (Function.update w key (some (.branch b'))) (key :: path) i where
  here := by rw [queued_update_self, queued_cons, hb]; exact h.here
  same p hp := by
    by_cases hk : p.head? = some key
    · obtain ⟨ks, rfl⟩ := head?_eq_some_iff.1 hk
      rw [queued_update_self, queued_cons, hb]
      exact h.same ks fun he => hp (by rw [he])
    · exact queued_update_ne w _ hk

theorem enqueued_here {w : Waits} {q : List ℕ} {key : Key} (i : ℕ)
    (h : ∀ p, Wait.queued (w key) p = Wait.queued (some (.queue q)) p) :
    Enqueued w (Function.update w key (some (.queue (q ++ [i])))) [key] i where
  here := by rw [queued_update_self, queued_cons, h]; rfl
  same p hp := by
    by_cases hk : p.head? = some key
    · obtain ⟨ks, rfl⟩ := head?_eq_some_iff.1 hk
      rw [queued_update_self, queued_cons, h]
      rcases ks with _ | ⟨k, ks⟩
      · exact absurd rfl hp
      · rfl
    · exact queued_update_ne w _ hk

theorem waitfor_spec (i : ℕ) : ∀ (w : Waits) (key : Key) (keys : List Key), Free w (key :: keys) →
    ∃ w', waitfor i w (key :: keys) = some w' ∧ Enqueued w w' (key :: keys) i
  | w, key, [], h => by
    unfold waitfor
    rcases hn : w key with _ | q | b
    · have hq : ∀ p, Wait.queued (w key) p = Wait.queued (some (.queue [])) p := fun p => by
        rw [hn, queued_none]
        rcases p with _ | _ <;> rfl
      exact ⟨_, rfl, enqueued_here i hq⟩
    · exact ⟨_, rfl, enqueued_here i fun p => by rw [hn]⟩
    · exact absurd hn (h b)
  | w, key, key' :: keys, h => by
    unfold waitfor
    unfold Free at h
    rcases hn : w key with _ | q | b
    · obtain ⟨b', hb, he⟩ := waitfor_spec i empty key' keys (free_empty key' keys)
      exact ⟨_, by rw [hb]; rfl, he.below fun p => by rw [hn, queued_none, queued_empty]⟩
    · rw [hn] at h
      exact h.elim
    · rw [hn] at h
      obtain ⟨b', hb, he⟩ := waitfor_spec i b key' keys h
      exact ⟨_, by dsimp only; rw [hb]; rfl, he.below fun p => by rw [hn]; rfl⟩

theorem get_cons (t : Table) (key : Key) (keys : List Key) :
    (Value.table t).get (key :: keys) = (t key).bind fun v => v.get keys := by
  rw [Value.get]
  rcases t key with _ | v <;> rfl

theorem get_append : ∀ (v : Value) (p q : List Key), v.get (p ++ q) = (v.get p).bind fun v => v.get q
  | _, [], _ => rfl
  | .table t, key :: p, q => by
    rw [cons_append, get_cons, get_cons]
    rcases t key with _ | v
    · rfl
    · exact get_append v p q
  | .scalar _, _ :: _, _ => rfl
  | .nan, _ :: _, _ => rfl

theorem get_update_self (t : Table) (key : Key) (v : Option Value) (keys : List Key) :
    (Value.table (Function.update t key v)).get (key :: keys) = v.bind fun v => v.get keys := by
  rw [get_cons, Function.update_self]

theorem get_update_ne (t : Table) {key : Key} (v : Option Value) {path : List Key} (hne : path ≠ [])
    (h : path.head? ≠ some key) :
    (Value.table (Function.update t key v)).get path = (Value.table t).get path := by
  rcases path with _ | ⟨k, ks⟩
  · exact absurd rfl hne
  · have hk : k ≠ key := fun hk => h (by rw [hk]; rfl)
    rw [get_cons, Function.update_of_ne hk, get_cons]

/-- On the way down the path everything is absent or a table. -/
def Clear : Table → List Key → Prop
  | _, [] | _, [_] => True
  | db, key :: key' :: keys =>
    match db key with
    | none => True
    | some (.table t) => Clear t (key' :: keys)
    | some (.scalar _) | some .nan => False

/-- What an update of `path` changes: what the path and those below it hold, and the paths above
it, which hold tables. -/
structure Updated (db db' : Table) (path : List Key) (value : Option Value) : Prop where
  below : ∀ q, (Value.table db').get (path ++ q) = value.bind fun v => v.get q
  above : ∀ p, p <+: path → p ≠ path → ∃ t, (Value.table db').get p = some (.table t)
  same : ∀ p, ¬ p <+: path → ¬ path <+: p → (Value.table db').get p = (Value.table db).get p

theorem updated_here (db : Table) (key : Key) (value : Option Value) :
    Updated db (Function.update db key value) [key] value where
  below q := get_update_self db key value q
  above p hp hne := by
    rcases prefix_cons_iff.1 hp with rfl | ⟨p', rfl, hp'⟩
    · exact ⟨_, rfl⟩
    · rw [prefix_nil.1 hp'] at hne
      exact absurd rfl hne
  same p hp hp' := by
    refine get_update_ne db value (fun hn => hp (hn ▸ nil_prefix)) fun hk => hp' ?_
    obtain ⟨ks, rfl⟩ := head?_eq_some_iff.1 hk
    exact cons_prefix_cons.2 ⟨rfl, nil_prefix⟩

theorem Updated.inside {db t t' : Table} {key : Key} {path : List Key} {value : Option Value}
    (h : Updated t t' path value)
    (hb : ∀ p ≠ [], (Value.table db).get (key :: p) = (Value.table t).get p) :
    Updated db (Function.update db key (some (.table t'))) (key :: path) value where
  below q := by
    rw [cons_append, get_update_self]
    exact h.below q
  above p hp hne := by
    rcases prefix_cons_iff.1 hp with rfl | ⟨p', rfl, hp'⟩
    · exact ⟨_, rfl⟩
    · rw [get_update_self]
      exact h.above p' hp' fun he => hne (by rw [he])
  same p hp hp' := by
    by_cases hk : p.head? = some key
    · obtain ⟨ks, rfl⟩ := head?_eq_some_iff.1 hk
      rw [cons_prefix_cons] at hp hp'
      have hks : ks ≠ [] := fun hn => hp ⟨rfl, hn ▸ nil_prefix⟩
      rw [get_update_self, hb ks hks]
      exact h.same ks (fun hh => hp ⟨rfl, hh⟩) fun hh => hp' ⟨rfl, hh⟩
    · exact get_update_ne db _ (fun hn => hp (hn ▸ nil_prefix)) hk

theorem update_spec (value : Option Value) : ∀ (db : Table) (key : Key) (keys : List Key),
    Clear db (key :: keys) →
    ∃ db', update value db (key :: keys) = some (db', (Value.table db).get (key :: keys)) ∧
      Updated db db' (key :: keys) value
  | db, key, [], _ => by
    refine ⟨_, ?_, updated_here db key value⟩
    rw [update, get_cons]
    rcases db key with _ | v <;> rfl
  | db, key, key' :: keys, h => by
    unfold update
    unfold Clear at h
    rw [get_cons]
    rcases hn : db key with _ | ⟨k⟩ | _ | t
    · have hempty : ∀ p ≠ [], (Value.table db).get (key :: p) = (Value.table empty).get p :=
        fun p hp => by
          obtain ⟨k, ks, rfl⟩ := exists_cons_of_ne_nil hp
          rw [get_cons, hn, get_cons]
          rfl
      have hc : Clear empty (key' :: keys) := by
        rcases keys with _ | _ <;> trivial
      obtain ⟨db', hu, hspec⟩ := update_spec value empty key' keys hc
      have hget : (Value.table empty).get (key' :: keys) = none := by
        rw [get_cons]
        rfl
      refine ⟨_, ?_, hspec.inside hempty⟩
      dsimp only
      rw [hu, hget]
      rfl
    · rw [hn] at h
      exact h.elim
    · rw [hn] at h
      exact h.elim
    · rw [hn] at h
      obtain ⟨db', hu, hspec⟩ := update_spec value t key' keys h
      refine ⟨_, ?_, hspec.inside fun p _ => by rw [get_cons, hn]; rfl⟩
      dsimp only
      rw [hu]
      rfl

theorem update_eq_none (value : Option Value) : ∀ (db : Table) (key : Key) (keys : List Key),
    ¬ Clear db (key :: keys) → update value db (key :: keys) = none
  | _, _, [], h => absurd trivial h
  | db, key, key' :: keys, h => by
    unfold update
    unfold Clear at h
    rcases hn : db key with _ | ⟨k⟩ | _ | t
    · rw [hn] at h
      exact absurd trivial h
    · rfl
    · rfl
    · rw [hn] at h
      dsimp only
      rw [update_eq_none value t key' keys h]
      rfl

/-- `query` goes through: every value on the way is a table that has the next key, but for what
the last key finds. -/
def Walk : Value → List Key → Prop
  | _, [] => True
  | .table t, key :: keys =>
    match t key with
    | none => keys = []
    | some d => Walk d keys
  | .scalar (.string _), key :: keys => key ∉ stringLibrary ∧ keys = []
  | .scalar _, _ :: _ | .nan, _ :: _ => False

theorem query_of_get : ∀ {d : Value} {keys : List Key} {v : Value}, d.get keys = some v →
    query d keys = some (some v)
  | d, [], v, h => by
    rw [Value.get] at h
    rw [query, h]
  | .table t, key :: keys, v, h => by
    rw [get_cons] at h
    obtain ⟨d, hd, h⟩ := Option.bind_eq_some_iff.1 h
    rw [query, index, hd]
    exact query_of_get h
  | .scalar k, _ :: _, v, h => nomatch h
  | .nan, _ :: _, v, h => nomatch h

theorem query_of_walk : ∀ {d : Value} {keys : List Key}, Walk d keys → d.get keys = none →
    query d keys = some none
  | d, [], _, h => nomatch h
  | .table t, key :: keys, hw, h => by
    rw [get_cons] at h
    unfold Walk at hw
    rw [query, index]
    rcases hd : t key with _ | d
    · rw [hd] at hw
      exact if_pos hw
    · rw [hd] at hw h
      exact query_of_walk hw h
  | .scalar k, key :: keys, hw, _ => by
    rcases k with b | n | bits | str | n
    · exact hw.elim
    · exact hw.elim
    · exact hw.elim
    · rw [query, index, if_neg hw.1]
      exact if_pos hw.2
    · exact hw.elim
  | .nan, _ :: _, hw, _ => hw.elim

section Service

variable (s : DataCenter)

/-- An answer is the value that the path holds, or an error where the path is a branch. -/
def Answer.Right (a : Answer) : Prop :=
  match a.response with
  | some v => a.present = some v
  | none => ∃ t, a.present = some (.table t)

/-- No WAIT on an absent path has failed, who waits waits for a value that is absent, each waiter
is in one queue and not answered or in none and answered once, and the answers are right. -/
structure Served : Prop where
  failed : ∀ f ∈ s.failed, f.2 ≠ none
  absent : ∀ p, queued s.waitQueue p ≠ [] → s.get p = none
  once : ∀ i p, s.asked[i]? = some p →
    (queued s.waitQueue p).count i + s.answers.countP (fun a => a.waiter = i) = 1 ∧
      ∀ p' ≠ p, i ∉ queued s.waitQueue p'
  right : ∀ a ∈ s.answers, a.Right

/-- A WAIT is not on a path that holds `false`; on an absent one the query goes through and nobody
waits above or has waited below. An update that goes through does not create a parent that someone
waits for without setting the value, gives no value to a path below that someone waits for, and
its value is no key under which someone waits right below, where the path held nothing. -/
def Tame : Request → Prop
  | .query _ _ => True
  | .wait key keys => s.get (key :: keys) ≠ some (.scalar (.bool false)) ∧
    (s.get (key :: keys) = none → Free s.waitQueue (key :: keys) ∧
      ∀ d, s.database key = some d → truthy (some d) → Walk d keys)
  | .update key keys value => Clear s.database (key :: keys) →
    (value = none → ∀ p, p <+: key :: keys → p ≠ key :: keys → queued s.waitQueue p = []) ∧
    (∀ q ≠ [], queued s.waitQueue (key :: keys ++ q) ≠ [] → (value.bind fun v => v.get q) = none) ∧
    (truthy (s.get (key :: keys)) = false → ∀ k, value = some (.scalar k) →
      queued s.waitQueue (key :: keys ++ [k]) = [])

/-- What holds of who was asked for what: `Served`, and where the waiters and the answers come
from. -/
structure Inv : Prop extends Served s where
  place : ∀ p, ∀ i ∈ queued s.waitQueue p, s.asked[i]? = some p
  known : ∀ a ∈ s.answers, a.waiter < s.asked.length

namespace Inv

variable {s}

theorem keep (h : Inv s) {db : Table} {w : Waits}
    (hq : ∀ p, queued w p = queued s.waitQueue p)
    (ha : ∀ p, queued s.waitQueue p ≠ [] → (Value.table db).get p = none) :
    Inv { s with
      database := db
      waitQueue := w } where
  failed := h.failed
  absent p hp := ha p (hq p ▸ hp)
  once i p hi := by
    simp only [hq]
    exact h.once i p hi
  right := h.right
  place p i hi := h.place p i (hq p ▸ hi)
  known := h.known

theorem answer (h : Inv s) {db : Table} {w : Waits} {p : List Key} {q : List ℕ}
    (he : Emptied s.waitQueue w p q)
    (ha : ∀ p' ≠ p, queued s.waitQueue p' ≠ [] → (Value.table db).get p' = none)
    {response : Option Value} (hr : ∀ i, (⟨i, response, (Value.table db).get p⟩ : Answer).Right) :
    Inv (({ s with
      database := db
      waitQueue := w } : DataCenter).answer q response) := by
  have hasked : ∀ i ∈ q, s.asked[i]? = some p := fun i hi => h.place p i (he.was ▸ hi)
  have hcount : ∀ i, (q.map fun i => (⟨i, response, (Value.table db).get
      ((s.asked[i]?).getD [])⟩ : Answer)).countP (fun a => a.waiter = i) = q.count i := fun i => by
    rw [countP_map, List.count]
    congr
  refine { failed := h.failed, absent := fun p' hp' => ?_, once := fun i p' hi => ?_,
           right := fun a hmem => ?_, place := fun p' i hi => ?_, known := fun a hmem => ?_ }
  · have hne : p' ≠ p := fun hpp => hp' (hpp ▸ he.gone)
    exact ha p' hne (he.same p' hne ▸ hp')
  · obtain ⟨h1, h2⟩ := h.once i p' hi
    have hanswers : (s.answers ++ q.map fun i => (⟨i, response, (Value.table db).get
        ((s.asked[i]?).getD [])⟩ : Answer)).countP (fun a => a.waiter = i) =
        s.answers.countP (fun a => a.waiter = i) + q.count i := by
      rw [countP_append, hcount]
    refine ⟨?_, fun p'' hp'' hi'' => ?_⟩
    · by_cases hpp : p' = p
      · subst hpp
        rw [he.was] at h1
        have hgone : (queued w p').count i = 0 := by rw [he.gone]; rfl
        exact (congrArg₂ (· + ·) hgone hanswers).trans (by omega)
      · have hnot : i ∉ q := fun hq => hpp (Option.some.inj (hi.symm.trans (hasked i hq)))
        have hsame : (queued w p').count i = (queued s.waitQueue p').count i := by
          rw [he.same p' hpp]
        have hzero := count_eq_zero_of_not_mem hnot
        exact (congrArg₂ (· + ·) hsame hanswers).trans (by omega)
    · have hw : i ∈ queued w p'' := hi''
      by_cases hpp : p'' = p
      · subst hpp
        rw [he.gone] at hw
        exact nomatch hw
      · exact h2 p'' hp'' ((he.same p'' hpp) ▸ hi'')
  · rcases mem_append.1 hmem with hmem | hmem
    · exact h.right a hmem
    · obtain ⟨i, hi, rfl⟩ := mem_map.1 hmem
      have hget : ((Value.table db).get ((s.asked[i]?).getD [])) = (Value.table db).get p := by
        rw [hasked i hi, Option.getD_some]
      have := hr i
      rw [← hget] at this
      exact this
  · have hw : i ∈ queued w p' := hi
    by_cases hpp : p' = p
    · subst hpp
      rw [he.gone] at hw
      exact nomatch hw
    · exact h.place p' i ((he.same p' hpp) ▸ hi)
  · rcases mem_append.1 hmem with hmem | hmem
    · exact h.known a hmem
    · obtain ⟨i, hi, rfl⟩ := mem_map.1 hmem
      exact (List.getElem?_eq_some_iff.1 (hasked i hi)).1

theorem enqueue (h : Inv s) {w : Waits} {p : List Key}
    (he : Enqueued s.waitQueue w p s.asked.length) (hp : s.get p = none) :
    Inv { s with
      waitQueue := w
      asked := s.asked ++ [p] } := by
  have hmem : ∀ p' i, i ∈ queued w p' → i ∈ queued s.waitQueue p' ∨ p' = p ∧ i = s.asked.length := by
    intro p' i hi
    by_cases hpp : p' = p
    · subst hpp
      rw [he.here] at hi
      rcases mem_append.1 hi with hi | hi
      · exact .inl hi
      · exact .inr ⟨rfl, mem_singleton.1 hi⟩
    · rw [he.same p' hpp] at hi
      exact .inl hi
  have hlt : ∀ p', ∀ i ∈ queued s.waitQueue p', i < s.asked.length := fun p' i hi =>
    (List.getElem?_eq_some_iff.1 (h.place p' i hi)).1
  refine { failed := h.failed, absent := fun p' hp' => ?_, once := fun i p' hi => ?_,
           right := h.right, place := fun p' i hi => ?_, known := fun a ha => ?_ }
  · by_cases hpp : p' = p
    · rw [hpp]
      exact hp
    · exact h.absent p' (he.same p' hpp ▸ hp')
  · rcases Nat.lt_or_ge i s.asked.length with hi' | hi'
    · have hold : s.asked[i]? = some p' := by
        rw [← hi]
        exact (getElem?_append_left hi').symm
      obtain ⟨h1, h2⟩ := h.once i p' hold
      have hcount : (queued w p').count i = (queued s.waitQueue p').count i := by
        by_cases hpp : p' = p
        · subst hpp
          rw [he.here, count_append, count_singleton]
          simp [Nat.ne_of_gt hi']
        · rw [he.same p' hpp]
      refine ⟨(congrArg (· + _) hcount).trans h1, fun p'' hp'' hi'' => ?_⟩
      rcases hmem p'' i hi'' with hm | ⟨-, hm⟩
      · exact h2 p'' hp'' hm
      · omega
    · have hnew : (s.asked ++ [p])[i]? = some p' := hi
      rw [getElem?_append_right hi'] at hnew
      obtain ⟨hone, hpp⟩ := List.getElem?_eq_some_iff.1 hnew
      have hi0 : i = s.asked.length := by
        rw [length_singleton] at hone
        omega
      have hpp : p' = p := by
        rw [← hpp]
        simp
      subst hpp hi0
      have hnot : s.asked.length ∉ queued s.waitQueue p' := fun hm =>
        Nat.lt_irrefl _ (hlt p' _ hm)
      have hans : s.answers.countP (fun a => a.waiter = s.asked.length) = 0 :=
        countP_eq_zero.2 fun a ha => by
          have := h.known a ha
          simp only [decide_eq_true_eq]
          omega
      have hcount : (queued w p').count s.asked.length = 1 := by
        rw [he.here, count_append, count_eq_zero_of_not_mem hnot, count_singleton]
        simp
      refine ⟨(congrArg₂ (· + ·) hcount hans), fun p'' hp'' hi'' => ?_⟩
      rcases hmem p'' _ hi'' with hm | ⟨hm, -⟩
      · exact Nat.lt_irrefl _ (hlt p'' _ hm)
      · exact hp'' hm
  · rcases hmem p' i hi with hm | ⟨rfl, rfl⟩
    · have hold := h.place p' i hm
      rw [← hold]
      exact getElem?_append_left (hlt p' i hm)
    · simp
  · have := h.known a ha
    simp only [length_append, length_singleton]
    omega

theorem wait (h : Inv s) {key : Key} {keys : List Key} (ht : s.Tame (.wait key keys)) :
    Inv (s.wait key keys) := by
  obtain ⟨hfalse, hwait⟩ := ht
  unfold DataCenter.wait queryCommand
  rcases hg : s.get (key :: keys) with _ | v
  · obtain ⟨hfree, hwalk⟩ := hwait hg
    obtain ⟨w, hw, he⟩ := waitfor_spec s.asked.length s.waitQueue key keys hfree
    have hq : (if truthy (s.database key) then (s.database key).bind fun d => query d keys
        else some none) = some none := by
      split
      · next htr =>
        rcases hd : s.database key with _ | d
        · rw [hd] at htr
          exact nomatch htr
        · have hgd : d.get keys = none := by
            rw [DataCenter.get, get_cons, hd] at hg
            exact hg
          exact query_of_walk (hwalk d hd (hd ▸ htr)) hgd
      · rfl
    rw [hq]
    dsimp only
    rw [if_neg (by decide), hw]
    exact h.enqueue he hg
  · rw [DataCenter.get, get_cons] at hg
    obtain ⟨d, hd, hgd⟩ := Option.bind_eq_some_iff.1 hg
    have hv : truthy (some v) = true := by
      rcases v with k | _ | t
      · rcases k with b | n | bits | str | n
        · rcases b with _ | _
          · rw [DataCenter.get, get_cons, hd, Option.bind_some, hgd] at hfalse
            exact absurd rfl hfalse
          · rfl
        all_goals rfl
      · rfl
      · rfl
    have htr : truthy (s.database key) = true := by
      rw [hd]
      rcases keys with _ | ⟨k, ks⟩
      · rw [Value.get] at hgd
        rw [Option.some.inj hgd]
        exact hv
      · rcases d with k' | _ | t
        · exact nomatch hgd
        · rfl
        · rfl
    rw [if_pos htr, hd, Option.bind_some, query_of_get hgd]
    dsimp only
    rw [if_pos hv]
    exact h

theorem update (h : Inv s) {key : Key} {keys : List Key} {value : Option Value}
    (ht : s.Tame (.update key keys value)) : Inv (s.updateCommand (key :: keys) value).1 := by
  unfold updateCommand
  by_cases hclear : Clear s.database (key :: keys)
  · obtain ⟨hparent, hbelow, hkey⟩ := ht hclear
    obtain ⟨db, hu, hup⟩ := update_spec value s.database key keys hclear
    rw [hu]
    dsimp only
    -- what is not on the way to the path stays absent
    have hstay : ∀ p, ¬ (p <+: key :: keys) → queued s.waitQueue p ≠ [] →
        (Value.table db).get p = none := by
      intro p hp hq
      by_cases hpre : key :: keys <+: p
      · obtain ⟨q, rfl⟩ := hpre
        rw [hup.below q]
        refine hbelow q (fun hnil => hp ?_) hq
        rw [hnil, append_nil]
      · rw [hup.same p hp hpre]
        exact h.absent p hq
    -- who waits on the way waits for nothing that is there
    have habove : ∀ p, p <+: key :: keys → queued s.waitQueue p ≠ [] →
        (Value.table s.database).get (key :: keys) = none := by
      rintro p ⟨q, hpq⟩ hq
      rw [← hpq, get_append]
      exact congrArg (Option.bind · _) (h.absent p hq)
    rcases value with _ | v
    · refine h.keep (fun _ => rfl) fun p hq => ?_
      by_cases hp : p <+: key :: keys
      · by_cases hpe : p = key :: keys
        · subst hpe
          have := hup.below []
          rwa [append_nil] at this
        · exact absurd (hparent rfl p hp hpe) hq
      · exact hstay p hp hq
    dsimp only
    split
    · next htr =>
      refine h.keep (fun _ => rfl) fun p hq => ?_
      by_cases hp : p <+: key :: keys
      · rw [habove p hp hq] at htr
        exact nomatch htr
      · exact hstay p hp hq
    · next htr =>
      have hw := wakeup_spec v s.waitQueue (key :: keys)
      generalize wakeup v s.waitQueue (key :: keys) = r at hw
      obtain ⟨w, woken⟩ := r
      rcases woken with _ | q | q
      · obtain ⟨hsame, hnone⟩ := hw
        refine h.keep hsame fun p hq => ?_
        exact hstay p (fun hp => hq (hnone p hp)) hq
      · obtain ⟨he, hnone⟩ := hw
        refine h.answer he (fun p hne hq => hstay p (fun hp => hq (hnone p hp hne)) hq) fun i => ?_
        have := hup.below []
        rw [append_nil] at this
        exact this
      · rcases hw with ⟨p₀, hp₀, hne, he, hnone⟩ | ⟨k, rfl, he, hnone⟩
        · refine h.answer he (fun p hne hq => hstay p (fun hp => hq (hnone p hp hne)) hq) fun i => ?_
          exact hup.above p₀ hp₀ hne
        · have hq := he.was.symm.trans (hkey (Bool.eq_false_iff.2 htr) k rfl)
          subst hq
          have hsame : ∀ p, queued w p = queued s.waitQueue p := fun p => by
            by_cases hp : p = key :: keys ++ [k]
            · rw [hp, he.gone, he.was]
            · exact he.same p hp
          have := h.keep hsame fun p hq => hstay p (fun hp => hq (hnone p hp)) hq
          simpa [DataCenter.answer] using this
  · rw [update_eq_none value s.database key keys hclear]
    exact h

end Inv

end Service

theorem inv_init : Inv machine.init where
  failed := nofun
  absent p hp := absurd (queued_empty p) hp
  once i p hi := nomatch hi
  right := nofun
  place p i hi := by
    rw [show queued machine.init.waitQueue p = [] from queued_empty p] at hi
    exact nomatch hi
  known := nofun

/-- In every run of tame requests who waits is served. -/
theorem waiters_served {s : DataCenter} (h : machine.Reach Tame s) : s.Served := by
  refine (h.invariant (I := Inv) inv_init fun s i s' hs ht hst => ?_).toServed
  rcases i with ⟨key, keys⟩ | ⟨key, keys, value⟩ | ⟨key, keys⟩
  · obtain rfl := Option.some.inj hst
    exact hs
  · obtain rfl := Option.some.inj hst
    exact hs.update ht
  · obtain rfl := Option.some.inj hst
    exact hs.wait ht

/-- A WAIT below an absent parent, and the UPDATE that answers it. -/
theorem waiters_served_of_wait : ∃ s : DataCenter, s.answers.map (·.waiter) = [0] ∧ s.Served := by
  have hwait : machine.init.Tame (.wait (.int 1) [.int 2]) := ⟨nofun, fun _ => ⟨trivial, nofun⟩⟩
  have hupdate : (machine.init.wait (.int 1) [.int 2]).Tame
      (.update (.int 1) [.int 2] (some (.scalar (.int 3)))) := fun _ =>
    ⟨nofun, fun q hq _ => by
      rcases q with _ | _
      · exact absurd rfl hq
      · rfl, fun _ _ _ => rfl⟩
  have h := (Machine.Reach.init.step hwait rfl).step hupdate rfl
  exact ⟨_, rfl, waiters_served h⟩

theorem not_waiters_served_of_deep : ¬ ∀ s, machine.Reachable s → s.Served := by
  intro h
  have hl : ((machine.run (fun _ _ => True) machine.init
      [.update (.int 1) [.int 2] (some .nan), .wait (.int 1) [.int 3, .int 4]]).map
      fun s => s.failed.map (·.2.isNone)) = some [true] := by
    decide
  obtain ⟨s, hr, he⟩ := Machine.exists_reach hl
  have hf := (h s hr).failed
  rcases hfail : s.failed with _ | ⟨f, fs⟩
  · rw [hfail] at he
    exact nomatch he
  · rw [hfail] at he hf
    have hnone : f.2.isNone = true := (List.cons.inj he).1
    exact hf f List.mem_cons_self (Option.isNone_iff_eq_none.1 hnone)

/-! ## The values -/

end DataCenter

end SkynetGame
