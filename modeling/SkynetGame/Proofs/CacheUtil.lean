import SkynetGame.CacheUtil

/-!
# The cache gives what the database gives

What the cache holds under a key is the answer to the statement of a call that built this key
(`CacheRun.Inv`). So a hit is what the database would answer as long as calls that build one key
are about one statement of one database. The branch of `queryrd` is another matter: on a miss it
always ends with an error.
-/

namespace SkynetGame

open Function List

open LuaPattern (Table gsub)

namespace CacheUtil

variable {σ α : Type*}

/-- What is relied on: redis keeps strings, and `cjson` gives back what it was given. -/
structure Env.Lawful (E : Env σ α) : Prop where
  init : ∀ k, E.redis.value E.redis.init k = none
  get : ∀ st k, (E.redis.call st [Bytes.ascii "GET", k]).2 =
    match E.redis.value st k with
    | some v => .str v
    | none => .nil
  get_value : ∀ st k,
    E.redis.value (E.redis.call st [Bytes.ascii "GET", k]).1 = E.redis.value st
  set : ∀ st k v, E.redis.value (E.redis.call st [Bytes.ascii "SET", k, v]).1 =
    Function.update (E.redis.value st) k (some v)
  setex : ∀ st k t v, E.redis.value (E.redis.call st [Bytes.ascii "SETEX", k, t, v]).1 =
    Function.update (E.redis.value st) k (some v)
  expire : ∀ st k, E.redis.value (E.redis.expire st k) =
    Function.update (E.redis.value st) k none
  decode : ∀ a, E.decode (E.encode a) = some a

variable (E : Env σ α)

/-- What a database answers, whichever of its services is asked. -/
def Env.result (dbname sql : Bytes) : Result α :=
  match E.wkService dbname with
  | none => .nil
  | some wkService =>
    if wkService.length = 0 then .raised
    else
      match E.answer dbname sql with
      | some a => .rows a
      | none => .nil

/-- The next service to ask is one there is. -/
def Turn (s : CacheUtil σ) : Prop :=
  ∀ dbname wkService, E.wkService dbname = some wkService → wkService.length ≠ 0 →
    s.wkIndex dbname < wkService.length

variable {E} {s : CacheUtil σ}

theorem mysqlQuery_snd (h : s.Turn E) (dbname sql : Bytes) :
    (s.mysqlQuery E dbname sql).2 = E.result dbname sql := by
  unfold mysqlQuery Env.result
  rcases hw : E.wkService dbname with _ | wkService
  · rfl
  · by_cases h0 : wkService.length = 0
    · simp [h0]
    · have hlt := h dbname wkService hw h0
      simp only [h0, if_false, Nat.add_sub_cancel, List.getElem?_eq_getElem hlt]
      rcases E.answer dbname sql with _ | a <;> rfl

theorem mysqlQuery_store (dbname sql : Bytes) :
    (s.mysqlQuery E dbname sql).1.store = s.store := by
  unfold mysqlQuery
  split
  · rfl
  · simp only
    split_ifs
    · rfl
    · split
      · rfl
      · split <;> rfl

theorem turn_mysqlQuery (h : s.Turn E) (dbname sql : Bytes) :
    (s.mysqlQuery E dbname sql).1.Turn E := by
  unfold mysqlQuery
  rcases hw : E.wkService dbname with _ | wkService
  · exact h
  · by_cases h0 : wkService.length = 0
    · simpa only [h0, if_true] using h
    · have hup : ∀ d ws, E.wkService d = some ws → ws.length ≠ 0 →
          update s.wkIndex dbname ((s.wkIndex dbname + 1) % wkService.length) d <
            ws.length := by
        intro d ws hd hne
        by_cases hdb : d = dbname
        · subst hdb
          obtain rfl := Option.some.inj (hw.symm.trans hd)
          rw [update_self]
          exact Nat.mod_lt _ (by omega)
        · rw [update_of_ne hdb]
          exact h d ws hd hne
      simp only [h0, if_false]
      split
      · exact hup
      · split <;> exact hup

end CacheUtil

/-- The cache in a run of calls; `asked` tells, for each call that built a key, the key, the
database and the statement. -/
structure CacheRun (σ : Type*) where
  cache : CacheUtil σ
  asked : List (Bytes × Bytes × Except SqlUtil.Error Bytes)

namespace CacheRun

open CacheUtil SqlUtil

variable {σ α : Type*} (E : Env σ α)

inductive Action
  | call (dbname : Bytes) (conf : CacheConf) (args : Table)
  | expire (key : Bytes)

def asks (dbname : Bytes) (conf : CacheConf) (args : Table) :
    List (Bytes × Bytes × Except SqlUtil.Error Bytes) :=
  match conf.sql, conf.cachekey.bind fun k => gsub k (parttern conf) args with
  | some sql, some key => [(key, dbname, joinSqlUtil sql (parttern conf) args)]
  | _, _ => []

def step (r : CacheRun σ) : Action → Option (CacheRun σ)
  | .call dbname conf args =>
    some ⟨(r.cache.call E conf dbname args).1, r.asked ++ asks dbname conf args⟩
  | .expire key => some { r with
      cache := { r.cache with store := E.redis.expire r.cache.store key } }

def machine : Machine (CacheRun σ) Action where
  init := ⟨⟨E.redis.init, fun _ => 0⟩, []⟩
  step := step E

/-- What the calls of a run have to be: their entry is one of a statement and does not take the
branch of `queryrd`; the key and the command of `clearrd` can be built; whoever built the same key
asked the same; and `clearrd` only deletes. -/
def Tame (r : CacheRun σ) : Action → Prop
  | .expire _ => True
  | .call dbname conf args => conf.redis = none ∧ (conf.queryrd = none ∨ conf.cacherd = none) ∧
    ∃ sql, conf.sql = some sql ∧
      match conf.cachekey with
      | some cachekey => ∃ key, gsub cachekey (parttern conf) args = some key ∧
        ∀ e ∈ r.asked, e.1 = key → e.2 = (dbname, joinSqlUtil sql (parttern conf) args)
      | none => ∀ clearrd, conf.clearrd = some clearrd →
        ∃ cmd, redisCommand clearrd args (redispt conf) (parttern conf) = some cmd ∧
          ∀ st k, E.redis.value (E.redis.call st cmd).1 k = none ∨
            E.redis.value (E.redis.call st cmd).1 k = E.redis.value st k

/-- What is in the cache is the answer to what was asked under its key. -/
structure Inv (r : CacheRun σ) : Prop where
  turn : r.cache.Turn E
  kept : ∀ key v, E.redis.value r.cache.store key = some v → ∃ dbname sql a,
    (key, dbname, .ok sql) ∈ r.asked ∧ E.result dbname sql = .rows a ∧ v = E.encode a

variable {E} {r r' : CacheRun σ}

theorem Inv.asked (h : r.Inv E) (es : List (Bytes × Bytes × Except SqlUtil.Error Bytes)) :
    Inv E ⟨r.cache, r.asked ++ es⟩ where
  turn := h.turn
  kept key v hv := by
    obtain ⟨dbname, sql, a, hm, hr, he⟩ := h.kept key v hv
    exact ⟨dbname, sql, a, mem_append_left _ hm, hr, he⟩

theorem Inv.less (h : r.Inv E) {s : CacheUtil σ} (ht : s.Turn E)
    (hv : ∀ k, E.redis.value s.store k = none ∨
      E.redis.value s.store k = E.redis.value r.cache.store k) : Inv E ⟨s, r.asked⟩ where
  turn := ht
  kept key v hk := by
    rcases hv key with h0 | h0
    · rw [h0] at hk
      cases hk
    · exact h.kept key v (h0.symm.trans hk)

theorem Inv.store (h : r.Inv E) {key dbname sql : Bytes} {a : α}
    (hm : (key, dbname, .ok sql) ∈ r.asked) (hr : E.result dbname sql = .rows a)
    {s : CacheUtil σ} (ht : s.Turn E) (hv : E.redis.value s.store =
      update (E.redis.value r.cache.store) key (some (E.encode a))) :
    Inv E ⟨s, r.asked⟩ where
  turn := ht
  kept k v hk := by
    rw [hv] at hk
    by_cases hkey : k = key
    · subst hkey
      rw [update_self, Option.some.injEq] at hk
      exact ⟨dbname, sql, a, hm, hr, hk.symm⟩
    · rw [update_of_ne hkey] at hk
      exact h.kept k v hk

section Branches

variable {conf : CacheConf} {dbname sql : Bytes} {args : Table}

theorem direct_eq (h : r.cache.Turn E) : r.cache.direct E conf dbname sql args =
    match joinSqlUtil sql (parttern conf) args with
    | .error _ => .raised
    | .ok sql => E.result dbname sql := by
  unfold direct
  rcases joinSqlUtil sql (parttern conf) args with _ | sql
  · rfl
  · exact mysqlQuery_snd h dbname sql

theorem callKey_hit (hE : E.Lawful) (hi : r.Inv E) {cachekey key v : Bytes}
    (hkey : gsub cachekey (parttern conf) args = some key)
    (hasked : ∀ e ∈ r.asked, e.1 = key → e.2 = (dbname, joinSqlUtil sql (parttern conf) args))
    (hv : E.redis.value r.cache.store key = some v) :
    (r.cache.callKey E conf dbname sql cachekey args).2 = r.cache.direct E conf dbname sql args ∧
      Inv E ⟨(r.cache.callKey E conf dbname sql cachekey args).1, r.asked⟩ := by
  obtain ⟨dbname', sql', a, hm, hr, rfl⟩ := hi.kept key v hv
  have hget := hE.get r.cache.store key
  rw [hv] at hget
  obtain ⟨rfl, hj⟩ := Prod.mk.inj (hasked _ hm rfl)
  have hcall : r.cache.callKey E conf dbname' sql cachekey args =
      ((r.cache.querycmd E [Bytes.ascii "GET", key]).1, .rows a) := by
    simp [callKey, hkey, querycmd, hget, hE.decode]
  rw [hcall, direct_eq hi.turn, ← hj]
  refine ⟨hr.symm, hi.less hi.turn fun k => .inr ?_⟩
  exact congrFun (hE.get_value r.cache.store key) k

theorem callKey_miss (hE : E.Lawful) (hi : r.Inv E) {cachekey key : Bytes}
    (hkey : gsub cachekey (parttern conf) args = some key)
    (hv : E.redis.value r.cache.store key = none) :
    (r.cache.callKey E conf dbname sql cachekey args).2 = r.cache.direct E conf dbname sql args ∧
      Inv E ⟨(r.cache.callKey E conf dbname sql cachekey args).1,
        r.asked ++ [(key, dbname, joinSqlUtil sql (parttern conf) args)]⟩ := by
  have hget := hE.get r.cache.store key
  rw [hv] at hget
  set s := (r.cache.querycmd E [Bytes.ascii "GET", key]).1 with hs
  have hst : s.Turn E := hi.turn
  have hval : E.redis.value s.store = E.redis.value r.cache.store :=
    hE.get_value r.cache.store key
  have hq : r.cache.querycmd E [Bytes.ascii "GET", key] = (s, .nil) := by
    rw [hs, querycmd, hget]
  have his : Inv E ⟨s, r.asked⟩ := hi.less hst fun k => .inr (congrFun hval k)
  simp only [callKey, hkey, hq]
  rw [direct_eq hi.turn]
  rcases hj : joinSqlUtil sql (parttern conf) args with _ | sql'
  · exact ⟨rfl, his.asked _⟩
  · have hres := mysqlQuery_snd hst dbname sql'
    have hstore := mysqlQuery_store (E := E) (s := s) dbname sql'
    have hturn := turn_mysqlQuery hst dbname sql'
    rcases hm : s.mysqlQuery E dbname sql' with ⟨s₁, res⟩
    rw [hm] at hres hstore hturn
    have hi₁ : Inv E ⟨s₁, r.asked ++ [(key, dbname, .ok sql')]⟩ :=
      (his.less hturn fun k => .inr (by rw [hstore])).asked _
    simp only [hm, ← hres]
    rcases res with _ | _ | a | reply
    · exact ⟨rfl, hi₁⟩
    · exact ⟨rfl, hi₁⟩
    · have hasked : (key, dbname, .ok sql') ∈ r.asked ++ [(key, dbname, Except.ok sql')] :=
        mem_append_right _ mem_cons_self
      rcases conf.expire with _ | expire
      · refine ⟨rfl, hi₁.store hasked hres.symm hturn ?_⟩
        exact hE.set s₁.store key (E.encode a)
      · refine ⟨rfl, hi₁.store hasked hres.symm hturn ?_⟩
        exact hE.setex s₁.store key expire (E.encode a)
    · exact ⟨rfl, hi₁⟩

theorem callKey_spec (hE : E.Lawful) (hi : r.Inv E) {cachekey key : Bytes}
    (hkey : gsub cachekey (parttern conf) args = some key)
    (hasked : ∀ e ∈ r.asked, e.1 = key → e.2 = (dbname, joinSqlUtil sql (parttern conf) args)) :
    (r.cache.callKey E conf dbname sql cachekey args).2 = r.cache.direct E conf dbname sql args ∧
      Inv E ⟨(r.cache.callKey E conf dbname sql cachekey args).1,
        r.asked ++ [(key, dbname, joinSqlUtil sql (parttern conf) args)]⟩ := by
  rcases hv : E.redis.value r.cache.store key with _ | v
  · exact callKey_miss hE hi hkey hv
  · obtain ⟨h1, h2⟩ := callKey_hit hE hi hkey hasked hv
    exact ⟨h1, h2.asked _⟩

theorem callSql_spec (dbname sql : Bytes) (hi : r.Inv E) (hclear : ∀ clearrd, conf.clearrd = some clearrd →
      ∃ cmd, redisCommand clearrd args (redispt conf) (parttern conf) = some cmd ∧
        ∀ st k, E.redis.value (E.redis.call st cmd).1 k = none ∨
          E.redis.value (E.redis.call st cmd).1 k = E.redis.value st k) :
    (r.cache.callSql E conf dbname sql args).2 = r.cache.direct E conf dbname sql args ∧
      Inv E ⟨(r.cache.callSql E conf dbname sql args).1, r.asked⟩ := by
  rw [direct_eq hi.turn]
  unfold callSql
  rcases hj : joinSqlUtil sql (parttern conf) args with _ | sql'
  · exact ⟨rfl, hi⟩
  · have hres := mysqlQuery_snd hi.turn dbname sql'
    have hstore := mysqlQuery_store (E := E) (s := r.cache) dbname sql'
    have hturn := turn_mysqlQuery hi.turn dbname sql'
    rcases hm : r.cache.mysqlQuery E dbname sql' with ⟨s₁, res⟩
    rw [hm] at hres hstore hturn
    have hi₁ : Inv E ⟨s₁, r.asked⟩ := hi.less hturn fun k => .inr (by rw [hstore])
    simp only [hm, ← hres]
    rcases hc : conf.clearrd with _ | clearrd
    · rcases res with _ | _ | a | reply <;> exact ⟨rfl, hi₁⟩
    · obtain ⟨cmd, hcmd, hless⟩ := hclear clearrd hc
      -- what `clearrd` does after an answer
      have hi₂ : Inv E ⟨{ s₁ with store := (E.redis.call s₁.store cmd).1 }, r.asked⟩ :=
        hi₁.less hturn fun k => hless s₁.store k
      simp only [queryWithGsub, hcmd]
      rcases res with _ | _ | a | reply
      · exact ⟨rfl, hi₁⟩
      · exact ⟨rfl, hi₂⟩
      · exact ⟨rfl, hi₂⟩
      · exact ⟨rfl, hi₂⟩

end Branches

theorem call_spec (hE : E.Lawful) (hi : r.Inv E) {dbname : Bytes} {conf : CacheConf}
    {args : Table} (ht : Tame E r (.call dbname conf args)) :
    (∀ sql, conf.sql = some sql →
      (r.cache.call E conf dbname args).2 = r.cache.direct E conf dbname sql args) ∧
    Inv E ⟨(r.cache.call E conf dbname args).1, r.asked ++ asks dbname conf args⟩ := by
  obtain ⟨hredis, hrd, sql, hsql, hbranch⟩ := ht
  rcases hkey : conf.cachekey with _ | cachekey
  · have hcall : r.cache.call E conf dbname args = r.cache.callSql E conf dbname sql args := by
      unfold call
      rcases hrd with h | h <;> simp only [hredis, hsql, hkey, h]
      split <;> simp_all
    have hasks : asks dbname conf args = [] := by simp [asks, hsql, hkey]
    rw [hkey] at hbranch
    obtain ⟨h1, h2⟩ := callSql_spec dbname sql hi hbranch
    rw [hcall, hasks, append_nil]
    refine ⟨fun sql' hs => ?_, h2⟩
    obtain rfl := Option.some.inj (hsql.symm.trans hs)
    exact h1
  · rw [hkey] at hbranch
    obtain ⟨key, hk, hasked⟩ := hbranch
    have hcall : r.cache.call E conf dbname args =
        r.cache.callKey E conf dbname sql cachekey args := by
      unfold call
      rcases hrd with h | h <;> simp only [hredis, hsql, hkey, h]
      split <;> simp_all
    have hasks : asks dbname conf args = [(key, dbname, joinSqlUtil sql (parttern conf) args)] := by
      simp [asks, hsql, hkey, hk]
    obtain ⟨h1, h2⟩ := callKey_spec hE hi hk hasked
    rw [hcall, hasks]
    refine ⟨fun sql' hs => ?_, h2⟩
    obtain rfl := Option.some.inj (hsql.symm.trans hs)
    exact h1

theorem Inv.step (hE : E.Lawful) (hi : r.Inv E) {a : Action} (ht : Tame E r a)
    (hst : CacheRun.step E r a = some r') : r'.Inv E := by
  cases a with
  | call dbname conf args =>
    obtain rfl := Option.some.inj hst
    exact (call_spec hE hi ht).2
  | expire key =>
    obtain rfl := Option.some.inj hst
    refine hi.less hi.turn fun k => ?_
    simp only [hE.expire]
    by_cases hk : k = key
    · exact .inl (by rw [hk, update_self])
    · exact .inr (by rw [update_of_ne hk])

theorem inv_init (hE : E.Lawful) : (machine E).init.Inv E where
  turn _ _ _ h0 := Nat.pos_of_ne_zero h0
  kept key v hv := by
    rw [show E.redis.value (machine E).init.cache.store key = none from hE.init key] at hv
    cases hv

/-- After every run of tame calls, a tame call gives what its statement gives on MySQL. -/
theorem transparent_of_tame (hE : E.Lawful) (h : (machine E).Reach (Tame E) r)
    {dbname sql : Bytes} {conf : CacheConf} {args : Table} (hsql : conf.sql = some sql)
    (ht : Tame E r (.call dbname conf args)) :
    (r.cache.call E conf dbname args).2 = r.cache.direct E conf dbname sql args :=
  (call_spec hE (h.invariant (inv_init hE) fun _ _ _ hi ht hst => hi.step hE ht hst) ht).1 sql hsql

section Examples

/-- A redis server that knows GET, SET and SETEX. -/
def plainRedis : Redis (Bytes → Option Bytes) where
  init _ := none
  call st
    | [cmd, k] =>
      if cmd = Bytes.ascii "GET" then
        (st, match st k with
          | some v => .str v
          | none => .nil)
      else (st, .nil)
    | [cmd, k, v] =>
      if cmd = Bytes.ascii "SET" then (Function.update st k (some v), .str (Bytes.ascii "OK"))
      else (st, .nil)
    | [cmd, k, _, v] =>
      if cmd = Bytes.ascii "SETEX" then (Function.update st k (some v), .str (Bytes.ascii "OK"))
      else (st, .nil)
    | _ => (st, .nil)
  value st := st
  expire st k := Function.update st k none

/-- A database with one service, in which different statements have different answers. -/
def plainEnv : Env (Bytes → Option Bytes) Bytes where
  redis := plainRedis
  wkService _ := some [Bytes.ascii "mysql_1"]
  answer _ sql := some sql
  rows _ := []
  encode a := a
  decode b := some b

theorem lawful_plainEnv : plainEnv.Lawful where
  init _ := rfl
  get _ _ := rfl
  get_value _ _ := rfl
  set _ _ _ := rfl
  setex _ _ _ _ := rfl
  expire _ _ := rfl
  decode _ := rfl

def userSql : Bytes := Bytes.ascii "select * from db_player.accouts where uid = $uid"

/-- `db_player.get_user_info`. -/
def getUserInfo : CacheConf :=
  ⟨none, none, none, some userSql, none, none, some (Bytes.ascii "name_$uid"), none, none⟩

def dbPlayer : Bytes := Bytes.ascii "db_player"

/-- An entry that keeps the rows in redis. -/
def getUserRows : CacheConf :=
  ⟨none, none, none, some userSql, some (Bytes.ascii "hgetall name_$uid"),
    some (Bytes.ascii "hset name_$uid uid $uid"), none, none, none⟩

def uid (v : LuaPattern.Value) : Table := [(.str (Bytes.ascii "uid"), v)]

def one : Bytes := Bytes.ascii "1"

theorem gsub_name (v : LuaPattern.Value) (h : v = .num one ∨ v = .str one) :
    gsub (Bytes.ascii "name_$uid") (parttern getUserInfo) (uid v) =
      some (Bytes.ascii "name_1") := by
  rcases h with rfl | rfl <;> decide

theorem tame_init (v : LuaPattern.Value) (h : v = .num one ∨ v = .str one) :
    Tame plainEnv (machine plainEnv).init (.call dbPlayer getUserInfo (uid v)) := by
  refine ⟨rfl, .inl rfl, userSql, rfl, Bytes.ascii "name_1", gsub_name v h, ?_⟩
  intro e he
  cases he

/-- The first call and the second, of the same arguments. -/
theorem transparent_getUserInfo : ∃ r, (machine plainEnv).Reach (Tame plainEnv) r ∧
    r.asked.length = 1 ∧
    (r.cache.call plainEnv getUserInfo dbPlayer (uid (.num one))).2 =
      r.cache.direct plainEnv getUserInfo dbPlayer userSql (uid (.num one)) := by
  have ht := tame_init (.num one) (.inl rfl)
  have hasks : asks dbPlayer getUserInfo (uid (.num one)) = [(Bytes.ascii "name_1", dbPlayer,
      joinSqlUtil userSql defaultParttern (uid (.num one)))] := by decide
  refine ⟨_, Machine.Reach.init.step ht rfl, by rw [hasks]; rfl,
    transparent_of_tame lawful_plainEnv (Machine.Reach.init.step ht rfl) rfl ?_⟩
  refine ⟨rfl, .inl rfl, userSql, rfl, Bytes.ascii "name_1", gsub_name _ (.inl rfl), ?_⟩
  intro e he _
  rw [hasks] at he
  obtain rfl := List.mem_singleton.1 he
  rfl

def rows? : Result α → Option α
  | .rows a => some a
  | _ => none

/-- The number 1 and the text 1 build the same key and different statements, so the second call
gets the answer of the first; and a miss of `queryrd` is an error. -/
theorem not_transparent_getUserInfo : plainEnv.Lawful ∧
    (∃ r, (machine plainEnv).run (fun _ _ => True) (machine plainEnv).init
        [.call dbPlayer getUserInfo (uid (.num one))] = some r ∧
      (r.cache.call plainEnv getUserInfo dbPlayer (uid (.str one))).2 ≠
        r.cache.direct plainEnv getUserInfo dbPlayer userSql (uid (.str one))) ∧
    ((machine plainEnv).init.cache.call plainEnv getUserRows dbPlayer (uid (.num one))).2 ≠
      (machine plainEnv).init.cache.direct plainEnv getUserRows dbPlayer userSql (uid (.num one)) := by
  refine ⟨lawful_plainEnv, ⟨_, rfl, fun h => ?_⟩, fun h => ?_⟩
  · exact absurd (congrArg rows? h) (by decide)
  · exact absurd (congrArg rows? h) (by decide)

end Examples

end CacheRun

/-!
## The pieces of `futil.split`

For a separator of one byte, which `string.find` looks for as it is, the loop gives the pieces of
`List.splitOn`.
-/

open LuaPattern (noSpecials strFind memFind memFind_eq_some memFind_eq_none FirstAt firstAt_of_not_mem)

section Pieces

variable {α : Type*} [DecidableEq α] {c : α}

theorem not_mem_of_mem_splitOn : ∀ {s p : List α}, p ∈ s.splitOn c → c ∉ p
  | [], p, h => by
    rw [splitOn_nil, mem_singleton] at h
    rw [h]
    exact not_mem_nil
  | a :: s, p, h => by
    have hrest : ∀ q ∈ s.splitOn c, c ∉ q := fun q hq => not_mem_of_mem_splitOn hq
    rw [splitOn_cons_eq_if_modifyHead] at h
    split at h
    · rcases mem_cons.1 h with rfl | h
      · exact not_mem_nil
      · exact hrest p h
    · next hne =>
      obtain ⟨q, qs, hs⟩ := exists_cons_of_ne_nil (splitOn_ne_nil c s)
      rw [hs] at h hrest
      rcases mem_cons.1 h with rfl | h
      · intro hc
        rcases mem_cons.1 hc with rfl | hc
        · exact hne (beq_self_eq_true c)
        · exact hrest q mem_cons_self hc
      · exact hrest p (mem_cons_of_mem _ h)

theorem length_splitOn : ∀ s : List α, (s.splitOn c).length = s.count c + 1
  | [] => rfl
  | a :: s => by
    rw [splitOn_cons_eq_if_modifyHead, List.count_cons]
    split
    · rw [length_cons, length_splitOn s]
    · rw [length_modifyHead, length_splitOn s, Nat.add_zero]

end Pieces

namespace Bytes

variable {c : UInt8}

theorem strFind_of_not_mem (hc : noSpecials [c] = true) {x : Bytes} (hx : c ∉ x) (r : Bytes) :
    strFind (x ++ c :: r) [c] = some (some (x.length + 1)) := by
  have hfind : memFind (x ++ c :: r) [c] = some x.length :=
    memFind_eq_some.2 (firstAt_of_not_mem hx : FirstAt (x ++ ([c] ++ r)) [c] x.length)
  rw [strFind, if_pos hc, hfind, Option.map_some]

theorem strFind_eq_none (hc : noSpecials [c] = true) {s : Bytes} (hs : c ∉ s) :
    strFind s [c] = some none := by
  have hfind : memFind s [c] = none := memFind_eq_none.2 fun n hn =>
    hs (mem_of_mem_drop (hn.subset mem_cons_self))
  rw [strFind, if_pos hc, hfind, Option.map_none]

theorem split_eq_splitOn (hc : noSpecials [c] = true) : ∀ {n : ℕ} {s : Bytes}, s.length < n →
    split [c] n s = some (s.splitOn c)
  | 0, s, h => absurd h (Nat.not_lt_zero _)
  | n + 1, s, h => by
    rw [split]
    by_cases hs : c ∈ s
    · obtain ⟨x, r, rfl, hx⟩ := eq_append_cons_of_mem hs
      have hlt : r.length < n := by
        rw [length_append, length_cons] at h
        omega
      have hdrop : (x ++ c :: r).drop (x.length + 1) = r := by
        rw [drop_append, drop_of_length_le (by omega)]
        simp
      rw [strFind_of_not_mem hc hx, splitOn_append_cons_self_of_not_mem hx]
      simp [hdrop, split_eq_splitOn hc hlt]
    · rw [strFind_eq_none hc hs, splitOn_eq_singleton hs]
      rfl

/-- `futil.split` ends, loses nothing, and gives one piece more than there are separators, none of
which has one. -/
theorem split_pieces (hc : noSpecials [c] = true) (s : Bytes) : ∃ pieces : List Bytes,
    (∀ n, s.length < n → split [c] n s = some pieces) ∧ [c].intercalate pieces = s ∧
      (∀ piece ∈ pieces, c ∉ piece) ∧ pieces.length = s.count c + 1 :=
  ⟨s.splitOn c, fun _ h => split_eq_splitOn hc h, List.intercalate_splitOn c,
    fun _ h => not_mem_of_mem_splitOn h, length_splitOn s⟩

/-- A separator at the start, at the end, and behind another. -/
theorem split_pieces_commas : split [44] 6 [44, 97, 44, 44] = some [[], [97], [], []] ∧
    ∃ pieces : List Bytes, (∀ n, 4 < n → split [44] n [44, 97, 44, 44] = some pieces) ∧
      [44].intercalate pieces = [44, 97, 44, 44] ∧ (∀ piece ∈ pieces, 44 ∉ piece) ∧
      pieces.length = 4 :=
  ⟨by decide, split_pieces (c := 44) (by decide) [44, 97, 44, 44]⟩

end Bytes

end SkynetGame
