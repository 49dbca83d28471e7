import SkynetGame.Lib.Run
import SkynetGame.SqlUtil

/-!
# The cache before the database (`services/persistent/cachedb`)

`cache_util.call` with `mysql_util` and `redis_util` below it. What answers at the other end is a
parameter: a redis server that takes commands, what MySQL answers to a statement, and `cjson`.
-/

namespace SkynetGame

open LuaPattern (Table gsub strFind)

/-- `futil.split`; none for an error, and for the loop that never ends, once `sp` matches where
nothing is left. -/
def Bytes.split (sp : Bytes) : ℕ → Bytes → Option (List Bytes)
  | 0, _ => none
  | n + 1, temp => do
    match ← strFind temp sp with
    | some len => return temp.take (len - 1) :: (← split sp n (temp.drop len))
    | none => return [temp]

/-- What redis replies. -/
inductive Reply
  | nil
  | int (n : ℤ)
  | str (b : Bytes)
  | array (rs : List Reply)

/-- A redis server: what a command does and replies, and which string is under a key. -/
structure Redis (σ : Type*) where
  init : σ
  call : σ → List Bytes → σ × Reply
  value : σ → Bytes → Option Bytes
  -- a key has been there for as long as it was to be kept
  expire : σ → Bytes → σ

/-- An entry of `cache_conf`. -/
structure CacheConf where
  parttern : Option Bytes
  redispt : Option Bytes
  redis : Option Bytes
  sql : Option Bytes
  queryrd : Option Bytes
  cacherd : Option Bytes
  cachekey : Option Bytes
  -- as a number with its text
  expire : Option Bytes
  clearrd : Option Bytes

namespace CacheUtil

/-- What `cache_util.call` works with; an answer of MySQL is an `α`, with the rows it has. -/
structure Env (σ α : Type*) where
  redis : Redis σ
  -- the `wkService` of a database, unless `mysql_dbservice` does not have it
  wkService : Bytes → Option (List Bytes)
  -- `nil` for a bad result
  answer : Bytes → Bytes → Option α
  rows : α → List Table
  encode : α → Bytes
  decode : Bytes → Option α

/-- What a call comes to. -/
inductive Result (α : Type*)
  | raised
  | nil
  | rows (a : α)
  | reply (r : Reply)

end CacheUtil

/-- What lasts from one call to the next: the contents of redis, and the `wkIndex` of each
database. -/
structure CacheUtil (σ : Type*) where
  store : σ
  wkIndex : Bytes → ℕ

namespace CacheUtil

variable {σ α : Type*} (E : Env σ α) (s : CacheUtil σ)

/-- `mysql_util.query`. -/
def mysqlQuery (dbname sql : Bytes) : CacheUtil σ × Result α :=
  match E.wkService dbname with
  | none => (s, .nil)
  | some wkService =>
    -- a remainder by 0 is an error
    if wkService.length = 0 then (s, .raised)
    else
      let wkIndex := s.wkIndex dbname + 1
      let s := { s with
        wkIndex := Function.update s.wkIndex dbname (wkIndex % wkService.length) }
      match wkService[wkIndex - 1]? with
      | none => (s, .nil)
      | some _ =>
        match E.answer dbname sql with
        | some a => (s, .rows a)
        | none => (s, .nil)

/-- `redis_util.querycmd`. -/
def querycmd (cmd : List Bytes) : CacheUtil σ × Reply :=
  ({ s with store := (E.redis.call s.store cmd).1 }, (E.redis.call s.store cmd).2)

/-- The command that `query_with_gsub` and `excute_with_gsub` make of `redisstr`. -/
def redisCommand (redisstr : Bytes) (args : Table) (redispt pattern : Bytes) :
    Option (List Bytes) := do
  let redisCmd ← Bytes.split redispt (redisstr.length + 1) redisstr
  redisCmd.mapM fun rd => gsub rd pattern args

/-- `redis_util.query_with_gsub`; none if it is an error. -/
def queryWithGsub (redisstr : Bytes) (args : Table) (redispt pattern : Bytes) :
    CacheUtil σ × Option Reply :=
  match redisCommand redisstr args redispt pattern with
  | some cmd => ((s.querycmd E cmd).1, some (s.querycmd E cmd).2)
  | none => (s, none)

/-- `redis_util:query_with_gsub(..)`, with a colon: the table `redis_util` comes in the place of
`redisstr`, on which `futil.split` is an error. -/
def colonQueryWithGsub : CacheUtil σ × Option Reply := (s, none)

def defaultParttern : Bytes := Bytes.ascii "$([%w_]+)"

def defaultRedispt : Bytes := Bytes.ascii " "

section Conf

variable (conf : CacheConf)

def parttern : Bytes := conf.parttern.getD defaultParttern

def redispt : Bytes := conf.redispt.getD defaultRedispt

/-- Sets the time to live of the `cachekey` filled in from `t`; none if that is an error. -/
def expireKey (t : Table) : Option (CacheUtil σ) :=
  match conf.expire, conf.cachekey with
  | some expire, some cachekey =>
    (gsub cachekey (parttern conf) t).map fun rediskey =>
      (s.querycmd E [Bytes.ascii "EXPIRE", rediskey, expire]).1
  | _, _ => some s

/-- The loop that writes the rows into redis; none if it ends with an error. -/
def writeRows (cacherd : Bytes) : CacheUtil σ → List Table → CacheUtil σ × Option Unit
  | s, [] => (s, some ())
  | s, col :: rows =>
    match s.queryWithGsub E cacherd col defaultRedispt defaultParttern with
    | (s, none) => (s, none)
    | (s, some _) =>
      match s.expireKey E conf col with
      | none => (s, none)
      | some s => writeRows cacherd s rows

/-- Whether what `queryrd` gives is taken for an answer. -/
def isHit : Reply → Bool
  | .nil | .array [] => false
  | _ => true

/-- The branch of `queryrd` and `cacherd`. -/
def callRows (dbname sql queryrd cacherd : Bytes) (args : Table) : CacheUtil σ × Result α :=
  match s.queryWithGsub E queryrd args (redispt conf) (parttern conf) with
  | (s, none) => (s, .raised)
  | (s, some qyresult) =>
    if isHit qyresult then (s, .reply qyresult)
    else
      match SqlUtil.joinSqlUtil sql (parttern conf) args with
      | .error _ => (s, .raised)
      | .ok sql =>
        match s.mysqlQuery E dbname sql with
        | (s, .raised) => (s, .raised)
        | (s, sqlcache) =>
          let rows := match sqlcache with
            | .rows a => E.rows a
            | _ => []
          match writeRows E conf cacherd s rows with
          | (s, none) => (s, .raised)
          | (s, some ()) =>
            match s.colonQueryWithGsub with
            | (s, none) => (s, .raised)
            | (s, some reply) => (s, .reply reply)

/-- The branch of `cachekey`. -/
def callKey (dbname sql cachekey : Bytes) (args : Table) : CacheUtil σ × Result α :=
  match gsub cachekey (parttern conf) args with
  | none => (s, .raised)
  | some rdskey =>
    match s.querycmd E [Bytes.ascii "GET", rdskey] with
    | (s, .str rdscache) =>
      match E.decode rdscache with
      | some a => (s, .rows a)
      | none => (s, .raised)
    -- GET does not reply with anything else
    | (s, .int _) | (s, .array _) => (s, .raised)
    | (s, .nil) =>
      match SqlUtil.joinSqlUtil sql (parttern conf) args with
      | .error _ => (s, .raised)
      | .ok sql =>
        match s.mysqlQuery E dbname sql with
        | (s, .rows a) =>
          match conf.expire with
          | some expire =>
            ((s.querycmd E [Bytes.ascii "SETEX", rdskey, expire, E.encode a]).1, .rows a)
          | none => ((s.querycmd E [Bytes.ascii "SET", rdskey, E.encode a]).1, .rows a)
        | (s, sqlcache) => (s, sqlcache)

/-- The branch without a cache. -/
def callSql (dbname sql : Bytes) (args : Table) : CacheUtil σ × Result α :=
  match SqlUtil.joinSqlUtil sql (parttern conf) args with
  | .error _ => (s, .raised)
  | .ok sql =>
    match s.mysqlQuery E dbname sql with
    | (s, .raised) => (s, .raised)
    | (s, qyresult) =>
      match conf.clearrd with
      | none => (s, qyresult)
      | some clearrd =>
        -- by `excute_with_gsub`, which sends the command and does not wait
        match s.queryWithGsub E clearrd args (redispt conf) (parttern conf) with
        | (s, none) => (s, .raised)
        | (s, some _) => (s, qyresult)

/-- `cache_util.call`, of an entry. -/
def call (dbname : Bytes) (args : Table) : CacheUtil σ × Result α :=
  match conf.redis, conf.sql with
  | some redis, _ =>
    match s.queryWithGsub E redis args (redispt conf) (parttern conf) with
    | (s, none) => (s, .raised)
    | (s, some ret) =>
      match s.expireKey E conf args with
      | none => (s, .raised)
      | some s => (s, .reply ret)
  | none, none => (s, .nil)
  | none, some sql =>
    match conf.queryrd, conf.cacherd, conf.cachekey with
    | some queryrd, some cacherd, _ => s.callRows E conf dbname sql queryrd cacherd args
    | _, _, some cachekey => s.callKey E conf dbname sql cachekey args
    | _, _, none => s.callSql E conf dbname sql args

/-- What running the statement directly on MySQL comes to. -/
def direct (dbname sql : Bytes) (args : Table) : Result α :=
  match SqlUtil.joinSqlUtil sql (parttern conf) args with
  | .error _ => .raised
  | .ok sql => (s.mysqlQuery E dbname sql).2

end Conf

end CacheUtil

end SkynetGame
