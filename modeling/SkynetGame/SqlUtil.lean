import SkynetGame.Lib.LuaPattern

/-!
# Quoting for SQL (`lualib-src/lua-mysqlaux.c`, `services/persistent/cachedb/cache_util.lua`)
-/

namespace SkynetGame

namespace SqlUtil

open LuaPattern (Capture Value Table gsub)

/-- The loop of `num_escape_sql_str`, whose `n` is an `unsigned int`. -/
def numEscapeLoop (n : UInt32) : Bytes → UInt32
  | [] => n
  | c :: src =>
    if c &&& 0x80 = 0 then
      match c with
      | 0 | 8 | 10 | 13 | 9 | 26 | 92 | 39 | 34 => numEscapeLoop (n + 1) src
      | _ => numEscapeLoop n src
    else numEscapeLoop n src

def numEscapeSqlStr (src : Bytes) : UInt32 := numEscapeLoop 0 src

/-- `escape_sql_str`. -/
def escapeSqlStr : Bytes → Bytes
  | [] => []
  | c :: src =>
    if c &&& 0x80 = 0 then
      match c with
      | 0 => 92 :: 48 :: escapeSqlStr src
      | 8 => 92 :: 98 :: escapeSqlStr src
      | 10 => 92 :: 110 :: escapeSqlStr src
      | 13 => 92 :: 114 :: escapeSqlStr src
      | 9 => 92 :: 116 :: escapeSqlStr src
      | 26 => 92 :: 90 :: escapeSqlStr src
      | 92 => 92 :: 92 :: escapeSqlStr src
      | 39 => 92 :: 39 :: escapeSqlStr src
      | 34 => 92 :: 34 :: escapeSqlStr src
      | _ => c :: escapeSqlStr src
    else c :: escapeSqlStr src

/-- `quote_sql_str`. The buffer has `dlen` bytes; when what is written is not that long, there is
an error, by which time bytes may have been written past the buffer. -/
def quoteSqlStr (src : Bytes) : Option Bytes :=
  if src.length = 0 then some [39, 39]
  else
    let escape := (numEscapeSqlStr src).toNat
    let dlen := 2 + src.length + escape
    let dst := 39 :: (if escape = 0 then src else escapeSqlStr src) ++ [39]
    if dst.length ≠ dlen then none else some dst

/-- The errors of `join_sql_util`. -/
inductive Error
  -- of `quote_sql_str`, about its buffer
  | overrun
  -- of `string.gsub`
  | raised
deriving DecidableEq, Repr

/-- The arguments that are put into a statement as they are. -/
def exempt (key : Capture) : Bool :=
  key = .str (Bytes.ascii "table_name") || key = .str (Bytes.ascii "game_id")

/-- An entry of `argv`. -/
def argvEntry : Capture × Value → Except Error (Capture × Value)
  | (key, .str val) =>
    if exempt key then .ok (key, .str val)
    else
      match quoteSqlStr val with
      | some q => .ok (key, .str q)
      | none => .error .overrun
  | (key, val) => .ok (key, val)

/-- `join_sql_util`. -/
def joinSqlUtil (sql parttern : Bytes) (args : Table) : Except Error Bytes := do
  let argv ← args.mapM argvEntry
  match gsub sql parttern argv with
  | some joinSql => .ok joinSql
  | none => .error .raised

end SqlUtil

end SkynetGame
