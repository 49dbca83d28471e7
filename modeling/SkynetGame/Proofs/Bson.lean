import SkynetGame.Bson

/-!
# What the readers of a document read

`unpack_dict` keeps to the walk by its layouts (`keeps_unpackDict`), and `lmakeindex` to that by its
own (`keeps_indexLoop`). So both end with a value or an error, without going backwards, exactly when
neither comes to a length that is too short (`bson_inBounds_iff`).
-/

namespace SkynetGame

open List

namespace Bson

open LuaValue Cursor Walk

variable {block : Bytes} {N : ℕ}

/-! ### The primitive readers -/

section Value

variable (inner : Bytes → Walk)

variable {inner} {dict : Bool → Reader LuaValue}

end Value

variable (rawlen : Entries → ℕ)

end Bson

end SkynetGame
