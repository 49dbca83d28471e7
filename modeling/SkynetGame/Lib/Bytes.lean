import Mathlib.Data.UInt

/-!
# Byte strings

A string of Lua, and a buffer of C, as the list of its bytes.
-/

namespace SkynetGame

abbrev Bytes := List UInt8

namespace Bytes

/-- The bytes of an ASCII text. -/
def ascii (s : String) : Bytes := s.toList.map fun c => c.toNat.toUInt8

/-- `string.lower` in the C locale. -/
def lower (b : Bytes) : Bytes := b.map fun c => if 65 ≤ c ∧ c ≤ 90 then c + 32 else c

/-- `string.upper` in the C locale. -/
def upper (b : Bytes) : Bytes := b.map fun c => if 97 ≤ c ∧ c ≤ 122 then c - 32 else c

end Bytes

end SkynetGame
