import SkynetGame.Proofs.OrderQueue

/-!
# Channels in order mode

Each step keeps the queue, and somebody to wake those in it.
-/

namespace SkynetGame

open Function List Option

namespace SocketChannel

variable {α : Type*} {s t : State α} {co d q : ℕ} {m : Option α} {cur : Option ℕ}

section Reply

variable {r : Reply α}

end Reply

/-! ## The other steps -/

end SocketChannel

end SkynetGame
