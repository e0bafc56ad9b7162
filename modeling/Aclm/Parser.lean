import Aclm.Ast
import Mathlib.Data.Nat.Size

/-! Statements whose numbers the parser changes before it builds the node. -/

set_option autoImplicit false

namespace Aclm.Parser

/-- `kernel:net_allow_port n` -/
def netAllowPort (n : Int) : Op := .kernelNetAllowPort (n % 64)

/-- The number of slots that `kernel:dma_ring_init n` asks for: at least two, and forced to a power of two. -/
def ringSlots (n : Int) : Nat :=
  let n := (if n < 2 then 2 else n).toNat
  if n &&& (n - 1) ≠ 0 then 1 <<< n.size else n

/-- `kernel:dma_ring_init n` -/
def dmaRingInit (n : Int) : Op := .kernelDmaRingInit (ringSlots n)

end Aclm.Parser
