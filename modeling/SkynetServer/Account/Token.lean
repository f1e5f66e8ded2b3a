import Mathlib.Data.List.GetD
import Mathlib.Data.List.Nodup

/-!
# Login tokens

`CMD.token` of `generatord` shifts the time by 20 bits and sets the bits of a
counter, which is never set back.  After 2^20 calls the counter reaches the bits
of the time.
-/

namespace SkynetServer.Generator

/-! ## The source -/

/-- What `CMD.token` returns at the time `tm`, in seconds. -/
def token (tm index : BitVec 64) : BitVec 64 := (tm <<< 20) ||| index

section Bits

variable {s t i j : ℕ}

end Bits

/-! ## Sequences of calls -/

section Calls

variable {times : List ℕ} {i : ℕ}

end Calls

end SkynetServer.Generator
