import PikaScript.Lib.Memory
import PikaScript.VM.Operator

/-! Repetition: `*` of a `str` or a `bytes` and an integer.

The copies are written into a buffer whose size is computed first: for a `str` in an
`int32_t`, for a `bytes` in a `size_t` of which the content keeps 32 bits. -/
namespace PikaScript
open Memory

/-! ### The code -/

/-- `args_getBuff`. The buffer is cleared. -/
def argsGetBuff (size : Int) : Bytes := List.replicate (s32 (size + 1) % 2 ^ 32).toNat 0

theorem length_argsGetBuff {size : Int} (h₁ : 0 ≤ size) (h₂ : size < 2 ^ 31) :
    (argsGetBuff (s32 (size + 1))).length = size.toNat + 2 := by
  have hsum : s32 (s32 (size + 1) + 1) % 2 ^ 32 = size + 2 := by
    rw [s32_emod, Int.add_emod, s32_emod, ← Int.add_emod]
    omega
  rw [argsGetBuff, List.length_replicate, hsum]
  omega

end PikaScript
