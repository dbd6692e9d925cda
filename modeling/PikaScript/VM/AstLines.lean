import PikaScript.VM.AstMeaning
import PikaScript.VM.Lines

/-! Lines of code do what their nodes mean.

What an instruct behind the code of a line does is added to what the code does
(`leads_rule`); a line starts with an empty stack, so what the stack holds behind a line does
not matter. Of that the abstract commands know nothing, nor of the list registers, which are
free but for an error in a list. -/
namespace PikaScript
open Commands

section
variable {V σ : Type} {handlers : Handlers V σ} {data : Operands V σ} {units : List AsmUnit}
  {unit : AsmUnit} {deepth i num : Nat} {isNewLine noList : Bool} {instruct : InstructIndex}
  {dat : CString}

/-! ### Instructs behind code -/

namespace Operands

/-- No list is being displayed. -/
def Free (data : Operands V σ) : Prop := ∀ k, data.oreg k = none

end Operands

end

end PikaScript
