import PikaScript.VM.AstLines
import PikaScript.VM.Program

/-! A program runs as its nodes mean.

The commands on the scopes describe those on the frame, statement by statement and block by
block; with `program_runs` the frame of a program does what its nodes mean. -/
namespace PikaScript
open Commands

section
variable {α V σ : Type} {handlers : Handlers V σ} {deepth : Nat} {isNewLine noList : Bool}

/-! ### Scopes and frames -/

/-- A frame with these scopes, where no list is being displayed. -/
def HasScope (scope : σ) (data : Operands V σ) : Prop := data.scope = scope ∧ data.Free

/-- An error may leave a list behind. -/
def HasScopeAt (noList : Bool) : Exit Stop → σ → Operands V σ → Prop
  | .stop (.failed _), scope, data => data.scope = scope ∧ (noList = true → data.Free)
  | _, scope, data => HasScope scope data

def LevelsAt (noList : Bool) (o : Exit Stop) : Level σ → Level (Operands V σ) → Prop :=
  Same (HasScopeAt noList o)

theorem Describes.next {pre : Level σ → Level (Operands V σ) → Prop} {d : AstCmd σ}
    {c : Cmd (Level (Operands V σ)) Stop} (h : Describes pre d c (LevelsAt noList)) :
    Describes pre d c (nextTo (Same HasScope) (LevelsAt noList)) :=
  h.mono (fun _ _ hs => hs) fun o _ _ hs => by cases o <;> exact hs

theorem HasScopeAt.scope {o : Exit Stop} {scope : σ} {data : Operands V σ}
    (h : HasScopeAt noList o scope data) : data.scope = scope := by
  cases o with
  | stop why => cases why <;> exact h.1
  | _ => exact h.1

end

end PikaScript
