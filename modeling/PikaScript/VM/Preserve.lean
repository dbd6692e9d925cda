import PikaScript.VM.Texts

/-! The blocks of a program do what they mean.

Each kind of block, its header, its body and what closes it, does what `Header.meaning` says of
the meaning of its body, wherever it sits in the array. -/
namespace PikaScript
open Commands

/-! ### Blocks of a program -/

/-- **A block in the array**: its header, its body and what closes it, and what is around. -/
structure BlockAt (units : List AsmUnit) (env : Env) (around : Around) (header : Header)
    (piece closing : List AsmUnit) (start pos last stop : Nat) : Prop where
  sits : Sits units start
    (lineUnits (.block env.deepth :: header.asm env.deepth) ++ (piece ++ closing))
  opens : Opens units start
  posEq : start + (lineUnits (.block env.deepth :: header.asm env.deepth)).length = pos
  lastEq : pos + piece.length = last
  stopEq : last + closing.length = stop
  deepth : env.deepth < registSize
  noClass : NoClass piece
  deeper : ∀ unit ∈ piece, unit.isNewLine = true → env.deepth < unit.blockDeepth
  back : ∀ unit ∈ piece, unit.isJmpBack env.deepth = false
  ends : EndsAt units stop env.deepth
  fits : env.Fits units start stop
  knows : env.Knows units around start

/-- What a body must do, whatever is known around it. -/
def BodyDoes {σ : Type} (host : VMHost σ) (units : List AsmUnit) (deepth : Nat) (around : Around)
    (body : Cmd (Level σ) Stop) (pos last : Nat) : Prop :=
  ∀ env : Env, env.deepth = deepth + 1 → env.Fits units pos last → env.Knows units around pos →
    Does host units env pos body last

section
variable {σ : Type} {host : VMHost σ} {units piece closing : List AsmUnit} {env : Env}
  {around : Around} {header : Header} {body : Cmd (Level σ) Stop} {start pos last stop : Nat}

/-- The body of a block that is no loop and no `try`. -/
theorem BlockAt.inner (h : BlockAt units env around header piece closing start pos last stop)
    (henter : around.enter env.deepth header = around.ended (header.codeLoops env.deepth))
    (hloop : header.isLoop = false)
    (hbody : BodyDoes host units env.deepth (around.enter env.deepth header) body pos last) :
    Does host units env pos (inner none body) last := by
  have hstop := h.stopEq
  have hpos := h.posEq
  have hfits : env.Fits units pos last := h.fits.sub (by omega) (by omega)
  refine does_inner hfits fun x => hbody _ rfl hfits.inside ?_
  have hmarks := marks_header header env.deepth
  rw [Header.ownLoops, hloop, if_neg Bool.false_ne_true, List.append_nil] at hmarks
  have hknows := h.knows.behind h.sits.left hmarks fun f hf =>
    Header.loops_lt h.deepth f (List.mem_append_left _ hf)
  rw [h.posEq] at hknows
  rw [henter]
  exact hknows.inside

end

/-! ### What a block leaves behind -/

section
variable {σ : Type} {host : VMHost σ} {body c : Cmd (Level σ) Stop} {deepth : Nat} {s s' : Level σ}
  {o : Exit Stop} {isNewLine : Bool}

end

end PikaScript
