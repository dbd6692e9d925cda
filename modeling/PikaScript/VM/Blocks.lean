import PikaScript.VM.Steps

/-! The blocks of an array: loops, `break` and `continue`, and `try`.

Each is a rule for a piece that sits somewhere in an array, with what is around it in an
`Env`. A loop comes back to its head by its `JMP -1`, a `break` finds the loop around it,
and an error finds the `NTR` of its `try`. -/
namespace PikaScript
open Commands

/-! ### How far jumps go -/

/-- The unit at an index, if there is one, ends blocks of a depth. -/
def EndsAt (units : List AsmUnit) (pos deepth : Nat) : Prop :=
  ∀ unit ∈ units[pos]?, unit.endsBlock deepth = true

section
variable {units piece : List AsmUnit} {unit : AsmUnit} {pos deepth n : Nat}

theorem EndsAt.mono {deepth' : Nat} (h : EndsAt units pos deepth) (hle : deepth ≤ deepth') :
    EndsAt units pos deepth' := by
  intro unit hunit
  have hends := h unit hunit
  rw [AsmUnit.endsBlock, Bool.and_eq_true, decide_eq_true_eq] at hends ⊢
  exact ⟨hends.1, hends.2.trans hle⟩

end

/-! ### Bodies -/

namespace Env
variable (env : Env)

/-- In the body of a loop that is closed at an index. -/
def inLoop (flag : Option Bool) (closing : Nat) : Env :=
  { env.inside flag with loop := some (env.deepth, closing) }

/-- In a `try` whose end is at an index. A `break` in it would leave it. -/
def inTry (flag : Option Bool) (ntr : Nat) : Env :=
  { env.inside flag with loop := none, handler := some (env.deepth, ntr) }

/-- Where the body of a loop is left to: the `JMP -1`, or what is behind it. -/
def roundEnds {σ : Type} (closing : Nat) : Exit Stop → Level σ → FrameState σ → Prop
  | .next => env.enters closing
  | .brk => env.enters (closing + 1)
  | .cont => env.enters closing
  | .stop why => env.leaves closing (.stop why)

/-- Where a round of a loop is left to, with the line that closes it. -/
def rounds {σ : Type} (host : VMHost σ) (closing : Nat) : Exit Stop → Level σ → FrameState σ → Prop
  | .next, s, m => ∃ data, s.2 = host.newLine data ∧ env.enters closing (s.1, data) m
  | .brk, s, m => env.enters (closing + 1) s m
  | .cont, _, _ => False
  | .stop why, s, m => env.leaves closing (.stop why) s m

end Env

/-! ### What is in the array in a block -/

section
variable {units piece : List AsmUnit} {env : Env} {flag : Option Bool} {start stop pos : Nat}

theorem Sits.mem {unit : AsmUnit} {i : Nat} (hsits : Sits units pos piece) (hlow : pos ≤ i)
    (hhigh : i < pos + piece.length) (hunit : units[i]? = some unit) : unit ∈ piece := by
  obtain ⟨back, hback⟩ := hsits
  rw [show i = pos + (i - pos) by omega, ← List.getElem?_drop, ← hback,
    List.getElem?_append_left (by omega)] at hunit
  exact List.mem_of_getElem? hunit

namespace Env

theorem Fits.inside (h : env.Fits units start stop) : (env.inside flag).Fits units start stop :=
  ⟨fun l hl => ⟨Nat.lt_succ_of_lt (h.loopDeepth l hl).1, (h.loopDeepth l hl).2⟩, h.loopAhead,
    h.loopCloses, fun l hl => ⟨Nat.lt_succ_of_lt (h.tryDeepth l hl).1, (h.tryDeepth l hl).2⟩,
    h.tryAhead, h.tryCloses⟩

/-- The body of a loop, with the `JMP -1` behind it. -/
theorem Fits.inLoop (h : env.Fits units start stop) (hpos : start ≤ pos)
    (hsits : Sits units pos (piece ++ [jmpBack env.deepth])) (hstop : pos + piece.length ≤ stop)
    (hpiece : ∀ unit ∈ piece, unit.isJmpBack env.deepth = false) :
    (env.inLoop flag (pos + piece.length)).Fits units pos (pos + piece.length) := by
  have hinside : (env.inside flag).Fits units pos (pos + piece.length) := (h.sub hpos hstop).inside
  refine ⟨?_, ?_, ?_, hinside.tryDeepth, hinside.tryAhead, hinside.tryCloses⟩
  · rintro l ⟨⟩
    exact ⟨Nat.lt_succ_self _, Nat.le_refl _⟩
  · rintro l ⟨⟩ i hlow hhigh unit hunit
    exact hpiece unit (hsits.left.mem hlow hhigh hunit)
  · rintro l ⟨⟩
    exact hsits.right.head

/-- The body of a `try`, with the `NTR` behind it. -/
theorem Fits.inTry {last : AsmUnit} (hsits : Sits units pos (piece ++ [last]))
    (hlast : last.instruct = .NTR)
    (hpiece : ∀ unit ∈ piece, unit.instruct ≠ .NTR ∧ unit.instruct ≠ .RET) :
    (env.inTry flag (pos + piece.length)).Fits units pos (pos + piece.length) := by
  refine ⟨(fun _ h => by cases h), (fun _ h => by cases h), (fun _ h => by cases h), ?_, ?_, ?_⟩
  · rintro h ⟨⟩
    exact ⟨Nat.lt_succ_self _, Nat.le_refl _⟩
  · rintro h ⟨⟩ i hlow hhigh unit hunit
    exact hpiece unit (hsits.left.mem hlow hhigh hunit)
  · rintro h ⟨⟩
    exact ⟨last, hsits.right.head, hlast⟩

end Env

end

section
variable {σ : Type} {host : VMHost σ} {units : List AsmUnit} {env : Env} {m : FrameState σ}
  {body c : Cmd (Level σ) Stop} {start stop closing : Nat} {flag b : Option Bool} {data : σ}

/-- Where a block stops, what is around it does. -/
theorem leaves_stop (env' : Env) {x : Option Bool} (hregs : env'.regs =
    Function.update env.regs env.deepth x) (hhandler : env'.handler = env.handler)
    (hdeepth : ∀ h ∈ env.handler, h.1 ≤ env.deepth) {why : Stop}
    (h : env'.leaves stop (.stop why) (b, data) m) :
    env.leaves closing (.stop why) (flag, data) m := by
  cases why with
  | returned => exact h
  | failed errorCode =>
    refine ⟨h.1, ?_⟩
    have hleft := h.2
    rw [hhandler] at hleft
    cases hcase : env.handler with
    | none =>
      rw [hcase] at hleft
      exact hleft
    | some handler =>
      rw [hcase] at hleft
      refine At.mono hleft (Nat.le_refl _) fun k hk c hc => ?_
      have hle := hdeepth handler hcase
      rwa [hregs, Function.update_of_ne (by omega)]

theorem inner_leaves {o : Exit Stop} (hloop : ∀ l ∈ env.loop, l.1 < env.deepth)
    (hhandler : ∀ h ∈ env.handler, h.1 < env.deepth)
    (h : (env.inside flag).leaves stop o (b, data) m) : env.leaves stop o (flag, data) m := by
  have hjump : ∀ pc : Nat × Nat → Nat, (∃ l ∈ env.loop, At (l.1 + 1)
      (Function.update env.regs env.deepth flag) env.handler.isSome 0 (pc l) data m) →
        ∃ l ∈ env.loop, At (l.1 + 1) env.regs env.handler.isSome 0 (pc l) data m := by
    rintro pc ⟨l, hl, hm⟩
    have hlt := hloop l hl
    refine ⟨l, hl, hm.mono (Nat.le_refl _) fun k hk c hc => ?_⟩
    rwa [Function.update_of_ne (by omega)]
  cases o with
  | next => exact Env.enters_outside h
  | brk => exact hjump _ h
  | cont => exact hjump _ h
  | stop why => exact leaves_stop (env.inside flag) rfl rfl (fun h hh => (hhandler h hh).le) h

/-- **The body of a block.** -/
theorem does_inner (hfits : env.Fits units start stop)
    (hbody : ∀ x, Does host units (env.inside x) start body stop) :
    Does host units env start (inner none body) stop := by
  refine (Realises.inner hbody).mono (fun s m hm => Env.enters_inside hm) fun o s m hm => ?_
  obtain ⟨b, hm⟩ := hm
  exact inner_leaves (fun l hl => (hfits.loopDeepth l hl).1)
    (fun h hh => (hfits.tryDeepth h hh).1) hm

end

/-! ### Jumps back -/

section
variable {σ : Type} {host : VMHost σ} {units piece : List AsmUnit} {env : Env} {first : AsmUnit}
  {head closing deepth : Nat}

end

/-! ### `break` and `continue` -/

section
variable {σ : Type} {host : VMHost σ} {units : List AsmUnit} {env : Env} {pos stop : Nat}
  {l : Nat × Nat}

theorem getAddrOffsetOfJmpBack_eq {unit : AsmUnit} (hunit : units[pos]? = some unit)
    (hscan : findLoopDeepth unit.blockDeepth (units.take pos).reverse = some l.1)
    (hlt : pos < l.2) (hahead : ∀ i, pos < i → i < l.2 → ∀ unit ∈ units[i]?,
      unit.isJmpBack l.1 = false) (hcloses : units[l.2]? = some (jmpBack l.1)) :
    getAddrOffsetOfJmpBack units pos = some (l.2 - pos) := by
  obtain ⟨hlength, hunit'⟩ := List.getElem?_eq_some_iff.mp hcloses
  have hfind : (units.drop (pos + 1)).findIdx? (AsmUnit.isJmpBack l.1) =
      some (l.2 - (pos + 1)) := by
    rw [List.findIdx?_eq_some_iff_getElem]
    refine ⟨by rw [List.length_drop]; omega, ?_, fun j hj => ?_⟩
    · have hindex : pos + 1 + (l.2 - (pos + 1)) = l.2 := by omega
      simp only [List.getElem_drop, hindex, hunit']
      exact (isJmpBack_jmpBack _ _).mpr rfl
    · rw [List.getElem_drop, Bool.not_eq_true]
      exact hahead _ (by omega) (by omega) _ (List.getElem?_eq_getElem _)
  rw [getAddrOffsetOfJmpBack, hunit, Option.bind_eq_bind, Option.bind_some, hscan,
    Option.bind_eq_bind, Option.bind_some, hfind]
  show some _ = _
  congr 1
  omega

/-- What `break` and `continue` need: the search back finds the loop around them. -/
structure FindsBack (units : List AsmUnit) (env : Env) (instruct : InstructIndex) (pos : Nat)
    (l : Nat × Nat) : Prop where
  unit : units[pos]? = some ⟨instruct, env.deepth, 0, true, []⟩
  loop : l ∈ env.loop
  scan : findLoopDeepth env.deepth (units.take pos).reverse = some l.1

theorem FindsBack.offset {instruct : InstructIndex} (h : FindsBack units env instruct pos l)
    (hfits : env.Fits units pos (pos + 1)) :
    pos < l.2 ∧ getAddrOffsetOfJmpBack units pos = some (l.2 - pos) := by
  have hlt : pos < l.2 := (hfits.loopDeepth l h.loop).2
  exact ⟨hlt, getAddrOffsetOfJmpBack_eq h.unit h.scan hlt
    (fun i hi => hfits.loopAhead l h.loop i hi.le) (hfits.loopCloses l h.loop)⟩

end

/-! ### `try` and `except` -/

namespace Env
variable {σ : Type} (env : Env)

/-- At an `except`, with an error. -/
def caught (pos : Nat) (s : Level σ) (m : FrameState σ) : Prop :=
  s.1 = some false ∧ ∃ errorCode,
    At (env.deepth + 1) (Function.update env.regs env.deepth s.1) env.handler.isSome errorCode pos
      s.2 m

/-- Behind a `try`: behind the `except` when there was no error, and at it when there was. -/
def tried (skip pos : Nat) (s : Level σ) (m : FrameState σ) : Prop :=
  env.tested true skip s m ∨ env.caught pos s m

end Env

section
variable {σ : Type} {host : VMHost σ} {units : List AsmUnit} {env : Env}
  {body : Cmd (Level σ) Stop} {leave : Exit Stop → Level σ → FrameState σ → Prop}
  {pos ntr skip stop : Nat}

end

/-! ### `return` -/

section
variable {σ : Type} {host : VMHost σ} {units : List AsmUnit} {env : Env} {pos stop deepth : Nat}
  {isNewLine : Bool}

end

end PikaScript
