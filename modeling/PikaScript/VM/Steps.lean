import PikaScript.VM.Meaning

/-! Pieces of the array and what they do.

`Env` is what stands around a piece: its depth, what the registers of the blocks around
hold, and where the loop and the `try` around it end. `Does` says that the machine runs a
command from a unit to another one, or leaves for where `Env` says. Code in a row, a test
and an `else` do what they mean wherever they sit in an array. -/
namespace PikaScript
open Commands

/-! ### Where a frame is -/

/-- What registers hold. -/
def IregHolds (ireg : Fin registSize → Bool) (deepth : Nat) (regs : Nat → Option Bool) : Prop :=
  ∀ k < deepth, ∀ b ∈ regs k, ∃ h : k < registSize, ireg ⟨k, h⟩ = b

section
variable {σ : Type}

/-- A frame that runs: at a unit, with what is known of the registers less deep. -/
inductive At (deepth : Nat) (regs : Nat → Option Bool) (tryState : Bool) (errorCode pc : Nat)
    (data : σ) : FrameState σ → Prop
  | running {ireg} : IregHolds ireg deepth regs →
      At deepth regs tryState errorCode pc data (.running ⟨⟨pc, ireg, data⟩, tryState, errorCode⟩)

/-- What is around a piece: the loop, with its depth and the index of its `JMP -1`, and the
`try`, with its depth and the index of its `NTR`. -/
structure Env where
  deepth : Nat
  regs : Nat → Option Bool
  loop : Option (Nat × Nat)
  handler : Option (Nat × Nat)

namespace Env
variable (env : Env)

/-- At a unit of the piece. -/
def enters (pc : Nat) (s : Level σ) (m : FrameState σ) : Prop :=
  At (env.deepth + 1) (Function.update env.regs env.deepth s.1) env.handler.isSome 0 pc s.2 m

/-- Where a piece is left to, when it ends in front of a unit. -/
def leaves (stop : Nat) : Exit Stop → Level σ → FrameState σ → Prop
  | .next, s, m => env.enters stop s m
  | .brk, s, m => ∃ l ∈ env.loop, At (l.1 + 1) env.regs env.handler.isSome 0 (l.2 + 1) s.2 m
  | .cont, s, m => ∃ l ∈ env.loop, At (l.1 + 1) env.regs env.handler.isSome 0 l.2 s.2 m
  | .stop .returned, s, m => m = .exited (some .returned) s.2
  | .stop (.failed errorCode), s, m => errorCode ≠ 0 ∧
      match env.handler with
      | none => m = .exited (some (.failed errorCode)) s.2
      | some h => At h.1 env.regs true errorCode h.2 s.2 m

/-- Where code is left to: it goes on, or stops. -/
def ends (stop : Nat) : Exit Stop → Level σ → FrameState σ → Prop
  | .next => env.enters stop
  | .stop why => env.leaves stop (.stop why)
  | _ => fun _ _ => False

/-- In a block, with what its test left behind. -/
def inside (flag : Option Bool) : Env :=
  { env with deepth := env.deepth + 1, regs := Function.update env.regs env.deepth flag }

/-- **What must be in the array** from a unit to another one: the `JMP -1` of the loop is
the next of its depth, and the `NTR` of the `try` the next that a search for it stops at. -/
structure Fits (units : List AsmUnit) (env : Env) (start stop : Nat) : Prop where
  loopDeepth : ∀ l ∈ env.loop, l.1 < env.deepth ∧ stop ≤ l.2
  loopAhead : ∀ l ∈ env.loop, ∀ i, start ≤ i → i < l.2 → ∀ unit ∈ units[i]?,
    unit.isJmpBack l.1 = false
  loopCloses : ∀ l ∈ env.loop, units[l.2]? = some (jmpBack l.1)
  tryDeepth : ∀ h ∈ env.handler, h.1 < env.deepth ∧ stop ≤ h.2
  tryAhead : ∀ h ∈ env.handler, ∀ i, start ≤ i → i < h.2 → ∀ unit ∈ units[i]?,
    unit.instruct ≠ .NTR ∧ unit.instruct ≠ .RET
  tryCloses : ∀ h ∈ env.handler, ∃ unit, units[h.2]? = some unit ∧ unit.instruct = .NTR

theorem Fits.sub {units : List AsmUnit} {env : Env} {start stop start' stop' : Nat}
    (h : env.Fits units start stop) (hstart : start ≤ start') (hstop : stop' ≤ stop) :
    env.Fits units start' stop' :=
  ⟨fun l hl => ⟨(h.loopDeepth l hl).1, hstop.trans (h.loopDeepth l hl).2⟩,
    fun l hl i hi => h.loopAhead l hl i (hstart.trans hi), h.loopCloses,
    fun l hl => ⟨(h.tryDeepth l hl).1, hstop.trans (h.tryDeepth l hl).2⟩,
    fun l hl i hi => h.tryAhead l hl i (hstart.trans hi), h.tryCloses⟩

end Env

/-- The machine runs a command, from a unit to another one. -/
def Does (host : VMHost σ) (units : List AsmUnit) (env : Env) (start : Nat)
    (c : Cmd (Level σ) Stop) (stop : Nat) : Prop :=
  Realises (FrameState.step host units) (env.enters start) c (env.leaves stop)

end

/-! ### What is known of a frame -/

section
variable {σ : Type} {env : Env} {m : FrameState σ}

theorem IregHolds.mono {ireg : Fin registSize → Bool} {deepth deepth' : Nat}
    {regs regs' : Nat → Option Bool} (h : IregHolds ireg deepth regs) (hle : deepth' ≤ deepth)
    (hregs : ∀ k < deepth', ∀ b ∈ regs' k, b ∈ regs k) : IregHolds ireg deepth' regs' :=
  fun k hk b hb => h k (Nat.lt_of_lt_of_le hk hle) b (hregs k hk b hb)

theorem At.mono {deepth deepth' errorCode pc : Nat} {regs regs' : Nat → Option Bool}
    {tryState : Bool} {data : σ} (h : At deepth regs tryState errorCode pc data m)
    (hle : deepth' ≤ deepth) (hregs : ∀ k < deepth', ∀ b ∈ regs' k, b ∈ regs k) :
    At deepth' regs' tryState errorCode pc data m := by
  obtain ⟨hholds⟩ := h
  exact ⟨hholds.mono hle hregs⟩

theorem IregHolds.below {ireg : Fin registSize → Bool} {deepth deepth' : Nat}
    {regs : Nat → Option Bool} {flag : Option Bool}
    (h : IregHolds ireg deepth' (Function.update regs deepth flag)) (hle : deepth ≤ deepth') :
    IregHolds ireg deepth regs :=
  h.mono hle fun k hk b hb => by rwa [Function.update_of_ne (Nat.ne_of_lt hk)]

/-- A register that is written. -/
theorem IregHolds.update {ireg : Fin registSize → Bool} {deepth : Nat} {regs : Nat → Option Bool}
    (h : IregHolds ireg deepth regs) (hlt : deepth < registSize) (b : Bool) :
    IregHolds (Function.update ireg ⟨deepth, hlt⟩ b) (deepth + 1)
      (Function.update regs deepth (some b)) := by
  intro k hk c hc
  rcases Nat.lt_or_eq_of_le (Nat.le_of_lt_succ hk) with hk | rfl
  · rw [Function.update_of_ne hk.ne] at hc
    obtain ⟨hreg, hc⟩ := h k hk c hc
    refine ⟨hreg, ?_⟩
    rw [Function.update_of_ne fun heq => hk.ne (congrArg Fin.val heq)]
    exact hc
  · rw [Function.update_self] at hc
    cases hc
    exact ⟨hlt, Function.update_self _ _ _⟩

/-- What the register of a block holds. -/
theorem IregHolds.flag {ireg : Fin registSize → Bool} {deepth : Nat} {regs : Nat → Option Bool}
    {b : Bool} (h : IregHolds ireg (deepth + 1) (Function.update regs deepth (some b))) :
    ∃ hlt : deepth < registSize, ireg ⟨deepth, hlt⟩ = b :=
  h deepth (Nat.lt_succ_self _) b (by rw [Function.update_self]; rfl)

theorem IregHolds.forget {ireg : Fin registSize → Bool} {deepth : Nat} {regs : Nat → Option Bool}
    {flag : Option Bool} (h : IregHolds ireg (deepth + 1) (Function.update regs deepth flag)) :
    IregHolds ireg (deepth + 1) (Function.update regs deepth none) := by
  refine h.mono (Nat.le_refl _) fun k _ b hb => ?_
  by_cases hk : k = deepth
  · rw [hk, Function.update_self] at hb
    cases hb
  · rwa [Function.update_of_ne hk] at hb ⊢

/-- Into a block. -/
theorem IregHolds.inside {ireg : Fin registSize → Bool} {deepth : Nat} {regs : Nat → Option Bool}
    (h : IregHolds ireg (deepth + 1) regs) :
    IregHolds ireg (deepth + 2) (Function.update regs (deepth + 1) none) := by
  intro k hk b hb
  by_cases hk' : k = deepth + 1
  · rw [hk', Function.update_self] at hb
    cases hb
  · rw [Function.update_of_ne hk'] at hb
    exact h k (by omega) b hb

theorem Env.enters_inside {pc : Nat} {flag : Option Bool} {data : σ}
    (h : env.enters pc (flag, data) m) : (env.inside flag).enters pc (none, data) m := by
  obtain ⟨hholds⟩ := h
  exact ⟨hholds.inside⟩

/-- Out of a block. -/
theorem Env.enters_outside {pc : Nat} {flag b : Option Bool} {data : σ}
    (h : (env.inside flag).enters pc (b, data) m) : env.enters pc (flag, data) m := by
  rcases h with ⟨hholds⟩
  exact ⟨hholds.below (Nat.le_succ _)⟩

end

/-! ### Commands in a row -/

section
variable {σ : Type} {host : VMHost σ} {units : List AsmUnit} {env : Env}
  {c d : Cmd (Level σ) Stop} {start mid stop : Nat}

theorem leaves_eq (env : Env) (mid stop : Nat) (o : Exit Stop) :
    env.leaves (σ := σ) mid o = leaveTo (env.enters mid) (env.leaves stop) o := by
  cases o with
  | stop why => cases why <;> rfl
  | _ => rfl

theorem Does.seq (h : Does host units env start c mid) (hd : Does host units env mid d stop) :
    Does host units env start (Commands.seq c d) stop := by
  refine Realises.seq (Realises.mono h (fun _ _ hm => hm) fun o s m hm => ?_) hd
  rwa [leaves_eq env mid stop] at hm

end

/-! ### Code in a row -/

section
variable {σ : Type} {host : VMHost σ} {units : List AsmUnit} {env : Env} {unit : AsmUnit}

end

/-! ### Tests -/

section
variable {σ : Type} {host : VMHost σ} {units : List AsmUnit} {env : Env} {dat : CString}
  {ireg : Fin registSize → Bool} {deepth pos stop n errorCode : Nat} {data : σ}
  {tryState isNewLine : Bool}

/-- The entry behind a test, by how it ended. -/
def Env.tested (env : Env) (flag : Bool) (pos : Nat) (s : Level σ) (m : FrameState σ) : Prop :=
  s.1 = some flag ∧ env.enters pos s m

variable {c d : Cmd (Level σ) Stop} {leave : Exit Stop → Level σ → FrameState σ → Prop}

end

end PikaScript
