import PikaScript.Lib.Commands
import PikaScript.VM.Close

/-! The loop of a frame with its errors, from `PikaVM.c`.

`PikaVMFrame.round` is a turn of `__pikaVM_runByteCodeFrameWithState`: a line starts with
an empty stack, an instruct is run, and an error goes to the handler of a `try` or ends the
frame. Of what the instructs do to the data of the frame it knows what `VMHost` says, above
all that most instructs look back in their own line only. -/
namespace PikaScript
open Commands

/-- How a frame ends in front of the end of its array. -/
inductive Stop where
  | returned
  | failed (errorCode : Nat)
deriving DecidableEq, Repr

/-- A piece that does not end with the head of a class. -/
def NoClass (units : List AsmUnit) : Prop := ∀ unit ∈ units.reverse.take 2, unit.instruct ≠ .CLS

/-- A piece that a line behind it does not look into. -/
structure Settled (units : List AsmUnit) : Prop where
  shallow : ∀ unit ∈ units.getLast?, unit.invokeDeepth = 0
  noClass : NoClass units

/-- An instruct that is run where it stands, and knows of its line only: no jump, and none
of a `try` or a `return`. A definition looks for its body, and `super` for its class. -/
def InstructIndex.isCalm (data : CString) : InstructIndex → Bool
  | JMP | JEZ | JNZ | NEL | BRK | CTN | TRY | NTR | EXP | SER | GER | RET | DEF | CLS => false
  | RUN => data != letters ['s', 'u', 'p', 'e', 'r']
  | _ => true

def AsmUnit.isCalm (unit : AsmUnit) : Bool := unit.instruct.isCalm unit.data

/-- What instructs do to the data of a frame: `newLine` is done where a line starts, `run`
for an instruct that does not jump, with the error code as `try_error_code` holds it. The
data is that of a frame that has not called `super`, and calls end with the state of `try`
they started with. -/
structure VMHost (σ : Type) where
  newLine : σ → σ
  run : List AsmUnit → Nat → σ → σ × Nat
  ret : σ → σ
  popBool : σ → Bool × σ
  pushInt : Nat → σ → σ
  popBool_pushInt : ∀ n data, popBool (pushInt n data) = (n != 0, data)
  run_append : ∀ front piece back, Settled front → ∀ i, ∀ unit ∈ piece[i]?, unit.isCalm = true →
    run (front ++ piece ++ back) (front.length + i) = run piece i

/-- A frame, with the state of `try` of its thread. -/
structure PikaVMFrame (σ : Type) extends VMFrame σ where
  tryState : Bool
  tryErrorCode : Nat

inductive FrameState (σ : Type) where
  | running (vm : PikaVMFrame σ)
  | exited (stop : Option Stop) (data : σ)

/-- `PikaVMFrame_getAddrOffsetOfRaise`, over the units ahead. -/
def getAddrOffsetOfRaise : List AsmUnit → Option Nat
  | [] => none
  | unit :: after =>
    if unit.instruct = .NTR then some 1
    else if unit.instruct = .RET then none
    else (getAddrOffsetOfRaise after).map (· + 1)

section
variable {σ : Type} (host : VMHost σ) (units : List AsmUnit)

/-- `VM_JMP_RAISE` or `VM_JMP_EXIT`, behind an error. -/
def PikaVMFrame.raise (vm : PikaVMFrame σ) (errorCode : Nat) : FrameState σ :=
  if vm.tryState then
    match getAddrOffsetOfRaise (units.drop (vm.pc + 1)) with
    | some offset => .running { vm with pc := vm.pc + offset, tryErrorCode := errorCode }
    | none => .exited (some (.failed errorCode)) vm.data
  else .exited (some (.failed errorCode)) vm.data

/-- One turn of the loop; none when a jump has no target in the array. -/
def PikaVMFrame.round (vm : PikaVMFrame σ) : Option (FrameState σ) :=
  match units[vm.pc]? with
  | none => some (.exited none vm.data)
  | some unit =>
    let vm := { vm with data := if unit.isNewLine then host.newLine vm.data else vm.data }
    match unit.instruct with
    | .JMP | .JEZ | .JNZ | .NEL | .BRK | .CTN =>
      (vm.toVMFrame.step ⟨fun _ _ => none, host.popBool⟩ units).map fun frame =>
        .running { vm with toVMFrame := frame }
    | .TRY => some (.running { vm with pc := vm.pc + 1, tryState := true })
    | .NTR => some (.running { vm with pc := vm.pc + 1, tryState := false })
    | .EXP => some (.running { vm with pc := vm.pc + 1, tryErrorCode := 0 })
    | .SER => (fastAtoi unit.data).map fun code =>
        .running { vm with pc := vm.pc + 1, tryErrorCode := (code % 256).toNat }
    | .GER =>
      some (.running { vm with pc := vm.pc + 1, data := host.pushInt vm.tryErrorCode vm.data })
    | .RET => some (.exited (some .returned) (host.ret vm.data))
    | _ =>
      let (data, errorCode) := host.run units vm.pc vm.data
      let vm := { vm with data := data }
      if errorCode = 0 then some (.running { vm with pc := vm.pc + 1 })
      else some (vm.raise units errorCode)

/-- The loop. -/
def FrameState.step : FrameState σ → Option (FrameState σ)
  | running vm => vm.round host units
  | exited .. => none

end

/-! ### Pieces of the array -/

/-- A piece that is in the array at an index. -/
def Sits (units : List AsmUnit) (pos : Nat) (piece : List AsmUnit) : Prop :=
  piece <+: units.drop pos

section
variable {units piece more : List AsmUnit} {pos : Nat} {unit : AsmUnit}

theorem sits_append : Sits units pos (piece ++ more) ↔
    Sits units pos piece ∧ Sits units (pos + piece.length) more := by
  constructor
  · rintro ⟨back, h⟩
    refine ⟨⟨more ++ back, by rw [← h, List.append_assoc]⟩, back, ?_⟩
    rw [← List.drop_drop, ← h, List.append_assoc, List.drop_left]
  · rintro ⟨⟨back, h⟩, back', h'⟩
    refine ⟨back', ?_⟩
    rw [← List.drop_drop, ← h, List.drop_left] at h'
    rw [List.append_assoc, h', h]

theorem sits_cons : Sits units pos (unit :: more) ↔
    units[pos]? = some unit ∧ Sits units (pos + 1) more := by
  rw [show unit :: more = [unit] ++ more from rfl, sits_append]
  refine and_congr_left fun _ => ?_
  rw [Sits, ← List.head?_drop]
  cases units.drop pos with
  | nil => simp
  | cons first rest => simp [eq_comm]

theorem Sits.head (h : Sits units pos (unit :: more)) : units[pos]? = some unit :=
  (sits_cons.mp h).1

theorem Sits.tail (h : Sits units pos (unit :: more)) : Sits units (pos + 1) more :=
  (sits_cons.mp h).2

theorem Sits.left (h : Sits units pos (piece ++ more)) : Sits units pos piece :=
  (sits_append.mp h).1

theorem Sits.right (h : Sits units pos (piece ++ more)) : Sits units (pos + piece.length) more :=
  (sits_append.mp h).2

/-- What is in front of a piece, and what is behind it. -/
theorem Sits.split (h : Sits units pos piece) (hpos : pos ≤ units.length) :
    units = units.take pos ++ piece ++ units.drop (pos + piece.length) ∧
      (units.take pos).length = pos := by
  obtain ⟨back, h⟩ := h
  refine ⟨?_, List.length_take_of_le hpos⟩
  rw [← List.drop_drop, ← h, List.drop_left, List.append_assoc, h, List.take_append_drop]

theorem NoClass.append (h : NoClass piece) (hmore : NoClass more) : NoClass (piece ++ more) := by
  intro u hu
  rw [List.reverse_append, List.take_append, List.mem_append] at hu
  rcases hu with hu | hu
  · exact hmore u hu
  · exact h u ((List.take_subset_take_left _ (Nat.sub_le _ _)) hu)

theorem noClass_of_forall (h : ∀ unit ∈ piece, unit.instruct ≠ .CLS) : NoClass piece :=
  fun u hu => h u (List.mem_reverse.mp (List.mem_of_mem_take hu))

/-- What is in front of a piece does not count, but for its class. -/
theorem Settled.append_right (h : Settled more) (hne : more ≠ []) (hpiece : NoClass piece) :
    Settled (piece ++ more) := by
  refine ⟨fun u hu => ?_, hpiece.append h.noClass⟩
  rw [List.getLast?_append_of_ne_nil _ hne] at hu
  exact h.shallow u hu

theorem Settled.append (h : Settled piece) (hmore : Settled more) : Settled (piece ++ more) := by
  cases more with
  | nil => rwa [List.append_nil]
  | cons first more => exact hmore.append_right (List.cons_ne_nil _ _) h.noClass

theorem settled_singleton (hinvoke : unit.invokeDeepth = 0) (hclass : unit.instruct ≠ .CLS) :
    Settled [unit] :=
  ⟨fun u hu => by cases hu; exact hinvoke, noClass_of_forall (List.forall_mem_singleton.mpr hclass)⟩

end

end PikaScript
