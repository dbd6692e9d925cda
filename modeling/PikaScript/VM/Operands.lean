import PikaScript.VM.Meaning

/-! The operands of instructs, from `PikaVM.c`.

A value goes to the stack, or to the list that is displayed around it, which a register of
its invoke depth holds. An instruct finds out how many inputs it has from the units in
front of it in its line (`PikaVMFrame_getInputArgNum`). What it makes of them is a parameter,
and so are functions and what the scopes hold. -/
namespace PikaScript

/-- What the handlers make of their operands, in their order: a value, if there is one, and
an error code. The first argument of `apply` tells of the head of a class two units before,
where `__init__` is not called; `find` is for an instruct that looks for a place in the
array. `newList` gets the register of a list, `keyword` marks an argument with its name. -/
structure Handlers (V σ : Type) where
  apply : Bool → InstructIndex → CString → List V → σ → Option V × σ × Nat
  find : List AsmUnit → Nat → List V → σ → Option V × σ × Nat
  newList : Option (List V) → σ → V × σ
  keyword : CString → V → V
  transeBool : V → Bool
  newInt : Nat → V
  returnArg : Option V → σ → σ
  transeBool_newInt : ∀ n, transeBool (newInt n) = (n != 0)

/-- The data of a frame: `stack`, the lists in `oreg`, and what is in its scopes. -/
structure Operands (V σ : Type) where
  stack : List V
  oreg : Nat → Option (List V)
  scope : σ

/-- `PikaVMFrame_getInputArgNum`, over the units in front, the last one first. -/
def getInputArgNum (invokeDeepth : Nat) : List AsmUnit → Nat
  | [] => 0
  | unit :: before =>
    if unit.invokeDeepth = invokeDeepth + 1 then
      if unit.instruct = .OUT ∨ unit.instruct = .NLS then getInputArgNum invokeDeepth before
      else 1 + if unit.isNewLine then 0 else getInputArgNum invokeDeepth before
    else if unit.isNewLine ∨ unit.invokeDeepth ≤ invokeDeepth then 0
    else getInputArgNum invokeDeepth before

/-- The head of a class, two units before. -/
def isBehindClass (before : List AsmUnit) : Bool := before[1]?.any (·.instruct = .CLS)

/-- How many operands an instruct pops, by the number of its inputs. -/
def AsmUnit.pops (unit : AsmUnit) (num : Nat) : Nat :=
  match unit.instruct with
  | .RUN | .DCT | .TPL => num
  | .OPT | .ASS => if num = 1 ∨ num = 2 then num else 0
  | .SLC => if num = 2 ∨ num = 3 then num else 0
  | .REF => if unit.data.head? = some 0x2E then 1 else 0
  | .OUT | .RIS => 1
  | _ => 0

section
variable {V σ : Type}

namespace Operands

/-- Where a value goes: to the list that is displayed around the instruct, or to the stack. -/
def give (data : Operands V σ) (invokeDeepth : Nat) (v : V) : Operands V σ :=
  match invokeDeepth with
  | 0 => { data with stack := v :: data.stack }
  | deepth + 1 =>
    match data.oreg deepth with
    | some items => { data with oreg := Function.update data.oreg deepth (some (items ++ [v])) }
    | none => { data with stack := v :: data.stack }

def giveSome (data : Operands V σ) (invokeDeepth : Nat) : Option V → Operands V σ
  | some v => data.give invokeDeepth v
  | none => data

/-- An instruct that pops so many operands. -/
def call (data : Operands V σ) (invokeDeepth num : Nat)
    (handler : List V → σ → Option V × σ × Nat) : Operands V σ × Nat :=
  let (res, scope, errorCode) := handler (data.stack.take num).reverse data.scope
  (giveSome { data with stack := data.stack.drop num, scope := scope } invokeDeepth res, errorCode)

end Operands

namespace Handlers
variable (handlers : Handlers V σ)

/-- The handlers of instructs that know of the units in front of them only. -/
def runCalm (before : List AsmUnit) (unit : AsmUnit) (data : Operands V σ) : Operands V σ × Nat :=
  let deepth := unit.invokeDeepth
  match unit.instruct, deepth, data.stack with
  | .LST, _, _ => ({ data with oreg := Function.update data.oreg deepth (some []) }, 0)
  | .NLS, _, _ =>
    let (list, scope) := handlers.newList (data.oreg deepth) data.scope
    (({ data with oreg := Function.update data.oreg deepth none, scope := scope } :
      Operands V σ).give deepth list, 0)
  | .OUT, _ + 1, [] => (data, 0)
  | .OUT, _ + 1, v :: stack =>
    (({ data with stack := stack } : Operands V σ).give deepth (handlers.keyword unit.data v), 0)
  | instruct, _, _ =>
    data.call deepth (unit.pops (getInputArgNum deepth before))
      (handlers.apply (isBehindClass before) instruct unit.data)

/-- The handlers of the table. -/
def run (units : List AsmUnit) (pos : Nat) (data : Operands V σ) : Operands V σ × Nat :=
  match units[pos]? with
  | none => (data, 0)
  | some unit =>
    let before := (units.take pos).reverse
    if unit.isCalm then handlers.runCalm before unit data
    else
      data.call unit.invokeDeepth (unit.pops (getInputArgNum unit.invokeDeepth before))
        (handlers.find units pos)

/-- `stack_popArg` and `_transeBool`, as a jump uses them. -/
def popBool (data : Operands V σ) : Bool × Operands V σ :=
  match data.stack with
  | [] => (false, data)
  | v :: stack => (handlers.transeBool v, { data with stack := stack })

end Handlers

/-! ### What is in front of a line -/

theorem getInputArgNum_shallow {d : Nat} {before : List AsmUnit}
    (h : ∀ unit ∈ before.head?, unit.invokeDeepth ≤ d) : getInputArgNum d before = 0 := by
  cases before with
  | nil => rfl
  | cons unit before =>
    have hle : unit.invokeDeepth ≤ d := h unit rfl
    rw [getInputArgNum, if_neg (by omega), if_pos (.inr hle)]

/-- Units behind one that is not deeper do not count. -/
theorem getInputArgNum_append {d : Nat} (line : List AsmUnit) {before : List AsmUnit}
    (h : ∀ unit ∈ before.head?, unit.invokeDeepth ≤ d) :
    getInputArgNum d (line ++ before) = getInputArgNum d line := by
  induction line with
  | nil => exact getInputArgNum_shallow h
  | cons unit line ih => rw [List.cons_append, getInputArgNum, getInputArgNum, ih]

theorem isBehindClass_append (line : List AsmUnit) {before : List AsmUnit}
    (h : ∀ unit ∈ before.take 2, unit.instruct ≠ .CLS) :
    isBehindClass (line ++ before) = isBehindClass line := by
  have hnone : ∀ i < 2, before[i]?.any (·.instruct = .CLS) = false := by
    intro i hi
    cases hunit : before[i]? with
    | none => rfl
    | some unit =>
      obtain ⟨hlt, rfl⟩ := List.getElem?_eq_some_iff.mp hunit
      exact decide_eq_false (h _ (List.mem_take_iff_getElem.mpr ⟨i, by omega, rfl⟩))
  match line with
  | [] => exact hnone 1 (by omega)
  | [unit] => exact hnone 0 (by omega)
  | _ :: _ :: _ => rfl

section
variable (handlers : Handlers V σ) {units : List AsmUnit} {pos : Nat} {unit : AsmUnit}

theorem Handlers.run_of_calm (hunit : units[pos]? = some unit) (hcalm : unit.isCalm = true)
    (data : Operands V σ) :
    handlers.run units pos data = handlers.runCalm (units.take pos).reverse unit data := by
  rw [Handlers.run, hunit]
  exact if_pos hcalm

theorem Handlers.runCalm_append (line : List AsmUnit) {before : List AsmUnit}
    (hshallow : ∀ unit' ∈ before.head?, unit'.invokeDeepth ≤ unit.invokeDeepth)
    (hclass : ∀ unit ∈ before.take 2, unit.instruct ≠ .CLS) (data : Operands V σ) :
    handlers.runCalm (line ++ before) unit data = handlers.runCalm line unit data := by
  rw [Handlers.runCalm, Handlers.runCalm, getInputArgNum_append line hshallow,
    isBehindClass_append line hclass]

end

/-- **The frame** with its operands. -/
def Handlers.host (handlers : Handlers V σ) : VMHost (Operands V σ) where
  newLine data := { data with stack := [] }
  run := handlers.run
  ret data :=
    { data with
      stack := data.stack.tail
      scope := handlers.returnArg data.stack.head? data.scope }
  popBool := handlers.popBool
  pushInt n data := { data with stack := handlers.newInt n :: data.stack }
  popBool_pushInt n data := congrArg (·, data) (handlers.transeBool_newInt n)
  run_append front piece back hfront i unit hunit hcalm := by
    have hi : i < piece.length := (List.getElem?_eq_some_iff.mp hunit).1
    have hsame : (front ++ piece ++ back)[front.length + i]? = some unit := by
      rw [List.append_assoc, List.getElem?_append_right (Nat.le_add_right _ _),
        Nat.add_sub_cancel_left, List.getElem?_append_left hi, hunit]
    have hbefore : ((front ++ piece ++ back).take (front.length + i)).reverse =
        (piece.take i).reverse ++ front.reverse := by
      rw [List.append_assoc, List.take_length_add_append, List.take_append_of_le_length hi.le,
        List.reverse_append]
    have hshallow : ∀ unit' ∈ front.reverse.head?, unit'.invokeDeepth ≤ unit.invokeDeepth := by
      intro unit' hunit'
      rw [List.head?_reverse] at hunit'
      rw [hfront.shallow unit' hunit']
      exact Nat.zero_le _
    funext data
    rw [handlers.run_of_calm hsame hcalm, handlers.run_of_calm hunit hcalm, hbefore,
      handlers.runCalm_append _ hshallow hfront.noClass]

end

end PikaScript
