import PikaScript.Parser.Expression
import PikaScript.VM.Operands

/-! The inputs of an instruct in the code of an expression.

The code of an operand is deeper than the instruct it is for, and has one instruct of the
depth that counts: the last of a node, or the first of a list that is displayed. -/
namespace PikaScript

/-! ### The units of a line -/

/-- The units of code in a line. -/
def codeUnits (deepth : Nat) (isNewLine : Bool) (code : List ExprIns) : List AsmUnit :=
  lineCode deepth isNewLine (code.map ExprIns.line)

section
variable {deepth d : Nat} {isNewLine : Bool}

theorem codeUnits_cons (e : ExprIns) (code : List ExprIns) :
    codeUnits deepth isNewLine (e :: code) =
      ⟨e.instruct, deepth % 16, e.invokeDeepth % 16, isNewLine, e.data⟩ ::
        codeUnits deepth false code := rfl

theorem codeUnits_append (code more : List ExprIns) :
    codeUnits deepth isNewLine (code ++ more) =
      codeUnits deepth isNewLine code ++ codeUnits deepth (isNewLine && code.isEmpty) more := by
  induction code generalizing isNewLine with
  | nil => rw [List.isEmpty_nil, Bool.and_true]; rfl
  | cons e code ih =>
    rw [List.cons_append, codeUnits_cons, ih, codeUnits_cons, List.isEmpty_cons, Bool.and_false,
      Bool.false_and]
    rfl

theorem length_codeUnits (code : List ExprIns) :
    (codeUnits deepth isNewLine code).length = code.length := by
  induction code generalizing isNewLine with
  | nil => rfl
  | cons e code ih => rw [codeUnits_cons, List.length_cons, ih, List.length_cons]

theorem exists_of_mem_codeUnits {code : List ExprIns} {unit : AsmUnit}
    (h : unit ∈ codeUnits deepth isNewLine code) :
    ∃ e ∈ code, unit.instruct = e.instruct ∧ unit.invokeDeepth = e.invokeDeepth % 16 := by
  induction code generalizing isNewLine with
  | nil => cases h
  | cons e code ih =>
    rw [codeUnits_cons, List.mem_cons] at h
    rcases h with rfl | h
    · exact ⟨e, List.mem_cons_self, rfl, rfl⟩
    · obtain ⟨e', he', hunit⟩ := ih h
      exact ⟨e', List.mem_cons_of_mem _ he', hunit⟩

/-- Only the first unit of a line may start it. -/
theorem not_isNewLine_tail {code : List ExprIns} {unit : AsmUnit}
    (h : unit ∈ (codeUnits deepth isNewLine code).tail) : unit.isNewLine = false := by
  have hfalse : ∀ {code : List ExprIns}, ∀ unit ∈ codeUnits deepth false code,
      unit.isNewLine = false := by
    intro code
    induction code with
    | nil => exact fun _ h => absurd h List.not_mem_nil
    | cons e code ih =>
      rw [codeUnits_cons]
      exact List.forall_mem_cons.mpr ⟨rfl, ih⟩
  cases code with
  | nil => exact absurd h List.not_mem_nil
  | cons e code => exact hfalse unit h

end

/-! ### Counting inputs -/

/-- An instruct that is counted as an input. -/
def ExprIns.isInput (d : Nat) (e : ExprIns) : Bool :=
  e.invokeDeepth = d && e.instruct ≠ .OUT && e.instruct ≠ .NLS

section
variable {attrs : AstAttrs} {code : List ExprIns} {q : AstQueue} {d : Nat} {inList : Bool}

/-- An instruct of a node is one of its own, of its depth, or of its sub statements. -/
theorem AstAttrs.mem_genAsm {e : ExprIns} (h : e ∈ attrs.genAsm d code) :
    e.invokeDeepth = d ∨ e ∈ code := by
  simp only [genAsm, lstAsm, valueAsm, leftAsm, List.mem_append, List.mem_map] at h
  rcases h with ((h | h) | ⟨_, _, rfl⟩) | ⟨_, _, rfl⟩
  · split at h
    · rw [List.mem_singleton.mp h]
      exact .inl rfl
    · cases h
  · exact .inr h
  · exact .inl rfl
  · exact .inl rfl

theorem AstQueue.Fits.lt (h : q.Fits d) : ∀ e ∈ q.genAsm d, e.invokeDeepth < 16 := by
  induction q generalizing d with
  | nil => exact fun _ h => absurd h List.not_mem_nil
  | push attrs subs rest ihsubs ihrest =>
    intro e he
    rcases List.mem_append.mp he with he | he
    · rcases AstAttrs.mem_genAsm he with he | he
      · exact he ▸ h.1
      · exact ihsubs h.2.1 e he
    · exact ihrest h.2.2 e he

end

/-- The units of operands, in front of an instruct that is less deep. -/
theorem getInputArgNum_codeUnits {deepth d : Nat} {isNewLine : Bool} {code : List ExprIns}
    (hdeepth : ∀ e ∈ code, d < e.invokeDeepth ∧ e.invokeDeepth < 16) :
    getInputArgNum d (codeUnits deepth isNewLine code).reverse =
      code.countP (ExprIns.isInput (d + 1)) := by
  induction code using List.reverseRecOn with
  | nil => rfl
  | append_singleton code e ih =>
    obtain ⟨hlt, hlt'⟩ := hdeepth e (List.mem_append_right _ (List.mem_singleton_self e))
    have hcode := ih fun e' he' => hdeepth e' (List.mem_append_left _ he')
    -- where a line starts, there is nothing in front
    have hstop : (if (isNewLine && code.isEmpty) = true then 0
        else code.countP (ExprIns.isInput (d + 1))) = code.countP (ExprIns.isInput (d + 1)) := by
      cases code with
      | nil => exact ite_self _
      | cons e' code => rw [List.isEmpty_cons, Bool.and_false, if_neg Bool.false_ne_true]
    rw [codeUnits_append, List.reverse_append, codeUnits_cons, List.countP_append,
      List.countP_singleton]
    show getInputArgNum d (_ :: (codeUnits deepth isNewLine code).reverse) = _
    rw [getInputArgNum]
    dsimp only
    rw [Nat.mod_eq_of_lt hlt', hcode, hstop]
    by_cases heq : e.invokeDeepth = d + 1
    · by_cases hinput : e.instruct = .OUT ∨ e.instruct = .NLS
      · rw [if_pos heq, if_pos hinput, ExprIns.isInput]
        rcases hinput with hinput | hinput <;> simp [hinput]
      · rw [if_pos heq, if_neg hinput, ExprIns.isInput]
        rw [not_or] at hinput
        simp [heq, hinput.1, hinput.2, Nat.add_comm]
    · simp only [if_neg heq, Nat.not_le.mpr hlt, or_false, hstop]
      rw [ExprIns.isInput]
      simp [heq]

end PikaScript
