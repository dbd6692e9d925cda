import Mathlib.Data.Set.Function
import Mathlib.Order.Interval.Set.Defs
import PikaScript.VM.Chain

/-! The registers of nesting levels, from `PikaVM.c`.

A test notes its result in `ireg` at its block depth, and the lists under construction
stand in `oreg` at their invoke depth. Nothing between the source and the handlers
compares a depth with the number of registers: the parser counts, the assembler keeps
four bits, and the handlers index. -/
namespace PikaScript

/-! ### The code -/

/-- The entries of `oreg`. -/
def oregSize : Nat := 16

/-- A handler that indexes `ireg`. -/
def InstructIndex.usesIreg : InstructIndex → Bool
  | JEZ | JNZ | NEL => true
  | _ => false

/-- A handler that indexes `oreg`. -/
def InstructIndex.usesOreg : InstructIndex → Bool
  | LST | NLS => true
  | _ => false

/-- Where an instruct indexes `ireg`. -/
def AsmUnit.iregIndices (unit : AsmUnit) : List Nat :=
  if unit.instruct.usesIreg then [unit.blockDeepth] else []

/-- Where an instruct indexes `oreg`: its handler, and `pikaVM_runInstructUnit`, which
gives its value to the list one level out. -/
def AsmUnit.oregIndices (unit : AsmUnit) : List Nat :=
  (if unit.instruct.usesOreg then [unit.invokeDeepth] else []) ++
    if 0 < unit.invokeDeepth then [unit.invokeDeepth - 1] else []

/-- The register of a block level: what the field of an instruct keeps of it. -/
def blockRegister (level : Nat) : Nat :=
  (InstructUnit.pack (BitVec.ofNat 8 level) 0 0 .NON false).getBlockDeepth

/-- The register of an invoke level. -/
def invokeRegister (level : Nat) : Nat :=
  (InstructUnit.pack 0 (BitVec.ofNat 8 level) 0 .NON false).getInvokeDeepth

/-- So many rounds of the machine. -/
def VMFrame.run {σ : Type} (host : Host σ) (units : List AsmUnit) :
    Nat → VMFrame σ → Option (VMFrame σ)
  | 0, vm => some vm
  | rounds + 1, vm => (vm.step host units).bind (VMFrame.run host units rounds)

/-! ### The law -/

/-- A block whose body is run in a frame of its own. -/
def Header.ownFrame : Header → Bool
  | defBlock .. | classBlock .. => true
  | _ => false

/-- The levels that are open in one frame: for each block, from the depth at which the
code of its frame starts to its own. -/
def Prog.openLevels (base deepth : Nat) : Prog → List (Nat × Nat)
  | nil => []
  | line _ rest => rest.openLevels base deepth
  | block header body rest =>
    (if header.ownFrame then body.openLevels (deepth + 1) (deepth + 1)
      else (base, deepth) :: body.openLevels base (deepth + 1)) ++ rest.openLevels base deepth

/-- **The law**: an instruct of the array indexes a register that is there; the blocks that
are open at the same time have each a register of its own, and so have the calls around
an instruct and its own. -/
structure RegisterLaw (prog : Prog) (texts : List (List AsmLine)) : Prop where
  ireg : ∀ unit ∈ readUnits texts, ∀ index ∈ unit.iregIndices, index < registSize
  oreg : ∀ unit ∈ readUnits texts, ∀ index ∈ unit.oregIndices, index < oregSize
  blocks : ∀ levels ∈ prog.openLevels 0 0, Set.InjOn blockRegister (Set.Icc levels.1 levels.2)
  invokes : ∀ unit ∈ textUnits texts, Set.InjOn invokeRegister (Set.Iic unit.invokeDeepth)

/-! ### When it holds -/

/-- A depth whose four bits index `ireg`. -/
def HasRegister (deepth : Nat) : Prop := deepth % 16 < registSize

/-- Code with at most sixteen levels of calls. -/
def Shallow (code : List ExprIns) : Prop := ∀ e ∈ code, e.invokeDeepth < 16

def ArgIn.Shallow : ArgIn → Prop
  | single _ => True
  | multi assigns => ∀ code ∈ assigns, PikaScript.Shallow code

/-- The head of a `for` loop. -/
def ForFits (deepth : Nat) (iter : List ExprIns) (argIn : ArgIn) : Prop :=
  HasRegister deepth ∧ Shallow iter ∧ argIn.Shallow

/-- Code at a block depth. A comprehension is a loop. -/
def Code.Fits (deepth : Nat) : Code → Prop
  | plain code => Shallow code
  | comprehension append iter argIn _ => ForFits deepth iter argIn ∧ Shallow append

def Stmt.Fits (deepth : Nat) : Stmt → Prop
  | expr code | RIS code | RET code => code.Fits deepth
  | ASS code => Shallow code
  | CTN | BRK | DEL _ | GLB _ => True

/-- A block that is tested has a register. The defaults of a function are tested one
deeper. -/
def Header.Fits (deepth : Nat) : Header → Prop
  | whileBlock code | ifBlock code | elifBlock code => HasRegister deepth ∧ Code.Fits deepth code
  | elseBlock | tryBlock => HasRegister deepth
  | forBlock iter argIn => ForFits deepth iter argIn
  | defBlock _ defaults =>
    ∀ default ∈ defaults, HasRegister (deepth + 1) ∧ Code.Fits (deepth + 1) default.2
  | exceptBlock | classBlock .. => True

/-- **When the registers are enough**: each test at a depth that has a register, at most
sixteen blocks open in a frame, and at most sixteen levels of calls. -/
def Prog.Fits (base deepth : Nat) : Prog → Prop
  | nil => True
  | line stmt rest => stmt.Fits deepth ∧ rest.Fits base deepth
  | block header body rest => header.Fits deepth ∧
    (if header.ownFrame then body.Fits (deepth + 1) (deepth + 1)
      else deepth < base + 16 ∧ body.Fits base (deepth + 1)) ∧ rest.Fits base deepth

/-! ### The law of a unit -/

theorem blockRegister_eq (level : Nat) : blockRegister level = level % 16 := by
  rw [blockRegister, InstructUnit.getBlockDeepth_pack, BitVec.toNat_ofNat]
  omega

theorem invokeRegister_eq (level : Nat) : invokeRegister level = level % 16 := by
  rw [invokeRegister, InstructUnit.getInvokeDeepth_pack, BitVec.toNat_ofNat]
  omega

/-- Levels modulo sixteen are apart up to the first that comes round. -/
theorem injOn_mod_iff {base deepth : Nat} (h : base ≤ deepth) :
    Set.InjOn (fun level : Nat => level % 16) (Set.Icc base deepth) ↔ deepth < base + 16 := by
  refine ⟨fun hinj => ?_, fun hlt level hlevel level' hlevel' heq => ?_⟩
  · by_contra hround
    have hsame := hinj (Set.mem_Icc.mpr ⟨Nat.le_refl base, h⟩)
      (Set.mem_Icc.mpr ⟨Nat.le_add_right base 16, Nat.not_lt.mp hround⟩)
      (Nat.add_mod_right base 16).symm
    omega
  · rw [Set.mem_Icc] at hlevel hlevel'
    dsimp only at heq
    omega

/-- What a unit asks of its depths. -/
structure Room (blockDeepth invokeDeepth : Nat) (instruct : InstructIndex) : Prop where
  invokes : invokeDeepth < 16
  test : instruct.usesIreg = true → HasRegister blockDeepth

theorem room_iff_of_expr {b i : Nat} {instruct : InstructIndex} (h : instruct.usesIreg = false) :
    Room b i instruct ↔ i < 16 :=
  ⟨Room.invokes,
    fun hinvoke => ⟨hinvoke, fun htest => Bool.noConfusion (h.symm.trans htest)⟩⟩

theorem room_iff_of_test {b i : Nat} {instruct : InstructIndex} (h : instruct.usesIreg = true) :
    Room b i instruct ↔ HasRegister b ∧ i < 16 :=
  ⟨fun room => ⟨room.test h, room.invokes⟩, fun room => ⟨room.2, fun _ => room.1⟩⟩

/-- **All but the open blocks is a law of each unit.** -/
theorem registerLaw_iff_room (prog : Prog) (texts : List (List AsmLine)) :
    RegisterLaw prog texts ↔
      (∀ levels ∈ prog.openLevels 0 0, Set.InjOn blockRegister (Set.Icc levels.1 levels.2)) ∧
      ∀ unit ∈ textUnits texts, Room unit.blockDeepth unit.invokeDeepth unit.instruct := by
  have hinvokes : ∀ unit : AsmUnit,
      Set.InjOn invokeRegister (Set.Iic unit.invokeDeepth) ↔ unit.invokeDeepth < 16 := by
    intro unit
    rw [show invokeRegister = fun level => level % 16 from funext invokeRegister_eq,
      ← Set.Icc_bot, bot_eq_zero, injOn_mod_iff (Nat.zero_le _), Nat.zero_add]
  constructor
  · intro law
    refine ⟨law.blocks, fun unit hunit => ⟨(hinvokes unit).mp (law.invokes unit hunit),
      fun htest => ?_⟩⟩
    exact law.ireg unit.narrow (List.mem_map_of_mem hunit) (unit.blockDeepth % 16)
      (by simp [AsmUnit.iregIndices, AsmUnit.narrow, htest])
  · rintro ⟨hblocks, room⟩
    refine ⟨fun unit hunit index hindex => ?_, fun unit hunit index hindex => ?_, hblocks,
      fun unit hunit => (hinvokes unit).mpr (room unit hunit).invokes⟩
    · obtain ⟨unit, hmem, rfl⟩ := List.mem_map.mp hunit
      rw [AsmUnit.iregIndices] at hindex
      split at hindex
      · next htest =>
        cases List.mem_singleton.mp hindex
        exact (room unit hmem).test htest
      · cases hindex
    · obtain ⟨unit, -, rfl⟩ := List.mem_map.mp hunit
      have hcut : unit.narrow.invokeDeepth < 16 := Nat.mod_lt _ (by decide)
      simp only [AsmUnit.oregIndices, List.mem_append, List.mem_ite_nil_right,
        List.mem_singleton] at hindex
      rw [oregSize]
      omega

/-! ### The law of a text -/

/-- A text whose instructs have room, from a block depth on. -/
def TextFits : Nat → List AsmLine → Prop
  | _, [] => True
  | _, .block deepth :: lines => TextFits deepth lines
  | blockDeepth, .ins invokeDeepth instruct _ :: lines =>
    Room blockDeepth invokeDeepth instruct ∧ TextFits blockDeepth lines

/-- The block depth behind a text. -/
def endDeepth : Nat → List AsmLine → Nat
  | blockDeepth, [] => blockDeepth
  | _, .block deepth :: lines => endDeepth deepth lines
  | blockDeepth, .ins .. :: lines => endDeepth blockDeepth lines

theorem room_asmUnits_iff (blockDeepth : Nat) (isNewLine : Bool) (lines : List AsmLine) :
    (∀ unit ∈ asmUnits blockDeepth isNewLine lines,
      Room unit.blockDeepth unit.invokeDeepth unit.instruct) ↔ TextFits blockDeepth lines := by
  induction lines generalizing blockDeepth isNewLine with
  | nil => simp [asmUnits, TextFits]
  | cons line lines ih => cases line with
    | block deepth => exact ih deepth true
    | ins invokeDeepth instruct data =>
      rw [asmUnits, List.forall_mem_cons, ih]
      rfl

theorem textFits_append (blockDeepth : Nat) (lines more : List AsmLine) :
    TextFits blockDeepth (lines ++ more) ↔
      TextFits blockDeepth lines ∧ TextFits (endDeepth blockDeepth lines) more := by
  induction lines generalizing blockDeepth with
  | nil => simp [TextFits, endDeepth]
  | cons line lines ih => cases line with
    | block deepth => exact ih deepth
    | ins invokeDeepth instruct data =>
      rw [List.cons_append, TextFits, ih, TextFits, endDeepth, and_assoc]

theorem endDeepth_append (blockDeepth : Nat) (lines more : List AsmLine) :
    endDeepth blockDeepth (lines ++ more) = endDeepth (endDeepth blockDeepth lines) more := by
  induction lines generalizing blockDeepth with
  | nil => rfl
  | cons line lines ih => cases line with
    | block deepth => exact ih deepth
    | ins invokeDeepth instruct data => exact ih blockDeepth

theorem usesIreg_expr (e : ExprIns) : e.instruct.usesIreg = false := by
  have hexpr : ∀ instruct ∈ exprInstructs, instruct.usesIreg = false := by decide
  exact hexpr _ e.mem_exprInstructs

/-- Code without a line of its own. -/
theorem textFits_code (deepth : Nat) (code : List ExprIns) :
    TextFits deepth (code.map ExprIns.line) ↔ Shallow code := by
  induction code with
  | nil => simp [TextFits, Shallow]
  | cons e code ih =>
    rw [List.map_cons, ExprIns.line, TextFits, ih, room_iff_of_expr (usesIreg_expr e)]
    rw [Shallow, Shallow, List.forall_mem_cons]

theorem endDeepth_code (deepth : Nat) (code : List ExprIns) :
    endDeepth deepth (code.map ExprIns.line) = deepth := by
  induction code with
  | nil => rfl
  | cons e code ih => exact ih

/-- An instruct of invoke depth zero that is no test. -/
theorem room_expr {deepth : Nat} {instruct : InstructIndex} (h : instruct.usesIreg = false) :
    Room deepth 0 instruct :=
  (room_iff_of_expr h).mpr (by decide)

theorem room_test_iff {deepth : Nat} {instruct : InstructIndex} (h : instruct.usesIreg = true) :
    Room deepth 0 instruct ↔ HasRegister deepth :=
  (room_iff_of_test h).trans (and_iff_left (by decide))

theorem textFits_argIn (blockDeepth deepth : Nat) (argIn : ArgIn) :
    TextFits blockDeepth (argIn.asm deepth) ↔ argIn.Shallow := by
  cases argIn with
  | single name => exact iff_of_true trivial trivial
  | multi assigns =>
    rw [ArgIn.asm, ArgIn.Shallow]
    induction assigns generalizing blockDeepth with
    | nil => exact iff_of_true ⟨room_expr rfl, trivial⟩ (fun _ h => by cases h)
    | cons code assigns ih =>
      rw [List.flatMap_cons, List.append_assoc, textFits_append, List.forall_mem_cons]
      exact and_congr (textFits_code _ code) (ih _)

/-- **The head of a `for` loop** has a test. -/
theorem textFits_for (deepth : Nat) (iter : List ExprIns) (argIn : ArgIn) :
    TextFits deepth (forAsm deepth iter argIn) ↔ ForFits deepth iter argIn := by
  rw [forAsm, List.append_assoc, List.append_assoc, textFits_append, endDeepth_code,
    textFits_code, ForFits]
  simp only [List.cons_append, List.nil_append, TextFits, insLine, textFits_argIn,
    room_expr (rfl : InstructIndex.OUT.usesIreg = false),
    room_expr (rfl : InstructIndex.RUN.usesIreg = false),
    room_expr (rfl : InstructIndex.EST.usesIreg = false),
    room_test_iff (rfl : InstructIndex.JEZ.usesIreg = true), true_and]
  exact and_left_comm

/-- **The text of code**, the loop of a comprehension included. -/
theorem textFits_codeAsm (deepth : Nat) (code : Code) :
    TextFits deepth (code.asm deepth) ↔ code.Fits deepth := by
  cases code with
  | plain code => exact textFits_code deepth code
  | comprehension append iter argIn left =>
    have hleft : TextFits deepth (left.map (AsmLine.ins 0 .OUT)).toList := by
      cases left with
      | none => trivial
      | some name => exact ⟨room_expr rfl, trivial⟩
    rw [Code.asm, comprehensionAsm, Code.Fits]
    simp only [List.cons_append, List.nil_append, List.append_assoc, TextFits, insLine, exitAsm,
      textFits_append, textFits_for, textFits_code, hleft,
      room_expr (rfl : InstructIndex.LST.usesIreg = false),
      room_expr (rfl : InstructIndex.NLS.usesIreg = false),
      room_expr (rfl : InstructIndex.OUT.usesIreg = false),
      room_expr (rfl : InstructIndex.JMP.usesIreg = false),
      room_expr (rfl : InstructIndex.DEL.usesIreg = false),
      room_expr (rfl : InstructIndex.REF.usesIreg = false), true_and, and_true]

theorem endDeepth_codeAsm (deepth : Nat) (code : Code) :
    endDeepth deepth (code.asm deepth) = deepth := by
  cases code with
  | plain code => exact endDeepth_code deepth code
  | comprehension append iter argIn left =>
    rw [Code.asm, endDeepth_append]
    cases left <;> rfl

/-- Code with an instruct of its rule behind it. -/
theorem textFits_genRule (deepth : Nat) (code : Code) (instruct : InstructIndex) (data : CString) :
    TextFits deepth (genRuleToAsm deepth code instruct data) ↔
      code.Fits deepth ∧ Room deepth 0 instruct := by
  rw [genRuleToAsm, textFits_append, textFits_codeAsm, endDeepth_codeAsm]
  exact and_congr_right fun _ => and_iff_left trivial

theorem textFits_stmt (deepth : Nat) (stmt : Stmt) :
    TextFits deepth (stmt.asm deepth) ↔ stmt.Fits deepth := by
  cases stmt with
  | expr code => exact textFits_codeAsm deepth code
  | RIS code | RET code | ASS code =>
    exact (textFits_genRule deepth _ _ _).trans (and_iff_left (room_expr rfl))
  | CTN | BRK | DEL _ | GLB _ => exact iff_of_true ⟨room_expr rfl, trivial⟩ trivial

/-- The defaults of a function: a test in front of each. -/
theorem textFits_defaults (blockDeepth deepth : Nat) (defaults : List (CString × ExprCode)) :
    TextFits blockDeepth (defaultsAsm deepth defaults) ↔
      ∀ default ∈ defaults, HasRegister (deepth + 1) ∧ Code.Fits (deepth + 1) default.2 := by
  rw [defaultsAsm]
  induction defaults generalizing blockDeepth with
  | nil => exact iff_of_true trivial (fun _ h => by cases h)
  | cons default defaults ih =>
    rw [List.flatMap_cons, textFits_append, List.forall_mem_cons]
    refine and_congr ?_ (ih _)
    simp only [List.cons_append, List.nil_append, TextFits, insLine, textFits_codeAsm,
      room_expr (rfl : InstructIndex.EST.usesIreg = false),
      room_test_iff (rfl : InstructIndex.JNZ.usesIreg = true), true_and]

theorem textFits_header (header : Header) (deepth : Nat) :
    TextFits deepth (header.asm deepth) ↔ match header with
      | .tryBlock => True
      | header => header.Fits deepth := by
  have hempty : (Code.plain []).Fits deepth := fun _ h => by cases h
  cases header with
  | whileBlock code | ifBlock code =>
    rw [Header.asm, textFits_genRule, room_test_iff rfl]
    exact and_comm
  | elifBlock code =>
    rw [Header.asm, insLine, TextFits, textFits_genRule, room_test_iff rfl, room_test_iff rfl]
    exact ⟨fun h => ⟨h.1, h.2.1⟩, fun h => ⟨h.1, h.2, h.1⟩⟩
  | elseBlock =>
    rw [Header.asm, textFits_genRule, room_test_iff rfl]
    exact and_iff_right hempty
  | forBlock iter argIn => exact textFits_for deepth iter argIn
  | tryBlock | exceptBlock => exact iff_of_true ⟨room_expr rfl, trivial⟩ trivial
  | defBlock declare defaults =>
    rw [Header.asm, textFits_append, textFits_defaults]
    exact and_iff_right ⟨room_expr rfl, room_expr rfl, trivial⟩
  | classBlock thisClass superClass =>
    exact iff_of_true ⟨room_expr rfl, room_expr rfl, room_expr rfl, room_expr rfl, room_expr rfl,
      trivial⟩ trivial

/-- What closes a block has a test for a `try`. -/
theorem textFits_exit (header : Header) (blockDeepth deepth next : Nat) :
    TextFits blockDeepth (exitAsm deepth next header.blockType) ↔
      (header = .tryBlock → HasRegister deepth) := by
  by_cases htry : header = .tryBlock
  · subst htry
    simp only [Header.blockType, exitAsm, TextFits, insLine,
      room_expr (rfl : InstructIndex.NTR.usesIreg = false),
      room_expr (rfl : InstructIndex.GER.usesIreg = false),
      room_test_iff (rfl : InstructIndex.JEZ.usesIreg = true), true_and, and_true, true_implies]
  · refine iff_of_true ?_ fun h => absurd h htry
    cases header with
    | tryBlock => exact absurd rfl htry
    | whileBlock _ | defBlock _ _ => exact ⟨room_expr rfl, trivial⟩
    | forBlock _ _ => exact ⟨room_expr rfl, room_expr rfl, trivial⟩
    | classBlock _ _ => exact ⟨room_expr rfl, room_expr rfl, room_expr rfl, trivial⟩
    | ifBlock _ | elifBlock _ | elseBlock | exceptBlock => trivial

/-- **A block**: what opens it and what closes it. -/
theorem textFits_block (header : Header) (deepth next before behind : Nat) :
    TextFits before (.block deepth :: header.asm deepth) ∧
      TextFits behind (exitAsm deepth next header.blockType) ↔ header.Fits deepth := by
  rw [textFits_exit, TextFits, textFits_header]
  by_cases htry : header = .tryBlock
  · subst htry
    exact ⟨fun h => h.2 rfl, fun h => ⟨trivial, fun _ => h⟩⟩
  · rw [and_iff_left fun h => absurd h htry]
    cases header with
    | tryBlock => exact absurd rfl htry
    | _ => rfl

/-! ### The law of a program -/

theorem injOn_blockRegister_iff {base deepth : Nat} (h : base ≤ deepth) :
    Set.InjOn blockRegister (Set.Icc base deepth) ↔ deepth < base + 16 := by
  rw [show blockRegister = fun level => level % 16 from funext blockRegister_eq]
  exact injOn_mod_iff h

/-- **The text of a program and its open blocks**, in front of any line. -/
theorem textFits_prog (prog : Prog) {base deepth : Nat} (hbase : base ≤ deepth)
    (blockDeepth next : Nat) :
    (∀ levels ∈ prog.openLevels base deepth,
        Set.InjOn blockRegister (Set.Icc levels.1 levels.2)) ∧
      TextFits blockDeepth (prog.asm deepth next) ↔ prog.Fits base deepth := by
  induction prog generalizing base deepth blockDeepth next with
  | nil => exact iff_of_true ⟨List.forall_mem_nil _, trivial⟩ trivial
  | line stmt rest ih =>
    rw [Prog.asm, textFits_append, Prog.Fits, ← ih hbase, TextFits, textFits_stmt]
    exact and_left_comm
  | block header body rest ihbody ihrest =>
    rw [Prog.asm, textFits_append, textFits_append, textFits_append, Prog.Fits, ← ihrest hbase,
      ← textFits_block header deepth (rest.nextDeepth deepth next), Prog.openLevels,
      List.forall_mem_append]
    cases header.ownFrame with
    | true =>
      rw [if_pos rfl, if_pos rfl, ← ihbody (Nat.le_refl _)]
      tauto
    | false =>
      rw [if_neg Bool.false_ne_true, if_neg Bool.false_ne_true,
        ← ihbody (Nat.le_succ_of_le hbase), List.forall_mem_cons, injOn_blockRegister_iff hbase]
      tauto

/-- **The registers are enough exactly for programs that fit**: the field of a test ten
blocks deep indexes behind `ireg`, and the seventeenth level of blocks or calls has the
register of the first. -/
theorem registers_iff {stackSize : Nat} {prog : Prog} {texts : List (List AsmLine)}
    (htexts : lines2Target stackSize (prog.lines 0) = some texts) :
    RegisterLaw prog texts ↔ prog.Fits 0 0 := by
  rw [registerLaw_iff_room, textUnits_lines htexts, room_asmUnits_iff, textFits_append,
    ← textFits_prog prog (Nat.le_refl 0) 0 0]
  exact and_congr_right fun _ => and_iff_left trivial

/-- `if a:` so many times in each other, around an `x`. -/
def nestedIfBlocks : Nat → Prog
  | 0 => .line (.expr (refCode 'x')) .nil
  | depth + 1 => .block (.ifBlock (refCode 'a')) (nestedIfBlocks depth) .nil

theorem shallow_refCode (name : Char) (deepth : Nat) : (refCode name).Fits deepth := by
  intro e he
  cases List.mem_singleton.mp he
  exact Nat.zero_lt_succ 15

theorem fits_nestedIfBlocks {levels deepth : Nat} (h : deepth + levels ≤ registSize) :
    (nestedIfBlocks levels).Fits 0 deepth := by
  induction levels generalizing deepth with
  | zero => exact ⟨shallow_refCode 'x' deepth, trivial⟩
  | succ levels ih =>
    have hlt : deepth + (levels + 1) ≤ 10 := h
    have hregister : deepth % 16 < 10 := by omega
    have hopen : deepth < 0 + 16 := by omega
    exact ⟨⟨hregister, shallow_refCode 'a' deepth⟩, ⟨hopen, ih (by omega)⟩, trivial⟩

/-- Ten blocks fit. -/
theorem registerLaw_ten : ∃ texts, lines2Target 512 ((nestedIfBlocks 10).lines 0) = some texts ∧
    RegisterLaw (nestedIfBlocks 10) texts :=
  ⟨_, rfl, (@registers_iff 512 (nestedIfBlocks 10) _ rfl).mpr
    (fits_nestedIfBlocks (Nat.le_refl registSize))⟩

/-- **Eleven blocks do not**: the machine comes to the test that indexes entry ten of the
ten that are there. -/
theorem not_registerLaw_eleven : ∃ texts,
    lines2Target 512 ((nestedIfBlocks 11).lines 0) = some texts ∧
      ¬RegisterLaw (nestedIfBlocks 11) texts ∧
      ((VMFrame.run trueHost (readUnits texts) 21 ⟨0, fun _ => false, ()⟩).bind
        fun vm => (readUnits texts)[vm.pc]?.map AsmUnit.iregIndices) = some [10] := by
  refine ⟨(lines2Target 512 ((nestedIfBlocks 11).lines 0)).get rfl, (Option.some_get _).symm,
    fun law => ?_, by decide +kernel⟩
  have hunit : (⟨.JEZ, 10, 0, false, InstructIndex.letters ['1']⟩ : AsmUnit) ∈
      readUnits ((lines2Target 512 ((nestedIfBlocks 11).lines 0)).get rfl) := by
    decide +kernel
  exact absurd (law.ireg _ hunit 10 (by decide)) (by decide)

end PikaScript
