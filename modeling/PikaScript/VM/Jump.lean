import PikaScript.Parser.Block

/-! `break` and `continue`, from `PikaVM.c`.

The VM keeps no record of the loops it is in. It looks back for the jump at the head
of a loop, a `JEZ 2` that is less deep, and then ahead for the `JMP -1` of that depth.
`JumpsOut` says that this is where the innermost loop around ends. It is not when
another loop has ended in the same body at a depth between the two, or when four bits
make two depths the same; `FindsLoop` is when it is. -/
namespace PikaScript

/-! ### The code -/

/-- The instruct array of texts, as the accessors read it. -/
def readUnits (texts : List (List AsmLine)) : List AsmUnit :=
  (textUnits texts).map AsmUnit.narrow

/-- The test for `JEZ 2`. -/
def AsmUnit.isLoopHead (unit : AsmUnit) : Bool :=
  unit.invokeDeepth == 0 && unit.instruct == .JEZ && unit.data.head? == some 0x32

/-- The test for `JMP -1` of a depth. -/
def AsmUnit.isJmpBack (deepth : Nat) (unit : AsmUnit) : Bool :=
  unit.blockDeepth == deepth && unit.instruct == .JMP && [0x2d, 0x31].isPrefixOf unit.data

/-- The first loop of `PikaVMFrame_getAddrOffsetOfJmpBack`, over the units in front, the
nearest first; none when it reads in front of the array. -/
def findLoopDeepth (blockDeepthNow : Nat) : List AsmUnit → Option Nat
  | [] => none
  | unit :: before =>
    if unit.isLoopHead then
      match before.head? with
      | none => none
      | some last =>
        -- A `try` ends with a `JEZ 2` too, behind a `GER`.
        if last.instruct = .GER ∨ blockDeepthNow ≤ unit.blockDeepth then
          findLoopDeepth blockDeepthNow before
        else some unit.blockDeepth
    else findLoopDeepth blockDeepthNow before

/-- `PikaVMFrame_getAddrOffsetOfJmpBack`, in units; none when it leaves the array. -/
def getAddrOffsetOfJmpBack (units : List AsmUnit) (pc : Nat) : Option Nat := do
  let unitNow ← units[pc]?
  let blockDeepthGot ← findLoopDeepth unitNow.blockDeepth (units.take pc).reverse
  let index ← (units.drop (pc + 1)).findIdx? (AsmUnit.isJmpBack blockDeepthGot)
  return index + 1

/-- `PikaVMFrame_getAddrOffsetOfContinue`. -/
def getAddrOffsetOfContinue (units : List AsmUnit) (pc : Nat) : Option Nat :=
  getAddrOffsetOfJmpBack units pc

/-- `PikaVMFrame_getAddrOffsetOfBreak`. -/
def getAddrOffsetOfBreak (units : List AsmUnit) (pc : Nat) : Option Nat :=
  (getAddrOffsetOfJmpBack units pc).map (· + 1)

/-! ### A jump in a program -/

def Header.isLoop : Header → Bool
  | whileBlock _ => true
  | forBlock .. => true
  | _ => false

def Header.isMethod : Header → Bool
  | defBlock .. => true
  | classBlock .. => true
  | _ => false

/-- A comprehension is a loop. -/
def Code.loops (deepth : Nat) (code : Code) : List Nat :=
  if code.isComprehension then [deepth] else []

def Stmt.loops (deepth : Nat) : Stmt → List Nat
  | expr code => code.loops deepth
  | RIS code => code.loops deepth
  | RET code => code.loops deepth
  | _ => []

/-- The loops that start and end in the line that opens a block. -/
def Header.codeLoops (deepth : Nat) : Header → List Nat
  | whileBlock code => code.1.loops deepth
  | ifBlock code => code.loops deepth
  | elifBlock code => code.loops deepth
  | defBlock _ defaults => defaults.flatMap fun (_, code) => code.1.loops (deepth + 1)
  | _ => []

/-- The loop a line opens. -/
def Header.ownLoops (deepth : Nat) (header : Header) : List Nat :=
  if header.isLoop then [deepth] else []

/-- The depths of the loops of a program, in their order. -/
def Prog.loops (deepth : Nat) : Prog → List Nat
  | nil => []
  | line stmt rest => stmt.loops deepth ++ rest.loops deepth
  | block header body rest =>
    header.codeLoops deepth ++ header.ownLoops deepth ++ body.loops (deepth + 1) ++
      rest.loops deepth

/-- What the innermost loop around a place is: its depth, the depths of the loops that
ended in its body so far and of those that come, the text to the end of the body, and
the text from there on. -/
structure Scope where
  loop : Option Nat
  ended : List Nat
  later : List Nat
  toEnd : List AsmLine
  behind : List AsmLine

/-- The void line closes the program. -/
def Scope.top : Scope := ⟨none, [], [], [], [.block 0]⟩

/-- The scope in a block, with the rest of the program behind it. A function is in no
loop. -/
def Scope.enter (scope : Scope) (deepth after : Nat) (header : Header) (rest : Prog) : Scope :=
  let text := exitAsm deepth (rest.nextDeepth deepth after) header.blockType ++
    rest.asm deepth after ++ scope.toEnd
  if header.isLoop then ⟨some deepth, [], [], [], text ++ scope.behind⟩
  else if header.isMethod then ⟨none, [], [], [], text ++ scope.behind⟩
  else
    { scope with
      ended := scope.ended ++ header.codeLoops deepth
      later := rest.loops deepth ++ scope.later
      toEnd := text }

/-- The innermost loop around a place. -/
def Place.scope (base after : Nat) (around : Scope) : Place → Scope
  | hole => around
  | line stmt place =>
    place.scope base after { around with ended := around.ended ++ stmt.loops base }
  | block header body place =>
    place.scope base after
      { around with ended := around.ended ++ (Prog.block header body .nil).loops base }
  | inside header place rest =>
    place.scope (base + 1) (rest.nextDeepth base after) (around.enter base after header rest)

/-- A `break` or `continue` at a place of a program, with what is behind it in its block. -/
structure LoopJump where
  place : Place
  stmt : Stmt
  isControl : stmt = .BRK ∨ stmt = .CTN
  rest : Prog

namespace LoopJump
variable (jump : LoopJump)

def prog : Prog := jump.place.plug (.line jump.stmt jump.rest)

def deepth : Nat := jump.place.deepth 0

/-- The text in front of the line. -/
def before : List AsmLine := jump.place.before 0

/-- The innermost loop around it. -/
def scope : Scope :=
  let around := jump.place.scope 0 0 .top
  { around with
    later := jump.rest.loops jump.deepth ++ around.later
    toEnd := jump.rest.asm jump.deepth (jump.place.next 0 0) ++ around.toEnd }

/-- The index of its unit. -/
def pc : Nat := (asmUnits 0 false jump.before).length

/-- The index of the unit that closes the loop. -/
def closing : Nat := jump.pc + 1 + (asmUnits 0 false jump.scope.toEnd).length

end LoopJump

/-- **The law**: the `JMP -1` that closes the innermost loop is where `continue` goes,
and `break` goes behind it. -/
structure JumpsOut (jump : LoopJump) (units : List AsmUnit) : Prop where
  jmp : ∃ loop, jump.scope.loop = some loop ∧
    units[jump.closing]? = some ⟨.JMP, loop % 16, 0, true, InstructIndex.letters ['-', '1']⟩
  continues : getAddrOffsetOfContinue units jump.pc = some (jump.closing - jump.pc)
  breaks : getAddrOffsetOfBreak units jump.pc = some (jump.closing + 1 - jump.pc)

/-- **When the search finds the loop**, at a depth, with depths as four bits hold them: the
loop is less deep than the jump, the last loop that ended in its body and is less deep
than the jump, if there is one, is as deep as the loop, and none that comes in the body is
as deep as it. -/
structure FindsLoop (jump : LoopJump) (loop : Nat) : Prop where
  deeper : loop % 16 < jump.deepth % 16
  ended : ∀ f, (jump.scope.ended.map (· % 16)).reverse.find? (· < jump.deepth % 16) = some f →
    f = loop % 16
  later : ∀ f ∈ jump.scope.later, f % 16 ≠ loop % 16

/-! ### The marks of loops in the units -/

/-- The units of a text from the start of a line on, as the accessors read them. -/
def lineUnits (lines : List AsmLine) : List AsmUnit :=
  (asmUnits 0 false lines).map AsmUnit.narrow

theorem lineUnits_append (lines : List AsmLine) {more : List AsmLine} (h : StartsBlock more) :
    lineUnits (lines ++ more) = lineUnits lines ++ lineUnits more := by
  rw [lineUnits, asmUnits_append lines h, List.map_append]
  rfl

/-- What a piece of the array is to the two searches: the depths of the loops that
start in it, in their order, and of those that end in it. -/
structure Marks (piece : List AsmUnit) (heads tails : List Nat) : Prop where
  scan : ∀ now before, findLoopDeepth now (piece.reverse ++ before) =
    (heads.reverse.find? (· < now)).or (findLoopDeepth now before)
  jmp : ∀ deepth, (∃ unit ∈ piece, unit.isJmpBack deepth = true) ↔ deepth ∈ tails

theorem Marks.nil : Marks [] [] [] := ⟨fun _ _ => rfl, by simp⟩

theorem Marks.append {piece more : List AsmUnit} {heads tails heads' tails' : List Nat}
    (h : Marks piece heads tails) (h' : Marks more heads' tails') :
    Marks (piece ++ more) (heads ++ heads') (tails ++ tails') := by
  refine ⟨fun now before => ?_, fun deepth => ?_⟩
  · rw [List.reverse_append, List.append_assoc, h'.scan, h.scan, List.reverse_append,
      List.find?_append, Option.or_assoc]
  · rw [List.mem_append, ← h.jmp, ← h'.jmp]
    simp only [List.mem_append, or_and_right, exists_or]

theorem Marks.congr {piece : List AsmUnit} {heads tails tails' : List Nat}
    (h : Marks piece heads tails) (htails : ∀ deepth, deepth ∈ tails ↔ deepth ∈ tails') :
    Marks piece heads tails' :=
  ⟨h.scan, fun deepth => (h.jmp deepth).trans (htails deepth)⟩

/-- An instruct that neither search stops at. -/
def AsmLine.isPlain : AsmLine → Bool
  | block _ => true
  | ins _ instruct data =>
    !(instruct == .JEZ && data.head? == some 0x32) &&
      !(instruct == .JMP && [0x2d, 0x31].isPrefixOf data)

theorem marks_unit {unit : AsmUnit} (hhead : unit.isLoopHead = false)
    (hjmp : ∀ deepth, unit.isJmpBack deepth = false) : Marks [unit] [] [] := by
  refine ⟨fun now before => ?_, fun deepth => ?_⟩
  · rw [List.reverse_singleton, List.singleton_append, findLoopDeepth, hhead]
    rfl
  · simp [hjmp]

theorem marks_plain {lines : List AsmLine} (h : lines.all AsmLine.isPlain = true)
    (blockDeepth : Nat) (isNewLine : Bool) :
    Marks ((asmUnits blockDeepth isNewLine lines).map AsmUnit.narrow) [] [] := by
  induction lines generalizing blockDeepth isNewLine with
  | nil => exact Marks.nil
  | cons line lines ih =>
    rw [List.all_cons, Bool.and_eq_true] at h
    obtain ⟨hline, hrest⟩ := h
    cases line with
    | block deepth => exact ih hrest deepth true
    | ins invokeDeepth instruct data =>
      rw [AsmLine.isPlain, Bool.and_eq_true, Bool.not_eq_true', Bool.not_eq_true'] at hline
      refine @Marks.append [_] _ _ _ _ _ (marks_unit ?_ fun deepth => ?_) (ih hrest _ _)
      · rw [AsmUnit.isLoopHead, Bool.and_assoc]
        dsimp only [AsmUnit.narrow]
        rw [hline.1, Bool.and_false]
      · rw [AsmUnit.isJmpBack, Bool.and_assoc]
        dsimp only [AsmUnit.narrow]
        rw [hline.2, Bool.and_false]

/-- A text of plain instructs has no marks. -/
theorem marks_lineUnits {lines : List AsmLine} (h : lines.all AsmLine.isPlain = true) :
    Marks (lineUnits lines) [] [] := marks_plain h 0 false

/-- A `JEZ 2` of a depth. -/
def loopJez (deepth : Nat) : AsmUnit := ⟨.JEZ, deepth, 0, false, InstructIndex.letters ['2']⟩

private theorem jmp_loopJez {last : AsmUnit} (hlast : Marks [last] [] []) (deepth now : Nat) :
    (∃ unit ∈ [last, loopJez deepth], unit.isJmpBack now = true) ↔ now ∈ ([] : List Nat) := by
  rw [← hlast.jmp]
  constructor
  · rintro ⟨unit, hunit, h⟩
    rcases List.mem_pair.mp hunit with rfl | rfl
    · exact ⟨unit, List.mem_singleton_self _, h⟩
    · rw [AsmUnit.isJmpBack, Bool.and_assoc] at h
      cases (Bool.and_eq_true_iff.mp h).2
  · rintro ⟨unit, hunit, h⟩
    exact ⟨unit, List.mem_cons.mpr (.inl (List.mem_singleton.mp hunit)), h⟩

/-- The search at a `JEZ 2` goes by what is in front of it. -/
private theorem findLoopDeepth_loopJez {last : AsmUnit} (hlast : Marks [last] [] [])
    (deepth now : Nat) (before : List AsmUnit) :
    findLoopDeepth now ([last, loopJez deepth].reverse ++ before) =
      if last.instruct = .GER ∨ now ≤ deepth then findLoopDeepth now before else some deepth := by
  have hscan := hlast.scan now before
  rw [List.reverse_singleton, List.singleton_append] at hscan
  show findLoopDeepth now (loopJez deepth :: last :: before) = _
  rw [findLoopDeepth, if_pos (by rfl)]
  dsimp only [List.head?_cons]
  rw [hscan]
  rfl

/-- The head of a loop: a `JEZ 2`, not behind a `GER`. -/
theorem marks_head {last : AsmUnit} (hlast : Marks [last] [] []) (hger : last.instruct ≠ .GER)
    (deepth : Nat) : Marks [last, loopJez deepth] [deepth] [] := by
  refine ⟨fun now before => ?_, jmp_loopJez hlast deepth⟩
  rw [findLoopDeepth_loopJez hlast, List.reverse_singleton, List.find?_singleton]
  by_cases hnow : deepth < now
  · rw [if_neg (by rintro (h | h); exacts [hger h, absurd hnow (Nat.not_lt.mpr h)]),
      if_pos (decide_eq_true hnow)]
    rfl
  · rw [if_pos (.inr (Nat.not_lt.mp hnow)), if_neg (by simpa using hnow)]
    rfl

/-- The end of a `try`: a `JEZ 2` behind a `GER`. -/
theorem marks_tryEnd {last : AsmUnit} (hlast : Marks [last] [] []) (hger : last.instruct = .GER)
    (deepth : Nat) : Marks [last, loopJez deepth] [] [] := by
  refine ⟨fun now before => ?_, jmp_loopJez hlast deepth⟩
  rw [findLoopDeepth_loopJez hlast, if_pos (.inl hger)]
  rfl

/-- The `JMP -1` of a depth. -/
def jmpBack (deepth : Nat) : AsmUnit :=
  ⟨.JMP, deepth, 0, true, InstructIndex.letters ['-', '1']⟩

theorem isJmpBack_jmpBack (now deepth : Nat) :
    (jmpBack deepth).isJmpBack now = true ↔ deepth = now := by
  rw [AsmUnit.isJmpBack, Bool.and_assoc, Bool.and_eq_true, beq_iff_eq]
  exact and_iff_left rfl

/-- The end of a loop. -/
theorem marks_jmpBack (deepth : Nat) : Marks [jmpBack deepth] [] [deepth] := by
  refine ⟨fun now before => rfl, fun now => ?_⟩
  simp only [List.mem_singleton, exists_eq_left, isJmpBack_jmpBack]
  exact eq_comm

/-! ### The marks of a program -/

/-- Depths as the accessors read them. -/
def nibbles (deepths : List Nat) : List Nat := deepths.map (· % 16)

theorem nibbles_append (deepths more : List Nat) :
    nibbles (deepths ++ more) = nibbles deepths ++ nibbles more := List.map_append

theorem isPlain_code (code : List ExprIns) :
    (code.map ExprIns.line).all AsmLine.isPlain = true := by
  rw [List.all_map, List.all_eq_true]
  intro e _
  have hexpr : ∀ instruct ∈ exprInstructs, instruct ≠ .JEZ ∧ instruct ≠ .JMP := by decide
  obtain ⟨hjez, hjmp⟩ := hexpr _ e.mem_exprInstructs
  simp [ExprIns.line, AsmLine.isPlain, hjez, hjmp]

theorem isPlain_argIn (argIn : ArgIn) (deepth : Nat) :
    (argIn.asm deepth).all AsmLine.isPlain = true :=
  argIn.all_asm (fun _ => rfl) rfl isPlain_code deepth

theorem marks_for (iter : List ExprIns) (argIn : ArgIn) (deepth : Nat) :
    Marks (lineUnits (.block deepth :: forAsm deepth iter argIn)) [deepth % 16] [] := by
  have hargIn := startsBlock_argIn argIn deepth
  have hiter : Marks (lineUnits (.block deepth :: (iter.map ExprIns.line ++
      [.ins 0 .OUT (lReg deepth)]))) [] [] := by
    refine marks_lineUnits ?_
    rw [List.all_cons, List.all_append, isPlain_code]
    rfl
  -- the code that gets the next item, and the test of it
  have hnext : Marks (lineUnits [.block deepth,
      .ins 0 .RUN (lReg deepth ++ InstructIndex.letters
        ['.', '_', '_', 'n', 'e', 'x', 't', '_', '_']),
      .ins 0 .OUT argIn.name, .ins 0 .EST argIn.name, insLine .JEZ ['2']]) [deepth % 16] [] :=
    @Marks.append [_, _] [_, loopJez (deepth % 16)] [] [] _ _
      (@marks_lineUnits [.block deepth, .ins 0 .RUN _, .ins 0 .OUT _] rfl)
      (marks_head (marks_unit rfl fun _ => by
        rw [AsmUnit.isJmpBack, Bool.and_assoc]
        exact Bool.and_false _) (show InstructIndex.EST ≠ .GER by decide) _)
  rw [forAsm, ← List.cons_append, lineUnits_append _ hargIn, ← List.cons_append,
    lineUnits_append _ (by trivial)]
  exact (hiter.append hnext).append (marks_lineUnits (isPlain_argIn argIn deepth))

theorem marks_exitFor (deepth now : Nat) :
    Marks (lineUnits (exitAsm deepth now .forType)) [] [deepth % 16] :=
  @Marks.append [_] _ _ _ _ _ (marks_jmpBack (deepth % 16))
    (@marks_lineUnits [.block deepth, .ins 0 .DEL _] rfl)

theorem marks_comprehensionAsm (append iter : List ExprIns) (argIn : ArgIn) (deepth : Nat)
    (isNewLine : Bool) :
    Marks ((asmUnits deepth isNewLine (comprehensionAsm deepth append iter argIn)).map
      AsmUnit.narrow) [deepth % 16] [deepth % 16] := by
  have hlist : Marks ((asmUnits deepth isNewLine
      [insLine .LST [], insLine .NLS [], insLine .OUT ['$', 't', 'm', 'p']]).map AsmUnit.narrow)
      [] [] := marks_plain rfl deepth isNewLine
  have happend : Marks (lineUnits (.block (deepth + 1) :: append.map ExprIns.line)) [] [] :=
    marks_lineUnits (isPlain_code append)
  have hmarks := ((hlist.append (marks_for iter argIn deepth)).append happend).append
    (marks_exitFor deepth deepth)
  rw [comprehensionAsm, asmUnits_append _ (startsBlock_exitAsm _ _ _),
    asmUnits_append _ (by trivial), asmUnits_append _ (by trivial)]
  simp only [List.map_append]
  exact hmarks

theorem marks_code (code : Code) (deepth : Nat) (isNewLine : Bool) :
    Marks ((asmUnits deepth isNewLine (code.asm deepth)).map AsmUnit.narrow)
      (nibbles (code.loops deepth)) (nibbles (code.loops deepth)) := by
  cases code with
  | plain code => exact marks_plain (isPlain_code code) deepth isNewLine
  | comprehension append iter argIn left =>
    have hlist : Marks (lineUnits (.block deepth :: insLine .REF ['$', 't', 'm', 'p'] ::
        (left.map (.ins 0 .OUT)).toList)) [] [] := by
      cases left <;> exact marks_lineUnits rfl
    rw [Code.asm, asmUnits_append _ (by trivial), List.map_append]
    exact (marks_comprehensionAsm append iter argIn deepth isNewLine).append hlist

theorem ExprCode.isEmpty (code : ExprCode) : code.1.isEmpty = false := by
  obtain ⟨code, hcode⟩ := code
  cases code with
  | plain code => cases code with
    | nil => exact absurd rfl hcode
    | cons e code => rfl
  | comprehension append iter argIn left => rfl

/-- The last instruct of code is not the one a `try` ends with. -/
theorem marks_exprCode (code : ExprCode) (deepth : Nat) (isNewLine : Bool) :
    ∃ front last, (asmUnits deepth isNewLine (code.1.asm deepth)).map AsmUnit.narrow =
        front ++ [last] ∧ last.instruct ≠ .GER ∧ Marks [last] [] [] ∧
      Marks front (nibbles (code.1.loops deepth)) (nibbles (code.1.loops deepth)) := by
  have hexpr : ∀ instruct ∈ exprInstructs, instruct ≠ .GER := by decide
  obtain ⟨code, hcode⟩ := code
  cases code with
  | plain code =>
    rcases List.eq_nil_or_concat code with rfl | ⟨front, last, rfl⟩
    · exact absurd rfl hcode
    have hfront := marks_plain (isPlain_code front) deepth isNewLine
    have hlast := marks_plain (isPlain_code [last]) deepth (isNewLine && front.isEmpty)
    refine ⟨_, _, ?_, hexpr _ last.mem_exprInstructs, hlast, hfront⟩
    dsimp only
    rw [Code.asm, List.concat_eq_append, List.map_append]
    exact congrArg _ (asmUnits_code (.plain front) [last.line] deepth isNewLine)
      |>.trans (List.map_append ..)
  | comprehension append iter argIn left =>
    have hloop := marks_comprehensionAsm append iter argIn deepth isNewLine
    have hlist : Marks (lineUnits [.block deepth, insLine .REF ['$', 't', 'm', 'p']]) [] [] :=
      marks_lineUnits rfl
    dsimp only
    rw [Code.asm, asmUnits_append _ (by trivial), List.map_append]
    cases left with
    | none => exact ⟨_, _, rfl, show InstructIndex.REF ≠ .GER by decide, hlist, hloop⟩
    | some name =>
      have hfront := hloop.append hlist
      rw [List.append_nil] at hfront
      exact ⟨_, _, (List.append_assoc _ [_] [_]).symm, show InstructIndex.OUT ≠ .GER by decide,
        @marks_plain [.ins 0 .OUT name] rfl deepth false, hfront⟩

theorem marks_genRuleToAsm (code : Code) (deepth : Nat) (isNewLine : Bool)
    {instruct : InstructIndex} {data : CString}
    (h : (AsmLine.ins 0 instruct data).isPlain = true) :
    Marks ((asmUnits deepth isNewLine (genRuleToAsm deepth code instruct data)).map
      AsmUnit.narrow) (nibbles (code.loops deepth)) (nibbles (code.loops deepth)) := by
  rw [genRuleToAsm, asmUnits_code, List.map_append]
  have hlast : [AsmLine.ins 0 instruct data].all AsmLine.isPlain = true := by
    rw [List.all_cons, h]
    rfl
  have hmarks := (marks_code code deepth isNewLine).append
    (marks_plain hlast deepth (isNewLine && code.isEmpty))
  rw [List.append_nil] at hmarks
  exact hmarks

theorem marks_stmt (stmt : Stmt) (deepth : Nat) :
    Marks (lineUnits (.block deepth :: stmt.asm deepth)) (nibbles (stmt.loops deepth))
      (nibbles (stmt.loops deepth)) := by
  cases stmt with
  | expr code => exact marks_code code deepth true
  | CTN => exact marks_lineUnits rfl
  | BRK => exact marks_lineUnits rfl
  | DEL del => exact marks_lineUnits rfl
  | GLB global => exact marks_lineUnits rfl
  | RIS code => exact marks_genRuleToAsm code deepth true rfl
  | ASS code => exact marks_genRuleToAsm (.plain code) deepth true rfl
  | RET code => exact marks_genRuleToAsm code deepth true rfl

theorem marks_while (code : ExprCode) (deepth : Nat) :
    Marks (lineUnits (.block deepth :: (Header.whileBlock code).asm deepth))
      (nibbles (code.1.loops deepth) ++ [deepth % 16]) (nibbles (code.1.loops deepth)) := by
  obtain ⟨front, last, hunits, hger, hlast, hfront⟩ := marks_exprCode code deepth true
  have hempty : code.1.isEmpty = false := by
    obtain ⟨_ | _, hcode⟩ := code
    · rename_i code
      cases code with
      | nil => exact absurd rfl hcode
      | cons e code => rfl
    · rfl
  have heq : lineUnits (.block deepth :: (Header.whileBlock code).asm deepth) =
      front ++ [last, loopJez (deepth % 16)] := by
    rw [lineUnits, asmUnits, Header.asm, genRuleToAsm, asmUnits_code, List.map_append, hunits,
      hempty, List.append_assoc]
    rfl
  rw [heq]
  have hmarks := hfront.append (marks_head hlast hger (deepth % 16))
  rw [List.append_nil] at hmarks
  exact hmarks

/-- The code of the defaults of a function. -/
theorem marks_defaults (defaults : List (CString × ExprCode)) (deepth : Nat) :
    StartsBlock (defaultsAsm deepth defaults) ∧
      Marks (lineUnits (defaultsAsm deepth defaults))
        (nibbles (defaults.flatMap fun (_, code) => code.1.loops (deepth + 1)))
        (nibbles (defaults.flatMap fun (_, code) => code.1.loops (deepth + 1))) := by
  induction defaults with
  | nil => exact ⟨trivial, Marks.nil⟩
  | cons default defaults ih =>
    obtain ⟨argName, code⟩ := default
    obtain ⟨hstarts, hmarks⟩ := ih
    have htest : Marks (lineUnits [.block (deepth + 1), .ins 0 .EST argName, insLine .JNZ ['2']])
      [] [] := marks_lineUnits rfl
    have hcode := marks_code code.1 (deepth + 1) true
    refine ⟨trivial, ?_⟩
    rw [defaultsAsm, List.flatMap_cons, ← defaultsAsm, lineUnits_append _ hstarts,
      lineUnits_append _ (by trivial), List.flatMap_cons, nibbles_append]
    exact (htest.append hcode).append hmarks

theorem marks_header (header : Header) (deepth : Nat) :
    Marks (lineUnits (.block deepth :: header.asm deepth))
      (nibbles (header.codeLoops deepth ++ header.ownLoops deepth))
      (nibbles (header.codeLoops deepth)) := by
  rw [nibbles_append]
  cases header with
  | whileBlock code => exact marks_while code deepth
  | forBlock iter argIn => exact marks_for iter argIn deepth
  | ifBlock code =>
    have hmarks := marks_genRuleToAsm code deepth true
      (show (AsmLine.ins 0 .JEZ (InstructIndex.letters ['1'])).isPlain = true from rfl)
    rw [← List.append_nil (nibbles (code.loops deepth))] at hmarks
    exact hmarks.congr (by simp [Header.codeLoops])
  | elifBlock code =>
    have hnel : Marks (lineUnits [.block deepth, insLine .NEL ['1']]) [] [] := marks_lineUnits rfl
    have hmarks := hnel.append (marks_genRuleToAsm code deepth false
      (show (AsmLine.ins 0 .JEZ (InstructIndex.letters ['1'])).isPlain = true from rfl))
    rw [List.nil_append, ← List.append_nil (nibbles (code.loops deepth))] at hmarks
    exact hmarks.congr (by simp [Header.codeLoops])
  | elseBlock => exact marks_lineUnits rfl
  | tryBlock => exact marks_lineUnits rfl
  | exceptBlock => exact marks_lineUnits rfl
  | defBlock declare defaults =>
    have hdefaults := marks_defaults defaults deepth
    have hhead : Marks (lineUnits [.block deepth, .ins 0 .DEF declare, insLine .JMP ['1']]) [] [] :=
      marks_lineUnits rfl
    have hmarks := hhead.append hdefaults.2
    rw [List.nil_append, ← List.append_nil (nibbles _)] at hmarks
    rw [Header.asm, ← List.cons_append, lineUnits_append _ hdefaults.1]
    exact hmarks.congr (by simp [Header.codeLoops])
  | classBlock thisClass superClass => exact marks_lineUnits rfl

theorem marks_exit (header : Header) (deepth now : Nat) :
    Marks (lineUnits (exitAsm deepth now header.blockType)) []
      (nibbles (header.ownLoops deepth)) := by
  cases header with
  | whileBlock code => exact marks_jmpBack (deepth % 16)
  | forBlock iter argIn => exact marks_exitFor deepth now
  | tryBlock =>
    exact @Marks.append [_] [_, loopJez (deepth % 16)] _ _ _ _
      (@marks_lineUnits [.block deepth, insLine .NTR []] rfl)
      (marks_tryEnd (marks_unit rfl fun _ => by
        rw [AsmUnit.isJmpBack, Bool.and_assoc]
        exact Bool.and_false _) rfl _)
  | ifBlock code => exact Marks.nil
  | elifBlock code => exact Marks.nil
  | elseBlock => exact Marks.nil
  | exceptBlock => exact Marks.nil
  | defBlock declare defaults => exact marks_lineUnits rfl
  | classBlock thisClass superClass => exact marks_lineUnits rfl

/-- **The marks of a program are its loops.** -/
theorem marks_prog (p : Prog) (deepth after : Nat) :
    Marks (lineUnits (p.asm deepth after)) (nibbles (p.loops deepth))
      (nibbles (p.loops deepth)) := by
  induction p generalizing deepth after with
  | nil => exact Marks.nil
  | line stmt rest ih =>
    rw [Prog.asm, lineUnits_append _ (rest.startsBlock_asm deepth after), Prog.loops,
      nibbles_append]
    exact (marks_stmt stmt deepth).append (ih deepth after)
  | block header body rest ihbody ihrest =>
    have hmarks := (((marks_header header deepth).append
      (ihbody (deepth + 1) (rest.nextDeepth deepth after))).append
      (marks_exit header deepth (rest.nextDeepth deepth after))).append (ihrest deepth after)
    rw [Prog.asm, lineUnits_append _ (rest.startsBlock_asm deepth after),
      lineUnits_append _ (startsBlock_exitAsm _ _ _), lineUnits_append _ (body.startsBlock_asm _ _)]
    have hheads : nibbles ((Prog.block header body rest).loops deepth) =
        nibbles (header.codeLoops deepth ++ header.ownLoops deepth) ++
          nibbles (body.loops (deepth + 1)) ++ [] ++ nibbles (rest.loops deepth) := by
      simp only [Prog.loops, nibbles_append, List.append_nil]
    rw [← hheads] at hmarks
    refine hmarks.congr fun f => ?_
    simp only [Prog.loops, nibbles_append, List.mem_append]
    tauto

/-! ### The loop around a place -/

/-- What is known of the scope behind a text: the search back through it, the jumps in
the rest of the body, and the jump that closes the body. -/
structure Framed (text : List AsmLine) (around : Scope) : Prop where
  scan : ∃ front, (∀ now, findLoopDeepth now (lineUnits text).reverse =
      ((nibbles around.ended).reverse.find? (· < now)).or (findLoopDeepth now front)) ∧
    ∀ loop ∈ around.loop, ∀ now, loop % 16 < now → findLoopDeepth now front = some (loop % 16)
  jmp : ∀ deepth, (∃ unit ∈ lineUnits around.toEnd, unit.isJmpBack deepth = true) ↔
    deepth ∈ nibbles around.later
  toEnd : StartsBlock around.toEnd
  behind : StartsBlock around.behind
  closes : ∀ loop ∈ around.loop, ∃ rest,
    around.behind = .block loop :: insLine .JMP ['-', '1'] :: rest

theorem framed_top : Framed [] .top :=
  ⟨⟨[], fun _ => rfl, nofun⟩, by simp [Scope.top, lineUnits, asmUnits, nibbles], trivial, trivial,
    nofun⟩

/-- A piece of text with its loops ended. -/
theorem Framed.ended {text : List AsmLine} {around : Scope} (h : Framed text around)
    {piece : List AsmLine} (hpiece : StartsBlock piece) {ended tails : List Nat}
    (hmarks : Marks (lineUnits piece) (nibbles ended) tails) :
    Framed (text ++ piece) { around with ended := around.ended ++ ended } := by
  obtain ⟨front, hscan, hloop⟩ := h.scan
  refine ⟨⟨front, fun now => ?_, hloop⟩, h.jmp, h.toEnd, h.behind, h.closes⟩
  dsimp only
  rw [lineUnits_append _ hpiece, List.reverse_append, hmarks.scan, hscan, nibbles_append,
    List.reverse_append, List.find?_append, Option.or_assoc]

/-- More text in front of the end of the body. -/
theorem Framed.later {text : List AsmLine} {around : Scope} (h : Framed text around)
    {piece : List AsmLine} (hpiece : StartsBlock piece) {heads later : List Nat}
    (hmarks : Marks (lineUnits piece) heads (nibbles later)) :
    Framed text
      { around with later := later ++ around.later, toEnd := piece ++ around.toEnd } := by
  refine ⟨h.scan, fun deepth => ?_, hpiece.append h.toEnd, h.behind, h.closes⟩
  dsimp only
  rw [lineUnits_append _ h.toEnd, nibbles_append, List.mem_append, ← hmarks.jmp, ← h.jmp]
  simp only [List.mem_append, or_and_right, exists_or]

theorem Framed.enter {text : List AsmLine} {around : Scope} (h : Framed text around)
    (deepth after : Nat) (header : Header) (rest : Prog) :
    Framed (text ++ .block deepth :: header.asm deepth)
      (around.enter deepth after header rest) := by
  have hmarks := marks_header header deepth
  have hexit := marks_exit header deepth (rest.nextDeepth deepth after)
  have hstarts := (startsBlock_exitAsm deepth (rest.nextDeepth deepth after)
    header.blockType).append (rest.startsBlock_asm deepth after)
  have htop : Framed (text ++ .block deepth :: header.asm deepth)
      ⟨none, [], [], [], exitAsm deepth (rest.nextDeepth deepth after) header.blockType ++
        rest.asm deepth after ++ around.toEnd ++ around.behind⟩ :=
    ⟨⟨(lineUnits (text ++ .block deepth :: header.asm deepth)).reverse, fun _ => rfl, nofun⟩,
      by simp [lineUnits, asmUnits, nibbles], trivial, (hstarts.append h.toEnd).append h.behind,
      nofun⟩
  unfold Scope.enter
  by_cases hheader : header.isLoop
  · rw [if_pos hheader]
    rw [Header.ownLoops, if_pos hheader] at hmarks
    refine ⟨⟨_, fun _ => rfl, ?_⟩, htop.jmp, htop.toEnd, htop.behind, ?_⟩
    · rintro loop ⟨⟩ now hnow
      have hfirst : (nibbles (header.codeLoops deepth ++ [deepth])).reverse =
          deepth % 16 :: (nibbles (header.codeLoops deepth)).reverse := by
        rw [nibbles_append, List.reverse_append]
        rfl
      rw [lineUnits_append _ (by trivial), List.reverse_append, hmarks.scan, hfirst,
        List.find?_cons, decide_eq_true hnow]
      rfl
    · rintro loop ⟨⟩
      cases header with
      | whileBlock code => exact ⟨_, rfl⟩
      | forBlock iter argIn => exact ⟨_, rfl⟩
      | _ => cases hheader
  by_cases hmethod : header.isMethod
  · rw [if_neg hheader, if_pos hmethod]
    exact htop
  · rw [if_neg hheader, if_neg hmethod]
    rw [Header.ownLoops, if_neg hheader] at hmarks hexit
    rw [List.append_nil] at hmarks
    have hline : StartsBlock (.block deepth :: header.asm deepth) := trivial
    have hrest := hexit.append (marks_prog rest deepth after)
    rw [← lineUnits_append _ (rest.startsBlock_asm deepth after)] at hrest
    exact (h.ended hline hmarks).later hstarts hrest

/-- **The scope of a place is framed by the text around it.** -/
theorem framed_scope (place : Place) {text : List AsmLine} {around : Scope}
    (h : Framed text around) (base after : Nat) :
    Framed (text ++ place.before base) (place.scope base after around) ∧
      place.behind base after ++ (around.toEnd ++ around.behind) =
        (place.scope base after around).toEnd ++ (place.scope base after around).behind := by
  induction place generalizing text around base after with
  | hole =>
    rw [Place.before, List.append_nil]
    exact ⟨h, rfl⟩
  | line stmt place ih =>
    have hmarks := marks_prog (.line stmt .nil) base base
    rw [Prog.loops, Prog.loops, List.append_nil] at hmarks
    have hended := h.ended (Prog.startsBlock_asm _ base base) hmarks
    rw [Place.before, ← List.append_assoc]
    exact ih hended base after
  | block header body place ih =>
    have hended := h.ended (Prog.startsBlock_asm _ base base)
      (marks_prog (.block header body .nil) base base)
    rw [Place.before, ← List.append_assoc]
    exact ih hended base after
  | inside header place rest ih =>
    rw [Place.before, ← List.append_assoc]
    obtain ⟨hframed, htext⟩ := ih (h.enter base after header rest) (base + 1)
      (rest.nextDeepth base after)
    refine ⟨hframed, ?_⟩
    rw [Place.scope, ← htext, Place.behind]
    unfold Scope.enter
    split
    · simp only [List.append_assoc, List.nil_append]
    · split <;> simp only [List.append_assoc, List.nil_append]

theorem framed_jump (jump : LoopJump) :
    Framed jump.before jump.scope ∧
      jump.rest.asm jump.deepth (jump.place.next 0 0) ++ jump.place.behind 0 0 ++ [.block 0] =
        jump.scope.toEnd ++ jump.scope.behind := by
  obtain ⟨hframed, htext⟩ := framed_scope jump.place framed_top 0 0
  refine ⟨hframed.later (jump.rest.startsBlock_asm _ _) (marks_prog jump.rest _ _), ?_⟩
  rw [LoopJump.scope, List.append_assoc, List.append_assoc, ← htext]
  rfl

/-! ### The search -/

/-- A depth that is found is less deep. -/
theorem lt_of_findLoopDeepth {now deepth : Nat} {before : List AsmUnit}
    (h : findLoopDeepth now before = some deepth) : deepth < now := by
  induction before with
  | nil => cases h
  | cons unit before ih =>
    rw [findLoopDeepth] at h
    split at h
    · split at h
      · cases h
      · split at h
        · exact ih h
        · rename_i hnot
          rw [not_or] at hnot
          cases h
          exact Nat.lt_of_not_le hnot.2
    · exact ih h

/-- The search back from a jump finds the loop around it. -/
theorem findLoopDeepth_jump {jump : LoopJump} {loop : Nat} (hloop : jump.scope.loop = some loop) :
    findLoopDeepth (jump.deepth % 16) (lineUnits jump.before).reverse = some (loop % 16) ↔
      loop % 16 < jump.deepth % 16 ∧
        ∀ f, (nibbles jump.scope.ended).reverse.find? (· < jump.deepth % 16) = some f →
          f = loop % 16 := by
  obtain ⟨front, hscan, hfront⟩ := (framed_jump jump).1.scan
  constructor
  · intro h
    refine ⟨lt_of_findLoopDeepth h, fun f hf => ?_⟩
    rw [hscan, hf, Option.some_or] at h
    exact Option.some.inj h
  · rintro ⟨hdeeper, hended⟩
    rw [hscan]
    cases hf : (nibbles jump.scope.ended).reverse.find? (· < jump.deepth % 16) with
    | none => exact hfront loop hloop _ hdeeper
    | some f => rw [Option.some_or, hended f hf]

/-- The first `JMP -1` of a depth behind a piece, and one in it. -/
theorem findIdx?_jmpBack {piece more : List AsmUnit} {deepth now : Nat} :
    (piece ++ jmpBack deepth :: more).findIdx? (AsmUnit.isJmpBack now) = some piece.length ↔
      deepth = now ∧ ¬∃ unit ∈ piece, unit.isJmpBack now = true := by
  rw [List.findIdx?_append]
  cases hpiece : piece.findIdx? (AsmUnit.isJmpBack now) with
  | some k =>
    obtain ⟨hk, hjmp, -⟩ := List.findIdx?_eq_some_iff_getElem.mp hpiece
    rw [Option.some_or, Option.some.injEq]
    constructor
    · rintro rfl
      exact absurd hk (Nat.lt_irrefl _)
    · rintro ⟨-, hnot⟩
      exact absurd ⟨_, List.getElem_mem hk, hjmp⟩ hnot
  | none =>
    have hnot := List.findIdx?_eq_none_iff.mp hpiece
    have hpiece : ¬∃ unit ∈ piece, unit.isJmpBack now = true := by
      rintro ⟨unit, hunit, h⟩
      exact Bool.false_ne_true ((hnot unit hunit).symm.trans h)
    rw [Option.none_or, and_iff_left hpiece, List.findIdx?_cons]
    by_cases h : deepth = now
    · rw [if_pos ((isJmpBack_jmpBack now deepth).mpr h)]
      simp [h]
    · rw [if_neg fun hjmp => h ((isJmpBack_jmpBack now deepth).mp hjmp)]
      simp only [h, iff_false, Option.map_map]
      intro hsome
      obtain ⟨k, -, hk⟩ := Option.map_eq_some_iff.mp hsome
      simp only [Function.comp_apply] at hk
      omega

theorem length_lineUnits (lines : List AsmLine) :
    (lineUnits lines).length = (asmUnits 0 false lines).length := List.length_map _

section
variable {stackSize : Nat} {jump : LoopJump} {texts : List (List AsmLine)} {loop : Nat}

/-- The array around a jump in a loop. -/
theorem units_jump (htexts : lines2Target stackSize (jump.prog.lines 0) = some texts)
    (hloop : jump.scope.loop = some loop) :
    ∃ unit more, unit.blockDeepth = jump.deepth % 16 ∧
      readUnits texts = lineUnits jump.before ++ unit ::
        (lineUnits jump.scope.toEnd ++ jmpBack (loop % 16) :: more) := by
  obtain ⟨hframed, htext⟩ := framed_jump jump
  obtain ⟨rest, hrest⟩ := hframed.closes loop hloop
  obtain ⟨instruct, hstmt⟩ : ∃ instruct, jump.stmt.asm jump.deepth = [.ins 0 instruct []] := by
    rcases jump.isControl with h | h
    · exact ⟨.BRK, by rw [h]; rfl⟩
    · exact ⟨.CTN, by rw [h]; rfl⟩
  have hstarts := hframed.toEnd.append hframed.behind
  have hline : lineUnits (.block jump.deepth :: ([.ins 0 instruct []] ++
      (jump.scope.toEnd ++ jump.scope.behind))) =
        ⟨instruct, jump.deepth % 16, 0, true, []⟩ ::
          lineUnits (jump.scope.toEnd ++ jump.scope.behind) := by
    rw [lineUnits, lineUnits, asmUnits, List.singleton_append, asmUnits,
      asmUnits_of_startsBlock hstarts]
    rfl
  have hbehind : lineUnits jump.scope.behind =
      jmpBack (loop % 16) :: (asmUnits loop false rest).map AsmUnit.narrow := by
    rw [hrest]
    rfl
  refine ⟨⟨instruct, jump.deepth % 16, 0, true, []⟩,
    (asmUnits loop false rest).map AsmUnit.narrow, rfl, ?_⟩
  rw [← hbehind, ← lineUnits_append _ hframed.behind, ← hline, ← htext, ← hstmt,
    ← lineUnits_append _ (by trivial), readUnits, textUnits_lines htexts, ← lineUnits,
    LoopJump.prog, Place.asm_plug _ (by simp), Prog.asm]
  simp only [LoopJump.before, LoopJump.deepth, List.append_assoc, List.cons_append]

/-- **The search finds the loop exactly when nothing hides it.** -/
theorem getAddrOffsetOfJmpBack_jump
    (htexts : lines2Target stackSize (jump.prog.lines 0) = some texts)
    (hloop : jump.scope.loop = some loop) :
    getAddrOffsetOfJmpBack (readUnits texts) jump.pc = some (jump.closing - jump.pc) ↔
      FindsLoop jump loop := by
  have hframed := (framed_jump jump).1
  obtain ⟨unit, more, hunit, hunits⟩ := units_jump htexts hloop
  have hpc : jump.pc = (lineUnits jump.before).length := (length_lineUnits _).symm
  have hclosing : jump.closing - jump.pc = (lineUnits jump.scope.toEnd).length + 1 := by
    rw [LoopJump.closing, length_lineUnits]
    omega
  rw [getAddrOffsetOfJmpBack, hunits, hclosing, hpc, List.getElem?_append_right (Nat.le_refl _),
    Nat.sub_self, List.getElem?_cons_zero, List.take_left, List.drop_append,
    List.drop_eq_nil_of_le (Nat.le_succ _), Nat.add_sub_cancel_left, List.nil_append,
    List.drop_succ_cons, List.drop_zero, Option.bind_eq_bind, Option.bind_some, hunit]
  simp only [Option.bind_eq_bind, Option.bind_eq_some_iff, Option.pure_def, Option.some.injEq,
    Nat.add_right_cancel_iff, exists_eq_right, findIdx?_jmpBack]
  have hjmp := hframed.jmp (loop % 16)
  constructor
  · rintro ⟨depth, hback, rfl, hnone⟩
    obtain ⟨hdeeper, hended⟩ := (findLoopDeepth_jump hloop).mp hback
    refine ⟨hdeeper, hended, fun f hf heq => hnone (hjmp.mpr ?_)⟩
    rw [← heq]
    exact List.mem_map_of_mem hf
  · intro h
    refine ⟨loop % 16, (findLoopDeepth_jump hloop).mpr ⟨h.deeper, h.ended⟩, rfl, fun hexists => ?_⟩
    obtain ⟨f, hf, heq⟩ := List.mem_map.mp (hjmp.mp hexists)
    exact h.later f hf heq

/-- **`break` and `continue` leave the innermost loop exactly when nothing hides it.** -/
theorem jumpsOut_iff (htexts : lines2Target stackSize (jump.prog.lines 0) = some texts)
    (hloop : jump.scope.loop = some loop) :
    JumpsOut jump (readUnits texts) ↔ FindsLoop jump loop := by
  rw [← getAddrOffsetOfJmpBack_jump htexts hloop]
  constructor
  · exact fun h => h.continues
  · intro h
    obtain ⟨unit, more, -, hunits⟩ := units_jump htexts hloop
    refine ⟨⟨loop, hloop, ?_⟩, h, ?_⟩
    · have hclosing : jump.closing =
          (lineUnits jump.before).length + ((lineUnits jump.scope.toEnd).length + 1) := by
        rw [LoopJump.closing, LoopJump.pc, length_lineUnits, length_lineUnits]
        omega
      rw [hunits, hclosing, List.getElem?_append_right (Nat.le_add_right _ _),
        Nat.add_sub_cancel_left, List.getElem?_cons_succ,
        List.getElem?_append_right (Nat.le_refl _), Nat.sub_self]
      rfl
    · rw [getAddrOffsetOfBreak, h, Option.map_some, LoopJump.closing]
      congr 1
      omega

end

/-! ### Depths that fit -/

theorem Code.le_of_mem_loops {code : Code} {deepth f : Nat} (h : f ∈ code.loops deepth) :
    deepth ≤ f := by
  rw [Code.loops] at h
  split at h
  · exact Nat.le_of_eq (List.mem_singleton.mp h).symm
  · cases h

theorem Stmt.le_of_mem_loops {stmt : Stmt} {deepth f : Nat} (h : f ∈ stmt.loops deepth) :
    deepth ≤ f := by
  cases stmt with
  | expr code => exact code.le_of_mem_loops h
  | RIS code => exact code.le_of_mem_loops h
  | RET code => exact code.le_of_mem_loops h
  | _ => cases h

theorem Header.le_of_mem_codeLoops {header : Header} {deepth f : Nat}
    (h : f ∈ header.codeLoops deepth) : deepth ≤ f := by
  cases header with
  | whileBlock code => exact code.1.le_of_mem_loops h
  | ifBlock code => exact code.le_of_mem_loops h
  | elifBlock code => exact code.le_of_mem_loops h
  | defBlock declare defaults =>
    obtain ⟨⟨argName, code⟩, -, hf⟩ := List.mem_flatMap.mp h
    exact Nat.le_of_succ_le (code.1.le_of_mem_loops hf)
  | _ => cases h

theorem Prog.le_of_mem_loops {p : Prog} {deepth f : Nat} (h : f ∈ p.loops deepth) :
    deepth ≤ f := by
  induction p generalizing deepth with
  | nil => cases h
  | line stmt rest ih =>
    rcases List.mem_append.mp h with h | h
    · exact stmt.le_of_mem_loops h
    · exact ih h
  | block header body rest ihbody ihrest =>
    rw [loops, List.mem_append, List.mem_append, List.mem_append] at h
    rcases h with ((h | h) | h) | h
    · exact header.le_of_mem_codeLoops h
    · rw [Header.ownLoops] at h
      split at h
      · exact Nat.le_of_eq (List.mem_singleton.mp h).symm
      · cases h
    · exact Nat.le_of_succ_le (ihbody h)
    · exact ihrest h

/-- A scope for a place at a depth: the loop is less deep than the place and the loops in
its body. -/
def Scope.Inside (around : Scope) (deepth : Nat) : Prop :=
  ∀ loop ∈ around.loop, loop < deepth ∧
    (∀ f ∈ around.ended, loop < f) ∧ ∀ f ∈ around.later, loop < f

theorem inside_scope (place : Place) {around : Scope} {base : Nat} (h : around.Inside base)
    (after : Nat) : (place.scope base after around).Inside (place.deepth base) := by
  induction place generalizing around base after with
  | hole => exact h
  | line stmt place ih =>
    refine ih (fun loop hloop => ?_) after
    obtain ⟨hbase, hended, hlater⟩ := h loop hloop
    exact ⟨hbase, List.forall_mem_append.mpr
      ⟨hended, fun f hf => Nat.lt_of_lt_of_le hbase (stmt.le_of_mem_loops hf)⟩, hlater⟩
  | block header body place ih =>
    refine ih (fun loop hloop => ?_) after
    obtain ⟨hbase, hended, hlater⟩ := h loop hloop
    exact ⟨hbase, List.forall_mem_append.mpr
      ⟨hended, fun f hf => Nat.lt_of_lt_of_le hbase (Prog.le_of_mem_loops hf)⟩, hlater⟩
  | inside header place rest ih =>
    refine ih (fun loop hloop => ?_) _
    unfold Scope.enter at hloop ⊢
    by_cases hheader : header.isLoop
    · rw [if_pos hheader] at hloop ⊢
      cases hloop
      exact ⟨Nat.lt_succ_self _, nofun, nofun⟩
    by_cases hmethod : header.isMethod
    · rw [if_neg hheader, if_pos hmethod] at hloop
      cases hloop
    · rw [if_neg hheader, if_neg hmethod] at hloop ⊢
      obtain ⟨hbase, hended, hlater⟩ := h loop hloop
      exact ⟨Nat.lt_succ_of_lt hbase,
        List.forall_mem_append.mpr
          ⟨hended, fun f hf => Nat.lt_of_lt_of_le hbase (header.le_of_mem_codeLoops hf)⟩,
        List.forall_mem_append.mpr
          ⟨fun f hf => Nat.lt_of_lt_of_le hbase (rest.le_of_mem_loops hf), hlater⟩⟩

/-- **With depths that fit in four bits**, what hides a loop is a loop that ended in its
body and is less deep than the jump. -/
theorem findsLoop_iff_of_lt {jump : LoopJump} {loop : Nat} (hloop : jump.scope.loop = some loop)
    (hjump : jump.deepth < 16) (hended : ∀ f ∈ jump.scope.ended, f < 16)
    (hlater : ∀ f ∈ jump.scope.later, f < 16) :
    FindsLoop jump loop ↔ ∀ f ∈ jump.scope.ended, jump.deepth ≤ f := by
  have htop : Scope.top.Inside 0 := nofun
  have hinside : (jump.place.scope 0 0 .top).Inside jump.deepth := inside_scope jump.place htop 0
  obtain ⟨hdeeper, hinEnded, hinLater⟩ := hinside loop hloop
  have hjumpMod : jump.deepth % 16 = jump.deepth := Nat.mod_eq_of_lt hjump
  have hloopMod : loop % 16 = loop := Nat.mod_eq_of_lt (Nat.lt_trans hdeeper hjump)
  have hmap : jump.scope.ended.map (· % 16) = jump.scope.ended :=
    (List.map_congr_left fun f hf => Nat.mod_eq_of_lt (hended f hf)).trans (List.map_id _)
  constructor
  · intro h f hf
    by_contra hlt
    -- the last loop less deep than the jump is then not the loop around
    have hsome : (jump.scope.ended.reverse.find? (· < jump.deepth)).isSome :=
      List.find?_isSome.mpr ⟨f, List.mem_reverse.mpr hf, decide_eq_true (Nat.lt_of_not_le hlt)⟩
    obtain ⟨g, hg⟩ := Option.isSome_iff_exists.mp hsome
    have hsame := h.ended g (by rw [hmap, hjumpMod]; exact hg)
    have hmem := hinEnded g (List.mem_reverse.mp (List.mem_of_find?_eq_some hg))
    omega
  · intro h
    refine ⟨by omega, fun f hf => ?_, fun f hf => ?_⟩
    · rw [hmap, hjumpMod] at hf
      have hlt : f < jump.deepth := by simpa using List.find?_some hf
      exact absurd hlt (Nat.not_lt.mpr (h f (List.mem_reverse.mp (List.mem_of_find?_eq_some hf))))
    · have hbelow : loop < f := by
        rcases List.mem_append.mp hf with hf | hf
        · exact Nat.lt_of_lt_of_le hdeeper (jump.rest.le_of_mem_loops hf)
        · exact hinLater f hf
      rw [Nat.mod_eq_of_lt (hlater f hf), hloopMod]
      exact Nat.ne_of_gt hbelow

/-- A name as code. -/
def refCode (name : Char) : Code := .plain [⟨0, .REF, InstructIndex.letters [name], by decide⟩]

/-- `while a:` with a loop at the end of an `if`, and then a `break`. -/
def deeperLoop : LoopJump where
  place := .inside (.whileBlock ⟨refCode 'a', nofun⟩)
    (.block (.ifBlock (refCode 'b'))
      (.block (.whileBlock ⟨refCode 'c', nofun⟩) (.line (.expr (refCode 'd')) .nil) .nil) .hole)
    .nil
  stmt := .BRK
  isControl := .inl rfl
  rest := .nil

theorem jumpsOut_of_deeperLoop : ∃ texts, lines2Target 512 (deeperLoop.prog.lines 0) = some texts ∧
    JumpsOut deeperLoop (readUnits texts) :=
  ⟨_, rfl, (@jumpsOut_iff 512 _ _ _ rfl rfl).mpr
    ((findsLoop_iff_of_lt rfl (by decide) (by decide) (by decide)).mpr (by decide))⟩

/-- `while a:` with a loop, and then a `break` in an `if`. -/
def innerLoop : LoopJump where
  place := .inside (.whileBlock ⟨refCode 'a', nofun⟩)
    (.block (.whileBlock ⟨refCode 'b', nofun⟩) (.line (.expr (refCode 'c')) .nil)
      (.inside (.ifBlock (refCode 'd')) .hole .nil)) .nil
  stmt := .BRK
  isControl := .inl rfl
  rest := .nil

/-- **The inner loop hides the outer one**: it is less deep than the `break` behind it, so
the VM looks for its `JMP -1`, which is not ahead, and leaves the array. -/
theorem not_jumpsOut_of_innerLoop : ∃ texts,
    lines2Target 512 (innerLoop.prog.lines 0) = some texts ∧ innerLoop.scope.loop = some 0 ∧
      getAddrOffsetOfBreak (readUnits texts) innerLoop.pc = none ∧
        ¬JumpsOut innerLoop (readUnits texts) := by
  refine ⟨_, rfl, rfl, by decide +kernel, fun h => ?_⟩
  have hbreak := h.breaks
  revert hbreak
  decide +kernel

end PikaScript
