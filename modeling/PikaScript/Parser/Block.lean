import PikaScript.Bytecode.Asm

/-! Blocks to assembler text, from `PikaParser.c`.

The parser reads a line at a time and knows of the blocks around it only a stack of
their types. What closes a block is printed in front of the first line behind it.
`Prog` is the program the lines were written from, and `Prog.asm` its text, block by
block; `lines2Target_lines` says that the parser prints the same. -/
namespace PikaScript

/-! ### The code -/

/-- The instructs `AST_genAsm` prints. -/
def exprInstructs : List InstructIndex :=
  [.LST, .RUN, .OPT, .BYT, .NUM, .IMP, .INH, .REF, .STR, .SLC, .DCT, .TPL, .NLS, .OUT]

/-- An instruct of an expression. -/
structure ExprIns where
  invokeDeepth : Nat
  instruct : InstructIndex
  data : CString
  mem_exprInstructs : instruct ∈ exprInstructs
deriving DecidableEq, Repr

def ExprIns.line (e : ExprIns) : AsmLine := .ins e.invokeDeepth e.instruct e.data

/-- An instruct of invoke depth zero. -/
def insLine (instruct : InstructIndex) (data : List Char) : AsmLine :=
  .ins 0 instruct (InstructIndex.letters data)

/-- The register of a `for` loop, `$l` and the depth as a character. -/
def lReg (deepth : Nat) : CString :=
  InstructIndex.letters ['$', 'l'] ++ [BitVec.ofNat 8 (0x30 + deepth)]

/-- What a `for` loop gives its items to. -/
inductive ArgIn where
  | single (name : CString)
  | multi (assigns : List (List ExprIns))
deriving DecidableEq, Repr

/-- The code of a statement: that of an expression, or of a list comprehension, which is
written out as a `for` loop. -/
inductive Code where
  | plain (code : List ExprIns)
  | comprehension (append iter : List ExprIns) (argIn : ArgIn) (left : Option CString)
deriving DecidableEq, Repr

def Code.isComprehension : Code → Bool
  | plain _ => false
  | comprehension .. => true

/-- Code with an instruct in it. -/
abbrev ExprCode := { code : Code // code ≠ .plain [] }

/-- The line that opens a block, with the code of its expressions. -/
inductive Header where
  | whileBlock (code : ExprCode)
  | ifBlock (code : Code)
  | elifBlock (code : Code)
  | elseBlock
  | forBlock (iter : List ExprIns) (argIn : ArgIn)
  | tryBlock
  | exceptBlock
  | defBlock (declare : CString) (defaults : List (CString × ExprCode))
  | classBlock (thisClass superClass : CString)
deriving DecidableEq, Repr

/-- A line that opens none: an expression or assignment, or a rule of `rules_topAst`. -/
inductive Stmt where
  | expr (code : Code)
  | CTN
  | BRK
  | DEL (del : CString)
  | GLB (global : CString)
  | RIS (code : Code)
  | ASS (code : List ExprIns)
  | RET (code : Code)
deriving DecidableEq, Repr

/-- The strings on the block stack. -/
inductive BlockType where
  | whileType | ifType | elifType | elseType | forType | tryType | exceptType | defType | classType
deriving DecidableEq, Repr

def Header.blockType : Header → BlockType
  | whileBlock _ => .whileType
  | ifBlock _ => .ifType
  | elifBlock _ => .elifType
  | elseBlock => .elseType
  | forBlock .. => .forType
  | tryBlock => .tryType
  | exceptBlock => .exceptType
  | defBlock .. => .defType
  | classBlock .. => .classType

inductive Content where
  | block (header : Header)
  | stmt (stmt : Stmt)
deriving DecidableEq, Repr

/-- A line of the program. -/
structure PyLine where
  blockDeepth : Nat
  content : Content
deriving DecidableEq, Repr

/-- The deepest block a line is parsed at: a `for` loop with several names parses its
assignments in the block it opens, and so does a `def` its defaults. -/
def PyLine.parsedDeepth (line : PyLine) : Nat :=
  match line.content with
  | .block (.forBlock _ (.multi (_ :: _))) => line.blockDeepth + 1
  | .block (.defBlock _ (_ :: _)) => line.blockDeepth + 1
  | _ => line.blockDeepth

/-- The codes of a line with their depths. -/
def PyLine.codes (line : PyLine) : List (Nat × Code) :=
  match line.content with
  | .block (.whileBlock code) => [(line.blockDeepth, code)]
  | .block (.ifBlock code) => [(line.blockDeepth, code)]
  | .block (.elifBlock code) => [(line.blockDeepth, code)]
  | .block (.defBlock _ defaults) =>
    defaults.map fun (_, code) => (line.blockDeepth + 1, (code : Code))
  | .stmt (.expr code) => [(line.blockDeepth, code)]
  | .stmt (.RIS code) => [(line.blockDeepth, code)]
  | .stmt (.RET code) => [(line.blockDeepth, code)]
  | _ => []

/-- What `parser_line2Ast` finds out about a line: its depth, the blocks that end in front
of it, the innermost first, and what it says. -/
structure AST where
  blockDeepth : Nat
  exitBlock : List BlockType
  content : Content
deriving DecidableEq, Repr

/-- `stack_pushStr` on a stack of `PIKA_STACK_BUFF_SIZE` bytes. A quarter of them is for
the sizes, four bytes each, and four stay free. -/
def stackPushStr (stackSize : Nat) (stack : List BlockType) (blockType : BlockType) :
    Option (List BlockType) :=
  if 4 * (stack.length + 1) + 4 ≤ stackSize / 4 then some (blockType :: stack) else none

/-- A line that opens a block pushes its type. -/
def enterBlock (stackSize : Nat) (stack : List BlockType) : Content → Option (List BlockType)
  | .block header => stackPushStr stackSize stack header.blockType
  | .stmt _ => some stack

/-- What a line must be for its text: a depth is an `int8_t`, and a comprehension, whose
text is cut behind three characters, has a depth of one digit. It has a parser of its
own, with a stack for its loop. -/
def PyLine.isParsed (stackSize : Nat) (line : PyLine) : Bool :=
  line.parsedDeepth < 128 && line.codes.all fun (deepth, code) =>
    !code.isComprehension || (deepth < 10 && (stackPushStr stackSize [] .forType).isSome)

/-- `parser_line2Ast`. -/
def parserLine2Ast (stackSize : Nat) (stack : List BlockType) (line : PyLine) :
    Option (AST × List BlockType) :=
  let exits := stack.length - line.blockDeepth
  if line.isParsed stackSize then
    (enterBlock stackSize (stack.drop exits) line.content).map fun stackNow =>
      (⟨line.blockDeepth, stack.take exits, line.content⟩, stackNow)
  else none

/-- What closes a block of a depth, in front of a line of a depth. The last of a class
is one deeper than the line. -/
def exitAsm (deepth blockDeepthNow : Nat) : BlockType → List AsmLine
  | .whileType => [.block deepth, insLine .JMP ['-', '1']]
  | .tryType => [.block deepth, insLine .NTR [], insLine .GER [], insLine .JEZ ['2']]
  | .forType => [.block deepth, insLine .JMP ['-', '1'], .block deepth, .ins 0 .DEL (lReg deepth)]
  | .defType => [.block (deepth + 1), insLine .RET []]
  | .classType =>
    [.block (deepth + 1), insLine .RAS ['$', 'o', 'r', 'i', 'g', 'i', 'n'],
      .block (blockDeepthNow + 1), insLine .NEW ['s', 'e', 'l', 'f'], insLine .RET []]
  | _ => []

/-- The loop over the blocks that end. -/
def exitBlocksAsm (blockDeepth : Nat) : List BlockType → List AsmLine
  | [] => []
  | blockType :: exitBlock =>
    exitAsm (blockDeepth + exitBlock.length) blockDeepth blockType ++
      exitBlocksAsm blockDeepth exitBlock

/-- The name the loop assigns to. -/
def ArgIn.name : ArgIn → CString
  | single name => name
  | multi _ => InstructIndex.letters ['$', 't', 'm', 'p']

/-- The assignments of a `for` loop with several names. -/
def ArgIn.asm (deepth : Nat) : ArgIn → List AsmLine
  | single _ => []
  | multi assigns =>
    (assigns.flatMap fun code => .block (deepth + 1) :: code.map ExprIns.line) ++
      [.block (deepth + 1), insLine .DEL ['$', 't', 'm', 'p']]

/-- The head of a `for` loop, behind its depth. -/
def forAsm (deepth : Nat) (iter : List ExprIns) (argIn : ArgIn) : List AsmLine :=
  iter.map ExprIns.line ++ [.ins 0 .OUT (lReg deepth)] ++
    [.block deepth,
      .ins 0 .RUN (lReg deepth ++
        InstructIndex.letters ['.', '_', '_', 'n', 'e', 'x', 't', '_', '_']),
      .ins 0 .OUT argIn.name, .ins 0 .EST argIn.name, insLine .JEZ ['2']] ++
    argIn.asm deepth

/-- `_comprehension2Asm`, up to the mark of its last line. -/
def comprehensionAsm (deepth : Nat) (append iter : List ExprIns) (argIn : ArgIn) : List AsmLine :=
  [insLine .LST [], insLine .NLS [], insLine .OUT ['$', 't', 'm', 'p']] ++
    .block deepth :: forAsm deepth iter argIn ++
    .block (deepth + 1) :: append.map ExprIns.line ++ exitAsm deepth deepth .forType

/-- `AST_genAsm`. -/
def Code.asm (deepth : Nat) : Code → List AsmLine
  | plain code => code.map ExprIns.line
  | comprehension append iter argIn left =>
    comprehensionAsm deepth append iter argIn ++
      .block deepth :: insLine .REF ['$', 't', 'm', 'p'] :: (left.map (.ins 0 .OUT)).toList

/-- `GenRule_toAsm`. -/
def genRuleToAsm (deepth : Nat) (code : Code) (instruct : InstructIndex) (data : CString) :
    List AsmLine :=
  code.asm deepth ++ [.ins 0 instruct data]

def Stmt.asm (deepth : Nat) : Stmt → List AsmLine
  | expr code => code.asm deepth
  | CTN => genRuleToAsm deepth (.plain []) .CTN []
  | BRK => genRuleToAsm deepth (.plain []) .BRK []
  | DEL del => genRuleToAsm deepth (.plain []) .DEL del
  | GLB global => genRuleToAsm deepth (.plain []) .GLB global
  | RIS code => genRuleToAsm deepth code .RIS []
  | ASS code => genRuleToAsm deepth (.plain code) .ASS []
  | RET code => genRuleToAsm deepth code .RET []

/-- The defaults of a function: each is set when its argument does not exist. -/
def defaultsAsm (deepth : Nat) (defaults : List (CString × ExprCode)) : List AsmLine :=
  defaults.flatMap fun (argName, code) =>
    [.block (deepth + 1), .ins 0 .EST argName, insLine .JNZ ['2']] ++
      .block (deepth + 1) :: code.1.asm (deepth + 1)

/-- What opens a block, behind its depth. -/
def Header.asm (deepth : Nat) : Header → List AsmLine
  | whileBlock code => genRuleToAsm deepth code .JEZ (InstructIndex.letters ['2'])
  | ifBlock code => genRuleToAsm deepth code .JEZ (InstructIndex.letters ['1'])
  | elifBlock code =>
    insLine .NEL ['1'] :: genRuleToAsm deepth code .JEZ (InstructIndex.letters ['1'])
  | elseBlock => genRuleToAsm deepth (.plain []) .NEL (InstructIndex.letters ['1'])
  | forBlock iter argIn => forAsm deepth iter argIn
  | tryBlock => genRuleToAsm deepth (.plain []) .TRY []
  | exceptBlock => genRuleToAsm deepth (.plain []) .EXP []
  | defBlock declare defaults =>
    [.ins 0 .DEF declare, insLine .JMP ['1']] ++ defaultsAsm deepth defaults
  | classBlock thisClass superClass =>
    [.ins 0 .CLS (thisClass ++ InstructIndex.letters ['(', ')']), insLine .JMP ['1'],
      .block (deepth + 1), .ins 0 .RUN superClass, insLine .OUT ['s', 'e', 'l', 'f'],
      .block (deepth + 1), insLine .RAS ['s', 'e', 'l', 'f']]

/-- `AST_genAsm_top`. -/
def AST.genAsmTop (ast : AST) : List AsmLine :=
  exitBlocksAsm ast.blockDeepth ast.exitBlock ++ .block ast.blockDeepth ::
    match ast.content with
    | .block header => header.asm ast.blockDeepth
    | .stmt stmt => stmt.asm ast.blockDeepth

/-- The loop of `parser_lines2Target`. -/
def parseLines (stackSize : Nat) : List BlockType → List PyLine → Option (List (List AsmLine))
  | _, [] => some []
  | stack, line :: lines => do
    let (ast, stack) ← parserLine2Ast stackSize stack line
    return ast.genAsmTop :: (← parseLines stackSize stack lines)

/-- The void line at the end. -/
def voidLine : PyLine := ⟨0, .stmt (.expr (.plain []))⟩

/-- `parser_lines2Target`: the texts the assembler gets. -/
def lines2Target (stackSize : Nat) (lines : List PyLine) : Option (List (List AsmLine)) :=
  parseLines stackSize [] (lines ++ [voidLine])

/-! ### Programs -/

/-- A program: lines and blocks in a row. -/
inductive Prog where
  | nil
  | line (stmt : Stmt) (rest : Prog)
  | block (header : Header) (body rest : Prog)
deriving DecidableEq, Repr

namespace Prog

/-- The lines of a program, from a depth on. -/
def lines (deepth : Nat) : Prog → List PyLine
  | nil => []
  | line stmt rest => ⟨deepth, .stmt stmt⟩ :: rest.lines deepth
  | block header body rest =>
    ⟨deepth, .block header⟩ :: (body.lines (deepth + 1) ++ rest.lines deepth)

/-- The depth of the line behind the blocks in front of a program. -/
def nextDeepth (deepth next : Nat) : Prog → Nat
  | nil => next
  | _ => deepth

/-- The text of a program, in front of a line of a depth: what closes a block stands
behind its body. -/
def asm (deepth next : Nat) : Prog → List AsmLine
  | nil => []
  | line stmt rest => .block deepth :: stmt.asm deepth ++ rest.asm deepth next
  | block header body rest =>
    .block deepth :: header.asm deepth ++ body.asm (deepth + 1) (rest.nextDeepth deepth next) ++
      exitAsm deepth (rest.nextDeepth deepth next) header.blockType ++ rest.asm deepth next

end Prog

/-! ### The parser prints the text of the program -/

section
variable {stackSize : Nat}

/-- The texts of lines, joined. -/
def parseAsm (stackSize : Nat) (stack : List BlockType) (lines : List PyLine) :
    Option (List AsmLine) :=
  (parseLines stackSize stack lines).map List.flatten

theorem parseAsm_cons (stack : List BlockType) (line : PyLine) (lines : List PyLine) :
    parseAsm stackSize stack (line :: lines) =
      (parserLine2Ast stackSize stack line).bind fun parsed =>
        (parseAsm stackSize parsed.2 lines).map (parsed.1.genAsmTop ++ ·) := by
  rw [parseAsm, parseLines]
  cases parserLine2Ast stackSize stack line with
  | none => rfl
  | some parsed =>
    rw [Option.bind_eq_bind, Option.bind_some, Option.bind_some, parseAsm, Option.map_map]
    obtain ⟨ast, stackNow⟩ := parsed
    dsimp only
    cases parseLines stackSize stackNow lines with
    | none => rfl
    | some texts => rfl

/-- **A block may be closed early**: a line that is not in the block on the stack prints
what closes it first, and from then on the stack is as if it had not been there. -/
theorem parseAsm_push {stack : List BlockType} {line : PyLine}
    (h : line.blockDeepth ≤ stack.length) (blockType : BlockType) (lines : List PyLine) :
    parseAsm stackSize (blockType :: stack) (line :: lines) =
      (parseAsm stackSize stack (line :: lines)).map
        (exitAsm stack.length line.blockDeepth blockType ++ ·) := by
  have hexits : stack.length + 1 - line.blockDeepth = stack.length - line.blockDeepth + 1 := by
    omega
  have hlength : (stack.take (stack.length - line.blockDeepth)).length =
      stack.length - line.blockDeepth := by
    rw [List.length_take]
    omega
  have hdeepth : line.blockDeepth + (stack.length - line.blockDeepth) = stack.length := by omega
  rw [parseAsm_cons, parseAsm_cons, parserLine2Ast, parserLine2Ast, List.length_cons, hexits,
    List.drop_succ_cons, List.take_succ_cons]
  split
  · cases enterBlock stackSize (stack.drop (stack.length - line.blockDeepth)) line.content with
    | none => rfl
    | some stackNow =>
      rw [Option.map_some, Option.bind_some, Option.map_some, Option.bind_some, Option.map_map]
      congr 1
      apply funext
      intro asm
      rw [Function.comp_apply, AST.genAsmTop, AST.genAsmTop]
      dsimp only
      rw [exitBlocksAsm, hlength, hdeepth]
      simp only [List.append_assoc]
  · rfl

/-- A line as deep as the stack closes nothing. -/
theorem parseAsm_of_deepth {stack : List BlockType} {content : Content} {lines : List PyLine}
    {asm : List AsmLine}
    (h : parseAsm stackSize stack (⟨stack.length, content⟩ :: lines) = some asm) :
    ∃ stackNow rest, enterBlock stackSize stack content = some stackNow ∧
      parseAsm stackSize stackNow lines = some rest ∧
      asm = AST.genAsmTop ⟨stack.length, [], content⟩ ++ rest := by
  rw [parseAsm_cons, parserLine2Ast] at h
  dsimp only at h
  rw [Nat.sub_self, List.drop_zero, List.take_zero] at h
  split at h
  · obtain ⟨_, hparsed, hrest⟩ := Option.bind_eq_some_iff.mp h
    obtain ⟨stackNow, henter, rfl⟩ := Option.map_eq_some_iff.mp hparsed
    obtain ⟨rest, hmore, rfl⟩ := Option.map_eq_some_iff.mp hrest
    exact ⟨stackNow, rest, henter, hmore, rfl⟩
  · cases h

theorem lines_append_cons (p : Prog) {deepth : Nat} {line : PyLine}
    (h : line.blockDeepth ≤ deepth) (lines : List PyLine) :
    ∃ next more, p.lines deepth ++ line :: lines = next :: more ∧
      next.blockDeepth = p.nextDeepth deepth line.blockDeepth ∧ next.blockDeepth ≤ deepth := by
  cases p with
  | nil => exact ⟨line, lines, rfl, rfl, h⟩
  | line stmt rest => exact ⟨_, _, rfl, rfl, Nat.le_refl _⟩
  | block header body rest => exact ⟨_, _, rfl, rfl, Nat.le_refl _⟩

/-- **The lines of a program print its text**, in front of a line that is not deeper. -/
theorem parseAsm_lines (p : Prog) {stack : List BlockType} {line : PyLine} {lines : List PyLine}
    {asm : List AsmLine} (hline : line.blockDeepth ≤ stack.length)
    (h : parseAsm stackSize stack (p.lines stack.length ++ line :: lines) = some asm) :
    ∃ rest, parseAsm stackSize stack (line :: lines) = some rest ∧
      asm = p.asm stack.length line.blockDeepth ++ rest := by
  induction p generalizing stack line lines asm with
  | nil => exact ⟨asm, h, rfl⟩
  | line stmt rest ih =>
    obtain ⟨stackNow, _, henter, hrest, rfl⟩ := parseAsm_of_deepth h
    cases henter
    obtain ⟨asm, hasm, rfl⟩ := ih hline hrest
    exact ⟨asm, hasm, (List.append_assoc ..).symm⟩
  | block header body rest ihbody ihrest =>
    rw [Prog.lines, List.cons_append, List.append_assoc] at h
    obtain ⟨stackNow, _, henter, hrest, rfl⟩ := parseAsm_of_deepth h
    have hpush : stackNow = header.blockType :: stack := by
      rw [enterBlock, stackPushStr] at henter
      split at henter
      · exact (Option.some.inj henter).symm
      · cases henter
    subst hpush
    obtain ⟨next, more, hmore, hdeepth, hnext⟩ := lines_append_cons rest hline lines
    rw [hmore] at hrest
    obtain ⟨_, hclose, rfl⟩ := ihbody (Nat.le_succ_of_le hnext) hrest
    rw [parseAsm_push hnext] at hclose
    obtain ⟨_, hafter, rfl⟩ := Option.map_eq_some_iff.mp hclose
    rw [← hmore] at hafter
    obtain ⟨asm, hasm, rfl⟩ := ihrest hline hafter
    refine ⟨asm, hasm, ?_⟩
    rw [AST.genAsmTop, exitBlocksAsm, Prog.asm, List.length_cons, ← hdeepth]
    simp only [List.append_assoc, List.nil_append, List.cons_append]

/-- **The parser prints a program block by block**, and the void line behind it. -/
theorem lines2Target_lines {p : Prog} {texts : List (List AsmLine)}
    (h : lines2Target stackSize (p.lines 0) = some texts) :
    texts.flatten = p.asm 0 0 ++ [.block 0] := by
  have hasm : parseAsm stackSize [] (p.lines ([] : List BlockType).length ++ [voidLine]) =
      some texts.flatten := by
    rw [parseAsm]
    exact Option.map_eq_some_iff.mpr ⟨texts, h, rfl⟩
  obtain ⟨rest, hrest, hflatten⟩ := parseAsm_lines p (Nat.zero_le _) hasm
  rw [hflatten]
  cases hrest
  rfl

end

/-! ### The units of a program -/

/-- A text that does not go on with the block depth in front of it. -/
def StartsBlock : List AsmLine → Prop
  | .ins .. :: _ => False
  | _ => True

theorem StartsBlock.append {lines more : List AsmLine} (h : StartsBlock lines)
    (hmore : StartsBlock more) : StartsBlock (lines ++ more) := by
  cases lines with
  | nil => exact hmore
  | cons line lines => cases line with
    | block deepth => trivial
    | ins invokeDeepth instruct data => exact h

theorem startsBlock_argIn (argIn : ArgIn) (deepth : Nat) : StartsBlock (argIn.asm deepth) := by
  cases argIn with
  | single name => trivial
  | multi assigns => cases assigns <;> trivial

/-- What holds of the lines of code holds of the lines of an assignment. -/
theorem ArgIn.all_asm {p : AsmLine → Bool} (hblock : ∀ deepth, p (.block deepth) = true)
    (hdel : p (insLine .DEL ['$', 't', 'm', 'p']) = true)
    (hcode : ∀ code : List ExprIns, (code.map ExprIns.line).all p = true) (argIn : ArgIn)
    (deepth : Nat) : (argIn.asm deepth).all p = true := by
  cases argIn with
  | single name => rfl
  | multi assigns =>
    rw [ArgIn.asm, List.all_append, Bool.and_eq_true, List.all_flatMap, List.all_eq_true]
    refine ⟨fun code _ => ?_, ?_⟩
    · rw [List.all_cons, hblock, Bool.true_and, hcode]
    · rw [List.all_cons, List.all_cons, List.all_nil, hblock, hdel]
      rfl

theorem asmUnits_of_startsBlock {lines : List AsmLine} (h : StartsBlock lines)
    (blockDeepth : Nat) (isNewLine : Bool) :
    asmUnits blockDeepth isNewLine lines = asmUnits 0 false lines := by
  cases lines with
  | nil => rfl
  | cons line lines => cases line with
    | block deepth => rfl
    | ins invokeDeepth instruct data => exact h.elim

theorem asmUnits_append (lines : List AsmLine) {more : List AsmLine} (h : StartsBlock more)
    (blockDeepth : Nat) (isNewLine : Bool) :
    asmUnits blockDeepth isNewLine (lines ++ more) =
      asmUnits blockDeepth isNewLine lines ++ asmUnits 0 false more := by
  induction lines generalizing blockDeepth isNewLine with
  | nil => exact asmUnits_of_startsBlock h _ _
  | cons line lines ih => cases line with
    | block deepth => exact ih deepth true
    | ins invokeDeepth instruct data => exact congrArg (_ :: ·) (ih blockDeepth false)

def Code.isEmpty : Code → Bool
  | plain code => code.isEmpty
  | comprehension .. => false

/-- The code in front of more instructs of the same line. -/
theorem asmUnits_code (code : Code) (more : List AsmLine) (deepth : Nat) (isNewLine : Bool) :
    asmUnits deepth isNewLine (code.asm deepth ++ more) =
      asmUnits deepth isNewLine (code.asm deepth) ++
        asmUnits deepth (isNewLine && code.isEmpty) more := by
  cases code with
  | plain code =>
    rw [Code.asm, Code.isEmpty]
    induction code generalizing isNewLine with
    | nil => simp [asmUnits]
    | cons e code ih =>
      rw [List.map_cons, List.cons_append, ExprIns.line, asmUnits, asmUnits, ih]
      simp
  | comprehension append iter argIn left =>
    have hlist : StartsBlock (.block deepth :: insLine .REF ['$', 't', 'm', 'p'] ::
      (left.map (.ins 0 .OUT)).toList) := trivial
    have hmore : StartsBlock (.block deepth :: insLine .REF ['$', 't', 'm', 'p'] ::
      (left.map (.ins 0 .OUT)).toList ++ more) := trivial
    rw [Code.asm, List.append_assoc, asmUnits_append _ hlist, List.append_assoc,
      asmUnits_append (comprehensionAsm deepth append iter argIn) hmore]
    congr 1
    cases left <;> simp [asmUnits, insLine, Code.isEmpty]

theorem startsBlock_exitAsm (deepth blockDeepthNow : Nat) (blockType : BlockType) :
    StartsBlock (exitAsm deepth blockDeepthNow blockType) := by
  cases blockType <;> trivial

theorem startsBlock_exitBlocksAsm (blockDeepth : Nat) (exitBlock : List BlockType) :
    StartsBlock (exitBlocksAsm blockDeepth exitBlock) := by
  induction exitBlock with
  | nil => trivial
  | cons blockType exitBlock ih => exact (startsBlock_exitAsm _ _ _).append ih

theorem startsBlock_genAsmTop (ast : AST) : StartsBlock ast.genAsmTop :=
  (startsBlock_exitBlocksAsm _ _).append trivial

theorem Prog.startsBlock_asm (p : Prog) (deepth next : Nat) :
    StartsBlock (p.asm deepth next) := by
  cases p <;> trivial

theorem startsBlock_parseLines {stackSize : Nat} {stack : List BlockType} {lines : List PyLine}
    {texts : List (List AsmLine)} (h : parseLines stackSize stack lines = some texts) :
    ∀ text ∈ texts, StartsBlock text := by
  induction lines generalizing stack texts with
  | nil =>
    cases h
    exact fun _ h => absurd h List.not_mem_nil
  | cons line lines ih =>
    obtain ⟨⟨ast, stackNow⟩, -, h⟩ := Option.bind_eq_some_iff.mp h
    obtain ⟨rest, hrest, h⟩ := Option.bind_eq_some_iff.mp h
    cases h
    exact List.forall_mem_cons.mpr ⟨startsBlock_genAsmTop ast, ih hrest⟩

theorem textUnits_flatten {texts : List (List AsmLine)} (h : ∀ text ∈ texts, StartsBlock text) :
    textUnits texts = asmUnits 0 false texts.flatten ∧ StartsBlock texts.flatten := by
  induction texts with
  | nil => exact ⟨rfl, trivial⟩
  | cons text texts ih =>
    obtain ⟨htext, hrest⟩ := List.forall_mem_cons.mp h
    obtain ⟨hunits, hstarts⟩ := ih hrest
    refine ⟨?_, htext.append hstarts⟩
    rw [List.flatten_cons, asmUnits_append text hstarts, ← hunits]
    rfl

/-- **The units of a program** are those of its text. -/
theorem textUnits_lines {stackSize : Nat} {p : Prog} {texts : List (List AsmLine)}
    (h : lines2Target stackSize (p.lines 0) = some texts) :
    textUnits texts = asmUnits 0 false (p.asm 0 0 ++ [.block 0]) := by
  rw [(textUnits_flatten (startsBlock_parseLines h)).1, lines2Target_lines h]

/-! ### A place in a program -/

/-- A program with a hole: behind lines and blocks, in a block. -/
inductive Place where
  | hole
  | line (stmt : Stmt) (place : Place)
  | block (header : Header) (body : Prog) (place : Place)
  | inside (header : Header) (place : Place) (rest : Prog)
deriving DecidableEq, Repr

namespace Place

/-- The program with the hole filled. -/
def plug (p : Prog) : Place → Prog
  | hole => p
  | line stmt place => .line stmt (place.plug p)
  | block header body place => .block header body (place.plug p)
  | inside header place rest => .block header (place.plug p) rest

/-- The depth of the hole. -/
def deepth (base : Nat) : Place → Nat
  | hole => base
  | line _ place => place.deepth base
  | block _ _ place => place.deepth base
  | inside _ place _ => place.deepth (base + 1)

/-- The depth of the line behind the hole. -/
def next (base after : Nat) : Place → Nat
  | hole => after
  | line _ place => place.next base after
  | block _ _ place => place.next base after
  | inside _ place rest => place.next (base + 1) (rest.nextDeepth base after)

/-- The text in front of the hole. -/
def before (base : Nat) : Place → List AsmLine
  | hole => []
  | line stmt place => (Prog.line stmt .nil).asm base base ++ place.before base
  | block header body place => (Prog.block header body .nil).asm base base ++ place.before base
  | inside header place _ => .block base :: header.asm base ++ place.before (base + 1)

/-- The text behind the hole. -/
def behind (base after : Nat) : Place → List AsmLine
  | hole => []
  | line _ place => place.behind base after
  | block _ _ place => place.behind base after
  | inside header place rest =>
    place.behind (base + 1) (rest.nextDeepth base after) ++
      exitAsm base (rest.nextDeepth base after) header.blockType ++ rest.asm base after

theorem nextDeepth_plug (place : Place) {p : Prog} (hp : p ≠ .nil) (base after : Nat) :
    (place.plug p).nextDeepth base after = base := by
  cases place with
  | hole => cases p with
    | nil => exact absurd rfl hp
    | line stmt rest => rfl
    | block header body rest => rfl
  | line stmt place => rfl
  | block header body place => rfl
  | inside header place rest => rfl

/-- **The text of a program around a place.** -/
theorem asm_plug (place : Place) {p : Prog} (hp : p ≠ .nil) (base after : Nat) :
    (place.plug p).asm base after = place.before base ++
      p.asm (place.deepth base) (place.next base after) ++ place.behind base after := by
  induction place generalizing base after with
  | hole => exact (List.append_nil _).symm
  | line stmt place ih =>
    rw [plug, Prog.asm, ih]
    simp only [before, deepth, next, behind, Prog.asm, List.append_assoc, List.cons_append,
      List.nil_append]
  | block header body place ih =>
    rw [plug, Prog.asm, ih, nextDeepth_plug place hp]
    simp only [before, deepth, next, behind, Prog.asm, Prog.nextDeepth, List.append_assoc,
      List.cons_append, List.nil_append]
  | inside header place rest ih =>
    rw [plug, Prog.asm, ih]
    simp only [before, deepth, next, behind, List.append_assoc, List.cons_append]

end Place

end PikaScript
