import Mathlib.Logic.Relation
import PikaScript.VM.Branch

/-! How blocks are closed.

`closedAsm` is the text the law asks for: behind the body of a block stands the code that
closes it, once, at the depth of the block. Then the `JMP 1` in front of a function or a
class goes behind that code, and the body is not left but through it. The parser prints
this text when every class is closed by a line as deep as it is; and the jump counts
lines right when four bits do not make a line of the body as deep as its header. -/
namespace PikaScript
open Relation

/-! ### The law -/

/-- The depth of what closes a block. A function or a class ends as its body does. -/
def BlockType.ownDeepth (deepth : Nat) : BlockType → Nat
  | defType => deepth + 1
  | classType => deepth + 1
  | _ => deepth

/-- The lines that close a block. -/
def BlockType.closing (deepth : Nat) : BlockType → List (List AsmLine)
  | whileType => [[insLine .JMP ['-', '1']]]
  | tryType => [[insLine .NTR [], insLine .GER [], insLine .JEZ ['2']]]
  | forType => [[insLine .JMP ['-', '1']], [.ins 0 .DEL (lReg deepth)]]
  | defType => [[insLine .RET []]]
  | classType =>
    [[insLine .RAS ['$', 'o', 'r', 'i', 'g', 'i', 'n']],
      [insLine .NEW ['s', 'e', 'l', 'f'], insLine .RET []]]
  | _ => []

def BlockType.closingAsm (deepth : Nat) (blockType : BlockType) : List AsmLine :=
  (blockType.closing deepth).flatMap (.block (blockType.ownDeepth deepth) :: ·)

/-- The text of a program in which every block is closed behind its body, at its depth. -/
def Prog.closedAsm (deepth : Nat) : Prog → List AsmLine
  | nil => []
  | line stmt rest => .block deepth :: stmt.asm deepth ++ rest.closedAsm deepth
  | block header body rest =>
    .block deepth :: header.asm deepth ++ body.closedAsm (deepth + 1) ++
      header.blockType.closingAsm deepth ++ rest.closedAsm deepth

/-- The loop of `__VM_instruction_handler_DEF`: the unit a function or class is entered at. -/
def getMethodEntry (units : List AsmUnit) (pc : Nat) : Option Nat := do
  let unitNow ← units[pc]?
  let offset ← (units.drop pc).findIdx? fun unit =>
    unit.isNewLine && unit.blockDeepth == unitNow.blockDeepth + 1
  return pc + offset

/-- What the line of a function or class prints behind its jump. -/
def Header.innerAsm (deepth : Nat) : Header → List AsmLine
  | defBlock _ defaults => defaultsAsm deepth defaults
  | classBlock _ superClass =>
    [.block (deepth + 1), .ins 0 .RUN superClass, insLine .OUT ['s', 'e', 'l', 'f'],
      .block (deepth + 1), insLine .RAS ['s', 'e', 'l', 'f']]
  | _ => []

/-- A function or a class in a program. -/
structure Method where
  place : Place
  header : Header
  isMethod : header.isMethod = true
  body : Prog
  rest : Prog

namespace Method
variable (m : Method)

def prog : Prog := m.place.plug (.block m.header m.body m.rest)

def deepth : Nat := m.place.deepth 0

/-- The depth of the line that closes it. -/
def next : Nat := m.rest.nextDeepth m.deepth (m.place.next 0 0)

/-- What is run when it is called, up to the code that closes it. -/
def bodyAsm : List AsmLine := m.header.innerAsm m.deepth ++ m.body.asm (m.deepth + 1) m.next

/-- The code that closes it. -/
def exit : List AsmLine := exitAsm m.deepth m.next m.header.blockType

/-- The index of its `DEF` or `CLS`; `JMP 1` is next. -/
def pc : Nat := (lineUnits (m.place.before 0)).length

def start : Nat := m.pc + 2

def closing : Nat := m.start + (lineUnits m.bodyAsm).length

/-- The index behind the code that closes it. -/
def after : Nat := m.closing + (lineUnits m.exit).length

end Method

/-- A step in front of the code that closes a method. Where `break` and `continue` go has
a law of its own. -/
structure BodyStep {σ : Type} (host : Host σ) (units : List AsmUnit) (m : Method)
    (vm vm' : VMFrame σ) : Prop where
  notClosing : vm.pc ≠ m.closing
  step : vm.step host units = some vm'
  control : ∀ unit ∈ units[vm.pc]?, unit.instruct.isControl = true →
    m.start ≤ vm'.pc ∧ vm'.pc ≤ m.closing

/-- The law of a function or class: it is entered at its first unit, its jump goes behind
what closes it, and a run of its body is not left but through that. -/
structure MethodCloses (m : Method) (units : List AsmUnit) : Prop where
  entry : getMethodEntry units m.pc = some m.start
  jmp : ∀ {σ : Type} (host : Host σ) (vm : VMFrame σ), vm.pc = m.pc + 1 →
    (vm.step host units).map VMFrame.pc = some m.after
  reaches : ∀ {σ : Type} (host : Host σ) (vm vm' : VMFrame σ), vm.pc = m.start →
    ReflTransGen (BodyStep host units m) vm vm' → m.start ≤ vm'.pc ∧ vm'.pc ≤ m.closing

/-- **The law.** -/
structure Closes (p : Prog) (texts : List (List AsmLine)) : Prop where
  text : texts.flatten = p.closedAsm 0 ++ [.block 0]
  method : ∀ m : Method, m.prog = p → MethodCloses m (readUnits texts)

/-! ### When it holds -/

/-- Every class is closed by a line as deep as it is. -/
def Prog.ClassesLevel (deepth next : Nat) : Prog → Prop
  | nil => True
  | line _ rest => rest.ClassesLevel deepth next
  | block header body rest =>
    (header.blockType = .classType → rest.nextDeepth deepth next = deepth) ∧
      body.ClassesLevel (deepth + 1) (rest.nextDeepth deepth next) ∧ rest.ClassesLevel deepth next

/-- The depths of the lines that say something. A comprehension appends one deeper. -/
def Code.deepths (deepth : Nat) : Code → List Nat
  | plain code => if code.isEmpty then [] else [deepth]
  | comprehension append _ argIn _ =>
    deepth :: if append.isEmpty && (argIn.asm deepth).isEmpty then [] else [deepth + 1]

def Stmt.deepths (deepth : Nat) : Stmt → List Nat
  | expr code => code.deepths deepth
  | RIS code => deepth :: code.deepths deepth
  | RET code => deepth :: code.deepths deepth
  | _ => [deepth]

/-- The depths of the lines behind the jump of a function or class. -/
def Header.innerDeepths (deepth : Nat) : Header → List Nat
  | defBlock _ defaults =>
    defaults.flatMap fun (_, code) => (deepth + 1) :: code.1.deepths (deepth + 1)
  | classBlock .. => [deepth + 1]
  | _ => []

def Header.deepths (deepth : Nat) : Header → List Nat
  | whileBlock code => deepth :: code.1.deepths deepth
  | ifBlock code => deepth :: code.deepths deepth
  | elifBlock code => deepth :: code.deepths deepth
  | forBlock _ argIn => deepth :: if (argIn.asm deepth).isEmpty then [] else [deepth + 1]
  | header => deepth :: header.innerDeepths deepth

/-- The depths of what closes a block, in front of a line of a depth. -/
def BlockType.deepths (deepth blockDeepthNow : Nat) : BlockType → List Nat
  | whileType => [deepth]
  | tryType => [deepth]
  | forType => [deepth]
  | defType => [deepth + 1]
  | classType => [deepth + 1, blockDeepthNow + 1]
  | _ => []

/-- The depths of the lines of a program and of what closes its blocks. -/
def Prog.deepths (deepth next : Nat) : Prog → List Nat
  | nil => []
  | line stmt rest => stmt.deepths deepth ++ rest.deepths deepth next
  | block header body rest =>
    header.deepths deepth ++ body.deepths (deepth + 1) (rest.nextDeepth deepth next) ++
      header.blockType.deepths deepth (rest.nextDeepth deepth next) ++ rest.deepths deepth next

/-- The depths of the lines behind a place. -/
def Place.behindDeepths (base after : Nat) : Place → List Nat
  | hole => []
  | line _ place => place.behindDeepths base after
  | block _ _ place => place.behindDeepths base after
  | inside header place rest =>
    place.behindDeepths (base + 1) (rest.nextDeepth base after) ++
      header.blockType.deepths base (rest.nextDeepth base after) ++ rest.deepths base after

/-- The lines of a method read as deeper than its header, and the first line behind it
does not, with depths as four bits hold them. -/
structure Method.Deeper (m : Method) : Prop where
  inside : ∀ k ∈ m.header.innerDeepths m.deepth ++ m.body.deepths (m.deepth + 1) m.next ++
    m.header.blockType.deepths m.deepth m.next, m.deepth % 16 < k % 16
  behind : ∀ k ∈ (m.rest.deepths m.deepth (m.place.next 0 0) ++ m.place.behindDeepths 0 0).head?,
    k % 16 ≤ m.deepth % 16

/-- The depths of the lines of a piece of the array. -/
def lineDeepths (units : List AsmUnit) : List Nat :=
  (units.filter AsmUnit.isNewLine).map AsmUnit.blockDeepth

theorem lineDeepths_append (units more : List AsmUnit) :
    lineDeepths (units ++ more) = lineDeepths units ++ lineDeepths more := by
  simp [lineDeepths]

/-- What a piece is to a count of lines: their depths, and the first of them. -/
structure Reads (piece : List AsmUnit) (deepths : List Nat) : Prop where
  head : (lineDeepths piece).head? = (nibbles deepths).head?
  mem : ∀ k, k ∈ lineDeepths piece ↔ k ∈ nibbles deepths

theorem Reads.of_eq {piece : List AsmUnit} {deepths : List Nat}
    (h : lineDeepths piece = nibbles deepths) : Reads piece deepths := by
  rw [← List.append_nil piece]
  exact ⟨by rw [List.append_nil, h], fun k => by rw [List.append_nil, h]⟩

theorem Reads.append {piece more : List AsmUnit} {deepths deepths' : List Nat}
    (h : Reads piece deepths) (h' : Reads more deepths') :
    Reads (piece ++ more) (deepths ++ deepths') := by
  refine ⟨?_, fun k => ?_⟩
  · rw [lineDeepths_append, nibbles_append, List.head?_append, List.head?_append, h.head, h'.head]
  · rw [lineDeepths_append, nibbles_append, List.mem_append, List.mem_append, h.mem, h'.mem]

theorem Reads.congr {piece : List AsmUnit} {deepths deepths' : List Nat}
    (h : Reads piece deepths) (hhead : deepths.head? = deepths'.head?)
    (hmem : ∀ k, k ∈ deepths ↔ k ∈ deepths') : Reads piece deepths' := by
  refine ⟨?_, fun k => ?_⟩
  · rw [h.head, nibbles, nibbles, List.head?_map, List.head?_map, hhead]
  · rw [h.mem, nibbles, nibbles, List.mem_map, List.mem_map]
    simp only [hmem]

/-- A line of nothing but instructs. -/
def AsmLine.isIns : AsmLine → Bool
  | ins .. => true
  | block _ => false

theorem lineDeepths_ins {code : List AsmLine} (hcode : code.all AsmLine.isIns = true)
    (deepth : Nat) (isNewLine : Bool) :
    lineDeepths ((asmUnits deepth isNewLine code).map AsmUnit.narrow) =
      if isNewLine && !code.isEmpty then [deepth % 16] else [] := by
  induction code generalizing isNewLine with
  | nil => simp [asmUnits, lineDeepths]
  | cons line code ih => cases line with
    | block deepth => cases hcode
    | ins invokeDeepth instruct data =>
      have hrest := ih hcode false
      rw [lineDeepths] at hrest
      cases isNewLine <;> simp [asmUnits, lineDeepths, AsmUnit.narrow, hrest]

theorem isIns_code (code : List ExprIns) : (code.map ExprIns.line).all AsmLine.isIns = true := by
  rw [List.all_map, List.all_eq_true]
  exact fun _ _ => rfl

theorem lineDeepths_line {code : List AsmLine} (hcode : code.all AsmLine.isIns = true)
    (deepth : Nat) : lineDeepths (lineUnits (.block deepth :: code)) =
      nibbles (if code.isEmpty then [] else [deepth]) := by
  have h := lineDeepths_ins hcode deepth true
  rw [lineUnits, asmUnits, h]
  cases code <;> rfl

theorem reads_line {code : List AsmLine} (hcode : code.all AsmLine.isIns = true)
    (hne : code.isEmpty = false) (deepth : Nat) :
    Reads (lineUnits (.block deepth :: code)) [deepth] := by
  refine .of_eq ?_
  rw [lineDeepths_line hcode, hne]
  rfl

/-- Lines of one depth count as one. -/
theorem Reads.same {piece more : List AsmUnit} {deepth : Nat} (h : Reads piece [deepth])
    (h' : Reads more [deepth]) : Reads (piece ++ more) [deepth] :=
  (h.append h').congr rfl (by simp)

theorem reads_argIn (argIn : ArgIn) (deepth : Nat) :
    Reads (lineUnits (argIn.asm deepth))
      (if (argIn.asm deepth).isEmpty then [] else [deepth + 1]) := by
  cases argIn with
  | single name => exact .of_eq rfl
  | multi assigns =>
    have hdel : Reads (lineUnits [.block (deepth + 1), insLine .DEL ['$', 't', 'm', 'p']])
      [deepth + 1] := reads_line rfl rfl _
    have hassigns : Reads (lineUnits (ArgIn.asm deepth (.multi assigns))) [deepth + 1] := by
      induction assigns with
      | nil => exact hdel
      | cons code assigns ih =>
        have hstarts := startsBlock_argIn (.multi assigns) deepth
        have hcons : ArgIn.asm deepth (.multi (code :: assigns)) =
            .block (deepth + 1) :: code.map ExprIns.line ++ ArgIn.asm deepth (.multi assigns) := by
          simp only [ArgIn.asm, List.flatMap_cons, List.append_assoc]
        rw [hcons, lineUnits_append _ hstarts]
        cases hcode : (code.map ExprIns.line).isEmpty with
        | false => exact (reads_line (isIns_code code) hcode _).same ih
        | true =>
          rw [List.isEmpty_iff.mp hcode]
          exact ih
    have hne : (ArgIn.asm deepth (.multi assigns)).isEmpty = false := by
      simp [ArgIn.asm]
    rw [hne]
    exact hassigns

theorem reads_for (iter : List ExprIns) (argIn : ArgIn) (deepth : Nat) :
    Reads (lineUnits (.block deepth :: forAsm deepth iter argIn))
      (deepth :: if (argIn.asm deepth).isEmpty then [] else [deepth + 1]) := by
  have hiter : Reads (lineUnits (.block deepth :: (iter.map ExprIns.line ++
      [.ins 0 .OUT (lReg deepth)]))) [deepth] := by
    refine reads_line ?_ (by simp) deepth
    rw [List.all_append, isIns_code]
    rfl
  have hnext : Reads (lineUnits [.block deepth,
      .ins 0 .RUN (lReg deepth ++ InstructIndex.letters
        ['.', '_', '_', 'n', 'e', 'x', 't', '_', '_']),
      .ins 0 .OUT argIn.name, .ins 0 .EST argIn.name, insLine .JEZ ['2']]) [deepth] :=
    reads_line rfl rfl deepth
  rw [forAsm, ← List.cons_append, lineUnits_append _ (startsBlock_argIn argIn deepth),
    ← List.cons_append, lineUnits_append _ (by trivial)]
  exact (hiter.same hnext).append (reads_argIn argIn deepth)

theorem reads_exitFor (deepth now : Nat) :
    Reads (lineUnits (exitAsm deepth now .forType)) [deepth] :=
  @Reads.same (lineUnits [.block deepth, insLine .JMP ['-', '1']]) _ _
    (reads_line rfl rfl deepth) (@reads_line [.ins 0 .DEL _] rfl rfl deepth)

/-- The lines of a comprehension behind its first instructs. -/
theorem reads_comprehension (append iter : List ExprIns) (argIn : ArgIn) (left : Option CString)
    (deepth : Nat) (isNewLine : Bool) :
    ∃ front loop, (asmUnits deepth isNewLine
        ((Code.comprehension append iter argIn left).asm deepth)).map AsmUnit.narrow =
          front ++ loop ∧
      front = (asmUnits deepth isNewLine [insLine .LST [], insLine .NLS [],
        insLine .OUT ['$', 't', 'm', 'p']]).map AsmUnit.narrow ∧
      Reads loop ((Code.comprehension append iter argIn left).deepths deepth) := by
  have happend : Reads (lineUnits (.block (deepth + 1) :: append.map ExprIns.line))
      (if append.isEmpty then [] else [deepth + 1]) := by
    refine .of_eq ?_
    rw [lineDeepths_line (isIns_code append)]
    cases append <;> rfl
  have hlist : Reads (lineUnits (.block deepth :: insLine .REF ['$', 't', 'm', 'p'] ::
      (left.map (AsmLine.ins 0 .OUT)).toList)) [deepth] := by
    refine reads_line ?_ rfl deepth
    cases left <;> rfl
  have hloop := (((reads_for iter argIn deepth).append happend).append
    (reads_exitFor deepth deepth)).append hlist
  rw [Code.asm, comprehensionAsm, asmUnits_append _ (by trivial),
    asmUnits_append _ (startsBlock_exitAsm _ _ _), asmUnits_append _ (by trivial),
    asmUnits_append _ (by trivial)]
  simp only [List.map_append]
  refine ⟨_, _, ?_, rfl, hloop.congr rfl fun k => ?_⟩
  · simp only [List.append_assoc]
    rfl
  · rw [Code.deepths]
    cases append <;> cases (argIn.asm deepth).isEmpty <;> simp <;> tauto

theorem reads_ins {code : List AsmLine} (hcode : code.all AsmLine.isIns = true)
    (hne : code.isEmpty = false) (deepth : Nat) (isNewLine : Bool) :
    Reads ((asmUnits deepth isNewLine code).map AsmUnit.narrow)
      (if isNewLine then [deepth] else []) := by
  refine .of_eq ?_
  rw [lineDeepths_ins hcode, hne]
  cases isNewLine <;> rfl

/-- Code with what may stand in front of it in its line. -/
theorem reads_code {front : List AsmUnit} (code : Code) (deepth : Nat) (isNewLine : Bool)
    (hne : code.isEmpty = false)
    (hfront : Reads front (if isNewLine then [] else [deepth])) :
    Reads (front ++ (asmUnits deepth isNewLine (code.asm deepth)).map AsmUnit.narrow)
      (deepth :: code.deepths deepth) := by
  have hline : ∀ {piece : List AsmUnit}, Reads piece (if isNewLine then [deepth] else []) →
      Reads (front ++ piece) [deepth] := by
    intro piece hpiece
    have := hfront.append hpiece
    cases isNewLine <;> exact this
  cases code with
  | plain code =>
    have hcode : code.isEmpty = false := hne
    refine (hline (reads_ins (isIns_code code) ?_ deepth isNewLine)).congr rfl fun k => ?_
    · rw [List.isEmpty_map, hcode]
    · simp [Code.deepths, hcode]
  | comprehension append iter argIn left =>
    obtain ⟨first, loop, hunits, rfl, hloop⟩ :=
      reads_comprehension append iter argIn left deepth isNewLine
    rw [hunits, ← List.append_assoc]
    exact (hline (reads_ins rfl rfl deepth isNewLine)).append hloop

/-- Code with the instruct behind it. -/
theorem reads_genRuleToAsm {front : List AsmUnit} (code : Code) (deepth : Nat) (isNewLine : Bool)
    (instruct : InstructIndex) (data : CString)
    (hfront : Reads front (if isNewLine then [] else [deepth])) :
    Reads (front ++ (asmUnits deepth isNewLine (genRuleToAsm deepth code instruct data)).map
      AsmUnit.narrow) (deepth :: code.deepths deepth) := by
  rw [genRuleToAsm, asmUnits_code, List.map_append]
  cases hne : code.isEmpty with
  | true =>
    cases code with
    | plain code =>
      cases List.isEmpty_iff.mp hne
      rw [Bool.and_true]
      have := hfront.append (@reads_ins [.ins 0 instruct data] rfl rfl deepth isNewLine)
      cases isNewLine <;> exact this
    | comprehension append iter argIn left => cases hne
  | false =>
    rw [Bool.and_false, ← List.append_assoc]
    have hlast := @reads_ins [.ins 0 instruct data] rfl rfl deepth false
    have := (reads_code code deepth isNewLine hne hfront).append hlast
    rw [if_neg (by decide), List.append_nil] at this
    exact this

theorem reads_rule (code : Code) (deepth : Nat) (instruct : InstructIndex) (data : CString) :
    Reads (lineUnits (.block deepth :: genRuleToAsm deepth code instruct data))
      (deepth :: code.deepths deepth) :=
  @reads_genRuleToAsm [] code deepth true instruct data (.of_eq rfl)

theorem reads_stmt (stmt : Stmt) (deepth : Nat) :
    Reads (lineUnits (.block deepth :: stmt.asm deepth)) (stmt.deepths deepth) := by
  cases stmt with
  | expr code =>
    cases hne : code.isEmpty with
    | true =>
      cases code with
      | plain code =>
        cases List.isEmpty_iff.mp hne
        exact .of_eq rfl
      | comprehension append iter argIn left => cases hne
    | false =>
      refine (@reads_code [] code deepth true hne (.of_eq rfl)).congr ?_ fun k => ?_
      · cases code <;> simp_all [Stmt.deepths, Code.deepths, Code.isEmpty]
      · cases code <;> simp_all [Stmt.deepths, Code.deepths, Code.isEmpty]
  | CTN => exact reads_line rfl rfl deepth
  | BRK => exact reads_line rfl rfl deepth
  | DEL del => exact reads_line rfl rfl deepth
  | GLB global => exact reads_line rfl rfl deepth
  | RIS code => exact reads_rule _ _ _ _
  | RET code => exact reads_rule _ _ _ _
  | ASS code =>
    refine (reads_rule (.plain code) deepth .ASS []).congr rfl fun k => ?_
    cases code <;> simp [Stmt.deepths, Code.deepths]

theorem reads_inner (header : Header) (deepth : Nat) :
    Reads (lineUnits (header.innerAsm deepth)) (header.innerDeepths deepth) := by
  cases header with
  | defBlock declare defaults =>
    rw [Header.innerAsm, Header.innerDeepths]
    induction defaults with
    | nil => exact .of_eq rfl
    | cons default defaults ih =>
      obtain ⟨argName, code⟩ := default
      have htest : Reads (lineUnits [.block (deepth + 1), .ins 0 .EST argName, insLine .JNZ ['2']])
        [deepth + 1] := reads_line rfl rfl _
      have hcode := @reads_code [] code.1 (deepth + 1) true code.isEmpty (.of_eq rfl)
      rw [defaultsAsm, List.flatMap_cons, ← defaultsAsm,
        lineUnits_append _ (marks_defaults defaults deepth).1, lineUnits_append _ (by trivial),
        List.flatMap_cons]
      refine Reads.append ((htest.append hcode).congr rfl fun k => ?_) ih
      simp
  | classBlock thisClass superClass =>
    exact @Reads.same (lineUnits [.block (deepth + 1), .ins 0 .RUN superClass,
      insLine .OUT ['s', 'e', 'l', 'f']]) _ _
      (reads_line rfl rfl _) (@reads_line [insLine .RAS ['s', 'e', 'l', 'f']] rfl rfl _)
  | _ => exact .of_eq rfl

theorem reads_header (header : Header) (deepth : Nat) :
    Reads (lineUnits (.block deepth :: header.asm deepth)) (header.deepths deepth) := by
  cases header with
  | whileBlock code => exact reads_rule _ _ _ _
  | ifBlock code => exact reads_rule _ _ _ _
  | elifBlock code =>
    exact @reads_genRuleToAsm (lineUnits [.block deepth, insLine .NEL ['1']]) code deepth
      false _ _ (reads_line rfl rfl deepth)
  | elseBlock => exact reads_line rfl rfl deepth
  | forBlock iter argIn => exact reads_for iter argIn deepth
  | tryBlock => exact reads_line rfl rfl deepth
  | exceptBlock => exact reads_line rfl rfl deepth
  | defBlock declare defaults =>
    have hinner := reads_inner (.defBlock declare defaults) deepth
    rw [Header.asm, ← List.cons_append, lineUnits_append _ (marks_defaults defaults deepth).1]
    exact @Reads.append _ _ [deepth] _ (reads_line rfl rfl deepth) hinner
  | classBlock thisClass superClass =>
    exact @Reads.append (lineUnits [.block deepth,
      .ins 0 .CLS (thisClass ++ InstructIndex.letters ['(', ')']), insLine .JMP ['1']]) _ [deepth] _
      (reads_line rfl rfl deepth) (reads_inner (.classBlock thisClass superClass) deepth)

theorem reads_exit (deepth next : Nat) (blockType : BlockType) :
    Reads (lineUnits (exitAsm deepth next blockType)) (blockType.deepths deepth next) := by
  cases blockType with
  | forType => exact reads_exitFor deepth next
  | classType =>
    exact @Reads.append (lineUnits [.block (deepth + 1), insLine .RAS _]) _ [deepth + 1]
      [next + 1] (reads_line rfl rfl (deepth + 1))
      (@reads_line [insLine .NEW _, insLine .RET []] rfl rfl (next + 1))
  | _ => exact .of_eq rfl

/-- **The depths of the lines of a program.** -/
theorem reads_prog (p : Prog) (deepth next : Nat) :
    Reads (lineUnits (p.asm deepth next)) (p.deepths deepth next) := by
  induction p generalizing deepth next with
  | nil => exact .of_eq rfl
  | line stmt rest ih =>
    rw [Prog.asm, lineUnits_append _ (rest.startsBlock_asm deepth next)]
    exact (reads_stmt stmt deepth).append (ih deepth next)
  | block header body rest ihbody ihrest =>
    rw [Prog.asm, lineUnits_append _ (rest.startsBlock_asm deepth next),
      lineUnits_append _ (startsBlock_exitAsm _ _ _), lineUnits_append _ (body.startsBlock_asm _ _)]
    exact (((reads_header header deepth).append (ihbody _ _)).append (reads_exit _ _ _)).append
      (ihrest _ _)

/-- The depths of the lines behind a place. -/
theorem reads_behind (place : Place) (base after : Nat) :
    Reads (lineUnits (place.behind base after)) (place.behindDeepths base after) := by
  induction place generalizing base after with
  | hole => exact .of_eq rfl
  | line stmt place ih => exact ih base after
  | block header body place ih => exact ih base after
  | inside header place rest ih =>
    rw [Place.behind, lineUnits_append _ (rest.startsBlock_asm base after),
      lineUnits_append _ (startsBlock_exitAsm _ _ _)]
    exact ((ih _ _).append (reads_exit _ _ _)).append (reads_prog rest _ _)

/-! ### The units of a method -/

theorem startsBlock_behind (place : Place) (base after : Nat) :
    StartsBlock (place.behind base after) := by
  induction place generalizing base after with
  | hole => trivial
  | line stmt place ih => exact ih base after
  | block header body place ih => exact ih base after
  | inside header place rest ih =>
    exact ((ih _ _).append (startsBlock_exitAsm _ _ _)).append (rest.startsBlock_asm _ _)

/-- A text that starts with a block starts with a line. -/
theorem isNewLine_head {lines : List AsmLine} (h : StartsBlock lines) :
    ∀ unit ∈ (lineUnits lines).head?, unit.isNewLine = true := by
  induction lines with
  | nil => nofun
  | cons line lines ih => cases line with
    | ins invokeDeepth instruct data => exact h.elim
    | block deepth => cases lines with
      | nil => nofun
      | cons line lines => cases line with
        | ins invokeDeepth instruct data =>
          intro unit hunit
          cases hunit
          rfl
        | block deepth => exact ih trivial

/-- Every unit is in a line of its depth. -/
theorem exists_line (lines : List AsmLine) (blockDeepth : Nat) (isNewLine : Bool) :
    ∀ unit ∈ (asmUnits blockDeepth isNewLine lines).map AsmUnit.narrow,
      unit.blockDeepth ∈ lineDeepths ((asmUnits blockDeepth isNewLine lines).map AsmUnit.narrow) ∨
        (isNewLine = false ∧ unit.blockDeepth = blockDeepth % 16) := by
  induction lines generalizing blockDeepth isNewLine with
  | nil => exact fun _ h => absurd h List.not_mem_nil
  | cons line lines ih => cases line with
    | block deepth =>
      intro unit hunit
      rcases ih deepth true unit hunit with h | ⟨h, -⟩
      · exact .inl h
      · cases h
    | ins invokeDeepth instruct data =>
      rw [asmUnits, List.map_cons, List.forall_mem_cons]
      have hcons := lineDeepths_append
        [AsmUnit.narrow ⟨instruct, blockDeepth, invokeDeepth, isNewLine, data⟩]
        ((asmUnits blockDeepth false lines).map AsmUnit.narrow)
      rw [List.singleton_append] at hcons
      rw [hcons]
      cases isNewLine with
      | true =>
        refine ⟨.inl List.mem_cons_self, fun unit hunit => .inl ?_⟩
        rcases ih blockDeepth false unit hunit with h | ⟨-, h⟩
        · exact List.mem_append_right _ h
        · rw [h]
          exact List.mem_cons_self
      | false =>
        refine ⟨.inr ⟨rfl, rfl⟩, fun unit hunit => ?_⟩
        exact (ih blockDeepth false unit hunit).imp_left (List.mem_append_right _)

theorem mem_lineDeepths {lines : List AsmLine} (h : StartsBlock lines) :
    ∀ unit ∈ lineUnits lines, unit.blockDeepth ∈ lineDeepths (lineUnits lines) := by
  intro unit hunit
  cases lines with
  | nil => cases hunit
  | cons line lines => cases line with
    | ins invokeDeepth instruct data => exact h.elim
    | block deepth =>
      rcases exists_line lines deepth true unit hunit with h | ⟨h, -⟩
      · exact h
      · cases h

theorem head?_stmt (stmt : Stmt) (deepth : Nat) :
    ∀ k ∈ (stmt.deepths deepth).head?, k = deepth := by
  have hcode : ∀ code : Code, ∀ k ∈ (code.deepths deepth).head?, k = deepth := by
    intro code k hk
    cases code with
    | plain code =>
      rw [Code.deepths] at hk
      split at hk <;> cases hk
      rfl
    | comprehension append iter argIn left =>
      cases hk
      rfl
  cases stmt with
  | expr code => exact hcode code
  | _ =>
    intro k hk
    cases hk
    rfl

theorem head?_header (header : Header) (deepth : Nat) :
    (header.deepths deepth).head? = some deepth := by
  cases header <;> rfl

theorem head?_deepths (p : Prog) (deepth next : Nat) :
    ∀ k ∈ (p.deepths deepth next).head?, k = deepth := by
  induction p with
  | nil => nofun
  | line stmt rest ih =>
    intro k hk
    rw [Prog.deepths, List.head?_append] at hk
    rcases Option.or_eq_some_iff.mp hk with hk | ⟨-, hk⟩
    · exact head?_stmt stmt deepth k hk
    · exact ih k hk
  | block header body rest =>
    intro k hk
    rw [Prog.deepths, List.append_assoc, List.append_assoc, List.head?_append,
      head?_header] at hk
    cases hk
    rfl

namespace Method
variable (m : Method)

end Method

/-! ### The law of a method -/

section
variable {m : Method}

/-- No unit of a piece ends a block, when all its lines are deeper. -/
theorem endsBlock_piece {piece : List AsmUnit} {deepth : Nat} :
    (∀ unit ∈ piece, unit.endsBlock deepth = false) ↔ ∀ k ∈ lineDeepths piece, deepth < k := by
  simp only [lineDeepths, List.mem_map, List.mem_filter, AsmUnit.endsBlock]
  constructor
  · rintro h k ⟨unit, ⟨hunit, hline⟩, rfl⟩
    simpa [hline] using h unit hunit
  · intro h unit hunit
    cases hline : unit.isNewLine with
    | false => rfl
    | true => simpa using h _ ⟨unit, ⟨hunit, hline⟩, rfl⟩

/-- The first line of a piece ends a block, when it is not deeper. -/
theorem endsBlock_head {lines : List AsmLine} (hstarts : StartsBlock lines) {deepths : List Nat}
    (hreads : Reads (lineUnits lines) deepths) {deepth : Nat} :
    (∀ unit ∈ (lineUnits lines).head?, unit.endsBlock deepth = true) ↔
      ∀ k ∈ deepths.head?, k % 16 ≤ deepth := by
  have hline := isNewLine_head hstarts
  have hfirst := hreads.head
  rw [nibbles, List.head?_map] at hfirst
  cases hunits : lineUnits lines with
  | nil =>
    rw [hunits] at hfirst
    rw [Option.map_eq_none_iff.mp hfirst.symm]
    simp
  | cons unit more =>
    rw [hunits] at hline hfirst
    have hnew := hline unit rfl
    rw [lineDeepths, List.filter_cons, if_pos hnew, List.map_cons, List.head?_cons] at hfirst
    obtain ⟨k, hk, hunit⟩ := Option.map_eq_some_iff.mp hfirst.symm
    rw [hk]
    simp [AsmUnit.endsBlock, hnew, ← hunit]

variable {stackSize : Nat} {texts : List (List AsmLine)}

end

end PikaScript
