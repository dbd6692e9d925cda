import PikaScript.VM.RunFrame

/-! What a program means.

The meaning of a program follows its blocks: `if` runs a body or not, a loop runs its body
again and again, `try` goes to its `except` with an error. There is no jump in it, no depth
that is counted and no register; what a block leaves behind for an `elif`, an `else` or an
`except` is a truth value (`Level`), and lines of code are run for what they do to the data.
Of the array it knows where functions are, as they are pointers to their bodies.
`Prog.Runs` is what a program must be for the machine to do the same. -/
namespace PikaScript
open Commands

/-! ### The meaning -/

/-- The data, and whether the last test in this block failed, when there was one. -/
abbrev Level (σ : Type) := Option Bool × σ

section
variable {σ : Type} (host : VMHost σ)

/-- The instructs of a piece that is run for itself, from one of them on. -/
def VMHost.execFrom (piece : List AsmUnit) : Nat → List AsmUnit → σ → σ × Nat
  | _, [], data => (data, 0)
  | i, unit :: rest, data =>
    let (data, errorCode) :=
      host.run piece i (if unit.isNewLine then host.newLine data else data)
    if errorCode = 0 then execFrom piece (i + 1) rest data else (data, errorCode)

/-- The instructs of a piece, up to the first error. -/
def VMHost.exec (piece : List AsmUnit) (data : σ) : σ × Nat := host.execFrom piece 0 piece data

def acts (piece : List AsmUnit) : Cmd (Level σ) Stop :=
  act fun s =>
    let (data, errorCode) := host.exec piece s.2
    if errorCode = 0 then (.next, s.1, data) else (.stop (.failed errorCode), s.1, data)

/-- The instructs of the array from an index on, where they stand. -/
def VMHost.execAt (units : List AsmUnit) : Nat → Nat → σ → σ × Nat
  | _, 0, data => (data, 0)
  | pos, n + 1, data =>
    match units[pos]? with
    | none => (data, 0)
    | some unit =>
      let (data, errorCode) :=
        host.run units pos (if unit.isNewLine then host.newLine data else data)
      if errorCode = 0 then execAt units (pos + 1) n data else (data, errorCode)

/-- Instructs that look at the array: of a line that defines a function or a class. -/
def actsAt (units : List AsmUnit) (pos n : Nat) : Cmd (Level σ) Stop :=
  act fun s =>
    let (data, errorCode) := host.execAt units pos n s.2
    if errorCode = 0 then (.next, s.1, data) else (.stop (.failed errorCode), s.1, data)

/-- The start of a line. -/
def startLine : Cmd (Level σ) Stop := act fun s => (.next, s.1, host.newLine s.2)

/-- The value of a condition. -/
def test (isNewLine : Bool) : Cmd (Level σ) Stop :=
  act fun s =>
    let (bAssert, data) := host.popBool (if isNewLine then host.newLine s.2 else s.2)
    (.next, some !bAssert, data)

/-- By how the last test ended. -/
def ifFailed (c d : Cmd (Level σ) Stop) : Cmd (Level σ) Stop := cond (fun s => s.1 == some true) c d

def forget : Cmd (Level σ) Stop := act fun s => (.next, none, s.2)

/-- A round of a loop: its body, and the line that closes it. -/
def inLoop (body : Cmd (Level σ) Stop) : Cmd (Level σ) Stop :=
  andThen (inner none body) fun
    | .next => startLine host
    | .cont => startLine host
    | o => exit o

/-- The units of instructs in a line. -/
def lineCode (deepth : Nat) (isNewLine : Bool) (lines : List AsmLine) : List AsmUnit :=
  (asmUnits deepth isNewLine lines).map AsmUnit.narrow

/-- A `for` loop, up to the line behind it. -/
def forMeaning (deepth : Nat) (iter : List ExprIns) (argIn : ArgIn) (body : Cmd (Level σ) Stop) :
    Cmd (Level σ) Stop :=
  seq (acts host (lineCode deepth true (iter.map ExprIns.line ++ [.ins 0 .OUT (lReg deepth)])))
    (seq
      (loop (seq
        (acts host (lineCode deepth true
          [.ins 0 .RUN (lReg deepth ++
              InstructIndex.letters ['.', '_', '_', 'n', 'e', 'x', 't', '_', '_']),
            .ins 0 .OUT argIn.name, .ins 0 .EST argIn.name]))
        (seq (test host false)
          (ifFailed (exit .brk)
            (inLoop host (seq (acts host (lineUnits (argIn.asm deepth))) body))))))
      (acts host (lineCode deepth true [.ins 0 .DEL (lReg deepth)])))

/-- The code of a statement, with the instructs behind it in its line. -/
def Code.meaning (deepth : Nat) (isNewLine : Bool) (tail : List AsmLine) :
    Code → Cmd (Level σ) Stop
  | plain code => acts host (lineCode deepth isNewLine (code.map ExprIns.line ++ tail))
  | comprehension append iter argIn left =>
    seq
      (acts host (lineCode deepth isNewLine
        [insLine .LST [], insLine .NLS [], insLine .OUT ['$', 't', 'm', 'p']]))
      (seq
        (forMeaning host deepth iter argIn
          (acts host (lineCode (deepth + 1) true (append.map ExprIns.line))))
        (acts host (lineCode deepth true
          (insLine .REF ['$', 't', 'm', 'p'] :: (left.map (.ins 0 .OUT)).toList ++ tail))))

def Stmt.meaning (deepth : Nat) : Stmt → Cmd (Level σ) Stop
  | expr code => code.meaning host deepth true []
  | CTN => seq (startLine host) (exit .cont)
  | BRK => seq (startLine host) (exit .brk)
  | DEL del => acts host (lineCode deepth true [.ins 0 .DEL del])
  | GLB global => acts host (lineCode deepth true [.ins 0 .GLB global])
  | RIS code => code.meaning host deepth true [.ins 0 .RIS []]
  | ASS code => (Code.plain code).meaning host deepth true [.ins 0 .ASS []]
  | RET code =>
    seq (code.meaning host deepth true []) (act fun s =>
      (.stop .returned, s.1, host.ret (if code.isEmpty then host.newLine s.2 else s.2)))

/-- A block at an index of the array, with the meaning of its body. -/
def Header.meaning (units : List AsmUnit) (deepth pos : Nat) (body : Cmd (Level σ) Stop) :
    Header → Cmd (Level σ) Stop
  | whileBlock code =>
    loop (seq (code.1.meaning host deepth true [])
      (seq (test host code.1.isEmpty) (ifFailed (exit .brk) (inLoop host body))))
  | ifBlock code =>
    seq (code.meaning host deepth true [])
      (seq (test host code.isEmpty) (ifFailed (exit .next) (inner none body)))
  | elifBlock code =>
    seq (startLine host)
      (ifFailed
        (seq (code.meaning host deepth false [])
          (seq (test host false) (ifFailed (exit .next) (inner none body))))
        (exit .next))
  | elseBlock => seq (startLine host) (ifFailed (inner none body) (exit .next))
  | forBlock iter argIn => forMeaning host deepth iter argIn body
  | tryBlock =>
    seq (startLine host)
      (andThen (inner none body) fun
        | .next => act fun s => (.next, some true, host.newLine s.2)
        | .stop (.failed _) => act fun s => (.next, some false, host.newLine s.2)
        | o => exit o)
  | exceptBlock => ifFailed (exit .next) (seq (startLine host) (inner none body))
  | defBlock .. => actsAt host units pos 1
  | classBlock .. => actsAt host units pos 1

/-- **The meaning of a program** whose text is at an index of the array, in front of a line
of a depth. -/
def Prog.meaning (units : List AsmUnit) (deepth next pos : Nat) : Prog → Cmd (Level σ) Stop
  | nil => exit .next
  | line stmt rest =>
    seq (stmt.meaning host deepth)
      (seq forget (rest.meaning units deepth next
        (pos + (lineUnits (.block deepth :: stmt.asm deepth)).length)))
  | block header body rest =>
    let nextNow := rest.nextDeepth deepth next
    seq (header.meaning host units deepth pos (body.meaning units (deepth + 1) nextNow
        (pos + (lineUnits (.block deepth :: header.asm deepth)).length)))
      (seq (if header.isMethod then forget else exit .next) (rest.meaning units deepth next
        (pos + (lineUnits ((Prog.block header body .nil).asm deepth nextNow)).length)))

end

/-! ### Programs the machine runs -/

/-- What the block in front of a line leaves behind. -/
inductive Last where
  | plain
  | tested
  | tried
deriving DecidableEq, Repr

def Header.last : Header → Last
  | tryBlock => .tried
  | defBlock .. => .plain
  | classBlock .. => .plain
  | _ => .tested

/-- What a block stands behind: `elif` and `else` behind a test, `except` behind its `try`. -/
def Header.Follows (last : Last) : Header → Prop
  | elifBlock _ => last = .tested
  | elseBlock => last = .tested
  | exceptBlock => last = .tried
  | _ => last ≠ .tried

/-- The innermost loop around a line, by the loops that ended in its body so far, and
whether there is a `try` around the line, and one in the loop. -/
structure Around where
  loop : Option (List Nat)
  inTry : Bool
  held : Bool
deriving DecidableEq, Repr

namespace Around

def top : Around := ⟨none, false, false⟩

/-- Behind loops that ended. -/
def ended (around : Around) (loops : List Nat) : Around :=
  { around with loop := around.loop.map (· ++ loops) }

def enter (around : Around) (deepth : Nat) (header : Header) : Around :=
  if header.isLoop then ⟨some [], around.inTry, false⟩
  else if header.isMethod then .top
  else if header = .tryBlock then ⟨around.loop, true, true⟩
  else around.ended (header.codeLoops deepth)

end Around

/-- A line of code ends with an instruct of invoke depth zero. -/
def Code.Ends : Code → Prop
  | plain code => ∀ e ∈ code.getLast?, e.invokeDeepth % 16 = 0
  | comprehension .. => True

/-- Code that does not call `super`, which looks for its class in the array. -/
def NoSuper (code : List ExprIns) : Prop := ∀ e ∈ code, e.instruct.isCalm e.data = true

/-- The code of the names a loop gives its items to. -/
def ArgIn.code : ArgIn → List ExprIns
  | single _ => []
  | multi assigns => assigns.flatten

/-- A comprehension has a test. -/
def Code.Runs (deepth : Nat) : Code → Prop
  | plain code => NoSuper code
  | comprehension append iter argIn _ =>
    deepth < registSize ∧ NoSuper append ∧ NoSuper iter ∧ NoSuper argIn.code

/-- A `break` is in a loop, and no loop has ended in the body of that which is less deep
than the `break`; it does not leave a `try`, and neither does a `return`. -/
def Stmt.Runs (deepth : Nat) (around : Around) : Stmt → Prop
  | expr code => code.Ends ∧ code.Runs deepth
  | CTN => ∃ loops, around.loop = some loops ∧ around.held = false ∧ ∀ f ∈ loops, deepth ≤ f
  | BRK => ∃ loops, around.loop = some loops ∧ around.held = false ∧ ∀ f ∈ loops, deepth ≤ f
  | RIS code => code.Runs deepth
  | ASS code => NoSuper code
  | RET code => around.inTry = false ∧ code.Runs deepth
  | _ => True

/-- The conditions of loops and `elif`s are in one line, a `try` is in no other, and a
function or class is in none. -/
def Header.Runs (deepth : Nat) (around : Around) : Header → Prop
  | whileBlock code => code.1.isComprehension = false ∧ code.1.Runs deepth
  | ifBlock code => code.Runs deepth
  | elifBlock code => code.isComprehension = false ∧ code.Runs deepth
  | forBlock iter argIn => NoSuper iter ∧ NoSuper argIn.code
  | tryBlock => around.inTry = false
  | defBlock .. => around.inTry = false
  | classBlock .. => around.inTry = false
  | _ => True

/-- **What a program must be**, behind a block. The body of a function is a program of its
own. -/
def Prog.Runs (deepth : Nat) (around : Around) : Last → Prog → Prop
  | last, nil => last ≠ .tried
  | last, line stmt rest =>
    last ≠ .tried ∧ stmt.Runs deepth around ∧
      rest.Runs deepth (around.ended (stmt.loops deepth)) .plain
  | last, block header body rest =>
    header.Follows last ∧ header.Runs deepth around ∧
      (header.isMethod = true ∨ body.Runs (deepth + 1) (around.enter deepth header) .plain) ∧
      rest.Runs deepth (around.ended ((Prog.block header body .nil).loops deepth)) header.last

/-- No block is ten deep. -/
def Prog.Low (deepth : Nat) : Prog → Prop
  | nil => True
  | line _ rest => rest.Low deepth
  | block _ body rest => deepth < registSize ∧ body.Low (deepth + 1) ∧ rest.Low deepth

end PikaScript
