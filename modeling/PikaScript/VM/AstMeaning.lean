import PikaScript.Lib.DataRefinement
import PikaScript.Parser.AstProgram
import PikaScript.VM.Evaluation

/-! What a program means, by its nodes.

Here an expression is its tree, and the state is what is in the scopes: there is no stack, no
list register and no line. An expression comes to a value, which a statement does something
with, or to an error. Where an operand is missing, since a call in its place returned
nothing, the meaning does not say what happens (`Exit.stop none`). -/
namespace PikaScript
open Commands

/-- A command on the scopes. -/
abbrev AstCmd (σ : Type) := Cmd (Level σ) (Option Stop)

section
variable {α V σ : Type}

/-- What is evaluated, and what is done with the values. -/
def evaluates (f : σ → Evaluated α σ) (k : α → Level σ → Exit (Option Stop) × Level σ) :
    AstCmd σ :=
  act fun s =>
    match f s.2 with
    | .value a scope => k a (s.1, scope)
    | .failed errorCode scope => (.stop (some (.failed errorCode)), s.1, scope)
    | .missing => (.stop none, s)

def goOn (_ : α) (s : Level σ) : Exit (Option Stop) × Level σ := (.next, s)

def ifLastFailed (c d : AstCmd σ) : AstCmd σ := cond (fun s => s.1 == some true) c d

def forgetLast : AstCmd σ := act fun s => (.next, none, s.2)

/-- A round of a loop. -/
def inRound (body : AstCmd σ) : AstCmd σ :=
  andThen (inner none body) fun
    | .cont => exit .next
    | o => exit o

variable (handlers : Handlers V σ)

namespace Handlers

/-- The test of a condition fails, or not. -/
def testValue (vs : List V) (s : Level σ) : Exit (Option Stop) × Level σ :=
  (.next, some !vs.head?.any handlers.transeBool, s.2)

def returnValue (vs : List V) (s : Level σ) : Exit (Option Stop) × Level σ :=
  (.stop (some .returned), s.1, handlers.returnArg vs.head? s.2)

/-- An instruct behind the code of a line, with the values that are there, the last one
first. -/
def evalIns (instruct : InstructIndex) (data : CString) (num : Nat) (vs : List V) (scope : σ) :
    Evaluated (List V) σ :=
  (Evaluated.ofHandler (handlers.apply false instruct data (vs.take num).reverse scope)).bind
    fun res scope => .value (res.toList ++ vs.drop num) scope

/-- The value of an expression, when there is one. -/
def evalNode (node : AstNode) (scope : σ) : Evaluated (List V) σ :=
  (node.eval handlers scope).bind fun res scope => .value res.toList scope

def evalCode : Option Expression → σ → Evaluated (List V) σ
  | none, scope => .value [] scope
  | some e, scope => handlers.evalNode e.1 scope

end Handlers

/-- The names a `for` loop gives its item to. -/
def AstArgIn.eval : AstArgIn → σ → Evaluated (List V) σ
  | single _, scope => .value [] scope
  | multi assigns, scope =>
    (assigns.foldr
      (fun e rest scope => (handlers.evalNode e.1 scope).bind fun _ scope => rest scope)
      (handlers.evalIns .DEL (InstructIndex.letters ['$', 't', 'm', 'p']) 0 [])) scope

theorem next_takes (deepth : Nat) : AstAttr.method.Takes (lReg deepth ++
    InstructIndex.letters ['.', '_', '_', 'n', 'e', 'x', 't', '_', '_']) 0 := by
  intro h
  cases congrArg List.length h

/-- The next item of a loop, given to a name. -/
def nextItem (deepth : Nat) (argIn : AstArgIn) : Expression :=
  .ofValue .method
    (lReg deepth ++ InstructIndex.letters ['.', '_', '_', 'n', 'e', 'x', 't', '_', '_'])
    (next_takes deepth) (some argIn.argIn.name)

/-- A `for` loop. -/
def astForMeaning (deepth : Nat) (iter : Expression) (argIn : AstArgIn) (body : AstCmd σ) :
    AstCmd σ :=
  seq (evaluates (fun scope => (handlers.evalNode iter.1 scope).bind
      (handlers.evalIns .OUT (lReg deepth) 1)) goOn)
    (seq
      (loop (seq
        (evaluates (fun scope => (handlers.evalNode (nextItem deepth argIn).1 scope).bind
          (handlers.evalIns .EST argIn.argIn.name 0)) handlers.testValue)
        (ifLastFailed (exit .brk)
          (inRound (seq (evaluates (argIn.eval handlers) goOn) body)))))
      (evaluates (handlers.evalIns .DEL (lReg deepth) 0 []) goOn))

/-- An empty list, and the name of it. -/
def emptyList : Expression :=
  .ofValue .list [] trivial (some (InstructIndex.letters ['$', 't', 'm', 'p']))

theorem tmp_takes : AstAttr.ref.Takes (InstructIndex.letters ['$', 't', 'm', 'p']) 0 := rfl

def listBuilt (left : Option CString) : Expression :=
  .ofValue .ref (InstructIndex.letters ['$', 't', 'm', 'p']) tmp_takes left

/-- An expression, and what is done with its value: by an instruct behind it, and then. -/
def AstCode.meaning (deepth : Nat) (last : List V → σ → Evaluated (List V) σ)
    (k : List V → Level σ → Exit (Option Stop) × Level σ) : AstCode → AstCmd σ
  | plain e => evaluates (fun scope => (handlers.evalCode e scope).bind last) k
  | comprehension append iter argIn left =>
    seq (evaluates (handlers.evalNode emptyList.1) goOn)
      (seq (astForMeaning handlers deepth iter argIn (evaluates (handlers.evalNode append.1) goOn))
        (evaluates (fun scope => (handlers.evalNode (listBuilt left).1 scope).bind last) k))

def AstStmt.meaning (deepth : Nat) : AstStmt → AstCmd σ
  | expr code => code.meaning handlers deepth .value goOn
  | CTN => exit .cont
  | BRK => exit .brk
  | DEL del => evaluates (handlers.evalIns .DEL del 0 []) goOn
  | GLB global => evaluates (handlers.evalIns .GLB global 0 []) goOn
  | RIS code => code.meaning handlers deepth (handlers.evalIns .RIS [] 1) goOn
  | ASS asserted =>
    evaluates (fun scope => (asserted.subs.eval handlers scope).bind fun vs =>
      handlers.evalIns .ASS [] vs.length vs.reverse) goOn
  | RET code => code.meaning handlers deepth .value handlers.returnValue

/-- A block at an index of the array, where functions are, with the meaning of its body. -/
def AstHeader.meaning (units : List AsmUnit) (deepth pos : Nat) (body : AstCmd σ) :
    AstHeader → AstCmd σ
  | whileBlock e =>
    loop (seq ((AstCode.plain e).meaning handlers deepth .value handlers.testValue)
      (ifLastFailed (exit .brk) (inRound body)))
  | ifBlock code =>
    seq (code.meaning handlers deepth .value handlers.testValue)
      (ifLastFailed (exit .next) (inner none body))
  | elifBlock code =>
    ifLastFailed
      (seq (code.meaning handlers deepth .value handlers.testValue)
        (ifLastFailed (exit .next) (inner none body)))
      (exit .next)
  | elseBlock => ifLastFailed (inner none body) (exit .next)
  | forBlock iter argIn => astForMeaning handlers deepth iter argIn body
  | tryBlock =>
    andThen (inner none body) fun
      | .next => act fun s => (.next, some true, s.2)
      | .stop (some (.failed _)) => act fun s => (.next, some false, s.2)
      | o => exit o
  | exceptBlock => ifLastFailed (exit .next) (inner none body)
  | defBlock .. => evaluates (fun scope => .ofHandler (handlers.find units pos [] scope)) goOn
  | classBlock .. => evaluates (fun scope => .ofHandler (handlers.find units pos [] scope)) goOn

/-- **The meaning of a program** by its nodes. -/
def AstProg.meaning (units : List AsmUnit) (deepth next pos : Nat) : AstProg → AstCmd σ
  | nil => exit .next
  | line stmt rest =>
    seq (stmt.meaning handlers deepth)
      (seq forgetLast (rest.meaning units deepth next
        (pos + (lineUnits (.block deepth :: stmt.stmt.asm deepth)).length)))
  | block header body rest =>
    let nextNow := rest.prog.nextDeepth deepth next
    seq (header.meaning handlers units deepth pos (body.meaning units (deepth + 1) nextNow
        (pos + (lineUnits (.block deepth :: header.header.asm deepth)).length)))
      (seq (if header.header.isMethod then forgetLast else exit .next)
        (rest.meaning units deepth next (pos + (lineUnits
          ((Prog.block header.header body.prog .nil).asm deepth nextNow)).length)))

end

/-! ### Lists that are displayed in a `try` -/

/-- An error in the node leaves no list behind that is being displayed. -/
def AstNode.Clean (node : AstNode) : Prop := node.noList = true ∨ node.subs = .nil

def AstArgIn.Clean : AstArgIn → Prop
  | single _ => True
  | multi assigns => ∀ e ∈ assigns, e.1.Clean

def AstCode.Clean : AstCode → Prop
  | plain e => ∀ e' ∈ e, e'.1.Clean
  | comprehension append iter argIn _ => append.1.Clean ∧ iter.1.Clean ∧ argIn.Clean

def AstStmt.Clean : AstStmt → Prop
  | expr code => code.Clean
  | RIS code => code.Clean
  | ASS asserted => asserted.subs.noList = true
  | RET code => code.Clean
  | _ => True

def AstHeader.Clean : AstHeader → Prop
  | whileBlock e => e.1.Clean
  | ifBlock code => code.Clean
  | elifBlock code => code.Clean
  | forBlock iter argIn => iter.1.Clean ∧ argIn.Clean
  | _ => True

/-- **The lists in a `try` body are empty**: an error in one with items would leave it in its
register. -/
def AstProg.Clean (inTry : Bool) : AstProg → Prop
  | nil => True
  | line stmt rest => (inTry = true → stmt.Clean) ∧ rest.Clean inTry
  | block header body rest =>
    (inTry = true → header.Clean) ∧
      (header.header.isMethod = true ∨
        body.Clean (inTry || header.header.blockType = .tryType)) ∧
      rest.Clean inTry

end PikaScript
