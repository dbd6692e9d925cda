import PikaScript.Parser.Expression

/-! Programs with their expressions as nodes, from `PikaParser.c`.

`parser_line2Ast` makes a node of the expressions in a line, and `AST_genAsm_top` prints
them. An `AstProg` is a program before that: with its nodes in the places of code. -/
namespace PikaScript

/-- The node of an expression. -/
abbrev Expression := { node : AstNode // node.IsExpression }

namespace Expression

def code (e : Expression) : List ExprIns := e.1.genAsm

theorem code_ne_nil (e : Expression) : e.code ≠ [] := by
  intro h
  obtain ⟨⟨⟨value, left⟩, subs⟩, hnode⟩ := e
  have hsome : value.isSome = true := hnode.isSome
  obtain ⟨value, rfl⟩ := Option.isSome_iff_exists.mp hsome
  rw [code, AstNode.genAsm, AstAttrs.genAsm, List.append_eq_nil_iff, List.append_eq_nil_iff] at h
  cases h.1.2

def exprCode (e : Expression) : ExprCode :=
  ⟨.plain e.code, fun h => e.code_ne_nil (Code.plain.inj h)⟩

/-- A node without sub statements that has no operands. -/
def ofValue (attr : AstAttr) (val : CString) (h : attr.Takes val 0) (left : Option CString) :
    Expression :=
  ⟨⟨⟨some (attr, val), left⟩, .nil⟩, rfl, ⟨h, fun h => absurd h Bool.false_ne_true⟩, trivial,
    trivial⟩

/-- The code of an expression that may be missing. -/
def codeOf : Option Expression → List ExprIns
  | none => []
  | some e => e.code

end Expression

/-- What is asserted, and a message for it: the sub statements of a node without a value. -/
structure Asserted where
  subs : AstQueue
  operands : subs.IsOperands false
  fits : subs.Fits 1
  count : subs.count = 1 ∨ subs.count = 2
deriving DecidableEq

/-- What a `for` loop gives its items to. -/
inductive AstArgIn where
  | single (name : CString)
  | multi (assigns : List Expression)
deriving DecidableEq

def AstArgIn.argIn : AstArgIn → ArgIn
  | single name => .single name
  | multi assigns => .multi (assigns.map Expression.code)

/-- An expression or none, or a list comprehension. -/
inductive AstCode where
  | plain (e : Option Expression)
  | comprehension (append iter : Expression) (argIn : AstArgIn) (left : Option CString)
deriving DecidableEq

def AstCode.code : AstCode → Code
  | plain e => .plain (Expression.codeOf e)
  | comprehension append iter argIn left =>
    .comprehension append.code iter.code argIn.argIn left

inductive AstStmt where
  | expr (code : AstCode)
  | CTN
  | BRK
  | DEL (del : CString)
  | GLB (global : CString)
  | RIS (code : AstCode)
  | ASS (asserted : Asserted)
  | RET (code : AstCode)
deriving DecidableEq

def AstStmt.stmt : AstStmt → Stmt
  | expr code => .expr code.code
  | CTN => .CTN
  | BRK => .BRK
  | DEL del => .DEL del
  | GLB global => .GLB global
  | RIS code => .RIS code.code
  | ASS asserted => .ASS (asserted.subs.genAsm 1)
  | RET code => .RET code.code

inductive AstHeader where
  | whileBlock (e : Expression)
  | ifBlock (code : AstCode)
  | elifBlock (code : AstCode)
  | elseBlock
  | forBlock (iter : Expression) (argIn : AstArgIn)
  | tryBlock
  | exceptBlock
  | defBlock (declare : CString) (defaults : List (CString × Expression))
  | classBlock (thisClass superClass : CString)
deriving DecidableEq

def AstHeader.header : AstHeader → Header
  | whileBlock e => .whileBlock e.exprCode
  | ifBlock code => .ifBlock code.code
  | elifBlock code => .elifBlock code.code
  | elseBlock => .elseBlock
  | forBlock iter argIn => .forBlock iter.code argIn.argIn
  | tryBlock => .tryBlock
  | exceptBlock => .exceptBlock
  | defBlock declare defaults =>
    .defBlock declare (defaults.map fun (argName, e) => (argName, e.exprCode))
  | classBlock thisClass superClass => .classBlock thisClass superClass

/-- A program with its nodes. -/
inductive AstProg where
  | nil
  | line (stmt : AstStmt) (rest : AstProg)
  | block (header : AstHeader) (body rest : AstProg)
deriving DecidableEq

/-- The program whose text is printed. -/
def AstProg.prog : AstProg → Prog
  | nil => .nil
  | line stmt rest => .line stmt.stmt rest.prog
  | block header body rest => .block header.header body.prog rest.prog

end PikaScript
