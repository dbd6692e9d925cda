import PikaScript.Parser.Block

/-! Expressions to assembler text, from `PikaParser.c`.

`AST_parseStmt` makes a node of a statement and gives it a queue of sub statements; what it
says of itself are attributes, one for each kind of node. `AST_genAsm` prints a node behind
its sub statements, which are one invoke depth deeper. -/
namespace PikaScript

/-- The attributes of a node with a rule in `rules_after`, but for `left`. -/
inductive AstAttr where
  | method | operator | bytes | num | imp | inhert | ref | string | slice | dict | tuple | list
deriving DecidableEq, Repr

namespace AstAttr

/-- The instruct of a rule. -/
def ins : AstAttr → InstructIndex
  | method => .RUN
  | operator => .OPT
  | bytes => .BYT
  | num => .NUM
  | imp => .IMP
  | inhert => .INH
  | ref => .REF
  | string => .STR
  | slice => .SLC
  | dict => .DCT
  | tuple => .TPL
  | list => .NLS

/-- `VAL_DYNAMIC`: the value of the attribute is printed. -/
def isDynamic : AstAttr → Bool
  | slice | dict | tuple | list => false
  | _ => true

/-- What is printed of a value. -/
def data (attr : AstAttr) (val : CString) : CString := if attr.isDynamic then val else []

theorem ins_mem (attr : AstAttr) : attr.ins ∈ exprInstructs := by
  cases attr <;> decide

end AstAttr

/-- What `AST_parseStmt` says of a node: one attribute at most, and the name it is given to. -/
structure AstAttrs where
  value : Option (AstAttr × CString)
  left : Option CString
deriving DecidableEq, Repr

namespace AstAttrs

/-- The node of an empty statement. -/
def empty : AstAttrs := ⟨none, none⟩

def isList (self : AstAttrs) : Bool := self.value.any (·.1 = .list)

theorem lst_mem : InstructIndex.LST ∈ exprInstructs := by decide

theorem out_mem : InstructIndex.OUT ∈ exprInstructs := by decide

/-- What is printed in front of the sub statements. -/
def lstAsm (self : AstAttrs) (deepth : Nat) : List ExprIns :=
  if self.isList then [⟨deepth, .LST, [], lst_mem⟩] else []

/-- The rule of the value. -/
def valueAsm (self : AstAttrs) (deepth : Nat) : List ExprIns :=
  self.value.toList.map fun (attr, val) =>
    ⟨deepth, attr.ins, attr.data val, attr.ins_mem⟩

/-- The rule of `left`. -/
def leftAsm (self : AstAttrs) (deepth : Nat) : List ExprIns :=
  self.left.toList.map fun name => ⟨deepth, .OUT, name, out_mem⟩

/-- A node with the code of its sub statements. -/
def genAsm (self : AstAttrs) (deepth : Nat) (subAsm : List ExprIns) : List ExprIns :=
  self.lstAsm deepth ++ subAsm ++ self.valueAsm deepth ++ self.leftAsm deepth

end AstAttrs

/-- The queue of the sub statements of a node: each with its attributes and its own queue. -/
inductive AstQueue where
  | nil
  | push (attrs : AstAttrs) (subs rest : AstQueue)
deriving DecidableEq, Repr

/-- `AST_genAsm`, for what a node is given by `queueObj_popObj`. -/
def AstQueue.genAsm (deepth : Nat) : AstQueue → List ExprIns
  | nil => []
  | push attrs subs rest =>
    attrs.genAsm deepth (subs.genAsm (deepth + 1)) ++ rest.genAsm deepth

/-- The node of a statement, without a comprehension. -/
structure AstNode where
  attrs : AstAttrs
  subs : AstQueue
deriving DecidableEq, Repr

/-- `AST_genAsm`. The invoke depth of a line starts at zero. -/
def AstNode.genAsm (self : AstNode) : List ExprIns := self.attrs.genAsm 0 (self.subs.genAsm 1)

def AstNode.code (self : AstNode) : Code := .plain self.genAsm

/-! ### Nodes of expressions -/

/-- The number of operands, without those of empty statements. -/
def AstQueue.count : AstQueue → Nat
  | nil => 0
  | push attrs _ rest => (if attrs.value.isSome then 1 else 0) + rest.count

/-- How many operands a node has. Behind a `.` a name is that of a member of its operand. -/
def AstAttr.Takes (val : CString) (n : Nat) : AstAttr → Prop
  | method => val ≠ InstructIndex.letters ['s', 'u', 'p', 'e', 'r']
  | operator => n = 1 ∨ n = 2
  | slice => n = 2 ∨ n = 3
  | ref => n = if val.head? = some 0x2E then 1 else 0
  | dict | tuple | list => True
  | _ => n = 0

/-- An operand, or an empty statement. The items of a list have no names. -/
def AstAttrs.IsOperand (self : AstAttrs) (inList : Bool) (count : Nat) (subs : AstQueue) : Prop :=
  match self.value with
  | none => self.left = none ∧ subs = .nil
  | some (attr, val) => attr.Takes val count ∧ (inList = true → self.left = none)

/-- **What an expression looks like**: every node has its operands. -/
def AstQueue.IsOperands (inList : Bool) : AstQueue → Prop
  | nil => True
  | push attrs subs rest =>
    attrs.IsOperand inList subs.count subs ∧ subs.IsOperands attrs.isList ∧ rest.IsOperands inList

/-- Down to a depth that fits in four bits. -/
def AstQueue.Fits (deepth : Nat) : AstQueue → Prop
  | nil => True
  | push _ subs rest => deepth < 16 ∧ subs.Fits (deepth + 1) ∧ rest.Fits deepth

/-- No list is displayed. -/
def AstQueue.noList : AstQueue → Bool
  | nil => true
  | push attrs subs rest => !attrs.isList && subs.noList && rest.noList

structure AstNode.IsExpression (node : AstNode) : Prop where
  isSome : node.attrs.value.isSome = true
  operand : node.attrs.IsOperand false node.subs.count node.subs
  operands : node.subs.IsOperands node.attrs.isList
  fits : node.subs.Fits 1

def AstNode.noList (self : AstNode) : Bool := !self.attrs.isList && self.subs.noList

/-! ### The code of an expression -/

section
variable {attrs : AstAttrs} {subs : AstQueue} {deepth : Nat}

theorem AstAttrs.genAsm_empty : AstAttrs.empty.genAsm deepth [] = [] := rfl

end

end PikaScript
