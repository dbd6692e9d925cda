import Mathlib.Algebra.BigOperators.Group.List.Basic
import PikaScript.Data.Args

/-! The starred arguments of a call, as `_get_n_input_with_unpack` expands them.

The arguments are popped, the last one first, expanded onto a second stack, and moved
back. A sequence is read from its last element on, so two reversals put it in order.
The list of a dict has the newest pair first, and is read from its end on as well, so
its pairs come out newest first. They are marked as keywords where they are, and
copied then. `unpack_iff` says which calls pass what their elements and pairs passed
one by one would. -/
namespace PikaScript

namespace Arg

/-! ### The flags of an argument -/

def flagStarred : BitVec 8 := 0x08
def flagDoubleStarred : BitVec 8 := 0x10

variable (self : Arg)

/-- `arg_getIsStarred`. -/
def isStarred : Bool := self.flag &&& flagStarred != 0

/-- `arg_getIsDoubleStarred`. -/
def isDoubleStarred : Bool := self.flag &&& flagDoubleStarred != 0

/-- `arg_setIsKeyword`, of true. -/
def setKeyword : Arg := self.setFlag flagKeyword true

end Arg

/-- The list of a dict, newest first. -/
structure DictPairs where
  items : Args
  nodup : items.keys.Nodup

/-- What the objects are that arguments refer to: `__getitem__` of a sequence for each index,
and the pairs of a dict. -/
structure Containers where
  elements : BitVec 64 → Option (List Arg)
  dict : BitVec 64 → Option DictPairs

/-- An entry of the stack. An arg of a register is laid down on the stack itself; it is never
starred, as `_OPT_MUL` and `_OPT_POW` make a new arg for that. -/
structure CallEntry where
  arg : Arg
  onHeap : Bool
  plain : onHeap = false → arg.isStarred = false ∧ arg.isDoubleStarred = false

namespace Unpack

/-! ### The code -/

/-- `stack_popArg_alloc` of an entry: an arg on the stack itself is copied. -/
def popped (e : CallEntry) : Arg := if e.onHeap then e.arg else e.arg.copy

/-- `stack_pushArg` of an arg with memory of its own. -/
def pushed (arg : Arg) : CallEntry := ⟨arg, true, nofun⟩

theorem nameHash_setKeyword (arg : Arg) : arg.setKeyword.nameHash = arg.nameHash := rfl

/-- The pairs, marked as keyword arguments. -/
def markKeywords (d : DictPairs) : DictPairs where
  items := d.items.map Arg.setKeyword
  nodup := by
    have hkeys : Args.keys (d.items.map Arg.setKeyword) = d.items.keys := by
      simp [Args.keys, Function.comp_def, nameHash_setKeyword]
    rw [hkeys]
    exact d.nodup

/-- A value as a function sees it; a string ends at its NUL. -/
def view (a : Arg) : ArgType × Bytes := (a.type, if a.type = .string then a.getStr else a.content)

/-- An argument: the hash of its name if it is a keyword argument, and its value. -/
abbrev Passed := Option Hash × ArgType × Bytes

def passed (a : Arg) : Passed := (if a.isKeyword then some a.nameHash else none, view a)

/-- The arguments of the call, in order. -/
def callArgs (nInput : Nat) (stack : List CallEntry) : List Arg :=
  ((stack.take nInput).map CallEntry.arg).reverse

private theorem keyword_copied (flag : BitVec 8) (keyword weakRef : Bool) :
    (((flag &&& ~~~Arg.flagKeyword ||| if keyword then Arg.flagKeyword else 0) &&&
        ~~~Arg.flagWeakRef ||| if weakRef then Arg.flagWeakRef else 0) &&&
      Arg.flagKeyword != 0) = keyword := by
  revert flag keyword weakRef
  decide +kernel

theorem isKeyword_copy (a : Arg) : a.copy.isKeyword = a.isKeyword := keyword_copied _ _ _

@[simp] theorem view_copy (a : Arg) : view a.copy = view a := by
  simp only [view, Arg.type_copy, Arg.getStr, Arg.content_copy]

/-- **A copy is passed as its original is.** -/
@[simp] theorem passed_copy (a : Arg) : passed a.copy = passed a := by
  simp only [passed, isKeyword_copy, view_copy, Arg.nameHash_copy]

/-- The dict whose pairs an argument has marked. -/
def marks (a : Arg) : Option (BitVec 64) :=
  if a.isStarred = false ∧ a.isDoubleStarred = true then some a.getPtr else none

/-- The containers, after so many arguments have been expanded. -/
structure Marked (w : Containers) (args : List Arg) (w₁ : Containers) : Prop where
  elements : w₁.elements = w.elements
  marked : ∀ o, (∃ a ∈ args, marks a = some o) → w₁.dict o = (w.dict o).map markKeywords
  others : ∀ o, (∀ a ∈ args, marks a ≠ some o) → w₁.dict o = w.dict o

variable {w w₁ w' : Containers} {args : List Arg} {a : Arg}

theorem Marked.dict (h : Marked w args w₁) (o : BitVec 64) :
    w₁.dict o = w.dict o ∨ w₁.dict o = (w.dict o).map markKeywords := by
  by_cases hmark : ∃ a ∈ args, marks a = some o
  · exact .inr (h.marked o hmark)
  · push Not at hmark
    exact .inl (h.others o hmark)

/-- What tells a string from its characters, and bytes from theirs. -/
def weight (v : Passed) : Nat :=
  match v.2.1 with
  | .string => v.2.2.length ^ 2
  | .bytes => 1
  | _ => 0

/-- The arguments that are in one piece when they should not be. -/
def Whole (a : Arg) : Prop := a.isStarred = true ∧ a.isObject = false

end Unpack

end PikaScript
