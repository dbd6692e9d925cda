import PikaScript.VM.Inputs

/-! Expressions are evaluated as their trees say.

The value of a node is made of those of its sub statements, which are evaluated before it
and in their order. The code of an expression, run as a line or in one, gives the stack that
value and nothing else, and fails as the tree does. -/
namespace PikaScript

/-! ### The value of a tree -/

/-- A value, an error, or an operand that is not there: a call that returned nothing. -/
inductive Evaluated (α σ : Type) where
  | value (a : α) (scope : σ)
  | failed (errorCode : Nat) (scope : σ)
  | missing

section
variable {α β V σ : Type}

def Evaluated.bind (self : Evaluated α σ) (f : α → σ → Evaluated β σ) : Evaluated β σ :=
  match self with
  | value a scope => f a scope
  | failed errorCode scope => failed errorCode scope
  | missing => missing

/-- What a handler came to. -/
def Evaluated.ofHandler : α × σ × Nat → Evaluated α σ
  | (a, scope, 0) => value a scope
  | (_, scope, errorCode + 1) => failed (errorCode + 1) scope

variable (handlers : Handlers V σ)

namespace AstAttrs

/-- A node with its operands. -/
def evalValue (self : AstAttrs) (operands : List V) (scope : σ) : Evaluated (Option V) σ :=
  match self.value with
  | none => .value none scope
  | some (.list, _) =>
    let (list, scope) := handlers.newList (some operands) scope
    .value (some list) scope
  | some (attr, val) =>
    .ofHandler (handlers.apply false attr.ins (attr.data val) operands scope)

/-- A node as an operand; that of an empty statement is none. -/
def evalOperand (self : AstAttrs) (operands : List V) (scope : σ) : Evaluated (List V) σ :=
  match self.value with
  | none => .value [] scope
  | some _ => (self.evalValue handlers operands scope).bind fun
    | none, _ => .missing
    | some v, scope => .value [self.left.elim v fun name => handlers.keyword name v] scope

end AstAttrs

/-- The operands in their order. -/
def AstQueue.eval : AstQueue → σ → Evaluated (List V) σ
  | nil, scope => .value [] scope
  | push attrs subs rest, scope =>
    (subs.eval scope).bind fun operands scope =>
      (attrs.evalOperand handlers operands scope).bind fun v scope =>
        (rest.eval scope).bind fun vs scope => .value (v ++ vs) scope

/-- **The value of a statement**, given to its name if there is one. -/
def AstNode.eval (self : AstNode) (scope : σ) : Evaluated (Option V) σ :=
  (self.subs.eval handlers scope).bind fun operands scope =>
    (self.attrs.evalValue handlers operands scope).bind fun res scope =>
      match self.attrs.left with
      | none => .value res scope
      | some name => .ofHandler (handlers.apply false .OUT name res.toList scope)

/-! ### What the machine does -/

/-- Where a run of the machine leads that evaluates something: to a value that is given to
its place, or to the same error. -/
def Evaluated.Leads (self : Evaluated α σ) (give : α → σ → Operands V σ)
    (keeps : (Nat → Option (List V)) → Prop) (out : Operands V σ × Nat) : Prop :=
  match self with
  | value a scope => out = (give a scope, 0)
  | failed errorCode scope =>
    errorCode ≠ 0 ∧ out.2 = errorCode ∧ out.1.scope = scope ∧ keeps out.1.oreg
  | missing => True

end

/-! ### Where values go -/

section
variable {V σ : Type}

/-- What is around an operand: no list is displayed at its depth or deeper, and around it
one is or not. -/
structure Operands.Shows (data : Operands V σ) (d : Nat) (inList : Bool) : Prop where
  deeper : ∀ k, d ≤ k → data.oreg k = none
  around : ∀ k, d = k + 1 → (data.oreg k).isSome = inList
  top : d = 0 → inList = false

variable {data : Operands V σ} {d : Nat} {inList : Bool}

theorem Operands.give_of_some {k : Nat} {items : List V} (h : data.oreg k = some items) (v : V) :
    data.give (k + 1) v =
      { data with oreg := Function.update data.oreg k (some (items ++ [v])) } := by
  rw [give, h]

theorem Operands.Shows.give (h : data.Shows d inList) (v : V) : (data.give d v).Shows d inList := by
  cases d with
  | zero => exact ⟨h.deeper, h.around, h.top⟩
  | succ k =>
    cases hitems : data.oreg k with
    | none =>
      rw [Operands.give, hitems]
      exact ⟨h.deeper, h.around, h.top⟩
    | some items =>
      rw [Operands.give_of_some hitems]
      refine ⟨fun j hj => ?_, fun j hj => ?_, fun h => absurd h (Nat.succ_ne_zero k)⟩
      · show Function.update data.oreg k _ j = none
        rw [Function.update_of_ne (by omega)]
        exact h.deeper j hj
      · cases hj
        show (Function.update data.oreg k (some (items ++ [v])) k).isSome = inList
        rw [Function.update_self, ← h.around k rfl, hitems]
        rfl

/-- Around the operands of an instruct. -/
theorem Operands.Shows.operands (h : data.Shows d inList) : data.Shows (d + 1) false := by
  refine ⟨fun k hk => h.deeper k (by omega), fun k hk => ?_, fun _ => rfl⟩
  cases hk
  rw [h.deeper d (Nat.le_refl _)]
  rfl

/-- Around the items of a list. -/
theorem Operands.Shows.items (h : data.Shows d inList) (items : List V) :
    ({ data with oreg := Function.update data.oreg d (some items) } : Operands V σ).Shows (d + 1)
      true := by
  refine ⟨fun k hk => ?_, fun k hk => ?_, fun h => absurd h (Nat.succ_ne_zero d)⟩
  · show Function.update data.oreg d _ k = none
    rw [Function.update_of_ne (by omega)]
    exact h.deeper k (by omega)
  · cases hk
    show (Function.update data.oreg d (some items) d).isSome = true
    rw [Function.update_self]
    rfl

end

/-! ### Code in a row -/

section
variable {V α β σ : Type} {handlers : Handlers V σ} {units : List AsmUnit} {i : Nat}

theorem execFrom_append {σ : Type} (host : VMHost σ) (units a b : List AsmUnit) (i : Nat)
    (data : σ) : host.execFrom units i (a ++ b) data =
      if (host.execFrom units i a data).2 = 0 then
        host.execFrom units (i + a.length) b (host.execFrom units i a data).1
      else host.execFrom units i a data := by
  induction a generalizing i data with
  | nil => rfl
  | cons unit a ih =>
    rw [List.cons_append, VMHost.execFrom, VMHost.execFrom, List.length_cons,
      show i + (a.length + 1) = i + 1 + a.length by omega]
    generalize host.run units i (if unit.isNewLine then host.newLine data else data) = out
    obtain ⟨data, errorCode⟩ := out
    by_cases herror : errorCode = 0
    · simp only [if_pos herror, ih]
    · simp only [if_neg herror]

theorem execFrom_singleton {σ : Type} (host : VMHost σ) (units : List AsmUnit) (unit : AsmUnit)
    (i : Nat) (data : σ) : host.execFrom units i [unit] data =
      host.run units i (if unit.isNewLine then host.newLine data else data) := by
  rw [VMHost.execFrom]
  generalize host.run units i (if unit.isNewLine then host.newLine data else data) = out
  obtain ⟨data, errorCode⟩ := out
  cases errorCode <;> rfl

/-- One thing is evaluated behind another. -/
theorem Evaluated.Leads.bind {r : Evaluated α σ} {f : α → σ → Evaluated β σ}
    {give : α → σ → Operands V σ} {give' : β → σ → Operands V σ}
    {keeps keeps' : (Nat → Option (List V)) → Prop} {a b : List AsmUnit} {data : Operands V σ}
    (h : r.Leads give keeps (handlers.host.execFrom units i a data))
    (hnext : ∀ x s, r = .value x s → (f x s).Leads give' keeps'
      (handlers.host.execFrom units (i + a.length) b (give x s)))
    (hkeeps : ∀ oreg, keeps oreg → keeps' oreg) :
    (r.bind f).Leads give' keeps' (handlers.host.execFrom units i (a ++ b) data) := by
  rw [execFrom_append]
  cases r with
  | value x s =>
    have hout : handlers.host.execFrom units i a data = (give x s, 0) := h
    rw [hout, if_pos rfl]
    exact hnext x s rfl
  | failed errorCode s =>
    obtain ⟨herror, hcode, hscope, hkept⟩ := h
    rw [if_neg (by rw [hcode]; exact herror)]
    exact ⟨herror, hcode, hscope, hkeeps _ hkept⟩
  | missing => trivial

/-- Where code is in a line. -/
structure LineAt (units : List AsmUnit) (deepth : Nat) (isNewLine : Bool) (i d : Nat)
    (code : List ExprIns) (data : Operands V σ) : Prop where
  sits : Sits units i (codeUnits deepth isNewLine code)
  front : ∀ unit ∈ (units.take i).reverse.head?, unit.invokeDeepth ≤ d
  noClass : ∀ unit ∈ units, unit.instruct ≠ .CLS
  start : isNewLine = true → data.stack = []

/-- The registers are as they were, when no list is displayed. -/
def Operands.Keeps (data : Operands V σ) (noList inList : Bool) (oreg : Nat → Option (List V)) :
    Prop :=
  noList = true → inList = false → oreg = data.oreg

variable {deepth d : Nat} {isNewLine inList : Bool} {code more : List ExprIns} {e : ExprIns}
  {data data' : Operands V σ}

theorem take_of_sits {piece : List AsmUnit} (h : Sits units i piece) :
    units.take (i + piece.length) = units.take i ++ piece := by
  obtain ⟨back, hback⟩ := h
  rw [List.take_add, ← hback, List.take_left]

theorem LineAt.left (h : LineAt units deepth isNewLine i d (code ++ more) data) :
    LineAt units deepth isNewLine i d code data := by
  have hsits := h.sits
  rw [codeUnits_append] at hsits
  exact ⟨hsits.left, h.front, h.noClass, h.start⟩

theorem LineAt.mono (h : LineAt units deepth isNewLine i d code data) {d' : Nat} (hle : d ≤ d') :
    LineAt units deepth isNewLine i d' code data :=
  ⟨h.sits, fun unit hunit => (h.front unit hunit).trans hle, h.noClass, h.start⟩

/-- Behind code that ends at a depth. -/
theorem LineAt.right (h : LineAt units deepth isNewLine i d (code ++ more) data)
    (hlast : ∀ e ∈ code.getLast?, e.invokeDeepth ≤ d)
    (hdata : code = [] → data'.stack = data.stack) :
    LineAt units deepth (isNewLine && code.isEmpty) (i + code.length) d more data' := by
  have hsits := h.sits
  rw [codeUnits_append] at hsits
  have htake := take_of_sits hsits.left
  have hright := hsits.right
  rw [length_codeUnits] at htake hright
  refine ⟨hright, fun unit hunit => ?_, h.noClass, fun hstart => ?_⟩
  · rw [htake] at hunit
    cases code using List.reverseRecOn with
    | nil => exact h.front unit (by rwa [show codeUnits deepth isNewLine [] = [] from rfl,
        List.append_nil] at hunit)
    | append_singleton code e =>
      rw [codeUnits_append, List.reverse_append, List.reverse_append] at hunit
      cases hunit
      exact (Nat.mod_le _ _).trans (hlast e List.getLast?_concat)
  · obtain ⟨hnew, hempty⟩ := Bool.and_eq_true_iff.mp hstart
    rw [hdata (List.isEmpty_iff.mp hempty)]
    exact h.start hnew

/-- An instruct of the line. -/
theorem LineAt.run (h : LineAt units deepth isNewLine i d [e] data)
    (hcalm : e.instruct.isCalm e.data = true) :
    handlers.host.execFrom units i (codeUnits deepth isNewLine [e]) data =
      handlers.runCalm (units.take i).reverse
        ⟨e.instruct, deepth % 16, e.invokeDeepth % 16, isNewLine, e.data⟩ data := by
  have hdata : (if isNewLine then handlers.host.newLine data else data) = data := by
    cases isNewLine with
    | false => rfl
    | true =>
      show ({ data with stack := [] } : Operands V σ) = data
      rw [← h.start rfl]
  have hrun := handlers.run_of_calm h.sits.head hcalm data
  rw [codeUnits_cons, show codeUnits deepth false [] = [] from rfl, execFrom_singleton]
  exact (congrArg (handlers.host.run units i) hdata).trans hrun

theorem LineAt.isBehindClass (h : LineAt units deepth isNewLine i d code data) :
    isBehindClass (units.take i).reverse = false := by
  rw [PikaScript.isBehindClass]
  cases hunit : (units.take i).reverse[1]? with
  | none => rfl
  | some unit =>
    have hmem := List.mem_of_mem_take (List.mem_reverse.mp (List.mem_of_getElem? hunit))
    exact decide_eq_false (h.noClass unit hmem)

/-- An instruct behind its operands counts them. -/
theorem LineAt.getInputArgNum (h : LineAt units deepth isNewLine i d code data)
    (hcode : ∀ e ∈ code, d < e.invokeDeepth ∧ e.invokeDeepth < 16) :
    getInputArgNum d (units.take (i + code.length)).reverse =
      code.countP (ExprIns.isInput (d + 1)) := by
  have htake := take_of_sits h.sits
  rw [length_codeUnits] at htake
  rw [htake, List.reverse_append, getInputArgNum_append _ h.front, getInputArgNum_codeUnits hcode]

end

/-! ### An instruct and its operands -/

section
variable {V σ : Type} {handlers : Handlers V σ} {attr : AstAttr} {val : CString} {num d : Nat}
  {inList noList : Bool} {data : Operands V σ}

theorem AstAttr.Takes.isCalm (h : attr.Takes val num) : attr.ins.isCalm (attr.data val) = true := by
  cases attr with
  | method => exact bne_iff_ne.mpr h
  | _ => rfl

/-- An instruct pops what it has for inputs. -/
theorem AstAttr.Takes.pops (h : attr.Takes val num) (hlist : attr ≠ .list) {deepth : Nat}
    {isNewLine : Bool} :
    (AsmUnit.mk attr.ins deepth d isNewLine (attr.data val)).pops num = num := by
  cases attr with
  | list => exact absurd rfl hlist
  | operator => exact if_pos h
  | slice => exact if_pos h
  | method => rfl
  | dict => rfl
  | tuple => rfl
  | _ => exact h.symm

end

/-! ### The induction -/

section
variable {V α β σ : Type} {handlers : Handlers V σ} {attrs : AstAttrs} {subs q : AstQueue}
  {units : List AsmUnit} {deepth i d : Nat} {isNewLine inList : Bool} {data : Operands V σ}

theorem Evaluated.bind_assoc {γ : Type} (r : Evaluated α σ) (f : α → σ → Evaluated β σ)
    (g : β → σ → Evaluated γ σ) : (r.bind f).bind g = r.bind fun a s => (f a s).bind g := by
  cases r <;> rfl

theorem Evaluated.Leads.map {r : Evaluated α σ} {f : α → β} {give : α → σ → Operands V σ}
    {give' : β → σ → Operands V σ} {keeps keeps' : (Nat → Option (List V)) → Prop}
    {out : Operands V σ × Nat} (h : r.Leads give keeps out)
    (hgive : ∀ a s, give a s = give' (f a) s) (hkeeps : ∀ oreg, keeps oreg → keeps' oreg) :
    (r.bind fun a s => .value (f a) s).Leads give' keeps' out := by
  cases r with
  | value a s =>
    have hout : out = (give a s, 0) := h
    rw [hgive] at hout
    exact hout
  | failed errorCode s =>
    obtain ⟨herror, hcode, hscope, hkept⟩ := h
    exact ⟨herror, hcode, hscope, hkeeps _ hkept⟩
  | missing => trivial

/-- The code of a line has no class in it. -/
theorem noClass_codeUnits {code : List ExprIns} :
    ∀ unit ∈ codeUnits deepth isNewLine code, unit.instruct ≠ .CLS := by
  intro unit hunit hclass
  obtain ⟨e, -, hinstruct, -⟩ := exists_of_mem_codeUnits hunit
  have hmem := e.mem_exprInstructs
  rw [← hinstruct, hclass] at hmem
  revert hmem
  decide

/-- A line of its own. -/
theorem LineAt.whole {code : List ExprIns} (hstack : data.stack = []) :
    LineAt (codeUnits deepth isNewLine code) deepth isNewLine 0 0 code data :=
  ⟨List.prefix_rfl, fun _ hunit => (by cases hunit), noClass_codeUnits, fun _ => hstack⟩

end

end PikaScript
