import PikaScript.VM.Operator

/-! Whether a value is true.

`JEZ`, `JNZ`, `not` and `bool` ask `_transeBool`, which looks at the first byte of a
content: of a `str` that is its first character, of a `bytes` the low byte of its size.
`and` and `or` ask the integers of `operatorInfo_init`, which only numbers have. -/
namespace PikaScript

/-! ### The code -/

/-- `obj_getSize`: what `__len__` gives, an `int` for the containers. -/
def ObjectValue.getSize : ObjectValue → Int
  | .list size | .tuple size | .dict size => s32 size
  | .other _ (some len) => len.toInt
  | .other _ none => -1

/-- `_transeBool`; none for its error code. -/
def transeBool : Value → Option Bool
  | .bool value => some value
  | .none => some false
  | .str value => some (value.text.headD 0 != 0)
  | .bytes value => some (BitVec.ofNat 8 value.data.length != 0)
  | .object value => some (if value.getSize < 0 then true else value.getSize != 0)
  | .int value => some (value.toInt != 0)

/-- What `JEZ` and `JNZ` make of the value they pop. -/
def assertOf (a : Value) : Bool := (transeBool a).getD false

/-- `_VM_JEZ`: whether it jumps. -/
def jezTest (bAssert : Bool) : Bool := bAssert == false

/-- `JEZ`. -/
def jez (a : Value) : Bool := jezTest (assertOf a)

/-- `JNZ`. -/
def jnz (a : Value) : Bool := jezTest (!assertOf a)

/-- The branch of `not`. -/
def optNot (op : OperatorInfo) : Outcome :=
  .value (.bool (!(transeBool op.a2).getD false))

/-- The branch of `and`. -/
def optAnd (op : OperatorInfo) : Outcome := .value (.bool (op.i1 != 0 && op.i2 != 0))

/-- The branch of `or`. -/
def optOr (op : OperatorInfo) : Outcome := .value (.bool (op.i1 != 0 || op.i2 != 0))

/-- `builtins_bool`. -/
def builtinsBool (a : Value) : Outcome :=
  match transeBool a with
  | some res => .value (.bool res)
  | none => .error "ValueError: invalid literal for bool()"

/-! ### Truth -/

/-- The truth of an object: its `__bool__`, then its `__len__`; none where that is
negative, which is an error. -/
def ObjectValue.truth : ObjectValue → Option Bool
  | .list size | .tuple size | .dict size => some (size != 0)
  | .other (some bool) _ => some bool
  | .other none (some len) => if len.toInt < 0 then none else some (len.toInt != 0)
  | .other none none => some true

/-- The truth of a value. -/
def Value.truth : Value → Option Bool
  | .none => some false
  | .bool value => some value
  | .int value => some (value.toInt != 0)
  | .str value => some (value.text != [])
  | .bytes value => some (value.data != [])
  | .object value => value.truth

/-- Whatever asks for the truth of one value finds it. -/
structure UnaryTruth (a : Value) (t : Bool) : Prop where
  jez : jez a = !t
  jnz : jnz a = t
  not : optNot (operatorInfoInit none a) = .value (.bool (!t))
  bool : builtinsBool a = .value (.bool t)

/-- Whatever asks for the truth of two values, or of one of them, finds it. -/
structure TruthLaw (a b : Value) (s t : Bool) : Prop where
  left : UnaryTruth a s
  right : UnaryTruth b t
  and : optAnd (operatorInfoInit (some a) b) = .value (.bool (s && t))
  or : optOr (operatorInfoInit (some a) b) = .value (.bool (s || t))

/-- The values whose truth is found: `None`, numbers, and what is empty. -/
def TruthWhen : Value → Prop
  | .none | .bool _ | .int _ => True
  | .str value => value.text = []
  | .bytes value => value.data = []
  | .object (.list size) | .object (.tuple size) | .object (.dict size) => size = 0
  | .object (.other bool len) => bool ≠ some true ∧ len = some 0

theorem unaryTruth_iff (a : Value) (t : Bool) : UnaryTruth a t ↔ transeBool a = some t := by
  constructor
  · intro h
    have hbool := h.bool
    unfold builtinsBool at hbool
    cases hres : transeBool a with
    | none => simp [hres] at hbool
    | some res => simpa [hres] using hbool
  · intro h
    refine ⟨?_, ?_, ?_, ?_⟩ <;> simp [jez, jnz, jezTest, assertOf, optNot, builtinsBool,
      operatorInfoInit, h]

/-- Where the truth is found, the integer of the operand has it too. -/
theorem TruthWhen.spec {a : Value} (h : TruthWhen a) {t : Bool} (ht : a.truth = some t) :
    transeBool a = some t ∧ (operand a != 0) = t := by
  cases a with
  | none => simp_all [Value.truth, transeBool, operand]
  | bool value => cases value <;> simp_all [Value.truth, transeBool, operand]
  | int value => simp_all [Value.truth, transeBool, operand]
  | str value =>
    have hempty : value.text = [] := h
    simp_all [Value.truth, transeBool, operand]
  | bytes value =>
    have hempty : value.data = [] := h
    simp_all [Value.truth, transeBool, operand]
  | object value =>
    cases value with
    | list size | tuple size | dict size =>
      have hempty : size = 0 := h
      simp_all [Value.truth, ObjectValue.truth, transeBool, ObjectValue.getSize, operand, s32]
    | other bool len =>
      obtain ⟨hbool, hlen⟩ : bool ≠ some true ∧ len = some 0 := h
      rcases bool with _ | _ | _ <;>
        simp_all [Value.truth, ObjectValue.truth, transeBool, ObjectValue.getSize, operand]

/-- A value whose truth is found, by the integer of the operand if it is true, is one of those. -/
theorem truthWhen_of {a : Value} {t : Bool} (ht : a.truth = some t) (hres : transeBool a = some t)
    (htrue : t = true → (operand a != 0) = true) : TruthWhen a := by
  cases a with
  | none | bool value | int value => trivial
  | str value =>
    show value.text = []
    by_contra hne
    simp_all [Value.truth, operand]
  | bytes value =>
    show value.data = []
    by_contra hne
    simp_all [Value.truth, operand]
  | object value =>
    cases value with
    | list size | tuple size | dict size =>
      show size = 0
      by_contra hne
      simp_all [Value.truth, ObjectValue.truth, operand]
    | other bool len =>
      have hfalse : t = false := by
        cases t with
        | false => rfl
        | true => simp [operand] at htrue
      subst hfalse
      have hbool : bool ≠ some true := by
        intro h
        simp [h, Value.truth, ObjectValue.truth] at ht
      cases len with
      | none => simp [transeBool, ObjectValue.getSize] at hres
      | some len =>
        have hlen : len.toInt = 0 := by
          by_cases hneg : len.toInt < 0
          · simp [transeBool, ObjectValue.getSize, hneg] at hres
          · simpa [transeBool, ObjectValue.getSize, hneg] using hres
        exact ⟨hbool, congrArg some (Int64.toInt_inj.mp hlen)⟩

/-- What is false to `_transeBool` has no integer but zero. -/
theorem operand_of_false {a : Value} (h : transeBool a = some false) :
    (operand a != 0) = false := by
  cases a with
  | none | str value | bytes value | object value => rfl
  | bool value => simp_all [transeBool, operand]
  | int value => simpa [transeBool, operand] using h

/-- **Truth is found everywhere exactly of what is empty, of `None` and of numbers**: a `str`,
a `bytes` or an object that is true is false to `and` and `or`. -/
theorem truth_iff {a b : Value} {s t : Bool} (ha : a.truth = some s) (hb : b.truth = some t) :
    TruthLaw a b s t ↔ TruthWhen a ∧ TruthWhen b := by
  have hand : optAnd (operatorInfoInit (some a) b) =
      .value (.bool (operand a != 0 && operand b != 0)) := rfl
  have hor : optOr (operatorInfoInit (some a) b) =
      .value (.bool (operand a != 0 || operand b != 0)) := rfl
  constructor
  · intro h
    have hleft := (unaryTruth_iff a s).mp h.left
    have hright := (unaryTruth_iff b t).mp h.right
    have h₁ := hand.symm.trans h.and
    have h₂ := hor.symm.trans h.or
    simp only [Outcome.value.injEq, Value.bool.injEq] at h₁ h₂
    constructor
    · apply truthWhen_of ha hleft
      intro hs
      subst hs
      cases t with
      | false => simpa [operand_of_false hright] using h₂
      | true => exact (Bool.and_eq_true_iff.mp h₁).1
    · apply truthWhen_of hb hright
      intro ht
      subst ht
      cases s with
      | false => simpa [operand_of_false hleft] using h₂
      | true => exact (Bool.and_eq_true_iff.mp h₁).2
  · intro ⟨h₁, h₂⟩
    obtain ⟨hleft, hs⟩ := h₁.spec ha
    obtain ⟨hright, ht⟩ := h₂.spec hb
    refine ⟨(unaryTruth_iff a s).mpr hleft, (unaryTruth_iff b t).mpr hright, ?_, ?_⟩
    · rw [hand, hs, ht]
    · rw [hor, hs, ht]

theorem truth_empty : TruthLaw (.int 1) (.object (.list 0)) true false :=
  (truth_iff rfl rfl).mpr ⟨trivial, rfl⟩

/-- A `bytes` is false to `_transeBool` when its size ends in a zero byte. -/
theorem transeBool_bytes {value : BytesValue} (h : value.data.length % 256 = 0) :
    transeBool (.bytes value) = some false := by
  have hlow : BitVec.ofNat 8 value.data.length = 0 := by
    apply BitVec.eq_of_toNat_eq
    rw [BitVec.toNat_ofNat]
    exact h
  simp [transeBool, hlow]

/-- A `str` of one character is false to `or`, and a `bytes` of 256 to all that ask. -/
theorem not_truth :
    ¬TruthLaw (.str ⟨[0x61], by decide, by decide⟩) .none true false ∧
      ¬UnaryTruth (.bytes ⟨List.replicate 256 1, by rw [List.length_replicate]; decide⟩) true := by
  refine ⟨fun h => absurd h.or (by decide), fun h => ?_⟩
  have hres := (unaryTruth_iff _ _).mp h
  rw [transeBool_bytes (Nat.mod_eq_zero_of_dvd ⟨1, List.length_replicate⟩)] at hres
  cases hres

end PikaScript
