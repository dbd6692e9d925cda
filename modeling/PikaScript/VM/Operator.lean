import PikaScript.Data.Arg

/-! The operands of the `OPT` instruction.

`operatorInfo_init` gives every operand an integer beside its value, which is what
arithmetic, `and` and `or` compute with. Operands that are floats are left out. -/
namespace PikaScript

/-- A `str`: text without NUL. The size of its content, with the NUL, is a `uint32_t`. -/
structure StrValue where
  text : CString
  noNul : 0 ∉ text
  fits : text.length + 1 < 2 ^ 32
deriving DecidableEq

/-- A `bytes`. The size of its content, a `size_t`, the bytes and a NUL, is a `uint32_t`. -/
structure BytesValue where
  data : Bytes
  fits : data.length + 9 < 2 ^ 32
deriving DecidableEq

/-- What an object says of its truth: a container, how many items it has; another
object, what its `__bool__` and its `__len__` give where its class has them. -/
inductive ObjectValue where
  | list (size : Nat)
  | tuple (size : Nat)
  | dict (size : Nat)
  | other (bool : Option Bool) (len : Option Int64)
deriving DecidableEq

/-- A value on the VM stack. -/
inductive Value where
  | none
  | bool (value : Bool)
  | int (value : Int64)
  | str (value : StrValue)
  | bytes (value : BytesValue)
  | object (value : ObjectValue)
deriving DecidableEq

/-- What a handler leaves: a value, an error with `PIKA_RES_ERR_OPERATION_FAILED` and the
text it prints, or a computation that C does not define. -/
inductive Outcome where
  | value (res : Value)
  | error (text : String)
  | undefined
deriving DecidableEq

/-- `OperatorInfo`, without the floats. -/
structure OperatorInfo where
  num : Nat
  a1 : Option Value
  a2 : Value
  i1 : Int
  i2 : Int

/-- The integer of an operand; zero, as the structure is created, for one without. -/
def operand : Value → Int
  | .int value => value.toInt
  | .bool value => if value then 1 else 0
  | _ => 0

/-- `operatorInfo_init`, of two operands or of one. -/
def operatorInfoInit (a1 : Option Value) (a2 : Value) : OperatorInfo where
  num := if a1.isSome then 2 else 1
  a1 := a1
  a2 := a2
  i1 := (a1.map operand).getD 0
  i2 := operand a2

end PikaScript
