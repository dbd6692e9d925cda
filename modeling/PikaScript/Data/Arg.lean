import Mathlib.Algebra.Order.Ring.Nat
import Mathlib.Data.BitVec
import Mathlib.Data.List.Basic
import Mathlib.Tactic.IntervalCases
import PikaScript.Lib.Word

/-! The tagged value of `dataArg.c`.

An `Arg` is a header and a content of bytes. Its `size` field is the length of
the content, and its `next` field is the order of the list it is in. Pointers and
`size_t` are of 64 bits. -/
namespace PikaScript

/-- The `PIKA_RES` values of the modelled functions. -/
inductive PikaRes where
  | ok
  | errArgNoFound
  | errOutOfRange
  | errIoError
  | errInvalidPtr
  | errUnalignedPtr
  | errInvalidVersionNumber
  | errIllegalMagicCode
  | errSyntaxError
  | errSignalEventFull
  | errSignalEventEmpty
deriving DecidableEq, Repr

/-- The value of a `PIKA_RES` as an `int`. -/
def PikaRes.code : PikaRes → Int
  | .ok => 0
  | .errArgNoFound => -2
  | .errOutOfRange => -4
  | .errIoError => -5
  | .errInvalidPtr => -8
  | .errUnalignedPtr => -9
  | .errInvalidVersionNumber => -10
  | .errIllegalMagicCode => -11
  | .errSyntaxError => -14
  | .errSignalEventFull => -17
  | .errSignalEventEmpty => -18

inductive ArgType where
  | undef
  | none
  | int
  | bool
  | float
  | string
  | bytes
  | pointer
  | bigArgPtr
  | object
  | objectWeak
  | objectMeta
  | objectNew
  | methodNative
  | methodNativeActive
  | methodNativeConstructor
  | methodConstructor
  | methodObject
  | methodStatic
  | struct
  | structHeap
  | tuple
deriving DecidableEq, Repr

abbrev Bytes := List (BitVec 8)

/-- A C string, without the NUL that ends it. -/
abbrev CString := List (BitVec 8)

instance lawfulBEqByte : LawfulBEq (BitVec 8) := inferInstance

instance lawfulBEqCString : LawfulBEq CString := inferInstance

/-- `Hash`, a `uint32_t`. -/
abbrev Hash := Nat

/-- `hash_time33`. Whether `char` is signed is up to the target. -/
def hashTime33 (signedChar : Bool) (str : CString) : Hash :=
  if str = [] then 5381
  else
    str.foldl (fun hash c =>
      let char := if signedChar then (c.signExtend 32).toNat else c.toNat
      u32 (hash + (u32 (hash * 2 ^ 5) + char))) 5381 % 2 ^ 31

/-- The bytes of a 64-bit value in memory, low byte first. -/
def bytes64 (value : BitVec 64) : Bytes :=
  (List.range 8).map fun i => value.extractLsb' (8 * i) 8

@[simp] theorem length_bytes64 (value : BitVec 64) : (bytes64 value).length = 8 := by
  simp [bytes64]

structure Arg where
  type : ArgType
  flag : BitVec 8
  nameHash : Hash
  content : Bytes
deriving DecidableEq, Repr

namespace Arg

/-! ### Flags -/

def flagSerialized : BitVec 8 := 0x01
def flagKeyword : BitVec 8 := 0x02
def flagWeakRef : BitVec 8 := 0x04

variable (self : Arg)

/-- Setting or clearing one flag. -/
def setFlag (flag : BitVec 8) (value : Bool) : Arg :=
  { self with flag := (self.flag &&& ~~~flag) ||| if value then flag else 0 }

/-- `arg_isSerialized`. -/
def isSerialized : Bool := self.flag &&& flagSerialized != 0

/-- `arg_getIsKeyword`. -/
def isKeyword : Bool := self.flag &&& flagKeyword != 0

/-- `arg_getIsWeakRef`. -/
def isWeakRef : Bool := self.flag &&& flagWeakRef != 0

/-- `arg_setType`. -/
def setType (type : ArgType) : Arg := { self with type := type }

/-- `arg_setNameHash`. -/
def setNameHash (nameHash : Hash) : Arg := { self with nameHash := nameHash }

/-! ### Content -/

/-- `arg_create_hash`: a new arg of its own memory. -/
def create (nameHash : Hash) (type : ArgType) (content : Bytes) : Arg :=
  ⟨type, flagSerialized, nameHash, content⟩

/-- `arg_setContent` on an existing arg: a content that fits is copied over the
old one, whose size stays; a larger one takes a new arg. -/
def setContent (content : Bytes) : Arg :=
  if content.length ≤ self.content.length then
    { self with content := content ++ self.content.drop content.length }
  else create self.nameHash self.type content

/-- `arg_copy_content` on an existing arg. -/
def copyContent (src : Arg) : Arg :=
  ((((self.setContent src.content).setNameHash src.nameHash).setType src.type).setFlag
    flagKeyword src.isKeyword).setFlag flagWeakRef src.isWeakRef

/-- `arg_copy`, the count of the object apart: `arg_setContent` of a NULL arg gives
it an arg without a name. -/
def copy : Arg := (create 5381 .none self.content).copyContent self

/-- A store of `bytes` through the content pointer, if there is room for it. -/
def write (bytes : Bytes) : Option Arg :=
  if bytes.length ≤ self.content.length then
    some { self with content := bytes ++ self.content.drop bytes.length }
  else none

/-- `arg_getPtr`: the first eight bytes of the content. -/
def getPtr : BitVec 64 :=
  if self.type = .none then 0
  else (self.content.take 8).foldr (fun byte value => value <<< 8 ||| byte.setWidth 64) 0

/-- `arg_getStr`, up to the NUL. -/
def getStr : CString := self.content.takeWhile (· ≠ 0)

/-- `pika_platform_memcmp` of as many bytes as there are on the left. None if the
right side ends before the first difference. -/
def memEq : Bytes → Bytes → Option Bool
  | [], _ => some true
  | _ :: _, [] => none
  | a :: as, b :: bs => if a = b then memEq as bs else some false

/-- `arg_isEqual`; NULL is equal to nothing. -/
def isEqual : Option Arg → Option Arg → Option Bool
  | some self, some other =>
    if self.type ≠ other.type then some false
    else if self.type = .object ∧ self.getPtr ≠ other.getPtr then some false
    else if self.type = .string ∧ self.getStr = other.getStr then some true
    else memEq self.content other.content
  | _, _ => some false

/-- `arg_getInt` of a content of eight bytes. -/
def getInt : BitVec 64 :=
  (self.content.take 8).foldr (fun byte value => value <<< 8 ||| byte.setWidth 64) 0

/-- `arg_isObject`. -/
def isObject : Bool :=
  self.type == .object || self.type == .objectNew || self.type == .objectWeak

/-- An arg whose object counts it: `arg_refcntInc` and `arg_deinitHeap` pass over
every other. -/
def isCounted : Bool := self.type == .object && !self.isWeakRef

/-- `arg_newInt`. -/
def newInt (value : BitVec 64) : Arg := create 5381 .int (bytes64 value)

/-- `arg_newPtr`. -/
def newPtr (type : ArgType) (pointer : BitVec 64) : Arg := create 5381 type (bytes64 pointer)

@[simp] theorem nameHash_setFlag (flag : BitVec 8) (value : Bool) :
    (self.setFlag flag value).nameHash = self.nameHash := rfl

@[simp] theorem nameHash_copyContent (src : Arg) :
    (self.copyContent src).nameHash = src.nameHash := rfl

@[simp] theorem nameHash_copy : self.copy.nameHash = self.nameHash := rfl

@[simp] theorem nameHash_setNameHash (nameHash : Hash) :
    (self.setNameHash nameHash).nameHash = nameHash := rfl

@[simp] theorem isSerialized_create (nameHash : Hash) (type : ArgType) (content : Bytes) :
    (create nameHash type content).isSerialized = true := by
  simp [isSerialized, create, flagSerialized]

private theorem weakRef_setFlag (flag : BitVec 8) (value : Bool) :
    ((flag &&& ~~~flagWeakRef ||| if value then flagWeakRef else 0) &&& flagWeakRef != 0) =
      value := by
  revert flag value
  decide +kernel

@[simp] theorem content_copy : self.copy.content = self.content := by
  simp [copy, copyContent, setContent, setFlag, setType, setNameHash, create]

@[simp] theorem type_copy : self.copy.type = self.type := rfl

theorem isCounted_copyContent (src : Arg) : (self.copyContent src).isCounted = src.isCounted := by
  have hweak : (self.copyContent src).isWeakRef = src.isWeakRef := weakRef_setFlag _ _
  have htype : (self.copyContent src).type = src.type := rfl
  simp only [isCounted, htype, hweak]

/-- **A copy is counted, and on the same object, exactly when its source is.** -/
theorem isCounted_copy : self.copy.isCounted = self.isCounted :=
  isCounted_copyContent _ _

theorem getPtr_copy : self.copy.getPtr = self.getPtr := by
  simp only [getPtr, type_copy, content_copy]

theorem foldr_bytes64 (value : BitVec 64) :
    (bytes64 value).foldr (fun (byte : BitVec 8) (v : BitVec 64) => v <<< 8 ||| byte.setWidth 64)
      0 = value := by
  simp only [bytes64, List.range, List.range.loop, List.map, List.foldr]
  apply BitVec.eq_of_getLsbD_eq
  intro i hi
  simp only [BitVec.getLsbD_or, BitVec.getLsbD_shiftLeft, BitVec.getLsbD_setWidth,
    BitVec.getLsbD_extractLsb']
  interval_cases i <;> simp

/-- The int that was stored, whatever follows it. -/
theorem getInt_of_prefix {self : Arg} {value : BitVec 64} (h : bytes64 value <+: self.content) :
    self.getInt = value := by
  obtain ⟨rest, hrest⟩ := h
  rw [getInt, ← hrest, List.take_append_of_le_length (by simp), List.take_of_length_le (by simp)]
  exact foldr_bytes64 value

/-- The string that was stored, whatever follows its NUL. -/
theorem getStr_of_prefix {self : Arg} {content : Bytes} (h : content <+: self.content)
    (hnul : 0 ∈ content) : self.getStr = content.takeWhile (· ≠ 0) := by
  obtain ⟨rest, hrest⟩ := h
  rw [getStr, ← hrest, List.takeWhile_append, if_neg]
  intro hlength
  have hall := (List.takeWhile_prefix fun c : BitVec 8 => decide (c ≠ 0)).eq_of_length hlength
  rw [← hall] at hnul
  simpa using List.all_eq_true.mp List.all_takeWhile 0 hnul

/-- A string without NUL is got whole. -/
theorem getStr_eq {self : Arg} {str : CString} (h : str ++ [0] <+: self.content)
    (hnul : 0 ∉ str) : self.getStr = str := by
  have hclean : ∀ c ∈ str, decide (c ≠ 0) = true := fun c hc =>
    decide_eq_true fun hzero => hnul (hzero ▸ hc)
  have hget := getStr_of_prefix h (List.mem_append_right _ List.mem_cons_self)
  rw [hget, List.takeWhile_append_of_pos hclean]
  simp

theorem write_eq_some {self arg : Arg} {bytes : Bytes} (h : self.write bytes = some arg) :
    bytes.length ≤ self.content.length ∧ arg.nameHash = self.nameHash ∧ arg.type = self.type := by
  unfold write at h
  split at h
  · cases h
    exact ⟨‹_›, rfl, rfl⟩
  · cases h

end Arg

/-! ### Values -/

/-- A value, as a type and the bytes that say which of the type it is. -/
structure Val where
  type : ArgType
  content : Bytes
deriving DecidableEq

namespace Val

/-- `arg_setName` of no arg makes a none. -/
def ofArg (arg : Option Arg) : Val := arg.elim ⟨.none, []⟩ fun arg => ⟨arg.type, arg.content⟩

/-- Equality of values. Strings are equal up to their NUL. -/
def same (v w : Val) : Bool :=
  v.type == w.type && (v.content == w.content ||
    v.type == .string && v.content.takeWhile (· ≠ 0) == w.content.takeWhile (· ≠ 0))

end Val

/-- The arg is of the value. Its content may go on behind that of the value: an
arg keeps its size when a shorter content is stored in it. -/
def Arg.Has (arg : Arg) (v : Val) : Prop := arg.type = v.type ∧ v.content <+: arg.content

instance (arg : Arg) (v : Val) : Decidable (arg.Has v) :=
  inferInstanceAs (Decidable (_ ∧ _))

namespace Arg
variable {self arg : Arg} {v : Val}

theorem has_copyContent (h : arg.Has v) : (self.copyContent arg).Has v := by
  refine ⟨h.1, h.2.trans ?_⟩
  show arg.content <+: (self.setContent arg.content).content
  unfold setContent
  split
  · exact List.prefix_append ..
  · exact List.prefix_refl _

theorem has_copy (h : arg.Has v) : arg.copy.Has v := has_copyContent h

theorem has_setNameHash (nameHash : Hash) (h : arg.Has v) : (arg.setNameHash nameHash).Has v := h

theorem has_ofArg (arg : Arg) : arg.Has (.ofArg (some arg)) := ⟨rfl, List.prefix_refl _⟩

end Arg

end PikaScript
