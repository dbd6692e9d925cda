import Mathlib.Data.List.TakeWhile
import Mathlib.Data.Set.Defs
import PikaScript.Lib.Memory
import PikaScript.VM.Operator

/-! Equality of args, over their histories.

An arg that is set or copied over keeps its size when the new content is shorter, and what was
there stays behind it. `arg_isEqual` compares the whole content of its left operand, so that it
sees what has been left: it is right for a set of args if and only if none of them differ in that
alone. -/
namespace PikaScript
open Memory

/-! ### The setters -/

namespace Arg

/-- `_arg_set_hash`: the arg itself if its content is large enough, else a new one. A content that
is NULL is cleared, up to a multiple of four bytes. -/
def setHash (self : Option Arg) (nameHash : Hash) (type : ArgType) (content : Option Bytes)
    (size : Nat) : Arg :=
  let self := match self with
    | none => create nameHash type (List.replicate size 0)
    | some self =>
      if self.content.length < size then create nameHash type (List.replicate size 0) else self
  let bytes := content.getD (List.replicate (alignBy size 4) 0)
  { self with
    nameHash := nameHash
    type := type
    content := (bytes ++ self.content.drop bytes.length).take self.content.length }

variable (self : Option Arg) (nameHash : Hash)

/-- `arg_setInt`, here and below with the hash of the name. -/
def setInt (val : BitVec 64) : Arg := setHash self nameHash .int (some (bytes64 val)) 8

/-- `arg_setBool`. A `pika_bool` is an `int64_t`. -/
def setBool (val : Bool) : Arg :=
  setHash self nameHash .bool (some (bytes64 (if val then 1 else 0))) 8

/-- `arg_setNone`. -/
def setNone : Arg := setHash self 5381 .none none 0

/-- `arg_setPtr`. -/
def setPtr (type : ArgType) (pointer : BitVec 64) : Arg :=
  setHash self nameHash type (some (bytes64 pointer)) 8

/-- `arg_setStr`. -/
def setStr (string : CString) : Arg :=
  setHash self nameHash .string (some (string ++ [0])) (string.length + 1)

/-- `arg_setStrN` of so many bytes. -/
def setStrN (string : Bytes) : Arg :=
  let ret := setHash self nameHash .string none (string.length + 1)
  { ret with content := string ++ ret.content.drop string.length }

/-- `arg_setBytes`: a new arg, of the size, the bytes and a NUL. -/
def setBytes (src : Bytes) : Arg :=
  create nameHash .bytes (bytes64 (.ofNat 64 src.length) ++ src ++ [0])

/-- `arg_setStruct`, and a setter of any other type: its content. -/
def setStruct (type : ArgType) (content : Bytes) : Arg :=
  setHash self nameHash type (some content) content.length

/-- `arg_newContent`. -/
def newContent (size : Nat) : Arg := create 5381 .none (List.replicate size 0)

/-- `arg_setContent` of a NULL arg. -/
def setNullContent (content : Bytes) : Arg := create 5381 .none content

/-- `arg_setNameHash` of a NULL arg. -/
def setNullNameHash : Arg := create nameHash .none []

end Arg

/-! ### Histories -/

/-- The types whose args have a logical value. -/
def ArgType.isValued : ArgType → Bool
  | .none | .int | .bool | .string | .bytes | .object | .objectWeak | .objectNew => true
  | _ => false

/-- The kinds of reference to an object. -/
inductive ObjectKind where
  | object
  | objectWeak
  | objectNew

def ObjectKind.type : ObjectKind → ArgType
  | object => .object
  | objectWeak => .objectWeak
  | objectNew => .objectNew

/-- What an arg has been set to. -/
inductive ArgValue where
  | none
  | int (val : BitVec 64)
  | bool (val : Bool)
  | str (string : StrValue)
  | bytes (src : BytesValue)
  | object (kind : ObjectKind) (pointer : BitVec 64)
  | other (type : ArgType) (h : type.isValued = false)

namespace ArgValue

def type : ArgValue → ArgType
  | none => .none
  | int _ => .int
  | bool _ => .bool
  | str _ => .string
  | bytes _ => .bytes
  | object kind _ => kind.type
  | other type _ => type

/-- The bytes a value has at the front of a content. -/
def image : ArgValue → Bytes
  | none => []
  | int val => bytes64 val
  | bool val => bytes64 (if val then 1 else 0)
  | str string => string.text ++ [0]
  | bytes src => bytes64 (.ofNat 64 src.data.length) ++ src.data ++ [0]
  | object _ pointer => bytes64 pointer
  | other _ _ => []

/-- The value as what an arg has. -/
def toVal (value : ArgValue) : Val := ⟨value.type, value.image⟩

end ArgValue

/-- The text in front of the first NUL. -/
def StrValue.ofBytes (string : Bytes) (h : string.length + 1 < 2 ^ 32) : StrValue where
  text := string.takeWhile (· ≠ 0)
  noNul hmem := by simpa using List.mem_takeWhile_imp hmem
  fits := Nat.lt_of_le_of_lt (Nat.succ_le_succ (List.takeWhile_prefix _).length_le) h

/-- An arg that the constructors and setters have built, NULL to begin with, and the value it has
been set to last. `args_setArg` copies into the arg of the name it finds. -/
inductive Built : ArgValue → Option Arg → Prop
  | null : Built .none none
  | setNone {w self} : Built w self → Built .none (some (Arg.setNone self))
  | newContent (size : Nat) : Built .none (some (Arg.newContent size))
  | setNullContent (content : Bytes) : Built .none (some (Arg.setNullContent content))
  | setNullNameHash (nameHash : Hash) : Built .none (some (Arg.setNullNameHash nameHash))
  | setInt {w self} (nameHash : Hash) (val : BitVec 64) : Built w self →
      Built (.int val) (some (Arg.setInt self nameHash val))
  | setBool {w self} (nameHash : Hash) (val : Bool) : Built w self →
      Built (.bool val) (some (Arg.setBool self nameHash val))
  | setStr {w self} (nameHash : Hash) (string : StrValue) : Built w self →
      Built (.str string) (some (Arg.setStr self nameHash string.text))
  | setStrN {w self} (nameHash : Hash) (string : Bytes) (h : string.length + 1 < 2 ^ 32) :
      Built w self → Built (.str (.ofBytes string h)) (some (Arg.setStrN self nameHash string))
  | setBytes (nameHash : Hash) (src : BytesValue) :
      Built (.bytes src) (some (Arg.setBytes nameHash src.data))
  | setPtr {w self} (nameHash : Hash) (kind : ObjectKind) (pointer : BitVec 64) : Built w self →
      Built (.object kind pointer) (some (Arg.setPtr self nameHash kind.type pointer))
  | setStruct {w self} (nameHash : Hash) {type : ArgType} (h : type.isValued = false)
      (content : Bytes) : Built w self →
      Built (.other type h) (some (Arg.setStruct self nameHash type content))
  | setNameHash {v arg} (nameHash : Hash) : Built v (some arg) →
      Built v (some (arg.setNameHash nameHash))
  | setFlag {v arg} (flag : BitVec 8) (value : Bool) : Built v (some arg) →
      Built v (some (arg.setFlag flag value))
  | copy {v src} : Built v (some src) → Built v (some src.copy)
  | copyContent {w v self src} : Built w (some self) → Built v (some src) →
      Built v (some (self.copyContent src))

/-- An arg with the value its history has given it. -/
structure BuiltArg where
  value : ArgValue
  arg : Arg
  built : Built value (some arg)

/-! ### The law -/

/-- `arg_isEqual` of two args. -/
def BuiltArg.isEqual (self other : BuiltArg) : Option Bool :=
  Arg.isEqual (some self.arg) (some other.arg)

/-- On these args `arg_isEqual` is an equivalence, stays inside their contents, and depends only on
type and value where there is one. -/
structure EqualLaw (args : Set BuiltArg) : Prop where
  refl : ∀ a ∈ args, a.isEqual a = some true
  symm : ∀ a ∈ args, ∀ b ∈ args, a.isEqual b = some true → b.isEqual a = some true
  trans : ∀ a ∈ args, ∀ b ∈ args, ∀ c ∈ args, a.isEqual b = some true → b.isEqual c = some true →
    a.isEqual c = some true
  inside : ∀ a ∈ args, ∀ b ∈ args, a.isEqual b ≠ none
  value : ∀ a ∈ args, ∀ b ∈ args, ∀ a' ∈ args, ∀ b' ∈ args,
    a.value.type.isValued → b.value.type.isValued → a.value = a'.value → b.value = b'.value →
    a.isEqual b = a'.isEqual b'

/-- Args of one type that is not `str` have the same content, when they have the same value or one
content begins with the other. -/
def EqualWhen (args : Set BuiltArg) : Prop :=
  ∀ a ∈ args, ∀ b ∈ args, a.arg.type = b.arg.type → a.arg.type ≠ .string →
    (a.value.type.isValued ∧ a.value = b.value ∨ a.arg.content <+: b.arg.content) →
    a.arg.content = b.arg.content

/-! ### What a history leaves -/

/-- What is written is at the front of the content. -/
theorem Arg.prefix_setHash (self : Option Arg) (nameHash : Hash) (type : ArgType)
    {content : Option Bytes} {size : Nat} {bytes : Bytes} (hsize : bytes.length ≤ size)
    (h : bytes <+: content.getD (List.replicate (alignBy size 4) 0)) :
    bytes <+: (setHash self nameHash type content size).content := by
  unfold setHash
  dsimp only
  rw [List.prefix_take_iff]
  refine ⟨h.trans (List.prefix_append _ _), Nat.le_trans hsize ?_⟩
  cases self with
  | none => exact Nat.le_of_eq List.length_replicate.symm
  | some self =>
    dsimp only
    split
    · exact Nat.le_of_eq List.length_replicate.symm
    · exact Nat.not_lt.mp ‹_›

/-- `arg_setStrN` writes the text in front of the first NUL, or its own one. -/
theorem Arg.prefix_setStrN (self : Option Arg) (nameHash : Hash) (string : Bytes) :
    string.takeWhile (· ≠ 0) ++ [0] <+: (setStrN self nameHash string).content := by
  have hclear : List.replicate (string.length + 1) (0 : BitVec 8) <+:
      List.replicate (alignBy (string.length + 1) 4) 0 := by
    rw [List.prefix_replicate_iff, List.length_replicate]
    exact ⟨le_alignBy _ (by decide), rfl⟩
  obtain ⟨rest, hrest⟩ := @prefix_setHash self nameHash .string none (string.length + 1) _
    (Nat.le_of_eq List.length_replicate) hclear
  have hcontent : (setStrN self nameHash string).content = string ++ 0 :: rest := by
    show string ++ (setHash self nameHash .string none (string.length + 1)).content.drop
      string.length = _
    rw [← hrest, List.replicate_succ', List.append_assoc, List.drop_left' List.length_replicate]
    rfl
  have hsplit := @List.takeWhile_append_dropWhile _ (fun c : BitVec 8 => decide (c ≠ 0)) string
  rw [hcontent]
  cases hdrop : string.dropWhile (· ≠ 0) with
  | nil =>
    rw [hdrop, List.append_nil] at hsplit
    rw [hsplit]
    exact ⟨rest, by simp⟩
  | cons c tail =>
    have hne : string.dropWhile (· ≠ 0) ≠ [] := fun hnil => by
      rw [hdrop] at hnil
      cases hnil
    have hc := List.head_dropWhile_not _ hne
    simp only [hdrop, List.head_cons, decide_eq_false_iff_not, not_not] at hc
    rw [hdrop, hc] at hsplit
    have hall := congrArg (· ++ 0 :: rest) hsplit
    exact ⟨tail ++ 0 :: rest, by simpa using hall⟩

/-- **Every history leaves an arg that has its last value**, with anything behind it. -/
theorem Built.has {value : ArgValue} {arg : Arg} (h : Built value (some arg)) :
    arg.Has value.toVal := by
  generalize hself : some arg = self at h
  induction h generalizing arg with
  | null => cases hself
  | setNone | newContent | setNullContent | setNullNameHash | setStruct =>
    cases hself
    exact ⟨rfl, List.nil_prefix⟩
  | setInt | setBool | setPtr =>
    cases hself
    exact ⟨rfl, Arg.prefix_setHash _ _ _ (Nat.le_of_eq (length_bytes64 _)) (List.prefix_refl _)⟩
  | setStr =>
    cases hself
    exact ⟨rfl, Arg.prefix_setHash _ _ _ (Nat.le_of_eq List.length_append) (List.prefix_refl _)⟩
  | setStrN =>
    cases hself
    exact ⟨rfl, Arg.prefix_setStrN _ _ _⟩
  | setBytes =>
    cases hself
    exact ⟨rfl, List.prefix_refl _⟩
  | setNameHash nameHash _ ih =>
    cases hself
    exact Arg.has_setNameHash nameHash (ih rfl)
  | setFlag flag value _ ih =>
    cases hself
    obtain ⟨htype, himage⟩ := ih rfl
    exact ⟨htype, himage⟩
  | copy _ ih =>
    cases hself
    exact Arg.has_copy (ih rfl)
  | copyContent _ _ _ ih =>
    cases hself
    exact Arg.has_copyContent (ih rfl)

/-! ### What a content says -/

theorem bytes64_inj {a b : BitVec 64} (h : bytes64 a = bytes64 b) : a = b := by
  rw [← Arg.foldr_bytes64 a, h, Arg.foldr_bytes64]

/-- Two words at the front of a content. -/
theorem bytes64_inj_of_front {a b : BitVec 64} {content : Bytes} (ha : bytes64 a <+: content)
    (hb : bytes64 b <+: content) : a = b := by
  apply bytes64_inj
  have hle : bytes64 a <+: bytes64 b := List.prefix_of_prefix_length_le ha hb (by simp)
  exact hle.eq_of_length (by simp)

theorem StrValue.eq_of_text {a b : StrValue} (h : a.text = b.text) : a = b := by
  cases a
  cases b
  cases h
  rfl

theorem BytesValue.eq_of_data {a b : BytesValue} (h : a.data = b.data) : a = b := by
  cases a
  cases b
  cases h
  rfl

/-- Two texts at the front of a content, each with its NUL. -/
theorem text_eq_of_front {a b content : CString} (ha : 0 ∉ a) (hb : 0 ∉ b)
    (ha' : a ++ [0] <+: content) (hb' : b ++ [0] <+: content) : a = b := by
  obtain ⟨rest, rfl⟩ := ha'
  obtain ⟨rest', hrest⟩ := hb'
  have hstop := congrArg untilZero hrest
  rw [List.append_assoc, List.append_assoc, List.singleton_append, List.singleton_append,
    untilZero_append ha, untilZero_append hb] at hstop
  exact (Option.some.inj hstop).symm

/-- Two sizes with their bytes at the front of a content. -/
theorem bytes_eq_of_front {a b : BytesValue} {content : Bytes}
    (ha : bytes64 (.ofNat 64 a.data.length) ++ a.data ++ [0] <+: content)
    (hb : bytes64 (.ofNat 64 b.data.length) ++ b.data ++ [0] <+: content) : a = b := by
  have hfits := a.fits
  have hfits' := b.fits
  rw [List.append_assoc] at ha hb
  have hword := congrArg BitVec.toNat (bytes64_inj_of_front ((List.prefix_append _ _).trans ha)
    ((List.prefix_append _ _).trans hb))
  rw [BitVec.toNat_ofNat, BitVec.toNat_ofNat] at hword
  have hlength : a.data.length = b.data.length := by omega
  rw [hlength] at ha
  have hsize : (bytes64 (.ofNat 64 b.data.length) ++ (a.data ++ [0])).length =
      (bytes64 (.ofNat 64 b.data.length) ++ (b.data ++ [0])).length := by
    simp only [List.length_append, hlength]
  have hall := (List.prefix_of_prefix_length_le ha hb (Nat.le_of_eq hsize)).eq_of_length hsize
  exact BytesValue.eq_of_data (List.append_cancel_right (List.append_cancel_left hall))

/-- What a value of a type is. -/
def ArgValue.OfType (v : ArgValue) : ArgType → Prop
  | .none => v = none
  | .int => ∃ val, v = int val
  | .bool => ∃ val, v = bool val
  | .string => ∃ string, v = str string
  | .bytes => ∃ src, v = bytes src
  | .object => ∃ pointer, v = object .object pointer
  | .objectWeak => ∃ pointer, v = object .objectWeak pointer
  | .objectNew => ∃ pointer, v = object .objectNew pointer
  | _ => True

theorem ArgValue.ofType (v : ArgValue) : v.OfType v.type := by
  cases v with
  | none => rfl
  | int val => exact ⟨val, rfl⟩
  | bool val => exact ⟨val, rfl⟩
  | str string => exact ⟨string, rfl⟩
  | bytes src => exact ⟨src, rfl⟩
  | object kind pointer => cases kind <;> exact ⟨pointer, rfl⟩
  | other type h => cases type <;> trivial

/-- **A content has one value of its type at its front.** -/
theorem ArgValue.eq_of_front {v w : ArgValue} {content : Bytes} (htype : v.type = w.type)
    (hvalued : v.type.isValued) (hv : v.image <+: content) (hw : w.image <+: content) : v = w := by
  have hof := v.ofType
  rw [htype] at hof
  cases w with
  | none => exact hof
  | int val =>
    obtain ⟨val', rfl⟩ := hof
    rw [bytes64_inj_of_front hv hw]
  | bool val =>
    obtain ⟨val', rfl⟩ := hof
    have hword := bytes64_inj_of_front hv hw
    cases val <;> cases val' <;> first | rfl | cases hword
  | str string =>
    obtain ⟨string', rfl⟩ := hof
    rw [StrValue.eq_of_text (text_eq_of_front string'.noNul string.noNul hv hw)]
  | bytes src =>
    obtain ⟨src', rfl⟩ := hof
    rw [bytes_eq_of_front hv hw]
  | object kind pointer =>
    have hkind : ∃ pointer', v = object kind pointer' := by
      cases kind <;> exact hof
    obtain ⟨pointer', rfl⟩ := hkind
    rw [bytes64_inj_of_front hv hw]
  | other type h =>
    rw [htype] at hvalued
    exact absurd (h.symm.trans hvalued) Bool.false_ne_true

/-- `memcmp` of the contents: what it does not find different goes on on the right. -/
theorem Arg.memEq_eq (x y : Bytes) : memEq x y =
    if x <+: y then some true else if y <+: x then none else some false := by
  induction x generalizing y with
  | nil => simp [memEq]
  | cons a x ih =>
    cases y with
    | nil => simp [memEq]
    | cons b y =>
      by_cases hab : a = b
      · subst hab
        simp [memEq, ih, List.cons_prefix_cons]
      · simp [memEq, hab, Ne.symm hab, List.cons_prefix_cons]

/-! ### Comparing -/

namespace BuiltArg

/-- What `arg_isEqual` goes by where it is right: the type, and the text of a `str` or the content
of any other. -/
def key (a : BuiltArg) : ArgType × Bytes :=
  (a.arg.type, if a.arg.type = .string then a.arg.getStr else a.arg.content)

variable {a b : BuiltArg}

theorem key_of_string (h : a.arg.type = .string) : a.key = (.string, a.arg.getStr) := by
  rw [key, if_pos h, h]

theorem key_of_not_string (h : a.arg.type ≠ .string) : a.key = (a.arg.type, a.arg.content) := by
  rw [key, if_neg h]

/-- The type of an arg is that of its value. -/
theorem type_eq (a : BuiltArg) : a.arg.type = a.value.type := a.built.has.1

/-- Two values at the front of one content. -/
theorem value_eq_of_front (htype : a.arg.type = b.arg.type) (hvalued : a.value.type.isValued)
    (h : a.arg.content <+: b.arg.content) : a.value = b.value := by
  rw [type_eq, type_eq] at htype
  exact ArgValue.eq_of_front htype hvalued (a.built.has.2.trans h) b.built.has.2

/-- The text of a `str`. -/
theorem exists_str (a : BuiltArg) (h : a.arg.type = .string) :
    ∃ string, a.value = .str string ∧ a.arg.getStr = string.text := by
  have hof := a.value.ofType
  rw [← type_eq, h] at hof
  obtain ⟨string, hstring⟩ := hof
  refine ⟨string, hstring, ?_⟩
  have himage := a.built.has.2
  rw [hstring] at himage
  obtain ⟨rest, hrest⟩ := himage
  have hclean : ∀ c ∈ string.text, decide (c ≠ 0) = true := fun c hc =>
    decide_eq_true fun h => string.noNul (h ▸ hc)
  rw [Arg.getStr, ← hrest]
  show (string.text ++ [0] ++ rest).takeWhile (· ≠ 0) = string.text
  rw [List.append_assoc, List.takeWhile_append_of_pos hclean]
  simp

theorem getStr_eq_iff (ha : a.arg.type = .string) (hb : b.arg.type = .string) :
    a.arg.getStr = b.arg.getStr ↔ a.value = b.value := by
  obtain ⟨s, hs, htext⟩ := a.exists_str ha
  obtain ⟨t, ht, htext'⟩ := b.exists_str hb
  rw [hs, ht, htext, htext']
  constructor
  · intro h
    rw [StrValue.eq_of_text h]
  · intro h
    cases h
    rfl

/-- Args of different types. -/
theorem isEqual_of_type_ne (h : a.arg.type ≠ b.arg.type) : a.isEqual b = some false := if_pos h

/-- A `str` is compared by its text. -/
theorem isEqual_of_string (ha : a.arg.type = .string) (hb : b.arg.type = .string) :
    a.isEqual b = some (decide (a.arg.getStr = b.arg.getStr)) := by
  have hobject : ¬(a.arg.type = .object ∧ a.arg.getPtr ≠ b.arg.getPtr) := fun h => by
    rw [ha] at h
    cases h.1
  rw [isEqual, Arg.isEqual, if_neg (not_not_intro (ha.trans hb.symm)), if_neg hobject]
  by_cases hstr : a.arg.getStr = b.arg.getStr
  · rw [if_pos ⟨ha, hstr⟩, decide_eq_true hstr]
  · have hvalued : a.value.type.isValued := by
      rw [← type_eq, ha]
      rfl
    have hvalued' : b.value.type.isValued := by
      rw [← type_eq, hb]
      rfl
    have hne : a.value ≠ b.value := fun h => hstr ((getStr_eq_iff ha hb).mpr h)
    rw [if_neg fun h => hstr h.2, Arg.memEq_eq, if_neg, if_neg, decide_eq_false hstr]
    · exact fun h => hne (value_eq_of_front (hb.trans ha.symm) hvalued' h).symm
    · exact fun h => hne (value_eq_of_front (ha.trans hb.symm) hvalued h)

/-- What is not a `str` is compared by its content, unless two objects differ. -/
theorem isEqual_of_not_string (htype : a.arg.type = b.arg.type) (hstring : a.arg.type ≠ .string) :
    a.isEqual b = if a.arg.type = .object ∧ a.arg.getPtr ≠ b.arg.getPtr then some false
      else Arg.memEq a.arg.content b.arg.content := by
  have hstr : ¬(a.arg.type = .string ∧ a.arg.getStr = b.arg.getStr) := fun h => hstring h.1
  rw [isEqual, Arg.isEqual, if_neg (not_not_intro htype), if_neg hstr]

/-- The content of an object has a pointer. -/
theorem length_of_object (a : BuiltArg) (h : a.arg.type = .object) : 8 ≤ a.arg.content.length := by
  have hof := a.value.ofType
  rw [← type_eq, h] at hof
  obtain ⟨pointer, hpointer⟩ := hof
  have himage := a.built.has.2.length_le
  rw [hpointer] at himage
  exact Nat.le_trans (Nat.le_of_eq (length_bytes64 pointer).symm) himage

/-- Where one content begins with the other the pointers are equal. -/
theorem getPtr_eq_of_front (htype : a.arg.type = b.arg.type) (hobject : a.arg.type = .object)
    (h : a.arg.content <+: b.arg.content) : a.arg.getPtr = b.arg.getPtr := by
  have hnone : a.arg.type ≠ .none := by
    rw [hobject]
    decide
  have htake : a.arg.content.take 8 = b.arg.content.take 8 := by
    obtain ⟨rest, hrest⟩ := h
    rw [← hrest, List.take_append_of_le_length (a.length_of_object hobject)]
  rw [Arg.getPtr, Arg.getPtr, if_neg hnone, if_neg (htype ▸ hnone), htake]

/-- Two contents that are the same, or of which none begins with the other, are compared right. -/
theorem isEqual_eq (htype : a.arg.type = b.arg.type) (hstring : a.arg.type ≠ .string)
    (h : a.arg.content <+: b.arg.content → a.arg.content = b.arg.content)
    (h' : b.arg.content <+: a.arg.content → b.arg.content = a.arg.content) :
    a.isEqual b = some (decide (a.arg.content = b.arg.content)) := by
  rw [isEqual_of_not_string htype hstring, Arg.memEq_eq]
  by_cases hsame : a.arg.content = b.arg.content
  · have hfront : a.arg.content <+: b.arg.content := hsame ▸ List.prefix_refl _
    rw [if_neg fun hptr => hptr.2 (getPtr_eq_of_front htype hptr.1 hfront), if_pos hfront,
      decide_eq_true hsame]
  · rw [if_neg fun hpre => hsame (h hpre), if_neg fun hpre => hsame (h' hpre).symm, ite_self,
      decide_eq_false hsame]

end BuiltArg

variable {args : Set BuiltArg}

/-- Where the condition holds, `arg_isEqual` compares keys. -/
theorem EqualWhen.isEqual_eq (hargs : EqualWhen args) {a b : BuiltArg} (ha : a ∈ args)
    (hb : b ∈ args) : a.isEqual b = some (decide (a.key = b.key)) := by
  by_cases htype : a.arg.type = b.arg.type
  · by_cases hstring : a.arg.type = .string
    · have hstring' := htype.symm.trans hstring
      rw [BuiltArg.isEqual_of_string hstring hstring', BuiltArg.key_of_string hstring,
        BuiltArg.key_of_string hstring']
      simp only [Prod.mk.injEq, true_and]
    · have hstring' : b.arg.type ≠ .string := htype ▸ hstring
      have hfront := fun h => hargs a ha b hb htype hstring (.inr h)
      have hfront' := fun h => hargs b hb a ha htype.symm hstring' (.inr h)
      rw [BuiltArg.isEqual_eq htype hstring hfront hfront', BuiltArg.key_of_not_string hstring,
        BuiltArg.key_of_not_string hstring']
      simp only [Prod.mk.injEq, htype, true_and]
  · rw [BuiltArg.isEqual_of_type_ne htype, decide_eq_false]
    exact fun h => htype (congrArg Prod.fst h)

/-- The keys of values are those of their args. -/
theorem EqualWhen.key_eq_iff (hargs : EqualWhen args) {a b : BuiltArg} (ha : a ∈ args)
    (hb : b ∈ args) (hvalued : a.value.type.isValued) : a.key = b.key ↔ a.value = b.value := by
  by_cases htype : a.arg.type = b.arg.type
  · by_cases hstring : a.arg.type = .string
    · have hstring' := htype.symm.trans hstring
      rw [BuiltArg.key_of_string hstring, BuiltArg.key_of_string hstring', Prod.mk.injEq,
        BuiltArg.getStr_eq_iff hstring hstring', and_iff_right rfl]
    · have hstring' : b.arg.type ≠ .string := htype ▸ hstring
      rw [BuiltArg.key_of_not_string hstring, BuiltArg.key_of_not_string hstring', Prod.mk.injEq,
        and_iff_right htype]
      constructor
      · intro hsame
        exact BuiltArg.value_eq_of_front htype hvalued (hsame ▸ List.prefix_refl _)
      · intro hvalue
        exact hargs a ha b hb htype hstring (.inl ⟨hvalued, hvalue⟩)
  · refine iff_of_false (fun h => htype (congrArg Prod.fst h)) fun h => htype ?_
    rw [a.type_eq, b.type_eq, h]

/-- The law where the condition holds. -/
theorem EqualWhen.law (hargs : EqualWhen args) : EqualLaw args where
  refl a ha := by rw [hargs.isEqual_eq ha ha, decide_eq_true rfl]
  symm a ha b hb h := by
    rw [hargs.isEqual_eq ha hb, Option.some.injEq, decide_eq_true_iff] at h
    rw [hargs.isEqual_eq hb ha, decide_eq_true h.symm]
  trans a ha b hb c hc h h' := by
    rw [hargs.isEqual_eq ha hb, Option.some.injEq, decide_eq_true_iff] at h
    rw [hargs.isEqual_eq hb hc, Option.some.injEq, decide_eq_true_iff] at h'
    rw [hargs.isEqual_eq ha hc, decide_eq_true (h.trans h')]
  inside a ha b hb := by
    rw [hargs.isEqual_eq ha hb]
    exact Option.some_ne_none _
  value a ha b hb a' ha' b' hb' hvalued _ hvalue hvalue' := by
    rw [hargs.isEqual_eq ha hb, hargs.isEqual_eq ha' hb', Option.some.injEq, decide_eq_decide,
      hargs.key_eq_iff ha hb hvalued, hargs.key_eq_iff ha' hb' (hvalue ▸ hvalued), hvalue, hvalue']

/-- Nothing is left behind what is stored in an arg that is not larger. -/
theorem Arg.content_setHash_of_le {self : Option Arg} {content : Bytes}
    (h : ∀ arg, self = some arg → arg.content.length ≤ content.length) (nameHash : Hash)
    (type : ArgType) :
    (setHash self nameHash type (some content) content.length).content = content := by
  unfold setHash
  cases self with
  | none => simp [create]
  | some self =>
    have hle := h self rfl
    dsimp only
    split
    · simp [create]
    · have hlength : self.content.length = content.length := by omega
      show (content ++ self.content.drop content.length).take self.content.length = content
      rw [List.drop_of_length_le hle, List.append_nil, hlength, List.take_length]

theorem Arg.content_copyContent_of_le {self src : Arg}
    (h : self.content.length ≤ src.content.length) :
    (self.copyContent src).content = src.content := by
  show (self.setContent src.content).content = _
  unfold setContent
  split
  · rw [List.drop_of_length_le h, List.append_nil]
  · rfl

/-- **Args with nothing behind their values are compared by them.** -/
theorem equalLaw_of_exact
    (h : ∀ a ∈ args, a.value.type.isValued ∧ a.arg.content = a.value.image) : EqualLaw args := by
  apply EqualWhen.law
  intro a ha b hb htype _ hcase
  obtain ⟨hvalued, hcontent⟩ := h a ha
  have hvalue : a.value = b.value :=
    hcase.elim (fun h => h.2) (BuiltArg.value_eq_of_front htype hvalued)
  rw [hcontent, (h b hb).2, hvalue]

end PikaScript
