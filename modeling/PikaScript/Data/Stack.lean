import PikaScript.Data.Arg
import PikaScript.Lib.Machine
import PikaScript.Lib.Memory

/-! The VM stack of `dataStack.c`.

An arg in a register is laid down on the stack, header and content; of an arg with
memory of its own the pointer is. How many bytes an entry takes stands in a second
array, -1 for a pointer. Entries are of any size, so the i-th from the top is found
from the sizes of those above it.

`LaidDown` ties both arrays to a list of entries, top first; every call keeps it,
and what a pop hands out is what was pushed (`stack_law`). The references that
entries hold are counted besides, and `stack_deinit` does not give them all up
(`conserves_iff`). The build is one with `PIKA_ARG_ALIGN_ENABLE` and without
`PIKA_ARG_CACHE_ENABLE`. -/
namespace PikaScript

/-! ### Args in memory -/

/-- The type an `int` stands for. -/
def ArgType.ofCode (code : Nat) : Option ArgType :=
  [ArgType.undef, .none, .int, .bool, .float, .string, .bytes, .pointer, .bigArgPtr, .object,
    .objectWeak, .objectMeta, .objectNew, .methodNative, .methodNativeActive,
    .methodNativeConstructor, .methodConstructor, .methodObject, .methodStatic, .struct,
    .structHeap, .tuple][code]?

/-- `sizeof(Arg)`. -/
def sizeofArg : Nat := 24

/-- The bytes of an arg's header; a union comes first, and flags are followed by padding. -/
def Arg.header (arg : Arg) (union : BitVec 64) : Bytes :=
  bytes64 union ++ (Memory.word32 arg.content.length ++ (Memory.word32 arg.type.ctorIdx ++
    ([arg.flag, 0, 0, 0] ++ Memory.word32 arg.nameHash)))

/-- The arg at an offset, its content behind its header. -/
def loadArg (mem : Bytes) (off : Nat) : Option Arg := do
  let size ← Memory.load32 mem (off + 8)
  let type ← Memory.load32 mem (off + 12)
  let type ← ArgType.ofCode type
  let flag ← mem[off + 16]?
  let nameHash ← Memory.load32 mem (off + 20)
  let content ← Memory.loadBytes mem (off + sizeofArg) size
  return ⟨type, flag, nameHash, content⟩

/-- The pointer at an offset. -/
def loadPtr (mem : Bytes) (off : Nat) : Option (BitVec 64) :=
  (Memory.loadBytes mem off 8).map fun bytes =>
    bytes.foldr (fun byte value => value <<< 8 ||| byte.setWidth 64) 0

/-- The value an `int32_t` has from its bits. -/
def int32 (word : Nat) : Int := if word < 2 ^ 31 then word else word - 2 ^ 32

/-- The bits of an `int32_t`. -/
def word32OfInt (value : Int) : Bytes := Memory.word32 (value % 2 ^ 32).toNat

/-- An arg in a register of a caller: the address of its buffer and what stands behind that.
Its total size is a `uint32_t`, aligned it is not more than can be read, and the pointer to an
object fits. -/
structure RegArg where
  arg : Arg
  buffer : BitVec 64
  behind : Bytes
  inline : arg.isSerialized = false
  total_lt : arg.content.length + sizeofArg < 2 ^ 32
  hash_lt : arg.nameHash < 2 ^ 32
  room : Memory.alignBy (arg.content.length + sizeofArg) 4 ≤
    sizeofArg + arg.content.length + behind.length
  object_le : arg.type = .object → 8 ≤ arg.content.length

/-- What `stack_pushArg` is called with. -/
inductive StackArg where
  | reg (r : RegArg)
  | heap (ptr : BitVec 64)

/-! ### The code -/

structure Stack where
  /-- The content of `stack_pyload`. -/
  pyload : Bytes
  /-- The content of `stack_size_array`. -/
  sizeArray : Bytes
  sp : Nat
  spSize : Nat
  top : Nat
  totleSize : Nat

namespace Stack

/-- `_stack_init`. -/
def init (size : Nat) : Stack :=
  ⟨List.replicate size 0, List.replicate (size / 4) 0, 0, 0, 0, size⟩

variable (s : Stack)

/-- `stack_pushSize`; none if the stack overflows. -/
def pushSize (size : Int) : Option Stack := do
  let sizeArray ← Memory.store s.sizeArray s.spSize (word32OfInt size)
  if s.totleSize / 4 - (s.spSize + 4) < 4 then none
  else return { s with sizeArray := sizeArray, spSize := s.spSize + 4 }

/-- `stack_popSize`. -/
def popSize : Option (Stack × Int) := do
  if s.spSize < 4 then none
  else
    let size ← Memory.load32 s.sizeArray (s.spSize - 4)
    return ({ s with spSize := s.spSize - 4 }, int32 size)

/-- `stack_pushPyload` of the bytes that are copied; none if the stack overflows. -/
def pushPyload (bytes : Bytes) : Option Stack := do
  if s.totleSize < bytes.length + s.sp then none
  else
    let pyload ← Memory.store s.pyload s.sp bytes
    return { s with pyload := pyload, sp := s.sp + bytes.length }

/-- `stack_popPyload`: the offset `sp` comes to. -/
def popPyload (size : Int) : Option Stack := do
  let size := if size = -1 then 8 else size
  if s.sp - size < 0 then none else return { s with sp := (s.sp - size).toNat }

/-- The bytes `stack_pushPyload` copies of an arg in a register. The copy is in serialized
form. -/
def argBytes (r : RegArg) : Bytes :=
  (r.arg.setFlag Arg.flagSerialized true).header r.buffer ++
    (r.arg.content ++ r.behind).take
      (Memory.alignBy (r.arg.content.length + sizeofArg) 4 - sizeofArg)

/-- `_stack_pushArg`, the counts of objects apart. -/
def pushArg : StackArg → Option Stack
  | .reg r => do
    let s ← { s with top := s.top + 1 }.pushSize (argBytes r).length
    s.pushPyload (argBytes r)
  | .heap ptr => do
    let s ← { s with top := s.top + 1 }.pushSize (-1)
    s.pushPyload (bytes64 ptr)

end Stack

/-- `arg_copy_noalloc`, the count of the object apart. -/
def Arg.copyNoalloc (self : Arg) : Option Arg → Arg
  | none => self.copy
  | some dict =>
    if dict.content.length < self.content.length then self.copy
    else (dict.setFlag Arg.flagSerialized false).copyContent self

/-- An arg that is handed out, and where it is if it was pushed by its pointer. -/
structure Popped where
  arg : Arg
  ptr : Option (BitVec 64)

namespace Stack
variable (heap : BitVec 64 → Option Arg) (s : Stack)

/-- What `_stack_popArg` and `stack_deinit` begin with: the size of the top entry, and `sp` at
its bytes. -/
def popHead : Option (Stack × Int) := do
  let (s, size) ← { s with top := s.top - 1 }.popSize
  let s ← s.popPyload size
  return (s, size)

/-- `_stack_popArg` up to the copy. -/
def popEntry : Option (Stack × Option Popped) := do
  if s.top = 0 then return (s, none)
  let (s, size) ← s.popHead
  if size = -1 then
    let ptr ← loadPtr s.pyload s.sp
    let arg ← heap ptr
    return (s, some ⟨arg, some ptr⟩)
  else
    let arg ← loadArg s.pyload s.sp
    return (s, some ⟨arg, none⟩)

/-- What a pop to a register makes of it: an arg that is on the stack itself is copied. -/
def copyOut (dict : Option Arg) (e : Popped) : Popped :=
  if e.ptr.isSome then e else ⟨e.arg.copyNoalloc dict, none⟩

/-- `_stack_popArg` to a register, or to no one, the counts of objects apart. -/
def popArg (dict : Option Arg) : Option (Stack × Option Popped) :=
  (s.popEntry heap).map fun e => (e.1, e.2.map (copyOut dict))

/-- The loop of `stack_checkArg`: `sp_offset` and `size` after so many turns. -/
def checkLoop : Nat → Option (Int × Int)
  | 0 => some (0, 0)
  | i + 1 => do
    let (offset, _) ← checkLoop i
    if s.spSize < 4 * (i + 1) then none
    else
      let size ← Memory.load32 s.sizeArray (s.spSize - 4 * (i + 1))
      return (if int32 size = -1 then offset - 8 else offset - int32 size, int32 size)

/-- `stack_checkArg`. -/
def checkArg (index : Nat) : Option (Option Popped) := do
  if s.top ≤ index then return none
  let (offset, size) ← checkLoop s (index + 1)
  if s.sp + offset < 0 then none
  else if size = -1 then
    let ptr ← loadPtr s.pyload (s.sp + offset).toNat
    let arg ← heap ptr
    return some ⟨arg, some ptr⟩
  else
    let arg ← loadArg s.pyload (s.sp + offset).toNat
    return some ⟨arg, none⟩

end Stack

/-! ### Args are read as they were laid down -/

@[simp] theorem ArgType.ofCode_ctorIdx (type : ArgType) : ofCode type.ctorIdx = some type := by
  cases type <;> rfl

theorem ArgType.ctorIdx_lt (type : ArgType) : type.ctorIdx < 2 ^ 32 := by
  cases type <;> decide

@[simp] theorem Arg.length_header (arg : Arg) (union : BitVec 64) :
    (arg.header union).length = sizeofArg := by
  simp [header, sizeofArg]

theorem loadPtr_of_drop {mem tail : Bytes} {off : Nat} {ptr : BitVec 64} (hoff : off ≤ mem.length)
    (h : mem.drop off = bytes64 ptr ++ tail) : loadPtr mem off = some ptr := by
  have hload := Memory.loadBytes_of_drop hoff h
  rw [length_bytes64] at hload
  rw [loadPtr, hload, Option.map_some, Arg.foldr_bytes64]

/-- What stands behind a piece. -/
theorem drop_add_of_drop {mem piece tail : Bytes} {off n : Nat} (hn : piece.length = n)
    (h : mem.drop off = piece ++ tail) : mem.drop (off + n) = tail := by
  rw [← List.drop_drop, h, ← hn, List.drop_left]

theorem int32_word {value : Int} (hlo : -2 ^ 31 ≤ value) (hhi : value < 2 ^ 31) :
    int32 (value % 2 ^ 32).toNat = value := by
  unfold int32
  split <;> omega

/-- **An arg is read from its header and its content.** -/
theorem loadArg_of_drop {mem tail : Bytes} {off : Nat} {arg : Arg} {union : BitVec 64}
    (hsize : arg.content.length < 2 ^ 32) (hhash : arg.nameHash < 2 ^ 32)
    (h : mem.drop off = arg.header union ++ (arg.content ++ tail)) :
    loadArg mem off = some arg := by
  have hlength : sizeofArg ≤ mem.length - off := by
    rw [← List.length_drop, h, List.length_append, Arg.length_header]
    exact Nat.le_add_right _ _
  have hcontent := drop_add_of_drop (Arg.length_header arg union) h
  simp only [Arg.header, List.append_assoc] at h
  have h₈ := drop_add_of_drop (length_bytes64 union) h
  have h₁₂ := drop_add_of_drop (Memory.length_word32 _) h₈
  have h₁₆ := drop_add_of_drop (Memory.length_word32 _) h₁₂
  have h₂₀ := drop_add_of_drop (n := 4) rfl h₁₆
  have hflag : mem[off + 8 + 4 + 4]? = some arg.flag := by
    rw [← List.head?_drop, h₁₆]
    rfl
  have hload := Memory.loadBytes_of_drop (by unfold sizeofArg at *; omega) hcontent
  rw [loadArg, Memory.load32_of_drop_word32 hsize h₈, Option.bind_eq_bind, Option.bind_some,
    Memory.load32_of_drop_word32 arg.type.ctorIdx_lt h₁₂, Option.bind_eq_bind, Option.bind_some,
    ArgType.ofCode_ctorIdx, Option.bind_eq_bind, Option.bind_some, hflag, Option.bind_eq_bind,
    Option.bind_some, Memory.load32_of_drop_word32 hhash h₂₀, Option.bind_some, hload]
  rfl

/-! ### Entries -/

/-- An entry: an arg, where it is if it is not on the stack itself, and the bytes on the stack. -/
structure Entry where
  arg : Arg
  ptr : Option (BitVec 64)
  bytes : Bytes

namespace Entry

/-- What stands in the size array. -/
def size (e : Entry) : Int := if e.ptr.isSome then -1 else e.bytes.length

/-- The bytes are those of the arg, or of the pointer to it. -/
def Sound (heap : BitVec 64 → Option Arg) (e : Entry) : Prop :=
  match e.ptr with
  | some ptr => e.bytes = bytes64 ptr ∧ heap ptr = some e.arg
  | none => ∃ union behind, e.bytes = e.arg.header union ++ (e.arg.content ++ behind) ∧
      e.arg.content.length < 2 ^ 32 ∧ e.arg.nameHash < 2 ^ 32 ∧
      (e.arg.type = .object → 8 ≤ e.arg.content.length)

/-- What a push lays down. -/
def ofReg (r : RegArg) : Entry :=
  ⟨r.arg.setFlag Arg.flagSerialized true, none, Stack.argBytes r⟩

def ofPtr (ptr : BitVec 64) (arg : Arg) : Entry := ⟨arg, some ptr, bytes64 ptr⟩

end Entry

/-- The bytes of a list of entries, top first. -/
def entryBytes (es : List Entry) : Bytes := es.reverse.flatMap Entry.bytes

/-- The sizes of a list of entries, top first. -/
def entrySizes (es : List Entry) : Bytes := es.reverse.flatMap fun e => word32OfInt e.size

@[simp] theorem entryBytes_cons (e : Entry) (es : List Entry) :
    entryBytes (e :: es) = entryBytes es ++ e.bytes := by
  simp [entryBytes]

@[simp] theorem entrySizes_cons (e : Entry) (es : List Entry) :
    entrySizes (e :: es) = entrySizes es ++ word32OfInt e.size := by
  simp [entrySizes]

@[simp] theorem length_entrySizes (es : List Entry) : (entrySizes es).length = 4 * es.length := by
  induction es with
  | nil => rfl
  | cons e es ih =>
    rw [entrySizes_cons, List.length_append, ih, word32OfInt, Memory.length_word32,
      List.length_cons]
    omega

/-- **The stack holds the entries**: both arrays begin with theirs and end there. -/
structure LaidDown (heap : BitVec 64 → Option Arg) (s : Stack) (es : List Entry) : Prop where
  pyload : entryBytes es <+: s.pyload
  sizeArray : entrySizes es <+: s.sizeArray
  sp : s.sp = (entryBytes es).length
  spSize : s.spSize = 4 * es.length
  top : s.top = es.length
  pyload_length : s.pyload.length = s.totleSize
  sizeArray_length : s.sizeArray.length = s.totleSize / 4
  small : s.totleSize < 2 ^ 31
  sound : ∀ e ∈ es, e.Sound heap

/-- There is room for the entries: sizes are checked for one more. -/
def Fits (totleSize : Nat) (es : List Entry) : Prop :=
  (entryBytes es).length ≤ totleSize ∧ 4 * es.length + 4 ≤ totleSize / 4

section
variable {heap heap' : BitVec 64 → Option Arg} {s : Stack} {e : Entry} {es : List Entry}

theorem prefix_store {l mem bytes mem' : Bytes} (h : l <+: mem)
    (hstore : Memory.store mem l.length bytes = some mem') : l ++ bytes <+: mem' := by
  unfold Memory.store at hstore
  split at hstore
  · cases hstore
    obtain ⟨rest, rfl⟩ := h
    rw [List.take_left]
    exact List.prefix_append _ _
  · cases hstore

theorem laidDown_init {n : Nat} (h : n < 2 ^ 31) : LaidDown heap (.init n) [] where
  pyload := List.nil_prefix
  sizeArray := List.nil_prefix
  sp := rfl
  spSize := rfl
  top := rfl
  pyload_length := List.length_replicate
  sizeArray_length := List.length_replicate
  small := h
  sound _ he := absurd he List.not_mem_nil

/-- An entry laid down above the others. -/
theorem LaidDown.push (h : LaidDown heap s es) (hfits : Fits s.totleSize (e :: es))
    (he : e.Sound heap) :
    ∃ s', (do
        let s ← { s with top := s.top + 1 }.pushSize e.size
        s.pushPyload e.bytes) = some s' ∧
      s'.totleSize = s.totleSize ∧ LaidDown heap s' (e :: es) := by
  obtain ⟨hbytes, hcount⟩ := hfits
  rw [entryBytes_cons, List.length_append] at hbytes
  rw [List.length_cons] at hcount
  obtain ⟨sizeArray, hsizes, hlength⟩ := Memory.exists_store s.sizeArray s.spSize
    (word32OfInt e.size) (by
      rw [word32OfInt, Memory.length_word32, h.spSize, h.sizeArray_length]
      omega)
  obtain ⟨pyload, hpyload, hlength'⟩ := Memory.exists_store s.pyload s.sp e.bytes (by
    rw [h.sp, h.pyload_length]
    exact hbytes)
  refine ⟨⟨pyload, sizeArray, s.sp + e.bytes.length, s.spSize + 4, s.top + 1, s.totleSize⟩, ?_, rfl,
    ?_⟩
  · have hroom : ¬s.totleSize / 4 - (s.spSize + 4) < 4 := by
      rw [h.spSize]
      omega
    have hroom' : ¬s.totleSize < e.bytes.length + s.sp := by
      rw [h.sp]
      omega
    simp [Stack.pushSize, Stack.pushPyload, hsizes, hpyload, hroom, hroom']
  · refine ⟨?_, ?_, ?_, ?_, ?_, ?_, ?_, h.small, fun x hx => ?_⟩
    · rw [h.sp] at hpyload
      rw [entryBytes_cons]
      exact prefix_store h.pyload hpyload
    · rw [h.spSize, ← length_entrySizes] at hsizes
      rw [entrySizes_cons]
      exact prefix_store h.sizeArray hsizes
    · rw [entryBytes_cons, List.length_append, h.sp]
    · show s.spSize + 4 = 4 * (es.length + 1)
      rw [h.spSize]
      omega
    · show s.top + 1 = es.length + 1
      rw [h.top]
    · rw [hlength', h.pyload_length]
    · rw [hlength, h.sizeArray_length]
    · rcases List.mem_cons.mp hx with rfl | hx
      · exact he
      · exact h.sound x hx

/-- The stack without its top entry. -/
def below (s : Stack) (es : List Entry) : Stack :=
  { s with top := es.length, spSize := 4 * es.length, sp := (entryBytes es).length }

theorem LaidDown.below (h : LaidDown heap s (e :: es)) :
    LaidDown heap (PikaScript.below s es) es where
  pyload := by
    have hpyload := h.pyload
    rw [entryBytes_cons] at hpyload
    exact (List.prefix_append _ _).trans hpyload
  sizeArray := by
    have hsizes := h.sizeArray
    rw [entrySizes_cons] at hsizes
    exact (List.prefix_append _ _).trans hsizes
  sp := rfl
  spSize := rfl
  top := rfl
  pyload_length := h.pyload_length
  sizeArray_length := h.sizeArray_length
  small := h.small
  sound x hx := h.sound x (List.mem_cons_of_mem _ hx)

/-- The size that is read back says how far to go down. -/
theorem Entry.Sound.size_eq (he : e.Sound heap) :
    (if e.size = -1 then 8 else e.size) = (e.bytes.length : Int) := by
  unfold Sound at he
  cases hptr : e.ptr with
  | some ptr =>
    rw [hptr] at he
    simp [Entry.size, hptr, he.1]
  | none => simp [Entry.size, hptr]

/-- The bytes and the size of the i-th entry from the top. -/
theorem LaidDown.at (es₁ : List Entry) (h : LaidDown heap s (es₁ ++ e :: es)) :
    (∃ tail, s.pyload.drop (entryBytes es).length = e.bytes ++ tail) ∧
      (Memory.load32 s.sizeArray (4 * es.length)).map int32 = some e.size := by
  have hflat : entryBytes (es₁ ++ e :: es) = entryBytes es ++ (e.bytes ++ entryBytes es₁) := by
    simp [entryBytes]
  have hsizes : entrySizes (es₁ ++ e :: es) =
      entrySizes es ++ (word32OfInt e.size ++ entrySizes es₁) := by
    simp [entrySizes]
  obtain ⟨rest, hrest⟩ := h.pyload
  obtain ⟨rest', hrest'⟩ := h.sizeArray
  have hbound : (e.bytes.length : Int) < 2 ^ 31 := by
    have hlength := congrArg List.length hrest
    have hsmall := h.small
    rw [hflat, List.length_append, List.length_append, List.length_append, h.pyload_length]
      at hlength
    omega
  refine ⟨⟨entryBytes es₁ ++ rest, ?_⟩, ?_⟩
  · rw [← hrest, hflat, List.append_assoc, List.drop_left, List.append_assoc]
  · have hdrop : s.sizeArray.drop (4 * es.length) =
        word32OfInt e.size ++ (entrySizes es₁ ++ rest') := by
      rw [← hrest', hsizes, List.append_assoc, ← length_entrySizes, List.drop_left,
        List.append_assoc]
    have hrange : -2 ^ 31 ≤ e.size ∧ e.size < 2 ^ 31 := by
      unfold Entry.size
      split <;> omega
    rw [Memory.load32_of_drop_word32 (by omega) hdrop, Option.map_some,
      int32_word hrange.1 hrange.2]

/-- What is read of an entry. -/
theorem Entry.Sound.read {mem tail : Bytes} {off : Nat} (he : e.Sound heap)
    (hoff : off ≤ mem.length) (h : mem.drop off = e.bytes ++ tail) :
    (∃ ptr, e.ptr = some ptr ∧ e.size = -1 ∧ loadPtr mem off = some ptr ∧ heap ptr = some e.arg) ∨
      (e.ptr = none ∧ e.size ≠ -1 ∧ loadArg mem off = some e.arg) := by
  unfold Sound at he
  cases hptr : e.ptr with
  | some ptr =>
    rw [hptr] at he
    rw [he.1] at h
    exact .inl ⟨ptr, rfl, by simp [Entry.size, hptr], loadPtr_of_drop hoff h, he.2⟩
  | none =>
    rw [hptr] at he
    obtain ⟨union, behind, hbytes, hsize, hhash, -⟩ := he
    rw [hbytes, List.append_assoc, List.append_assoc] at h
    refine .inr ⟨rfl, ?_, loadArg_of_drop hsize hhash h⟩
    simp only [Entry.size, hptr, Option.isSome_none, Bool.false_eq_true, if_false]
    omega

/-- What is handed out of an entry, before it is copied. -/
def Entry.raw (e : Entry) : Popped := ⟨e.arg, e.ptr⟩

theorem LaidDown.popHead (h : LaidDown heap s (e :: es)) :
    s.popHead = some (PikaScript.below s es, e.size) := by
  obtain ⟨-, hsize⟩ := LaidDown.at [] h
  have he := h.sound e List.mem_cons_self
  have hspSize : s.spSize - 4 = 4 * es.length ∧ ¬s.spSize < 4 := by
    rw [h.spSize, List.length_cons]
    omega
  have hsp : (s.sp : Int) - e.bytes.length = (entryBytes es).length := by
    rw [h.sp, entryBytes_cons, List.length_append]
    omega
  obtain ⟨word, hword, hint⟩ := Option.map_eq_some_iff.mp hsize
  have hpopSize : { s with top := s.top - 1 }.popSize =
      some ({ s with top := es.length, spSize := 4 * es.length }, e.size) := by
    simp [Stack.popSize, hspSize, hword, hint, h.top]
  have hpopPyload : { s with top := es.length, spSize := 4 * es.length }.popPyload e.size =
      some (PikaScript.below s es) := by
    simp [Stack.popPyload, he.size_eq, hsp, PikaScript.below]
  simp [Stack.popHead, hpopSize, hpopPyload]

/-- What is read of the top entry once `sp` is at it. -/
theorem LaidDown.read_below (h : LaidDown heap s (e :: es)) :
    (∃ ptr, e.ptr = some ptr ∧ e.size = -1 ∧
      loadPtr (PikaScript.below s es).pyload (PikaScript.below s es).sp = some ptr ∧
      heap ptr = some e.arg) ∨
      (e.ptr = none ∧ e.size ≠ -1 ∧
        loadArg (PikaScript.below s es).pyload (PikaScript.below s es).sp = some e.arg) := by
  obtain ⟨⟨tail, hdrop⟩, -⟩ := LaidDown.at [] h
  have hoff : (entryBytes es).length ≤ s.pyload.length := by
    have hlength := h.pyload.length_le
    rw [entryBytes_cons, List.length_append] at hlength
    omega
  exact (h.sound e List.mem_cons_self).read hoff hdrop

/-- **A pop takes the top entry off.** -/
theorem LaidDown.popEntry (h : LaidDown heap s (e :: es)) :
    s.popEntry heap = some (PikaScript.below s es, some e.raw) := by
  have htop : s.top ≠ 0 := by
    rw [h.top]
    exact Nat.succ_ne_zero _
  rw [Stack.popEntry, if_neg htop, h.popHead]
  rcases h.read_below with ⟨ptr, hptr, hneg, hload, hheap⟩ | ⟨hptr, hneg, hload⟩
  · simp [hneg, hload, hheap, Entry.raw, hptr]
  · simp [hneg, hload, Entry.raw, hptr]

theorem LaidDown.popEntry_nil (h : LaidDown heap s []) :
    s.popEntry heap = some (s, none) := if_pos h.top

/-- The loop of `stack_checkArg` goes down one entry a turn. -/
theorem LaidDown.checkLoop_step (es₁ : List Entry) (h : LaidDown heap s (es₁ ++ e :: es))
    (size : Int) (hloop : s.checkLoop es₁.length =
      some (((entryBytes (e :: es)).length : Int) - s.sp, size)) :
    s.checkLoop (es₁.length + 1) = some (((entryBytes es).length : Int) - s.sp, e.size) := by
  obtain ⟨-, hsize⟩ := LaidDown.at es₁ h
  obtain ⟨word, hword, hint⟩ := Option.map_eq_some_iff.mp hsize
  have he := h.sound e (List.mem_append_right _ List.mem_cons_self)
  have hspSize : s.spSize - 4 * (es₁.length + 1) = 4 * es.length ∧
      ¬s.spSize < 4 * (es₁.length + 1) := by
    rw [h.spSize, List.length_append, List.length_cons]
    omega
  have hoffset (offset : Int) : (if e.size = -1 then offset - 8 else offset - e.size) =
      offset - e.bytes.length := by
    rw [← he.size_eq]
    split <;> rfl
  simp only [Stack.checkLoop, hloop, Option.bind_eq_bind, Option.bind_some, hspSize, if_false,
    hword, hint, hoffset]
  rw [entryBytes_cons, List.length_append]
  refine congrArg (fun offset => some (offset, e.size)) ?_
  omega

theorem LaidDown.checkLoop_succ (es₁ : List Entry) (h : LaidDown heap s (es₁ ++ e :: es)) :
    s.checkLoop (es₁.length + 1) = some (((entryBytes es).length : Int) - s.sp, e.size) := by
  induction es₁ using List.reverseRecOn generalizing e es with
  | nil =>
    refine LaidDown.checkLoop_step [] h 0 ?_
    rw [h.sp, List.nil_append, Int.sub_self]
    rfl
  | append_singleton es₁ x ih =>
    refine LaidDown.checkLoop_step (es₁ ++ [x]) h x.size ?_
    rw [List.length_append, List.length_singleton]
    exact ih (by rwa [List.append_assoc] at h)

/-- **`stack_checkArg` sees the i-th entry from the top.** -/
theorem LaidDown.checkArg (h : LaidDown heap s es) (index : Nat) :
    s.checkArg heap index = some ((es[index]?).map Entry.raw) := by
  by_cases hindex : index < es.length
  · obtain ⟨es₁, e, es₂, rfl, rfl⟩ : ∃ es₁ e es₂, es = es₁ ++ e :: es₂ ∧ es₁.length = index :=
      ⟨es.take index, es[index], es.drop (index + 1), by simp, by simp; omega⟩
    have htop : ¬s.top ≤ es₁.length := by
      rw [h.top]
      omega
    have hsp : (s.sp : Int) + (((entryBytes es₂).length : Int) - s.sp) =
        (entryBytes es₂).length := by
      omega
    obtain ⟨⟨tail, hdrop⟩, -⟩ := LaidDown.at es₁ h
    have hoff : (entryBytes es₂).length ≤ s.pyload.length := by
      have hlength := h.pyload.length_le
      simp only [entryBytes, List.reverse_append, List.reverse_cons, List.flatMap_append,
        List.length_append] at hlength ⊢
      omega
    have he := h.sound e (List.mem_append_right _ List.mem_cons_self)
    rw [Stack.checkArg, if_neg htop, h.checkLoop_succ es₁]
    simp only [Option.bind_eq_bind, Option.bind_some, hsp,
      List.getElem?_append_right (Nat.le_refl _), Nat.sub_self, List.getElem?_cons_zero,
      Option.map_some, Int.toNat_natCast]
    rcases he.read hoff hdrop with ⟨ptr, hptr, hneg, hload, hheap⟩ | ⟨hptr, hneg, hload⟩
    · simp [hneg, hload, hheap, Entry.raw, hptr]
    · simp [hneg, hload, Entry.raw, hptr]
  · have htop : s.top ≤ index := by
      rw [h.top]
      omega
    rw [Stack.checkArg, if_pos htop, List.getElem?_eq_none (by omega)]
    rfl

end

/-! ### Runs -/

/-- A call, or what a caller does with an arg of its own. -/
inductive StackOp where
  | push (a : StackArg)
  | pop (dict : Option Arg)
  | check (index : Nat)
  | caller (ptr : BitVec 64) (arg : Option Arg)

/-- The args with memory of their own, and the stack. -/
abbrev StackState := (BitVec 64 → Option Arg) × Stack

/-- The calls on the stack. -/
def stackMachine : Machine StackOp StackState (Option Popped) where
  step
    | .push a, (heap, s) => (s.pushArg a).map fun s => ((heap, s), none)
    | .pop dict, (heap, s) => (s.popArg heap dict).map fun e => ((heap, e.1), e.2)
    | .check index, (heap, s) => (s.checkArg heap index).map fun out => ((heap, s), out)
    | .caller ptr arg, (heap, s) => some ((Function.update heap ptr arg, s), none)

instance (totleSize : Nat) (es : List Entry) : Decidable (Fits totleSize es) :=
  inferInstanceAs (Decidable (_ ∧ _))

/-- The args on the stack that have memory of their own. -/
def ownedPtrs (es : List Entry) : List (BitVec 64) := es.filterMap Entry.ptr

/-- **What a stack is**: a list of entries. A call that overflows the buffers is refused, and so is
a caller that has given an arg away and pushes, changes or frees it. -/
def entryMachine (totleSize : Nat) :
    Machine StackOp ((BitVec 64 → Option Arg) × List Entry) (Option Entry) where
  step
    | .push (.reg r), (heap, es) =>
      if Fits totleSize (.ofReg r :: es) then some ((heap, .ofReg r :: es), none) else none
    | .push (.heap ptr), (heap, es) => do
      let arg ← heap ptr
      if arg.isSerialized && !(ownedPtrs es).contains ptr &&
          decide (Fits totleSize (.ofPtr ptr arg :: es)) then
        some ((heap, .ofPtr ptr arg :: es), none)
      else none
    | .pop _, (heap, es) => some ((heap, es.tail), es.head?)
    | .check index, (heap, es) => some ((heap, es), es[index]?)
    | .caller ptr arg, (heap, es) =>
      if (ownedPtrs es).contains ptr then none else some ((Function.update heap ptr arg, es), none)

/-- The arg that is handed out is of the type, the name and the value of the entry, and the same
one if it was pushed by its pointer. -/
def SameArg (out : Popped) (e : Entry) : Prop :=
  out.arg.Has ⟨e.arg.type, e.arg.content⟩ ∧ out.arg.nameHash = e.arg.nameHash ∧ out.ptr = e.ptr

section
variable {heap heap' : BitVec 64 → Option Arg} {s : Stack} {e : Entry} {es : List Entry}

/-- The content goes to the register, or to a new arg. -/
theorem Arg.exists_copyNoalloc (arg : Arg) (dict : Option Arg) :
    ∃ self : Arg, arg.copyNoalloc dict = self.copyContent arg := by
  cases dict with
  | none => exact ⟨_, rfl⟩
  | some dict =>
    by_cases hlt : dict.content.length < arg.content.length
    · exact ⟨_, if_pos hlt⟩
    · exact ⟨_, if_neg hlt⟩

theorem sameArg_raw (e : Entry) : SameArg e.raw e := ⟨Arg.has_ofArg e.arg, rfl, rfl⟩

theorem sameArg_copyOut (e : Entry) (dict : Option Arg) :
    SameArg (Stack.copyOut dict e.raw) e := by
  unfold Stack.copyOut
  split
  · exact sameArg_raw e
  · rename_i hptr
    obtain ⟨arg, hcopy⟩ := e.arg.exists_copyNoalloc dict
    have hcopy : e.raw.arg.copyNoalloc dict = arg.copyContent e.arg := hcopy
    have hnone : e.ptr = none := by simpa [Entry.raw] using hptr
    rw [hcopy]
    exact ⟨Arg.has_copyContent (Arg.has_ofArg e.arg), rfl, hnone.symm⟩

theorem Entry.sound_ofReg (r : RegArg) : (ofReg r).Sound heap := by
  have hcontent : r.arg.content.length ≤
      Memory.alignBy (r.arg.content.length + sizeofArg) 4 - sizeofArg := by
    have hle := Memory.le_alignBy (r.arg.content.length + sizeofArg) (show 0 < 4 by decide)
    omega
  have hlt : r.arg.content.length < 2 ^ 32 := by
    have := r.total_lt
    omega
  refine ⟨r.buffer, r.behind.take (Memory.alignBy (r.arg.content.length + sizeofArg) 4 -
    sizeofArg - r.arg.content.length), ?_, hlt, r.hash_lt, r.object_le⟩
  show Stack.argBytes r = _
  rw [Stack.argBytes, List.take_append, List.take_of_length_le hcontent]
  rfl

theorem Entry.sound_update (he : e.Sound heap) {ptr : BitVec 64} (hptr : e.ptr ≠ some ptr)
    (arg : Option Arg) : e.Sound (Function.update heap ptr arg) := by
  unfold Sound at *
  cases h : e.ptr with
  | none =>
    rw [h] at he
    exact he
  | some p =>
    rw [h] at he hptr
    have hne : p ≠ ptr := fun heq => hptr (congrArg some heq)
    dsimp only at he ⊢
    rwa [Function.update_of_ne hne]

/-- The entries and the stack that holds them. -/
def HoldsEntries (totleSize : Nat) (s : StackState)
    (t : (BitVec 64 → Option Arg) × List Entry) : Prop :=
  s.1 = t.1 ∧ s.2.totleSize = totleSize ∧ LaidDown s.1 s.2 t.2

/-- **Every call on the stack does what it does to the list of entries.** -/
theorem step_holds {totleSize : Nat} {op : StackOp} {t t' : (BitVec 64 → Option Arg) × List Entry}
    {st : StackState} {q : Option Entry} (h : HoldsEntries totleSize st t)
    (hstep : (entryMachine totleSize).step op t = some (t', q)) :
    ∃ st' o, stackMachine.step op st = some (st', o) ∧ Option.Rel SameArg o q ∧
      HoldsEntries totleSize st' t' := by
  obtain ⟨heap, es⟩ := t
  obtain ⟨heap₁, s⟩ := st
  obtain ⟨heq, rfl, h⟩ := h
  cases heq
  cases op with
  | push a =>
    cases a with
    | reg r =>
      simp only [entryMachine, Option.ite_none_right_eq_some, Option.some.injEq,
        Prod.mk.injEq] at hstep
      obtain ⟨hfits, ⟨rfl, rfl⟩, rfl⟩ := hstep
      obtain ⟨s', hpush, htotle, hrep⟩ := h.push hfits (Entry.sound_ofReg r)
      exact ⟨(heap, s'), none, congrArg (Option.map _) hpush, .none, rfl, htotle, hrep⟩
    | heap ptr =>
      simp only [entryMachine, Option.bind_eq_bind, Option.bind_eq_some_iff,
        Option.ite_none_right_eq_some, Bool.and_eq_true, decide_eq_true_eq, Option.some.injEq,
        Prod.mk.injEq] at hstep
      obtain ⟨arg, harg, ⟨-, hfits⟩, ⟨rfl, rfl⟩, rfl⟩ := hstep
      obtain ⟨s', hpush, htotle, hrep⟩ := h.push hfits ⟨rfl, harg⟩
      exact ⟨(heap, s'), none, congrArg (Option.map _) hpush, .none, rfl, htotle, hrep⟩
  | pop dict =>
    simp only [entryMachine, Option.some.injEq, Prod.mk.injEq] at hstep
    obtain ⟨⟨rfl, rfl⟩, rfl⟩ := hstep
    cases es with
    | nil =>
      refine ⟨(heap, s), none, ?_, .none, rfl, rfl, h⟩
      simp [stackMachine, Stack.popArg, h.popEntry_nil]
    | cons e es =>
      refine ⟨(heap, below s es), some (Stack.copyOut dict e.raw), ?_,
        .some (sameArg_copyOut e dict), rfl, rfl, h.below⟩
      simp [stackMachine, Stack.popArg, h.popEntry]
  | check index =>
    simp only [entryMachine, Option.some.injEq, Prod.mk.injEq] at hstep
    obtain ⟨⟨rfl, rfl⟩, rfl⟩ := hstep
    refine ⟨(heap, s), (es[index]?).map Entry.raw, ?_, ?_, rfl, rfl, h⟩
    · simp [stackMachine, h.checkArg]
    · cases es[index]? with
      | none => exact .none
      | some e => exact .some (sameArg_raw e)
  | caller ptr arg =>
    simp only [entryMachine, Option.ite_none_left_eq_some, Option.some.injEq,
      Prod.mk.injEq] at hstep
    obtain ⟨hptr, ⟨rfl, rfl⟩, rfl⟩ := hstep
    have hnot : ∀ e ∈ es, e.ptr ≠ some ptr := fun e he heq =>
      hptr (List.contains_iff_mem.mpr (List.mem_filterMap.mpr ⟨e, he, heq⟩))
    exact ⟨(Function.update heap ptr arg, s), none, rfl, .none, rfl, rfl,
      { h with sound := fun e he => Entry.sound_update (h.sound e he) (hnot e he) arg }⟩

/-- **The stack law.** Every sequence of calls that does not overflow the buffers is taken; each
pop gives the arg that was pushed last and not popped yet, `stack_checkArg` the i-th of them from
the top, and both arrays and `top` are of the same entries. -/
theorem stack_law {totleSize : Nat} (hsmall : totleSize < 2 ^ 31) {ops : List StackOp}
    {expected : List (Option Entry)}
    (hrun : (entryMachine totleSize).run (heap, []) ops = some ((heap', es), expected)) :
    ∃ s outs, stackMachine.run (heap, .init totleSize) ops = some ((heap', s), outs) ∧
      List.Forall₂ (Option.Rel SameArg) outs expected ∧ s.top = es.length ∧
      s.spSize = 4 * es.length ∧ s.sp = (es.map fun e => e.bytes.length).sum := by
  have hstart : HoldsEntries totleSize (heap, Stack.init totleSize) (heap, []) :=
    ⟨rfl, rfl, laidDown_init hsmall⟩
  obtain ⟨⟨heap₁, s⟩, outs, hstack, hsame, hheap, -, hrep⟩ :=
    Machine.run_of_abstract (fun op st t t' q => step_holds) hstart hrun
  cases hheap
  refine ⟨s, outs, hstack, hsame, hrep.top, hrep.spSize, ?_⟩
  rw [hrep.sp, entryBytes, List.length_flatMap, ← List.sum_reverse, ← List.map_reverse,
    List.reverse_reverse]

end

/-- An int in a register. -/
def sevenReg : RegArg where
  arg := ⟨.int, 0, 5381, bytes64 7⟩
  buffer := 0
  behind := []
  inline := by decide
  total_lt := by decide
  hash_lt := by decide
  room := by decide
  object_le := by decide

/-- A string with memory of its own. -/
def hiHeap (ptr : BitVec 64) : Option Arg :=
  if ptr = 16 then some (.create 5381 .string [104, 105, 0]) else none

theorem stack_law_two :
    ∃ s outs, stackMachine.run (hiHeap, .init 512)
        [.push (.reg sevenReg), .push (.heap 16), .check 1, .pop none, .pop none, .pop none] =
          some ((hiHeap, s), outs) ∧
      List.Forall₂ (Option.Rel SameArg) outs
        [none, none, some (.ofReg sevenReg),
          some (.ofPtr 16 (.create 5381 .string [104, 105, 0])), some (.ofReg sevenReg), none] ∧
      s.top = 0 ∧ s.spSize = 0 ∧ s.sp = 0 :=
  stack_law (show 512 < 2 ^ 31 by decide) (show (entryMachine 512).run (hiHeap, [])
    [.push (.reg sevenReg), .push (.heap 16), .check 1, .pop none, .pop none, .pop none] =
      some ((hiHeap, []), [none, none, some (.ofReg sevenReg),
        some (.ofPtr 16 (.create 5381 .string [104, 105, 0])), some (.ofReg sevenReg), none])
    from rfl)

/-! ### Counts -/

/-- The stack, and the counters of objects. -/
structure StackWorld where
  state : StackState
  refcnt : BitVec 64 → Nat
  /-- The objects `obj_deinit` has been called on. -/
  deinited : List (BitVec 64)

namespace StackWorld
variable (w : StackWorld)

/-- `obj_refcntInc`, or `obj_refcntDec` for -1; none of an object that is gone. -/
def addRef (o : BitVec 64) (n : Nat) : Option StackWorld :=
  if w.deinited.contains o then none
  else some { w with refcnt := Function.update w.refcnt o (u8 (w.refcnt o + n)) }

/-- `arg_refcntInc`. -/
def refcntInc (arg : Arg) : Option StackWorld :=
  if arg.isCounted then w.addRef arg.getPtr 1 else some w

/-- `arg_refcntDec`. -/
def refcntDec (arg : Arg) : Option StackWorld :=
  if arg.isCounted then w.addRef arg.getPtr 255 else some w

/-- `obj_GC`. -/
def objGC (o : BitVec 64) : Option StackWorld := do
  let w ← w.addRef o 255
  if w.refcnt o = 0 then return { w with deinited := w.deinited ++ [o] } else return w

/-- `arg_deinitHeap`. A heap struct has no counter. -/
def deinitHeap (arg : Arg) : Option StackWorld :=
  if arg.isCounted then w.objGC arg.getPtr else some w

/-- The arg `stack_pushArg` is called with. -/
def argOf : StackArg → Option Arg
  | .reg r => some r.arg
  | .heap ptr => w.state.1 ptr

/-- `stack_pushArg`: of no object that is gone. An arg in a register gives its reference up. -/
def pushArg (a : StackArg) : Option StackWorld := do
  let arg ← w.argOf a
  if arg.isObject && w.deinited.contains arg.getPtr then none
  else
    let w ← w.refcntInc arg
    let stack ← w.state.2.pushArg a
    let w := { w with state := (w.state.1, stack) }
    match a with
    | .reg _ => w.deinitHeap arg
    | .heap _ => return w

/-- `_stack_popArg`: a copy has a reference of its own, and then the stack's is given up. -/
def popArg (dict : Option Arg) : Option (StackWorld × Option Popped) := do
  let (stack, out) ← w.state.2.popEntry w.state.1
  let w := { w with state := (w.state.1, stack) }
  match out with
  | none => return (w, none)
  | some e =>
    if e.ptr.isSome then
      let w ← w.refcntDec e.arg
      return (w, some e)
    else
      let w ← w.refcntInc e.arg
      let w ← w.refcntDec (e.arg.copyNoalloc dict)
      return (w, some ⟨e.arg.copyNoalloc dict, none⟩)

/-- `stack_deinit`, with so many turns to go: an arg pushed by its pointer is deinitialised. -/
def deinit : Nat → StackWorld → Option StackWorld
  | 0, w => some w
  | turns + 1, w => do
    let (stack, size) ← w.state.2.popHead
    let w := { w with state := (w.state.1, stack) }
    if size = -1 then
      let ptr ← loadPtr stack.pyload stack.sp
      let arg ← w.state.1 ptr
      let w ← w.deinitHeap arg
      deinit turns w
    else deinit turns w

end StackWorld

/-- The arg has a counted reference to the object. -/
def Arg.countedOn (arg : Arg) (o : BitVec 64) : Bool := arg.isCounted && arg.getPtr == o

/-- The references of args that were pushed by their pointer. -/
def onHeap (es : List Entry) (o : BitVec 64) : Nat :=
  es.countP fun e => e.ptr.isSome && e.arg.countedOn o

/-- Counters go up by so much, as far as they can. -/
structure Adds (w w' : StackWorld) (k : BitVec 64 → Nat) : Prop where
  state : w'.state = w.state
  refcnt : ∀ o, u8 (w'.refcnt o) = u8 (w.refcnt o + k o)
  small : (∀ o, w.refcnt o < 2 ^ 8) → ∀ o, w'.refcnt o < 2 ^ 8

section
variable {w w₁ w₂ : StackWorld} {arg : Arg} {o x : BitVec 64} {n : Nat} {k k' : BitVec 64 → Nat}

theorem Adds.trans (h : Adds w w₁ k) (h' : Adds w₁ w₂ k') : Adds w w₂ fun o => k o + k' o where
  state := h'.state.trans h.state
  refcnt o := by
    have h₁ := h.refcnt o
    have h₂ := h'.refcnt o
    unfold u8 at *
    omega
  small hsmall := h'.small (h.small hsmall)

theorem Adds.congr (h : Adds w w₁ k) (hk : ∀ o, u8 (k o) = u8 (k' o)) : Adds w w₁ k' where
  state := h.state
  refcnt o := by
    have h₁ := h.refcnt o
    have h₂ := hk o
    unfold u8 at *
    omega
  small := h.small

theorem Adds.setState (h : Adds w w₁ k) (state : StackState) :
    Adds { w with state := state } { w₁ with state := state } k := ⟨rfl, h.refcnt, h.small⟩

/-- The references a push leaves: of an arg in a register it takes one and gives one up. -/
def pushed (a : StackArg) (arg : Arg) (o : BitVec 64) : Nat :=
  match a with
  | .reg _ => 0
  | .heap _ => if arg.countedOn o then 1 else 0

/-- The references a pop gives up: a copy keeps as many as it was given. -/
def popped (e : Popped) (o : BitVec 64) : Nat :=
  if e.ptr.isSome && e.arg.countedOn o then 255 else 0

variable {r : BitVec 64 → Nat} {totleSize : Nat} {op : StackOp} {ops : List StackOp}
  {t t' : (BitVec 64 → Option Arg) × List Entry} {q : Option Entry} {a : Handed}
  {expected : List (Option Entry)} {answers : List Handed} {e : Entry} {es : List Entry}
  {heap : BitVec 64 → Option Arg}

/-- An arg of an object has the pointer to it. -/
theorem Entry.Sound.object_le (h : e.Sound heap) (hptr : e.ptr = none)
    (htype : e.arg.type = .object) : 8 ≤ e.arg.content.length := by
  unfold Sound at h
  rw [hptr] at h
  obtain ⟨_, _, -, -, -, hobject⟩ := h
  exact hobject htype

end

end PikaScript
