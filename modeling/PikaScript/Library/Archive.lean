import Mathlib.Algebra.Order.BigOperators.Group.List
import Mathlib.Data.List.DropRight
import PikaScript.Data.Arg
import PikaScript.Lib.KeyedList
import PikaScript.Lib.Memory

/-! The module library of `PikaCompiler.c` and its archive file.

A library object holds one object for each module, newest first, found by the
hash of its name. Linking writes a header block, one block with the name and
the size of each module, and then the contents, each padded to four bytes. The
reader walks the blocks and adds the sizes up. -/
namespace PikaScript
open Memory

/-! ### The code -/

def charDot : BitVec 8 := 0x2e
def charSlash : BitVec 8 := 0x2f
def charBar : BitVec 8 := 0x7c

/-- `strsReplace` of one character by another. -/
def strsReplace (orig : CString) (rep char : BitVec 8) : CString :=
  orig.map fun c => if c = rep then char else c

theorem strsReplace_of_not_mem {orig : CString} {rep : BitVec 8} (h : rep ∉ orig)
    (char : BitVec 8) : strsReplace orig rep char = orig := by
  rw [strsReplace, List.map_congr_left (g := id), List.map_id]
  intro c hc
  exact if_neg fun (heq : c = rep) => h (heq ▸ hc)

/-- `strsGetLastToken`: what stands behind the last `sign`. -/
def strsGetLastToken (str : CString) (sign : BitVec 8) : CString := str.rtakeWhile (· != sign)

/-- The object of a module: the hash it is found by and its args. -/
structure LibModule where
  key : Hash
  name : CString
  buff : Bytes
  namelen : Nat
  bytesize : Nat
deriving DecidableEq, Repr

/-- The hash a module of this name is found by. -/
def moduleKey (signedChar : Bool) (moduleName : CString) : Hash :=
  hashTime33 signedChar (strsReplace moduleName charDot charBar)

/-- The module object `LibObj_staticLink` leaves. -/
def LibModule.new (signedChar : Bool) (moduleName : CString) (bytecode : Bytes) : LibModule where
  key := moduleKey signedChar moduleName
  name := moduleName
  buff := bytecode
  namelen := u16 moduleName.length
  bytesize := bytecode.length

/-- `LibObj`, its module objects. -/
abbrev LibObj := List LibModule

namespace LibObj
variable (signedChar : Bool) (self : LibObj)

/-- `LibObj_staticLink`, through `LibObj_dynamicLink`. -/
def staticLink (moduleName : CString) (bytecode : Bytes) : LibObj :=
  let module := LibModule.new signedChar moduleName bytecode
  (KeyedList.update LibModule.key module.key (fun _ => module) self).getD (module :: self)

/-- `__foreach_handler_getModuleNum` over the library. -/
def moduleNum : Nat := self.foldl (fun num _ => u32 (num + 1)) 0

/-- `__foreach_handler_selectBlockSize` over the library, from the default on. -/
def selectBlockSize : Nat :=
  self.foldl (fun blockSize module =>
    if alignBy module.namelen 4 + 4 > blockSize then alignBy module.namelen 4 + 4
    else blockSize) 64

/-- `__foreach_handler_libSumSize` over the library. -/
def sumSize : Nat :=
  self.foldl (fun sum module => u32 (sum + u32 (alignBy (u32 module.bytesize) 4))) 0

/-- `__foreach_handler_libWriteIndex`: a block of the name, with a zero behind it,
and the size in the last word. -/
def writeIndex (blockSize : Nat) (module : LibModule) : Option Bytes := do
  let name := strsReplace module.name charBar charDot
  let block ← store (List.replicate blockSize 0) 0 (name ++ [0])
  store block (blockSize - 4) (word32 (u32 module.bytesize))

/-- `__foreach_handler_libWriteBytecode`. -/
def writeBytecode (module : LibModule) : Bytes :=
  module.buff ++ List.replicate (alignBy module.buff.length 4 - module.buff.length) 0

/-- `magic_code`, which the reader asks for too. -/
def magicCode : Bytes := [0x0f, 0x70, 0x79, 0x61]

/-- `LIB_VERSION_NUMBER`. -/
def versionNumber : Nat := 7

/-- The header block: magic code, version, module number, total size, block size. -/
def metaBlock (moduleNum totleSize blockSize : Nat) : Option Bytes := do
  let block ← store (List.replicate blockSize 0) 0 magicCode
  let block ← store block 8 (word32 versionNumber)
  let block ← store block 12 (word32 moduleNum)
  let block ← store block 4 (word32 totleSize)
  store block 16 (word32 blockSize)

/-- `LibObj_linkFile`: the bytes of the file. None when a block is written past
its end or the assertion on the size fails. -/
def linkFile : Option Bytes := do
  let totleSize := u32 (self.selectBlockSize * (self.moduleNum + 1) + self.sumSize)
  let header ← metaBlock self.moduleNum totleSize self.selectBlockSize
  let index ← self.mapM (writeIndex self.selectBlockSize)
  let file := header ++ index.flatten ++ (self.map writeBytecode).flatten
  if totleSize = file.length then some file else none

end LibObj

/-- `_getModuleNum` of a library at an address. -/
def getModuleNum (address : Nat) (libraryBytes : Bytes) : Option Int := do
  if address % 4 ≠ 0 then return PikaRes.errUnalignedPtr.code
  let versionNum ← load32 libraryBytes 8
  let moduleNum ← load32 libraryBytes 12
  if (← loadBytes libraryBytes 0 4) ≠ LibObj.magicCode then
    return PikaRes.errIllegalMagicCode.code
  if versionNum ≠ LibObj.versionNumber then return PikaRes.errInvalidVersionNumber.code
  return if moduleNum < 2 ^ 31 then moduleNum else moduleNum - 2 ^ 32

/-- The variables of the walk in `_loadModuleDataWithIndex`, pointers as offsets. -/
structure ModuleCursor where
  moduleName : Nat
  moduleSize : Nat
  bytecodePtr : Nat
  bytecodePtrNext : Nat
  offset : Nat
deriving DecidableEq, Repr

/-- One round of the walk. -/
def ModuleCursor.next (libraryBytes : Bytes) (blockSize : Nat) (cursor : ModuleCursor) :
    Option ModuleCursor := do
  let fileInfoBlock := blockSize + cursor.offset
  let moduleSize ← load32 libraryBytes (fileInfoBlock + blockSize - 4)
  return {
    moduleName := fileInfoBlock
    moduleSize := moduleSize
    bytecodePtr := cursor.bytecodePtrNext
    bytecodePtrNext := cursor.bytecodePtrNext + u32 (alignBy moduleSize 4)
    offset := cursor.offset + blockSize }

/-- The walk after some rounds. -/
def ModuleCursor.walk (libraryBytes : Bytes) (blockSize : Nat) (start : ModuleCursor) :
    Nat → Option ModuleCursor
  | 0 => some start
  | rounds + 1 => (walk libraryBytes blockSize start rounds).bind (next libraryBytes blockSize)

/-- The scan for a zero in the next `count` bytes: `bIsString`. -/
def isString (libraryBytes : Bytes) (bytecodePtr : Nat) : Nat → Option Bool
  | 0 => some true
  | count + 1 => do
    if (← libraryBytes[bytecodePtr]?) = 0 then return false
    isString libraryBytes (bytecodePtr + 1) count

/-- `fix size for string` in `_loadModuleDataWithIndex`. -/
def fixSize (libraryBytes : Bytes) (bytecodePtr moduleSize : Nat) : Option Nat := do
  if ← isString libraryBytes bytecodePtr (sub32 moduleSize 1) then
    if (← libraryBytes[bytecodePtr + sub32 moduleSize 1]?) = 0 then
      return (moduleSize + (2 ^ 64 - 1)) % 2 ^ 64
  return moduleSize

/-- What `_loadModuleDataWithIndex` stores: where the name and the content are,
and the size. -/
structure ModuleData where
  name : Nat
  addr : Nat
  size : Nat
deriving DecidableEq, Repr

/-- `_loadModuleDataWithIndex`. -/
def loadModuleDataWithIndex (libraryBytes : Bytes) (moduleNum moduleIndex : Nat) :
    Option ModuleData := do
  let blockSize ← load32 libraryBytes 16
  let bytecodePtr := blockSize + u32 (blockSize * moduleNum)
  let cursor ← ModuleCursor.walk libraryBytes blockSize ⟨0, 0, bytecodePtr, bytecodePtr, 0⟩
    (moduleIndex + 1)
  let size ← fixSize libraryBytes cursor.bytecodePtr cursor.moduleSize
  return ⟨cursor.moduleName, cursor.bytecodePtr, size⟩

/-- The scan of `_loadModuleDataWithName` for a name, from an index on. -/
def scanModules (libraryBytes : Bytes) (moduleName : CString) (moduleNum : Nat) :
    Nat → Nat → Option (Except Int (Nat × Nat))
  | 0, _ => some (.error PikaRes.errArgNoFound.code)
  | left + 1, index => do
    let data ← loadModuleDataWithIndex libraryBytes moduleNum index
    let name ← loadString libraryBytes data.name
    if moduleName = strsGetLastToken name charSlash then return .ok (data.addr, data.size)
    scanModules libraryBytes moduleName moduleNum left (index + 1)

/-- `_loadModuleDataWithName`: address and size, or the result code. -/
def loadModuleDataWithName (address : Nat) (libraryBytes : Bytes) (moduleName : CString) :
    Option (Except Int (Nat × Nat)) := do
  let moduleNum ← getModuleNum address libraryBytes
  if moduleNum < 0 then return .error moduleNum
  scanModules libraryBytes moduleName moduleNum.toNat moduleNum.toNat 0

/-! ### What an archive holds -/

/-- A module object that is as `LibObj_staticLink` made it, of a name whose length
fits its field and whose characters the archive and its reader leave alone. -/
structure LibModule.Linked (module : LibModule) : Prop where
  namelen : module.namelen = module.name.length
  bytesize : module.bytesize = module.buff.length
  noZero : 0 ∉ module.name
  noSlash : charSlash ∉ module.name
  noBar : charBar ∉ module.name

namespace LibObj
variable (self : LibObj)

/-- Where the content of a module stands. -/
def bodyOffset (index : Nat) : Nat :=
  self.selectBlockSize * (self.length + 1) +
    ((self.map fun module => alignBy module.buff.length 4).take index).sum

/-- The size of the file, without a wrap. -/
def archiveSize : Nat := self.bodyOffset self.length

/-- The block has room for the zero behind the name. -/
def Fits (name : CString) : Prop := name.length + 5 ≤ self.selectBlockSize

instance (name : CString) : Decidable (Fits self name) :=
  inferInstanceAs (Decidable (_ ≤ _))

/-- The format: what a memory holds that an archive of the library is read into. -/
structure IsArchive (lib : LibObj) (mem : Bytes) : Prop where
  length : mem.length ≤ 2 ^ 32
  count : lib.length < 2 ^ 31
  magic : loadBytes mem 0 4 = some magicCode
  version : load32 mem 8 = some versionNumber
  moduleNum : load32 mem 12 = some lib.length
  blockSize : load32 mem 16 = some lib.selectBlockSize
  size (index : Nat) (h : index < lib.length) :
    load32 mem (lib.selectBlockSize * (index + 1) + lib.selectBlockSize - 4) =
      some lib[index].buff.length
  name (index : Nat) (h : index < lib.length) (hfits : Fits lib lib[index].name) :
    loadString mem (lib.selectBlockSize * (index + 1)) = some lib[index].name
  content (index : Nat) (h : index < lib.length) :
    ∃ tail, mem.drop (lib.bodyOffset index) = lib[index].buff ++ tail ∧ 0 ∈ tail

end LibObj

/-! ### Writing -/

namespace LibObj
variable {self : LibObj}

private theorem foldl_blockSize (blockSize : Nat) :
    blockSize ≤ self.foldl (fun blockSize module =>
      if alignBy module.namelen 4 + 4 > blockSize then alignBy module.namelen 4 + 4
      else blockSize) blockSize ∧
    ∀ module ∈ self, alignBy module.namelen 4 + 4 ≤ self.foldl (fun blockSize module =>
      if alignBy module.namelen 4 + 4 > blockSize then alignBy module.namelen 4 + 4
      else blockSize) blockSize := by
  induction self generalizing blockSize with
  | nil => exact ⟨Nat.le_refl _, fun _ h => absurd h List.not_mem_nil⟩
  | cons module self ih =>
    rw [List.foldl_cons, List.forall_mem_cons]
    split
    · obtain ⟨h₁, h₂⟩ := ih (alignBy module.namelen 4 + 4)
      exact ⟨by omega, h₁, h₂⟩
    · obtain ⟨h₁, h₂⟩ := ih blockSize
      exact ⟨h₁, by omega, h₂⟩

variable (self) in
theorem le_selectBlockSize : 64 ≤ selectBlockSize self := (foldl_blockSize 64).1

/-- **The block has room for every name and its size.** -/
theorem namelen_le_selectBlockSize {module : LibModule} (h : module ∈ self) :
    module.namelen + 4 ≤ selectBlockSize self := by
  have h₁ := (foldl_blockSize 64).2 module h
  have h₂ := le_alignBy module.namelen (show 0 < 4 by decide)
  exact Nat.le_trans (by omega) h₁

private theorem foldl_moduleNum (num : Nat) (h : num + self.length < 2 ^ 32) :
    self.foldl (fun num _ => u32 (num + 1)) num = num + self.length := by
  induction self generalizing num with
  | nil => rfl
  | cons module self ih =>
    rw [List.length_cons] at h ⊢
    rw [List.foldl_cons, u32_of_lt (by omega), ih _ (by omega)]
    omega

theorem moduleNum_eq (h : self.length < 2 ^ 32) : moduleNum self = self.length := by
  rw [moduleNum, foldl_moduleNum 0 (by omega), Nat.zero_add]

private theorem foldl_sumSize (hlinked : ∀ module ∈ self, module.Linked) (sum : Nat)
    (h : sum + (self.map fun module => alignBy module.buff.length 4).sum < 2 ^ 32) :
    self.foldl (fun sum module => u32 (sum + u32 (alignBy (u32 module.bytesize) 4))) sum =
      sum + (self.map fun module => alignBy module.buff.length 4).sum := by
  induction self generalizing sum with
  | nil => rfl
  | cons module self ih =>
    obtain ⟨hmodule, hself⟩ := List.forall_mem_cons.mp hlinked
    rw [List.map_cons, List.sum_cons] at h ⊢
    have hle := le_alignBy module.buff.length (show 0 < 4 by decide)
    have hsize : u32 module.buff.length = module.buff.length := u32_of_lt (by omega)
    have halign : u32 (alignBy module.buff.length 4) = alignBy module.buff.length 4 :=
      u32_of_lt (by omega)
    rw [List.foldl_cons, hmodule.bytesize, hsize, halign, u32_of_lt (by omega),
      ih hself _ (by omega)]
    omega

theorem sumSize_eq (hlinked : ∀ module ∈ self, module.Linked) (h : archiveSize self < 2 ^ 32) :
    sumSize self = (self.map fun module => alignBy module.buff.length 4).sum := by
  rw [archiveSize, bodyOffset, List.take_of_length_le (by rw [List.length_map])] at h
  rw [sumSize, foldl_sumSize hlinked 0 (by omega), Nat.zero_add]

/-- **The header is read back.** -/
theorem metaBlock_spec (moduleNum totleSize blockSize : Nat) (hblock : 20 ≤ blockSize)
    (hnum : moduleNum < 2 ^ 32) (hsize : blockSize < 2 ^ 32) :
    ∃ block, metaBlock moduleNum totleSize blockSize = some block ∧ block.length = blockSize ∧
      loadBytes block 0 4 = some magicCode ∧
      load32 block 8 = some versionNumber ∧ load32 block 12 = some moduleNum ∧
      load32 block 16 = some blockSize := by
  have hzero : (List.replicate blockSize (0 : BitVec 8)).length = blockSize :=
    List.length_replicate
  obtain ⟨b₁, h₁, hl₁⟩ := exists_store (List.replicate blockSize 0) 0 magicCode
    (by rw [hzero]; exact Nat.le_trans (by decide) hblock)
  obtain ⟨b₂, h₂, hl₂⟩ := exists_store b₁ 8 (word32 versionNumber)
    (by rw [length_word32]; omega)
  obtain ⟨b₃, h₃, hl₃⟩ := exists_store b₂ 12 (word32 moduleNum)
    (by rw [length_word32]; omega)
  obtain ⟨b₄, h₄, hl₄⟩ := exists_store b₃ 4 (word32 totleSize)
    (by rw [length_word32]; omega)
  obtain ⟨b₅, h₅, hl₅⟩ := exists_store b₄ 16 (word32 blockSize)
    (by rw [length_word32]; omega)
  refine ⟨b₅, by simp only [metaBlock, h₁, h₂, h₃, h₄, h₅, Option.bind_eq_bind, Option.bind_some],
    by omega, ?_, ?_, ?_, load32_store_self hsize h₅⟩
  · have hlen : magicCode.length = 4 := rfl
    rw [← hlen]
    apply loadBytes_eq_some (by omega)
    intro i hi
    rw [getElem?_store_of_ne h₅ (.inl (by omega)), getElem?_store_of_ne h₄ (.inl (by omega)),
      getElem?_store_of_ne h₃ (.inl (by omega)), getElem?_store_of_ne h₂ (.inl (by omega))]
    exact getElem?_store_self h₁ hi
  · rw [load32_store_of_ne h₅ (.inl (by decide)),
      load32_store_of_ne h₄ (.inr (by rw [length_word32])),
      load32_store_of_ne h₃ (.inl (by decide))]
    exact load32_store_self (by decide) h₂
  · rw [load32_store_of_ne h₅ (.inl (by decide)),
      load32_store_of_ne h₄ (.inr (by rw [length_word32]; decide))]
    exact load32_store_self hnum h₃

/-- **An index block is read back**: the size always, the name when its zero has room. -/
theorem writeIndex_spec {module : LibModule} (hmodule : module.Linked) {blockSize : Nat}
    (hblock : module.namelen + 4 ≤ blockSize) (hsize : module.buff.length < 2 ^ 32) :
    ∃ block, writeIndex blockSize module = some block ∧ block.length = blockSize ∧
      load32 block (blockSize - 4) = some module.buff.length ∧
      (module.name.length + 5 ≤ blockSize → ∃ tail, block = module.name ++ 0 :: tail) := by
  have hzero : (List.replicate blockSize (0 : BitVec 8)).length = blockSize :=
    List.length_replicate
  rw [hmodule.namelen] at hblock
  obtain ⟨b₁, h₁, hl₁⟩ := exists_store (List.replicate blockSize 0) 0
    (module.name ++ [0]) (by rw [hzero, List.length_append, List.length_singleton]; omega)
  obtain ⟨b₂, h₂, hl₂⟩ := exists_store b₁ (blockSize - 4)
    (word32 module.buff.length) (by rw [length_word32]; omega)
  refine ⟨b₂, ?_, by omega, load32_store_self hsize h₂, fun hfits => ?_⟩
  · simp only [writeIndex, strsReplace_of_not_mem hmodule.noBar, hmodule.bytesize,
      u32_of_lt hsize, h₁, h₂, Option.bind_eq_bind, Option.bind_some]
  · refine ⟨b₂.drop (module.name.length + 1), ?_⟩
    rw [List.append_cons]
    apply List.ext_getElem?
    intro i
    have hlen : (module.name ++ [(0 : BitVec 8)]).length = module.name.length + 1 := by
      rw [List.length_append, List.length_singleton]
    by_cases hi : i < module.name.length + 1
    · rw [List.getElem?_append_left (by omega), getElem?_store_of_ne h₂ (.inl (by omega)),
        ← Nat.zero_add i, getElem?_store_self h₁ (by omega), Nat.zero_add]
    · rw [List.getElem?_append_right (by omega), List.getElem?_drop, hlen]
      congr 1
      omega

theorem length_writeBytecode (module : LibModule) :
    (writeBytecode module).length = alignBy module.buff.length 4 := by
  have := le_alignBy module.buff.length (show 0 < 4 by decide)
  rw [writeBytecode, List.length_append, List.length_replicate]
  omega

private theorem mapM_eq_map {α β : Type} {f : α → Option β} {g : α → β} {l : List α}
    (h : ∀ a ∈ l, f a = some (g a)) : l.mapM f = some (l.map g) := by
  induction l with
  | nil => rfl
  | cons a l ih =>
    obtain ⟨ha, hl⟩ := List.forall_mem_cons.mp h
    rw [List.mapM_cons, ha, ih hl]
    rfl

/-- The blocks of the index, when every one of them is written. -/
private def indexBlocks (self : LibObj) : List Bytes :=
  self.map fun module => (writeIndex (selectBlockSize self) module).getD []

/-- The pieces of the file, and the zero the memory it is read into ends with. -/
private def pieces (self : LibObj) (header : Bytes) : List Bytes :=
  (header :: indexBlocks self) ++ (self.map writeBytecode ++ [[0]])

section Layout
variable (hlinked : ∀ module ∈ self, module.Linked) (hsize : archiveSize self < 2 ^ 32)
include hlinked hsize

omit hlinked in
private theorem lengths_lt {index : Nat} (h : index < self.length) :
    self[index].buff.length < 2 ^ 32 := by
  have hmem : alignBy self[index].buff.length 4 ∈
      self.map fun module => alignBy module.buff.length 4 :=
    List.mem_map.mpr ⟨_, List.getElem_mem h, rfl⟩
  have hle := List.single_le_sum (fun _ _ => Nat.zero_le _) _ hmem
  have := le_alignBy self[index].buff.length (show 0 < 4 by decide)
  rw [archiveSize, bodyOffset, List.take_of_length_le (by rw [List.length_map])] at hsize
  omega

private theorem indexBlock_spec {index : Nat} (h : index < self.length) :
    ∃ block, writeIndex (selectBlockSize self) self[index] = some block ∧
      block.length = selectBlockSize self ∧
      load32 block (selectBlockSize self - 4) = some self[index].buff.length ∧
      (Fits self self[index].name → ∃ tail, block = self[index].name ++ 0 :: tail) :=
  writeIndex_spec (hlinked _ (List.getElem_mem h)) (namelen_le_selectBlockSize (List.getElem_mem h))
    (lengths_lt hsize h)

private theorem mapM_writeIndex :
    self.mapM (writeIndex (selectBlockSize self)) = some (indexBlocks self) := by
  apply mapM_eq_map
  intro module hmodule
  obtain ⟨index, hindex, rfl⟩ := List.getElem_of_mem hmodule
  obtain ⟨block, hblock, -⟩ := indexBlock_spec hlinked hsize hindex
  rw [hblock, Option.getD_some]

private theorem map_length_pieces {header : Bytes}
    (hheader : header.length = selectBlockSize self) :
    (pieces self header).map List.length =
      List.replicate (self.length + 1) (selectBlockSize self) ++
        ((self.map fun module => alignBy module.buff.length 4) ++ [1]) := by
  have hindex : (indexBlocks self).map List.length =
      List.replicate self.length (selectBlockSize self) := by
    rw [List.eq_replicate_iff, List.length_map, indexBlocks, List.length_map]
    refine ⟨rfl, ?_⟩
    simp only [List.mem_map]
    rintro _ ⟨_, ⟨module, hmodule, rfl⟩, rfl⟩
    obtain ⟨index, hindex, rfl⟩ := List.getElem_of_mem hmodule
    obtain ⟨block, hblock, hlength, -⟩ := indexBlock_spec hlinked hsize hindex
    rw [hblock, Option.getD_some, hlength]
  rw [pieces, List.map_append, List.map_cons, hheader, hindex, List.map_append, List.map_map,
    List.replicate_succ]
  simp only [Function.comp_def, length_writeBytecode, List.map_cons, List.map_nil,
    List.length_singleton]

private theorem drop_index {header : Bytes} (hheader : header.length = selectBlockSize self)
    {index : Nat} (h : index < self.length) :
    ∃ tail, (pieces self header).flatten.drop (selectBlockSize self * (index + 1)) =
      (writeIndex (selectBlockSize self) self[index]).getD [] ++ tail := by
  have hlt : index + 1 < (pieces self header).length := by
    simp only [pieces, indexBlocks, List.length_append, List.length_cons, List.length_map]
    omega
  have hdrop := drop_flatten_of_getElem hlt
  rw [map_length_pieces hlinked hsize hheader, List.take_append_of_le_length
    (by rw [List.length_replicate]; omega), List.take_replicate, Nat.min_eq_left (by omega),
    List.sum_replicate_nat, Nat.mul_comm] at hdrop
  refine ⟨_, hdrop.trans (congrArg (· ++ _) ?_)⟩
  simp only [pieces, List.cons_append, List.getElem_cons_succ]
  rw [List.getElem_append_left (by rw [indexBlocks, List.length_map]; exact h)]
  simp only [indexBlocks, List.getElem_map]

private theorem drop_body {header : Bytes} (hheader : header.length = selectBlockSize self)
    {index : Nat} (h : index < self.length) :
    ∃ tail, (pieces self header).flatten.drop (bodyOffset self index) =
      self[index].buff ++ tail ∧ 0 ∈ tail := by
  have hlt : self.length + 1 + index < (pieces self header).length := by
    simp only [pieces, indexBlocks, List.length_append, List.length_cons, List.length_map]
    omega
  have hdrop := drop_flatten_of_getElem hlt
  rw [map_length_pieces hlinked hsize hheader, List.take_append, List.length_replicate,
    List.take_of_length_le (by rw [List.length_replicate]; omega), Nat.add_sub_cancel_left,
    List.take_append_of_le_length (by rw [List.length_map]; omega), List.sum_append,
    List.sum_replicate_nat, Nat.mul_comm] at hdrop
  have hpiece : (pieces self header)[self.length + 1 + index] = writeBytecode self[index] := by
    simp only [pieces]
    rw [List.getElem_append_right (by rw [List.length_cons, indexBlocks, List.length_map]; omega)]
    simp only [List.length_cons, indexBlocks, List.length_map, Nat.add_sub_cancel_left]
    rw [List.getElem_append_left (by rw [List.length_map]; exact h), List.getElem_map]
  rw [hpiece, writeBytecode, List.append_assoc] at hdrop
  refine ⟨_, hdrop, List.mem_append_right _ (List.mem_flatten.mpr ⟨[0], ?_, by simp⟩)⟩
  have hlen : self.length + 1 + index + 1 ≤
      (header :: indexBlocks self ++ self.map writeBytecode).length := by
    simp only [indexBlocks, List.length_append, List.length_cons, List.length_map]
    omega
  rw [pieces, ← List.append_assoc, List.drop_append_of_le_length hlen]
  exact List.mem_append_right _ (List.mem_singleton_self _)

/-- **The linker writes an archive.** The file is followed by the zero that
`arg_loadFile` leaves behind it. -/
theorem linkFile_isArchive :
    ∃ file, linkFile self = some file ∧ IsArchive self (file ++ [0]) := by
  have hblock := le_selectBlockSize self
  have harchive : archiveSize self = selectBlockSize self * (self.length + 1) +
      (self.map fun module => alignBy module.buff.length 4).sum := by
    rw [archiveSize, bodyOffset, List.take_of_length_le (by rw [List.length_map])]
  have hcount : 64 * (self.length + 1) ≤ selectBlockSize self * (self.length + 1) :=
    Nat.mul_le_mul_right _ hblock
  have hle : selectBlockSize self ≤ selectBlockSize self * (self.length + 1) :=
    Nat.le_mul_of_pos_right _ (Nat.succ_pos _)
  have hnum : moduleNum self = self.length := moduleNum_eq (by omega)
  have hsum := sumSize_eq hlinked hsize
  obtain ⟨header, hmeta, hheader, hmagic, hversion, hmoduleNum, hblockSize⟩ :=
    metaBlock_spec self.length (archiveSize self) (selectBlockSize self) (by omega) (by omega)
      (by omega)
  have hfile : header ++ (indexBlocks self).flatten ++ (self.map writeBytecode).flatten ++ [0] =
      (pieces self header).flatten := by
    simp only [pieces, List.flatten_append, List.flatten_cons, List.flatten_nil, List.append_nil,
      List.append_assoc]
  have hlength := congrArg List.length hfile
  rw [List.length_flatten, map_length_pieces hlinked hsize hheader, List.length_append,
    List.length_singleton, List.sum_append, List.sum_append, List.sum_singleton,
    List.sum_replicate_nat, Nat.mul_comm] at hlength
  refine ⟨header ++ (indexBlocks self).flatten ++ (self.map writeBytecode).flatten, ?_, ?_⟩
  · simp only [linkFile, hnum, hsum, ← harchive, u32_of_lt hsize, hmeta,
      mapM_writeIndex hlinked hsize, Option.bind_eq_bind, Option.bind_some]
    exact if_pos (by omega)
  · rw [List.append_assoc, List.append_assoc]
    refine ⟨?_, by omega, loadBytes_append hmagic, ?_, ?_, ?_, ?_, ?_, ?_⟩
    · simp only [← List.append_assoc, List.length_append, List.length_singleton] at hlength ⊢
      omega
    · rw [load32_append (by omega), hversion]
    · rw [load32_append (by omega), hmoduleNum]
    · rw [load32_append (by omega), hblockSize]
    · intro index h
      obtain ⟨block, hwrite, hlen, hload, -⟩ := indexBlock_spec hlinked hsize h
      obtain ⟨tail, hdrop⟩ := drop_index hlinked hsize hheader h
      rw [hwrite, Option.getD_some, ← hfile, List.append_assoc, List.append_assoc] at hdrop
      rw [Nat.add_sub_assoc (by omega), load32_of_drop hdrop (by omega), hload]
    · intro index h hfits
      obtain ⟨block, hwrite, -, -, hname⟩ := indexBlock_spec hlinked hsize h
      obtain ⟨tail, hdrop⟩ := drop_index hlinked hsize hheader h
      obtain ⟨pad, rfl⟩ := hname hfits
      rw [hwrite, Option.getD_some, ← hfile, List.append_assoc, List.append_assoc,
        List.append_assoc] at hdrop
      exact loadString_of_drop hdrop (hlinked _ (List.getElem_mem h)).noZero
    · intro index h
      obtain ⟨tail, hdrop, hzero⟩ := drop_body hlinked hsize hheader h
      rw [← hfile, List.append_assoc, List.append_assoc] at hdrop
      exact ⟨tail, hdrop, hzero⟩

end Layout

end LibObj

/-! ### Reading -/

/-- A content as the reader gives it: one whose only zero is its last byte comes
without that byte. -/
def loadedContent (content : Bytes) : Bytes :=
  if 0 ∉ content.dropLast ∧ content.getLast? = some 0 then content.dropLast else content

/-- A memory area with this content. -/
def Holds (mem : Bytes) (addr size : Nat) (content : Bytes) : Prop :=
  size = content.length ∧ loadBytes mem addr size = some content

theorem isString_append {mem : Bytes} {addr : Nat} {content tail : Bytes}
    (h : mem.drop addr = content ++ tail) :
    isString mem addr content.length = some (decide (0 ∉ content)) := by
  induction content generalizing addr with
  | nil => rfl
  | cons c content ih =>
    have hget : mem[addr]? = some c := by
      have := congrArg (·[0]?) h
      simpa only [List.getElem?_drop, Nat.add_zero, List.cons_append, List.getElem?_cons_zero]
        using this
    have hdrop : mem.drop (addr + 1) = content ++ tail := by
      rw [← List.drop_drop, h, List.cons_append, List.drop_succ_cons, List.drop_zero]
    rw [List.length_cons, isString, hget, Option.bind_eq_bind, Option.bind_some, ih hdrop]
    by_cases hc : c = 0
    · rw [if_pos hc]
      simp [hc]
    · rw [if_neg hc]
      simp [Ne.symm (show c ≠ 0#8 from hc)]

/-- A scan that runs into a zero stops there. -/
theorem isString_of_mem {mem : Bytes} {addr count : Nat} {content : Bytes}
    (h : mem.drop addr = content) (hzero : 0 ∈ content) (hcount : content.length ≤ count) :
    isString mem addr count = some false := by
  induction content generalizing addr count with
  | nil => exact absurd hzero List.not_mem_nil
  | cons c content ih =>
    obtain ⟨count, rfl⟩ : ∃ n, count = n + 1 :=
      ⟨count - 1, by rw [List.length_cons] at hcount; omega⟩
    have hget : mem[addr]? = some c := by
      have := congrArg (·[0]?) h
      simpa only [List.getElem?_drop, Nat.add_zero, List.getElem?_cons_zero] using this
    have hdrop : mem.drop (addr + 1) = content := by
      rw [← List.drop_drop, h, List.drop_succ_cons, List.drop_zero]
    rw [isString, hget, Option.bind_eq_bind, Option.bind_some]
    by_cases hc : c = 0
    · rw [if_pos hc]
      rfl
    · rw [if_neg hc]
      exact ih hdrop ((List.mem_cons.mp hzero).resolve_left (Ne.symm hc))
        (Nat.le_of_succ_le_succ hcount)

theorem strsGetLastToken_of_not_mem {str : CString} {sign : BitVec 8} (h : sign ∉ str) :
    strsGetLastToken str sign = str := by
  apply List.rtakeWhile_eq_self_iff.mpr
  intro c hc
  rw [bne_iff_ne]
  rintro rfl
  exact h hc

theorem prefix_loadedContent (content : Bytes) : loadedContent content <+: content := by
  unfold loadedContent
  split
  · exact List.dropLast_prefix content
  · exact List.prefix_refl content

/-- **The size is that of the content as the reader gives it**, with some zero behind
the content. -/
theorem fixSize_eq {mem : Bytes} {addr : Nat} {content tail : Bytes}
    (hdrop : mem.drop addr = content ++ tail) (hzero : 0 ∈ tail)
    (hlength : mem.length < addr + 2 ^ 32) :
    fixSize mem addr content.length = some (loadedContent content).length := by
  have hle := congrArg List.length hdrop
  rw [List.length_drop, List.length_append] at hle
  rcases List.eq_nil_or_concat content with rfl | ⟨init, last, rfl⟩
  · -- The scan for a size of zero meets what stands behind the content.
    have hsub : sub32 0 1 = 2 ^ 32 - 1 := by decide
    have hscan : isString mem addr (sub32 0 1) = some false :=
      isString_of_mem hdrop (List.mem_append_right _ hzero) (by rw [hsub, List.nil_append]; omega)
    rw [List.length_nil, fixSize, hscan]
    rfl
  · rw [List.concat_eq_append] at hdrop hle ⊢
    rw [List.length_append, List.length_singleton] at hle
    rw [List.append_assoc] at hdrop
    have hlast : mem[addr + init.length]? = some last := by
      rw [← List.getElem?_drop, hdrop, List.getElem?_append_right (Nat.le_refl _), Nat.sub_self]
      rfl
    have hsub : sub32 (init.length + 1) 1 = init.length := sub32_of_le (by omega) (by omega)
    have hpred : (init.length + 1 + (2 ^ 64 - 1)) % 2 ^ 64 = init.length := by omega
    simp only [fixSize, loadedContent, List.length_append, List.length_singleton, hsub,
      isString_append hdrop, hlast, hpred, List.dropLast_concat, List.getLast?_concat,
      Option.bind_eq_bind, Option.bind_some, Option.some.injEq]
    by_cases hinit : 0#8 ∈ init
    · simp [hinit]
    · by_cases hz : last = 0#8
      · simp [hinit, hz]
      · simp [hinit, hz]

namespace LibObj
variable {self : LibObj} {mem : Bytes}

section Reader
variable (harchive : IsArchive self mem)
include harchive

/-- **The number of modules is read back**, from an aligned address. -/
theorem getModuleNum_eq {address : Nat} (haddress : address % 4 = 0) :
    getModuleNum address mem = some (self.length : Int) := by
  simpa [getModuleNum, haddress, harchive.version, harchive.moduleNum, harchive.magic] using
    harchive.count

theorem length_buff_le {index : Nat} (h : index < self.length) :
    bodyOffset self index + self[index].buff.length < mem.length := by
  obtain ⟨tail, hdrop, hzero⟩ := harchive.content index h
  have hlength := congrArg List.length hdrop
  have := List.length_pos_of_mem hzero
  rw [List.length_drop, List.length_append] at hlength
  omega

private theorem bodyOffset_succ {index : Nat} (h : index < self.length) :
    bodyOffset self index + u32 (alignBy self[index].buff.length 4) =
      bodyOffset self (index + 1) := by
  have hlt := length_buff_le harchive h
  have hlength := harchive.length
  have hblock := Nat.le_mul_of_pos_right (selectBlockSize self) (Nat.add_one_pos self.length)
  have := le_selectBlockSize self
  have := alignBy_four_le self[index].buff.length
  unfold bodyOffset at hlt ⊢
  rw [u32_of_lt (by omega), List.sum_take_succ _ _ (by rw [List.length_map]; exact h),
    List.getElem_map, Nat.add_assoc]

private theorem next_eq {index : Nat} (h : index < self.length) {cursor : ModuleCursor}
    (hoffset : cursor.offset = selectBlockSize self * index)
    (hnext : cursor.bytecodePtrNext = bodyOffset self index) :
    cursor.next mem (selectBlockSize self) =
      some ⟨selectBlockSize self * (index + 1), self[index].buff.length, bodyOffset self index,
        bodyOffset self (index + 1), selectBlockSize self * (index + 1)⟩ := by
  have hblock : selectBlockSize self + cursor.offset = selectBlockSize self * (index + 1) := by
    rw [hoffset, Nat.mul_succ, Nat.add_comm]
  simp only [ModuleCursor.next, hblock, harchive.size index h, hnext, bodyOffset_succ harchive h,
    Option.bind_eq_bind, Option.bind_some]
  rw [Nat.add_comm cursor.offset, hblock]
  rfl

/-- **The walk**: after each round the cursor stands at the blocks and contents of
the archive. -/
theorem walk_eq {index : Nat} (h : index < self.length) :
    ModuleCursor.walk mem (selectBlockSize self)
        ⟨0, 0, bodyOffset self 0, bodyOffset self 0, 0⟩ (index + 1) =
      some ⟨selectBlockSize self * (index + 1), self[index].buff.length, bodyOffset self index,
        bodyOffset self (index + 1), selectBlockSize self * (index + 1)⟩ := by
  induction index with
  | zero => exact next_eq harchive h (by rw [Nat.mul_zero]) rfl
  | succ index ih =>
    rw [ModuleCursor.walk, ih (by omega), Option.bind_some]
    exact next_eq harchive h rfl rfl

/-- **A module is read back by its index.** -/
theorem loadModuleDataWithIndex_eq {index : Nat} (h : index < self.length) :
    ∃ data, loadModuleDataWithIndex mem self.length index = some data ∧
      data.name = selectBlockSize self * (index + 1) ∧
      Holds mem data.addr data.size (loadedContent self[index].buff) := by
  obtain ⟨tail, hdrop, hzero⟩ := harchive.content index h
  have hlt := length_buff_le harchive h
  have hlength := harchive.length
  have hstart : bodyOffset self 0 = selectBlockSize self + selectBlockSize self * self.length := by
    rw [bodyOffset, List.take_zero, List.sum_nil, Nat.mul_succ, Nat.add_comm (_ * _), Nat.add_zero]
  have hle : bodyOffset self 0 ≤ bodyOffset self index := Nat.add_le_add_left (by simp) _
  have hblock := le_selectBlockSize self
  have hbase : selectBlockSize self + u32 (selectBlockSize self * self.length) =
      bodyOffset self 0 := by
    rw [u32_of_lt (by omega), hstart]
  have hfix := fixSize_eq hdrop hzero (by omega)
  have hload : loadModuleDataWithIndex mem self.length index =
      some ⟨selectBlockSize self * (index + 1), bodyOffset self index,
        (loadedContent self[index].buff).length⟩ := by
    rw [loadModuleDataWithIndex, harchive.blockSize, Option.bind_eq_bind, Option.bind_some, hbase]
    dsimp only
    rw [walk_eq harchive h, Option.bind_eq_bind, Option.bind_some]
    dsimp only
    rw [hfix, Option.bind_some]
    rfl
  obtain ⟨rest, hrest⟩ := prefix_loadedContent self[index].buff
  rw [← hrest, List.append_assoc] at hdrop
  refine ⟨_, hload, rfl, rfl, ?_⟩
  exact loadBytes_of_drop (Nat.le_of_lt (Nat.lt_of_add_right_lt hlt)) hdrop

/-- The name in the block of an index. -/
theorem loadString_eq {index : Nat} (h : index < self.length)
    (hfits : Fits self self[index].name) {data : ModuleData}
    (hdata : data.name = selectBlockSize self * (index + 1)) :
    loadString mem data.name = some self[index].name := by
  rw [hdata, harchive.name index h hfits]

private theorem scanModules_eq (hfits : ∀ module ∈ self, Fits self module.name)
    (hslash : ∀ module ∈ self, charSlash ∉ module.name) {index : Nat} (h : index < self.length)
    (left start : Nat) (hleft : start + left = self.length) (hstart : start ≤ index)
    (hne : ∀ i (hi : i < self.length), i < index → self[i].name ≠ self[index].name) :
    ∃ addr size, scanModules mem self[index].name self.length left start =
        some (.ok (addr, size)) ∧
      Holds mem addr size (loadedContent self[index].buff) := by
  induction left generalizing start with
  | zero => omega
  | succ left ih =>
    have hlt : start < self.length := by omega
    obtain ⟨data, hload, hname, hholds⟩ := loadModuleDataWithIndex_eq harchive hlt
    have hmem : self[start] ∈ self := List.getElem_mem hlt
    have hstring := loadString_eq harchive hlt (hfits _ hmem) hname
    rw [scanModules, hload, Option.bind_eq_bind, Option.bind_some, hstring, Option.bind_eq_bind,
      Option.bind_some, strsGetLastToken_of_not_mem (hslash _ hmem)]
    rcases Nat.eq_or_lt_of_le hstart with rfl | hlater
    · rw [if_pos rfl]
      exact ⟨_, _, rfl, hholds⟩
    · rw [if_neg (hne start hlt hlater).symm]
      exact ih (start + 1) (by omega) hlater

/-- **A module is read back by its name**, when every name is in its block and no
two are alike. -/
theorem loadModuleDataWithName_eq {address : Nat} (haddress : address % 4 = 0)
    (hfits : ∀ module ∈ self, Fits self module.name)
    (hslash : ∀ module ∈ self, charSlash ∉ module.name)
    (hnodup : (self.map LibModule.name).Nodup) {module : LibModule} (hmodule : module ∈ self) :
    ∃ addr size, loadModuleDataWithName address mem module.name = some (.ok (addr, size)) ∧
      Holds mem addr size (loadedContent module.buff) := by
  obtain ⟨index, h, rfl⟩ := List.getElem_of_mem hmodule
  have hne : ∀ i (hi : i < self.length), i < index → self[i].name ≠ self[index].name := by
    intro i hi hlt
    have hne := List.pairwise_iff_getElem.mp hnodup i index (by rw [List.length_map]; exact hi)
      (by rw [List.length_map]; exact h) hlt
    rwa [List.getElem_map, List.getElem_map] at hne
  obtain ⟨addr, size, hscan, hholds⟩ := scanModules_eq harchive hfits hslash h self.length 0
    (Nat.zero_add _) (Nat.zero_le _) hne
  refine ⟨addr, size, ?_, hholds⟩
  rw [loadModuleDataWithName, getModuleNum_eq harchive haddress, Option.bind_eq_bind,
    Option.bind_some, if_neg (by omega), Int.toNat_natCast]
  exact hscan

end Reader

end LibObj

/-! ### Linking a list of modules -/

/-- A name the archive is made for. -/
structure IsModuleName (name : CString) : Prop where
  noZero : 0 ∉ name
  noSlash : charSlash ∉ name
  noBar : charBar ∉ name
  length : name.length < 2 ^ 16

/-- The library after linking modules, each a name and a content, one by one. -/
def linkModules (signedChar : Bool) (modules : List (CString × Bytes)) : LibObj :=
  modules.foldl (fun lib module => LibObj.staticLink signedChar lib module.1 module.2) []

variable {signedChar : Bool} {modules : List (CString × Bytes)}

/-- **Modules of different hashes are all kept**, the last one in front. -/
theorem linkModules_eq
    (hkeys : (modules.map fun module => moduleKey signedChar module.1).Nodup) :
    linkModules signedChar modules =
      modules.reverse.map fun module => LibModule.new signedChar module.1 module.2 := by
  induction modules using List.reverseRecOn with
  | nil => rfl
  | append_singleton modules module ih =>
    rw [List.map_append, List.nodup_append] at hkeys
    obtain ⟨hinit, -, hnew⟩ := hkeys
    have hlib := ih hinit
    rw [linkModules] at hlib
    rw [linkModules, List.foldl_append, List.foldl_cons, List.foldl_nil, hlib, LibObj.staticLink,
      KeyedList.update_eq_none.mpr, List.reverse_append, List.map_append]
    · rfl
    · rw [List.map_map, List.mem_map]
      rintro ⟨old, hold, heq⟩
      exact hnew _ (List.mem_map_of_mem (List.mem_reverse.mp hold)) _
        (List.mem_singleton_self _) heq

variable (signedChar) in
private theorem linked_of_mem (hname : ∀ module ∈ modules, IsModuleName module.1) :
    ∀ module ∈ modules.reverse.map fun module => LibModule.new signedChar module.1 module.2,
      module.Linked := by
  intro module h
  obtain ⟨⟨name, content⟩, hmem, rfl⟩ := List.mem_map.mp h
  have hname := hname _ (List.mem_reverse.mp hmem)
  exact ⟨u16_of_lt hname.length, rfl, hname.noZero, hname.noSlash, hname.noBar⟩

/-- Modules of different hashes have different names. -/
private theorem nodup_names
    (hkeys : (modules.map fun module => moduleKey signedChar module.1).Nodup) :
    ((modules.reverse.map fun module => LibModule.new signedChar module.1 module.2).map
      LibModule.name).Nodup := by
  rw [List.map_map, List.map_reverse, List.nodup_reverse]
  apply List.Nodup.of_map (moduleKey signedChar)
  rwa [List.map_map]

/-- **What is linked is read back.** For modules of different hashes whose archive
fits a `uint32_t`, the archive is written; read back to an aligned address it gives
the number of modules, and by index and by name each module's content, without a
last byte that is its only zero. A name is read back when its block has room for
the zero behind it. -/
theorem linkFile_roundTrip (hname : ∀ module ∈ modules, IsModuleName module.1)
    (hkeys : (modules.map fun module => moduleKey signedChar module.1).Nodup)
    (hsize : (linkModules signedChar modules).archiveSize < 2 ^ 32)
    {address : Nat} (haddress : address % 4 = 0) :
    ∃ file, (linkModules signedChar modules).linkFile = some file ∧
      getModuleNum address (file ++ [0]) = some (modules.length : Int) ∧
      (∀ index (h : index < modules.reverse.length),
        ∃ data, loadModuleDataWithIndex (file ++ [0]) modules.length index = some data ∧
          Holds (file ++ [0]) data.addr data.size (loadedContent modules.reverse[index].2) ∧
          ((linkModules signedChar modules).Fits modules.reverse[index].1 →
            loadString (file ++ [0]) data.name = some modules.reverse[index].1)) ∧
      ((∀ module ∈ modules, (linkModules signedChar modules).Fits module.1) →
        ∀ module ∈ modules, ∃ addr size,
          loadModuleDataWithName address (file ++ [0]) module.1 = some (.ok (addr, size)) ∧
            Holds (file ++ [0]) addr size (loadedContent module.2)) := by
  rw [linkModules_eq hkeys] at hsize ⊢
  have hlinked := linked_of_mem signedChar hname
  obtain ⟨file, hfile, harchive⟩ := LibObj.linkFile_isArchive hlinked hsize
  have hlength : (modules.reverse.map fun module =>
      LibModule.new signedChar module.1 module.2).length = modules.length := by
    rw [List.length_map, List.length_reverse]
  refine ⟨file, hfile, ?_, fun index h => ?_, fun hfits module hmodule => ?_⟩
  · rw [LibObj.getModuleNum_eq harchive haddress, hlength]
  · have h' := h
    rw [List.length_reverse, ← hlength] at h'
    obtain ⟨data, hload, hdata, hholds⟩ := LibObj.loadModuleDataWithIndex_eq harchive h'
    have hstring := fun hfits => LibObj.loadString_eq harchive h' hfits hdata
    rw [hlength] at hload
    simp only [List.getElem_map] at hholds hstring
    exact ⟨data, hload, hholds, hstring⟩
  · apply LibObj.loadModuleDataWithName_eq harchive haddress ?_
      (fun m hm => (hlinked m hm).noSlash) (nodup_names hkeys)
      (List.mem_map_of_mem (List.mem_reverse.mpr hmodule))
    intro m hm
    obtain ⟨named, hnamed, rfl⟩ := List.mem_map.mp hm
    exact hfits named (List.mem_reverse.mp hnamed)

/-- Three modules: one whose content is of zeros alone, an empty one, and one with a
zero inside. -/
def threeModules : List (CString × Bytes) :=
  [([0x61], [0, 0]), ([0x62, 0x2e, 0x63], []), ([0x64], [1, 0, 2])]

theorem linkFile_roundTrip_three :
    ∃ file, (linkModules true threeModules).linkFile = some file ∧
      getModuleNum 16 (file ++ [0]) = some 3 ∧
      (∀ index (h : index < threeModules.reverse.length),
        ∃ data, loadModuleDataWithIndex (file ++ [0]) 3 index = some data ∧
          Holds (file ++ [0]) data.addr data.size (loadedContent threeModules.reverse[index].2) ∧
          ((linkModules true threeModules).Fits threeModules.reverse[index].1 →
            loadString (file ++ [0]) data.name = some threeModules.reverse[index].1)) ∧
      ((∀ module ∈ threeModules, (linkModules true threeModules).Fits module.1) →
        ∀ module ∈ threeModules, ∃ addr size,
          loadModuleDataWithName 16 (file ++ [0]) module.1 = some (.ok (addr, size)) ∧
            Holds (file ++ [0]) addr size (loadedContent module.2)) :=
  linkFile_roundTrip (by
      intro module h
      rcases h with _ | ⟨_, _ | ⟨_, _ | ⟨_, h⟩⟩⟩
      · exact ⟨by decide, by decide, by decide, by decide⟩
      · exact ⟨by decide, by decide, by decide, by decide⟩
      · exact ⟨by decide, by decide, by decide, by decide⟩
      · cases h)
    (by decide +kernel) (by decide +kernel) rfl

/-- **A last byte that is the only zero is not read back**: a text that is linked with
its ending zero comes back without it. -/
theorem not_roundTrip_of_text :
    ¬ ∀ modules : List (CString × Bytes), (modules.map Prod.fst).Nodup →
      (∀ module ∈ modules, 0 ∉ module.1 ∧ charSlash ∉ module.1 ∧ charBar ∉ module.1) →
      ∃ file, (linkModules true modules).linkFile = some file ∧
        ∀ index (h : index < modules.reverse.length),
          ∃ data, loadModuleDataWithIndex (file ++ [0]) modules.length index = some data ∧
            Holds (file ++ [0]) data.addr data.size modules.reverse[index].2 := by
  intro h
  obtain ⟨file, hfile, hread⟩ := h [([0x61], [0x41, 0])] (by decide) (by decide)
  obtain ⟨data, hload, hholds⟩ := hread 0 (by decide)
  have hsize : ((linkModules true [([0x61], [0x41, 0])]).linkFile.bind fun file =>
      (loadModuleDataWithIndex (file ++ [0]) 1 0).map ModuleData.size) = some 1 := by
    decide +kernel
  rw [hfile, Option.bind_some] at hsize
  obtain ⟨data', hload', hone⟩ := Option.map_eq_some_iff.mp hsize
  cases hload.symm.trans hload'
  have htwo : data.size = 2 := hholds.1
  omega

end PikaScript
