import Mathlib.Tactic.IntervalCases
import PikaScript.Data.Arg

/-! The instruct unit of the bytecode, from `PikaVM.h`.

A unit packs two depths of four bits into one byte, and the opcode and the mark of
a new line into another; the operand is an offset in the constant pool. -/
namespace PikaScript

/-- `enum InstructIndex`, in the order of `__instruction_table.h`. -/
inductive InstructIndex where
  | NON | REF | RUN | STR | OUT | NUM | JMP | JEZ | OPT | DEF | RET | NEL | DEL | EST | BRK | CTN
  | GLB | RAS | NEW | CLS | BYT | LST | IMP | TRY | NTR | RIS | GER | SER | DCT | SLC | ASS | EXP
  | JNZ | TPL | NLS | INH
deriving DecidableEq, Repr

namespace InstructIndex

/-- `__instruction_table.h`. -/
def table : List InstructIndex :=
  [NON, REF, RUN, STR, OUT, NUM, JMP, JEZ, OPT, DEF, RET, NEL, DEL, EST, BRK, CTN, GLB, RAS, NEW,
    CLS, BYT, LST, IMP, TRY, NTR, RIS, GER, SER, DCT, SLC, ASS, EXP, JNZ, TPL, NLS, INH]

/-- The letters of a name. -/
def letters (l : List Char) : CString := l.map fun c => BitVec.ofNat 8 c.toNat

/-- The name of an instruct in assembler text. -/
def name : InstructIndex → CString
  | NON => letters ['N', 'O', 'N']
  | REF => letters ['R', 'E', 'F']
  | RUN => letters ['R', 'U', 'N']
  | STR => letters ['S', 'T', 'R']
  | OUT => letters ['O', 'U', 'T']
  | NUM => letters ['N', 'U', 'M']
  | JMP => letters ['J', 'M', 'P']
  | JEZ => letters ['J', 'E', 'Z']
  | OPT => letters ['O', 'P', 'T']
  | DEF => letters ['D', 'E', 'F']
  | RET => letters ['R', 'E', 'T']
  | NEL => letters ['N', 'E', 'L']
  | DEL => letters ['D', 'E', 'L']
  | EST => letters ['E', 'S', 'T']
  | BRK => letters ['B', 'R', 'K']
  | CTN => letters ['C', 'T', 'N']
  | GLB => letters ['G', 'L', 'B']
  | RAS => letters ['R', 'A', 'S']
  | NEW => letters ['N', 'E', 'W']
  | CLS => letters ['C', 'L', 'S']
  | BYT => letters ['B', 'Y', 'T']
  | LST => letters ['L', 'S', 'T']
  | IMP => letters ['I', 'M', 'P']
  | TRY => letters ['T', 'R', 'Y']
  | NTR => letters ['N', 'T', 'R']
  | RIS => letters ['R', 'I', 'S']
  | GER => letters ['G', 'E', 'R']
  | SER => letters ['S', 'E', 'R']
  | DCT => letters ['D', 'C', 'T']
  | SLC => letters ['S', 'L', 'C']
  | ASS => letters ['A', 'S', 'S']
  | EXP => letters ['E', 'X', 'P']
  | JNZ => letters ['J', 'N', 'Z']
  | TPL => letters ['T', 'P', 'L']
  | NLS => letters ['N', 'L', 'S']
  | INH => letters ['I', 'N', 'H']

/-- The value of an instruct. -/
def toNat (instruct : InstructIndex) : Nat := table.idxOf instruct

/-- The instruct of a value. -/
def ofNat? (value : Nat) : Option InstructIndex := table[value]?

/-- `pikaVM_getInstructFromAsm`: the first three characters decide. -/
def fromAsm (insStr : CString) : InstructIndex :=
  (table.find? fun instruct => instruct.name == insStr.take 3).getD NON

theorem fromAsm_name (instruct : InstructIndex) : fromAsm instruct.name = instruct := by
  cases instruct <;> decide +kernel

theorem length_name (instruct : InstructIndex) : instruct.name.length = 3 := by
  cases instruct <;> rfl

end InstructIndex

/-- `InstructUnit`. -/
structure InstructUnit where
  deepth : BitVec 8
  isNewLineInstruct : BitVec 8
  constPoolIndex : BitVec 16
deriving DecidableEq, Repr

namespace InstructUnit
variable (self : InstructUnit)

def getBlockDeepth : Nat := (self.deepth &&& 0x0F).toNat
def getInvokeDeepth : Nat := (self.deepth >>> 4).toNat
def getInstructIndex : Option InstructIndex :=
  InstructIndex.ofNat? (self.isNewLineInstruct &&& 0x7F).toNat
def getConstPoolIndex : Nat := self.constPoolIndex.toNat
def getIsNewLine : Bool := self.isNewLineInstruct >>> 7 != 0

def setBlockDeepth (val : BitVec 8) : InstructUnit :=
  { self with deepth := self.deepth ||| (0x0F &&& val) }
def setInvokeDeepth (val : BitVec 8) : InstructUnit :=
  { self with deepth := self.deepth ||| ((0x0F &&& val) <<< 4) }
def setConstPoolIndex (val : Nat) : InstructUnit :=
  { self with constPoolIndex := BitVec.ofNat 16 val }
def setInstruct (val : InstructIndex) : InstructUnit :=
  { self with
    isNewLineInstruct := self.isNewLineInstruct ||| (0x7F &&& BitVec.ofNat 8 val.toNat) }
def setIsNewLine (val : BitVec 8) : InstructUnit :=
  { self with isNewLineInstruct := self.isNewLineInstruct ||| ((0x01 &&& val) <<< 7) }

/-- The unit of zeros, filled in as the assembler does it. -/
def pack (blockDeepth invokeDeepth : BitVec 8) (constPoolIndex : Nat) (instruct : InstructIndex)
    (isNewLine : Bool) : InstructUnit :=
  let unit : InstructUnit := ⟨0, 0, 0⟩
  let unit := unit.setBlockDeepth blockDeepth
  let unit := unit.setInvokeDeepth invokeDeepth
  let unit := unit.setConstPoolIndex constPoolIndex
  let unit := unit.setInstruct instruct
  if isNewLine then unit.setIsNewLine 1 else unit

variable (b i : BitVec 8) (c : Nat) (op : InstructIndex) (n : Bool)

private theorem low_nibble :
    (0#8 ||| (0x0F#8 &&& b) ||| ((0x0F#8 &&& i) <<< 4)) &&& 0x0F#8 = b &&& 0x0F#8 := by
  apply BitVec.eq_of_getLsbD_eq
  intro k hk
  interval_cases k <;> simp

private theorem high_nibble :
    (0#8 ||| (0x0F#8 &&& b) ||| ((0x0F#8 &&& i) <<< 4)) >>> 4 = i &&& 0x0F#8 := by
  apply BitVec.eq_of_getLsbD_eq
  intro k hk
  interval_cases k <;> simp

private theorem toNat_and_fifteen : ∀ b : BitVec 8, (b &&& 0x0F#8).toNat = b.toNat % 16 := by
  decide +kernel

theorem deepth_pack : (pack b i c op n).deepth =
    0#8 ||| (0x0F#8 &&& b) ||| ((0x0F#8 &&& i) <<< 4) := by
  cases n <;> rfl

private theorem fifteen_and_mod : ∀ b : BitVec 8,
    (0x0F : BitVec 8) &&& BitVec.ofNat 8 (b.toNat % 16) = (0x0F : BitVec 8) &&& b := by
  decide +kernel

/-- A depth may be cut before it is packed. -/
theorem pack_mod (b i c : Nat) (op : InstructIndex) (n : Bool) :
    pack (BitVec.ofNat 8 (b % 16)) (BitVec.ofNat 8 (i % 16)) c op n =
      pack (BitVec.ofNat 8 b) (BitVec.ofNat 8 i) c op n := by
  have hmod : ∀ k, (0x0F : BitVec 8) &&& BitVec.ofNat 8 (k % 16) =
      (0x0F : BitVec 8) &&& BitVec.ofNat 8 k := by
    intro k
    rw [← fifteen_and_mod (BitVec.ofNat 8 k), BitVec.toNat_ofNat]
    congr 2
    omega
  unfold pack setBlockDeepth setInvokeDeepth
  rw [hmod, hmod]

/-- **The block depth is kept modulo sixteen.** -/
theorem getBlockDeepth_pack : (pack b i c op n).getBlockDeepth = b.toNat % 16 := by
  rw [getBlockDeepth, deepth_pack]
  exact (congrArg BitVec.toNat (low_nibble b i)).trans (toNat_and_fifteen b)

/-- **The invoke depth is kept modulo sixteen.** -/
theorem getInvokeDeepth_pack : (pack b i c op n).getInvokeDeepth = i.toNat % 16 := by
  rw [getInvokeDeepth, deepth_pack, high_nibble]
  exact toNat_and_fifteen i

/-- **The offset is kept modulo 65536.** -/
theorem getConstPoolIndex_pack : (pack b i c op n).getConstPoolIndex = u16 c := by
  cases n <;> exact BitVec.toNat_ofNat c 16

private theorem isNewLineInstruct_pack :
    (pack b i c op n).isNewLineInstruct = (pack 0 0 0 op n).isNewLineInstruct := by
  cases n <;> rfl

theorem getInstructIndex_pack : (pack b i c op n).getInstructIndex = some op := by
  rw [getInstructIndex, isNewLineInstruct_pack]
  cases n <;> cases op <;> decide +kernel

theorem getIsNewLine_pack : (pack b i c op n).getIsNewLine = n := by
  rw [getIsNewLine, isNewLineInstruct_pack]
  cases n <;> cases op <;> decide +kernel

end InstructUnit

end PikaScript
