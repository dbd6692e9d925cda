import PikaScript.Bytecode.Asm
import PikaScript.Lib.Memory

/-! The compiled file of `PikaCompiler.c`, and its loader from `PikaVM.c`.

The source is compiled three times: for the sizes, for the instruct array and for
the constant pool, each time with other outputs redirected to the file or to
nothing. The three agree because an output is written or dropped behind everything
that decides what comes next; `Mirrors` says what a pass has written. The parser is
a parameter: it makes the texts for the assembler from the source alone. -/
namespace PikaScript
open Memory

/-! ### The code -/

/-- The three passes of `pikaCompile`, by what their frame redirects: the instruct array
to nothing; the instruct array to the file; the pool to the file as well as to memory, and
the instruct array to nothing. -/
inductive Pass where
  | size
  | instruct
  | constPool
deriving DecidableEq, Repr

/-- A `ByteCodeFrame` of which the instruct array keeps its size only, and the file. -/
structure OutputFrame where
  constPool : ConstPool
  instructArraySize : Nat
  outputF : Bytes
deriving DecidableEq, Repr

/-- The bytes of a unit in memory. -/
def InstructUnit.bytes (unit : InstructUnit) : Bytes :=
  [unit.deepth, unit.isNewLineInstruct, unit.constPoolIndex.truncate 8,
    (unit.constPoolIndex >>> 8).truncate 8]

namespace OutputFrame
variable (pass : Pass) (self : OutputFrame)

/-- `byteCodeFrame_init`, with the file. -/
def init (file : Bytes) : OutputFrame := ⟨ConstPool.init, 0, file⟩

/-- `constPool_append`, with `__handler_constPool_output_file` for the output. -/
def constPoolAppend (content : CString) : OutputFrame :=
  { self with
    constPool := self.constPool.append content
    outputF :=
      if pass = .constPool then
        self.outputF ++ (content ++ [0]).take (u16 (content.length + 1))
      else self.outputF }

/-- `instructArray_append`, with `__handler_instructArray_output_none` or
`__handler_instructArray_output_file` for the output. -/
def instructArrayAppend (unit : InstructUnit) : OutputFrame :=
  { self with
    instructArraySize := u32 (self.instructArraySize + 4)
    outputF := if pass = .instruct then self.outputF ++ unit.bytes else self.outputF }

/-- The offset of an operand, and the frame with it. -/
def place (sData : CString) : Option (OutputFrame × Nat) := do
  let uExistOffset ← self.constPool.getOffsetByData sData
  if sData = [] then return (self, 0)
  if uExistOffset = 65535 then
    return (constPoolAppend pass self sData, u16 self.constPool.size)
  return (self, uExistOffset)

/-- One round of the loop in `byteCodeFrame_appendFromAsm`. -/
def appendLine (asmer : Asmer) (sLine : CString) : Option (OutputFrame × Asmer) := do
  let sLine ← removeReturn sLine
  if sLine.head? = some charB then
    return (self, ⟨BitVec.ofInt 8 (← fastAtoi sLine.tail), true⟩)
  let (sInvokeDeepth, sIns, sData) ← splitLine sLine
  let (frame, uConstPoolOffset) ← place pass self sData
  let iInvokeDeepth ← fastAtoi sInvokeDeepth
  let unit := InstructUnit.pack asmer.blockDeepthNow (BitVec.ofInt 8 iInvokeDeepth)
    uConstPoolOffset (InstructIndex.fromAsm sIns) asmer.isNewLine
  return (instructArrayAppend pass frame unit, ⟨asmer.blockDeepthNow, false⟩)

/-- The loop over a number of lines. -/
def appendLines (self : OutputFrame) (asmer : Asmer) (sPikaAsm : CString) :
    Nat → Option OutputFrame
  | 0 => some self
  | lines + 1 => do
    let (sLine, rest) ← getLine sPikaAsm
    let (frame, asmer) ← appendLine pass self asmer sLine
    appendLines frame asmer rest lines

/-- `byteCodeFrame_appendFromAsm`. -/
def appendFromAsm (sPikaAsm : CString) : Option OutputFrame :=
  appendLines pass self ⟨0, false⟩ sPikaAsm (sPikaAsm.count charNewline)

end OutputFrame

/-- The parser's part of `pika_lines2Bytes`: the texts it hands to the assembler, and
whether it came to the end of the source. -/
abbrev Parse := CString → List CString × Bool

/-- The answer of `pika_lines2Bytes`. -/
def parseRes (ok : Bool) : PikaRes := if ok then .ok else .errSyntaxError

section
variable (parse : Parse) (pyLines : CString)

/-- `pika_lines2Bytes` into memory. -/
def lines2Bytes : Option (ByteCodeFrame × PikaRes) := do
  let frame ← (parse pyLines).1.foldlM ByteCodeFrame.appendFromAsm ByteCodeFrame.init
  return (frame, parseRes (parse pyLines).2)

/-- `pika_lines2Bytes` in a pass. -/
def passBytes (pass : Pass) (file : Bytes) : Option (OutputFrame × PikaRes) := do
  let frame ← (parse pyLines).1.foldlM (OutputFrame.appendFromAsm pass) (OutputFrame.init file)
  return (frame, parseRes (parse pyLines).2)

/-- `magic_code_pyo`. -/
def magicCodePyo : Bytes := [0x0f, 0x70, 0x79, 0x6f]

/-- `pikaCompile`: the bytes of the file. -/
def pikaCompile : Option (Bytes × PikaRes) := do
  let (frame, res) ← passBytes parse pyLines .size []
  if res ≠ .ok then return (frame.outputF, res)
  let constPoolSize := frame.constPool.size
  let instructArraySize := frame.instructArraySize
  let bytecodeSize := u32 (constPoolSize + instructArraySize + 4 + 4)
  let file := frame.outputF ++ magicCodePyo ++ word32 bytecodeSize ++ word32 instructArraySize
  let (frame, _) ← passBytes parse pyLines .instruct file
  let file := frame.outputF ++ word32 constPoolSize ++ [0]
  let (frame, _) ← passBytes parse pyLines .constPool file
  return (frame.outputF, res)

end

/-- A frame with loaded bytecode: the sizes, and the bytes they are the sizes of. -/
structure LoadedFrame where
  instructArraySize : Nat
  instructArray : Bytes
  constPool : ConstPool
deriving DecidableEq, Repr

/-- `_do_byteCodeFrame_loadByteCode`. Whether the bytes are copied makes no difference to
what they are. -/
def loadByteCode (bytes : Bytes) : Option LoadedFrame := do
  let start := if bytes.take 4 = magicCodePyo then 8 else 0
  let insSize ← load32 bytes start
  let instructArray ← loadBytes bytes (start + 4) insSize
  let constSize ← load32 bytes (start + 4 + insSize)
  let constPool ← loadBytes bytes (start + 4 + insSize + 4) constSize
  return ⟨insSize, instructArray, ⟨some constPool, constSize⟩⟩

/-! ### What is claimed -/

/-- The file of an instruct array and a pool: the size of what follows in front, and the
size of each section in front of it. -/
def imageOf (ins pool : Bytes) : Bytes :=
  magicCodePyo ++ word32 (4 + ins.length + 4 + pool.length) ++ word32 ins.length ++ ins ++
    word32 pool.length ++ pool

/-- The same units and the same pool. -/
def LoadedFrame.Same (loaded : LoadedFrame) (frame : ByteCodeFrame) : Prop :=
  loaded.instructArray = frame.instructArray.flatMap InstructUnit.bytes ∧
    loaded.instructArraySize = 4 * frame.instructArray.length ∧
    loaded.constPool = frame.constPool

/-- **The law of the compiled file**: its sizes are those of its sections, and it loads as
what is compiled in memory. -/
def FileLaw (parse : Parse) (pyLines : CString) : Prop :=
  ∃ file frame ins pool loaded,
    pikaCompile parse pyLines = some (file, .ok) ∧
    lines2Bytes parse pyLines = some (frame, .ok) ∧
    file = imageOf ins pool ∧ loadByteCode file = some loaded ∧ loaded.Same frame

/-- The lines of an assembler text. -/
def textLines (sPikaAsm : CString) : Nat → List CString
  | 0 => []
  | lines + 1 =>
    match getLine sPikaAsm with
    | none => []
    | some (sLine, rest) => sLine :: textLines rest lines

/-- The operand of an instruct line. -/
def lineOperand (sLine : CString) : Option CString := do
  let sLine ← removeReturn sLine
  if sLine.head? = some charB then none
  let (_, _, sData) ← splitLine sLine
  return sData

/-- A line has an operand, and not the empty one. -/
def lineHasOperand (sLine : CString) : Bool := (lineOperand sLine).any (· != [])

/-- Some instruct of the texts has an operand. -/
def hasOperand (texts : List CString) : Bool :=
  texts.any fun text => (textLines text (text.count charNewline)).any lineHasOperand

/-! ### The pool's memory -/

namespace ConstPool
variable {self self' : ConstPool} {data content : CString} {offset : Nat}

/-- The bytes of a pool. Without memory there is the zero of the empty string to come. -/
def bytes (self : ConstPool) : Bytes := self.argBuff.getD [0]

/-- A pool starts with the empty string, and its size is the size of its bytes. -/
structure Sound (pool : ConstPool) : Prop where
  zero : pool.bytes = 0 :: pool.bytes.tail
  size : pool.size = u32 pool.bytes.length

theorem sound_init : Sound init := ⟨rfl, rfl⟩

theorem length_chunk (content : CString) :
    ((content ++ [0]).take (u16 (content.length + 1)) : Bytes).length =
      u16 (content.length + 1) := by
  rw [List.length_take, List.length_append, List.length_singleton]
  exact Nat.min_eq_left (Nat.mod_le _ _)

theorem bytes_append : (self.append content).bytes =
    self.bytes ++ (content ++ [0]).take (u16 (content.length + 1)) := rfl

theorem Sound.append (h : Sound self) (content : CString) : Sound (self.append content) where
  zero := by
    rw [bytes_append, h.zero]
    rfl
  size := by
    rw [bytes_append, List.length_append, length_chunk]
    show u32 (self.size + _) = _
    rw [h.size, u32, u32, u32, Nat.mod_add_mod]

/-- Nothing is found without memory. -/
theorem isSome_of_getOffset (h : self.getOffsetByData data = some offset) (hne : offset ≠ 65535) :
    self.argBuff.isSome := by
  cases hbuff : self.argBuff with
  | none =>
    rw [getOffsetByData, hbuff, Option.some_inj] at h
    exact (hne h.symm).elim
  | some mem => rfl

/-- **A pool has memory from its first operand on.** -/
theorem place_isSome (h : self.place data = some (self', offset)) :
    self'.argBuff.isSome ↔ self.argBuff.isSome ∨ data ≠ [] := by
  obtain ⟨exist, hexist, h⟩ := Option.bind_eq_some_iff.mp h
  by_cases hdata : data = []
  · rw [if_pos hdata] at h
    cases h
    exact (or_iff_left fun hne => hne hdata).symm
  · rw [if_neg hdata] at h
    by_cases hfound : exist = 65535
    · rw [if_pos hfound] at h
      cases h
      exact iff_of_true rfl (.inr hdata)
    · rw [if_neg hfound] at h
      cases h
      exact iff_of_true (isSome_of_getOffset hexist hfound) (.inr hdata)

theorem Sound.place (hsound : Sound self) (h : self.place data = some (self', offset)) :
    Sound self' := by
  obtain ⟨exist, -, h⟩ := Option.bind_eq_some_iff.mp h
  split at h
  · cases h
    exact hsound
  · split at h
    · cases h
      exact hsound.append data
    · cases h
      exact hsound

end ConstPool

/-! ### What a pass writes -/

/-- What a pass has written when memory would hold the frame. -/
def Pass.written (frame : ByteCodeFrame) : Pass → Bytes
  | size => []
  | instruct => frame.instructArray.flatMap InstructUnit.bytes
  | constPool => frame.constPool.bytes.tail

/-- The frame of a pass, where memory would hold `frame`. -/
structure Mirrors (pass : Pass) (file : Bytes) (frame : ByteCodeFrame) (out : OutputFrame) :
    Prop where
  sound : frame.constPool.Sound
  constPool : out.constPool = frame.constPool
  size : out.instructArraySize = u32 (4 * frame.instructArray.length)
  outputF : out.outputF = file ++ pass.written frame

section
variable {pass : Pass} {file : Bytes} {frame frame' : ByteCodeFrame} {out : OutputFrame}
  {asmer asmer' : Asmer} {sLine : CString}

theorem mirrors_init : Mirrors pass file ByteCodeFrame.init (OutputFrame.init file) where
  sound := ConstPool.sound_init
  constPool := rfl
  size := rfl
  outputF := by cases pass <;> exact (List.append_nil file).symm

theorem Mirrors.place (h : Mirrors pass file frame out) {data : CString} {pool : ConstPool}
    {offset : Nat} (hplace : frame.constPool.place data = some (pool, offset)) :
    ∃ out', out.place pass data = some (out', offset) ∧
      Mirrors pass file ⟨pool, frame.instructArray⟩ out' := by
  have hsound := h.sound.place hplace
  obtain ⟨exist, hexist, hplace⟩ := Option.bind_eq_some_iff.mp hplace
  rw [OutputFrame.place, h.constPool, hexist, Option.bind_eq_bind, Option.bind_some]
  split at hplace
  · cases hplace
    exact ⟨out, if_pos ‹_›, hsound, h.constPool, h.size, h.outputF⟩
  · rw [if_neg ‹_›]
    split at hplace
    · cases hplace
      refine ⟨_, if_pos ‹_›, hsound, ?_, h.size, ?_⟩
      · rw [OutputFrame.constPoolAppend, h.constPool]
      · rw [OutputFrame.constPoolAppend]
        dsimp only
        rw [h.outputF]
        cases pass with
        | size => rfl
        | instruct => rfl
        | constPool =>
          rw [if_pos rfl, List.append_assoc, Pass.written, Pass.written, ConstPool.bytes_append,
            h.sound.zero]
          rfl
    · cases hplace
      exact ⟨out, if_neg ‹_›, hsound, h.constPool, h.size, h.outputF⟩

theorem Mirrors.instructArrayAppend (h : Mirrors pass file frame out) (unit : InstructUnit) :
    Mirrors pass file ⟨frame.constPool, frame.instructArray ++ [unit]⟩
      (out.instructArrayAppend pass unit) where
  sound := h.sound
  constPool := h.constPool
  size := by
    rw [OutputFrame.instructArrayAppend, h.size, List.length_append, List.length_singleton,
      Nat.mul_add, u32, u32, u32, Nat.mod_add_mod]
  outputF := by
    rw [OutputFrame.instructArrayAppend, h.outputF]
    cases pass with
    | size => rfl
    | instruct =>
      rw [if_pos rfl, List.append_assoc, Pass.written, Pass.written, List.flatMap_append]
      rfl
    | constPool => rfl

/-- **A line is compiled in a pass as in memory.** -/
theorem Mirrors.appendLine (h : Mirrors pass file frame out)
    (hline : frame.appendLine asmer sLine = some (frame', asmer')) :
    ∃ out', out.appendLine pass asmer sLine = some (out', asmer') ∧
      Mirrors pass file frame' out' := by
  obtain ⟨line, hreturn, hline⟩ := Option.bind_eq_some_iff.mp hline
  rw [OutputFrame.appendLine, hreturn, Option.bind_eq_bind, Option.bind_some]
  split at hline
  · obtain ⟨deepth, hdeepth, hline⟩ := Option.bind_eq_some_iff.mp hline
    cases hline
    rw [if_pos ‹_›, hdeepth]
    exact ⟨out, rfl, h⟩
  · obtain ⟨⟨sInvokeDeepth, sIns, sData⟩, hsplit, hline⟩ := Option.bind_eq_some_iff.mp hline
    obtain ⟨⟨pool, offset⟩, hplace, hline⟩ := Option.bind_eq_some_iff.mp hline
    obtain ⟨iInvokeDeepth, hinvoke, hline⟩ := Option.bind_eq_some_iff.mp hline
    cases hline
    obtain ⟨out', hout, h'⟩ := h.place hplace
    rw [if_neg ‹_›, hsplit]
    refine ⟨_, ?_, h'.instructArrayAppend _⟩
    simp only [Option.bind_eq_bind, Option.bind_some, hout, hinvoke, Option.pure_def]

/-- A line gives the pool memory when it has an operand. -/
theorem isSome_appendLine (hline : frame.appendLine asmer sLine = some (frame', asmer')) :
    frame'.constPool.argBuff.isSome ↔ frame.constPool.argBuff.isSome ∨ lineHasOperand sLine := by
  obtain ⟨line, hreturn, hline⟩ := Option.bind_eq_some_iff.mp hline
  rw [lineHasOperand, lineOperand, hreturn, Option.bind_eq_bind, Option.bind_some]
  split at hline
  · obtain ⟨deepth, -, hline⟩ := Option.bind_eq_some_iff.mp hline
    cases hline
    rw [if_pos ‹_›]
    simp
  · obtain ⟨⟨sInvokeDeepth, sIns, sData⟩, hsplit, hline⟩ := Option.bind_eq_some_iff.mp hline
    obtain ⟨⟨pool, offset⟩, hplace, hline⟩ := Option.bind_eq_some_iff.mp hline
    obtain ⟨iInvokeDeepth, -, hline⟩ := Option.bind_eq_some_iff.mp hline
    cases hline
    rw [if_neg ‹_›, hsplit, ConstPool.place_isSome hplace]
    simp

theorem Mirrors.appendLines {lines : Nat} {text : CString} (h : Mirrors pass file frame out)
    (hlines : frame.appendLines asmer text lines = some frame') :
    ∃ out', out.appendLines pass asmer text lines = some out' ∧
      Mirrors pass file frame' out' := by
  induction lines generalizing frame out asmer text with
  | zero =>
    cases hlines
    exact ⟨out, rfl, h⟩
  | succ lines ih =>
    obtain ⟨⟨sLine, rest⟩, hget, hlines⟩ := Option.bind_eq_some_iff.mp hlines
    obtain ⟨⟨frame₁, asmer₁⟩, hline, hlines⟩ := Option.bind_eq_some_iff.mp hlines
    obtain ⟨out₁, hout₁, h₁⟩ := h.appendLine hline
    obtain ⟨out', hout', h'⟩ := ih h₁ hlines
    refine ⟨out', ?_, h'⟩
    rw [OutputFrame.appendLines, hget, Option.bind_eq_bind, Option.bind_some]
    dsimp only
    rw [hout₁]
    exact hout'

theorem isSome_appendLines {lines : Nat} {text : CString}
    (hlines : frame.appendLines asmer text lines = some frame') :
    frame'.constPool.argBuff.isSome ↔
      frame.constPool.argBuff.isSome ∨ (textLines text lines).any lineHasOperand := by
  induction lines generalizing frame asmer text with
  | zero =>
    cases hlines
    simp [textLines]
  | succ lines ih =>
    obtain ⟨⟨sLine, rest⟩, hget, hlines⟩ := Option.bind_eq_some_iff.mp hlines
    obtain ⟨⟨frame₁, asmer₁⟩, hline, hlines⟩ := Option.bind_eq_some_iff.mp hlines
    rw [ih hlines, isSome_appendLine hline, textLines, hget, List.any_cons, Bool.or_eq_true,
      or_assoc]

/-- **Texts are compiled in a pass as in memory.** -/
theorem Mirrors.texts {texts : List CString} (h : Mirrors pass file frame out)
    (htexts : texts.foldlM ByteCodeFrame.appendFromAsm frame = some frame') :
    ∃ out', texts.foldlM (OutputFrame.appendFromAsm pass) out = some out' ∧
      Mirrors pass file frame' out' := by
  induction texts generalizing frame out with
  | nil =>
    cases htexts
    exact ⟨out, rfl, h⟩
  | cons text texts ih =>
    rw [List.foldlM_cons] at htexts
    obtain ⟨frame₁, htext, htexts⟩ := Option.bind_eq_some_iff.mp htexts
    obtain ⟨out₁, hout₁, h₁⟩ := h.appendLines htext
    obtain ⟨out', hout', h'⟩ := ih h₁ htexts
    refine ⟨out', ?_, h'⟩
    rw [List.foldlM_cons, OutputFrame.appendFromAsm, hout₁]
    exact hout'

/-- The pool has memory exactly if some instruct has an operand. -/
theorem isSome_texts {texts : List CString}
    (htexts : texts.foldlM ByteCodeFrame.appendFromAsm frame = some frame') :
    frame'.constPool.argBuff.isSome ↔ frame.constPool.argBuff.isSome ∨ hasOperand texts := by
  induction texts generalizing frame with
  | nil =>
    cases htexts
    simp [hasOperand]
  | cons text texts ih =>
    rw [List.foldlM_cons] at htexts
    obtain ⟨frame₁, htext, htexts⟩ := Option.bind_eq_some_iff.mp htexts
    rw [ih htexts, isSome_appendLines htext, hasOperand, hasOperand, List.any_cons,
      Bool.or_eq_true, or_assoc]

/-! ### The file -/

theorem length_bytes (units : List InstructUnit) :
    (units.flatMap InstructUnit.bytes).length = 4 * units.length := by
  induction units with
  | nil => rfl
  | cons unit units ih =>
    rw [List.flatMap_cons, List.length_append, ih, List.length_cons]
    show 4 + _ = _
    omega

variable {parse : Parse} {pyLines : CString}

theorem texts_of_compile (hcompile : lines2Bytes parse pyLines = some (frame, .ok)) :
    (parse pyLines).1.foldlM ByteCodeFrame.appendFromAsm ByteCodeFrame.init = some frame ∧
      parseRes (parse pyLines).2 = .ok := by
  obtain ⟨frame₁, htexts, hres⟩ := Option.bind_eq_some_iff.mp hcompile
  rw [Option.pure_def, Option.some_inj, Prod.mk.injEq] at hres
  obtain ⟨rfl, hres⟩ := hres
  exact ⟨htexts, hres⟩

/-- A pass of what compiles in memory. -/
theorem passBytes_eq (hcompile : lines2Bytes parse pyLines = some (frame, .ok)) (pass : Pass)
    (file : Bytes) :
    ∃ out, passBytes parse pyLines pass file = some (out, .ok) ∧ Mirrors pass file frame out := by
  obtain ⟨htexts, hres⟩ := texts_of_compile hcompile
  obtain ⟨out, hout, h⟩ := mirrors_init.texts htexts
  exact ⟨out, by rw [passBytes, hout, hres]; rfl, h⟩

/-- **The three passes make one image** of the frame that is compiled in memory. -/
theorem pikaCompile_eq (hcompile : lines2Bytes parse pyLines = some (frame, .ok))
    (hpool : frame.constPool.bytes.length < 2 ^ 16)
    (hins : 4 * frame.instructArray.length < 2 ^ 16) :
    pikaCompile parse pyLines =
      some (imageOf (frame.instructArray.flatMap InstructUnit.bytes) frame.constPool.bytes,
        .ok) := by
  obtain ⟨out₁, hout₁, h₁⟩ := passBytes_eq hcompile .size []
  have hsize : out₁.constPool.size = frame.constPool.bytes.length := by
    rw [h₁.constPool, h₁.sound.size, u32_of_lt (by omega)]
  have hinsSize : out₁.instructArraySize =
      (frame.instructArray.flatMap InstructUnit.bytes).length := by
    rw [h₁.size, u32_of_lt (by omega), length_bytes]
  rw [pikaCompile, hout₁, Option.bind_eq_bind, Option.bind_some]
  dsimp only
  rw [if_neg (by decide), hsize, hinsSize, h₁.outputF]
  obtain ⟨out₂, hout₂, h₂⟩ := passBytes_eq hcompile .instruct
    ([] ++ Pass.size.written frame ++ magicCodePyo ++
      word32 (u32 (frame.constPool.bytes.length +
        (frame.instructArray.flatMap InstructUnit.bytes).length + 4 + 4)) ++
      word32 (frame.instructArray.flatMap InstructUnit.bytes).length)
  obtain ⟨out₃, hout₃, h₃⟩ := passBytes_eq hcompile .constPool
    (out₂.outputF ++ word32 frame.constPool.bytes.length ++ [0])
  have hbytecode : u32 (frame.constPool.bytes.length +
      (frame.instructArray.flatMap InstructUnit.bytes).length + 4 + 4) =
      4 + (frame.instructArray.flatMap InstructUnit.bytes).length + 4 +
        frame.constPool.bytes.length := by
    rw [length_bytes, u32_of_lt (by omega)]
    omega
  have hzero : [0] ++ Pass.constPool.written frame = frame.constPool.bytes :=
    h₁.sound.zero.symm
  rw [hout₂, Option.bind_some]
  dsimp only
  rw [hout₃, Option.bind_some]
  dsimp only
  rw [h₃.outputF, h₂.outputF, hbytecode, List.append_assoc _ [0], hzero]
  rfl

/-- **The loader finds the sections of an image.** -/
theorem loadByteCode_imageOf (ins pool : Bytes) (hins : ins.length < 2 ^ 32)
    (hpool : pool.length < 2 ^ 32) :
    loadByteCode (imageOf ins pool) =
      some ⟨ins.length, ins, ⟨some pool, pool.length⟩⟩ := by
  have hlength : (imageOf ins pool).length = 16 + ins.length + pool.length := by
    simp only [imageOf, List.length_append, length_word32]
    rw [show magicCodePyo.length = 4 from rfl]
    omega
  have hsize : (imageOf ins pool).drop 8 = word32 ins.length ++ (ins ++
      (word32 pool.length ++ pool)) := by
    simp only [imageOf, List.append_assoc]
    rfl
  have hins' : (imageOf ins pool).drop (8 + 4) = ins ++ (word32 pool.length ++ pool) := by
    rw [← List.drop_drop, hsize]
    exact List.drop_left' (length_word32 _)
  have hconst : (imageOf ins pool).drop (8 + 4 + ins.length) = word32 pool.length ++ pool := by
    rw [← List.drop_drop, hins', List.drop_left]
  have hpool' : (imageOf ins pool).drop (8 + 4 + ins.length + 4) = pool ++ [] := by
    rw [← List.drop_drop, hconst, List.append_nil]
    exact List.drop_left' (length_word32 _)
  have hmagic : (imageOf ins pool).take 4 = magicCodePyo := by
    simp only [imageOf, List.append_assoc]
    rfl
  have hword := load32_of_drop_word32 hins hsize
  have hbytes := loadBytes_of_drop (by omega) hins'
  have hword' := load32_of_drop_word32 hpool hconst
  have hbytes' := loadBytes_of_drop (by omega) hpool'
  simp only [loadByteCode, if_pos hmagic, hword, hbytes, hword', hbytes', Option.bind_eq_bind,
    Option.bind_some, Option.pure_def]

/-- **The law of the compiled file holds exactly if some instruct has an operand**: else the
file has the zero of the empty string, and memory has not. -/
theorem fileLaw_iff (parse : Parse) (pyLines : CString) (frame : ByteCodeFrame)
    (hcompile : lines2Bytes parse pyLines = some (frame, .ok))
    (hpool : frame.constPool.bytes.length < 2 ^ 16)
    (hins : 4 * frame.instructArray.length < 2 ^ 16) :
    FileLaw parse pyLines ↔ hasOperand (parse pyLines).1 := by
  have hfile := pikaCompile_eq hcompile hpool hins
  have hload := loadByteCode_imageOf (frame.instructArray.flatMap InstructUnit.bytes)
    frame.constPool.bytes (by rw [length_bytes]; omega) (by omega)
  obtain ⟨_, -, hmirrors⟩ := passBytes_eq hcompile .size []
  have hsome : frame.constPool.argBuff.isSome ↔ hasOperand (parse pyLines).1 := by
    rw [isSome_texts (texts_of_compile hcompile).1]
    exact or_iff_right Bool.false_ne_true
  rw [← hsome]
  constructor
  · intro h
    obtain ⟨file, frame', ins, pool, loaded, hfile', hcompile', -, hload', hsame⟩ := h
    cases hcompile.symm.trans hcompile'
    cases hfile.symm.trans hfile'
    cases hload.symm.trans hload'
    rw [← hsame.2.2]
    rfl
  · intro hmem
    refine ⟨_, frame, _, _, _, hfile, hcompile, rfl, hload, rfl, length_bytes _, ?_⟩
    obtain ⟨mem, hmem⟩ := Option.isSome_iff_exists.mp hmem
    have hsize := hmirrors.sound.size
    rw [u32_of_lt (by omega)] at hsize
    rw [← hsize, ConstPool.bytes, hmem, Option.getD_some, ← hmem]

end
/-! ### Two sources -/

/-- A parser that knows one source. -/
def parseOnly (source : CString) (texts : List (List AsmLine)) : Parse := fun pyLines =>
  if pyLines = source then (texts.map asmText, true) else ([], false)

/-- `a = 1` -/
def assignSource : CString := [0x61, 0x20, 0x3d, 0x20, 0x31]

/-- What is made of it, with the empty line behind the source. -/
def assignTexts : List (List AsmLine) :=
  [[.block 0, .ins 0 .NUM [0x31], .ins 0 .OUT [0x61]], [.block 0]]

theorem fileLaw_assign : FileLaw (parseOnly assignSource assignTexts) assignSource := by
  have hcompile : lines2Bytes (parseOnly assignSource assignTexts) assignSource =
      some (⟨⟨some [0, 0x31, 0, 0x61, 0], 5⟩,
        [⟨0, 0x85, 1⟩, ⟨0, 0x04, 3⟩]⟩, .ok) := by
    decide +kernel
  exact (fileLaw_iff _ _ _ hcompile (by decide) (by decide)).mpr (by decide +kernel)

/-- `return` -/
def returnSource : CString := [0x72, 0x65, 0x74, 0x75, 0x72, 0x6e]

def returnTexts : List (List AsmLine) := [[.block 0, .ins 0 .RET []], [.block 0]]

/-- `return` alone has no operand: its pool has no memory, and its file has. -/
theorem not_fileLaw_return : ¬FileLaw (parseOnly returnSource returnTexts) returnSource := by
  intro h
  obtain ⟨file, frame, ins, pool, loaded, hfile, hcompile, -, hload, -, -, hsame⟩ := h
  have hmem : (lines2Bytes (parseOnly returnSource returnTexts) returnSource).map
      (fun r => r.1.constPool.argBuff) = some none := by
    decide +kernel
  have hloaded : (pikaCompile (parseOnly returnSource returnTexts) returnSource).bind
      (fun r => (loadByteCode r.1).map fun loaded => loaded.constPool.argBuff) =
        some (some [0]) := by
    decide +kernel
  rw [hcompile, Option.map_some, Option.some_inj] at hmem
  rw [hfile, Option.bind_some, hload, Option.map_some, Option.some_inj, hsame, hmem] at hloaded
  cases hloaded

end PikaScript
