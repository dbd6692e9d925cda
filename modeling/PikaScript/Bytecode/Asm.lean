import PikaScript.Bytecode.ConstPool
import PikaScript.Bytecode.Instruct
import PikaScript.Data.Decimal

/-! The assembler of `PikaParser.c`: text to a bytecode frame, and back.

A text is a list of lines: one that gives the block depth for those behind it, or
one instruct with its invoke depth and operand. `RoundTrip` says that a frame gives
back what its texts say. The frame has four bits for a depth and sixteen for an
offset, and nothing is checked; `Encodable` is when they are enough. -/
namespace PikaScript
open Memory

def charSpace : BitVec 8 := 0x20
def charNewline : BitVec 8 := 0x0a
def charReturn : BitVec 8 := 0x0d
def charB : BitVec 8 := 0x42

/-! ### The code -/

/-- `ByteCodeFrame`, the pool and the units. -/
structure ByteCodeFrame where
  constPool : ConstPool
  instructArray : List InstructUnit
deriving DecidableEq, Repr

/-- `byteCodeFrame_init`. -/
def ByteCodeFrame.init : ByteCodeFrame := ⟨ConstPool.init, []⟩

/-- `Asmer`, the position in the text apart. -/
structure Asmer where
  blockDeepthNow : BitVec 8
  isNewLine : Bool
deriving DecidableEq, Repr

/-- `strsGetLine` and the step over the line; none when no line ends. -/
def getLine (text : CString) : Option (CString × CString) :=
  match text.dropWhile (· != charNewline) with
  | [] => none
  | _ :: rest => some (text.takeWhile (· != charNewline), rest)

/-- `remove '\r'`; none for an empty line, which is read in front of. -/
def removeReturn (sLine : CString) : Option CString :=
  sLine.getLast?.map fun c => if c = charReturn then sLine.dropLast else sLine

/-- The loop over the characters of an instruct line: invoke depth, name and
operand. None when there is no operand, or a buffer is too short for its part and,
for the depth, the zero behind it. -/
def splitLine (sLine : CString) : Option (CString × CString × CString) :=
  match sLine.dropWhile (· != charSpace) with
  | [] => none
  | _ :: rest =>
    match rest.dropWhile (· != charSpace) with
    | [] => none
    | _ :: sData =>
      let sInvokeDeepth := sLine.takeWhile (· != charSpace)
      let sIns := rest.takeWhile (· != charSpace)
      if sInvokeDeepth.length < 3 ∧ sIns.length ≤ 4 then some (sInvokeDeepth, sIns, sData) else none

/-- The offset of an operand, and the pool with it. -/
def ConstPool.place (self : ConstPool) (sData : CString) : Option (ConstPool × Nat) := do
  let uExistOffset ← self.getOffsetByData sData
  if sData = [] then return (self, 0)
  if uExistOffset = 65535 then return (self.append sData, u16 self.size)
  return (self, uExistOffset)

/-- One round of the loop in `byteCodeFrame_appendFromAsm`. -/
def ByteCodeFrame.appendLine (self : ByteCodeFrame) (asmer : Asmer) (sLine : CString) :
    Option (ByteCodeFrame × Asmer) := do
  let sLine ← removeReturn sLine
  if sLine.head? = some charB then
    return (self, ⟨BitVec.ofInt 8 (← fastAtoi sLine.tail), true⟩)
  let (sInvokeDeepth, sIns, sData) ← splitLine sLine
  let (constPool, uConstPoolOffset) ← self.constPool.place sData
  let iInvokeDeepth ← fastAtoi sInvokeDeepth
  let unit := InstructUnit.pack asmer.blockDeepthNow (BitVec.ofInt 8 iInvokeDeepth)
    uConstPoolOffset (InstructIndex.fromAsm sIns) asmer.isNewLine
  return (⟨constPool, self.instructArray ++ [unit]⟩, ⟨asmer.blockDeepthNow, false⟩)

/-- The loop over a number of lines. -/
def ByteCodeFrame.appendLines (self : ByteCodeFrame) (asmer : Asmer) (sPikaAsm : CString) :
    Nat → Option ByteCodeFrame
  | 0 => some self
  | lines + 1 => do
    let (sLine, rest) ← getLine sPikaAsm
    let (frame, asmer) ← self.appendLine asmer sLine
    frame.appendLines asmer rest lines

/-- `byteCodeFrame_appendFromAsm`. -/
def ByteCodeFrame.appendFromAsm (self : ByteCodeFrame) (sPikaAsm : CString) :
    Option ByteCodeFrame :=
  self.appendLines ⟨0, false⟩ sPikaAsm (sPikaAsm.count charNewline)

/-- What a unit says. -/
structure AsmUnit where
  instruct : InstructIndex
  blockDeepth : Nat
  invokeDeepth : Nat
  isNewLine : Bool
  data : CString
deriving DecidableEq, Repr

/-- A unit with its depths cut to four bits. -/
def AsmUnit.narrow (unit : AsmUnit) : AsmUnit :=
  { unit with blockDeepth := unit.blockDeepth % 16, invokeDeepth := unit.invokeDeepth % 16 }

/-- A unit read with the accessors of `PikaVM.h`, its operand from the pool. -/
def ConstPool.decodeUnit (self : ConstPool) (unit : InstructUnit) : Option AsmUnit := do
  let contentStart ← self.argBuff
  let data ← loadString contentStart unit.getConstPoolIndex
  let instruct ← unit.getInstructIndex
  return ⟨instruct, unit.getBlockDeepth, unit.getInvokeDeepth, unit.getIsNewLine, data⟩

/-- The units of a frame. -/
def ByteCodeFrame.decode (self : ByteCodeFrame) : Option (List AsmUnit) :=
  self.instructArray.mapM self.constPool.decodeUnit

/-! ### Assembler text -/

/-- A line of assembler text. -/
inductive AsmLine where
  | block (deepth : Nat)
  | ins (invokeDeepth : Nat) (instruct : InstructIndex) (data : CString)
deriving DecidableEq, Repr

/-- The text of a line, without its end. -/
def AsmLine.text : AsmLine → CString
  | block deepth => charB :: decimal deepth
  | ins invokeDeepth instruct data =>
    decimal invokeDeepth ++ charSpace :: (instruct.name ++ charSpace :: data)

def asmText (lines : List AsmLine) : CString := lines.flatMap fun line => line.text ++ [charNewline]

/-- What lines say, from a block depth and a mark of a new line on. -/
def asmUnits : Nat → Bool → List AsmLine → List AsmUnit
  | _, _, [] => []
  | _, _, .block deepth :: lines => asmUnits deepth true lines
  | blockDeepth, isNewLine, .ins invokeDeepth instruct data :: lines =>
    ⟨instruct, blockDeepth, invokeDeepth, isNewLine, data⟩ :: asmUnits blockDeepth false lines

/-- The frame of texts that are appended one by one. -/
def assemble (texts : List (List AsmLine)) : Option ByteCodeFrame :=
  texts.foldlM (fun frame lines => frame.appendFromAsm (asmText lines)) ByteCodeFrame.init

/-- What texts say: each starts at block depth zero. -/
def textUnits (texts : List (List AsmLine)) : List AsmUnit := texts.flatMap (asmUnits 0 false)

/-- **The law**: the frame gives back every unit, and its pool holds every operand
once and no other string but the empty one. -/
def RoundTrip (texts : List (List AsmLine)) : Prop :=
  ∃ frame, assemble texts = some frame ∧ frame.decode = some (textUnits texts) ∧
    (∀ unit ∈ textUnits texts, frame.constPool.entries.count unit.data = 1) ∧
    ∀ e ∈ frame.constPool.entries, e = [] ∨ ∃ unit ∈ textUnits texts, unit.data = e

/-! ### What the frame can hold -/

/-- The operands of units, each once, behind the empty string. -/
def operandTable (units : List AsmUnit) : List CString :=
  (units.map AsmUnit.data).foldl StringTable.insert [[]]

/-- **When the fields are wide enough**: no depth of sixteen; an operand that is not
empty, for the pool to have memory; every operand found at its offset cut to sixteen
bits; and none used again whose offset reads as not found. -/
structure Encodable (units : List AsmUnit) : Prop where
  blockDeepth : ∀ unit ∈ units, unit.blockDeepth < 16
  invokeDeepth : ∀ unit ∈ units, unit.invokeDeepth < 16
  operand : units = [] ∨ ∃ unit ∈ units, unit.data ≠ []
  offset : ∀ unit ∈ units,
    loadString (StringTable.layout (operandTable units))
      (u16 (StringTable.offset unit.data (operandTable units))) = some unit.data
  reuse : ∀ unit ∈ units, 2 ≤ (units.map AsmUnit.data).count unit.data →
    u16 (StringTable.offset unit.data (operandTable units)) ≠ 65535

/-- A line a code generator prints: depths of a machine word, and an operand that is
one line and shorter than 65535 bytes. -/
def AsmLine.Printable : AsmLine → Prop
  | block deepth => deepth < 2 ^ 32
  | ins invokeDeepth _ data =>
    invokeDeepth < 2 ^ 32 ∧ 0 ∉ data ∧ charNewline ∉ data ∧ data.getLast? ≠ some charReturn ∧
      data.length < 65535

instance (line : AsmLine) : Decidable line.Printable :=
  match line with
  | .block deepth => inferInstanceAs (Decidable (deepth < 2 ^ 32))
  | .ins _ _ _ => inferInstanceAs (Decidable (_ ∧ _ ∧ _ ∧ _ ∧ _))

/-! ### Lines -/

theorem getLine_append {sLine rest : CString} (h : charNewline ∉ sLine) :
    getLine (sLine ++ charNewline :: rest) = some (sLine, rest) := by
  have hall : ∀ c ∈ sLine, (c != charNewline) = true := by
    intro c hc
    rw [bne_iff_ne]
    exact fun heq => h (heq ▸ hc)
  rw [getLine, List.dropWhile_append_of_pos hall, List.takeWhile_append_of_pos hall]
  simp

private theorem not_mem_decimal {c : BitVec 8} (h : c.toNat < 0x30 ∨ 0x39 < c.toNat) (n : Nat) :
    c ∉ decimal n := by
  intro hc
  have := mem_decimal hc
  omega

private theorem not_mem_name (instruct : InstructIndex) :
    charSpace ∉ instruct.name ∧ charNewline ∉ instruct.name := by
  cases instruct <;> decide +kernel

theorem newline_not_mem_text {line : AsmLine} (h : line.Printable) : charNewline ∉ line.text := by
  have hdec := not_mem_decimal (c := charNewline) (by decide)
  cases line with
  | block deepth =>
    rw [AsmLine.text, List.mem_cons]
    exact fun h => h.elim (by decide) (hdec deepth)
  | ins invokeDeepth instruct data =>
    obtain ⟨-, -, hdata, -⟩ := h
    simp only [AsmLine.text, List.mem_append, List.mem_cons]
    rintro (h | h | h | h | h)
    · exact hdec _ h
    · exact absurd h (by decide)
    · exact (not_mem_name instruct).2 h
    · exact absurd h (by decide)
    · exact hdata h

private theorem splitLine_text {invokeDeepth : Nat} (instruct : InstructIndex) (data : CString) :
    splitLine (AsmLine.ins invokeDeepth instruct data).text =
      if invokeDeepth < 100 then some (decimal invokeDeepth, instruct.name, data) else none := by
  have hdec : ∀ c ∈ decimal invokeDeepth, (c != charSpace) = true := by
    intro c hc
    rw [bne_iff_ne]
    rintro rfl
    exact not_mem_decimal (by decide) _ hc
  have hname : ∀ c ∈ instruct.name, (c != charSpace) = true := by
    intro c hc
    rw [bne_iff_ne]
    rintro rfl
    exact (not_mem_name instruct).1 hc
  have hlength : (decimal invokeDeepth).length < 3 ↔ invokeDeepth < 100 := by
    rw [← length_decimal_le_two]
    omega
  unfold splitLine AsmLine.text
  dsimp only
  rw [List.dropWhile_append_of_pos hdec, List.takeWhile_append_of_pos hdec]
  simp only [bne_self_eq_false, Bool.false_eq_true, not_false_eq_true, List.dropWhile_cons_of_neg,
    List.takeWhile_cons_of_neg, List.append_nil, List.dropWhile_append_of_pos hname,
    List.takeWhile_append_of_pos hname, InstructIndex.length_name, hlength]
  by_cases h : invokeDeepth < 100
  · simp [h]
  · simp [h]

private theorem fastAtoi_depth {n : Nat} (h : n < 2 ^ 32) :
    (fastAtoi (decimal n)).map (BitVec.ofInt 8) = some (BitVec.ofNat 8 n) := by
  rw [fastAtoi_decimal (Nat.lt_trans h (by decide)), Option.map_some, BitVec.ofInt_natCast]

theorem appendLine_block (frame : ByteCodeFrame) (asmer : Asmer) {deepth : Nat}
    (h : (AsmLine.block deepth).Printable) :
    frame.appendLine asmer (AsmLine.block deepth).text =
      some (frame, ⟨BitVec.ofNat 8 deepth, true⟩) := by
  have hlast : ∀ c ∈ (charB :: decimal deepth).getLast?, c ≠ charReturn := by
    intro c hc heq
    have hmem := List.mem_of_getLast? hc
    rw [heq, List.mem_cons] at hmem
    exact hmem.elim (by decide) (not_mem_decimal (by decide) _)
  have hreturn : removeReturn (charB :: decimal deepth) = some (charB :: decimal deepth) := by
    unfold removeReturn
    cases hget : (charB :: decimal deepth).getLast? with
    | none => simp at hget
    | some c => rw [Option.map_some, if_neg (hlast c hget)]
  have hdepth := fastAtoi_depth h
  obtain ⟨n, hn, hof⟩ := Option.map_eq_some_iff.mp hdepth
  simp only [ByteCodeFrame.appendLine, AsmLine.text, hreturn, Option.bind_eq_bind, Option.bind_some,
    List.head?_cons, if_pos, List.tail_cons, hn, hof, Option.pure_def]

/-- The text of an instruct line has nothing to remove. -/
private theorem removeReturn_text {invokeDeepth : Nat} {instruct : InstructIndex} {data : CString}
    (h : data.getLast? ≠ some charReturn) :
    removeReturn (AsmLine.ins invokeDeepth instruct data).text =
      some (AsmLine.ins invokeDeepth instruct data).text := by
  have hlast : (AsmLine.ins invokeDeepth instruct data).text.getLast? =
      some (data.getLast?.getD charSpace) := by
    rw [AsmLine.text, ← List.cons_append, ← List.append_assoc, List.getLast?_append_cons,
      List.getLast?_cons]
  rw [removeReturn, hlast, Option.map_some, if_neg]
  intro heq
  cases hdata : data.getLast? with
  | none =>
    rw [hdata] at heq
    exact absurd heq (by decide)
  | some c =>
    rw [hdata] at heq
    exact h (heq ▸ hdata)

private theorem head?_text {invokeDeepth : Nat} {instruct : InstructIndex} {data : CString} :
    (AsmLine.ins invokeDeepth instruct data).text.head? ≠ some charB := by
  obtain ⟨c, cs, hc⟩ := List.exists_cons_of_ne_nil (decimal_ne_nil invokeDeepth)
  rw [AsmLine.text, hc, List.cons_append, List.head?_cons]
  intro heq
  have hmem : c ∈ decimal invokeDeepth := hc ▸ List.mem_cons_self
  exact not_mem_decimal (by decide) _ (Option.some.inj heq ▸ hmem)

/-- **An instruct line adds its unit**, when its invoke depth has at most two digits. -/
theorem appendLine_ins (frame : ByteCodeFrame) (asmer : Asmer) {invokeDeepth : Nat}
    {instruct : InstructIndex} {data : CString} (hdepth : invokeDeepth < 2 ^ 32)
    (hlast : data.getLast? ≠ some charReturn) :
    frame.appendLine asmer (AsmLine.ins invokeDeepth instruct data).text =
      if invokeDeepth < 100 then
        (frame.constPool.place data).map fun placed =>
          (⟨placed.1, frame.instructArray ++ [InstructUnit.pack asmer.blockDeepthNow
            (BitVec.ofNat 8 invokeDeepth) placed.2 instruct asmer.isNewLine]⟩,
            ⟨asmer.blockDeepthNow, false⟩)
      else none := by
  obtain ⟨n, hn, hof⟩ := Option.map_eq_some_iff.mp (fastAtoi_depth hdepth)
  rw [ByteCodeFrame.appendLine, removeReturn_text hlast, Option.bind_eq_bind, Option.bind_some,
    if_neg head?_text, splitLine_text]
  split
  · rw [Option.bind_eq_bind, Option.bind_some]
    dsimp only
    rw [hn, InstructIndex.fromAsm_name]
    cases frame.constPool.place data with
    | none => rfl
    | some placed =>
      simp only [Option.bind_eq_bind, Option.bind_some, hof, Option.map_some, Option.pure_def]
  · rfl

/-! ### The pool behind the lines -/

/-- The entries after an operand: one that is there is added again when its offset
reads as not found. -/
def addOperand (es : List CString) (data : CString) : List CString :=
  if data ≠ [] ∧ u16 (StringTable.offset data es) = 65535 then es ++ [data]
  else StringTable.insert es data

/-- The offset an operand gets. -/
def operandIndex (es : List CString) (data : CString) : Nat :=
  if data = [] then 0
  else if u16 (StringTable.offset data es) = 65535 then u16 (StringTable.layout es).length
  else u16 (StringTable.offset data es)

open ConstPool in
theorem place_ofEntries {es : List CString} (hes : IsEntries es) {data : CString}
    (hlength : data.length < 65535)
    (hsize : (StringTable.layout es).length + data.length + 1 < 2 ^ 32) :
    (ofEntries es).place data = some (ofEntries (addOperand es data), operandIndex es data) := by
  rw [place, getOffsetByData_ofEntries hes, Option.bind_eq_bind, Option.bind_some]
  unfold addOperand operandIndex
  by_cases hempty : data = []
  · subst hempty
    obtain ⟨rest, hrest, -⟩ := hes.head
    have hmem : [] ∈ es := by
      rw [hrest]
      exact List.mem_cons_self
    simp [StringTable.insert_of_mem hmem]
  · by_cases hmem : data ∈ es
    · by_cases hoffset : u16 (StringTable.offset data es) = 65535
      · simp [hempty, hmem, hoffset, append_ofEntries hes hlength hsize]
      · simp [hempty, hmem, hoffset, StringTable.insert_of_mem hmem]
    · have hlast := StringTable.offset_of_not_mem hmem
      simp [hempty, hmem, hlast, StringTable.insert_of_not_mem hmem,
        append_ofEntries hes hlength hsize]

theorem addOperand_eq (es : List CString) (data : CString) :
    addOperand es data = es ∧ data ∈ es ∨ addOperand es data = es ++ [data] := by
  unfold addOperand StringTable.insert
  split
  · exact .inr rfl
  · split
    · exact .inl ⟨rfl, ‹_›⟩
    · exact .inr rfl

theorem layout_addOperand_le (es : List CString) (data : CString) :
    (StringTable.layout (addOperand es data)).length ≤
      (StringTable.layout es).length + (data.length + 1) := by
  rcases addOperand_eq es data with ⟨h, -⟩ | h
  · rw [h]
    omega
  · rw [h, StringTable.length_layout_concat, Nat.add_assoc]

theorem isEntries_addOperand {es : List CString} (hes : ConstPool.IsEntries es) {data : CString}
    (hz : 0 ∉ data) (hsize : (StringTable.layout es).length + data.length + 1 < 2 ^ 32) :
    ConstPool.IsEntries (addOperand es data) := by
  by_cases hempty : data = []
  · obtain ⟨rest, hrest, -⟩ := hes.head
    have hmem : [] ∈ es := by
      rw [hrest]
      exact List.mem_cons_self
    rw [addOperand, if_neg (fun h => h.1 hempty), hempty, StringTable.insert_of_mem hmem]
    exact hes
  · rcases addOperand_eq es data with ⟨h, -⟩ | h
    · rw [h]
      exact hes
    · rw [h]
      exact ConstPool.isEntries_concat hes hempty hz hsize

/-- The entries after the operands of units. -/
def addOperands (es : List CString) (units : List AsmUnit) : List CString :=
  units.foldl (fun es unit => addOperand es unit.data) es

/-- The units as they are packed, from some entries on. -/
def encode : List CString → List AsmUnit → List InstructUnit
  | _, [] => []
  | es, unit :: units =>
    InstructUnit.pack (BitVec.ofNat 8 unit.blockDeepth) (BitVec.ofNat 8 unit.invokeDeepth)
      (operandIndex es unit.data) unit.instruct unit.isNewLine ::
        encode (addOperand es unit.data) units

theorem encode_append (es : List CString) (units more : List AsmUnit) :
    encode es (units ++ more) = encode es units ++ encode (addOperands es units) more := by
  induction units generalizing es with
  | nil => rfl
  | cons unit units ih => exact congrArg (_ :: ·) (ih _)

/-- What the assembler relies on in a unit: its operand is a string of a line. -/
def AsmUnit.Sound (unit : AsmUnit) : Prop := 0 ∉ unit.data ∧ unit.data.length < 65535

/-- The bytes that units add to the pool at most. -/
def operandBytes (units : List AsmUnit) : Nat := (units.map fun unit => unit.data.length + 1).sum

theorem isEntries_addOperands {units : List AsmUnit} {es : List CString}
    (hes : ConstPool.IsEntries es) (hunits : ∀ unit ∈ units, unit.Sound)
    (hsize : (StringTable.layout es).length + operandBytes units < 2 ^ 32) :
    ConstPool.IsEntries (addOperands es units) ∧
      (StringTable.layout (addOperands es units)).length ≤
        (StringTable.layout es).length + operandBytes units := by
  induction units generalizing es with
  | nil => exact ⟨hes, Nat.le_add_right _ _⟩
  | cons unit units ih =>
    obtain ⟨hunit, hunits⟩ := List.forall_mem_cons.mp hunits
    rw [operandBytes, List.map_cons, List.sum_cons] at hsize ⊢
    have hle := layout_addOperand_le es unit.data
    have hes' := isEntries_addOperand hes hunit.1 (by omega)
    obtain ⟨h₁, h₂⟩ := ih hes' hunits (by unfold operandBytes; omega)
    exact ⟨h₁, by unfold operandBytes at h₂; exact Nat.le_trans h₂ (by omega)⟩

theorem sound_asmUnits {lines : List AsmLine} (hlines : ∀ line ∈ lines, line.Printable)
    {blockDeepth : Nat} {isNewLine : Bool} :
    ∀ unit ∈ asmUnits blockDeepth isNewLine lines, unit.Sound := by
  induction lines generalizing blockDeepth isNewLine with
  | nil => exact fun _ h => absurd h List.not_mem_nil
  | cons line lines ih =>
    obtain ⟨hline, hrest⟩ := List.forall_mem_cons.mp hlines
    cases line with
    | block deepth => exact ih hrest
    | ins invokeDeepth instruct data =>
      exact List.forall_mem_cons.mpr ⟨⟨hline.2.1, hline.2.2.2.2⟩, ih hrest⟩

private theorem count_newline {lines : List AsmLine} (hlines : ∀ line ∈ lines, line.Printable) :
    (asmText lines).count charNewline = lines.length := by
  induction lines with
  | nil => rfl
  | cons line lines ih =>
    obtain ⟨hline, hrest⟩ := List.forall_mem_cons.mp hlines
    have hzero := List.count_eq_zero.mpr (newline_not_mem_text hline)
    rw [asmText, List.flatMap_cons, List.count_append, List.count_append, hzero, List.length_cons]
    have := ih hrest
    rw [asmText] at this
    rw [this, Nat.add_comm]
    rfl

/-- **The loop over the lines packs their units** and puts their operands in the pool,
unless an invoke depth has three digits. -/
theorem appendLines_asmText {lines : List AsmLine} (hlines : ∀ line ∈ lines, line.Printable)
    {es : List CString} (hes : ConstPool.IsEntries es) (packed : List InstructUnit)
    (blockDeepth : Nat) (isNewLine : Bool)
    (hsize : (StringTable.layout es).length +
      operandBytes (asmUnits blockDeepth isNewLine lines) < 2 ^ 32) :
    ByteCodeFrame.appendLines ⟨ConstPool.ofEntries es, packed⟩
        ⟨BitVec.ofNat 8 blockDeepth, isNewLine⟩ (asmText lines) lines.length =
      if ∀ unit ∈ asmUnits blockDeepth isNewLine lines, unit.invokeDeepth < 100 then
        some ⟨ConstPool.ofEntries (addOperands es (asmUnits blockDeepth isNewLine lines)),
          packed ++ encode es (asmUnits blockDeepth isNewLine lines)⟩
      else none := by
  induction lines generalizing es packed blockDeepth isNewLine with
  | nil =>
    simp [ByteCodeFrame.appendLines, asmUnits, addOperands, encode]
  | cons line lines ih =>
    obtain ⟨hline, hrest⟩ := List.forall_mem_cons.mp hlines
    have htext : asmText (line :: lines) = line.text ++ charNewline :: asmText lines := by
      rw [asmText, List.flatMap_cons, List.append_assoc]
      rfl
    rw [List.length_cons, ByteCodeFrame.appendLines, htext,
      getLine_append (newline_not_mem_text hline), Option.bind_eq_bind, Option.bind_some]
    dsimp only
    cases line with
    | block deepth =>
      rw [appendLine_block _ _ hline, Option.bind_eq_bind, Option.bind_some]
      exact ih hrest hes packed deepth true hsize
    | ins invokeDeepth instruct data =>
      rw [appendLine_ins _ _ hline.1 hline.2.2.2.1]
      rw [asmUnits] at hsize ⊢
      rw [operandBytes, List.map_cons, List.sum_cons] at hsize
      dsimp only at hsize
      by_cases hdepth : invokeDeepth < 100
      · have hle := layout_addOperand_le es data
        have hes' := isEntries_addOperand hes hline.2.1 (by omega)
        rw [if_pos hdepth, place_ofEntries hes hline.2.2.2.2 (by omega), Option.map_some,
          Option.bind_eq_bind, Option.bind_some]
        dsimp only
        rw [ih hrest hes' _ blockDeepth false (by unfold operandBytes; omega)]
        simp only [List.forall_mem_cons, hdepth, true_and, addOperands, List.foldl_cons, encode,
          List.append_assoc, List.singleton_append]
      · rw [if_neg hdepth, if_neg (fun h => hdepth (h _ List.mem_cons_self))]
        rfl

theorem appendFromAsm_asmText {lines : List AsmLine} (hlines : ∀ line ∈ lines, line.Printable)
    {es : List CString} (hes : ConstPool.IsEntries es) (packed : List InstructUnit)
    (hsize : (StringTable.layout es).length + operandBytes (asmUnits 0 false lines) < 2 ^ 32) :
    ByteCodeFrame.appendFromAsm ⟨ConstPool.ofEntries es, packed⟩ (asmText lines) =
      if ∀ unit ∈ asmUnits 0 false lines, unit.invokeDeepth < 100 then
        some ⟨ConstPool.ofEntries (addOperands es (asmUnits 0 false lines)),
          packed ++ encode es (asmUnits 0 false lines)⟩
      else none := by
  rw [ByteCodeFrame.appendFromAsm, count_newline hlines]
  exact appendLines_asmText hlines hes packed 0 false hsize

private theorem operandBytes_append (units more : List AsmUnit) :
    operandBytes (units ++ more) = operandBytes units + operandBytes more := by
  rw [operandBytes, List.map_append, List.sum_append]
  rfl

private theorem foldlM_appendFromAsm {texts : List (List AsmLine)}
    (htexts : ∀ lines ∈ texts, ∀ line ∈ lines, line.Printable) {es : List CString}
    (hes : ConstPool.IsEntries es) (packed : List InstructUnit)
    (hsize : (StringTable.layout es).length + operandBytes (textUnits texts) < 2 ^ 32) :
    texts.foldlM (fun (frame : ByteCodeFrame) lines => frame.appendFromAsm (asmText lines))
        ⟨ConstPool.ofEntries es, packed⟩ =
      if ∀ unit ∈ textUnits texts, unit.invokeDeepth < 100 then
        some ⟨ConstPool.ofEntries (addOperands es (textUnits texts)),
          packed ++ encode es (textUnits texts)⟩
      else none := by
  induction texts generalizing es packed with
  | nil => simp [textUnits, addOperands, encode]
  | cons lines texts ih =>
    obtain ⟨hlines, hrest⟩ := List.forall_mem_cons.mp htexts
    have hunits : textUnits (lines :: texts) = asmUnits 0 false lines ++ textUnits texts :=
      List.flatMap_cons
    rw [hunits, operandBytes_append] at hsize
    have hsound : ∀ unit ∈ asmUnits 0 false lines, unit.Sound := sound_asmUnits hlines
    obtain ⟨hes', hle⟩ := isEntries_addOperands hes hsound (by omega)
    rw [List.foldlM_cons, appendFromAsm_asmText hlines hes packed (by omega), hunits]
    by_cases hdepth : ∀ unit ∈ asmUnits 0 false lines, unit.invokeDeepth < 100
    · rw [if_pos hdepth, Option.bind_eq_bind, Option.bind_some, ih hrest hes' _ (by omega)]
      simp only [List.forall_mem_append, addOperands, List.foldl_append, encode_append,
        List.append_assoc]
      by_cases hdepth' : ∀ unit ∈ textUnits texts, unit.invokeDeepth < 100
      · rw [if_pos hdepth', if_pos ⟨hdepth, hdepth'⟩]
      · rw [if_neg hdepth', if_neg fun h => hdepth' h.2]
    · rw [if_neg hdepth, if_neg fun h => hdepth (List.forall_mem_append.mp h).1]
      rfl

/-- **The frame of printable texts.** -/
theorem assemble_eq {texts : List (List AsmLine)}
    (htexts : ∀ lines ∈ texts, ∀ line ∈ lines, line.Printable)
    (hsize : 1 + operandBytes (textUnits texts) < 2 ^ 32) :
    assemble texts =
      if ∀ unit ∈ textUnits texts, unit.invokeDeepth < 100 then
        some ⟨ConstPool.ofEntries (addOperands [[]] (textUnits texts)),
          encode [[]] (textUnits texts)⟩
      else none :=
  foldlM_appendFromAsm htexts ConstPool.isEntries_init [] hsize

/-! ### Reading the units back -/

/-- What reading units back from a table asks for. -/
def Decodes (table : List CString) : List CString → List AsmUnit → Prop
  | _, [] => True
  | es, unit :: units =>
    (table ≠ [[]] ∧ unit.blockDeepth < 16 ∧ unit.invokeDeepth < 16 ∧
      loadString (StringTable.layout table) (operandIndex es unit.data) = some unit.data) ∧
    Decodes table (addOperand es unit.data) units

private theorem u16_operandIndex (es : List CString) (data : CString) :
    u16 (operandIndex es data) = operandIndex es data := by
  unfold operandIndex
  split
  · rfl
  · split <;> exact u16_of_lt (u16_lt _)

private theorem decodeUnit_pack {table es : List CString} {unit : AsmUnit} :
    (ConstPool.ofEntries table).decodeUnit (InstructUnit.pack (BitVec.ofNat 8 unit.blockDeepth)
        (BitVec.ofNat 8 unit.invokeDeepth) (operandIndex es unit.data) unit.instruct
        unit.isNewLine) = some unit ↔
      table ≠ [[]] ∧ unit.blockDeepth < 16 ∧ unit.invokeDeepth < 16 ∧
        loadString (StringTable.layout table) (operandIndex es unit.data) = some unit.data := by
  have hmod : ∀ n, (BitVec.ofNat 8 n).toNat % 16 = n % 16 := by
    intro n
    rw [BitVec.toNat_ofNat]
    omega
  simp only [ConstPool.decodeUnit, ConstPool.ofEntries, InstructUnit.getConstPoolIndex_pack,
    InstructUnit.getInstructIndex_pack, InstructUnit.getBlockDeepth_pack,
    InstructUnit.getInvokeDeepth_pack, InstructUnit.getIsNewLine_pack, u16_operandIndex, hmod]
  by_cases htable : table = [[]]
  · rw [if_pos htable]
    simp [htable]
  · rw [if_neg htable, Option.bind_eq_bind, Option.bind_some]
    cases loadString (StringTable.layout table) (operandIndex es unit.data) with
    | none => simp
    | some data =>
      simp only [Option.bind_eq_bind, Option.bind_some, Option.pure_def, Option.some.injEq]
      obtain ⟨instruct, blockDeepth, invokeDeepth, isNewLine, data'⟩ := unit
      simp only [AsmUnit.mk.injEq, true_and, ne_eq, htable, not_false_eq_true,
        Nat.mod_eq_iff_lt (show 16 ≠ 0 by decide)]

private theorem mapM_decodeUnit {table es : List CString} {units : List AsmUnit} :
    (encode es units).mapM (ConstPool.ofEntries table).decodeUnit = some units ↔
      Decodes table es units := by
  induction units generalizing es with
  | nil => simp [encode, Decodes]
  | cons unit units ih =>
    rw [encode, List.mapM_cons, Decodes, ← ih, ← decodeUnit_pack]
    simp only [Option.bind_eq_bind, Option.bind_eq_some_iff, Option.pure_def, Option.some.injEq,
      List.cons.injEq]
    constructor
    · rintro ⟨_, hunit, _, hunits, rfl, rfl⟩
      exact ⟨hunit, hunits⟩
    · rintro ⟨hunit, hunits⟩
      exact ⟨_, hunit, _, hunits, rfl, rfl⟩

/-! ### When nothing is lost -/

/-- An operand that is in the pool is found in it. -/
def Found (es : List CString) (data : CString) : Prop :=
  data ∈ es → data ≠ [] → u16 (StringTable.offset data es) ≠ 65535

private theorem addOperand_of_found {es : List CString} {data : CString} (h : Found es data) :
    addOperand es data = StringTable.insert es data := by
  unfold addOperand
  split
  · by_cases hmem : data ∈ es
    · exact absurd ‹_ ∧ _›.2 (h hmem ‹_ ∧ _›.1)
    · rw [StringTable.insert_of_not_mem hmem]
  · rfl

private theorem addOperand_of_not_found {es : List CString} {data : CString}
    (h : ¬Found es data) : data ∈ es ∧ addOperand es data = es ++ [data] := by
  simp only [Found, not_forall, not_not] at h
  obtain ⟨hmem, hempty, hoffset⟩ := h
  exact ⟨hmem, if_pos ⟨hempty, hoffset⟩⟩

/-- The offset an operand gets is its offset in every later table, cut to sixteen bits. -/
private theorem operandIndex_eq {es table : List CString} {data : CString}
    (hhead : ∃ rest, table = [] :: rest) (htable : StringTable.insert es data <+: table)
    (h : Found es data) : operandIndex es data = u16 (StringTable.offset data table) := by
  obtain ⟨more, hmore⟩ := htable
  unfold operandIndex
  by_cases hempty : data = []
  · obtain ⟨rest, hrest⟩ := hhead
    rw [if_pos hempty, hrest, StringTable.offset, if_pos hempty.symm]
    rfl
  · rw [if_neg hempty]
    by_cases hmem : data ∈ es
    · rw [StringTable.insert_of_mem hmem] at hmore
      rw [if_neg (h hmem hempty), ← hmore, StringTable.offset_append hmem]
    · rw [StringTable.insert_of_not_mem hmem] at hmore
      rw [← hmore, StringTable.offset_append
        (List.mem_append_right _ (List.mem_singleton_self _)), StringTable.offset_concat hmem,
        StringTable.offset_of_not_mem hmem]
      exact ite_self _

section Table
variable {units : List AsmUnit}

private theorem operandTable_head (units : List AsmUnit) :
    ∃ rest, operandTable units = [] :: rest := by
  obtain ⟨more, hmore⟩ := StringTable.prefix_foldl_insert [[]] (units.map AsmUnit.data)
  exact ⟨more, hmore.symm⟩

private theorem operandTable_concat (before : List AsmUnit) (unit : AsmUnit) :
    operandTable (before ++ [unit]) = StringTable.insert (operandTable before) unit.data := by
  rw [operandTable, List.map_append, List.foldl_append]
  rfl

private theorem prefix_operandTable (before after : List AsmUnit) :
    operandTable before <+: operandTable (before ++ after) := by
  rw [operandTable, operandTable, List.map_append, List.foldl_append]
  exact StringTable.prefix_foldl_insert _ _

theorem mem_operandTable {data : CString} :
    data ∈ operandTable units ↔ data = [] ∨ ∃ unit ∈ units, unit.data = data := by
  rw [operandTable, StringTable.mem_foldl_insert, List.mem_singleton, List.mem_map]

/-- Every operand is found when its turn comes. -/
def AllFound (units : List AsmUnit) : Prop :=
  ∀ before unit after, units = before ++ unit :: after → Found (operandTable before) unit.data

/-- The pool of units whose operands are all found. -/
private theorem addOperands_of_allFound (h : AllFound units) {before after : List AsmUnit}
    (hunits : units = before ++ after) : addOperands [[]] before = operandTable before := by
  induction before using List.reverseRecOn generalizing after with
  | nil => rfl
  | append_singleton before unit ih =>
    rw [List.append_assoc] at hunits
    rw [addOperands, List.foldl_append]
    have hbefore := ih hunits
    rw [addOperands] at hbefore
    rw [hbefore, operandTable_concat]
    exact addOperand_of_found (h before unit after hunits)

private theorem decodes_of_allFound (h : AllFound units) (before after : List AsmUnit)
    (hunits : units = before ++ after) :
    Decodes (operandTable units) (operandTable before) after ↔
      ∀ unit ∈ after, operandTable units ≠ [[]] ∧ unit.blockDeepth < 16 ∧ unit.invokeDeepth < 16 ∧
        loadString (StringTable.layout (operandTable units))
          (u16 (StringTable.offset unit.data (operandTable units))) = some unit.data := by
  induction after generalizing before with
  | nil => exact ⟨fun _ _ h => absurd h List.not_mem_nil, fun _ => trivial⟩
  | cons unit after ih =>
    have hfound := h before unit after hunits
    have hunits' : units = (before ++ [unit]) ++ after := by rw [hunits, List.append_assoc]; rfl
    have hprefix : StringTable.insert (operandTable before) unit.data <+: operandTable units := by
      rw [← operandTable_concat, hunits']
      exact prefix_operandTable _ _
    rw [Decodes, addOperand_of_found hfound, ← operandTable_concat,
      ih (before ++ [unit]) hunits', operandIndex_eq (operandTable_head units) hprefix hfound,
      List.forall_mem_cons]

/-- An element that occurs twice has a place behind another of its places. -/
private theorem exists_second {data : CString}
    (h : 2 ≤ (units.map AsmUnit.data).count data) :
    ∃ before unit after, units = before ++ unit :: after ∧ unit.data = data ∧
      data ∈ before.map AsmUnit.data := by
  induction units with
  | nil => simp at h
  | cons first units ih =>
    rw [List.map_cons, List.count_cons] at h
    by_cases hlater : 2 ≤ (units.map AsmUnit.data).count data
    · obtain ⟨before, unit, after, rfl, hdata, hmem⟩ := ih hlater
      exact ⟨first :: before, unit, after, rfl, hdata, List.mem_cons_of_mem _ hmem⟩
    · have hfirst : first.data = data := by
        by_contra hne
        rw [if_neg (by simpa using hne)] at h
        omega
      rw [if_pos (by simpa using hfirst)] at h
      have hpos : 0 < (units.map AsmUnit.data).count data := by omega
      obtain ⟨unit, hunit, hdata⟩ := List.mem_map.mp (List.count_pos_iff.mp hpos)
      obtain ⟨before, after, rfl⟩ := List.append_of_mem hunit
      exact ⟨first :: before, unit, after, rfl, hdata, hfirst ▸ List.mem_cons_self⟩

/-- **Every operand is found in its turn exactly when none is used again whose offset
reads as not found.** -/
private theorem allFound_iff : AllFound units ↔ ∀ unit ∈ units,
    2 ≤ (units.map AsmUnit.data).count unit.data →
      u16 (StringTable.offset unit.data (operandTable units)) ≠ 65535 := by
  have hoffset : ∀ {before after : List AsmUnit} {data : CString}, units = before ++ after →
      data ∈ operandTable before →
      StringTable.offset data (operandTable units) =
        StringTable.offset data (operandTable before) := by
    rintro before after data rfl hmem
    obtain ⟨more, hmore⟩ := prefix_operandTable before after
    rw [← hmore, StringTable.offset_append hmem]
  constructor
  · intro h unit hunit hcount
    obtain ⟨before, again, after, hunits, hdata, hmem⟩ := exists_second hcount
    have htable : unit.data ∈ operandTable before :=
      mem_operandTable.mpr (.inr (List.mem_map.mp hmem))
    rw [hoffset hunits htable]
    by_cases hempty : unit.data = []
    · obtain ⟨rest, hrest⟩ := operandTable_head before
      rw [hrest, StringTable.offset, if_pos hempty.symm]
      decide
    · exact hdata ▸ h before again after hunits (hdata ▸ htable) (hdata ▸ hempty)
  · intro h before unit after hunits hmem hempty
    rw [← hoffset hunits hmem]
    have hbefore : unit.data ∈ before.map AsmUnit.data :=
      List.mem_map.mpr ((mem_operandTable.mp hmem).resolve_left hempty)
    have hpos := List.count_pos_iff.mpr hbefore
    apply h unit (by rw [hunits]; exact List.mem_append_right _ List.mem_cons_self)
    rw [hunits, List.map_append, List.map_cons, List.count_append, List.count_cons_self]
    omega

private theorem prefix_addOperands (es : List CString) (more : List AsmUnit) :
    es <+: addOperands es more := by
  induction more generalizing es with
  | nil => exact List.prefix_refl es
  | cons unit more ih =>
    apply List.IsPrefix.trans _ (ih (addOperand es unit.data))
    rcases addOperand_eq es unit.data with ⟨h, -⟩ | h
    · rw [h]
    · rw [h]
      exact List.prefix_append es _

/-- An operand that is not found is put in the pool a second time. -/
private theorem found_of_count {before after : List AsmUnit} {unit : AsmUnit}
    (hbefore : addOperands [[]] before = operandTable before)
    (hcount : (addOperands [[]] (before ++ unit :: after)).count unit.data = 1) :
    Found (operandTable before) unit.data := by
  by_contra hfound
  obtain ⟨hmem, hadd⟩ := addOperand_of_not_found hfound
  rw [addOperands, List.foldl_append, List.foldl_cons] at hcount
  rw [addOperands] at hbefore
  rw [hbefore, hadd] at hcount
  have hle := (prefix_addOperands (operandTable before ++ [unit.data]) after).sublist.count_le
    unit.data
  rw [List.count_append, List.count_singleton_self] at hle
  have hpos := List.count_pos_iff.mpr hmem
  rw [addOperands] at hle
  omega

/-- **A pool that holds every operand once had them all found.** -/
private theorem allFound_of_count
    (h : ∀ unit ∈ units, (addOperands [[]] units).count unit.data = 1) : AllFound units := by
  have htable : ∀ before after, units = before ++ after →
      addOperands [[]] before = operandTable before := by
    intro before
    induction before using List.reverseRecOn with
    | nil => exact fun _ _ => rfl
    | append_singleton before unit ih =>
      intro after hunits
      rw [List.append_assoc, List.singleton_append] at hunits
      have hbefore := ih _ hunits
      have hcount := h unit (by rw [hunits]; exact List.mem_append_right _ List.mem_cons_self)
      have hfound := found_of_count hbefore (hunits ▸ hcount)
      rw [operandTable_concat, ← addOperand_of_found hfound,
        ← hbefore, addOperands, List.foldl_append]
      rfl
  intro before unit after hunits
  have hcount := h unit (by rw [hunits]; exact List.mem_append_right _ List.mem_cons_self)
  exact found_of_count (htable before _ hunits) (hunits ▸ hcount)

end Table

private theorem nodup_operandTable (units : List AsmUnit) : (operandTable units).Nodup :=
  StringTable.nodup_foldl_insert (List.nodup_singleton []) _

private theorem operandTable_ne {units : List AsmUnit} :
    operandTable units ≠ [[]] ↔ ∃ unit ∈ units, unit.data ≠ [] := by
  constructor
  · intro hne
    obtain ⟨rest, hrest⟩ := operandTable_head units
    have hnodup := nodup_operandTable units
    rw [hrest] at hne hnodup
    cases rest with
    | nil => exact absurd rfl hne
    | cons e rest =>
      have he : e ∈ operandTable units := by
        rw [hrest]
        exact List.mem_cons_of_mem _ List.mem_cons_self
      have hempty : e ≠ [] := by
        rintro rfl
        exact (List.nodup_cons.mp hnodup).1 List.mem_cons_self
      obtain ⟨unit, hunit, rfl⟩ := (mem_operandTable.mp he).resolve_left hempty
      exact ⟨unit, hunit, hempty⟩
  · rintro ⟨unit, hunit, hempty⟩ htable
    have hmem := mem_operandTable.mpr (.inr ⟨unit, hunit, rfl⟩)
    rw [htable, List.mem_singleton] at hmem
    exact hempty hmem

/-- What a frame is when every operand was found in its turn. -/
private theorem roundTrip_of_allFound {units : List AsmUnit} (hfound : AllFound units) :
    addOperands [[]] units = operandTable units ∧
    (Decodes (operandTable units) [[]] units ↔ ∀ unit ∈ units,
      operandTable units ≠ [[]] ∧ unit.blockDeepth < 16 ∧ unit.invokeDeepth < 16 ∧
        loadString (StringTable.layout (operandTable units))
          (u16 (StringTable.offset unit.data (operandTable units))) = some unit.data) :=
  ⟨addOperands_of_allFound hfound (List.append_nil units).symm,
    decodes_of_allFound hfound [] units rfl⟩

private theorem decodes_of_encodable {units : List AsmUnit} (h : Encodable units) :
    addOperands [[]] units = operandTable units ∧ (∀ unit ∈ units, operandTable units ≠ [[]]) ∧
      (encode [[]] units).mapM (ConstPool.ofEntries (operandTable units)).decodeUnit =
        some units := by
  obtain ⟨htable, hdecodes⟩ := roundTrip_of_allFound (allFound_iff.mpr h.reuse)
  have hne : ∀ unit ∈ units, operandTable units ≠ [[]] := fun unit hunit =>
    operandTable_ne.mpr (h.operand.resolve_left fun hnil => by rw [hnil] at hunit; cases hunit)
  exact ⟨htable, hne, mapM_decodeUnit.mpr (hdecodes.mpr fun unit hunit =>
    ⟨hne unit hunit, h.blockDeepth unit hunit, h.invokeDeepth unit hunit, h.offset unit hunit⟩)⟩

/-- **A frame gives its texts back exactly when its fields are wide enough.** -/
theorem roundTrip_iff {texts : List (List AsmLine)}
    (htexts : ∀ lines ∈ texts, ∀ line ∈ lines, line.Printable)
    (hsize : 1 + operandBytes (textUnits texts) < 2 ^ 32) :
    RoundTrip texts ↔ Encodable (textUnits texts) := by
  have hassemble := assemble_eq htexts hsize
  have hsound : ∀ unit ∈ textUnits texts, unit.Sound := by
    intro unit hunit
    obtain ⟨lines, hlines, hunit⟩ := List.mem_flatMap.mp hunit
    exact sound_asmUnits (htexts lines hlines) unit hunit
  have hentries := (isEntries_addOperands ConstPool.isEntries_init hsound hsize).1
  unfold RoundTrip
  generalize textUnits texts = units at *
  constructor
  · rintro ⟨frame, hframe, hdecode, hcount, -⟩
    rw [hassemble] at hframe
    split at hframe
    · cases hframe
      have hdecodes : Decodes (addOperands [[]] units) [[]] units := mapM_decodeUnit.mp hdecode
      by_cases hnil : units = []
      · subst hnil
        exact ⟨by simp, by simp, .inl rfl, by simp, by simp⟩
      have hne : addOperands [[]] units ≠ [[]] := by
        obtain ⟨unit, rest, rfl⟩ := List.exists_cons_of_ne_nil hnil
        exact hdecodes.1.1
      dsimp only at hcount
      rw [ConstPool.entries_ofEntries hentries hne] at hcount
      have hfound := allFound_of_count hcount
      obtain ⟨htable, hiff⟩ := roundTrip_of_allFound hfound
      rw [htable] at hdecodes hne
      have hunits := hiff.mp hdecodes
      exact ⟨fun unit h => (hunits unit h).2.1, fun unit h => (hunits unit h).2.2.1,
        .inr (operandTable_ne.mp hne), fun unit h => (hunits unit h).2.2.2,
        allFound_iff.mp hfound⟩
    · cases hframe
  · intro h
    obtain ⟨htable, hne, hdecode⟩ := decodes_of_encodable h
    rw [if_pos fun unit hunit => Nat.lt_trans (h.invokeDeepth unit hunit) (by decide), htable]
      at hassemble
    rw [htable] at hentries
    refine ⟨_, hassemble, hdecode, ?_, ?_⟩
    · intro unit hunit
      dsimp only
      rw [ConstPool.entries_ofEntries hentries (hne unit hunit)]
      exact List.count_eq_one_of_mem (nodup_operandTable units)
        (mem_operandTable.mpr (.inr ⟨unit, hunit, rfl⟩))
    · intro e he
      by_cases hnil : operandTable units = [[]]
      · rw [hnil] at he
        cases he
      · dsimp only at he
        rw [ConstPool.entries_ofEntries hentries hnil] at he
        exact mem_operandTable.mp he

/-- A unit is packed with its depths cut. -/
private theorem encode_narrow (es : List CString) (units : List AsmUnit) :
    encode es (units.map AsmUnit.narrow) = encode es units := by
  induction units generalizing es with
  | nil => rfl
  | cons unit units ih =>
    rw [List.map_cons, encode, encode, ← ih]
    congr 1
    exact InstructUnit.pack_mod _ _ _ _ _

/-- **A frame gives its units with their depths cut**, when its other fields are wide
enough. -/
theorem decode_assemble {texts : List (List AsmLine)}
    (htexts : ∀ lines ∈ texts, ∀ line ∈ lines, line.Printable)
    (hsize : 1 + operandBytes (textUnits texts) < 2 ^ 32)
    (hinvoke : ∀ unit ∈ textUnits texts, unit.invokeDeepth < 100)
    (h : Encodable ((textUnits texts).map AsmUnit.narrow)) :
    ∃ frame, assemble texts = some frame ∧
      frame.decode = some ((textUnits texts).map AsmUnit.narrow) := by
  have hassemble := assemble_eq htexts hsize
  rw [if_pos hinvoke] at hassemble
  obtain ⟨htable, -, hdecode⟩ := decodes_of_encodable h
  refine ⟨_, hassemble, ?_⟩
  rw [encode_narrow, ← htable, addOperands, List.foldl_map] at hdecode
  exact hdecode

/-- The operand fields are wide enough for a pool of at most 65535 bytes. -/
theorem encodable_of_length {units : List AsmUnit} (hdepth : ∀ unit ∈ units,
      unit.blockDeepth < 16 ∧ unit.invokeDeepth < 16)
    (hoperand : ∃ unit ∈ units, unit.data ≠ []) (hzero : ∀ unit ∈ units, 0 ∉ unit.data)
    (hlength : (StringTable.layout (operandTable units)).length ≤ 65535) : Encodable units := by
  have hlt : ∀ unit ∈ units, StringTable.offset unit.data (operandTable units) < 65535 :=
    fun unit h => Nat.lt_of_lt_of_le
      (StringTable.offset_lt (mem_operandTable.mpr (.inr ⟨unit, h, rfl⟩))) hlength
  have hu : ∀ unit ∈ units, u16 (StringTable.offset unit.data (operandTable units)) =
      StringTable.offset unit.data (operandTable units) :=
    fun unit h => u16_of_lt (Nat.lt_trans (hlt unit h) (by decide))
  refine ⟨fun unit h => (hdepth unit h).1, fun unit h => (hdepth unit h).2, .inr hoperand,
    fun unit h => ?_, fun unit h _ => ?_⟩
  · rw [hu unit h]
    exact StringTable.loadString_offset (mem_operandTable.mpr (.inr ⟨unit, h, rfl⟩)) (hzero unit h)
  · rw [hu unit h]
    exact Nat.ne_of_lt (hlt unit h)

/-- The texts of a statement `a = 1` in nested `if 1:` blocks. -/
def nestedIfs (depth : Nat) : List (List AsmLine) :=
  (List.range depth).map (fun block => [.block block, .ins 0 .NUM [0x31], .ins 0 .JEZ [0x31]]) ++
    [[.block depth, .ins 0 .NUM [0x31], .ins 0 .OUT [0x61]]]

theorem roundTrip_of_nestedIfs : RoundTrip (nestedIfs 15) :=
  (roundTrip_iff (by decide +kernel) (by decide +kernel)).mpr
    (encodable_of_length (by decide +kernel) (by decide +kernel) (by decide +kernel)
      (by decide +kernel))

/-- **One more block is lost**: sixteen has no room in four bits, so the statement comes
back at block depth zero. -/
theorem not_roundTrip_of_nestedIfs : ¬RoundTrip (nestedIfs 16) := by
  rintro ⟨frame, hframe, hdecode, -⟩
  have hlost : (assemble (nestedIfs 16)).bind ByteCodeFrame.decode ≠
      some (textUnits (nestedIfs 16)) := by
    decide +kernel
  rw [hframe] at hlost
  exact hlost hdecode

end PikaScript
