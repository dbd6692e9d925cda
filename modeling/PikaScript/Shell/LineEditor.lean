import PikaScript.Lib.Memory
import PikaScript.Lib.Zipper
import PikaScript.Shell.History

/-! The line editor of the shell.

`_inner_do_obj_runChar` edits a line in place, in a buffer of a fixed size, with one index
behind the line and one at the cursor. `LineEditor` is the editor it is to be: a list with a
cursor, the text of a block and the history. What is echoed to the screen is left out. -/
namespace PikaScript
open Memory

/-! ### The code -/

/-- The configuration of a shell: `PIKA_LINE_BUFF_SIZE`, `PIKA_SHELL_HISTORY_NUM`, and whether
`blockBuffName` is set. The struct that holds the buffer is sized by a `uint32_t`. -/
structure ShellOptions where
  lineBuffSize : Nat
  historyNum : Nat
  hasBlockBuff : Bool
  lineBuffSize_pos : 0 < lineBuffSize
  lineBuffSize_lt : lineBuffSize < 2 ^ 32
  historyNum_pos : 0 < historyNum
  historyNum_lt : historyNum < 2 ^ 29

/-- The values of `pika_config_valid.h`, and `g_REPL`. -/
def ShellOptions.default : ShellOptions where
  lineBuffSize := 128
  historyNum := 5
  hasBlockBuff := true
  lineBuffSize_pos := by decide
  lineBuffSize_lt := by decide
  historyNum_pos := by decide
  historyNum_lt := by decide

inductive ShellCtrl where
  | continue
  | exit
deriving DecidableEq, Repr

/-- `PIKA_SHELL_STATE`. -/
inductive ShellState where
  | normal
  | waitSpecKey
  | waitFuncKey
deriving DecidableEq, Repr

namespace ShellKey

def backspace : BitVec 8 := 0x08
def tab : BitVec 8 := 0x09
def newline : BitVec 8 := 0x0a
def carriage : BitVec 8 := 0x0d
def escape : BitVec 8 := 0x1b
def space : BitVec 8 := 0x20
def colon : BitVec 8 := 0x3a
def up : BitVec 8 := 0x41
def down : BitVec 8 := 0x42
def right : BitVec 8 := 0x43
def left : BitVec 8 := 0x44
def bracket : BitVec 8 := 0x5b
def delete : BitVec 8 := 0x7f

end ShellKey

/-- A character typed, and what the handler answers if it is handed a line. -/
structure KeyPress where
  inputChar : BitVec 8
  answer : ShellCtrl
deriving DecidableEq, Repr

/-- What a key press leaves: the result, and the line the handler was handed. -/
structure ShellAnswer where
  ctrl : ShellCtrl
  handled : Option CString
deriving DecidableEq, Repr

def ShellAnswer.continue : ShellAnswer := ⟨.continue, none⟩

/-- `ShellConfig`; `blockBuff` is the `str` under the name `blockBuffName`. -/
structure ShellConfig (options : ShellOptions) where
  lineBuff : Bytes
  linePosition : Nat
  lineCurpos : Nat
  inBlock : Bool
  blockBuff : CString
  lastChar : BitVec 8
  stat : ShellState
  history : Option ShellHistory
  length_lineBuff : lineBuff.length = options.lineBuffSize

/-- The history, `shHistory_create`d when there is none. -/
def ShellOptions.historyOf (options : ShellOptions) (history : Option ShellHistory) :
    ShellHistory :=
  history.getD (.create options.historyNum options.historyNum_pos)

/-- The line that is edited goes into the history before the first navigation. -/
def ShellHistory.cacheCurrent (self : ShellHistory) (line : CString) : Option ShellHistory :=
  if self.cachedCurrent then some self
  else (self.add line).map fun self => { self with cachedCurrent := true }

/-- What a line break does to the history. -/
def ShellHistory.enter (self : ShellHistory) (line : CString) : Option ShellHistory :=
  (if line = [] then some self else self.add line).map fun self =>
    { self with lastOffset := 0, cachedCurrent := false }

namespace ShellConfig
variable {options : ShellOptions} (self : ShellConfig options)

/-- The shell after `_obj_runChar_beforeRun`, of a `ShellConfig` of zeros. -/
def init (options : ShellOptions) : ShellConfig options where
  lineBuff := List.replicate options.lineBuffSize 0
  linePosition := 0
  lineCurpos := 0
  inBlock := false
  blockBuff := []
  lastChar := 0
  stat := .normal
  history := none
  length_lineBuff := List.length_replicate

/-- `__clearBuff`. -/
def clearBuff : ShellConfig options :=
  { self with
    lineBuff := List.replicate options.lineBuffSize 0
    linePosition := 0
    lineCurpos := 0
    length_lineBuff := List.length_replicate }

/-- Bytes written into `lineBuff`. None when one of them is outside it. -/
def write (off : Nat) (bytes : Bytes) : Option (ShellConfig options) :=
  match h : store self.lineBuff off bytes with
  | none => none
  | some lineBuff => some { self with
      lineBuff := lineBuff
      length_lineBuff := (length_store h).trans self.length_lineBuff }

/-- `pika_platform_memmove` within `lineBuff`. -/
def memmove (dst src count : Nat) : Option (ShellConfig options) :=
  (loadBytes self.lineBuff src count).bind (self.write dst)

/-- `handle_history_navigation`. -/
def handleHistoryNavigation (isUp : Bool) : Option (ShellConfig options) := do
  let line ← untilZero self.lineBuff
  let history ← (options.historyOf self.history).cacheCurrent line
  match if isUp then history.getPrev else history.getNext with
  | (none, history) => return { self with history := some history }
  | (some historyLine, history) =>
    let self ← { self with history := some history }.write 0 (historyLine ++ [0])
    return { self with linePosition := historyLine.length, lineCurpos := historyLine.length }

/-- A backspace. -/
def backspace : Option (ShellConfig options) :=
  if self.lineCurpos = 0 then some self
  else do
    let position := self.linePosition - 1
    let curpos := self.lineCurpos - 1
    let self ← self.memmove curpos (curpos + 1) (position - curpos)
    let self ← self.write position [0]
    return { self with linePosition := position, lineCurpos := curpos }

/-- A character that is no line break. -/
def insertChar (inputChar : BitVec 8) : Option (ShellConfig options × ShellAnswer) :=
  if self.linePosition + 1 ≥ options.lineBuffSize then some (self.clearBuff, ⟨.exit, none⟩)
  else if inputChar = 0 then some (self, .continue)
  else do
    let self ← self.memmove (self.lineCurpos + 1) self.lineCurpos
      (self.linePosition - self.lineCurpos)
    let self ← self.write (self.linePosition + 1) [0]
    let self ← self.write self.lineCurpos [inputChar]
    return ({ self with
      linePosition := self.linePosition + 1
      lineCurpos := self.lineCurpos + 1 }, .continue)

/-- `strAppendWithSize` of a line break to `lineBuff`. -/
def appendNewline : Option (ShellConfig options) := do
  let line ← untilZero self.lineBuff
  let self ← self.write line.length [ShellKey.newline]
  self.write (line.length + 1) [0]

/-- A line break within a block: the line goes into the block, which ends at one that is not
indented. -/
def blockLine (answer : ShellCtrl) : Option (ShellConfig options × ShellAnswer) := do
  let self ← self.appendNewline
  let line ← untilZero self.lineBuff
  let self := { self with blockBuff := self.blockBuff ++ line }
  if line.head? ≠ some ShellKey.space ∧ line.head? ≠ some ShellKey.tab then
    return ({ self with inBlock := false }.clearBuff, ⟨answer, some self.blockBuff⟩)
  else return (self.clearBuff, .continue)

/-- A line break. -/
def newline (answer : ShellCtrl) : Option (ShellConfig options × ShellAnswer) := do
  let line ← untilZero self.lineBuff
  let history ← (options.historyOf self.history).enter line
  let self := { self with history := some history }
  if options.hasBlockBuff && self.inBlock then self.blockLine answer
  else if options.hasBlockBuff && line.getLast? = some ShellKey.colon then
    let self ← self.appendNewline
    let line ← untilZero self.lineBuff
    return ({ self with inBlock := true, blockBuff := line }.clearBuff, .continue)
  else
    let self ← self.write self.linePosition [0]
    let line ← untilZero self.lineBuff
    return (self.clearBuff, ⟨answer, some line⟩)

/-- A character that does not belong to an escape sequence. -/
def plainChar (inputChar : BitVec 8) (answer : ShellCtrl) :
    Option (ShellConfig options × ShellAnswer) :=
  if inputChar = ShellKey.backspace then self.backspace.map (·, .continue)
  else if inputChar ≠ ShellKey.carriage ∧ inputChar ≠ ShellKey.newline then
    self.insertChar inputChar
  else self.newline answer

/-- The character that ends an escape sequence, or does not belong to it. -/
def funcKey (inputChar : BitVec 8) (answer : ShellCtrl) :
    Option (ShellConfig options × ShellAnswer) :=
  if inputChar = ShellKey.left then
    some ({ self with lineCurpos := self.lineCurpos - 1 }, .continue)
  else if inputChar = ShellKey.right then
    some (if self.lineCurpos < self.linePosition then
      { self with lineCurpos := self.lineCurpos + 1 } else self, .continue)
  else if inputChar = ShellKey.up then (self.handleHistoryNavigation true).map (·, .continue)
  else if inputChar = ShellKey.down then (self.handleHistoryNavigation false).map (·, .continue)
  else self.plainChar inputChar answer

/-- `_inner_do_obj_runChar` up to its exit. -/
def dispatch (inputChar : BitVec 8) (answer : ShellCtrl) :
    Option (ShellConfig options × ShellAnswer) :=
  if inputChar = ShellKey.newline ∧ self.lastChar = ShellKey.carriage then some (self, .continue)
  else if inputChar = ShellKey.escape then some ({ self with stat := .waitSpecKey }, .continue)
  else match self.stat with
    | .normal => self.plainChar inputChar answer
    | .waitSpecKey =>
      if inputChar = ShellKey.bracket then some ({ self with stat := .waitFuncKey }, .continue)
      else { self with stat := .normal }.plainChar inputChar answer
    | .waitFuncKey => { self with stat := .normal }.funcKey inputChar answer

/-- A delete is a backspace. -/
def inputChar (char : BitVec 8) : BitVec 8 :=
  if char = ShellKey.delete then ShellKey.backspace else char

/-- `_inner_do_obj_runChar`. None when it reads or writes outside `lineBuff`. -/
def runChar (press : KeyPress) : Option (ShellConfig options × ShellAnswer) :=
  (self.dispatch (inputChar press.inputChar) press.answer).map fun (self, answer) =>
    ({ self with lastChar := inputChar press.inputChar }, answer)

end ShellConfig

/-- The shell, key press by key press. -/
def shellMachine (options : ShellOptions) : Machine KeyPress (ShellConfig options) ShellAnswer where
  step press self := self.runChar press

/-! ### The editor -/

/-- What a character is to the editor. -/
inductive EditorKey where
  | char (c : BitVec 8)
  | nul
  | backspace
  | newline
  | left
  | right
  | up
  | down
deriving DecidableEq, Repr

namespace EditorKey

/-- A character that does not belong to an escape sequence. -/
def plain (c : BitVec 8) : EditorKey :=
  if c = ShellKey.backspace then .backspace
  else if c = ShellKey.carriage ∨ c = ShellKey.newline then .newline
  else if c = 0 then .nul
  else .char c

/-- A character behind an escape and a bracket. -/
def func (c : BitVec 8) : EditorKey :=
  if c = ShellKey.left then .left
  else if c = ShellKey.right then .right
  else if c = ShellKey.up then .up
  else if c = ShellKey.down then .down
  else plain c

/-- The key a character completes, if it completes one, and what is waited for then. -/
def decode (lastChar : BitVec 8) (stat : ShellState) (c : BitVec 8) :
    ShellState × Option EditorKey :=
  if c = ShellKey.newline ∧ lastChar = ShellKey.carriage then (stat, none)
  else if c = ShellKey.escape then (.waitSpecKey, none)
  else match stat with
    | .normal => (.normal, some (plain c))
    | .waitSpecKey =>
      if c = ShellKey.bracket then (.waitFuncKey, none) else (.normal, some (plain c))
    | .waitFuncKey => (.normal, some (func c))

end EditorKey

/-- A line editor: the line with its cursor, the text of the block it is in, the history, and
what it waits for. -/
structure LineEditor where
  line : Zipper (BitVec 8)
  block : Option CString
  history : Option ShellHistory
  lastChar : BitVec 8
  stat : ShellState

namespace LineEditor
variable (options : ShellOptions) (self : LineEditor)

def init : LineEditor := ⟨.empty, none, none, 0, .normal⟩

/-- The history in place of the line. -/
def navigate (isUp : Bool) : Option LineEditor := do
  let history ← (options.historyOf self.history).cacheCurrent self.line.toList
  match if isUp then history.getPrev else history.getNext with
  | (none, history) => return { self with history := some history }
  | (some historyLine, history) =>
    return { self with history := some history, line := .atEnd historyLine }

/-- A character where there is room for it and a NUL; a line that is full is thrown away. -/
def insert (c : BitVec 8) : LineEditor × ShellAnswer :=
  if self.line.toList.length + 1 < options.lineBuffSize then
    ({ self with line := self.line.insert c }, .continue)
  else ({ self with line := .empty }, ⟨.exit, none⟩)

/-- The line goes to the handler, or into a block: one that ends with a colon opens it, and
one that is not indented ends it and hands it over. -/
def newline (answer : ShellCtrl) : Option (LineEditor × ShellAnswer) := do
  let line := self.line.toList
  let history ← (options.historyOf self.history).enter line
  let self := { self with history := some history, line := .empty }
  match self.block with
  | some block =>
    let block := block ++ (line ++ [ShellKey.newline])
    if line.head? ≠ some ShellKey.space ∧ line.head? ≠ some ShellKey.tab then
      return ({ self with block := none }, ⟨answer, some block⟩)
    else return ({ self with block := some block }, .continue)
  | none =>
    if options.hasBlockBuff ∧ line.getLast? = some ShellKey.colon then
      return ({ self with block := some (line ++ [ShellKey.newline]) }, .continue)
    else return (self, ⟨answer, some line⟩)

/-- A key. -/
def press (answer : ShellCtrl) : EditorKey → Option (LineEditor × ShellAnswer)
  | .char c => some (self.insert options c)
  | .nul => some (self, .continue)
  | .backspace => some ({ self with line := self.line.backspace }, .continue)
  | .newline => self.newline options answer
  | .left => some ({ self with line := self.line.moveLeft }, .continue)
  | .right => some ({ self with line := self.line.moveRight }, .continue)
  | .up => (self.navigate options true).map (·, .continue)
  | .down => (self.navigate options false).map (·, .continue)

/-- A character, in front of which `lastChar` came. -/
def step (char : KeyPress) : Option (LineEditor × ShellAnswer) :=
  let c := ShellConfig.inputChar char.inputChar
  let (stat, key) := EditorKey.decode self.lastChar self.stat c
  let self := { self with stat := stat }
  match key with
  | none => some ({ self with lastChar := c }, .continue)
  | some key => (self.press options char.answer key).map fun (self, answer) =>
    ({ self with lastChar := c }, answer)

end LineEditor

/-- The editor, character by character. -/
def editorMachine (options : ShellOptions) : Machine KeyPress LineEditor ShellAnswer where
  step press self := self.step options press

/-! ### What the shell keeps -/

/-- The keys the buffer has room for: with a line that is full no NUL, and no line break that
goes into a block. -/
def ShellConfig.HasRoom {options : ShellOptions} (sh : ShellConfig options) (key : EditorKey) :
    Prop :=
  sh.linePosition + 1 = options.lineBuffSize → key ≠ .nul ∧
    (key = .newline → options.hasBlockBuff = true →
      sh.inBlock = false ∧ (untilZero sh.lineBuff).bind List.getLast? ≠ some ShellKey.colon)

/-- The key presses the buffer has room for. -/
def KeyWhen {options : ShellOptions} (press : KeyPress) (sh : ShellConfig options) : Prop :=
  ∀ key ∈ (EditorKey.decode sh.lastChar sh.stat (ShellConfig.inputChar press.inputChar)).2,
    sh.HasRoom key

instance {options : ShellOptions} (sh : ShellConfig options) :
    DecidablePred sh.HasRoom := by
  unfold ShellConfig.HasRoom
  infer_instance

instance {options : ShellOptions} (press : KeyPress) (sh : ShellConfig options) :
    Decidable (KeyWhen press sh) := by
  unfold KeyWhen
  infer_instance

/-- The history holds lines of the shell. -/
structure ShellOptions.Fits (options : ShellOptions) (history : ShellHistory) : Prop where
  maxSize : history.maxSize = options.historyNum
  entries : ∀ entry ∈ history.history, 0 ∉ entry ∧ entry.length < options.lineBuffSize

/-- The shell shows the editor: its line at the front of the buffer with a NUL behind it, and
its cursor. -/
structure ShellConfig.Shows {options : ShellOptions} (sh : ShellConfig options)
    (editor : LineEditor) : Prop where
  lineBuff : ∃ tail, sh.lineBuff = editor.line.toList ++ 0 :: tail
  noNul : 0 ∉ editor.line.toList
  linePosition : sh.linePosition = editor.line.toList.length
  lineCurpos : sh.lineCurpos = editor.line.cursor
  inBlock : sh.inBlock = editor.block.isSome
  blockBuff : ∀ block, editor.block = some block → sh.blockBuff = block
  named : editor.block.isSome → options.hasBlockBuff
  history : sh.history = editor.history
  lastChar : sh.lastChar = editor.lastChar
  stat : sh.stat = editor.stat
  fits : options.Fits (options.historyOf editor.history)

namespace ShellOptions.Fits
variable {options : ShellOptions} {history : ShellHistory} {line : CString}

/-- A line of the shell is added to a history of its lines. -/
theorem add (h : options.Fits history) (hnul : 0 ∉ line)
    (hlt : line.length < options.lineBuffSize) :
    ∃ history', history.add line = some history' ∧ options.Fits history' := by
  obtain ⟨history', hadd, hsize, hentries⟩ :=
    @ShellHistory.exists_add history (h.maxSize ▸ options.historyNum_lt) line
  refine ⟨history', hadd, hsize.trans h.maxSize, fun entry hentry => ?_⟩
  rcases hentries entry hentry with rfl | hentry
  · exact ⟨hnul, hlt⟩
  · exact h.entries entry hentry

theorem cacheCurrent (h : options.Fits history) (hnul : 0 ∉ line)
    (hlt : line.length < options.lineBuffSize) :
    ∃ history', history.cacheCurrent line = some history' ∧ options.Fits history' := by
  unfold ShellHistory.cacheCurrent
  split
  · exact ⟨history, rfl, h⟩
  · obtain ⟨history', hadd, hfits⟩ := h.add hnul hlt
    exact ⟨_, Option.map_eq_some_iff.mpr ⟨history', hadd, rfl⟩, hfits.maxSize, hfits.entries⟩

theorem enter (h : options.Fits history) (hnul : 0 ∉ line)
    (hlt : line.length < options.lineBuffSize) :
    ∃ history', history.enter line = some history' ∧ options.Fits history' := by
  unfold ShellHistory.enter
  split
  · exact ⟨_, rfl, h.maxSize, h.entries⟩
  · obtain ⟨history', hadd, hfits⟩ := h.add hnul hlt
    exact ⟨_, Option.map_eq_some_iff.mpr ⟨history', hadd, rfl⟩, hfits.maxSize, hfits.entries⟩

/-- An entry that is navigated to is a line of the shell. -/
theorem get (h : options.Fits history) (offset : Int) : options.Fits (history.get offset).2 ∧
    ∀ entry, (history.get offset).1 = some entry →
      0 ∉ entry ∧ entry.length < options.lineBuffSize := by
  rw [ShellHistory.get_eq]
  split
  · exact ⟨⟨h.maxSize, h.entries⟩, fun entry hentry =>
      h.entries entry (List.mem_of_getElem? hentry)⟩
  · refine ⟨h, fun entry hentry => ?_⟩
    cases hentry

theorem create (options : ShellOptions) : options.Fits (options.historyOf none) :=
  ⟨rfl, nofun⟩

end ShellOptions.Fits

namespace ShellConfig
variable {options : ShellOptions} {sh : ShellConfig options} {editor : LineEditor}

/-- The shell with another buffer. -/
def withBuff (sh : ShellConfig options) (buff : Bytes) (h : buff.length = options.lineBuffSize) :
    ShellConfig options :=
  { sh with lineBuff := buff, length_lineBuff := h }

section
variable (buff : Bytes) (h : buff.length = options.lineBuffSize)

@[simp] theorem lineBuff_withBuff : (sh.withBuff buff h).lineBuff = buff := rfl

@[simp] theorem linePosition_withBuff : (sh.withBuff buff h).linePosition = sh.linePosition := rfl

@[simp] theorem lineCurpos_withBuff : (sh.withBuff buff h).lineCurpos = sh.lineCurpos := rfl

end

/-- Bytes written over as many others. -/
theorem write_over {kept old rest bytes : Bytes} (hbuff : sh.lineBuff = kept ++ old ++ rest)
    (hlength : old.length = bytes.length) :
    ∃ h, sh.write kept.length bytes = some (sh.withBuff (kept ++ bytes ++ rest) h) := by
  have hstore : store sh.lineBuff kept.length bytes = some (kept ++ bytes ++ rest) := by
    rw [hbuff, List.append_assoc, store_append kept (by rw [List.length_append]; omega),
      ← hlength, List.drop_left]
  refine ⟨(length_store hstore).trans sh.length_lineBuff, ?_⟩
  unfold write
  split
  · rename_i hnone
    rw [hstore] at hnone
    cases hnone
  · rename_i buff hsome
    obtain rfl : kept ++ bytes ++ rest = buff := Option.some.inj (hstore.symm.trans hsome)
    rfl

/-- Bytes moved over as many others. -/
theorem memmove_over {kept old rest bytes : Bytes} {src : Nat}
    (hbuff : sh.lineBuff = kept ++ old ++ rest) (hlength : old.length = bytes.length)
    (hload : loadBytes sh.lineBuff src bytes.length = some bytes) :
    ∃ h, sh.memmove kept.length src bytes.length =
      some (sh.withBuff (kept ++ bytes ++ rest) h) := by
  rw [memmove, hload, Option.bind_some]
  exact write_over hbuff hlength

/-- A buffer of zeros shows an empty line. -/
theorem shows_clearBuff (editor : LineEditor) (inBlock : sh.inBlock = editor.block.isSome)
    (blockBuff : ∀ block, editor.block = some block → sh.blockBuff = block)
    (named : editor.block.isSome → options.hasBlockBuff) (history : sh.history = editor.history)
    (lastChar : sh.lastChar = editor.lastChar) (stat : sh.stat = editor.stat)
    (fits : options.Fits (options.historyOf editor.history)) :
    sh.clearBuff.Shows { editor with line := .empty } where
  lineBuff := by
    obtain ⟨n, hn⟩ : ∃ n, options.lineBuffSize = n + 1 :=
      ⟨options.lineBuffSize - 1, by have := options.lineBuffSize_pos; omega⟩
    exact ⟨List.replicate n 0, by simp only [clearBuff, hn]; rfl⟩
  noNul := List.not_mem_nil
  linePosition := rfl
  lineCurpos := rfl
  inBlock := inBlock
  blockBuff := blockBuff
  named := named
  history := history
  lastChar := lastChar
  stat := stat
  fits := fits

namespace Shows

theorem untilZero (h : sh.Shows editor) :
    Memory.untilZero sh.lineBuff = some editor.line.toList := by
  obtain ⟨tail, hbuff⟩ := h.lineBuff
  rw [hbuff, untilZero_append h.noNul]

theorem length_lt (h : sh.Shows editor) : editor.line.toList.length < options.lineBuffSize := by
  obtain ⟨tail, hbuff⟩ := h.lineBuff
  have hlength := sh.length_lineBuff
  rw [hbuff, List.length_append, List.length_cons] at hlength
  omega

/-- A backspace takes the character left of the cursor out of the buffer. -/
theorem backspace (h : sh.Shows editor) : ∃ sh', sh.backspace = some sh' ∧
    sh'.Shows { editor with line := editor.line.backspace } := by
  by_cases hcursor : editor.line.cursor = 0
  · refine ⟨sh, if_pos (h.lineCurpos.trans hcursor), ?_⟩
    rw [Zipper.backspace_of_cursor hcursor]
    exact h
  obtain ⟨tail, hbuff⟩ := h.lineBuff
  obtain ⟨x, hline, hlength⟩ := Zipper.exists_backspace hcursor
  obtain ⟨left, right, hleft, hright⟩ :
      ∃ left right, left = editor.line.backspace.left.reverse ∧
        right = editor.line.backspace.right := ⟨_, _, rfl, rfl⟩
  have hback : editor.line.backspace.toList = left ++ right := by
    rw [hleft, hright]
    rfl
  rw [hback, List.length_append] at hlength
  rw [← hleft, ← hright] at hline
  have hcurpos : sh.lineCurpos - 1 = left.length := by
    rw [h.lineCurpos, ← Zipper.cursor_backspace, hleft, List.length_reverse]
    rfl
  have hposition : sh.linePosition - 1 = left.length + right.length := by
    rw [h.linePosition, ← hlength, Nat.add_sub_cancel]
  have hbuff' : sh.lineBuff = left ++ (x :: right ++ 0 :: tail) := by
    rw [hbuff, hline, List.append_assoc]
  have hdrop : sh.lineBuff.drop (left.length + 1) = right ++ 0 :: tail := by
    rw [hbuff', ← List.drop_drop, List.drop_left]
    rfl
  have hload : loadBytes sh.lineBuff (left.length + 1) right.length = some right := by
    refine loadBytes_of_drop ?_ hdrop
    rw [hbuff', List.length_append, List.cons_append, List.length_cons]
    omega
  obtain ⟨old, y, hold⟩ : ∃ old y, x :: right = old ++ [y] :=
    ⟨_, _, (List.dropLast_append_getLast (List.cons_ne_nil x right)).symm⟩
  have hlength' : old.length = right.length := by simpa using (congrArg List.length hold).symm
  obtain ⟨h₁, hmove⟩ := @memmove_over options sh left old ([y] ++ 0 :: tail) right _
    (by rw [hbuff', hold]; simp) hlength' hload
  obtain ⟨h₂, hwrite⟩ := @write_over options (sh.withBuff (left ++ right ++ ([y] ++ 0 :: tail)) h₁)
    (left ++ right) [y] (0 :: tail) [0] (List.append_assoc _ _ _).symm rfl
  rw [List.length_append] at hwrite
  refine ⟨{ sh.withBuff (left ++ right ++ [0] ++ 0 :: tail) h₂ with
    linePosition := left.length + right.length
    lineCurpos := left.length }, ?_, ⟨0 :: tail, ?_⟩, ?_, ?_, ?_, h.inBlock, h.blockBuff,
    h.named, h.history, h.lastChar, h.stat, h.fits⟩
  · rw [ShellConfig.backspace, if_neg (by rw [h.lineCurpos]; exact hcursor)]
    dsimp only
    rw [hcurpos, hposition, Nat.add_sub_cancel_left, hmove]
    simp only [Option.bind_eq_bind, Option.bind_some, hwrite]
    rfl
  · rw [hback]
    exact List.append_assoc _ _ _
  · refine fun hmem => h.noNul ?_
    rw [hback, List.mem_append] at hmem
    rw [hline, List.mem_append, List.mem_cons]
    tauto
  · rw [hback, List.length_append]
  · exact (congrArg List.length hleft).trans List.length_reverse

/-- A character goes in at the cursor. -/
theorem insertChar (h : sh.Shows editor) {c : BitVec 8} (hc : c ≠ 0)
    (hroom : editor.line.toList.length + 1 < options.lineBuffSize) :
    ∃ sh', sh.insertChar c = some (sh', .continue) ∧
      sh'.Shows { editor with line := editor.line.insert c } := by
  obtain ⟨tail, hbuff⟩ := h.lineBuff
  obtain ⟨left, right, hleft, hright⟩ :
      ∃ left right, left = editor.line.left.reverse ∧ right = editor.line.right := ⟨_, _, rfl, rfl⟩
  have hline : editor.line.toList = left ++ right := by
    rw [hleft, hright]
    rfl
  have hinsert : (editor.line.insert c).toList = left ++ c :: right := by
    rw [Zipper.toList_insert, hleft, hright]
  have hcursor : editor.line.cursor = left.length :=
    ((congrArg List.length hleft).trans List.length_reverse).symm
  have hcurpos : sh.lineCurpos = left.length := h.lineCurpos.trans hcursor
  have hposition : sh.linePosition = left.length + right.length := by
    rw [h.linePosition, hline, List.length_append]
  rw [hline, List.length_append] at hroom
  have hbuff' : sh.lineBuff = left ++ (right ++ 0 :: tail) := by
    rw [hbuff, hline, List.append_assoc]
  -- the NUL is not the last byte of the buffer
  obtain ⟨y, tail, rfl⟩ : ∃ y tail', tail = y :: tail' := by
    cases tail with
    | nil =>
      have hlength := sh.length_lineBuff
      rw [hbuff'] at hlength
      simp only [List.length_append, List.length_cons, List.length_nil] at hlength
      omega
    | cons y tail => exact ⟨y, tail, rfl⟩
  obtain ⟨z, old, hold⟩ : ∃ z old, right ++ [0] = z :: old := by
    cases right with
    | nil => exact ⟨_, _, rfl⟩
    | cons z right => exact ⟨_, _, rfl⟩
  have hlength : old.length = right.length := by simpa using (congrArg List.length hold).symm
  have hdrop : sh.lineBuff.drop left.length = right ++ 0 :: y :: tail := by
    rw [hbuff', List.drop_left]
  have hload : loadBytes sh.lineBuff left.length right.length = some right := by
    refine loadBytes_of_drop ?_ hdrop
    rw [hbuff', List.length_append]
    omega
  have hsplit : right ++ 0 :: y :: tail = z :: old ++ y :: tail := by
    rw [← hold, List.append_assoc]
    rfl
  obtain ⟨h₁, hmove⟩ := @memmove_over options sh (left ++ [z]) old (y :: tail) right _
    (by rw [hbuff', hsplit]; simp) hlength hload
  obtain ⟨h₂, hzero⟩ := @write_over options (sh.withBuff (left ++ [z] ++ right ++ y :: tail) h₁)
    (left ++ [z] ++ right) [y] tail [0] (by simp) rfl
  obtain ⟨h₃, hwrite⟩ := @write_over options
    ((sh.withBuff _ h₁).withBuff (left ++ [z] ++ right ++ [0] ++ tail) h₂)
    left [z] (right ++ [0] ++ tail) [c] (by simp) rfl
  rw [List.length_append, List.length_singleton] at hmove
  rw [List.length_append, List.length_append, List.length_singleton, Nat.add_right_comm] at hzero
  refine ⟨{ sh.withBuff (left ++ [c] ++ (right ++ [0] ++ tail)) h₃ with
    linePosition := sh.linePosition + 1
    lineCurpos := sh.lineCurpos + 1 }, ?_, ⟨tail, ?_⟩, ?_, ?_, ?_, h.inBlock, h.blockBuff,
    h.named, h.history, h.lastChar, h.stat, h.fits⟩
  · rw [ShellConfig.insertChar, if_neg (by rw [hposition]; omega), if_neg hc, hcurpos, hposition,
      Nat.add_sub_cancel_left, hmove]
    simp only [Option.bind_eq_bind, Option.bind_some, linePosition_withBuff, hposition, hzero,
      lineCurpos_withBuff, hcurpos, hwrite]
    rfl
  · rw [hinsert]
    simp
  · intro hmem
    rcases Zipper.mem_insert hmem with hzero | hmem
    · exact hc hzero.symm
    · exact h.noNul hmem
  · rw [Zipper.length_insert, ← h.linePosition]
  · rw [Zipper.cursor_insert, ← h.lineCurpos]

/-- A full line is thrown away. -/
theorem insertChar_full (h : sh.Shows editor) {c : BitVec 8}
    (hfull : ¬ editor.line.toList.length + 1 < options.lineBuffSize) :
    sh.insertChar c = some (sh.clearBuff, ⟨.exit, none⟩) := by
  rw [ShellConfig.insertChar, if_pos (by rw [h.linePosition]; omega)]

end Shows

/-- Both take a key press, with the same answer. -/
def Agree (result : Option (ShellConfig options × ShellAnswer))
    (result' : Option (LineEditor × ShellAnswer)) : Prop :=
  ∃ sh editor answer, result = some (sh, answer) ∧ result' = some (editor, answer) ∧
    sh.Shows editor

/-- A line written to the front of the buffer with its NUL. -/
theorem write_line {line : CString} (hlt : line.length < options.lineBuffSize) :
    ∃ tail h, sh.write 0 (line ++ [0]) = some (sh.withBuff (line ++ 0 :: tail) h) := by
  have hlength : (line ++ [0]).length ≤ sh.lineBuff.length := by
    rw [sh.length_lineBuff, List.length_append]
    exact hlt
  obtain ⟨h, hwrite⟩ := @write_over options sh [] (sh.lineBuff.take (line ++ [0]).length)
    (sh.lineBuff.drop (line ++ [0]).length) (line ++ [0])
    (List.take_append_drop _ _).symm (List.length_take_of_le hlength)
  have hbuff : [] ++ (line ++ [0]) ++ sh.lineBuff.drop (line ++ [0]).length =
      line ++ 0 :: sh.lineBuff.drop (line ++ [0]).length :=
    List.append_assoc line [0] _
  exact ⟨_, hbuff ▸ h, hwrite.trans (by simp only [hbuff])⟩

namespace Shows

/-- A history key replaces the line, or leaves it. -/
theorem navigate (h : sh.Shows editor) (isUp : Bool) :
    Agree ((sh.handleHistoryNavigation isUp).map (·, .continue))
      ((editor.navigate options isUp).map (·, .continue)) := by
  obtain ⟨history, hcache, hfits⟩ := h.fits.cacheCurrent h.noNul h.length_lt
  obtain ⟨offset, hoffset⟩ : ∃ offset,
      (if isUp then history.getPrev else history.getNext) = history.get offset := by
    cases isUp
    · exact ⟨1, rfl⟩
    · exact ⟨-1, rfl⟩
  obtain ⟨hfits', hentries⟩ := hfits.get offset
  rw [handleHistoryNavigation, LineEditor.navigate, h.untilZero, h.history]
  simp only [Option.bind_eq_bind, Option.bind_some, hcache, hoffset]
  rcases hget : history.get offset with ⟨_ | entry, history'⟩ <;> rw [hget] at hfits' hentries
  · exact ⟨_, _, _, rfl, rfl, h.lineBuff, h.noNul, h.linePosition, h.lineCurpos, h.inBlock,
      h.blockBuff, h.named, rfl, h.lastChar, h.stat, hfits'⟩
  · obtain ⟨hnul, hlt⟩ := hentries entry rfl
    obtain ⟨tail, hbuff, hwrite⟩ :=
      @write_line options { sh with history := some history' } entry hlt
    dsimp only
    rw [hwrite]
    refine ⟨_, _, _, rfl, rfl, ⟨tail, ?_⟩, ?_, ?_, ?_, h.inBlock, h.blockBuff, h.named, rfl,
      h.lastChar, h.stat, hfits'⟩
    · rw [Zipper.toList_atEnd]
      rfl
    · rw [Zipper.toList_atEnd]
      exact hnul
    · rw [Zipper.toList_atEnd]
    · rw [Zipper.cursor_atEnd]

end Shows

/-- `strAppendWithSize` of a line break, when there is room for it. -/
theorem appendNewline_eq {line tail : CString} {y : BitVec 8} (hline : 0 ∉ line)
    (hbuff : sh.lineBuff = line ++ 0 :: y :: tail) :
    ∃ h, sh.appendNewline = some (sh.withBuff (line ++ [ShellKey.newline] ++ 0 :: tail) h) := by
  have hread : Memory.untilZero sh.lineBuff = some line := by
    rw [hbuff, untilZero_append hline]
  obtain ⟨h₁, hnewline⟩ := @write_over options sh line [0] (y :: tail) [ShellKey.newline]
    (by rw [hbuff, List.append_assoc]; rfl) rfl
  obtain ⟨h₂, hzero⟩ := @write_over options
    (sh.withBuff (line ++ [ShellKey.newline] ++ y :: tail) h₁)
    (line ++ [ShellKey.newline]) [y] tail [0] (by simp) rfl
  rw [List.length_append, List.length_singleton] at hzero
  refine ⟨by simpa using h₂, ?_⟩
  rw [appendNewline, hread]
  simp only [Option.bind_eq_bind, Option.bind_some, hnewline, hzero]
  simp [withBuff]

namespace Shows

/-- A line break appended to a line that is not full. -/
theorem appendNewline (h : sh.Shows editor)
    (hroom : editor.line.toList.length + 1 < options.lineBuffSize) :
    ∃ buff hbuff, sh.appendNewline = some (sh.withBuff buff hbuff) ∧
      Memory.untilZero buff = some (editor.line.toList ++ [ShellKey.newline]) := by
  obtain ⟨tail, hbuff⟩ := h.lineBuff
  cases tail with
  | nil =>
    have hlength := sh.length_lineBuff
    rw [hbuff, List.length_append, List.length_singleton] at hlength
    omega
  | cons y tail =>
    obtain ⟨hbuff', happend⟩ := appendNewline_eq h.noNul hbuff
    refine ⟨_, hbuff', happend, untilZero_append ?_⟩
    rw [List.mem_append, List.mem_singleton, not_or]
    exact ⟨h.noNul, by decide⟩

/-- A line break within a block. -/
theorem blockLine (h : sh.Shows editor) (answer : ShellCtrl) {block : CString}
    (hblock : editor.block = some block)
    (hroom : editor.line.toList.length + 1 < options.lineBuffSize) :
    Agree (sh.blockLine answer)
      (if editor.line.toList.head? ≠ some ShellKey.space ∧
          editor.line.toList.head? ≠ some ShellKey.tab then
        some ({ editor with line := .empty, block := none },
          ⟨answer, some (block ++ (editor.line.toList ++ [ShellKey.newline]))⟩)
      else some ({ editor with
        line := .empty
        block := some (block ++ (editor.line.toList ++ [ShellKey.newline])) }, .continue)) := by
  obtain ⟨buff, hbuff, happend, hread⟩ := h.appendNewline hroom
  have hnamed : options.hasBlockBuff = true := h.named (by rw [hblock]; rfl)
  -- the line break itself does not indent the line
  have hhead : ∀ c, c ≠ ShellKey.newline →
      ((editor.line.toList ++ [ShellKey.newline]).head? = some c ↔
        editor.line.toList.head? = some c) := by
    intro c hc
    cases editor.line.toList with
    | nil => simpa using Ne.symm hc
    | cons x line => rfl
  rw [ShellConfig.blockLine, happend]
  simp only [Option.bind_eq_bind, Option.bind_some, lineBuff_withBuff, hread, ne_eq,
    hhead ShellKey.space (by decide), hhead ShellKey.tab (by decide)]
  split
  · exact ⟨_, _, _, rfl, by rw [← h.blockBuff block hblock]; rfl,
      shows_clearBuff { editor with block := none } rfl nofun nofun h.history
        h.lastChar h.stat h.fits⟩
  · refine ⟨_, _, _, rfl, rfl, shows_clearBuff { editor with
      block := some (block ++ (editor.line.toList ++ [ShellKey.newline])) } ?_ ?_ (fun _ => hnamed)
      h.history h.lastChar h.stat h.fits⟩
    · exact h.inBlock.trans (by rw [hblock]; rfl)
    · rintro _ ⟨⟩
      rw [← h.blockBuff block hblock]
      rfl

/-- **A line break** goes to the handler or into the block, if there is room for it. -/
theorem newline (h : sh.Shows editor) (answer : ShellCtrl)
    (hroom : options.hasBlockBuff = true →
      sh.inBlock = true ∨ editor.line.toList.getLast? = some ShellKey.colon →
      editor.line.toList.length + 1 < options.lineBuffSize) :
    Agree (sh.newline answer) (editor.newline options answer) := by
  obtain ⟨history, henter, hfits⟩ := h.fits.enter h.noNul h.length_lt
  have h' : { sh with history := some history }.Shows { editor with history := some history } :=
    ⟨h.lineBuff, h.noNul, h.linePosition, h.lineCurpos, h.inBlock, h.blockBuff, h.named, rfl,
      h.lastChar, h.stat, hfits⟩
  rw [ShellConfig.newline, LineEditor.newline, h.untilZero, h.history]
  simp only [Option.bind_eq_bind, Option.bind_some, henter]
  rcases hblock : editor.block with _ | block
  · have hin : sh.inBlock = false := by rw [h.inBlock, hblock]; rfl
    have hout : (options.hasBlockBuff && sh.inBlock) ≠ true := by rw [hin, Bool.and_false]; decide
    rw [if_neg hout]
    by_cases hopen : options.hasBlockBuff = true ∧
        editor.line.toList.getLast? = some ShellKey.colon
    · obtain ⟨buff, hbuff, happend, hread⟩ := h'.appendNewline (hroom hopen.1 (.inr hopen.2))
      rw [if_pos (by simpa using hopen), happend]
      simp only [hopen, and_self, if_true, Option.bind_some, lineBuff_withBuff, hread]
      refine ⟨_, _, _, rfl, rfl, shows_clearBuff { editor with
        history := some history
        block := some (editor.line.toList ++ [ShellKey.newline]) } rfl ?_ (fun _ => hopen.1) rfl
        h.lastChar h.stat hfits⟩
      rintro _ ⟨⟩
      rfl
    · obtain ⟨tail, hbuff⟩ := h.lineBuff
      obtain ⟨hlength, hwrite⟩ := @write_over options { sh with history := some history }
        editor.line.toList [0] tail [0] (hbuff.trans (List.append_assoc _ [0] _).symm) rfl
      rw [← h.linePosition] at hwrite
      rw [if_neg (by simpa using hopen), hwrite]
      simp only [hopen, if_false, Option.bind_some, lineBuff_withBuff, List.append_assoc,
        List.singleton_append, untilZero_append h.noNul]
      exact ⟨_, _, _, rfl, by rw [hblock]; rfl, shows_clearBuff { editor with
        history := some history } h.inBlock h.blockBuff h.named rfl h.lastChar h.stat hfits⟩
  · have hnamed : options.hasBlockBuff = true := h.named (by rw [hblock]; rfl)
    have hin : sh.inBlock = true := by rw [h.inBlock, hblock]; rfl
    have hgoOn : (options.hasBlockBuff && sh.inBlock) = true := by rw [hnamed, hin]; rfl
    rw [if_pos hgoOn]
    exact h'.blockLine answer hblock (hroom hnamed (.inl hin))

theorem setStat (h : sh.Shows editor) (stat : ShellState) :
    { sh with stat := stat }.Shows { editor with stat := stat } :=
  ⟨h.lineBuff, h.noNul, h.linePosition, h.lineCurpos, h.inBlock, h.blockBuff, h.named, h.history,
    h.lastChar, rfl, h.fits⟩

theorem setLastChar (h : sh.Shows editor) (c : BitVec 8) :
    { sh with lastChar := c }.Shows { editor with lastChar := c } :=
  ⟨h.lineBuff, h.noNul, h.linePosition, h.lineCurpos, h.inBlock, h.blockBuff, h.named, h.history,
    rfl, h.stat, h.fits⟩

/-- A character that does not belong to an escape sequence. -/
theorem plainChar (h : sh.Shows editor) (c : BitVec 8) (answer : ShellCtrl)
    (hroom : sh.HasRoom (EditorKey.plain c)) :
    Agree (sh.plainChar c answer) (editor.press options answer (EditorKey.plain c)) := by
  have hlt := h.length_lt
  by_cases hback : c = ShellKey.backspace
  · obtain ⟨sh', hsh', hshows⟩ := h.backspace
    rw [ShellConfig.plainChar, EditorKey.plain, if_pos hback, if_pos hback, hsh']
    exact ⟨_, _, _, rfl, rfl, hshows⟩
  rw [EditorKey.plain, if_neg hback] at hroom ⊢
  rw [ShellConfig.plainChar, if_neg hback]
  by_cases hnewline : c = ShellKey.carriage ∨ c = ShellKey.newline
  · rw [if_pos hnewline] at hroom ⊢
    rw [if_neg (by rw [← not_or, not_not]; exact hnewline)]
    refine h.newline answer fun hnamed hblock => ?_
    by_contra hfull
    obtain ⟨hin, hcolon⟩ := (hroom (by rw [h.linePosition]; omega)).2 rfl hnamed
    rcases hblock with hblock | hblock
    · rw [hin] at hblock
      cases hblock
    · rw [h.untilZero] at hcolon
      exact hcolon hblock
  rw [if_neg hnewline] at hroom ⊢
  rw [if_pos (not_or.mp hnewline)]
  by_cases hzero : c = 0
  · rw [if_pos hzero] at hroom ⊢
    have hfull : ¬ sh.linePosition + 1 ≥ options.lineBuffSize := by
      intro hge
      rw [h.linePosition] at hge
      exact (hroom (by rw [h.linePosition]; omega)).1 rfl
    rw [ShellConfig.insertChar, if_neg hfull, if_pos hzero]
    exact ⟨_, _, _, rfl, rfl, h⟩
  · rw [if_neg hzero, LineEditor.press, LineEditor.insert]
    by_cases hfits : editor.line.toList.length + 1 < options.lineBuffSize
    · obtain ⟨sh', hsh', hshows⟩ := h.insertChar hzero hfits
      rw [if_pos hfits, hsh']
      exact ⟨_, _, _, rfl, rfl, hshows⟩
    · rw [if_neg hfits, h.insertChar_full hfits]
      exact ⟨_, _, _, rfl, rfl, shows_clearBuff editor h.inBlock h.blockBuff h.named h.history
        h.lastChar h.stat h.fits⟩

/-- Another cursor in the same line. -/
theorem moveCursor (h : sh.Shows editor) {line : Zipper (BitVec 8)}
    (hlist : line.toList = editor.line.toList) :
    { sh with lineCurpos := line.cursor }.Shows { editor with line := line } where
  lineBuff := hlist ▸ h.lineBuff
  noNul := hlist ▸ h.noNul
  linePosition := hlist ▸ h.linePosition
  lineCurpos := rfl
  inBlock := h.inBlock
  blockBuff := h.blockBuff
  named := h.named
  history := h.history
  lastChar := h.lastChar
  stat := h.stat
  fits := h.fits

/-- The character behind an escape and a bracket. -/
theorem funcKey (h : sh.Shows editor) (c : BitVec 8) (answer : ShellCtrl)
    (hroom : sh.HasRoom (EditorKey.func c)) :
    Agree (sh.funcKey c answer) (editor.press options answer (EditorKey.func c)) := by
  by_cases hleft : c = ShellKey.left
  · rw [ShellConfig.funcKey, EditorKey.func, if_pos hleft, if_pos hleft]
    have hmove := h.moveCursor (Zipper.toList_moveLeft (z := editor.line))
    rw [Zipper.cursor_moveLeft, ← h.lineCurpos] at hmove
    exact ⟨_, _, _, rfl, rfl, hmove⟩
  rw [EditorKey.func, if_neg hleft] at hroom ⊢
  rw [ShellConfig.funcKey, if_neg hleft]
  by_cases hright : c = ShellKey.right
  · rw [if_pos hright, if_pos hright]
    have hmove := h.moveCursor (Zipper.toList_moveRight (z := editor.line))
    rw [Zipper.cursor_moveRight, ← h.lineCurpos, ← h.linePosition] at hmove
    refine ⟨_, _, _, rfl, rfl, ?_⟩
    by_cases hlt : sh.lineCurpos < sh.linePosition
    · rw [if_pos hlt] at hmove ⊢
      exact hmove
    · rw [if_neg hlt] at hmove ⊢
      exact hmove
  rw [if_neg hright] at hroom ⊢
  rw [if_neg hright]
  by_cases hup : c = ShellKey.up
  · rw [if_pos hup, if_pos hup]
    exact h.navigate true
  rw [if_neg hup] at hroom ⊢
  rw [if_neg hup]
  by_cases hdown : c = ShellKey.down
  · rw [if_pos hdown, if_pos hdown]
    exact h.navigate false
  rw [if_neg hdown] at hroom ⊢
  rw [if_neg hdown]
  exact h.plainChar c answer hroom

/-- `_inner_do_obj_runChar` up to its exit decodes the key and takes it. -/
theorem dispatch (h : sh.Shows editor) (c : BitVec 8) (answer : ShellCtrl)
    (hroom : ∀ key ∈ (EditorKey.decode sh.lastChar sh.stat c).2, sh.HasRoom key) :
    Agree (sh.dispatch c answer)
      (match EditorKey.decode sh.lastChar sh.stat c with
      | (stat, none) => some ({ editor with stat := stat }, .continue)
      | (stat, some key) => { editor with stat := stat }.press options answer key) := by
  unfold EditorKey.decode at hroom ⊢
  unfold ShellConfig.dispatch
  by_cases hpair : c = ShellKey.newline ∧ sh.lastChar = ShellKey.carriage
  · rw [if_pos hpair, if_pos hpair]
    exact ⟨_, _, _, rfl, rfl, h.setStat sh.stat⟩
  rw [if_neg hpair] at hroom ⊢
  rw [if_neg hpair]
  by_cases hescape : c = ShellKey.escape
  · rw [if_pos hescape, if_pos hescape]
    exact ⟨_, _, _, rfl, rfl, h.setStat _⟩
  rw [if_neg hescape] at hroom ⊢
  rw [if_neg hescape]
  cases hstat : sh.stat with
  | normal =>
    rw [hstat] at hroom
    have hshows : sh.Shows { editor with stat := sh.stat } := h.setStat sh.stat
    rw [hstat] at hshows
    exact hshows.plainChar c answer (hroom _ rfl)
  | waitSpecKey =>
    rw [hstat] at hroom
    dsimp only at hroom ⊢
    by_cases hbracket : c = ShellKey.bracket
    · rw [if_pos hbracket, if_pos hbracket]
      exact ⟨_, _, _, rfl, rfl, h.setStat _⟩
    · rw [if_neg hbracket] at hroom ⊢
      rw [if_neg hbracket]
      exact (h.setStat .normal).plainChar c answer (hroom _ rfl)
  | waitFuncKey =>
    rw [hstat] at hroom
    exact (h.setStat .normal).funcKey c answer (hroom _ rfl)

/-- **A key press** is taken by both with the same answer. -/
theorem runChar (h : sh.Shows editor) (press : KeyPress) (hroom : KeyWhen press sh) :
    Agree (sh.runChar press) (editor.step options press) := by
  obtain ⟨sh', editor', answer, hsh, heditor, hshows⟩ := h.dispatch _ press.answer hroom
  rw [h.lastChar, h.stat] at heditor
  refine ⟨_, _, answer, by rw [ShellConfig.runChar, hsh]; rfl, ?_, hshows.setLastChar _⟩
  rw [LineEditor.step]
  rcases hdecode : EditorKey.decode editor.lastChar editor.stat
    (ShellConfig.inputChar press.inputChar) with ⟨stat, _ | key⟩
  · rw [hdecode] at heditor
    cases heditor
    rfl
  · rw [hdecode] at heditor
    dsimp only at heditor ⊢
    rw [heditor]
    rfl

end Shows

end ShellConfig

/-! ### The law of a run -/

/-- The shell takes the key presses without leaving its buffer, answers what the editor answers,
and has its line and its cursor, which is in the line and the line in the buffer. -/
def EditorLaw (options : ShellOptions) (presses : List KeyPress) : Prop :=
  ∃ sh editor answers, (shellMachine options).run (.init options) presses = some (sh, answers) ∧
    (editorMachine options).run .init presses = some (editor, answers) ∧
    untilZero sh.lineBuff = some editor.line.toList ∧ sh.lineCurpos = editor.line.cursor ∧
    sh.lineCurpos ≤ sh.linePosition ∧ sh.linePosition < options.lineBuffSize

/-- A new shell shows a new editor. -/
theorem ShellConfig.shows_init (options : ShellOptions) :
    (ShellConfig.init options).Shows .init :=
  @shows_clearBuff options (.init options) .init rfl nofun nofun rfl rfl rfl
    (ShellOptions.Fits.create options)

/-- **The shell is a line editor** in every run whose key presses the buffer has room for. -/
theorem run_edits (options : ShellOptions) (presses : List KeyPress)
    (hroom : (shellMachine options).Meets KeyWhen (.init options) presses) :
    EditorLaw options presses := by
  obtain ⟨sh, editor, answers, hrun, hrun', hshows⟩ := Machine.run_both_of_meets
    (m := shellMachine options) (n := editorMachine options)
    (fun press sh editor hpress hshows => by
      obtain ⟨sh', editor', answer, hsh, heditor, hshows'⟩ := hshows.runChar press hpress
      exact ⟨sh', editor', answer, hsh, heditor, hshows'⟩)
    (ShellConfig.shows_init options) hroom
  refine ⟨sh, editor, answers, hrun, hrun', hshows.untilZero, hshows.lineCurpos, ?_, ?_⟩
  · rw [hshows.lineCurpos, hshows.linePosition]
    exact Zipper.cursor_le
  · rw [hshows.linePosition]
    exact hshows.length_lt

/-- A buffer of four bytes. -/
def ShellOptions.tiny : ShellOptions where
  lineBuffSize := 4
  historyNum := 2
  hasBlockBuff := true
  lineBuffSize_pos := Nat.succ_pos 3
  lineBuffSize_lt := by decide
  historyNum_pos := Nat.succ_pos 1
  historyNum_lt := by decide

/-- A character, and a handler that goes on. -/
def KeyPress.ofNat (c : Nat) : KeyPress := ⟨BitVec.ofNat 8 c, .continue⟩

/-- A block of two lines, an edit at the cursor, and a line of the history. -/
theorem run_edits_block : EditorLaw .tiny
    ([0x78, 0x3a, 0x0d, 0x20, 0x79, 0x0d, 0x7a, 0x1b, 0x5b, 0x44, 0x77, 0x7f, 0x0d, 0x1b, 0x5b,
      0x41].map KeyPress.ofNat) :=
  run_edits _ _ (by decide +kernel)

/-- A full line that opens a block does not leave the line break its NUL. -/
theorem not_editorLaw : ¬ ∀ options presses, EditorLaw options presses := by
  intro h
  obtain ⟨sh, editor, answers, hrun, -⟩ :=
    h .default ((List.replicate 126 0x61 ++ [0x3a, 0x0a]).map KeyPress.ofNat)
  have hnone : ((shellMachine .default).run (.init .default)
      ((List.replicate 126 0x61 ++ [0x3a, 0x0a]).map KeyPress.ofNat)).isNone = true := by
    decide +kernel
  rw [hrun] at hnone
  cases hnone

end PikaScript
