import PikaScript.Data.List
import PikaScript.Library.PackedFile
import PikaScript.Text.Indent

/-! Reading the lines of a file.

`readline` puts a line together in a buffer that doubles, and `readlines` appends the lines to a
`PikaList`. Both take what has been opened for a file of the platform; `read` alone looks whether
it is one of the packed library.

`readsLines_iff`: this, the `int` of the buffer, and the names in the list are all that can go
wrong. -/
namespace PikaScript
open Memory Indent

/-- What `_f` points at: a file of the platform, as what is left of it, or one of the packed
library. -/
inductive OpenFile where
  | platform (rest : Bytes)
  | packed (file : PikafsFile)

/-- What is left to be read. -/
def OpenFile.rest : OpenFile → Bytes
  | .platform rest => rest
  | .packed file => file.rest

/-- A `FILEIO` object: `_f`, where none is NULL, and its other attributes. -/
structure FileIo where
  f : Option OpenFile
  list : Args

/-- An error code, and the text that is put out with it. -/
structure IoError where
  code : PikaRes
  sysOut : String
deriving DecidableEq

namespace FileIo

/-! ### The code -/

section
variable (signedChar : Bool) (fresh : Nat → Nat → BitVec 8)

/-- The name `"@sc"`. -/
def sc : CString := [0x40, 0x73, 0x63]

/-- `pika_platform_malloc`, with what new memory of a size happens to hold. -/
def malloc (size : Nat) : Bytes := (List.range size).map (fresh size)

/-- `pika_reallocn`. -/
def reallocn (ptr : Bytes) (sizeOld sizeNew : Nat) : Option Bytes :=
  (loadBytes ptr 0 sizeOld).bind fun bytes => store (malloc fresh sizeNew) 0 bytes

/-- The buffer for a line of so many characters, and its size. None when the size is no `int`. -/
def makeRoom (lineBuff : Bytes) (lineBuffSize lineSize : Nat) : Option (Bytes × Nat) :=
  if lineBuffSize ≤ lineSize then
    -- "line too long, double buff and realloc"
    let lineBuffSize := lineBuffSize * 2
    if 2 ^ 31 ≤ lineBuffSize then none
    else do
      let lineBuff ← reallocn fresh lineBuff (lineBuffSize / 2) lineBuffSize
      let lineBuff ← store lineBuff lineSize (List.replicate (lineBuffSize - lineSize) 0)
      return (lineBuff, lineBuffSize)
  else some (lineBuff, lineBuffSize)

/-- The loop of `PikaStdData_FILEIO_readline`, with what is left of the file: the buffer that it
leaves, or none within for NULL. None when it reads or writes outside the buffer. -/
def readlineLoop : Bytes → Bytes → Nat → Nat → Option (Bytes × Option Bytes)
  | [], lineBuff, _, _ => do
    let line ← untilZero lineBuff
    return ([], if line.length = 0 then none else some lineBuff)
  | char :: rest, lineBuff, lineBuffSize, lineSize => do
    let lineSize := lineSize + 1
    let (lineBuff, lineBuffSize) ← makeRoom fresh lineBuff lineBuffSize lineSize
    if char = newline then
      let lineBuff ← store lineBuff (lineSize - 1) [newline]
      return (rest, some lineBuff)
    else
      let lineBuff ← store lineBuff (lineSize - 1) [char]
      readlineLoop rest lineBuff lineBuffSize lineSize

/-- `PikaStdData_FILEIO_readline`. None also when a file of the library is read as a `FILE`. -/
def readline (self : FileIo) : Option (FileIo × Except IoError (Option CString)) :=
  match self.f with
  | none => some (self, .error ⟨.errIoError, "Error: can't read line from file"⟩)
  | some (.packed _) => none
  | some (.platform rest) => do
    let lineBuff ← store (malloc fresh 16) 0 (List.replicate 16 0)
    let (rest, line) ← readlineLoop fresh rest lineBuff 16 0
    match line with
    | none => return (⟨some (.platform rest), self.list⟩, .ok none)
    | some lineBuff =>
      let str ← untilZero lineBuff
      let list := (Args.setStr signedChar self.list sc (some str)).1
      return (⟨some (.platform rest), list⟩,
        .ok ((Args.getArg signedChar list sc).map Arg.getStr))

/-- `PikaStdData_List_append`. -/
def listAppend (self : PikaList) (arg : Arg) : Option PikaList :=
  (PikaList.append signedChar self (some arg.copy)).map Prod.fst

/-- So many rounds of the loop of `PikaStdData_FILEIO_readlines`. None when it has not been
left. -/
def readlinesLoop : Nat → FileIo → PikaList → Option (FileIo × PikaList)
  | 0, _, _ => none
  | rounds + 1, self, lineList => do
    let (self, line) ← readline signedChar fresh self
    match line with
    | .ok (some line) =>
      let lineList ← listAppend signedChar lineList (Arg.create 5381 .string (line ++ [0]))
      readlinesLoop rounds self lineList
    | _ => return (self, lineList)

/-- `PikaStdData_FILEIO_readlines`. -/
def readlines (rounds : Nat) (self : FileIo) : Option (FileIo × Except IoError PikaList) :=
  match self.f with
  | none => some (self, .error ⟨.errIoError, "Error: can't read lines from file"⟩)
  | some _ => (readlinesLoop signedChar fresh rounds self (PikaList.init signedChar)).map
      fun r => (r.1, .ok r.2)

/-- An object of which line after line is read. -/
def lineMachine : Machine Unit FileIo (Except IoError (Option CString)) where
  step _ self := readline signedChar fresh self

end

/-! ### The law -/

/-- The texts that were returned, one behind the other. -/
def returned (results : List (Option CString)) : CString := (results.filterMap id).flatten

/-- The results of successive calls: the content in its order; a newline at the end of every
line that is not the last of the content, and in no other place; NULL when, and only when, all of
the content has been returned. -/
structure LineLaw (content : CString) (results : List (Option CString)) : Prop where
  inOrder : returned results <+: content
  single : ∀ line, some line ∈ results → newline ∉ line.dropLast
  whole : ∀ i line, results[i]? = some (some line) →
    line.getLast? = some newline ∨ returned (results.take (i + 1)) = content
  ended : ∀ i, results[i]? = some none ↔
    i < results.length ∧ returned (results.take i) = content

/-- The items of a list are strings of some texts. -/
structure Items (signedChar : Bool) (list : PikaList) (texts : List CString) : Prop where
  size : list.getSize signedChar = some (texts.length : Int)
  item : ∀ (i : Nat) text, texts[i]? = some text → ∃ arg, list.get signedChar i = some arg ∧
    arg.type = .string ∧ arg.getStr = text

/-- A file of text. -/
structure TextFile where
  file : OpenFile
  noNul : 0 ∉ file.rest

/-- However often `readline` is called, it returns the lines of the file, and `readlines` returns
a list of them. -/
structure ReadsLines (signedChar : Bool) (fresh : Nat → Nat → BitVec 8) (list : Args)
    (text : TextFile) : Prop where
  calls : ∀ n, ∃ self results,
    (lineMachine signedChar fresh).run ⟨some text.file, list⟩ (List.replicate n ()) =
      some (self, results.map .ok) ∧ LineLaw text.file.rest results
  items : ∃ rounds self lineList texts,
    readlines signedChar fresh rounds ⟨some text.file, list⟩ = some (self, .ok lineList) ∧
      Items signedChar lineList texts ∧ LineLaw text.file.rest (texts.map some ++ [none])

/-- The lines have a list: the number of them is an `int`, no name of an item is that of the
size, and where two items have one name, it is the same line twice. -/
structure Listed (signedChar : Bool) (lines : List CString) : Prop where
  size : lines.length < 2 ^ 31
  top : ∀ i : Nat, i < lines.length →
    PikaList.indexHash signedChar i ≠ hashTime33 signedChar PikaList.top
  index : ∀ i j : Nat, i < lines.length → j < lines.length →
    PikaList.indexHash signedChar i = PikaList.indexHash signedChar j → lines[i]? = lines[j]?

/-- The file is one of the platform, the buffer of every line has an `int` for its size, and the
lines have a list. -/
structure ReadsWhen (signedChar : Bool) (file : OpenFile) : Prop where
  platform : ∃ rest, file = .platform rest
  lines : ∃ lines, IsLines file.rest lines ∧ (∀ line ∈ lines, line.length < 2 ^ 30) ∧
    Listed signedChar lines

/-! ### Lines -/

/-- The line that a text starts with, and what is behind it. -/
structure FirstLine (line rest : CString) : Prop where
  ne_nil : line ≠ []
  single : newline ∉ line.dropLast
  whole : line.getLast? = some newline ∨ rest = []

section
variable {content line rest : CString} {lines : List CString} {results : List (Option CString)}

theorem FirstLine.cases (h : FirstLine line rest) :
    (∃ body, newline ∉ body ∧ line = body ++ [newline]) ∨ newline ∉ line ∧ rest = [] := by
  have hsplit := List.dropLast_append_getLast h.ne_nil
  by_cases hlast : line.getLast h.ne_nil = newline
  · rw [hlast] at hsplit
    exact .inl ⟨line.dropLast, h.single, hsplit.symm⟩
  · refine .inr ⟨fun hmem => ?_, h.whole.resolve_left fun hwhole => hlast ?_⟩
    · rw [← hsplit] at hmem
      rcases List.mem_append.mp hmem with hmem | hmem
      · exact h.single hmem
      · exact hlast (List.mem_singleton.mp hmem).symm
    · rw [List.getLast?_eq_getLast_of_ne_nil h.ne_nil] at hwhole
      exact Option.some.inj hwhole

theorem firstLine_of_newline {body : CString} (h : newline ∉ body) (rest : CString) :
    FirstLine (body ++ [newline]) rest where
  ne_nil := List.append_ne_nil_of_right_ne_nil _ (List.cons_ne_nil _ _)
  single := by rwa [List.dropLast_concat]
  whole := .inl List.getLast?_concat

theorem firstLine_of_end (hne : line ≠ []) (h : newline ∉ line) : FirstLine line [] where
  ne_nil := hne
  single hmem := h (List.mem_of_mem_dropLast hmem)
  whole := .inr rfl

theorem eq_nil_of_isLines (h : IsLines [] lines) : lines = [] := by
  generalize hcontent : ([] : CString) = content at h
  cases h with
  | nil => rfl
  | last hne => exact absurd hcontent.symm hne
  | cons => simp at hcontent

/-- The lines of a text are its first line and the lines of what is behind it. -/
theorem isLines_cons : IsLines content (line :: lines) ↔
    ∃ rest, content = line ++ rest ∧ FirstLine line rest ∧ IsLines rest lines := by
  constructor
  · intro h
    cases h with
    | last hne h => exact ⟨[], (List.append_nil _).symm, firstLine_of_end hne h, .nil⟩
    | @cons body rest _ h hrest =>
      exact ⟨rest, by rw [List.append_assoc, List.singleton_append], firstLine_of_newline h rest,
        hrest⟩
  · rintro ⟨rest, rfl, hfirst, hrest⟩
    rcases hfirst.cases with ⟨body, hbody, rfl⟩ | ⟨hline, rfl⟩
    · rw [List.append_assoc, List.singleton_append]
      exact .cons hbody hrest
    · rw [List.append_nil]
      obtain rfl := eq_nil_of_isLines hrest
      exact .last hfirst.ne_nil hline

theorem isLines_nil : IsLines content [] ↔ content = [] := by
  constructor
  · intro h
    cases h
    rfl
  · rintro rfl
    exact .nil

@[simp] theorem returned_nil : returned [] = [] := rfl

@[simp] theorem returned_none : returned (none :: results) = returned results := rfl

@[simp] theorem returned_some : returned (some line :: results) = line ++ returned results := rfl

theorem lineLaw_nil (content : CString) : LineLaw content [] where
  inOrder := List.nil_prefix
  single _ hmem := absurd hmem List.not_mem_nil
  whole _ _ hget := by cases hget
  ended i := by simp

/-- At the end of the content NULL is returned. -/
theorem LineLaw.null (h : LineLaw [] results) : LineLaw [] (none :: results) where
  inOrder := h.inOrder
  single line hmem := h.single line (by simpa using hmem)
  whole i line hget := by
    cases i with
    | zero => cases hget
    | succ i => exact h.whole i line hget
  ended i := by
    cases i with
    | zero => simp
    | succ i => simpa using h.ended i

/-- In front of the end a line is returned. -/
theorem lineLaw_cons : LineLaw (line ++ rest) (some line :: results) ↔
    FirstLine line rest ∧ LineLaw rest results := by
  constructor
  · intro h
    have hwhole : line.getLast? = some newline ∨ rest = [] := by simpa using h.whole 0 line rfl
    refine ⟨⟨?_, h.single line List.mem_cons_self, hwhole⟩, ?_, ?_, ?_, ?_⟩
    · rintro rfl
      have hend : rest ≠ [] := by simpa using h.ended 0
      exact hwhole.elim nofun hend
    · exact (List.prefix_append_right_inj line).mp h.inOrder
    · exact fun line' hmem => h.single line' (List.mem_cons_of_mem _ hmem)
    · intro i line' hget
      simpa using h.whole (i + 1) line' hget
    · intro i
      simpa using h.ended (i + 1)
  · rintro ⟨hfirst, h⟩
    refine ⟨(List.prefix_append_right_inj line).mpr h.inOrder, ?_, ?_, ?_⟩
    · intro line' hmem
      rcases List.mem_cons.mp hmem with heq | hmem
      · exact Option.some.inj heq ▸ hfirst.single
      · exact h.single line' hmem
    · intro i line' hget
      cases i with
      | zero =>
        obtain rfl : line = line' := by simpa using hget
        simpa using hfirst.whole
      | succ i => simpa using h.whole i line' hget
    · intro i
      cases i with
      | zero => simp [hfirst.ne_nil]
      | succ i => simpa using h.ended i

/-- What so many calls return of some lines. -/
def answers : List CString → Nat → List (Option CString)
  | _, 0 => []
  | [], n + 1 => none :: answers [] n
  | line :: lines, n + 1 => some line :: answers lines n

/-- **The lines of a text, and NULL behind them, keep the law.** -/
theorem lineLaw_answers (h : IsLines content lines) (n : Nat) :
    LineLaw content (answers lines n) := by
  induction n generalizing content lines with
  | zero => exact lineLaw_nil content
  | succ n ih =>
    cases lines with
    | nil =>
      obtain rfl := isLines_nil.mp h
      exact (ih .nil).null
    | cons line lines =>
      obtain ⟨rest, rfl, hfirst, hrest⟩ := isLines_cons.mp h
      exact lineLaw_cons.mpr ⟨hfirst, ih hrest⟩

theorem answers_length (lines : List CString) :
    answers lines (lines.length + 1) = lines.map some ++ [none] := by
  induction lines with
  | nil => rfl
  | cons line lines ih => rw [List.length_cons, answers, ih, List.map_cons, List.cons_append]

/-- **No other texts keep it.** -/
theorem isLines_of_lineLaw (h : LineLaw content (lines.map some ++ [none])) :
    IsLines content lines := by
  induction lines generalizing content with
  | nil =>
    have hend := ((h.ended 0).mp rfl).2
    rw [← hend]
    exact .nil
  | cons line lines ih =>
    obtain ⟨rest, rfl⟩ := (List.prefix_append _ _).trans h.inOrder
    obtain ⟨hfirst, hrest⟩ := lineLaw_cons.mp h
    exact isLines_cons.mpr ⟨rest, rfl, hfirst, ih hrest⟩

end

/-! ### The buffer -/

/-- The buffer holds some characters and zeros behind them, one at least, and its size is still
an `int`. -/
structure Filled (pre : CString) (lineBuff : Bytes) (lineBuffSize : Nat) : Prop where
  eq : lineBuff = pre ++ List.replicate (lineBuffSize - pre.length) 0
  lt : pre.length < lineBuffSize
  size : ∃ k ≤ 30, lineBuffSize = 2 ^ k

section
variable {fresh : Nat → Nat → BitVec 8} {pre body line rest : CString} {lineBuff : Bytes}
  {lineBuffSize : Nat} {c : BitVec 8}

theorem length_malloc (size : Nat) : (malloc fresh size).length = size := by simp [malloc]

/-- A store over all of a memory. -/
theorem store_all {mem bytes : Bytes} (h : bytes.length = mem.length) :
    store mem 0 bytes = some bytes := by
  rw [store_of_le (by rw [Nat.zero_add, h])]
  simp [h]

theorem Filled.length (h : Filled pre lineBuff lineBuffSize) : lineBuff.length = lineBuffSize := by
  have hlt := h.lt
  rw [h.eq, List.length_append, List.length_replicate]
  omega

/-- What the buffer holds is read up to the zeros. -/
theorem Filled.untilZero (h : Filled pre lineBuff lineBuffSize) (hnul : 0 ∉ pre) :
    untilZero lineBuff = some pre := by
  obtain ⟨n, hn⟩ := Nat.exists_eq_add_of_lt h.lt
  have hzeros : lineBuffSize - pre.length = n + 1 := by omega
  rw [h.eq, hzeros, List.replicate_succ]
  exact untilZero_append hnul

/-- One more character is stored behind the others. -/
theorem Filled.store (h : Filled pre lineBuff lineBuffSize) (hlt : pre.length + 1 < lineBuffSize)
    (c : BitVec 8) : ∃ lineBuff', store lineBuff pre.length [c] = some lineBuff' ∧
      Filled (pre ++ [c]) lineBuff' lineBuffSize := by
  have hone : [c].length ≤ (List.replicate (lineBuffSize - pre.length) (0 : BitVec 8)).length := by
    rw [List.length_replicate, List.length_singleton]
    omega
  refine ⟨_, by rw [h.eq, store_append pre hone], ?_, ?_, h.size⟩
  · rw [List.drop_replicate, List.length_singleton, List.length_append, List.length_singleton,
      Nat.sub_sub]
  · rw [List.length_append]
    exact hlt

/-- The new buffer is the old one and zeros. -/
theorem reallocn_double (fresh : Nat → Nat → BitVec 8) (h : lineBuff.length = lineBuffSize) :
    ((reallocn fresh lineBuff (lineBuffSize * 2 / 2) (lineBuffSize * 2)).bind fun lineBuff =>
      Memory.store lineBuff lineBuffSize
        (List.replicate (lineBuffSize * 2 - lineBuffSize) 0)) =
      some (lineBuff ++ List.replicate lineBuffSize 0) := by
  subst h
  have hload : loadBytes lineBuff 0 lineBuff.length = some lineBuff := by
    rw [loadBytes, if_pos (by rw [Nat.zero_add]), List.drop_zero, List.take_length]
  have hroom : lineBuff.length ≤ (malloc fresh (lineBuff.length * 2)).length := by
    rw [length_malloc]
    omega
  have hcopy : Memory.store (malloc fresh (lineBuff.length * 2)) 0 lineBuff =
      some (lineBuff ++ (malloc fresh (lineBuff.length * 2)).drop lineBuff.length) :=
    store_append [] hroom
  have hzeros : (List.replicate (lineBuff.length * 2 - lineBuff.length) (0 : BitVec 8)).length =
      ((malloc fresh (lineBuff.length * 2)).drop lineBuff.length).length := by
    rw [List.length_replicate, List.length_drop, length_malloc]
  rw [reallocn, Nat.mul_div_cancel _ (by decide), hload, Option.bind_some, hcopy,
    Option.bind_some, store_append lineBuff hzeros.le, hzeros, List.drop_length, List.append_nil,
    Nat.mul_two, Nat.add_sub_cancel]

/-- **The buffer has room for one more character**, doubled if need be, as long as twice its size
is an `int`. -/
theorem Filled.makeRoom (fresh : Nat → Nat → BitVec 8) (h : Filled pre lineBuff lineBuffSize)
    (hshort : pre.length + 1 < 2 ^ 30) :
    ∃ lineBuff' lineBuffSize', makeRoom fresh lineBuff lineBuffSize (pre.length + 1) =
        some (lineBuff', lineBuffSize') ∧
      Filled pre lineBuff' lineBuffSize' ∧ pre.length + 1 < lineBuffSize' := by
  have hlt := h.lt
  obtain ⟨k, hk, hsize⟩ := h.size
  unfold FileIo.makeRoom
  by_cases hfull : lineBuffSize ≤ pre.length + 1
  · have hk' : k < 30 := by
      rcases Nat.lt_or_eq_of_le hk with hk | rfl
      · exact hk
      · omega
    have hdouble : lineBuffSize * 2 = 2 ^ (k + 1) := by rw [hsize, Nat.pow_succ]
    have hle : 2 ^ (k + 1) ≤ 2 ^ 30 := Nat.pow_le_pow_right (by decide) hk'
    have hsame : pre.length + 1 = lineBuffSize := Nat.le_antisymm hlt hfull
    have hrealloc := reallocn_double fresh h.length
    refine ⟨lineBuff ++ List.replicate lineBuffSize 0, lineBuffSize * 2, ?_, ⟨?_, ?_, k + 1, hk',
      hdouble⟩, by omega⟩
    · rw [if_pos hfull, hsame]
      dsimp only
      rw [if_neg (by omega), Option.bind_eq_bind, ← Option.bind_assoc, hrealloc]
      rfl
    · have hcount : lineBuffSize * 2 - pre.length = lineBuffSize - pre.length + lineBuffSize := by
        omega
      rw [hcount, List.replicate_add, ← List.append_assoc, ← h.eq]
    · omega
  · rw [if_neg hfull]
    exact ⟨_, _, rfl, h, by omega⟩

end

/-! ### The loop -/

section
variable (fresh : Nat → Nat → BitVec 8) {pre body line : CString} (rest : CString)
  {lineBuff : Bytes} {lineBuffSize : Nat} {c : BitVec 8}

/-- A character other than a newline is stored, and the loop goes on. -/
theorem readlineLoop_cons (h : Filled pre lineBuff lineBuffSize) (hc : c ≠ newline)
    (hshort : pre.length + 1 < 2 ^ 30) :
    ∃ lineBuff' lineBuffSize', Filled (pre ++ [c]) lineBuff' lineBuffSize' ∧
      readlineLoop fresh (c :: rest) lineBuff lineBuffSize pre.length =
        readlineLoop fresh rest lineBuff' lineBuffSize' (pre ++ [c]).length := by
  obtain ⟨lineBuff₁, lineBuffSize', hroom, h₁, hlt⟩ := h.makeRoom fresh hshort
  obtain ⟨lineBuff', hstore, h'⟩ := h₁.store hlt c
  refine ⟨lineBuff', lineBuffSize', h', ?_⟩
  rw [readlineLoop]
  simp only [hroom, Option.bind_eq_bind, Option.bind_some, if_neg hc, Nat.add_sub_cancel, hstore]
  rw [List.length_append, List.length_singleton]

/-- A newline is stored, and the loop is left. -/
theorem readlineLoop_newline (h : Filled pre lineBuff lineBuffSize)
    (hshort : pre.length + 1 < 2 ^ 30) :
    ∃ lineBuff' lineBuffSize', Filled (pre ++ [newline]) lineBuff' lineBuffSize' ∧
      readlineLoop fresh (newline :: rest) lineBuff lineBuffSize pre.length =
        some (rest, some lineBuff') := by
  obtain ⟨lineBuff₁, lineBuffSize', hroom, h₁, hlt⟩ := h.makeRoom fresh hshort
  obtain ⟨lineBuff', hstore, h'⟩ := h₁.store hlt newline
  refine ⟨lineBuff', lineBuffSize', h', ?_⟩
  rw [readlineLoop]
  simp only [hroom, Option.bind_eq_bind, Option.bind_some, if_true, Nat.add_sub_cancel, hstore]
  rfl

/-- At the end of the file the loop is left, with NULL if there is no character in the buffer. -/
theorem readlineLoop_nil (h : Filled pre lineBuff lineBuffSize) (hnul : 0 ∉ pre) :
    readlineLoop fresh [] lineBuff lineBuffSize pre.length =
      some ([], if pre = [] then none else some lineBuff) := by
  rw [readlineLoop, h.untilZero hnul, Option.bind_eq_bind, Option.bind_some]
  simp only [List.length_eq_zero_iff]
  rfl

/-- A buffer of 2^30 bytes is full and is not doubled. -/
theorem readlineLoop_of_long (h : Filled pre lineBuff lineBuffSize)
    (hlong : 2 ^ 30 ≤ pre.length + 1) :
    readlineLoop fresh (c :: rest) lineBuff lineBuffSize pre.length = none := by
  obtain ⟨k, hk, hsize⟩ := h.size
  have hlt := h.lt
  have hle : 2 ^ k ≤ 2 ^ 30 := Nat.pow_le_pow_right (by decide) hk
  have hroom : makeRoom fresh lineBuff lineBuffSize (pre.length + 1) = none := by
    rw [makeRoom, if_pos (by omega)]
    exact if_pos (by omega)
  rw [readlineLoop]
  simp only [hroom, Option.bind_eq_bind, Option.bind_none]

/-- **All that is in front of a newline is stored.** -/
theorem readlineLoop_append (h : Filled pre lineBuff lineBuffSize) (hbody : newline ∉ body)
    (hshort : pre.length + body.length < 2 ^ 30) :
    ∃ lineBuff' lineBuffSize', Filled (pre ++ body) lineBuff' lineBuffSize' ∧
      readlineLoop fresh (body ++ rest) lineBuff lineBuffSize pre.length =
        readlineLoop fresh rest lineBuff' lineBuffSize' (pre ++ body).length := by
  induction body generalizing pre lineBuff lineBuffSize with
  | nil => exact ⟨lineBuff, lineBuffSize, by rwa [List.append_nil], by rw [List.append_nil]; rfl⟩
  | cons c body ih =>
    obtain ⟨hc, hbody⟩ := List.ne_and_not_mem_of_not_mem_cons hbody
    rw [List.length_cons] at hshort
    obtain ⟨lineBuff₁, lineBuffSize₁, h₁, hstep⟩ :=
      readlineLoop_cons fresh (body ++ rest) h hc.symm (by omega)
    obtain ⟨lineBuff', lineBuffSize', h', hloop⟩ := ih h₁ hbody (by
      rw [List.length_append, List.length_singleton]
      omega)
    rw [List.append_assoc, List.singleton_append] at h' hloop
    exact ⟨lineBuff', lineBuffSize', h', hstep.trans hloop⟩

end

/-! ### A call -/

section
variable (signedChar : Bool) (fresh : Nat → Nat → BitVec 8) (list : Args) {line rest : CString}

theorem filled_nil : Filled [] (List.replicate 16 0) 16 :=
  ⟨rfl, by decide, 4, by decide, rfl⟩

/-- A call on a file of the platform starts with sixteen zeros. -/
theorem readline_eq (rest : Bytes) :
    readline signedChar fresh ⟨some (.platform rest), list⟩ =
      (readlineLoop fresh rest (List.replicate 16 0) 16 0).bind fun r =>
        match r.2 with
        | none => some (⟨some (.platform r.1), list⟩, .ok none)
        | some lineBuff => (untilZero lineBuff).bind fun str =>
          some (⟨some (.platform r.1), (Args.setStr signedChar list sc (some str)).1⟩,
            .ok ((Args.getArg signedChar (Args.setStr signedChar list sc (some str)).1 sc).map
              Arg.getStr)) := by
  have hzeros : Memory.store (malloc fresh 16) 0 (List.replicate 16 0) =
      some (List.replicate 16 0) := store_all (by rw [length_malloc, List.length_replicate])
  rw [readline]
  simp only [hzeros, Option.bind_eq_bind, Option.bind_some]
  refine congrArg _ (funext fun r => ?_)
  obtain ⟨rest, _ | lineBuff⟩ := r <;> rfl

/-- What has been set is got. -/
theorem getStr_setStr (name : CString) {str : CString} (hnul : 0 ∉ str) :
    (Args.getArg signedChar (Args.setStr signedChar list name (some str)).1 name).map Arg.getStr =
      some str := by
  obtain ⟨a, hget, ha⟩ := Args.exists_getArgHash_setArg list
    (Arg.has_ofArg (Args.newArg signedChar name .string (str ++ [0])))
  have hget : Args.getArg signedChar (Args.setStr signedChar list name (some str)).1 name =
    some a := hget
  rw [hget, Option.map_some, Arg.getStr_eq ha.2 hnul]

/-- At the end of a file NULL is returned, and it stays the end. -/
theorem readline_nil : readline signedChar fresh ⟨some (.platform []), list⟩ =
    some (⟨some (.platform []), list⟩, .ok none) := by
  have hloop := readlineLoop_nil fresh filled_nil List.not_mem_nil
  rw [readline_eq]
  exact congrArg (Option.bind · _) hloop

/-- **A line is returned**, and the file is left behind it. -/
theorem readline_line (hline : FirstLine line rest) (hshort : line.length < 2 ^ 30)
    (hnul : 0 ∉ line) :
    ∃ list', readline signedChar fresh ⟨some (.platform (line ++ rest)), list⟩ =
      some (⟨some (.platform rest), list'⟩, .ok (some line)) := by
  have hloop : ∃ lineBuff lineBuffSize, Filled line lineBuff lineBuffSize ∧
      readlineLoop fresh (line ++ rest) (List.replicate 16 0) 16 0 =
        some (rest, some lineBuff) := by
    rcases hline.cases with ⟨body, hbody, rfl⟩ | ⟨hbody, rfl⟩
    · rw [List.length_append, List.length_singleton] at hshort
      obtain ⟨lineBuff₁, lineBuffSize₁, h₁, hbodyLoop⟩ :=
        readlineLoop_append fresh (newline :: rest) filled_nil hbody
          (by rw [List.length_nil]; omega)
      obtain ⟨lineBuff, lineBuffSize, h, hend⟩ :=
        readlineLoop_newline fresh rest h₁ hshort
      refine ⟨lineBuff, lineBuffSize, h, ?_⟩
      rw [List.append_assoc, List.singleton_append]
      exact hbodyLoop.trans hend
    · obtain ⟨lineBuff, lineBuffSize, h, hbodyLoop⟩ :=
        readlineLoop_append fresh [] filled_nil hbody
          (by rw [List.length_nil]; omega)
      refine ⟨lineBuff, lineBuffSize, h, hbodyLoop.trans ?_⟩
      rw [readlineLoop_nil fresh h hnul]
      exact congrArg (fun r => some ([], r)) (if_neg hline.ne_nil)
  obtain ⟨lineBuff, lineBuffSize, h, hloop⟩ := hloop
  refine ⟨(Args.setStr signedChar list sc (some line)).1, ?_⟩
  rw [readline_eq, hloop, Option.bind_some]
  dsimp only
  rw [h.untilZero hnul, Option.bind_some, getStr_setStr signedChar list sc hnul]

/-- A line of 2^30 bytes or more has no buffer. -/
theorem readline_long (hline : FirstLine line rest) (hlong : 2 ^ 30 ≤ line.length) :
    readline signedChar fresh ⟨some (.platform (line ++ rest)), list⟩ = none := by
  obtain ⟨n, hn⟩ : ∃ n, n + 1 = 2 ^ 30 := ⟨2 ^ 30 - 1, rfl⟩
  have hlast : n < line.length := by omega
  have hlength : (line.take n).length = n := List.length_take_of_le hlast.le
  have hfront : newline ∉ line.take n := fun hmem => hline.single (by
    rw [List.dropLast_eq_take]
    exact List.take_subset_take_left line (by omega) hmem)
  have hne : line.drop n ≠ [] := fun hnil =>
    absurd (List.drop_eq_nil_iff.mp hnil) (not_le.mpr hlast)
  obtain ⟨c, back, hback⟩ := List.exists_cons_of_ne_nil hne
  have hsplit : line ++ rest = line.take n ++ c :: (back ++ rest) := by
    rw [← List.cons_append, ← hback, ← List.append_assoc, List.take_append_drop]
  obtain ⟨lineBuff, lineBuffSize, h, hloop⟩ :=
    readlineLoop_append fresh (c :: (back ++ rest)) filled_nil hfront
      (by rw [List.length_nil]; omega)
  have hnone := hloop.trans (readlineLoop_of_long fresh _ h (by
    rw [List.nil_append]
    omega))
  rw [readline_eq, hsplit]
  exact congrArg (Option.bind · _) hnone

end

/-! ### Successive calls -/

section
variable {signedChar : Bool} {fresh : Nat → Nat → BitVec 8} {content : CString}
  {lines texts : List CString} {line : CString} {list : PikaList}

/-- **The calls return the lines and then NULL.** -/
theorem run_answers (h : IsLines content lines) (hshort : ∀ line ∈ lines, line.length < 2 ^ 30)
    (hnul : 0 ∉ content) (n : Nat) (list : Args) :
    ∃ self, (lineMachine signedChar fresh).run ⟨some (.platform content), list⟩
      (List.replicate n ()) = some (self, (answers lines n).map .ok) := by
  induction n generalizing content lines list with
  | zero =>
    rw [answers.eq_def]
    cases lines <;> exact ⟨_, rfl⟩
  | succ n ih =>
    cases lines with
    | nil =>
      obtain rfl := isLines_nil.mp h
      obtain ⟨self, hrun⟩ := ih h hshort hnul list
      have hstep : (lineMachine signedChar fresh).step () ⟨some (.platform []), list⟩ =
        some (⟨some (.platform []), list⟩, .ok none) := readline_nil _ _ _
      exact ⟨self, by rw [List.replicate_succ, Machine.run, hstep, Option.bind_some, hrun]; rfl⟩
    | cons line lines =>
      obtain ⟨rest, rfl, hfirst, hrest⟩ := isLines_cons.mp h
      rw [List.mem_append, not_or] at hnul
      obtain ⟨list', hline⟩ := readline_line signedChar fresh list hfirst
        (hshort line List.mem_cons_self) hnul.1
      obtain ⟨self, hrun⟩ :=
        ih hrest (fun l hl => hshort l (List.mem_cons_of_mem _ hl)) hnul.2 list'
      have hstep : (lineMachine signedChar fresh).step () ⟨some (.platform (line ++ rest)), list⟩ =
        some (⟨some (.platform rest), list'⟩, .ok (some line)) := hline
      exact ⟨self, by rw [List.replicate_succ, Machine.run, hstep, Option.bind_some, hrun]; rfl⟩

/-- Where no call is undefined, every line is shorter than 2^30. -/
theorem short_of_run (h : IsLines content lines) (hnul : 0 ∉ content) (list : Args)
    (hrun : ∀ n, ((lineMachine signedChar fresh).run ⟨some (.platform content), list⟩
      (List.replicate n ())).isSome) : ∀ line ∈ lines, line.length < 2 ^ 30 := by
  induction lines generalizing content list with
  | nil => exact fun _ hmem => absurd hmem List.not_mem_nil
  | cons line lines ih =>
    obtain ⟨rest, rfl, hfirst, hrest⟩ := isLines_cons.mp h
    rw [List.mem_append, not_or] at hnul
    have hshort : line.length < 2 ^ 30 := by
      by_contra hlong
      have hstep : (lineMachine signedChar fresh).step ()
        ⟨some (.platform (line ++ rest)), list⟩ = none :=
        readline_long _ _ _ hfirst (not_lt.mp hlong)
      have hone := hrun 1
      rw [List.replicate_one, Machine.run, hstep] at hone
      cases hone
    obtain ⟨list', hline⟩ := readline_line signedChar fresh list hfirst hshort hnul.1
    have hstep : (lineMachine signedChar fresh).step () ⟨some (.platform (line ++ rest)), list⟩ =
      some (⟨some (.platform rest), list'⟩, .ok (some line)) := hline
    have hlater := ih hrest hnul.2 list' fun n => by
      have hnext := hrun (n + 1)
      rw [List.replicate_succ, Machine.run, hstep, Option.bind_some, Option.isSome_map] at hnext
      exact hnext
    intro l hl
    rcases List.mem_cons.mp hl with rfl | hl
    · exact hshort
    · exact hlater l hl

/-! ### The list of the lines -/

/-- What has been appended is found in the list. -/
structure Stored (signedChar : Bool) (list : PikaList) (texts : List CString) : Prop where
  top : ∃ a, Args.getArg signedChar list PikaList.top = some a ∧
    a.Has (PikaList.topSlot signedChar texts.length).2
  item : ∀ (i : Nat) text, texts[i]? = some text →
    ∃ a, list.get signedChar i = some a ∧ a.Has ⟨.string, text ++ [0]⟩

theorem stored_init : Stored signedChar (PikaList.init signedChar) [] where
  top := by
    have hinit : PikaList.Represents signedChar (PikaList.init signedChar) [] :=
      PikaList.represents_init
    exact hinit.lookup
  item i text htext := by cases htext

theorem Stored.items (h : Stored signedChar list texts) (hsize : texts.length < 2 ^ 31)
    (hnul : ∀ text ∈ texts, 0 ∉ text) : Items signedChar list texts where
  size := by
    obtain ⟨a, hget, ha⟩ := h.top
    exact PikaList.getSize_of_getArg hget ha hsize
  item i text htext := by
    obtain ⟨a, hget, htype, hcontent⟩ := h.item i text htext
    exact ⟨a, hget, htype, Arg.getStr_eq hcontent (hnul text (List.mem_of_getElem? htext))⟩

/-- **A line that is appended is found, and those before it still are**, unless it has the name
of another one. -/
theorem Stored.append (h : Stored signedChar list texts)
    (hlisted : Listed signedChar (texts ++ line :: lines)) :
    ∃ list', listAppend signedChar list (Arg.create 5381 .string (line ++ [0])) = some list' ∧
      Stored signedChar list' (texts ++ [line]) := by
  have hin : texts.length < (texts ++ line :: lines).length := by
    rw [List.length_append, List.length_cons]
    omega
  obtain ⟨a, htop, ha⟩ := h.top
  have hsize := PikaList.getSize_of_getArg htop ha (hin.trans hlisted.size)
  let arg := (Arg.create 5381 .string (line ++ [0])).copy.setNameHash
    (PikaList.indexHash signedChar texts.length)
  have harg : arg.Has ⟨.string, line ++ [0]⟩ :=
    Arg.has_setNameHash _ (Arg.has_copy ⟨rfl, List.prefix_refl _⟩)
  obtain ⟨b, hset, hb⟩ := Args.exists_getArgHash_setArg list harg
  have htop' : Args.getArg signedChar (Args.setArg list arg) PikaList.top = some a :=
    (Args.getArgHash_setArg_of_ne (hlisted.top _ hin).symm).trans htop
  obtain ⟨f, hf, hsetTop⟩ := PikaList.exists_setTop htop' ha (texts.length + 1)
  obtain ⟨list', hup⟩ := Option.isSome_iff_exists.mp (KeyedList.update_isSome.mpr
    (KeyedList.lookup_isSome.mp (Option.isSome_of_eq_some htop')))
  refine ⟨list', ?_, ⟨f a, ?_, ?_⟩, fun i text htext => ?_⟩
  · rw [listAppend, PikaList.append, hsize]
    simp only [Option.bind_eq_bind, Option.bind_some]
    rw [← Nat.cast_succ, hsetTop, hup]
    rfl
  · exact KeyedList.lookup_update htop' (hf a).1 hup
  · rw [List.length_append, List.length_singleton]
    exact (hf a).2
  · have hi : i < texts.length + 1 := by
      have hi := (List.getElem?_eq_some_iff.mp htext).1
      rwa [List.length_append, List.length_singleton] at hi
    have hline : (texts ++ line :: lines)[i]? = some text := by
      rw [← List.singleton_append, ← List.append_assoc]
      exact (List.getElem?_append_left (by simpa using hi)).trans htext
    have hget : PikaList.get signedChar list' i = Args.getArgHash (Args.setArg list arg)
        (PikaList.indexHash signedChar i) :=
      KeyedList.lookup_update_ne (hlisted.top i (by omega)) (fun b _ => (hf b).1) hup
    by_cases hname : PikaList.indexHash signedChar i = PikaList.indexHash signedChar texts.length
    · have hsame := hlisted.index i texts.length (by omega) hin hname
      rw [hline, List.getElem?_append_right (Nat.le_refl _), Nat.sub_self] at hsame
      obtain rfl : text = line := by simpa using hsame
      exact ⟨b, hget.trans ((congrArg (Args.getArgHash _) hname).trans hset), hb⟩
    · have hlt : i < texts.length := by
        rcases Nat.lt_succ_iff_lt_or_eq.mp hi with hi | rfl
        · exact hi
        · exact absurd rfl hname
      rw [List.getElem?_append_left hlt] at htext
      obtain ⟨d, hold, hd⟩ := h.item i text htext
      exact ⟨d, hget.trans ((Args.getArgHash_setArg_of_ne hname).trans hold), hd⟩

/-- **`readlines` appends the lines.** -/
theorem readlinesLoop_stored (signedChar : Bool) (fresh : Nat → Nat → BitVec 8)
    {list : PikaList} (h : IsLines content lines)
    (hshort : ∀ line ∈ lines, line.length < 2 ^ 30) (hnul : 0 ∉ content)
    (hlisted : Listed signedChar (texts ++ lines)) (hstored : Stored signedChar list texts)
    (attrs : Args) :
    ∃ self list', readlinesLoop signedChar fresh (lines.length + 1)
        ⟨some (.platform content), attrs⟩ list = some (self, list') ∧
      Stored signedChar list' (texts ++ lines) := by
  induction lines generalizing content texts list attrs with
  | nil =>
    obtain rfl := isLines_nil.mp h
    refine ⟨⟨some (.platform []), attrs⟩, list, ?_, by rwa [List.append_nil]⟩
    rw [readlinesLoop, readline_nil]
    rfl
  | cons line lines ih =>
    obtain ⟨rest, rfl, hfirst, hrest⟩ := isLines_cons.mp h
    rw [List.mem_append, not_or] at hnul
    obtain ⟨attrs', hline⟩ := readline_line signedChar fresh attrs hfirst
      (hshort line List.mem_cons_self) hnul.1
    obtain ⟨list₁, happend, h₁⟩ := hstored.append hlisted
    have hsplit : texts ++ line :: lines = texts ++ [line] ++ lines := by
      rw [List.append_assoc, List.singleton_append]
    obtain ⟨self, list', hloop, h'⟩ := ih hrest
      (fun l hl => hshort l (List.mem_cons_of_mem _ hl)) hnul.2 (hsplit ▸ hlisted) h₁ attrs'
    refine ⟨self, list', ?_, hsplit ▸ h'⟩
    rw [List.length_cons, readlinesLoop, hline]
    simp only [Option.bind_eq_bind, Option.bind_some, happend]
    exact hloop

/-- Only lines that have a list are its items. -/
theorem listed_of_items (h : Items signedChar list texts) : Listed signedChar texts := by
  have hfound : ∀ i : Nat, i < texts.length → ∃ arg,
      Args.getArgHash list (PikaList.indexHash signedChar i) = some arg ∧ arg.type = .string ∧
        texts[i]? = some arg.getStr := fun i hi => by
    obtain ⟨arg, hget, htype, hstr⟩ := h.item i texts[i] (List.getElem?_eq_getElem hi)
    exact ⟨arg, hget, htype, by rw [hstr, List.getElem?_eq_getElem hi]⟩
  obtain ⟨top, htop, hsize⟩ := Option.bind_eq_some_iff.mp h.size
  by_cases hcount : top.type = .int ∧ 0 ≤ top.getInt.toInt
  · rw [if_pos hcount] at hsize
    have hlt := (top.getInt.setWidth 32).toInt_lt
    rw [Option.some.inj hsize] at hlt
    refine ⟨by exact_mod_cast hlt, fun i hi heq => ?_, fun i j hi hj heq => ?_⟩
    · obtain ⟨arg, hget, htype, -⟩ := hfound i hi
      rw [heq] at hget
      obtain rfl := Option.some.inj (htop.symm.trans hget)
      cases hcount.1.symm.trans htype
    · obtain ⟨arg, hget, -, hi⟩ := hfound i hi
      obtain ⟨arg', hget', -, hj⟩ := hfound j hj
      rw [heq] at hget
      obtain rfl := Option.some.inj (hget.symm.trans hget')
      rw [hi, hj]
  · rw [if_neg hcount] at hsize
    cases hsize

end

/-- **The lines of a file are read if and only if `ReadsWhen` holds.** -/
theorem readsLines_iff (signedChar : Bool) (fresh : Nat → Nat → BitVec 8) (list : Args)
    (text : TextFile) : ReadsLines signedChar fresh list text ↔ ReadsWhen signedChar text.file := by
  obtain ⟨file, hnul⟩ := text
  constructor
  · intro h
    have hrun : ∀ n, ((lineMachine signedChar fresh).run ⟨some file, list⟩
        (List.replicate n ())).isSome := fun n => by
      obtain ⟨self, results, hrun, -⟩ := h.calls n
      exact Option.isSome_of_eq_some hrun
    obtain ⟨rounds, self, lineList, texts, -, hitems, hlaw⟩ := h.items
    have hlines := isLines_of_lineLaw hlaw
    cases file with
    | platform rest =>
      exact ⟨⟨rest, rfl⟩, texts, hlines, short_of_run hlines hnul list hrun,
        listed_of_items hitems⟩
    | packed file => cases hrun 1
  · rintro ⟨⟨rest, rfl⟩, lines, hlines, hshort, hlisted⟩
    refine ⟨fun n => ?_, ?_⟩
    · obtain ⟨self, hrun⟩ := run_answers hlines hshort hnul n list
      exact ⟨self, answers lines n, hrun, lineLaw_answers hlines n⟩
    · have hnone : Listed signedChar ([] ++ lines) := hlisted
      obtain ⟨self, lineList, hloop, hstored⟩ :=
        readlinesLoop_stored signedChar fresh hlines hshort hnul hnone stored_init list
      refine ⟨lines.length + 1, self, lineList, lines, ?_, hstored.items hlisted.size ?_, ?_⟩
      · exact congrArg (Option.map fun r => (r.1, Except.ok r.2)) hloop
      · intro line hline hzero
        rw [← hlines.flatten_eq] at hnul
        exact hnul (List.mem_flatten_of_mem hline hzero)
      · rw [← answers_length]
        exact lineLaw_answers hlines _

/-- A file of the library is taken for a `FILE`. -/
theorem not_readsLines : ¬ReadsLines true (fun _ _ => 0) []
    ⟨.packed ⟨[0x61], 0, 1, 0, by decide, by decide⟩, by decide⟩ := by
  intro h
  obtain ⟨self, results, hrun, -⟩ := h.calls 1
  have hnone : (lineMachine true fun _ _ => 0).run
      ⟨some (.packed ⟨[0x61], 0, 1, 0, by decide, by decide⟩), []⟩ [()] = none := rfl
  cases hnone.symm.trans hrun

end FileIo

end PikaScript
