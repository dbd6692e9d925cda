import PikaScript.Bytecode.Asm
import PikaScript.Data.Utf8
import PikaScript.Text.Preprocess
import PikaScript.VM.Literal
import PikaScript.VM.Repeat

/-! Quoted literals, from the parser to their values.

The parser takes the quotes off and, of a `str`, replaces the escaped quotes. What is left is an
operand in the pool, and the `STR` and `BYT` instructs decode the other escapes of it: of one they
do not know the backslash alone comes out.

`quoted_iff`: this, the bytes of a `str` that are no text, and the sizes on the way are all that
goes wrong. -/
namespace PikaScript
open Memory Preprocess

namespace Quoted

/-! ### The code -/

def backslash : BitVec 8 := 0x5c

/-- The `x` of a hexadecimal escape. -/
def letterX : BitVec 8 := 0x78

/-- The `switch` of `strsTransfer`. -/
def transferChar (c : BitVec 8) : BitVec 8 :=
  if c = 0x72 then 0x0d
  else if c = 0x6e then 0x0a
  else if c = 0x74 then 0x09
  else if c = 0x62 then 0x08
  else if c = 0x5c then 0x5c
  else if c = 0x27 then 0x27
  else if c = 0x22 then 0x22
  else if c = 0x3f then 0x3f
  else 0x5c

/-- The character of `hex_str`. -/
def hexChar (a b : BitVec 8) : BitVec 8 := .ofInt 8 (strtoll [0x30, 0x78, a, b] 0)

/-- The loop of `strsTransfer`. None when it reads behind the NUL of its text. -/
def transfer : CString → Option Bytes
  | [] => some []
  -- behind a backslash at the end is the NUL, which is no escape
  | [c] => some [c]
  | c :: d :: rest =>
    if c ≠ backslash then (transfer (d :: rest)).map (c :: ·)
    else if d ≠ letterX then (transfer rest).map (transferChar d :: ·)
    else
      match rest with
      | [] => none
      | [a] => some [hexChar a 0]
      | a :: b :: rest => (transfer rest).map (hexChar a b :: ·)

/-- `strsTransfer`: its buffer and `iout_p`. -/
def strsTransfer (str : CString) : Option (Bytes × Nat) := do
  let out ← transfer str
  return (← store (argsGetBuff (s32 str.length)) 0 out, out.length)

/-- The branch of `AST_parseStmt` for a string or bytes statement. None when `strsReplace` writes
outside, or gives NULL. -/
def parseString (sRight : CString) (bytes : Bool) : Option CString := do
  let firstChar := sRight.headD 0
  let sStr := (sRight.drop (if bytes then 2 else 1)).dropLast
  if backslash ∈ sStr then
    if firstChar = 0x27 then ← Replace.strsReplace sStr [backslash, 0x27] [0x27]
    else if firstChar = 0x22 then ← Replace.strsReplace sStr [backslash, 0x22] [0x22]
    else some sStr
  else some sStr

/-- `constPool_getByOffset`: NULL for the start of a pool without memory. -/
def getByOffset (self : ConstPool) (offset : Nat) : Option (Option CString) :=
  match self.argBuff with
  | none => if offset = 0 then some none else none
  | some mem => (loadString mem offset).map some

/-- `VM_instruction_handler_STR`: the text of its value. -/
def vmStr (data : Option CString) : Option Bytes :=
  match data with
  | none => some []
  | some data =>
    if backslash ∈ data then do
      let (transfered, _) ← strsTransfer data
      untilZero transfered
    else some data

/-- `VM_instruction_handler_BYT`: the bytes of its value. -/
def vmByt (data : Option CString) : Option Bytes := do
  let data ← data
  if backslash ∈ data then
    let (transfered, iOut) ← strsTransfer data
    loadBytes transfered 0 iOut
  else some data

/-! ### Literals -/

/-- A literal from one quote to the next one without a backslash in front: every backslash stands
in front of a character that belongs to it. -/
def closed (quote : BitVec 8) : CString → Bool
  | [] => true
  | [c] => c != quote && c != backslash
  | c :: d :: rest =>
    if c = backslash then closed quote rest else c != quote && closed quote (d :: rest)

/-- A quoted literal on a line. -/
structure Literal where
  bytes : Bool
  quote : BitVec 8
  content : CString
  isQuote : quote = 0x27 ∨ quote = 0x22
  isClosed : closed quote content = true
  noNul : 0 ∉ content
  noNewline : charNewline ∉ content
  noReturn : charReturn ∉ content

def Literal.text (lit : Literal) : CString :=
  (if lit.bytes then [0x62] else []) ++ lit.quote :: (lit.content ++ [lit.quote])

/-- Where a literal stands: the frame so far, with a pool that is addressed by sixteen bits, and
the depths. -/
structure Site where
  entries : List CString
  instructArray : List InstructUnit
  asmer : Asmer
  invokeDeepth : Nat
  isEntries : ConstPool.IsEntries entries
  addressed : (StringTable.layout entries).length < 65535
  isInt : invokeDeepth < 2 ^ 31

def Site.frame (site : Site) : ByteCodeFrame := ⟨.ofEntries site.entries, site.instructArray⟩

/-- The operand that an instruct finds in the pool behind its line. -/
def fetch (site : Site) (instruct : InstructIndex) (sStr : CString) : Option (Option CString) := do
  let line := AsmLine.ins site.invokeDeepth instruct sStr
  let (frame, _) ← site.frame.appendLine site.asmer line.text
  let unit ← frame.instructArray.getLast?
  getByOffset frame.constPool unit.getConstPoolIndex

/-- What a literal comes to: parsed, assembled, and run. -/
def value (site : Site) (lit : Literal) : Option Bytes := do
  let sStr ← parseString lit.text lit.bytes
  if lit.bytes then vmByt (← fetch site .BYT sStr) else vmStr (← fetch site .STR sStr)

/-! ### What they mean -/

/-- The escapes of one letter. -/
def meanings : List (BitVec 8 × BitVec 8) :=
  [(0x6e, 0x0a), (0x74, 0x09), (0x72, 0x0d), (0x62, 0x08), (0x5c, 0x5c), (0x27, 0x27),
    (0x22, 0x22)]

def meaning (c : BitVec 8) : Option (BitVec 8) := meanings.lookup c

/-- The number of a hexadecimal escape: a byte of a `bytes`, and a character of a `str`. -/
def hexText (bytes : Bool) (n : Nat) : Bytes :=
  if bytes then [.ofNat 8 n] else encodeChar (Char.ofNat n)

/-- Python's value: every escape is decoded once, and one that has no meaning stays as it is. -/
def decoded (bytes : Bool) : CString → Bytes
  | [] => []
  | [c] => [c]
  | c :: d :: rest =>
    if c ≠ backslash then c :: decoded bytes (d :: rest)
    else if d ≠ letterX then
      match meaning d with
      | some m => m :: decoded bytes rest
      | none => c :: d :: decoded bytes rest
    else
      match rest with
      | [] => [c, d]
      | [a] => [c, d, a]
      | a :: b :: rest =>
        if isDigit 16 a && isDigit 16 b then
          hexText bytes (textValue 16 [a, b]) ++ decoded bytes rest
        else c :: d :: decoded bytes (a :: b :: rest)

/-- A literal has Python's value. -/
def QuotedLaw (site : Site) (lit : Literal) : Prop :=
  value site lit = some (decoded lit.bytes lit.content)

/-- Every escape has a meaning, and those of a `str` say ASCII characters other than NUL. -/
def known (bytes : Bool) : CString → Bool
  | [] | [_] => true
  | c :: d :: rest =>
    if c ≠ backslash then known bytes (d :: rest)
    else if d ≠ letterX then (meaning d).isSome && known bytes rest
    else
      match rest with
      | [] | [_] => false
      | a :: b :: rest =>
        isDigit 16 a && isDigit 16 b &&
          (bytes || (0 < textValue 16 [a, b] && textValue 16 [a, b] < 128)) && known bytes rest

/-- The operand of a literal. -/
def Literal.operand (lit : Literal) : CString :=
  if lit.bytes then lit.content else squeeze backslash lit.quote lit.content

/-- The escapes are known, and there is room on the way. -/
structure QuotedWhen (site : Site) (lit : Literal) : Prop where
  shallow : site.invokeDeepth < 100
  escapes : known lit.bytes lit.content = true
  short : lit.operand.length < 65535
  pool : lit.bytes = true → lit.content = [] → site.entries ≠ [[]]

/-! ### Texts by their escapes -/

/-- Two digits of a hexadecimal escape stand in front. -/
def startsHex : CString → Bool
  | a :: b :: _ => isDigit 16 a && isDigit 16 b
  | _ => false

/-- A text is made of characters and escapes. -/
inductive Escaped : CString → Prop
  | nil : Escaped []
  | lone : Escaped [backslash]
  | plain {c : BitVec 8} {rest : CString} (hc : c ≠ backslash) (hrest : Escaped rest) :
      Escaped (c :: rest)
  | letter {d m : BitVec 8} {rest : CString} (hd : d ≠ letterX) (hm : meaning d = some m)
      (hrest : Escaped rest) : Escaped (backslash :: d :: rest)
  | unknown {d : BitVec 8} {rest : CString} (hd : d ≠ letterX) (hm : meaning d = none)
      (hrest : Escaped rest) : Escaped (backslash :: d :: rest)
  | hex {a b : BitVec 8} {rest : CString} (ha : isDigit 16 a = true) (hb : isDigit 16 b = true)
      (hrest : Escaped rest) : Escaped (backslash :: letterX :: a :: b :: rest)
  | malformed {rest : CString} (hstarts : startsHex rest = false) (hrest : Escaped rest) :
      Escaped (backslash :: letterX :: rest)

theorem escaped (s : CString) : Escaped s := by
  induction hn : s.length using Nat.strong_induction_on generalizing s with
  | _ n ih =>
    subst hn
    match s with
    | [] => exact .nil
    | c :: rest =>
      by_cases hc : c = backslash
      · subst hc
        match rest with
        | [] => exact .lone
        | d :: rest =>
          have hrest := ih rest.length (by simp only [List.length_cons]; omega) rest rfl
          by_cases hd : d = letterX
          · subst hd
            match rest, hrest with
            | [], hrest | [_], hrest => exact .malformed rfl hrest
            | a :: b :: rest, hrest =>
              cases hstarts : startsHex (a :: b :: rest) with
              | false => exact .malformed hstarts hrest
              | true =>
                obtain ⟨ha, hb⟩ := Bool.and_eq_true_iff.mp hstarts
                exact .hex ha hb (ih rest.length (by simp only [List.length_cons]; omega) rest rfl)
          · cases hm : meaning d with
            | none => exact .unknown hd hm hrest
            | some m => exact .letter hd hm hrest
      · exact .plain hc (ih rest.length (Nat.lt_succ_self _) rest rfl)

section
variable {bytes : Bool} {c d m a b : BitVec 8} {rest : CString}

theorem decoded_plain (hc : c ≠ backslash) :
    decoded bytes (c :: rest) = c :: decoded bytes rest := by
  cases rest with
  | nil => rfl
  | cons d rest =>
    rw [decoded.eq_def]
    dsimp only
    rw [if_pos hc]

theorem decoded_letter (hd : d ≠ letterX) (hm : meaning d = some m) :
    decoded bytes (backslash :: d :: rest) = m :: decoded bytes rest := by
  rw [decoded.eq_def]
  dsimp only
  rw [if_neg (not_not_intro rfl), if_pos hd, hm]

theorem decoded_unknown (hd : d ≠ letterX) (hm : meaning d = none) :
    decoded bytes (backslash :: d :: rest) = backslash :: d :: decoded bytes rest := by
  rw [decoded.eq_def]
  dsimp only
  rw [if_neg (not_not_intro rfl), if_pos hd, hm]

theorem decoded_hex (ha : isDigit 16 a = true) (hb : isDigit 16 b = true) :
    decoded bytes (backslash :: letterX :: a :: b :: rest) =
      hexText bytes (textValue 16 [a, b]) ++ decoded bytes rest := by
  rw [decoded.eq_def]
  dsimp only
  rw [if_neg (not_not_intro rfl), if_neg (not_not_intro rfl)]
  exact if_pos (by rw [ha, hb]; rfl)

theorem decoded_malformed (hstarts : startsHex rest = false) :
    decoded bytes (backslash :: letterX :: rest) = backslash :: letterX :: decoded bytes rest := by
  rw [decoded.eq_def]
  dsimp only
  rw [if_neg (not_not_intro rfl), if_neg (not_not_intro rfl)]
  match rest with
  | [] | [_] => rfl
  | a :: b :: rest => exact if_neg (Bool.eq_false_iff.mp hstarts)

theorem known_plain (hc : c ≠ backslash) : known bytes (c :: rest) = known bytes rest := by
  cases rest with
  | nil => rfl
  | cons d rest =>
    rw [known.eq_def]
    dsimp only
    rw [if_pos hc]

theorem known_letter (hd : d ≠ letterX) :
    known bytes (backslash :: d :: rest) = ((meaning d).isSome && known bytes rest) := by
  rw [known.eq_def]
  dsimp only
  rw [if_neg (not_not_intro rfl), if_pos hd]

theorem known_hex (ha : isDigit 16 a = true) (hb : isDigit 16 b = true) :
    known bytes (backslash :: letterX :: a :: b :: rest) =
      ((bytes || (0 < textValue 16 [a, b] && textValue 16 [a, b] < 128)) &&
        known bytes rest) := by
  rw [known.eq_def]
  dsimp only
  rw [if_neg (not_not_intro rfl), if_neg (not_not_intro rfl), ha, hb]
  rfl

theorem known_malformed (hstarts : startsHex rest = false) :
    known bytes (backslash :: letterX :: rest) = false := by
  rw [known.eq_def]
  dsimp only
  rw [if_neg (not_not_intro rfl), if_neg (not_not_intro rfl)]
  match rest with
  | [] | [_] => rfl
  | a :: b :: rest =>
    have hstarts' : (isDigit 16 a && isDigit 16 b) = false := hstarts
    dsimp only
    rw [hstarts']
    rfl

theorem transfer_plain (hc : c ≠ backslash) :
    transfer (c :: rest) = (transfer rest).map (c :: ·) := by
  cases rest with
  | nil => rfl
  | cons d rest =>
    rw [transfer.eq_def]
    dsimp only
    rw [if_pos hc]

theorem transfer_letter (hd : d ≠ letterX) :
    transfer (backslash :: d :: rest) = (transfer rest).map (transferChar d :: ·) := by
  rw [transfer.eq_def]
  dsimp only
  rw [if_neg (not_not_intro rfl), if_pos hd]

theorem transfer_hex : transfer (backslash :: letterX :: a :: b :: rest) =
    (transfer rest).map (hexChar a b :: ·) := by
  rw [transfer.eq_def]
  dsimp only
  rw [if_neg (not_not_intro rfl), if_neg (not_not_intro rfl)]

end

/-! ### Characters -/

theorem mem_meanings {d m : BitVec 8} (h : meaning d = some m) : (d, m) ∈ meanings := by
  obtain ⟨front, back, heq, -⟩ := List.lookup_eq_some_iff.mp h
  rw [heq]
  exact List.mem_append_right _ List.mem_cons_self

theorem transferChar_of_meaning {d m : BitVec 8} (h : meaning d = some m) :
    transferChar d = m := by
  have hall : meanings.all (fun p => transferChar p.1 == p.2) = true := by decide
  exact beq_iff_eq.mp (List.all_eq_true.mp hall (d, m) (mem_meanings h))

theorem ne_of_digit {c : BitVec 8} (h : isDigit 16 c = true) :
    c ≠ backslash ∧ c ≠ 0x27 ∧ c ≠ 0x22 := by
  refine ⟨?_, ?_, ?_⟩ <;> rintro rfl <;> exact absurd h (by decide)

theorem digitValue_lt {c : BitVec 8} (h : isDigit 16 c = true) : (digitValue c).getD 0 < 16 := by
  cases hvalue : digitValue c with
  | none =>
    rw [isDigit, hvalue] at h
    cases h
  | some v =>
    rw [isDigit, hvalue, Option.any_some, decide_eq_true_eq] at h
    exact h

theorem textValue_pair (a b : BitVec 8) :
    textValue 16 [a, b] = (digitValue a).getD 0 * 16 + (digitValue b).getD 0 := by
  simp [textValue]

theorem textValue_lt {a b : BitVec 8} (ha : isDigit 16 a = true) (hb : isDigit 16 b = true) :
    textValue 16 [a, b] < 256 := by
  have ha' := digitValue_lt ha
  have hb' := digitValue_lt hb
  rw [textValue_pair]
  omega

theorem hexChar_eq {a b : BitVec 8} (ha : isDigit 16 a = true) (hb : isDigit 16 b = true) :
    hexChar a b = .ofNat 8 (textValue 16 [a, b]) := by
  have hlt := textValue_lt ha hb
  have hmin : min (textValue 16 [a, b] : Int) (2 ^ 63 - 1) = textValue 16 [a, b] := by omega
  have hstrtoll : strtoll [0x30, 0x78, a, b] 0 = min (textValue 16 [a, b] : Int) (2 ^ 63 - 1) :=
    strtoll_hex (.inl rfl) (by simp [ha, hb])
  rw [hexChar, hstrtoll, hmin, BitVec.ofInt_natCast]

/-- What is not written by two digits is less than sixteen. -/
theorem hexChar_ne {a b : BitVec 8} (h : (isDigit 16 a && isDigit 16 b) = false) :
    hexChar a b ≠ backslash := by
  have hlt : textValue 16 ([a, b].takeWhile (isDigit 16)) < 16 := by
    cases ha : isDigit 16 a with
    | false => simp [ha, textValue]
    | true =>
      rw [ha, Bool.true_and] at h
      have hvalue := digitValue_lt ha
      simpa [ha, h, textValue] using hvalue
  have hmin : min (textValue 16 ([a, b].takeWhile (isDigit 16)) : Int) (2 ^ 63 - 1) =
      (textValue 16 ([a, b].takeWhile (isDigit 16)) : Nat) := by omega
  have hchar : hexChar a b = .ofNat 8 (textValue 16 ([a, b].takeWhile (isDigit 16))) := by
    rw [← BitVec.ofInt_natCast, ← hmin]
    simp [hexChar, strtoll]
  rw [hchar]
  intro heq
  have hnat := congrArg BitVec.toNat heq
  rw [BitVec.toNat_ofNat, backslash] at hnat
  simp at hnat
  omega

theorem toNat_char {n : Nat} (h : n < 256) : (Char.ofNat n).toNat = n := by
  rw [Char.ofNat, dif_pos (.inl (by omega))]
  rfl

theorem hexText_of_ascii {n : Nat} (h : n < 128) (bytes : Bool) :
    hexText bytes n = [.ofNat 8 n] := by
  cases bytes with
  | false =>
    have hchar := encodeChar_eq (Char.ofNat n)
    rwa [toNat_char (by omega), if_pos h] at hchar
  | true => rfl

theorem length_hexText_of_le {n : Nat} (h : 128 ≤ n) (hlt : n < 256) :
    (hexText false n).length = 2 := by
  have hchar := encodeChar_eq (Char.ofNat n)
  rw [toNat_char hlt, if_neg (by omega), if_pos (by omega)] at hchar
  exact congrArg List.length hchar

theorem length_hexText_le {a b : BitVec 8} (ha : isDigit 16 a = true) (hb : isDigit 16 b = true)
    (bytes : Bool) : (hexText bytes (textValue 16 [a, b])).length ≤ 2 := by
  have hlt := textValue_lt ha hb
  rcases Nat.lt_or_ge (textValue 16 [a, b]) 128 with hascii | hle
  · rw [hexText_of_ascii hascii]
    exact Nat.le_succ 1
  · cases bytes with
    | false => exact (length_hexText_of_le hle hlt).le
    | true => exact Nat.le_succ 1

theorem length_hexText_pos (bytes : Bool) (n : Nat) : 1 ≤ (hexText bytes n).length := by
  cases bytes with
  | false => exact length_encodeChar_pos _
  | true => exact le_rfl

/-! ### Lengths -/

/-- What a backslash in front does to the length of a value. -/
theorem length_decoded_backslash (bytes : Bool) (s : CString) :
    (decoded bytes s).length ≤ (decoded bytes (backslash :: s)).length + 2 ∧
      (decoded bytes (backslash :: s)).length ≤ (decoded bytes s).length + 3 := by
  induction s with
  | nil => exact ⟨Nat.zero_le _, (by decide : 1 ≤ 3)⟩
  | cons c rest ih =>
    by_cases hx : c = letterX
    · subst hx
      rw [@decoded_plain bytes letterX rest (by decide)]
      cases hstarts : startsHex rest with
      | false =>
        rw [decoded_malformed hstarts]
        simp only [List.length_cons]
        omega
      | true =>
        match rest, hstarts with
        | a :: b :: rest, hstarts =>
          obtain ⟨ha, hb⟩ := Bool.and_eq_true_iff.mp hstarts
          have hpos := length_hexText_pos bytes (textValue 16 [a, b])
          have hle := length_hexText_le ha hb bytes
          rw [decoded_hex ha hb, decoded_plain (ne_of_digit ha).1, decoded_plain (ne_of_digit hb).1]
          simp only [List.length_append, List.length_cons]
          omega
    · cases hm : meaning c with
      | none =>
        have hc : c ≠ backslash := fun heq => by
          rw [heq] at hm
          cases hm
        rw [decoded_unknown hx hm, decoded_plain hc]
        simp only [List.length_cons]
        omega
      | some m =>
        rw [decoded_letter hx hm]
        by_cases hc : c = backslash
        · subst hc
          obtain ⟨hle, hge⟩ := ih
          simp only [List.length_cons]
          omega
        · rw [decoded_plain hc]
          simp only [List.length_cons]
          omega

/-- The two characters that stand in the place of digits do not make a value shorter by more than
one. -/
theorem length_decoded_behind (bytes : Bool) (a b : BitVec 8) (s : CString) :
    (decoded bytes s).length ≤ (decoded bytes (a :: b :: s)).length + 1 := by
  by_cases ha : a = backslash
  · subst ha
    by_cases hx : b = letterX
    · subst hx
      cases hstarts : startsHex s with
      | false =>
        rw [decoded_malformed hstarts]
        simp only [List.length_cons]
        omega
      | true =>
        match s, hstarts with
        | c :: d :: s, hstarts =>
          obtain ⟨hc, hd⟩ := Bool.and_eq_true_iff.mp hstarts
          have hpos := length_hexText_pos bytes (textValue 16 [c, d])
          rw [decoded_hex hc hd, decoded_plain (ne_of_digit hc).1, decoded_plain (ne_of_digit hd).1]
          simp only [List.length_append, List.length_cons]
          omega
    · cases hm : meaning b with
      | none =>
        rw [decoded_unknown hx hm]
        simp only [List.length_cons]
        omega
      | some m =>
        rw [decoded_letter hx hm, List.length_cons]
        omega
  · rw [decoded_plain ha, List.length_cons]
    by_cases hb : b = backslash
    · subst hb
      have hle := (length_decoded_backslash bytes s).1
      omega
    · rw [decoded_plain hb, List.length_cons]
      omega

/-- **What comes out is not longer than the value.** -/
theorem length_transfer_le {s : CString} {out : Bytes} (bytes : Bool)
    (h : transfer s = some out) : out.length ≤ (decoded bytes s).length := by
  induction hn : s.length using Nat.strong_induction_on generalizing s out with
  | _ n ih =>
    subst hn
    cases escaped s with
    | nil =>
      cases h
      exact le_rfl
    | lone =>
      cases h
      exact le_rfl
    | @plain c rest hc =>
      rw [transfer_plain hc] at h
      obtain ⟨out, hout, rfl⟩ := Option.map_eq_some_iff.mp h
      have hle := ih rest.length (Nat.lt_succ_self _) hout rfl
      rw [decoded_plain hc, List.length_cons, List.length_cons]
      omega
    | @letter d m rest hd hm =>
      rw [transfer_letter hd] at h
      obtain ⟨out, hout, rfl⟩ := Option.map_eq_some_iff.mp h
      have hle := ih rest.length (by simp only [List.length_cons]; omega) hout rfl
      rw [decoded_letter hd hm, List.length_cons, List.length_cons]
      omega
    | @unknown d rest hd hm =>
      rw [transfer_letter hd] at h
      obtain ⟨out, hout, rfl⟩ := Option.map_eq_some_iff.mp h
      have hle := ih rest.length (by simp only [List.length_cons]; omega) hout rfl
      rw [decoded_unknown hd hm]
      simp only [List.length_cons]
      omega
    | @hex a b rest ha hb =>
      rw [transfer_hex] at h
      obtain ⟨out, hout, rfl⟩ := Option.map_eq_some_iff.mp h
      have hle := ih rest.length (by simp only [List.length_cons]; omega) hout rfl
      have hpos := length_hexText_pos bytes (textValue 16 [a, b])
      rw [decoded_hex ha hb, List.length_append, List.length_cons]
      omega
    | @malformed rest hstarts =>
      rw [decoded_malformed hstarts]
      match rest with
      | [] => cases h
      | [a] =>
        cases h
        exact Nat.succ_pos _
      | a :: b :: rest =>
        rw [transfer_hex] at h
        obtain ⟨out, hout, rfl⟩ := Option.map_eq_some_iff.mp h
        have hle := ih rest.length (by simp only [List.length_cons]; omega) hout rfl
        have hbehind := length_decoded_behind bytes a b rest
        simp only [List.length_cons]
        omega

/-! ### Decoding -/

/-- **Known escapes are decoded.** -/
theorem transfer_of_known {bytes : Bool} {s : CString} (h : known bytes s = true) :
    transfer s = some (decoded bytes s) := by
  induction escaped s with
  | nil => rfl
  | lone => rfl
  | plain hc _ ih =>
    rw [known_plain hc] at h
    rw [transfer_plain hc, decoded_plain hc, ih h]
    rfl
  | letter hd hm _ ih =>
    rw [known_letter hd, hm] at h
    rw [transfer_letter hd, decoded_letter hd hm, ih h, transferChar_of_meaning hm]
    rfl
  | unknown hd hm =>
    rw [known_letter hd, hm] at h
    cases h
  | @hex a b rest ha hb _ ih =>
    rw [known_hex ha hb, Bool.and_eq_true] at h
    have htext : hexText bytes (textValue 16 [a, b]) = [.ofNat 8 (textValue 16 [a, b])] := by
      cases bytes with
      | false =>
        have hascii := h.1
        simp only [Bool.false_or, Bool.and_eq_true, decide_eq_true_eq] at hascii
        exact hexText_of_ascii hascii.2 false
      | true => rfl
    rw [transfer_hex, decoded_hex ha hb, ih h.2, hexChar_eq ha hb, htext]
    rfl
  | malformed hstarts =>
    rw [known_malformed hstarts] at h
    cases h

/-- The value of a `str` with known escapes has no NUL. -/
theorem not_mem_decoded {s : CString} (h : known false s = true) (hs : 0 ∉ s) :
    0 ∉ decoded false s := by
  induction escaped s with
  | nil => exact hs
  | lone => exact hs
  | plain hc _ ih =>
    rw [known_plain hc] at h
    rw [decoded_plain hc, List.mem_cons, not_or]
    exact ⟨fun heq => hs (heq ▸ List.mem_cons_self),
      ih h fun hmem => hs (List.mem_cons_of_mem _ hmem)⟩
  | @letter d m rest hd hm _ ih =>
    rw [known_letter hd, hm] at h
    have hall : meanings.all (fun p => 0 != p.2) = true := by decide
    rw [decoded_letter hd hm, List.mem_cons, not_or]
    exact ⟨bne_iff_ne.mp (List.all_eq_true.mp hall (d, m) (mem_meanings hm)),
      ih h fun hmem => hs (List.mem_cons_of_mem _ (List.mem_cons_of_mem _ hmem))⟩
  | unknown hd hm =>
    rw [known_letter hd, hm] at h
    cases h
  | @hex a b rest ha hb _ ih =>
    rw [known_hex ha hb, Bool.false_or, Bool.and_eq_true] at h
    obtain ⟨hascii, hrest⟩ := h
    simp only [Bool.and_eq_true, decide_eq_true_eq] at hascii
    have hne : (0 : BitVec 8) ≠ .ofNat 8 (textValue 16 [a, b]) := by
      intro heq
      have hnat := congrArg BitVec.toNat heq
      rw [BitVec.toNat_ofNat] at hnat
      simp at hnat
      omega
    rw [decoded_hex ha hb, hexText_of_ascii hascii.2, List.singleton_append, List.mem_cons, not_or]
    exact ⟨hne, ih hrest fun hmem =>
      hs (List.mem_append_right [backslash, letterX, a, b] hmem)⟩
  | malformed hstarts =>
    rw [known_malformed hstarts] at h
    cases h

/-- **What is decoded right has known escapes**, if a `str` is not cut at a NUL. -/
theorem known_of_transfer {bytes : Bool} {s : CString} (h : transfer s = some (decoded bytes s))
    (hnul : bytes = true ∨ 0 ∉ decoded bytes s) : known bytes s = true := by
  induction escaped s with
  | nil => rfl
  | lone => rfl
  | @plain c rest hc _ ih =>
    rw [transfer_plain hc, decoded_plain hc] at h
    obtain ⟨out, hout, heq⟩ := Option.map_eq_some_iff.mp h
    obtain ⟨-, rfl⟩ := List.cons.inj heq
    rw [known_plain hc]
    rw [decoded_plain hc] at hnul
    exact ih hout (hnul.imp_right fun h hmem => h (List.mem_cons_of_mem _ hmem))
  | letter hd hm _ ih =>
    rw [transfer_letter hd, decoded_letter hd hm] at h
    obtain ⟨out, hout, heq⟩ := Option.map_eq_some_iff.mp h
    obtain ⟨-, rfl⟩ := List.cons.inj heq
    rw [known_letter hd, hm]
    rw [decoded_letter hd hm] at hnul
    exact ih hout (hnul.imp_right fun h hmem => h (List.mem_cons_of_mem _ hmem))
  | unknown hd hm =>
    rw [transfer_letter hd, decoded_unknown hd hm] at h
    obtain ⟨out, hout, heq⟩ := Option.map_eq_some_iff.mp h
    have hle := length_transfer_le bytes hout
    obtain ⟨-, rfl⟩ := List.cons.inj heq
    rw [List.length_cons] at hle
    omega
  | @hex a b rest ha hb _ ih =>
    rw [transfer_hex, decoded_hex ha hb] at h
    obtain ⟨out, hout, heq⟩ := Option.map_eq_some_iff.mp h
    have hle := length_transfer_le bytes hout
    rw [decoded_hex ha hb] at hnul
    rw [known_hex ha hb]
    cases bytes with
    | true =>
      obtain ⟨-, rfl⟩ := List.cons.inj heq
      exact ih hout (.inl rfl)
    | false =>
      have hnot := hnul.resolve_left Bool.false_ne_true
      have hascii : textValue 16 [a, b] < 128 := by
        by_contra hge
        have hlength := congrArg List.length heq
        rw [List.length_cons, List.length_append,
          length_hexText_of_le (not_lt.mp hge) (textValue_lt ha hb)] at hlength
        omega
      rw [hexText_of_ascii hascii, List.singleton_append] at heq hnot
      obtain ⟨-, rfl⟩ := List.cons.inj heq
      have hpos : 0 < textValue 16 [a, b] := by
        refine Nat.pos_of_ne_zero fun hzero => hnot ?_
        rw [hzero]
        exact List.mem_cons_self
      rw [ih hout (.inr fun hmem => hnot (List.mem_cons_of_mem _ hmem))]
      simp [hpos, hascii]
  | @malformed rest hstarts =>
    rw [decoded_malformed hstarts] at h
    match rest with
    | [] => cases h
    | [a] =>
      have hne : hexChar a 0 ≠ backslash := hexChar_ne (by simp [isDigit, digitValue])
      exact absurd (List.cons.inj (Option.some.inj h)).1 hne
    | a :: b :: rest =>
      rw [transfer_hex] at h
      obtain ⟨out, -, heq⟩ := Option.map_eq_some_iff.mp h
      exact absurd (List.cons.inj heq).1 (hexChar_ne hstarts)

/-! ### Escaped quotes -/

section
variable {q : BitVec 8} {s : CString}

theorem closed_cons {c : BitVec 8} (hc : c ≠ backslash) (h : closed q (c :: s) = true) :
    c ≠ q ∧ closed q s = true := by
  cases s with
  | nil =>
    rw [closed, Bool.and_eq_true] at h
    exact ⟨bne_iff_ne.mp h.1, rfl⟩
  | cons d s =>
    rw [closed, if_neg hc, Bool.and_eq_true] at h
    exact ⟨bne_iff_ne.mp h.1, h.2⟩

theorem closed_backslash {d : BitVec 8} (h : closed q (backslash :: d :: s) = true) :
    closed q s = true := by
  rwa [closed, if_pos rfl] at h

theorem closed_head (hq : q ≠ backslash) (h : closed q s = true) : s.head? ≠ some q := by
  cases s with
  | nil => exact nofun
  | cons c s =>
    intro heq
    obtain rfl := Option.some.inj heq
    exact (closed_cons hq h).1 rfl

theorem squeeze_cons {c : BitVec 8} (h : ¬(c = backslash ∧ s.head? = some q)) :
    squeeze backslash q (c :: s) = c :: squeeze backslash q s := by
  cases s with
  | nil => rfl
  | cons d s =>
    rw [squeeze, if_neg]
    rintro ⟨hc, rfl⟩
    exact h ⟨hc, rfl⟩

/-- An escape other than that of the quote stays. -/
theorem squeeze_escape {d : BitVec 8} (hq : q ≠ backslash) (hd : d ≠ q) (h : closed q s = true) :
    squeeze backslash q (backslash :: d :: s) = backslash :: d :: squeeze backslash q s := by
  have hfirst : ¬(backslash = backslash ∧ (d :: s).head? = some q) := fun hpair =>
    hd (Option.some.inj hpair.2)
  rw [squeeze_cons hfirst, squeeze_cons fun hpair => closed_head hq h hpair.2]

theorem squeeze_quote : squeeze backslash q (backslash :: q :: s) = q :: squeeze backslash q s := by
  rw [squeeze, if_pos ⟨rfl, rfl⟩]

/-- No digits come to stand behind an `x`. -/
theorem startsHex_squeeze (hdigit : isDigit 16 q = false) (h : startsHex s = false) :
    startsHex (squeeze backslash q s) = false := by
  match s with
  | [] | [_] => rfl
  | a :: b :: s =>
    by_cases hpair : a = backslash ∧ b = q
    · obtain ⟨rfl, rfl⟩ := hpair
      rw [squeeze_quote]
      cases squeeze backslash b s with
      | nil => rfl
      | cons c s => exact Bool.and_eq_false_iff.mpr (.inl hdigit)
    · have hfirst : ¬(a = backslash ∧ (b :: s).head? = some q) := fun hhead =>
        hpair ⟨hhead.1, Option.some.inj hhead.2⟩
      rw [squeeze_cons hfirst]
      by_cases hnext : b = backslash ∧ s.head? = some q
      · obtain ⟨rfl, hhead⟩ := hnext
        obtain ⟨s, rfl⟩ := List.head?_eq_some_iff.mp hhead
        rw [squeeze_quote]
        exact Bool.and_eq_false_iff.mpr (.inr hdigit)
      · rw [squeeze_cons hnext]
        exact h

/-- **Taking the backslashes off the escaped quotes of a literal keeps its value**, and whether
its escapes are known. -/
theorem decoded_squeeze (bytes : Bool) (hq : q = 0x27 ∨ q = 0x22) (h : closed q s = true) :
    decoded bytes (squeeze backslash q s) = decoded bytes s ∧
      known bytes (squeeze backslash q s) = known bytes s := by
  have hne : q ≠ backslash := by rcases hq with rfl | rfl <;> decide
  have hmeaning : meaning q = some q := by rcases hq with rfl | rfl <;> rfl
  have hletter : letterX ≠ q := by rcases hq with rfl | rfl <;> decide
  have hdigit : isDigit 16 q = false := by rcases hq with rfl | rfl <;> decide
  induction escaped s with
  | nil => exact ⟨rfl, rfl⟩
  | lone => exact ⟨rfl, rfl⟩
  | plain hc _ ih =>
    obtain ⟨-, hrest⟩ := closed_cons hc h
    obtain ⟨hdecoded, hknown⟩ := ih hrest
    rw [squeeze_cons fun hpair => hc hpair.1, decoded_plain hc, decoded_plain hc, known_plain hc,
      known_plain hc, hdecoded]
    exact ⟨rfl, hknown⟩
  | @letter d m rest hd hm _ ih =>
    obtain ⟨hdecoded, hknown⟩ := ih (closed_backslash h)
    rw [decoded_letter hd hm, known_letter hd, hm]
    by_cases hquote : d = q
    · subst hquote
      obtain rfl := Option.some.inj (hm.symm.trans hmeaning)
      rw [squeeze_quote, decoded_plain hne, known_plain hne, hdecoded]
      exact ⟨rfl, hknown⟩
    · rw [squeeze_escape hne hquote (closed_backslash h), decoded_letter hd hm, known_letter hd, hm,
        hdecoded, hknown]
      exact ⟨rfl, rfl⟩
  | @unknown d rest hd hm _ ih =>
    obtain ⟨hdecoded, hknown⟩ := ih (closed_backslash h)
    have hquote : d ≠ q := fun heq => by
      rw [heq, hmeaning] at hm
      cases hm
    rw [squeeze_escape hne hquote (closed_backslash h), decoded_unknown hd hm,
      decoded_unknown hd hm, known_letter hd, known_letter hd, hdecoded, hknown]
    exact ⟨rfl, rfl⟩
  | @hex a b rest ha hb _ ih =>
    have hbehind := closed_backslash h
    obtain ⟨-, hb'⟩ := closed_cons (ne_of_digit ha).1 hbehind
    obtain ⟨-, hrest⟩ := closed_cons (ne_of_digit hb).1 hb'
    obtain ⟨hdecoded, hknown⟩ := ih hrest
    rw [squeeze_escape hne hletter hbehind, squeeze_cons fun hpair => (ne_of_digit ha).1 hpair.1,
      squeeze_cons fun hpair => (ne_of_digit hb).1 hpair.1, decoded_hex ha hb, decoded_hex ha hb,
      known_hex ha hb, known_hex ha hb, hdecoded, hknown]
    exact ⟨rfl, rfl⟩
  | malformed hstarts _ ih =>
    have hbehind := closed_backslash h
    obtain ⟨hdecoded, -⟩ := ih hbehind
    have hstarts' := startsHex_squeeze hdigit hstarts
    rw [squeeze_escape hne hletter hbehind, decoded_malformed hstarts, decoded_malformed hstarts',
      known_malformed hstarts, known_malformed hstarts', hdecoded]
    exact ⟨rfl, rfl⟩

end

/-! ### Operands -/

section
variable {site : Site} {data : CString}

/-- Where there is no zero, no string ends. -/
theorem untilZero_eq_none {mem : Bytes} (h : 0 ∉ mem) : untilZero mem = none := by
  cases hread : untilZero mem with
  | none => rfl
  | some bytes =>
    obtain ⟨-, tail, rfl⟩ := untilZero_eq_some hread
    exact absurd (List.mem_append_right _ List.mem_cons_self) h

/-- An operand is found where the pool has placed it, if the invoke depth has two digits. -/
theorem fetch_eq (site : Site) (instruct : InstructIndex) (hreturn : charReturn ∉ data) :
    fetch site instruct data = if site.invokeDeepth < 100 then
      (site.frame.constPool.place data).bind fun placed => getByOffset placed.1 (u16 placed.2)
    else none := by
  have hlast : data.getLast? ≠ some charReturn := fun h => hreturn (List.mem_of_getLast? h)
  have hdepth : site.invokeDeepth < 2 ^ 32 := Nat.lt_trans site.isInt (by decide)
  rw [fetch]
  dsimp only
  rw [appendLine_ins _ _ hdepth hlast]
  split
  · cases site.frame.constPool.place data with
    | none => rfl
    | some placed =>
      simp only [Option.map_some, Option.bind_eq_bind, Option.bind_some, List.getLast?_concat,
        InstructUnit.getConstPoolIndex_pack]
  · rfl

/-- The empty operand is at the start of the pool, where there is NULL as long as there is no
other. -/
theorem getByOffset_nil (site : Site) :
    getByOffset (.ofEntries (addOperand site.entries [])) (u16 (operandIndex site.entries [])) =
      some (if site.entries = [[]] then none else some []) := by
  obtain ⟨rest, hes, -⟩ := site.isEntries.head
  have hmem : [] ∈ site.entries := hes ▸ List.mem_cons_self
  have hadd : addOperand site.entries [] = site.entries := by
    rw [addOperand, if_neg fun h => h.1 rfl, StringTable.insert_of_mem hmem]
  have hoffset : StringTable.offset [] site.entries = 0 := by
    rw [hes, StringTable.offset, if_pos rfl]
  have hindex : u16 (operandIndex site.entries []) = StringTable.offset [] site.entries := by
    rw [operandIndex, if_pos rfl, hoffset]
    rfl
  rw [hadd, hindex, getByOffset]
  by_cases hone : site.entries = [[]]
  · have hbuff : (ConstPool.ofEntries site.entries).argBuff = none := if_pos hone
    rw [hbuff, if_pos hone]
    exact if_pos hoffset
  · have hbuff : (ConstPool.ofEntries site.entries).argBuff =
      some (StringTable.layout site.entries) := if_neg hone
    rw [hbuff, if_neg hone]
    exact congrArg (Option.map some) (StringTable.loadString_offset hmem List.not_mem_nil)

/-- Any other operand is read back from its entry. -/
theorem getByOffset_operand (site : Site) (hz : 0 ∉ data) (hne : data ≠ []) :
    getByOffset (.ofEntries (addOperand site.entries data)) (u16 (operandIndex site.entries data)) =
      some (some data) := by
  have haddressed := site.addressed
  have hle : StringTable.offset data site.entries ≤ (StringTable.layout site.entries).length := by
    by_cases hmem : data ∈ site.entries
    · exact (StringTable.offset_lt hmem).le
    · exact (StringTable.offset_of_not_mem hmem).le
  have hu : u16 (StringTable.offset data site.entries) = StringTable.offset data site.entries :=
    u16_of_lt (by omega)
  have hindex : u16 (operandIndex site.entries data) = StringTable.offset data site.entries := by
    rw [operandIndex, if_neg hne, hu, if_neg (by omega), hu]
  have hadd : data ∈ addOperand site.entries data ∧
      StringTable.offset data (addOperand site.entries data) =
        StringTable.offset data site.entries := by
    rw [addOperand, if_neg fun h => absurd (hu.symm.trans h.2) (by omega)]
    by_cases hmem : data ∈ site.entries
    · rw [StringTable.insert_of_mem hmem]
      exact ⟨hmem, rfl⟩
    · rw [StringTable.insert_of_not_mem hmem, StringTable.offset_concat hmem,
        StringTable.offset_of_not_mem hmem]
      exact ⟨List.mem_append_right _ List.mem_cons_self, rfl⟩
  have hmore : addOperand site.entries data ≠ [[]] := fun heq =>
    hne (List.mem_singleton.mp (heq ▸ hadd.1))
  have hbuff : (ConstPool.ofEntries (addOperand site.entries data)).argBuff =
    some (StringTable.layout (addOperand site.entries data)) := if_neg hmore
  have hload := StringTable.loadString_offset hadd.1 hz
  rw [hadd.2] at hload
  rw [hindex, getByOffset, hbuff]
  exact congrArg (Option.map some) hload

/-- **An operand comes back from the pool**, if its length is one. -/
theorem fetch_of_short (hshallow : site.invokeDeepth < 100) (instruct : InstructIndex)
    (hz : 0 ∉ data) (hreturn : charReturn ∉ data) (hshort : data.length < 65535) :
    fetch site instruct data =
      some (if data = [] ∧ site.entries = [[]] then none else some data) := by
  have haddressed := site.addressed
  rw [fetch_eq site instruct hreturn, if_pos hshallow, Site.frame,
    place_ofEntries site.isEntries hshort (by omega), Option.bind_some]
  by_cases hnil : data = []
  · subst hnil
    rw [getByOffset_nil]
    simp only [true_and]
  · rw [getByOffset_operand site hz hnil, if_neg fun h => hnil h.1]

/-- An operand that is longer loses its end, and is read into what is behind the pool. -/
theorem fetch_of_long (site : Site) (instruct : InstructIndex) (hz : 0 ∉ data)
    (hreturn : charReturn ∉ data) (hlong : 65535 ≤ data.length) :
    fetch site instruct data = none := by
  have haddressed := site.addressed
  have hne : data ≠ [] := fun hnil => by
    rw [hnil] at hlong
    exact absurd hlong (by decide)
  have hmem : data ∉ site.entries := fun hmem => by
    obtain ⟨rest, hdrop⟩ := StringTable.drop_offset hmem
    have hlength := congrArg List.length hdrop
    rw [List.length_drop, List.length_append, List.length_cons] at hlength
    omega
  have hplace : site.frame.constPool.place data =
      some (site.frame.constPool.append data, u16 site.frame.constPool.size) := by
    rw [Site.frame, ConstPool.place, ConstPool.getOffsetByData_ofEntries site.isEntries,
      if_neg fun h => hmem h.2, Option.bind_eq_bind, Option.bind_some, if_neg hne, if_pos rfl]
    rfl
  have hu : u16 (StringTable.layout site.entries).length =
    (StringTable.layout site.entries).length := u16_of_lt (by omega)
  have hsize : u16 (u16 site.frame.constPool.size) =
      (StringTable.layout site.entries).length := by
    rw [Site.frame, ConstPool.size_ofEntries, hu, hu]
  have hcut : 0 ∉ (data ++ [0]).take (u16 (data.length + 1)) := by
    have hle : u16 (data.length + 1) ≤ data.length := by
      unfold u16
      omega
    rw [List.take_append_of_le_length hle]
    exact fun hmem => hz (List.mem_of_mem_take hmem)
  rw [fetch_eq site instruct hreturn, hplace, Option.bind_some, ite_eq_right_iff]
  intro _
  dsimp only
  rw [hsize, ConstPool.append, Site.frame, ConstPool.argBuff_ofEntries, getByOffset]
  dsimp only
  rw [loadString, List.drop_left, untilZero_eq_none hcut]
  rfl

end

/-! ### Values -/

section
variable {bytes : Bool} {s : CString} {out : Bytes}

/-- A text without a backslash is its own value. -/
theorem decoded_of_not_mem (bytes : Bool) (h : backslash ∉ s) :
    decoded bytes s = s ∧ known bytes s = true := by
  induction s with
  | nil => exact ⟨rfl, rfl⟩
  | cons c s ih =>
    obtain ⟨hc, hs⟩ := List.ne_and_not_mem_of_not_mem_cons h
    obtain ⟨hdecoded, hknown⟩ := ih hs
    rw [decoded_plain hc.symm, known_plain hc.symm, hdecoded]
    exact ⟨rfl, hknown⟩

/-- **What comes out fits into the buffer.** -/
theorem length_transfer (h : transfer s = some out) : out.length ≤ s.length := by
  induction hn : s.length using Nat.strong_induction_on generalizing s out with
  | _ n ih =>
    subst hn
    match s with
    | [] | [_] =>
      cases h
      exact le_rfl
    | c :: d :: rest =>
      by_cases hc : c = backslash
      · subst hc
        by_cases hd : d = letterX
        · subst hd
          match rest with
          | [] => cases h
          | [a] =>
            cases h
            exact Nat.succ_le_succ (Nat.zero_le _)
          | a :: b :: rest =>
            rw [transfer_hex] at h
            obtain ⟨out, hout, rfl⟩ := Option.map_eq_some_iff.mp h
            have hle := ih rest.length (by simp only [List.length_cons]; omega) hout rfl
            simp only [List.length_cons]
            omega
        · rw [transfer_letter hd] at h
          obtain ⟨out, hout, rfl⟩ := Option.map_eq_some_iff.mp h
          have hle := ih rest.length (by simp only [List.length_cons]; omega) hout rfl
          simp only [List.length_cons]
          omega
      · rw [transfer_plain hc] at h
        obtain ⟨out, hout, rfl⟩ := Option.map_eq_some_iff.mp h
        have hle := ih (d :: rest).length (Nat.lt_succ_self _) hout rfl
        rw [List.length_cons, List.length_cons]
        omega

theorem strsTransfer_eq (hshort : s.length < 65535) (h : transfer s = some out) :
    ∃ n, strsTransfer s = some (out ++ 0 :: List.replicate n 0, out.length) := by
  have hlength : s32 (s.length : Int) = s.length := s32_of_fits ⟨by omega, by omega⟩
  have hsize : (s32 ((s.length : Int) + 1) % 2 ^ 32).toNat = s.length + 1 := by
    rw [s32_of_fits ⟨by omega, by omega⟩]
    omega
  have hle := length_transfer h
  have hroom : out.length ≤ (List.replicate (s.length + 1) (0 : BitVec 8)).length := by
    rw [List.length_replicate]
    omega
  have hrest : s.length + 1 - out.length = s.length - out.length + 1 := by omega
  have hzeros : List.replicate (s.length + 1 - out.length) (0 : BitVec 8) =
    0 :: List.replicate (s.length - out.length) 0 := by rw [hrest, List.replicate_succ]
  have hstore := store_append [] hroom
  rw [List.nil_append, List.nil_append, List.length_nil, List.drop_replicate, hzeros] at hstore
  refine ⟨s.length - out.length, ?_⟩
  rw [strsTransfer, h, Option.bind_eq_bind, Option.bind_some, argsGetBuff, hlength, hsize, hstore]
  rfl

/-- **A `str` has its value if and only if its escapes are known.** -/
theorem vmStr_iff (hz : 0 ∉ s) (hshort : s.length < 65535) :
    vmStr (some s) = some (decoded false s) ↔ known false s = true := by
  by_cases hmem : backslash ∈ s
  · constructor
    · intro h
      rw [vmStr] at h
      dsimp only at h
      rw [if_pos hmem] at h
      obtain ⟨⟨buff, iOut⟩, htransfer, hread⟩ := Option.bind_eq_some_iff.mp h
      obtain ⟨out, hout, -⟩ := Option.bind_eq_some_iff.mp htransfer
      obtain ⟨n, heq⟩ := strsTransfer_eq hshort hout
      obtain ⟨rfl, -⟩ := Prod.mk.inj (Option.some.inj (htransfer.symm.trans heq))
      obtain ⟨hnul, tail, hsplit⟩ := untilZero_eq_some hread
      have hsplit : out ++ 0 :: List.replicate n 0 = decoded false s ++ 0 :: tail := hsplit
      have hle := length_transfer_le false hout
      have hprefix : out <+: decoded false s := by
        refine List.prefix_of_prefix_length_le (List.prefix_append out (0 :: List.replicate n 0))
          ?_ hle
        rw [hsplit]
        exact List.prefix_append _ _
      obtain ⟨more, hmore⟩ := hprefix
      rw [← hmore, List.append_assoc] at hsplit
      have hbehind := List.append_cancel_left hsplit
      have hnone : more = [] := by
        cases more with
        | nil => rfl
        | cons c more =>
          obtain ⟨rfl, -⟩ := List.cons.inj hbehind
          exact absurd (hmore ▸ List.mem_append_right _ List.mem_cons_self) hnul
      rw [hnone, List.append_nil] at hmore
      exact known_of_transfer (hmore ▸ hout) (.inr hnul)
    · intro h
      obtain ⟨n, heq⟩ := strsTransfer_eq hshort (transfer_of_known h)
      rw [vmStr]
      dsimp only
      rw [if_pos hmem, heq, Option.bind_eq_bind, Option.bind_some]
      exact untilZero_append (not_mem_decoded h hz)
  · obtain ⟨hdecoded, hknown⟩ := decoded_of_not_mem false hmem
    rw [vmStr]
    dsimp only
    rw [if_neg hmem, hdecoded]
    exact iff_of_true rfl hknown

/-- **A `bytes` has its value if and only if its escapes are known.** -/
theorem vmByt_iff (hshort : s.length < 65535) :
    vmByt (some s) = some (decoded true s) ↔ known true s = true := by
  by_cases hmem : backslash ∈ s
  · have hread : ∀ {out n}, strsTransfer s = some (out ++ 0 :: List.replicate n 0, out.length) →
        vmByt (some s) = some out := by
      intro out n heq
      rw [vmByt, Option.bind_eq_bind, Option.bind_some, if_pos hmem, heq]
      exact loadBytes_of_drop (Nat.zero_le _) rfl
    constructor
    · intro h
      cases htransfer : transfer s with
      | none =>
        have hnone : strsTransfer s = none := by rw [strsTransfer, htransfer]; rfl
        rw [vmByt, Option.bind_eq_bind, Option.bind_some, if_pos hmem, hnone] at h
        cases h
      | some out =>
        obtain ⟨n, heq⟩ := strsTransfer_eq hshort htransfer
        obtain rfl := Option.some.inj ((hread heq).symm.trans h)
        exact known_of_transfer htransfer (.inl rfl)
    · intro h
      obtain ⟨n, heq⟩ := strsTransfer_eq hshort (transfer_of_known h)
      exact hread heq
  · obtain ⟨hdecoded, hknown⟩ := decoded_of_not_mem true hmem
    rw [vmByt, Option.bind_eq_bind, Option.bind_some, if_neg hmem, hdecoded]
    exact iff_of_true rfl hknown

end

/-! ### Literals -/

section
variable {site : Site} {lit : Literal} {s data : CString}

/-- The quotes of a `bytes` are taken off, and nothing is replaced. -/
theorem parseString_bytes (h : lit.bytes = true) :
    parseString lit.text lit.bytes = some lit.content := by
  have hdrop : (lit.text.drop 2).dropLast = lit.content := by
    rw [Literal.text, h]
    exact List.dropLast_concat
  have hfirst : lit.text.headD 0 = 0x62 := by
    rw [Literal.text, h]
    rfl
  rw [parseString, h, if_pos rfl, hdrop, hfirst]
  split <;> rfl

/-- The quotes of a `str` are taken off, and the escaped ones in it replaced. -/
theorem parseString_str (h : lit.bytes = false) : parseString lit.text lit.bytes =
    if backslash ∈ lit.content then
      (Replace.strsReplace lit.content [backslash, lit.quote] [lit.quote]).bind id
    else some lit.content := by
  have hdrop : (lit.text.drop 1).dropLast = lit.content := by
    rw [Literal.text, h]
    exact List.dropLast_concat
  have hfirst : lit.text.headD 0 = lit.quote := by
    rw [Literal.text, h]
    rfl
  rw [parseString, h, if_neg Bool.false_ne_true, hdrop, hfirst]
  split
  · rcases lit.isQuote with hquote | hquote <;> rw [hquote] <;> rfl
  · rfl

/-- The replacements of a short operand fit. -/
theorem fits_of_short {q : BitVec 8} {items : List CString} (h : StrItems [backslash, q] s items)
    (hshort : (squeeze backslash q s).length < 65535) : Replace.Fits [backslash, q] [q] items := by
  rw [← intercalate_items h] at hshort
  have hcount := @Replace.mul_length_le [q] items
  rw [List.length_singleton, Nat.one_mul] at hcount
  refine .inr ⟨by omega, (by decide : 1 < 2 ^ 31), by omega, fun item hitem => ?_⟩
  have hle := @Replace.length_item_le [q] items item (List.mem_of_mem_dropLast hitem)
  rw [List.length_cons, List.length_singleton]
  omega

theorem quote_ne (lit : Literal) : lit.quote ≠ 0 := by
  rcases lit.isQuote with h | h <;> rw [h] <;> decide

/-- What the parser leaves is the operand. -/
theorem eq_operand (h : parseString lit.text lit.bytes = some s) : s = lit.operand := by
  rw [Literal.operand]
  cases hbytes : lit.bytes with
  | true =>
    rw [parseString_bytes hbytes] at h
    exact (Option.some.inj h).symm
  | false =>
    rw [parseString_str hbytes] at h
    by_cases hmem : backslash ∈ lit.content
    · rw [if_pos hmem] at h
      obtain ⟨r, hr, rfl⟩ := Option.bind_eq_some_iff.mp h
      exact Option.some.inj ((strsReplace_pair (quote_ne lit) lit.noNul _).mp hr).2
    · rw [if_neg hmem] at h
      have hclean : ¬[backslash, lit.quote] <:+: lit.content := fun hin =>
        hmem (hin.subset List.mem_cons_self)
      rw [if_neg Bool.false_ne_true, squeeze_clean hclean]
      exact (Option.some.inj h).symm

/-- **The parser leaves the operand**, if its length is one. -/
theorem parseString_eq (hshort : lit.operand.length < 65535) :
    parseString lit.text lit.bytes = some lit.operand := by
  rw [Literal.operand] at hshort ⊢
  cases hbytes : lit.bytes with
  | true => rw [← hbytes, parseString_bytes hbytes, hbytes]; rfl
  | false =>
    rw [hbytes, if_neg Bool.false_ne_true] at hshort
    rw [← hbytes, parseString_str hbytes, hbytes, if_neg Bool.false_ne_true]
    by_cases hmem : backslash ∈ lit.content
    · have hfits : ∀ items, StrItems [backslash, lit.quote] lit.content items →
          Replace.Fits [backslash, lit.quote] [lit.quote] items := fun _ h => fits_of_short h hshort
      rw [if_pos hmem, (strsReplace_pair (quote_ne lit) lit.noNul _).mpr ⟨hfits, rfl⟩]
      rfl
    · have hclean : ¬[backslash, lit.quote] <:+: lit.content := fun hin =>
        hmem (hin.subset List.mem_cons_self)
      rw [if_neg hmem, squeeze_clean hclean]

/-- The operand is a part of the content, and has its value and its escapes. -/
theorem decoded_operand (lit : Literal) :
    (∀ c, c ∈ lit.operand → c ∈ lit.content) ∧
      decoded lit.bytes lit.operand = decoded lit.bytes lit.content ∧
      known lit.bytes lit.operand = known lit.bytes lit.content := by
  rw [Literal.operand]
  cases lit.bytes with
  | true => exact ⟨fun _ h => h, rfl, rfl⟩
  | false =>
    rw [if_neg Bool.false_ne_true]
    exact ⟨fun _ h => mem_squeeze h, decoded_squeeze false lit.isQuote lit.isClosed⟩

/-- A `STR` gives its operand the value of it. -/
theorem str_iff (site : Site) (hz : 0 ∉ data) (hreturn : charReturn ∉ data) :
    (fetch site .STR data).bind vmStr = some (decoded false data) ↔
      site.invokeDeepth < 100 ∧ data.length < 65535 ∧ known false data = true := by
  by_cases hshallow : site.invokeDeepth < 100
  · by_cases hshort : data.length < 65535
    · rw [fetch_of_short hshallow .STR hz hreturn hshort, Option.bind_some]
      split
      · rename_i hnil
        rw [hnil.1]
        exact iff_of_true rfl ⟨hshallow, by decide, rfl⟩
      · rw [vmStr_iff hz hshort]
        exact ⟨fun h => ⟨hshallow, hshort, h⟩, fun h => h.2.2⟩
    · rw [fetch_of_long site .STR hz hreturn (not_lt.mp hshort)]
      exact ⟨nofun, fun h => absurd h.2.1 hshort⟩
  · rw [fetch_eq site .STR hreturn, if_neg hshallow]
    exact ⟨nofun, fun h => absurd h.1 hshallow⟩

/-- A `BYT` gives its operand the value of it, unless that is NULL. -/
theorem byt_iff (site : Site) (hz : 0 ∉ data) (hreturn : charReturn ∉ data) :
    (fetch site .BYT data).bind vmByt = some (decoded true data) ↔
      site.invokeDeepth < 100 ∧ data.length < 65535 ∧ (data = [] → site.entries ≠ [[]]) ∧
        known true data = true := by
  by_cases hshallow : site.invokeDeepth < 100
  · by_cases hshort : data.length < 65535
    · rw [fetch_of_short hshallow .BYT hz hreturn hshort, Option.bind_some]
      split
      · rename_i hnil
        exact ⟨nofun, fun h => absurd hnil.2 (h.2.2.1 hnil.1)⟩
      · rename_i hnil
        rw [vmByt_iff hshort]
        exact ⟨fun h => ⟨hshallow, hshort, fun hdata hone => hnil ⟨hdata, hone⟩, h⟩,
          fun h => h.2.2.2⟩
    · rw [fetch_of_long site .BYT hz hreturn (not_lt.mp hshort)]
      exact ⟨nofun, fun h => absurd h.2.1 hshort⟩
  · rw [fetch_eq site .BYT hreturn, if_neg hshallow]
    exact ⟨nofun, fun h => absurd h.1 hshallow⟩

end

/-- What an operand comes to. -/
def operandValue (site : Site) (bytes : Bool) (sStr : CString) : Option Bytes :=
  if bytes then (fetch site .BYT sStr).bind vmByt else (fetch site .STR sStr).bind vmStr

theorem value_eq (site : Site) (lit : Literal) : value site lit =
    (parseString lit.text lit.bytes).bind (operandValue site lit.bytes) := by
  rw [value, Option.bind_eq_bind]
  refine congrArg _ (funext fun sStr => ?_)
  rw [operandValue]
  cases lit.bytes <;> rfl

/-- **A literal has Python's value if and only if `QuotedWhen` holds.** -/
theorem quoted_iff (site : Site) (lit : Literal) : QuotedLaw site lit ↔ QuotedWhen site lit := by
  obtain ⟨hsub, hdecoded, hknown⟩ := decoded_operand lit
  have hz : 0 ∉ lit.operand := fun h => lit.noNul (hsub 0 h)
  have hreturn : charReturn ∉ lit.operand := fun h => lit.noReturn (hsub charReturn h)
  have hoperand : operandValue site lit.bytes lit.operand = some (decoded lit.bytes lit.content) ↔
      QuotedWhen site lit := by
    rw [← hdecoded, operandValue]
    cases hbytes : lit.bytes with
    | true =>
      have hcontent : lit.operand = lit.content := by rw [Literal.operand, hbytes]; rfl
      rw [hbytes] at hknown
      rw [if_pos rfl, byt_iff site hz hreturn, hknown]
      exact ⟨fun ⟨hshallow, hshort, hpool, hescapes⟩ =>
          ⟨hshallow, hbytes ▸ hescapes, hshort, fun _ hnil => hpool (hcontent.trans hnil)⟩,
        fun h => ⟨h.shallow, h.short, fun hnil => h.pool hbytes (hcontent.symm.trans hnil),
          hbytes ▸ h.escapes⟩⟩
    | false =>
      rw [hbytes] at hknown
      rw [if_neg Bool.false_ne_true, str_iff site hz hreturn, hknown]
      exact ⟨fun ⟨hshallow, hshort, hescapes⟩ => ⟨hshallow, hbytes ▸ hescapes, hshort,
          fun htrue => absurd (hbytes.symm.trans htrue) Bool.false_ne_true⟩,
        fun h => ⟨h.shallow, h.short, hbytes ▸ h.escapes⟩⟩
  rw [QuotedLaw, value_eq]
  constructor
  · intro h
    obtain ⟨s, hs, hvalue⟩ := Option.bind_eq_some_iff.mp h
    obtain rfl := eq_operand hs
    exact hoperand.mp hvalue
  · intro h
    rw [parseString_eq h.short, Option.bind_some]
    exact hoperand.mpr h

/-- Of the escape of an `a`, which has no meaning, the backslash alone comes out. -/
theorem not_quoted : ¬QuotedLaw
    ⟨[[]], [], ⟨0, false⟩, 0, ConstPool.isEntries_init, by decide, by decide⟩
    ⟨false, 0x27, [backslash, 0x61], .inl rfl, by decide, by decide, by decide, by decide⟩ := by
  unfold QuotedLaw
  decide +kernel

end Quoted

end PikaScript
