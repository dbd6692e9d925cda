import PikaScript.Parser.Cursor

/-! Percent formats in `PikaParser.c`.

`Suger_format` turns a string literal, a percent sign and an operand into a call of `cformat`. It
collects the arguments of the call from behind the sign to the end of the statement: from a tuple
it leaves the opening bracket out, and the closing one then closes the call; behind anything else
it closes the call itself. -/
namespace PikaScript

/-! ### The code -/

namespace Suger
open InstructIndex (letters)

def percent : CString := [0x25]
def cformat : CString := letters ['c', 'f', 'o', 'r', 'm', 'a', 't', '(']

/-- What the loop over the statement has collected. -/
structure Formatting where
  aStrBuf : CString
  aVarBuf : CString
  bInFormat : Bool
  bTuple : Bool
  bOutVars : Bool
  sFmt : CString
deriving DecidableEq

/-- A round outside of a format. -/
def Formatting.search (format : Formatting) (cs : Cursor.Iter) : Formatting :=
  if cs.token1.type ≠ TokenType.literal.code then
    { format with aStrBuf := format.aStrBuf ++ cs.token1.pyload }
  else if cs.token1.pyload.headD 0 ≠ 0x27 ∧ cs.token1.pyload.headD 0 ≠ 0x22 then
    { format with aStrBuf := format.aStrBuf ++ cs.token1.pyload }
  else if cs.token2.pyload ≠ percent then
    { format with aStrBuf := format.aStrBuf ++ cs.token1.pyload }
  else { format with bInFormat := true, sFmt := cs.token1.pyload }

/-- The call is written down once the end has been reached. -/
def Formatting.output (format : Formatting) : Formatting :=
  if ¬format.bOutVars then format
  else if format.bTuple then
    { format with aStrBuf := format.aStrBuf ++ cformat ++ format.sFmt ++ [0x2c] ++ format.aVarBuf }
  else
    { format with
      aStrBuf := format.aStrBuf ++ cformat ++ format.sFmt ++ [0x2c] ++ format.aVarBuf ++ [0x29] }

/-- A round within a format. -/
def Formatting.take (format : Formatting) (cs : Cursor.Iter) : Formatting :=
  if cs.token1.pyload = percent then
    if cs.token2.pyload = [0x28] then { format with bTuple := true }
    else { format with aVarBuf := format.aVarBuf ++ cs.token2.pyload }
  else if cs.iter_index = cs.length then
    { format with bOutVars := true, bInFormat := false }.output
  else { format with aVarBuf := format.aVarBuf ++ cs.token2.pyload }.output

/-- One round of the loop. -/
def Formatting.collect (format : Formatting) (cs : Cursor.Iter) : Formatting :=
  if format.bInFormat then format.take cs else format.search cs

/-- Whether the first loop finds a percent sign outside of brackets. -/
def bFormat (sRight : CString) : Bool :=
  (Cursor.forEach sRight).any fun ps1 => ps1.bracket_deepth == 0 && ps1.token1.pyload == percent

/-- `Suger_format`. -/
def format (sRight : CString) : CString :=
  if 0x25 ∉ sRight then sRight
  else if ¬bFormat sRight then sRight
  else ((Cursor.forEach sRight).foldl Formatting.collect ⟨[], [], false, false, false, []⟩).aStrBuf

end Suger

/-! ### What it is for -/

namespace Format
open Lexer Suger
open Cursor (rise rise_eq_zero height depth depth_eq)

def percentSign : LexToken := ⟨.operator, percent⟩
def opening : LexToken := ⟨.devider, [0x28]⟩
def closing : LexToken := ⟨.devider, [0x29]⟩
def comma : LexToken := ⟨.devider, [0x2c]⟩
def callee : LexToken := ⟨.symbol, cformat.dropLast⟩

/-- A string literal. -/
def IsString (token : LexToken) : Prop :=
  token.type = .literal ∧ (token.pyload.headD 0 = 0x27 ∨ token.pyload.headD 0 = 0x22)

/-- Brackets that are closed, each behind its opening. -/
def Nested : Int → List LexToken → Prop
  | above, [] => above = 0
  | above, token :: tokens =>
    0 ≤ above + rise token.pyload ∧ Nested (above + rise token.pyload) tokens

/-- Outside of brackets, nothing but names, literals, powers and signs in front of these. -/
def Tight : Int → Bool → List LexToken → Prop
  | _, _, [] => True
  | above, sign, token :: tokens =>
    (above = 0 → rise token.pyload = 0 →
      token.type = .symbol ∨ token.type = .literal ∨
        (if sign then token.pyload ∈ [[0x2b#8], [0x2d], [0x7e]] else token.pyload = [0x2a, 0x2a])) ∧
      Tight (above + rise token.pyload) (token.type = .operator) tokens

/-- What the percent operator has on its right side. -/
structure Term (tokens : List LexToken) : Prop where
  ne : tokens ≠ []
  nested : Nested 0 tokens
  tight : Tight 0 true tokens

/-- The operand of a format, and the arguments that it is: those in the brackets of a tuple, or
one. -/
inductive Operand : List LexToken → List LexToken → Prop
  | tuple {inner : List LexToken} (h : Nested 0 inner) :
    Operand (opening :: (inner ++ [closing])) inner
  | term {tokens : List LexToken} (h : Term tokens)
      (hnot : ∀ inner, Nested 0 inner → tokens ≠ opening :: (inner ++ [closing])) :
    Operand tokens tokens

/-- The operators and deviders that a term can stand behind, when it is the left side of a percent
operator: those that bind less tightly. -/
def looser : List CString :=
  [[0x2c], [0x3a], [0x3d], [0x3c], [0x3e], [0x3c, 0x3d], [0x3e, 0x3d], [0x3d, 0x3d], [0x21, 0x3d],
    [0x26], [0x7c], [0x5e], [0x3c, 0x3c], [0x3e, 0x3e]]

/-- In front of a term that is the left side of a percent operator: nothing, a word, a looser
operator, or a plus or minus between two terms. -/
def Front (before : List LexToken) : Prop :=
  match before.reverse with
  | [] => True
  | token :: rest =>
    token.pyload.head? = some 0x20 ∨ token.pyload ∈ looser ∨
      (token.pyload ∈ [[0x2b#8], [0x2d]] ∧
        ∃ last ∈ rest.head?, last.type = .symbol ∨ last.type = .literal ∨
          last.pyload ∈ [[0x29#8], [0x5d], [0x7d]])

/-- Behind a term: nothing that goes on with it. -/
def Behind (after : List LexToken) : Prop :=
  ∀ token ∈ after.head?, token.type = .keyword ∨
    (token.type = .operator ∧ token.pyload ≠ [0x2a, 0x2a]) ∨
      token.pyload ∈ [[0x29#8], [0x5d], [0x7d], [0x2c], [0x3a]]

/-- No string literal in front of a percent sign stands outside of brackets. -/
def NoneOutside (tokens : List LexToken) : Prop :=
  ∀ before lit after, tokens = before ++ lit :: percentSign :: after → IsString lit →
    height before ≠ 0

/-- A statement of which a format is a part, the first one outside of brackets. -/
structure Formats (sRight : CString) (before : List LexToken) (lit : LexToken)
    (operand args after : List LexToken) : Prop where
  tokens : getTokens sRight = before ++ lit :: percentSign :: (operand ++ after)
  lit : IsString lit
  operand : Operand operand args
  before : height before = 0 ∧ NoneOutside before ∧ Front before
  after : height after = 0 ∧ Behind after

/-- The statement with a call in place of the format. -/
def rewritten (before : List LexToken) (lit : LexToken) (args after : List LexToken) :
    List LexToken :=
  before ++ callee :: opening :: lit :: comma :: (args ++ closing :: after)

/-- The same tokens, or these without the brackets around a term behind a percent sign, which mean
nothing. -/
inductive Loosens : List LexToken → List LexToken → Prop
  | refl (tokens : List LexToken) : Loosens tokens tokens
  | step {a term b : List LexToken} (hterm : Term term) (hbehind : Behind b) :
    Loosens (a ++ percentSign :: opening :: (term ++ closing :: b))
      (a ++ percentSign :: (term ++ b))

/-- `Suger_format` does what it is for with a statement: it writes the first format outside of
brackets as a call. The others are left for when the parts of the statement are parsed. -/
structure Meets (sRight : CString) : Prop where
  rewrites : ∀ {before lit operand args after}, Formats sRight before lit operand args after →
    ∃ args' after', Loosens args args' ∧ Loosens after after' ∧
      format sRight = text (rewritten before lit args' after') ∧
      getTokens (format sRight) = rewritten before lit args' after'
  keeps : NoneOutside (getTokens sRight) → format sRight = sRight

/-- How often a bracket opens right behind a percent sign. -/
def drops : List LexToken → Nat
  | [] => 0
  | [_] => 0
  | token :: next :: tokens =>
    (if token.pyload = percent ∧ next.pyload = [0x28] then 1 else 0) + drops (next :: tokens)

/-- No string literal stands in front of a percent sign. -/
def NoPair (tokens : List LexToken) : Prop :=
  ∀ before lit after, tokens = before ++ lit :: percentSign :: after → ¬IsString lit

/-- The operands that the collected arguments are right for: a tuple, when no other bracket opens
right behind a percent sign from there on; a term with nothing behind it, and no such bracket; or
a term that ends in such a bracket around a term and in closing brackets. -/
def Closes (operand args after : List LexToken) : Prop :=
  (operand = opening :: (args ++ [closing]) ∧ drops (args ++ closing :: after) = 0) ∨
  (operand = args ∧ after = [] ∧ drops (percentSign :: operand) = 0) ∨
  (operand = args ∧ drops (percentSign :: (operand ++ after)) = 1 ∧
    ∃ a term n, operand = a ++ percentSign :: opening :: (term ++ List.replicate (n + 1) closing) ∧
      Term term)

/-- The statements that `Suger_format` does it for. -/
structure Clear (sRight : CString) : Prop where
  rewrites : ∀ {before lit operand args after}, Formats sRight before lit operand args after →
    Cursor.Walks sRight ∧ NoPair before ∧ Closes operand args after
  keeps : NoneOutside (getTokens sRight) →
    bFormat sRight = false ∨ 0x25 ∉ sRight ∨ (Cursor.Walks sRight ∧ NoPair (getTokens sRight))

/-! ### The loop in front of a format -/

/-- The round finds a format. -/
def opens (cs : Cursor.Iter) : Bool :=
  cs.token1.type == TokenType.literal.code &&
    (cs.token1.pyload.headD 0 == 0x27 || cs.token1.pyload.headD 0 == 0x22) &&
      cs.token2.pyload == percent

theorem search_eq (format : Formatting) (cs : Cursor.Iter) : format.search cs =
    if opens cs then { format with bInFormat := true, sFmt := cs.token1.pyload }
    else { format with aStrBuf := format.aStrBuf ++ cs.token1.pyload } := by
  unfold Formatting.search opens
  by_cases htype : cs.token1.type = TokenType.literal.code
  · by_cases hquote : cs.token1.pyload.headD 0 = 0x27 ∨ cs.token1.pyload.headD 0 = 0x22
    · have hnot : ¬(cs.token1.pyload.headD 0 ≠ 0x27 ∧ cs.token1.pyload.headD 0 ≠ 0x22) := by tauto
      have hor : (cs.token1.pyload.headD 0 == 0x27 || cs.token1.pyload.headD 0 == 0x22) = true := by
        rw [Bool.or_eq_true, beq_iff_eq, beq_iff_eq]
        exact hquote
      rw [if_neg (not_not_intro htype), if_neg hnot, hor, htype]
      by_cases hnext : cs.token2.pyload = percent <;> simp [hnext]
    · have hand : cs.token1.pyload.headD 0 ≠ 0x27 ∧ cs.token1.pyload.headD 0 ≠ 0x22 := by tauto
      have hor : (cs.token1.pyload.headD 0 == 0x27 || cs.token1.pyload.headD 0 == 0x22) =
          false := by
        rw [Bool.or_eq_false_iff, beq_eq_false_iff_ne, beq_eq_false_iff_ne]
        exact hand
      rw [if_neg (not_not_intro htype), if_pos hand, hor, Bool.and_false, Bool.false_and,
        if_neg Bool.false_ne_true]
  · rw [if_pos htype, beq_eq_false_iff_ne.mpr htype, Bool.false_and, Bool.false_and,
      if_neg Bool.false_ne_true]

/-- The loop outside of a format, with what it has written so far. -/
def searching (aStrBuf : CString) : Formatting := ⟨aStrBuf, [], false, false, false, []⟩

theorem collect_searching (aStrBuf : CString) {cs : Cursor.Iter} (h : opens cs = false) :
    (searching aStrBuf).collect cs = searching (aStrBuf ++ cs.token1.pyload) := by
  show (searching aStrBuf).search cs = _
  rw [search_eq, if_neg (Bool.not_eq_true _ ▸ h)]
  rfl

theorem eq_percentSign {token : LexToken} (h : IsToken token) (hpyload : token.pyload = percent) :
    token = percentSign := by
  have htype := type_of_symbolText h (hpyload ▸ by decide)
  obtain ⟨type, pyload⟩ := token
  obtain rfl : type = .operator := htype
  obtain rfl : pyload = percent := hpyload
  rfl

/-- A round finds a format just where a string literal stands in front of a percent sign. -/
theorem opens_iff {token : LexToken} {tokens : List LexToken}
    (htokens : ∀ token ∈ tokens, IsToken token) (iter_index length : BitVec 16)
    (bracket_deepth : BitVec 8) :
    opens ⟨Cursor.Token.of token, Cursor.Token.head tokens, iter_index, length, bracket_deepth⟩ =
      true ↔ IsString token ∧ tokens.head? = some percentSign := by
  have htype : (Cursor.Token.of token).type = TokenType.literal.code ↔ token.type = .literal :=
    ⟨fun h => Cursor.code_injective h, fun h => congrArg TokenType.code h⟩
  have hnext : (Cursor.Token.head tokens).pyload = percent ↔ tokens.head? = some percentSign := by
    match tokens, htokens with
    | [], _ => exact iff_of_false (by decide) (by simp)
    | next :: tokens, htokens =>
      have hhead : (Cursor.Token.head (next :: tokens)).pyload = next.pyload := rfl
      rw [hhead, List.head?_cons, Option.some.injEq]
      exact ⟨eq_percentSign (htokens next List.mem_cons_self), fun h => h ▸ rfl⟩
  unfold opens IsString
  rw [Bool.and_eq_true, Bool.and_eq_true, Bool.or_eq_true, beq_iff_eq, beq_iff_eq, beq_iff_eq,
    beq_iff_eq, htype, hnext]
  rfl

/-- **In front of a format the loop copies the tokens.** -/
theorem foldl_searching (length : BitVec 16) {a rest : List LexToken}
    (htokens : ∀ token ∈ a ++ rest, IsToken token)
    (hnone : ∀ before lit after, a ++ rest.take 1 = before ++ lit :: percentSign :: after →
      ¬IsString lit) (iter_index : BitVec 16) (bracket_deepth : BitVec 8) (aStrBuf : CString) :
    (Cursor.walk length (a ++ rest) iter_index bracket_deepth).foldl Formatting.collect
        (searching aStrBuf) =
      (Cursor.walk length rest (iter_index + BitVec.ofNat 16 a.length)
        (depth a bracket_deepth)).foldl Formatting.collect (searching (aStrBuf ++ text a)) := by
  induction a generalizing iter_index bracket_deepth aStrBuf with
  | nil =>
    rw [List.nil_append, List.length_nil, BitVec.add_zero, text, List.flatMap_nil, List.append_nil]
    rfl
  | cons token a ih =>
    have hrest : ∀ token ∈ a ++ rest, IsToken token := fun token hmem =>
      htokens token (List.mem_cons_of_mem _ hmem)
    have hopens : opens ⟨Cursor.Token.of token, Cursor.Token.head (a ++ rest), iter_index + 1,
        length, Cursor.deepen token.pyload bracket_deepth⟩ = false := by
      refine Bool.eq_false_iff.mpr fun h => ?_
      obtain ⟨hstring, hhead⟩ := (opens_iff hrest _ _ _).mp h
      obtain ⟨after, hafter⟩ : ∃ after, a ++ rest.take 1 = percentSign :: after := by
        cases a with
        | nil =>
          obtain ⟨after, rfl⟩ := List.head?_eq_some_iff.mp hhead
          exact ⟨[], rfl⟩
        | cons next a =>
          obtain rfl : next = percentSign := Option.some.inj hhead
          exact ⟨a ++ rest.take 1, rfl⟩
      exact hnone [] token after (congrArg (token :: ·) hafter) hstring
    have hindex : iter_index + 1 + BitVec.ofNat 16 a.length =
        iter_index + BitVec.ofNat 16 (token :: a).length := by
      rw [List.length_cons, BitVec.ofNat_add, BitVec.add_assoc]
      exact congrArg (iter_index + ·) (BitVec.add_comm _ _)
    rw [List.cons_append, Cursor.walk, List.foldl_cons, collect_searching aStrBuf hopens,
      ih hrest fun before lit after heq => hnone (token :: before) lit after
        (congrArg (token :: ·) heq), hindex, text_cons, ← List.append_assoc]
    rfl

/-- A statement without a format comes out as it is. -/
theorem foldl_none (length : BitVec 16) {tokens : List LexToken}
    (htokens : ∀ token ∈ tokens, IsToken token) (hnone : NoPair tokens) :
    ((Cursor.walk length tokens 0 0).foldl Formatting.collect (searching [])).aStrBuf =
      text tokens := by
  have hall := @foldl_searching length tokens [] (by rwa [List.append_nil])
    (by rwa [List.take_nil, List.append_nil]) 0 0 []
  rw [List.append_nil] at hall
  rw [hall, Cursor.walk, List.foldl_cons, collect_searching _ (by rfl)]
  simp [searching]

/-! ### The loop in a format -/

/-- The tokens behind the first, without the brackets that open right behind a percent sign. -/
def pruned : List LexToken → List LexToken
  | [] => []
  | [_] => []
  | token :: next :: tokens =>
    (if token.pyload = percent ∧ next.pyload = [0x28] then [] else [next]) ++
      pruned (next :: tokens)

/-- A round in a format, but for the last. -/
theorem collect_take {format : Formatting} (hin : format.bInFormat = true)
    (hout : format.bOutVars = false) {cs : Cursor.Iter} (hindex : cs.iter_index ≠ cs.length) :
    format.collect cs =
      if cs.token1.pyload = percent ∧ cs.token2.pyload = [0x28] then
        { format with bTuple := true }
      else { format with aVarBuf := format.aVarBuf ++ cs.token2.pyload } := by
  rw [Formatting.collect, if_pos hin, Formatting.take, if_neg hindex]
  have hsame : ({ format with aVarBuf := format.aVarBuf ++ cs.token2.pyload } : Formatting).output =
      { format with aVarBuf := format.aVarBuf ++ cs.token2.pyload } := by
    rw [Formatting.output, if_pos (by simp [hout])]
  rw [hsame]
  by_cases hpercent : cs.token1.pyload = percent <;>
    by_cases hbracket : cs.token2.pyload = [0x28] <;> simp [hpercent, hbracket]

/-- The last round writes the call. -/
theorem collect_end {format : Formatting} (hin : format.bInFormat = true)
    (length : BitVec 16) (bracket_deepth : BitVec 8) :
    (format.collect ⟨⟨0, []⟩, ⟨0, []⟩, length, length, bracket_deepth⟩).aStrBuf =
      format.aStrBuf ++ cformat ++ format.sFmt ++ [0x2c] ++ format.aVarBuf ++
        if format.bTuple = true then [] else [0x29] := by
  have hpercent : ([] : CString) ≠ percent := (List.cons_ne_nil _ _).symm
  rw [Formatting.collect, if_pos hin, Formatting.take, if_neg hpercent, if_pos rfl,
    Formatting.output, if_neg (by simp)]
  by_cases htuple : format.bTuple = true <;> simp [htuple]

/-- **In a format the loop collects the arguments up to the end of the statement.** -/
theorem foldl_take {length : BitVec 16} {tokens : List LexToken} {iter_index : BitVec 16}
    (hindex : iter_index.toNat + tokens.length + 1 = length.toNat)
    (bracket_deepth : BitVec 8) (aStrBuf aVarBuf sFmt : CString) (bTuple : Bool) :
    ((Cursor.walk length tokens iter_index bracket_deepth).foldl Formatting.collect
        ⟨aStrBuf, aVarBuf, true, bTuple, false, sFmt⟩).aStrBuf =
      aStrBuf ++ cformat ++ sFmt ++ [0x2c] ++ (aVarBuf ++ text (pruned tokens)) ++
        if bTuple = true ∨ drops tokens ≠ 0 then [] else [0x29] := by
  induction tokens generalizing iter_index bracket_deepth aVarBuf bTuple with
  | nil =>
    have hlast : iter_index + 1 = length :=
      BitVec.eq_of_toNat_eq ((Cursor.index_succ hindex).trans (by simpa using hindex))
    rw [Cursor.walk, hlast, List.foldl_cons, List.foldl_nil, collect_end rfl]
    simp [pruned, drops, text]
  | cons token tokens ih =>
    rw [List.length_cons] at hindex
    have hindex' : (iter_index + 1).toNat + tokens.length + 1 = length.toNat := by
      rw [Cursor.index_succ hindex]
      omega
    rw [Cursor.walk, List.foldl_cons, collect_take rfl rfl (Cursor.index_ne hindex)]
    cases tokens with
    | nil =>
      have hnone : ([] : CString) ≠ [0x28] := (List.cons_ne_nil _ _).symm
      rw [if_neg fun h => hnone h.2, ih hindex']
      simp [Cursor.Token.head, pruned, drops]
    | cons next tokens =>
      have hpyload : ((Cursor.Token.of token).pyload = percent ∧
          (Cursor.Token.head (next :: tokens)).pyload = [0x28]) ↔
          token.pyload = percent ∧ next.pyload = [0x28] := Iff.rfl
      have hhead : (Cursor.Token.head (next :: tokens)).pyload = next.pyload := rfl
      rw [pruned, drops]
      by_cases hdrop : token.pyload = percent ∧ next.pyload = [0x28]
      · rw [if_pos (hpyload.mpr hdrop), if_pos hdrop, if_pos hdrop, ih hindex']
        simp
      · rw [if_neg (mt hpyload.mp hdrop), if_neg hdrop, if_neg hdrop, ih hindex', hhead,
          List.singleton_append, text_cons, List.append_assoc aVarBuf, Nat.zero_add]

/-! ### Dropped brackets -/

theorem drops_append (a : List LexToken) (token : LexToken) (b : List LexToken) :
    drops (a ++ token :: b) = drops (a ++ [token]) + drops (token :: b) := by
  induction a with
  | nil => exact (Nat.zero_add _).symm
  | cons first a ih =>
    match a, ih with
    | [], _ => rw [List.singleton_append, List.singleton_append, drops, drops, drops, Nat.add_zero]
    | second :: a, ih =>
      rw [List.cons_append, List.cons_append, List.cons_append, List.cons_append, drops, drops,
        ← List.cons_append, ih, ← List.cons_append, Nat.add_assoc]

theorem pruned_append (a : List LexToken) (token : LexToken) (b : List LexToken) :
    pruned (a ++ token :: b) = pruned (a ++ [token]) ++ pruned (token :: b) := by
  induction a with
  | nil => rfl
  | cons first a ih =>
    match a, ih with
    | [], _ =>
      rw [List.singleton_append, List.singleton_append, pruned, pruned, pruned, List.append_nil]
    | second :: a, ih =>
      rw [List.cons_append, List.cons_append, List.cons_append, List.cons_append, pruned, pruned,
        ← List.cons_append, ih, ← List.cons_append, List.append_assoc]

theorem drops_cons {token : LexToken} (h : token.pyload ≠ percent) (tokens : List LexToken) :
    drops (token :: tokens) = drops tokens := by
  match tokens with
  | [] => rfl
  | next :: tokens => rw [drops, if_neg fun hdrop => h hdrop.1, Nat.zero_add]

/-- Where no bracket is dropped all tokens but the first stay. -/
theorem pruned_eq {token : LexToken} {tokens : List LexToken} (h : drops (token :: tokens) = 0) :
    pruned (token :: tokens) = tokens := by
  induction tokens generalizing token with
  | nil => rfl
  | cons next tokens ih =>
    rw [drops, Nat.add_eq_zero_iff] at h
    have hnot : ¬(token.pyload = percent ∧ next.pyload = [0x28]) := fun hdrop => by
      rw [if_pos hdrop] at h
      exact absurd h.1 Nat.one_ne_zero
    rw [pruned, if_neg hnot, ih h.2, List.singleton_append]

/-- A dropped bracket is one that opens. -/
theorem count_pruned (token : LexToken) (tokens : List LexToken) :
    (text (pruned (token :: tokens))).count 0x28 + drops (token :: tokens) =
        (text tokens).count 0x28 ∧
      (text (pruned (token :: tokens))).count 0x29 = (text tokens).count 0x29 := by
  induction tokens generalizing token with
  | nil => exact ⟨rfl, rfl⟩
  | cons next tokens ih =>
    obtain ⟨hopen, hclose⟩ := ih next
    rw [pruned, drops, text_cons, List.count_append, List.count_append, ← hopen, ← hclose]
    by_cases hdrop : token.pyload = percent ∧ next.pyload = [0x28]
    · have hone : ([0x28] : CString).count 0x28 = 1 := rfl
      have hnone : ([0x28] : CString).count 0x29 = 0 := rfl
      rw [if_pos hdrop, if_pos hdrop, hdrop.2, List.nil_append, hone, hnone]
      omega
    · rw [if_neg hdrop, if_neg hdrop, List.singleton_append, text_cons, List.count_append,
        List.count_append]
      omega

/-- What stays where one bracket is dropped. -/
theorem pruned_one {token : LexToken} {a b : List LexToken}
    (h : drops (token :: (a ++ percentSign :: opening :: b)) = 1) :
    pruned (token :: (a ++ percentSign :: opening :: b)) = a ++ percentSign :: b := by
  have hsplit : token :: (a ++ percentSign :: opening :: b) =
      (token :: a) ++ percentSign :: (opening :: b) := rfl
  have hdrop : drops (percentSign :: opening :: b) = 1 + drops (opening :: b) := rfl
  have hprune : pruned (percentSign :: opening :: b) = pruned (opening :: b) := rfl
  rw [hsplit, drops_append, hdrop] at h
  rw [hsplit, pruned_append, hprune, @pruned_eq opening b (by omega), List.cons_append,
    @pruned_eq token (a ++ [percentSign]) (by rw [← List.cons_append]; omega),
    List.append_assoc]
  rfl

/-! ### Loosening -/

theorem text_opening (tokens : List LexToken) :
    text (opening :: tokens) = 0x28 :: text tokens := rfl

theorem text_closing (tokens : List LexToken) :
    text (closing :: tokens) = 0x29 :: text tokens := rfl

/-- A loosening leaves out nothing, or a bracket that opens and one that closes. -/
theorem Loosens.count {x y : List LexToken} (h : Loosens x y) :
    ∃ r, (text y).count 0x28 + r = (text x).count 0x28 ∧
      (text y).count 0x29 + r = (text x).count 0x29 ∧ (r = 0 → y = x) ∧
      (r = 1 → ∃ a term b, Term term ∧
        x = a ++ percentSign :: opening :: (term ++ closing :: b) ∧
        y = a ++ percentSign :: (term ++ b)) := by
  cases h with
  | refl => exact ⟨0, rfl, rfl, fun _ => rfl, nofun⟩
  | step hterm =>
    have hn : (0x28 : BitVec 8) ≠ 0x29 := by decide
    refine ⟨1, ?_, ?_, nofun, fun _ => ⟨_, _, _, hterm, rfl, rfl⟩⟩
    · simp only [text_append, text_cons percentSign, text_opening, text_closing,
        List.count_append, List.count_cons_self, List.count_cons_of_ne hn.symm]
      omega
    · simp only [text_append, text_cons percentSign, text_opening, text_closing,
        List.count_append, List.count_cons_self, List.count_cons_of_ne hn]
      omega

theorem Loosens.weight_le {x y : List LexToken} (h : Loosens x y) :
    weight (text x) ≤ weight (text y) + 2 := by
  cases h with
  | refl => exact Nat.le_add_right _ _
  | step =>
    have ho : weight opening.pyload = 1 := rfl
    have hc : weight closing.pyload = 1 := rfl
    simp only [text_append, text_cons, weight_append, ho, hc]
    omega

/-- It leaves out nothing but brackets. -/
theorem Loosens.mem {x y : List LexToken} (h : Loosens x y) {c : BitVec 8} (hopen : c ≠ 0x28)
    (hclose : c ≠ 0x29) (hmem : c ∈ text x) : c ∈ text y := by
  cases h with
  | refl => exact hmem
  | step =>
    have ho : c ∉ opening.pyload := fun hc => hopen (List.mem_singleton.mp hc)
    have hc : c ∉ closing.pyload := fun hc => hclose (List.mem_singleton.mp hc)
    simp only [text_append, text_cons, List.mem_append, ho, hc, false_or] at hmem ⊢
    tauto

/-! ### Where the call closes -/

/-- A text that commutes with a character is made of it. -/
theorem eq_of_concat {c : BitVec 8} {l : CString} (h : l ++ [c] = c :: l) : ∀ a ∈ l, a = c := by
  induction l with
  | nil => exact fun a ha => absurd ha List.not_mem_nil
  | cons first l ih =>
    obtain ⟨rfl, hrest⟩ := List.cons.inj h
    intro a ha
    rcases List.mem_cons.mp ha with rfl | ha
    · rfl
    · exact ih hrest a ha

/-- Tokens that have no other character than closing brackets are such brackets. -/
theorem eq_replicate {tokens : List LexToken} (htokens : ∀ token ∈ tokens, IsToken token)
    (h : text tokens ++ [0x29] = 0x29 :: text tokens) :
    tokens = List.replicate tokens.length closing := by
  refine List.eq_replicate_iff.mpr ⟨rfl, fun token hmem => ?_⟩
  have htoken := htokens token hmem
  obtain ⟨c, rest, hpyload⟩ := List.exists_cons_of_ne_nil (pyload_ne_nil htoken)
  have hc : c = 0x29 := by
    refine eq_of_concat h c (List.mem_flatMap.mpr ⟨token, hmem, ?_⟩)
    rw [hpyload]
    exact List.mem_cons_self
  exact eq_devider htoken (by decide) (by rw [hpyload, hc]; rfl)

theorem height_replicate (n : Nat) : height (List.replicate n closing) = -(n : Int) := by
  induction n with
  | zero => rfl
  | succ n ih =>
    have hcons : height (closing :: List.replicate n closing) =
        -1 + height (List.replicate n closing) := List.sum_cons
    rw [List.replicate_succ, hcons, ih]
    omega

/-- What the loop writes behind the literal of a format. -/
def written (operand after : List LexToken) : CString :=
  text (pruned (percentSign :: (operand ++ after))) ++
    if drops (percentSign :: (operand ++ after)) ≠ 0 then [] else [0x29]

variable {operand args after : List LexToken}

/-- A tuple comes out as it is when no other bracket is dropped. -/
theorem written_tuple (h : drops (args ++ closing :: after) = 0) :
    written (opening :: (args ++ [closing])) after = text args ++ 0x29 :: text after := by
  have hrest : opening :: (args ++ [closing]) ++ after =
      opening :: (args ++ closing :: after) := by simp
  have hdrop : drops (opening :: (args ++ closing :: after)) = 0 := by
    rw [drops_cons (by decide), h]
  have hone : drops (percentSign :: opening :: (args ++ closing :: after)) =
      1 + drops (opening :: (args ++ closing :: after)) := rfl
  have hprune : pruned (percentSign :: opening :: (args ++ closing :: after)) =
      pruned (opening :: (args ++ closing :: after)) := rfl
  rw [written, hrest, hone, hprune, pruned_eq hdrop, hdrop, if_pos Nat.one_ne_zero,
    List.append_nil, text_append, text_closing]

/-- A term comes out as it is when nothing is behind it and no bracket is dropped. -/
theorem written_term (h : drops (percentSign :: operand) = 0) :
    written operand [] = text operand ++ 0x29 :: text [] := by
  rw [written, List.append_nil, pruned_eq h, h, if_neg (not_not_intro rfl)]
  rfl

/-- A term that ends in a bracket that is dropped. -/
theorem written_loose {a term : List LexToken} {n : Nat}
    (h : drops (percentSign :: ((a ++ percentSign :: opening ::
      (term ++ List.replicate (n + 1) closing)) ++ after)) = 1) :
    written (a ++ percentSign :: opening :: (term ++ List.replicate (n + 1) closing)) after =
      text (a ++ percentSign :: (term ++ List.replicate n closing)) ++ 0x29 :: text after := by
  have hrest : (a ++ percentSign :: opening :: (term ++ List.replicate (n + 1) closing)) ++ after =
      a ++ percentSign :: opening :: (term ++ List.replicate (n + 1) closing ++ after) := by simp
  rw [hrest] at h
  rw [written, hrest, pruned_one h, h, if_pos Nat.one_ne_zero, List.append_nil,
    List.replicate_succ']
  simp only [text_append, text_cons, List.append_assoc]
  rfl

theorem behind_replicate (n : Nat) : Behind (List.replicate n closing) := by
  intro token hmem
  match n, hmem with
  | n + 1, hmem =>
    obtain rfl : closing = token := by simpa [List.replicate_succ] using hmem
    exact .inr (.inr (by decide))

/-- The brackets of a tuple that is written down right. -/
theorem closes_tuple {args' after' : List LexToken} (hargs : Loosens args args')
    (hafter : Loosens after after')
    (h : written (opening :: (args ++ [closing])) after = text args' ++ 0x29 :: text after') :
    drops (args ++ closing :: after) = 0 := by
  obtain ⟨r, hopen, hclose, -⟩ := hargs.count
  obtain ⟨r', hopen', hclose', -⟩ := hafter.count
  have hrest : opening :: (args ++ [closing]) ++ after =
      opening :: (args ++ closing :: after) := by simp
  obtain ⟨hcount, hcount'⟩ := count_pruned percentSign (opening :: (args ++ closing :: after))
  have hone : drops (percentSign :: opening :: (args ++ closing :: after)) =
      1 + drops (args ++ closing :: after) := by
    have hfirst : drops (percentSign :: opening :: (args ++ closing :: after)) =
      1 + drops (opening :: (args ++ closing :: after)) := rfl
    rw [hfirst, drops_cons (by decide)]
  rw [written, hrest, hone, if_pos (by omega), List.append_nil] at h
  have hleft := congrArg (List.count 0x28) h
  have hright := congrArg (List.count 0x29) h
  rw [hone] at hcount
  have hn : (0x28 : BitVec 8) ≠ 0x29 := by decide
  simp only [text_append, text_opening, text_closing, List.count_append, List.count_cons_self,
    List.count_cons_of_ne hn, List.count_cons_of_ne hn.symm] at hleft hright hcount hcount'
  omega

/-- **A term that is written down right.** -/
theorem closes_term (htokens : ∀ token ∈ operand ++ after, IsToken token)
    (hheight : height after = 0) {args' after' : List LexToken} (hargs : Loosens operand args')
    (hafter : Loosens after after')
    (h : written operand after = text args' ++ 0x29 :: text after') :
    Closes operand operand after := by
  obtain ⟨r, hopen, hclose, hzero, hone⟩ := hargs.count
  obtain ⟨r', hopen', hclose', hzero', hone'⟩ := hafter.count
  obtain ⟨hcount, hcount'⟩ := count_pruned percentSign (operand ++ after)
  have hn : (0x28 : BitVec 8) ≠ 0x29 := by decide
  by_cases hdrops : drops (percentSign :: (operand ++ after)) = 0
  · rw [written, pruned_eq hdrops, if_neg (not_not_intro hdrops)] at h
    have hright := congrArg (List.count 0x29) h
    simp only [text_append, List.count_append, List.count_cons_self] at hright
    obtain rfl := hzero (by omega)
    obtain rfl := hzero' (by omega)
    rw [text_append, List.append_assoc] at h
    have hall := eq_replicate (fun token hmem => htokens token (List.mem_append_right _ hmem))
      (List.append_cancel_left h)
    rw [hall, height_replicate] at hheight
    have hlength : after'.length = 0 := by omega
    obtain rfl := List.eq_nil_of_length_eq_zero hlength
    rw [List.append_nil] at hdrops
    exact .inr (.inl ⟨rfl, rfl, hdrops⟩)
  · rw [written, if_pos hdrops, List.append_nil] at h
    have hleft := congrArg (List.count 0x28) h
    have hright := congrArg (List.count 0x29) h
    simp only [List.count_append, List.count_cons_self, List.count_cons_of_ne hn.symm]
      at hleft hright
    simp only [text_append, List.count_append] at hcount hcount'
    have hdrop : drops (percentSign :: (operand ++ after)) = 1 := by omega
    by_cases hr : r = 1
    · obtain ⟨a, term, b, hterm, rfl, rfl⟩ := hone hr
      obtain rfl := hzero' (by omega)
      have hrest : (a ++ percentSign :: opening :: (term ++ closing :: b)) ++ after' =
          a ++ percentSign :: opening :: (term ++ closing :: b ++ after') := by simp
      rw [hrest] at h
      rw [hrest] at hdrop
      have hfront : a ++ percentSign :: (term ++ closing :: b ++ after') =
          (a ++ percentSign :: term) ++ closing :: (b ++ after') := by simp
      have hback : a ++ percentSign :: (term ++ b) = (a ++ percentSign :: term) ++ b := by simp
      rw [pruned_one hdrop, hfront, hback, text_append (a ++ percentSign :: term),
        text_append (a ++ percentSign :: term), text_closing, text_append b, List.append_assoc] at h
      have hcommute : 0x29 :: text b = text b ++ [0x29] := by
        have hcancel := List.append_cancel_left h
        rw [List.append_cons, ← List.cons_append] at hcancel
        exact List.append_cancel_right hcancel
      have hb : b = List.replicate b.length closing :=
        eq_replicate (fun token hmem => htokens token (by simp [hmem])) hcommute.symm
      refine .inr (.inr ⟨rfl, by rw [hrest]; exact hdrop, a, term, b.length, ?_, hterm⟩)
      rw [List.replicate_succ, ← hb]
    · obtain ⟨a, term, b, hterm, rfl, rfl⟩ := hone' (by omega)
      obtain rfl := hzero (by omega)
      have hrest : args' ++ (a ++ percentSign :: opening :: (term ++ closing :: b)) =
          (args' ++ a) ++ percentSign :: opening :: (term ++ closing :: b) := by simp
      rw [hrest] at h hdrop
      have hfront : (args' ++ a) ++ percentSign :: (term ++ closing :: b) =
          args' ++ ((a ++ percentSign :: term) ++ closing :: b) := by simp
      have hback : a ++ percentSign :: (term ++ b) = (a ++ percentSign :: term) ++ b := by simp
      rw [pruned_one hdrop, hfront, hback, text_append args',
        text_append (a ++ percentSign :: term), text_append (a ++ percentSign :: term),
        text_closing] at h
      have hcancel := List.append_cancel_left h
      rw [List.append_cons, ← List.cons_append] at hcancel
      have hall := eq_of_concat (List.append_cancel_right hcancel)
      have hmem : (0x25 : BitVec 8) ∈ text (a ++ percentSign :: term) := by
        rw [text_append, text_cons]
        exact List.mem_append_right _ (List.mem_append_left _ List.mem_cons_self)
      exact absurd (hall _ hmem) (by decide)

/-! ### The statement -/

variable {sRight : CString} {before rest : List LexToken} {lit : LexToken}

theorem any_walk {length : BitVec 16} {a b : List LexToken} {iter_index : BitVec 16}
    {bracket_deepth : BitVec 8} (h : depth a bracket_deepth = 0) :
    (Cursor.walk length (a ++ percentSign :: b) iter_index bracket_deepth).any
      (fun ps1 => ps1.bracket_deepth == 0 && ps1.token1.pyload == percent) = true := by
  induction a generalizing iter_index bracket_deepth with
  | nil =>
    obtain rfl : bracket_deepth = 0 := h
    rw [List.nil_append, Cursor.walk, List.any_cons]
    rfl
  | cons token a ih =>
    rw [List.cons_append, Cursor.walk, List.any_cons, ih h, Bool.or_true]

/-- A percent sign outside of brackets is found. -/
theorem bFormat_of {a b : List LexToken} (hwalks : Cursor.Walks sRight)
    (htokens : getTokens sRight = a ++ percentSign :: b) (hheight : height a = 0) :
    bFormat sRight = true := by
  have hne : getTokens sRight ≠ [] := by
    rw [htokens]
    simp
  rw [bFormat, Cursor.forEach_eq hwalks.plain hne hwalks.2, htokens]
  refine any_walk ?_
  rw [depth_eq, hheight]
  rfl

theorem IsString.ne {token : LexToken} (h : IsString token) : token ≠ percentSign := by
  rintro rfl
  cases h.1

theorem IsString.height {token : LexToken} (h : IsString token) : rise token.pyload = 0 := by
  obtain ⟨-, hquote⟩ := h
  have hkind : ∀ pyload ∈ [[0x28#8], [0x5b], [0x7b], [0x29], [0x5d], [0x7d]],
      ¬(pyload.headD 0 = 0x27 ∨ pyload.headD 0 = 0x22) := by decide
  exact rise_eq_zero fun hmem => hkind _ hmem hquote

/-- In front of the first format there is none, up to its literal. -/
theorem pair_before (hlit : IsString lit) (hnone : NoPair before) (b : List LexToken)
    (l : LexToken) (after : List LexToken) (h : before ++ (lit :: percentSign :: rest).take 1 =
      b ++ l :: percentSign :: after) : ¬IsString l := by
  rcases List.eq_nil_or_concat after with rfl | ⟨front, last, rfl⟩
  · have hsplit : before ++ [lit] = (b ++ [l]) ++ [percentSign] := by simpa using h
    exact absurd (List.cons.inj (List.append_inj' hsplit rfl).2).1 hlit.ne
  · have hsplit : before ++ [lit] = (b ++ l :: percentSign :: front) ++ [last] := by simpa using h
    exact hnone b l front (List.append_inj' hsplit rfl).1

/-- **What the loop writes for a statement with a format.** -/
theorem format_eq (hwalks : Cursor.Walks sRight) (hformat : bFormat sRight = true)
    (htokens : getTokens sRight = before ++ lit :: percentSign :: rest) (hlit : IsString lit)
    (hnone : NoPair before) : format sRight = text before ++ cformat ++ lit.pyload ++ [0x2c] ++
      (text (pruned (percentSign :: rest)) ++
        if drops (percentSign :: rest) ≠ 0 then [] else [0x29]) := by
  have hreads : ∀ token ∈ getTokens sRight, IsToken token := getTokens_reads sRight
  have hpercent : percentSign ∈ getTokens sRight := by
    rw [htokens]
    simp
  have hchar : 0x25 ∈ sRight := mem_of_pyload hpercent List.mem_cons_self (by decide)
  have hne : getTokens sRight ≠ [] := List.ne_nil_of_mem hpercent
  have hsize : (Cursor.size (getTokens sRight)).toNat = (getTokens sRight).length + 1 := by
    have hlength := hwalks.2
    rw [Cursor.size, BitVec.toNat_ofNat]
    omega
  have hlength := congrArg List.length htokens
  simp only [List.length_append, List.length_cons] at hlength
  rw [format, if_neg (not_not_intro hchar), if_neg (not_not_intro hformat),
    Cursor.forEach_eq hwalks.plain hne hwalks.2]
  generalize Cursor.size (getTokens sRight) = size at hsize
  rw [htokens] at hreads ⊢
  have hopens : opens ⟨Cursor.Token.of lit, Cursor.Token.head (percentSign :: rest),
      0 + BitVec.ofNat 16 before.length + 1, size,
      Cursor.deepen lit.pyload (depth before 0)⟩ = true :=
    (opens_iff (fun token hmem => hreads token
      (List.mem_append_right _ (List.mem_cons_of_mem _ hmem))) _ _ _).mpr ⟨hlit, rfl⟩
  have hquiet := @pair_before before rest lit hlit hnone
  have hone : (1 : BitVec 16).toNat = 1 := rfl
  have hindex : (0 + BitVec.ofNat 16 before.length + 1 : BitVec 16).toNat =
      before.length + 1 := by
    have hwalk := hwalks.2
    rw [zero_add, BitVec.toNat_add, BitVec.toNat_ofNat, hone]
    omega
  have hcollect : (searching ([] ++ text before)).collect ⟨Cursor.Token.of lit,
      Cursor.Token.head (percentSign :: rest), 0 + BitVec.ofNat 16 before.length + 1, size,
      Cursor.deepen lit.pyload (depth before 0)⟩ =
      ⟨text before, [], true, false, false, lit.pyload⟩ := by
    show (searching ([] ++ text before)).search _ = _
    rw [search_eq, if_pos hopens]
    rfl
  have htake := @foldl_take size (percentSign :: rest) _
    (by rw [hindex, List.length_cons]; omega) (Cursor.deepen lit.pyload (depth before 0))
    (text before) [] lit.pyload false
  have hinit : (⟨[], [], false, false, false, []⟩ : Formatting) = searching [] := rfl
  rw [hinit, foldl_searching size hreads hquiet, Cursor.walk, List.foldl_cons, hcollect, htake]
  simp

/-! ### What does not come through -/

/-- The first format of a statement that has one. -/
theorem exists_pair {tokens : List LexToken} (h : ¬NoPair tokens) :
    ∃ before lit after, tokens = before ++ lit :: percentSign :: after ∧ IsString lit ∧
      NoPair before := by
  induction hn : tokens.length using Nat.strong_induction_on generalizing tokens with
  | _ n ih =>
    subst hn
    unfold NoPair at h
    push Not at h
    obtain ⟨before, lit, after, rfl, hlit⟩ := h
    by_cases hnone : NoPair before
    · exact ⟨before, lit, after, rfl, hlit, hnone⟩
    · have hlt : before.length < (before ++ lit :: percentSign :: after).length := by
        rw [List.length_append]
        exact Nat.lt_add_of_pos_right (Nat.succ_pos _)
      obtain ⟨b, l, a, rfl, hl, hb⟩ := ih before.length hlt hnone rfl
      exact ⟨b, l, a ++ lit :: percentSign :: after, by simp, hl, hb⟩

/-- Nothing that the loop has collected has a `0x1f`. -/
structure IsPlain (format : Formatting) : Prop where
  aStrBuf : (0x1f : BitVec 8) ∉ format.aStrBuf
  aVarBuf : (0x1f : BitVec 8) ∉ format.aVarBuf
  sFmt : (0x1f : BitVec 8) ∉ format.sFmt

theorem IsPlain.output {format : Formatting} (h : IsPlain format) : IsPlain format.output := by
  obtain ⟨hstr, hvar, hfmt⟩ := h
  have hcall : (0x1f : BitVec 8) ∉ cformat := by decide
  have hcomma : (0x1f : BitVec 8) ∉ [0x2c#8] := by decide
  have hclose : (0x1f : BitVec 8) ∉ [0x29#8] := by decide
  have hall := List.not_mem_append (List.not_mem_append (List.not_mem_append
    (List.not_mem_append hstr hcall) hfmt) hcomma) hvar
  unfold Formatting.output
  split
  · exact ⟨hstr, hvar, hfmt⟩
  split
  · exact ⟨hall, hvar, hfmt⟩
  · exact ⟨List.not_mem_append hall hclose, hvar, hfmt⟩

theorem IsPlain.collect {format : Formatting} (h : IsPlain format) {cs : Cursor.Iter}
    (h1 : (0x1f : BitVec 8) ∉ cs.token1.pyload) (h2 : (0x1f : BitVec 8) ∉ cs.token2.pyload) :
    IsPlain (format.collect cs) := by
  have hvar : (0x1f : BitVec 8) ∉ format.aVarBuf ++ cs.token2.pyload :=
    List.not_mem_append h.aVarBuf h2
  unfold Formatting.collect
  split
  · unfold Formatting.take
    split
    · split
      · exact ⟨h.aStrBuf, h.aVarBuf, h.sFmt⟩
      · exact ⟨h.aStrBuf, hvar, h.sFmt⟩
    split
    · exact IsPlain.output ⟨h.aStrBuf, h.aVarBuf, h.sFmt⟩
    · exact IsPlain.output ⟨h.aStrBuf, hvar, h.sFmt⟩
  · rw [search_eq]
    split
    · exact ⟨h.aStrBuf, h.aVarBuf, h1⟩
    · exact ⟨List.not_mem_append h.aStrBuf h1, h.aVarBuf, h.sFmt⟩

theorem foldl_plain {rounds : List Cursor.Iter} (hrounds : ∀ cs ∈ rounds,
    (0x1f : BitVec 8) ∉ cs.token1.pyload ∧ (0x1f : BitVec 8) ∉ cs.token2.pyload)
    {format : Formatting} (h : IsPlain format) :
    IsPlain (rounds.foldl Formatting.collect format) := by
  induction rounds generalizing format with
  | nil => exact h
  | cons cs rounds ih =>
    obtain ⟨h1, h2⟩ := hrounds cs List.mem_cons_self
    exact ih (fun cs hmem => hrounds cs (List.mem_cons_of_mem _ hmem)) (h.collect h1 h2)

/-- A round in a format writes no more than the call. -/
theorem weight_collect {format : Formatting} (hin : format.bInFormat = true)
    (hout : format.bOutVars = false) (cs : Cursor.Iter) :
    weight (format.collect cs).aStrBuf ≤
      weight format.aStrBuf + weight format.sFmt + weight format.aVarBuf + 10 := by
  have hcall : weight cformat = 8 := rfl
  have hcomma : weight [0x2c] = 1 := rfl
  have hclose : weight [0x29] = 1 := rfl
  rw [Formatting.collect, if_pos hin, Formatting.take]
  split
  · split <;>
    · dsimp only
      omega
  split
  · rw [Formatting.output, if_neg (by simp)]
    split <;>
    · simp only [weight_append, hcall, hcomma, hclose]
      omega
  · rw [Formatting.output, if_pos (by simp [hout])]
    dsimp only
    omega

/-- The loop in a format writes no more than the tokens that it sees, and the call. -/
theorem weight_take {length : BitVec 16} {tokens : List LexToken} {k : Nat}
    (hk : k ≤ tokens.length) {iter_index : BitVec 16} (hindex : iter_index.toNat + k = length.toNat)
    (bracket_deepth : BitVec 8) (aStrBuf aVarBuf sFmt : CString) (bTuple : Bool) :
    weight (((Cursor.walk length tokens iter_index bracket_deepth).take k).foldl Formatting.collect
        ⟨aStrBuf, aVarBuf, true, bTuple, false, sFmt⟩).aStrBuf ≤
      weight aStrBuf + weight sFmt + weight aVarBuf + weight (text (tokens.tail.take k)) + 10 := by
  induction k generalizing tokens iter_index bracket_deepth aVarBuf bTuple with
  | zero =>
    rw [List.take_zero, List.foldl_nil]
    dsimp only
    omega
  | succ k ih =>
    obtain ⟨token, tokens, rfl⟩ := List.exists_cons_of_length_pos (Nat.lt_of_lt_of_le
      (Nat.succ_pos k) hk)
    rw [Cursor.walk, List.take_succ_cons, List.foldl_cons, List.tail_cons]
    cases k with
    | zero =>
      rw [List.take_zero, List.foldl_nil]
      have hlast := @weight_collect ⟨aStrBuf, aVarBuf, true, bTuple, false, sFmt⟩ rfl rfl
        ⟨Cursor.Token.of token, Cursor.Token.head tokens, iter_index + 1, length,
          Cursor.deepen token.pyload bracket_deepth⟩
      dsimp only at hlast
      omega
    | succ k =>
      rw [List.length_cons] at hk
      obtain ⟨next, tokens, rfl⟩ := List.exists_cons_of_length_pos (Nat.lt_of_lt_of_le
        (Nat.succ_pos k) (Nat.le_of_succ_le_succ hk))
      rw [List.length_cons] at hk
      have hnext : (iter_index + 1).toNat + (k + 1) = length.toNat := by
        rw [Cursor.index_succ hindex]
        omega
      have hpyload : weight (Cursor.Token.head (next :: tokens)).pyload = weight next.pyload := rfl
      rw [collect_take rfl rfl (Cursor.index_ne hindex), List.take_succ_cons, text_cons,
        weight_append]
      split
      · have hrest := @ih (next :: tokens) (by rw [List.length_cons]; omega) _ hnext
          (Cursor.deepen token.pyload bracket_deepth) aVarBuf true
        rw [List.tail_cons] at hrest
        dsimp only at hrest ⊢
        omega
      · have hrest := @ih (next :: tokens) (by rw [List.length_cons]; omega) _ hnext
          (Cursor.deepen token.pyload bracket_deepth)
          (aVarBuf ++ (Cursor.Token.head (next :: tokens)).pyload) bTuple
        rw [List.tail_cons, weight_append, hpyload] at hrest
        dsimp only at hrest ⊢
        omega

/-- The loop writes no more than the tokens that it sees, and the call. -/
theorem weight_search {length : BitVec 16} {tokens : List LexToken} {k : Nat}
    (hk : k ≤ tokens.length) {iter_index : BitVec 16} (hindex : iter_index.toNat + k = length.toNat)
    (bracket_deepth : BitVec 8) (aStrBuf : CString) :
    weight (((Cursor.walk length tokens iter_index bracket_deepth).take k).foldl Formatting.collect
        (searching aStrBuf)).aStrBuf ≤
      weight aStrBuf + weight (text (tokens.take (k + 1))) + 10 := by
  induction k generalizing tokens iter_index bracket_deepth aStrBuf with
  | zero =>
    rw [List.take_zero, List.foldl_nil, searching]
    dsimp only
    omega
  | succ k ih =>
    obtain ⟨token, tokens, rfl⟩ := List.exists_cons_of_length_pos (Nat.lt_of_lt_of_le
      (Nat.succ_pos k) hk)
    rw [List.length_cons] at hk
    have hnext : (iter_index + 1).toNat + k = length.toNat := by
      rw [Cursor.index_succ hindex]
      omega
    rw [Cursor.walk, List.take_succ_cons, List.foldl_cons, List.take_succ_cons, text_cons,
      weight_append]
    by_cases hopens : opens ⟨Cursor.Token.of token, Cursor.Token.head tokens, iter_index + 1,
        length, Cursor.deepen token.pyload bracket_deepth⟩ = true
    · have hrest := weight_take (Nat.le_of_succ_le_succ hk) hnext
        (Cursor.deepen token.pyload bracket_deepth) aStrBuf [] token.pyload false
      have htail : weight (text (tokens.tail.take k)) ≤ weight (text (tokens.take (k + 1))) := by
        cases tokens with
        | nil => rw [List.tail_nil, List.take_nil, List.take_nil]
        | cons next tokens =>
          rw [List.tail_cons, List.take_succ_cons, text_cons, weight_append]
          exact Nat.le_add_left _ _
      have hround : (searching aStrBuf).collect ⟨Cursor.Token.of token, Cursor.Token.head tokens,
          iter_index + 1, length, Cursor.deepen token.pyload bracket_deepth⟩ =
          ⟨aStrBuf, [], true, false, false, token.pyload⟩ := by
        show (searching aStrBuf).search _ = _
        rw [search_eq, if_pos hopens]
        rfl
      have hnil : weight [] = 0 := rfl
      rw [hround]
      omega
    · have hrest := ih (Nat.le_of_succ_le_succ hk) hnext
        (Cursor.deepen token.pyload bracket_deepth) (aStrBuf ++ token.pyload)
      rw [weight_append] at hrest
      rw [collect_searching aStrBuf (Bool.eq_false_iff.mpr hopens)]
      exact hrest.trans (by omega)

/-- **A statement that the cursor cannot walk over does not come through.** It loses its `0x1f`,
or most of its tokens. -/
theorem walks_of_format (hformat : bFormat sRight = true) (hchar : 0x25 ∈ sRight)
    (hplain : (0x1f : BitVec 8) ∈ sRight → (0x1f : BitVec 8) ∈ format sRight)
    (hweight : weight (text (getTokens sRight)) ≤ weight (format sRight)) :
    Cursor.Walks sRight := by
  have hreads : ∀ token ∈ getTokens sRight, IsToken token := getTokens_reads sRight
  rw [format, if_neg (not_not_intro hchar), if_neg (not_not_intro hformat)] at hplain hweight
  have hnotin : (0x1f : BitVec 8) ∉ sRight := fun hmem =>
    (foldl_plain (Cursor.forEach_plain sRight)
      ⟨List.not_mem_nil, List.not_mem_nil, List.not_mem_nil⟩).aStrBuf (hplain hmem)
  refine ⟨hnotin, ?_⟩
  by_contra hlong
  have hsize : (Cursor.size (getTokens sRight)).toNat + 65535 ≤ (getTokens sRight).length := by
    rw [Cursor.size, BitVec.toNat_ofNat]
    omega
  have hne : getTokens sRight ≠ [] := fun hnil => by
    rw [hnil] at hlong
    exact hlong (Nat.zero_lt_succ _)
  have hinit : (⟨[], [], false, false, false, []⟩ : Formatting) = searching [] := rfl
  rw [Cursor.forEach_take (Cursor.plain_of_not_mem hnotin) hne, hinit] at hweight
  have hsearch := @weight_search (Cursor.size (getTokens sRight)) (getTokens sRight)
    (Cursor.size (getTokens sRight)).toNat (by omega) 0 (Nat.zero_add _) 0 []
  have htake := weight_text_take (getTokens sRight) hreads
    ((Cursor.size (getTokens sRight)).toNat + 1)
  have hnil : weight [] = 0 := rfl
  omega

/-! ### The tokens of the call -/

theorem isToken_callee : IsToken callee :=
  getTokens_reads cformat callee (by decide +kernel)

theorem isToken_opening : IsToken opening := ⟨_, .devider (by decide)⟩

theorem isToken_closing : IsToken closing := ⟨_, .devider (by decide)⟩

theorem isToken_comma : IsToken comma := ⟨_, .devider (by decide)⟩

/-- The call can stand where the literal of a format stands. -/
theorem joins_callee (hreads : ∀ token ∈ before, IsToken token) (hfront : Front before) :
    ∀ last ∈ before.getLast?, Joins last callee.pyload := by
  intro last hlast
  have hhead : callee.pyload.head? = some 0x63 := rfl
  have hc : (0x63 : BitVec 8) ∉ operators := by decide
  have htoken := hreads last (List.mem_of_getLast? hlast)
  have hsymbol : last.type = .operator → Joins last callee.pyload := by
    intro htype
    unfold Joins
    rw [htype]
    intro _ c hmem hop
    obtain rfl := Option.some.inj (hhead.symm.trans hmem)
    exact hc ((symbolTexts_chars hop).2 _ (by simp))
  rw [List.getLast?_eq_head?_reverse, Option.mem_def, List.head?_eq_some_iff] at hlast
  obtain ⟨rest, hreverse⟩ := hlast
  unfold Front at hfront
  rw [hreverse] at hfront
  have hoperator : last.pyload ∈ symbolTexts → Joins last callee.pyload := fun hmem =>
    hsymbol (type_of_symbolText htoken hmem)
  rcases hfront with hspace | hlooser | ⟨hsign, -⟩
  · have htype : ¬(last.type = .symbol ∨ last.type = .literal) := fun htype =>
      (front_kind htoken htype hspace).1 rfl
    cases hlast : last.type with
    | operator => exact hsymbol hlast
    | symbol => exact absurd (.inl hlast) htype
    | literal => exact absurd (.inr hlast) htype
    | keyword | devider | strEnd =>
      unfold Joins
      rw [hlast]
      trivial
  · have hkind : ∀ pyload ∈ looser, pyload ∈ symbolTexts ∨
        ∃ c ∈ deviders, pyload = [c] := by decide
    rcases hkind _ hlooser with hmem | ⟨c, hc, hpyload⟩
    · exact hoperator hmem
    · rw [eq_devider htoken hc (by rw [hpyload]; rfl)]
      trivial
  · have hkind : ∀ pyload ∈ [[0x2b#8], [0x2d]], pyload ∈ symbolTexts := by decide
    exact hoperator (hkind _ hsign)

/-- A percent sign can be told from a term. -/
theorem joins_term {term rest : List LexToken} (hreads : ∀ token ∈ term, IsToken token)
    (hterm : Term term) : ∃ token b, term ++ rest = token :: b ∧
      Joins percentSign token.pyload := by
  obtain ⟨token, tokens, rfl⟩ := List.exists_cons_of_ne_nil hterm.ne
  refine ⟨token, tokens ++ rest, rfl, fun _ c hc hop => ?_⟩
  have hequals : c = 0x3d := by
    have hkind : ∀ op ∈ symbolTexts, op.head? = some 0x25 → op = percent ∨ op = [0x25, 0x3d] := by
      decide
    rcases hkind _ hop rfl with heq | heq
    · cases heq
    · exact (List.cons.inj (List.cons.inj heq).2).1
  subst hequals
  have htoken := hreads token List.mem_cons_self
  by_cases hrise : rise token.pyload = 0
  · rcases hterm.tight.1 rfl hrise with htype | htype | hsign
    · exact (front_kind htoken (.inl htype) hc).2.2 (by decide)
    · exact (front_kind htoken (.inr htype) hc).2.2 (by decide)
    · have hkind : ∀ pyload ∈ [[0x2b#8], [0x2d], [0x7e]], pyload.head? ≠ some 0x3d := by decide
      exact hkind _ hsign hc
  · have hkind : ∀ pyload ∈ [[0x28#8], [0x5b], [0x7b], [0x29], [0x5d], [0x7d]],
        pyload.head? ≠ some 0x3d := by decide
    exact hrise (rise_eq_zero fun hmem => hkind _ hmem hc)

/-- A call that closes where it should. -/
theorem written_of_closes (hreads : ∀ token ∈ operand ++ after, IsToken token)
    (hclean : Clean (operand ++ after)) (h : Closes operand args after) :
    ∃ args' after', Loosens args args' ∧ Loosens after after' ∧
      written operand after = text args' ++ 0x29 :: text after' ∧
      (∀ token ∈ args' ++ closing :: after', IsToken token) ∧
      Clean (args' ++ closing :: after') := by
  rcases h with ⟨rfl, hdrops⟩ | ⟨rfl, rfl, hdrops⟩ | ⟨rfl, hdrops, a, term, n, rfl, hterm⟩
  · have hrest : opening :: (args ++ [closing]) ++ after =
        opening :: (args ++ closing :: after) := by simp
    rw [hrest] at hreads hclean
    exact ⟨args, after, .refl _, .refl _, written_tuple hdrops,
      fun token hmem => hreads token (List.mem_cons_of_mem _ hmem), hclean.2⟩
  · rw [List.append_nil] at hreads hclean
    refine ⟨operand, [], .refl _, .refl _, written_term hdrops, fun token hmem => ?_,
      @Clean.append_devider operand [] hreads (fun _ hmem => absurd hmem List.not_mem_nil) hclean
        trivial 0x29 (by decide)⟩
    rcases List.mem_append.mp hmem with hmem | hmem
    · exact hreads token hmem
    · exact List.mem_singleton.mp hmem ▸ isToken_closing
  · have hrest :
        (a ++ percentSign :: opening :: (term ++ List.replicate (n + 1) closing)) ++ after =
          (a ++ [percentSign]) ++
            opening :: (term ++ List.replicate n closing ++ closing :: after) := by
      rw [List.replicate_succ']
      simp
    have hdropped : (a ++ percentSign :: (term ++ List.replicate n closing)) ++ closing :: after =
        (a ++ [percentSign]) ++ (term ++ (List.replicate n closing ++ closing :: after)) := by simp
    refine ⟨_, after, .step hterm (behind_replicate n), .refl _, written_loose hdrops, ?_, ?_⟩
    · rw [hdropped, ← List.append_assoc term]
      rw [hrest] at hreads
      intro token hmem
      refine hreads token (List.mem_append.mpr ?_)
      exact (List.mem_append.mp hmem).imp_right (List.mem_cons_of_mem _)
    · rw [hrest] at hreads hclean
      have hterms : ∀ token ∈ term, IsToken token := fun token hmem =>
        hreads token (by simp [hmem])
      obtain ⟨first, b, hsplit, hjoins⟩ := @joins_term term
        (List.replicate n closing ++ closing :: after) hterms hterm
      rw [List.append_assoc term, hsplit] at hreads hclean
      rw [hdropped, hsplit]
      refine hclean.replace hreads (fun token hmem => ?_) hclean.of_append.2 fun last hlast => ?_
      · exact hreads token (List.mem_append_right _ (List.mem_cons_of_mem _ hmem))
      · rw [List.getLast?_concat] at hlast
        obtain rfl := Option.some.inj hlast
        exact hjoins

/-- **The call is read as it is written.** -/
theorem getTokens_rewritten (hreads : ∀ token ∈ before ++ lit :: percentSign :: rest, IsToken token)
    (hclean : Clean (before ++ lit :: percentSign :: rest)) (hfront : Front before)
    (hreads' : ∀ token ∈ args ++ closing :: after, IsToken token)
    (hclean' : Clean (args ++ closing :: after)) :
    getTokens (text (rewritten before lit args after)) = rewritten before lit args after := by
  have hlit : IsToken lit := hreads lit (by simp)
  have hcomma : ∀ token ∈ comma :: (args ++ closing :: after), IsToken token :=
    List.forall_mem_cons.mpr ⟨isToken_comma, hreads'⟩
  have hopening : ∀ token ∈ opening :: lit :: comma :: (args ++ closing :: after), IsToken token :=
    List.forall_mem_cons.mpr ⟨isToken_opening, List.forall_mem_cons.mpr ⟨hlit, hcomma⟩⟩
  have hcallee := List.forall_mem_cons.mpr ⟨isToken_callee, hopening⟩
  have hinner : Clean (lit :: comma :: (args ++ closing :: after)) :=
    (clean_cons_cons hlit hcomma).mpr ⟨joins_devider hlit (by decide) [], trivial, hclean'⟩
  have hcall : Clean (callee :: opening :: lit :: comma :: (args ++ closing :: after)) :=
    (clean_cons_cons isToken_callee hopening).mpr
      ⟨joins_devider isToken_callee (by decide) [], trivial, hinner⟩
  have hbefore : ∀ token ∈ before, IsToken token := fun token hmem =>
    hreads token (List.mem_append_left _ hmem)
  refine (getTokens_text_iff fun token hmem => ?_).mpr
    (hclean.replace hreads hcallee hcall (joins_callee hbefore hfront))
  rcases List.mem_append.mp hmem with hmem | hmem
  · exact hbefore token hmem
  · exact hcallee token hmem

/-! ### When the formats come through -/

/-- A literal is not written down as a call. -/
theorem ne_call (hlit : IsString lit) (x y : CString) :
    text before ++ cformat ++ x ≠ text (before ++ lit :: rest) ++ y := by
  intro heq
  rw [text_append, text_cons, List.append_assoc, List.append_assoc, List.append_assoc] at heq
  have hhead := congrArg (List.headD · 0) (List.append_cancel_left heq)
  have hcall : (cformat ++ x).headD 0 = 0x63 := rfl
  obtain ⟨-, hquote⟩ := hlit
  match hpyload : lit.pyload with
  | [] =>
    rw [hpyload] at hquote
    revert hquote
    decide
  | c :: pyload =>
    rw [hpyload] at hquote hhead
    have hc : (0x63 : BitVec 8) = c := hhead
    have hne : (0x63 : BitVec 8) ≠ 0x27 ∧ (0x63 : BitVec 8) ≠ 0x22 := by decide
    subst hc
    exact hquote.elim hne.1 hne.2

/-- A format that stands in front of another one takes it in. -/
theorem noPair_of_format (hwalks : Cursor.Walks sRight) (hformat : bFormat sRight = true)
    {a : List LexToken} (htokens : getTokens sRight = a ++ rest) (y : CString)
    (h : format sRight = text a ++ y) : NoPair a := by
  by_contra hpair
  obtain ⟨b, l, more, rfl, hl, hb⟩ := exists_pair hpair
  rw [List.append_assoc] at htokens
  rw [format_eq hwalks hformat htokens hl hb, List.append_assoc, List.append_assoc] at h
  exact ne_call hl _ _ h

theorem Formats.percent_mem (h : Formats sRight before lit operand args after) :
    percentSign ∈ getTokens sRight := by
  rw [h.tokens]
  simp

theorem Formats.char_mem (h : Formats sRight before lit operand args after) : 0x25 ∈ sRight :=
  mem_of_pyload h.percent_mem List.mem_cons_self (by decide)

theorem Formats.bFormat (h : Formats sRight before lit operand args after)
    (hwalks : Cursor.Walks sRight) : bFormat sRight = true := by
  have htokens := h.tokens
  rw [List.append_cons before lit] at htokens
  refine bFormat_of hwalks htokens ?_
  have hsum : height (before ++ [lit]) = height before + rise lit.pyload := by
    simp [height]
  rw [hsum, h.before.1, h.lit.height]
  rfl

/-- The tokens of a format, and what a call of it has. -/
theorem Operand.text (h : Operand operand args) :
    (∀ c, c ≠ 0x28 → c ≠ 0x29 → c ∈ text operand → c ∈ text args) ∧
      weight (text operand) ≤ weight (text args) + 2 := by
  cases h with
  | tuple =>
    refine ⟨fun c hopen hclose hmem => ?_, ?_⟩
    · rw [text_opening, text_append, text_closing] at hmem
      rcases List.mem_cons.mp hmem with heq | hmem
      · exact absurd heq hopen
      rcases List.mem_append.mp hmem with hmem | hmem
      · exact hmem
      · exact absurd (List.mem_singleton.mp hmem) hclose
    · have ho : weight opening.pyload = 1 := rfl
      have hc : weight closing.pyload = 1 := rfl
      rw [text_cons, text_append, text_cons, weight_append, weight_append, weight_append, ho, hc]
      have hnil : weight (Lexer.text []) = 0 := rfl
      omega
  | term => exact ⟨fun c _ _ hmem => hmem, Nat.le_add_right _ _⟩

/-- **What a statement is like when its format comes through.** -/
theorem Formats.clear (h : Formats sRight before lit operand args after)
    (htext : text (getTokens sRight) = sRight) {args' after' : List LexToken}
    (hargs : Loosens args args') (hafter : Loosens after after')
    (heq : format sRight = text (rewritten before lit args' after')) :
    Cursor.Walks sRight ∧ NoPair before ∧ Closes operand args after := by
  have hreads : ∀ token ∈ getTokens sRight, IsToken token := getTokens_reads sRight
  have htokens := h.tokens
  obtain ⟨hmem, hheavy⟩ := h.operand.text
  have hsigns : text (rewritten before lit args' after') = text before ++ cformat ++
      (lit.pyload ++ 0x2c :: (text args' ++ 0x29 :: text after')) := by
    rw [rewritten, text_append, text_cons, text_cons, text_cons, text_cons, text_append,
      text_closing, List.append_assoc]
    rfl
  have hsource : sRight = text before ++ (lit.pyload ++ 0x25 :: (text operand ++ text after)) := by
    rw [← htext, htokens, text_append, text_cons, text_cons, text_append]
    rfl
  rw [hsigns] at heq
  have hformat : Suger.bFormat sRight = true := by
    by_contra hnone
    have hkeeps : format sRight = sRight := by
      rw [format, if_pos hnone]
      exact ite_self _
    rw [hkeeps] at heq
    refine @ne_call before (percentSign :: (operand ++ after)) lit h.lit
      (lit.pyload ++ 0x2c :: (text args' ++ 0x29 :: text after')) [] ?_
    rw [← heq, List.append_nil, ← htokens, htext]
  have hwalks : Cursor.Walks sRight := by
    refine walks_of_format hformat h.char_mem (fun hplain => ?_) ?_
    · rw [hsource] at hplain
      rw [heq]
      simp only [List.mem_append, List.mem_cons] at hplain ⊢
      have hopen : (0x1f : BitVec 8) ≠ 0x28 := by decide
      have hclose : (0x1f : BitVec 8) ≠ 0x29 := by decide
      have hpercent : (0x1f : BitVec 8) ≠ 0x25 := by decide
      rcases hplain with hplain | hplain | hplain | hplain | hplain
      · exact .inl (.inl hplain)
      · exact .inr (.inl hplain)
      · exact absurd hplain hpercent
      · exact .inr (.inr (.inr (.inl (hargs.mem hopen hclose (hmem _ hopen hclose hplain)))))
      · exact .inr (.inr (.inr (.inr (.inr (hafter.mem hopen hclose hplain)))))
    · have hcall : weight cformat = 8 := rfl
      have hone : ∀ s, weight (0x2c :: s) = 1 + weight s ∧ weight (0x29 :: s) = 1 + weight s ∧
          weight (0x25 :: s) = 1 + weight s := fun s =>
        ⟨weight_append [0x2c] s, weight_append [0x29] s, weight_append [0x25] s⟩
      have hlighter := hargs.weight_le
      have hlighter' := hafter.weight_le
      rw [htext, heq, hsource]
      simp only [weight_append, hcall, (hone _).1, (hone _).2.1, (hone _).2.2]
      omega
  have hnone : NoPair before := noPair_of_format hwalks hformat htokens _
    (heq.trans (List.append_assoc _ _ _))
  refine ⟨hwalks, hnone, ?_⟩
  rw [format_eq hwalks hformat htokens h.lit hnone] at heq
  have hwritten : written operand after = text args' ++ 0x29 :: text after' := by
    simp only [List.append_assoc] at heq
    have hcancel := List.append_cancel_left (List.append_cancel_left
      (List.append_cancel_left heq))
    exact (List.cons.inj hcancel).2
  cases h.operand with
  | tuple => exact .inl ⟨rfl, closes_tuple hargs hafter hwritten⟩
  | term =>
    refine closes_term (fun token hmem => hreads token ?_) h.after.1 hargs hafter hwritten
    rw [htokens]
    exact List.mem_append_right _ (List.mem_cons_of_mem _ (List.mem_cons_of_mem _ hmem))

/-- What a statement without formats is like when it stays as it is. -/
theorem clear_of_keeps (htext : text (getTokens sRight) = sRight) (h : format sRight = sRight) :
    bFormat sRight = false ∨ 0x25 ∉ sRight ∨
      (Cursor.Walks sRight ∧ NoPair (getTokens sRight)) := by
  rcases hformat : bFormat sRight with _ | _
  · exact .inl rfl
  by_cases hchar : 0x25 ∈ sRight
  · have hwalks : Cursor.Walks sRight := walks_of_format hformat hchar (fun hmem => h.symm ▸ hmem)
      (by rw [h, htext])
    refine .inr (.inr ⟨hwalks, @noPair_of_format sRight [] hwalks hformat _
      (List.append_nil _).symm [] ?_⟩)
    rw [h, List.append_nil, htext]
  · exact .inr (.inl hchar)

/-- **A statement that the lexer has been over is rewritten as its formats mean just when it is
clear.** -/
theorem format_meets_iff (htext : text (getTokens sRight) = sRight) :
    Meets sRight ↔ Clear sRight := by
  have hreads : ∀ token ∈ getTokens sRight, IsToken token := getTokens_reads sRight
  have hclean : Clean (getTokens sRight) := (getTokens_text_iff hreads).mp (by rw [htext])
  constructor
  · intro hmeets
    refine ⟨fun h => ?_, fun hnone => clear_of_keeps htext (hmeets.keeps hnone)⟩
    obtain ⟨args', after', hargs, hafter, heq, -⟩ := hmeets.rewrites h
    exact h.clear htext hargs hafter heq
  · intro hclear
    refine ⟨fun {before lit operand args after} h => ?_, fun hnone => ?_⟩
    · obtain ⟨hwalks, hpair, hcloses⟩ := hclear.rewrites h
      have htokens := h.tokens
      rw [htokens] at hreads hclean
      have hbehind : before ++ lit :: percentSign :: (operand ++ after) =
          (before ++ [lit, percentSign]) ++ (operand ++ after) := by simp
      obtain ⟨args', after', hargs, hafter, hwritten, hreads', hclean'⟩ :=
        written_of_closes (fun token hmem => hreads token (by
          rw [hbehind]
          exact List.mem_append_right _ hmem)) (Clean.of_append (hbehind ▸ hclean)) hcloses
      have heq : format sRight = text (rewritten before lit args' after') := by
        rw [format_eq hwalks (h.bFormat hwalks) htokens h.lit hpair]
        rw [written] at hwritten
        rw [hwritten, rewritten, text_append, text_cons, text_cons, text_cons, text_cons,
          text_append, text_closing]
        simp only [List.append_assoc]
        rfl
      refine ⟨args', after', hargs, hafter, heq, ?_⟩
      rw [heq]
      exact getTokens_rewritten hreads hclean h.before.2.2 hreads' hclean'
    · rcases hclear.keeps hnone with hformat | hchar | ⟨hwalks, hpair⟩
      · rw [format, if_pos (Bool.eq_false_iff.mp hformat)]
        exact ite_self _
      · rw [format, if_pos hchar]
      · rw [format]
        split
        · rfl
        split
        · rfl
        · rename_i hchar _
          have hne : getTokens sRight ≠ [] := fun hnil => by
            rw [hnil] at htext
            rw [← htext] at hchar
            exact hchar List.not_mem_nil
          rw [Cursor.forEach_eq hwalks.plain hne hwalks.2]
          exact (foldl_none _ hreads hpair).trans htext

theorem format_meets_iff_term : Meets [0x27, 0x27, 0x25, 0x61] ↔ Clear [0x27, 0x27, 0x25, 0x61] :=
  format_meets_iff (by decide +kernel)

/-- Of `'d'%a+'x'` the sum is formatted. -/
theorem not_format_meets : ¬∀ sRight, text (getTokens sRight) = sRight → Meets sRight := by
  intro hall
  have htext : text (getTokens [0x27, 0x64, 0x27, 0x25, 0x61, 0x2b, 0x27, 0x78, 0x27]) =
      [0x27, 0x64, 0x27, 0x25, 0x61, 0x2b, 0x27, 0x78, 0x27] := by decide +kernel
  have hterm : Term [⟨.symbol, [0x61]⟩] :=
    ⟨List.cons_ne_nil _ _, ⟨by decide, rfl⟩, ⟨fun _ _ => .inl rfl, trivial⟩⟩
  have hformats : Formats [0x27, 0x64, 0x27, 0x25, 0x61, 0x2b, 0x27, 0x78, 0x27] []
      ⟨.literal, [0x27, 0x64, 0x27]⟩ [⟨.symbol, [0x61]⟩] [⟨.symbol, [0x61]⟩]
      [⟨.operator, [0x2b]⟩, ⟨.literal, [0x27, 0x78, 0x27]⟩] := by
    refine ⟨by decide +kernel, ⟨rfl, .inl rfl⟩, .term hterm fun inner _ heq => ?_,
      ⟨rfl, fun b l a heq => ?_, trivial⟩, rfl, ?_⟩
    · exact absurd (List.cons.inj heq).1 (by decide)
    · cases b <;> cases heq
    · rintro token ⟨⟩
      exact .inr (.inl ⟨rfl, by decide⟩)
  obtain ⟨args', after', hargs, hafter, heq, -⟩ := (hall _ htext).rewrites hformats
  rcases (hformats.clear htext hargs hafter heq).2.2 with
    ⟨hoperand, -⟩ | ⟨-, hnil, -⟩ | ⟨-, hdrops, -⟩
  · exact absurd (List.cons.inj hoperand).1 (by decide)
  · cases hnil
  · exact absurd hdrops (by decide)

end Format

end PikaScript
