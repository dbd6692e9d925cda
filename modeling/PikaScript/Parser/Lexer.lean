import PikaScript.Bytecode.Instruct

/-! The lexer of `PikaParser.c`.

`Lexer_getTokenStream` reads a statement once, from left to right. What has been read since the
last token is the pending symbol; a space, a devider, an operator, a keyword and the end of a
string turn it into a token. A character is seen with the two in front of it and as many behind
it as the longest keyword needs. -/
namespace PikaScript

/-- `TokenType`. -/
inductive TokenType where
  | strEnd
  | symbol
  | keyword
  | operator
  | devider
  | literal
deriving DecidableEq, Repr

structure LexToken where
  type : TokenType
  pyload : CString
deriving DecidableEq, Repr

namespace Lexer
open InstructIndex (letters)

/-! ### Characters and words -/

def isQuote (c : BitVec 8) : Bool := c == 0x27 || c == 0x22

def isDigit (c : BitVec 8) : Bool := 0x30 ≤ c && c ≤ 0x39

/-- The characters behind which no keyword begins. -/
def isWord (c : BitVec 8) : Bool :=
  0x61 ≤ c && c ≤ 0x7a || 0x41 ≤ c && c ≤ 0x5a || isDigit c || c == 0x5f || c == 0x2e

def deviders : CString := letters ['(', ')', ',', '[', ']', ':', '{', '}', ';']

/-- The characters that begin an operator. -/
def operators : CString :=
  letters ['>', '<', '*', '/', '+', '-', '!', '=', '%', '&', '|', '^', '~']

/-- The operators that can be doubled. -/
def doubled : CString := letters ['>', '<', '*', '/']

/-- The operators that an equals sign can follow. -/
def assigned : CString := letters ['>', '<', '*', '/', '+', '-', '!', '=', '%', '|', '&', '^']

/-- A keyword or operator of letters: the text it is found by, its token, and how many
characters behind the first one are taken. -/
structure Word where
  text : CString
  token : LexToken
  skip : Nat

def words : List Word :=
  [⟨letters ['n', 'o', 't', ' '], ⟨.operator, letters [' ', 'n', 'o', 't', ' ']⟩, 3⟩,
   ⟨letters ['a', 'n', 'd', ' '], ⟨.operator, letters [' ', 'a', 'n', 'd', ' ']⟩, 3⟩,
   ⟨letters ['o', 'r', ' '], ⟨.operator, letters [' ', 'o', 'r', ' ']⟩, 2⟩,
   ⟨letters ['i', 's', ' '], ⟨.operator, letters [' ', 'i', 's', ' ']⟩, 2⟩,
   ⟨letters ['i', 'n', ' '], ⟨.operator, letters [' ', 'i', 'n', ' ']⟩, 2⟩,
   ⟨letters ['i', 'f', ' '], ⟨.keyword, letters [' ', 'i', 'f', ' ']⟩, 2⟩,
   ⟨letters ['a', 's', ' '], ⟨.operator, letters [' ', 'a', 's', ' ']⟩, 2⟩,
   ⟨letters ['f', 'o', 'r', ' '], ⟨.keyword, letters [' ', 'f', 'o', 'r', ' ']⟩, 3⟩,
   ⟨letters ['i', 'm', 'p', 'o', 'r', 't', ' '],
    ⟨.operator, letters [' ', 'i', 'm', 'p', 'o', 'r', 't', ' ']⟩, 5⟩,
   ⟨letters ['@', 'i', 'n', 'h', ' '], ⟨.operator, letters ['@', 'i', 'n', 'h', ' ']⟩, 3⟩]

/-! ### The code -/

/-- The token of a text: a literal if it begins like a string, a number or bytes. -/
def symbolType : CString → TokenType
  | [] => .symbol
  | c :: rest =>
    if isQuote c then .literal
    else if isDigit c then .literal
    else if c == 0x62 && isQuote (rest.headD 0) then .literal
    else .symbol

/-- `Lexer_setSymbel` of the text of the pending symbol. -/
def setSymbel (text : CString) : List LexToken :=
  if text = [] then [] else [⟨symbolType text, text⟩]

/-- The variables of the loop. Of a character that an operator has taken already nothing is
done but that it is counted in `skip`. -/
structure State where
  cn2 : BitVec 8
  cn1 : BitVec 8
  /-- The text from `iSymbolStartIndex` on, unless that is -1. -/
  symbol : Option CString
  /-- The quote of the string that the loop is in, if in any. -/
  bInString : Option (BitVec 8)
  bNumber : Bool
  skip : Nat
deriving DecidableEq

/-- What a character outside strings begins. -/
inductive Found where
  | comment
  | exponent
  | token (token : LexToken) (skip : Nat)
  | other

def found (cn1 c0 : BitVec 8) (bNumber : Bool) (rest : CString) : Found :=
  let c1 := rest.headD 0
  let c2 := rest.tail.headD 0
  if c0 == 0x23 then .comment
  else if deviders.contains c0 then .token ⟨.devider, [c0]⟩ 0
  else if operators.contains c0 then
    if c0 == 0x2d && bNumber && (cn1 == 0x65 || cn1 == 0x45) then .exponent
    else if (c0 == 0x2a || c0 == 0x2f) && c0 == c1 && c2 == 0x3d then
      .token ⟨.operator, [c0, c1, 0x3d]⟩ 2
    else if doubled.contains c0 && c0 == c1 then
      if c2 == 0x3d then .token ⟨.operator, [c0, c1, 0x3d]⟩ 2
      else .token ⟨.operator, [c0, c1]⟩ 1
    else if assigned.contains c0 && c1 == 0x3d then .token ⟨.operator, [c0, c1]⟩ 1
    else .token ⟨.operator, [c0]⟩ 0
  else if isWord cn1 then .other
  else match words.find? fun word => word.text.isPrefixOf (c0 :: rest) with
    | some word => .token word.token word.skip
    | none => .other

/-- One round of the loop: the variables behind it and the tokens it adds. None when it leaves
the loop. -/
def step (s : State) (c0 : BitVec 8) (rest : CString) : Option (State × List LexToken) :=
  let text := s.symbol.getD []
  let bNumber := if s.symbol.isNone then isDigit c0 else s.bNumber
  let unescaped := s.cn1 != 0x5c || s.cn2 == 0x5c
  let next : State := { s with cn2 := s.cn1, cn1 := c0, bNumber := bNumber }
  match s.bInString with
  | some quote =>
    if c0 == quote && unescaped then
      some ({ next with bInString := none, symbol := none }, setSymbel (text ++ [c0]))
    else some ({ next with symbol := some (text ++ [c0]) }, [])
  | none =>
    if isQuote c0 && unescaped then
      some ({ next with bInString := some c0, symbol := some (text ++ [c0]) }, [])
    else match found s.cn1 c0 bNumber rest with
      | .comment => none
      | .exponent => some ({ next with symbol := some (text ++ [c0]) }, [])
      | .token token skip =>
        some ({ next with symbol := none, skip := skip }, setSymbel text ++ [token])
      | .other =>
        if c0 == 0x20 then some ({ next with symbol := none }, setSymbel text)
        else if rest.isEmpty then
          some ({ next with symbol := none }, setSymbel (text ++ [c0]))
        else some ({ next with symbol := some (text ++ [c0]) }, [])

/-- A round, or the passing over a character that has been taken. -/
def advance (s : State) (c0 : BitVec 8) (rest : CString) : Option (State × List LexToken) :=
  match s.skip with
  | 0 => step s c0 rest
  | skip + 1 => some ({ s with cn2 := s.cn1, cn1 := c0, skip := skip }, [])

/-- The rounds of the loop, each with the variables behind it and the tokens it adds. -/
def trace : State → CString → List (State × List LexToken)
  | _, [] => []
  | s, c0 :: rest =>
    match advance s c0 rest with
    | none => []
    | some r => r :: trace r.1 rest

/-- The variables in front of the loop. -/
def start : State := ⟨0, 0, none, none, false, 0⟩

/-- `Lexer_getTokenStream`, as the list of its tokens. -/
def getTokens (sStmt : CString) : List LexToken := (trace start sStmt).flatMap Prod.snd

end Lexer

end PikaScript
