import Mathlib.Data.List.TakeWhile
import PikaScript.Parser.Relex

/-! The cursor of `PikaParser.c`.

A statement's tokens are kept in one string, with a `0x1f` in front of each. `Cursor_forEach`
takes them off it one by one; its body sees two neighbouring tokens, how many brackets are open
behind the first, and how many tokens there have been. The last round sees the end of the
string as its first token. -/
namespace PikaScript

/-- The value of a `TokenType`. -/
def TokenType.code : TokenType → BitVec 8
  | strEnd => 0
  | symbol => 1
  | keyword => 2
  | operator => 3
  | devider => 4
  | literal => 5

/-! ### The code -/

namespace TokenStream

/-- The tokens as `Lexer_setToken` writes them one behind the other. -/
def ofTokens (tokens : List LexToken) : CString :=
  tokens.flatMap fun token => 0x1f :: token.type.code :: token.pyload

/-- `TokenStream_getSize`. -/
def getSize (tokenStream : CString) : BitVec 16 :=
  if tokenStream = [] then 0 else BitVec.ofNat 16 (tokenStream.count 0x1f + 1)

/-- `TokenStream_pop`: the token, and what is left of the stream. -/
def pop (tokenStream : CString) : CString × CString :=
  (tokenStream.takeWhile (· != 0x1f), (tokenStream.dropWhile (· != 0x1f)).tail)

end TokenStream

namespace Cursor

/-- A `LexToken` of the cursor: its type is whatever character it begins with. -/
structure Token where
  type : BitVec 8
  pyload : CString
deriving DecidableEq, Repr

/-- `LexToken_update`. -/
def update : CString → Token
  | [] => ⟨0, []⟩
  | type :: pyload => if type = 0 then ⟨0, []⟩ else ⟨type, pyload⟩

/-- What the body of the loop sees of the cursor. -/
structure Iter where
  token1 : Token
  token2 : Token
  iter_index : BitVec 16
  length : BitVec 16
  bracket_deepth : BitVec 8
deriving DecidableEq, Repr

/-- The brackets that are open behind a token. -/
def deepen (pyload : CString) (bracket_deepth : BitVec 8) : BitVec 8 :=
  if pyload ∈ [[0x28#8], [0x5b], [0x7b]] then bracket_deepth + 1
  else if pyload ∈ [[0x29#8], [0x5d], [0x7d]] then bracket_deepth - 1
  else bracket_deepth

/-- `Cursor_iterStart` in each of some rounds: the last token, the stream, and what else the
cursor remembers. -/
def iters (length : BitVec 16) : Nat → CString → CString → BitVec 16 → BitVec 8 → List Iter
  | 0, _, _, _, _ => []
  | rounds + 1, last_token, tokenStream, iter_index, bracket_deepth =>
    let token1 := update last_token
    let popped := TokenStream.pop tokenStream
    let cs : Iter := ⟨token1, update popped.1, iter_index + 1, length,
      deepen token1.pyload bracket_deepth⟩
    cs :: iters length rounds popped.1 popped.2 cs.iter_index cs.bracket_deepth

/-- `Cursor_forEach`: what its body sees, round by round. -/
def forEach (sStmt : CString) : List Iter :=
  let tokenStream := TokenStream.ofTokens (Lexer.getTokens sStmt)
  let length := TokenStream.getSize tokenStream
  let first := TokenStream.pop (TokenStream.pop tokenStream).2
  iters length length.toNat first.1 first.2 0 0

/-- `Token_isBranketStart`. -/
def Token.isBranketStart (token : Token) : Bool :=
  token.type = TokenType.devider.code && token.pyload ∈ [[0x28#8], [0x5b], [0x7b]]

/-- `_Cursor_count`. -/
def count (sStmt : CString) (eType : TokenType) (sPyload : CString) (bSkipbracket : Bool) :
    BitVec 8 :=
  if ¬sPyload <:+: sStmt then 0
  else (forEach sStmt).foldl (fun uRes cs =>
    if cs.token1.type = eType.code ∧ cs.token1.pyload = sPyload then
      let branket_deepth_check := if cs.token1.isBranketStart then 1 else 0
      if bSkipbracket ∧ cs.bracket_deepth.toInt > branket_deepth_check then uRes
      else uRes + 1
    else uRes) 0

/-- `Cursor_isContain`. -/
def isContain (sStmt : CString) (eType : TokenType) (sPyload : CString) : Bool :=
  count sStmt eType sPyload false > 0

/-! ### What the rounds see -/

/-- A token as the cursor has it. -/
def Token.of (token : LexToken) : Token := ⟨token.type.code, token.pyload⟩

/-- The first of some tokens, or the end of the string. -/
def Token.head (tokens : List LexToken) : Token := (tokens.map Token.of).headD ⟨0, []⟩

/-- The rounds over some tokens, from some index and depth on. -/
def walk (length : BitVec 16) : List LexToken → BitVec 16 → BitVec 8 → List Iter
  | [], iter_index, bracket_deepth =>
    [⟨⟨0, []⟩, ⟨0, []⟩, iter_index + 1, length, bracket_deepth⟩]
  | token :: tokens, iter_index, bracket_deepth =>
    ⟨Token.of token, Token.head tokens, iter_index + 1, length,
        deepen token.pyload bracket_deepth⟩ ::
      walk length tokens (iter_index + 1) (deepen token.pyload bracket_deepth)

/-- The tokens do not hold the character that the stream has between them. -/
def Plain (tokens : List LexToken) : Prop := ∀ token ∈ tokens, (0x1f : BitVec 8) ∉ token.pyload

/-- A token in the stream, without the `0x1f` in front. -/
def bare (token : LexToken) : CString := token.type.code :: token.pyload

theorem not_mem_bare {token : LexToken} (h : (0x1f : BitVec 8) ∉ token.pyload) :
    (0x1f : BitVec 8) ∉ bare token := by
  rw [bare, List.mem_cons, not_or]
  refine ⟨?_, h⟩
  cases token.type <;> decide

/-- What stands in front of a `0x1f` is popped, and that with it. -/
theorem pop_append {token : CString} (h : (0x1f : BitVec 8) ∉ token) (stream : CString) :
    TokenStream.pop (token ++ 0x1f :: stream) = (token, stream) := by
  have hall : ∀ c ∈ token, (c != 0x1f) = true := fun c hc =>
    bne_iff_ne.mpr fun heq => h (heq ▸ hc)
  rw [TokenStream.pop, List.takeWhile_append_of_pos hall, List.dropWhile_append_of_pos hall]
  simp

theorem pop_self {token : CString} (h : (0x1f : BitVec 8) ∉ token) :
    TokenStream.pop token = (token, []) := by
  have hall : ∀ c ∈ token, (c != 0x1f) = true := fun c hc =>
    bne_iff_ne.mpr fun heq => h (heq ▸ hc)
  rw [TokenStream.pop, List.takeWhile_eq_self_iff.mpr hall, List.dropWhile_eq_nil_iff.mpr hall]
  rfl

/-- The tokens in the stream, without the `0x1f` in front of the first. -/
def rest : List LexToken → CString
  | [] => []
  | token :: tokens => bare token ++ TokenStream.ofTokens tokens

theorem ofTokens_cons (token : LexToken) (tokens : List LexToken) :
    TokenStream.ofTokens (token :: tokens) = 0x1f :: rest (token :: tokens) := by
  rw [TokenStream.ofTokens, List.flatMap_cons]
  rfl

theorem pop_rest {tokens : List LexToken} (h : Plain tokens) : TokenStream.pop (rest tokens) =
    ((tokens.map bare).headD [], rest tokens.tail) := by
  match tokens with
  | [] => rfl
  | [token] =>
    have htoken := not_mem_bare (h token List.mem_cons_self)
    rw [rest, TokenStream.ofTokens, List.flatMap_nil, List.append_nil, pop_self htoken]
    rfl
  | token :: token' :: tokens =>
    have htoken := not_mem_bare (h token List.mem_cons_self)
    rw [rest, ofTokens_cons, pop_append htoken]
    rfl

/-- Types that the lexer gives. -/
theorem reads_type {token : LexToken} {text : CString} (h : Lexer.Reads token text) :
    token.type ≠ .strEnd := by
  cases h with
  | devider => nofun
  | operator => nofun
  | word hmem =>
    rcases (Lexer.words_type _ hmem).1 with htype | htype <;> rw [htype] <;> nofun
  | text =>
    rcases Lexer.symbolType_cases text with htype | htype <;> simp [htype]

theorem update_head {tokens : List LexToken} (h : ∀ token ∈ tokens, token.type ≠ .strEnd) :
    update ((tokens.map bare).headD []) = Token.head tokens := by
  match tokens, h with
  | [], _ => rfl
  | token :: tokens, h =>
    have hcode : token.type.code ≠ 0 := by
      have htype := h token List.mem_cons_self
      revert htype
      cases token.type <;> decide
    show update (token.type.code :: token.pyload) = Token.of token
    rw [update, if_neg hcode]
    rfl

/-- **The cursor walks over the tokens.** -/
theorem iters_eq {tokens : List LexToken} (hplain : Plain tokens)
    (htype : ∀ token ∈ tokens, token.type ≠ .strEnd) (length : BitVec 16) {rounds : Nat}
    (hrounds : rounds ≤ tokens.length + 1) (iter_index : BitVec 16) (bracket_deepth : BitVec 8) :
    iters length rounds ((tokens.map bare).headD []) (rest tokens.tail) iter_index bracket_deepth =
      (walk length tokens iter_index bracket_deepth).take rounds := by
  induction rounds generalizing tokens iter_index bracket_deepth with
  | zero => rfl
  | succ rounds ih =>
    have htail : Plain tokens.tail := fun token htoken => hplain token (List.mem_of_mem_tail htoken)
    have htypes : ∀ token ∈ tokens.tail, token.type ≠ .strEnd :=
      fun token htoken => htype token (List.mem_of_mem_tail htoken)
    rw [iters]
    dsimp only
    rw [pop_rest htail]
    dsimp only
    rw [update_head htype, update_head htypes]
    match tokens, hrounds with
    | [], hrounds =>
      obtain rfl : rounds = 0 := by simpa using hrounds
      rfl
    | token :: tokens, hrounds =>
      rw [walk, List.take_succ_cons]
      exact congrArg (_ :: ·) (ih htail htypes (by simpa using hrounds) _ _)

theorem count_ofTokens {tokens : List LexToken} (h : Plain tokens) :
    (TokenStream.ofTokens tokens).count 0x1f = tokens.length := by
  induction tokens with
  | nil => rfl
  | cons token tokens ih =>
    have hbare := not_mem_bare (h token List.mem_cons_self)
    rw [ofTokens_cons, rest, List.count_cons_self, List.count_append,
      List.count_eq_zero.mpr hbare,
      ih fun token' htoken => h token' (List.mem_cons_of_mem _ htoken), List.length_cons,
      Nat.zero_add]

/-- The number of rounds that a cursor makes, as it counts them. -/
def size (tokens : List LexToken) : BitVec 16 := BitVec.ofNat 16 (tokens.length + 1)

/-- **What the loop sees, however many tokens there are.** -/
theorem forEach_take {sStmt : CString} (hplain : Plain (Lexer.getTokens sStmt))
    (hne : Lexer.getTokens sStmt ≠ []) : forEach sStmt =
      (walk (size (Lexer.getTokens sStmt)) (Lexer.getTokens sStmt) 0 0).take
        (size (Lexer.getTokens sStmt)).toNat := by
  have htype : ∀ token ∈ Lexer.getTokens sStmt, token.type ≠ .strEnd := fun token htoken =>
    let ⟨_, hreads⟩ := Lexer.getTokens_reads sStmt token htoken
    reads_type hreads
  rw [forEach]
  generalize Lexer.getTokens sStmt = tokens at hplain hne htype ⊢
  match tokens, hne with
  | token :: tokens, _ =>
    have hsize : TokenStream.getSize (TokenStream.ofTokens (token :: tokens)) =
        size (token :: tokens) := by
      rw [TokenStream.getSize, if_neg (by rw [ofTokens_cons]; exact List.cons_ne_nil _ _),
        count_ofTokens hplain]
      rfl
    have hfirst : TokenStream.pop (TokenStream.ofTokens (token :: tokens)) =
        ([], rest (token :: tokens)) := by
      rw [ofTokens_cons]
      exact pop_append List.not_mem_nil _
    rw [hsize, hfirst, pop_rest hplain]
    refine iters_eq hplain htype _ ?_ 0 0
    rw [size, BitVec.toNat_ofNat]
    exact Nat.mod_le _ _

theorem length_walk (length : BitVec 16) (tokens : List LexToken) (iter_index : BitVec 16)
    (bracket_deepth : BitVec 8) :
    (walk length tokens iter_index bracket_deepth).length = tokens.length + 1 := by
  induction tokens generalizing iter_index bracket_deepth with
  | nil => rfl
  | cons token tokens ih => rw [walk, List.length_cons, ih, List.length_cons]

/-- **With fewer than 65535 tokens it sees all of them, and then the end.** -/
theorem forEach_eq {sStmt : CString} (hplain : Plain (Lexer.getTokens sStmt))
    (hne : Lexer.getTokens sStmt ≠ []) (hlength : (Lexer.getTokens sStmt).length < 65535) :
    forEach sStmt = walk (size (Lexer.getTokens sStmt)) (Lexer.getTokens sStmt) 0 0 := by
  rw [forEach_take hplain hne, List.take_of_length_le]
  rw [length_walk, size, BitVec.toNat_ofNat, Nat.mod_eq_of_lt (by omega)]

/-- A statement without a `0x1f` has no token with one. -/
theorem plain_of_not_mem {sStmt : CString} (h : (0x1f : BitVec 8) ∉ sStmt) :
    Plain (Lexer.getTokens sStmt) :=
  fun _ htoken hmem => h (Lexer.mem_of_pyload htoken hmem (by decide))

/-- A statement that the cursor can walk over: it has no `0x1f`, which the token stream has
between its tokens, and not too many tokens. -/
def Walks (sStmt : CString) : Prop :=
  (0x1f : BitVec 8) ∉ sStmt ∧ (Lexer.getTokens sStmt).length < 65535

theorem Walks.plain {sStmt : CString} (h : Walks sStmt) : Plain (Lexer.getTokens sStmt) :=
  plain_of_not_mem h.1

theorem walk_token1 (length : BitVec 16) (tokens : List LexToken) (iter_index : BitVec 16)
    (bracket_deepth : BitVec 8) :
    (walk length tokens iter_index bracket_deepth).map Iter.token1 =
      tokens.map Token.of ++ [⟨0, []⟩] := by
  induction tokens generalizing iter_index bracket_deepth with
  | nil => rfl
  | cons token tokens ih => rw [walk, List.map_cons, ih, List.map_cons, List.cons_append]

/-- The texts that the loop sees, one after the other. -/
def pyloads (sStmt : CString) : List CString := (forEach sStmt).map fun cs => cs.token1.pyload

theorem token1_take {sStmt : CString} (hplain : Plain (Lexer.getTokens sStmt))
    (hne : Lexer.getTokens sStmt ≠ []) : (forEach sStmt).map Iter.token1 =
      ((Lexer.getTokens sStmt).map Token.of ++ [(⟨0, []⟩ : Token)]).take
        (size (Lexer.getTokens sStmt)).toNat := by
  rw [forEach_take hplain hne, List.map_take, walk_token1]

theorem pyloads_take {sStmt : CString} (hplain : Plain (Lexer.getTokens sStmt))
    (hne : Lexer.getTokens sStmt ≠ []) : pyloads sStmt =
      ((Lexer.getTokens sStmt).map LexToken.pyload ++ [[]]).take
        (size (Lexer.getTokens sStmt)).toNat := by
  have hmap : pyloads sStmt = ((forEach sStmt).map Iter.token1).map Token.pyload := by
    rw [pyloads, List.map_map]
    rfl
  rw [hmap, token1_take hplain hne, List.map_take, List.map_append, List.map_map]
  rfl

theorem pyloads_eq {sStmt : CString} (hplain : Plain (Lexer.getTokens sStmt))
    (hne : Lexer.getTokens sStmt ≠ []) (hlength : (Lexer.getTokens sStmt).length < 65535) :
    pyloads sStmt = (Lexer.getTokens sStmt).map LexToken.pyload ++ [[]] := by
  rw [pyloads_take hplain hne, List.take_of_length_le]
  rw [List.length_append, List.length_map, List.length_singleton, size, BitVec.toNat_ofNat,
    Nat.mod_eq_of_lt (by omega)]

theorem update_plain {token : CString} (h : (0x1f : BitVec 8) ∉ token) :
    (0x1f : BitVec 8) ∉ (update token).pyload := by
  match token, h with
  | [], _ => exact List.not_mem_nil
  | type :: pyload, h =>
    rw [update]
    split
    · exact List.not_mem_nil
    · exact fun hmem => h (List.mem_cons_of_mem _ hmem)

theorem pop_plain (tokenStream : CString) :
    (0x1f : BitVec 8) ∉ (TokenStream.pop tokenStream).1 := by
  intro hmem
  have hpos := List.mem_takeWhile_imp hmem
  simp at hpos

/-- What is popped from the stream does not hold the `0x1f`. -/
theorem iters_plain {length : BitVec 16} {rounds : Nat} {last_token tokenStream : CString}
    {iter_index : BitVec 16} {bracket_deepth : BitVec 8} (hlast : (0x1f : BitVec 8) ∉ last_token) :
    ∀ cs ∈ iters length rounds last_token tokenStream iter_index bracket_deepth,
      (0x1f : BitVec 8) ∉ cs.token1.pyload ∧ (0x1f : BitVec 8) ∉ cs.token2.pyload := by
  induction rounds generalizing last_token tokenStream iter_index bracket_deepth with
  | zero => exact fun cs hcs => absurd hcs List.not_mem_nil
  | succ rounds ih =>
    intro cs hcs
    rw [iters] at hcs
    rcases List.mem_cons.mp hcs with rfl | hcs
    · exact ⟨update_plain hlast, update_plain (pop_plain tokenStream)⟩
    · exact ih (pop_plain tokenStream) cs hcs

theorem forEach_plain (sStmt : CString) : ∀ cs ∈ forEach sStmt,
    (0x1f : BitVec 8) ∉ cs.token1.pyload ∧ (0x1f : BitVec 8) ∉ cs.token2.pyload :=
  iters_plain (pop_plain _)

theorem pyloads_plain (sStmt : CString) :
    ∀ pyload ∈ pyloads sStmt, (0x1f : BitVec 8) ∉ pyload := by
  intro pyload hpyload
  obtain ⟨cs, hcs, rfl⟩ := List.mem_map.mp hpyload
  exact (forEach_plain sStmt cs hcs).1

/-- The index does not wrap before the last round. -/
theorem index_succ {iter_index length : BitVec 16} {left : Nat}
    (h : iter_index.toNat + left + 1 = length.toNat) :
    (iter_index + 1).toNat = iter_index.toNat + 1 := by
  have hone : (1 : BitVec 16).toNat = 1 := rfl
  have hlength := length.isLt
  rw [BitVec.toNat_add, hone]
  omega

/-- Only in the last round it is the length. -/
theorem index_ne {iter_index length : BitVec 16} {left : Nat}
    (h : iter_index.toNat + (left + 1) + 1 = length.toNat) : iter_index + 1 ≠ length := by
  intro heq
  have hnext := index_succ h
  rw [heq] at hnext
  omega

/-! ### Brackets -/

/-- What a text does to the number of open brackets. -/
def rise (pyload : CString) : Int :=
  if pyload ∈ [[0x28#8], [0x5b], [0x7b]] then 1
  else if pyload ∈ [[0x29#8], [0x5d], [0x7d]] then -1
  else 0

theorem rise_eq_zero {pyload : CString}
    (h : pyload ∉ [[0x28#8], [0x5b], [0x7b], [0x29], [0x5d], [0x7d]]) : rise pyload = 0 := by
  have hopen : pyload ∉ [[0x28#8], [0x5b], [0x7b]] := fun hmem => h (List.mem_append_left _ hmem)
  have hclose : pyload ∉ [[0x29#8], [0x5d], [0x7d]] := fun hmem =>
    h (List.mem_append_right [[0x28], [0x5b], [0x7b]] hmem)
  rw [rise, if_neg hopen, if_neg hclose]

/-- How many brackets are open behind some tokens. -/
def height (tokens : List LexToken) : Int := (tokens.map fun token => rise token.pyload).sum

/-- The brackets that are open behind some tokens, as the cursor counts them. -/
def depth (tokens : List LexToken) (bracket_deepth : BitVec 8) : BitVec 8 :=
  tokens.foldl (fun bracket_deepth token => deepen token.pyload bracket_deepth)
    bracket_deepth

theorem deepen_eq (pyload : CString) (bracket_deepth : BitVec 8) :
    deepen pyload bracket_deepth = bracket_deepth + BitVec.ofInt 8 (rise pyload) := by
  unfold deepen rise
  split
  · rfl
  split
  · exact BitVec.sub_eq_add_neg _ _
  · exact (BitVec.add_zero _).symm

theorem depth_eq (tokens : List LexToken) (bracket_deepth : BitVec 8) :
    depth tokens bracket_deepth = bracket_deepth + BitVec.ofInt 8 (height tokens) := by
  induction tokens generalizing bracket_deepth with
  | nil => exact (BitVec.add_zero _).symm
  | cons token tokens ih =>
    have hheight : height (token :: tokens) = rise token.pyload + height tokens := List.sum_cons
    rw [hheight, BitVec.ofInt_add, ← BitVec.add_assoc, ← deepen_eq]
    exact ih _

/-! ### Counting -/

theorem foldl_count {α : Type} (p : α → Prop) [DecidablePred p] (l : List α) (uRes : BitVec 8) :
    l.foldl (fun uRes a => if p a then uRes + 1 else uRes) uRes =
      uRes + BitVec.ofNat 8 (l.countP p) := by
  induction l generalizing uRes with
  | nil => exact (BitVec.add_zero uRes).symm
  | cons a l ih =>
    rw [List.foldl_cons, ih, List.countP_cons]
    by_cases hp : p a
    · simp [hp, BitVec.ofNat_add, BitVec.add_assoc, BitVec.add_comm]
    · simp [hp]

/-- **`Cursor_count` counts modulo 256 how often the loop sees a token.** -/
theorem count_eq {sStmt sPyload : CString} (hstands : sPyload <:+: sStmt) (eType : TokenType) :
    count sStmt eType sPyload false =
      BitVec.ofNat 8 (((forEach sStmt).map Iter.token1).count ⟨eType.code, sPyload⟩) := by
  have hstep : (fun (uRes : BitVec 8) (cs : Iter) =>
      if cs.token1.type = eType.code ∧ cs.token1.pyload = sPyload then
        let branket_deepth_check := if cs.token1.isBranketStart then 1 else 0
        if false = true ∧ cs.bracket_deepth.toInt > branket_deepth_check then uRes
        else uRes + 1
      else uRes) =
      fun uRes cs => if cs.token1 = ⟨eType.code, sPyload⟩ then uRes + 1 else uRes := by
    funext uRes cs
    obtain ⟨⟨type, pyload⟩, _⟩ := cs
    simp only [Bool.false_eq_true, false_and, if_false, Token.mk.injEq]
  rw [count, if_neg (not_not_intro hstands), hstep, foldl_count, zero_add,
    List.count_eq_countP, List.countP_map]
  refine congrArg (BitVec.ofNat 8) (List.countP_congr fun cs _ => ?_)
  simp

theorem code_injective {a b : TokenType} (h : a.code = b.code) : a = b := by
  revert h
  cases a <;> cases b <;> decide

theorem of_injective : Function.Injective Token.of := by
  intro a b h
  have htype : a.type = b.type := code_injective (congrArg Token.type h)
  have hpyload : a.pyload = b.pyload := congrArg Token.pyload h
  cases a
  cases b
  exact LexToken.mk.injEq .. ▸ ⟨htype, hpyload⟩

theorem forEach_nil {sStmt : CString} (h : Lexer.getTokens sStmt = []) : forEach sStmt = [] := by
  rw [forEach, h]
  rfl

theorem mem_token1 {token : LexToken} {tokens : List LexToken} (htype : token.type ≠ .strEnd)
    (h : Token.of token ∈ tokens.map Token.of ++ [(⟨0, []⟩ : Token)]) : token ∈ tokens := by
  rcases List.mem_append.mp h with hmem | hend
  · exact (List.mem_map_of_injective of_injective).mp hmem
  · have hcode : token.type.code = TokenType.strEnd.code :=
      congrArg Token.type (List.mem_singleton.mp hend)
    exact absurd (code_injective hcode) htype

theorem isContain_iff (sStmt : CString) (eType : TokenType) (sPyload : CString) :
    isContain sStmt eType sPyload = true ↔ count sStmt eType sPyload false ≠ 0 := by
  rw [isContain, decide_eq_true_iff]
  generalize count sStmt eType sPyload false = n
  bv_omega

/-- A token that is contained is one of the statement's. -/
theorem mem_of_isContain {sStmt : CString} (token : LexToken)
    (hplain : Plain (Lexer.getTokens sStmt)) (htype : token.type ≠ .strEnd)
    (h : isContain sStmt token.type token.pyload = true) : token ∈ Lexer.getTokens sStmt := by
  rw [isContain_iff] at h
  by_cases hstands : token.pyload <:+: sStmt
  · rw [count_eq hstands] at h
    have hmem : Token.of token ∈ (forEach sStmt).map Iter.token1 := by
      by_contra hnot
      exact h (congrArg (BitVec.ofNat 8) (List.count_eq_zero.mpr hnot))
    by_cases hne : Lexer.getTokens sStmt = []
    · rw [forEach_nil hne] at hmem
      cases hmem
    · rw [token1_take hplain hne] at hmem
      exact mem_token1 htype (List.mem_of_mem_take hmem)
  · rw [count, if_pos hstands] at h
    exact absurd rfl h

/-- A token that stands once in the statement is contained. -/
theorem isContain_of_count {sStmt : CString} (token : LexToken)
    (hplain : Plain (Lexer.getTokens sStmt)) (hlength : (Lexer.getTokens sStmt).length < 65535)
    (htype : token.type ≠ .strEnd) (hstands : token.pyload <:+: sStmt)
    (hcount : (Lexer.getTokens sStmt).count token = 1) :
    isContain sStmt token.type token.pyload = true := by
  have hne : Lexer.getTokens sStmt ≠ [] := by
    intro hnil
    rw [hnil] at hcount
    cases hcount
  have hend : Token.of token ∉ [(⟨0, []⟩ : Token)] := by
    intro hmem
    have hcode : token.type.code = TokenType.strEnd.code :=
      congrArg Token.type (List.mem_singleton.mp hmem)
    exact htype (code_injective hcode)
  have hcounts : ((forEach sStmt).map Iter.token1).count (Token.of token) = 1 := by
    rw [forEach_eq hplain hne hlength, walk_token1, List.count_append,
      List.count_map_of_injective _ _ of_injective, hcount, List.count_eq_zero.mpr hend]
  rw [isContain_iff, count_eq hstands]
  show BitVec.ofNat 8 (((forEach sStmt).map Iter.token1).count (Token.of token)) ≠ 0
  rw [hcounts]
  decide

end Cursor

end PikaScript
