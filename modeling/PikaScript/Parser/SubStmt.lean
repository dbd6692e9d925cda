import PikaScript.Parser.Cursor

/-! Lists in brackets in `PikaParser.c`: the arguments of a call, the entries of a list or a
dict, the parameters of a `def`.

`Parser_popSubStmt` and `Cursor_popToken` take the front of a statement off it, up to a
delimiter outside of brackets. The parser calls them until it has all the items of a list. How
many there are it finds out in different ways: for a call and a `def` it counts the commas first,
for a list and a dict it goes on until nothing is left. -/
namespace PikaScript

/-! ### The code -/

/-- `strCut`: what is between the first start sign and the last end sign. -/
def strCut (strIn : CString) (startSign endSign : BitVec 8) : Option CString :=
  if startSign ∈ strIn ∧ endSign ∈ strIn then
    let iStart := strIn.idxOf startSign
    let iEnd := strIn.length - 1 - strIn.reverse.idxOf endSign
    some ((strIn.take iEnd).drop (iStart + 1))
  else none

/-- `strOnly`. -/
def strOnly (string : CString) (ch : BitVec 8) : Bool := string ≠ [] && string.all (· == ch)

namespace SubStmt

def charComma : CString := [0x2c]
def charColon : CString := [0x3a]

/-- What the loop of `Parser_popSubStmt` has collected. -/
structure Popped where
  aSubstmt : CString
  aNewStmt : CString
  bIsGetSubstmt : Bool

/-- One round of it. -/
def Popped.collect (sDelimiter : CString) (popped : Popped) (cs : Cursor.Iter) : Popped :=
  if popped.bIsGetSubstmt then { popped with aNewStmt := popped.aNewStmt ++ cs.token1.pyload }
  else if cs.bracket_deepth.toInt > 0 then
    { popped with aSubstmt := popped.aSubstmt ++ cs.token1.pyload }
  else if cs.token1.pyload = sDelimiter then { popped with bIsGetSubstmt := true }
  else { popped with aSubstmt := popped.aSubstmt ++ cs.token1.pyload }

/-- `Parser_popSubStmt`: the sub-statement, and what is left of the statement. -/
def popSubStmt (sStmt sDelimiter : CString) : CString × CString :=
  let popped := (Cursor.forEach sStmt).foldl (Popped.collect sDelimiter) ⟨[], [], false⟩
  (popped.aSubstmt, popped.aNewStmt)

/-- One round of the loop of `Cursor_popToken`. -/
def Popped.collectToken (sDevide : CString) (popped : Popped) (cs : Cursor.Iter) : Popped :=
  if ¬popped.bIsGetSubstmt ∧
      (cs.bracket_deepth = 0 ∧ cs.token1.pyload = sDevide ∨ cs.iter_index = cs.length) then
    { popped with bIsGetSubstmt := true }
  else if ¬popped.bIsGetSubstmt then
    { popped with aSubstmt := popped.aSubstmt ++ cs.token1.pyload }
  else { popped with aNewStmt := popped.aNewStmt ++ cs.token1.pyload }

/-- `Cursor_popToken`. -/
def popToken (sStmt sDevide : CString) : CString × CString :=
  let popped := (Cursor.forEach sStmt).foldl (Popped.collectToken sDevide) ⟨[], [], false⟩
  (popped.aSubstmt, popped.aNewStmt)

/-- `Parser_getSubStmtNum`. -/
def getSubStmtNum (sSubStmts sDelimiter : CString) : Nat :=
  if sSubStmts = charComma then 0
  else (Cursor.count sSubStmts .devider sDelimiter true).toNat

/-- The loop over the arguments of a method: the sub-statements, and whether it is a tuple. None
at a syntax error. -/
def methodLoop (iSubStmtsNum : Nat) (sMethod : CString) :
    Nat → Nat → CString → Option (List CString × Bool)
  | 0, _, _ => some ([], false)
  | rounds + 1, i, sSubStmts =>
    let popped := popSubStmt sSubStmts charComma
    if strOnly popped.2 0x2c then
      if i + 2 < iSubStmtsNum then none
      else some ([popped.1], i + 2 = iSubStmtsNum ∧ sMethod = [])
    else if popped.2 = [] then
      if i + 1 ≠ iSubStmtsNum then none else some ([popped.1], false)
    else (methodLoop iSubStmtsNum sMethod rounds (i + 1) popped.2).map fun r =>
      (popped.1 :: r.1, r.2)

/-- The branch of `AST_parseStmt` for a method, from its last statement on: the name of the
method, its sub-statements, and whether it is a tuple. -/
def parseMethod (sLastStmt : CString) : Option (CString × List CString × Bool) := do
  let sMethod := sLastStmt.takeWhile (· != 0x28)
  let sSubStmts := (← strCut sLastStmt 0x28 0x29) ++ charComma
  let iSubStmtsNum := getSubStmtNum sSubStmts charComma
  let r ← methodLoop iSubStmtsNum sMethod iSubStmtsNum 0 sSubStmts
  return (sMethod, r)

/-- Items are popped until nothing is left. None when the rounds do not suffice: all but the last
take a comma. -/
def popAll : Nat → CString → Option (List CString)
  | 0, _ => none
  | rounds + 1, sSubStmts =>
    let popped := popSubStmt sSubStmts charComma
    if popped.2 = [] then some [popped.1]
    else (popAll rounds popped.2).map (popped.1 :: ·)

/-- `_AST_parse_list`: its sub-statements. -/
def parseList (sStmt : CString) : Option (List CString) := do
  let sSubStmts := (← strCut sStmt 0x5b 0x5d) ++ charComma
  popAll (sSubStmts.count 0x2c + 1) sSubStmts

/-- `_AST_parse_dict`: its sub-statements, a key and a value for each entry. -/
def parseDict (sStmt : CString) : Option (List CString) := do
  let subStmts := (← strCut sStmt 0x7b 0x7d) ++ charComma
  let sSubStmts ← popAll (subStmts.count 0x2c + 1) subStmts
  return sSubStmts.flatMap fun sSubStmt =>
    let popped := popSubStmt sSubStmt charColon
    [popped.1, popped.2]

/-- Items are popped so many times. -/
def popTimes : Nat → CString → List CString
  | 0, _ => []
  | rounds + 1, sArgList =>
    let popped := popToken sArgList charComma
    popped.1 :: popTimes rounds popped.2

/-- The items that `_defGetDefault` takes from the declaration of a function. -/
def defItems (sDeclear : CString) : Option (List CString) := do
  let sArgList ← strCut sDeclear 0x28 0x29
  return popTimes ((Cursor.count sArgList .devider charComma true).toNat + 1) sArgList

/-! ### What a loop pops -/

open Lexer
open Cursor (depth plain_of_not_mem)

/-- The texts that some rounds see, one behind the other. -/
def seen (rounds : List Cursor.Iter) : CString := rounds.flatMap fun cs => cs.token1.pyload

/-- What is in front of the first round that ends the sub-statement, and what is behind it. -/
def split (ends : Cursor.Iter → Bool) (rounds : List Cursor.Iter) : CString × CString :=
  (seen (rounds.takeWhile fun cs => !ends cs), seen (rounds.dropWhile fun cs => !ends cs).tail)

/-- The rounds at which `Cursor_popToken` does. -/
def tokenEnds (sDevide : CString) (cs : Cursor.Iter) : Bool :=
  cs.bracket_deepth == 0 && cs.token1.pyload == sDevide || cs.iter_index == cs.length

variable {ends : Cursor.Iter → Bool}

theorem seen_cons (cs : Cursor.Iter) (rounds : List Cursor.Iter) :
    seen (cs :: rounds) = cs.token1.pyload ++ seen rounds := List.flatMap_cons

theorem split_ends {cs : Cursor.Iter} (h : ends cs = true) (rounds : List Cursor.Iter) :
    split ends (cs :: rounds) = ([], seen rounds) := by
  rw [split, List.takeWhile_cons_of_neg (by simp [h]), List.dropWhile_cons_of_neg (by simp [h])]
  rfl

theorem split_goes {cs : Cursor.Iter} (h : ends cs = false) (rounds : List Cursor.Iter) :
    split ends (cs :: rounds) =
      (cs.token1.pyload ++ (split ends rounds).1, (split ends rounds).2) := by
  rw [split, List.takeWhile_cons_of_pos (by simp [h]), List.dropWhile_cons_of_pos (by simp [h]),
    seen_cons]
  rfl

theorem foldl_split {collect : Popped → Cursor.Iter → Popped}
    (hstep : ∀ popped cs, collect popped cs =
      if popped.bIsGetSubstmt then { popped with aNewStmt := popped.aNewStmt ++ cs.token1.pyload }
      else if ends cs then { popped with bIsGetSubstmt := true }
      else { popped with aSubstmt := popped.aSubstmt ++ cs.token1.pyload })
    (rounds : List Cursor.Iter) (aSubstmt aNewStmt : CString) :
    (rounds.foldl collect ⟨aSubstmt, aNewStmt, true⟩ = ⟨aSubstmt, aNewStmt ++ seen rounds, true⟩) ∧
      (rounds.foldl collect ⟨aSubstmt, aNewStmt, false⟩).aSubstmt =
        aSubstmt ++ (split ends rounds).1 ∧
      (rounds.foldl collect ⟨aSubstmt, aNewStmt, false⟩).aNewStmt =
        aNewStmt ++ (split ends rounds).2 := by
  induction rounds generalizing aSubstmt aNewStmt with
  | nil => simp [seen, split]
  | cons cs rounds ih =>
    refine ⟨?_, ?_⟩
    · rw [List.foldl_cons, hstep, if_pos rfl, (ih _ _).1, seen_cons, List.append_assoc]
    · rw [List.foldl_cons, hstep, if_neg Bool.false_ne_true]
      by_cases hends : ends cs = true
      · rw [if_pos hends, (ih _ _).1, split_ends hends]
        exact ⟨(List.append_nil _).symm, rfl⟩
      · rw [if_neg hends, (ih _ _).2.1, (ih _ _).2.2, split_goes (Bool.eq_false_iff.mpr hends)]
        exact ⟨List.append_assoc _ _ _, rfl⟩

theorem popToken_eq (sStmt sDevide : CString) :
    popToken sStmt sDevide = split (tokenEnds sDevide) (Cursor.forEach sStmt) := by
  obtain ⟨-, hfront, hback⟩ := @foldl_split (tokenEnds sDevide) (Popped.collectToken sDevide)
    (fun popped cs => by
      unfold Popped.collectToken tokenEnds
      cases popped.bIsGetSubstmt <;> simp)
    (Cursor.forEach sStmt) [] []
  rw [popToken, hfront, hback]
  rfl

/-- Nothing of what the loop sees is lost but the text at which it ends the sub-statement. -/
theorem split_seen (rounds : List Cursor.Iter) :
    ∃ last, seen rounds = (split ends rounds).1 ++ last ++ (split ends rounds).2 ∧
      ((split ends rounds).2 ≠ [] → ∃ cs ∈ rounds, ends cs = true ∧ last = cs.token1.pyload) := by
  induction rounds with
  | nil => exact ⟨[], rfl, fun h => absurd rfl h⟩
  | cons cs rounds ih =>
    rw [seen_cons]
    by_cases hends : ends cs = true
    · rw [split_ends hends]
      exact ⟨cs.token1.pyload, rfl, fun _ => ⟨cs, List.mem_cons_self, hends, rfl⟩⟩
    · rw [split_goes (Bool.eq_false_iff.mpr hends)]
      obtain ⟨last, hseen, hlast⟩ := ih
      refine ⟨last, by simp only [hseen, List.append_assoc], fun hne => ?_⟩
      obtain ⟨cs', hmem, hcs'⟩ := hlast hne
      exact ⟨cs', List.mem_cons_of_mem cs hmem, hcs'⟩

/-! ### On the tokens of a statement -/

/-- What is in front of the first of some tokens at which a loop ends the sub-statement, and what
is behind it. -/
def cut (stops : BitVec 8 → Bool) (delimiter : CString) :
    BitVec 8 → List LexToken → List LexToken × List LexToken
  | _, [] => ([], [])
  | bracket_deepth, token :: tokens =>
    let bracket_deepth := Cursor.deepen token.pyload bracket_deepth
    if stops bracket_deepth && token.pyload == delimiter then ([], tokens)
    else
      let rest := cut stops delimiter bracket_deepth tokens
      (token :: rest.1, rest.2)

/-- The depths at which `Parser_popSubStmt` takes a delimiter for the end. -/
def subStops (bracket_deepth : BitVec 8) : Bool := !(bracket_deepth.toInt > 0)

/-- The depths at which `Cursor_popToken` does. -/
def tokenStops (bracket_deepth : BitVec 8) : Bool := bracket_deepth == 0

/-- Rounds that end a sub-statement do so for their depth and their text, unless they are the
last. -/
structure EndsBy (ends : Cursor.Iter → Bool) (stops : BitVec 8 → Bool) (delimiter : CString) :
    Prop where
  eq : ∀ cs, cs.iter_index ≠ cs.length →
    ends cs = (stops cs.bracket_deepth && cs.token1.pyload == delimiter)

theorem tokenEnds_by (delimiter : CString) : EndsBy (tokenEnds delimiter) tokenStops delimiter :=
  ⟨fun cs hcs => by simp [tokenEnds, tokenStops, hcs]⟩

variable {stops : BitVec 8 → Bool} {delimiter : CString}

theorem cut_ends {token : LexToken} {bracket_deepth : BitVec 8}
    (h : (stops (Cursor.deepen token.pyload bracket_deepth) && token.pyload == delimiter) = true)
    (tokens : List LexToken) :
    cut stops delimiter bracket_deepth (token :: tokens) = ([], tokens) := if_pos h

theorem cut_goes {token : LexToken} {bracket_deepth : BitVec 8}
    (h : (stops (Cursor.deepen token.pyload bracket_deepth) && token.pyload == delimiter) = false)
    (tokens : List LexToken) : cut stops delimiter bracket_deepth (token :: tokens) =
      (token :: (cut stops delimiter (Cursor.deepen token.pyload bracket_deepth) tokens).1,
        (cut stops delimiter (Cursor.deepen token.pyload bracket_deepth) tokens).2) :=
  if_neg (Bool.not_eq_true _ ▸ h)

theorem seen_walk (length : BitVec 16) (tokens : List LexToken) (iter_index : BitVec 16)
    (bracket_deepth : BitVec 8) :
    seen (Cursor.walk length tokens iter_index bracket_deepth) = text tokens := by
  induction tokens generalizing iter_index bracket_deepth with
  | nil => rfl
  | cons token tokens ih =>
    rw [Cursor.walk, seen_cons, ih, text_cons]
    rfl

/-- **On the rounds over some tokens a loop cuts these.** -/
theorem split_walk (h : EndsBy ends stops delimiter) {length : BitVec 16} (tokens : List LexToken)
    {iter_index : BitVec 16} (hindex : iter_index.toNat + tokens.length + 1 = length.toNat)
    (bracket_deepth : BitVec 8) :
    split ends (Cursor.walk length tokens iter_index bracket_deepth) =
      (text (cut stops delimiter bracket_deepth tokens).1,
        text (cut stops delimiter bracket_deepth tokens).2) := by
  induction tokens generalizing iter_index bracket_deepth with
  | nil =>
    rw [Cursor.walk]
    cases hends : ends ⟨⟨0, []⟩, ⟨0, []⟩, iter_index + 1, length, bracket_deepth⟩ with
    | true =>
      rw [split_ends hends]
      rfl
    | false =>
      rw [split_goes hends]
      rfl
  | cons token tokens ih =>
    rw [List.length_cons] at hindex
    have hlast := Cursor.index_ne hindex
    have hends := h.eq ⟨Cursor.Token.of token, Cursor.Token.head tokens, iter_index + 1, length,
      Cursor.deepen token.pyload bracket_deepth⟩ hlast
    rw [Cursor.walk]
    cases hstop : stops (Cursor.deepen token.pyload bracket_deepth) &&
        token.pyload == delimiter with
    | true =>
      rw [split_ends (hends.trans hstop), cut_ends hstop, seen_walk]
      rfl
    | false =>
      rw [split_goes (hends.trans hstop), cut_goes hstop,
        ih (by rw [Cursor.index_succ hindex]; omega)]
      rfl

/-- **What a loop pops off a statement that the cursor can walk over.** -/
theorem split_forEach (h : EndsBy ends stops delimiter) {sStmt : CString}
    (hplain : Cursor.Plain (getTokens sStmt)) (hlength : (getTokens sStmt).length < 65535) :
    split ends (Cursor.forEach sStmt) =
      (text (cut stops delimiter 0 (getTokens sStmt)).1,
        text (cut stops delimiter 0 (getTokens sStmt)).2) := by
  by_cases hne : getTokens sStmt = []
  · rw [Cursor.forEach_nil hne, hne]
    rfl
  · rw [Cursor.forEach_eq hplain hne hlength]
    refine split_walk h (getTokens sStmt) ?_ 0
    have hzero : (0 : BitVec 16).toNat = 0 := rfl
    rw [Cursor.size, BitVec.toNat_ofNat, hzero]
    omega

/-! ### Where it is cut -/

/-- No delimiter stands at a depth at which the loop takes it for the end. -/
def Shallow (stops : BitVec 8 → Bool) (delimiter : CString) : BitVec 8 → List LexToken → Prop
  | _, [] => True
  | bracket_deepth, token :: tokens =>
    (stops (Cursor.deepen token.pyload bracket_deepth) && token.pyload == delimiter) = false ∧
      Shallow stops delimiter (Cursor.deepen token.pyload bracket_deepth) tokens

theorem cut_shallow {tokens : List LexToken} {bracket_deepth : BitVec 8}
    (h : Shallow stops delimiter bracket_deepth tokens) (rest : List LexToken) :
    cut stops delimiter bracket_deepth (tokens ++ rest) =
      (tokens ++ (cut stops delimiter (depth tokens bracket_deepth) rest).1,
        (cut stops delimiter (depth tokens bracket_deepth) rest).2) := by
  induction tokens generalizing bracket_deepth with
  | nil => rfl
  | cons token tokens ih =>
    rw [List.cons_append, cut_goes h.1, ih h.2]
    rfl

/-- Tokens with a delimiter at such a depth are not popped whole. -/
theorem cut_deep {tokens : List LexToken} {bracket_deepth : BitVec 8}
    (h : ¬Shallow stops delimiter bracket_deepth tokens) (rest : List LexToken) :
    ∃ back, back ≠ [] ∧
      tokens = (cut stops delimiter bracket_deepth (tokens ++ rest)).1 ++ back := by
  induction tokens generalizing bracket_deepth with
  | nil => exact absurd trivial h
  | cons token tokens ih =>
    rw [List.cons_append]
    cases hstop : stops (Cursor.deepen token.pyload bracket_deepth) &&
        token.pyload == delimiter with
    | true =>
      rw [cut_ends hstop]
      exact ⟨token :: tokens, List.cons_ne_nil _ _, rfl⟩
    | false =>
      rw [cut_goes hstop]
      obtain ⟨back, hne, htokens⟩ := ih fun hrest => h ⟨hstop, hrest⟩
      exact ⟨back, hne, congrArg (token :: ·) htokens⟩

/-! ### What is lost -/

theorem seen_forEach (sStmt : CString) :
    seen (Cursor.forEach sStmt) = (Cursor.pyloads sStmt).flatten := by
  rw [seen, Cursor.pyloads, List.flatMap_def]

/-- No sub-statement has a `0x1f`. -/
theorem not_mem_split (sStmt : CString) :
    (0x1f : BitVec 8) ∉ (split ends (Cursor.forEach sStmt)).1 ∧
      (0x1f : BitVec 8) ∉ (split ends (Cursor.forEach sStmt)).2 := by
  have hseen : (0x1f : BitVec 8) ∉ seen (Cursor.forEach sStmt) := by
    rw [seen_forEach]
    intro hmem
    obtain ⟨pyload, hpyload, hmem⟩ := List.mem_flatten.mp hmem
    exact Cursor.pyloads_plain sStmt pyload hpyload hmem
  obtain ⟨last, heq, -⟩ := @split_seen ends (Cursor.forEach sStmt)
  rw [heq, List.mem_append, List.mem_append] at hseen
  exact ⟨fun h => hseen (.inl (.inl h)), fun h => hseen (.inr h)⟩

/-- What a loop sees of a statement weighs no more than its tokens. Of one that is too long for the
cursor it does not see 65535 tokens. -/
theorem weight_seen_text {sStmt : CString} (hplain : Cursor.Plain (getTokens sStmt)) :
    weight (seen (Cursor.forEach sStmt)) +
      (if (getTokens sStmt).length < 65535 then 0 else 65535) ≤
      weight (text (getTokens sStmt)) := by
  have htokens : ∀ token ∈ getTokens sStmt, IsToken token := getTokens_reads sStmt
  by_cases hne : getTokens sStmt = []
  · rw [Cursor.forEach_nil hne, hne]
    exact Nat.zero_le _
  by_cases hlength : (getTokens sStmt).length < 65535
  · rw [if_pos hlength, Cursor.forEach_eq hplain hne hlength, seen_walk]
    exact Nat.le_refl _
  · rw [if_neg hlength, seen_forEach, Cursor.pyloads_take hplain hne]
    have hsize : (Cursor.size (getTokens sStmt)).toNat + 65535 ≤ (getTokens sStmt).length := by
      rw [Cursor.size, BitVec.toNat_ofNat]
      omega
    have htake := weight_text_take (getTokens sStmt) htokens
      (Cursor.size (getTokens sStmt)).toNat
    rw [List.take_append_of_le_length (by rw [List.length_map]; omega), List.map_take.symm,
      ← List.flatMap_def]
    have htext : weight (((getTokens sStmt).take (Cursor.size (getTokens sStmt)).toNat).flatMap
        LexToken.pyload) = weight (text ((getTokens sStmt).take
          (Cursor.size (getTokens sStmt)).toNat)) := rfl
    omega

/-- It weighs no more than the statement. -/
theorem weight_seen {sStmt : CString} (h : (0x1f : BitVec 8) ∉ sStmt) :
    weight (seen (Cursor.forEach sStmt)) +
      (if (getTokens sStmt).length < 65535 then 0 else 65535) ≤ weight sStmt :=
  (weight_seen_text (plain_of_not_mem h)).trans (weight_getTokens sStmt)

/-! ### Popping one sub-statement after the other -/

/-- What a loop pops off a statement, and what is left of it. -/
def pop (ends : Cursor.Iter → Bool) (sStmt : CString) : CString × CString :=
  split ends (Cursor.forEach sStmt)

/-- Sub-statements that are popped off a statement one after the other. -/
inductive Pops (ends : Cursor.Iter → Bool) : CString → List CString → Prop
  | nil (sStmt : CString) : Pops ends sStmt []
  | cons {sStmt : CString} {subStmts : List CString} (h : Pops ends (pop ends sStmt).2 subStmts) :
      Pops ends sStmt ((pop ends sStmt).1 :: subStmts)

theorem Pops.plain {sStmt : CString} {subStmts : List CString} (h : Pops ends sStmt subStmts) :
    ∀ sub ∈ subStmts, (0x1f : BitVec 8) ∉ sub := by
  induction h with
  | nil => exact fun sub hsub => absurd hsub List.not_mem_nil
  | cons _ ih =>
    rename_i sStmt _ _
    intro sub hsub
    rcases List.mem_cons.mp hsub with rfl | hsub
    · exact (not_mem_split sStmt).1
    · exact ih sub hsub

theorem weight_pop (sStmt : CString) :
    weight (pop ends sStmt).1 + weight (pop ends sStmt).2 ≤
      weight (seen (Cursor.forEach sStmt)) := by
  obtain ⟨last, hseen, -⟩ := @split_seen ends (Cursor.forEach sStmt)
  rw [hseen, weight_append, weight_append, pop]
  omega

/-- Sub-statements together weigh no more than what they are popped off. -/
theorem Pops.weight_le {sStmt : CString} {subStmts : List CString} (h : Pops ends sStmt subStmts)
    (hplain : (0x1f : BitVec 8) ∉ sStmt) : weight subStmts.flatten +
      (if (getTokens sStmt).length < 65535 then 0 else 65535) ≤ weight sStmt := by
  induction h with
  | nil sStmt =>
    have hseen := weight_seen hplain
    rw [List.flatten_nil]
    exact le_trans (Nat.add_le_add_right (Nat.zero_le _) _) hseen
  | cons _ ih =>
    rename_i sStmt subStmts _
    have hrest := ih (not_mem_split sStmt).2
    have hpop := @weight_pop ends sStmt
    have hseen := weight_seen hplain
    rw [List.flatten_cons, weight_append]
    omega

theorem count_ofTokens (tokens : List LexToken) :
    (TokenStream.ofTokens tokens).count 0x2c = (text tokens).count 0x2c := by
  induction tokens with
  | nil => rfl
  | cons token tokens ih =>
    have hcode : token.type.code ≠ 0x2c := by cases token.type <;> decide
    rw [TokenStream.ofTokens, List.flatMap_cons, text_cons, List.count_append, List.count_append,
      List.count_cons_of_ne (by decide), List.count_cons_of_ne hcode, ← ih]
    rfl

end SubStmt

end PikaScript
