import PikaScript.Parser.Cursor

/-! Augmented assignment in `PikaParser.c`.

`Suger_selfOperator` turns `t op= e` into `t = t op (e)`. It looks for the operator in a table of
twelve and takes the statement apart at it; both sides are written down without the spaces that
the lexer passed over. So it does what it should just for the statements whose tokens can be told
apart without spaces. -/
namespace PikaScript

/-! ### The code -/

namespace Suger
open InstructIndex (letters)

def selfOperators : List CString :=
  [letters ['+', '='], letters ['-', '='], letters ['*', '='], letters ['/', '='],
    letters ['%', '='], letters ['&', '='], letters ['|', '='], letters ['^', '='],
    letters ['<', '<', '='], letters ['>', '>', '='], letters ['*', '*', '='],
    letters ['/', '/', '=']]

/-- What the loop over the statement has collected. -/
structure Sides where
  bRight : Bool
  aLeft : CString
  aRight : CString
deriving DecidableEq

/-- One round of the loop. -/
def Sides.collect (sides : Sides) (pyload : CString) : Sides :=
  if pyload ∈ selfOperators then { sides with bRight := true }
  else if ¬sides.bRight then { sides with aLeft := sides.aLeft ++ pyload }
  else { sides with aRight := sides.aRight ++ pyload }

/-- `Suger_selfOperator`: whether there is a left side, and what the two sides are then. -/
def selfOperator (sStmt sRight : CString) (sLeft : Option CString) :
    Bool × CString × Option CString :=
  match selfOperators.find? (Cursor.isContain sStmt .operator) with
  | none => (false, sRight, sLeft)
  | some entry =>
    let sOperator := entry.dropLast
    let sides := (Cursor.forEach sStmt).foldl
      (fun (sides : Sides) cs => sides.collect cs.token1.pyload) ⟨false, [], []⟩
    (true, sides.aLeft ++ sOperator ++ [0x28] ++ sides.aRight ++ [0x29], some sides.aLeft)

end Suger

/-! ### What it is for -/

namespace SelfOperator
open Lexer Suger

/-- A token that is one of the twelve operators. -/
def Augments (token : LexToken) : Prop :=
  token.type = .operator ∧ token.pyload ∈ selfOperators

/-- A statement that is a target, an augmented operator and a value. -/
structure Augmented (sStmt : CString) (target : List LexToken) (op : CString)
    (value : List LexToken) : Prop where
  tokens : getTokens sStmt = target ++ ⟨.operator, op ++ [0x3d]⟩ :: value
  op : op ++ [0x3d] ∈ selfOperators
  target : ∀ token ∈ target, ¬Augments token
  value : ∀ token ∈ value, ¬Augments token

/-- The tokens of the right side: the target, the operator and the value in brackets. -/
def rightSide (target : List LexToken) (op : CString) (value : List LexToken) : List LexToken :=
  target ++ ⟨.operator, op⟩ :: ⟨.devider, [0x28]⟩ :: (value ++ [⟨.devider, [0x29]⟩])

/-- `Suger_selfOperator` does what it is for with a statement. -/
structure Meets (sStmt : CString) : Prop where
  rewrites : ∀ {target op value}, Augmented sStmt target op value → ∀ sRight sLeft,
    ∃ right left, selfOperator sStmt sRight sLeft = (true, right, some left) ∧
      getTokens left = target ∧ getTokens right = rightSide target op value
  keeps : (∀ token ∈ getTokens sStmt, ¬Augments token) → ∀ sRight sLeft,
    selfOperator sStmt sRight sLeft = (false, sRight, sLeft)

/-- The statements that it does so with. A token that has a `0x1f` falls apart in the token
stream, and 65535 tokens are too many for the cursor. -/
structure Clear (sStmt : CString) : Prop where
  rewrites : ∀ {target op value}, Augmented sStmt target op value →
    Cursor.Plain (getTokens sStmt) ∧ (getTokens sStmt).length < 65535 ∧ Clean target ∧
      Clean (rightSide target op value)
  keeps : (∀ token ∈ getTokens sStmt, ¬Augments token) →
    ∀ entry ∈ selfOperators, Cursor.isContain sStmt .operator entry = false

/-! ### The operators -/

theorem selfOperators_shape : ∀ entry ∈ selfOperators,
    entry ∈ symbolTexts ∧ entry.dropLast ∈ symbolTexts ∧ entry.dropLast ++ [0x3d] = entry ∧
      (0x1f : BitVec 8) ∉ entry := by
  decide +kernel

theorem op_mem {op : CString} (h : op ++ [0x3d] ∈ selfOperators) : op ∈ symbolTexts := by
  have hmem := (selfOperators_shape _ h).2.1
  rwa [List.dropLast_concat] at hmem

/-- Only an augmented operator has the text of one. -/
theorem augments_iff {token : LexToken} (h : IsToken token) :
    Augments token ↔ token.pyload ∈ selfOperators :=
  ⟨And.right, fun hmem => ⟨type_of_symbolText h (selfOperators_shape _ hmem).1, hmem⟩⟩

/-! ### Collecting the sides -/

/-- The loop over the texts of a statement's tokens. -/
def collect (pyloads : List CString) (sides : Sides) : Sides := pyloads.foldl Sides.collect sides

theorem collect_append (a b : List CString) (sides : Sides) :
    collect (a ++ b) sides = collect b (collect a sides) := List.foldl_append

/-- Texts that are no augmented operators go to the side that is being collected. -/
theorem collect_none {pyloads : List CString} (h : ∀ pyload ∈ pyloads, pyload ∉ selfOperators)
    (sides : Sides) : collect pyloads sides =
      if sides.bRight then { sides with aRight := sides.aRight ++ pyloads.flatten }
      else { sides with aLeft := sides.aLeft ++ pyloads.flatten } := by
  induction pyloads generalizing sides with
  | nil =>
    obtain ⟨bRight, aLeft, aRight⟩ := sides
    cases bRight <;> simp [collect]
  | cons pyload pyloads ih =>
    have hstep : collect (pyload :: pyloads) sides = collect pyloads (sides.collect pyload) := rfl
    rw [hstep, ih fun pyload hmem => h pyload (List.mem_cons_of_mem _ hmem), Sides.collect,
      if_neg (h pyload List.mem_cons_self)]
    obtain ⟨bRight, aLeft, aRight⟩ := sides
    cases bRight <;> simp

/-- **The sides of a statement are what is in front of the operator and what is behind it.** -/
theorem collect_augmented {target value : List CString} {entry : CString}
    (hentry : entry ∈ selfOperators) (htarget : ∀ pyload ∈ target, pyload ∉ selfOperators)
    (hvalue : ∀ pyload ∈ value, pyload ∉ selfOperators) :
    collect (target ++ entry :: value) ⟨false, [], []⟩ =
      ⟨true, target.flatten, value.flatten⟩ := by
  have hstep : ∀ sides : Sides, collect (entry :: value) sides =
      collect value { sides with bRight := true } := by
    intro sides
    show collect value (sides.collect entry) = _
    rw [Sides.collect, if_pos hentry]
  rw [collect_append, collect_none htarget, hstep, collect_none hvalue]
  simp

/-! ### Finding the operator -/

variable {sStmt op : CString} {target value : List LexToken}

theorem Augmented.eq_of_mem (h : Augmented sStmt target op value) {entry : CString}
    (hentry : entry ∈ selfOperators) (hmem : ⟨.operator, entry⟩ ∈ getTokens sStmt) :
    entry = op ++ [0x3d] := by
  rw [h.tokens, List.mem_append, List.mem_cons] at hmem
  rcases hmem with hmem | heq | hmem
  · exact absurd ⟨rfl, hentry⟩ (h.target _ hmem)
  · exact congrArg LexToken.pyload heq
  · exact absurd ⟨rfl, hentry⟩ (h.value _ hmem)

theorem Augmented.count_one (h : Augmented sStmt target op value) :
    (getTokens sStmt).count ⟨.operator, op ++ [0x3d]⟩ = 1 := by
  rw [h.tokens, List.count_append, List.count_cons_self,
    List.count_eq_zero.mpr fun hmem => h.target _ hmem ⟨rfl, h.op⟩,
    List.count_eq_zero.mpr fun hmem => h.value _ hmem ⟨rfl, h.op⟩]

theorem Augmented.stands (h : Augmented sStmt target op value) : op ++ [0x3d] <:+: sStmt := by
  have hmem : ⟨.operator, op ++ [0x3d]⟩ ∈ getTokens sStmt := by
    rw [h.tokens]
    exact List.mem_append_right _ List.mem_cons_self
  obtain ⟨source, hreads, hstands⟩ := reads_of_mem hmem
  rwa [(reads_of_symbolText hreads (selfOperators_shape _ h.op).1).2] at hstands

/-- The entry of the table that is found is the operator of the statement. -/
theorem Augmented.eq_of_find (h : Augmented sStmt target op value)
    (hplain : Cursor.Plain (getTokens sStmt)) {entry : CString}
    (hfind : selfOperators.find? (Cursor.isContain sStmt .operator) = some entry) :
    entry = op ++ [0x3d] := by
  have hcontain := List.find?_some hfind
  exact h.eq_of_mem (List.mem_of_find?_eq_some hfind)
    (Cursor.mem_of_isContain ⟨.operator, entry⟩ hplain nofun hcontain)

theorem Augmented.find_eq (h : Augmented sStmt target op value)
    (hplain : Cursor.Plain (getTokens sStmt)) (hlength : (getTokens sStmt).length < 65535) :
    selfOperators.find? (Cursor.isContain sStmt .operator) = some (op ++ [0x3d]) := by
  have hcontain := Cursor.isContain_of_count ⟨.operator, op ++ [0x3d]⟩ hplain hlength
    nofun h.stands h.count_one
  cases hfind : selfOperators.find? (Cursor.isContain sStmt .operator) with
  | none => exact absurd hcontain (List.find?_eq_none.mp hfind _ h.op)
  | some entry => rw [h.eq_of_find hplain hfind]
/-- Nothing is in the sides that is not in the texts. -/
theorem collect_mem {c : BitVec 8} {pyloads : List CString} (h : ∀ pyload ∈ pyloads, c ∉ pyload)
    (sides : Sides) (hleft : c ∉ sides.aLeft) (hright : c ∉ sides.aRight) :
    c ∉ (collect pyloads sides).aLeft ∧ c ∉ (collect pyloads sides).aRight := by
  induction pyloads generalizing sides with
  | nil => exact ⟨hleft, hright⟩
  | cons pyload pyloads ih =>
    have hpyload := h pyload List.mem_cons_self
    refine ih (fun pyload hmem => h pyload (List.mem_cons_of_mem _ hmem)) (sides.collect pyload)
      ?_ ?_
    · rw [Sides.collect]
      split
      · exact hleft
      split
      · simp [hleft, hpyload]
      · exact hleft
    · rw [Sides.collect]
      split
      · exact hright
      split
      · exact hright
      · simp [hright, hpyload]

/-- The texts that are no augmented operators. -/
def sideTexts (pyloads : List CString) : List CString :=
  pyloads.filter (· ∉ selfOperators)

theorem sideTexts_append (a b : List CString) :
    sideTexts (a ++ b) = sideTexts a ++ sideTexts b := List.filter_append a b

theorem sideTexts_self {pyload : CString} (h : pyload ∈ selfOperators) (pyloads : List CString) :
    sideTexts (pyload :: pyloads) = sideTexts pyloads :=
  List.filter_cons_of_neg (by simpa using h)

theorem sideTexts_other {pyload : CString} (h : pyload ∉ selfOperators)
    (pyloads : List CString) : sideTexts (pyload :: pyloads) = pyload :: sideTexts pyloads :=
  List.filter_cons_of_pos (by simpa using h)

theorem sideTexts_eq {pyloads : List CString} (h : ∀ pyload ∈ pyloads, pyload ∉ selfOperators) :
    sideTexts pyloads = pyloads := List.filter_eq_self.mpr (by simpa using h)

/-- All of them go to the sides. -/
theorem collect_weight (pyloads : List CString) (sides : Sides) :
    weight (collect pyloads sides).aLeft + weight (collect pyloads sides).aRight =
      weight sides.aLeft + weight sides.aRight + weight (sideTexts pyloads).flatten := by
  induction pyloads generalizing sides with
  | nil => rfl
  | cons pyload pyloads ih =>
    have hstep : collect (pyload :: pyloads) sides = collect pyloads (sides.collect pyload) := rfl
    rw [hstep, ih, Sides.collect]
    by_cases hself : pyload ∈ selfOperators
    · rw [if_pos hself, sideTexts_self hself]
    · rw [if_neg hself, sideTexts_other hself, List.flatten_cons, weight_append]
      cases hright : sides.bRight <;> simp [weight_append] <;> omega

/-! ### The law -/

theorem foldl_eq_collect (sStmt : CString) (sides : Sides) : (Cursor.forEach sStmt).foldl
    (fun (sides : Sides) cs => sides.collect cs.token1.pyload) sides =
      collect (Cursor.pyloads sStmt) sides := by
  rw [collect, Cursor.pyloads, List.foldl_map]

/-- The tokens of both sides are tokens of the lexer. -/
theorem Augmented.isToken (h : Augmented sStmt target op value) :
    (∀ token ∈ target, IsToken token) ∧ (∀ token ∈ value, IsToken token) ∧
      ∀ token ∈ rightSide target op value, IsToken token := by
  have hreads := getTokens_reads sStmt
  rw [h.tokens] at hreads
  have htarget : ∀ token ∈ target, IsToken token := fun token hmem =>
    hreads token (List.mem_append_left _ hmem)
  have hvalue : ∀ token ∈ value, IsToken token := fun token hmem =>
    hreads token (List.mem_append_right _ (List.mem_cons_of_mem _ hmem))
  refine ⟨htarget, hvalue, fun token hmem => ?_⟩
  simp only [rightSide, List.mem_append, List.mem_cons, List.not_mem_nil, or_false] at hmem
  rcases hmem with hmem | rfl | rfl | hmem | rfl
  · exact htarget token hmem
  · exact ⟨op, .operator (op_mem h.op)⟩
  · exact ⟨[0x28], .devider (by decide)⟩
  · exact hvalue token hmem
  · exact ⟨[0x29], .devider (by decide)⟩

theorem Augmented.not_mem (h : Augmented sStmt target op value) :
    (∀ pyload ∈ target.map LexToken.pyload, pyload ∉ selfOperators) ∧
      ∀ pyload ∈ value.map LexToken.pyload, pyload ∉ selfOperators := by
  obtain ⟨htarget, hvalue, -⟩ := h.isToken
  constructor
  · intro pyload hpyload
    obtain ⟨token, hmem, rfl⟩ := List.mem_map.mp hpyload
    exact fun hself => h.target token hmem ((augments_iff (htarget token hmem)).mpr hself)
  · intro pyload hpyload
    obtain ⟨token, hmem, rfl⟩ := List.mem_map.mp hpyload
    exact fun hself => h.value token hmem ((augments_iff (hvalue token hmem)).mpr hself)

theorem text_rightSide (target : List LexToken) (op : CString) (value : List LexToken) :
    text (rightSide target op value) =
      text target ++ op ++ [0x28] ++ text value ++ [0x29] := by
  simp [rightSide, text]

/-- **The sides that the code writes.** -/
theorem Augmented.selfOperator_eq (h : Augmented sStmt target op value)
    (hplain : Cursor.Plain (getTokens sStmt)) (hlength : (getTokens sStmt).length < 65535)
    (sRight : CString) (sLeft : Option CString) : selfOperator sStmt sRight sLeft =
      (true, text (rightSide target op value), some (text target)) := by
  have hne : getTokens sStmt ≠ [] := by
    rw [h.tokens]
    simp
  obtain ⟨htarget, hvalue⟩ := h.not_mem
  have hpyloads : Cursor.pyloads sStmt = target.map LexToken.pyload ++
      (op ++ [0x3d]) :: (value.map LexToken.pyload ++ [[]]) := by
    rw [Cursor.pyloads_eq hplain hne hlength, h.tokens]
    simp
  have hvalue' : ∀ pyload ∈ value.map LexToken.pyload ++ [[]], pyload ∉ selfOperators := by
    intro pyload hpyload
    rcases List.mem_append.mp hpyload with hpyload | hpyload
    · exact hvalue pyload hpyload
    · rw [List.mem_singleton.mp hpyload]
      decide
  rw [selfOperator, h.find_eq hplain hlength]
  dsimp only
  rw [foldl_eq_collect, hpyloads, collect_augmented h.op htarget hvalue', text_rightSide,
    List.dropLast_concat]
  simp [text, List.flatMap_def]

/-- A statement that is clear is rewritten as it should be. -/
theorem meets_of_clear (h : Clear sStmt) : Meets sStmt where
  rewrites := by
    intro target op value hstmt sRight sLeft
    obtain ⟨hplain, hlength, hclean, hcleans⟩ := h.rewrites hstmt
    obtain ⟨htarget, -, hright⟩ := hstmt.isToken
    exact ⟨_, _, hstmt.selfOperator_eq hplain hlength sRight sLeft,
      (getTokens_text_iff htarget).mpr hclean, (getTokens_text_iff hright).mpr hcleans⟩
  keeps := by
    intro hnone sRight sLeft
    have hfind : selfOperators.find? (Cursor.isContain sStmt .operator) = none :=
      List.find?_eq_none.mpr fun entry hentry => by simp [h.keeps hnone entry hentry]
    rw [selfOperator, hfind]

/-- What a statement that is rewritten comes to. -/
theorem selfOperator_of_true {right : CString} {left : Option CString}
    (h : selfOperator sStmt [] none = (true, right, left)) :
    ∃ entry, selfOperators.find? (Cursor.isContain sStmt .operator) = some entry ∧
      right = (collect (Cursor.pyloads sStmt) ⟨false, [], []⟩).aLeft ++ entry.dropLast ++ [0x28] ++
        (collect (Cursor.pyloads sStmt) ⟨false, [], []⟩).aRight ++ [0x29] := by
  rw [selfOperator] at h
  cases hfind : selfOperators.find? (Cursor.isContain sStmt .operator) with
  | none =>
    rw [hfind] at h
    cases h
  | some entry =>
    rw [hfind] at h
    dsimp only at h
    rw [foldl_eq_collect] at h
    exact ⟨entry, rfl, ((Prod.mk.inj (Prod.mk.inj h).2).1).symm⟩

/-- A `0x1f` does not come through. -/
theorem Augmented.plain (h : Augmented sStmt target op value) {right : CString}
    {left : Option CString} (hrun : selfOperator sStmt [] none = (true, right, left))
    (htokens : getTokens right = rightSide target op value) :
    Cursor.Plain (getTokens sStmt) := by
  obtain ⟨entry, hfind, rfl⟩ := selfOperator_of_true hrun
  obtain ⟨hleft, hright⟩ := collect_mem (Cursor.pyloads_plain sStmt) ⟨false, [], []⟩
    List.not_mem_nil List.not_mem_nil
  have hentry := (selfOperators_shape entry (List.mem_of_find?_eq_some hfind)).2.2.2
  have hout : ∀ token ∈ rightSide target op value, (0x1f : BitVec 8) ∉ token.pyload := by
    intro token hmem hc
    rw [← htokens] at hmem
    have hline := mem_of_pyload hmem hc (by decide)
    simp only [List.mem_append, List.mem_singleton] at hline
    rcases hline with (((hline | hline) | hline) | hline) | hline
    · exact hleft hline
    · exact hentry (List.mem_of_mem_dropLast hline)
    · revert hline
      decide
    · exact hright hline
    · revert hline
      decide
  rw [h.tokens]
  intro token hmem
  rcases List.mem_append.mp hmem with hmem | hmem
  · exact hout token (List.mem_append_left _ hmem)
  rcases List.mem_cons.mp hmem with rfl | hmem
  · exact (selfOperators_shape _ h.op).2.2.2
  · exact hout token (by simp [rightSide, hmem])

/-- The texts of the sides, however the statement is cut. -/
theorem Augmented.sideTexts_tokens (h : Augmented sStmt target op value) :
    (sideTexts ((getTokens sStmt).map LexToken.pyload)).flatten = text target ++ text value := by
  obtain ⟨htarget, hvalue⟩ := h.not_mem
  rw [h.tokens, List.map_append, List.map_cons, sideTexts_append, sideTexts_self h.op,
    sideTexts_eq htarget, sideTexts_eq hvalue, List.flatten_append]
  simp [text, List.flatMap_def]

/-- Of two tokens one belongs to a side. -/
theorem Augmented.weight_pos (h : Augmented sStmt target op value) {k : Nat}
    (hk : k + 2 ≤ (getTokens sStmt).length) :
    0 < weight (sideTexts (((getTokens sStmt).drop k).map LexToken.pyload)).flatten := by
  have hexists : ∃ token ∈ (getTokens sStmt).drop k, ¬Augments token := by
    by_contra hall
    push Not at hall
    have hsame : ∀ token ∈ (getTokens sStmt).drop k, ⟨.operator, op ++ [0x3d]⟩ = token := by
      intro token hmem
      obtain ⟨htype, hself⟩ := hall token hmem
      have hmem' := List.mem_of_mem_drop hmem
      obtain ⟨type, pyload⟩ := token
      obtain rfl : type = .operator := htype
      obtain rfl : pyload = op ++ [0x3d] := h.eq_of_mem hself hmem'
      rfl
    have hcount := List.count_eq_length.mpr hsame
    have hle := (List.drop_sublist k (getTokens sStmt)).count_le ⟨.operator, op ++ [0x3d]⟩
    rw [hcount, h.count_one, List.length_drop] at hle
    omega
  obtain ⟨token, hmem, hnot⟩ := hexists
  have htoken : IsToken token := getTokens_reads sStmt token (List.mem_of_mem_drop hmem)
  obtain ⟨a, b, hsplit⟩ := List.append_of_mem hmem
  have hother := fun hself => hnot ((augments_iff htoken).mpr hself)
  have hpos := Lexer.weight_pos htoken
  rw [hsplit, List.map_append, List.map_cons, sideTexts_append, sideTexts_other hother,
    List.flatten_append, List.flatten_cons, weight_append, weight_append]
  omega

/-- A statement that is too long for the cursor loses characters. -/
theorem Augmented.length_lt (h : Augmented sStmt target op value)
    (hplain : Cursor.Plain (getTokens sStmt)) {right : CString} {left : Option CString}
    (hrun : selfOperator sStmt [] none = (true, right, left))
    (htokens : getTokens right = rightSide target op value) :
    (getTokens sStmt).length < 65535 := by
  by_contra hlong
  have hne : getTokens sStmt ≠ [] := by
    rw [h.tokens]
    simp
  obtain ⟨entry, hfind, hright⟩ := selfOperator_of_true hrun
  obtain rfl := h.eq_of_find hplain hfind
  rw [List.dropLast_concat] at hright
  have hweight := weight_getTokens right
  have hsides := collect_weight (Cursor.pyloads sStmt) ⟨false, [], []⟩
  obtain ⟨k, hk, hpyloads⟩ : ∃ k, k + 2 ≤ (getTokens sStmt).length ∧
      Cursor.pyloads sStmt = ((getTokens sStmt).take k).map LexToken.pyload := by
    refine ⟨(Cursor.size (getTokens sStmt)).toNat, ?_, ?_⟩
    · rw [Cursor.size, BitVec.toNat_ofNat]
      omega
    · have hle : (Cursor.size (getTokens sStmt)).toNat ≤
          ((getTokens sStmt).map LexToken.pyload).length := by
        rw [List.length_map, Cursor.size, BitVec.toNat_ofNat]
        omega
      rw [Cursor.pyloads_take hplain hne, List.take_append_of_le_length hle, List.map_take]
  have hdropped := h.weight_pos hk
  have hall := congrArg weight h.sideTexts_tokens
  rw [← List.take_append_drop k (getTokens sStmt), List.map_append, sideTexts_append,
    List.flatten_append, ← hpyloads, weight_append, weight_append] at hall
  rw [htokens, text_rightSide, hright] at hweight
  simp only [weight_append] at hweight
  have hzero : weight [] = 0 := rfl
  dsimp only at hsides
  omega

/-- A statement without an augmented operator shows one only through a `0x1f`. -/
theorem isContain_of_plain (hplain : Cursor.Plain (getTokens sStmt))
    (hnone : ∀ token ∈ getTokens sStmt, ¬Augments token) :
    ∀ entry ∈ selfOperators, Cursor.isContain sStmt .operator entry = false := by
  intro entry hentry
  refine Bool.eq_false_iff.mpr fun hcontain => ?_
  have hmem := Cursor.mem_of_isContain ⟨.operator, entry⟩ hplain nofun hcontain
  exact hnone _ hmem ⟨rfl, hentry⟩

/-- **`Suger_selfOperator` does what it is for exactly with the statements whose tokens can be
told apart without spaces, and stay as they are in the token stream.** -/
theorem selfOperator_meets_iff (sStmt : CString) : Meets sStmt ↔ Clear sStmt := by
  refine ⟨fun h => ⟨fun {target op value} hstmt => ?_, fun hnone entry hentry => ?_⟩,
    meets_of_clear⟩
  · obtain ⟨right, left, hrun, hleft, hright⟩ := h.rewrites hstmt [] none
    have hplain := hstmt.plain hrun hright
    have hlength := hstmt.length_lt hplain hrun hright
    obtain ⟨htarget, -, htokens⟩ := hstmt.isToken
    rw [hstmt.selfOperator_eq hplain hlength] at hrun
    obtain ⟨-, hsides⟩ := Prod.mk.inj hrun
    obtain ⟨rfl, hsome⟩ := Prod.mk.inj hsides
    obtain rfl := Option.some.inj hsome
    exact ⟨hplain, hlength, (getTokens_text_iff htarget).mp hleft,
      (getTokens_text_iff htokens).mp hright⟩
  · have hrun := h.keeps hnone [] none
    rw [selfOperator] at hrun
    cases hfind : selfOperators.find? (Cursor.isContain sStmt .operator) with
    | none => exact Bool.eq_false_iff.mpr (List.find?_eq_none.mp hfind entry hentry)
    | some entry =>
      rw [hfind] at hrun
      cases hrun

/-- In `a += 0xe - 1` the hyphen runs into the number: the right side is `a`, `+` and the number
`0xe-1` in brackets. -/
theorem not_selfOperator_meets : ¬∀ sStmt : CString, Meets sStmt := by
  intro h
  let sStmt := InstructIndex.letters ['a', ' ', '+', '=', ' ', '0', 'x', 'e', ' ', '-', ' ', '1']
  let target : List LexToken := [⟨.symbol, [0x61]⟩]
  let value : List LexToken :=
    [⟨.literal, [0x30, 0x78, 0x65]⟩, ⟨.operator, [0x2d]⟩, ⟨.literal, [0x31]⟩]
  have hstmt : Augmented sStmt target [0x2b] value := by
    refine ⟨by decide +kernel, by decide +kernel, ?_, ?_⟩
    · simp [target, Augments]
    · simp [value, Augments]
      decide +kernel
  obtain ⟨right, left, hrun, -, hright⟩ := (h sStmt).rewrites hstmt [] none
  obtain rfl : (selfOperator sStmt [] none).2.1 = right := by rw [hrun]
  revert hright
  decide +kernel

end SelfOperator

end PikaScript
