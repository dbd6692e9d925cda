import Mathlib.Order.Lattice.Nat
import PikaScript.Parser.SubStmt

/-! Splitting a statement at a delimiter in `PikaParser.c`.

`Cursor_popToken` splits at the first delimiter outside of brackets in one pass.
`Cursor_popLastToken` and `_Parser_popLastSubStmt` look for the last one in a first
pass, which keeps its index in a `uint8_t`, and split there in a second one. Where
the code finds a delimiter is compared here with where there is one, token by
token: the code counts open brackets in eight bits, and an opening bracket as one
that it is inside of. -/
namespace PikaScript
namespace Splitting

/-! ### The code -/

/-- `strIsStartWith`. -/
def strIsStartWith (str strStart : CString) : Bool :=
  str.headD 0 == strStart.headD 0 && strStart.isPrefixOf str

/-- The first pass: the index of the last round that is taken, in a `uint8_t`. -/
def lastIndex (takes : Cursor.Iter → Bool) (sStmt : CString) : BitVec 8 :=
  (Cursor.forEach sStmt).foldl
    (fun index cs => if takes cs then cs.iter_index.setWidth 8 else index) 0

/-- The second pass: the texts of the rounds that are chosen by their index. -/
def collect (chosen : Nat → Bool) (sStmt : CString) : CString :=
  SubStmt.seen ((Cursor.forEach sStmt).filter fun cs => chosen cs.iter_index.toNat)

/-- What `Cursor_popLastToken` takes. -/
def isDivider (str : CString) (cs : Cursor.Iter) : Bool :=
  cs.bracket_deepth == 0 && str == cs.token1.pyload

/-- `Cursor_popLastToken`: what is behind the delimiter, and the statement in front of it, which
is written over the statement. None if it is longer than that. -/
def popLastToken (sStmts str : CString) : Option (CString × CString) :=
  let uDividerIndex := (lastIndex (isDivider str) sStmts).toNat
  let sKeeped := collect (· > uDividerIndex) sStmts
  let sPoped := collect (· < uDividerIndex) sStmts
  if sPoped.length ≤ sStmts.length then some (sKeeped, sPoped) else none

/-- What `_Parser_popLastSubStmt` takes. -/
def isLastStmt (sDelimiter : CString) (bSkipBracket : Bool) (cs : Cursor.Iter) : Bool :=
  strIsStartWith cs.token1.pyload sDelimiter &&
    !(bSkipBracket && cs.bracket_deepth.toInt > 0) && !(cs.bracket_deepth.toInt > 1)

/-- `_Parser_popLastSubStmt`: what begins with the delimiter, and the statement in front of it. -/
def popLastSubStmt (sStmt sDelimiter : CString) (bSkipBracket : Bool) : CString × CString :=
  let uLastStmtI := (lastIndex (isLastStmt sDelimiter bSkipBracket) sStmt).toNat
  (collect (· ≥ uLastStmtI) sStmt, collect (· < uLastStmtI) sStmt)

/-! ### Where there is a delimiter -/

open Lexer
open Cursor (height Plain)
open SubStmt (popToken)

/-- An opening bracket. -/
def IsOpening (pyload : CString) : Prop := pyload ∈ [[0x28#8], [0x5b], [0x7b]]

instance (pyload : CString) : Decidable (IsOpening pyload) := inferInstanceAs (Decidable (_ ∈ _))

/-- A token that can stand between two parts of a statement. -/
def IsDelimiter (token : LexToken) : Prop :=
  token.type = .devider ∨ token.type = .operator ∨ token.type = .keyword

/-- How many brackets a token is in. An opening one is not in itself. -/
def around (tokens : List LexToken) (k : Nat) (token : LexToken) : Int :=
  if IsOpening token.pyload then height (tokens.take k) else height (tokens.take (k + 1))

/-- The delimiter is a token outside of brackets. -/
def Occurs (tokens : List LexToken) (delimiter : CString) (k : Nat) : Prop :=
  ∃ token, tokens[k]? = some token ∧ IsDelimiter token ∧ token.pyload = delimiter ∧
    around tokens k token = 0

/-- A token outside of brackets begins with the delimiter, as the name of a method does with a
point. -/
def Begins (tokens : List LexToken) (delimiter : CString) (k : Nat) : Prop :=
  ∃ token, tokens[k]? = some token ∧ delimiter ≠ [] ∧ delimiter <+: token.pyload ∧
    around tokens k token = 0

/-- The parts and the delimiter between them are the statement, up to spaces. -/
def Whole (sStmt left delimiter right : CString) : Prop :=
  solid (left ++ delimiter ++ right) = solid sStmt

/-- **The splitting law.** The last sub-statement is split off with `bSkipBracket`, as by the
callers, unless the delimiter is an opening bracket. -/
structure Law (sStmt delimiter : CString) : Prop where
  first : ∀ k, IsLeast {k | Occurs (getTokens sStmt) delimiter k} k →
    popToken sStmt delimiter =
        (text ((getTokens sStmt).take k), text ((getTokens sStmt).drop (k + 1))) ∧
      Whole sStmt (text ((getTokens sStmt).take k)) delimiter
        (text ((getTokens sStmt).drop (k + 1)))
  last : ∀ k, IsGreatest {k | Occurs (getTokens sStmt) delimiter k} k →
    popLastToken sStmt delimiter =
        some (text ((getTokens sStmt).drop (k + 1)), text ((getTokens sStmt).take k)) ∧
      Whole sStmt (text ((getTokens sStmt).take k)) delimiter
        (text ((getTokens sStmt).drop (k + 1)))
  lastStmt : ∀ k, IsGreatest {k | Begins (getTokens sStmt) delimiter k} k →
    popLastSubStmt sStmt delimiter (!decide (IsOpening delimiter)) =
        (text ((getTokens sStmt).drop k), text ((getTokens sStmt).take k)) ∧
      Whole sStmt (text ((getTokens sStmt).take k)) [] (text ((getTokens sStmt).drop k))

/-! ### Where the code finds one -/

/-- A token is the delimiter, with no bracket open behind it as eight bits count them. -/
def Sees (tokens : List LexToken) (delimiter : CString) (k : Nat) : Prop :=
  ∃ token, tokens[k]? = some token ∧ token.pyload = delimiter ∧
    height (tokens.take (k + 1)) % 256 = 0

/-- A token begins with the delimiter, with no bracket open but itself as eight bits count them,
or more closed than opened. -/
def Takes (tokens : List LexToken) (delimiter : CString) (k : Nat) : Prop :=
  ∃ token, tokens[k]? = some token ∧ delimiter <+: token.pyload ∧
    (height (tokens.take (k + 1))).bmod 256 ≤ if IsOpening delimiter then 1 else 0

/-- When all goes well: the cursor walks over the whole statement, nothing of which is missing
from its tokens, the delimiter that the code finds is the right one, or has its index, and what is
written over the statement fits into it. -/
structure Clear (sStmt delimiter : CString) : Prop where
  plain : Plain (getTokens sStmt)
  length : (getTokens sStmt).length < 65535
  kept : solid (text (getTokens sStmt)) = solid sStmt
  first : ∀ k, IsLeast {k | Occurs (getTokens sStmt) delimiter k} k →
    IsLeast {k | Sees (getTokens sStmt) delimiter k} k
  last : ∀ k, IsGreatest {k | Occurs (getTokens sStmt) delimiter k} k →
    (text ((getTokens sStmt).take k)).length ≤ sStmt.length ∧
      ∃ j, IsGreatest {j | Sees (getTokens sStmt) delimiter j} j ∧ (j + 1) % 256 = k + 1
  lastStmt : ∀ k, IsGreatest {k | Begins (getTokens sStmt) delimiter k} k →
    ∃ j, IsGreatest {j | Takes (getTokens sStmt) delimiter j} j ∧ max ((j + 1) % 256) 1 = k + 1

/-! ### The passes over some tokens -/

variable {tokens : List LexToken} {sStmt delimiter : CString}

/-- The rounds of a walk: the token of its index, and the end behind the last. -/
theorem getElem?_walk (length : BitVec 16) (tokens : List LexToken) (iter_index : BitVec 16)
    (bracket_deepth : BitVec 8) (k : Nat) (hk : k ≤ tokens.length) :
    ∃ cs, (Cursor.walk length tokens iter_index bracket_deepth)[k]? = some cs ∧
      cs.iter_index = iter_index + BitVec.ofNat 16 (k + 1) ∧
      cs.token1.pyload = (tokens[k]?).elim [] LexToken.pyload ∧
      cs.bracket_deepth = Cursor.depth (tokens.take (k + 1)) bracket_deepth := by
  induction tokens generalizing iter_index bracket_deepth k with
  | nil =>
    obtain rfl : k = 0 := Nat.le_zero.mp hk
    exact ⟨_, rfl, rfl, rfl, rfl⟩
  | cons token tokens ih =>
    cases k with
    | zero => exact ⟨_, rfl, rfl, rfl, rfl⟩
    | succ k =>
      obtain ⟨cs, hcs, hindex, hpyload, hdepth⟩ := ih (iter_index + 1)
        (Cursor.deepen token.pyload bracket_deepth) k (Nat.le_of_succ_le_succ hk)
      refine ⟨cs, hcs, ?_, hpyload, hdepth⟩
      rw [hindex, BitVec.add_assoc, Nat.add_comm (k + 1)]
      exact congrArg (iter_index + ·) (BitVec.ofNat_add 1 (k + 1)).symm

/-- A fold that remembers the last element of a kind. -/
theorem foldl_last {α β : Type} (p : α → Bool) (f : α → β) (l : List α) (b : β) :
    (∃ (k : Nat) (a : α), l[k]? = some a ∧ p a = true ∧
        (∀ (j : Nat) (a' : α), k < j → l[j]? = some a' → p a' = false) ∧
        l.foldl (fun b a => if p a then f a else b) b = f a) ∨
      (∀ a ∈ l, p a = false) ∧ l.foldl (fun b a => if p a then f a else b) b = b := by
  induction l using List.reverseRecOn with
  | nil => exact .inr ⟨by simp, rfl⟩
  | append_singleton l a ih =>
    rw [List.foldl_append]
    cases ha : p a with
    | true =>
      refine .inl ⟨l.length, a, List.getElem?_concat_length, ha, fun j a' hj ha' => ?_, if_pos ha⟩
      rw [List.getElem?_eq_none (by rwa [List.length_append, List.length_singleton])] at ha'
      cases ha'
    | false =>
      have hkeep : ∀ b, [a].foldl (fun b a => if p a then f a else b) b = b := fun b =>
        if_neg (by simp [ha])
      rw [hkeep]
      rcases ih with ⟨k, a', hk, hpa', hlater, hfold⟩ | ⟨hnone, hfold⟩
      · have hlt : k < l.length := (List.getElem?_eq_some_iff.mp hk).1
        refine .inl
          ⟨k, a', by rwa [List.getElem?_append_left hlt], hpa', fun j c hj hc => ?_, hfold⟩
        rcases Nat.lt_or_ge j l.length with hjl | hjl
        · rw [List.getElem?_append_left hjl] at hc
          exact hlater j c hj hc
        · rw [List.getElem?_append_right hjl, List.getElem?_singleton] at hc
          split at hc
          · cases hc
            exact ha
          · cases hc
      · refine .inr ⟨fun c hc => ?_, hfold⟩
        rcases List.mem_append.mp hc with hc | hc
        · exact hnone c hc
        · rw [List.mem_singleton.mp hc]
          exact ha

theorem toNat_index_succ {iter_index : BitVec 16} {n : Nat}
    (h : iter_index.toNat + (n + 1) + 1 < 2 ^ 16) :
    (iter_index + 1).toNat = iter_index.toNat + 1 := by
  have hone : (1 : BitVec 16).toNat = 1 := rfl
  rw [BitVec.toNat_add, hone]
  omega

/-- What the second pass collects in front of an index. -/
theorem seen_filter_lt (length : BitVec 16) (tokens : List LexToken) {iter_index : BitVec 16}
    (hindex : iter_index.toNat + tokens.length + 1 < 2 ^ 16) (bracket_deepth : BitVec 8) (u : Nat) :
    SubStmt.seen ((Cursor.walk length tokens iter_index bracket_deepth).filter
      fun cs => decide (cs.iter_index.toNat < u)) =
        text (tokens.take (u - 1 - iter_index.toNat)) := by
  induction tokens generalizing iter_index bracket_deepth with
  | nil =>
    rw [Cursor.walk, List.filter_cons, List.take_nil]
    split <;> rfl
  | cons token tokens ih =>
    rw [List.length_cons] at hindex
    have hnext := toNat_index_succ hindex
    rw [Cursor.walk, List.filter_cons]
    by_cases hlt : iter_index.toNat + 1 < u
    · obtain ⟨m, hm⟩ := Nat.exists_eq_add_of_lt hlt
      have htake : u - 1 - iter_index.toNat = m + 1 := by omega
      rw [if_pos (by rw [hnext]; exact decide_eq_true hlt), SubStmt.seen_cons, ih (by omega), hnext,
        htake, List.take_succ_cons, text_cons]
      have hrest : u - 1 - (iter_index.toNat + 1) = m := by omega
      rw [hrest]
      rfl
    · have htake : u - 1 - iter_index.toNat = 0 := by omega
      rw [if_neg (by rw [hnext]; simpa using hlt), ih (by omega), hnext, htake]
      have hrest : u - 1 - (iter_index.toNat + 1) = 0 := by omega
      rw [hrest, List.take_zero, List.take_zero]

/-- What it collects from an index on. -/
theorem seen_filter_ge (length : BitVec 16) (tokens : List LexToken) {iter_index : BitVec 16}
    (hindex : iter_index.toNat + tokens.length + 1 < 2 ^ 16) (bracket_deepth : BitVec 8) (u : Nat) :
    SubStmt.seen ((Cursor.walk length tokens iter_index bracket_deepth).filter
      fun cs => decide (u ≤ cs.iter_index.toNat)) =
        text (tokens.drop (u - 1 - iter_index.toNat)) := by
  induction tokens generalizing iter_index bracket_deepth with
  | nil =>
    rw [Cursor.walk, List.filter_cons, List.drop_nil]
    split <;> rfl
  | cons token tokens ih =>
    rw [List.length_cons] at hindex
    have hnext := toNat_index_succ hindex
    rw [Cursor.walk, List.filter_cons]
    by_cases hle : u ≤ iter_index.toNat + 1
    · have hdrop : u - 1 - iter_index.toNat = 0 := by omega
      have hrest : u - 1 - (iter_index.toNat + 1) = 0 := by omega
      rw [if_pos (by rw [hnext]; exact decide_eq_true hle), SubStmt.seen_cons, ih (by omega), hnext,
        hdrop, hrest, List.drop_zero, List.drop_zero, text_cons]
      rfl
    · obtain ⟨m, hm⟩ := Nat.exists_eq_add_of_lt (Nat.lt_of_not_le hle)
      have hdrop : u - 1 - iter_index.toNat = m + 1 := by omega
      have hrest : u - 1 - (iter_index.toNat + 1) = m := by omega
      rw [if_neg (by rw [hnext]; simpa using hle), ih (by omega), hnext, hdrop, hrest,
        List.drop_succ_cons]

/-! ### The functions over a statement that the cursor can walk over -/

theorem depth_height (tokens : List LexToken) :
    Cursor.depth tokens 0 = BitVec.ofInt 8 (height tokens) :=
  (Cursor.depth_eq tokens 0).trans (BitVec.zero_add _)

/-- No bracket is open in eight bits. -/
theorem depth_eq_zero_iff (tokens : List LexToken) :
    Cursor.depth tokens 0 = 0 ↔ height tokens % 256 = 0 := by
  rw [depth_height, ← BitVec.toInt_inj, BitVec.toInt_ofInt]
  have hzero : (0 : BitVec 8).toInt = 0 := rfl
  rw [hzero, Int.bmod_def]
  split <;> omega

theorem toInt_depth (tokens : List LexToken) :
    (Cursor.depth tokens 0).toInt = (height tokens).bmod 256 := by
  rw [depth_height, BitVec.toInt_ofInt]

section Walked
variable (hplain : Plain (getTokens sStmt)) (hne : getTokens sStmt ≠ [])
  (hlength : (getTokens sStmt).length < 65535)
include hplain hne hlength

/-- The first pass finds the last token of a kind, and keeps eight bits of its index. -/
theorem lastIndex_spec {takes : Cursor.Iter → Bool} {picks : Nat → Prop}
    (hbound : ∀ j, picks j → j < (getTokens sStmt).length)
    (htakes : ∀ k cs, k ≤ (getTokens sStmt).length →
      cs.token1.pyload = ((getTokens sStmt)[k]?).elim [] LexToken.pyload →
      cs.bracket_deepth = Cursor.depth ((getTokens sStmt).take (k + 1)) 0 →
      (takes cs = true ↔ picks k)) :
    (∃ j, IsGreatest {j | picks j} j ∧ (lastIndex takes sStmt).toNat = (j + 1) % 256) ∨
      (∀ j, ¬picks j) ∧ (lastIndex takes sStmt).toNat = 0 := by
  rw [lastIndex, Cursor.forEach_eq hplain hne hlength]
  have hround := getElem?_walk (Cursor.size (getTokens sStmt)) (getTokens sStmt) 0 0
  have hpicks : ∀ k cs, (Cursor.walk (Cursor.size (getTokens sStmt)) (getTokens sStmt) 0 0)[k]? =
      some cs → (takes cs = true ↔ picks k) ∧ cs.iter_index = BitVec.ofNat 16 (k + 1) := by
    intro k cs hcs
    have hk := (List.getElem?_eq_some_iff.mp hcs).1
    rw [Cursor.length_walk] at hk
    obtain ⟨cs', hcs', hindex, hpyload, hdepth⟩ := hround k (Nat.le_of_lt_succ hk)
    obtain rfl := Option.some.inj (hcs.symm.trans hcs')
    exact ⟨htakes k cs (Nat.le_of_lt_succ hk) hpyload hdepth,
      hindex.trans (BitVec.zero_add _)⟩
  rcases foldl_last takes (fun cs => cs.iter_index.setWidth 8)
    (Cursor.walk (Cursor.size (getTokens sStmt)) (getTokens sStmt) 0 0) (0 : BitVec 8) with
    ⟨k, cs, hcs, htake, hlater, hfold⟩ | ⟨hnone, hfold⟩
  · obtain ⟨hpick, hindex⟩ := hpicks k cs hcs
    refine .inl ⟨k, ⟨hpick.mp htake, fun j hj => ?_⟩, ?_⟩
    · by_contra hlt
      obtain ⟨cs', hcs', -⟩ := hround j (Nat.le_of_lt (hbound j hj))
      have hfalse := hlater j cs' (Nat.lt_of_not_le hlt) hcs'
      rw [(hpicks j cs' hcs').1.mpr hj] at hfalse
      cases hfalse
    · rw [hfold, hindex, BitVec.toNat_setWidth, BitVec.toNat_ofNat]
      omega
  · refine .inr ⟨fun j hj => ?_, by rw [hfold]; rfl⟩
    obtain ⟨cs, hcs, -⟩ := hround j (Nat.le_of_lt (hbound j hj))
    have hfalse := hnone cs (List.mem_of_getElem? hcs)
    rw [(hpicks j cs hcs).1.mpr hj] at hfalse
    cases hfalse

theorem collect_lt (u : Nat) :
    collect (· < u) sStmt = text ((getTokens sStmt).take (u - 1)) := by
  have hzero : (0 : BitVec 16).toNat = 0 := rfl
  rw [collect, Cursor.forEach_eq hplain hne hlength]
  exact seen_filter_lt _ _ (by omega) 0 u

theorem collect_ge (u : Nat) :
    collect (· ≥ u) sStmt = text ((getTokens sStmt).drop (u - 1)) := by
  have hzero : (0 : BitVec 16).toNat = 0 := rfl
  rw [collect, Cursor.forEach_eq hplain hne hlength]
  exact seen_filter_ge _ _ (by omega) 0 u

theorem collect_gt (u : Nat) :
    collect (· > u) sStmt = text ((getTokens sStmt).drop u) := by
  have h := collect_ge hplain hne hlength (u + 1)
  exact h

/-- What the first pass of `Cursor_popLastToken` finds. -/
theorem isDivider_spec (hdelimiter : delimiter ≠ []) :
    (∃ j, IsGreatest {j | Sees (getTokens sStmt) delimiter j} j ∧
        (lastIndex (isDivider delimiter) sStmt).toNat = (j + 1) % 256) ∨
      (∀ j, ¬Sees (getTokens sStmt) delimiter j) ∧
        (lastIndex (isDivider delimiter) sStmt).toNat = 0 := by
  refine lastIndex_spec hplain hne hlength (fun j ⟨token, htoken, _⟩ => ?_)
    fun k cs _ hpyload hdepth => ?_
  · exact (List.getElem?_eq_some_iff.mp htoken).1
  · rw [isDivider, Bool.and_eq_true, beq_iff_eq, beq_iff_eq, hpyload, hdepth, depth_eq_zero_iff,
      Sees]
    cases (getTokens sStmt)[k]? with
    | none => exact iff_of_false (fun h => hdelimiter h.2) fun ⟨_, h, _⟩ => by cases h
    | some token =>
      constructor
      · exact fun h => ⟨token, rfl, h.2.symm, h.1⟩
      · rintro ⟨_, ⟨⟩, hsame, hzero⟩
        exact ⟨hzero, hsame.symm⟩

omit hplain hne hlength in
theorem strIsStartWith_iff (hdelimiter : delimiter ≠ []) (str : CString) :
    strIsStartWith str delimiter = true ↔ delimiter <+: str := by
  rw [strIsStartWith, Bool.and_eq_true, List.isPrefixOf_iff_prefix, beq_iff_eq]
  refine and_iff_right_of_imp ?_
  rintro ⟨rest, rfl⟩
  obtain ⟨c, cs, rfl⟩ := List.exists_cons_of_ne_nil hdelimiter
  rfl

/-- What the first pass of `_Parser_popLastSubStmt` finds. -/
theorem isLastStmt_spec (hdelimiter : delimiter ≠ []) :
    (∃ j, IsGreatest {j | Takes (getTokens sStmt) delimiter j} j ∧
        (lastIndex (isLastStmt delimiter (!decide (IsOpening delimiter))) sStmt).toNat =
          (j + 1) % 256) ∨
      (∀ j, ¬Takes (getTokens sStmt) delimiter j) ∧
        (lastIndex (isLastStmt delimiter (!decide (IsOpening delimiter))) sStmt).toNat = 0 := by
  refine lastIndex_spec hplain hne hlength (fun j ⟨token, htoken, _⟩ => ?_)
    fun k cs _ hpyload hdepth => ?_
  · exact (List.getElem?_eq_some_iff.mp htoken).1
  · have hdeep : (!(!decide (IsOpening delimiter) && decide (cs.bracket_deepth.toInt > 0)) &&
        !decide (cs.bracket_deepth.toInt > 1)) = true ↔
          (height ((getTokens sStmt).take (k + 1))).bmod 256 ≤
            if IsOpening delimiter then 1 else 0 := by
      rw [hdepth, toInt_depth]
      by_cases hopen : IsOpening delimiter <;> simp [hopen]
      omega
    rw [isLastStmt, Bool.and_assoc, Bool.and_eq_true, hdeep, strIsStartWith_iff hdelimiter,
      hpyload, Takes]
    cases (getTokens sStmt)[k]? with
    | none =>
      exact iff_of_false (fun h => hdelimiter (List.prefix_nil.mp h.1)) fun ⟨_, h, _⟩ => by cases h
    | some token =>
      constructor
      · exact fun h => ⟨token, rfl, h⟩
      · rintro ⟨_, ⟨⟩, h⟩
        exact h

end Walked

/-- A cut is made at the first delimiter that stops. -/
theorem cut_spec (stops : BitVec 8 → Bool) (delimiter : CString) (tokens : List LexToken)
    (bracket_deepth : BitVec 8) :
    (∃ j, IsLeast {j | ∃ token, tokens[j]? = some token ∧
          stops (Cursor.depth (tokens.take (j + 1)) bracket_deepth) = true ∧
            token.pyload = delimiter} j ∧
        SubStmt.cut stops delimiter bracket_deepth tokens = (tokens.take j, tokens.drop (j + 1))) ∨
      (∀ j token, tokens[j]? = some token →
          stops (Cursor.depth (tokens.take (j + 1)) bracket_deepth) = true →
            token.pyload ≠ delimiter) ∧
        SubStmt.cut stops delimiter bracket_deepth tokens = (tokens, []) := by
  induction tokens generalizing bracket_deepth with
  | nil => exact .inr ⟨by simp, rfl⟩
  | cons token tokens ih =>
    cases hstop : stops (Cursor.deepen token.pyload bracket_deepth) &&
        token.pyload == delimiter with
    | true =>
      rw [SubStmt.cut_ends hstop]
      rw [Bool.and_eq_true, beq_iff_eq] at hstop
      exact .inl ⟨0, ⟨⟨token, rfl, hstop⟩, fun _ _ => Nat.zero_le _⟩, rfl⟩
    | false =>
      rw [SubStmt.cut_goes hstop]
      have hhead : stops (Cursor.deepen token.pyload bracket_deepth) = true →
          token.pyload ≠ delimiter := by
        simpa using hstop
      rcases ih (Cursor.deepen token.pyload bracket_deepth) with
        ⟨j, ⟨hj, hleast⟩, hcut⟩ | ⟨hnone, hcut⟩
      · refine .inl ⟨j + 1, ⟨hj, ?_⟩, by rw [hcut]; rfl⟩
        rintro (_ | i) ⟨token', htoken', hstops, hsame⟩
        · obtain rfl := Option.some.inj htoken'
          exact absurd hsame (hhead hstops)
        · exact Nat.succ_le_succ (hleast ⟨token', htoken', hstops, hsame⟩)
      · refine .inr ⟨?_, by rw [hcut]⟩
        rintro (_ | i) token' htoken' hstops
        · obtain rfl := Option.some.inj htoken'
          exact hhead hstops
        · exact hnone i token' htoken' hstops

theorem tokenStops_iff (tokens : List LexToken) :
    SubStmt.tokenStops (Cursor.depth tokens 0) = true ↔ height tokens % 256 = 0 := by
  rw [SubStmt.tokenStops, beq_iff_eq, depth_eq_zero_iff]

/-- What `Cursor_popToken` pops. -/
theorem popToken_spec (hplain : Plain (getTokens sStmt))
    (hlength : (getTokens sStmt).length < 65535) (delimiter : CString) :
    (∃ j, IsLeast {j | Sees (getTokens sStmt) delimiter j} j ∧ popToken sStmt delimiter =
        (text ((getTokens sStmt).take j), text ((getTokens sStmt).drop (j + 1)))) ∨
      (∀ j, ¬Sees (getTokens sStmt) delimiter j) ∧
        popToken sStmt delimiter = (text (getTokens sStmt), []) := by
  rw [SubStmt.popToken_eq, SubStmt.split_forEach (SubStmt.tokenEnds_by delimiter) hplain hlength]
  rcases cut_spec SubStmt.tokenStops delimiter (getTokens sStmt) 0 with
    ⟨j, hleast, hcut⟩ | ⟨hnone, hcut⟩
  · refine .inl ⟨j, ?_, by rw [hcut]⟩
    have hset : {j | ∃ token, (getTokens sStmt)[j]? = some token ∧ SubStmt.tokenStops
        (Cursor.depth ((getTokens sStmt).take (j + 1)) 0) = true ∧ token.pyload = delimiter} =
        {j | Sees (getTokens sStmt) delimiter j} := by
      ext j
      simp only [Set.mem_ofPred_eq, Sees, tokenStops_iff, and_comm]
    rwa [hset] at hleast
  · refine .inr ⟨fun j hsees => ?_, by rw [hcut]; rfl⟩
    obtain ⟨token, htoken, hsame, hzero⟩ := hsees
    exact hnone j token htoken ((tokenStops_iff _).mpr hzero) hsame

/-! ### Parts of a statement -/

/-- The first tokens are known by their text. -/
theorem take_le_of_text {a b : Nat} (htokens : ∀ token ∈ tokens, IsToken token)
    (h : text (tokens.take a) = text (tokens.take b)) : min b tokens.length ≤ a := by
  by_contra hlt
  have hle : weight (text ((tokens.take b).take a)) + ((tokens.take b).length - a) ≤
      weight (text (tokens.take b)) :=
    weight_text_take (tokens.take b) (fun token hmem => htokens token (List.mem_of_mem_take hmem)) a
  rw [List.take_take, min_eq_left (by omega), h, List.length_take] at hle
  omega

theorem eq_of_take_text {a k : Nat} (htokens : ∀ token ∈ tokens, IsToken token)
    (hk : k < tokens.length) (h : text (tokens.take a) = text (tokens.take k)) : a = k := by
  have hle := take_le_of_text htokens h
  have hge := take_le_of_text htokens h.symm
  omega

theorem eq_of_drop_text {a k : Nat} (htokens : ∀ token ∈ tokens, IsToken token)
    (hk : k < tokens.length) (h : text (tokens.drop a) = text (tokens.drop k)) : a = k := by
  have hall : text (tokens.take a) ++ text (tokens.drop k) =
      text (tokens.take k) ++ text (tokens.drop k) := by
    rw [← h, ← text_append, List.take_append_drop, h, ← text_append, List.take_append_drop]
  exact eq_of_take_text htokens hk (List.append_cancel_right hall)

/-- A token with what is in front of it and behind it. -/
theorem text_around {k : Nat} {token : LexToken} (h : tokens[k]? = some token) :
    text (tokens.take k) ++ token.pyload ++ text (tokens.drop (k + 1)) = text tokens := by
  obtain ⟨hk, rfl⟩ := List.getElem?_eq_some_iff.mp h
  rw [List.append_assoc, ← text_cons, ← text_append, List.getElem_cons_drop, List.take_append_drop]

theorem exists_isLeast {P : Nat → Prop} (h : ∃ k, P k) : ∃ k, IsLeast {k | P k} k :=
  ⟨sInf {k | P k}, Nat.sInf_mem h, fun _ => Nat.sInf_le⟩

theorem exists_isGreatest {P : Nat → Prop} (h : ∃ k, P k) {n : Nat} (hbound : ∀ k, P k → k < n) :
    ∃ k, IsGreatest {k | P k} k := by
  have habove : BddAbove {k | P k} := ⟨n, fun k hk => Nat.le_of_lt (hbound k hk)⟩
  exact ⟨sSup {k | P k}, Nat.sSup_mem h habove, fun _ hk => le_csSup habove hk⟩

/-! ### Delimiters -/

theorem symbolTexts_small : ∀ op ∈ symbolTexts, (0x1f : BitVec 8) ∉ op ∧ weight op < 65535 := by
  decide

theorem words_small : ∀ word ∈ words,
    (0x1f : BitVec 8) ∉ word.token.pyload ∧ weight word.token.pyload < 65535 := by
  decide

theorem deviders_small : ∀ c ∈ deviders, (0x1f : BitVec 8) ∉ [c] ∧ weight [c] < 65535 := by
  decide

/-- Delimiters are short, and have no `0x1f`. -/
theorem IsDelimiter.small {token : LexToken} (h : IsDelimiter token) (htoken : IsToken token) :
    (0x1f : BitVec 8) ∉ token.pyload ∧ weight token.pyload < 65535 := by
  obtain ⟨source, hreads⟩ := htoken
  cases hreads with
  | devider hc => exact deviders_small _ hc
  | operator hop => exact symbolTexts_small _ hop
  | word hmem => exact words_small _ hmem
  | text =>
    rcases symbolType_cases source with htype | htype <;> simp [IsDelimiter, htype] at h

/-- Outside of brackets the code takes what begins with the delimiter. -/
theorem Begins.takes {k : Nat} (h : Begins tokens delimiter k) : Takes tokens delimiter k := by
  obtain ⟨token, htoken, hne, hfront, haround⟩ := h
  refine ⟨token, htoken, hfront, ?_⟩
  have hheight : height (tokens.take (k + 1)) =
      height (tokens.take k) + Cursor.rise token.pyload := by
    rw [height, List.take_add_one, htoken, List.map_append, List.sum_append]
    simp [height]
  rw [around] at haround
  split at haround
  · rename_i hopen
    have hsame : delimiter = token.pyload := by
      have hlength : token.pyload.length = 1 := by
        revert hopen
        simp only [IsOpening, List.mem_cons, List.not_mem_nil, or_false]
        rintro (h | h | h) <;> rw [h] <;> rfl
      refine hfront.eq_of_length_le ?_
      rw [hlength]
      exact List.length_pos_iff.mpr hne
    have hrise : Cursor.rise token.pyload = 1 := if_pos hopen
    rw [hheight, haround, hrise, if_pos (hsame ▸ hopen)]
    decide
  · rw [haround]
    split <;> decide

/-! ### What a split shows

A split at the right place is one at an index that the code can have found. -/

section Walked
variable (hplain : Plain (getTokens sStmt)) (hlength : (getTokens sStmt).length < 65535) {k : Nat}
  (hk : k < (getTokens sStmt).length)
include hplain hlength hk

omit hplain hlength in
theorem getTokens_ne_nil : getTokens sStmt ≠ [] := by
  intro hnil
  rw [hnil] at hk
  cases hk

theorem popToken_iff : popToken sStmt delimiter =
      (text ((getTokens sStmt).take k), text ((getTokens sStmt).drop (k + 1))) ↔
    IsLeast {k | Sees (getTokens sStmt) delimiter k} k := by
  constructor
  · intro hpop
    rcases popToken_spec hplain hlength delimiter with ⟨j, hleast, heq⟩ | ⟨-, heq⟩
    · rw [heq] at hpop
      obtain rfl := eq_of_take_text (getTokens_reads sStmt) hk (congrArg Prod.fst hpop)
      exact hleast
    · rw [heq] at hpop
      have hfst := congrArg Prod.fst hpop
      have hall : (getTokens sStmt).length = k := by
        refine eq_of_take_text (getTokens_reads sStmt) hk ?_
        rw [List.take_length]
        exact hfst
      omega
  · intro hleast
    rcases popToken_spec hplain hlength delimiter with ⟨j, hleast', heq⟩ | ⟨hnone, -⟩
    · rw [heq, hleast'.unique hleast]
    · exact absurd hleast.1 (hnone k)

omit hplain hlength in
/-- The index that a split was made at. -/
theorem index_of_split {u : Nat}
    (hdrop : text ((getTokens sStmt).drop u) = text ((getTokens sStmt).drop (k + 1)))
    (htake : text ((getTokens sStmt).take (u - 1)) = text ((getTokens sStmt).take k)) :
    u = k + 1 := by
  have heq := eq_of_take_text (getTokens_reads sStmt) hk htake
  by_contra hne
  have hu : u = 0 ∧ k = 0 := by omega
  rw [hu.1, hu.2] at hdrop
  exact absurd (eq_of_drop_text (getTokens_reads sStmt) (Nat.zero_lt_of_lt hk) hdrop.symm)
    Nat.one_ne_zero

theorem popLastToken_iff (hdelimiter : delimiter ≠ []) : popLastToken sStmt delimiter =
      some (text ((getTokens sStmt).drop (k + 1)), text ((getTokens sStmt).take k)) ↔
    (text ((getTokens sStmt).take k)).length ≤ sStmt.length ∧
      ∃ j, IsGreatest {j | Sees (getTokens sStmt) delimiter j} j ∧ (j + 1) % 256 = k + 1 := by
  have hne := getTokens_ne_nil hk
  have hspec := isDivider_spec hplain hne hlength hdelimiter
  dsimp only [popLastToken]
  rw [collect_gt hplain hne hlength, collect_lt hplain hne hlength]
  constructor
  · intro hpop
    split at hpop
    · rename_i hroom
      have hparts := Option.some.inj hpop
      have hindex := index_of_split hk (congrArg Prod.fst hparts) (congrArg Prod.snd hparts)
      rw [hindex] at hroom hspec
      refine ⟨hroom, ?_⟩
      rcases hspec with ⟨j, hgreatest, heq⟩ | ⟨-, heq⟩
      · exact ⟨j, hgreatest, heq.symm⟩
      · cases heq
    · cases hpop
  · rintro ⟨hroom, j, hgreatest, hmod⟩
    rcases hspec with ⟨i, hgreatest', heq⟩ | ⟨hnone, -⟩
    · rw [heq, hgreatest'.unique hgreatest, hmod, Nat.add_sub_cancel, if_pos hroom]
    · exact absurd hgreatest.1 (hnone j)

theorem popLastSubStmt_iff (hbegins : Begins (getTokens sStmt) delimiter k) :
    popLastSubStmt sStmt delimiter (!decide (IsOpening delimiter)) =
      (text ((getTokens sStmt).drop k), text ((getTokens sStmt).take k)) ↔
    ∃ j, IsGreatest {j | Takes (getTokens sStmt) delimiter j} j ∧
      max ((j + 1) % 256) 1 = k + 1 := by
  have hne := getTokens_ne_nil hk
  have hdelimiter : delimiter ≠ [] := let ⟨_, _, h, _⟩ := hbegins; h
  rw [popLastSubStmt, collect_ge hplain hne hlength, collect_lt hplain hne hlength]
  rcases isLastStmt_spec hplain hne hlength hdelimiter with ⟨j, hgreatest, hindex⟩ | ⟨hnone, -⟩
  · rw [hindex]
    constructor
    · intro hpop
      have htake := eq_of_take_text (getTokens_reads sStmt) hk (congrArg Prod.snd hpop)
      exact ⟨j, hgreatest, by omega⟩
    · rintro ⟨i, hgreatest', hmod⟩
      obtain rfl := hgreatest.unique hgreatest'
      have hsub : (j + 1) % 256 - 1 = k := by omega
      rw [hsub]
  · exact absurd hbegins.takes (hnone k)

end Walked

theorem Occurs.lt {k : Nat} (h : Occurs tokens delimiter k) : k < tokens.length :=
  let ⟨_, htoken, _⟩ := h
  (List.getElem?_eq_some_iff.mp htoken).1

theorem Begins.lt {k : Nat} (h : Begins tokens delimiter k) : k < tokens.length :=
  let ⟨_, htoken, _⟩ := h
  (List.getElem?_eq_some_iff.mp htoken).1

theorem Occurs.ne_nil {k : Nat} (h : Occurs (getTokens sStmt) delimiter k) : delimiter ≠ [] := by
  obtain ⟨token, htoken, -, rfl, -⟩ := h
  exact pyload_ne_nil (getTokens_reads sStmt token (List.mem_of_getElem? htoken))

theorem Occurs.text_around {k : Nat} (h : Occurs tokens delimiter k) :
    text (tokens.take k) ++ delimiter ++ text (tokens.drop (k + 1)) = text tokens := by
  obtain ⟨token, htoken, -, rfl, -⟩ := h
  exact Splitting.text_around htoken

/-! ### What a split cannot show

A `0x1f` and the tokens behind the 65535th are not seen by any pass, so a statement with these
is not split into its parts. -/

theorem plain_iff : Plain tokens ↔ (0x1f : BitVec 8) ∉ text tokens := by
  simp [Plain, text]

theorem not_mem_collect (chosen : Nat → Bool) (sStmt : CString) :
    (0x1f : BitVec 8) ∉ collect chosen sStmt := by
  intro hmem
  obtain ⟨cs, hcs, hmem⟩ := List.mem_flatMap.mp hmem
  exact (Cursor.forEach_plain sStmt cs (List.mem_of_mem_filter hcs)).1 hmem

theorem not_mem_popLastSubStmt (sStmt delimiter : CString) (bSkipBracket : Bool) :
    (0x1f : BitVec 8) ∉ (popLastSubStmt sStmt delimiter bSkipBracket).1 ∧
      (0x1f : BitVec 8) ∉ (popLastSubStmt sStmt delimiter bSkipBracket).2 := by
  dsimp only [popLastSubStmt]
  constructor
  · apply not_mem_collect
  · apply not_mem_collect

theorem weight_filter (p : Cursor.Iter → Bool) (rounds : List Cursor.Iter) :
    weight (SubStmt.seen (rounds.filter p)) +
      weight (SubStmt.seen (rounds.filter fun cs => !p cs)) =
      weight (SubStmt.seen rounds) := by
  induction rounds with
  | nil => rfl
  | cons cs rounds ih =>
    rw [SubStmt.seen_cons, weight_append, ← ih]
    cases hp : p cs with
    | true =>
      rw [List.filter_cons_of_pos hp, List.filter_cons_of_neg (by simp [hp]), SubStmt.seen_cons,
        weight_append, Nat.add_assoc]
    | false =>
      rw [List.filter_cons_of_neg (by simp [hp]), List.filter_cons_of_pos (by simp [hp]),
        SubStmt.seen_cons, weight_append, Nat.add_left_comm]

/-- What is split off and what is left weigh no more than what the cursor sees. -/
theorem weight_popLastSubStmt (sStmt delimiter : CString) (bSkipBracket : Bool) :
    weight (popLastSubStmt sStmt delimiter bSkipBracket).1 +
        weight (popLastSubStmt sStmt delimiter bSkipBracket).2 ≤
      weight (SubStmt.seen (Cursor.forEach sStmt)) := by
  have hsum := weight_filter (fun cs => decide (cs.iter_index.toNat ≥
    (lastIndex (isLastStmt delimiter bSkipBracket) sStmt).toNat)) (Cursor.forEach sStmt)
  have hnot : (fun cs : Cursor.Iter => !decide (cs.iter_index.toNat ≥
      (lastIndex (isLastStmt delimiter bSkipBracket) sStmt).toNat)) = fun cs =>
        decide (cs.iter_index.toNat <
          (lastIndex (isLastStmt delimiter bSkipBracket) sStmt).toNat) := by
    funext cs
    rw [← decide_not]
    exact decide_eq_decide.mpr Nat.not_le
  rw [hnot] at hsum
  exact Nat.le_of_eq hsum

/-- **What is split at all can be walked over, and all of it is in its tokens.** -/
theorem walkable_of_law (h : Law sStmt delimiter)
    (hsome : ∃ k, Occurs (getTokens sStmt) delimiter k ∨ Begins (getTokens sStmt) delimiter k) :
    Plain (getTokens sStmt) ∧ (getTokens sStmt).length < 65535 ∧
      solid (text (getTokens sStmt)) = solid sStmt := by
  have hreads : ∀ token ∈ getTokens sStmt, IsToken token := getTokens_reads sStmt
  by_cases hoccurs : ∃ k, Occurs (getTokens sStmt) delimiter k
  · obtain ⟨k, hleast⟩ := exists_isLeast hoccurs
    obtain ⟨token, htoken, hdelimiter, hpyload, -⟩ := hleast.1
    obtain ⟨hplain, hsmall⟩ := hdelimiter.small (hreads token (List.mem_of_getElem? htoken))
    obtain ⟨hpop, hwhole⟩ := h.first k hleast
    have htext := text_around htoken
    have hnot := @SubStmt.not_mem_split (SubStmt.tokenEnds delimiter) sStmt
    have hweight : weight (text ((getTokens sStmt).take k)) +
        weight (text ((getTokens sStmt).drop (k + 1))) ≤
          weight (SubStmt.seen (Cursor.forEach sStmt)) := by
      have hle := @SubStmt.weight_pop (SubStmt.tokenEnds delimiter) sStmt
      rwa [SubStmt.pop, ← SubStmt.popToken_eq, hpop] at hle
    rw [← SubStmt.popToken_eq, hpop] at hnot
    rw [Whole, ← hpyload, htext] at hwhole
    have hplain' : Plain (getTokens sStmt) := by
      rw [plain_iff, ← htext]
      simp only [List.mem_append, not_or]
      exact ⟨⟨hnot.1, hplain⟩, hnot.2⟩
    have hseen := SubStmt.weight_seen_text hplain'
    rw [← htext, weight_append, weight_append] at hseen
    refine ⟨hplain', ?_, hwhole⟩
    by_contra hlong
    rw [if_neg hlong] at hseen
    omega
  · obtain ⟨k, hk⟩ := hsome
    have hbegins := hk.resolve_left fun h => hoccurs ⟨k, h⟩
    obtain ⟨k, hgreatest⟩ := exists_isGreatest ⟨k, hbegins⟩ (n := (getTokens sStmt).length)
      fun _ hbegins => (List.getElem?_eq_some_iff.mp hbegins.choose_spec.1).1
    obtain ⟨hpop, hwhole⟩ := h.lastStmt k hgreatest
    have htext : text ((getTokens sStmt).take k) ++ text ((getTokens sStmt).drop k) =
        text (getTokens sStmt) := by
      rw [← text_append, List.take_append_drop]
    have hweight := weight_popLastSubStmt sStmt delimiter (!decide (IsOpening delimiter))
    have hnot := not_mem_popLastSubStmt sStmt delimiter (!decide (IsOpening delimiter))
    rw [hpop] at hweight hnot
    rw [Whole, List.append_nil, htext] at hwhole
    have hplain : Plain (getTokens sStmt) := by
      rw [plain_iff, ← htext, List.mem_append, not_or]
      exact ⟨hnot.2, hnot.1⟩
    have hseen := SubStmt.weight_seen_text hplain
    rw [← htext, weight_append] at hseen
    dsimp only at hweight
    refine ⟨hplain, ?_, hwhole⟩
    by_contra hlong
    rw [if_neg hlong] at hseen
    omega

/-- **A statement is split at the right delimiters, with nothing lost, exactly when the code finds
these delimiters and keeps their indexes.** -/
theorem law_iff (sStmt delimiter : CString) : Law sStmt delimiter ↔
    ((∃ k, Occurs (getTokens sStmt) delimiter k ∨ Begins (getTokens sStmt) delimiter k) →
      Clear sStmt delimiter) := by
  constructor
  · intro h hsome
    obtain ⟨hplain, hlength, hkept⟩ := walkable_of_law h hsome
    refine ⟨hplain, hlength, hkept, fun k hleast => ?_, fun k hgreatest => ?_,
      fun k hgreatest => ?_⟩
    · exact (popToken_iff hplain hlength hleast.1.lt).mp (h.first k hleast).1
    · exact (popLastToken_iff hplain hlength hgreatest.1.lt hgreatest.1.ne_nil).mp
        (h.last k hgreatest).1
    · exact (popLastSubStmt_iff hplain hlength hgreatest.1.lt hgreatest.1).mp
        (h.lastStmt k hgreatest).1
  · intro h
    refine ⟨fun k hleast => ?_, fun k hgreatest => ?_, fun k hgreatest => ?_⟩
    · have hclear := h ⟨k, .inl hleast.1⟩
      refine ⟨(popToken_iff hclear.plain hclear.length hleast.1.lt).mpr (hclear.first k hleast), ?_⟩
      rw [Whole, hleast.1.text_around, hclear.kept]
    · have hclear := h ⟨k, .inl hgreatest.1⟩
      refine ⟨(popLastToken_iff hclear.plain hclear.length hgreatest.1.lt
        hgreatest.1.ne_nil).mpr (hclear.last k hgreatest), ?_⟩
      rw [Whole, hgreatest.1.text_around, hclear.kept]
    · have hclear := h ⟨k, .inr hgreatest.1⟩
      refine ⟨(popLastSubStmt_iff hclear.plain hclear.length hgreatest.1.lt hgreatest.1).mpr
        (hclear.lastStmt k hgreatest), ?_⟩
      rw [Whole, List.append_nil, ← text_append, List.take_append_drop, hclear.kept]

/-- `1+1+...+1` with so many pluses. -/
def ones (n : Nat) : CString := (List.replicate n [0x31#8, 0x2b]).flatten ++ [0x31]

def onesTokens (n : Nat) : List LexToken :=
  (List.replicate n [(⟨.literal, [0x31]⟩ : LexToken), ⟨.operator, [0x2b]⟩]).flatten ++
    [⟨.literal, [0x31]⟩]

theorem getTokens_ones : getTokens (ones 128) = onesTokens 128 := by decide +kernel

theorem isGreatest_ones : IsGreatest {k | Occurs (onesTokens 128) [0x2b] k} 255 := by
  refine ⟨⟨⟨.operator, [0x2b]⟩, by decide +kernel, .inr (.inl rfl), rfl, by decide +kernel⟩, ?_⟩
  rintro k ⟨token, htoken, -, hpyload, -⟩
  by_contra hlt
  have hlength : (onesTokens 128).length = 257 := by decide +kernel
  have hk := (List.getElem?_eq_some_iff.mp htoken).1
  obtain rfl : k = 256 := by omega
  have hlast : (onesTokens 128)[256]? = some ⟨.literal, [0x31]⟩ := by decide +kernel
  obtain rfl := Option.some.inj (hlast.symm.trans htoken)
  exact absurd hpyload (by decide)

/-- Of 128 pluses the last one has the index 256, which a `uint8_t` keeps as 0. -/
theorem not_law : ¬Law (ones 128) [0x2b] := by
  intro h
  have hpop := (h.last 255 (getTokens_ones ▸ isGreatest_ones)).1
  rw [getTokens_ones] at hpop
  have hwhole : popLastToken (ones 128) [0x2b] = some (ones 128, []) := by decide +kernel
  rw [hwhole] at hpop
  exact absurd (congrArg Prod.snd (Option.some.inj hpop)) (by decide +kernel)

end Splitting

end PikaScript
