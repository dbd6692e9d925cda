import PikaScript.Parser.Docstring
import PikaScript.Parser.Lexer

/-! Where the strings of a line are.

The lexer and `Parser_removeComment` both walk over a line and say of each character whether a
string is open behind it. Both are the same walk under different rules: how many backslashes
in front of a quote keep it from opening or closing a string, and how many in front of a `#`
keep it from beginning a comment. Two rules agree on a line just when they agree at each quote
and `#` that they meet. -/
namespace PikaScript

/-! ### A walk over a line -/

/-- What the number of backslashes in front of a character decides: that a quote closes the
string that it opened, that a quote opens one, that a `#` begins a comment. -/
structure StringRule where
  closes : Nat → Bool
  opens : Nat → Bool
  cuts : Nat → Bool

namespace StringRule
open Lexer (isQuote)
variable (rule : StringRule)

/-- How many backslashes are in front of the next character. -/
def count (c : BitVec 8) (n : Nat) : Nat := if c == 0x5c then n + 1 else 0

/-- The string that is open behind a character, by its quote. None when a comment begins. -/
def next (mode : Option (BitVec 8)) (n : Nat) (c : BitVec 8) : Option (Option (BitVec 8)) :=
  match mode with
  | some quote => some (if c == quote && rule.closes n then none else some quote)
  | none =>
    if isQuote c then some (if rule.opens n then some c else none)
    else if c == 0x23 && rule.cuts n then none
    else some none

/-- Of each character up to the comment, whether a string is open behind it. -/
def regions (mode : Option (BitVec 8)) (n : Nat) : CString → List Bool
  | [] => []
  | c :: rest =>
    match rule.next mode n c with
    | none => []
    | some mode => mode.isSome :: regions mode (count c n) rest

/-- Python: an even number of backslashes lets the quote of a string close it. Outside of
strings backslashes do not matter. -/
def python : StringRule := ⟨fun n => n % 2 == 0, fun _ => true, fun _ => true⟩

/-- The lexer looks at the two characters in front of a quote. -/
def lexer : StringRule := ⟨fun n => n != 1, fun n => n != 1, fun _ => true⟩

/-- `Parser_removeComment` passes over the character behind a backslash, in and out of strings. -/
def comment : StringRule := ⟨fun n => n % 2 == 0, fun n => n % 2 == 0, fun n => n % 2 == 0⟩

/-- Another rule decides as this one does at each quote and `#` that this one meets. -/
def Agrees (other : StringRule) (mode : Option (BitVec 8)) (n : Nat) : CString → Prop
  | [] => True
  | c :: rest =>
    other.next mode n c = rule.next mode n c ∧
      ∀ mode' ∈ rule.next mode n c, Agrees other mode' (count c n) rest

/-- What the rule of the lexer says, character by character. -/
theorem lexer_next (mode : Option (BitVec 8)) (n : Nat) (c : BitVec 8) :
    lexer.next mode n c = match mode with
      | some quote => some (if c == quote && n != 1 then none else some quote)
      | none =>
        if isQuote c && n != 1 then some (some c) else if c = 0x23 then none else some none := by
  cases mode with
  | some quote => rfl
  | none =>
    simp only [next, lexer, Bool.and_true, beq_iff_eq]
    by_cases hquote : isQuote c = true
    · have hhash : c ≠ 0x23 := by
        rintro rfl
        revert hquote
        decide
      rw [if_pos hquote, hquote, Bool.true_and, if_neg hhash]
      by_cases hn : n = 1 <;> simp [hn]
    · have hboth : ¬(isQuote c && n != 1) = true := fun hboth =>
        hquote (Bool.and_eq_true_iff.mp hboth).1
      rw [if_neg hquote, if_neg hboth]

variable {rule}

/-- A character that ends the walk or not, and opens or closes a string or not, is all that a
rule decides. -/
theorem next_eq_iff {other : StringRule} {mode : Option (BitVec 8)} {n : Nat} {c : BitVec 8} :
    other.next mode n c = rule.next mode n c ↔
      (other.next mode n c).map Option.isSome = (rule.next mode n c).map Option.isSome := by
  cases mode with
  | some quote =>
    simp only [next]
    split <;> split <;> simp
  | none =>
    simp only [next]
    split
    · split <;> split <;> simp
    · split <;> split <;> simp

/-- **Two rules find the same regions just when they agree.** -/
theorem regions_eq_iff {other : StringRule} (mode : Option (BitVec 8)) (n : Nat)
    (line : CString) :
    other.regions mode n line = rule.regions mode n line ↔ rule.Agrees other mode n line := by
  induction line generalizing mode n with
  | nil => exact iff_of_true rfl trivial
  | cons c rest ih =>
    rw [regions, regions, Agrees]
    constructor
    · intro heq
      have hnext : other.next mode n c = rule.next mode n c := by
        rw [next_eq_iff]
        cases hp : other.next mode n c <;> cases hq : rule.next mode n c <;>
          rw [hp, hq] at heq <;> simp_all
      refine ⟨hnext, fun mode' hmode => (ih mode' _).mp ?_⟩
      rw [hnext, Option.mem_def.mp hmode] at heq
      exact (List.cons.inj heq).2
    · intro ⟨hnext, hrest⟩
      rw [hnext]
      cases hq : rule.next mode n c with
      | none => rfl
      | some mode' => exact congrArg (mode'.isSome :: ·) ((ih mode' _).mpr (hrest mode' hq))

end StringRule

/-! ### `Parser_removeComment` -/

namespace Comment

/-- The variables of the loop. -/
structure State where
  bInSingleQuotes : Bool
  bInDoubleQuotes : Bool
  bPrevCharWasBackslash : Bool
deriving DecidableEq

/-- One round of the loop. None at the `#` that begins the comment. -/
def step (s : State) (c : BitVec 8) : Option State :=
  if s.bPrevCharWasBackslash then some { s with bPrevCharWasBackslash := false }
  else if c == 0x5c then some { s with bPrevCharWasBackslash := true }
  else if c == 0x27 && !s.bInDoubleQuotes then
    some { s with bInSingleQuotes := !s.bInSingleQuotes }
  else if c == 0x22 && !s.bInSingleQuotes then
    some { s with bInDoubleQuotes := !s.bInDoubleQuotes }
  else if !(!s.bInSingleQuotes && !s.bInDoubleQuotes) then some s
  else if c == 0x23 then none
  else some s

/-- The variables behind each character up to the comment. -/
def trace : State → CString → List State
  | _, [] => []
  | s, c :: rest =>
    match step s c with
    | none => []
    | some s => s :: trace s rest

/-- A line whose comment begins behind so many characters, without it. -/
def cut (kept : Nat) (sLine : CString) : CString :=
  if kept = sLine.length then sLine
  else
    let text := sLine.take kept
    if text.all (· == 0x20) then Docstring.annotated else text

/-- `Parser_removeComment`. -/
def removeComment (sLine : CString) : CString :=
  cut (trace ⟨false, false, false⟩ sLine).length sLine

/-- The string that the loop is in, by its quote. -/
def State.mode (s : State) : Option (BitVec 8) :=
  if s.bInSingleQuotes then some 0x27 else if s.bInDoubleQuotes then some 0x22 else none

/-- What the loop knows of a line: never both strings, and whether the number of backslashes in
front of the next character is odd. -/
structure Knows (s : State) (n : Nat) : Prop where
  one : s.bInSingleQuotes = true → s.bInDoubleQuotes = false
  odd : s.bPrevCharWasBackslash = (n % 2 == 1)

/-- A character behind an odd number of backslashes is passed over. -/
theorem next_odd {mode : Option (BitVec 8)} {n : Nat} (hn : n % 2 = 1) (c : BitVec 8) :
    StringRule.comment.next mode n c = some mode := by
  cases mode with
  | some quote => simp [StringRule.next, StringRule.comment, hn]
  | none => simp [StringRule.next, StringRule.comment, hn]

theorem step_spec {s : State} {n : Nat} (h : Knows s n) (c : BitVec 8) :
    (step s c).map State.mode = StringRule.comment.next s.mode n c ∧
      ∀ s' ∈ step s c, Knows s' (StringRule.count c n) := by
  obtain ⟨bSingle, bDouble, bBackslash⟩ := s
  obtain ⟨hone, rfl⟩ := h
  rcases Nat.mod_two_eq_zero_or_one n with hn | hn
  · have hcount : c ≠ 0x5c#8 → StringRule.count c n = 0 := fun hne => by
      simp [StringRule.count, hne]
    by_cases hslash : c = 0x5c#8
    · subst hslash
      refine ⟨?_, fun s' hs' => ?_⟩
      · cases bSingle <;> cases bDouble <;>
          simp [step, State.mode, StringRule.next, Lexer.isQuote, hn]
      · simp only [step, hn] at hs'
        cases hs'
        exact ⟨hone, by simp [StringRule.count]; omega⟩
    rw [hcount hslash]
    by_cases hsingle : c = 0x27#8
    · subst hsingle
      cases bSingle <;> cases bDouble <;>
        simp_all [step, State.mode, StringRule.next, StringRule.comment, Lexer.isQuote] <;>
        exact ⟨by simp, rfl⟩
    by_cases hdouble : c = 0x22#8
    · subst hdouble
      cases bSingle <;> cases bDouble <;>
        simp_all [step, State.mode, StringRule.next, StringRule.comment, Lexer.isQuote] <;>
        exact ⟨by simp, rfl⟩
    by_cases hhash : c = 0x23#8
    · subst hhash
      cases bSingle <;> cases bDouble <;>
        simp_all [step, State.mode, StringRule.next, StringRule.comment, Lexer.isQuote] <;>
        exact ⟨by simp, rfl⟩
    · cases bSingle <;> cases bDouble <;>
        simp_all [step, State.mode, StringRule.next, StringRule.comment, Lexer.isQuote] <;>
        exact ⟨by simp, rfl⟩
  · refine ⟨?_, fun s' hs' => ?_⟩
    · rw [next_odd hn]
      simp [step, hn]
      rfl
    · simp only [step, hn] at hs'
      cases hs'
      refine ⟨hone, ?_⟩
      rw [StringRule.count]
      split
      · simp
        omega
      · rfl

/-- **`Parser_removeComment` walks under its rule.** -/
theorem trace_regions {s : State} {n : Nat} (h : Knows s n) (line : CString) :
    (trace s line).map (fun s => s.mode.isSome) = StringRule.comment.regions s.mode n line := by
  induction line generalizing s n with
  | nil => rfl
  | cons c rest ih =>
    obtain ⟨hmode, hknows⟩ := step_spec h c
    rw [trace, StringRule.regions, ← hmode]
    cases hstep : step s c with
    | none => rfl
    | some s' =>
      rw [List.map_cons, ih (hknows s' hstep)]
      rfl

end Comment

/-! ### The lexer -/

namespace Lexer

/-- What the lexer knows of a line: whether there is a backslash in front of the next character,
and whether there are two; and what it has taken is neither a quote nor a `#`. -/
structure Knows (s : State) (n : Nat) (rest : CString) : Prop where
  one : s.cn1 = 0x5c ↔ 1 ≤ n
  two : s.cn1 = 0x5c ∧ s.cn2 = 0x5c ↔ 2 ≤ n
  quote : ∀ quote ∈ s.bInString, isQuote quote = true
  skip : s.skip ≠ 0 → s.bInString = none
  taken : ∀ c ∈ rest.take s.skip, isQuote c = false ∧ c ≠ 0x23

/-- What a word takes is part of its text. -/
theorem words_taken : ∀ word ∈ words, word.text ≠ [] ∧ word.skip ≤ word.text.tail.length ∧
    ∀ c ∈ word.text.tail.take word.skip, isQuote c = false ∧ c ≠ 0x23 := by
  decide

theorem doubled_taken : ∀ c ∈ doubled, isQuote c = false ∧ c ≠ 0x23 := by decide

/-- The characters behind one that are known are the ones that are there. -/
theorem take_of_headD {rest : CString} {c : BitVec 8} (hc : c ≠ 0) (h : rest.headD 0 = c) :
    ∃ rest', rest = c :: rest' := by
  cases rest with
  | nil => exact absurd h.symm hc
  | cons a rest => exact ⟨rest, congrArg (· :: rest) h⟩

/-- What an operator or keyword takes is neither a quote nor a `#`. -/
theorem found_taken {cn1 c0 : BitVec 8} {bNumber : Bool} {rest : CString} {token : LexToken}
    {skip : Nat} (h : found cn1 c0 bNumber rest = .token token skip) :
    ∀ c ∈ rest.take skip, isQuote c = false ∧ c ≠ 0x23 := by
  have hequals : isQuote 0x3d = false ∧ (0x3d : BitVec 8) ≠ 0x23 := by decide
  have hnone : ∀ c ∈ rest.take 0, isQuote c = false ∧ c ≠ 0x23 := fun c hc => by simp at hc
  have hone : rest.headD 0 = 0x3d → ∀ c ∈ rest.take 1, isQuote c = false ∧ c ≠ 0x23 := by
    intro hc1
    obtain ⟨rest', rfl⟩ := take_of_headD (by decide) hc1
    simpa using hequals
  have htwice : doubled.contains c0 = true → c0 = rest.headD 0 →
      ∀ c ∈ rest.take 1, isQuote c = false ∧ c ≠ 0x23 := by
    intro hmem hc1
    have hc0 := doubled_taken c0 (by simpa using hmem)
    obtain ⟨rest', rfl⟩ := take_of_headD (by rintro rfl; revert hmem; decide) hc1.symm
    simpa using hc0
  have htwo : doubled.contains c0 = true → c0 = rest.headD 0 → rest.tail.headD 0 = 0x3d →
      ∀ c ∈ rest.take 2, isQuote c = false ∧ c ≠ 0x23 := by
    intro hmem hc1 hc2
    have hc0 := doubled_taken c0 (by simpa using hmem)
    obtain ⟨rest', rfl⟩ := take_of_headD (by rintro rfl; revert hmem; decide) hc1.symm
    obtain ⟨rest'', rfl⟩ := take_of_headD (by decide) hc2
    intro c hc
    rw [List.take_succ_cons, List.take_succ_cons, List.take_zero, List.mem_cons,
      List.mem_singleton] at hc
    rcases hc with rfl | rfl
    · exact hc0
    · exact hequals
  unfold found at h
  dsimp only at h
  split at h
  · cases h
  split at h
  · cases h
    exact hnone
  split at h
  · split at h
    · cases h
    split at h
    · rename_i hstar
      cases h
      simp only [Bool.and_eq_true, Bool.or_eq_true, beq_iff_eq] at hstar
      refine htwo ?_ hstar.1.2 hstar.2
      rcases hstar.1.1 with rfl | rfl <;> decide
    split at h
    · rename_i hdouble
      simp only [Bool.and_eq_true, beq_iff_eq] at hdouble
      split at h
      · rename_i hc2
        cases h
        exact htwo hdouble.1 hdouble.2 (eq_of_beq hc2)
      · cases h
        exact htwice hdouble.1 hdouble.2
    split at h
    · rename_i hassign
      cases h
      simp only [Bool.and_eq_true, beq_iff_eq] at hassign
      exact hone hassign.2
    · cases h
      exact hnone
  split at h
  · cases h
  split at h
  · rename_i word hword
    cases h
    have hfront : word.text.isPrefixOf (c0 :: rest) = true :=
      List.find?_some (p := fun word : Word => word.text.isPrefixOf (c0 :: rest)) hword
    obtain ⟨rest', hrest⟩ := List.isPrefixOf_iff_prefix.mp hfront
    obtain ⟨hne, hle, htaken⟩ := words_taken word (List.mem_of_find?_eq_some hword)
    have htail : rest = word.text.tail ++ rest' := by
      have htails := congrArg List.tail hrest
      rw [List.tail_append_of_ne_nil hne] at htails
      exact htails.symm
    rw [htail, List.take_append_of_le_length hle]
    exact htaken
  · cases h

theorem found_eq_comment {cn1 c0 : BitVec 8} {bNumber : Bool} {rest : CString} :
    found cn1 c0 bNumber rest = .comment ↔ c0 = 0x23 := by
  constructor
  · intro h
    by_contra hne
    unfold found at h
    dsimp only at h
    rw [if_neg (by simpa using hne)] at h
    split at h
    · cases h
    split at h
    · split at h
      · cases h
      split at h
      · cases h
      split at h
      · split at h <;> cases h
      split at h <;> cases h
    split at h
    · cases h
    split at h <;> cases h
  · rintro rfl
    rfl

/-- The characters in front are known behind a character, too. -/
theorem count_spec {s : State} {n : Nat} {line : CString} (h : Knows s n line) (c : BitVec 8) :
    (c = 0x5c ↔ 1 ≤ StringRule.count c n) ∧
      (c = 0x5c ∧ s.cn1 = 0x5c ↔ 2 ≤ StringRule.count c n) := by
  have hone := h.one
  rw [StringRule.count]
  by_cases hc : c = 0x5c
  · rw [if_pos (beq_iff_eq.mpr hc)]
    exact ⟨iff_of_true hc (by omega), by rw [and_iff_right hc, hone]; omega⟩
  · rw [if_neg (fun heq => hc (eq_of_beq heq))]
    exact ⟨iff_of_false hc (by omega), iff_of_false (fun hboth => hc hboth.1) (by omega)⟩

/-- The lexer takes a quote for escaped when one backslash is in front of it. -/
theorem unescaped_iff {s : State} {n : Nat} {line : CString} (h : Knows s n line) :
    (s.cn1 != 0x5c || s.cn2 == 0x5c) = (n != 1) := by
  have hone := h.one
  have htwo := h.two
  rw [Bool.eq_iff_iff, Bool.or_eq_true, bne_iff_ne, bne_iff_ne, beq_iff_eq]
  by_cases hc1 : s.cn1 = 0x5c
  · have hn : 1 ≤ n := hone.mp hc1
    rw [and_iff_right hc1] at htwo
    rw [htwo]
    simp only [hc1, ne_eq, not_true_eq_false, false_or]
    omega
  · have hn : ¬1 ≤ n := fun hn => hc1 (hone.mpr hn)
    simp only [hc1, ne_eq, not_false_eq_true, true_or, true_iff]
    omega

/-- A character that an operator took changes nothing. -/
theorem advance_taken {s : State} {n k : Nat} {c : BitVec 8} {rest : CString}
    (h : Knows s n (c :: rest)) (hskip : s.skip = k + 1) :
    (advance s c rest).map (fun r => r.1.bInString) = StringRule.lexer.next s.bInString n c ∧
      ∀ r ∈ advance s c rest, Knows r.1 (StringRule.count c n) rest := by
  have hnone := h.skip (by omega)
  have htaken := h.taken
  rw [hskip, List.take_succ_cons] at htaken
  obtain ⟨hquote, hhash⟩ := htaken c List.mem_cons_self
  rw [advance, hskip]
  refine ⟨?_, fun r hr => ?_⟩
  · rw [hnone, StringRule.next]
    simp only [hquote, Bool.false_eq_true, if_false, Option.map_some]
    rw [if_neg (by simpa using fun heq => absurd heq hhash)]
  · cases hr
    obtain ⟨hone, htwo⟩ := count_spec h c
    exact ⟨hone, htwo, h.quote, fun _ => hnone,
      fun c' hc' => htaken c' (List.mem_cons_of_mem c hc')⟩

theorem advance_spec {s : State} {n : Nat} {c : BitVec 8} {rest : CString}
    (h : Knows s n (c :: rest)) :
    (advance s c rest).map (fun r => r.1.bInString) = StringRule.lexer.next s.bInString n c ∧
      ∀ r ∈ advance s c rest, Knows r.1 (StringRule.count c n) rest := by
  cases hskip : s.skip with
  | succ k => exact advance_taken h hskip
  | zero =>
    obtain ⟨hone, htwo⟩ := count_spec h c
    have hnothing : ∀ c ∈ rest.take 0, isQuote c = false ∧ c ≠ 0x23 := fun c hc => by simp at hc
    rw [advance, hskip]
    dsimp only
    rw [step, unescaped_iff h]
    generalize (if s.symbol.isNone = true then isDigit c else s.bNumber) = bNumber
    cases hstring : s.bInString with
    | some quote =>
      have hquote := h.quote quote hstring
      rw [StringRule.lexer_next]
      dsimp only
      by_cases hcloses : (c == quote && n != 1) = true
      · rw [if_pos hcloses, if_pos hcloses]
        refine ⟨rfl, fun r hr => ?_⟩
        cases hr
        exact ⟨hone, htwo, nofun, fun _ => rfl, by rw [hskip]; exact hnothing⟩
      · rw [if_neg hcloses, if_neg hcloses]
        refine ⟨rfl, fun r hr => ?_⟩
        cases hr
        exact ⟨hone, htwo, fun q hq => by cases hq; exact hquote,
          fun hne => absurd hskip hne, by rw [hskip]; exact hnothing⟩
    | none =>
      rw [StringRule.lexer_next]
      dsimp only
      by_cases hopens : (isQuote c && n != 1) = true
      · rw [if_pos hopens, if_pos hopens]
        have hquote := (Bool.and_eq_true_iff.mp hopens).1
        refine ⟨rfl, fun r hr => ?_⟩
        cases hr
        exact ⟨hone, htwo, fun q hq => by cases hq; exact hquote,
          fun hne => absurd hskip hne, by rw [hskip]; exact hnothing⟩
      rw [if_neg hopens, if_neg hopens]
      have hhash := @found_eq_comment s.cn1 c bNumber rest
      cases hfound : found s.cn1 c bNumber rest with
      | comment =>
        rw [if_pos (hhash.mp hfound)]
        exact ⟨rfl, nofun⟩
      | exponent =>
        have hne : c ≠ 0x23 := fun heq => by rw [hhash.mpr heq] at hfound; cases hfound
        rw [if_neg hne]
        refine ⟨rfl, fun r hr => ?_⟩
        cases hr
        exact ⟨hone, htwo, nofun, fun hne => absurd hskip hne, by rw [hskip]; exact hnothing⟩
      | token token skip =>
        have hne : c ≠ 0x23 := fun heq => by rw [hhash.mpr heq] at hfound; cases hfound
        rw [if_neg hne]
        refine ⟨rfl, fun r hr => ?_⟩
        cases hr
        exact ⟨hone, htwo, nofun, fun _ => rfl, found_taken hfound⟩
      | other =>
        have hne : c ≠ 0x23 := fun heq => by rw [hhash.mpr heq] at hfound; cases hfound
        rw [if_neg hne]
        have hkeeps : ∀ symbol, Knows ⟨s.cn1, c, symbol, none, bNumber, s.skip⟩
            (StringRule.count c n) rest := fun symbol =>
          ⟨hone, htwo, nofun, fun hne => absurd hskip hne, by rw [hskip]; exact hnothing⟩
        dsimp only
        split
        · exact ⟨rfl, fun r hr => by cases hr; exact hkeeps _⟩
        split
        · exact ⟨rfl, fun r hr => by cases hr; exact hkeeps _⟩
        · exact ⟨rfl, fun r hr => by cases hr; exact hkeeps _⟩

/-- **The lexer walks under its rule.** -/
theorem trace_regions {s : State} {n : Nat} {line : CString} (h : Knows s n line) :
    (trace s line).map (fun r => r.1.bInString.isSome) =
      StringRule.lexer.regions s.bInString n line := by
  induction line generalizing s n with
  | nil => rfl
  | cons c rest ih =>
    obtain ⟨hmode, hknows⟩ := advance_spec h
    rw [trace, StringRule.regions, ← hmode]
    cases hstep : advance s c rest with
    | none => rfl
    | some r =>
      rw [List.map_cons, ih (hknows r hstep)]
      rfl

end Lexer

/-! ### The law -/

/-- The two walks and Python agree on a line: on the characters behind which a string is open,
and so on where the comment begins. -/
structure RegionsAgree (sLine : CString) : Prop where
  lexer : (Lexer.trace Lexer.start sLine).map (fun r => r.1.bInString.isSome) =
    StringRule.python.regions none 0 sLine
  comment : (Comment.trace ⟨false, false, false⟩ sLine).map (fun s => s.mode.isSome) =
    StringRule.python.regions none 0 sLine
  cut : Comment.removeComment sLine =
    Comment.cut (StringRule.python.regions none 0 sLine).length sLine

/-- A character behind `n` backslashes is clear: outside of strings a quote or `#` needs an even
number, and the quote of a string none that is odd, from three on. -/
def ClearAt (mode : Option (BitVec 8)) (n : Nat) (c : BitVec 8) : Prop :=
  match mode with
  | some quote => c = quote → n % 2 = 0 ∨ n = 1
  | none => Lexer.isQuote c = true ∨ c = 0x23 → n % 2 = 0

/-- Every character of the line is clear, as Python reads it. -/
def BackslashesClear (mode : Option (BitVec 8)) (n : Nat) : CString → Prop
  | [] => True
  | c :: rest =>
    ClearAt mode n c ∧
      ∀ mode' ∈ StringRule.python.next mode n c,
        BackslashesClear mode' (StringRule.count c n) rest

/-- What a character must be behind for the two rules of the code to be Python's. -/
theorem next_clear_iff (mode : Option (BitVec 8)) (n : Nat) (c : BitVec 8) :
    (StringRule.lexer.next mode n c = StringRule.python.next mode n c ∧
      StringRule.comment.next mode n c = StringRule.python.next mode n c) ↔
    ClearAt mode n c := by
  have hhash : Lexer.isQuote 0x23#8 = false := rfl
  cases mode with
  | some quote =>
    simp only [StringRule.next, StringRule.lexer, StringRule.python, StringRule.comment, ClearAt]
    by_cases hc : c = quote
    · rcases Nat.mod_two_eq_zero_or_one n with hn | hn <;> by_cases hone : n = 1 <;>
        simp [hc, hn, hone]
    · simp [hc]
  | none =>
    simp only [StringRule.next, StringRule.lexer, StringRule.python, StringRule.comment, ClearAt]
    by_cases hquote : Lexer.isQuote c = true
    · rcases Nat.mod_two_eq_zero_or_one n with hn | hn <;> by_cases hone : n = 1 <;>
        simp [hquote, hn, hone]
    · rcases Nat.mod_two_eq_zero_or_one n with hn | hn <;> by_cases hc : c = 0x23#8 <;>
        simp [hquote, hn, hc, hhash]

theorem agrees_iff (mode : Option (BitVec 8)) (n : Nat) (sLine : CString) :
    (StringRule.python.Agrees .lexer mode n sLine ∧
      StringRule.python.Agrees .comment mode n sLine) ↔ BackslashesClear mode n sLine := by
  induction sLine generalizing mode n with
  | nil => exact iff_of_true ⟨trivial, trivial⟩ trivial
  | cons c rest ih =>
    rw [StringRule.Agrees, StringRule.Agrees, BackslashesClear, ← next_clear_iff]
    constructor
    · intro ⟨⟨hlexer, hlexers⟩, hcomment, hcomments⟩
      exact ⟨⟨hlexer, hcomment⟩, fun mode' hmode =>
        (ih mode' _).mp ⟨hlexers mode' hmode, hcomments mode' hmode⟩⟩
    · intro ⟨⟨hlexer, hcomment⟩, hrest⟩
      exact ⟨⟨hlexer, fun mode' hmode => ((ih mode' _).mpr (hrest mode' hmode)).1⟩, hcomment,
        fun mode' hmode => ((ih mode' _).mpr (hrest mode' hmode)).2⟩

/-- **The walks agree with Python exactly on the lines whose backslashes are clear.** -/
theorem regionsAgree_iff (sLine : CString) :
    RegionsAgree sLine ↔ BackslashesClear none 0 sLine := by
  have hlexer : (Lexer.trace Lexer.start sLine).map (fun r => r.1.bInString.isSome) =
      StringRule.lexer.regions none 0 sLine :=
    Lexer.trace_regions ⟨by simp [Lexer.start], by simp [Lexer.start], nofun, fun _ => rfl,
      fun c hc => by simp [Lexer.start] at hc⟩
  have hcomment : (Comment.trace ⟨false, false, false⟩ sLine).map (fun s => s.mode.isSome) =
      StringRule.comment.regions none 0 sLine :=
    Comment.trace_regions ⟨(fun hsingle => by cases hsingle), rfl⟩ sLine
  rw [← agrees_iff, ← StringRule.regions_eq_iff, ← StringRule.regions_eq_iff, ← hlexer, ← hcomment]
  constructor
  · exact fun h => ⟨h.lexer, h.comment⟩
  · intro ⟨hl, hc⟩
    refine ⟨hl, hc, ?_⟩
    rw [← hc, List.length_map, Comment.removeComment]

/-- Behind three backslashes the lexer closes a string whose quote is escaped, and takes the `#`
in it for a comment. -/
theorem not_regionsAgree : ¬∀ sLine : CString, RegionsAgree sLine := by
  intro h
  have hclear := (h [0x27, 0x5c, 0x5c, 0x5c, 0x27, 0x23, 0x27]).lexer
  revert hclear
  decide

end PikaScript
