import PikaScript.Parser.StringRegion

/-! One token at a time.

What the lexer does from a point between two tokens on depends on nothing but the rest of the
statement, and what it does within a name, a number or a string on nothing but that and the rest.
So its loop is the repeated reading of one token: a space is passed over, an operator is as long
as it can be, and a text ends where something else begins. -/
namespace PikaScript.Lexer
open InstructIndex (letters)

/-! ### What the loop remembers -/

/-- The tokens behind a point of the loop. -/
def tokens (s : State) (line : CString) : List LexToken := (trace s line).flatMap Prod.snd

theorem tokens_cons (s : State) (c : BitVec 8) (rest : CString) :
    tokens s (c :: rest) = match advance s c rest with
      | none => []
      | some r => r.2 ++ tokens r.1 rest := by
  rw [tokens, trace]
  cases advance s c rest with
  | none => rfl
  | some r => exact List.flatMap_cons

/-- The two characters in front do not escape a quote. -/
def State.unescaped (s : State) : Bool := s.cn1 != 0x5c || s.cn2 == 0x5c

/-- Two points of the loop that it cannot tell apart. -/
structure Alike (s t : State) : Prop where
  word : isWord s.cn1 = isWord t.cn1
  exponent : (s.cn1 == 0x65 || s.cn1 == 0x45) = (t.cn1 == 0x65 || t.cn1 == 0x45)
  backslash : (s.cn1 == 0x5c) = (t.cn1 == 0x5c)
  unescaped : s.unescaped = t.unescaped
  symbol : s.symbol = t.symbol
  bNumber : s.symbol.isNone = false → s.bNumber = t.bNumber
  bInString : s.bInString = t.bInString
  skip : s.skip = t.skip

/-- A point between two tokens. -/
structure Fresh (s : State) : Prop where
  word : isWord s.cn1 = false
  backslash : s.cn1 ≠ 0x5c
  symbol : s.symbol = none
  bInString : s.bInString = none
  skip : s.skip = 0

theorem not_exponent_of_not_word {c : BitVec 8} (h : isWord c = false) :
    (c == 0x65 || c == 0x45) = false := by
  rw [Bool.eq_false_iff]
  intro hc
  rw [Bool.or_eq_true, beq_iff_eq, beq_iff_eq] at hc
  rcases hc with rfl | rfl <;> revert h <;> decide

theorem Fresh.alike_start {s : State} (h : Fresh s) : Alike s start where
  word := h.word
  exponent := not_exponent_of_not_word h.word
  backslash := by simpa [start] using h.backslash
  unescaped := by rw [State.unescaped, bne_iff_ne.mpr h.backslash]; rfl
  symbol := h.symbol
  bNumber := fun hnone => by simp [h.symbol] at hnone
  bInString := h.bInString
  skip := h.skip

/-- What is found depends on the character in front only as far as it is a word's or an
exponent's. -/
theorem found_congr {a b : BitVec 8} (hword : isWord a = isWord b)
    (hexponent : (a == 0x65 || a == 0x45) = (b == 0x65 || b == 0x45)) (c : BitVec 8)
    (bNumber : Bool) (rest : CString) : found a c bNumber rest = found b c bNumber rest := by
  simp only [found, hword, hexponent]

/-- Behind the next character two such points are alike again. -/
theorem Alike.next {s t : State} (h : Alike s t) (c : BitVec 8) (symbol : Option CString)
    (bInString : Option (BitVec 8)) {n n' : Bool} (hn : symbol.isNone = false → n = n')
    (skip : Nat) :
    Alike ⟨s.cn1, c, symbol, bInString, n, skip⟩ ⟨t.cn1, c, symbol, bInString, n', skip⟩ where
  word := rfl
  exponent := rfl
  backslash := rfl
  unescaped := by simp only [State.unescaped, h.backslash]
  symbol := rfl
  bNumber := hn
  bInString := rfl
  skip := rfl

/-- Two rounds add the same tokens and end alike. -/
def SameRound (r r' : State × List LexToken) : Prop := Alike r.1 r'.1 ∧ r.2 = r'.2

theorem Alike.step {s t : State} (h : Alike s t) (c : BitVec 8) (rest : CString) :
    Option.Rel SameRound (step s c rest) (step t c rest) := by
  have hnumber : (if s.symbol.isNone then isDigit c else s.bNumber) =
      (if t.symbol.isNone then isDigit c else t.bNumber) := by
    rw [← h.symbol]
    split
    · rfl
    · rename_i hsome
      exact h.bNumber (Bool.eq_false_iff.mpr hsome)
  have hunescaped : (s.cn1 != 0x5c || s.cn2 == 0x5c) = (t.cn1 != 0x5c || t.cn2 == 0x5c) :=
    h.unescaped
  rw [Lexer.step, Lexer.step, ← hnumber, ← hunescaped, ← h.symbol, ← h.bInString,
    found_congr h.word h.exponent, ← h.skip]
  generalize (if s.symbol.isNone then isDigit c else s.bNumber) = bNumber
  generalize found t.cn1 c bNumber rest = found
  have hnext := fun symbol bInString skip =>
    @Alike.next s t h c symbol bInString bNumber bNumber (fun _ => rfl) skip
  cases s.bInString with
  | some quote =>
    dsimp only
    split
    · exact .some ⟨hnext _ _ _, rfl⟩
    · exact .some ⟨hnext _ _ _, rfl⟩
  | none =>
    dsimp only
    split
    · exact .some ⟨hnext _ _ _, rfl⟩
    cases found with
    | comment => exact .none
    | exponent => exact .some ⟨hnext _ _ _, rfl⟩
    | token token skip => exact .some ⟨hnext _ _ _, rfl⟩
    | other =>
      dsimp only
      split
      · exact .some ⟨hnext _ _ _, rfl⟩
      split
      · exact .some ⟨hnext _ _ _, rfl⟩
      · exact .some ⟨hnext _ _ _, rfl⟩

theorem Alike.advance {s t : State} (h : Alike s t) (c : BitVec 8) (rest : CString) :
    Option.Rel SameRound (advance s c rest) (advance t c rest) := by
  rw [Lexer.advance, Lexer.advance, ← h.skip]
  cases s.skip with
  | zero => exact h.step c rest
  | succ skip =>
    rw [← h.symbol, ← h.bInString]
    exact .some ⟨h.next c _ _ h.bNumber skip, rfl⟩

theorem Alike.tokens_eq {s t : State} (h : Alike s t) (line : CString) :
    tokens s line = tokens t line := by
  induction line generalizing s t with
  | nil => rfl
  | cons c rest ih =>
    rw [tokens_cons, tokens_cons]
    have hround := h.advance c rest
    generalize Lexer.advance s c rest = a at hround ⊢
    generalize Lexer.advance t c rest = b at hround ⊢
    cases hround with
    | none => rfl
    | some hsame => exact congrArg₂ (· ++ ·) hsame.2 (ih hsame.1)

/-- **Between two tokens only the rest of the statement matters.** -/
theorem Fresh.tokens_eq {s : State} (h : Fresh s) (line : CString) :
    tokens s line = getTokens line := h.alike_start.tokens_eq line

/-! ### Spaces, deviders, operators and keywords -/

/-- The texts of the operators that are not words. -/
def symbolTexts : List CString :=
  operators.map (fun c => [c]) ++ doubled.map (fun c => [c, c]) ++
    assigned.map (fun c => [c, 0x3d]) ++ doubled.map (fun c => [c, c, 0x3d])

/-- An operator that a line begins with, and no longer one does. -/
structure Longest (op line : CString) : Prop where
  mem : op ∈ symbolTexts
  front : op <+: line
  le : ∀ op' ∈ symbolTexts, op' <+: line → op'.length ≤ op.length

theorem symbolTexts_mem {c : BitVec 8} {op : CString} (h : c :: op ∈ symbolTexts) :
    op = [] ∧ c ∈ operators ∨ op = [c] ∧ c ∈ doubled ∨ op = [0x3d] ∧ c ∈ assigned ∨
      op = [c, 0x3d] ∧ c ∈ doubled := by
  simp only [symbolTexts, List.mem_append, List.mem_map, List.cons.injEq] at h
  rcases h with ((⟨a, ha, rfl, rfl⟩ | ⟨a, ha, rfl, rfl⟩) | ⟨a, ha, rfl, rfl⟩) | ⟨a, ha, rfl, rfl⟩
  · exact .inl ⟨rfl, ha⟩
  · exact .inr (.inl ⟨rfl, ha⟩)
  · exact .inr (.inr (.inl ⟨rfl, ha⟩))
  · exact .inr (.inr (.inr ⟨rfl, ha⟩))

theorem operators_kind : ∀ c ∈ operators, (c == 0x23) = false ∧ deviders.contains c = false ∧
    operators.contains c = true ∧ isWord c = false ∧ c ≠ 0x5c ∧ isQuote c = false ∧
    isDigit c = false ∧ c ≠ 0x20 ∧ c ≠ 0 := by
  decide +kernel

theorem doubled_mem : ∀ c ∈ doubled, c ∈ operators ∧ c ∈ assigned ∧ c ≠ 0x3d := by decide

theorem assigned_mem : ∀ c ∈ assigned, c ∈ operators := by decide

theorem symbolTexts_chars {op : CString} (h : op ∈ symbolTexts) :
    op ≠ [] ∧ ∀ c ∈ op, c ∈ operators := by
  have hequals : (0x3d : BitVec 8) ∈ operators := by decide
  match op, h with
  | [], h => simp [symbolTexts] at h
  | c :: op, h =>
    refine ⟨List.cons_ne_nil c op, ?_⟩
    rcases symbolTexts_mem h with ⟨rfl, hc⟩ | ⟨rfl, hc⟩ | ⟨rfl, hc⟩ | ⟨rfl, hc⟩
    · simpa using hc
    · simpa using (doubled_mem c hc).1
    · simpa using ⟨assigned_mem c hc, hequals⟩
    · simpa using ⟨(doubled_mem c hc).1, hequals⟩

/-- The ways in which an operator goes on behind its first character. -/
theorem symbolTexts_cases {c : BitVec 8} {op rest : CString} (h : op ∈ symbolTexts)
    (hfront : op <+: c :: rest) :
    op = [c] ∨ (op = [c, c] ∧ c ∈ doubled ∧ rest.headD 0 = c) ∨
      (op = [c, 0x3d] ∧ c ∈ assigned ∧ rest.headD 0 = 0x3d) ∨
      (op = [c, c, 0x3d] ∧ c ∈ doubled ∧ rest.headD 0 = c ∧ rest.tail.headD 0 = 0x3d) := by
  obtain ⟨rest', heq⟩ := hfront
  cases op with
  | nil => exact absurd rfl (symbolTexts_chars h).1
  | cons a op =>
    obtain ⟨rfl, rfl⟩ := List.cons.inj heq
    rcases symbolTexts_mem h with ⟨rfl, -⟩ | ⟨rfl, hmem⟩ | ⟨rfl, hmem⟩ | ⟨rfl, hmem⟩
    · exact .inl rfl
    · exact .inr (.inl ⟨rfl, hmem, rfl⟩)
    · exact .inr (.inr (.inl ⟨rfl, hmem, rfl⟩))
    · exact .inr (.inr (.inr ⟨rfl, hmem, rfl, rfl⟩))

/-- **An operator is found at its full length.** -/
theorem found_operator {cn1 c : BitVec 8} {bNumber : Bool} (hc : c ∈ operators)
    (hexponent : (c == 0x2d && bNumber && (cn1 == 0x65 || cn1 == 0x45)) = false)
    (rest : CString) : ∃ op, Longest op (c :: rest) ∧
      found cn1 c bNumber rest = .token ⟨.operator, op⟩ (op.length - 1) := by
  obtain ⟨hhash, hdevider, hmem, -, -, -, -, -, hzero⟩ := operators_kind c hc
  simp only [found, hhash, hdevider, hmem, hexponent, Bool.false_eq_true, if_false, if_true]
  by_cases hdouble : c ∈ doubled ∧ rest.headD 0 = c
  · obtain ⟨hdoubled, hc1⟩ := hdouble
    obtain ⟨rest', rfl⟩ := take_of_headD hzero hc1
    by_cases hc2 : rest'.headD 0 = 0x3d
    · obtain ⟨rest'', rfl⟩ := take_of_headD (by decide) hc2
      refine ⟨[c, c, 0x3d], ⟨?_, ⟨rest'', rfl⟩, fun op' hop' hfront => ?_⟩, ?_⟩
      · simp [symbolTexts, hdoubled]
      · rcases symbolTexts_cases hop' hfront with rfl | ⟨rfl, -⟩ | ⟨rfl, -⟩ | ⟨rfl, -⟩ <;> simp
      · simp [hdoubled]
    · refine ⟨[c, c], ⟨?_, ⟨rest', rfl⟩, fun op' hop' hfront => ?_⟩, ?_⟩
      · simp [symbolTexts, hdoubled]
      · rcases symbolTexts_cases hop' hfront with rfl | ⟨rfl, -⟩ | ⟨rfl, -⟩ | ⟨rfl, -, -, hc2'⟩
        · simp
        · simp
        · simp
        · exact absurd hc2' hc2
      · simp [hdoubled, List.headD] at hc2 ⊢
        simp [hc2]
  · have hnot : (doubled.contains c && c == rest.headD 0) = false := by
      rw [Bool.eq_false_iff]
      intro hboth
      rw [Bool.and_eq_true, beq_iff_eq, List.contains_iff_mem] at hboth
      exact hdouble ⟨hboth.1, hboth.2.symm⟩
    have hstar : ((c == 0x2a || c == 0x2f) && c == rest.headD 0 && rest.tail.headD 0 == 0x3d) =
        false := by
      rw [Bool.eq_false_iff]
      intro hboth
      rw [Bool.and_eq_true, Bool.and_eq_true, Bool.or_eq_true, beq_iff_eq, beq_iff_eq,
        beq_iff_eq] at hboth
      refine hdouble ⟨?_, hboth.1.2.symm⟩
      rcases hboth.1.1 with rfl | rfl <;> decide
    simp only [hnot, hstar, Bool.false_eq_true, if_false]
    by_cases hassign : c ∈ assigned ∧ rest.headD 0 = 0x3d
    · obtain ⟨hassigned, hc1⟩ := hassign
      obtain ⟨rest', rfl⟩ := take_of_headD (by decide) hc1
      refine ⟨[c, 0x3d], ⟨?_, ⟨rest', rfl⟩, fun op' hop' hfront => ?_⟩, ?_⟩
      · simp [symbolTexts, hassigned]
      · rcases symbolTexts_cases hop' hfront with rfl | ⟨rfl, -⟩ | ⟨rfl, -⟩ | ⟨-, hdoubled, hc1', -⟩
        · simp
        · simp
        · simp
        · exact absurd ⟨hdoubled, hc1'⟩ hdouble
      · simp [hassigned]
    · refine ⟨[c], ⟨?_, ⟨rest, rfl⟩, fun op' hop' hfront => ?_⟩, ?_⟩
      · simp [symbolTexts, hc]
      · rcases symbolTexts_cases hop' hfront with rfl | ⟨-, hmem'⟩ | ⟨-, hmem'⟩ |
          ⟨-, hdoubled, hc1', -⟩
        · simp
        · exact absurd hmem' hdouble
        · exact absurd hmem' hassign
        · exact absurd ⟨hdoubled, hc1'⟩ hdouble
      · rw [if_neg]
        · rfl
        · rw [Bool.and_eq_true, beq_iff_eq, List.contains_iff_mem]
          exact hassign

/-- A word is its letters and a space behind them; the loop takes all of it, or all but the
space. -/
theorem words_shape : ∀ word ∈ words, word.text.getLast? = some 0x20 ∧
    (word.skip + 1 = word.text.length ∨ word.skip + 2 = word.text.length) ∧
    word.text.dropLast ≠ [] ∧ ∀ c ∈ word.text.dropLast, isQuote c = false ∧ (c == 0x23) = false ∧
      deviders.contains c = false ∧ operators.contains c = false ∧ c ≠ 0x20 ∧ c ≠ 0x5c := by
  decide +kernel

theorem words_apart : ∀ a ∈ words, ∀ b ∈ words, a.text <+: b.text →
    a.text = b.text ∧ a.token = b.token ∧ a.skip = b.skip := by
  decide +kernel

theorem word_ext {a b : Word} (h : a.text = b.text ∧ a.token = b.token ∧ a.skip = b.skip) :
    a = b := by
  cases a
  cases b
  simpa using h

/-- A line begins with one word at most. -/
theorem word_unique {a b : Word} {line : CString} (ha : a ∈ words) (hb : b ∈ words)
    (hfronta : a.text <+: line) (hfrontb : b.text <+: line) : a = b := by
  rcases List.prefix_or_prefix_of_prefix hfronta hfrontb with h | h
  · exact word_ext (words_apart a ha b hb h)
  · exact (word_ext (words_apart b hb a ha h)).symm

/-- Behind a letter, and where no word stands, nothing is found. -/
theorem found_other {cn1 c : BitVec 8} {bNumber : Bool} {rest : CString} (hhash : c ≠ 0x23)
    (hdevider : c ∉ deviders) (hoperator : c ∉ operators)
    (hword : isWord cn1 = false → ∀ word ∈ words, ¬word.text <+: c :: rest) :
    found cn1 c bNumber rest = .other := by
  simp only [found, beq_eq_false_iff_ne.mpr hhash, List.contains_eq_mem, hdevider, hoperator,
    decide_false, Bool.false_eq_true, if_false]
  split
  · rfl
  · rename_i hcn1
    rw [List.find?_eq_none.mpr]
    intro word hmem
    rw [List.isPrefixOf_iff_prefix]
    exact hword (Bool.eq_false_iff.mpr hcn1) word hmem

theorem found_word {cn1 c : BitVec 8} {bNumber : Bool} {rest : CString} {word : Word}
    (hmem : word ∈ words) (hcn1 : isWord cn1 = false) (hfront : word.text <+: c :: rest) :
    found cn1 c bNumber rest = .token word.token word.skip := by
  obtain ⟨-, -, hne, hchars⟩ := words_shape word hmem
  have hc : c ∈ word.text.dropLast := by
    obtain ⟨rest', heq⟩ := hfront
    match htext : word.text with
    | [] => exact absurd (by rw [htext]; rfl) hne
    | [a] => exact absurd (by rw [htext]; rfl) hne
    | a :: b :: text =>
      rw [htext] at heq
      rw [(List.cons.inj heq).1]
      exact List.mem_cons_self
  obtain ⟨-, hhash, hdevider, hoperator, -⟩ := hchars c hc
  simp only [found, hhash, hdevider, hoperator, hcn1, Bool.false_eq_true, if_false]
  cases hfind : words.find? fun word => word.text.isPrefixOf (c :: rest) with
  | none =>
    have hnone := List.find?_eq_none.mp hfind word hmem
    rw [List.isPrefixOf_iff_prefix] at hnone
    exact absurd hfront hnone
  | some word' =>
    have hfront' := List.find?_some (p := fun word : Word => word.text.isPrefixOf (c :: rest))
      hfind
    rw [word_unique (List.mem_of_find?_eq_some hfind) hmem (List.isPrefixOf_iff_prefix.mp hfront')
      hfront]

theorem found_exponent {cn1 c : BitVec 8} {bNumber : Bool} {rest : CString} (hc : c ∈ operators)
    (hexponent : (c == 0x2d && bNumber && (cn1 == 0x65 || cn1 == 0x45)) = true) :
    found cn1 c bNumber rest = .exponent := by
  obtain ⟨hhash, hdevider, hmem, -⟩ := operators_kind c hc
  simp only [found, hhash, hdevider, hmem, hexponent, Bool.false_eq_true, if_false, if_true]

theorem found_devider {cn1 c : BitVec 8} {bNumber : Bool} {rest : CString} (hc : c ∈ deviders) :
    found cn1 c bNumber rest = .token ⟨.devider, [c]⟩ 0 := by
  have hhash : ∀ c ∈ deviders, (c == 0x23) = false := by decide
  simp only [found, hhash c hc, List.contains_iff_mem.mpr hc, Bool.false_eq_true, if_false,
    if_true]

/-! ### One token -/

/-- Characters that are taken already are passed over. -/
theorem tokens_taken {s : State} (taken line : CString) (hskip : s.skip = taken.length) :
    ∃ s', tokens s (taken ++ line) = tokens s' line ∧ s'.symbol = s.symbol ∧
      s'.bInString = s.bInString ∧ s'.skip = 0 ∧ s'.cn1 = taken.getLastD s.cn1 := by
  induction taken generalizing s with
  | nil => exact ⟨s, rfl, rfl, rfl, hskip, rfl⟩
  | cons c taken ih =>
    rw [List.length_cons] at hskip
    obtain ⟨s', htokens, hsymbol, hstring, hskip', hcn1⟩ :=
      ih (s := { s with cn2 := s.cn1, cn1 := c, skip := taken.length }) rfl
    refine ⟨s', ?_, hsymbol, hstring, hskip', ?_⟩
    · rw [List.cons_append, tokens_cons, advance, hskip]
      exact htokens
    · rw [hcn1, List.getLastD_cons]

/-- A point outside of strings where the next character is read. -/
structure Outside (s : State) : Prop where
  bInString : s.bInString = none
  skip : s.skip = 0

/-- Whether the pending symbol is a number, if the next character belongs to it. -/
def State.number (s : State) (c : BitVec 8) : Bool :=
  if s.symbol.isNone then isDigit c else s.bNumber

/-- The hyphen of an exponent, which belongs to the number that is pending. -/
def State.inExponent (s : State) (c : BitVec 8) : Bool :=
  c == 0x2d && s.number c && (s.cn1 == 0x65 || s.cn1 == 0x45)

theorem Outside.advance_eq {s : State} (h : Outside s) {c : BitVec 8}
    (hquote : (isQuote c && s.unescaped) = false) (rest : CString) :
    advance s c rest = match found s.cn1 c (s.number c) rest with
      | .comment => none
      | .exponent =>
        some (⟨s.cn1, c, some (s.symbol.getD [] ++ [c]), none, s.number c, 0⟩, [])
      | .token token skip =>
        some (⟨s.cn1, c, none, none, s.number c, skip⟩, setSymbel (s.symbol.getD []) ++ [token])
      | .other =>
        if c = 0x20 then
          some (⟨s.cn1, c, none, none, s.number c, 0⟩, setSymbel (s.symbol.getD []))
        else if rest = [] then
          some (⟨s.cn1, c, none, none, s.number c, 0⟩, setSymbel (s.symbol.getD [] ++ [c]))
        else some (⟨s.cn1, c, some (s.symbol.getD [] ++ [c]), none, s.number c, 0⟩, []) := by
  obtain ⟨cn2, cn1, symbol, bInString, bNumber, skip⟩ := s
  obtain ⟨rfl, rfl⟩ := h
  rw [State.unescaped] at hquote
  cases hfound : found cn1 c (if symbol.isNone then isDigit c else bNumber) rest <;>
    simp only [advance, step, hquote, hfound, State.number, Bool.false_eq_true, if_false,
      beq_iff_eq, List.isEmpty_iff]

theorem Outside.tokens_found {s : State} (h : Outside s) {c : BitVec 8}
    (hquote : isQuote c = false) {rest : CString} {token : LexToken} {skip : Nat}
    (hfound : found s.cn1 c (s.number c) rest = .token token skip) :
    tokens s (c :: rest) = setSymbel (s.symbol.getD []) ++
      token :: tokens ⟨s.cn1, c, none, none, s.number c, skip⟩ rest := by
  rw [tokens_cons, h.advance_eq (by rw [hquote, Bool.false_and]), hfound]
  simp only [List.append_assoc, List.singleton_append]

theorem words_front {word : Word} (hmem : word ∈ words) {c : BitVec 8} {rest : CString}
    (hfront : word.text <+: c :: rest) : c ≠ 0x20 ∧ isQuote c = false := by
  have hheads : ∀ word ∈ words, word.text ≠ [] ∧ word.text.headD 0 ≠ 0x20 ∧
      isQuote (word.text.headD 0) = false := by
    decide
  obtain ⟨hne, hspace, hquote⟩ := hheads word hmem
  obtain ⟨rest', heq⟩ := hfront
  match htext : word.text with
  | [] => exact absurd htext hne
  | a :: text =>
    rw [htext] at heq hspace hquote
    rw [← (List.cons.inj heq).1]
    exact ⟨hspace, hquote⟩

/-- **A space ends the pending symbol.** -/
theorem Outside.tokens_space {s : State} (h : Outside s) (rest : CString) :
    tokens s (0x20 :: rest) = setSymbel (s.symbol.getD []) ++ getTokens rest := by
  have hfound : found s.cn1 0x20 (s.number 0x20) rest = .other :=
    found_other (by decide) (by decide) (by decide)
      fun _ word hmem hfront => (words_front hmem hfront).1 rfl
  rw [tokens_cons, h.advance_eq rfl, hfound]
  dsimp only
  rw [if_pos rfl]
  have hne : (0x20#8 : BitVec 8) ≠ 0x5c := by decide
  exact congrArg (_ ++ ·) (Fresh.tokens_eq ⟨rfl, hne, rfl, rfl, rfl⟩ rest)

/-- **A devider ends it, too.** -/
theorem Outside.tokens_devider {s : State} (h : Outside s) {c : BitVec 8} (hc : c ∈ deviders)
    (rest : CString) :
    tokens s (c :: rest) = setSymbel (s.symbol.getD []) ++ ⟨.devider, [c]⟩ :: getTokens rest := by
  have hkind : ∀ c ∈ deviders, isQuote c = false ∧ isWord c = false ∧ c ≠ 0x5c := by decide
  obtain ⟨hquote, hword, hbackslash⟩ := hkind c hc
  rw [h.tokens_found hquote (found_devider hc),
    Fresh.tokens_eq ⟨hword, hbackslash, rfl, rfl, rfl⟩ rest]

/-- **And so does an operator, unless its hyphen belongs to an exponent.** -/
theorem Outside.tokens_operator {s : State} (h : Outside s) {op line : CString}
    (hop : Longest op (op ++ line)) (hexponent : ∀ c ∈ op.head?, s.inExponent c = false) :
    tokens s (op ++ line) =
      setSymbel (s.symbol.getD []) ++ ⟨.operator, op⟩ :: getTokens line := by
  match op, hop with
  | [], hop => exact absurd rfl (symbolTexts_chars hop.mem).1
  | c :: op, hop =>
    have hc : c ∈ operators := (symbolTexts_chars hop.mem).2 c List.mem_cons_self
    obtain ⟨-, -, -, -, -, hquote, -⟩ := operators_kind c hc
    obtain ⟨op', hlongest, hfound⟩ := found_operator hc (hexponent c rfl) (op ++ line)
    have heq : op' = c :: op := by
      have hle := hlongest.le (c :: op) hop.mem hop.front
      have hge := hop.le op' hlongest.mem hlongest.front
      exact List.IsPrefix.eq_of_length
        (List.prefix_of_prefix_length_le hlongest.front hop.front hge) (by omega)
    rw [heq] at hfound
    rw [List.cons_append, h.tokens_found hquote hfound]
    obtain ⟨s', htokens, hsymbol, hstring, hskip, hcn1⟩ :=
      tokens_taken (s := ⟨s.cn1, c, none, none, s.number c, (c :: op).length - 1⟩) op line rfl
    have hlast : s'.cn1 ∈ c :: op := by
      rw [hcn1]
      exact List.getLastD_mem_cons
    obtain ⟨-, -, -, hword, hbackslash, -⟩ :=
      operators_kind s'.cn1 ((symbolTexts_chars hop.mem).2 s'.cn1 hlast)
    rw [htokens, Fresh.tokens_eq ⟨hword, hbackslash, hsymbol, hstring, hskip⟩]

/-- **And a word, where no name goes on.** -/
theorem Outside.tokens_word {s : State} (h : Outside s) (hcn1 : isWord s.cn1 = false)
    {word : Word} (hmem : word ∈ words) (line : CString) :
    tokens s (word.text ++ line) =
      setSymbel (s.symbol.getD []) ++ word.token :: getTokens line := by
  obtain ⟨hlast, hskip, hne, -⟩ := words_shape word hmem
  obtain ⟨front, htext⟩ := List.getLast?_eq_some_iff.mp hlast
  match front, htext with
  | [], htext => exact absurd (by rw [htext]; rfl) hne
  | c :: front, htext =>
    have hfront : word.text <+: c :: (front ++ 0x20 :: line) := ⟨line, by simp [htext]⟩
    have hfound : found s.cn1 c (s.number c) (front ++ 0x20 :: line) = _ :=
      found_word hmem hcn1 hfront
    have htokens := h.tokens_found (words_front hmem hfront).2 hfound
    have hline : word.text ++ line = c :: (front ++ 0x20 :: line) := by simp [htext]
    rw [hline, htokens]
    refine congrArg (fun rest => setSymbel (s.symbol.getD []) ++ word.token :: rest) ?_
    rw [htext, List.length_append, List.length_cons] at hskip
    rcases hskip with hskip | hskip
    · obtain ⟨s', htokens, hsymbol, hstring, hskip, hcn1⟩ :=
        tokens_taken (s := ⟨s.cn1, c, none, none, s.number c, word.skip⟩) (front ++ [0x20]) line
          (by simpa using hskip)
      rw [List.getLastD_concat] at hcn1
      have hword : isWord s'.cn1 = false := by rw [hcn1]; rfl
      have hbackslash : s'.cn1 ≠ 0x5c := by rw [hcn1]; decide
      rw [List.append_cons, htokens,
        Fresh.tokens_eq ⟨hword, hbackslash, hsymbol, hstring, hskip⟩]
    · obtain ⟨s', htokens, hsymbol, hstring, hskip, -⟩ :=
        tokens_taken (s := ⟨s.cn1, c, none, none, s.number c, word.skip⟩) front (0x20 :: line)
          (by simpa using hskip)
      rw [htokens, Outside.tokens_space ⟨hstring, hskip⟩, hsymbol]
      rfl

/-! ### Where a text ends -/

/-- Something else than the pending symbol begins. -/
inductive Breaks (s : State) : CString → Prop where
  | space (rest : CString) : Breaks s (0x20 :: rest)
  | devider {c : BitVec 8} (hc : c ∈ deviders) (rest : CString) : Breaks s (c :: rest)
  | operator {c : BitVec 8} (hc : c ∈ operators) (hexponent : s.inExponent c = false)
      (rest : CString) : Breaks s (c :: rest)
  | word {word : Word} {line : CString} (hmem : word ∈ words) (hcn1 : isWord s.cn1 = false)
      (hfront : word.text <+: line) : Breaks s line

theorem start_outside : Outside start := ⟨rfl, rfl⟩

theorem start_inExponent (c : BitVec 8) : start.inExponent c = false := by
  rw [State.inExponent]
  exact Bool.and_eq_false_iff.mpr (.inr rfl)

/-- The operator that a line begins with. -/
theorem exists_longest {c : BitVec 8} (hc : c ∈ operators) (rest : CString) :
    ∃ op line, c :: rest = op ++ line ∧ Longest op (op ++ line) ∧ op.head? = some c := by
  obtain ⟨op, hlongest, -⟩ := @found_operator 0 c false hc (by simp) rest
  obtain ⟨line, hline⟩ := hlongest.front
  refine ⟨op, line, hline.symm, hline ▸ hlongest, ?_⟩
  match op, hlongest with
  | [], hlongest => exact absurd rfl (symbolTexts_chars hlongest.mem).1
  | a :: op, _ => exact congrArg some (List.cons.inj hline).1

/-- **What begins ends the pending symbol, and is read as if nothing had been in front of it.** -/
theorem Outside.tokens_breaks {s : State} (h : Outside s) {line : CString} (hb : Breaks s line) :
    tokens s line = setSymbel (s.symbol.getD []) ++ getTokens line := by
  cases hb with
  | space rest =>
    have hstart : getTokens (0x20 :: rest) = _ := start_outside.tokens_space rest
    rw [h.tokens_space, hstart]
    rfl
  | devider hc rest =>
    have hstart : getTokens (_ :: rest) = _ := start_outside.tokens_devider hc rest
    rw [h.tokens_devider hc, hstart]
    rfl
  | operator hc hexponent rest =>
    obtain ⟨op, line, hline, hlongest, hhead⟩ := exists_longest hc rest
    have hstart : getTokens (op ++ line) = _ :=
      start_outside.tokens_operator hlongest fun c _ => start_inExponent c
    rw [hline, hstart, h.tokens_operator hlongest fun c' hc' => ?_]
    · rfl
    · rw [hhead] at hc'
      cases hc'
      exact hexponent
  | word hmem hcn1 hfront =>
    obtain ⟨line, rfl⟩ := hfront
    have hstart : getTokens (_ ++ line) = _ := start_outside.tokens_word rfl hmem line
    rw [h.tokens_word hcn1 hmem, hstart]
    rfl

/-! ### Texts -/

/-- The loop behind a character of a text. -/
def push (s : State) (c : BitVec 8) : State :=
  ⟨s.cn1, c, some (s.symbol.getD [] ++ [c]),
    if s.bInString.isSome then s.bInString else if isQuote c && s.unescaped then some c else none,
    s.number c, s.skip⟩

/-- A character that goes on with a text, unless it begins a word or is the last one. -/
def holds (s : State) (c : BitVec 8) : Bool :=
  match s.bInString with
  | some quote => !(c == quote && s.unescaped)
  | none => isQuote c && s.unescaped || s.inExponent c ||
      !(c == 0x20 || c == 0x23 || deviders.contains c || operators.contains c)

/-- A text that goes on in each of its characters. -/
def Pending (s : State) : CString → Prop
  | [] => True
  | c :: text => holds s c = true ∧ Pending (push s c) text

/-- No word begins within a text, whatever is behind it. -/
def Wordless (s : State) : CString → CString → Prop
  | [], _ => True
  | c :: text, line =>
    (s.bInString = none → isWord s.cn1 = false →
      ∀ word ∈ words, ¬word.text <+: c :: (text ++ line)) ∧ Wordless (push s c) text line

theorem Outside.push_eq {s : State} (h : Outside s) {c : BitVec 8}
    (hquote : (isQuote c && s.unescaped) = false) :
    push s c = ⟨s.cn1, c, some (s.symbol.getD [] ++ [c]), none, s.number c, 0⟩ := by
  rw [push, h.bInString, h.skip, hquote]
  rfl

/-- What a round can do: a string closes, something else begins, a comment begins, the text goes
on, or it goes on and the statement ends. -/
inductive Round (s : State) (c : BitVec 8) (rest : CString) : Prop where
  | closes (hstring : s.bInString = some c) (hunescaped : s.unescaped = true)
      (hround : advance s c rest =
        some (⟨s.cn1, c, none, none, s.number c, 0⟩, setSymbel (s.symbol.getD [] ++ [c])))
  | breaks (hstring : s.bInString = none) (hbreaks : Breaks s (c :: rest))
  | comment (hstring : s.bInString = none) (hc : c = 0x23) (hround : advance s c rest = none)
  | goes (hholds : holds s c = true)
      (hlast : rest = [] → (push s c).bInString = none → s.inExponent c = true)
      (hround : advance s c rest = some (push s c, []))
  | ends (hholds : holds s c = true) (hstring : (push s c).bInString = none) (hrest : rest = [])
      (hexponent : s.inExponent c = false) (hround : advance s c rest =
        some (⟨s.cn1, c, none, none, s.number c, 0⟩, setSymbel (s.symbol.getD [] ++ [c])))

theorem round {s : State} (hskip : s.skip = 0) (c : BitVec 8) (rest : CString) :
    Round s c rest := by
  obtain ⟨cn2, cn1, symbol, bInString, bNumber, skip⟩ := s
  obtain rfl : skip = 0 := hskip
  cases bInString with
  | some quote =>
    by_cases hcloses : (c == quote && (cn1 != 0x5c || cn2 == 0x5c)) = true
    · have hc : c = quote := eq_of_beq (Bool.and_eq_true_iff.mp hcloses).1
      subst hc
      refine .closes rfl (Bool.and_eq_true_iff.mp hcloses).2 ?_
      simp only [advance, step, hcloses, if_true]
      rfl
    · have hnot := Bool.eq_false_iff.mpr hcloses
      refine .goes ?_ (fun _ hnone => by cases hnone) ?_
      · simp only [holds, State.unescaped, hnot]
        rfl
      · simp only [advance, step, hnot]
        rfl
  | none =>
    by_cases hopens : (isQuote c && (cn1 != 0x5c || cn2 == 0x5c)) = true
    · refine .goes ?_ (fun _ hnone => ?_) ?_
      · simp only [holds, State.unescaped, hopens, Bool.true_or]
      · simp only [push, State.unescaped, hopens] at hnone
        cases hnone
      · simp only [advance, step, hopens, if_true, push, State.unescaped]
        rfl
    have hnot := Bool.eq_false_iff.mpr hopens
    generalize hs : (⟨cn2, cn1, symbol, none, bNumber, 0⟩ : State) = s at hnot ⊢
    have hout : Outside s := by
      subst hs
      exact ⟨rfl, rfl⟩
    have hquote : (isQuote c && s.unescaped) = false := by
      subst hs
      exact hnot
    by_cases hhash : c = 0x23
    · refine .comment hout.bInString hhash ?_
      rw [hout.advance_eq hquote, found_eq_comment.mpr hhash]
    by_cases hdevider : c ∈ deviders
    · exact .breaks hout.bInString (.devider hdevider rest)
    by_cases hoperator : c ∈ operators
    · cases hexponent : s.inExponent c with
      | false => exact .breaks hout.bInString (.operator hoperator hexponent rest)
      | true =>
        have hholds : holds s c = true := by
          simp only [holds, hout.bInString, hexponent, Bool.or_true, Bool.true_or]
        refine .goes hholds (fun _ _ => hexponent) ?_
        rw [hout.advance_eq hquote, found_exponent hoperator hexponent, hout.push_eq hquote]
    by_cases hspace : c = 0x20
    · subst hspace
      exact .breaks hout.bInString (.space rest)
    by_cases hword : isWord s.cn1 = false ∧ ∃ word ∈ words, word.text <+: c :: rest
    · obtain ⟨hcn1, word, hmem, hfront⟩ := hword
      exact .breaks hout.bInString (.word hmem hcn1 hfront)
    have hfound : found s.cn1 c (s.number c) rest = .other :=
      found_other hhash hdevider hoperator fun hcn1 word hmem hfront =>
        hword ⟨hcn1, word, hmem, hfront⟩
    have hholds : holds s c = true := by
      simp only [holds, hout.bInString, beq_eq_false_iff_ne.mpr hspace,
        beq_eq_false_iff_ne.mpr hhash, List.contains_eq_mem, hdevider, hoperator, decide_false,
        Bool.or_false, Bool.not_false, Bool.or_true]
    have hround := hout.advance_eq hquote rest
    rw [hfound] at hround
    dsimp only at hround
    rw [if_neg hspace] at hround
    by_cases hrest : rest = []
    · rw [if_pos hrest] at hround
      refine .ends hholds ?_ hrest ?_ hround
      · rw [hout.push_eq hquote]
      · rw [State.inExponent, Bool.and_assoc]
        refine Bool.and_eq_false_iff.mpr (.inl (beq_eq_false_iff_ne.mpr ?_))
        rintro rfl
        exact hoperator (by decide)
    · rw [if_neg hrest] at hround
      refine .goes hholds (fun hnil => absurd hnil hrest) ?_
      rw [hround, hout.push_eq hquote]

/-- The loop behind a text that it has read from a point between two tokens on. -/
def reading (text : CString) : State := text.foldl push start

theorem reading_concat (text : CString) (c : BitVec 8) :
    reading (text ++ [c]) = push (reading text) c := by
  rw [reading, List.foldl_concat, ← reading]

theorem reading_skip (text : CString) : (reading text).skip = 0 := by
  induction text using List.reverseRecOn with
  | nil => rfl
  | append_singleton text c ih => rw [reading_concat, push, ih]

theorem reading_symbol (text : CString) : (reading text).symbol.getD [] = text := by
  induction text using List.reverseRecOn with
  | nil => rfl
  | append_singleton text c ih => rw [reading_concat, push, Option.getD_some, ih]

theorem reading_quote (text : CString) :
    ∀ quote ∈ (reading text).bInString, isQuote quote = true := by
  induction text using List.reverseRecOn with
  | nil => exact nofun
  | append_singleton text c ih =>
    rw [reading_concat, push]
    intro quote hquote
    dsimp only at hquote
    split at hquote
    · exact ih quote hquote
    split at hquote
    · rename_i hopens
      cases hquote
      exact (Bool.and_eq_true_iff.mp hopens).1
    · cases hquote

theorem pending_append {s : State} {text line : CString} :
    Pending s (text ++ line) ↔ Pending s text ∧ Pending (text.foldl push s) line := by
  induction text generalizing s with
  | nil => exact (and_iff_right trivial).symm
  | cons c text ih =>
    rw [List.cons_append, Pending, Pending, ih, and_assoc]
    rfl

theorem pending_concat {text : CString} {c : BitVec 8} :
    Pending start (text ++ [c]) ↔ Pending start text ∧ holds (reading text) c = true := by
  rw [pending_append, Pending, Pending, and_true]
  rfl

/-- The text of a name, a number or a string. -/
inductive IsText : CString → Prop where
  | opened {text : CString} (hne : text ≠ []) (hpending : Pending start text)
      (hstring : (reading text).bInString = none) : IsText text
  | closed {text : CString} {quote : BitVec 8} (hpending : Pending start text)
      (hstring : (reading text).bInString = some quote)
      (hunescaped : (reading text).unescaped = true) : IsText (text ++ [quote])

theorem setSymbel_of_ne {text : CString} (hne : text ≠ []) :
    setSymbel text = [⟨symbolType text, text⟩] := if_neg hne

/-- A quote is not a letter. -/
theorem quote_kind {c : BitVec 8} (h : isQuote c = true) :
    isWord c = false ∧ c ≠ 0x5c ∧ c ≠ 0x20 ∧ c ≠ 0x23 ∧ c ∉ deviders ∧ c ∉ operators := by
  rw [isQuote, Bool.or_eq_true, beq_iff_eq, beq_iff_eq] at h
  rcases h with rfl | rfl <;> decide

/-- **The first token behind a point within a text is a text that goes on from there.** -/
theorem tokens_reading {text : CString} (hne : text ≠ []) (hpending : Pending start text)
    (line : CString) : tokens (reading text) line = [] ∨
      ∃ word line', IsText word ∧ text <+: word ∧ text ++ line = word ++ line' ∧
        tokens (reading text) line = ⟨symbolType word, word⟩ :: getTokens line' := by
  induction line generalizing text with
  | nil => exact .inl rfl
  | cons c rest ih =>
    have hne' : text ++ [c] ≠ [] := by simp
    have hsymbol := reading_symbol text
    have hback : text ++ c :: rest = (text ++ [c]) ++ rest := List.append_cons text c rest
    cases round (reading_skip text) c rest with
    | closes hstring hunescaped hround =>
      obtain ⟨hword, hbackslash, -⟩ := quote_kind (reading_quote text c hstring)
      refine .inr ⟨text ++ [c], rest, .closed hpending hstring hunescaped,
        List.prefix_append _ _, hback, ?_⟩
      rw [tokens_cons, hround, hsymbol, setSymbel_of_ne hne']
      exact congrArg (_ :: ·) (Fresh.tokens_eq ⟨hword, hbackslash, rfl, rfl, rfl⟩ rest)
    | breaks hstring hbreaks =>
      refine .inr ⟨text, c :: rest, .opened hne hpending hstring, List.prefix_refl _, rfl, ?_⟩
      rw [Outside.tokens_breaks ⟨hstring, reading_skip text⟩ hbreaks, hsymbol,
        setSymbel_of_ne hne]
      rfl
    | comment hstring hc hround =>
      left
      rw [tokens_cons, hround]
    | goes hholds _ hround =>
      rw [tokens_cons, hround, ← reading_concat]
      rcases ih hne' (pending_concat.mpr ⟨hpending, hholds⟩) with
        hnone | ⟨word, line', hword, hfront, hline, htokens⟩
      · exact .inl hnone
      · exact .inr ⟨word, line', hword, (List.prefix_append _ _).trans hfront, hback.trans hline,
          htokens⟩
    | ends hholds hstring hrest hexponent hround =>
      subst hrest
      rw [← reading_concat] at hstring
      refine .inr ⟨text ++ [c], [], .opened hne' (pending_concat.mpr ⟨hpending, hholds⟩) hstring,
        List.prefix_append _ _, by simp, ?_⟩
      rw [tokens_cons, hround, hsymbol, setSymbel_of_ne hne']
      rfl

/-- A token, and the text that it is read from. -/
inductive Reads : LexToken → CString → Prop where
  | devider {c : BitVec 8} (hc : c ∈ deviders) : Reads ⟨.devider, [c]⟩ [c]
  | operator {op : CString} (hop : op ∈ symbolTexts) : Reads ⟨.operator, op⟩ op
  | word {word : Word} (hmem : word ∈ words) : Reads word.token word.text
  | text {text : CString} (htext : IsText text) : Reads ⟨symbolType text, text⟩ text

/-- **The lexer reads one token after the other.** -/
theorem getTokens_cases (c : BitVec 8) (rest : CString) :
    getTokens (c :: rest) = [] ∨ (c = 0x20 ∧ getTokens (c :: rest) = getTokens rest) ∨
      ∃ token text line, Reads token text ∧ c :: rest = text ++ line ∧
        getTokens (c :: rest) = token :: getTokens line := by
  have hstart : getTokens (c :: rest) = tokens start (c :: rest) := rfl
  cases round (s := start) rfl c rest with
  | closes hstring => cases hstring
  | breaks hstring hbreaks =>
    cases hbreaks with
    | space => exact .inr (.inl ⟨rfl, start_outside.tokens_space rest⟩)
    | devider hc =>
      exact .inr (.inr ⟨_, [c], rest, .devider hc, rfl, start_outside.tokens_devider hc rest⟩)
    | operator hc =>
      obtain ⟨op, line, hline, hlongest, -⟩ := exists_longest hc rest
      refine .inr (.inr ⟨_, op, line, .operator hlongest.mem, hline, ?_⟩)
      rw [hline]
      exact start_outside.tokens_operator hlongest fun c _ => start_inExponent c
    | word hmem hcn1 hfront =>
      obtain ⟨line, hline⟩ := hfront
      refine .inr (.inr ⟨_, _, line, .word hmem, hline.symm, ?_⟩)
      rw [← hline]
      exact start_outside.tokens_word rfl hmem line
  | comment hstring hc hround =>
    left
    rw [hstart, tokens_cons, hround]
  | goes hholds _ hround =>
    have hone : push start c = reading [c] := rfl
    rw [hstart, tokens_cons, hround, hone]
    rcases tokens_reading (List.cons_ne_nil c []) ⟨hholds, trivial⟩ rest with
      hnone | ⟨word, line, hword, -, hline, htokens⟩
    · exact .inl hnone
    · exact .inr (.inr ⟨_, word, line, .text hword, hline, htokens⟩)
  | ends hholds hstring hrest hexponent hround =>
    subst hrest
    refine .inr (.inr ⟨_, [c], [], .text (.opened (List.cons_ne_nil c []) ⟨hholds, trivial⟩
      hstring), rfl, ?_⟩)
    rw [hstart, tokens_cons, hround]
    rfl

/-! ### A text in front of other lines -/

/-- What outside of strings does not go on with a text. -/
theorem not_holds {s : State} (hstring : s.bInString = none) {c : BitVec 8}
    (hquote : isQuote c = false) (hexponent : s.inExponent c = false)
    (hc : c = 0x20 ∨ c = 0x23 ∨ c ∈ deviders ∨ c ∈ operators) : holds s c = false := by
  have hmark : (c == 0x20 || c == 0x23 || deviders.contains c || operators.contains c) = true := by
    simp only [Bool.or_eq_true, beq_iff_eq, List.contains_iff_mem]
    tauto
  simp only [holds, hstring, hquote, hexponent, hmark]
  rfl

theorem inExponent_of_ne {s : State} {c : BitVec 8} (hc : c ≠ 0x2d) : s.inExponent c = false := by
  rw [State.inExponent, Bool.and_assoc]
  exact Bool.and_eq_false_iff.mpr (.inl (beq_eq_false_iff_ne.mpr hc))

theorem Breaks.not_holds {s : State} (hstring : s.bInString = none) {c : BitVec 8}
    {rest : CString} (hb : Breaks s (c :: rest)) : holds s c = false ∨
      (isWord s.cn1 = false ∧ ∃ word ∈ words, word.text <+: c :: rest) := by
  cases hb with
  | space => exact .inl (Lexer.not_holds hstring rfl (inExponent_of_ne (by decide)) (.inl rfl))
  | devider hc =>
    have hkind : ∀ c ∈ deviders, isQuote c = false ∧ c ≠ 0x2d := by decide
    obtain ⟨hquote, hne⟩ := hkind c hc
    exact .inl (Lexer.not_holds hstring hquote (inExponent_of_ne hne) (.inr (.inr (.inl hc))))
  | operator hc hexponent =>
    obtain ⟨-, -, -, -, -, hquote, -⟩ := operators_kind c hc
    exact .inl (Lexer.not_holds hstring hquote hexponent (.inr (.inr (.inr hc))))
  | word hmem hcn1 hfront => exact .inr ⟨hcn1, _, hmem, hfront⟩

/-- Nothing else begins where a text goes on and no word does. -/
theorem Breaks.not_within {s : State} (hstring : s.bInString = none) {c : BitVec 8}
    {rest : CString} (hb : Breaks s (c :: rest)) (hholds : holds s c = true)
    (hword : isWord s.cn1 = false → ∀ word ∈ words, ¬word.text <+: c :: rest) : False := by
  rcases hb.not_holds hstring with hnot | ⟨hcn1, word, hmem, hfront⟩
  · rw [hholds] at hnot
    cases hnot
  · exact hword hcn1 word hmem hfront

/-- **Within a text the loop goes on, whatever is behind it.** -/
theorem tokens_text {s : State} (hskip : s.skip = 0) {text line : CString}
    (hpending : Pending s text) (hwordless : Wordless s text line) (hline : line ≠ []) :
    tokens s (text ++ line) = tokens (text.foldl push s) line := by
  induction text generalizing s with
  | nil => rfl
  | cons c text ih =>
    obtain ⟨hholds, hpending⟩ := hpending
    obtain ⟨hword, hwordless⟩ := hwordless
    rw [List.cons_append, tokens_cons]
    have hgoes : advance s c (text ++ line) = some (push s c, []) := by
      cases round hskip c (text ++ line) with
      | closes hstring hunescaped =>
        simp [holds, hstring, hunescaped] at hholds
      | breaks hstring hbreaks => exact (hbreaks.not_within hstring hholds (hword hstring)).elim
      | comment hstring hc =>
        subst hc
        rw [not_holds hstring rfl (inExponent_of_ne (by decide)) (.inr (.inl rfl))] at hholds
        cases hholds
      | goes _ _ hround => exact hround
      | ends _ _ hrest =>
        exact absurd (List.append_eq_nil_iff.mp hrest).2 hline
    rw [hgoes]
    exact ih hskip hpending hwordless

/-- What is left of a word of which a text has the front. -/
structure WordTail (tail : CString) : Prop where
  ne : tail ≠ []
  word : ∃ word ∈ words, ∃ front, front ≠ [] ∧ word.text = front ++ tail

/-- A word that begins in a text goes on behind it. -/
theorem word_through {s : State} (hstring : s.bInString = none) {text line front : CString}
    (hpending : Pending s text)
    (hfront : ∀ c ∈ front, isQuote c = false ∧ c ≠ 0x5c)
    (hword : front ++ [0x20] <+: text ++ line) :
    (text.foldl push s).bInString = none ∧
      ∃ tail, tail ≠ [] ∧ tail <+: line ∧ front ++ [0x20] = text ++ tail := by
  induction text generalizing s front with
  | nil => exact ⟨hstring, front ++ [0x20], by simp, hword, rfl⟩
  | cons c text ih =>
    obtain ⟨hholds, hpending⟩ := hpending
    match front, hfront with
    | [], _ =>
      obtain ⟨rest, heq⟩ := hword
      obtain rfl := (List.cons.inj heq).1
      rw [not_holds hstring rfl (inExponent_of_ne (by decide)) (.inl rfl)] at hholds
      cases hholds
    | a :: front, hfront =>
      obtain ⟨rest, hrest⟩ := hword
      obtain ⟨rfl, heq⟩ := List.cons.inj hrest
      have hquote := (hfront a List.mem_cons_self).1
      have hnone : (push s a).bInString = none := by
        simp [push, hstring, hquote]
      obtain ⟨hend, tail, hne, htail, hsplit⟩ := ih hnone hpending
        (fun c hc => hfront c (List.mem_cons_of_mem a hc)) ⟨rest, heq⟩
      exact ⟨hend, tail, hne, htail, by rw [List.cons_append, hsplit, List.cons_append]⟩

/-- The letters of a word, in front of its space. -/
theorem word_letters {word : Word} (hmem : word ∈ words) : ∃ front, word.text = front ++ [0x20] ∧
    ∀ c ∈ front, isQuote c = false ∧ c ≠ 0x20 ∧ c ≠ 0x5c := by
  obtain ⟨hlast, -, -, hchars⟩ := words_shape word hmem
  obtain ⟨front, htext⟩ := List.getLast?_eq_some_iff.mp hlast
  refine ⟨front, htext, fun c hc => ?_⟩
  have hc' : c ∈ word.text.dropLast := by rwa [htext, List.dropLast_concat]
  exact ⟨(hchars c hc').1, (hchars c hc').2.2.2.2⟩

/-- **Whether a word begins in a text depends on the line behind it only as far as that goes on
with a word.** -/
theorem Wordless.mono {s : State} {text line line' : CString} (hpending : Pending s text)
    (h : Wordless s text line)
    (htails : (text.foldl push s).bInString = none →
      ∀ tail, WordTail tail → tail <+: line' → tail <+: line) : Wordless s text line' := by
  induction text generalizing s with
  | nil => trivial
  | cons c text ih =>
    refine ⟨fun hstring hcn1 word hmem hfront => ?_, ih hpending.2 h.2 htails⟩
    obtain ⟨front, htext, hletters⟩ := word_letters hmem
    have hthrough : front ++ [0x20] <+: (c :: text) ++ line' := by rwa [← htext]
    obtain ⟨hend, tail, hne, htail, hsplit⟩ := word_through hstring hpending
      (fun c hc => ⟨(hletters c hc).1, (hletters c hc).2.2⟩) hthrough
    have hword : word.text = (c :: text) ++ tail := htext.trans hsplit
    have htail' := htails hend tail ⟨hne, word, hmem, c :: text, List.cons_ne_nil c text, hword⟩
      htail
    refine h.1 hstring hcn1 word hmem ?_
    rw [hword]
    exact (List.prefix_append_right_inj (c :: text)).mpr htail'

theorem wordless_nil {s : State} {text : CString} (hpending : Pending s text) :
    Wordless s text [] := by
  induction text generalizing s with
  | nil => trivial
  | cons c text ih =>
    refine ⟨fun hstring hcn1 word hmem hfront => ?_, ih hpending.2⟩
    obtain ⟨front, htext, hletters⟩ := word_letters hmem
    have hthrough : front ++ [0x20] <+: (c :: text) ++ [] := by rwa [← htext]
    obtain ⟨-, tail, hne, htail, -⟩ := word_through hstring hpending
      (fun c hc => ⟨(hletters c hc).1, (hletters c hc).2.2⟩) hthrough
    exact hne (List.prefix_nil.mp htail)

/-- No word begins in a text that ends in a string, or behind which no word goes on. -/
theorem wordless_of {s : State} {text line : CString} (hpending : Pending s text)
    (htails : (text.foldl push s).bInString = none → ∀ tail, WordTail tail → ¬tail <+: line) :
    Wordless s text line :=
  (wordless_nil hpending).mono hpending
    fun hend tail htail hfront => absurd hfront (htails hend tail htail)

theorem words_drop : ∀ word ∈ words, ∀ k < word.text.length, 0 < k →
    word.text.drop k = [0x20] ∨
      (word.text.drop k).headD 0 ≠ 0x20 ∧ isWord ((word.text.drop k).headD 0) = true := by
  decide +kernel

/-- A word goes on with letters and ends with its space. -/
theorem WordTail.cases {tail : CString} (h : WordTail tail) {c : BitVec 8} {line : CString}
    (hfront : tail <+: c :: line) : tail = [0x20] ∧ c = 0x20 ∨ c ≠ 0x20 ∧ isWord c = true := by
  obtain ⟨hne, word, hmem, front, hfrontne, htext⟩ := h
  obtain ⟨rest, hrest⟩ := hfront
  have hdrop := words_drop word hmem front.length
    (by rw [htext, List.length_append]; exact Nat.lt_add_of_pos_right (List.length_pos_iff.mpr hne))
    (List.length_pos_iff.mpr hfrontne)
  rw [htext, List.drop_left] at hdrop
  match tail, hne with
  | a :: tail, _ =>
    obtain ⟨rfl, -⟩ := List.cons.inj hrest
    rcases hdrop with hdrop | hdrop
    · exact .inl ⟨hdrop, (List.cons.inj hdrop).1⟩
    · exact .inr hdrop

/-- No word begins in a text in front of a devider, an operator or another mark. -/
theorem wordless_of_head {s : State} {text : CString} (hpending : Pending s text) {c : BitVec 8}
    (hspace : c ≠ 0x20) (hword : isWord c = false) (line : CString) :
    Wordless s text (c :: line) := by
  refine wordless_of hpending fun _ tail htail hfront => ?_
  rcases htail.cases hfront with ⟨-, hc⟩ | ⟨-, hc⟩
  · exact hspace hc
  · rw [hword] at hc
    cases hc

theorem wordless_append {s : State} {text text' line : CString} :
    Wordless s (text ++ text') line ↔
      Wordless s text (text' ++ line) ∧ Wordless (text.foldl push s) text' line := by
  induction text generalizing s with
  | nil => exact (and_iff_right trivial).symm
  | cons c text ih =>
    rw [List.cons_append, Wordless, Wordless, ih, List.append_assoc, and_assoc]
    rfl

/-- **A string is one token, whatever is behind it.** -/
theorem getTokens_closed {text : CString} {quote : BitVec 8} (hpending : Pending start text)
    (hstring : (reading text).bInString = some quote)
    (hunescaped : (reading text).unescaped = true) (line : CString) :
    getTokens (text ++ quote :: line) =
      ⟨symbolType (text ++ [quote]), text ++ [quote]⟩ :: getTokens line := by
  have hwordless : Wordless start text (quote :: line) :=
    wordless_of hpending fun hend => by
      rw [← reading, hstring] at hend
      cases hend
  have htokens : getTokens (text ++ quote :: line) = tokens (reading text) (quote :: line) :=
    tokens_text rfl hpending hwordless (List.cons_ne_nil quote line)
  obtain ⟨hword, hbackslash, -⟩ := quote_kind (reading_quote text quote hstring)
  have hcloses : advance (reading text) quote line = some (⟨(reading text).cn1, quote, none, none,
      (reading text).number quote, 0⟩, setSymbel ((reading text).symbol.getD [] ++ [quote])) := by
    cases round (reading_skip text) quote line with
    | closes _ _ hround => exact hround
    | breaks hnone => rw [hstring] at hnone; cases hnone
    | comment hnone => rw [hstring] at hnone; cases hnone
    | goes hholds => simp [holds, hstring, hunescaped] at hholds
    | ends hholds => simp [holds, hstring, hunescaped] at hholds
  rw [htokens, tokens_cons, hcloses, reading_symbol, setSymbel_of_ne (by simp)]
  exact congrArg (_ :: ·) (Fresh.tokens_eq ⟨hword, hbackslash, rfl, rfl, rfl⟩ line)

/-- **A name or a number is one token where something else begins behind it.** -/
theorem getTokens_opened {text line : CString} (hne : text ≠ []) (hpending : Pending start text)
    (hstring : (reading text).bInString = none) (hwordless : Wordless start text line)
    (hline : line ≠ []) (hbreaks : Breaks (reading text) line) :
    getTokens (text ++ line) = ⟨symbolType text, text⟩ :: getTokens line := by
  have htokens : getTokens (text ++ line) = tokens (reading text) line :=
    tokens_text rfl hpending hwordless hline
  rw [htokens, Outside.tokens_breaks ⟨hstring, reading_skip text⟩ hbreaks, reading_symbol,
    setSymbel_of_ne hne]
  rfl

/-- **At the end of the statement it is one, too, unless it ends in the hyphen of an exponent.** -/
theorem getTokens_end {text : CString} (hne : text ≠ []) (hpending : Pending start text)
    (hstring : (reading text).bInString = none) (hlast : text.getLast? ≠ some 0x2d) :
    getTokens text = [⟨symbolType text, text⟩] := by
  induction text using List.reverseRecOn with
  | nil => exact absurd rfl hne
  | append_singleton text c =>
    obtain ⟨hpending', hholds⟩ := pending_concat.mp hpending
    have hwordless := wordless_append.mp (wordless_nil hpending)
    have htokens : getTokens (text ++ [c]) = tokens (reading text) [c] :=
      tokens_text rfl hpending' hwordless.1 (List.cons_ne_nil c [])
    rw [List.getLast?_concat] at hlast
    have hc : c ≠ 0x2d := fun heq => hlast (congrArg some heq)
    rw [htokens]
    cases round (reading_skip text) c [] with
    | closes hquote hunescaped => simp [holds, hquote, hunescaped] at hholds
    | breaks hnone hbreaks => exact (hbreaks.not_within hnone hholds (hwordless.2.1 hnone)).elim
    | comment hnone hc =>
      subst hc
      rw [not_holds hnone rfl (inExponent_of_ne (by decide)) (.inr (.inl rfl))] at hholds
      cases hholds
    | goes _ hgoes =>
      rw [reading_concat] at hstring
      have hexponent := hgoes rfl hstring
      rw [inExponent_of_ne hc] at hexponent
      cases hexponent
    | ends _ _ _ _ hround =>
      rw [tokens_cons, hround, reading_symbol, setSymbel_of_ne hne]
      rfl

/-- Every text that a token is read from has a character. -/
theorem Reads.ne_nil {token : LexToken} {text : CString} (h : Reads token text) : text ≠ [] := by
  cases h with
  | devider => exact List.cons_ne_nil _ _
  | operator hop => exact (symbolTexts_chars hop).1
  | word hmem =>
    obtain ⟨front, htext, -⟩ := word_letters hmem
    rw [htext]
    simp
  | text htext =>
    cases htext with
    | opened hne => exact hne
    | closed => simp

/-- **Whatever the statement is, its tokens are read from texts of their kind.** -/
theorem getTokens_reads (line : CString) : ∀ token ∈ getTokens line, ∃ text, Reads token text := by
  induction hn : line.length using Nat.strong_induction_on generalizing line with
  | _ n ih =>
    subst hn
    match line with
    | [] => exact fun token htoken => absurd htoken List.not_mem_nil
    | c :: rest =>
      intro token htoken
      rcases getTokens_cases c rest with
        hnone | ⟨-, hspace⟩ | ⟨first, text, line, hfirst, hline, heq⟩
      · rw [hnone] at htoken
        cases htoken
      · rw [hspace] at htoken
        exact ih rest.length (Nat.lt_succ_self _) rest rfl token htoken
      · rw [heq, List.mem_cons] at htoken
        rcases htoken with rfl | htoken
        · exact ⟨text, hfirst⟩
        · refine ih line.length ?_ line rfl token htoken
          rw [hline, List.length_append]
          exact Nat.lt_add_of_pos_left (List.length_pos_iff.mpr hfirst.ne_nil)

end PikaScript.Lexer
