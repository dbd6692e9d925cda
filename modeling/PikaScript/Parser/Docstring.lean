import PikaScript.Data.Arg
import PikaScript.Lib.Machine

/-! Docstrings, from the line loop of `PikaParser.c`.

The parser takes its text a line at a time. A line may be joined to the next one, may belong
to a docstring, or is parsed. `Parser_checkIsDocstring` looks for triple quotes in one line
and does not know which of the two opened the docstring it is in. Beside the loop stands the
one that does: a docstring opens with a triple quote and closes with the next one of its
kind. What the loop asks of the lexer, the text without a comment and the depth of brackets,
is any function here. -/
namespace PikaScript.Docstring

/-! ### The code -/

/-- `charIsBlank`. -/
def charIsBlank (ch : BitVec 8) : Bool := ch == 0x20 || ch == 0x09 || ch == 0x0d || ch == 0x0a

/-- `Parser_isVoidLine`. -/
def isVoidLine (sLine : CString) : Bool := sLine.all (· == 0x20)

/-- Either of the quotes. -/
def isQuote (ch : BitVec 8) : Bool := ch == 0x27 || ch == 0x22

/-- The variables of `Parser_checkIsDocstring`. -/
structure Scan where
  bIsDocstring : Bool
  bIsSingle : Bool
  iDocstringStart : Int
  iDocstringEnd : Int
deriving DecidableEq

/-- The loop of `Parser_checkIsDocstring` from index `i` on. -/
def scan (bIsInDocstring : Bool) : Nat → CString → Scan → Scan
  | i, a :: b :: c :: rest, s =>
    if !isQuote a then
      if !s.bIsDocstring && !bIsInDocstring && !charIsBlank a then s
      else scan bIsInDocstring (i + 1) (b :: c :: rest) s
    else if !(b == a && c == a) then scan bIsInDocstring (i + 1) (b :: c :: rest) s
    else if s.bIsDocstring then { s with bIsSingle := true, iDocstringEnd := i }
    else if bIsInDocstring then
      scan bIsInDocstring (i + 1) (b :: c :: rest)
        { s with bIsDocstring := true, iDocstringEnd := i }
    else
      scan bIsInDocstring (i + 1) (b :: c :: rest)
        { s with bIsDocstring := true, iDocstringStart := i + 3 }
  | _, _, s => s

/-- What `Parser_checkIsDocstring` says of a line. -/
inductive Check where
  | no
  | docstring (bIsSingle : Bool) (sDocstring : CString)
deriving DecidableEq

/-- `Parser_checkIsDocstring`. None when it writes outside its copy of the line. -/
def checkIsDocstring (line : CString) (bIsInDocstring : Bool) : Option Check :=
  let s := scan bIsInDocstring 0 line ⟨false, false, 0, -1⟩
  let sDocstring := line.drop s.iDocstringStart.toNat
  let iNul := s.iDocstringEnd - s.iDocstringStart
  if !s.bIsDocstring then some .no
  else if s.iDocstringEnd = -1 then some (.docstring s.bIsSingle sDocstring)
  else if 0 ≤ iNul ∧ iNul ≤ sDocstring.length then
    some (.docstring s.bIsSingle (sDocstring.take iNul.toNat))
  else none

/-- What becomes of a line that may be of a docstring: it is used up, it ends a docstring, or
it is an ordinary line. -/
inductive Filtered (D : Type) where
  | used (doc : D)
  | docstring (doc : D) (aDocstring : CString)
  | ordinary
deriving DecidableEq

/-- What the loop remembers of a docstring. -/
structure DocState where
  bIsInDocstring : Bool
  aDocstring : CString
deriving DecidableEq

/-- A text that is appended with a line end, unless it is empty. -/
def entry (text : CString) : CString := if text = [] then [] else text ++ [0x0a]

/-- The part of `parser_lines2Target` that filters void lines and docstrings. -/
def DocState.filter (doc : DocState) (sLine : CString) : Option (Filtered DocState) :=
  if isVoidLine sLine then some (.used doc)
  else do
    match ← checkIsDocstring sLine doc.bIsInDocstring with
    | .docstring bIsSingle sDocstring =>
      let aDocstring := doc.aDocstring ++ entry sDocstring
      let bIsInDocstring := !doc.bIsInDocstring && !bIsSingle
      if !bIsInDocstring then return .docstring ⟨false, []⟩ aDocstring
      return .used ⟨true, aDocstring⟩
    | .no =>
      if doc.bIsInDocstring then
        return .used { doc with aDocstring := doc.aDocstring ++ (sLine ++ [0x0a]) }
      return .ordinary

/-! ### The line loop -/

/-- What the loop hands to the parser of lines, and the line at which it gives up. -/
inductive LineEvent where
  | line (sLine : CString)
  | docstring (aDocstring : CString)
  | unmatched (sLine : CString)
deriving DecidableEq

/-- The loop between two lines: the text that the next line is joined to, and whether for a
bracket; what is remembered of a docstring; whether it gave up. -/
structure LineState (D : Type) where
  connection : Option (CString × Bool)
  doc : D
  stopped : Bool

/-- `"@annotation"`. -/
def annotated : CString :=
  [0x40, 0x61, 0x6e, 0x6e, 0x6f, 0x74, 0x61, 0x74, 0x69, 0x6f, 0x6e]

variable (removeComment : CString → CString) (bracketDepth : CString → Int)

/-- The line with what it is joined to. -/
def joined (connection : Option (CString × Bool)) (sLine : CString) : CString :=
  match connection with
  | none => sLine
  | some (aLineConnection, false) => aLineConnection ++ sLine
  | some (aLineConnection, true) =>
    let sLine := removeComment sLine
    aLineConnection ++ if sLine = annotated then [] else sLine

/-- `strsReplace` of each tab by four spaces, and of each carriage return by nothing. -/
def untab (sLine : CString) : CString :=
  (sLine.flatMap fun ch => if ch == 0x09 then [0x20, 0x20, 0x20, 0x20] else [ch]).filter (· != 0x0d)

/-- One round of the loop, on a line and whether it is the last one. -/
def lineStep {D : Type} (filter : D → CString → Option (Filtered D)) (s : LineState D)
    (sLine : CString) (last : Bool) : Option (LineState D × List LineEvent) :=
  if s.stopped then some (s, [])
  else
    let sLine := joined removeComment s.connection sLine
    if sLine.getLast? = some 0x5c then
      some ({ s with connection := some (sLine.dropLast, false) }, [])
    else do
      match ← filter s.doc sLine with
      | .used doc => return ({ s with connection := none, doc := doc }, [])
      | .docstring doc aDocstring =>
        return ({ s with connection := none, doc := doc }, [.docstring aDocstring])
      | .ordinary =>
        let sLine := untab sLine
        let depth := bracketDepth sLine
        if !last && 0 < depth then
          return ({ s with connection := some (sLine, true) }, [])
        if depth ≠ 0 then return ({ s with stopped := true }, [.unmatched sLine])
        return ({ s with connection := none }, [.line sLine])

/-- The loop over lines, with a way to filter docstrings. -/
def lineMachine {D : Type} (filter : D → CString → Option (Filtered D)) :
    Machine (CString × Bool) (LineState D) (List LineEvent) where
  step input s := lineStep removeComment bracketDepth filter s input.1 input.2

/-- The lines, with a mark at the last one. -/
def marked : List CString → List (CString × Bool)
  | [] => []
  | [sLine] => [(sLine, true)]
  | sLine :: rest => (sLine, false) :: marked rest

/-- What the loop hands on in a run; a void line comes behind the last one. -/
def handed {D : Type} (filter : D → CString → Option (Filtered D)) (doc : D)
    (lines : List CString) : Option (List LineEvent) :=
  ((lineMachine removeComment bracketDepth filter).run ⟨none, doc, false⟩ (marked lines)).map
    fun r => r.2.flatten ++ if r.1.stopped then [] else [.line []]

/-- `parser_lines2Target`, as far as what is handed to the parser of lines. The number of
lines is a `uint16_t`, and the index of a line cannot get past 65535. -/
def lines2Target (lines : List CString) : Option (List LineEvent) :=
  let uLinesNum := lines.length % 2 ^ 16
  if uLinesNum = 65535 then none
  else handed removeComment bracketDepth DocState.filter ⟨false, []⟩ (lines.take uLinesNum)

/-! ### Docstrings as they are -/

/-- What a line opens: the quote and the text behind it, if its first characters that are not
blank are a triple quote. -/
def opening (line : CString) : Option (BitVec 8 × CString) :=
  match line.dropWhile charIsBlank with
  | a :: b :: c :: rest => if isQuote a && b == a && c == a then some (a, rest) else none
  | _ => none

/-- The text in front of the next triple quote of a kind. -/
def closing (quote : BitVec 8) : CString → Option CString
  | a :: b :: c :: rest =>
    if a == quote && b == quote && c == quote then some []
    else (closing quote (b :: c :: rest)).map (a :: ·)
  | _ => none

/-- Where the lines are: outside, or behind a triple quote of a kind with a text collected. -/
inductive Place where
  | outside
  | inside (quote : BitVec 8) (text : CString)
deriving DecidableEq

/-- A docstring opens with a triple quote and closes with the next one of its kind. All text
between them is collected. -/
def Place.filter : Place → CString → Option (Filtered Place)
  | .outside, line =>
    if isVoidLine line then some (.used .outside)
    else match opening line with
      | none => some .ordinary
      | some (quote, rest) => match closing quote rest with
        | some text => some (.docstring .outside (entry text))
        | none => some (.used (.inside quote (entry rest)))
  | .inside quote collected, line =>
    match closing quote line with
    | some text => some (.docstring .outside (collected ++ entry text))
    | none => some (.used (.inside quote (collected ++ (line ++ [0x0a]))))

/-- What ought to be handed to the parser of lines. -/
def specification (lines : List CString) : Option (List LineEvent) :=
  handed removeComment bracketDepth Place.filter .outside lines

/-! ### When a line is clear -/

/-- The first triple quote of either kind: what is in front of it, its quote and what is
behind it. -/
def firstTriple : CString → Option (CString × BitVec 8 × CString)
  | a :: b :: c :: rest =>
    if isQuote a && b == a && c == a then some ([], a, rest)
    else (firstTriple (b :: c :: rest)).map fun t => (a :: t.1, t.2)
  | _ => none

/-- The first triple quote, if any, is of a kind. -/
def FirstIs (quote : BitVec 8) (text : CString) : Prop := ∀ t ∈ firstTriple text, t.2.1 = quote

instance (quote : BitVec 8) (text : CString) : Decidable (FirstIs quote text) :=
  inferInstanceAs (Decidable (∀ t ∈ firstTriple text, _))

/-- A line that leaves no doubt. Outside, a line that opens a docstring does not go on with a
fourth quote, and the next triple quote in it is of the same kind; a line that opens none has
no triple quote in its leading blanks and quotes. Inside, a line has more than spaces, its
first triple quote is of the kind that opened, and there is no other one, not even an
overlapping one. -/
def Place.Clear : Place → CString → Prop
  | .outside, line =>
    match opening line with
    | some (quote, rest) => rest.head? ≠ some quote ∧ FirstIs quote rest
    | none => firstTriple (line.takeWhile fun c => charIsBlank c || isQuote c) = none
  | .inside quote _, line =>
    isVoidLine line = false ∧ FirstIs quote line ∧
      ∀ t ∈ firstTriple line, firstTriple (quote :: quote :: t.2.2) = none

instance (place : Place) (line : CString) : Decidable (place.Clear line) :=
  match place with
  | .inside quote _ => inferInstanceAs (Decidable (_ ∧ FirstIs quote line ∧ _))
  | .outside =>
    match h : opening line with
    | some (quote, rest) =>
      decidable_of_iff (rest.head? ≠ some quote ∧ FirstIs quote rest) (by rw [Place.Clear, h])
    | none =>
      decidable_of_iff (firstTriple (line.takeWhile fun c => charIsBlank c || isQuote c) = none)
        (by rw [Place.Clear, h])

/-- The line that a round is about is clear, if it is not joined to the next one. -/
def Clear (input : CString × Bool) (s : LineState Place) : Prop :=
  s.stopped = false → (joined removeComment s.connection input.1).getLast? ≠ some 0x5c →
    s.doc.Clear (joined removeComment s.connection input.1)

instance (input : CString × Bool) (s : LineState Place) :
    Decidable (Clear removeComment input s) :=
  inferInstanceAs (Decidable (_ → _ → _))

/-! ### Triple quotes -/

section Triples
variable {a b c quote : BitVec 8} {line text rest : CString} {t : CString × BitVec 8 × CString}

theorem firstTriple_cons (h : ¬(isQuote a && b == a && c == a) = true) :
    firstTriple (a :: b :: c :: rest) =
      (firstTriple (b :: c :: rest)).map fun t => (a :: t.1, t.2) := by
  rw [firstTriple, if_neg h]

theorem firstTriple_of_cons (h : firstTriple (a :: text) = none) : firstTriple text = none := by
  match text with
  | [] | [_] => rfl
  | b :: c :: rest =>
    rw [firstTriple] at h
    split at h
    · cases h
    · exact Option.map_eq_none_iff.mp h

/-- Where the first triple quote is. -/
theorem firstTriple_eq_some (h : firstTriple text = some t) :
    text = t.1 ++ t.2.1 :: t.2.1 :: t.2.1 :: t.2.2 ∧ isQuote t.2.1 = true := by
  fun_induction firstTriple text generalizing t with
  | case1 a b c rest hquote =>
    simp only [Bool.and_eq_true, beq_iff_eq] at hquote
    obtain ⟨⟨hquote, rfl⟩, rfl⟩ := hquote
    cases h
    exact ⟨rfl, hquote⟩
  | case2 a b c rest hquote ih =>
    obtain ⟨t', ht', rfl⟩ := Option.map_eq_some_iff.mp h
    obtain ⟨heq, hq⟩ := ih ht'
    exact ⟨congrArg (a :: ·) heq, hq⟩
  | case3 => cases h

/-- Without a triple quote nothing closes. -/
theorem closing_of_none (hquote : isQuote quote = true) (h : firstTriple text = none) :
    closing quote text = none := by
  fun_induction firstTriple text with
  | case1 => cases h
  | case2 a b c rest hnot ih =>
    have hne : ¬(a == quote && b == quote && c == quote) = true := by
      simp only [Bool.and_eq_true, beq_iff_eq]
      rintro ⟨⟨rfl, rfl⟩, rfl⟩
      exact hnot (by simp [hquote])
    rw [closing, if_neg hne, ih (Option.map_eq_none_iff.mp h), Option.map_none]
  | case3 text htext =>
    unfold closing
    split
    · exact absurd rfl (htext _ _ _ _)
    · rfl

/-- If the first triple quote is of the kind, it closes. -/
theorem closing_of_some (h : firstTriple text = some t) (hkind : t.2.1 = quote) :
    closing quote text = some t.1 := by
  fun_induction firstTriple text generalizing t with
  | case1 a b c rest hq =>
    simp only [Bool.and_eq_true, beq_iff_eq] at hq
    obtain ⟨⟨-, rfl⟩, rfl⟩ := hq
    cases h
    obtain rfl := hkind
    rw [closing, if_pos (by simp)]
  | case2 a b c rest hnot ih =>
    obtain ⟨t', ht', rfl⟩ := Option.map_eq_some_iff.mp h
    obtain ⟨-, hq⟩ := firstTriple_eq_some ht'
    have hkind : t'.2.1 = quote := hkind
    have hne : ¬(a == quote && b == quote && c == quote) = true := by
      simp only [Bool.and_eq_true, beq_iff_eq]
      rintro ⟨⟨rfl, rfl⟩, rfl⟩
      rw [hkind] at hq
      exact hnot (by simp [hq])
    rw [closing, if_neg hne, ih ht' hkind]
    rfl
  | case3 => cases h

/-- Two quotes of a text that goes on differently make no triple quote. -/
theorem firstTriple_behind (hhead : text.head? ≠ some quote) :
    firstTriple (quote :: quote :: text) =
      (firstTriple text).map fun t => (quote :: quote :: t.1, t.2) := by
  cases text with
  | nil => rfl
  | cons x text =>
    have hx : x ≠ quote := fun heq => hhead (by rw [heq]; rfl)
    rw [firstTriple_cons (by simp [hx])]
    cases text with
    | nil => rfl
    | cons y text =>
      rw [firstTriple_cons (by simp [hx]), Option.map_map]
      rfl

/-! ### The scan -/

/-- In a docstring, the scan passes over what does not begin a triple quote. -/
theorem scan_next {bIsInDocstring : Bool} {a b c : BitVec 8} {s : Scan}
    (hin : (!s.bIsDocstring && !bIsInDocstring) = false)
    (hnot : ¬(isQuote a && b == a && c == a) = true) (i : Nat) (rest : CString) :
    scan bIsInDocstring i (a :: b :: c :: rest) s =
      scan bIsInDocstring (i + 1) (b :: c :: rest) s := by
  rw [scan]
  by_cases hq : isQuote a = true
  · rw [if_neg (by simp [hq]), if_pos]
    simpa [hq, imp_iff_not_or] using hnot
  · rw [if_pos (by simpa using hq), hin, Bool.false_and, if_neg Bool.false_ne_true]

/-- In a docstring that was found, the scan runs to the next triple quote. -/
theorem scan_found (bIsInDocstring : Bool) (i : Nat) (text : CString) (s : Scan)
    (hfound : s.bIsDocstring = true) :
    scan bIsInDocstring i text s = match firstTriple text with
      | none => s
      | some t => { s with bIsSingle := true, iDocstringEnd := (i + t.1.length : Nat) } := by
  fun_induction firstTriple text generalizing i with
  | case1 a b c rest hq =>
    simp only [Bool.and_eq_true, beq_iff_eq] at hq
    obtain ⟨⟨hq, rfl⟩, rfl⟩ := hq
    rw [scan, if_neg (by simp [hq]), if_neg (by simp), if_pos hfound]
    rfl
  | case2 a b c rest hnot ih =>
    rw [scan_next (by rw [hfound]; rfl) hnot, ih (i + 1)]
    cases firstTriple (b :: c :: rest) with
    | none => rfl
    | some t =>
      simp only [Option.map_some, List.length_cons]
      rw [Nat.add_right_comm, Nat.add_assoc]
  | case3 text htext =>
    unfold scan
    split
    · exact absurd rfl (htext _ _ _ _)
    · rfl

/-- On a line of a docstring, the scan runs to the first triple quote and goes on behind it. -/
theorem scan_inside (i : Nat) (text : CString) (s : Scan) (hnot : s.bIsDocstring = false) :
    scan true i text s = match firstTriple text with
      | none => s
      | some t => scan true (i + t.1.length + 1) (t.2.1 :: t.2.1 :: t.2.2)
          { s with bIsDocstring := true, iDocstringEnd := (i + t.1.length : Nat) } := by
  fun_induction firstTriple text generalizing i with
  | case1 a b c rest hq =>
    simp only [Bool.and_eq_true, beq_iff_eq] at hq
    obtain ⟨⟨hq, rfl⟩, rfl⟩ := hq
    rw [scan, if_neg (by simp [hq]), if_neg (by simp), if_neg (by simp [hnot]), if_pos rfl]
    rfl
  | case2 a b c rest hne ih =>
    rw [scan_next (Bool.and_false _) hne, ih (i + 1)]
    cases firstTriple (b :: c :: rest) with
    | none => rfl
    | some t =>
      have hindex : i + 1 + t.1.length = i + (t.1.length + 1) := by omega
      simp only [Option.map_some, List.length_cons, hindex]
  | case3 text htext =>
    unfold scan
    split
    · exact absurd rfl (htext _ _ _ _)
    · rfl

/-- Outside, nothing is found when the leading blanks and quotes have no triple quote. -/
theorem scan_none (i : Nat) (line : CString) (s : Scan) (hnot : s.bIsDocstring = false)
    (h : firstTriple (line.takeWhile fun c => charIsBlank c || isQuote c) = none) :
    scan false i line s = s := by
  match line with
  | [] | [_] | [_, _] => rfl
  | a :: b :: c :: rest =>
    rw [scan]
    by_cases hq : isQuote a = true
    · rw [if_neg (by simp [hq])]
      rw [List.takeWhile_cons_of_pos (by simp [hq])] at h
      have hne : ¬(b == a && c == a) = true := by
        simp only [Bool.and_eq_true, beq_iff_eq]
        rintro ⟨rfl, rfl⟩
        rw [List.takeWhile_cons_of_pos (by simp [hq]), List.takeWhile_cons_of_pos (by simp [hq]),
          firstTriple, if_pos (by simp [hq])] at h
        cases h
      rw [if_pos (by simpa [imp_iff_not_or] using hne)]
      refine scan_none (i + 1) (b :: c :: rest) s hnot ?_
      exact firstTriple_of_cons h
    · rw [if_pos (by simpa using hq)]
      by_cases hblank : charIsBlank a = true
      · rw [if_neg (by simp [hblank])]
        rw [List.takeWhile_cons_of_pos (by simp [hblank])] at h
        exact scan_none (i + 1) (b :: c :: rest) s hnot (firstTriple_of_cons h)
      · rw [if_pos (by simp [hnot, hblank])]

/-- Behind the leading blanks of a line is the triple quote that it opens. -/
theorem opening_eq_some {line rest : CString} {quote : BitVec 8}
    (h : opening line = some (quote, rest)) :
    ∃ blanks, line = blanks ++ quote :: quote :: quote :: rest ∧
      (∀ c ∈ blanks, charIsBlank c = true) ∧ isQuote quote = true := by
  unfold opening at h
  split at h
  · rename_i a b c rest' hdrop
    split at h
    · rename_i hq
      simp only [Bool.and_eq_true, beq_iff_eq] at hq
      obtain ⟨⟨hq, rfl⟩, rfl⟩ := hq
      cases h
      refine ⟨line.takeWhile charIsBlank, ?_,
        fun c hc => List.all_eq_true.mp List.all_takeWhile c hc, hq⟩
      rw [← hdrop, List.takeWhile_append_dropWhile]
    · cases h
  · cases h

theorem not_isBlank_of_isQuote {quote : BitVec 8} (h : isQuote quote = true) :
    charIsBlank quote = false := by
  simp only [isQuote, Bool.or_eq_true, beq_iff_eq] at h
  rcases h with rfl | rfl <;> rfl

/-- Outside, the scan runs over the leading blanks to the triple quote that opens, and goes on
behind its first quote. -/
theorem scan_open {blanks rest : CString} {quote : BitVec 8} (i : Nat) (s : Scan)
    (hblanks : ∀ c ∈ blanks, charIsBlank c = true) (hquote : isQuote quote = true)
    (hnot : s.bIsDocstring = false) :
    scan false i (blanks ++ quote :: quote :: quote :: rest) s =
      scan false (i + blanks.length + 1) (quote :: quote :: rest)
        { s with bIsDocstring := true, iDocstringStart := (i + blanks.length : Nat) + 3 } := by
  induction blanks generalizing i with
  | nil =>
    rw [List.nil_append, scan, if_neg (by simp [hquote]), if_neg (by simp),
      if_neg (by simp [hnot]), if_neg (by simp)]
    rfl
  | cons a blanks ih =>
    have ha : charIsBlank a = true := hblanks a List.mem_cons_self
    have hq : isQuote a = false := by
      cases hq : isQuote a
      · rfl
      · rw [not_isBlank_of_isQuote hq] at ha
        cases ha
    have hindex : i + 1 + blanks.length = i + (blanks.length + 1) := by omega
    have hrest := ih (i + 1) fun c hc => hblanks c (List.mem_cons_of_mem a hc)
    rw [hindex] at hrest
    rw [List.length_cons, ← hrest, List.cons_append]
    obtain ⟨b, c, text, heq⟩ : ∃ b c text,
        blanks ++ quote :: quote :: quote :: rest = b :: c :: text := by
      match blanks with
      | [] | [_] | _ :: _ :: _ => exact ⟨_, _, _, rfl⟩
    rw [heq, scan, if_pos (by simp [hq]), if_neg (by simp [ha])]

end Triples

/-! ### One line -/

section Line
variable {quote : BitVec 8} {line rest text : CString}

/-- A line that opens no docstring is an ordinary one. -/
theorem check_ordinary
    (h : firstTriple (line.takeWhile fun c => charIsBlank c || isQuote c) = none) :
    checkIsDocstring line false = some .no := by
  rw [checkIsDocstring, scan_none 0 line _ rfl h]
  rfl

/-- **A line that opens a docstring** gives the text up to the next triple quote, or all of it. -/
theorem check_opening (hopen : opening line = some (quote, rest))
    (hhead : rest.head? ≠ some quote) (hkind : FirstIs quote rest) :
    checkIsDocstring line false = some (match closing quote rest with
      | some text => .docstring true text
      | none => .docstring false rest) := by
  obtain ⟨blanks, hline, hblanks, hquote⟩ := opening_eq_some hopen
  have hstart : (((0 + blanks.length : Nat) : Int) + 3).toNat = blanks.length + 3 := by omega
  have hdrop : line.drop (blanks.length + 3) = rest := by
    rw [hline, ← List.drop_drop, List.drop_left]
    rfl
  have hscan : scan false 0 line ⟨false, false, 0, -1⟩ =
      scan false (0 + blanks.length + 1) (quote :: quote :: rest)
        ⟨true, false, ((0 + blanks.length : Nat) : Int) + 3, -1⟩ :=
    hline ▸ scan_open 0 _ hblanks hquote rfl
  have hfound := scan_found false (0 + blanks.length + 1) (quote :: quote :: rest)
    ⟨true, false, ((0 + blanks.length : Nat) : Int) + 3, -1⟩ rfl
  rw [firstTriple_behind hhead] at hfound
  rw [checkIsDocstring, hscan, hfound]
  cases hfirst : firstTriple rest with
  | none =>
    simp only [Option.map_none, closing_of_none hquote hfirst, hstart, hdrop, Bool.not_true,
      Bool.false_eq_true, if_false, if_true]
  | some t =>
    obtain ⟨hsplit, -⟩ := firstTriple_eq_some hfirst
    have hnul : (((0 + blanks.length + 1 + (t.1.length + 1 + 1) : Nat) : Int) -
        (((0 + blanks.length : Nat) : Int) + 3)) = t.1.length := by
      push_cast
      omega
    have hlength : t.1.length ≤ rest.length := by
      rw [hsplit, List.length_append]
      exact Nat.le_add_right _ _
    have htake : rest.take t.1.length = t.1 := by
      rw [hsplit]
      exact List.take_left
    simp only [Option.map_some, closing_of_some hfirst (hkind t hfirst), hstart, hdrop,
      List.length_cons, hnul, Bool.not_true, Bool.false_eq_true, if_false]
    rw [if_neg (by push_cast; omega), if_pos ⟨by omega, by omega⟩, Int.toNat_natCast, htake]

/-- **A line of a docstring** closes it or does not. -/
theorem check_inside (hquote : isQuote quote = true) (hkind : FirstIs quote line)
    (hone : ∀ t ∈ firstTriple line, firstTriple (quote :: quote :: t.2.2) = none) :
    checkIsDocstring line true = some (match closing quote line with
      | some text => .docstring false text
      | none => .no) := by
  rw [checkIsDocstring, scan_inside 0 line _ rfl]
  cases hfirst : firstTriple line with
  | none =>
    rw [closing_of_none hquote hfirst]
    rfl
  | some t =>
    have hq := hkind t hfirst
    obtain ⟨hsplit, -⟩ := firstTriple_eq_some hfirst
    have hlength : t.1.length ≤ line.length := by
      rw [hsplit, List.length_append]
      exact Nat.le_add_right _ _
    have htake : line.take t.1.length = t.1 := by
      rw [hsplit]
      exact List.take_left
    have hscan := scan_found true (0 + t.1.length + 1) (quote :: quote :: t.2.2)
      ⟨true, false, 0, (0 + t.1.length : Nat)⟩ rfl
    rw [hone t hfirst] at hscan
    simp only [hq, hscan, closing_of_some hfirst hq, Int.toNat_zero, List.drop_zero, Int.sub_zero,
      Bool.not_true, Bool.false_eq_true, if_false]
    rw [if_neg (by omega), if_pos ⟨by omega, by omega⟩, Int.toNat_natCast, Nat.zero_add, htake]

end Line

/-! ### Any lines -/

/-- What the loop remembers is the place. -/
def Place.state : Place → DocState
  | .outside => ⟨false, []⟩
  | .inside _ text => ⟨true, text⟩

/-- The quote of a docstring is one. -/
def Place.Valid : Place → Prop
  | .outside => True
  | .inside quote _ => isQuote quote = true

/-- What became of a line, with what the loop remembers. -/
def Filtered.state : Filtered Place → Filtered DocState
  | .used place => .used place.state
  | .docstring place aDocstring => .docstring place.state aDocstring
  | .ordinary => .ordinary

def Filtered.Valid : Filtered Place → Prop
  | .used place | .docstring place _ => place.Valid
  | .ordinary => True

/-- **A clear line is filtered as it ought to be.** -/
theorem filter_of_clear {place : Place} {line : CString} (hvalid : place.Valid)
    (hclear : place.Clear line) :
    ∃ filtered, place.filter line = some filtered ∧
      place.state.filter line = some filtered.state ∧ filtered.Valid := by
  cases place with
  | outside =>
    by_cases hvoid : isVoidLine line = true
    · exact ⟨.used .outside, by rw [Place.filter, if_pos hvoid],
        by rw [DocState.filter, if_pos hvoid]; rfl, trivial⟩
    rw [Place.filter, DocState.filter, if_neg hvoid, if_neg hvoid]
    rw [Place.Clear] at hclear
    cases hopen : opening line with
    | none =>
      rw [hopen] at hclear
      exact ⟨.ordinary, rfl, by rw [Place.state, check_ordinary hclear]; rfl, trivial⟩
    | some opened =>
      obtain ⟨quote, rest⟩ := opened
      rw [hopen] at hclear
      rw [Place.state, check_opening hopen hclear.1 hclear.2]
      dsimp only
      cases closing quote rest with
      | some text => exact ⟨_, rfl, rfl, trivial⟩
      | none =>
        obtain ⟨-, -, -, hquote⟩ := opening_eq_some hopen
        exact ⟨_, rfl, rfl, hquote⟩
  | inside quote collected =>
    obtain ⟨hvoid, hkind, hone⟩ := hclear
    rw [Place.filter, DocState.filter, if_neg (by simp [hvoid]), Place.state,
      check_inside hvalid hkind hone]
    cases closing quote line with
    | some text => exact ⟨_, rfl, rfl, trivial⟩
    | none => exact ⟨_, rfl, rfl, hvalid⟩

variable {removeComment : CString → CString} {bracketDepth : CString → Int}

/-- The two loops are at the same line with the same docstring. -/
structure Alike (s : LineState Place) (s' : LineState DocState) : Prop where
  connection : s'.connection = s.connection
  doc : s'.doc = s.doc.state
  stopped : s'.stopped = s.stopped
  valid : s.doc.Valid

/-- A round on a clear line does the same in both loops. -/
theorem lineStep_of_clear {input : CString × Bool} {s : LineState Place}
    {s' : LineState DocState} (hclear : Clear removeComment input s) (halike : Alike s s') :
    ∃ t t' events, lineStep removeComment bracketDepth Place.filter s input.1 input.2 =
        some (t, events) ∧
      lineStep removeComment bracketDepth DocState.filter s' input.1 input.2 =
        some (t', events) ∧ Alike t t' := by
  obtain ⟨connection, doc, stopped⟩ := s
  obtain ⟨connection', doc', stopped'⟩ := s'
  obtain ⟨hconnection, hdoc, hstopped, hvalid⟩ := halike
  dsimp only at hconnection hdoc hstopped hvalid
  subst hconnection hdoc hstopped
  unfold lineStep
  dsimp only
  cases stopped' with
  | true => exact ⟨_, _, _, rfl, rfl, rfl, rfl, rfl, hvalid⟩
  | false =>
    rw [if_neg Bool.false_ne_true, if_neg Bool.false_ne_true]
    by_cases hconnect : (joined removeComment connection' input.1).getLast? = some 0x5c
    · rw [if_pos hconnect, if_pos hconnect]
      exact ⟨_, _, _, rfl, rfl, rfl, rfl, rfl, hvalid⟩
    rw [if_neg hconnect, if_neg hconnect]
    obtain ⟨filtered, hfilter, hfilter', hvalid'⟩ :=
      filter_of_clear hvalid (hclear rfl hconnect)
    rw [hfilter, hfilter']
    cases filtered with
    | used place => exact ⟨_, _, _, rfl, rfl, rfl, rfl, rfl, hvalid'⟩
    | docstring place text => exact ⟨_, _, _, rfl, rfl, rfl, rfl, rfl, hvalid'⟩
    | ordinary =>
      simp only [Filtered.state, Option.bind_eq_bind, Option.bind_some, Option.pure_def]
      split
      · exact ⟨_, _, _, rfl, rfl, rfl, rfl, rfl, hvalid⟩
      · split
        · exact ⟨_, _, _, rfl, rfl, rfl, rfl, rfl, hvalid⟩
        · exact ⟨_, _, _, rfl, rfl, rfl, rfl, rfl, hvalid⟩

variable (removeComment bracketDepth)

/-- **Docstrings are recognised** in fewer than 65535 lines that are all clear: each ends at the
next triple quote of its kind, its text is collected, every other line is handed on, and nothing
is written outside a line. -/
theorem lines2Target_of_clear (lines : List CString) (hnum : lines.length < 65535)
    (hclear : (lineMachine removeComment bracketDepth Place.filter).Meets (Clear removeComment)
      ⟨none, .outside, false⟩ (marked lines)) :
    ∃ events, lines2Target removeComment bracketDepth lines = some events ∧
      specification removeComment bracketDepth lines = some events := by
  have hmod : lines.length % 2 ^ 16 = lines.length := Nat.mod_eq_of_lt (by omega)
  obtain ⟨t, t', events, hrun, hrun', halike⟩ :=
    Machine.run_both_of_meets (n := lineMachine removeComment bracketDepth DocState.filter)
      (fun input s s' hclear halike => by
        obtain ⟨t, t', events, hstep, hstep', halike'⟩ := lineStep_of_clear hclear halike
        exact ⟨t, t', events, hstep, hstep', halike'⟩)
      (Alike.mk rfl rfl rfl trivial : Alike ⟨none, .outside, false⟩ ⟨none, ⟨false, []⟩, false⟩)
      hclear
  refine ⟨_, ?_, by rw [specification, handed, hrun]; rfl⟩
  rw [lines2Target, hmod, if_neg (by omega), List.take_length, handed, hrun', Option.map_some,
    halike.stopped]

/-- A docstring of two lines between two others. -/
theorem lines2Target_of_clear_two : ∃ events,
    lines2Target id (fun _ => 0) [[97], [34, 34, 34, 98], [99, 34, 34, 34], [100]] =
      some events ∧
    specification id (fun _ => 0) [[97], [34, 34, 34, 98], [99, 34, 34, 34], [100]] =
      some events :=
  lines2Target_of_clear id (fun _ => 0) _ (by decide) (by decide)

/-- The empty docstring, six quotes, makes the code write in front of its copy of the line. -/
theorem not_lines2Target :
    ¬∀ lines : List CString, ∃ events,
      lines2Target id (fun _ => 0) lines = some events ∧
      specification id (fun _ => 0) lines = some events := by
  intro h
  obtain ⟨events, hcode, -⟩ := h [[34, 34, 34, 34, 34, 34]]
  have hnone : lines2Target id (fun _ => 0) [[34, 34, 34, 34, 34, 34]] = none := by decide
  rw [hnone] at hcode
  cases hcode

end PikaScript.Docstring
