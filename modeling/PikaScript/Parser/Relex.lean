import PikaScript.Parser.Munch

/-! Tokens written one behind the other.

The parser takes a statement apart into its tokens and writes some of them into a new statement,
without the spaces that were between them. The new statement has the same tokens just when each
of them can be told from the one behind it: no operator goes on, no name runs into what follows,
and no hyphen becomes the sign of an exponent. -/
namespace PikaScript.Lexer

/-- The texts of some tokens, as the parser writes them down. -/
def text (tokens : List LexToken) : CString := tokens.flatMap LexToken.pyload

theorem text_cons (token : LexToken) (tokens : List LexToken) :
    text (token :: tokens) = token.pyload ++ text tokens := List.flatMap_cons

theorem text_append (a b : List LexToken) : text (a ++ b) = text a ++ text b :=
  List.flatMap_append

/-- A token of the lexer. -/
def IsToken (token : LexToken) : Prop := ∃ source, Reads token source

/-- A token can be told from the line behind it. -/
def Joins (token : LexToken) (line : CString) : Prop :=
  match token.type with
  | .operator => token.pyload ∈ symbolTexts →
    ∀ c ∈ line.head?, token.pyload ++ [c] ∉ symbolTexts
  | .symbol | .literal => (reading token.pyload).bInString = none →
    if line = [] then token.pyload.getLast? ≠ some 0x2d
    else Wordless start token.pyload line ∧ Breaks (reading token.pyload) line
  | _ => True

/-- Each of some tokens can be told from the next. -/
def Clean : List LexToken → Prop
  | [] => True
  | token :: tokens => Joins token (text tokens) ∧ Clean tokens

/-! ### One token in front of a line -/

/-- The front of an operator is an operator. -/
theorem symbolTexts_take {op : CString} (h : op ∈ symbolTexts) {k : Nat} (hk : 0 < k) :
    op.take k ∈ symbolTexts := by
  have hone : ∀ c ∈ operators, [c] ∈ symbolTexts := fun c hc => by simp [symbolTexts, hc]
  have htwo : ∀ c ∈ doubled, [c, c] ∈ symbolTexts := fun c hc => by simp [symbolTexts, hc]
  cases op with
  | nil => rwa [List.take_nil]
  | cons c op =>
    obtain rfl | rfl | ⟨k, rfl⟩ : k = 1 ∨ k = 2 ∨ ∃ n, k = n + 3 := by
      rcases Nat.lt_or_ge k 3 with hlt | hge
      · omega
      · exact .inr (.inr ⟨k - 3, by omega⟩)
    · exact hone c ((symbolTexts_chars h).2 c List.mem_cons_self)
    · rcases symbolTexts_mem h with ⟨rfl, hc⟩ | ⟨rfl, hc⟩ | ⟨rfl, hc⟩ | ⟨rfl, hc⟩
      · exact h
      · exact h
      · exact h
      · exact htwo c hc
    · rwa [List.take_of_length_le]
      rcases symbolTexts_mem h with ⟨rfl, hc⟩ | ⟨rfl, hc⟩ | ⟨rfl, hc⟩ | ⟨rfl, hc⟩ <;> simp

/-- An operator that cannot go on is the longest one. -/
theorem longest_iff {op line : CString} (hop : op ∈ symbolTexts) :
    Longest op (op ++ line) ↔ ∀ c ∈ line.head?, op ++ [c] ∉ symbolTexts := by
  have hne := (symbolTexts_chars hop).1
  constructor
  · intro h c hc hmem
    obtain ⟨rest, rfl⟩ := List.head?_eq_some_iff.mp hc
    have hle := h.le (op ++ [c]) hmem ⟨rest, by simp⟩
    rw [List.length_append, List.length_singleton] at hle
    omega
  · refine fun h => ⟨hop, List.prefix_append op line, fun op' hop' hfront => ?_⟩
    by_contra hlt
    obtain ⟨tail, rfl⟩ := List.prefix_of_prefix_length_le (List.prefix_append op line) hfront
      (by omega)
    match tail with
    | [] => simp at hlt
    | c :: tail =>
      obtain ⟨rest, hrest⟩ := (List.prefix_append_right_inj op).mp hfront
      have hmem := symbolTexts_take hop' (k := op.length + 1) (Nat.succ_pos _)
      rw [List.take_length_add_append] at hmem
      exact h c (by rw [← hrest]; rfl) hmem

theorem symbolType_cases (text : CString) :
    symbolType text = .symbol ∨ symbolType text = .literal := by
  unfold symbolType
  split
  · exact .inl rfl
  split
  · exact .inr rfl
  split
  · exact .inr rfl
  split
  · exact .inr rfl
  · exact .inl rfl

theorem words_type : ∀ word ∈ words,
    (word.token.type = .operator ∨ word.token.type = .keyword) ∧
      word.token.pyload ∉ symbolTexts ∧
      (word.token.pyload = word.text ∨ word.token.pyload = 0x20 :: word.text) := by
  decide +kernel

/-- The first word that begins in a text. -/
theorem exists_word {s : State} {text line : CString} (h : ¬Wordless s text line) :
    ∃ front rest, text = front ++ rest ∧ rest ≠ [] ∧ Wordless s front (rest ++ line) ∧
      (front.foldl push s).bInString = none ∧ isWord (front.foldl push s).cn1 = false ∧
        ∃ word ∈ words, word.text <+: rest ++ line := by
  induction text generalizing s with
  | nil => exact absurd trivial h
  | cons c text ih =>
    by_cases hhere : s.bInString = none → isWord s.cn1 = false →
      ∀ word ∈ words, ¬word.text <+: c :: (text ++ line)
    · obtain ⟨front, rest, rfl, hne, hwordless, hword⟩ :=
        ih fun hrest => h ⟨hhere, hrest⟩
      refine ⟨c :: front, rest, rfl, hne, ⟨?_, hwordless⟩, hword⟩
      rwa [← List.append_assoc]
    · push Not at hhere
      obtain ⟨hstring, hcn1, word, hmem, hfront⟩ := hhere
      exact ⟨[], c :: text, rfl, List.cons_ne_nil c text, trivial, hstring, hcn1, word, hmem,
        hfront⟩

/-- A word is not a text. -/
theorem word_ne_text {word : Word} (hmem : word ∈ words) (text : CString) :
    word.token ≠ ⟨symbolType text, text⟩ := by
  intro heq
  have htype := congrArg LexToken.type heq
  dsimp only at htype
  rcases (words_type word hmem).1 with hword | hword <;>
    rcases symbolType_cases text with htext | htext <;>
      rw [hword, htext] at htype <;> cases htype

theorem getTokens_word {word : Word} (hmem : word ∈ words) (line : CString) :
    getTokens (word.text ++ line) = word.token :: getTokens line :=
  start_outside.tokens_word rfl hmem line

theorem getTokens_space (line : CString) : getTokens (0x20 :: line) = getTokens line :=
  start_outside.tokens_space line

/-- A text in which a word begins is not read as a whole. -/
theorem not_read_of_word {text line : CString} (hpending : Pending start text)
    (h : ¬Wordless start text line) (ts : List LexToken) :
    getTokens (text ++ line) ≠ ⟨symbolType text, text⟩ :: ts := by
  obtain ⟨front, rest, rfl, hne, hwordless, hstring, hcn1, word, hmem, hfront⟩ := exists_word h
  have hsplit : getTokens ((front ++ rest) ++ line) = tokens (reading front) (rest ++ line) := by
    rw [List.append_assoc]
    exact tokens_text rfl (pending_append.mp hpending).1 hwordless (by simp [hne])
  obtain ⟨line', hline⟩ := hfront
  have hword : getTokens (rest ++ line) = word.token :: getTokens line' := by
    rw [← hline, getTokens_word hmem]
  have hout : Outside (reading front) := ⟨hstring, reading_skip front⟩
  rw [hsplit, hout.tokens_breaks (.word hmem hcn1 ⟨line', hline⟩), reading_symbol, hword]
  intro heq
  match front, heq with
  | [], heq => exact word_ne_text hmem _ (List.cons.inj heq).1
  | c :: front, heq =>
    rw [setSymbel_of_ne (List.cons_ne_nil c front)] at heq
    have hpyload : c :: front = c :: front ++ rest :=
      congrArg LexToken.pyload (List.cons.inj heq).1
    have hlength := congrArg List.length hpyload
    have hpos := List.length_pos_iff.mpr hne
    rw [List.length_append] at hlength
    omega

/-- Nor is a text that goes on. -/
theorem not_read_of_goes {text : CString} (hpending : Pending start text)
    (hstring : (reading text).bInString = none) {c : BitVec 8} {rest : CString}
    (h : ¬Breaks (reading text) (c :: rest)) (ts : List LexToken) :
    tokens (reading text) (c :: rest) ≠ ⟨symbolType text, text⟩ :: ts := by
  intro heq
  cases round (reading_skip text) c rest with
  | closes hquote =>
    rw [hstring] at hquote
    cases hquote
  | breaks _ hbreaks => exact h hbreaks
  | comment _ _ hround =>
    rw [tokens_cons, hround] at heq
    cases heq
  | goes hholds _ hround =>
    have hgoes : tokens (reading text) (c :: rest) = tokens (push (reading text) c) rest := by
      rw [tokens_cons, hround]
      rfl
    rw [hgoes, ← reading_concat] at heq
    rcases tokens_reading (List.append_ne_nil_of_right_ne_nil text (List.cons_ne_nil c []))
      (pending_concat.mpr ⟨hpending, hholds⟩) rest with hnone | ⟨word, line', -, hfront, -, hword⟩
    · rw [hnone] at heq
      cases heq
    · rw [hword] at heq
      have hpyload := congrArg LexToken.pyload (List.cons.inj heq).1
      have hlength := hfront.length_le
      dsimp only at hpyload
      rw [hpyload, List.length_append, List.length_singleton] at hlength
      omega
  | ends _ _ _ _ hround =>
    rw [tokens_cons, hround, reading_symbol, setSymbel_of_ne (by simp)] at heq
    have hpyload := congrArg LexToken.pyload (List.cons.inj heq).1
    have hlength := congrArg List.length hpyload
    simp at hlength

/-- A number that ends in the hyphen of an exponent is lost at the end of a statement. -/
theorem getTokens_hyphen {text : CString} (hpending : Pending start text)
    (hstring : (reading text).bInString = none) (hlast : text.getLast? = some 0x2d) :
    getTokens text = [] := by
  obtain ⟨front, rfl⟩ := List.getLast?_eq_some_iff.mp hlast
  obtain ⟨hpending', hholds⟩ := pending_concat.mp hpending
  have hwordless := wordless_append.mp (wordless_nil hpending)
  have htokens : getTokens (front ++ [0x2d]) = tokens (reading front) [0x2d] :=
    tokens_text rfl hpending' hwordless.1 (List.cons_ne_nil _ [])
  have hnone : (reading front).bInString = none := by
    rw [reading_concat, push] at hstring
    cases hfront : (reading front).bInString with
    | none => rfl
    | some quote => simp [hfront] at hstring
  rw [htokens]
  cases round (reading_skip front) 0x2d [] with
  | closes hquote =>
    rw [hnone] at hquote
    cases hquote
  | breaks _ hbreaks => exact (hbreaks.not_within hnone hholds (hwordless.2.1 hnone)).elim
  | comment _ _ hround => rw [tokens_cons, hround]
  | goes _ _ hround =>
    rw [tokens_cons, hround]
    rfl
  | ends _ _ _ hexponent =>
    rw [not_holds hnone rfl hexponent (by decide)] at hholds
    cases hholds

theorem getTokens_opened_iff {text : CString} (hne : text ≠ []) (hpending : Pending start text)
    (hstring : (reading text).bInString = none) (line : CString) (ts : List LexToken) :
    getTokens (text ++ line) = ⟨symbolType text, text⟩ :: ts ↔
      (if line = [] then text.getLast? ≠ some 0x2d
        else Wordless start text line ∧ Breaks (reading text) line) ∧ ts = getTokens line := by
  match line with
  | [] =>
    rw [if_pos rfl, List.append_nil]
    constructor
    · intro heq
      have hlast : text.getLast? ≠ some 0x2d := by
        intro hhyphen
        rw [getTokens_hyphen hpending hstring hhyphen] at heq
        cases heq
      rw [getTokens_end hne hpending hstring hlast] at heq
      exact ⟨hlast, (List.cons.inj heq).2.symm⟩
    · rintro ⟨hlast, rfl⟩
      exact getTokens_end hne hpending hstring hlast
  | c :: rest =>
    rw [if_neg (List.cons_ne_nil c rest)]
    constructor
    · intro heq
      have hwordless : Wordless start text (c :: rest) := by
        by_contra hword
        exact not_read_of_word hpending hword ts heq
      have htokens : getTokens (text ++ c :: rest) = tokens (reading text) (c :: rest) :=
        tokens_text rfl hpending hwordless (List.cons_ne_nil c rest)
      have hbreaks : Breaks (reading text) (c :: rest) := by
        by_contra hgoes
        exact not_read_of_goes hpending hstring hgoes ts (htokens.symm.trans heq)
      refine ⟨⟨hwordless, hbreaks⟩, ?_⟩
      rw [getTokens_opened hne hpending hstring hwordless (List.cons_ne_nil c rest) hbreaks] at heq
      exact (List.cons.inj heq).2.symm
    · rintro ⟨⟨hwordless, hbreaks⟩, rfl⟩
      exact getTokens_opened hne hpending hstring hwordless (List.cons_ne_nil c rest) hbreaks

theorem reading_closed {text : CString} {quote : BitVec 8}
    (hstring : (reading text).bInString = some quote) :
    (reading (text ++ [quote])).bInString = some quote := by
  rw [reading_concat, push, hstring]
  rfl

/-- When a text can be told from the line behind it. -/
theorem joins_text (text line : CString) : Joins ⟨symbolType text, text⟩ line ↔
    ((reading text).bInString = none → if line = [] then text.getLast? ≠ some 0x2d
      else Wordless start text line ∧ Breaks (reading text) line) := by
  rcases symbolType_cases text with htype | htype <;>
  · unfold Joins
    rw [htype]

/-- **A token is read in front of a line just when it can be told from it.** -/
theorem getTokens_front_iff {token : LexToken} (h : IsToken token) (line : CString)
    (ts : List LexToken) : getTokens (token.pyload ++ line) = token :: ts ↔
      Joins token line ∧ ts = getTokens line := by
  obtain ⟨source, hreads⟩ := h
  have honce : ∀ {ts'}, getTokens (token.pyload ++ line) = token :: ts' →
      (getTokens (token.pyload ++ line) = token :: ts ↔ ts = ts') := by
    intro ts' heq
    rw [heq, List.cons.injEq, and_iff_right rfl, eq_comm]
  cases hreads with
  | devider hc =>
    rw [honce (start_outside.tokens_devider hc line)]
    exact (and_iff_right trivial).symm
  | operator hop =>
    have hjoins : Joins ⟨.operator, source⟩ line ↔ Longest source (source ++ line) := by
      rw [longest_iff hop]
      exact forall_prop_of_true hop
    rw [hjoins]
    constructor
    · intro heq
      match source, hop, heq with
      | [], hop, _ => exact absurd rfl (symbolTexts_chars hop).1
      | c :: op, hop, heq =>
        obtain ⟨op', line', hline, hlongest, -⟩ :=
          exists_longest ((symbolTexts_chars hop).2 c List.mem_cons_self) (op ++ line)
        have hread : getTokens (op' ++ line') = ⟨.operator, op'⟩ :: getTokens line' :=
          start_outside.tokens_operator hlongest fun c _ => start_inExponent c
        rw [← hline] at hread
        obtain ⟨hsame, rfl⟩ := List.cons.inj (heq.symm.trans hread)
        obtain rfl : c :: op = op' := congrArg LexToken.pyload hsame
        obtain rfl : line = line' := (List.append_right_inj (c :: op)).mp hline
        exact ⟨hlongest, rfl⟩
    · rintro ⟨hlongest, rfl⟩
      exact start_outside.tokens_operator hlongest fun c _ => start_inExponent c
  | word hmem =>
    rename_i word
    obtain ⟨htype, hnot, hpyload⟩ := words_type word hmem
    have hread : getTokens (word.token.pyload ++ line) = word.token :: getTokens line := by
      rcases hpyload with hpyload | hpyload
      · rw [hpyload, getTokens_word hmem]
      · rw [hpyload, List.cons_append, getTokens_space, getTokens_word hmem]
    rw [honce hread]
    refine (and_iff_right ?_).symm
    unfold Joins
    rcases htype with htype | htype
    · rw [htype]
      exact fun hop => absurd hop hnot
    · rw [htype]
      trivial
  | text htext =>
    rw [joins_text]
    cases htext with
    | opened hne hpending hstring =>
      rw [getTokens_opened_iff hne hpending hstring, forall_prop_of_true hstring]
    | closed hpending hstring hunescaped =>
      rename_i front quote
      have hread := getTokens_closed hpending hstring hunescaped line
      rw [List.append_cons] at hread
      rw [honce hread, reading_closed hstring]
      exact (and_iff_right nofun).symm

/-- The first character of a text goes on with it. -/
theorem text_front {text : CString} (h : IsText text) :
    ∃ c rest, text = c :: rest ∧ holds start c = true := by
  cases h with
  | opened hne hpending =>
    match text, hne, hpending with
    | c :: text, _, hpending => exact ⟨c, text, rfl, hpending.1⟩
  | closed hpending hstring hunescaped =>
    rename_i front quote
    match front, hpending, hstring with
    | [], _, hstring => cases hstring
    | c :: front, hpending, _ => exact ⟨c, front ++ [quote], rfl, hpending.1⟩

/-- A token with the text of an operator is one, and is read from that text. -/
theorem reads_of_symbolText {token : LexToken} {text : CString} (h : Reads token text)
    (hmem : token.pyload ∈ symbolTexts) : token.type = .operator ∧ text = token.pyload := by
  cases h with
  | devider hc =>
    have hkind : ∀ c ∈ deviders, c ∉ operators := by decide
    exact absurd ((symbolTexts_chars hmem).2 _ List.mem_cons_self) (hkind _ hc)
  | operator => exact ⟨rfl, rfl⟩
  | word hword => exact absurd hmem (words_type _ hword).2.1
  | text htext =>
    obtain ⟨c, rest, rfl, hholds⟩ := text_front htext
    have hc : c ∈ operators := (symbolTexts_chars hmem).2 c List.mem_cons_self
    obtain ⟨-, -, -, -, -, hquote, -⟩ := operators_kind c hc
    rw [not_holds rfl hquote (start_inExponent c) (.inr (.inr (.inr hc)))] at hholds
    cases hholds

theorem type_of_symbolText {token : LexToken} (h : IsToken token)
    (hmem : token.pyload ∈ symbolTexts) : token.type = .operator :=
  let ⟨_, hreads⟩ := h
  (reads_of_symbolText hreads hmem).1

/-! ### The characters of the tokens -/

/-- The characters of a line that are not spaces. -/
def solid (line : CString) : CString := line.filter (· != 0x20)

theorem solid_append (a b : CString) : solid (a ++ b) = solid a ++ solid b := List.filter_append a b

theorem solid_space (line : CString) : solid (0x20 :: line) = solid line :=
  List.filter_cons_of_neg (by decide)

/-- A token has the characters that it is read from, but for spaces. -/
theorem solid_pyload {token : LexToken} {text : CString} (h : Reads token text) :
    solid token.pyload = solid text := by
  cases h with
  | devider => rfl
  | operator => rfl
  | word hmem =>
    rcases (words_type _ hmem).2.2 with hpyload | hpyload
    · rw [hpyload]
    · rw [hpyload, solid_space]
  | text => rfl

/-- Every token has one. -/
theorem solid_ne_nil {token : LexToken} (h : IsToken token) : solid token.pyload ≠ [] := by
  obtain ⟨text, hreads⟩ := h
  rw [solid_pyload hreads]
  have hmem : ∃ c ∈ text, c ≠ 0x20 := by
    cases hreads with
    | devider hc =>
      have hkind : ∀ c ∈ deviders, c ≠ 0x20 := by decide
      exact ⟨_, List.mem_cons_self, hkind _ hc⟩
    | operator hop =>
      obtain ⟨hne, hchars⟩ := symbolTexts_chars hop
      obtain ⟨c, hc⟩ := List.exists_mem_of_ne_nil _ hne
      obtain ⟨-, -, -, -, -, -, -, hspace, -⟩ := operators_kind c (hchars c hc)
      exact ⟨c, hc, hspace⟩
    | word hmem =>
      obtain ⟨-, -, hne, hchars⟩ := words_shape _ hmem
      obtain ⟨c, hc⟩ := List.exists_mem_of_ne_nil _ hne
      exact ⟨c, List.mem_of_mem_dropLast hc, (hchars c hc).2.2.2.2.1⟩
    | text htext =>
      obtain ⟨c, rest, rfl, hholds⟩ := text_front htext
      refine ⟨c, List.mem_cons_self, ?_⟩
      rintro rfl
      rw [not_holds rfl rfl (inExponent_of_ne (by decide)) (.inl rfl)] at hholds
      cases hholds
  obtain ⟨c, hc, hne⟩ := hmem
  exact List.ne_nil_of_mem (List.mem_filter.mpr ⟨hc, bne_iff_ne.mpr hne⟩)

/-- **No character of a statement is read twice, and none is passed over but spaces and what is
behind the last token.** -/
theorem solid_getTokens (line : CString) : solid (text (getTokens line)) <+: solid line := by
  induction hn : line.length using Nat.strong_induction_on generalizing line with
  | _ n ih =>
    subst hn
    match line with
    | [] => exact List.prefix_refl _
    | c :: rest =>
      rcases getTokens_cases c rest with
        hnone | ⟨rfl, hspace⟩ | ⟨token, source, line, hreads, hline, heq⟩
      · rw [hnone]
        exact List.nil_prefix
      · rw [hspace, solid_space]
        exact ih rest.length (Nat.lt_succ_self _) rest rfl
      · rw [heq, hline, text_cons, solid_append, solid_append, solid_pyload hreads,
          List.prefix_append_right_inj]
        refine ih line.length ?_ line rfl
        rw [hline, List.length_append]
        exact Nat.lt_add_of_pos_left (List.length_pos_iff.mpr hreads.ne_nil)

/-- How many characters of a line are not spaces. -/
def weight (line : CString) : Nat := (solid line).length

theorem weight_append (a b : CString) : weight (a ++ b) = weight a + weight b := by
  rw [weight, solid_append, List.length_append]
  rfl

theorem weight_pos {token : LexToken} (h : IsToken token) : 0 < weight token.pyload :=
  List.length_pos_iff.mpr (solid_ne_nil h)

/-- The first tokens weigh less than all of them. -/
theorem weight_text_take (tokens : List LexToken) (htokens : ∀ token ∈ tokens, IsToken token)
    (k : Nat) : weight (text (tokens.take k)) + (tokens.length - k) ≤ weight (text tokens) := by
  induction tokens generalizing k with
  | nil => simp [text]
  | cons token tokens ih =>
    have hpos := weight_pos (htokens token List.mem_cons_self)
    have hrest := ih fun token' hmem => htokens token' (List.mem_cons_of_mem _ hmem)
    match k with
    | 0 =>
      have hall := hrest 0
      rw [List.take_zero] at hall ⊢
      rw [text_cons, weight_append, List.length_cons]
      omega
    | k + 1 =>
      have hall := hrest k
      rw [List.take_succ_cons, text_cons, text_cons, weight_append, weight_append,
        List.length_cons]
      omega

theorem weight_getTokens (line : CString) : weight (text (getTokens line)) ≤ weight line :=
  (solid_getTokens line).length_le

/-- A character of a token that is no space is one of the statement. -/
theorem mem_of_pyload {line : CString} {token : LexToken} (h : token ∈ getTokens line)
    {c : BitVec 8} (hc : c ∈ token.pyload) (hspace : c ≠ 0x20) : c ∈ line := by
  have htext : c ∈ text (getTokens line) := List.mem_flatMap.mpr ⟨token, h, hc⟩
  have hsolid : c ∈ solid (text (getTokens line)) :=
    List.mem_filter.mpr ⟨htext, bne_iff_ne.mpr hspace⟩
  exact (List.mem_filter.mp ((solid_getTokens line).subset hsolid)).1

/-- Every token stands in the statement. -/
theorem reads_of_mem {line : CString} {token : LexToken} (h : token ∈ getTokens line) :
    ∃ source, Reads token source ∧ source <:+: line := by
  induction hn : line.length using Nat.strong_induction_on generalizing line with
  | _ n ih =>
    subst hn
    match line with
    | [] => cases h
    | c :: rest =>
      rcases getTokens_cases c rest with
        hnone | ⟨-, hspace⟩ | ⟨first, source, line, hreads, hline, heq⟩
      · rw [hnone] at h
        cases h
      · rw [hspace] at h
        obtain ⟨source, hreads, hstands⟩ := ih rest.length (Nat.lt_succ_self _) h rfl
        exact ⟨source, hreads, hstands.trans (List.suffix_cons c rest).isInfix⟩
      · rw [heq, List.mem_cons] at h
        rcases h with rfl | h
        · exact ⟨source, hreads, hline ▸ (List.prefix_append source line).isInfix⟩
        · have hlt : line.length < (c :: rest).length := by
            rw [hline, List.length_append]
            exact Nat.lt_add_of_pos_left (List.length_pos_iff.mpr hreads.ne_nil)
          obtain ⟨source', hreads', hstands⟩ := ih line.length hlt h rfl
          exact ⟨source', hreads', hstands.trans (hline ▸ (List.suffix_append source line).isInfix)⟩

/-! ### A line of tokens -/

/-- **The texts of some tokens have them as their tokens just when each can be told from the
next.** -/
theorem getTokens_text_iff {tokens : List LexToken} (h : ∀ token ∈ tokens, IsToken token) :
    getTokens (text tokens) = tokens ↔ Clean tokens := by
  induction tokens with
  | nil => exact iff_of_true rfl trivial
  | cons token tokens ih =>
    rw [text_cons, getTokens_front_iff (h token List.mem_cons_self), Clean,
      ← ih fun token' htoken => h token' (List.mem_cons_of_mem token htoken)]
    exact and_congr_right' eq_comm

/-! ### Neighbours -/

theorem deviders_kind : ∀ c ∈ deviders, isWord c = false ∧ c ≠ 0x20 ∧ c ∉ operators ∧
    isQuote c = false ∧ c ≠ 0x2d ∧ c ≠ 0x1f := by decide

/-- A word has its only space at its end. -/
theorem wordTail_space {tail : CString} (h : WordTail tail) :
    (0x20 : BitVec 8) ∉ tail.dropLast := by
  obtain ⟨hne, word, hmem, front, -, htext⟩ := h
  obtain ⟨letters, hletters, hchars⟩ := word_letters hmem
  intro hspace
  have hdrop : word.text.dropLast = front ++ tail.dropLast := by
    rw [htext, List.dropLast_append_of_ne_nil hne]
  rw [hletters, List.dropLast_concat] at hdrop
  exact (hchars 0x20 (hdrop ▸ List.mem_append_right front hspace)).2.1 rfl

/-- A word that stands behind a token begins in the next one and ends in it. -/
theorem prefix_of_breaks {s : State} {pyload line tail : CString} (hb : Breaks s pyload)
    (htail : WordTail tail) (h : tail <+: pyload ++ line) : tail <+: pyload := by
  have hhead : ∀ c rest, pyload = c :: rest → isWord c = false → tail <+: pyload := by
    rintro c rest rfl hword
    rcases htail.cases h with ⟨rfl, rfl⟩ | ⟨-, hc⟩
    · exact ⟨rest, rfl⟩
    · rw [hword] at hc
      cases hc
  cases hb with
  | space rest => exact hhead _ _ rfl (by decide)
  | devider hc rest => exact hhead _ _ rfl (deviders_kind _ hc).1
  | operator hc _ rest =>
    have hkind : ∀ c ∈ operators, isWord c = false := by decide
    exact hhead _ _ rfl (hkind _ hc)
  | word hmem _ hfront =>
    rename_i word
    rcases List.prefix_or_prefix_of_prefix h (hfront.trans (List.prefix_append _ _)) with h' | h'
    · exact h'.trans hfront
    · obtain ⟨more, rfl⟩ := h'
      match more, htail with
      | [], _ => rwa [List.append_nil]
      | c :: more, htail =>
        obtain ⟨letters, hletters, -⟩ := word_letters hmem
        refine absurd ?_ (wordTail_space htail)
        rw [List.dropLast_append_of_ne_nil (List.cons_ne_nil c more), hletters]
        simp

theorem pyload_ne_nil {token : LexToken} (h : IsToken token) : token.pyload ≠ [] := by
  intro hnil
  have hpos := weight_pos h
  rw [hnil] at hpos
  exact absurd hpos (Nat.lt_irrefl 0)

/-- **Whether a token can be told from those behind it, the next one decides.** -/
theorem clean_cons_cons {a b : LexToken} {tokens : List LexToken} (ha : IsToken a)
    (hb : ∀ token ∈ b :: tokens, IsToken token) :
    Clean (a :: b :: tokens) ↔ Joins a b.pyload ∧ Clean (b :: tokens) := by
  refine and_congr_left fun hclean => ?_
  have hne := pyload_ne_nil (hb b List.mem_cons_self)
  obtain ⟨c, rest, hpyload⟩ := List.exists_cons_of_ne_nil hne
  rw [text_cons]
  obtain ⟨source, hreads⟩ := ha
  cases hreads with
  | devider => exact Iff.rfl
  | operator hop =>
    rw [hpyload]
    exact Iff.rfl
  | word hmem =>
    rename_i word
    obtain ⟨htype, hnot, -⟩ := words_type word hmem
    unfold Joins
    rcases htype with htype | htype
    · rw [htype]
      exact iff_of_true (fun hop => absurd hop hnot) fun hop => absurd hop hnot
    · rw [htype]
  | text htext =>
    rw [joins_text, joins_text]
    refine imp_congr_right fun hstring => ?_
    have hpending : Pending start source := by
      cases htext with
      | opened _ hpending => exact hpending
      | closed _ hquote =>
        rw [reading_closed hquote] at hstring
        cases hstring
    rw [if_neg (List.append_ne_nil_of_left_ne_nil hne _), if_neg hne]
    constructor
    · rintro ⟨hwordless, hbreaks⟩
      refine ⟨hwordless.mono hpending fun _ tail _ hfront =>
        hfront.trans (List.prefix_append _ _), ?_⟩
      rw [hpyload] at hbreaks ⊢
      rw [List.cons_append] at hbreaks
      generalize hline : c :: (rest ++ text tokens) = line at hbreaks
      cases hbreaks with
      | space =>
        obtain rfl := (List.cons.inj hline).1
        exact .space _
      | devider hc =>
        obtain rfl := (List.cons.inj hline).1
        exact .devider hc _
      | operator hc hexponent =>
        obtain rfl := (List.cons.inj hline).1
        exact .operator hc hexponent _
      | word hmem hcn1 hfront =>
        rename_i word
        obtain ⟨more, hmore⟩ := hfront
        have hread : getTokens (text (b :: tokens)) = b :: tokens :=
          (getTokens_text_iff hb).mpr hclean
        rw [text_cons, hpyload, List.cons_append, hline, ← hmore, getTokens_word hmem] at hread
        have htoken := (List.cons.inj hread).1
        rcases (words_type word hmem).2.2 with hword | hword
        · rw [← hpyload, ← htoken, hword]
          exact .word hmem hcn1 (List.prefix_refl _)
        · rw [← hpyload, ← htoken, hword]
          exact .space _
    · rintro ⟨hwordless, hbreaks⟩
      refine ⟨hwordless.mono hpending fun _ tail htail hfront =>
        prefix_of_breaks hbreaks htail hfront, ?_⟩
      rw [hpyload] at hbreaks ⊢
      cases hbreaks with
      | space => exact .space _
      | devider hc => exact .devider hc _
      | operator hc hexponent => exact .operator hc hexponent _
      | word hmem hcn1 hfront => exact .word hmem hcn1 (hfront.trans (List.prefix_append _ _))

/-- Every token can be told from a devider. -/
theorem joins_devider {token : LexToken} (h : IsToken token) {c : BitVec 8} (hc : c ∈ deviders)
    (line : CString) : Joins token (c :: line) := by
  obtain ⟨hword, hspace, hoperator, -⟩ := deviders_kind c hc
  obtain ⟨source, hreads⟩ := h
  cases hreads with
  | devider => trivial
  | operator hop =>
    intro _ a ha hmem
    obtain rfl : c = a := by simpa using ha
    exact hoperator ((symbolTexts_chars hmem).2 c (by simp))
  | word hmem =>
    rename_i word
    unfold Joins
    rcases (words_type word hmem).1 with htype | htype
    · rw [htype]
      exact fun hop => absurd hop (words_type word hmem).2.1
    · rw [htype]
      trivial
  | text htext =>
    rw [joins_text]
    intro hstring
    rw [if_neg (List.cons_ne_nil c line)]
    cases htext with
    | closed _ hquote =>
      rw [reading_closed hquote] at hstring
      cases hstring
    | opened _ hpending => exact ⟨wordless_of_head hpending hspace hword line, .devider hc line⟩

/-- A devider keeps the tokens in front of it apart from those behind it. -/
theorem Clean.append_devider {a b : List LexToken} (ha : ∀ token ∈ a, IsToken token)
    (hb : ∀ token ∈ b, IsToken token) (hcleana : Clean a) (hcleanb : Clean b) {c : BitVec 8}
    (hc : c ∈ deviders) : Clean (a ++ ⟨.devider, [c]⟩ :: b) := by
  have hdevider : IsToken ⟨.devider, [c]⟩ := ⟨[c], .devider hc⟩
  induction a with
  | nil => exact ⟨trivial, hcleanb⟩
  | cons token a ih =>
    have htoken := ha token List.mem_cons_self
    have hrest := ih (fun token' hmem => ha token' (List.mem_cons_of_mem _ hmem)) hcleana.2
    match a, ha, hcleana, hrest with
    | [], _, _, hrest => exact ⟨joins_devider htoken hc (text b), hrest⟩
    | token' :: a, ha, hcleana, hrest =>
      have hjoins := ((clean_cons_cons htoken fun token hmem =>
        ha token (List.mem_cons_of_mem _ hmem)).mp hcleana).1
      refine (clean_cons_cons htoken fun token hmem => ?_).mpr ⟨hjoins, hrest⟩
      rcases List.mem_append.mp (show token ∈ (token' :: a) ++ _ :: b from hmem) with hmem | hmem
      · exact ha token (List.mem_cons_of_mem _ hmem)
      · rcases List.mem_cons.mp hmem with rfl | hmem
        · exact hdevider
        · exact hb token hmem

/-- A token that begins like a devider is one. -/
theorem eq_devider {token : LexToken} (h : IsToken token) {c : BitVec 8} (hc : c ∈ deviders)
    (hhead : token.pyload.head? = some c) : token = ⟨.devider, [c]⟩ := by
  obtain ⟨source, hreads⟩ := h
  cases hreads with
  | devider =>
    obtain rfl := Option.some.inj hhead
    rfl
  | operator hop =>
    exact absurd ((symbolTexts_chars hop).2 c (List.mem_of_head? hhead)) (deviders_kind c hc).2.2.1
  | word hmem =>
    have hwords : ∀ word ∈ words, ∀ c ∈ deviders, word.token.pyload.head? ≠ some c := by
      decide +kernel
    exact absurd hhead (hwords _ hmem c hc)
  | text htext =>
    obtain ⟨a, rest, rfl, hholds⟩ := text_front htext
    obtain rfl := Option.some.inj hhead
    obtain ⟨-, -, -, hquote, hne, -⟩ := deviders_kind a hc
    rw [not_holds rfl hquote (inExponent_of_ne hne) (.inr (.inr (.inl hc)))] at hholds
    cases hholds

/-- A symbol or a literal begins like neither a space, a devider nor an operator. -/
theorem front_kind {token : LexToken} (h : IsToken token)
    (htype : token.type = .symbol ∨ token.type = .literal) {c : BitVec 8}
    (hhead : token.pyload.head? = some c) : c ≠ 0x20 ∧ c ∉ deviders ∧ c ∉ operators := by
  obtain ⟨source, hreads⟩ := h
  cases hreads with
  | devider => rcases htype with htype | htype <;> cases htype
  | operator => rcases htype with htype | htype <;> cases htype
  | word hmem =>
    rename_i word
    rcases (words_type word hmem).1 with hword | hword <;> rw [hword] at htype <;>
      rcases htype with htype | htype <;> cases htype
  | text htext =>
    obtain ⟨a, rest, rfl, hholds⟩ := text_front htext
    obtain rfl := Option.some.inj hhead
    have hkind : ∀ a ∈ 0x20 :: deviders ++ operators, holds start a = false := by decide +kernel
    have hnot : a ∉ 0x20 :: deviders ++ operators := fun hmem => by
      rw [hkind a hmem] at hholds
      cases hholds
    simpa [not_or, and_assoc] using hnot

theorem Clean.of_append {a b : List LexToken} (h : Clean (a ++ b)) : Clean b := by
  induction a with
  | nil => exact h
  | cons token a ih => exact ih h.2

/-- Other tokens can stand behind some that they can be told from. -/
theorem Clean.replace {a b c : List LexToken} {x y : LexToken}
    (hreads : ∀ token ∈ a ++ x :: b, IsToken token) (hreads' : ∀ token ∈ y :: c, IsToken token)
    (h : Clean (a ++ x :: b)) (hclean : Clean (y :: c))
    (hjoins : ∀ last ∈ a.getLast?, Joins last y.pyload) : Clean (a ++ y :: c) := by
  induction a with
  | nil => exact hclean
  | cons token a ih =>
    have htoken := hreads token List.mem_cons_self
    have hrest : ∀ token ∈ a ++ x :: b, IsToken token := fun token hmem =>
      hreads token (List.mem_cons_of_mem _ hmem)
    match a, ih, hjoins, h, hrest with
    | [], _, hjoins, _, _ => exact (clean_cons_cons htoken hreads').mpr ⟨hjoins token rfl, hclean⟩
    | next :: a, ih, hjoins, h, hrest =>
      rw [List.getLast?_cons_cons] at hjoins
      refine (clean_cons_cons htoken fun token hmem => ?_).mpr
        ⟨((clean_cons_cons htoken hrest).mp h).1, ih hrest h.2 hjoins⟩
      rcases List.mem_append.mp (show token ∈ (next :: a) ++ y :: c from hmem) with hmem | hmem
      · exact hrest token (List.mem_append_left _ hmem)
      · exact hreads' token hmem

end PikaScript.Lexer
