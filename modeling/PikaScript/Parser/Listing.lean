import PikaScript.Parser.SubStmt

/-! What the parser makes of the items of a list in brackets.

A list has fields between its commas, and a loop pops one field after the other. It does so as
long as it counts the brackets around a comma right: they are counted in eight bits. The parser
has the statements from `Cursor_getCleanStmt` and from loops like these, which write tokens one
behind the other; so a part of a statement has no characters but those of its tokens. -/
namespace PikaScript.SubStmt
open Lexer
open Cursor (rise height depth depth_eq Walks)

/-! ### What is in a list -/

/-- Each such delimiter stands in brackets, when so many are open in front of the tokens. -/
def Within (delimiter : CString) : Int → List LexToken → Prop
  | _, [] => True
  | opened, token :: tokens =>
    (token.pyload = delimiter → 0 < opened + rise token.pyload) ∧
      Within delimiter (opened + rise token.pyload) tokens

/-- A part of a statement: it has no characters but those of its tokens, its brackets are closed,
and it has no such delimiter outside of them. -/
structure IsPart (delimiter part : CString) : Prop where
  ne : part ≠ []
  text : Lexer.text (getTokens part) = part
  closed : height (getTokens part) = 0
  within : Within delimiter 0 (getTokens part)

/-- The commas of an item that are counted as if they were outside of brackets. -/
def counted : BitVec 8 → List LexToken → Nat
  | _, [] => 0
  | bracket_deepth, token :: tokens =>
    let bracket_deepth := Cursor.deepen token.pyload bracket_deepth
    (if subStops bracket_deepth && token.pyload == charComma then 1 else 0) +
      counted bracket_deepth tokens

/-- The key and the value of an entry. -/
structure IsEntry (key value : CString) : Prop where
  key : IsPart charColon key
  ne : value ≠ []
  text : Lexer.text (getTokens value) = value

/-- A list in a statement: the arguments of a call, with the name of what is called, or the items
of a tuple, without one; the items of a list; the entries of a dict; the parameters of a `def`,
with what is in front of the brackets and behind them. -/
inductive Listing where
  | call (sMethod : CString) (items : List CString)
  | list (items : List CString)
  | dict (entries : List (CString × CString))
  | define (sName sEnd : CString) (items : List CString)

namespace Listing

def items : Listing → List CString
  | call _ items => items
  | list items => items
  | dict entries => entries.map fun entry => entry.1 ++ charColon ++ entry.2
  | define _ _ items => items

/-- The sub-statements that it stands for. -/
def subStmts : Listing → List CString
  | dict entries => entries.flatMap fun entry => [entry.1, entry.2]
  | listing => listing.items

/-- What is between the brackets. -/
def between (listing : Listing) (trailing : Bool) : CString :=
  charComma.intercalate listing.items ++ if trailing then charComma else []

/-- The statement. -/
def stmt (trailing : Bool) : Listing → CString
  | call sMethod items => sMethod ++ 0x28 :: ((call sMethod items).between trailing ++ [0x29])
  | list items => 0x5b :: ((list items).between trailing ++ [0x5d])
  | dict entries => 0x7b :: ((dict entries).between trailing ++ [0x7d])
  | define sName sEnd items =>
    sName ++ 0x28 :: ((define sName sEnd items).between trailing ++ 0x29 :: sEnd)

/-- What the parser makes of such a statement. -/
def parse : Listing → CString → Option (List CString)
  | call _ _ => fun sStmt => (parseMethod sStmt).map fun r => r.2.1
  | list _ => parseList
  | dict _ => parseDict
  | define _ _ _ => defItems

/-- The items are items, and the brackets are those of the list. -/
def Valid (trailing : Bool) (listing : Listing) : Prop :=
  (∀ item ∈ listing.items, IsPart charComma item) ∧ (trailing → listing.items ≠ []) ∧
    match listing with
    | call sMethod _ => 0x28 ∉ sMethod
    | list _ => True
    | dict entries => ∀ entry ∈ entries, IsEntry entry.1 entry.2
    | define sName sEnd _ => 0x28 ∉ sName ∧ 0x29 ∉ sEnd

/-- No comma in an item stands at a depth at which the loop takes it for the end. -/
def Flat (stops : BitVec 8 → Bool) (listing : Listing) : Prop :=
  ∀ item ∈ listing.items, Shallow stops charComma 0 (getTokens item)

/-- The lists that the parser makes the right sub-statements of. -/
def Fits (trailing : Bool) (listing : Listing) : Prop :=
  match listing with
  | call _ items => Walks (listing.between trailing ++ charComma) ∧ listing.Flat subStops ∧
      items.length + trailing.toNat < 256
  | list items => Walks (listing.between trailing ++ charComma) ∧ listing.Flat subStops ∧
      items ≠ [] ∧ trailing = false
  | dict entries => Walks (listing.between trailing ++ charComma) ∧ listing.Flat subStops ∧
      (∀ entry ∈ entries, Shallow subStops charColon 0 (getTokens entry.1)) ∧
        entries ≠ [] ∧ trailing = false
  | define _ _ items => Walks (listing.between trailing) ∧ listing.Flat tokenStops ∧
      0 < items.length ∧ items.length ≤ 256 ∧
        ((items.map fun item => counted 0 (getTokens item)).sum + trailing.toNat) % 256 = 0

end Listing

/-! ### The fields between the commas -/

/-- The token between two items. -/
def comma : LexToken := ⟨.devider, charComma⟩

/-- The tokens of some fields, with commas between them. -/
def line : List (List LexToken) → List LexToken
  | [] => []
  | [field] => field
  | field :: fields => field ++ comma :: line fields

structure IsField (field : List LexToken) : Prop where
  tokens : ∀ token ∈ field, IsToken token
  clean : Clean field
  closed : height field = 0

theorem line_cons (field : List LexToken) {fields : List (List LexToken)} (h : fields ≠ []) :
    line (field :: fields) = field ++ comma :: line fields := by
  match fields, h with
  | _ :: _, _ => rfl

theorem line_front (field : List LexToken) (fields : List (List LexToken)) :
    ∃ rest, line (field :: fields) = field ++ rest := by
  match fields with
  | [] => exact ⟨[], (List.append_nil _).symm⟩
  | field' :: fields => exact ⟨_, line_cons field (List.cons_ne_nil _ _)⟩

theorem line_isToken {fields : List (List LexToken)} (h : ∀ field ∈ fields, IsField field) :
    ∀ token ∈ line fields, IsToken token := by
  match fields with
  | [] => exact fun token hmem => absurd hmem List.not_mem_nil
  | [field] => exact (h field List.mem_cons_self).tokens
  | field :: field' :: fields =>
    intro token hmem
    rcases List.mem_append.mp hmem with hmem | hmem
    · exact (h field List.mem_cons_self).tokens token hmem
    · rcases List.mem_cons.mp hmem with rfl | hmem
      · exact ⟨charComma, .devider (by decide)⟩
      · exact line_isToken (fun field hfield => h field (List.mem_cons_of_mem _ hfield)) token hmem

theorem line_clean {fields : List (List LexToken)} (h : ∀ field ∈ fields, IsField field) :
    Clean (line fields) := by
  match fields with
  | [] => exact trivial
  | [field] => exact (h field List.mem_cons_self).clean
  | field :: field' :: fields =>
    have hfield := h field List.mem_cons_self
    have hfields : ∀ field ∈ field' :: fields, IsField field := fun field hmem =>
      h field (List.mem_cons_of_mem _ hmem)
    exact Clean.append_devider hfield.tokens (line_isToken hfields) hfield.clean
      (line_clean hfields) (by decide)

/-- **A list is read as its fields.** -/
theorem getTokens_line {fields : List (List LexToken)} (h : ∀ field ∈ fields, IsField field) :
    getTokens (text (line fields)) = line fields :=
  (getTokens_text_iff (line_isToken h)).mpr (line_clean h)

/-! ### Popping fields -/

theorem IsField.depth_zero {field : List LexToken} (h : IsField field) : depth field 0 = 0 := by
  rw [depth_eq, h.closed]
  rfl

variable {ends : Cursor.Iter → Bool} {stops : BitVec 8 → Bool}

/-- Tokens in front of a delimiter outside of brackets are popped. -/
theorem cut_field (hstops : stops 0 = true) {c : BitVec 8} (hc : c = 0x2c ∨ c = 0x3a)
    {field : List LexToken} (hfield : IsField field) (hshallow : Shallow stops [c] 0 field)
    (rest : List LexToken) :
    cut stops [c] 0 (field ++ ⟨.devider, [c]⟩ :: rest) = (field, rest) := by
  have hdeepen : Cursor.deepen [c] 0 = 0 := by
    rcases hc with rfl | rfl <;> decide
  have hends : (stops (Cursor.deepen [c] 0) && [c] == [c]) = true := by
    rw [hdeepen, hstops, beq_self_eq_true]
    rfl
  rw [cut_shallow hshallow, hfield.depth_zero, cut_ends hends, List.append_nil]

/-- Only tokens are popped whole that have no delimiter at such a depth. -/
theorem shallow_of_cut {delimiter : CString} {field rest : List LexToken}
    {bracket_deepth : BitVec 8} (hfield : IsField field)
    (h : weight (text field) ≤
      weight (text (cut stops delimiter bracket_deepth (field ++ rest)).1)) :
    Shallow stops delimiter bracket_deepth field := by
  by_contra hdeep
  obtain ⟨back, hne, heq⟩ := cut_deep hdeep rest
  rw [heq, text_append, weight_append, ← heq] at h
  have hpos : 0 < weight (text back) := by
    obtain ⟨token, tokens, rfl⟩ := List.exists_cons_of_ne_nil hne
    have htoken : IsToken token :=
      hfield.tokens token (heq ▸ List.mem_append_right _ List.mem_cons_self)
    rw [text_cons, weight_append]
    exact Nat.add_pos_left (weight_pos htoken) _
  omega

/-- What `pop` makes of a list is what `cut` makes of its fields. -/
theorem pop_cut (hends : EndsBy ends stops charComma) {fields : List (List LexToken)}
    (hfields : ∀ field ∈ fields, IsField field) (hwalks : Walks (text (line fields))) :
    pop ends (text (line fields)) = (text (cut stops charComma 0 (line fields)).1,
      text (cut stops charComma 0 (line fields)).2) := by
  rw [pop, split_forEach hends hwalks.plain hwalks.2, getTokens_line hfields]

/-- **A field is popped, and the others are left.** -/
theorem pop_line (hends : EndsBy ends stops charComma) (hstops : stops 0 = true)
    {field : List LexToken} {fields : List (List LexToken)}
    (hfields : ∀ field' ∈ field :: fields, IsField field')
    (hwalks : Walks (text (line (field :: fields))))
    (hshallow : Shallow stops charComma 0 field) :
    pop ends (text (line (field :: fields))) = (text field, text (line fields)) := by
  rw [pop_cut hends hfields hwalks]
  match fields with
  | [] =>
    have hcut := cut_shallow hshallow []
    rw [List.append_nil, cut, List.append_nil] at hcut
    have hline : line [field] = field := rfl
    rw [hline, hcut]
    rfl
  | field' :: fields =>
    rw [line_cons field (List.cons_ne_nil _ _), comma, charComma,
      cut_field hstops (.inl rfl) (hfields field List.mem_cons_self) hshallow]

/-- Only a field is popped whole that has no comma at such a depth. -/
theorem shallow_of_pop (hends : EndsBy ends stops charComma) {field : List LexToken}
    {fields : List (List LexToken)} (hfields : ∀ field' ∈ field :: fields, IsField field')
    (hwalks : Walks (text (line (field :: fields))))
    (hpop : weight (text field) ≤ weight (pop ends (text (line (field :: fields)))).1) :
    Shallow stops charComma 0 field := by
  obtain ⟨rest, hrest⟩ := line_front field fields
  rw [pop_cut hends hfields hwalks, hrest] at hpop
  exact shallow_of_cut (hfields field List.mem_cons_self) hpop

theorem Walks.line_tail {field : List LexToken} {fields : List (List LexToken)}
    (hfields : ∀ field' ∈ field :: fields, IsField field')
    (h : Walks (text (line (field :: fields)))) : Walks (text (line fields)) := by
  match fields with
  | [] => exact ⟨List.not_mem_nil, Nat.zero_lt_succ _⟩
  | field' :: fields =>
    obtain ⟨hplain, hlength⟩ := h
    rw [getTokens_line hfields] at hlength
    rw [line_cons field (List.cons_ne_nil _ _)] at hplain hlength
    rw [text_append, text_cons, List.mem_append, List.mem_append, not_or, not_or] at hplain
    rw [List.length_append, List.length_cons] at hlength
    refine ⟨hplain.2.2, ?_⟩
    rw [getTokens_line fun field hmem => hfields field (List.mem_cons_of_mem _ hmem)]
    omega

/-- Sub-statements of which each is at least as heavy as the field in its place. -/
def Covers : List (List LexToken) → List CString → Prop
  | [], _ => True
  | _ :: _, [] => False
  | field :: fields, sub :: subStmts =>
    weight (text field) ≤ weight sub ∧ Covers fields subStmts

theorem Covers.le {fields : List (List LexToken)} {subStmts : List CString}
    (h : Covers fields subStmts) : fields.length ≤ subStmts.length ∧
      (fields.map fun field => weight (text field)).sum ≤ weight subStmts.flatten := by
  induction fields generalizing subStmts with
  | nil => exact ⟨Nat.zero_le _, Nat.zero_le _⟩
  | cons field fields ih =>
    match subStmts, h with
    | sub :: subStmts, h =>
      obtain ⟨hlength, hweight⟩ := ih h.2
      have hfirst := h.1
      rw [List.map_cons, List.sum_cons, List.flatten_cons, weight_append, List.length_cons,
        List.length_cons]
      omega

/-- **Fields that are popped one after the other have no comma at such a depth.** -/
theorem Pops.shallow (hends : EndsBy ends stops charComma) (hstops : stops 0 = true)
    {fields more : List (List LexToken)} (hfields : ∀ field ∈ fields ++ more, IsField field)
    (hwalks : Walks (text (line (fields ++ more)))) {subStmts : List CString}
    (h : Pops ends (text (line (fields ++ more))) subStmts) (hcovers : Covers fields subStmts) :
    ∀ field ∈ fields, Shallow stops charComma 0 field := by
  induction fields generalizing subStmts with
  | nil => exact fun field hmem => absurd hmem List.not_mem_nil
  | cons field fields ih =>
    rw [List.cons_append] at hfields hwalks h
    cases h with
    | nil => exact hcovers.elim
    | cons h =>
      have hshallow := shallow_of_pop hends hfields hwalks hcovers.1
      rw [pop_line hends hstops hfields hwalks hshallow] at h
      intro field' hmem
      rcases List.mem_cons.mp hmem with rfl | hmem
      · exact hshallow
      · exact ih (fun field hmem => hfields field (List.mem_cons_of_mem _ hmem))
          (Walks.line_tail hfields hwalks) h hcovers.2 field' hmem

/-! ### Counting commas -/

/-- The fields of a list: its items, with one more behind a trailing comma. A list without items
has one. -/
def fields (items : List CString) (trailing : Bool) : List (List LexToken) :=
  if items = [] then [[]] else items.map getTokens ++ if trailing then [[]] else []

open Listing
variable {items : List CString} {trailing : Bool}

theorem Walks.field {field : List LexToken} {fields : List (List LexToken)}
    (hfields : ∀ field' ∈ fields, IsField field') (h : Walks (text (line fields)))
    (hmem : field ∈ fields) : Walks (text field) := by
  induction fields with
  | nil => cases hmem
  | cons first fields ih =>
    rcases List.mem_cons.mp hmem with rfl | hmem
    · have htokens : getTokens (text field) = field :=
        (getTokens_text_iff (hfields field List.mem_cons_self).tokens).mpr
          (hfields field List.mem_cons_self).clean
      have hlength := h.2
      rw [getTokens_line hfields] at hlength
      match fields with
      | [] => exact h
      | field' :: fields =>
        rw [line_cons field (List.cons_ne_nil _ _), List.length_append] at hlength
        have hplain := h.1
        rw [line_cons field (List.cons_ne_nil _ _), text_append, List.mem_append, not_or] at hplain
        exact ⟨hplain.1, by rw [htokens]; omega⟩
    · exact ih (fun field hfield => hfields field (List.mem_cons_of_mem _ hfield))
        (Walks.line_tail hfields h) hmem

/-- The token between a key and its value. -/
def colon : LexToken := ⟨.devider, charColon⟩

variable {key value : CString}

end PikaScript.SubStmt
