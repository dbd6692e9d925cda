import PikaScript.Text.Writer

/-! `strsAddIndentation` of `dataStrs.c`.

The buffer is sized by the newlines, with a line more than there may be; the writer looks back for
them. Both count with `int`s.

`strsAddIndentation_iff`: the lines are indented just when the `int` that is computed for the size
does not wrap. -/
namespace PikaScript
open Memory Replace Writer

namespace Indent

/-! ### The code -/

def newline : BitVec 8 := 0x0a

def space : BitVec 8 := 0x20

/-- The loop of `_add_indentation`, with the character in front of the rest of its input, if there
is one. -/
def addIndentationLoop (spaces : Int) :
    Option (BitVec 8) → CString → Bytes → Int → Option (Bytes × Int)
  | _, [], output, j => some (output, j)
  | prev, c :: cs, output, j => do
    let r ← (if prev = none ∨ prev = some newline
      then putLoop (List.replicate spaces.toNat space) output j else some (output, j))
    let r ← putLoop [c] r.1 r.2
    addIndentationLoop spaces (some c) cs r.1 r.2

/-- `_add_indentation`. None when it writes outside. -/
def addIndentation (input : CString) (spaces : Int) (output : Bytes) : Option Bytes :=
  if spaces < 0 then some output
  else (addIndentationLoop spaces none input output 0).bind fun r => storeAt r.1 r.2 [0]

/-- `output_length` of `strsAddIndentation`. -/
def outputLength (str : CString) (spaces : Int) : Int :=
  let lines := s32 (1 + str.count newline)
  s32 (str.length + s32 (spaces * lines))

/-- `strsAddIndentation`. None when it writes outside its buffer. -/
def strsAddIndentation (str : CString) (spaces : Int) : Option CString :=
  (addIndentation str spaces (argsGetBuff (s32 (outputLength str spaces + 1)))).bind untilZero

/-! ### What it is for -/

/-- The lines of a text, each with the newline that ends it. The last one may have none, and is
not empty. -/
inductive IsLines : CString → List CString → Prop where
  | nil : IsLines [] []
  | last {line : CString} (hne : line ≠ []) (h : newline ∉ line) : IsLines line [line]
  | cons {body rest : CString} {lines : List CString} (h : newline ∉ body)
      (hrest : IsLines rest lines) :
      IsLines (body ++ newline :: rest) ((body ++ [newline]) :: lines)

/-- Every line has so many spaces in front of it, and is what it was when they are taken away. The
text is no longer than what is computed for it. -/
structure IndentLaw (text : CString) (spaces : Int) (out : CString) : Prop where
  lines : ∃ lines, IsLines text lines ∧
    IsLines out (lines.map (List.replicate spaces.toNat space ++ ·))
  removed : ∃ lines, IsLines out lines ∧ (lines.map (·.drop spaces.toNat)).flatten = text
  within : (out.length : Int) ≤ outputLength text spaces

variable {text : CString} {lines : List CString} {spaces : Int} {output : Bytes}

theorem IsLines.flatten_eq (h : IsLines text lines) : lines.flatten = text := by
  induction h with
  | nil => rfl
  | last => simp
  | cons _ _ ih => simp [ih]

/-- **Every text has its lines.** -/
theorem exists_lines (text : CString) : ∃ lines, IsLines text lines := by
  induction hn : text.length using Nat.strong_induction_on generalizing text with
  | _ n ih =>
    subst hn
    by_cases hmem : newline ∈ text
    · obtain ⟨body, rest, rfl, hbody⟩ := List.eq_append_cons_of_mem hmem
      obtain ⟨lines, hlines⟩ := ih rest.length (by simp; omega) rest rfl
      exact ⟨_, .cons hbody hlines⟩
    · by_cases hnil : text = []
      · exact ⟨[], hnil ▸ .nil⟩
      · exact ⟨[text], .last hnil hmem⟩

/-- There is a newline behind every line but the last. -/
theorem IsLines.length_bounds (h : IsLines text lines) :
    text.count newline ≤ lines.length ∧ lines.length ≤ text.count newline + 1 := by
  induction h with
  | nil => exact ⟨le_rfl, Nat.zero_le _⟩
  | last hne h => simp [List.count_eq_zero_of_not_mem h]
  | @cons body rest lines h _ ih =>
    rw [List.count_append, List.count_cons_self, List.count_eq_zero_of_not_mem h, List.length_cons]
    omega

/-- Lines stay lines with spaces in front of them. -/
theorem IsLines.indent (h : IsLines text lines) (n : Nat) :
    IsLines (lines.map (List.replicate n space ++ ·)).flatten
      (lines.map (List.replicate n space ++ ·)) := by
  have hspaces : newline ∉ List.replicate n space := fun h =>
    absurd (List.eq_of_mem_replicate h) (by decide)
  have hboth : ∀ {body : CString}, newline ∉ body → newline ∉ List.replicate n space ++ body :=
    fun h hmem => (List.mem_append.mp hmem).elim hspaces h
  induction h with
  | nil => exact .nil
  | last hne h =>
    rw [List.map_singleton, List.flatten_singleton]
    exact .last (fun hnil => hne (List.append_eq_nil_iff.mp hnil).2) (hboth h)
  | @cons body rest lines h _ ih =>
    have hcons := IsLines.cons (hboth h) ih
    rwa [← List.singleton_append, ← List.append_assoc, List.append_assoc _ body] at hcons

/-! ### The writer -/

/-- The text in front of which a character stands, indented from there on. -/
def indentFrom (n : Nat) : Option (BitVec 8) → CString → CString
  | _, [] => []
  | prev, c :: cs =>
    (if prev = none ∨ prev = some newline then List.replicate n space else []) ++
      c :: indentFrom n (some c) cs

theorem addIndentationLoop_eq (prev : Option (BitVec 8)) (output : Bytes) (j : Int) :
    addIndentationLoop spaces prev text output j =
      putLoop (indentFrom spaces.toNat prev text) output j := by
  induction text generalizing prev output j with
  | nil => rfl
  | cons c text ih =>
    have hsplit : ∀ pad : CString, pad ++ c :: indentFrom spaces.toNat (some c) text =
        pad ++ ([c] ++ indentFrom spaces.toNat (some c) text) := fun _ => rfl
    rw [addIndentationLoop, indentFrom, hsplit, putLoop_append, Option.bind_eq_bind]
    by_cases hstart : prev = none ∨ prev = some newline
    · rw [if_pos hstart, if_pos hstart]
      refine congrArg _ (funext fun r => ?_)
      rw [putLoop_append]
      exact congrArg _ (funext fun r => ih _ _ _)
    · rw [if_neg hstart, if_neg hstart, putLoop, Option.bind_some, Option.bind_some,
        putLoop_append]
      exact congrArg _ (funext fun r => ih _ _ _)

/-- **The writer writes the indented text.** -/
theorem addIndentation_eq (hspaces : 0 ≤ spaces) : addIndentation text spaces output =
    (putText (indentFrom spaces.toNat none text) output).map (·.1) := by
  rw [addIndentation, if_neg (not_lt.mpr hspaces), addIndentationLoop_eq, putText]
  cases hloop : putLoop (indentFrom spaces.toNat none text) output 0 with
  | none => rfl
  | some r =>
    rw [Option.bind_some, Option.bind_some, Option.map_map]
    exact Option.map_id'.symm

/-- Within a line, nothing is put in front. -/
theorem indentFrom_line (n : Nat) {c : BitVec 8} {body : CString} (hc : c ≠ newline)
    (hbody : newline ∉ body) (rest : CString) : indentFrom n (some c) (body ++ rest) =
      body ++ indentFrom n (some ((c :: body).getLast (List.cons_ne_nil _ _))) rest := by
  induction body generalizing c with
  | nil => rfl
  | cons d body ih =>
    rw [List.mem_cons, not_or] at hbody
    have hnot : ¬(some c = none ∨ some c = some newline) := by simpa using hc
    rw [List.cons_append, indentFrom, if_neg hnot, List.nil_append, ih (Ne.symm hbody.1) hbody.2,
      List.getLast_cons (List.cons_ne_nil _ _)]
    rfl

/-- **The lines come out with the spaces in front of each.** -/
theorem indentFrom_lines (n : Nat) (h : IsLines text lines) {prev : Option (BitVec 8)}
    (hprev : prev = none ∨ prev = some newline) : indentFrom n prev text =
      (lines.map (List.replicate n space ++ ·)).flatten := by
  induction h generalizing prev with
  | nil => rfl
  | @last line hne h =>
    obtain ⟨c, line, rfl⟩ := List.exists_cons_of_ne_nil hne
    rw [List.mem_cons, not_or] at h
    have hline := indentFrom_line n (Ne.symm h.1) h.2 []
    rw [List.append_nil] at hline
    rw [indentFrom, if_pos hprev, hline]
    simp [indentFrom]
  | @cons body rest lines h hrest ih =>
    rw [List.map_cons, List.flatten_cons, ← ih (.inr rfl)]
    cases body with
    | nil => rw [List.nil_append, indentFrom, if_pos hprev]; simp
    | cons c body =>
      rw [List.mem_cons, not_or] at h
      have hlast : (c :: body).getLast (List.cons_ne_nil _ _) ≠ newline := fun heq => by
        have hmem := List.getLast_mem (List.cons_ne_nil c body)
        rw [heq, List.mem_cons] at hmem
        exact hmem.elim h.1 h.2
      have hnot : ¬(some ((c :: body).getLast (List.cons_ne_nil _ _)) = none ∨
          some ((c :: body).getLast (List.cons_ne_nil _ _)) = some newline) := by
        simpa using hlast
      rw [List.cons_append, indentFrom, if_pos hprev, indentFrom_line n (Ne.symm h.1) h.2,
        indentFrom, if_neg hnot]
      simp

/-- What is written is longer by the spaces in front of each line. -/
theorem length_indent (lines : List CString) (n : Nat) :
    (lines.map (List.replicate n space ++ ·)).flatten.length =
      lines.flatten.length + n * lines.length := by
  induction lines with
  | nil => rfl
  | cons line lines ih =>
    simp only [List.map_cons, List.flatten_cons, List.length_append, List.length_replicate,
      List.length_cons, ih, Nat.mul_succ]
    omega

/-! ### The law -/

theorem outputLength_eq (text : CString) (spaces : Int) : outputLength text spaces =
    s32 (text.length + spaces * (1 + text.count newline)) := by
  have hmul : s32 (spaces * s32 (1 + text.count newline)) =
      s32 (spaces * (1 + text.count newline)) := Int.mul_bmod_bmod
  have hadd : s32 (text.length + s32 (spaces * (1 + text.count newline))) =
      s32 (text.length + spaces * (1 + text.count newline)) := Int.add_bmod_bmod
  rw [outputLength, hmul, hadd]

/-- The spaces of so many lines. -/
theorem spaces_mul (hspaces : 0 ≤ spaces) (n : Nat) :
    ((spaces.toNat * n : Nat) : Int) = spaces * n := by
  rw [Int.natCast_mul, Int.toNat_of_nonneg hspaces]

/-- What comes out, in what the `int` that is computed for it allows. -/
theorem length_out_le (hspaces : 0 ≤ spaces) (h : IsLines text lines) :
    ((lines.map (List.replicate spaces.toNat space ++ ·)).flatten.length : Int) ≤
        text.length + spaces * (1 + text.count newline) ∧
      text.length + spaces * (1 + text.count newline) ≤
        (lines.map (List.replicate spaces.toNat space ++ ·)).flatten.length + spaces := by
  obtain ⟨hge, hle⟩ := h.length_bounds
  have hupper : spaces * lines.length ≤ spaces * (1 + text.count newline) :=
    mul_le_mul_of_nonneg_left (by omega) hspaces
  have hlower : spaces * text.count newline ≤ spaces * lines.length :=
    mul_le_mul_of_nonneg_left (by omega) hspaces
  rw [length_indent, h.flatten_eq, Int.natCast_add, spaces_mul hspaces]
  rw [mul_add, mul_one] at hupper ⊢
  omega

theorem not_mem_out (htext : 0 ∉ text) (h : IsLines text lines) (n : Nat) :
    0 ∉ (lines.map (List.replicate n space ++ ·)).flatten := by
  intro hmem
  obtain ⟨out, hout, hzero⟩ := List.mem_flatten.mp hmem
  obtain ⟨line, hline, rfl⟩ := List.mem_map.mp hout
  rcases List.mem_append.mp hzero with hpad | hrest
  · exact absurd (List.eq_of_mem_replicate hpad) (by decide)
  · exact htext (h.flatten_eq ▸ List.mem_flatten.mpr ⟨line, hline, hrest⟩)

/-- **The lines are indented just when** the length that is computed for the text is less than
`2^31`. -/
theorem strsAddIndentation_iff (htext : 0 ∉ text) (hspaces : 0 ≤ spaces) (hlt : spaces < 2 ^ 31) :
    (∃ out, strsAddIndentation text spaces = some out ∧ IndentLaw text spaces out) ↔
      text.length + spaces * (1 + text.count newline) < 2 ^ 31 := by
  obtain ⟨lines, hlines⟩ := exists_lines text
  have hwritten := indentFrom_lines spaces.toNat hlines (.inl rfl)
  obtain ⟨hle, hge⟩ := length_out_le hspaces hlines
  have hcomputed := outputLength_eq text spaces
  constructor
  · rintro ⟨out, hrun, hlaw⟩
    have hwithin := hlaw.within
    obtain ⟨buff, hbuff, -⟩ := Option.bind_eq_some_iff.mp hrun
    rw [addIndentation_eq hspaces, hwritten] at hbuff
    have hshort : (lines.map (List.replicate spaces.toNat space ++ ·)).flatten.length < 2 ^ 31 := by
      by_contra hlong
      rw [putText_long (not_lt.mp hlong)] at hbuff
      cases hbuff
    by_contra hover
    rw [hcomputed, s32_of_over (not_lt.mp hover) (by omega)] at hwithin
    omega
  · intro hfits
    rw [s32_of_fits ⟨by omega, hfits⟩] at hcomputed
    have hbuff := @length_argsGetBuff (outputLength text spaces) (by omega) (by omega)
    have hroom : (lines.map (List.replicate spaces.toNat space ++ ·)).flatten.length <
        (argsGetBuff (s32 (outputLength text spaces + 1))).length := by
      rw [hbuff]
      omega
    refine ⟨_, ?_, ⟨lines, hlines, hlines.indent spaces.toNat⟩,
      ⟨_, hlines.indent spaces.toNat, ?_⟩, by rw [hcomputed]; exact hle⟩
    · rw [strsAddIndentation, addIndentation_eq hspaces, hwritten,
        putText_eq hroom (by omega), Option.map_some, Option.bind_some]
      exact untilZero_append (not_mem_out htext hlines _)
    · rw [List.map_map, ← hlines.flatten_eq]
      refine congrArg _ (List.map_id'' (fun line => ?_) lines)
      simp

theorem strsAddIndentation_iff_two :
    (∃ out, strsAddIndentation [0x61, 0x0a, 0x62] 2 = some out ∧
      IndentLaw [0x61, 0x0a, 0x62] 2 out) ↔
        (([0x61, 0x0a, 0x62] : CString).length : Int) +
          2 * (1 + ([0x61, 0x0a, 0x62] : CString).count newline) < 2 ^ 31 :=
  strsAddIndentation_iff (by decide) (by decide) (by decide)

/-- One letter is not indented by `2^31 - 1` spaces. -/
theorem not_strsAddIndentation : ¬∀ (text : CString) (spaces : Int), 0 ∉ text → 0 ≤ spaces →
    spaces < 2 ^ 31 →
    ∃ out, strsAddIndentation text spaces = some out ∧ IndentLaw text spaces out := by
  intro hall
  obtain ⟨out, hrun, hlaw⟩ := hall [0x61] (2 ^ 31 - 1) (by decide) (by decide) (by decide)
  have hwithin := hlaw.within
  have hcomputed : outputLength [0x61] (2 ^ 31 - 1) = -2 ^ 31 := by decide
  omega

end Indent

end PikaScript
