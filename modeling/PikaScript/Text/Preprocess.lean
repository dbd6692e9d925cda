import PikaScript.Text.Replace

/-! `strsFilePreProcess` of `dataStrs.c`.

Carriage returns and blank lines are taken out of a source by two replacements. The second one
passes once over the text and does not look at what it has written, so that of two blank lines in
a row one is left.

`preprocess_iff`: this, a carriage return at the end of a line, and the sizes of `strsReplace` are
all that can go wrong. -/
namespace PikaScript
open Memory Occurrence Replace

namespace Preprocess

/-! ### The code -/

def newline : BitVec 8 := 0x0a

def carriage : BitVec 8 := 0x0d

/-- `strsFilePreProcess_ex`. None when a function that it calls writes outside, or gives NULL to
the next one. -/
def strsFilePreProcessEx (lines endwith : CString) : Option CString := do
  let lines ← (← Replace.strsReplace lines [carriage, newline] [newline])
  let lines ← (← Replace.strsReplace lines [newline, newline] [newline])
  let lines ← strsAppend lines endwith
  untilZero (← strsCopy lines)

/-- `strsFilePreProcess`. -/
def strsFilePreProcess (lines : CString) : Option CString :=
  strsFilePreProcessEx lines [newline, newline]

/-! ### What it is for -/

section Squeeze
variable {α : Type} [DecidableEq α]

/-- A list with its second entry alone in the place of each pair, from the left on. -/
def squeeze (a b : α) : List α → List α
  | x :: y :: xs =>
    if x = a ∧ y = b then b :: squeeze a b xs else x :: squeeze a b (y :: xs)
  | xs => xs

end Squeeze

/-- The lines of a text. A carriage return in front of a newline belongs to the end of its line. -/
def linesOf (text : CString) : List CString := (squeeze carriage newline text).splitOn newline

def nonBlank (text : CString) : List CString := (linesOf text).filter (· ≠ [])

/-- The gap stands between lines that are not blank. -/
def Inside (gap lines : List CString) : Prop :=
  ∃ front back, lines = front ++ gap ++ back ∧ (∃ l ∈ front, l ≠ []) ∧ ∃ l ∈ back, l ≠ []

/-- What is owed for the text that comes out of another one. -/
structure Cleaned (text out : CString) : Prop where
  noReturn : ¬[carriage, newline] <:+: out
  noBlank : ¬Inside [[]] (linesOf out)
  kept : nonBlank out = nonBlank text

/-- The text that comes out is clean, and stays so when it comes in again. -/
def PreprocessLaw (text : CString) : Prop :=
  ∃ out out', strsFilePreProcess text = some out ∧ Cleaned text out ∧
    strsFilePreProcess out = some out' ∧ nonBlank out' = nonBlank out ∧
    ¬Inside [[]] (linesOf out')

/-- No line ends with a carriage return, apart from its end, and no two blank lines stand in a row
between lines that are not. -/
structure Plain (text : CString) : Prop where
  noReturn : ∀ l ∈ linesOf text, l.getLast? ≠ some carriage
  noGap : ¬Inside [[], []] (linesOf text)

/-- A text with every pair replaced. -/
def squeezed (text : CString) : CString :=
  squeeze newline newline (squeeze carriage newline text)

/-- Both replacements fit, and there is room for what comes out. -/
structure Sized (text : CString) : Prop where
  returns : ∀ items, StrItems [carriage, newline] text items →
    Replace.Fits [carriage, newline] [newline] items
  newlines : ∀ items, StrItems [newline, newline] (squeeze carriage newline text) items →
    Replace.Fits [newline, newline] [newline] items
  whole : (squeezed text).length + 3 < 2 ^ 32

/-! ### Pairs -/

section Squeeze
variable {α : Type} [DecidableEq α] {a b : α} {xs : List α}

theorem mem_squeeze {x : α} (h : x ∈ squeeze a b xs) : x ∈ xs := by
  fun_induction squeeze a b xs with
  | case1 x' y xs hpair ih =>
    rw [List.mem_cons] at h
    rcases h with rfl | h
    · exact List.mem_cons_of_mem _ (hpair.2 ▸ List.mem_cons_self)
    · exact List.mem_cons_of_mem _ (List.mem_cons_of_mem _ (ih h))
  | case2 x' y xs hpair ih =>
    rw [List.mem_cons] at h
    rcases h with rfl | h
    · exact List.mem_cons_self
    · exact List.mem_cons_of_mem _ (ih h)
  | case3 xs => exact h

theorem squeeze_clean (h : ¬[a, b] <:+: xs) : squeeze a b xs = xs := by
  fun_induction squeeze a b xs with
  | case1 x y xs hpair =>
    obtain ⟨rfl, rfl⟩ := hpair
    exact absurd ⟨[], xs, rfl⟩ h
  | case2 x y xs hpair ih =>
    rw [ih fun hoccurs => h (hoccurs.trans (List.suffix_cons _ _).isInfix)]
  | case3 xs => rfl

/-- The first pair is replaced, and what is behind it. -/
theorem squeeze_first {item tail : List α}
    (hfirst : ∀ k < item.length, ¬At [a, b] (item ++ [a, b] ++ tail) k) :
    squeeze a b (item ++ [a, b] ++ tail) = item ++ b :: squeeze a b tail := by
  induction item with
  | nil => exact if_pos ⟨rfl, rfl⟩
  | cons x item ih =>
    have hrest := ih fun k hk => hfirst (k + 1) (Nat.succ_lt_succ hk)
    obtain ⟨y, ys, hys⟩ := List.exists_cons_of_ne_nil
      (fun h => by simp at h : item ++ [a, b] ++ tail ≠ [])
    have hnot : ¬(x = a ∧ y = b) := by
      rintro ⟨rfl, rfl⟩
      exact hfirst 0 (Nat.succ_pos _) ⟨ys, (congrArg (x :: ·) hys).symm⟩
    rw [List.cons_append, List.cons_append, hys, squeeze, if_neg hnot, ← hys, hrest]
    rfl

end Squeeze

variable {text out : CString} {items : List CString} {a b : BitVec 8}

/-- **Replacing the pattern is replacing the pairs.** -/
theorem intercalate_items (h : StrItems [a, b] text items) :
    [b].intercalate items = squeeze a b text := by
  induction items generalizing text with
  | nil => exact absurd rfl h.leftmost.ne_nil
  | cons item items ih =>
    rcases items_cases h with ⟨hone, hclean⟩ | ⟨item', tail, more, hitems, rfl, hmore, hfirst⟩
    · rw [hone, squeeze_clean hclean]
      simp
    · obtain ⟨rfl, rfl⟩ := List.cons.inj hitems
      obtain ⟨next, others, rfl⟩ := List.exists_cons_of_ne_nil hmore.leftmost.ne_nil
      rw [List.intercalate_cons_cons, ih hmore, squeeze_first hfirst]
      simp

/-! ### Lines -/

/-- The lines behind a line, with every blank one that has another behind it taken out, but not
two in a row. -/
def thin : List CString → List CString
  | [] :: m :: rest => m :: thin rest
  | l :: rest => l :: thin rest
  | [] => []

/-- Lines with the blank ones thinned. -/
def thinned : List CString → List CString
  | [] => []
  | l :: rest => l :: thin rest

theorem thinned_modifyHead (x : BitVec 8) (lines : List CString) :
    thinned (lines.modifyHead (x :: ·)) = (thinned lines).modifyHead (x :: ·) := by
  cases lines <;> rfl

/-- **Replacing two newlines by one thins the blank lines.** -/
theorem splitOn_squeeze (text : CString) :
    (squeeze newline newline text).splitOn newline = thinned (text.splitOn newline) := by
  fun_induction squeeze newline newline text with
  | case1 x y text hpair ih =>
    obtain ⟨rfl, rfl⟩ := hpair
    obtain ⟨m, rest, hrest⟩ := List.exists_cons_of_ne_nil (List.splitOn_ne_nil newline text)
    rw [List.splitOn_cons_eq_if_modifyHead, List.splitOn_cons_eq_if_modifyHead,
      List.splitOn_cons_eq_if_modifyHead, if_pos BEq.rfl, if_pos BEq.rfl, ih, hrest]
    rfl
  | case2 x y text hpair ih =>
    rw [List.splitOn_cons_eq_if_modifyHead, List.splitOn_cons_eq_if_modifyHead x, ih]
    by_cases hx : x = newline
    · subst hx
      have hy : ¬y == newline := by simpa using hpair
      obtain ⟨m, rest, hrest⟩ := List.exists_cons_of_ne_nil (List.splitOn_ne_nil newline text)
      rw [if_pos BEq.rfl, if_pos BEq.rfl, List.splitOn_cons_eq_if_modifyHead, if_neg hy, hrest,
        List.modifyHead_cons]
      rfl
    · have hx' : ¬x == newline := by simpa using hx
      rw [if_neg hx', if_neg hx', thinned_modifyHead]
  | case3 text hshort =>
    match text, hshort with
    | [], _ => rfl
    | [x], _ =>
      rw [List.splitOn_cons_eq_if_modifyHead, List.splitOn_nil]
      split <;> rfl
    | x :: y :: text, hshort => exact absurd rfl (hshort x y text)

theorem filter_thin (lines : List CString) :
    (thin lines).filter (· ≠ []) = lines.filter (· ≠ []) := by
  fun_induction thin lines with
  | case1 m rest ih => rw [List.filter_cons, List.filter_cons, ih]; simp [List.filter_cons]
  | case2 l rest _ ih => rw [List.filter_cons, List.filter_cons, ih]
  | case3 => rfl

/-- No line that is not blank is lost. -/
theorem filter_thinned (lines : List CString) :
    (thinned lines).filter (· ≠ []) = lines.filter (· ≠ []) := by
  cases lines with
  | nil => rfl
  | cons l rest => rw [thinned, List.filter_cons, List.filter_cons, filter_thin]

theorem exists_thin (lines : List CString) :
    (∃ l ∈ thin lines, l ≠ []) ↔ ∃ l ∈ lines, l ≠ [] := by
  have hmem := fun l => iff_of_eq (congrArg (l ∈ ·) (filter_thin lines))
  simpa only [List.mem_filter, decide_eq_true_eq] using exists_congr hmem

/-! ### Gaps -/

/-- The gap, with a line that is not blank behind it. -/
def Behind (gap lines : List CString) : Prop :=
  ∃ front back, lines = front ++ gap ++ back ∧ ∃ l ∈ back, l ≠ []

variable {gap rest lines : List CString} {l : CString}

theorem inside_cons_blank : Inside gap ([] :: rest) ↔ Inside gap rest := by
  constructor
  · rintro ⟨front, back, hlines, ⟨x, hx, hne⟩, hback⟩
    match front, hx with
    | y :: front, hx =>
      obtain ⟨rfl, hrest⟩ := List.cons.inj hlines
      exact ⟨front, back, hrest, ⟨x, (List.mem_cons.mp hx).resolve_left hne, hne⟩, hback⟩
  · rintro ⟨front, back, rfl, ⟨x, hx, hne⟩, hback⟩
    exact ⟨[] :: front, back, rfl, ⟨x, List.mem_cons_of_mem _ hx, hne⟩, hback⟩

theorem inside_cons (h : l ≠ []) : Inside gap (l :: rest) ↔ Behind gap rest := by
  constructor
  · rintro ⟨front, back, hlines, ⟨x, hx, -⟩, hback⟩
    match front, hx with
    | y :: front, _ =>
      obtain ⟨-, hrest⟩ := List.cons.inj hlines
      exact ⟨front, back, hrest, hback⟩
  · rintro ⟨front, back, rfl, hback⟩
    exact ⟨l :: front, back, rfl, ⟨l, List.mem_cons_self, h⟩, hback⟩

theorem behind_cons {g : CString} : Behind (g :: gap) (l :: rest) ↔
    (l = g ∧ ∃ back, rest = gap ++ back ∧ ∃ x ∈ back, x ≠ []) ∨ Behind (g :: gap) rest := by
  constructor
  · rintro ⟨front, back, hlines, hback⟩
    cases front with
    | nil =>
      obtain ⟨rfl, hrest⟩ := List.cons.inj hlines
      exact .inl ⟨rfl, back, hrest, hback⟩
    | cons y front =>
      obtain ⟨-, hrest⟩ := List.cons.inj hlines
      exact .inr ⟨front, back, hrest, hback⟩
  · rintro (⟨rfl, back, rfl, hback⟩ | ⟨front, back, rfl, hback⟩)
    · exact ⟨[], back, rfl, hback⟩
    · exact ⟨l :: front, back, rfl, hback⟩

theorem behind_blank : Behind [[]] (l :: rest) ↔
    (l = [] ∧ ∃ x ∈ rest, x ≠ []) ∨ Behind [[]] rest := by
  rw [behind_cons]
  simp

theorem not_behind_nil {g : CString} : ¬Behind (g :: gap) [] := by
  rintro ⟨front, back, hlines, -⟩
  simp at hlines

/-- **Of two blank lines in a row one is left, and of one none.** -/
theorem behind_thin (lines : List CString) :
    Behind [[]] (thin lines) ↔ Behind [[], []] lines := by
  fun_induction thin lines with
  | case1 m rest ih =>
    rw [behind_blank, ih, behind_cons, behind_cons (l := m), exists_thin]
    constructor
    · rintro (⟨rfl, hrest⟩ | hrest)
      · exact .inl ⟨rfl, rest, rfl, hrest⟩
      · exact .inr (.inr hrest)
    · rintro (⟨-, back, hback, hrest⟩ | ⟨rfl, back, hback, hrest⟩ | hrest)
      · obtain ⟨rfl, rfl⟩ := List.cons.inj hback
        exact .inl ⟨rfl, hrest⟩
      · obtain ⟨x, hx, hne⟩ := hrest
        exact .inl ⟨rfl, x, hback ▸ List.mem_append_right _ hx, hne⟩
      · exact .inr hrest
  | case2 l rest hlast ih =>
    rw [behind_blank, ih, behind_cons, exists_thin]
    -- a blank line that stays is the last one
    refine or_congr_left (and_congr_right fun hblank => ?_)
    cases rest with
    | nil => simp
    | cons m rest => exact (hlast m rest hblank rfl).elim
  | case3 => exact iff_of_false not_behind_nil not_behind_nil

theorem not_inside_nil : ¬Inside gap [] := by
  rintro ⟨front, back, hlines, ⟨x, hx, -⟩, -⟩
  have hnil := List.append_eq_nil_iff.mp (List.append_eq_nil_iff.mp hlines.symm).1
  rw [hnil.1] at hx
  exact List.not_mem_nil hx

theorem inside_cons_thin (h : Inside [[]] (thin rest) ↔ Inside [[], []] rest) :
    Inside [[]] (l :: thin rest) ↔ Inside [[], []] (l :: rest) := by
  by_cases hblank : l = []
  · subst hblank
    rw [inside_cons_blank, inside_cons_blank, h]
  · rw [inside_cons hblank, inside_cons hblank, behind_thin]

theorem inside_thin (lines : List CString) :
    Inside [[]] (thin lines) ↔ Inside [[], []] lines := by
  fun_induction thin lines with
  | case1 m rest ih => rw [inside_cons_blank, inside_cons_thin ih]
  | case2 l rest _ ih => exact inside_cons_thin ih
  | case3 => exact iff_of_false not_inside_nil not_inside_nil

/-- **Blank lines are left where two stood in a row.** -/
theorem inside_thinned (lines : List CString) :
    Inside [[]] (thinned lines) ↔ Inside [[], []] lines := by
  cases lines with
  | nil => exact iff_of_false not_inside_nil not_inside_nil
  | cons l rest => exact inside_cons_thin (inside_thin rest)

/-- Blank lines at the end are inside of nothing. -/
theorem inside_append_blank {g : CString} : Inside (g :: gap) (lines ++ [[]]) ↔
    Inside (g :: gap) lines := by
  constructor
  · rintro ⟨front, back, hlines, hfront, x, hx, hne⟩
    obtain ⟨back, last, rfl⟩ := List.eq_nil_or_concat back |>.resolve_left fun h => by
      rw [h] at hx
      exact List.not_mem_nil hx
    rw [List.concat_eq_append, ← List.append_assoc] at hlines
    obtain ⟨hall, hlast⟩ := List.append_inj' hlines rfl
    obtain rfl := List.singleton_inj.mp hlast
    rw [List.concat_eq_append, List.mem_append] at hx
    refine ⟨front, back, hall, hfront, x, hx.resolve_right fun h => ?_, hne⟩
    exact hne (List.mem_singleton.mp h)
  · rintro ⟨front, back, rfl, hfront, x, hx, hne⟩
    exact ⟨front, back ++ [[]], by simp, hfront, x, List.mem_append_left _ hx, hne⟩

/-- Where two blank lines are, one is. -/
theorem Inside.one (h : Inside [[], []] lines) : Inside [[]] lines := by
  obtain ⟨front, back, rfl, ⟨x, hx, hne⟩, hback⟩ := h
  exact ⟨front ++ [[]], back, by simp, ⟨x, List.mem_append_left _ hx, hne⟩, hback⟩

/-! ### Carriage returns -/

/-- The first line is empty where a newline comes first, or the end. -/
theorem first_line {m : CString} (h : text.splitOn newline = m :: rest) :
    [newline] <+: text ++ [newline] ↔ m = [] := by
  cases text with
  | nil =>
    obtain ⟨rfl, -⟩ := List.cons.inj h
    exact iff_of_true List.prefix_rfl rfl
  | cons x text =>
    rw [List.splitOn_cons_eq_if_modifyHead] at h
    rw [List.cons_append, List.cons_prefix_cons, and_iff_left List.nil_prefix]
    by_cases hx : x = newline
    · subst hx
      rw [if_pos BEq.rfl] at h
      exact iff_of_true rfl (List.cons.inj h).1.symm
    · obtain ⟨m', rest', hrest⟩ := List.exists_cons_of_ne_nil (List.splitOn_ne_nil newline text)
      rw [if_neg (by simpa using hx), hrest, List.modifyHead_cons] at h
      refine iff_of_false (Ne.symm hx) ?_
      rw [← (List.cons.inj h).1]
      exact List.cons_ne_nil _ _

theorem getLast?_cons_eq {x c : BitVec 8} {m : CString} : (x :: m).getLast? = some c ↔
    (c = x ∧ m = []) ∨ m.getLast? = some c := by
  cases m with
  | nil => simp [eq_comm]
  | cons y m => rw [List.getLast?_cons_cons]; simp

/-- **A carriage return stands in front of a newline where a line ends with one.** -/
theorem return_iff (text : CString) : [carriage, newline] <:+: text ++ [newline] ↔
    ∃ l ∈ text.splitOn newline, l.getLast? = some carriage := by
  induction text with
  | nil => decide
  | cons x text ih =>
    obtain ⟨m, rest, hrest⟩ := List.exists_cons_of_ne_nil (List.splitOn_ne_nil newline text)
    rw [List.cons_append, List.infix_cons_iff, ih, List.splitOn_cons_eq_if_modifyHead,
      List.cons_prefix_cons, first_line hrest, hrest]
    by_cases hx : x = newline
    · subst hx
      have hne : carriage ≠ newline := by decide
      simp [hne]
    · rw [if_neg (by simpa using hx), List.modifyHead_cons, List.exists_mem_cons_iff,
        List.exists_mem_cons_iff, getLast?_cons_eq, or_assoc]

/-! ### The text that comes out -/

theorem splitOn_newline (text : CString) :
    (text ++ [newline]).splitOn newline = text.splitOn newline ++ [[]] :=
  List.splitOn_append_cons_of_beq text [] BEq.rfl

/-- A line of a text is one of the thinned lines, or blank. -/
theorem mem_thinned (h : l ≠ []) : l ∈ thinned lines ↔ l ∈ lines := by
  have hmem := iff_of_eq (congrArg (l ∈ ·) (filter_thinned lines))
  simpa [List.mem_filter, h] using hmem

theorem noReturn_iff (text : CString) :
    ¬[carriage, newline] <:+: squeezed text ++ [newline, newline] ↔
      ∀ l ∈ linesOf text, l.getLast? ≠ some carriage := by
  have hout : squeezed text ++ [newline, newline] = squeezed text ++ [newline] ++ [newline] := by
    simp
  have hblank : ∀ l : CString, l.getLast? = some carriage → l ≠ [] := by
    rintro l hl rfl
    cases hl
  rw [hout, return_iff, splitOn_newline, squeezed, splitOn_squeeze, ← linesOf, not_exists]
  refine forall_congr' fun l => ?_
  rw [not_and, List.mem_append]
  constructor
  · intro h hmem hl
    exact h (.inl ((mem_thinned (hblank l hl)).mpr hmem)) hl
  · intro h hmem hl
    rcases hmem with hmem | hmem
    · exact h ((mem_thinned (hblank l hl)).mp hmem) hl
    · exact hblank l hl (List.mem_singleton.mp hmem)

theorem linesOf_out (h : ¬[carriage, newline] <:+: squeezed text ++ [newline, newline]) :
    linesOf (squeezed text ++ [newline, newline]) = thinned (linesOf text) ++ [[]] ++ [[]] := by
  have hout : squeezed text ++ [newline, newline] = squeezed text ++ [newline] ++ [newline] := by
    simp
  rw [linesOf, squeeze_clean h, hout, splitOn_newline, splitOn_newline, squeezed, splitOn_squeeze,
    ← linesOf]

/-- **The text that comes out is clean if and only if** the one that came in is plain. -/
theorem cleaned_iff (text : CString) :
    Cleaned text (squeezed text ++ [newline, newline]) ↔ Plain text := by
  constructor
  · intro h
    have hlines := linesOf_out h.noReturn
    refine ⟨(noReturn_iff text).mp h.noReturn, fun hgap => h.noBlank ?_⟩
    rwa [hlines, inside_append_blank, inside_append_blank, inside_thinned]
  · intro h
    have hreturn := (noReturn_iff text).mpr h.noReturn
    have hlines := linesOf_out hreturn
    refine ⟨hreturn, ?_, ?_⟩
    · rw [hlines, inside_append_blank, inside_append_blank, inside_thinned]
      exact h.noGap
    · rw [nonBlank, nonBlank, hlines, List.filter_append, List.filter_append, filter_thinned]
      simp

/-- What has come out is plain. -/
theorem Plain.again (h : Plain text) : Plain (squeezed text ++ [newline, newline]) := by
  have hclean := (cleaned_iff text).mpr h
  refine ⟨fun l hl hlast => ?_, fun hgap => hclean.noBlank hgap.one⟩
  have hne : l ≠ [] := by
    rintro rfl
    cases hlast
  have hmem : l ∈ nonBlank (squeezed text ++ [newline, newline]) :=
    List.mem_filter.mpr ⟨hl, by simpa using hne⟩
  rw [hclean.kept] at hmem
  exact h.noReturn l (List.mem_filter.mp hmem).1 hlast

/-! ### The run -/

/-- Pairs are replaced where the pattern fits, and else nothing comes out. -/
theorem strsReplace_pair (hb : b ≠ 0) (htext : 0 ∉ text) (r : Option CString) :
    Replace.strsReplace text [a, b] [b] = some r ↔
      (∀ items, StrItems [a, b] text items → Replace.Fits [a, b] [b] items) ∧
        r = some (squeeze a b text) := by
  have hne : [a, b] ≠ [] := List.cons_ne_nil _ _
  have hwith : (0 : BitVec 8) ∉ [b] := by simpa using hb.symm
  obtain ⟨items, hitems⟩ := exists_items hne text
  constructor
  · intro hrun
    obtain rfl := strsReplace_shorter (by simp) (by simp) htext hwith hitems hrun
    refine ⟨fun items' hitems' => ?_, by rw [intercalate_items hitems]⟩
    rw [StrItems.unique hitems' hitems]
    exact fits_of_strsReplace hne htext hwith hitems hrun
  · rintro ⟨hfits, rfl⟩
    rw [strsReplace_of_fits hne htext hwith hitems (hfits items hitems), intercalate_items hitems]

/-- **A source is preprocessed just when it fits.** -/
theorem strsFilePreProcess_iff (htext : 0 ∉ text) (out : CString) :
    strsFilePreProcess text = some out ↔
      Sized text ∧ out = squeezed text ++ [newline, newline] := by
  have hunix : 0 ∉ squeeze carriage newline text := fun h => htext (mem_squeeze h)
  have hsqueezed : 0 ∉ squeezed text := fun h => hunix (mem_squeeze h)
  have hnewlines : (0 : BitVec 8) ∉ [newline, newline] := by decide
  have hout : 0 ∉ squeezed text ++ [newline, newline] := fun h =>
    (List.mem_append.mp h).elim hsqueezed hnewlines
  have hlength : (squeezed text ++ [newline, newline]).length = (squeezed text).length + 2 :=
    List.length_append
  have happend := strsAppend_eq hsqueezed hnewlines
  have hcopy : (squeezed text).length + [newline, newline].length + 1 < 2 ^ 32 →
      strsCopy (squeezed text ++ [newline, newline]) =
        some (squeezed text ++ [newline, newline] ++ [0]) := fun hroom =>
    strsCopy_eq ⟨_, hout, by rw [hlength]; exact hroom⟩
  rw [strsFilePreProcess, strsFilePreProcessEx]
  constructor
  · intro h
    obtain ⟨r, hr, h⟩ := Option.bind_eq_some_iff.mp h
    obtain ⟨hreturns, rfl⟩ := (strsReplace_pair (by decide) htext r).mp hr
    rw [Option.bind_eq_bind, Option.bind_some] at h
    obtain ⟨r', hr', h⟩ := Option.bind_eq_some_iff.mp h
    obtain ⟨hnewline, rfl⟩ := (strsReplace_pair (by decide) hunix r').mp hr'
    rw [Option.bind_some, ← squeezed, happend] at h
    by_cases hroom : (squeezed text).length + [newline, newline].length + 1 < 2 ^ 32
    · rw [if_pos hroom, Option.bind_some, hcopy hroom, Option.bind_some,
        untilZero_append hout] at h
      exact ⟨⟨hreturns, hnewline, hroom⟩, (Option.some.inj h).symm⟩
    · rw [if_neg hroom] at h
      cases h
  · rintro ⟨hsized, rfl⟩
    have hroom : (squeezed text).length + [newline, newline].length + 1 < 2 ^ 32 := hsized.whole
    rw [(strsReplace_pair (by decide) htext _).mpr ⟨hsized.returns, rfl⟩, Option.bind_eq_bind,
      Option.bind_some, Option.bind_eq_bind, Option.bind_some,
      (strsReplace_pair (by decide) hunix _).mpr ⟨hsized.newlines, rfl⟩, Option.bind_some,
      Option.bind_some, ← squeezed, happend, if_pos hroom, Option.bind_some,
      hcopy hroom, Option.bind_some, untilZero_append hout]

/-- **A source comes out clean, and stays clean, just when** it is plain and fits both times. -/
theorem preprocess_iff (htext : 0 ∉ text) : PreprocessLaw text ↔
    Plain text ∧ Sized text ∧ Sized (squeezed text ++ [newline, newline]) := by
  have hout : 0 ∉ squeezed text ++ [newline, newline] := fun h =>
    (List.mem_append.mp h).elim (fun h => htext (mem_squeeze (mem_squeeze h))) (by decide)
  constructor
  · rintro ⟨out, out', hrun, hclean, hrun', -⟩
    obtain ⟨hsized, rfl⟩ := (strsFilePreProcess_iff htext out).mp hrun
    exact ⟨(cleaned_iff text).mp hclean, hsized, ((strsFilePreProcess_iff hout out').mp hrun').1⟩
  · rintro ⟨hplain, hsized, hsized'⟩
    have hclean := (cleaned_iff _).mpr hplain.again
    exact ⟨_, _, (strsFilePreProcess_iff htext _).mpr ⟨hsized, rfl⟩, (cleaned_iff text).mpr hplain,
      (strsFilePreProcess_iff hout _).mpr ⟨hsized', rfl⟩, hclean.kept, hclean.noBlank⟩

/-- A line, a blank one, and another line. -/
def oneBlank : CString := [0x61, newline, newline, 0x62]

/-- A line, two blank ones, and another line. -/
def twoBlank : CString := [0x61, newline, newline, newline, 0x62]

theorem preprocess_iff_one : PreprocessLaw oneBlank ↔
    Plain oneBlank ∧ Sized oneBlank ∧ Sized (squeezed oneBlank ++ [newline, newline]) :=
  preprocess_iff (by decide)

/-- **Of two blank lines one is left.** -/
theorem not_preprocess : ¬∀ text : CString, 0 ∉ text → PreprocessLaw text := by
  intro h
  obtain ⟨out, -, hrun, hclean, -⟩ := h twoBlank (by decide)
  obtain ⟨-, rfl⟩ := (strsFilePreProcess_iff (by decide) out).mp hrun
  refine ((cleaned_iff twoBlank).mp hclean).noGap ⟨[[0x61]], [[0x62]], by decide, ?_, ?_⟩
  · exact ⟨[0x61], List.mem_cons_self, List.cons_ne_nil _ _⟩
  · exact ⟨[0x62], List.mem_cons_self, List.cons_ne_nil _ _⟩

end Preprocess

end PikaScript
