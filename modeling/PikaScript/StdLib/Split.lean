import PikaScript.Object.Bytes
import PikaScript.StdLib.StringIndex

/-! `str.split`.

The items are cut from a copy of the text: a NUL is written over the first byte of the separator
that `strstr` finds, and the search goes on behind it. -/
namespace PikaScript
open Memory Occurrence

/-! ### The code -/

/-- `strstr`: where the needle is first found. -/
def strstrAt (needle : CString) : CString → Option Nat
  | [] => if needle = [] then some 0 else none
  | c :: hay => if needle <+: c :: hay then some 0 else (strstrAt needle hay).map (· + 1)

/-- `strsCopy`: the text and its NUL in a new buffer. -/
def strsCopy (source : CString) : Option Bytes :=
  store (argsGetBuff (s32 source.length)) 0 (source ++ [0])

/-- So many rounds of the loop of `PikaStdData_String_split`, and what follows it. None when it
has not been left. -/
def strSplitLoop (s : CString) : Nat → Bytes → Nat → List CString → Option SplitOutcome
  | 0, _, _, _ => none
  | rounds + 1, str, p, list =>
    match loadString str p with
    | none => some .outside
    | some rest =>
      match strstrAt s rest with
      | none => some (.list (if rest ≠ [] then list ++ [rest] else list))
      | some q =>
        match (store str (p + q) [0]).bind fun str => (loadString str p).map (str, ·) with
        | none => some .outside
        | some (str, item) => strSplitLoop s rounds str (p + q + s.length) (list ++ [item])

/-- `PikaStdData_String_split`. -/
def stringSplit (rounds : Nat) (str s : CString) : Option SplitOutcome :=
  match strsCopy str with
  | none => some .outside
  | some str => strSplitLoop s rounds str 0 []

/-! ### The law -/

/-- The items are what is left of a text when every separator is taken out. -/
structure StrItems (sep text : CString) (items : List CString) : Prop where
  joined : sep.intercalate items = text
  clean : ∀ item ∈ items, ¬sep <:+: item
  leftmost : Pieces sep text items

/-- The loop is left, with the items of the text or, for an empty separator, with an error. -/
def StrSplitLaw (str sep : StrValue) : Prop :=
  ∃ rounds outcome, stringSplit rounds str.text sep.text = some outcome ∧
    if sep.text = [] then ∃ text, outcome = .error text
    else ∃ items, outcome = .list items ∧ StrItems sep.text str.text items

/-! ### The search -/

/-- The first place of a list in another. -/
theorem strstrAt_eq_some {needle hay : CString} {k : Nat} (h : strstrAt needle hay = some k) :
    At needle hay k ∧ k ≤ hay.length ∧ ∀ j < k, ¬At needle hay j := by
  induction hay generalizing k with
  | nil =>
    unfold strstrAt at h
    split at h
    · rename_i hnil
      cases h
      exact ⟨hnil ▸ List.nil_prefix, Nat.le_refl _, fun _ hlt => absurd hlt (Nat.not_lt_zero _)⟩
    · cases h
  | cons c hay ih =>
    unfold strstrAt at h
    split at h
    · rename_i hhead
      cases h
      exact ⟨hhead, Nat.zero_le _, fun _ hlt => absurd hlt (Nat.not_lt_zero _)⟩
    · rename_i hhead
      obtain ⟨j, hj, rfl⟩ := Option.map_eq_some_iff.mp h
      obtain ⟨hat, hle, hfirst⟩ := ih hj
      refine ⟨hat, Nat.succ_le_succ hle, fun i hi => ?_⟩
      cases i with
      | zero => exact hhead
      | succ i => exact hfirst i (Nat.lt_of_succ_lt_succ hi)

theorem strstrAt_eq_none {needle hay : CString} (h : strstrAt needle hay = none) :
    ¬needle <:+: hay := by
  induction hay with
  | nil =>
    unfold strstrAt at h
    split at h
    · cases h
    · rename_i hne
      exact fun hinfix => hne (List.infix_nil.mp hinfix)
  | cons c hay ih =>
    unfold strstrAt at h
    split at h
    · cases h
    · rename_i hhead
      rw [List.infix_cons_iff, not_or]
      exact ⟨hhead, ih (Option.map_eq_none_iff.mp h)⟩

/-- An empty needle is found at once. -/
theorem strstrAt_nil (hay : CString) : strstrAt [] hay = some 0 := by
  cases hay with
  | nil => rfl
  | cons c hay => exact if_pos List.nil_prefix

/-! ### The loop -/

variable {sep rest : CString} {more : Bytes}

/-- A round that finds the separator behind an item. -/
theorem strSplitLoop_cut {c : BitVec 8} {item tail : CString} (rounds : Nat) (kept : Bytes)
    (list : List CString) (hz : 0 ∉ item ++ (c :: sep ++ tail))
    (hq : strstrAt (c :: sep) (item ++ (c :: sep ++ tail)) = some item.length) :
    strSplitLoop (c :: sep) (rounds + 1) (kept ++ (item ++ (c :: sep ++ tail) ++ 0 :: more))
      kept.length list =
      strSplitLoop (c :: sep) rounds (kept ++ (item ++ 0 :: sep) ++ (tail ++ 0 :: more))
        (kept ++ (item ++ 0 :: sep)).length (list ++ [item]) := by
  have hitem : 0 ∉ item := fun h => hz (List.mem_append_left _ h)
  have hload := loadString_of_drop
    (@List.drop_left _ kept (item ++ (c :: sep ++ tail) ++ 0 :: more)) hz
  have hassoc : kept ++ (item ++ (c :: sep ++ tail) ++ 0 :: more) =
      kept ++ item ++ (c :: (sep ++ (tail ++ 0 :: more))) := by simp
  have hstore := store_append (kept ++ item)
    (by simp : [(0 : BitVec 8)].length ≤ (c :: (sep ++ (tail ++ 0 :: more))).length)
  have hnew : kept ++ item ++ [0] ++ (c :: (sep ++ (tail ++ 0 :: more))).drop 1 =
      kept ++ (item ++ 0 :: (sep ++ (tail ++ 0 :: more))) := by simp
  rw [List.length_singleton, hnew, ← hassoc, List.length_append] at hstore
  have hcut := loadString_of_drop
    (@List.drop_left _ kept (item ++ 0 :: (sep ++ (tail ++ 0 :: more)))) hitem
  have hplace : (kept ++ (item ++ 0 :: sep)).length =
      kept.length + item.length + (c :: sep).length := by
    simp only [List.length_append, List.length_cons]
    omega
  have hrest : kept ++ (item ++ 0 :: sep) ++ (tail ++ 0 :: more) =
      kept ++ (item ++ 0 :: (sep ++ (tail ++ 0 :: more))) := by simp
  rw [strSplitLoop, hload]
  dsimp only
  rw [hq, hplace, hrest]
  dsimp only
  rw [hstore, Option.bind_some, hcut]
  rfl

theorem StrItems.last (h : ¬sep <:+: rest) : StrItems sep rest [rest] where
  joined := by simp
  clean item hitem := by rwa [List.mem_singleton.mp hitem]
  leftmost := .last rest

/-- An item in front of the first separator. -/
theorem StrItems.cut {item tail : CString} {items : List CString} (hsep : sep ≠ [])
    (hfirst : ∀ k < item.length, ¬At sep (item ++ sep ++ tail) k) (h : StrItems sep tail items) :
    StrItems sep (item ++ sep ++ tail) (item :: items) := by
  have hpieces := Pieces.cut hfirst h.leftmost
  refine ⟨hpieces.intercalate_eq, fun piece hpiece => ?_, hpieces⟩
  rcases List.mem_cons.mp hpiece with rfl | hpiece
  · apply hpieces.not_occurs hsep
    rw [List.dropLast_cons_of_ne_nil h.leftmost.ne_nil]
    exact List.mem_cons_self
  · exact h.clean piece hpiece

/-- The items from `p` on, with the empty one behind the last separator left out. -/
def StrSplitRest (sep rest : CString) (items : List CString) : Prop :=
  (items.getLast? ≠ some [] ∧ StrItems sep rest items) ∨ StrItems sep rest (items ++ [[]])

/-- **The loop cuts every item**, but not an empty one behind the last separator. -/
theorem strSplitLoop_eq {c : BitVec 8} {rounds : Nat} (hrounds : rest.length < rounds)
    (kept : Bytes) (list : List CString) (hz : 0 ∉ rest) :
    ∃ items, strSplitLoop (c :: sep) rounds (kept ++ (rest ++ 0 :: more)) kept.length list =
      some (.list (list ++ items)) ∧ StrSplitRest (c :: sep) rest items := by
  induction rounds generalizing rest kept list with
  | zero => exact absurd hrounds (Nat.not_lt_zero _)
  | succ rounds ih =>
    cases hq : strstrAt (c :: sep) rest with
    | none =>
      have hload := loadString_of_drop (@List.drop_left _ kept (rest ++ 0 :: more)) hz
      have hclean := strstrAt_eq_none hq
      rw [strSplitLoop, hload]
      dsimp only
      rw [hq]
      by_cases hnil : rest = []
      · subst hnil
        exact ⟨[], by simp, .inr (.last hclean)⟩
      · refine ⟨[rest], by simp [hnil], .inl ⟨?_, .last hclean⟩⟩
        simpa using hnil
    | some q =>
      obtain ⟨⟨tail, htail⟩, hle, hfirst⟩ := strstrAt_eq_some hq
      obtain ⟨item, hitem, hlength⟩ : ∃ item, rest = item ++ (c :: sep ++ tail) ∧ item.length = q :=
        ⟨rest.take q, by rw [htail, List.take_append_drop], List.length_take_of_le hle⟩
      subst hitem hlength
      have htail : 0 ∉ tail :=
        fun h => hz (List.mem_append_right _ (List.mem_append_right _ h))
      have hshorter : tail.length < rounds := by
        simp only [List.length_append, List.length_cons] at hrounds
        omega
      rw [← List.append_assoc] at hfirst
      obtain ⟨items, hitems, hrest⟩ :=
        ih hshorter (kept ++ (item ++ 0 :: sep)) (list ++ [item]) htail
      refine ⟨item :: items, ?_, ?_⟩
      · rw [strSplitLoop_cut rounds kept list hz hq, hitems, List.append_assoc]
        rfl
      · rw [← List.append_assoc]
        rcases hrest with ⟨hlast, hrest⟩ | hrest
        · refine .inl ⟨?_, hrest.cut (List.cons_ne_nil _ _) hfirst⟩
          rwa [List.getLast?_cons_of_ne_nil hrest.leftmost.ne_nil]
        · exact .inr (hrest.cut (List.cons_ne_nil _ _) hfirst)

/-- **An empty separator is found again and again**: the loop is not left. -/
theorem strSplitLoop_nil (rounds : Nat) (kept : Bytes) (list : List CString) (hz : 0 ∉ rest) :
    strSplitLoop [] rounds (kept ++ (rest ++ 0 :: more)) kept.length list = none := by
  induction rounds generalizing rest more list with
  | zero => rfl
  | succ rounds ih =>
    have hload := loadString_of_drop (@List.drop_left _ kept (rest ++ 0 :: more)) hz
    have hroom : [(0 : BitVec 8)].length ≤ (rest ++ 0 :: more).length := by
      simp only [List.length_append, List.length_cons, List.length_nil]
      omega
    have hstore := store_append kept hroom
    obtain ⟨left, hleft⟩ : ∃ left, kept ++ [0] ++ (rest ++ 0 :: more).drop [(0 : BitVec 8)].length =
        kept ++ ([] ++ 0 :: left) := ⟨_, by simp; rfl⟩
    have hcut := loadString_of_drop (@List.drop_left _ kept ([] ++ 0 :: left)) List.not_mem_nil
    rw [strSplitLoop, hload]
    dsimp only
    rw [strstrAt_nil]
    dsimp only
    rw [Nat.add_zero, hstore, hleft, Option.bind_some, hcut]
    exact ih (list ++ [[]]) List.not_mem_nil

/-- A loop that is left is left after the same rounds, however many there may be. -/
theorem strSplitLoop_of_le {s : CString} {rounds rounds' : Nat} (hle : rounds ≤ rounds')
    {str : Bytes} {p : Nat} {list : List CString} {outcome : SplitOutcome}
    (h : strSplitLoop s rounds str p list = some outcome) :
    strSplitLoop s rounds' str p list = some outcome := by
  induction rounds generalizing rounds' str p list with
  | zero => cases h
  | succ rounds ih =>
    obtain ⟨rounds', rfl⟩ : ∃ n, rounds' = n + 1 := ⟨rounds' - 1, by omega⟩
    unfold strSplitLoop at h ⊢
    cases hload : loadString str p with
    | none => rwa [hload] at h
    | some rest =>
      rw [hload] at h
      dsimp only at h ⊢
      cases hq : strstrAt s rest with
      | none => rwa [hq] at h
      | some q =>
        rw [hq] at h
        dsimp only at h ⊢
        cases hcut : (store str (p + q) [0]).bind fun str => (loadString str p).map (str, ·) with
        | none => rwa [hcut] at h
        | some cut =>
          rw [hcut] at h
          exact ih (Nat.le_of_succ_le_succ hle) h

/-! ### The split -/

/-- The copy holds the text. -/
theorem strsCopy_eq (str : StrValue) : strsCopy str.text = some (str.text ++ [0]) := by
  have hfits := str.fits
  have hbuff := length_buff str.text.length
  have hroom : (str.text ++ [0]).length ≤ (argsGetBuff (s32 str.text.length)).length := by
    rw [hbuff, List.length_append, List.length_singleton]
    omega
  have hstore := store_append [] hroom
  have hdrop : (argsGetBuff (s32 str.text.length)).drop (str.text ++ [0]).length = [] := by
    apply List.drop_eq_nil_of_le
    rw [hbuff, List.length_append, List.length_singleton]
    exact Nat.mod_le _ _
  rw [List.nil_append, List.nil_append, hdrop, List.append_nil] at hstore
  exact hstore

/-- The items of a split are found in as many rounds as the text has bytes, and one. -/
theorem stringSplit_eq (str : StrValue) {sep : CString} (hsep : sep ≠ []) :
    ∃ items, stringSplit (str.text.length + 1) str.text sep = some (.list items) ∧
      StrSplitRest sep str.text items := by
  obtain ⟨c, sep, rfl⟩ := List.exists_cons_of_ne_nil hsep
  rw [stringSplit, strsCopy_eq]
  exact strSplitLoop_eq (Nat.lt_succ_self _) [] [] str.noNul

/-- With a separator, the items are those of the text if something is left behind the last one. -/
theorem strSplitLaw_iff_of_sep (str sep : StrValue) (hsep : sep.text ≠ []) :
    StrSplitLaw str sep ↔ ¬∃ items, Pieces sep.text str.text (items ++ [[]]) := by
  obtain ⟨items, hitems, hrest⟩ := stringSplit_eq str hsep
  have hempty : ¬sep.text <:+: [] := fun h => hsep (List.infix_nil.mp h)
  constructor
  · rintro ⟨rounds, outcome, houtcome, hlaw⟩ ⟨front, hpieces⟩
    rw [if_neg hsep] at hlaw
    obtain ⟨items', rfl, hitems'⟩ := hlaw
    have hsame : items' = items := by
      rw [stringSplit, strsCopy_eq] at houtcome hitems
      have hmax := strSplitLoop_of_le (Nat.le_max_left rounds (str.text.length + 1)) houtcome
      rw [strSplitLoop_of_le (Nat.le_max_right rounds (str.text.length + 1)) hitems] at hmax
      cases hmax
      rfl
    have hfront : ∀ item ∈ front ++ [[]], ¬sep.text <:+: item := by
      intro item hitem
      rcases List.mem_append.mp hitem with hitem | hitem
      · apply hpieces.not_occurs hsep
        rwa [List.dropLast_concat]
      · rwa [List.mem_singleton.mp hitem]
    have hall := hitems'.leftmost.unique hpieces hitems'.clean hfront
    rcases hrest with ⟨hlast, -⟩ | hrest
    · rw [← hsame, hall] at hlast
      exact hlast List.getLast?_concat
    · have htwice := hrest.leftmost.unique hpieces hrest.clean hfront
      rw [← hsame, hall] at htwice
      simp at htwice
  · intro hlast
    refine ⟨_, _, hitems, ?_⟩
    rw [if_neg hsep]
    rcases hrest with ⟨-, hrest⟩ | hrest
    · exact ⟨items, rfl, hrest⟩
    · exact absurd ⟨items, hrest.leftmost⟩ hlast

/-- **The items are those of the text if and only if** the separator is not empty, and something
is left behind the last one. -/
theorem strSplit_iff (str sep : StrValue) : StrSplitLaw str sep ↔
    sep.text ≠ [] ∧ ¬∃ items, Pieces sep.text str.text (items ++ [[]]) := by
  by_cases hsep : sep.text = []
  · refine iff_of_false ?_ fun h => h.1 hsep
    rintro ⟨rounds, outcome, houtcome, -⟩
    rw [stringSplit, strsCopy_eq, hsep] at houtcome
    cases (strSplitLoop_nil rounds [] [] str.noNul).symm.trans houtcome
  · rw [strSplitLaw_iff_of_sep str sep hsep, and_iff_right hsep]

/-- "a," -/
def aComma : StrValue := ⟨[0x61, 0x2c], by decide, by decide⟩

/-- "," -/
def comma : StrValue := ⟨[0x2c], by decide, by decide⟩

/-- **The empty item behind the last separator is missing.** -/
theorem not_strSplit : ¬ ∀ str sep : StrValue, StrSplitLaw str sep := by
  intro h
  have hlast := (strSplitLaw_iff_of_sep aComma comma (by decide)).mp (h aComma comma)
  have hpieces : Pieces [0x2c#8] ([0x61] ++ [0x2c] ++ []) [[0x61], []] :=
    .cut (by decide) (.last [])
  exact hlast ⟨[[0x61]], hpieces⟩

end PikaScript
