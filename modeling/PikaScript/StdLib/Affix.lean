import Mathlib.Data.List.DropRight
import PikaScript.StdLib.Split

/-! `str.strip`, `str.startswith` and `str.endswith`.

Each walks over the bytes with indices of type `int`, from the left or from the right. What is not
a byte of a text or its NUL is not read. -/
namespace PikaScript
open Memory

/-! ### The code -/

/-- The character `strip` takes off: the first of its argument, a space when there is none. More
arguments are an error, and leave the space. -/
def stripChar (chrs : List CString) : BitVec 8 :=
  match chrs with
  | [chStr] => chStr.headD 0
  | _ => 0x20

/-- The second loop of `strip`, down from an index: a NUL goes behind the last other character. -/
def stripEndLoop (toStrip : BitVec 8) (str : Bytes) (i : Int) : Option Bytes :=
  if 0 ≤ i then
    match str[i.toNat]? with
    | none => none
    | some c =>
      if c ≠ toStrip then store str (i.toNat + 1) [0] else stripEndLoop toStrip str (i - 1)
  else some str
termination_by (i + 1).toNat

/-- `PikaStdData_String_strip`. None when it reads or writes outside. -/
def stringStrip (str : CString) (chrs : List CString) : Option SetOutcome := do
  let error := if chrs.length > 1 then some "Error. Invalid param" else none
  let toStrip := stripChar chrs
  let buff ← strsCopy str
  let text ← untilZero buff
  let strStart := (text.findIdx? (· != toStrip)).getD 0
  let buff ← stripEndLoop toStrip buff (s32 (text.length - 1))
  return ⟨← loadString buff strStart, error⟩

/-- The byte at an index of a text and its NUL. -/
def strAt (str : CString) (i : Int) : Option (BitVec 8) :=
  if 0 ≤ i then (str ++ [0])[i.toNat]? else none

/-- The loop of `startswith`, over what is left of the prefix. -/
def startswithLoop (str : CString) : CString → Int → Option Bool
  | [], _ => some true
  | c :: p, i =>
    match strAt str i with
    | none => none
    | some b => if c ≠ b then some false else startswithLoop str p (s32 (i + 1))

/-- `PikaStdData_String_startswith`. None when it reads outside. -/
def stringStartswith (str pre : CString) : Option Bool := startswithLoop str pre 0

/-- The loop of `endswith`. -/
def endswithLoop (str suffix : CString) (len1 len2 : Int) : Option Bool :=
  if 1 ≤ len2 then
    match strAt suffix (len2 - 1), strAt str (len1 - 1) with
    | some a, some b =>
      if a ≠ b then some false else endswithLoop str suffix (len1 - 1) (len2 - 1)
    | _, _ => none
  else some true
termination_by len2.toNat

/-- `PikaStdData_String_endswith`. None when it reads outside. -/
def stringEndswith (str suffix : CString) : Option Bool :=
  endswithLoop str suffix (s32 str.length) (s32 suffix.length)

/-! ### The law -/

/-- A text without the runs of a character at its ends. -/
def trim (c : BitVec 8) (text : CString) : CString :=
  (text.dropWhile (· == c)).rdropWhile (· == c)

/-- `strip` takes off the runs of its character, and `startswith` and `endswith` tell whether an
affix is one, without reading outside. -/
structure AffixLaw (str : StrValue) (chrs : List StrValue) (affix : StrValue) : Prop where
  strip : (stringStrip str.text (chrs.map StrValue.text)).map SetOutcome.text =
    some (trim (stripChar (chrs.map StrValue.text)) str.text)
  startswith : stringStartswith str.text affix.text = some (decide (affix.text <+: str.text))
  endswith : stringEndswith str.text affix.text = some (decide (affix.text <:+ str.text))

/-- The text is empty or has another character, and its last byte is one or has an index that is
an `int`. -/
def StripWhen (str : CString) (c : BitVec 8) : Prop :=
  (str = [] ∨ ∃ b ∈ str, b ≠ c) ∧ (str.length ≤ 2 ^ 31 ∨ str.getLast? ≠ some c)

/-- The prefix is no longer than the indices that are an `int`, or differs before their end. -/
def StartswithWhen (str pre : CString) : Prop :=
  pre.length ≤ 2 ^ 31 ∨ ¬pre.take (2 ^ 31) <+: str

/-- The sizes are an `int`, and the text is not the end of a longer suffix; or the answer is that
of an empty suffix. -/
def EndswithWhen (str suffix : CString) : Prop :=
  if suffix.length < 2 ^ 31 then
    suffix = [] ∨ str.length < 2 ^ 31 ∧ ¬(str.length < suffix.length ∧ str <:+ suffix)
  else suffix <:+ str

/-! ### `startswith` -/

theorem strAt_append (front rest : CString) : strAt (front ++ rest) front.length =
    some (rest.headD 0) := by
  rw [strAt, if_pos (Int.natCast_nonneg _), Int.toNat_natCast, List.append_assoc,
    List.getElem?_append_right (Nat.le_refl _), Nat.sub_self]
  cases rest <;> rfl

theorem strAt_of_neg {str : CString} {i : Int} (h : i < 0) : strAt str i = none :=
  if_neg (Int.not_le.mpr h)

/-- What the loop says of a prefix whose beginning has been found, when so many more indices are
an `int`: behind them it reads outside. -/
theorem startswithLoop_eq {p : CString} (hz : 0 ∉ p) {front rest : CString} {room : Nat}
    (hroom : front.length + room = 2 ^ 31) :
    startswithLoop (front ++ rest) p (s32 front.length) =
      if room < p.length ∧ p.take room <+: rest then none else some (decide (p <+: rest)) := by
  induction p generalizing front rest room with
  | nil => simp [startswithLoop]
  | cons c p ih =>
    rw [List.mem_cons, not_or] at hz
    obtain ⟨hc, hp⟩ := hz
    rw [startswithLoop]
    cases room with
    | zero =>
      have hword : s32 front.length < 0 := by
        rw [s32_of_over (by omega) (by omega)]
        omega
      rw [strAt_of_neg hword, if_pos ⟨Nat.succ_pos _, List.nil_prefix⟩]
    | succ room =>
      have hword : s32 front.length = front.length := s32_of_fits ⟨by omega, by omega⟩
      rw [hword, strAt_append, List.take_succ_cons]
      dsimp only
      cases rest with
      | nil =>
        rw [List.headD_nil, if_pos (Ne.symm hc)]
        simp
      | cons b rest =>
        rw [List.headD_cons]
        by_cases hb : c = b
        · subst hb
          have hlength : (front ++ [c]).length = front.length + 1 := by
            rw [List.length_append, List.length_singleton]
          have hnext := @ih hp (front ++ [c]) rest room (by omega)
          rw [List.append_assoc, List.singleton_append, hlength] at hnext
          rw [if_neg (not_not_intro rfl), ← Nat.cast_succ, hnext]
          simp only [List.length_cons, Nat.add_lt_add_iff_right, List.cons_prefix_cons, true_and]
        · rw [if_pos hb, if_neg fun h => hb (List.cons_prefix_cons.mp h.2).1]
          simp [hb]

theorem stringStartswith_eq (str pre : StrValue) : stringStartswith str.text pre.text =
    if 2 ^ 31 < pre.text.length ∧ pre.text.take (2 ^ 31) <+: str.text then none
    else some (decide (pre.text <+: str.text)) :=
  @startswithLoop_eq pre.text pre.noNul [] str.text (2 ^ 31) (Nat.zero_add _)

theorem stringStartswith_iff (str pre : StrValue) :
    stringStartswith str.text pre.text = some (decide (pre.text <+: str.text)) ↔
      StartswithWhen str.text pre.text := by
  rw [stringStartswith_eq, StartswithWhen, ← Nat.not_lt, ← not_and_or,
    Option.ite_none_left_eq_some, and_iff_left rfl]

/-! ### `endswith` -/

theorem concat_suffix_concat {a b : BitVec 8} {s t : CString} :
    s ++ [a] <:+ t ++ [b] ↔ a = b ∧ s <:+ t := by
  rw [← List.reverse_prefix, List.reverse_concat, List.reverse_concat, List.cons_prefix_cons,
    List.reverse_prefix]

theorem strAt_take {str : CString} {n : Nat} (h : n < str.length) :
    ∃ b, strAt str n = some b ∧ str.take (n + 1) = str.take n ++ [b] := by
  refine ⟨str[n], ?_, List.take_succ_eq_append_getElem h⟩
  rw [strAt, if_pos (Int.natCast_nonneg n), Int.toNat_natCast, List.getElem?_append_left h,
    List.getElem?_eq_getElem h]

/-- What the loop says of the first bytes of both; it reads outside when there are none left of a
text that is the end of the suffix. -/
theorem endswithLoop_eq {str suffix : CString} {n₁ n₂ : Nat} (h₁ : n₁ ≤ str.length)
    (h₂ : n₂ ≤ suffix.length) : endswithLoop str suffix n₁ n₂ =
      if n₁ < n₂ ∧ str.take n₁ <:+ suffix.take n₂ then none
      else some (decide (suffix.take n₂ <:+ str.take n₁)) := by
  induction n₂ generalizing n₁ with
  | zero =>
    rw [endswithLoop, if_neg (by omega), if_neg (by omega), List.take_zero]
    simp
  | succ n₂ ih =>
    obtain ⟨a, ha, hsuffix⟩ := strAt_take h₂
    rw [endswithLoop, if_pos (by omega), Nat.cast_succ, Int.add_sub_cancel, ha]
    cases n₁ with
    | zero =>
      rw [strAt_of_neg (by omega), if_pos ⟨Nat.succ_pos _, List.nil_suffix⟩]
    | succ n₁ =>
      obtain ⟨b, hb, hstr⟩ := strAt_take h₁
      have hnext := ih (Nat.le_of_succ_le h₁) (Nat.le_of_succ_le h₂)
      rw [Nat.cast_succ, Int.add_sub_cancel, hb, hstr, hsuffix]
      dsimp only
      by_cases hab : a = b
      · subst hab
        rw [if_neg (not_not_intro rfl), hnext]
        simp only [Nat.add_lt_add_iff_right, concat_suffix_concat, true_and]
      · rw [if_pos hab, if_neg fun h => hab (concat_suffix_concat.mp h.2).1.symm]
        simp [concat_suffix_concat, hab]

theorem stringEndswith_iff (str suffix : StrValue) :
    stringEndswith str.text suffix.text = some (decide (suffix.text <:+ str.text)) ↔
      EndswithWhen str.text suffix.text := by
  have hfits := str.fits
  have hfits' := suffix.fits
  rw [stringEndswith, EndswithWhen]
  by_cases hsuffix : suffix.text.length < 2 ^ 31
  · have hword : s32 suffix.text.length = suffix.text.length := s32_of_fits ⟨by omega, by omega⟩
    rw [hword, if_pos hsuffix]
    by_cases hnil : suffix.text = []
    · rw [hnil, endswithLoop, if_neg (by decide)]
      simp
    · have hpos := List.length_pos_iff.mpr hnil
      rw [or_iff_right hnil]
      by_cases hstr : str.text.length < 2 ^ 31
      · have hloop := endswithLoop_eq (Nat.le_refl str.text.length) (Nat.le_refl suffix.text.length)
        rw [List.take_length, List.take_length] at hloop
        rw [s32_of_fits ⟨by omega, by omega⟩, hloop, and_iff_right hstr,
          Option.ite_none_left_eq_some, and_iff_left rfl]
      · have hneg : s32 str.text.length < 0 := by
          rw [s32_of_over (by omega) (by omega)]
          omega
        have hout := @strAt_of_neg str.text (s32 str.text.length - 1) (by omega)
        rw [endswithLoop, if_pos (by omega), hout]
        refine iff_of_false ?_ fun h => hstr h.1
        cases strAt suffix.text (suffix.text.length - 1) with
        | none | some => exact (Option.some_ne_none _).symm
  · have hneg : s32 suffix.text.length < 0 := by
      rw [s32_of_over (by omega) (by omega)]
      omega
    rw [if_neg hsuffix, endswithLoop, if_neg (by omega)]
    simp

/-! ### `strip` -/

section
variable {toStrip : BitVec 8}

/-- The last of a run, as the entry behind the others. -/
theorem replicate_succ_append (k : Nat) (tail : Bytes) :
    List.replicate (k + 1) toStrip ++ tail = List.replicate k toStrip ++ toStrip :: tail := by
  rw [List.replicate_succ', List.append_assoc, List.singleton_append]

/-- Over a run of the character the second loop goes down to what is in front of it. -/
theorem stripEndLoop_replicate {kept tail : Bytes} {last : BitVec 8} (h : last ≠ toStrip)
    (k : Nat) : stripEndLoop toStrip (kept ++ last :: (List.replicate k toStrip ++ tail))
      (kept.length + k : Nat) =
      store (kept ++ last :: (List.replicate k toStrip ++ tail)) (kept.length + 1) [0] := by
  induction k generalizing tail with
  | zero =>
    rw [stripEndLoop, if_pos (Int.natCast_nonneg _), Int.toNat_natCast, Nat.add_zero,
      List.getElem?_append_right (Nat.le_refl _), Nat.sub_self, List.getElem?_cons_zero]
    exact if_pos h
  | succ k ih =>
    have hget : (kept ++ last :: (List.replicate (k + 1) toStrip ++ tail))[kept.length + (k + 1)]? =
        some toStrip := by
      rw [List.getElem?_append_right (Nat.le_add_right _ _), Nat.add_sub_cancel_left,
        List.getElem?_cons_succ, List.getElem?_append_left (by rw [List.length_replicate]; omega),
        List.getElem?_replicate_of_lt (Nat.lt_succ_self k)]
    rw [stripEndLoop, if_pos (Int.natCast_nonneg _), Int.toNat_natCast, hget]
    dsimp only
    rw [if_neg (not_not_intro rfl), replicate_succ_append, ← ih]
    congr 1
    omega

/-- In a text of nothing else it finds nothing. -/
theorem stripEndLoop_all (tail : Bytes) (k : Nat) :
    stripEndLoop toStrip (List.replicate k toStrip ++ tail) (k - 1) =
      some (List.replicate k toStrip ++ tail) := by
  induction k generalizing tail with
  | zero => rw [stripEndLoop, if_neg (by omega)]
  | succ k ih =>
    have hget : (List.replicate (k + 1) toStrip ++ tail)[k]? = some toStrip := by
      rw [List.getElem?_append_left (by rw [List.length_replicate]; omega),
        List.getElem?_replicate_of_lt (Nat.lt_succ_self k)]
    rw [stripEndLoop, Nat.cast_succ, Int.add_sub_cancel, if_pos (Int.natCast_nonneg _),
      Int.toNat_natCast, hget]
    dsimp only
    rw [if_neg (not_not_intro rfl), replicate_succ_append, ih]

/-- A text with another character, between the runs at its ends. -/
theorem exists_trim {c : BitVec 8} {text : CString} (h : ∃ b ∈ text, b ≠ c) :
    ∃ front mid last k, text = front ++ (mid ++ last :: List.replicate k c) ∧ last ≠ c ∧
      trim c text = mid ++ [last] ∧ text.findIdx? (· != c) = some front.length := by
  have hne : text.dropWhile (· == c) ≠ [] := by
    obtain ⟨b, hb, hbc⟩ := h
    intro hnil
    have hall := List.dropWhile_eq_nil_iff.mp hnil b hb
    exact hbc (beq_iff_eq.mp hall)
  have hhead := List.head_dropWhile_not (· == c) hne
  have htrim : trim c text ≠ [] := by
    intro hnil
    have hall := List.rdropWhile_eq_nil_iff.mp hnil _ (List.head_mem hne)
    rw [hhead] at hall
    cases hall
  have hback : (text.dropWhile (· == c)).rtakeWhile (· == c) =
      List.replicate ((text.dropWhile (· == c)).rtakeWhile (· == c)).length c := by
    refine List.eq_replicate_iff.mpr ⟨rfl, fun b hb => ?_⟩
    exact beq_iff_eq.mp (@List.mem_rtakeWhile_imp _ (· == c) _ b hb)
  have hsplit : text = text.takeWhile (· == c) ++ (trim c text ++
      (text.dropWhile (· == c)).rtakeWhile (· == c)) := by
    rw [trim, List.rdropWhile_append_rtakeWhile, List.takeWhile_append_dropWhile]
  have hlast := List.rdropWhile_last_not (· == c) (text.dropWhile (· == c)) htrim
  have hconcat := List.dropLast_concat_getLast htrim
  refine ⟨text.takeWhile (· == c), (trim c text).dropLast, (trim c text).getLast htrim,
    ((text.dropWhile (· == c)).rtakeWhile (· == c)).length, ?_, ?_, hconcat.symm, ?_⟩
  · rw [← hback, ← List.singleton_append, ← List.append_assoc _ [_], hconcat]
    exact hsplit
  · intro heq
    exact hlast (beq_iff_eq.mpr heq)
  · have hfront : (text.takeWhile (· == c)).findIdx? (· != c) = none := by
      rw [List.findIdx?_eq_none_iff]
      intro b hb
      rw [bne, List.mem_takeWhile_imp hb]
      rfl
    have hrest : (text.dropWhile (· == c)).findIdx? (· != c) = some 0 := by
      rw [← List.cons_head_tail hne, List.findIdx?_cons, bne, hhead]
      rfl
    have hall :=
      @List.findIdx?_append _ (text.takeWhile (· == c)) (text.dropWhile (· == c)) (· != c)
    rw [List.takeWhile_append_dropWhile, hfront, hrest] at hall
    rw [hall]
    simp

variable (str : StrValue) (chrs : List CString)

/-- What `strip` leaves: the copy behind its second loop, from the first other character on. -/
theorem stringStrip_text : (stringStrip str.text chrs).map SetOutcome.text =
    (stripEndLoop (stripChar chrs) (str.text ++ [0]) (s32 (str.text.length - 1))).bind
      fun buff => loadString buff ((str.text.findIdx? (· != stripChar chrs)).getD 0) := by
  rw [stringStrip, strsCopy_eq]
  simp only [Option.bind_eq_bind, Option.bind_some, untilZero_append str.noNul]
  cases stripEndLoop (stripChar chrs) (str.text ++ [0]) (s32 (str.text.length - 1)) with
  | none => rfl
  | some buff =>
    rw [Option.bind_some, Option.bind_some]
    cases loadString buff ((str.text.findIdx? (· != stripChar chrs)).getD 0) <;> rfl

/-- The run at the end is taken off where an `int` reaches it. -/
theorem stripped_of_le (hint : str.text.length ≤ 2 ^ 31) {front mid : CString}
    {last c : BitVec 8} {k : Nat} (hlast : last ≠ c)
    (htext : str.text = front ++ (mid ++ last :: List.replicate k c)) :
    (stripEndLoop c (str.text ++ [0]) (s32 (str.text.length - 1))).bind
      (loadString · front.length) = some (mid ++ [last]) := by
  have hlength : str.text.length = (front ++ mid).length + (k + 1) := by
    simp only [htext, List.length_append, List.length_cons, List.length_replicate]
    omega
  have hword : s32 (str.text.length - 1) = ((front ++ mid).length + k : Nat) := by
    rw [s32_of_fits ⟨by omega, by omega⟩]
    omega
  have hbuff : str.text ++ [0] = front ++ mid ++ last :: (List.replicate k c ++ [0]) := by
    rw [htext]
    simp
  have hbuff' : front ++ mid ++ last :: (List.replicate k c ++ [0]) =
      front ++ (mid ++ [last]) ++ (List.replicate k c ++ [0]) := by simp
  have hroom : [(0 : BitVec 8)].length ≤ (List.replicate k c ++ [0]).length := by
    rw [List.length_append]
    exact Nat.le_add_left _ _
  have hstore := store_append (front ++ (mid ++ [last])) hroom
  have hplace : (front ++ (mid ++ [last])).length = (front ++ mid).length + 1 := by
    simp only [List.length_append, List.length_singleton]
    omega
  have hclean : 0 ∉ mid ++ [last] := by
    intro h
    apply str.noNul
    rw [htext, ← List.singleton_append, ← List.append_assoc mid]
    exact List.mem_append_right _ (List.mem_append_left _ h)
  rw [hplace] at hstore
  have hdrop : (front ++ (mid ++ [last]) ++ [(0 : BitVec 8)] ++
      (List.replicate k c ++ [0]).drop [(0 : BitVec 8)].length).drop front.length =
      mid ++ [last] ++ 0 :: (List.replicate k c ++ [0]).drop [(0 : BitVec 8)].length := by
    rw [List.append_assoc, List.append_assoc, List.drop_left]
    rfl
  rw [hword, hbuff, stripEndLoop_replicate hlast, hbuff', hstore, Option.bind_some]
  exact loadString_of_drop hdrop hclean

/-- The second loop does not begin behind what an `int` reaches. -/
theorem stripEndLoop_of_lt (hint : 2 ^ 31 < str.text.length) (c : BitVec 8) (buff : Bytes) :
    stripEndLoop c buff (s32 (str.text.length - 1)) = some buff := by
  have hfits := str.fits
  rw [stripEndLoop, if_neg]
  rw [s32_of_over (by omega) (by omega)]
  omega

/-- There the run at the end stays. -/
theorem stripped_of_lt (hint : 2 ^ 31 < str.text.length) {front rest : CString} {c : BitVec 8}
    (htext : str.text = front ++ rest) :
    (stripEndLoop c (str.text ++ [0]) (s32 (str.text.length - 1))).bind
      (loadString · front.length) = some rest := by
  have hclean : 0 ∉ rest := by
    intro h
    apply str.noNul
    rw [htext]
    exact List.mem_append_right _ h
  have hdrop : (str.text ++ [0]).drop front.length = rest ++ 0 :: [] := by
    rw [htext, List.append_assoc, List.drop_left]
  rw [stripEndLoop_of_lt str hint, Option.bind_some, loadString_of_drop hdrop hclean]

/-- A text that is one run is left as it is. -/
theorem stripped_of_all {c : BitVec 8} (heq : ∀ b ∈ str.text, b = c) :
    (stripEndLoop c (str.text ++ [0]) (s32 (str.text.length - 1))).bind
      (fun buff => loadString buff ((str.text.findIdx? (· != c)).getD 0)) = some str.text := by
  have hall : str.text = List.replicate str.text.length c :=
    List.eq_replicate_iff.mpr ⟨rfl, heq⟩
  have hstart : str.text.findIdx? (· != c) = none := by
    rw [List.findIdx?_eq_none_iff]
    intro b hb
    rw [heq b hb]
    exact bne_self_eq_false c
  have hloop : stripEndLoop c (str.text ++ [0]) (s32 (str.text.length - 1)) =
      some (str.text ++ [0]) := by
    by_cases hint : str.text.length ≤ 2 ^ 31
    · have hrun := @stripEndLoop_all c [0] str.text.length
      rwa [← hall, ← @s32_of_fits (str.text.length - 1) ⟨by omega, by omega⟩] at hrun
    · exact stripEndLoop_of_lt str (by omega) c _
  rw [hloop, hstart, Option.bind_some, Option.getD_none]
  exact loadString_of_drop List.drop_zero str.noNul

/-- **`strip` takes the runs off if and only if** they are not all of the text, and the one at the
end is reached. -/
theorem stringStrip_iff : (stringStrip str.text chrs).map SetOutcome.text =
    some (trim (stripChar chrs) str.text) ↔ StripWhen str.text (stripChar chrs) := by
  rw [stringStrip_text, StripWhen]
  generalize stripChar chrs = c
  by_cases hother : ∃ b ∈ str.text, b ≠ c
  · obtain ⟨front, mid, last, k, htext, hlast, htrim, hstart⟩ := exists_trim hother
    rw [hstart, htrim, Option.getD_some, and_iff_right (.inr hother)]
    by_cases hint : str.text.length ≤ 2 ^ 31
    · exact iff_of_true (stripped_of_le str hint hlast htext) (.inl hint)
    · rw [stripped_of_lt str (by omega) htext, or_iff_right hint, htext]
      cases k with
      | zero => simp [hlast]
      | succ k =>
        have hend : (front ++ (mid ++ last :: List.replicate (k + 1) c)).getLast? = some c := by
          rw [List.replicate_succ', ← List.cons_append, ← List.append_assoc, ← List.append_assoc,
            List.getLast?_concat]
        refine iff_of_false (fun h => ?_) fun h => h hend
        have hsizes := congrArg List.length (Option.some.inj h)
        simp at hsizes
  · have heq : ∀ b ∈ str.text, b = c := fun b hb => by
      by_contra hne
      exact hother ⟨b, hb, hne⟩
    have htrim : trim c str.text = [] := by
      rw [trim, List.dropWhile_eq_nil_iff.mpr fun b hb => ?_, List.rdropWhile_nil]
      rw [heq b hb]
      exact beq_self_eq_true c
    rw [stripped_of_all str heq, htrim, or_iff_left hother, Option.some.injEq]
    refine (and_iff_left_of_imp fun hnil => ?_).symm
    rw [hnil]
    exact .inl (Nat.zero_le _)

end

/-- **Runs and affixes are right if and only if** the text is empty or not only of the character,
a longer affix does not end with it, and the indices at which they differ are an `int`. -/
theorem affix_iff (str : StrValue) (chrs : List StrValue) (affix : StrValue) :
    AffixLaw str chrs affix ↔
      StripWhen str.text (stripChar (chrs.map StrValue.text)) ∧
        StartswithWhen str.text affix.text ∧ EndswithWhen str.text affix.text := by
  rw [← stringStrip_iff, ← stringStartswith_iff, ← stringEndswith_iff]
  exact ⟨fun h => ⟨h.strip, h.startswith, h.endswith⟩, fun h => ⟨h.1, h.2.1, h.2.2⟩⟩

/-- A space. -/
def space : StrValue := ⟨[0x20], by decide, by decide⟩

/-- **A text of nothing but spaces stays as it is.** -/
theorem not_affix : ¬ ∀ (str : StrValue) (chrs : List StrValue) (affix : StrValue),
    AffixLaw str chrs affix := by
  intro h
  have hstrip := ((stringStrip_iff space []).mp (h space [] space).strip).1
  revert hstrip
  decide

end PikaScript
