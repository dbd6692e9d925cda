import PikaScript.Data.Utf8Valid
import PikaScript.VM.Repeat

/-! Indexing a `str` by characters.

A character is found by a walk over the ones before it. `_utf8_get_offset` does not test, as
`_utf8_get` does, that the walk has stopped before the end, and `__setitem__` bounds it by a
`uint16_t`. A character is replaced in place when the new one is not longer, and else in a new
string. -/
namespace PikaScript
open Memory

/-! ### The code -/

/-- `_utf8_strlen`; none when it reads outside the text. -/
def utf8Strlen (string : CString) (length : Int) : Option Int :=
  utf8StrlenLoop string (if length < 0 then s32 string.length else length) 0

/-- The loop of `_utf8_get_offset` and what follows it, over a text and its NUL: where the
character is and how many bytes it has, or a negative result. -/
def utf8OffsetLoop (p : Bytes) (length at' : Int) (offset : Nat) : Option (Option (Nat × Nat)) :=
  if 0 < length ∧ at' ≠ 0 then
    match p with
    | [] => none
    | c :: _ =>
      utf8OffsetLoop (p.drop (utf8Step c)) (length - utf8Step c) (at' - 1) (offset + utf8Step c)
  else if at' ≠ 0 then some none
  else
    match p with
    | [] => none
    | c :: _ => some (some (offset, utf8Step c))
termination_by length.toNat
decreasing_by
  have := utf8Step_pos c
  omega

/-- `_utf8_get_offset`. -/
def utf8GetOffset (string : CString) (length at' : Int) : Option (Option (Nat × Nat)) :=
  let length := if length < 0 then s32 string.length else length
  if at' < 0 ∨ at' ≥ length then some none else utf8OffsetLoop (string ++ [0]) length at' 0

/-- An `int` that is passed as a `size_t`. -/
def sizeOfInt (n : Int) : Nat := (n % 2 ^ 64).toNat

/-- `strsAppend`. None when it writes outside its buffer. -/
def strsAppend (strOrigin strToAppend : CString) : Option CString :=
  (store (argsGetBuff (s32 (strOrigin.length + strToAppend.length))) 0
    (strOrigin ++ strToAppend ++ [0])).bind untilZero

/-- `__str_repl` of a `str` and its NUL. None when it reads or writes outside. -/
def strRepl (str : CString) (strLen : Int) (replAt replLen : Nat) (val : CString) (valLen : Int) :
    Option CString :=
  if valLen > replLen then do
    let buff ← store (str ++ [0]) replAt [0]
    let new ← strsAppend (← untilZero buff) val
    strsAppend new (← loadString buff (replAt + replLen))
  else do
    let buff ← store (str ++ [0]) replAt (← loadBytes (val ++ [0]) 0 (sizeOfInt valLen))
    let moved ← loadBytes buff (replAt + replLen) (sizeOfInt (strLen - replAt - replLen + 1))
    untilZero (← store buff (replAt + valLen.toNat) moved)

/-- The `str` after `__setitem__`, and the error it has set. -/
structure SetOutcome where
  text : CString
  error : Option String
deriving DecidableEq, Repr

/-- `PikaStdData_String___setitem__`. -/
def stringSetitem (str : CString) (key : Int) (val : CString) : Option SetOutcome := do
  let keyI := s32 key
  let len := u16 str.length
  let len2 := s32 val.length
  let isInvalid ← validUtf8 val len2
  if isInvalid ≥ 0 then return ⟨str, some "Error String invalid"⟩
  let ulenVal ← utf8Strlen val len2
  if ulenVal ≠ 1 then return ⟨str, some "Error String invalid char"⟩
  match ← utf8GetOffset str len keyI with
  | none => return ⟨str, some "Error String Overflow"⟩
  | some (replAt, charLen) => return ⟨← strRepl str len replAt charLen val len2, none⟩

/-! ### Walks over text -/

/-- How many bytes the character at an index has; the NUL behind them has one. -/
def widthAt (cs : List Char) (k : Nat) : Nat := (cs[k]?.elim 1 fun c => (encodeChar c).length)

/-- The walk over so many characters finds what is behind them, if the last of them starts
before the length. -/
theorem utf8OffsetLoop_encodeText (cs : List Char) {length : Int}
    (hlength : length ≤ (encodeText cs).length) (k offset : Nat) :
    utf8OffsetLoop (encodeText cs ++ [0]) length k offset =
      some (if k = 0 ∨ charOffset cs (k - 1) < length then
        some (offset + charOffset cs k, widthAt cs k) else none) := by
  induction cs generalizing length k offset with
  | nil =>
    have hle : length ≤ 0 := hlength
    rw [utf8OffsetLoop.eq_def, if_neg (by omega)]
    cases k with
    | zero =>
      rw [if_neg (by omega), if_pos (.inl rfl)]
      rfl
    | succ k =>
      have hzero : charOffset [] (k + 1 - 1) = 0 := by rw [charOffset, List.take_nil]; rfl
      rw [if_pos (by omega), if_neg (by rw [hzero]; omega)]
  | cons c cs ih =>
    obtain ⟨first, rest, hcons, hstep, hdrop, -⟩ := exists_encodeText_cons c cs
    have hsplit :
        (encodeText (c :: cs)).length = (encodeChar c).length + (encodeText cs).length := by
      rw [encodeText_cons, List.length_append]
    have hbuff : encodeText (c :: cs) ++ [0] = first :: (rest ++ [0]) := by
      rw [hcons, List.cons_append]
    rw [utf8OffsetLoop.eq_def]
    cases k with
    | zero =>
      rw [if_neg (by omega), if_neg (by omega), if_pos (.inl rfl), hbuff]
      dsimp only
      rw [hstep]
      rfl
    | succ k =>
      by_cases hpos : 0 < length
      · have hrest :
            (encodeText (c :: cs) ++ [0]).drop (utf8Step first) = encodeText cs ++ [0] := by
          rw [List.drop_append_of_le_length (by omega), hdrop]
        rw [if_pos ⟨hpos, by omega⟩, hbuff]
        dsimp only
        rw [← hbuff, hrest, hstep, show (((k + 1 : Nat) : Int) - 1) = (k : Int) by omega,
          ih (by omega), charOffset_cons_succ, Nat.add_assoc]
        congr 1
        have hiff : (k = 0 ∨ (charOffset cs (k - 1) : Int) < length - (encodeChar c).length) ↔
            (k + 1 = 0 ∨ (charOffset (c :: cs) (k + 1 - 1) : Int) < length) := by
          cases k with
          | zero =>
            have hzero : charOffset (c :: cs) (0 + 1 - 1) = 0 := rfl
            rw [hzero]
            omega
          | succ k =>
            rw [Nat.add_sub_cancel, Nat.add_sub_cancel, charOffset_cons_succ]
            omega
        simp only [hiff]
        rfl
      · rw [if_neg (by omega), if_pos (by omega), if_neg (by omega)]

namespace TextValue
variable (str : TextValue)

/-- The index is one of a character. -/
def InRange (n : Int) : Prop := 0 ≤ n ∧ n < str.chars.length

instance (n : Int) : Decidable (str.InRange n) :=
  inferInstanceAs (Decidable (0 ≤ n ∧ n < str.chars.length))

/-- The walk bounded by a length finds something at an index. -/
def Finds (length n : Int) : Prop :=
  0 ≤ n ∧ n < length ∧ (n = 0 ∨ charOffset str.chars (n.toNat - 1) < length)

instance (length n : Int) : Decidable (str.Finds length n) :=
  inferInstanceAs (Decidable (0 ≤ n ∧ n < length ∧
    (n = 0 ∨ charOffset str.chars (n.toNat - 1) < length)))

/-- What `_utf8_get_offset` finds. -/
theorem utf8GetOffset_eq {length : Int} (hneg : ¬length < 0) (hle : length ≤ str.text.length)
    (n : Int) : utf8GetOffset str.text length n = some (if str.Finds length n then
      some (charOffset str.chars n.toNat, widthAt str.chars n.toNat) else none) := by
  rw [utf8GetOffset, if_neg hneg]
  by_cases hbounds : n < 0 ∨ n ≥ length
  · rw [if_pos hbounds, if_neg fun h => by have := h.1; have := h.2.1; omega]
  · obtain ⟨k, rfl⟩ := Int.eq_ofNat_of_zero_le (Int.not_lt.mp (not_or.mp hbounds).1)
    rw [if_neg hbounds, str.encoded,
      utf8OffsetLoop_encodeText str.chars (by rw [← str.encoded]; exact hle), Nat.zero_add]
    have hiff : str.Finds length (k : Nat) ↔ (k = 0 ∨ charOffset str.chars (k - 1) < length) := by
      rw [Finds, Int.toNat_natCast]
      omega
    simp only [hiff, Int.toNat_natCast]

/-! ### Counting and finding -/

/-- The bytes of the character at an index. -/
def charAt (n : Int) : Option Bytes :=
  if 0 ≤ n then str.chars[n.toNat]?.map encodeChar else none

/-- The `length` argument: the size of the text as an `int`, or -1 for `strlen`. -/
def lengthArg (given : Bool) : Int := if given then s32 str.text.length else -1

/-- `_utf8_strlen` counts the characters, and `_utf8_get` and `_utf8_get_offset` find the one at
an index, if and only if there is one. -/
structure IndexLaw (given : Bool) (n : Int) : Prop where
  strlen : utf8Strlen str.text (str.lengthArg given) = some (str.chars.length : Int)
  get : utf8Get str.text (str.lengthArg given) n = some (str.charAt n)
  offset : utf8GetOffset str.text (str.lengthArg given) n = some (if str.InRange n then
    some (charOffset str.chars n.toNat, widthAt str.chars n.toNat) else none)

/-- Given or not, the length is the size of the text as an `int`. -/
theorem length_lengthArg (given : Bool) : (if str.lengthArg given < 0 then
    s32 str.text.length else str.lengthArg given) = s32 str.text.length := by
  cases given
  · exact if_pos (by decide : (-1 : Int) < 0)
  · simp only [lengthArg, if_true, ite_self]

/-- The text around a character. -/
theorem text_eq {n : Nat} (h : n < str.chars.length) : str.text =
    encodeText (str.chars.take n) ++ (encodeChar str.chars[n] ++
      encodeText (str.chars.drop (n + 1))) := by
  rw [← encodeText_cons, ← List.drop_eq_getElem_cons h, encodeText, encodeText,
    ← List.flatMap_append, List.take_append_drop, str.encoded]
  rfl

theorem charOffset_add_le {n : Nat} (h : n < str.chars.length) :
    charOffset str.chars n + (encodeChar str.chars[n]).length ≤ str.text.length := by
  have hlength := congrArg List.length (str.text_eq h)
  rw [List.length_append, List.length_append] at hlength
  rw [charOffset]
  omega

theorem charOffset_lt {n : Nat} (h : n < str.chars.length) :
    charOffset str.chars n < str.text.length := by
  have hle := str.charOffset_add_le h
  have hpos := length_encodeChar_pos str.chars[n]
  omega

theorem charOffset_of_ge {n : Nat} (h : str.chars.length ≤ n) :
    charOffset str.chars n = str.text.length := by
  rw [charOffset_of_length_le h, str.encoded]

/-- The walk bounded by the whole text finds the characters, and the NUL behind them if one of
them has more than a byte. -/
theorem finds_iff {n : Int} : str.Finds str.text.length n ↔
    str.InRange n ∨ n = str.chars.length ∧ str.chars.length < str.text.length := by
  have hle := str.length_chars_le
  unfold Finds InRange
  constructor
  · rintro ⟨hpos, hlt, h⟩
    by_cases hrange : n < str.chars.length
    · exact .inl ⟨hpos, hrange⟩
    · have hcount : n = 0 ∨ n.toNat - 1 < str.chars.length := h.imp_right fun hoffset => by
        by_contra hge
        rw [str.charOffset_of_ge (Nat.not_lt.mp hge)] at hoffset
        exact Int.lt_irrefl _ hoffset
      omega
  · rintro (⟨hpos, hlt⟩ | ⟨rfl, hlt⟩)
    · refine ⟨hpos, by omega, or_iff_not_imp_left.mpr fun hzero => ?_⟩
      exact_mod_cast str.charOffset_lt (by omega)
    · refine ⟨by omega, by omega, or_iff_not_imp_left.mpr fun hzero => ?_⟩
      exact_mod_cast str.charOffset_lt (by omega)

/-- **Characters are counted and found if and only if** the size is an `int` and the index is not
the one behind the last character, unless all are ASCII. -/
theorem indexLaw_iff (given : Bool) (n : Int) : str.IndexLaw given n ↔
    str.text.length < 2 ^ 31 ∧ (n = str.chars.length → str.chars.length = str.text.length) := by
  have hfits := str.fits
  have hle := str.length_chars_le
  have hcounted : utf8Strlen str.text (str.lengthArg given) = some str.sizeUtf8 := by
    rw [utf8Strlen, length_lengthArg]
    exact str.strGetSizeUtf8_eq
  by_cases hsize : str.text.length < 2 ^ 31
  · have hword : s32 str.text.length = str.text.length := s32_of_fits ⟨by omega, by omega⟩
    have hlength := (str.length_lengthArg given).trans hword
    have hneg : ¬(str.text.length : Int) < 0 := by omega
    have hget : utf8Get str.text (str.lengthArg given) n = some (str.charAt n) := by
      unfold utf8Get charAt
      dsimp only
      rw [hlength]
      by_cases hbounds : n < 0 ∨ n ≥ str.text.length
      · rw [if_pos hbounds]
        split
        · rw [List.getElem?_eq_none (by omega), Option.map_none]
        · rfl
      · obtain ⟨k, rfl⟩ := Int.eq_ofNat_of_zero_le (Int.not_lt.mp (not_or.mp hbounds).1)
        have hwalk := @utf8GetLoop_encodeText str.chars str.text.length (by rw [str.encoded]) k
        rw [← str.encoded] at hwalk
        rw [if_neg hbounds, hwalk, if_pos (Int.natCast_nonneg k), Int.toNat_natCast]
        split
        · rfl
        · rename_i hoffset
          rw [List.getElem?_eq_none, Option.map_none]
          by_contra hlt
          exact hoffset (by exact_mod_cast str.charOffset_lt (Nat.not_le.mp hlt))
    have hoffset : utf8GetOffset str.text (str.lengthArg given) n =
        utf8GetOffset str.text str.text.length n := by
      rw [utf8GetOffset, utf8GetOffset, hlength, if_neg hneg]
    rw [str.utf8GetOffset_eq hneg (Int.le_refl _)] at hoffset
    rw [and_iff_right hsize]
    constructor
    · intro h hlast
      by_contra hne
      have hfinds := str.finds_iff.mpr (.inr ⟨hlast, by omega⟩)
      have hrange : ¬str.InRange n := fun hrange => by have := hrange.2; omega
      have hresult := hoffset.symm.trans h.offset
      rw [if_pos hfinds, if_neg hrange] at hresult
      cases hresult
    · intro hlast
      have hiff : str.Finds str.text.length n ↔ str.InRange n := by
        rw [finds_iff]
        exact or_iff_left fun h => Nat.ne_of_lt h.2 (hlast h.1)
      refine ⟨?_, hget, ?_⟩
      · rw [hcounted, sizeUtf8, if_pos hsize]
      · rw [hoffset]
        simp only [hiff]
  · refine iff_of_false (fun h => ?_) fun h => hsize h.1
    have hstrlen := hcounted.symm.trans h.strlen
    rw [sizeUtf8, if_neg hsize, Option.some.injEq] at hstrlen
    omega

end TextValue

/-! ### Replacing -/

/-- The buffer of so many bytes and a NUL, if a `uint32_t` holds their number. -/
theorem length_buff (size : Nat) : (argsGetBuff (s32 size)).length = (size + 1) % 2 ^ 32 := by
  have hsum : s32 (s32 size + 1) % 2 ^ 32 = (size + 1) % 2 ^ 32 := by
    rw [s32_emod, Int.add_emod, s32_emod, ← Int.add_emod]
  rw [argsGetBuff, List.length_replicate, hsum]
  omega

/-- **A text is appended if and only if** a `uint32_t` holds the size of both. -/
theorem strsAppend_eq {a b : CString} (ha : 0 ∉ a) (hb : 0 ∉ b) : strsAppend a b =
    if a.length + b.length + 1 < 2 ^ 32 then some (a ++ b) else none := by
  have hbuff := length_buff (a.length + b.length)
  have hlength : (a ++ b ++ [0]).length = a.length + b.length + 1 := by
    rw [List.length_append, List.length_append, List.length_singleton]
  rw [strsAppend]
  push_cast at hbuff
  split
  · rename_i hlt
    have hroom : (a ++ b ++ [0]).length ≤ (argsGetBuff (s32 (a.length + b.length))).length := by
      rw [hlength, hbuff]
      omega
    have hstore := store_append [] hroom
    rw [List.nil_append, List.nil_append, List.length_nil] at hstore
    rw [hstore, Option.bind_some, List.append_assoc, List.singleton_append]
    refine untilZero_append ?_
    rw [List.mem_append, not_or]
    exact ⟨ha, hb⟩
  · rename_i hge
    have hstore : store (argsGetBuff (s32 (a.length + b.length))) 0 (a ++ b ++ [0]) = none :=
      if_neg (by rw [hlength, hbuff]; omega)
    rw [hstore, Option.bind_none]

section
variable {front char back val : CString} {strLen : Int}

/-- A longer character goes into a new string. -/
theorem strRepl_longer (hfront : 0 ∉ front) (hback : 0 ∉ back) (hchar : char ≠ [])
    (hlt : char.length < val.length) :
    strRepl (front ++ (char ++ back)) strLen front.length char.length val val.length =
      (strsAppend front val).bind fun new => strsAppend new back := by
  obtain ⟨c, char, rfl⟩ := List.exists_cons_of_ne_nil hchar
  have hstore : store (front ++ (c :: char ++ back) ++ [0]) front.length [0] =
      some (front ++ 0 :: (char ++ (back ++ [0]))) := by
    rw [List.append_assoc, store_append front (by simp), List.append_assoc]
    simp
  have hdrop : (front ++ 0 :: (char ++ (back ++ [0]))).drop (front.length + (c :: char).length) =
      back ++ [0] := by
    rw [← List.drop_drop, List.drop_left, List.length_cons, List.drop_succ_cons, List.drop_left]
  rw [strRepl, if_pos (by exact_mod_cast hlt), hstore]
  simp only [Option.bind_eq_bind, Option.bind_some, untilZero_append hfront,
    loadString_of_drop hdrop hback]

/-- A character that is not longer goes in place, and what is behind it is moved up to it. -/
theorem strRepl_in_place {old : CString} (hchar : char.length = val.length)
    (hval : val.length < 2 ^ 32) :
    strRepl (front ++ (char ++ old ++ back)) strLen front.length (char ++ old).length val
        val.length =
      let count := sizeOfInt (strLen - front.length - (char ++ old).length + 1)
      if count ≤ back.length + 1 then
        untilZero (front ++ val ++ ((back ++ [0]).take count) ++ (old ++ (back ++ [0])).drop count)
      else none := by
  have hsize : sizeOfInt val.length = val.length := by
    unfold sizeOfInt
    omega
  have hbytes : loadBytes (val ++ [0]) 0 val.length = some val :=
    loadBytes_of_drop (Nat.zero_le _) List.drop_zero
  have hstore : store (front ++ (char ++ old ++ back) ++ [0]) front.length val =
      some (front ++ val ++ (old ++ (back ++ [0]))) := by
    have hassoc : front ++ (char ++ old ++ back) ++ [0] =
        front ++ (char ++ (old ++ (back ++ [0]))) := by
      simp only [List.append_assoc]
    rw [hassoc, store_append front (by rw [List.length_append]; omega), ← hchar, List.drop_left]
  rw [strRepl, if_neg (by rw [List.length_append, hchar]; omega), hsize, hbytes]
  simp only [Option.bind_eq_bind, Option.bind_some, hstore]
  generalize sizeOfInt (strLen - front.length - (char ++ old).length + 1) = count
  have hlength : (front ++ val ++ old).length = front.length + (char ++ old).length := by
    simp only [List.length_append]
    omega
  have hload : loadBytes (front ++ val ++ (old ++ (back ++ [0])))
      (front.length + (char ++ old).length) count =
      if count ≤ back.length + 1 then some ((back ++ [0]).take count) else none := by
    rw [← List.append_assoc, ← hlength, loadBytes, List.drop_left]
    congr 1
    simp only [List.length_append, List.length_singleton, eq_iff_iff]
    omega
  rw [hload]
  split
  · rename_i hle
    have htake : ((back ++ [0]).take count).length = count := by
      rw [List.length_take_of_le (by rw [List.length_append]; exact hle)]
    have hroom : ((back ++ [0]).take count).length ≤ (old ++ (back ++ [0])).length := by
      rw [htake, List.length_append, List.length_append, List.length_singleton]
      omega
    have hmove := store_append (front ++ val) hroom
    rw [List.length_append] at hmove
    rw [Option.bind_some, Int.toNat_natCast, hmove, htake]
    rfl
  · rfl

/-- **In place the character is replaced if and only if** all that is behind it is moved, or has
to stay. -/
theorem strRepl_in_place_iff {old : CString} (hchar : char.length = val.length)
    (hfront : 0 ∉ front) (hval : 0 ∉ val) (hold : 0 ∉ old) (hback : 0 ∉ back)
    (hle : strLen ≤ (front ++ (char ++ old ++ back)).length) (hlen : 0 ≤ strLen)
    (hsize : (front ++ (char ++ old ++ back)).length < 2 ^ 32) :
    strRepl (front ++ (char ++ old ++ back)) strLen front.length (char ++ old).length val
        val.length = some (front ++ (val ++ back)) ↔
      front.length + (char ++ old).length ≤ strLen + 1 ∧
        (old = [] ∨ strLen = (front ++ (char ++ old ++ back)).length) := by
  have hlength : (front ++ (char ++ old ++ back)).length =
      front.length + ((char ++ old).length + back.length) := by
    rw [List.length_append, @List.length_append _ (char ++ old)]
  have hnew : ∀ kept, 0 ∉ kept → ∀ rest,
      untilZero (front ++ val ++ kept ++ 0 :: rest) = some (front ++ val ++ kept) := by
    intro kept hkept rest
    refine untilZero_append ?_
    simp only [List.mem_append, not_or]
    exact ⟨⟨hfront, hval⟩, hkept⟩
  have hold_le : char.length ≤ (char ++ old).length := by
    rw [List.length_append]
    omega
  rw [strRepl_in_place hchar (by omega)]
  dsimp only
  by_cases hroom : front.length + (char ++ old).length ≤ strLen + 1
  · obtain ⟨count, hcount⟩ := Int.eq_ofNat_of_zero_le
      (by omega : 0 ≤ strLen - front.length - (char ++ old).length + 1)
    have hword : sizeOfInt (strLen - front.length - (char ++ old).length + 1) = count := by
      rw [hcount]
      unfold sizeOfInt
      omega
    rw [hword, if_pos (by omega), and_iff_right hroom, ← List.append_assoc front]
    rcases eq_or_ne old [] with rfl | hne
    · have hback := hnew back hback []
      rw [List.nil_append, List.append_assoc, List.take_append_drop, ← List.append_assoc, hback]
      simp only [true_or]
    · by_cases hall : count = back.length + 1
      · have htake : (back ++ [0]).take count = back ++ [0] :=
          List.take_of_length_le (by rw [hall, List.length_append]; rfl)
        have hback := hnew back hback ((old ++ (back ++ [0])).drop count)
        rw [htake, ← List.append_assoc, List.append_assoc, List.singleton_append, hback]
        exact iff_of_true rfl (.inr (by omega))
      · have htake : (back ++ [0]).take count = back.take count :=
          List.take_append_of_le_length (by omega)
        have hdrop : (old ++ (back ++ [0])).drop count = (old ++ back).drop count ++ [0] := by
          rw [← List.append_assoc, List.drop_append_of_le_length]
          rw [List.length_append]
          omega
        have hkept : 0 ∉ back.take count ++ (old ++ back).drop count := by
          rw [List.mem_append, not_or]
          refine ⟨fun h => hback (List.mem_of_mem_take h), fun h => ?_⟩
          exact (List.mem_append.mp (List.mem_of_mem_drop h)).elim hold hback
        have hmoved := hnew _ hkept []
        rw [htake, hdrop, ← List.append_assoc, List.append_assoc _ (back.take count), hmoved]
        refine iff_of_false (fun h => ?_) fun h => ?_
        · have hsizes := congrArg List.length (List.append_cancel_left (Option.some.inj h))
          have hpos := List.length_pos_iff.mpr hne
          simp only [List.length_append, List.length_take, List.length_drop] at hsizes
          omega
        · exact h.elim hne fun h => hall (by omega)
  · have hcount : ¬sizeOfInt (strLen - front.length - (char ++ old).length + 1) ≤
        back.length + 1 := by
      unfold sizeOfInt
      omega
    rw [if_neg hcount]
    exact iff_of_false (Option.some_ne_none _).symm fun h => hroom h.1

/-- **A character is replaced if and only if** a `uint32_t` holds the size of a new string, or in
place all that is behind it is moved up to it. -/
theorem strRepl_eq_iff (hfront : 0 ∉ front) (hchar : 0 ∉ char) (hback : 0 ∉ back) (hval : 0 ∉ val)
    (hne : char ≠ []) (hfits : (front ++ (char ++ back)).length + 1 < 2 ^ 32) :
    strRepl (front ++ (char ++ back)) (u16 (front ++ (char ++ back)).length) front.length
        char.length val val.length = some (front ++ (val ++ back)) ↔
      if char.length < val.length then
        (front ++ (char ++ back)).length + val.length + 1 < 2 ^ 32 + char.length
      else
        front.length + char.length ≤ u16 (front ++ (char ++ back)).length + 1 ∧
          (val.length = char.length ∨ (front ++ (char ++ back)).length < 2 ^ 16) := by
  have hle : u16 (front ++ (char ++ back)).length ≤ (front ++ (char ++ back)).length :=
    Nat.mod_le _ _
  have hlength : (front ++ (char ++ back)).length =
      front.length + (char.length + back.length) := by
    rw [List.length_append, List.length_append]
  split
  · rename_i hlonger
    rw [strRepl_longer hfront hback hne hlonger, strsAppend_eq hfront hval]
    split
    · have hnew : 0 ∉ front ++ val := by
        rw [List.mem_append, not_or]
        exact ⟨hfront, hval⟩
      have hboth : (front ++ val).length = front.length + val.length := List.length_append
      rw [Option.bind_some, strsAppend_eq hnew hback, List.append_assoc]
      split
      · exact iff_of_true rfl (by omega)
      · exact iff_of_false (Option.some_ne_none _).symm (by omega)
    · exact iff_of_false (Option.some_ne_none _).symm (by omega)
  · rename_i hshorter
    obtain ⟨old, rest, rfl, hold⟩ : ∃ old rest, char = old ++ rest ∧ old.length = val.length :=
      ⟨char.take val.length, char.drop val.length, (List.take_append_drop ..).symm,
        List.length_take_of_le (Nat.not_lt.mp hshorter)⟩
    have hrest : 0 ∉ rest := fun h => hchar (List.mem_append_right _ h)
    have hsplit : (old ++ rest).length = old.length + rest.length := List.length_append
    have hkept : rest = [] ↔ val.length = (old ++ rest).length := by
      rw [← List.length_eq_zero_iff]
      omega
    rw [strRepl_in_place_iff hold hfront hval hrest hback (by omega) (by omega) (by omega), hkept]
    unfold u16 at hle ⊢
    omega

end

/-! ### Setting -/

theorem length_encodeChar_le (c : Char) : (encodeChar c).length ≤ 4 := by
  rw [length_encodeChar]
  exact c.utf8Size_le_four

/-- One character is accepted. -/
theorem stringSetitem_of_char (str : TextValue) (key : Int) (c : Char) :
    stringSetitem str.text key (encodeChar c) =
      if str.Finds (u16 str.text.length) (s32 key) then
        (strRepl str.text (u16 str.text.length) (charOffset str.chars (s32 key).toNat)
          (widthAt str.chars (s32 key).toNat) (encodeChar c) (encodeChar c).length).map (⟨·, none⟩)
      else some ⟨str.text, some "Error String Overflow"⟩ := by
  have hsize := length_encodeChar_le c
  have hword : s32 (encodeChar c).length = (encodeChar c).length :=
    s32_of_fits ⟨by omega, by omega⟩
  have hone : encodeChar c = encodeText [c] := (List.flatMap_singleton ..).symm
  have hneg : ¬((encodeChar c).length : Int) < 0 := by omega
  have hvalid : validUtf8 (encodeChar c) (encodeChar c).length = some (-1) := by
    obtain ⟨result, hresult, -, hiff⟩ := validUtf8Loop_spec (encodeChar c) 0
    rw [validUtf8, if_neg hneg, hresult, hiff.mpr (wellFormed_iff.mpr ⟨[c], hone⟩)]
  have hcount : utf8Strlen (encodeChar c) (encodeChar c).length = some 1 := by
    rw [utf8Strlen, if_neg hneg, hone, utf8StrlenLoop_encodeText]
    rfl
  have hle : u16 str.text.length ≤ str.text.length := Nat.mod_le _ _
  have hoffset := @TextValue.utf8GetOffset_eq str (u16 str.text.length) (by omega) (by omega)
    (s32 key)
  unfold stringSetitem
  simp only [hword, hvalid, hcount, hoffset, Option.bind_eq_bind, Option.bind_some]
  by_cases hfinds : str.Finds (u16 str.text.length) (s32 key)
  · simp only [if_pos hfinds]
    cases strRepl str.text (u16 str.text.length) (charOffset str.chars (s32 key).toNat)
      (widthAt str.chars (s32 key).toNat) (encodeChar c) (encodeChar c).length <;> rfl
  · simp only [if_neg hfinds]
    rfl

/-- Anything else is an error. -/
theorem stringSetitem_of_not_char (str : CString) (key : Int) (val : StrValue)
    (hval : ∀ c, val.text ≠ encodeChar c) :
    ∃ error, stringSetitem str key val.text = some ⟨str, some error⟩ := by
  have hfits := val.fits
  unfold stringSetitem
  by_cases hsize : val.text.length < 2 ^ 31
  · have hword : s32 val.text.length = val.text.length := s32_of_fits ⟨by omega, by omega⟩
    have hneg : ¬(val.text.length : Int) < 0 := by omega
    obtain ⟨result, hresult, hle, hiff⟩ := validUtf8Loop_spec val.text 0
    have hvalid : validUtf8 val.text val.text.length = some result := by
      rw [validUtf8, if_neg hneg, hresult]
    simp only [hword, hvalid, Option.bind_eq_bind, Option.bind_some]
    by_cases hformed : result = -1
    · obtain ⟨cs, hcs⟩ := wellFormed_iff.mp (hiff.mp hformed)
      have hcount : utf8Strlen val.text val.text.length = some (cs.length : Int) := by
        rw [utf8Strlen, if_neg hneg, hcs, utf8StrlenLoop_encodeText, Int.zero_add]
      have hone : (cs.length : Int) ≠ 1 := by
        intro hone
        obtain ⟨c, rfl⟩ := List.length_eq_one_iff.mp (by exact_mod_cast hone)
        exact hval c (hcs.trans (List.flatMap_singleton ..))
      rw [if_neg (by omega), hcount]
      rw [Option.bind_some, if_pos hone]
      exact ⟨_, rfl⟩
    · rw [if_pos (by omega)]
      exact ⟨_, rfl⟩
  · have hword : s32 val.text.length = val.text.length - 2 ^ 32 :=
      s32_of_over (by omega) (by omega)
    have hneg : (val.text.length : Int) - 2 ^ 32 < 0 := by omega
    have hvalid : validUtf8 val.text (val.text.length - 2 ^ 32) = some (-1) := by
      rw [validUtf8, if_pos hneg, hword, validUtf8Loop.eq_def, if_neg (by omega)]
    have hcount : utf8Strlen val.text (val.text.length - 2 ^ 32) = some (-1) := by
      rw [utf8Strlen, if_pos hneg, hword, utf8StrlenLoop.eq_def, if_neg (by omega), if_pos hneg]
    simp only [hword, hvalid, hcount, Option.bind_eq_bind, Option.bind_some]
    exact ⟨_, rfl⟩

namespace TextValue
variable (str : TextValue)

/-- A character of `size` bytes can be put at index `n`: a `uint32_t` holds the size of a new
string, and in place all that is behind the character is moved up to it. -/
def Replaces (n size : Nat) : Prop :=
  if widthAt str.chars n < size then
    str.text.length + size + 1 < 2 ^ 32 + widthAt str.chars n
  else
    charOffset str.chars n + widthAt str.chars n ≤ u16 str.text.length + 1 ∧
      (size = widthAt str.chars n ∨ str.text.length < 2 ^ 16)

/-- `__setitem__` replaces the character at an index by a character, or sets an error and leaves
the text as it is. -/
def SetLaw (key : Int) (val : StrValue) : Prop :=
  ∃ outcome, stringSetitem str.text key val.text = some outcome ∧
    (∀ c, val.text = encodeChar c → str.InRange key →
      outcome = ⟨encodeText (str.chars.set key.toNat c), none⟩) ∧
    ((∀ c, val.text ≠ encodeChar c) ∨ ¬str.InRange key →
      outcome.text = str.text ∧ outcome.error ≠ none)

/-- The walk of `__setitem__`, over a `uint16_t` of the text and for an `int` of the index, finds
a character that is there and can be replaced, and else nothing. -/
def SetWhen (key : Int) (val : StrValue) : Prop :=
  (∃ c, val.text = encodeChar c) →
    if str.InRange key then
      str.Finds (u16 str.text.length) (s32 key) ∧ str.Replaces key.toNat val.text.length
    else ¬str.Finds (u16 str.text.length) (s32 key)

/-- The text with another character. -/
theorem encodeText_set {n : Nat} (h : n < str.chars.length) (c : Char) :
    encodeText (str.chars.set n c) = encodeText (str.chars.take n) ++ (encodeChar c ++
      encodeText (str.chars.drop (n + 1))) := by
  rw [List.set_eq_take_append_cons_drop, if_pos h, encodeText, List.flatMap_append,
    List.flatMap_cons]
  rfl

theorem widthAt_eq {n : Nat} (h : n < str.chars.length) :
    widthAt str.chars n = (encodeChar str.chars[n]).length := by
  rw [widthAt, List.getElem?_eq_getElem h]
  rfl

/-- **A character is replaced if and only if** there is room for the other. -/
theorem strRepl_iff {n : Nat} (h : n < str.chars.length) {val : StrValue} {c : Char}
    (hval : val.text = encodeChar c) :
    strRepl str.text (u16 str.text.length) (charOffset str.chars n) (widthAt str.chars n)
      val.text val.text.length = some (encodeText (str.chars.set n c)) ↔
      str.Replaces n val.text.length := by
  have hfits := str.fits
  have hnul := str.noNul
  have hne : encodeChar str.chars[n] ≠ [] := List.length_pos_iff.mp (length_encodeChar_pos _)
  rw [str.text_eq h, List.mem_append, List.mem_append, not_or, not_or] at hnul
  rw [str.encodeText_set h, ← hval, Replaces, str.widthAt_eq h, charOffset]
  rw [str.text_eq h] at hfits ⊢
  exact strRepl_eq_iff hnul.1 hnul.2.1 hnul.2.2 val.noNul hne hfits

/-- An `int` of an index in the text, if the walk finds something at it, is the index. -/
theorem key_eq {length key : Int} (hrange : str.InRange key) (hfinds : str.Finds length (s32 key)) :
    s32 key = key := by
  have hfits := str.fits
  have hle := str.length_chars_le
  obtain ⟨hpos, hlt⟩ := hrange
  by_cases hint : key < 2 ^ 31
  · exact s32_of_fits ⟨by omega, hint⟩
  · have hword : s32 key = key - 2 ^ 32 := s32_of_over (by omega) (by omega)
    have hneg := hfinds.1
    omega

/-- **A character is set if and only if** the walk finds it, and it can be replaced. -/
theorem setLaw_iff (key : Int) (val : StrValue) : str.SetLaw key val ↔ str.SetWhen key val := by
  by_cases hchar : ∃ c, val.text = encodeChar c
  · obtain ⟨c, hc⟩ := hchar
    have hwhen : str.SetWhen key val ↔ if str.InRange key then
        str.Finds (u16 str.text.length) (s32 key) ∧ str.Replaces key.toNat val.text.length
        else ¬str.Finds (u16 str.text.length) (s32 key) :=
      ⟨fun h => h ⟨c, hc⟩, fun h _ => h⟩
    have hset := stringSetitem_of_char str key c
    rw [← hc] at hset
    rw [hwhen, SetLaw, hset]
    by_cases hfinds : str.Finds (u16 str.text.length) (s32 key)
    · rw [if_pos hfinds]
      by_cases hrange : str.InRange key
      · have hlt := hrange.2
        obtain ⟨n, rfl⟩ := Int.eq_ofNat_of_zero_le hrange.1
        rw [if_pos hrange, and_iff_right hfinds, str.key_eq hrange hfinds, Int.toNat_natCast,
          ← str.strRepl_iff (by omega) hc]
        constructor
        · rintro ⟨outcome, houtcome, hreplaced, -⟩
          obtain ⟨text, htext, rfl⟩ := Option.map_eq_some_iff.mp houtcome
          have hnew := congrArg SetOutcome.text (hreplaced c hc hrange)
          exact htext.trans (congrArg some hnew)
        · intro h
          refine ⟨_, Option.map_eq_some_iff.mpr ⟨_, h, rfl⟩, fun d hd _ => ?_, fun h => ?_⟩
          · rw [str.encodeText_set (by omega), str.encodeText_set (by omega), ← hc, ← hd]
          · exact (h.elim (fun h => h c hc) fun h => h hrange).elim
      · rw [if_neg hrange]
        refine iff_of_false ?_ fun h => h hfinds
        rintro ⟨outcome, houtcome, -, hkept⟩
        obtain ⟨text, -, rfl⟩ := Option.map_eq_some_iff.mp houtcome
        exact (hkept (.inr hrange)).2 rfl
    · rw [if_neg hfinds]
      by_cases hrange : str.InRange key
      · rw [if_pos hrange]
        refine iff_of_false ?_ fun h => hfinds h.1
        rintro ⟨outcome, houtcome, hreplaced, -⟩
        have herror := congrArg SetOutcome.error (hreplaced c hc hrange)
        rw [← Option.some.inj houtcome] at herror
        cases herror
      · rw [if_neg hrange]
        refine iff_of_true ⟨_, rfl, fun _ _ h => absurd h hrange, fun _ => ⟨rfl, ?_⟩⟩ hfinds
        exact Option.some_ne_none _
  · obtain ⟨error, herror⟩ := stringSetitem_of_not_char str.text key val (not_exists.mp hchar)
    refine iff_of_true ⟨_, herror, fun c hc => absurd ⟨c, hc⟩ hchar, fun _ => ⟨rfl, ?_⟩⟩
      fun h => absurd h hchar
    exact Option.some_ne_none _

/-- **Indexing is by characters if and only if** the size of the text is an `int`, an index right
behind the last character is one behind the bytes, and `__setitem__` finds the character that is
to be replaced, with room for the other. -/
theorem indexing_iff (given : Bool) (n : Int32) (key : Int64) (val : StrValue) :
    str.IndexLaw given n.toInt ∧ str.SetLaw key.toInt val ↔
      (str.text.length < 2 ^ 31 ∧
        (n.toInt = str.chars.length → str.chars.length = str.text.length)) ∧
      str.SetWhen key.toInt val :=
  and_congr (str.indexLaw_iff given n.toInt) (str.setLaw_iff key.toInt val)

end TextValue

/-- The text of one character of two bytes. -/
def eAcute : TextValue where
  text := encodeText ['é']
  noNul := by decide
  fits := by decide
  chars := ['é']
  encoded := rfl

/-- **The index behind a character of two bytes is not out of range**: the offset of the NUL is
returned, and a new character put there. -/
theorem not_indexing : ¬ ∀ (str : TextValue) (given : Bool) (n : Int32) (key : Int64)
    (val : StrValue), str.IndexLaw given n.toInt ∧ str.SetLaw key.toInt val := by
  intro h
  have hlaw := (h eAcute true 1 1 eAcute.toStrValue).1
  have hbytes := ((eAcute.indexLaw_iff true _).mp hlaw).2 rfl
  exact absurd hbytes (by decide)

end PikaScript
