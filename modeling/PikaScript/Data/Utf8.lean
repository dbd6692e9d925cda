import PikaScript.Lib.Sequence
import PikaScript.Lib.Word
import PikaScript.VM.Operator

/-! Characters of a `str`.

A `str` is text in UTF-8; a character is found by walking over the ones before it. The size
that bounds the walk is kept in a `uint16_t`. -/
namespace PikaScript

/-! ### The code -/

/-- `_pcre_utf8_table4`: how many bytes follow a first byte. -/
def pcreUtf8Table4 : List Nat :=
  [1, 1, 1, 1, 1, 1, 1, 1, 1, 1, 1, 1, 1, 1, 1, 1, 1, 1, 1, 1, 1, 1, 1, 1, 1, 1, 1, 1, 1, 1, 1, 1,
   2, 2, 2, 2, 2, 2, 2, 2, 2, 2, 2, 2, 2, 2, 2, 2, 3, 3, 3, 3, 3, 3, 3, 3, 4, 4, 4, 4, 5, 5, 5, 5]

/-- How far a walk goes from a first byte. -/
def utf8Step (c : BitVec 8) : Nat :=
  if c &&& 0x80#8 = 0#8 then 1 else pcreUtf8Table4.getD (c &&& 0x3f#8).toNat 0 + 1

theorem utf8Step_pos (c : BitVec 8) : 0 < utf8Step c := by
  unfold utf8Step
  split
  · exact one_pos
  · exact Nat.succ_pos _

/-- The loop of `_utf8_strlen`; none when it reads outside the text. -/
def utf8StrlenLoop (p : CString) (length i : Int) : Option Int :=
  if 0 < length then
    match p with
    | [] => none
    | c :: _ => utf8StrlenLoop (p.drop (utf8Step c)) (length - utf8Step c) (i + 1)
  else some (if length < 0 then -1 else i)
termination_by length.toNat
decreasing_by
  have := utf8Step_pos c
  omega

/-- `strGetSizeUtf8`, which is `_utf8_strlen` without a length. -/
def strGetSizeUtf8 (str : CString) : Option Int := utf8StrlenLoop str (s32 str.length) 0

/-- The loop of `_utf8_get` and what follows it: the bytes of a character, or a negative
result; none when it reads outside the text. -/
def utf8GetLoop (p : CString) (length at' : Int) : Option (Option CString) :=
  if 0 < length ∧ at' ≠ 0 then
    match p with
    | [] => none
    | c :: _ => utf8GetLoop (p.drop (utf8Step c)) (length - utf8Step c) (at' - 1)
  else if at' ≠ 0 ∨ length ≤ 0 then some none
  else
    match p with
    | [] => none
    | c :: _ => if utf8Step c ≤ p.length then some (some (p.take (utf8Step c))) else none
termination_by length.toNat
decreasing_by
  have := utf8Step_pos c
  omega

/-- `_utf8_get`. -/
def utf8Get (string : CString) (length at' : Int) : Option (Option CString) :=
  let length := if length < 0 then s32 string.length else length
  if at' < 0 ∨ at' ≥ length then some none else utf8GetLoop string length at'

/-- `_str_get`. -/
def strGet (str : CString) (key : Int) : Option (Option CString) :=
  if key < 0 then
    (strGetSizeUtf8 str).bind fun size => utf8Get str (u16 str.length) (s32 (size + key))
  else utf8Get str (u16 str.length) key

/-- The loop of `string_slice`, over so many characters from `i` on; NULL when one of them is
not found. -/
def stringSliceLoop (str : CString) : Nat → Int → CString → Option (Option CString)
  | 0, _, res => some (some res)
  | count + 1, i, res =>
    match strGet str i with
    | none => none
    | some none => some none
    | some (some charBuff) => stringSliceLoop str count (i + 1) (res ++ charBuff)

/-- `string_slice`. -/
def stringSlice (str : CString) (start stop : Int) : Option (Option CString) :=
  stringSliceLoop str (stop - start).toNat start []

/-! ### Text -/

/-- The bytes of a character. -/
def encodeChar (c : Char) : Bytes := (String.utf8EncodeChar c).map (·.toBitVec)

/-- The bytes of text. -/
def encodeText (chars : List Char) : CString := chars.flatMap encodeChar

/-- A `str` that holds characters. -/
structure TextValue extends StrValue where
  chars : List Char
  encoded : text = encodeText chars

theorem encodeText_cons (c : Char) (cs : List Char) :
    encodeText (c :: cs) = encodeChar c ++ encodeText cs :=
  List.flatMap_cons

theorem length_encodeChar (c : Char) : (encodeChar c).length = c.utf8Size := by
  rw [encodeChar, List.length_map, String.length_utf8EncodeChar]

theorem length_encodeChar_pos (c : Char) : 0 < (encodeChar c).length := by
  rw [length_encodeChar]
  exact c.utf8Size_pos

theorem codePoint_lt (c : Char) : c.toNat < 0x110000 := by
  rcases c.valid with h | h
  · exact Nat.lt_trans h (by decide)
  · exact h.2

theorem codePoint_scalar (c : Char) : c.toNat < 0xd800 ∨ 0xdfff < c.toNat := by
  rcases c.valid with h | h
  · exact .inl h
  · exact .inr h.1

/-- The bytes of a character, by its code point. -/
theorem encodeChar_eq (c : Char) : encodeChar c =
    if c.toNat < 0x80 then [BitVec.ofNat 8 c.toNat]
    else if c.toNat < 0x800 then
      [BitVec.ofNat 8 (c.toNat / 64 + 0xc0), BitVec.ofNat 8 (c.toNat % 64 + 0x80)]
    else if c.toNat < 0x10000 then
      [BitVec.ofNat 8 (c.toNat / 4096 + 0xe0), BitVec.ofNat 8 (c.toNat / 64 % 64 + 0x80),
        BitVec.ofNat 8 (c.toNat % 64 + 0x80)]
    else
      [BitVec.ofNat 8 (c.toNat / 262144 + 0xf0), BitVec.ofNat 8 (c.toNat / 4096 % 64 + 0x80),
        BitVec.ofNat 8 (c.toNat / 64 % 64 + 0x80), BitVec.ofNat 8 (c.toNat % 64 + 0x80)] := by
  have hlt := codePoint_lt c
  have hcode : encodeChar c = if c.toNat ≤ 0x7f then [BitVec.ofNat 8 c.toNat]
      else if c.toNat ≤ 0x7ff then
        [BitVec.ofNat 8 (c.toNat / 64 % 32 + 0xc0), BitVec.ofNat 8 (c.toNat % 64 + 0x80)]
      else if c.toNat ≤ 0xffff then
        [BitVec.ofNat 8 (c.toNat / 4096 % 16 + 0xe0), BitVec.ofNat 8 (c.toNat / 64 % 64 + 0x80),
          BitVec.ofNat 8 (c.toNat % 64 + 0x80)]
      else
        [BitVec.ofNat 8 (c.toNat / 262144 % 8 + 0xf0), BitVec.ofNat 8 (c.toNat / 4096 % 64 + 0x80),
          BitVec.ofNat 8 (c.toNat / 64 % 64 + 0x80), BitVec.ofNat 8 (c.toNat % 64 + 0x80)] := by
    unfold encodeChar String.utf8EncodeChar
    dsimp only
    split_ifs <;> first | rfl | contradiction
  rw [hcode]
  simp only [← Nat.lt_succ_iff, Nat.succ_eq_add_one, Nat.reduceAdd]
  by_cases h₁ : c.toNat < 0x80
  · rw [if_pos h₁, if_pos h₁]
  by_cases h₂ : c.toNat < 0x800
  · rw [if_neg h₁, if_neg h₁, if_pos h₂, if_pos h₂, Nat.mod_eq_of_lt (by omega)]
  by_cases h₃ : c.toNat < 0x10000
  · rw [if_neg h₁, if_neg h₁, if_neg h₂, if_neg h₂, if_pos h₃, if_pos h₃,
      Nat.mod_eq_of_lt (by omega)]
  · rw [if_neg h₁, if_neg h₁, if_neg h₂, if_neg h₂, if_neg h₃, if_neg h₃,
      @Nat.mod_eq_of_lt (c.toNat / 262144) 8 (by omega)]

theorem utf8Step_one (b : BitVec 8) (h : b.toNat < 128) : utf8Step b = 1 := by
  revert b
  decide

theorem utf8Step_two (b : BitVec 8) : utf8Step ((b &&& 0x1f#8) ||| 0xc0#8) = 2 := by
  revert b
  decide

theorem utf8Step_three (b : BitVec 8) : utf8Step ((b &&& 0x0f#8) ||| 0xe0#8) = 3 := by
  revert b
  decide

theorem utf8Step_four (b : BitVec 8) : utf8Step ((b &&& 0x07#8) ||| 0xf0#8) = 4 := by
  revert b
  decide

/-- The first byte of a character says how many bytes it has. -/
theorem exists_encodeChar (c : Char) :
    ∃ first rest, encodeChar c = first :: rest ∧ utf8Step first = (encodeChar c).length := by
  rw [length_encodeChar]
  have hpos := c.utf8Size_pos
  have hle := c.utf8Size_le_four
  obtain h | h | h | h : c.utf8Size = 1 ∨ c.utf8Size = 2 ∨ c.utf8Size = 3 ∨ c.utf8Size = 4 := by
    omega
  · have hval : c.val.toNat ≤ 127 := UInt32.le_iff_toNat_le.mp (Char.utf8Size_eq_one_iff.mp h)
    have hbyte : c.val.toUInt8.toBitVec.toNat < 128 := by
      change c.val.toUInt8.toNat < 128
      rw [UInt32.toNat_toUInt8]
      omega
    rw [encodeChar, String.utf8EncodeChar_eq_singleton h, h]
    exact ⟨_, _, rfl, utf8Step_one _ hbyte⟩
  · rw [encodeChar, String.utf8EncodeChar_eq_cons_cons h, h]
    exact ⟨_, _, rfl, utf8Step_two _⟩
  · rw [encodeChar, String.utf8EncodeChar_eq_cons_cons_cons h, h]
    exact ⟨_, _, rfl, utf8Step_three _⟩
  · rw [encodeChar, String.utf8EncodeChar_eq_cons_cons_cons_cons h, h]
    exact ⟨_, _, rfl, utf8Step_four _⟩

/-- Text that starts with a character starts with its first byte, and the walk over that byte
leaves the other characters. -/
theorem exists_encodeText_cons (c : Char) (cs : List Char) :
    ∃ first rest, encodeText (c :: cs) = first :: rest ∧ utf8Step first = (encodeChar c).length ∧
      (encodeText (c :: cs)).drop (utf8Step first) = encodeText cs ∧
      (encodeText (c :: cs)).take (utf8Step first) = encodeChar c := by
  obtain ⟨first, rest, hchar, hstep⟩ := exists_encodeChar c
  refine ⟨first, rest ++ encodeText cs, ?_, hstep, ?_, ?_⟩
  · rw [encodeText_cons, hchar, List.cons_append]
  · rw [hstep, encodeText_cons, List.drop_left]
  · rw [hstep, encodeText_cons, List.take_left]

/-- The walk over text counts its characters. -/
theorem utf8StrlenLoop_encodeText (cs : List Char) (i : Int) :
    utf8StrlenLoop (encodeText cs) (encodeText cs).length i = some (i + cs.length) := by
  induction cs generalizing i with
  | nil =>
    rw [utf8StrlenLoop.eq_def]
    simp [encodeText]
  | cons c cs ih =>
    obtain ⟨first, rest, hcons, hstep, hdrop, -⟩ := exists_encodeText_cons c cs
    have hlength :
        (encodeText (c :: cs)).length = (encodeChar c).length + (encodeText cs).length := by
      rw [encodeText_cons, List.length_append]
    have hpos := length_encodeChar_pos c
    rw [utf8StrlenLoop.eq_def, if_pos (by omega)]
    rw [hcons]
    dsimp only
    rw [← hcons, hdrop, hstep, hlength]
    have hrest : (((encodeChar c).length + (encodeText cs).length : Nat) : Int) -
        (encodeChar c).length = (encodeText cs).length := by omega
    rw [hrest, ih, List.length_cons]
    congr 1
    push_cast
    omega

/-- Text of one size has one number of characters. -/
theorem length_eq_of_encodeText_eq {cs ds : List Char} (h : encodeText cs = encodeText ds) :
    cs.length = ds.length := by
  have hcount := utf8StrlenLoop_encodeText cs 0
  rw [h, utf8StrlenLoop_encodeText ds 0, Option.some.injEq] at hcount
  omega

/-- Where a character starts. -/
def charOffset (cs : List Char) (k : Nat) : Nat := (encodeText (cs.take k)).length

theorem charOffset_cons_succ (c : Char) (cs : List Char) (k : Nat) :
    charOffset (c :: cs) (k + 1) = (encodeChar c).length + charOffset cs k := by
  rw [charOffset, List.take_succ_cons, encodeText_cons, List.length_append, charOffset]

/-- A character starts no earlier than its index. -/
theorem min_le_charOffset (cs : List Char) (k : Nat) : min k cs.length ≤ charOffset cs k := by
  induction cs generalizing k with
  | nil => simp
  | cons c cs ih =>
    cases k with
    | zero => simp
    | succ k =>
      have hpos := length_encodeChar_pos c
      have hle := ih k
      rw [charOffset_cons_succ, List.length_cons]
      omega

theorem charOffset_mono (cs : List Char) {j k : Nat} (h : j ≤ k) :
    charOffset cs j ≤ charOffset cs k := by
  induction cs generalizing j k with
  | nil => simp [charOffset]
  | cons c cs ih =>
    cases j with
    | zero => exact Nat.zero_le _
    | succ j =>
      obtain ⟨k, rfl⟩ : ∃ k', k = k' + 1 := ⟨k - 1, by omega⟩
      rw [charOffset_cons_succ, charOffset_cons_succ]
      exact Nat.add_le_add_left (ih (by omega)) _

theorem charOffset_of_length_le {cs : List Char} {k : Nat} (h : cs.length ≤ k) :
    charOffset cs k = (encodeText cs).length := by
  rw [charOffset, List.take_of_length_le h]

/-- The walk over so many characters finds the next one if it starts before the length. -/
theorem utf8GetLoop_encodeText (cs : List Char) {length : Int}
    (hlength : length ≤ (encodeText cs).length)
    (k : Nat) : utf8GetLoop (encodeText cs) length k =
      some (if charOffset cs k < length then cs[k]?.map encodeChar else none) := by
  induction cs generalizing length k with
  | nil =>
    have hle : length ≤ 0 := hlength
    rw [utf8GetLoop.eq_def, if_neg (by omega), if_pos (.inr hle), List.getElem?_nil,
      Option.map_none, ite_self]
  | cons c cs ih =>
    obtain ⟨first, rest, hcons, hstep, hdrop, htake⟩ := exists_encodeText_cons c cs
    have hsplit :
        (encodeText (c :: cs)).length = (encodeChar c).length + (encodeText cs).length := by
      rw [encodeText_cons, List.length_append]
    rw [utf8GetLoop.eq_def]
    cases k with
    | zero =>
      rw [if_neg (by omega)]
      have hzero : charOffset (c :: cs) 0 = 0 := rfl
      by_cases hpos : length ≤ 0
      · rw [if_pos (.inr hpos), hzero, if_neg (by omega)]
      · rw [if_neg (by omega), hzero, if_pos (by omega), hcons]
        dsimp only
        rw [← hcons, if_pos (by omega), htake]
        rfl
    | succ k =>
      by_cases hpos : 0 < length
      · rw [if_pos ⟨hpos, by omega⟩, hcons]
        dsimp only
        rw [← hcons, hdrop, hstep,
          show (((k + 1 : Nat) : Int) - 1) = (k : Int) by omega, ih (by omega),
          charOffset_cons_succ, List.getElem?_cons_succ]
        congr 1
        have hiff : ((charOffset cs k : Int) < length - (encodeChar c).length) ↔
            (((encodeChar c).length + charOffset cs k : Nat) : Int) < length := by omega
        simp only [hiff]
      · rw [if_neg (by omega), if_pos (.inr (by omega)), if_neg (by omega)]

namespace TextValue

/-- The character at an index starts before the size that bounds the walk. -/
def Reach (str : TextValue) (k : Nat) : Prop := charOffset str.chars k < u16 str.text.length

instance (str : TextValue) (k : Nat) : Decidable (str.Reach k) :=
  inferInstanceAs (Decidable (charOffset str.chars k < u16 str.text.length))

variable (str : TextValue)

theorem length_chars_le : str.chars.length ≤ str.text.length := by
  have hle := min_le_charOffset str.chars str.chars.length
  rw [charOffset_of_length_le le_rfl, ← str.encoded] at hle
  omega

theorem Reach.lt {str : TextValue} {k : Nat} (h : str.Reach k) : k < str.chars.length := by
  by_contra hge
  have hall : charOffset str.chars k = str.text.length := by
    rw [charOffset_of_length_le (Nat.not_lt.mp hge), ← str.encoded]
  have hlt : charOffset str.chars k < u16 str.text.length := h
  have hmod : u16 str.text.length ≤ str.text.length := Nat.mod_le _ _
  omega

/-- The size of text: how many characters it has, unless its bytes are too many for an
`int`. -/
def sizeUtf8 : Int := if str.text.length < 2 ^ 31 then str.chars.length else -1

theorem strGetSizeUtf8_eq : strGetSizeUtf8 str.text = some str.sizeUtf8 := by
  have hfits := str.fits
  unfold strGetSizeUtf8 sizeUtf8
  by_cases hsize : str.text.length < 2 ^ 31
  · have hword : s32 str.text.length = str.text.length := s32_of_fits ⟨by omega, by omega⟩
    rw [hword, if_pos hsize, str.encoded, utf8StrlenLoop_encodeText, Int.zero_add]
  · have hneg : s32 str.text.length < 0 := by
      rw [s32_of_over (by omega) (by omega)]
      omega
    rw [if_neg hsize, utf8StrlenLoop.eq_def, if_neg (by omega), if_pos hneg]

/-- A character is found when it starts before the size that bounds the walk. -/
theorem utf8Get_eq (k : Nat) : utf8Get str.text (u16 str.text.length) k =
    some (if str.Reach k then str.chars[k]?.map encodeChar else none) := by
  have hmod : u16 str.text.length ≤ str.text.length := Nat.mod_le _ _
  have hlength : ¬(u16 str.text.length : Int) < 0 := by omega
  unfold utf8Get
  dsimp only
  rw [if_neg hlength]
  by_cases hk : (k : Int) ≥ u16 str.text.length
  · have hnot : ¬str.Reach k := by
      intro hreach
      have hlt : charOffset str.chars k < u16 str.text.length := hreach
      have hle := min_le_charOffset str.chars k
      have hlength := hreach.lt
      omega
    rw [if_pos (.inr hk), if_neg hnot]
  · have hwalk := @utf8GetLoop_encodeText str.chars (u16 str.text.length)
      (by rw [← str.encoded]; omega) k
    rw [← str.encoded] at hwalk
    rw [if_neg (by omega), hwalk]
    by_cases hreach : str.Reach k
    · rw [if_pos hreach, if_pos (Nat.cast_lt.mpr hreach)]
    · rw [if_neg hreach, if_neg fun hlt => hreach (Nat.cast_lt.mp hlt)]

theorem utf8Get_of_neg {at' : Int} (h : at' < 0) :
    utf8Get str.text (u16 str.text.length) at' = some none := by
  unfold utf8Get
  dsimp only
  rw [if_pos (.inl h)]

theorem strGet_of_nonneg (k : Nat) : strGet str.text k =
    some (if str.Reach k then str.chars[k]?.map encodeChar else none) := by
  rw [strGet, if_neg (by omega), utf8Get_eq]

/-- A negative key is taken from the size once more. -/
theorem strGet_of_neg {key : Int} (h : key < 0) : strGet str.text key =
    utf8Get str.text (u16 str.text.length) (s32 (str.sizeUtf8 + key)) := by
  rw [strGet, if_pos h, strGetSizeUtf8_eq, Option.bind_some]

/-- What `_str_get` finds is a character. -/
theorem strGet_eq_some {key : Int} {charBuff : CString}
    (h : strGet str.text key = some (some charBuff)) : ∃ c, charBuff = encodeChar c := by
  have hget : ∀ {at' : Int}, utf8Get str.text (u16 str.text.length) at' = some (some charBuff) →
      ∃ c, charBuff = encodeChar c := by
    intro at' hsome
    rcases lt_or_ge at' 0 with hneg | hpos
    · rw [utf8Get_of_neg str hneg] at hsome
      cases hsome
    · obtain ⟨k, rfl⟩ := Int.eq_ofNat_of_zero_le hpos
      rw [utf8Get_eq, Option.some.injEq] at hsome
      split at hsome
      · obtain ⟨c, -, hc⟩ := Option.map_eq_some_iff.mp hsome
        exact ⟨c, hc.symm⟩
      · cases hsome
  rcases lt_or_ge key 0 with hneg | hpos
  · rw [strGet_of_neg str hneg] at h
    exact hget h
  · rw [strGet, if_neg (by omega)] at h
    exact hget h

/-- A slice that is found has as many characters as were asked for. -/
theorem stringSliceLoop_eq_some {count : Nat} {i : Int} {res sliced : CString}
    (h : stringSliceLoop str.text count i res = some (some sliced)) :
    ∃ cs : List Char, cs.length = count ∧ sliced = res ++ encodeText cs := by
  induction count generalizing i res with
  | zero =>
    rw [stringSliceLoop, Option.some.injEq, Option.some.injEq] at h
    exact ⟨[], rfl, by rw [← h, encodeText, List.flatMap_nil, List.append_nil]⟩
  | succ count ih =>
    rw [stringSliceLoop] at h
    split at h
    · cases h
    · cases h
    · rename_i charBuff hget
      obtain ⟨c, rfl⟩ := strGet_eq_some str hget
      obtain ⟨cs, hlength, hsliced⟩ := ih h
      refine ⟨c :: cs, by rw [List.length_cons, hlength], ?_⟩
      rw [hsliced, encodeText_cons, List.append_assoc]

/-- A character that starts before the size is the one `_str_get` finds. -/
theorem exists_strGet {k : Nat} (h : str.Reach k) :
    ∃ c, str.chars[k]? = some c ∧ strGet str.text k = some (some (encodeChar c)) := by
  have hchar := List.getElem?_eq_getElem h.lt
  refine ⟨_, hchar, ?_⟩
  rw [strGet_of_nonneg, if_pos h, hchar, Option.map_some]

theorem strGet_of_not_reach {k : Nat} (h : ¬str.Reach k) : strGet str.text k = some none := by
  rw [strGet_of_nonneg, if_neg h]

theorem Reach.mono {str : TextValue} {j k : Nat} (h : str.Reach k) (hle : j ≤ k) : str.Reach j :=
  (charOffset_mono str.chars hle).trans_lt h

/-- A slice that is found starts all its characters before the size that bounds the walk. -/
theorem reach_of_stringSliceLoop {count k : Nat} {res sliced : CString}
    (h : stringSliceLoop str.text count k res = some (some sliced)) {j : Nat} (hj : k ≤ j)
    (hlt : j < k + count) : str.Reach j := by
  induction count generalizing k res with
  | zero => omega
  | succ count ih =>
    by_contra hnot
    rw [stringSliceLoop] at h
    rcases Nat.lt_or_ge k j with hkj | hkj
    · split at h
      · cases h
      · cases h
      · exact hnot (@ih (k + 1) _ h hkj (by omega))
    · obtain rfl : j = k := by omega
      rw [strGet_of_not_reach str hnot] at h
      cases h

/-- Where its characters start before the size that bounds the walk, the slice is found. -/
theorem stringSliceLoop_of_reach {count k : Nat} (h : ∀ j, k ≤ j → j < k + count → str.Reach j)
    (res : CString) : stringSliceLoop str.text count k res =
      some (some (res ++ encodeText ((str.chars.take (k + count)).drop k))) := by
  induction count generalizing k res with
  | zero =>
    rw [Nat.add_zero, Sequence.drop_take_self, encodeText, List.flatMap_nil, List.append_nil,
      stringSliceLoop]
  | succ count ih =>
    have hreach : str.Reach k := h k le_rfl (by omega)
    obtain ⟨c, hc, hget⟩ := exists_strGet str hreach
    have hrest := @ih (k + 1) (fun j h₁ h₂ => h j (by omega) (by omega)) (res ++ encodeChar c)
    rw [stringSliceLoop, hget]
    dsimp only
    rw [Sequence.drop_take_cons hc, encodeText_cons, ← List.append_assoc, ← hrest]
    rfl

end TextValue

end PikaScript
