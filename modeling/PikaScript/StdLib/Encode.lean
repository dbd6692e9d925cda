import PikaScript.Lib.Utf16
import PikaScript.StdLib.StringIndex

/-! `str.encode`: UTF-16 and UTF-32.

One pass over the text adds up the size of what is to be written, and one writes it, behind a byte
order mark, into memory of that size. Both read the characters with the same code. -/
namespace PikaScript
open Memory Unicode

/-! ### A character -/

/-- A character that has been read: how many bytes it had, and what is written for it. -/
structure Recoded where
  size : Nat
  pos : 0 < size
  out : Bytes

/-- A byte of a text under a mask; none outside. -/
def masked (utf8 : Bytes) (i : Nat) (mask : BitVec 8) : Option Nat :=
  utf8[i]?.map fun c => (c &&& mask).toNat

/-- How many bytes follow a first byte, by the table. -/
def leftLength (c : BitVec 8) : Nat := pcreUtf8Table4.getD (c &&& 0x3f#8).toNat 0

/-- `__utf8_to_utf32_char_LE`. None outside the text; the inner none is its 0. -/
def utf8ToUtf32Char (utf8 : Bytes) : Option (Option Recoded) := do
  let c ← utf8[0]?
  if c &&& 0x80#8 = 0#8 then return some ⟨1, by decide, [c, 0, 0, 0]⟩
  match leftLength c with
  | 1 =>
    let a ← masked utf8 0 0x1f#8
    let b ← masked utf8 1 0x3f#8
    return some ⟨2, by decide, [.ofNat 8 (b ||| a <<< 6), .ofNat 8 (a >>> 2), 0, 0]⟩
  | 2 =>
    let a ← masked utf8 0 0x0f#8
    let b ← masked utf8 1 0x3f#8
    let c ← masked utf8 2 0x3f#8
    return some ⟨3, by decide, [.ofNat 8 (c ||| b <<< 6), .ofNat 8 (b >>> 2 ||| a <<< 4), 0, 0]⟩
  | 3 =>
    let a ← masked utf8 0 0x07#8
    let b ← masked utf8 1 0x3f#8
    let c ← masked utf8 2 0x3f#8
    let d ← masked utf8 3 0x3f#8
    return some ⟨4, by decide, [.ofNat 8 (d ||| c <<< 6), .ofNat 8 (c >>> 2 ||| b <<< 4),
      .ofNat 8 (b >>> 4 ||| a <<< 2), 0]⟩
  | _ => return none

/-- `__utf8_decode`. None outside the text; the inner none is its -1. -/
def utf8Decode (utf8 : Bytes) (left : Nat) : Option (Option Nat) := do
  let c ← utf8[0]?
  if c &&& 0x80#8 = 0#8 then return some c.toNat
  match left with
  | 1 =>
    let a ← masked utf8 0 0x1f#8
    let b ← masked utf8 1 0x3f#8
    let ucode := b ||| (a &&& 0x03) <<< 6
    return some (ucode ||| (a >>> 2) <<< 8)
  | 2 =>
    let a ← masked utf8 0 0x0f#8
    let b ← masked utf8 1 0x3f#8
    let c ← masked utf8 2 0x3f#8
    let ucode := c ||| (b &&& 0x03) <<< 6
    return some (ucode ||| (b >>> 2 ||| a <<< 4) <<< 8)
  | 3 =>
    let a ← masked utf8 0 0x07#8
    let b ← masked utf8 1 0x3f#8
    let c ← masked utf8 2 0x3f#8
    let d ← masked utf8 3 0x3f#8
    let ucode := d ||| (c &&& 0x03) <<< 6
    let ucode := ucode ||| (c >>> 2 ||| (b &&& 0x0f) <<< 4) <<< 8
    return some (ucode ||| (b >>> 4 ||| a <<< 2) <<< 16)
  | _ => return none

/-- A half word, as two `char`s. -/
def utf16Half (n : Nat) : Bytes := [.ofNat 8 (n &&& 0xff), .ofNat 8 ((n &&& 0xff00) >>> 8)]

/-- `__unicode_to_utf16_char_LE`. -/
def unicodeToUtf16Char (u : Nat) : Bytes :=
  if u &&& 0xffff0000 = 0 then utf16Half u
  else
    let d := u - 0x10000
    utf16Half (d >>> 10 ||| 0xd800) ++ utf16Half (d &&& 0x3ff ||| 0xdc00)

/-- What the rounds of `__utf8_to_utf16_LE_noBOM_get_size` and `__utf8_to_utf16_LE_noBOM` read and
write. -/
def utf8ToUtf16Char (utf8 : Bytes) : Option (Option Recoded) := do
  let c ← utf8[0]?
  if c &&& 0x80#8 = 0#8 then return some ⟨1, by decide, unicodeToUtf16Char c.toNat⟩
  let ucode ← utf8Decode utf8 (leftLength c)
  return ucode.map fun u => ⟨leftLength c + 1, Nat.succ_pos _, unicodeToUtf16Char u⟩

/-! ### The passes -/

/-- The loop that adds up what is needed. The inner none is -1, for a character that cannot be
read. -/
def spaceLoop (char : Bytes → Option (Option Recoded)) (space : Recoded → Int) (p : Bytes)
    (len sum : Int) : Option (Option Int) :=
  if 0 < len then
    match char p with
    | none => none
    | some none => some none
    | some (some read) =>
      spaceLoop char space (p.drop read.size) (len - read.size) (s32 (sum + space read))
  else some (some sum)
termination_by len.toNat
decreasing_by
  have := read.pos
  omega

/-- The loop that writes, and how far it has come. -/
def writeLoop (char : Bytes → Option (Option Recoded)) (p : Bytes) (len : Int) (buff : Bytes)
    (q : Nat) : Option (Option (Bytes × Nat)) :=
  if 0 < len then
    match char p with
    | none => none
    | some none => some none
    | some (some read) =>
      (store buff q read.out).bind fun buff =>
        writeLoop char (p.drop read.size) (len - read.size) buff (q + read.out.length)
  else some (some (buff, q))
termination_by len.toNat
decreasing_by
  have := read.pos
  omega

/-- `__utf8_to_utf32_LE_noBOM_get_size`. -/
def utf8ToUtf32GetSize (utf8 : CString) (len : Int) : Option Int :=
  (spaceLoop utf8ToUtf32Char (fun _ => 1) (utf8 ++ [0]) len 0).map
    (·.elim (-1) fun spaceSum => s32 (spaceSum * 4))

/-- `__utf8_to_utf16_LE_noBOM_get_size`. -/
def utf8ToUtf16GetSize (utf8 : CString) (len : Int) : Option Int :=
  (spaceLoop utf8ToUtf16Char (fun read => read.out.length) (utf8 ++ [0]) len 0).map
    (·.elim (-1) id)

/-- Text written behind a byte order mark: the size of both, or a negative result. -/
def withBom (char : Bytes → Option (Option Recoded)) (bom : Bytes) (utf8 : CString) (len : Int)
    (outBuf : Bytes) : Option (Int × Bytes) := do
  match ← writeLoop char (utf8 ++ [0]) len outBuf bom.length with
  | none => return (-1, outBuf)
  | some (outBuf, q) =>
    let size := s32 (q - bom.length)
    if size < 0 then return (size, outBuf)
    return (s32 (size + bom.length), ← store outBuf 0 bom)

/-- `__utf8_to_utf32_LE_withBOM`. -/
def utf8ToUtf32WithBom : CString → Int → Bytes → Option (Int × Bytes) :=
  withBom utf8ToUtf32Char [0xff, 0xfe, 0, 0]

/-- `__utf8_to_utf16_LE_withBOM`. -/
def utf8ToUtf16WithBom : CString → Int → Bytes → Option (Int × Bytes) :=
  withBom utf8ToUtf16Char [0xff, 0xfe]

/-! ### The encodings -/

/-- The bytes of `arg_newBytes`; none when they go beyond a content whose size is a `uint32_t`. -/
def argNewBytes (src : Bytes) : Option Bytes := if src.length + 9 < 2 ^ 32 then some src else none

/-- The branches of `_str_encode` for UTF-16 and UTF-32. The inner none is NULL. -/
def encodeWithBom (sizeNeeded : Option Int) (bomSize : Nat) (write : Bytes → Option (Int × Bytes)) :
    Option (Option Bytes) := do
  let sizeNeeded ← sizeNeeded
  if sizeNeeded ≤ 0 then return none
  let sizeNeeded := s32 (sizeNeeded + bomSize)
  -- `pikaMalloc` takes a `uint32_t`; nothing of the memory is read before it is written
  let (ok, b) ← write (List.replicate (sizeNeeded % 2 ^ 32).toNat 0)
  if ok < 0 then return none
  return some (← argNewBytes (← loadBytes b 0 (sizeOfInt sizeNeeded)))

/-- `_str_encode`. None when it reads or writes outside; the inner none is NULL. -/
def strEncode (str encoding : CString) : Option (Option Bytes) :=
  let len := s32 str.length
  if encoding = encodeText "utf-8".toList then (argNewBytes str).map some
  else if encoding = encodeText "ascii".toList then do
    let ulen ← utf8Strlen str len
    if ulen = len then return some (← argNewBytes str)
    return some (← argNewBytes (str.filter fun c => c &&& 0x80#8 = 0#8))
  else if encoding = encodeText "utf-16".toList then
    encodeWithBom (utf8ToUtf16GetSize str len) 2 (utf8ToUtf16WithBom str len)
  else if encoding = encodeText "utf-32".toList then
    encodeWithBom (utf8ToUtf32GetSize str len) 4 (utf8ToUtf32WithBom str len)
  else some none

/-! ### Bits -/

theorem and_3f : ∀ c : BitVec 8, (c &&& 0x3f#8).toNat = c.toNat % 64 := by decide

theorem and_1f : ∀ c : BitVec 8, (c &&& 0x1f#8).toNat = c.toNat % 32 := by decide

theorem and_0f : ∀ c : BitVec 8, (c &&& 0x0f#8).toNat = c.toNat % 16 := by decide

theorem and_07 : ∀ c : BitVec 8, (c &&& 0x07#8).toNat = c.toNat % 8 := by decide

/-- What is shifted up stands over what has fewer bits. -/
theorem or_shiftLeft {i b : Nat} (a : Nat) (h : b < 2 ^ i) : b ||| a <<< i = a * 2 ^ i + b := by
  rw [Nat.or_comm, ← Nat.shiftLeft_add_eq_or_of_lt h, Nat.shiftLeft_eq]

theorem shiftRight_eq (a i : Nat) : a >>> i = a / 2 ^ i := Nat.shiftRight_eq_div_pow a i

theorem and_mask (a i : Nat) : a &&& (2 ^ i - 1) = a % 2 ^ i := Nat.and_two_pow_sub_one_eq_mod a i

theorem ofNat_mod (n : Nat) : BitVec.ofNat 8 (n % 2 ^ 8) = BitVec.ofNat 8 n := by
  apply BitVec.eq_of_toNat_eq
  rw [BitVec.toNat_ofNat, BitVec.toNat_ofNat, Nat.mod_mod]

theorem utf16Half_eq (n : Nat) : utf16Half n = word16 n := by
  have hlow : n &&& 0xff = n % 2 ^ 8 := and_mask n 8
  have hhigh : (n &&& 0xff00) >>> 8 = n / 2 ^ 8 % 2 ^ 8 := by
    rw [Nat.shiftRight_and_distrib, shiftRight_eq]
    exact and_mask _ 8
  rw [utf16Half, hlow, hhigh, ofNat_mod, ofNat_mod, word16]

theorem and_high_eq_zero_iff {u : Nat} (h : u < 2 ^ 32) : u &&& 0xffff0000 = 0 ↔ u < 0x10000 := by
  constructor
  · intro hzero
    have hhigh : (u &&& 0xffff0000) >>> 16 = u / 2 ^ 16 % 2 ^ 16 := by
      rw [Nat.shiftRight_and_distrib, shiftRight_eq]
      exact and_mask _ 16
    rw [hzero, Nat.zero_shiftRight] at hhigh
    omega
  · intro hlt
    have hlow : u = u &&& 0xffff := by
      exact (Nat.mod_eq_of_lt hlt).symm.trans (and_mask u 16).symm
    rw [hlow, Nat.and_assoc]
    exact Nat.and_zero u

/-- `__unicode_to_utf16_char_LE` writes the code units. -/
theorem unicodeToUtf16Char_eq (c : Char) : unicodeToUtf16Char c.toNat = utf16LE c := by
  have hlt := codePoint_lt c
  have hlow : (c.toNat - 0x10000) &&& 0x3ff = (c.toNat - 0x10000) % 0x400 := and_mask _ 10
  have hhigh := or_shiftLeft 54 (by omega : (c.toNat - 0x10000) / 2 ^ 10 < 2 ^ 10)
  have hlast := or_shiftLeft 55 (by omega : (c.toNat - 0x10000) % 0x400 < 2 ^ 10)
  rw [unicodeToUtf16Char, utf16LE, utf16Units]
  simp only [and_high_eq_zero_iff (by omega : c.toNat < 2 ^ 32)]
  split
  · rw [List.flatMap_singleton, utf16Half_eq]
  · have hunit : (c.toNat - 0x10000) >>> 10 ||| 0xd800 = 0xd800 + (c.toNat - 0x10000) / 0x400 := by
      rw [shiftRight_eq]
      exact hhigh
    have hunit' : (c.toNat - 0x10000) &&& 0x3ff ||| 0xdc00 =
        0xdc00 + (c.toNat - 0x10000) % 0x400 := by
      rw [hlow]
      exact hlast
    rw [hunit, hunit', utf16Half_eq, utf16Half_eq, List.flatMap_cons, List.flatMap_singleton]

/-! ### Reading a character -/

/-- A round reads the characters, and writes an encoding of them. -/
def Recodes (char : Bytes → Option (Option Recoded)) (encode : Char → Bytes) : Prop :=
  ∀ (c : Char) (rest : Bytes), ∃ read, char (encodeChar c ++ rest) = some (some read) ∧
    read.size = (encodeChar c).length ∧ read.out = encode c

theorem toNat_byte {n : Nat} (h : n < 2 ^ 8) : (BitVec.ofNat 8 n).toNat = n := by
  rw [BitVec.toNat_ofNat, Nat.mod_eq_of_lt h]

/-- The first byte of a character of two bytes. -/
theorem lead_two {k : Nat} (h : k < 32) : BitVec.ofNat 8 (k + 0xc0) &&& 0x80#8 ≠ 0#8 ∧
    leftLength (BitVec.ofNat 8 (k + 0xc0)) = 1 ∧
    (BitVec.ofNat 8 (k + 0xc0) &&& 0x1f#8).toNat = k := by
  have hbyte := toNat_byte (by omega : k + 0xc0 < 2 ^ 8)
  refine ⟨?_, table_two _ ⟨by omega, by omega⟩, ?_⟩
  · rw [ne_eq, high_eq_zero_iff]
    omega
  · rw [and_1f]
    omega

/-- The first byte of a character of three bytes. -/
theorem lead_three {k : Nat} (h : k < 16) : BitVec.ofNat 8 (k + 0xe0) &&& 0x80#8 ≠ 0#8 ∧
    leftLength (BitVec.ofNat 8 (k + 0xe0)) = 2 ∧
    (BitVec.ofNat 8 (k + 0xe0) &&& 0x0f#8).toNat = k := by
  have hbyte := toNat_byte (by omega : k + 0xe0 < 2 ^ 8)
  refine ⟨?_, table_three _ ⟨by omega, by omega⟩, ?_⟩
  · rw [ne_eq, high_eq_zero_iff]
    omega
  · rw [and_0f]
    omega

/-- The first byte of a character of four bytes. -/
theorem lead_four {k : Nat} (h : k < 8) : BitVec.ofNat 8 (k + 0xf0) &&& 0x80#8 ≠ 0#8 ∧
    leftLength (BitVec.ofNat 8 (k + 0xf0)) = 3 ∧
    (BitVec.ofNat 8 (k + 0xf0) &&& 0x07#8).toNat = k := by
  have hbyte := toNat_byte (by omega : k + 0xf0 < 2 ^ 8)
  refine ⟨?_, table_four _ ⟨by omega, by omega⟩, ?_⟩
  · rw [ne_eq, high_eq_zero_iff]
    omega
  · rw [and_07]
    omega

/-- A byte that follows. -/
theorem and_tail {k : Nat} (h : k < 64) : (BitVec.ofNat 8 (k + 0x80) &&& 0x3f#8).toNat = k := by
  have hbyte := toNat_byte (by omega : k + 0x80 < 2 ^ 8)
  rw [and_3f]
  omega

theorem byte_eq {a b : Nat} (h : a % 2 ^ 8 = b % 2 ^ 8) : BitVec.ofNat 8 a = BitVec.ofNat 8 b := by
  rw [← ofNat_mod, h, ofNat_mod]

/-- Bytes that are those of a word. -/
theorem word32_eq {n a₀ a₁ a₂ a₃ : Nat} (h₀ : a₀ % 2 ^ 8 = n % 2 ^ 8)
    (h₁ : a₁ % 2 ^ 8 = n / 2 ^ 8 % 2 ^ 8) (h₂ : a₂ % 2 ^ 8 = n / 2 ^ 16 % 2 ^ 8)
    (h₃ : a₃ % 2 ^ 8 = n / 2 ^ 24 % 2 ^ 8) :
    [BitVec.ofNat 8 a₀, BitVec.ofNat 8 a₁, BitVec.ofNat 8 a₂, BitVec.ofNat 8 a₃] = word32 n := by
  rw [byte_eq h₀, byte_eq h₁, byte_eq h₂, byte_eq h₃, word32]

/-- **`__utf8_to_utf32_char_LE` writes UTF-32.** -/
theorem recodes_utf32 : Recodes utf8ToUtf32Char utf32LE := by
  intro c rest
  have hlt := codePoint_lt c
  have htail := and_tail (Nat.mod_lt c.toNat (by decide : 0 < 64))
  have htail' := and_tail (Nat.mod_lt (c.toNat / 64) (by decide : 0 < 64))
  have htail'' := and_tail (Nat.mod_lt (c.toNat / 4096) (by decide : 0 < 64))
  have hlow := or_shiftLeft (c.toNat / 64) (by omega : c.toNat % 64 < 2 ^ 6)
  have hlow' := or_shiftLeft (c.toNat / 64 % 64) (by omega : c.toNat % 64 < 2 ^ 6)
  rw [encodeChar_eq, utf32LE]
  split_ifs with h₁ h₂ h₃
  · have hascii : BitVec.ofNat 8 c.toNat &&& 0x80#8 = 0#8 := by
      rw [high_eq_zero_iff, toNat_byte (by omega)]
      exact h₁
    refine ⟨_, by rw [utf8ToUtf32Char]; exact if_pos hascii, rfl, ?_⟩
    exact @word32_eq c.toNat c.toNat 0 0 0 rfl (by omega) (by omega) (by omega)
  · obtain ⟨hhigh, hleft, hlead⟩ := lead_two (by omega : c.toNat / 64 < 32)
    simp only [utf8ToUtf32Char, masked, List.cons_append, List.getElem?_cons_zero,
      List.getElem?_cons_succ, Option.bind_eq_bind, Option.bind_some, Option.map_some, if_neg hhigh,
      hleft, hlead, htail, hlow, shiftRight_eq]
    exact ⟨_, rfl, rfl, @word32_eq _ _ _ 0 0 (by omega) (by omega) (by omega) (by omega)⟩
  · obtain ⟨hhigh, hleft, hlead⟩ := lead_three (by omega : c.toNat / 4096 < 16)
    have hmid := or_shiftLeft (c.toNat / 4096) (by omega : c.toNat / 64 % 64 / 2 ^ 2 < 2 ^ 4)
    simp only [utf8ToUtf32Char, masked, List.cons_append, List.getElem?_cons_zero,
      List.getElem?_cons_succ, Option.bind_eq_bind, Option.bind_some, Option.map_some, if_neg hhigh,
      hleft, hlead, htail, htail', hlow', shiftRight_eq, hmid]
    exact ⟨_, rfl, rfl, @word32_eq _ _ _ 0 0 (by omega) (by omega) (by omega) (by omega)⟩
  · obtain ⟨hhigh, hleft, hlead⟩ := lead_four (by omega : c.toNat / 262144 < 8)
    have hmid := or_shiftLeft (c.toNat / 4096 % 64) (by omega : c.toNat / 64 % 64 / 2 ^ 2 < 2 ^ 4)
    have hhigh' := or_shiftLeft (c.toNat / 262144) (by omega : c.toNat / 4096 % 64 / 2 ^ 4 < 2 ^ 2)
    simp only [utf8ToUtf32Char, masked, List.cons_append, List.getElem?_cons_zero,
      List.getElem?_cons_succ, Option.bind_eq_bind, Option.bind_some, Option.map_some, if_neg hhigh,
      hleft, hlead, htail, htail', htail'', hlow', shiftRight_eq, hmid, hhigh']
    exact ⟨_, rfl, rfl, @word32_eq _ _ _ _ 0 (by omega) (by omega) (by omega) (by omega)⟩

theorem code_two (a : Nat) {b : Nat} (hb : b < 64) :
    b ||| (a &&& 0x03) <<< 6 ||| (a >>> 2) <<< 8 = a * 64 + b := by
  have hand : a &&& 0x03 = a % 4 := and_mask a 2
  have hlow := or_shiftLeft (a % 4) (by omega : b < 2 ^ 6)
  have hhigh := or_shiftLeft (a / 2 ^ 2) (by omega : a % 4 * 2 ^ 6 + b < 2 ^ 8)
  rw [hand, hlow, shiftRight_eq, hhigh]
  omega

theorem code_three (a : Nat) {b c : Nat} (hb : b < 64) (hc : c < 64) :
    c ||| (b &&& 0x03) <<< 6 ||| (b >>> 2 ||| a <<< 4) <<< 8 = a * 4096 + b * 64 + c := by
  have hand : b &&& 0x03 = b % 4 := and_mask b 2
  have hlow := or_shiftLeft (b % 4) (by omega : c < 2 ^ 6)
  have hmid := or_shiftLeft a (by omega : b / 2 ^ 2 < 2 ^ 4)
  have hhigh := or_shiftLeft (a * 2 ^ 4 + b / 2 ^ 2) (by omega : b % 4 * 2 ^ 6 + c < 2 ^ 8)
  rw [hand, hlow, shiftRight_eq, hmid, hhigh]
  omega

theorem code_four (a : Nat) {b c d : Nat} (hb : b < 64) (hc : c < 64) (hd : d < 64) :
    d ||| (c &&& 0x03) <<< 6 ||| (c >>> 2 ||| (b &&& 0x0f) <<< 4) <<< 8 |||
      (b >>> 4 ||| a <<< 2) <<< 16 = a * 262144 + b * 4096 + c * 64 + d := by
  have hand : c &&& 0x03 = c % 4 := and_mask c 2
  have hand' : b &&& 0x0f = b % 16 := and_mask b 4
  have hlow := or_shiftLeft (c % 4) (by omega : d < 2 ^ 6)
  have hmid := or_shiftLeft (b % 16) (by omega : c / 2 ^ 2 < 2 ^ 4)
  have hmid' := or_shiftLeft (b % 16 * 2 ^ 4 + c / 2 ^ 2) (by omega : c % 4 * 2 ^ 6 + d < 2 ^ 8)
  have hhigh := or_shiftLeft a (by omega : b / 2 ^ 4 < 2 ^ 2)
  have hhigh' := or_shiftLeft (a * 2 ^ 2 + b / 2 ^ 4)
    (by omega : (b % 16 * 2 ^ 4 + c / 2 ^ 2) * 2 ^ 8 + (c % 4 * 2 ^ 6 + d) < 2 ^ 16)
  rw [hand, hand', hlow, shiftRight_eq, hmid, hmid', shiftRight_eq, hhigh, hhigh']
  omega

/-- **The rounds over UTF-16 write UTF-16.** -/
theorem recodes_utf16 : Recodes utf8ToUtf16Char utf16LE := by
  intro c rest
  have hlt := codePoint_lt c
  have hmod : c.toNat % 64 < 64 := Nat.mod_lt _ (by decide)
  have hmod' : c.toNat / 64 % 64 < 64 := Nat.mod_lt _ (by decide)
  have hmod'' : c.toNat / 4096 % 64 < 64 := Nat.mod_lt _ (by decide)
  have htail := and_tail hmod
  have htail' := and_tail hmod'
  have htail'' := and_tail hmod''
  rw [encodeChar_eq, ← unicodeToUtf16Char_eq]
  split_ifs with h₁ h₂ h₃
  · have hbyte := toNat_byte (by omega : c.toNat < 2 ^ 8)
    have hascii : BitVec.ofNat 8 c.toNat &&& 0x80#8 = 0#8 := by
      rw [high_eq_zero_iff, hbyte]
      exact h₁
    refine ⟨_, by rw [utf8ToUtf16Char]; exact if_pos hascii, rfl, ?_⟩
    rw [hbyte]
  · obtain ⟨hhigh, hleft, hlead⟩ := lead_two (by omega : c.toNat / 64 < 32)
    have hcode := code_two (c.toNat / 64) hmod
    rw [show c.toNat / 64 * 64 + c.toNat % 64 = c.toNat by omega] at hcode
    simp only [utf8ToUtf16Char, utf8Decode, masked, List.cons_append, List.getElem?_cons_zero,
      List.getElem?_cons_succ, Option.bind_eq_bind, Option.bind_some, Option.map_some, if_neg hhigh,
      hleft, hlead, htail, hcode]
    exact ⟨_, rfl, rfl, rfl⟩
  · obtain ⟨hhigh, hleft, hlead⟩ := lead_three (by omega : c.toNat / 4096 < 16)
    have hcode := code_three (c.toNat / 4096) hmod' hmod
    rw [show c.toNat / 4096 * 4096 + c.toNat / 64 % 64 * 64 + c.toNat % 64 = c.toNat by omega]
      at hcode
    simp only [utf8ToUtf16Char, utf8Decode, masked, List.cons_append, List.getElem?_cons_zero,
      List.getElem?_cons_succ, Option.bind_eq_bind, Option.bind_some, Option.map_some, if_neg hhigh,
      hleft, hlead, htail, htail', hcode]
    exact ⟨_, rfl, rfl, rfl⟩
  · obtain ⟨hhigh, hleft, hlead⟩ := lead_four (by omega : c.toNat / 262144 < 8)
    have hcode := code_four (c.toNat / 262144) hmod'' hmod' hmod
    rw [show c.toNat / 262144 * 262144 + c.toNat / 4096 % 64 * 4096 + c.toNat / 64 % 64 * 64 +
      c.toNat % 64 = c.toNat by omega] at hcode
    simp only [utf8ToUtf16Char, utf8Decode, masked, List.cons_append, List.getElem?_cons_zero,
      List.getElem?_cons_succ, Option.bind_eq_bind, Option.bind_some, Option.map_some, if_neg hhigh,
      hleft, hlead, htail, htail', htail'', hcode]
    exact ⟨_, rfl, rfl, rfl⟩

/-! ### The passes over text -/

section
variable {char : Bytes → Option (Option Recoded)} {encode : Char → Bytes}

/-- The first round of a pass over a text, and what it leaves of it. -/
theorem Recodes.first (hchar : Recodes char encode) (c : Char) (cs : List Char) :
    (0 : Int) < (encodeText (c :: cs)).length ∧
      ∃ read, char (encodeText (c :: cs) ++ [0]) = some (some read) ∧ read.out = encode c ∧
        (encodeText (c :: cs) ++ [0]).drop read.size = encodeText cs ++ [0] ∧
        ((encodeText (c :: cs)).length : Int) - read.size = (encodeText cs).length := by
  have hpos := length_encodeChar_pos c
  have hlength :
      (encodeText (c :: cs)).length = (encodeChar c).length + (encodeText cs).length := by
    rw [encodeText_cons, List.length_append]
  obtain ⟨read, hread, hsize, hout⟩ := hchar c (encodeText cs ++ [0])
  rw [← List.append_assoc, ← encodeText_cons] at hread
  refine ⟨by omega, read, hread, hout, ?_, by omega⟩
  rw [hsize, encodeText_cons, List.append_assoc, List.drop_left]

/-- **The sizes are added up**, as an `int`. -/
theorem spaceLoop_encodeText (hchar : Recodes char encode) {space : Recoded → Int}
    {spaceOf : Char → Nat} (hspace : ∀ c read, read.out = encode c → space read = spaceOf c)
    (cs : List Char) {sum : Int} (hsum : FitsS32 sum) :
    spaceLoop char space (encodeText cs ++ [0]) (encodeText cs).length sum =
      some (some (s32 (sum + ((cs.map spaceOf).sum : Nat)))) := by
  induction cs generalizing sum with
  | nil =>
    have hnil : ¬(0 : Int) < (encodeText []).length := Int.lt_irrefl _
    rw [spaceLoop.eq_def, if_neg hnil, List.map_nil, List.sum_nil, Nat.cast_zero, Int.add_zero,
      s32_of_fits hsum]
  | cons c cs ih =>
    obtain ⟨hpos, read, hread, hout, hdrop, hlength⟩ := hchar.first c cs
    rw [spaceLoop.eq_def, if_pos hpos, hread]
    dsimp only
    rw [hdrop, hlength, ih (fitsS32_s32 _), hspace c read hout, List.map_cons, List.sum_cons,
      Nat.cast_add, ← Int.add_assoc]
    congr 2
    exact Int.bmod_add_bmod

/-- **The encoding is written if and only if** there is room for it. -/
theorem writeLoop_encodeText (hchar : Recodes char encode) (cs : List Char) (kept tail : Bytes) :
    writeLoop char (encodeText cs ++ [0]) (encodeText cs).length (kept ++ tail) kept.length =
      if (cs.flatMap encode).length ≤ tail.length then
        some (some (kept ++ cs.flatMap encode ++ tail.drop (cs.flatMap encode).length,
          kept.length + (cs.flatMap encode).length))
      else none := by
  induction cs generalizing kept tail with
  | nil =>
    have hnil : ¬(0 : Int) < (encodeText []).length := Int.lt_irrefl _
    rw [writeLoop.eq_def, if_neg hnil]
    simp
  | cons c cs ih =>
    obtain ⟨hpos, read, hread, hout, hdrop, hlength⟩ := hchar.first c cs
    rw [writeLoop.eq_def, if_pos hpos, hread]
    dsimp only
    rw [hdrop, hlength, hout, List.flatMap_cons, List.length_append]
    by_cases hroom : (encode c).length ≤ tail.length
    · have hrest := ih (kept ++ encode c) (tail.drop (encode c).length)
      rw [List.length_append, List.length_drop] at hrest
      rw [store_append kept hroom, Option.bind_some, hrest]
      by_cases hrests : (cs.flatMap encode).length ≤ tail.length - (encode c).length
      · rw [if_pos hrests, if_pos (by omega), List.drop_drop, Nat.add_assoc]
        simp only [List.append_assoc]
      · rw [if_neg hrests, if_neg (by omega)]
    · have hstore : store (kept ++ tail) kept.length (encode c) = none :=
        if_neg (by rw [List.length_append]; omega)
      rw [hstore, Option.bind_none, if_neg (by omega)]

/-- What is written behind the byte order mark, in memory of that size. -/
theorem withBom_encodeText (hchar : Recodes char encode) (bom : Bytes) {cs : List Char}
    {kept tail : Bytes} (hkept : kept.length = bom.length)
    (htail : tail.length = (cs.flatMap encode).length) (hint : tail.length < 2 ^ 31) :
    withBom char bom (encodeText cs) (encodeText cs).length (kept ++ tail) =
      some (s32 (tail.length + bom.length), bom ++ cs.flatMap encode) := by
  have hsize : s32 ((bom.length + tail.length : Nat) - bom.length) = tail.length := by
    rw [Nat.cast_add, add_sub_cancel_left]
    exact s32_of_fits ⟨by omega, by omega⟩
  have hwrite := writeLoop_encodeText hchar cs kept tail
  rw [if_pos (Nat.le_of_eq htail.symm), hkept, ← htail, List.drop_length, List.append_nil] at hwrite
  have hbom : store (kept ++ cs.flatMap encode) 0 bom = some (bom ++ cs.flatMap encode) := by
    have hstore := @store_append bom (kept ++ cs.flatMap encode) []
      (by rw [List.length_append]; omega)
    rw [← hkept, List.drop_left] at hstore
    exact hstore
  have hneg : ¬(tail.length : Int) < 0 := by omega
  rw [withBom, hwrite]
  simp only [Option.bind_eq_bind, Option.bind_some, hsize, if_neg hneg, hbom]
  rfl

/-- Nothing is written into memory that is too small. -/
theorem withBom_eq_none (hchar : Recodes char encode) {bom : Bytes} {cs : List Char}
    {kept tail : Bytes} (hkept : kept.length = bom.length)
    (htail : tail.length < (cs.flatMap encode).length) :
    withBom char bom (encodeText cs) (encodeText cs).length (kept ++ tail) = none := by
  have hwrite := writeLoop_encodeText hchar cs kept tail
  rw [if_neg (by omega), hkept] at hwrite
  rw [withBom, hwrite]
  rfl

end

/-! ### The law -/

/-- The encodings with a byte order mark. -/
inductive Utf where
  | utf16
  | utf32
deriving DecidableEq, Repr

namespace Utf

def name : Utf → CString
  | utf16 => encodeText "utf-16".toList
  | utf32 => encodeText "utf-32".toList

def bom : Utf → Bytes
  | utf16 => [0xff, 0xfe]
  | utf32 => [0xff, 0xfe, 0, 0]

def char : Utf → Bytes → Option (Option Recoded)
  | utf16 => utf8ToUtf16Char
  | utf32 => utf8ToUtf32Char

def getSize : Utf → CString → Int → Option Int
  | utf16 => utf8ToUtf16GetSize
  | utf32 => utf8ToUtf32GetSize

def encode : Utf → Char → Bytes
  | utf16 => utf16LE
  | utf32 => utf32LE

def decode : Utf → Bytes → Option (List Nat)
  | utf16 => decodeUtf16LE
  | utf32 => decodeUtf32LE

end Utf

/-- A text is encoded: what is written behind the byte order mark fills the size of the first pass,
and is decoded to the code points of the text. -/
def EncodeLaw (utf : Utf) (str : TextValue) : Prop :=
  ∃ (size : Nat) (body : Bytes),
    utf.getSize str.text (s32 str.text.length) = some (size : Int) ∧ body.length = size ∧
    withBom utf.char utf.bom str.text (s32 str.text.length)
      (List.replicate (size + utf.bom.length) 0) =
        some (((size + utf.bom.length : Nat) : Int), utf.bom ++ body) ∧
    strEncode str.text utf.name = some (some (utf.bom ++ body)) ∧
    utf.decode body = some (str.chars.map Char.toNat)

section
variable (utf : Utf) (str : TextValue)

theorem recodes (utf : Utf) : Recodes utf.char utf.encode := by
  cases utf with
  | utf16 => exact recodes_utf16
  | utf32 => exact recodes_utf32

theorem decode_flatMap (cs : List Char) :
    utf.decode (cs.flatMap utf.encode) = some (cs.map Char.toNat) := by
  cases utf with
  | utf16 => exact decodeUtf16LE_flatMap cs
  | utf32 => exact decodeUtf32LE_flatMap cs

theorem strEncode_name : strEncode str.text utf.name =
    encodeWithBom (utf.getSize str.text (s32 str.text.length)) utf.bom.length
      (withBom utf.char utf.bom str.text (s32 str.text.length)) := by
  cases utf with
  | utf16 =>
    have h8 : Utf.utf16.name ≠ encodeText "utf-8".toList := by decide
    have hascii : Utf.utf16.name ≠ encodeText "ascii".toList := by decide
    rw [strEncode, if_neg h8, if_neg hascii]
    exact if_pos rfl
  | utf32 =>
    have h8 : Utf.utf32.name ≠ encodeText "utf-8".toList := by decide
    have hascii : Utf.utf32.name ≠ encodeText "ascii".toList := by decide
    have h16 : Utf.utf32.name ≠ encodeText "utf-16".toList := by decide
    rw [strEncode, if_neg h8, if_neg hascii, if_neg h16]
    exact if_pos rfl

/-- The size is that of the encoding, as an `int`. -/
theorem getSize_eq : utf.getSize str.text str.text.length =
    some (s32 (str.chars.flatMap utf.encode).length) := by
  have hfits : FitsS32 0 := ⟨by decide, by decide⟩
  cases utf with
  | utf16 =>
    have hloop := @spaceLoop_encodeText _ _ recodes_utf16 (fun read => read.out.length)
      (fun c => (utf16LE c).length) (fun c read h => by rw [h]) str.chars 0 hfits
    rw [Utf.getSize, utf8ToUtf16GetSize, str.encoded, hloop, Int.zero_add, Option.map_some,
      Option.elim_some, id, Utf.encode, List.length_flatMap]
  | utf32 =>
    have hloop := @spaceLoop_encodeText _ _ recodes_utf32 (fun _ => 1) (fun _ => 1)
      (fun _ _ _ => rfl) str.chars 0 hfits
    have hcount : (str.chars.map fun _ => 1).sum = str.chars.length := by simp
    have htotal : (str.chars.flatMap utf32LE).length = str.chars.length * 4 := by
      rw [List.length_flatMap]
      simp [utf32LE]
    have hword : s32 (s32 str.chars.length * 4) = s32 (str.chars.length * 4) := Int.bmod_mul_bmod
    rw [Utf.getSize, utf8ToUtf32GetSize, str.encoded, hloop, Int.zero_add, hcount, Option.map_some,
      Option.elim_some, Utf.encode, htotal, hword, Nat.cast_mul]
    rfl

/-- A text that is empty, or too long for an `int`, is given no room. -/
theorem getSize_of_le (h : s32 str.text.length ≤ 0) :
    utf.getSize str.text (s32 str.text.length) = some 0 := by
  have hloop : ∀ {char space}, spaceLoop char space (str.text ++ [0]) (s32 str.text.length) 0 =
      some (some 0) := by
    intro char space
    rw [spaceLoop.eq_def, if_neg (Int.not_lt.mpr h)]
  cases utf with
  | utf16 =>
    rw [Utf.getSize, utf8ToUtf16GetSize, hloop]
    rfl
  | utf32 =>
    rw [Utf.getSize, utf8ToUtf32GetSize, hloop]
    rfl

theorem length_encode_pos (c : Char) : 0 < (utf.encode c).length := by
  cases utf with
  | utf16 =>
    change 0 < (utf16LE c).length
    unfold utf16LE utf16Units
    split <;> exact Nat.succ_pos _
  | utf32 => exact Nat.succ_pos _

theorem length_bom_le : utf.bom.length ≤ 4 := by
  cases utf <;> decide

/-- Memory behind which there is none is not enough. -/
theorem withBom_of_lt {size : Nat} (h : size < (str.chars.flatMap utf.encode).length) :
    withBom utf.char utf.bom str.text str.text.length
      (List.replicate (size + utf.bom.length) 0) = none := by
  have hnone := @withBom_eq_none _ _ (recodes utf) utf.bom str.chars
    (List.replicate utf.bom.length 0) (List.replicate size 0) List.length_replicate
    (by rwa [List.length_replicate])
  rwa [← List.replicate_add, ← str.encoded, Nat.add_comm] at hnone

/-- Memory of the size of both is filled. -/
theorem withBom_of_eq {size : Nat} (h : size = (str.chars.flatMap utf.encode).length)
    (hint : size < 2 ^ 31) :
    withBom utf.char utf.bom str.text str.text.length
      (List.replicate (size + utf.bom.length) 0) =
        some (s32 (size + utf.bom.length), utf.bom ++ str.chars.flatMap utf.encode) := by
  have hsome := @withBom_encodeText _ _ (recodes utf) utf.bom str.chars
    (List.replicate utf.bom.length 0) (List.replicate size 0) List.length_replicate
    (by rwa [List.length_replicate]) (by rwa [List.length_replicate])
  rwa [← List.replicate_add, ← str.encoded, Nat.add_comm utf.bom.length, List.length_replicate]
    at hsome

/-- There is no second pass, when the first has found nothing. -/
theorem encodeWithBom_of_le {size : Int} (h : size ≤ 0) (bomSize : Nat)
    (write : Bytes → Option (Int × Bytes)) :
    encodeWithBom (some size) bomSize write = some none := by
  unfold encodeWithBom
  rw [Option.bind_eq_bind, Option.bind_some, if_pos h]
  rfl

/-- The second pass, when the first has found something. -/
theorem encodeWithBom_of_pos {size bomSize : Nat} (hpos : 0 < size) (hint : size < 2 ^ 31)
    (hbom : bomSize ≤ 4) (write : Bytes → Option (Int × Bytes)) :
    encodeWithBom (some (size : Int)) bomSize write =
      (write (List.replicate (size + bomSize) 0)).bind fun (ok, b) =>
        if ok < 0 then some none
        else (loadBytes b 0 (sizeOfInt (s32 (size + bomSize)))).bind fun data =>
          (argNewBytes data).map some := by
  have hword : (s32 (size + bomSize) % 2 ^ 32).toNat = size + bomSize := by
    rw [s32_emod]
    omega
  have hneg : ¬(size : Int) ≤ 0 := by omega
  unfold encodeWithBom
  simp only [Option.bind_eq_bind, Option.bind_some, if_neg hneg, hword]
  cases write (List.replicate (size + bomSize) 0) with
  | none => rw [Option.bind_none, Option.bind_none]
  | some result =>
    rw [Option.bind_some, Option.bind_some]
    split
    · rfl
    · cases loadBytes result.2 0 (sizeOfInt (s32 (size + bomSize))) with
      | none => rw [Option.bind_none, Option.bind_none]
      | some data =>
        rw [Option.bind_some, Option.bind_some]
        cases argNewBytes data <;> rfl

/-- **A text is encoded** that is not empty, has a size that is an `int`, and an encoding whose
size, with the byte order mark, is one. -/
theorem encodeLaw_of_fits (hne : str.chars ≠ []) (hsize : str.text.length < 2 ^ 31)
    (htotal : (str.chars.flatMap utf.encode).length + utf.bom.length < 2 ^ 31) :
    EncodeLaw utf str := by
  have hword : s32 str.text.length = str.text.length := s32_of_fits ⟨by omega, by omega⟩
  have hpos : 0 < (str.chars.flatMap utf.encode).length := by
    obtain ⟨c, cs, hcs⟩ := List.exists_cons_of_ne_nil hne
    rw [hcs, List.flatMap_cons, List.length_append]
    exact Nat.add_pos_left (length_encode_pos utf c) _
  have hget := getSize_eq utf str
  have hwrite := withBom_of_eq utf str rfl (by omega)
  have hencode := strEncode_name utf str
  have hbytes : (utf.bom ++ str.chars.flatMap utf.encode).length =
      (str.chars.flatMap utf.encode).length + utf.bom.length := by
    rw [List.length_append, Nat.add_comm]
  rw [s32_of_fits ⟨by omega, by omega⟩] at hget
  rw [s32_of_fits ⟨by omega, by omega⟩] at hwrite
  refine ⟨_, str.chars.flatMap utf.encode, by rw [hword]; exact hget, rfl, ?_, ?_,
    decode_flatMap utf str.chars⟩
  · rw [hword, hwrite, Nat.cast_add]
  · have hall : sizeOfInt (s32 ((str.chars.flatMap utf.encode).length + utf.bom.length)) =
        (utf.bom ++ str.chars.flatMap utf.encode).length := by
      rw [s32_of_fits ⟨by omega, by omega⟩, hbytes]
      unfold sizeOfInt
      omega
    have hload : loadBytes (utf.bom ++ str.chars.flatMap utf.encode) 0
        (utf.bom ++ str.chars.flatMap utf.encode).length =
          some (utf.bom ++ str.chars.flatMap utf.encode) :=
      loadBytes_of_drop (Nat.zero_le _) (List.append_nil _).symm
    rw [hencode, hword, hget, encodeWithBom_of_pos hpos (by omega) (length_bom_le utf), hwrite,
      Option.bind_some]
    dsimp only
    rw [if_neg (by omega), hall, hload, Option.bind_some, argNewBytes, if_pos (by omega)]
    rfl

/-- Nothing else is encoded. -/
theorem fits_of_strEncode {bytes : Bytes} (h : strEncode str.text utf.name = some (some bytes)) :
    str.chars ≠ [] ∧ str.text.length < 2 ^ 31 ∧
      (str.chars.flatMap utf.encode).length + utf.bom.length < 2 ^ 31 := by
  have hfits := str.fits
  have hbom := length_bom_le utf
  rw [strEncode_name] at h
  have hpos : 0 < s32 str.text.length := by
    by_contra hle
    rw [getSize_of_le utf str (Int.not_lt.mp hle), encodeWithBom_of_le (Int.le_refl 0)] at h
    cases h
  have hsize : str.text.length < 2 ^ 31 := by
    by_contra hlarge
    rw [s32_of_over (by omega) (by omega)] at hpos
    omega
  have hword : s32 str.text.length = str.text.length := s32_of_fits ⟨by omega, by omega⟩
  have hne : str.chars ≠ [] := by
    intro hnil
    rw [hword, str.encoded, hnil] at hpos
    exact absurd hpos (Int.lt_irrefl 0)
  refine ⟨hne, hsize, ?_⟩
  by_contra hlarge
  rw [hword, getSize_eq] at h
  have hmod := s32_emod (str.chars.flatMap utf.encode).length
  have hint := (fitsS32_s32 (str.chars.flatMap utf.encode).length).2
  rcases Int.lt_or_le 0 (s32 (str.chars.flatMap utf.encode).length) with hfirst | hfirst
  · obtain ⟨size, hsizeEq⟩ := Int.eq_ofNat_of_zero_le (Int.le_of_lt hfirst)
    rw [hsizeEq] at h hmod hint hfirst
    rw [encodeWithBom_of_pos (by omega) (by omega) hbom] at h
    rcases Nat.lt_or_ge size (str.chars.flatMap utf.encode).length with hlt | hge
    · rw [withBom_of_lt utf str hlt, Option.bind_none] at h
      cases h
    · have hall : size = (str.chars.flatMap utf.encode).length := by omega
      rw [withBom_of_eq utf str hall (by omega), Option.bind_some] at h
      dsimp only at h
      rw [if_pos (by rw [s32_of_over (by omega) (by omega)]; omega)] at h
      cases h
  · rw [encodeWithBom_of_le hfirst] at h
    cases h

end

/-- **A text is encoded if and only if** it is not empty, its size is an `int`, and that of its
encoding with the byte order mark is one. -/
theorem encode_iff (utf : Utf) (str : TextValue) : EncodeLaw utf str ↔
    str.chars ≠ [] ∧ str.text.length < 2 ^ 31 ∧
      (str.chars.flatMap utf.encode).length + utf.bom.length < 2 ^ 31 := by
  constructor
  · rintro ⟨size, body, -, -, -, hencode, -⟩
    exact fits_of_strEncode utf str hencode
  · rintro ⟨hne, hsize, htotal⟩
    exact encodeLaw_of_fits utf str hne hsize htotal

/-- The text without characters. -/
def emptyText : TextValue where
  text := []
  noNul := List.not_mem_nil
  fits := by decide
  chars := []
  encoded := rfl

/-- **The empty text is not encoded**: the first pass finds nothing to write. -/
theorem not_encode : ¬ ∀ (utf : Utf) (str : TextValue), EncodeLaw utf str := by
  intro h
  obtain ⟨size, body, -, -, -, hencode, -⟩ := h .utf16 emptyText
  exact (fits_of_strEncode _ _ hencode).1 rfl

end PikaScript
