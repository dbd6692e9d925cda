import PikaScript.Lib.Memory

/-! UTF-16 and UTF-32, low byte first.

A character outside the basic plane is two surrogates in UTF-16. What is encoded is decoded to the
same code points. -/
namespace Unicode
open Memory

/-- The code units of a code point in UTF-16. -/
def utf16Units (n : Nat) : List Nat :=
  if n < 0x10000 then [n]
  else [0xd800 + (n - 0x10000) / 0x400, 0xdc00 + (n - 0x10000) % 0x400]

/-- The bytes of a 16-bit word, low byte first. -/
def word16 (value : Nat) : List (BitVec 8) := [BitVec.ofNat 8 value, BitVec.ofNat 8 (value / 2 ^ 8)]

/-- UTF-16LE. -/
def utf16LE (c : Char) : List (BitVec 8) := (utf16Units c.toNat).flatMap word16

/-- UTF-32LE. -/
def utf32LE (c : Char) : List (BitVec 8) := word32 c.toNat

/-- The code points of UTF-16LE. -/
def decodeUtf16LE : List (BitVec 8) → Option (List Nat)
  | [] => some []
  | a :: b :: rest =>
    let u := a.toNat + 2 ^ 8 * b.toNat
    if u < 0xd800 ∨ 0xdfff < u then (decodeUtf16LE rest).map (u :: ·)
    else
      match rest with
      | c :: d :: rest =>
        let l := c.toNat + 2 ^ 8 * d.toNat
        if u < 0xdc00 ∧ 0xdc00 ≤ l ∧ l ≤ 0xdfff then
          (decodeUtf16LE rest).map ((0x10000 + (u - 0xd800) * 0x400 + (l - 0xdc00)) :: ·)
        else none
      | _ => none
  | _ => none

/-- The code points of UTF-32LE. -/
def decodeUtf32LE : List (BitVec 8) → Option (List Nat)
  | [] => some []
  | a :: b :: c :: d :: rest =>
    let n := a.toNat + 2 ^ 8 * b.toNat + 2 ^ 16 * c.toNat + 2 ^ 24 * d.toNat
    if n.isValidChar then (decodeUtf32LE rest).map (n :: ·) else none
  | _ => none

theorem toNat_word16 {n : Nat} (h : n < 2 ^ 16) :
    (BitVec.ofNat 8 n).toNat + 2 ^ 8 * (BitVec.ofNat 8 (n / 2 ^ 8)).toNat = n := by
  simp only [BitVec.toNat_ofNat]
  omega

theorem decodeUtf16LE_append (c : Char) (rest : List (BitVec 8)) :
    decodeUtf16LE (utf16LE c ++ rest) = (decodeUtf16LE rest).map (c.toNat :: ·) := by
  have hvalid : c.toNat < 0xd800 ∨ 0xdfff < c.toNat ∧ c.toNat < 0x110000 := c.valid
  unfold utf16LE utf16Units
  split
  · have hunit := toNat_word16 (n := c.toNat) (by omega)
    simp only [List.flatMap_cons, List.flatMap_nil, List.append_nil, word16, List.cons_append,
      List.nil_append]
    rw [decodeUtf16LE.eq_def]
    dsimp only
    rw [hunit, if_pos (by omega)]
  · have hhigh := toNat_word16 (n := 0xd800 + (c.toNat - 0x10000) / 0x400) (by omega)
    have hlow := toNat_word16 (n := 0xdc00 + (c.toNat - 0x10000) % 0x400) (by omega)
    have hpoint : 0x10000 + (0xd800 + (c.toNat - 0x10000) / 0x400 - 0xd800) * 0x400 +
        (0xdc00 + (c.toNat - 0x10000) % 0x400 - 0xdc00) = c.toNat := by omega
    simp only [List.flatMap_cons, List.flatMap_nil, List.append_nil, word16, List.cons_append,
      List.nil_append, decodeUtf16LE, hhigh, hlow, hpoint]
    rw [if_neg (by omega), if_pos (by omega)]

theorem decodeUtf32LE_append (c : Char) (rest : List (BitVec 8)) :
    decodeUtf32LE (utf32LE c ++ rest) = (decodeUtf32LE rest).map (c.toNat :: ·) := by
  have hvalid : c.toNat < 0xd800 ∨ 0xdfff < c.toNat ∧ c.toNat < 0x110000 := c.valid
  have hpoint : (BitVec.ofNat 8 c.toNat).toNat + 2 ^ 8 * (BitVec.ofNat 8 (c.toNat / 2 ^ 8)).toNat +
      2 ^ 16 * (BitVec.ofNat 8 (c.toNat / 2 ^ 16)).toNat +
      2 ^ 24 * (BitVec.ofNat 8 (c.toNat / 2 ^ 24)).toNat = c.toNat := by
    simp only [BitVec.toNat_ofNat]
    omega
  simp only [utf32LE, word32, List.cons_append, List.nil_append, decodeUtf32LE, hpoint]
  exact if_pos c.valid

variable (cs : List Char)

/-- **UTF-16LE is decoded to what has been encoded.** -/
theorem decodeUtf16LE_flatMap : decodeUtf16LE (cs.flatMap utf16LE) = some (cs.map Char.toNat) := by
  induction cs with
  | nil => rfl
  | cons c cs ih =>
    rw [List.flatMap_cons, decodeUtf16LE_append, ih]
    rfl

/-- **UTF-32LE is decoded to what has been encoded.** -/
theorem decodeUtf32LE_flatMap : decodeUtf32LE (cs.flatMap utf32LE) = some (cs.map Char.toNat) := by
  induction cs with
  | nil => rfl
  | cons c cs ih =>
    rw [List.flatMap_cons, decodeUtf32LE_append, ih]
    rfl

end Unicode
