import PikaScript.Data.Utf8
import PikaScript.Lib.Unicode

/-! Validation of UTF-8.

`_valid_utf8` walks over the bytes as the other walks do, and tests each character on the way.
What it accepts is the grammar of RFC 3629. A length that is not given is counted by `strlen`
and kept in an `int`. -/
namespace PikaScript
open Utf8

/-! ### The code -/

/-- The loop of `_valid_utf8` over the last bytes of a character. -/
def validTail : Nat → Bytes → Nat → Option (Except Nat Nat)
  | 0, _, offset => some (.ok offset)
  | _ + 1, [], _ => none
  | ab + 1, c :: p, offset =>
    if c &&& 0xc0#8 ≠ 0x80#8 then some (.error offset) else validTail ab p (offset + 1)

/-- The switch over `ab`: what the first two bytes of a character must not be. -/
def rejectsSecond (ab : Nat) (c second : BitVec 8) : Bool :=
  match ab with
  | 1 => c &&& 0x3e#8 = 0#8
  | 2 => c = 0xe0 ∧ second &&& 0x20#8 = 0#8 ∨ c = 0xed ∧ second.toNat ≥ 0xa0
  | 3 => c = 0xf0 ∧ second &&& 0x30#8 = 0#8 ∨ c.toNat > 0xf4 ∨ c = 0xf4 ∧ second.toNat > 0x8f
  | _ => false

/-- A round of `_valid_utf8` with `length` bytes behind the first one: how far it goes, or where
it finds an error; none when it reads outside the bytes. -/
def validChar (length : Int) : Bytes → Option (Except Nat Nat)
  | [] => none
  | c :: p =>
    if c &&& 0x80#8 = 0#8 then some (.ok 1)
    else if c.toNat < 0xc0 then some (.error 0)
    else
      let ab := pcreUtf8Table4.getD (c &&& 0x3f#8).toNat 0
      if length < ab ∨ ab > 3 then some (.error 0)
      else match p with
        | [] => none
        | second :: p =>
          if second &&& 0xc0#8 ≠ 0x80#8 then some (.error 1)
          else if rejectsSecond ab c second then some (.error 1)
          else validTail (ab - 1) p 2

theorem lt_of_validTail {ab : Nat} {p : Bytes} {offset n : Nat}
    (h : validTail ab p offset = some (.ok n)) : offset ≤ n := by
  induction ab generalizing p offset with
  | zero =>
    cases h
    exact Nat.le_refl _
  | succ ab ih =>
    cases p with
    | nil => cases h
    | cons c p =>
      rw [validTail] at h
      split at h
      · cases h
      · exact Nat.le_of_succ_le (ih h)

theorem pos_of_validChar {length : Int} {p : Bytes} {n : Nat}
    (h : validChar length p = some (.ok n)) : 0 < n := by
  unfold validChar at h
  split at h
  · cases h
  · split at h
    · cases h
      exact Nat.one_pos
    · split at h
      · cases h
      · dsimp only at h
        split at h
        · cases h
        · split at h
          · cases h
          · split at h
            · cases h
            · split at h
              · cases h
              · exact Nat.lt_of_lt_of_le Nat.two_pos (lt_of_validTail h)

/-- The loop of `_valid_utf8`: the offset of the first error, or -1. -/
def validUtf8Loop (p : Bytes) (length : Int) (offset : Nat) : Option Int :=
  if 0 < length then
    match _hchar : validChar (length - 1) p with
    | none => none
    | some (.error n) => some (offset + n : Nat)
    | some (.ok n) => validUtf8Loop (p.drop n) (length - n) (offset + n)
  else some (-1)
termination_by length.toNat
decreasing_by
  have := pos_of_validChar _hchar
  omega

/-- `_valid_utf8`. -/
def validUtf8 (string : Bytes) (length : Int) : Option Int :=
  validUtf8Loop string (if length < 0 then s32 string.length else length) 0

/-! ### A character -/

theorem high_eq_zero_iff : ∀ c : BitVec 8, c &&& 0x80#8 = 0#8 ↔ c.toNat < 0x80 := by decide

theorem tail_iff : ∀ c : BitVec 8, c &&& 0xc0#8 = 0x80#8 ↔ Tail c := by decide

theorem table_two : ∀ c : BitVec 8, Within 0xc0 0xdf c →
    pcreUtf8Table4.getD (c &&& 0x3f#8).toNat 0 = 1 := by decide

theorem table_three : ∀ c : BitVec 8, Within 0xe0 0xef c →
    pcreUtf8Table4.getD (c &&& 0x3f#8).toNat 0 = 2 := by decide

theorem table_four : ∀ c : BitVec 8, Within 0xf0 0xf7 c →
    pcreUtf8Table4.getD (c &&& 0x3f#8).toNat 0 = 3 := by decide

theorem table_more : ∀ c : BitVec 8, Within 0xf8 0xff c →
    pcreUtf8Table4.getD (c &&& 0x3f#8).toNat 0 > 3 := by decide

theorem overlong_two_iff : ∀ c : BitVec 8, Within 0xc0 0xdf c →
    (c &&& 0x3e#8 = 0#8 ↔ ¬Within 0xc2 0xdf c) := by decide

theorem overlong_three_iff : ∀ c : BitVec 8, Tail c → (c &&& 0x20#8 = 0#8 ↔ ¬0xa0 ≤ c.toNat) := by
  decide

theorem overlong_four_iff : ∀ c : BitVec 8, Tail c → (c &&& 0x30#8 = 0#8 ↔ ¬0x90 ≤ c.toNat) := by
  decide

variable {c b d e : BitVec 8} {p : Bytes}

/-- The result of a round tells whether a character is in front of it. -/
def Judges (c : BitVec 8) (p : Bytes) (result : Option (Except Nat Nat)) : Prop :=
  CharBytes ((c :: p).take (charLength c)) ∧ result = some (.ok (charLength c)) ∨
    ¬CharBytes ((c :: p).take (charLength c)) ∧ ∃ n, result = some (.error n)

theorem judges_ok {chars : Bytes} (htake : (c :: p).take (charLength c) = chars)
    (h : CharBytes chars) : Judges c p (some (.ok (charLength c))) :=
  .inl ⟨htake ▸ h, rfl⟩

theorem judges_error {chars : Bytes} (n : Nat) (htake : (c :: p).take (charLength c) = chars)
    (h : ¬CharBytes chars) : Judges c p (some (.error n)) :=
  .inr ⟨htake ▸ h, n, rfl⟩

/-- A round over a first byte that is not ASCII and has all its bytes behind it. -/
theorem validChar_eq {length : Int} {ab : Nat} (hhigh : 0xc0 ≤ c.toNat)
    (hab : pcreUtf8Table4.getD (c &&& 0x3f#8).toNat 0 = ab) (hle : ab ≤ 3) (hlength : ab ≤ length) :
    validChar length (c :: b :: p) =
      if ¬Tail b then some (.error 1) else if rejectsSecond ab c b then some (.error 1)
      else validTail (ab - 1) p 2 := by
  rw [validChar, if_neg (by rw [high_eq_zero_iff]; omega), if_neg (by omega)]
  simp only [hab, ne_eq, tail_iff]
  rw [if_neg (by omega)]

theorem validTail_one : validTail 1 (d :: p) 2 =
    if Tail d then some (.ok 3) else some (.error 2) := by
  simp only [validTail, ne_eq, tail_iff, ite_not]

theorem validTail_two : validTail 2 (d :: e :: p) 2 =
    if Tail d then if Tail e then some (.ok 4) else some (.error 3) else some (.error 2) := by
  simp only [validTail, ne_eq, tail_iff, ite_not]

/-- A character of which bytes are missing. -/
theorem validChar_short {ab : Nat} (hhigh : 0xc0 ≤ c.toNat)
    (hab : pcreUtf8Table4.getD (c &&& 0x3f#8).toNat 0 = ab) (hchar : charLength c = ab + 1)
    (hlength : p.length < ab) : Judges c p (validChar p.length (c :: p)) := by
  rw [validChar, if_neg (by rw [high_eq_zero_iff]; omega), if_neg (by omega)]
  simp only [hab]
  rw [if_pos (.inl (by omega))]
  refine judges_error 0 (List.take_of_length_le ?_) (not_charBytes_of_length ?_)
  · rw [hchar, List.length_cons]
    omega
  · rw [hchar, List.length_cons]
    omega

theorem judges_two (h : Within 0xc0 0xdf c) : Judges c p (validChar p.length (c :: p)) := by
  have hhigh := h.1
  have htable := table_two c h
  have hchar : charLength c = 2 := by
    obtain ⟨h₁, h₂⟩ := h
    unfold charLength
    split_ifs <;> omega
  rcases p with _ | ⟨b, p⟩
  · exact validChar_short hhigh htable hchar Nat.one_pos
  have htake : (c :: b :: p).take (charLength c) = [c, b] := by rw [hchar]; rfl
  rw [validChar_eq hhigh htable (by decide) (by rw [List.length_cons]; omega)]
  by_cases hb : Tail b
  · have hreject : rejectsSecond 1 c b = true ↔ ¬Within 0xc2 0xdf c := by
      simp only [rejectsSecond, decide_eq_true_eq, overlong_two_iff c h]
    rw [if_neg (not_not.mpr hb)]
    by_cases hc : Within 0xc2 0xdf c
    · rw [if_neg (by rw [hreject, not_not]; exact hc)]
      exact hchar ▸ judges_ok htake (charBytes_two_iff.mpr ⟨hc, hb⟩)
    · rw [if_pos (hreject.mpr hc)]
      exact judges_error 1 htake fun hbytes => hc (charBytes_two_iff.mp hbytes).1
  · rw [if_pos hb]
    exact judges_error 1 htake fun hbytes => hb (charBytes_two_iff.mp hbytes).2

theorem judges_three (h : Within 0xe0 0xef c) : Judges c p (validChar p.length (c :: p)) := by
  have hhigh : 0xc0 ≤ c.toNat := Nat.le_trans (by decide) h.1
  have htable := table_three c h
  have hchar : charLength c = 3 := by
    obtain ⟨h₁, h₂⟩ := h
    unfold charLength
    split_ifs <;> omega
  rcases p with _ | ⟨b, _ | ⟨d, p⟩⟩
  · exact validChar_short hhigh htable hchar Nat.two_pos
  · exact validChar_short hhigh htable hchar Nat.one_lt_two
  have htake : (c :: b :: d :: p).take (charLength c) = [c, b, d] := by rw [hchar]; rfl
  rw [validChar_eq hhigh htable (by decide) (by rw [List.length_cons, List.length_cons]; omega),
    validTail_one]
  by_cases hb : Tail b
  · have hreject : rejectsSecond 2 c b = true ↔
        ¬((c = 0xe0 → 0xa0 ≤ b.toNat) ∧ (c = 0xed → b.toNat < 0xa0)) := by
      simp only [rejectsSecond, decide_eq_true_eq, overlong_three_iff b hb, not_and_or,
        Classical.not_imp, Nat.not_lt, ge_iff_le]
    rw [if_neg (not_not.mpr hb)]
    by_cases hc : (c = 0xe0 → 0xa0 ≤ b.toNat) ∧ (c = 0xed → b.toNat < 0xa0)
    · rw [if_neg (by rw [hreject, not_not]; exact hc)]
      by_cases hd : Tail d
      · rw [if_pos hd]
        exact hchar ▸ judges_ok htake (charBytes_three_iff.mpr ⟨h, hb, hd, hc⟩)
      · rw [if_neg hd]
        exact judges_error 2 htake fun hbytes => hd (charBytes_three_iff.mp hbytes).2.2.1
    · rw [if_pos (hreject.mpr hc)]
      exact judges_error 1 htake fun hbytes => hc (charBytes_three_iff.mp hbytes).2.2.2
  · rw [if_pos hb]
    exact judges_error 1 htake fun hbytes => hb (charBytes_three_iff.mp hbytes).2.1

theorem judges_four (h : Within 0xf0 0xf7 c) : Judges c p (validChar p.length (c :: p)) := by
  have hhigh : 0xc0 ≤ c.toNat := Nat.le_trans (by decide) h.1
  have htable := table_four c h
  have hchar : charLength c = 4 := by
    obtain ⟨h₁, h₂⟩ := h
    unfold charLength
    split_ifs <;> omega
  rcases p with _ | ⟨b, _ | ⟨d, _ | ⟨e, p⟩⟩⟩
  · exact validChar_short hhigh htable hchar (Nat.succ_pos _)
  · exact validChar_short hhigh htable hchar (by rw [List.length_singleton]; decide)
  · exact validChar_short hhigh htable hchar Nat.le.refl
  have htake : (c :: b :: d :: e :: p).take (charLength c) = [c, b, d, e] := by rw [hchar]; rfl
  rw [validChar_eq hhigh htable (by decide)
    (by rw [List.length_cons, List.length_cons, List.length_cons]; omega), validTail_two]
  by_cases hb : Tail b
  · have hreject : rejectsSecond 3 c b = true ↔ ¬(Within 0xf0 0xf4 c ∧
        (c = 0xf0 → 0x90 ≤ b.toNat) ∧ (c = 0xf4 → b.toNat < 0x90)) := by
      have hrange : Within 0xf0 0xf4 c ↔ c.toNat ≤ 0xf4 := ⟨And.right, fun hc => ⟨h.1, hc⟩⟩
      simp only [rejectsSecond, decide_eq_true_eq, overlong_four_iff b hb, hrange, not_and_or,
        Classical.not_imp, Nat.not_lt, Nat.not_le, gt_iff_lt, or_left_comm]
      exact Iff.rfl
    rw [if_neg (not_not.mpr hb)]
    by_cases hc : Within 0xf0 0xf4 c ∧
        (c = 0xf0 → 0x90 ≤ b.toNat) ∧ (c = 0xf4 → b.toNat < 0x90)
    · rw [if_neg (by rw [hreject, not_not]; exact hc)]
      by_cases hd : Tail d
      · rw [if_pos hd]
        by_cases he : Tail e
        · rw [if_pos he]
          exact hchar ▸ judges_ok htake (charBytes_four_iff.mpr ⟨hc.1, hb, hd, he, hc.2⟩)
        · rw [if_neg he]
          exact judges_error 3 htake fun hbytes => he (charBytes_four_iff.mp hbytes).2.2.2.1
      · rw [if_neg hd]
        exact judges_error 2 htake fun hbytes => hd (charBytes_four_iff.mp hbytes).2.2.1
    · rw [if_pos (hreject.mpr hc)]
      refine judges_error 1 htake fun hbytes => hc ?_
      obtain ⟨ha, -, -, -, hc⟩ := charBytes_four_iff.mp hbytes
      exact ⟨ha, hc⟩
  · rw [if_pos hb]
    exact judges_error 1 htake fun hbytes => hb (charBytes_four_iff.mp hbytes).2.1

/-- **A round tells whether a character is in front of it.** -/
theorem judges_validChar (c : BitVec 8) (p : Bytes) :
    Judges c p (validChar p.length (c :: p)) := by
  have hlt := c.isLt
  by_cases h₁ : c.toNat < 0x80
  · have hchar : charLength c = 1 := if_pos h₁
    rw [validChar, if_pos (by rwa [high_eq_zero_iff])]
    exact hchar ▸ judges_ok (by rw [hchar]; rfl) (charBytes_one_iff.mpr h₁)
  have htake : (c :: p).take (charLength c) = c :: p.take (charLength c - 1) := by
    rw [← List.take_succ_cons, Nat.sub_add_cancel (charLength_pos c)]
  by_cases h₂ : c.toNat < 0xc0
  · rw [validChar, if_neg (by rwa [high_eq_zero_iff]), if_pos h₂]
    exact judges_error 0 htake (not_charBytes_of_first (.inl ⟨by omega, by omega⟩))
  by_cases h₃ : c.toNat < 0xe0
  · exact judges_two ⟨by omega, by omega⟩
  by_cases h₄ : c.toNat < 0xf0
  · exact judges_three ⟨by omega, by omega⟩
  by_cases h₅ : c.toNat < 0xf8
  · exact judges_four ⟨by omega, by omega⟩
  · have hmore : Within 0xf8 0xff c := ⟨by omega, by omega⟩
    rw [validChar, if_neg (by rwa [high_eq_zero_iff]), if_neg h₂]
    dsimp only
    rw [if_pos (.inr (table_more c hmore))]
    exact judges_error 0 htake (not_charBytes_of_first (.inr ⟨by omega, by omega⟩))

/-! ### Characters -/

theorem exists_codePoint {n : Nat} (h : n.isValidChar) : ∃ c : Char, c.toNat = n :=
  ⟨Char.ofNatAux n h, rfl⟩

theorem ofNat_eq {n : Nat} {a : BitVec 8} (h : n = a.toNat) : BitVec.ofNat 8 n = a := by
  rw [h, BitVec.ofNat_toNat, BitVec.setWidth_eq]

/-- **The bytes of a character are one of the grammar.** -/
theorem charBytes_encodeChar (c : Char) : CharBytes (encodeChar c) := by
  have hlt := codePoint_lt c
  have hscalar := codePoint_scalar c
  rw [encodeChar_eq]
  split_ifs with h₁ h₂ h₃
  · rw [charBytes_one_iff, BitVec.toNat_ofNat]
    omega
  · simp only [charBytes_two_iff, Tail, Within, BitVec.toNat_ofNat]
    omega
  · simp only [charBytes_three_iff, Tail, Within, ← BitVec.toNat_inj, BitVec.toNat_ofNat,
      BitVec.ofNat_eq_ofNat]
    omega
  · simp only [charBytes_four_iff, Tail, Within, ← BitVec.toNat_inj, BitVec.toNat_ofNat,
      BitVec.ofNat_eq_ofNat]
    omega

theorem exists_encodeChar_one {a : BitVec 8} (h : CharBytes [a]) :
    ∃ c, encodeChar c = [a] := by
  have ha := charBytes_one_iff.mp h
  obtain ⟨c, hc⟩ := @exists_codePoint a.toNat (.inl (by omega))
  refine ⟨c, ?_⟩
  rw [encodeChar_eq, hc, if_pos ha, ofNat_eq rfl]

theorem exists_encodeChar_two {a b : BitVec 8} (h : CharBytes [a, b]) :
    ∃ c, encodeChar c = [a, b] := by
  obtain ⟨⟨ha₁, ha₂⟩, hb₁, hb₂⟩ := charBytes_two_iff.mp h
  obtain ⟨c, hc⟩ := @exists_codePoint ((a.toNat - 0xc0) * 64 + (b.toNat - 0x80)) (.inl (by omega))
  refine ⟨c, ?_⟩
  rw [encodeChar_eq, hc, if_neg (by omega), if_pos (by omega), ofNat_eq (a := a) (by omega),
    ofNat_eq (a := b) (by omega)]

theorem exists_encodeChar_three {a b d : BitVec 8} (h : CharBytes [a, b, d]) :
    ∃ c, encodeChar c = [a, b, d] := by
  simp only [charBytes_three_iff, Tail, Within, ← BitVec.toNat_inj, BitVec.toNat_ofNat,
    BitVec.ofNat_eq_ofNat] at h
  obtain ⟨c, hc⟩ := @exists_codePoint ((a.toNat - 0xe0) * 4096 + (b.toNat - 0x80) * 64 +
    (d.toNat - 0x80)) (by unfold Nat.isValidChar; omega)
  refine ⟨c, ?_⟩
  rw [encodeChar_eq, hc, if_neg (by omega), if_neg (by omega), if_pos (by omega),
    ofNat_eq (a := a) (by omega), ofNat_eq (a := b) (by omega), ofNat_eq (a := d) (by omega)]

theorem exists_encodeChar_four {a b d e : BitVec 8} (h : CharBytes [a, b, d, e]) :
    ∃ c, encodeChar c = [a, b, d, e] := by
  simp only [charBytes_four_iff, Tail, Within, ← BitVec.toNat_inj, BitVec.toNat_ofNat,
    BitVec.ofNat_eq_ofNat] at h
  obtain ⟨c, hc⟩ := @exists_codePoint ((a.toNat - 0xf0) * 262144 + (b.toNat - 0x80) * 4096 +
    (d.toNat - 0x80) * 64 + (e.toNat - 0x80)) (by unfold Nat.isValidChar; omega)
  refine ⟨c, ?_⟩
  rw [encodeChar_eq, hc, if_neg (by omega), if_neg (by omega), if_neg (by omega),
    ofNat_eq (a := a) (by omega), ofNat_eq (a := b) (by omega), ofNat_eq (a := d) (by omega),
    ofNat_eq (a := e) (by omega)]

/-- Every character of the grammar is one. -/
theorem exists_encodeChar_eq {bytes : Bytes} (h : CharBytes bytes) :
    ∃ c, encodeChar c = bytes := by
  have hall := h
  cases h with
  | one => exact exists_encodeChar_one hall
  | two => exact exists_encodeChar_two hall
  | threeE0 | threeE1 | threeED | threeEE => exact exists_encodeChar_three hall
  | fourF0 | fourF1 | fourF4 => exact exists_encodeChar_four hall

/-- **Well-formed text is the text of characters.** -/
theorem wellFormed_iff {bytes : Bytes} :
    WellFormed bytes ↔ ∃ cs : List Char, bytes = encodeText cs := by
  constructor
  · intro h
    induction h with
    | nil => exact ⟨[], rfl⟩
    | append hchar _ ih =>
      obtain ⟨cs, rfl⟩ := ih
      obtain ⟨c, rfl⟩ := exists_encodeChar_eq hchar
      exact ⟨c :: cs, (encodeText_cons c cs).symm⟩
  · rintro ⟨cs, rfl⟩
    induction cs with
    | nil => exact .nil
    | cons c cs ih =>
      rw [encodeText_cons]
      exact .append (charBytes_encodeChar c) ih

/-! ### The law -/

/-- The arguments of `_valid_utf8`: bytes with their length, or a C string without one. -/
inductive Utf8Input where
  | bytes (string : Bytes) (fits : string.length < 2 ^ 31)
  | text (str : StrValue)

namespace Utf8Input

def string : Utf8Input → Bytes
  | .bytes string _ => string
  | .text str => str.text

def length : Utf8Input → Int
  | .bytes string _ => string.length
  | .text _ => -1

/-- `_valid_utf8` does not read outside its bytes, and returns -1 if and only if they are
well formed. -/
def Law (self : Utf8Input) : Prop :=
  ∃ result, validUtf8 self.string self.length = some result ∧
    (result = -1 ↔ WellFormed self.string)

end Utf8Input

/-- **The walk over all the bytes accepts what is well formed**, and reads nothing else. -/
theorem validUtf8Loop_spec (p : Bytes) (offset : Nat) :
    ∃ result, validUtf8Loop p p.length offset = some result ∧ -1 ≤ result ∧
      (result = -1 ↔ WellFormed p) := by
  induction hn : p.length using Nat.strong_induction_on generalizing p offset with
  | _ n ih =>
    subst hn
    cases p with
    | nil =>
      refine ⟨-1, ?_, Int.le_refl _, iff_of_true rfl .nil⟩
      rw [validUtf8Loop.eq_def]
      exact if_neg (Int.lt_irrefl _)
    | cons c p =>
      have hlength : (((c :: p).length : Nat) : Int) - 1 = p.length := by
        rw [List.length_cons]
        omega
      have hpos := charLength_pos c
      rw [validUtf8Loop.eq_def, if_pos (by rw [List.length_cons]; omega)]
      rcases judges_validChar c p with ⟨hchar, hround⟩ | ⟨hchar, n, hround⟩
      · have hle : charLength c ≤ (c :: p).length := by
          by_contra hlt
          rw [List.take_of_length_le (by omega)] at hchar
          exact not_charBytes_of_length (by omega) hchar
        obtain ⟨result, hrest, hle', hiff⟩ := ih ((c :: p).drop (charLength c)).length
          (by rw [List.length_drop]; omega) _ (offset + charLength c) rfl
        refine ⟨result, ?_, hle', ?_⟩
        · split
          · rename_i h
            rw [hlength, hround] at h
            cases h
          · rename_i h
            rw [hlength, hround] at h
            cases h
          · rename_i h
            rw [hlength, hround] at h
            cases h
            rw [← hrest, List.length_drop]
            congr 1
            omega
        · rw [hiff, ← wellFormed_append_iff hchar, List.take_append_drop]
      · refine ⟨(offset + n : Nat), ?_, by omega,
          iff_of_false (by omega) fun h => hchar h.charBytes_take⟩
        split
        · rename_i h
          rw [hlength, hround] at h
          cases h
        · rename_i h
          rw [hlength, hround] at h
          cases h
          rfl
        · rename_i h
          rw [hlength, hround] at h
          cases h

theorem law_of_length {input : Utf8Input} (h : (if input.length < 0 then
    s32 input.string.length else input.length) = input.string.length) : input.Law := by
  unfold Utf8Input.Law validUtf8
  rw [h]
  obtain ⟨result, hresult, -, hiff⟩ := validUtf8Loop_spec input.string 0
  exact ⟨result, hresult, hiff⟩

/-- **The validation is right if and only if** the length is given or an `int`, or the text is
well formed. -/
theorem validUtf8_iff (input : Utf8Input) : input.Law ↔
    (0 ≤ input.length ∨ input.string.length < 2 ^ 31 ∨ WellFormed input.string) := by
  cases input with
  | bytes string fits =>
    have hgiven : (0 : Int) ≤ (Utf8Input.bytes string fits).length := Int.natCast_nonneg _
    exact iff_of_true (law_of_length (if_neg (by omega))) (.inl hgiven)
  | text str =>
    have hfits := str.fits
    have hcounted : (Utf8Input.text str).length = -1 := rfl
    have hstring : (Utf8Input.text str).string = str.text := rfl
    rw [hcounted, hstring, or_iff_right (by decide)]
    by_cases hsize : str.text.length < 2 ^ 31
    · refine iff_of_true (law_of_length ?_) (.inl hsize)
      rw [hcounted, hstring, if_pos (by decide)]
      exact s32_of_fits ⟨by omega, by omega⟩
    · have hstop : validUtf8 str.text (-1) = some (-1) := by
        rw [validUtf8, if_pos (by decide), s32_of_over (by omega) (by omega),
          validUtf8Loop.eq_def, if_neg (by omega)]
      rw [or_iff_right hsize]
      constructor
      · rintro ⟨result, hresult, hiff⟩
        exact hiff.mp (Option.some.inj (hresult.symm.trans hstop))
      · exact fun h => ⟨-1, hstop, iff_of_true rfl h⟩

/-- A text of so many tails, without a character. -/
def tails (n : Nat) (h : n + 1 < 2 ^ 32) : StrValue where
  text := List.replicate n 0x80
  noNul hmem := absurd (List.eq_of_mem_replicate hmem) (by decide)
  fits := by rwa [List.length_replicate]

theorem not_law_tails {n : Nat} (h : n + 1 < 2 ^ 32) (hn : 2 ^ 31 ≤ n) :
    ¬(Utf8Input.text (tails n h)).Law := by
  obtain ⟨n, rfl⟩ : ∃ m, n = m + 1 := ⟨n - 1, by omega⟩
  rw [validUtf8_iff]
  rintro (hgiven | hint | hformed)
  · exact absurd hgiven (by decide : ¬(0 : Int) ≤ -1)
  · change (List.replicate (n + 1) 0x80#8).length < 2 ^ 31 at hint
    rw [List.length_replicate] at hint
    omega
  · change WellFormed (0x80#8 :: List.replicate n 0x80#8) at hformed
    have hchar := hformed.charBytes_take
    exact not_charBytes_of_first (.inl (by decide)) hchar

/-- **A text whose size is no `int` is not looked at**, and accepted. -/
theorem not_validUtf8 : ¬ ∀ input : Utf8Input, input.Law := fun h =>
  not_law_tails (by decide : 2 ^ 31 + 1 < 2 ^ 32) (Nat.le_refl _) (h _)

end PikaScript
