import Mathlib.Data.List.Infix
import Mathlib.Tactic.Common

/-! The encoding forms of Unicode.

UTF-8 is given by its grammar in RFC 3629: a well-formed text is a list of characters, each one
of nine kinds of byte sequences. -/
namespace Utf8

/-- A byte of a range. -/
def Within (lo hi : Nat) (b : BitVec 8) : Prop := lo ≤ b.toNat ∧ b.toNat ≤ hi

/-- `UTF8-tail`. -/
def Tail (b : BitVec 8) : Prop := Within 0x80 0xbf b

instance (lo hi : Nat) : DecidablePred (Within lo hi) := fun b =>
  inferInstanceAs (Decidable (lo ≤ b.toNat ∧ b.toNat ≤ hi))

instance : DecidablePred Tail := fun b => inferInstanceAs (Decidable (Within 0x80 0xbf b))

theorem Within.mono {lo hi lo' hi' : Nat} {b : BitVec 8} (h : Within lo hi b) (hlo : lo' ≤ lo)
    (hhi : hi ≤ hi') : Within lo' hi' b :=
  ⟨Nat.le_trans hlo h.1, Nat.le_trans h.2 hhi⟩

theorem Within.ne {lo hi : Nat} {b b' : BitVec 8} (h : Within lo hi b) (h' : ¬Within lo hi b') :
    b ≠ b' := by
  rintro rfl
  exact h' h

/-- `UTF8-char`: the bytes of a character, by the first of them. -/
inductive CharBytes : List (BitVec 8) → Prop
  | one {a} : Within 0x00 0x7f a → CharBytes [a]
  | two {a b} : Within 0xc2 0xdf a → Tail b → CharBytes [a, b]
  | threeE0 {a b c} : a = 0xe0 → Within 0xa0 0xbf b → Tail c → CharBytes [a, b, c]
  | threeE1 {a b c} : Within 0xe1 0xec a → Tail b → Tail c → CharBytes [a, b, c]
  | threeED {a b c} : a = 0xed → Within 0x80 0x9f b → Tail c → CharBytes [a, b, c]
  | threeEE {a b c} : Within 0xee 0xef a → Tail b → Tail c → CharBytes [a, b, c]
  | fourF0 {a b c d} : a = 0xf0 → Within 0x90 0xbf b → Tail c → Tail d → CharBytes [a, b, c, d]
  | fourF1 {a b c d} : Within 0xf1 0xf3 a → Tail b → Tail c → Tail d → CharBytes [a, b, c, d]
  | fourF4 {a b c d} : a = 0xf4 → Within 0x80 0x8f b → Tail c → Tail d → CharBytes [a, b, c, d]

/-- `UTF8-octets`: one character behind the other. -/
inductive WellFormed : List (BitVec 8) → Prop
  | nil : WellFormed []
  | append {char rest} : CharBytes char → WellFormed rest → WellFormed (char ++ rest)

/-- How many bytes a character has that starts with this one. -/
def charLength (a : BitVec 8) : Nat :=
  if a.toNat < 0x80 then 1 else if a.toNat < 0xe0 then 2 else if a.toNat < 0xf0 then 3 else 4

theorem charLength_pos (a : BitVec 8) : 0 < charLength a := by
  unfold charLength
  split_ifs <;> decide

variable {char char' rest rest' bytes : List (BitVec 8)}

/-- The first byte of a character tells its length. -/
theorem CharBytes.exists_first (h : CharBytes char) :
    ∃ a tail, char = a :: tail ∧ char.length = charLength a := by
  cases h with
  | one ha | two ha | threeE1 ha | threeEE ha | fourF1 ha =>
    refine ⟨_, _, rfl, ?_⟩
    obtain ⟨h₁, h₂⟩ := ha
    simp only [List.length_cons, List.length_nil, charLength]
    split_ifs <;> omega
  | threeE0 ha | threeED ha | fourF0 ha | fourF4 ha =>
    subst ha
    exact ⟨_, _, rfl, rfl⟩

/-- Bytes of another length than the first one tells are no character. -/
theorem not_charBytes_of_length {a : BitVec 8} {tail : List (BitVec 8)}
    (h : (a :: tail).length ≠ charLength a) : ¬CharBytes (a :: tail) := by
  intro hchar
  obtain ⟨a', tail', heq, hlength⟩ := hchar.exists_first
  obtain rfl : a = a' := (List.cons.inj heq).1
  exact h hlength

/-- A character starts neither with a tail nor with a byte from `F5` on. -/
theorem not_charBytes_of_first {a : BitVec 8} {tail : List (BitVec 8)}
    (h : Within 0x80 0xbf a ∨ Within 0xf5 0xff a) : ¬CharBytes (a :: tail) := by
  unfold Within at h
  intro hchar
  cases hchar with
  | one ha | two ha | threeE1 ha | threeEE ha | fourF1 ha =>
    obtain ⟨h₁, h₂⟩ := ha
    omega
  | threeE0 ha | threeED ha | fourF0 ha | fourF4 ha =>
    subst ha
    exact absurd h (by decide)

/-! ### The characters of one length -/

section
variable {a b c d : BitVec 8}

theorem charBytes_one_iff : CharBytes [a] ↔ a.toNat < 0x80 := by
  constructor
  · intro h
    cases h with
    | one ha => exact Nat.lt_succ_of_le ha.2
  · exact fun h => .one ⟨Nat.zero_le _, Nat.le_of_lt_succ h⟩

theorem charBytes_two_iff : CharBytes [a, b] ↔ Within 0xc2 0xdf a ∧ Tail b := by
  constructor
  · intro h
    cases h with
    | two ha hb => exact ⟨ha, hb⟩
  · exact fun h => .two h.1 h.2

/-- No overlong character, and no surrogate. -/
theorem charBytes_three_iff : CharBytes [a, b, c] ↔ Within 0xe0 0xef a ∧ Tail b ∧ Tail c ∧
    (a = 0xe0 → 0xa0 ≤ b.toNat) ∧ (a = 0xed → b.toNat < 0xa0) := by
  constructor
  · intro h
    cases h with
    | threeE0 ha hb hc =>
      subst ha
      exact ⟨by decide, hb.mono (by decide) (by decide), hc, fun _ => hb.1,
        fun h => absurd h (by decide)⟩
    | threeED ha hb hc =>
      subst ha
      exact ⟨by decide, hb.mono (by decide) (by decide), hc, fun h => absurd h (by decide),
        fun _ => Nat.lt_succ_of_le hb.2⟩
    | threeE1 ha hb hc | threeEE ha hb hc =>
      exact ⟨ha.mono (by decide) (by decide), hb, hc, fun h => absurd h (ha.ne (by decide)),
        fun h => absurd h (ha.ne (by decide))⟩
  · rintro ⟨⟨h₁, h₂⟩, hb, hc, hE0, hED⟩
    by_cases h₃ : a = 0xe0
    · exact .threeE0 h₃ ⟨hE0 h₃, hb.2⟩ hc
    by_cases h₄ : a = 0xed
    · exact .threeED h₄ ⟨hb.1, Nat.le_of_lt_succ (hED h₄)⟩ hc
    rw [← BitVec.toNat_inj] at h₃ h₄
    change a.toNat ≠ 0xe0 at h₃
    change a.toNat ≠ 0xed at h₄
    by_cases h₅ : a.toNat ≤ 0xec
    · exact .threeE1 ⟨by omega, h₅⟩ hb hc
    · exact .threeEE ⟨by omega, h₂⟩ hb hc

/-- No overlong character, and nothing behind the last code point. -/
theorem charBytes_four_iff : CharBytes [a, b, c, d] ↔ Within 0xf0 0xf4 a ∧ Tail b ∧ Tail c ∧
    Tail d ∧ (a = 0xf0 → 0x90 ≤ b.toNat) ∧ (a = 0xf4 → b.toNat < 0x90) := by
  constructor
  · intro h
    cases h with
    | fourF0 ha hb hc hd =>
      subst ha
      exact ⟨by decide, hb.mono (by decide) (by decide), hc, hd, fun _ => hb.1,
        fun h => absurd h (by decide)⟩
    | fourF4 ha hb hc hd =>
      subst ha
      exact ⟨by decide, hb.mono (by decide) (by decide), hc, hd,
        fun h => absurd h (by decide), fun _ => Nat.lt_succ_of_le hb.2⟩
    | fourF1 ha hb hc hd =>
      exact ⟨ha.mono (by decide) (by decide), hb, hc, hd, fun h => absurd h (ha.ne (by decide)),
        fun h => absurd h (ha.ne (by decide))⟩
  · rintro ⟨⟨h₁, h₂⟩, hb, hc, hd, hF0, hF4⟩
    by_cases h₃ : a = 0xf0
    · exact .fourF0 h₃ ⟨hF0 h₃, hb.2⟩ hc hd
    by_cases h₄ : a = 0xf4
    · exact .fourF4 h₄ ⟨hb.1, Nat.le_of_lt_succ (hF4 h₄)⟩ hc hd
    rw [← BitVec.toNat_inj] at h₃ h₄
    change a.toNat ≠ 0xf0 at h₃
    change a.toNat ≠ 0xf4 at h₄
    exact .fourF1 ⟨by omega, by omega⟩ hb hc hd

end

/-! ### Texts -/

theorem CharBytes.ne_nil (h : CharBytes char) : char ≠ [] := by
  obtain ⟨a, tail, rfl, -⟩ := h.exists_first
  exact List.cons_ne_nil _ _

/-- No character is the beginning of another one. -/
theorem CharBytes.eq_of_append_eq (h : CharBytes char) (h' : CharBytes char')
    (heq : char ++ rest = char' ++ rest') : char = char' ∧ rest = rest' := by
  obtain ⟨a, tail, rfl, hlength⟩ := h.exists_first
  obtain ⟨a', tail', rfl, hlength'⟩ := h'.exists_first
  obtain rfl : a = a' := (List.cons.inj heq).1
  exact List.append_inj heq (hlength.trans hlength'.symm)

/-- **Text is well formed behind a character if and only if it is with it.** -/
theorem wellFormed_append_iff (h : CharBytes char) :
    WellFormed (char ++ rest) ↔ WellFormed rest := by
  refine ⟨fun hall => ?_, .append h⟩
  generalize hbytes : char ++ rest = bytes at hall
  cases hall with
  | nil => exact absurd (List.append_eq_nil_iff.mp hbytes).1 h.ne_nil
  | append hchar hrest =>
    obtain ⟨-, rfl⟩ := h.eq_of_append_eq hchar hbytes
    exact hrest

/-- Well-formed text starts with a character. -/
theorem WellFormed.charBytes_take {a : BitVec 8} (h : WellFormed (a :: bytes)) :
    CharBytes ((a :: bytes).take (charLength a)) := by
  generalize hall : a :: bytes = all at h
  cases h with
  | nil => cases hall
  | append hchar _ =>
    obtain ⟨a', tail, rfl, hlength⟩ := hchar.exists_first
    obtain rfl : a = a' := (List.cons.inj hall).1
    rwa [← hlength, List.take_left]

end Utf8
