import PikaScript.Data.Decimal

/-! Integer literals, as the `NUM` instruction reads them.

Hexadecimal text goes to `strtoll` as it is; the digits of an octal or a binary literal
are copied to a buffer of ten characters first. Decimal text is summed up through a table
of ten rows, after a check that it has digits only. -/
namespace PikaScript

/-! ### The code -/

/-- The value of a digit in any radix up to 36. -/
def digitValue (c : BitVec 8) : Option Nat :=
  if 0x30 ≤ c.toNat ∧ c.toNat ≤ 0x39 then some (c.toNat - 0x30)
  else if 0x61 ≤ c.toNat ∧ c.toNat ≤ 0x7a then some (c.toNat - 0x61 + 10)
  else if 0x41 ≤ c.toNat ∧ c.toNat ≤ 0x5a then some (c.toNat - 0x41 + 10)
  else none

/-- The character is a digit of the radix. -/
def isDigit (radix : Nat) (c : BitVec 8) : Bool := (digitValue c).any (· < radix)

/-- The number that digits write, the highest one first. -/
def textValue (radix : Nat) (digits : CString) : Nat :=
  digits.foldl (fun v c => v * radix + (digitValue c).getD 0) 0

/-- `strtoll`, of a text without blanks and signs. -/
def strtoll (str : CString) (base : Nat) : Int :=
  let radix :=
    if base ≠ 0 then base
    else if str.take 2 = [0x30, 0x78] ∨ str.take 2 = [0x30, 0x58] then 16
    else if str.head? = some 0x30 then 8
    else 10
  let digits :=
    if base ≠ 0 then str
    else if str.take 2 = [0x30, 0x78] ∨ str.take 2 = [0x30, 0x58] then str.drop 2
    else if str.head? = some 0x30 then str.drop 1
    else str
  min (textValue radix (digits.takeWhile (isDigit radix))) (2 ^ 63 - 1)

/-- `fast_atoi_safe`: the number, or none within for `PIKA_RES_ERR_INVALID_PARAM`. None when
`fast_atoi` leaves its text or its table. -/
def fastAtoiSafe (src : CString) : Option (Option Int) :=
  if src.all fun c => 0x30 ≤ c.toNat ∧ c.toNat ≤ 0x39 then (fastAtoi src).map some
  else some none

/-- What `NUM` leaves: an integer, a float of the text, an error, or nothing C defines. -/
inductive NumResult where
  | int (value : Int)
  | float (text : CString)
  | error (message : CString)
  | undefined
deriving DecidableEq

/-- The text that starts the message of an invalid literal. -/
def invalidLiteral : CString :=
  "ValueError: invalid literal for int(): '".toList.map fun c => .ofNat 8 c.toNat

/-- A literal copied into `strtoll_buff`, whose ten characters have to end in a NUL. -/
def strtollBuff (text : CString) (base : Nat) : NumResult :=
  if text.length < 10 then .int (strtoll text base) else .undefined

/-- `VM_instruction_handler_NUM`. -/
def vmNum (data : CString) : NumResult :=
  match data with
  | [] => .undefined
  | [c] => .int (c.toNat - 0x30)
  | _ :: c :: rest =>
    if c = 0x78 ∨ c = 0x58 then .int (strtoll data 0)
    else if c = 0x6f ∨ c = 0x4f then strtollBuff (0x30 :: rest) 0
    else if c = 0x62 ∨ c = 0x42 then strtollBuff rest 2
    else if data.contains 0x2e || data.contains 0x65 || data.contains 0x45 then .float data
    else
      match fastAtoiSafe data with
      | some (some i64) => .int i64
      | some none => .error (invalidLiteral ++ data ++ [0x27])
      | none => .undefined

/-! ### Literals -/

inductive LiteralBase where
  | decimal
  | hex
  | octal
  | binary
deriving DecidableEq

def LiteralBase.radix : LiteralBase → Nat
  | .decimal => 10
  | .hex => 16
  | .octal => 8
  | .binary => 2

/-- An integer literal: a base, its letter in upper or in lower case, and digits of it. -/
structure IntLiteral where
  base : LiteralBase
  upper : Bool
  digits : CString
  nonempty : digits ≠ []
  valid : digits.all (isDigit base.radix)

namespace IntLiteral
variable (literal : IntLiteral)

/-- What stands in front of the digits. -/
def lead : CString :=
  match literal.base with
  | .decimal => []
  | .hex => [0x30, if literal.upper then 0x58 else 0x78]
  | .octal => [0x30, if literal.upper then 0x4f else 0x6f]
  | .binary => [0x30, if literal.upper then 0x42 else 0x62]

def text : CString := literal.lead ++ literal.digits

def value : Nat := textValue literal.base.radix literal.digits

end IntLiteral

/-- A literal that fits is read, and one of any length is read within its buffer and table. -/
structure NumLaw (literal : IntLiteral) : Prop where
  value : literal.value < 2 ^ 63 → vmNum literal.text = .int literal.value
  inside : vmNum literal.text ≠ .undefined

/-- `fast_atoi_safe` rejects what is no number of an `int64_t`, and reads within its table. -/
structure AtoiLaw (src : CString) : Prop where
  rejects : src = [] ∨ src.any (fun c => !isDigit 10 c) ∨ 2 ^ 63 ≤ textValue 10 src →
    fastAtoiSafe src = some none
  inside : fastAtoiSafe src ≠ none

/-- The literals that are read: of at most eight octal, nine binary and ten decimal digits,
and of any hexadecimal ones. From 2 ^ 16 digits on a decimal literal counts as one of so many
fewer. -/
def NumWhen (literal : IntLiteral) : Prop :=
  match literal.base with
  | .hex => True
  | .octal => literal.digits.length ≤ 8
  | .binary => literal.digits.length ≤ 9
  | .decimal =>
    1 ≤ u16 literal.digits.length ∧ u16 literal.digits.length ≤ 10 ∧
      (literal.digits.length ≤ 10 ∨ literal.value = 0 ∨ 2 ^ 63 ≤ literal.value)

/-- The texts `fast_atoi_safe` treats right: those with another character, and digits that
write a number that fits, at most ten as a `uint16_t` counts them. -/
def AtoiWhen (src : CString) : Prop :=
  src.any (fun c => !isDigit 10 c) ∨
    1 ≤ u16 src.length ∧ u16 src.length ≤ 10 ∧ textValue 10 src < 2 ^ 63

/-! ### Numbers and their digits -/

theorem textValue_concat (radix : Nat) (digits : CString) (c : BitVec 8) :
    textValue radix (digits ++ [c]) = textValue radix digits * radix + (digitValue c).getD 0 := by
  simp [textValue]

theorem textValue_append (radix : Nat) (front back : CString) :
    textValue radix (front ++ back) =
      textValue radix front * radix ^ back.length + textValue radix back := by
  induction back using List.reverseRecOn with
  | nil => simp [textValue]
  | append_singleton back c ih =>
    rw [← List.append_assoc, textValue_concat, ih, textValue_concat, List.length_append,
      List.length_singleton, pow_succ]
    ring

theorem textValue_eq_ofDigits (radix : Nat) (digits : CString) :
    textValue radix digits =
      Nat.ofDigits radix (digits.reverse.map fun c => (digitValue c).getD 0) := by
  induction digits using List.reverseRecOn with
  | nil => rfl
  | append_singleton digits c ih =>
    rw [textValue_concat, ih, List.reverse_append, List.reverse_singleton, List.singleton_append,
      List.map_cons, Nat.ofDigits_cons]
    ring

theorem isDigit_ten (c : BitVec 8) :
    isDigit 10 c = decide (0x30 ≤ c.toNat ∧ c.toNat ≤ 0x39) := by
  unfold isDigit digitValue
  split_ifs <;> simp_all
  omega

/-- A decimal digit is the character of its value. -/
theorem digitChar_of_isDigit {c : BitVec 8} (h : isDigit 10 c = true) :
    ∃ d, digitValue c = some d ∧ d < 10 ∧ digitChar d = c := by
  rw [isDigit_ten, decide_eq_true_eq] at h
  refine ⟨c.toNat - 0x30, if_pos h, by omega, ?_⟩
  apply BitVec.eq_of_toNat_eq
  rw [digitChar, BitVec.toNat_ofNat]
  omega

theorem map_digitChar {digits : CString} (h : digits.all (isDigit 10)) :
    (digits.map fun c => (digitValue c).getD 0).map digitChar = digits := by
  rw [List.map_map]
  refine (List.map_congr_left fun c hc => ?_).trans (List.map_id digits)
  obtain ⟨d, hd, -, hchar⟩ := digitChar_of_isDigit (List.all_eq_true.mp h c hc)
  simp [hd, hchar]

theorem digit_ne_minus {c : BitVec 8} (h : isDigit 10 c = true) : c ≠ 0x2d := by
  intro hc
  rw [hc] at h
  exact absurd h (by decide)

/-- More than ten digits leave the table. -/
theorem fastAtoi_eq_none {src : CString} (h : src.all (isDigit 10)) (hlong : 10 < src.length)
    (hword : u16 src.length = src.length) : fastAtoi src = none := by
  obtain _ | ⟨first, rest⟩ := src
  · cases hlong
  · have hfirst : first ≠ 0x2d := digit_ne_minus (List.all_eq_true.mp h first (by simp))
    have hten : 10 ≤ rest.length := Nat.le_of_lt_succ hlong
    have htable : atoiTable rest.length first = none := by
      rw [atoiTable, if_neg (by omega)]
    rw [fastAtoi, hword, List.take_length]
    simp only [hfirst, if_false, htable]
    cases atoiSum rest.reverse 0 <;> rfl

/-- **Up to ten digits are summed up**, of those a `uint16_t` counts. -/
theorem fastAtoi_of_digits {src : CString} (h : src.all (isDigit 10)) :
    fastAtoi src = if 1 ≤ u16 src.length ∧ u16 src.length ≤ 10
      then some (textValue 10 (src.take (u16 src.length)) : Int) else none := by
  have hle : u16 src.length ≤ src.length := Nat.mod_le _ _
  have htake : (src.take (u16 src.length)).length = u16 src.length := by
    rw [List.length_take]
    omega
  have hall : (src.take (u16 src.length)).all (isDigit 10) :=
    List.all_eq_true.mpr fun c hc => List.all_eq_true.mp h c (List.mem_of_mem_take hc)
  have hword : u16 (src.take (u16 src.length)).length = (src.take (u16 src.length)).length := by
    rw [htake]
    exact u16_of_lt (u16_lt _)
  have hsame : fastAtoi src = fastAtoi (src.take (u16 src.length)) := by
    rw [fastAtoi, fastAtoi, hword, List.take_length]
  rw [hsame]
  revert htake hall hword
  generalize src.take (u16 src.length) = t
  intro htake hall hword
  rw [← htake]
  by_cases hempty : t = []
  · simp [hempty, fastAtoi]
  · have hpos : 0 < t.length := List.length_pos_iff.mpr hempty
    by_cases hlong : t.length ≤ 10
    · rw [if_pos ⟨hpos, hlong⟩, textValue_eq_ofDigits, List.map_reverse]
      have hdigits : ∀ d ∈ (t.map fun c => (digitValue c).getD 0).reverse, d < 10 := by
        intro d hd
        obtain ⟨c, hc, rfl⟩ := List.mem_map.mp (List.mem_reverse.mp hd)
        obtain ⟨d, hd, hlt, -⟩ := digitChar_of_isDigit (List.all_eq_true.mp hall c hc)
        simpa [hd] using hlt
      have hsum := fastAtoi_digits (by simpa using hempty) hdigits (by simpa using hlong)
      rw [List.map_reverse, List.reverse_reverse, map_digitChar hall] at hsum
      exact hsum
    · rw [if_neg (by omega)]
      exact fastAtoi_eq_none hall (by omega) hword

/-- The digits in front write the whole number only if they are all, or all are zeros. -/
theorem textValue_take_eq_iff {radix : Nat} (hradix : 2 ≤ radix) (digits : CString) {n : Nat}
    (hn : n < digits.length) :
    textValue radix (digits.take n) = textValue radix digits ↔ textValue radix digits = 0 := by
  have hsplit : textValue radix digits = textValue radix (digits.take n) *
      radix ^ (digits.drop n).length + textValue radix (digits.drop n) := by
    rw [← textValue_append, List.take_append_drop]
  have hpow : 2 ≤ radix ^ (digits.drop n).length := by
    rw [List.length_drop]
    exact hradix.trans (Nat.le_self_pow (by omega) radix)
  constructor
  · intro h
    rw [h] at hsplit
    by_contra hne
    have hmul : textValue radix digits * 2 ≤
        textValue radix digits * radix ^ (digits.drop n).length := Nat.mul_le_mul_left _ hpow
    omega
  · intro h
    have hmul : textValue radix (digits.take n) ≤
        textValue radix (digits.take n) * radix ^ (digits.drop n).length :=
      Nat.le_mul_of_pos_right _ (by omega)
    omega

/-! ### The check of the digits -/

theorem fastAtoiSafe_of_digits {src : CString} (h : src.all (isDigit 10)) :
    fastAtoiSafe src = (fastAtoi src).map some := by
  refine if_pos ?_
  simpa [isDigit_ten] using h

theorem fastAtoiSafe_of_other {src : CString} (h : src.all (isDigit 10) = false) :
    fastAtoiSafe src = some none := by
  refine if_neg ?_
  simpa [isDigit_ten] using h

/-- What is no number that fits is rejected when it has another character, and not as digits. -/
theorem atoi_iff (src : CString) : AtoiLaw src ↔ AtoiWhen src := by
  have hany : src.any (fun c => !isDigit 10 c) = !src.all (isDigit 10) := by
    rw [List.all_eq_not_any_not, Bool.not_not]
  by_cases hall : src.all (isDigit 10) = true
  · have hres := fastAtoiSafe_of_digits hall
    rw [fastAtoi_of_digits hall] at hres
    constructor
    · intro h
      have hcount : 1 ≤ u16 src.length ∧ u16 src.length ≤ 10 := by
        by_contra hcount
        rw [if_neg hcount] at hres
        exact h.inside hres
      refine Or.inr ⟨hcount.1, hcount.2, ?_⟩
      by_contra hlarge
      have hreject := h.rejects (Or.inr (Or.inr (by omega)))
      rw [if_pos hcount] at hres
      cases hreject.symm.trans hres
    · intro h
      rcases h with h | ⟨h₁, h₂, hvalue⟩
      · rw [hany, hall] at h
        cases h
      · rw [if_pos ⟨h₁, h₂⟩] at hres
        refine ⟨fun hcases => ?_, by simp [hres]⟩
        rcases hcases with hempty | hother | hlarge
        · rw [hempty] at h₁
          exact absurd h₁ (by decide)
        · rw [hany, hall] at hother
          cases hother
        · omega
  · rw [Bool.not_eq_true] at hall
    have hres := fastAtoiSafe_of_other hall
    exact ⟨fun _ => Or.inl (by simp [hany, hall]), fun _ => ⟨fun _ => hres, by simp [hres]⟩⟩

/-! ### The literals -/

theorem takeWhile_digits {radix : Nat} {digits : CString} (h : digits.all (isDigit radix)) :
    digits.takeWhile (isDigit radix) = digits := by
  induction digits with
  | nil => rfl
  | cons c digits ih =>
    rw [List.all_cons, Bool.and_eq_true] at h
    rw [List.takeWhile_cons_of_pos h.1, ih h.2]

theorem strtoll_hex {x : BitVec 8} (hx : x = 0x78#8 ∨ x = 0x58#8) {digits : CString}
    (h : digits.all (isDigit 16)) :
    strtoll (0x30 :: x :: digits) 0 = min (textValue 16 digits : Int) (2 ^ 63 - 1) := by
  simp [strtoll, hx, takeWhile_digits h]

theorem strtoll_octal {digits : CString} (h : digits.all (isDigit 8)) :
    strtoll (0x30 :: digits) 0 = min (textValue 8 digits : Int) (2 ^ 63 - 1) := by
  have hlead : ¬(digits.take 1 = [0x78#8] ∨ digits.take 1 = [0x58#8]) := by
    obtain _ | ⟨c, digits⟩ := digits
    · decide
    · rw [List.all_cons, Bool.and_eq_true] at h
      simp only [List.take_succ_cons, List.take_zero, List.cons.injEq, and_true]
      rintro (rfl | rfl) <;> exact absurd h.1 (by decide)
  simp [strtoll, hlead, takeWhile_digits h]

theorem strtoll_binary {digits : CString} (h : digits.all (isDigit 2)) :
    strtoll digits 2 = min (textValue 2 digits : Int) (2 ^ 63 - 1) := by
  simp [strtoll, takeWhile_digits h]

/-- What an integer read in one go leaves of the law. -/
theorem numLaw_of_strtoll {literal : IntLiteral}
    (h : vmNum literal.text = .int (min (literal.value : Int) (2 ^ 63 - 1))) : NumLaw literal := by
  refine ⟨fun hvalue => ?_, by simp [h]⟩
  rw [h]
  congr 1
  omega

theorem numLaw_strtollBuff_iff {literal : IntLiteral} {text : CString} {base : Nat}
    (hnum : vmNum literal.text = strtollBuff text base)
    (hvalue : strtoll text base = min (literal.value : Int) (2 ^ 63 - 1)) :
    NumLaw literal ↔ text.length < 10 := by
  constructor
  · intro h
    by_contra hlong
    exact h.inside (hnum.trans (if_neg hlong))
  · intro h
    apply numLaw_of_strtoll
    rw [hnum, strtollBuff, if_pos h, hvalue]

/-- Decimal digits are read by `fast_atoi`, and a single one at once. -/
theorem vmNum_decimal {digits : CString} (hne : digits ≠ []) (h : digits.all (isDigit 10)) :
    vmNum digits = ((fastAtoi digits).map .int).getD .undefined := by
  have hmem : ∀ x : BitVec 8, isDigit 10 x = false → x ∉ digits := by
    intro x hx hin
    rw [List.all_eq_true.mp h x hin] at hx
    cases hx
  obtain _ | ⟨first, _ | ⟨c, rest⟩⟩ := digits
  · exact absurd rfl hne
  · obtain ⟨d, hd, hlt, rfl⟩ := digitChar_of_isDigit (List.all_eq_true.mp h first (by simp))
    have hvalue : ((digitChar d).toNat : Int) - 0x30 = d := by
      rw [digitChar, BitVec.toNat_ofNat]
      omega
    have hcount : 1 ≤ u16 1 ∧ u16 1 ≤ 10 := by decide
    have hsum := (fastAtoi_of_digits h).trans (if_pos hcount)
    rw [hsum]
    show NumResult.int _ = NumResult.int _
    rw [hvalue]
    simp [textValue, hd, u16]
  · have hletter : ∀ x : BitVec 8, isDigit 10 x = false → c ≠ x := by
      intro x hx hc
      exact hmem x hx (by simp [hc])
    have hother : ∀ x : BitVec 8, isDigit 10 x = false →
        (first :: c :: rest).contains x = false := by
      intro x hx
      simpa using hmem x hx
    have hhex : ¬(c = 0x78 ∨ c = 0x58) :=
      not_or.mpr ⟨hletter 0x78 (by decide), hletter 0x58 (by decide)⟩
    have hoctal : ¬(c = 0x6f ∨ c = 0x4f) :=
      not_or.mpr ⟨hletter 0x6f (by decide), hletter 0x4f (by decide)⟩
    have hbinary : ¬(c = 0x62 ∨ c = 0x42) :=
      not_or.mpr ⟨hletter 0x62 (by decide), hletter 0x42 (by decide)⟩
    unfold vmNum
    simp only [hhex, hoctal, hbinary, if_false, hother 0x2e (by decide), hother 0x65 (by decide),
      hother 0x45 (by decide), Bool.or_self, Bool.false_eq_true, fastAtoiSafe_of_digits h]
    cases fastAtoi (first :: c :: rest) <;> rfl

theorem num_decimal_iff {literal : IntLiteral} (hbase : literal.base = .decimal) :
    NumLaw literal ↔ 1 ≤ u16 literal.digits.length ∧ u16 literal.digits.length ≤ 10 ∧
      (literal.digits.length ≤ 10 ∨ literal.value = 0 ∨ 2 ^ 63 ≤ literal.value) := by
  obtain ⟨base, upper, digits, hne, hdigits⟩ := literal
  cases hbase
  show NumLaw _ ↔ 1 ≤ u16 digits.length ∧ u16 digits.length ≤ 10 ∧
    (digits.length ≤ 10 ∨ textValue 10 digits = 0 ∨ 2 ^ 63 ≤ textValue 10 digits)
  have hnum := vmNum_decimal hne hdigits
  rw [fastAtoi_of_digits hdigits] at hnum
  by_cases hcount : 1 ≤ u16 digits.length ∧ u16 digits.length ≤ 10
  · rw [if_pos hcount] at hnum
    have hlaw : NumLaw ⟨.decimal, upper, digits, hne, hdigits⟩ ↔ (textValue 10 digits < 2 ^ 63 →
        textValue 10 (digits.take (u16 digits.length)) = textValue 10 digits) := by
      constructor
      · intro h hvalue
        have hint := hnum.symm.trans (h.value hvalue)
        exact Int.ofNat.inj (NumResult.int.inj hint)
      · intro h
        refine ⟨fun hvalue => hnum.trans ?_, fun hnone => ?_⟩
        · exact congrArg (fun n : Nat => NumResult.int n) (h hvalue)
        · cases hnum.symm.trans hnone
    rw [hlaw]
    constructor
    · intro h
      refine ⟨hcount.1, hcount.2, ?_⟩
      by_cases hshort : digits.length ≤ 10
      · exact Or.inl hshort
      · by_cases hvalue : textValue 10 digits < 2 ^ 63
        · have hlt : u16 digits.length < digits.length := by omega
          exact Or.inr (Or.inl ((textValue_take_eq_iff (by decide) digits hlt).mp (h hvalue)))
        · exact Or.inr (Or.inr (Nat.le_of_not_lt hvalue))
    · intro ⟨_, _, hcases⟩ hvalue
      by_cases hlt : u16 digits.length < digits.length
      · rw [textValue_take_eq_iff (by decide) digits hlt]
        rcases hcases with hshort | hzero | hlarge
        · rw [u16_of_lt (by omega)] at hlt
          exact absurd hlt (lt_irrefl _)
        · exact hzero
        · exact absurd hvalue (Nat.not_lt_of_le hlarge)
      · rw [List.take_of_length_le (Nat.le_of_not_lt hlt)]
  · rw [if_neg hcount] at hnum
    exact ⟨fun h => absurd hnum h.inside, fun h => absurd ⟨h.1, h.2.1⟩ hcount⟩

/-- Each literal is read exactly when its digits have room. -/
theorem numLaw_iff (literal : IntLiteral) : NumLaw literal ↔ NumWhen literal := by
  obtain ⟨base, upper, digits, hne, hdigits⟩ := literal
  cases base with
  | decimal => exact num_decimal_iff rfl
  | hex =>
    refine ⟨fun _ => trivial, fun _ => numLaw_of_strtoll ?_⟩
    cases upper
    · exact congrArg NumResult.int (strtoll_hex (Or.inl rfl) hdigits)
    · exact congrArg NumResult.int (strtoll_hex (Or.inr rfl) hdigits)
  | octal =>
    have hiff := @numLaw_strtollBuff_iff ⟨.octal, upper, digits, hne, hdigits⟩ (0x30 :: digits) 0
    refine (hiff ?_ (strtoll_octal hdigits)).trans ?_
    · cases upper <;> rfl
    · exact Nat.succ_lt_succ_iff.trans Nat.lt_succ_iff
  | binary =>
    have hiff := @numLaw_strtollBuff_iff ⟨.binary, upper, digits, hne, hdigits⟩ digits 2
    refine (hiff ?_ (strtoll_binary hdigits)).trans ?_
    · cases upper <;> rfl
    · exact Nat.lt_succ_iff

/-- **Integer literals are read exactly** when their digits have room, and a text is checked
exactly when it is not one of digits alone, or one of few that fits. -/
theorem literal_iff (literal : IntLiteral) (src : CString) :
    (NumLaw literal ↔ NumWhen literal) ∧ (AtoiLaw src ↔ AtoiWhen src) :=
  ⟨numLaw_iff literal, atoi_iff src⟩

/-- Eleven decimal digits leave the table, and no text at all is read in front of itself. -/
theorem not_literal :
    ¬NumLaw ⟨.decimal, false, 0x31 :: List.replicate 10 0x30, by decide, by decide⟩ ∧
      ¬AtoiLaw [] := by
  refine ⟨fun h => h.inside (by decide), fun h => h.inside (by decide)⟩

end PikaScript
