import Mathlib.Algebra.Order.Ring.Abs
import Mathlib.Algebra.Order.Ring.Int
import Mathlib.Tactic.Linarith
import Mathlib.Tactic.Ring
import PikaScript.VM.Operator

/-! Division and power of two integers in the `OPT` instruction.

`//` and `%` are the division of C, which rounds towards zero and is not defined by
zero. `**` squares its base in an `int` while it multiplies the result in an `int64_t`. -/
namespace PikaScript

/-! ### Division -/

/-- The operands of a division of `int64_t` that C defines. -/
def DivDefined (a b : Int) : Prop := b ≠ 0 ∧ ¬(a = -2 ^ 63 ∧ b = -1)

instance (a b : Int) : Decidable (DivDefined a b) :=
  inferInstanceAs (Decidable (b ≠ 0 ∧ ¬(a = -2 ^ 63 ∧ b = -1)))

/-- `case '%'`. -/
def optMod (op : OperatorInfo) : Outcome :=
  match op.a1, op.a2 with
  | some (.int _), .int _ =>
    if DivDefined op.i1 op.i2 then .value (.int (.ofInt (op.i1.tmod op.i2))) else .undefined
  | _, _ => .error "TypeError: unsupported operand type(s) for %: 'float'"

/-- The branch of `//`. -/
def optFloorDiv (op : OperatorInfo) : Outcome :=
  match op.a1, op.a2 with
  | some (.int _), .int _ =>
    if DivDefined op.i1 op.i2 then .value (.int (.ofInt (op.i1.tdiv op.i2))) else .undefined
  | _, _ => .error "Operation float \\\\ float is not enabled, please set PIKA_MATH_ENABLE"

/-- What `/` leaves for a zero divisor. -/
def zeroDivisionError : Outcome := .error "ZeroDivisionError: division by zero"

/-- What dividing `a` by `b` is to leave. -/
structure DivisionLaw (a b : Int64) (quotient remainder : Outcome) : Prop where
  zero : b.toInt = 0 → quotient = zeroDivisionError ∧ remainder = zeroDivisionError
  nonzero : b.toInt ≠ 0 → ∃ q r : Int64, quotient = .value (.int q) ∧
    remainder = .value (.int r) ∧ a.toInt = q.toInt * b.toInt + r.toInt ∧
    (r.toInt ≠ 0 → r.toInt.sign = b.toInt.sign) ∧ r.toInt.natAbs < b.toInt.natAbs

/-- The divisions that come out: not by zero, not the one that overflows, and without a
remainder or of operands of one sign. -/
def DivisionWhen (a b : Int64) : Prop :=
  b.toInt ≠ 0 ∧ ¬(a.toInt = -2 ^ 63 ∧ b.toInt = -1) ∧
    (b.toInt ∣ a.toInt ∨ a.toInt.sign = b.toInt.sign)

/-- The two branches, run on the operands. -/
def divisionOf (a b : Int64) : Outcome × Outcome :=
  let op := operatorInfoInit (some (.int a)) (.int b)
  (optFloorDiv op, optMod op)

theorem natAbs_tmod_lt (a : Int) {b : Int} (hb : b ≠ 0) : (a.tmod b).natAbs < b.natAbs := by
  rw [Int.natAbs_tmod]
  exact Nat.mod_lt _ (Int.natAbs_pos.mpr hb)

theorem fitsS64_tmod {a : Int} (b : Int) (ha : FitsS64 a) : FitsS64 (a.tmod b) := by
  have habs : (a.tmod b).natAbs = a.natAbs % b.natAbs := Int.natAbs_tmod a b
  have hle : a.natAbs % b.natAbs ≤ a.natAbs := Nat.mod_le _ _
  obtain ⟨h₁, h₂⟩ := ha
  refine ⟨by omega, ?_⟩
  rcases Int.le_total 0 a with h | h
  · omega
  · have hneg := Int.tmod_nonneg b (Int.neg_nonneg_of_nonpos h)
    rw [Int.neg_tmod] at hneg
    omega

theorem fitsS64_tdiv {a b : Int} (ha : FitsS64 a) (h : DivDefined a b) : FitsS64 (a.tdiv b) := by
  obtain ⟨hb, hover⟩ := h
  obtain ⟨h₁, h₂⟩ := ha
  have hle : (a.tdiv b).natAbs ≤ a.natAbs := Int.natAbs_tdiv_le_natAbs a b
  refine ⟨by omega, ?_⟩
  by_contra hge
  have hquotient : a.tdiv b = 2 ^ 63 := by omega
  have hdef : a.tmod b + b * a.tdiv b = a := Int.tmod_add_mul_tdiv a b
  have hlt := natAbs_tmod_lt a hb
  rw [hquotient] at hdef
  omega

/-- Where C defines the division, its quotient and its remainder are left. -/
theorem divisionOf_of_defined {a b : Int64} (h : DivDefined a.toInt b.toInt) :
    ∃ q r : Int64, divisionOf a b = (.value (.int q), .value (.int r)) ∧
      q.toInt = a.toInt.tdiv b.toInt ∧ r.toInt = a.toInt.tmod b.toInt := by
  have hq := fitsS64_tdiv (fitsS64_toInt a) h
  have hr := fitsS64_tmod b.toInt (fitsS64_toInt a)
  refine ⟨.ofInt (a.toInt.tdiv b.toInt), .ofInt (a.toInt.tmod b.toInt), ?_,
    Int64.toInt_ofInt_of_le hq.1 hq.2, Int64.toInt_ofInt_of_le hr.1 hr.2⟩
  simp [divisionOf, optFloorDiv, optMod, operatorInfoInit, operand, h]

theorem divisionOf_of_not_defined {a b : Int64} (h : ¬DivDefined a.toInt b.toInt) :
    divisionOf a b = (.undefined, .undefined) := by
  simp [divisionOf, optFloorDiv, optMod, operatorInfoInit, operand, h]

/-- The remainder of C has the sign of the divisor when it is zero or the operands have
one sign. -/
theorem sign_tmod_iff {a b : Int} :
    (a.tmod b ≠ 0 → (a.tmod b).sign = b.sign) ↔ b ∣ a ∨ a.sign = b.sign := by
  by_cases hr : a.tmod b = 0
  · simp [hr, Int.dvd_of_tmod_eq_zero hr]
  · have hdvd : ¬b ∣ a := fun hdvd => hr (Int.tmod_eq_zero_of_dvd hdvd)
    have hsign : (a.tmod b).sign = a.sign := by
      rcases lt_trichotomy a 0 with h | h | h
      · have hle := Int.tmod_nonneg b (Int.neg_nonneg_of_nonpos h.le)
        rw [Int.neg_tmod] at hle
        rw [Int.sign_eq_neg_one_of_neg h, Int.sign_eq_neg_one_of_neg (by omega)]
      · exact absurd (by rw [h, Int.zero_tmod]) hr
      · have hle := Int.tmod_nonneg b h.le
        rw [Int.sign_eq_one_of_pos h, Int.sign_eq_one_of_pos (by omega)]
    simp [hr, hdvd, hsign]

/-- **Division comes out exactly** when the divisor is not zero, the quotient fits, and
there is no remainder or the operands have one sign. -/
theorem division_iff (a b : Int64) :
    DivisionLaw a b (divisionOf a b).1 (divisionOf a b).2 ↔ DivisionWhen a b := by
  by_cases h : DivDefined a.toInt b.toInt
  · obtain ⟨q, r, hdiv, hq, hr⟩ := divisionOf_of_defined h
    have hsum : a.toInt = q.toInt * b.toInt + r.toInt := by
      rw [hq, hr]
      exact (Int.tdiv_mul_add_tmod _ _).symm
    have hsign := @sign_tmod_iff a.toInt b.toInt
    rw [hdiv]
    constructor
    · intro hlaw
      obtain ⟨q', r', -, hr', -, hs, -⟩ := hlaw.nonzero h.1
      cases hr'
      rw [hr] at hs
      exact ⟨h.1, h.2, hsign.mp hs⟩
    · intro hwhen
      refine ⟨fun h₀ => absurd h₀ h.1, fun _ => ⟨q, r, rfl, rfl, hsum, ?_, ?_⟩⟩
      · rw [hr]
        exact hsign.mpr hwhen.2.2
      · rw [hr]
        exact natAbs_tmod_lt _ h.1
  · rw [divisionOf_of_not_defined h]
    constructor
    · intro hlaw
      by_cases hb : b.toInt = 0
      · cases (hlaw.zero hb).1
      · obtain ⟨q, r, hq, -⟩ := hlaw.nonzero hb
        cases hq
    · intro hwhen
      exact absurd ⟨hwhen.1, hwhen.2.1⟩ h

/-- Seven divided by zero is not defined, and by minus two it leaves a remainder of one. -/
theorem not_division : ¬DivisionLaw 7 0 (divisionOf 7 0).1 (divisionOf 7 0).2 ∧
    ¬DivisionLaw 7 (-2) (divisionOf 7 (-2)).1 (divisionOf 7 (-2)).2 := by
  refine ⟨fun hlaw => ?_, fun hlaw => ?_⟩
  · have hzero : (divisionOf 7 0).1 = zeroDivisionError := (hlaw.zero (by decide)).1
    exact absurd hzero (by decide)
  · obtain ⟨q, r, -, hr, -, hsign, -⟩ := hlaw.nonzero (by decide)
    have hone : (divisionOf 7 (-2)).2 = .value (.int 1) := by decide
    rw [hone, Outcome.value.injEq, Value.int.injEq] at hr
    subst hr
    exact absurd (hsign (by decide)) (by decide)

/-! ### Power -/

/-- The loop of `_OPT_POW` on two integers; none when it does not end in so many rounds. -/
def powLoop : Nat → Int → Int → Int → Option Int
  | 0, _, _, _ => none
  | rounds + 1, lhs, rhs, ret =>
    if rhs = 0 then some ret
    else
      powLoop rounds (s32 (lhs * lhs)) (rhs / 2) (if rhs % 2 = 1 then s64 (ret * lhs) else ret)

/-- What `_OPT_POW` computes of two integers. The result is this integer unless the
exponent is negative, when it is one through it, a float. -/
def optPow (rounds : Nat) (op : OperatorInfo) : Option Int :=
  let lhs := s32 op.i1
  let rhs := s32 op.i2
  powLoop rounds lhs (if rhs < 0 then s32 (-rhs) else rhs) 1

/-- The power comes out. -/
def PowLaw (a b : Int64) : Prop :=
  ∃ rounds, optPow rounds (operatorInfoInit (some (.int a)) (.int b)) =
    some (a.toInt ^ b.toInt.toNat)

/-- The powers that come out: the exponent is not `-2 ^ 31` as an `int`, one of zero is not
zero as an `int` unless it is, and the highest square the exponent takes is an `int`. -/
def PowWhen (a b : Int64) : Prop :=
  s32 b.toInt ≠ -2 ^ 31 ∧ (a.toInt = 0 → s32 b.toInt = 0 → b.toInt = 0) ∧
    (b.toInt ≠ 0 → FitsS32 (a.toInt ^ 2 ^ b.toInt.toNat.log2))

/-- What the loop multiplies: of the squares of the base, as an `int` has them, those at the
bits of the exponent. -/
def bitProduct (a : Int) (n : Nat) : Int :=
  if n = 0 then 1 else (if n % 2 = 1 then s32 a else 1) * bitProduct (a * a) (n / 2)

/-- A negative exponent is never shifted to zero. -/
theorem powLoop_neg (rounds : Nat) (lhs ret : Int) {rhs : Int} (h : rhs < 0) :
    powLoop rounds lhs rhs ret = none := by
  induction rounds generalizing lhs rhs ret with
  | zero => rfl
  | succ rounds ih =>
    rw [powLoop, if_neg (by omega)]
    exact ih _ _ (by omega)

/-- **The loop multiplies the squares at the bits of the exponent.** -/
theorem powLoop_eq {rounds n : Nat} (hn : n < 2 ^ rounds) (a : Int) {ret : Int}
    (hret : FitsS64 ret) :
    powLoop (rounds + 1) (s32 a) n ret = some (s64 (ret * bitProduct a n)) := by
  induction rounds generalizing n a ret with
  | zero =>
    obtain rfl : n = 0 := by omega
    rw [bitProduct, powLoop]
    simp [s64_of_fits hret]
  | succ rounds ih =>
    rw [powLoop, bitProduct]
    by_cases h₀ : n = 0
    · simp [h₀, s64_of_fits hret]
    · have hhalf : ((n : Int) / 2) = ((n / 2 : Nat) : Int) := by omega
      have hlt : n / 2 < 2 ^ rounds := by omega
      rw [if_neg (by omega), if_neg h₀, s32_mul_s32, hhalf]
      by_cases hodd : n % 2 = 1
      · rw [if_pos (by omega), if_pos hodd, ih hlt (a * a) (fitsS64_s64 _), s64_mul_s64,
          mul_assoc]
      · rw [if_neg (by omega), if_neg hodd, ih hlt (a * a) hret, one_mul]

/-- The squares below the highest one are integers of an `int`, where the power fits. -/
theorem bitProduct_eq {a : Int} {n : Nat} (hn : n ≠ 0) (ha : a.natAbs ^ n ≤ 2 ^ 63) :
    bitProduct a n = a ^ (n - 2 ^ n.log2) * s32 (a ^ 2 ^ n.log2) := by
  induction n using Nat.strong_induction_on generalizing a with
  | _ n ih =>
    by_cases h₁ : n = 1
    · subst h₁
      have hlog : Nat.log2 1 = 0 := by decide
      simp [bitProduct, hlog]
    · have hhalf : n / 2 ≠ 0 := by omega
      have hlog : n.log2 = (n / 2).log2 + 1 := by
        rw [Nat.log2_def, if_pos (by omega)]
      have hle : 2 ^ (n / 2).log2 ≤ n / 2 := Nat.log2_self_le hhalf
      have hsquare : ∀ m, (a * a) ^ m = a ^ (2 * m) := fun m => by rw [← pow_two, ← pow_mul]
      have hbound : (a * a).natAbs ^ (n / 2) ≤ 2 ^ 63 := by
        rw [← Int.natAbs_pow, hsquare, Int.natAbs_pow]
        rcases Nat.eq_zero_or_pos a.natAbs with h₀ | hpos
        · rw [h₀, Nat.zero_pow (by omega)]
          exact Nat.zero_le _
        · exact (Nat.pow_le_pow_right hpos (by omega)).trans ha
      have hrest := ih (n / 2) (by omega) hhalf hbound
      rw [hsquare, hsquare, ← pow_succ', ← hlog] at hrest
      rw [bitProduct, if_neg hn, hrest, ← mul_assoc]
      congr 1
      by_cases hodd : n % 2 = 1
      · have hfits : FitsS32 a := by
          have hcube : a.natAbs < 2 ^ 31 := by
            by_contra hge
            have hpow : (2 ^ 31) ^ n ≤ a.natAbs ^ n := Nat.pow_le_pow_left (by omega) n
            have hthree : (2 ^ 31) ^ 3 ≤ (2 ^ 31) ^ n := Nat.pow_le_pow_right (by decide) (by omega)
            omega
          exact ⟨by omega, by omega⟩
        rw [if_pos hodd, s32_of_fits hfits, ← pow_succ']
        congr 1
        rw [hlog, pow_succ]
        omega
      · rw [if_neg hodd, one_mul]
        congr 1
        rw [hlog, pow_succ]
        omega

theorem not_square (x : Int) : x * x ≠ 2 ^ 31 := by
  intro h
  have hmod : x * x % 3 = 2 := by rw [h]; decide
  rw [Int.mul_emod] at hmod
  have hcases : x % 3 = 0 ∨ x % 3 = 1 ∨ x % 3 = 2 := by omega
  rcases hcases with h₀ | h₀ | h₀ <;> simp [h₀] at hmod

/-- A factor that does not fit an `int` changes a product that fits an `int64_t`; only
`2 ^ 31` may be taken for its negative. -/
theorem fits_of_s64_mul_s32 {x y : Int} (hx : x ≠ 0) (hfits : FitsS64 (x * y))
    (h : s64 (x * s32 y) = x * y) (hne : y ≠ 2 ^ 31) : FitsS32 y := by
  by_contra hy
  have hword := fitsS32_s32 y
  have hlarge : 2 ^ 31 ≤ y.natAbs := by
    unfold FitsS32 at hy
    omega
  have hsmall : (s32 y).natAbs ≤ 2 ^ 31 := by
    obtain ⟨h₁, h₂⟩ := hword
    omega
  have hle : (x * s32 y).natAbs ≤ (x * y).natAbs := by
    rw [Int.natAbs_mul, Int.natAbs_mul]
    exact Nat.mul_le_mul_left _ (hsmall.trans hlarge)
  obtain ⟨c, hc⟩ := dvd_sub_s64 (x * s32 y)
  rw [h] at hc
  obtain ⟨h₁, h₂⟩ := hfits
  have hcases : x * s32 y = x * y ∨ x * s32 y = -(x * y) := by omega
  rcases hcases with heq | heq
  · exact hy (mul_left_cancel₀ hx heq ▸ hword)
  · rw [← mul_neg] at heq
    have hneg := mul_left_cancel₀ hx heq
    unfold FitsS32 at hy hword
    omega

/-- A loop that ends in some rounds ends with the same in any number that is enough. -/
theorem powLoop_unique {m n : Nat} {lhs rhs ret x y : Int} (hx : powLoop m lhs rhs ret = some x)
    (hy : powLoop n lhs rhs ret = some y) : x = y := by
  induction m generalizing n lhs rhs ret with
  | zero => cases hx
  | succ m ih =>
    cases n with
    | zero => cases hy
    | succ n =>
      rw [powLoop] at hx hy
      by_cases h₀ : rhs = 0
      · rw [if_pos h₀] at hx hy
        exact Option.some.inj (hx.symm.trans hy)
      · rw [if_neg h₀] at hx hy
        exact ih hx hy

/-- The power loop ends with the bits of the exponent's absolute value, unless that does not
fit an `int`. -/
theorem powLaw_iff (a b : Int64) : PowLaw a b ↔ s32 b.toInt ≠ -2 ^ 31 ∧
    s64 (bitProduct a.toInt (s32 b.toInt).natAbs) = a.toInt ^ b.toInt.toNat := by
  obtain ⟨h₁, h₂⟩ := fitsS32_s32 b.toInt
  show (∃ rounds, powLoop rounds (s32 a.toInt)
    (if s32 b.toInt < 0 then s32 (-s32 b.toInt) else s32 b.toInt) 1 = _) ↔ _
  by_cases hmin : s32 b.toInt = -2 ^ 31
  · have hneg : s32 (-s32 b.toInt) < 0 := by rw [hmin]; decide
    rw [if_pos (by omega)]
    constructor
    · intro ⟨rounds, h⟩
      rw [powLoop_neg _ _ _ hneg] at h
      cases h
    · intro h
      exact absurd hmin h.1
  · have habs : (if s32 b.toInt < 0 then s32 (-s32 b.toInt) else s32 b.toInt) =
        ((s32 b.toInt).natAbs : Int) := by
      split
      · rw [s32_of_fits ⟨by omega, by omega⟩]
        omega
      · omega
    have hone : FitsS64 1 := by decide
    have hlt : (s32 b.toInt).natAbs < 2 ^ 32 := by omega
    have hloop := powLoop_eq hlt a.toInt hone
    rw [one_mul] at hloop
    rw [habs]
    constructor
    · intro ⟨rounds, h⟩
      exact ⟨hmin, powLoop_unique hloop h⟩
    · intro h
      exact ⟨_, hloop.trans (congrArg some h.2)⟩

/-- Powers of zero and of a unit: the exponent counts by being zero and by being odd. -/
theorem unit_pow_eq_iff {a : Int} (ha : a.natAbs ≤ 1) {m n : Nat} (hparity : m % 2 = n % 2)
    (hzero : n = 0 → m = 0) : a ^ m = a ^ n ↔ (a = 0 → m = 0 → n = 0) := by
  have hcases : a = 0 ∨ a = 1 ∨ a = -1 := by omega
  rcases hcases with rfl | rfl | rfl
  · by_cases hm : m = 0
    · by_cases hn : n = 0
      · simp [hm, hn]
      · simp [hm, zero_pow hn, hn]
    · have hn : n ≠ 0 := fun h => hm (hzero h)
      simp [zero_pow hm, zero_pow hn, hm]
  · simp
  · have heven : ∀ k : Nat, (-1 : Int) ^ k = if k % 2 = 0 then 1 else -1 := by
      intro k
      split
      · exact Even.neg_one_pow (Nat.even_iff.mpr ‹_›)
      · exact Odd.neg_one_pow (Nat.odd_iff.mpr (by omega))
    simp [heven, hparity]

/-- A power of zero or of a unit is computed with the exponent as an `int`. -/
theorem bitProduct_unit {a : Int} (ha : a.natAbs ≤ 1) (n : Nat) : bitProduct a n = a ^ n := by
  have hpow : ∀ k, (a ^ k).natAbs ≤ 1 := by
    intro k
    rw [Int.natAbs_pow]
    exact pow_le_one' ha k
  by_cases hn : n = 0
  · rw [hn, bitProduct]
    simp
  · have hlog := Nat.log2_self_le hn
    have hfits : FitsS32 (a ^ 2 ^ n.log2) := by
      have := hpow (2 ^ n.log2)
      exact ⟨by omega, by omega⟩
    rw [bitProduct_eq hn (by have := hpow n; rw [Int.natAbs_pow] at this; omega),
      s32_of_fits hfits, ← pow_add]
    congr 1
    omega

/-- A base of magnitude two or more has a small exponent. -/
theorem exponent_lt {a : Int} (ha : 2 ≤ a.natAbs) {n : Nat} (h : FitsS64 (a ^ n)) : n < 64 := by
  by_contra hge
  have hpow : 2 ^ 64 ≤ (a ^ n).natAbs := by
    rw [Int.natAbs_pow]
    exact (Nat.pow_le_pow_right (by decide) (by omega)).trans (Nat.pow_le_pow_left ha n)
  obtain ⟨h₁, h₂⟩ := h
  omega

theorem natAbs_pow_le {a : Int} {n : Nat} (h : FitsS64 (a ^ n)) : a.natAbs ^ n ≤ 2 ^ 63 := by
  rw [← Int.natAbs_pow]
  obtain ⟨h₁, h₂⟩ := h
  omega

/-- With a base of magnitude two or more, the highest square decides. -/
theorem bitProduct_eq_pow_iff {a : Int} (ha : a ≠ 0) {n : Nat} (hn : n ≠ 0)
    (hfits : FitsS64 (a ^ n)) :
    s64 (bitProduct a n) = a ^ n ↔ FitsS32 (a ^ 2 ^ n.log2) := by
  have hlog := Nat.log2_self_le hn
  have hsplit : a ^ (n - 2 ^ n.log2) * a ^ 2 ^ n.log2 = a ^ n := by
    rw [← pow_add]
    congr 1
    omega
  rw [bitProduct_eq hn (natAbs_pow_le hfits)]
  constructor
  · intro h
    rw [← hsplit] at h hfits
    refine fits_of_s64_mul_s32 (pow_ne_zero _ ha) hfits h fun heq => ?_
    -- `2 ^ 31` is not a square, and as the base itself it is multiplied by powers of it
    by_cases hone : n.log2 = 0
    · rw [hone, pow_zero, pow_one] at heq
      have hn₁ : n = 1 := by
        have := Nat.lt_log2_self (n := n)
        rw [hone] at this
        omega
      rw [hn₁, heq] at h
      exact absurd h (by decide)
    · obtain ⟨k, hk⟩ := Nat.exists_eq_succ_of_ne_zero hone
      rw [hk, pow_succ, pow_mul, pow_two] at heq
      exact not_square _ heq
  · intro h
    rw [s32_of_fits h, hsplit, s64_of_fits hfits]

/-- **A power that fits comes out exactly** when its exponent is one of an `int` that
the loop ends with, and the highest square it takes fits an `int`. -/
theorem pow_iff (a b : Int64) (hb : 0 ≤ b.toInt) (hfits : FitsS64 (a.toInt ^ b.toInt.toNat)) :
    PowLaw a b ↔ PowWhen a b := by
  rw [powLaw_iff]
  by_cases hunit : a.toInt.natAbs ≤ 1
  · have hpow : ∀ k, (a.toInt ^ k).natAbs ≤ 1 := by
      intro k
      rw [Int.natAbs_pow]
      exact pow_le_one' hunit k
    have hsmall : ∀ k, FitsS32 (a.toInt ^ k) := fun k => by
      have := hpow k
      exact ⟨by omega, by omega⟩
    have hwide : ∀ k, FitsS64 (a.toInt ^ k) := fun k => by
      have := hpow k
      exact ⟨by omega, by omega⟩
    obtain ⟨c, hc⟩ := dvd_sub_s32 b.toInt
    have hiff := unit_pow_eq_iff hunit (m := (s32 b.toInt).natAbs) (n := b.toInt.toNat)
      (by omega) (by intro h₀; have : b.toInt = 0 := by omega
                     rw [this]; rfl)
    rw [bitProduct_unit hunit, s64_of_fits (hwide _), hiff]
    unfold PowWhen
    simp only [hsmall, implies_true, and_true, Int.natAbs_eq_zero, Int.toNat_eq_zero]
    refine and_congr_right fun _ => ?_
    constructor
    · intro h h₀ hs
      have := h h₀ hs
      omega
    · intro h h₀ hs
      exact (h h₀ hs).le
  · have hlt := exponent_lt (by omega) hfits
    have hword : s32 b.toInt = b.toInt := s32_of_fits ⟨by omega, by omega⟩
    have habs : b.toInt.natAbs = b.toInt.toNat := by omega
    rw [hword, habs]
    unfold PowWhen
    rw [hword]
    by_cases hzero : b.toInt = 0
    · have hproduct : bitProduct a.toInt 0 = 1 := by rw [bitProduct, if_pos rfl]
      rw [hzero, Int.toNat_zero, hproduct]
      simp [s64_of_fits (x := 1) (by decide)]
    · have hne : a.toInt ≠ 0 := by omega
      rw [bitProduct_eq_pow_iff hne (by omega) hfits]
      simp [hne, hzero]

theorem pow_ten : PowLaw 10 10 :=
  (pow_iff 10 10 (by decide) (by decide)).mpr ⟨by decide, by decide, by decide⟩

/-- `3 ** 33` fits, and the square it takes, `3 ** 32`, is no `int`. -/
theorem not_pow : FitsS64 ((3 : Int64).toInt ^ (33 : Int64).toInt.toNat) ∧ ¬PowLaw 3 33 := by
  refine ⟨by decide, fun ⟨rounds, h⟩ => ?_⟩
  have hloop : optPow 34 (operatorInfoInit (some (.int 3)) (.int 33)) = some (-1504003197) := by
    decide
  have heq := powLoop_unique hloop h
  revert heq
  decide

end PikaScript
