import Mathlib.Algebra.Order.Ring.Nat
import Mathlib.Tactic.Common

/-! Machine words: unsigned ones as natural numbers, signed ones as integers.

Arithmetic of a C type is arithmetic of `Nat` or `Int` followed by a wrap. Code
that cannot leave the type is written without one. -/

/-- The value a `uint8_t` keeps of `n`. -/
def u8 (n : Nat) : Nat := n % 2 ^ 8

/-- The value a `uint16_t` keeps of `n`. -/
def u16 (n : Nat) : Nat := n % 2 ^ 16

/-- The value a `uint32_t` keeps of `n`. -/
def u32 (n : Nat) : Nat := n % 2 ^ 32

/-- `uint32_t` subtraction. -/
def sub32 (a b : Nat) : Nat := u32 (a + 2 ^ 32 - b)

/-- `size_t` subtraction. -/
def sub64 (a b : Nat) : Nat := (a + 2 ^ 64 - b) % 2 ^ 64

@[simp] theorem u8_of_lt {n : Nat} (h : n < 2 ^ 8) : u8 n = n := Nat.mod_eq_of_lt h

@[simp] theorem u16_of_lt {n : Nat} (h : n < 2 ^ 16) : u16 n = n := Nat.mod_eq_of_lt h

@[simp] theorem u32_of_lt {n : Nat} (h : n < 2 ^ 32) : u32 n = n := Nat.mod_eq_of_lt h

theorem u8_lt (n : Nat) : u8 n < 2 ^ 8 := Nat.mod_lt _ (by decide)

theorem u16_lt (n : Nat) : u16 n < 2 ^ 16 := Nat.mod_lt _ (by decide)

theorem u32_le (n : Nat) : u32 n ≤ n := Nat.mod_le _ _

theorem sub32_of_le {a b : Nat} (ha : a < 2 ^ 32) (h : b ≤ a) : sub32 a b = a - b := by
  unfold sub32 u32
  omega

theorem sub64_of_le {a b : Nat} (ha : a < 2 ^ 64) (h : b ≤ a) : sub64 a b = a - b := by
  unfold sub64
  omega

/-- A difference below zero comes round to the large sizes. -/
theorem sub64_of_lt {a b : Nat} (hb : b < 2 ^ 64) (h : a < b) : sub64 a b = a + 2 ^ 64 - b := by
  unfold sub64
  omega

/-! ### Signed words -/

/-- The value an `int32_t` keeps of an integer, in two's complement. -/
def s32 (x : Int) : Int := x.bmod (2 ^ 32)

/-- The value an `int64_t` keeps of an integer. -/
def s64 (x : Int) : Int := x.bmod (2 ^ 64)

/-- The integers of an `int32_t`. -/
def FitsS32 (x : Int) : Prop := -2 ^ 31 ≤ x ∧ x < 2 ^ 31

/-- The integers of an `int64_t`. -/
def FitsS64 (x : Int) : Prop := -2 ^ 63 ≤ x ∧ x < 2 ^ 63

instance : DecidablePred FitsS32 := fun x => inferInstanceAs (Decidable (-2 ^ 31 ≤ x ∧ x < 2 ^ 31))

instance : DecidablePred FitsS64 := fun x => inferInstanceAs (Decidable (-2 ^ 63 ≤ x ∧ x < 2 ^ 63))

theorem fitsS32_s32 (x : Int) : FitsS32 (s32 x) :=
  ⟨Int.le_bmod (by decide), Int.bmod_lt (by decide)⟩

theorem fitsS64_s64 (x : Int) : FitsS64 (s64 x) :=
  ⟨Int.le_bmod (by decide), Int.bmod_lt (by decide)⟩

theorem s32_of_fits {x : Int} (h : FitsS32 x) : s32 x = x :=
  Int.bmod_eq_of_le_mul_two (by have := h.1; omega) (by have := h.2; omega)

theorem s64_of_fits {x : Int} (h : FitsS64 x) : s64 x = x :=
  Int.bmod_eq_of_le_mul_two (by have := h.1; omega) (by have := h.2; omega)

/-- An integer past the range once comes round to the negative ones. -/
theorem s32_of_over {x : Int} (h₁ : 2 ^ 31 ≤ x) (h₂ : x < 2 ^ 32 + 2 ^ 31) :
    s32 x = x - 2 ^ 32 := by
  have hround : s32 x = s32 (x - 2 ^ 32) := (Int.sub_bmod_right x (2 ^ 32)).symm
  rw [hround]
  exact s32_of_fits ⟨by omega, by omega⟩

theorem s64_mul_s64 (x y : Int) : s64 (s64 x * y) = s64 (x * y) := Int.bmod_mul_bmod

theorem s32_mul_s32 (x y : Int) : s32 (s32 x * s32 y) = s32 (x * y) := by
  rw [s32, s32, Int.bmod_mul_bmod]
  exact Int.mul_bmod_bmod

/-- An integer differs from its signed word by a multiple of the word's size. -/
theorem dvd_sub_s32 (x : Int) : 2 ^ 32 ∣ x - s32 x := Int.dvd_self_sub_bmod

theorem dvd_sub_s64 (x : Int) : 2 ^ 64 ∣ x - s64 x := Int.dvd_self_sub_bmod

theorem s32_emod (x : Int) : s32 x % 2 ^ 32 = x % 2 ^ 32 := Int.bmod_emod

theorem fitsS64_toInt (x : Int64) : FitsS64 x.toInt := ⟨x.le_toInt, x.toInt_lt⟩

theorem fitsS32_toInt (x : Int32) : FitsS32 x.toInt := ⟨x.le_toInt, x.toInt_lt⟩
