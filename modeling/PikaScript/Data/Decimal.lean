import Mathlib.Data.Nat.Digits.Lemmas
import Mathlib.Tactic.Ring
import PikaScript.Data.Arg

/-! Decimal numbers in text, as `PikaObj.c` reads them. -/
namespace PikaScript

/-- The character of a digit. -/
def digitChar (d : Nat) : BitVec 8 := BitVec.ofNat 8 (0x30 + d)

/-- The decimal text of a number. -/
def decimal (n : Nat) : CString :=
  if n = 0 then [digitChar 0] else ((Nat.digits 10 n).map digitChar).reverse

/-- A digit in a row of `__talbe_fast_atoi`, which has ten. -/
def atoiTable (row : Nat) (c : BitVec 8) : Option Nat :=
  if 0x30 ≤ c.toNat ∧ c.toNat ≤ 0x39 ∧ row < 10 then some ((c.toNat - 0x30) * 10 ^ row) else none

/-- The loop of `fast_atoi`: the characters from the last one on. -/
def atoiSum : CString → Nat → Option Nat
  | [], _ => some 0
  | c :: cs, row => do return (← atoiTable row c) + (← atoiSum cs (row + 1))

/-- `fast_atoi`. None when it reads in front of the text or outside its table. -/
def fastAtoi (src : CString) : Option Int :=
  match src.take (u16 src.length) with
  | [] => none
  | first :: rest => do
    let s ← atoiSum rest.reverse 0
    if first = 0x2d then return -s
    return s + (← atoiTable rest.length first)

theorem atoiTable_digitChar {d row : Nat} (hd : d < 10) (hrow : row < 10) :
    atoiTable row (digitChar d) = some (d * 10 ^ row) := by
  have hc : (digitChar d).toNat = 0x30 + d := by
    rw [digitChar, BitVec.toNat_ofNat]
    omega
  rw [atoiTable, hc, if_pos (by omega), Nat.add_sub_cancel_left]

theorem atoiSum_digits {ds : List Nat} (hds : ∀ d ∈ ds, d < 10) {row : Nat}
    (hrow : row + ds.length ≤ 10) :
    atoiSum (ds.map digitChar) row = some (10 ^ row * Nat.ofDigits 10 ds) := by
  induction ds generalizing row with
  | nil => rfl
  | cons d ds ih =>
    obtain ⟨hd, hds⟩ := List.forall_mem_cons.mp hds
    rw [List.length_cons] at hrow
    rw [List.map_cons, atoiSum, atoiTable_digitChar hd (by omega), ih hds (by omega),
      Nat.ofDigits_cons]
    simp only [Option.bind_eq_bind, Option.bind_some, Option.pure_def, Option.some.injEq]
    rw [Nat.pow_succ]
    ring

private theorem digitChar_ne_minus : ∀ d < 10, digitChar d ≠ 0x2d#8 := by decide

/-- The first character is the highest digit. -/
theorem fastAtoi_digits {ds : List Nat} (hne : ds ≠ []) (hds : ∀ d ∈ ds, d < 10)
    (hlength : ds.length ≤ 10) :
    fastAtoi (ds.map digitChar).reverse = some ((Nat.ofDigits 10 ds : Nat) : Int) := by
  rcases List.eq_nil_or_concat ds with rfl | ⟨init, last, rfl⟩
  · exact absurd rfl hne
  rw [List.concat_eq_append] at hds hlength ⊢
  rw [List.length_append, List.length_singleton] at hlength
  have hlast : last < 10 := hds last (List.mem_append_right _ (List.mem_singleton_self _))
  have hminus : digitChar last ≠ 0x2d#8 := digitChar_ne_minus last hlast
  have hu : u16 (digitChar last :: (init.map digitChar).reverse).length =
      (digitChar last :: (init.map digitChar).reverse).length := by
    apply u16_of_lt
    simp only [List.length_cons, List.length_reverse, List.length_map]
    omega
  rw [List.map_append, List.reverse_append, List.map_cons, List.map_nil, List.reverse_singleton,
    List.singleton_append, fastAtoi, hu, List.take_length]
  dsimp only
  rw [List.reverse_reverse,
    atoiSum_digits (fun d hd => hds d (List.mem_append_left _ hd)) (by omega), List.length_reverse,
    List.length_map, atoiTable_digitChar hlast (by omega),
    Nat.ofDigits_append, Nat.ofDigits_singleton, Nat.pow_zero, Nat.one_mul]
  simp [hminus, Nat.mul_comm]

/-- **A number of at most ten digits is read from its text.** -/
theorem fastAtoi_decimal {n : Nat} (h : n < 10 ^ 10) : fastAtoi (decimal n) = some (n : Int) := by
  unfold decimal
  split
  · subst n
    decide
  · rw [fastAtoi_digits (Nat.digits_ne_nil_iff_ne_zero.mpr ‹_›)
      (fun d hd => Nat.digits_lt_base (by decide) hd)
      ((Nat.digits_length_le_iff (by decide) n).mpr h), Nat.ofDigits_digits]

theorem mem_decimal {n : Nat} {c : BitVec 8} (h : c ∈ decimal n) :
    0x30 ≤ c.toNat ∧ c.toNat ≤ 0x39 := by
  have hdigit : ∀ d < 10, 0x30 ≤ (digitChar d).toNat ∧ (digitChar d).toNat ≤ 0x39 := by decide
  unfold decimal at h
  split at h
  · rw [List.mem_singleton.mp h]
    exact hdigit 0 (by decide)
  · obtain ⟨d, hd, rfl⟩ := List.mem_map.mp (List.mem_reverse.mp h)
    exact hdigit d (Nat.digits_lt_base (by decide) hd)

theorem decimal_ne_nil (n : Nat) : decimal n ≠ [] := by
  unfold decimal
  split
  · simp
  · simpa using Nat.digits_ne_nil_iff_ne_zero.mpr ‹_›

/-- A number has at most two digits exactly below a hundred. -/
theorem length_decimal_le_two {n : Nat} : (decimal n).length ≤ 2 ↔ n < 100 := by
  unfold decimal
  split
  · subst n
    decide
  · rw [List.length_reverse, List.length_map, Nat.digits_length_le_iff (by decide)]
    rfl

end PikaScript
