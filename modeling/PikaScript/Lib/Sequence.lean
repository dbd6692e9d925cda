import Mathlib.Algebra.Order.Ring.Nat
import Mathlib.Data.Int.Order.Basic
import Mathlib.Tactic.Common

/-! Indexing and slicing with signed bounds.

A negative index counts from the end. The bounds of a slice are brought into the sequence; an
index outside it has no entry. -/
namespace Sequence
variable {α : Type}

/-- The position of a signed index in a sequence of `n` entries. -/
def pos (n : Nat) (i : Int) : Int := if i < 0 then i + n else i

/-- The index is one of the sequence. -/
def InRange (n : Nat) (i : Int) : Prop := -n ≤ i ∧ i < n

instance (n : Nat) (i : Int) : Decidable (InRange n i) :=
  inferInstanceAs (Decidable (-(n : Int) ≤ i ∧ i < n))

/-- The entry at a signed index. -/
def entry (xs : List α) (i : Int) : Option α :=
  if InRange xs.length i then xs[(pos xs.length i).toNat]? else none

/-- The position of a bound, no further than the end. -/
def bound (n : Nat) (i : Int) : Int := min (pos n i) n

/-- The entries between two bounds. -/
def slice (xs : List α) (start stop : Int) : List α :=
  (xs.take (bound xs.length stop).toNat).drop (bound xs.length start).toNat

variable {n : Nat} {i : Int}

theorem pos_of_nonneg (h : 0 ≤ i) : pos n i = i := if_neg (by omega)

theorem pos_of_neg (h : i < 0) : pos n i = i + n := if_pos h

theorem bound_le : bound n i ≤ n := min_le_right _ _

theorem bound_length : bound n n = n := by
  rw [bound, pos_of_nonneg (Int.natCast_nonneg n), min_self]

theorem inRange_iff : InRange n i ↔ 0 ≤ pos n i ∧ pos n i < n := by
  unfold InRange pos
  split
  · omega
  · omega

theorem entry_of_inRange {xs : List α} (h : InRange xs.length i) :
    entry xs i = xs[(pos xs.length i).toNat]? := if_pos h

theorem entry_of_not_inRange {xs : List α} (h : ¬InRange xs.length i) : entry xs i = none :=
  if_neg h

theorem exists_entry {xs : List α} (h : InRange xs.length i) : ∃ x, entry xs i = some x := by
  obtain ⟨h₁, h₂⟩ := inRange_iff.mp h
  exact ⟨_, (entry_of_inRange h).trans (List.getElem?_eq_getElem (by omega))⟩

/-- The entry at the position of an index is the one at the index. -/
theorem entry_pos {xs : List α} (h : InRange xs.length i) :
    entry xs (pos xs.length i) = entry xs i := by
  obtain ⟨h₁, h₂⟩ := inRange_iff.mp h
  rw [entry_of_inRange h, entry_of_inRange ⟨by omega, h₂⟩, pos_of_nonneg h₁]

theorem length_slice {xs : List α} {start stop : Int} :
    (slice xs start stop).length =
      (bound xs.length stop).toNat - (bound xs.length start).toNat := by
  have hle : bound xs.length stop ≤ xs.length := bound_le
  rw [slice, List.length_drop, List.length_take]
  omega

/-- The entries between an index and itself. -/
theorem drop_take_self (xs : List α) (k : Nat) : (xs.take k).drop k = [] :=
  List.drop_eq_nil_of_le (List.length_take_le _ _)

/-- The entries between two indices start with the first one. -/
theorem drop_take_cons {xs : List α} {k : Nat} {x : α} (hx : xs[k]? = some x) (count : Nat) :
    (xs.take (k + (count + 1))).drop k = x :: (xs.take (k + 1 + count)).drop (k + 1) := by
  obtain ⟨hk, rfl⟩ := List.getElem?_eq_some_iff.mp hx
  have hlt : k < (xs.take (k + 1 + count)).length := by
    rw [List.length_take]
    omega
  rw [show k + (count + 1) = k + 1 + count by omega, List.drop_eq_getElem_cons hlt,
    List.getElem_take]

end Sequence
