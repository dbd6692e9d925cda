import Mathlib.Data.List.Basic
import Mathlib.Logic.Function.Basic
import Mathlib.Tactic.Common

/-! Arrays of which the first entries are used.

An entry is taken out by moving those behind it forward, one by one (`pull`); what is used is
then the list without that entry (`front_pull`). -/
namespace Compaction
variable {α : Type} {f : Nat → α} {i n : Nat}

/-- The entries that are used. -/
def front (f : Nat → α) (n : Nat) : List α := (List.range n).map f

/-- The array when the entries from `i` on, up to `n`, have been replaced by the next ones. -/
def pull (f : Nat → α) (i n : Nat) : Nat → α := fun j => if i ≤ j ∧ j < n then f (j + 1) else f j

@[simp] theorem length_front (f : Nat → α) (n : Nat) : (front f n).length = n := by simp [front]

theorem front_succ (f : Nat → α) (n : Nat) : front f (n + 1) = front f n ++ [f n] := by
  simp [front, List.range_succ]

theorem getElem?_front {j : Nat} (h : j < n) : (front f n)[j]? = some (f j) := by
  simp [front, h]

theorem front_congr {g : Nat → α} (h : ∀ j < n, f j = g j) : front f n = front g n :=
  List.map_congr_left fun j hj => h j (List.mem_range.mp hj)

theorem pull_self (f : Nat → α) (n : Nat) : pull f n n = f := by
  funext j
  exact if_neg (by omega)

/-- **The first entry is moved, then the others.** -/
theorem pull_update (h : i < n) :
    pull (Function.update f i (f (i + 1))) (i + 1) n = pull f i n := by
  funext j
  unfold pull
  by_cases heq : j = i
  · rw [heq, if_neg (by omega), if_pos ⟨Nat.le_refl i, h⟩, Function.update_self]
  by_cases hj : i ≤ j ∧ j < n
  · rw [if_pos hj, if_pos ⟨by omega, hj.2⟩, Function.update_of_ne (by omega)]
  · rw [if_neg hj, if_neg (by omega), Function.update_of_ne heq]

/-- **What is used without the entry.** -/
theorem front_pull (h : i ≤ n) : front (pull f i n) n = (front f (n + 1)).eraseIdx i := by
  refine List.ext_getElem? fun j => ?_
  rw [List.getElem?_eraseIdx]
  by_cases hj : j < n
  · rw [getElem?_front hj, pull]
    by_cases hi : j < i
    · rw [if_neg (by omega), if_pos hi, getElem?_front (by omega)]
    · rw [if_pos ⟨by omega, hj⟩, if_neg hi, getElem?_front (by omega)]
  · rw [List.getElem?_eq_none (by rw [length_front]; omega), if_neg (by omega),
      List.getElem?_eq_none (by rw [length_front]; omega)]

theorem mem_front {x : α} : x ∈ front f n ↔ ∃ j < n, f j = x := by simp [front]

/-- The first index of an entry. -/
theorem eraseIdx_first [BEq α] [LawfulBEq α] {x : α} (h : i < n) (hx : f i = x)
    (hfirst : ∀ j < i, f j ≠ x) : (front f n).eraseIdx i = (front f n).erase x := by
  have hidx : (front f n).idxOf x = i := by
    have hlt : i < (front f n).length := by rwa [length_front]
    refine (List.findIdx_eq hlt).mpr ⟨?_, fun j hj => ?_⟩
    · simpa [front] using hx
    · simpa [front] using hfirst j hj
  rw [← hidx, List.eraseIdx_idxOf_eq_erase]

end Compaction
