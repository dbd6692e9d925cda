import Mathlib.Data.List.Basic
import Mathlib.Tactic.Common

/-! A list with a cursor.

What stands left of the cursor is kept nearest first, so an edit at the cursor is an edit of
two heads. `toList` is the list and `cursor` the index of the cursor in it. -/

structure Zipper (α : Type) where
  left : List α
  right : List α
deriving DecidableEq, Repr

namespace Zipper
variable {α : Type} (z : Zipper α)

def toList : List α := z.left.reverse ++ z.right

def cursor : Nat := z.left.length

def empty : Zipper α := ⟨[], []⟩

/-- The cursor behind the last entry. -/
def atEnd (xs : List α) : Zipper α := ⟨xs.reverse, []⟩

def insert (x : α) : Zipper α := ⟨x :: z.left, z.right⟩

/-- Delete the entry left of the cursor. -/
def backspace : Zipper α := ⟨z.left.tail, z.right⟩

def moveLeft : Zipper α :=
  match z.left with
  | [] => z
  | x :: left => ⟨left, x :: z.right⟩

def moveRight : Zipper α :=
  match z.right with
  | [] => z
  | x :: right => ⟨x :: z.left, right⟩

variable {z}

theorem cursor_le : z.cursor ≤ z.toList.length := by
  rw [toList, List.length_append, List.length_reverse]
  exact Nat.le_add_right _ _

@[simp] theorem toList_empty : (empty : Zipper α).toList = [] := rfl

@[simp] theorem cursor_empty : (empty : Zipper α).cursor = 0 := rfl

@[simp] theorem toList_atEnd (xs : List α) : (atEnd xs).toList = xs := by
  rw [toList, atEnd, List.reverse_reverse, List.append_nil]

@[simp] theorem cursor_atEnd (xs : List α) : (atEnd xs).cursor = xs.length :=
  List.length_reverse

/-- A moved cursor is in the same list. -/
@[simp] theorem toList_moveLeft : z.moveLeft.toList = z.toList := by
  unfold moveLeft
  split
  · rfl
  · rename_i x left hleft
    rw [toList, toList, hleft, List.reverse_cons, List.append_assoc, List.singleton_append]

@[simp] theorem toList_moveRight : z.moveRight.toList = z.toList := by
  unfold moveRight
  split
  · rfl
  · rename_i x right hright
    rw [toList, toList, hright, List.reverse_cons, List.append_assoc, List.singleton_append]

theorem cursor_moveLeft : z.moveLeft.cursor = z.cursor - 1 := by
  unfold moveLeft cursor
  split
  · rename_i hleft
    rw [hleft]
    rfl
  · rename_i x left hleft
    rw [hleft]
    rfl

theorem cursor_moveRight :
    z.moveRight.cursor = if z.cursor < z.toList.length then z.cursor + 1 else z.cursor := by
  have hlength : z.toList.length = z.cursor + z.right.length := by
    rw [toList, List.length_append, List.length_reverse, cursor]
  unfold moveRight
  split
  · rename_i hright
    rw [if_neg (by rw [hlength, hright]; exact Nat.lt_irrefl _)]
  · rename_i x right hright
    rw [if_pos (by rw [hlength, hright, List.length_cons]; omega)]
    rfl

@[simp] theorem cursor_insert (x : α) : (z.insert x).cursor = z.cursor + 1 := rfl

theorem toList_insert (x : α) : (z.insert x).toList = z.left.reverse ++ x :: z.right := by
  rw [insert, toList, List.reverse_cons, List.append_assoc, List.singleton_append]

theorem length_insert (x : α) : (z.insert x).toList.length = z.toList.length + 1 := by
  rw [toList_insert, toList, List.length_append, List.length_append, List.length_cons,
    Nat.add_assoc]

theorem mem_insert {x y : α} (h : y ∈ (z.insert x).toList) : y = x ∨ y ∈ z.toList := by
  rw [toList_insert, List.mem_append, List.mem_cons] at h
  rw [toList, List.mem_append]
  tauto

theorem cursor_backspace : z.backspace.cursor = z.cursor - 1 := List.length_tail

/-- Without an entry left of the cursor nothing is deleted. -/
theorem backspace_of_cursor (h : z.cursor = 0) : z.backspace = z := by
  obtain ⟨left, right⟩ := z
  obtain rfl : left = [] := List.eq_nil_of_length_eq_zero h
  rfl

/-- The entry that is deleted. -/
theorem exists_backspace (h : z.cursor ≠ 0) :
    ∃ x, z.toList = z.backspace.left.reverse ++ x :: z.backspace.right ∧
      z.backspace.toList.length + 1 = z.toList.length := by
  obtain ⟨left, right⟩ := z
  cases left with
  | nil => exact absurd rfl h
  | cons x left =>
    have hlist : (Zipper.mk (x :: left) right).toList = left.reverse ++ x :: right :=
      toList_insert (z := ⟨left, right⟩) x
    refine ⟨x, hlist, ?_⟩
    rw [hlist]
    simp only [backspace, toList, List.tail_cons, List.length_append, List.length_cons]
    omega

end Zipper
