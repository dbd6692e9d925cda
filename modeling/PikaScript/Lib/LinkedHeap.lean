import Mathlib.Data.List.Nodup
import Mathlib.Data.List.Perm.Subperm
import Mathlib.Tactic.Common

/-! Singly linked lists in memory.

A heap is what is at each address; every access is checked, so that one through a
null pointer, or to a cell that has been freed, gives none. A list is read off the
heap as the addresses and the values of its cells (`Linked`), where the last cell
points to any address, so that lists are cut and joined like lists. Only one change
of a pointer is needed to say what list programs do: the last cell of one list is
made to point to another (`Linked.setNext`). -/
namespace LinkedHeap

/-- A value, and the address of the next cell. -/
structure Cell (α : Type) where
  value : α
  next : Nat
deriving DecidableEq

/-- The cells there are, and how many have been made. There is none at 0, and there
is one only below the bound. -/
structure Heap (α : Type) where
  cells : Nat → Option (Cell α)
  bound : Nat
  allocs : Nat
  null : cells 0 = none
  unused : ∀ addr, bound ≤ addr → cells addr = none

/-- Where the next cell goes, which may depend on all that happened. The place is free. -/
structure Malloc (α : Type) where
  pick : Heap α → Nat
  ne_null : ∀ heap, pick heap ≠ 0
  fresh : ∀ heap : Heap α, heap.cells (pick heap) = none

variable {α : Type}

/-- An allocator that never uses a place again. -/
def Malloc.upward : Malloc α where
  pick heap := heap.bound + 1
  ne_null heap := Nat.succ_ne_zero heap.bound
  fresh heap := heap.unused _ (Nat.le_succ heap.bound)

namespace Heap
variable (heap : Heap α) (addr : Nat)

def empty : Heap α := ⟨fun _ => none, 0, 0, rfl, fun _ _ => rfl⟩

/-- The heap with something else at one place. -/
def put (cell : Option (Cell α)) (h : addr ≠ 0) : Heap α where
  cells a := if a = addr then cell else heap.cells a
  bound := max heap.bound (addr + 1)
  allocs := heap.allocs
  null := (if_neg h.symm).trans heap.null
  unused a ha := (if_neg (by omega)).trans (heap.unused a (by omega))

/-- A new cell. -/
def alloc (malloc : Malloc α) (cell : Cell α) : Nat × Heap α :=
  (malloc.pick heap,
    { heap.put (malloc.pick heap) (some cell) (malloc.ne_null heap) with
      allocs := heap.allocs + 1 })

/-- A store to a cell that is there. -/
def write (cell : Cell α) : Option (Heap α) :=
  if h : addr ≠ 0 ∧ (heap.cells addr).isSome then some (heap.put addr (some cell) h.1) else none

/-- A cell that is there is given back. -/
def free : Option (Heap α) :=
  if h : addr ≠ 0 ∧ (heap.cells addr).isSome then some (heap.put addr none h.1) else none

/-- A store to the `next` field. -/
def setNext (next : Nat) : Option (Heap α) :=
  (heap.cells addr).bind fun cell => heap.write addr { cell with next := next }

/-- A change of the value. -/
def modify (f : α → α) : Option (Heap α) :=
  (heap.cells addr).bind fun cell => heap.write addr { cell with value := f cell.value }

variable {heap addr} {cell : Cell α}

theorem ne_zero_of_cells (h : heap.cells addr = some cell) : addr ≠ 0 := by
  rintro rfl
  rw [heap.null] at h
  cases h

theorem lt_bound_of_cells (h : heap.cells addr = some cell) : addr < heap.bound := by
  by_contra hle
  rw [heap.unused addr (by omega)] at h
  cases h

/-- `heap'` is `heap` but for what is at `addr`. -/
def Puts (heap heap' : Heap α) (addr : Nat) (cell : Option (Cell α)) : Prop :=
  ∀ a, heap'.cells a = if a = addr then cell else heap.cells a

namespace Puts
variable {heap' : Heap α} {c : Option (Cell α)}

theorem self (h : Puts heap heap' addr c) : heap'.cells addr = c := by rw [h addr, if_pos rfl]

theorem of_ne (h : Puts heap heap' addr c) {a : Nat} (hne : a ≠ addr) :
    heap'.cells a = heap.cells a := by
  rw [h a, if_neg hne]

end Puts

theorem alloc_spec (heap : Heap α) (malloc : Malloc α) (cell : Cell α) :
    heap.cells (heap.alloc malloc cell).1 = none ∧ (heap.alloc malloc cell).1 ≠ 0 ∧
      Puts heap (heap.alloc malloc cell).2 (heap.alloc malloc cell).1 (some cell) :=
  ⟨malloc.fresh heap, malloc.ne_null heap, fun _ => rfl⟩

theorem write_spec (h : heap.cells addr = some cell) (new : Cell α) :
    ∃ heap', heap.write addr new = some heap' ∧ Puts heap heap' addr (some new) :=
  ⟨_, dif_pos ⟨ne_zero_of_cells h, Option.isSome_of_eq_some h⟩, fun _ => rfl⟩

theorem free_spec (h : heap.cells addr = some cell) :
    ∃ heap', heap.free addr = some heap' ∧ Puts heap heap' addr none :=
  ⟨_, dif_pos ⟨ne_zero_of_cells h, Option.isSome_of_eq_some h⟩, fun _ => rfl⟩

theorem setNext_spec (h : heap.cells addr = some cell) (next : Nat) :
    ∃ heap', heap.setNext addr next = some heap' ∧
      Puts heap heap' addr (some { cell with next := next }) := by
  rw [setNext, h, Option.bind_some]
  exact write_spec h _

theorem modify_spec (h : heap.cells addr = some cell) (f : α → α) :
    ∃ heap', heap.modify addr f = some heap' ∧
      Puts heap heap' addr (some { cell with value := f cell.value }) := by
  rw [modify, h, Option.bind_some]
  exact write_spec h _

end Heap

/-! ### Lists -/

/-- The address of the first cell, or where the list ends if it has none. -/
def first : List (Nat × α) → Nat → Nat
  | [], last => last
  | (addr, _) :: _, _ => addr

/-- The address of the last cell, or what comes before the list if it has none. -/
def lastOf : List (Nat × α) → Nat → Nat
  | [], prior => prior
  | (addr, _) :: l, _ => lastOf l addr

/-- The cells are there, each points to the one behind it, and the last one to `last`. -/
def Linked (heap : Heap α) : List (Nat × α) → Nat → Prop
  | [], _ => True
  | (addr, value) :: l, last => heap.cells addr = some ⟨value, first l last⟩ ∧ Linked heap l last

variable {heap heap' : Heap α} {l l₁ l₂ : List (Nat × α)} {addr last last' : Nat} {value : α}

@[simp] theorem first_append (l₁ l₂ : List (Nat × α)) (last : Nat) :
    first (l₁ ++ l₂) last = first l₁ (first l₂ last) := by
  cases l₁ <;> rfl

/-- Where a list that has a cell begins does not depend on where it ends. -/
theorem first_congr (h : l ≠ []) (last last' : Nat) : first l last = first l last' := by
  cases l with
  | nil => exact absurd rfl h
  | cons e l => rfl

theorem first_mem (h : l ≠ []) (last : Nat) : first l last ∈ l.map Prod.fst := by
  cases l with
  | nil => exact absurd rfl h
  | cons e l => exact List.mem_cons_self

@[simp] theorem lastOf_append (l : List (Nat × α)) (addr : Nat) (value : α) (prior : Nat) :
    lastOf (l ++ [(addr, value)]) prior = addr := by
  induction l generalizing prior with
  | nil => rfl
  | cons e l ih => exact ih e.1

/-- Lists are joined where one ends at the beginning of the other. -/
theorem linked_append :
    Linked heap (l₁ ++ l₂) last ↔ Linked heap l₁ (first l₂ last) ∧ Linked heap l₂ last := by
  induction l₁ with
  | nil => simp [Linked]
  | cons e l₁ ih => rw [List.cons_append, Linked, Linked, ih, first_append, and_assoc]

namespace Linked

/-- A list is not changed by what happens at other places. -/
theorem frame (h : Linked heap l last)
    (hkeep : ∀ a ∈ l.map Prod.fst, heap'.cells a = heap.cells a) : Linked heap' l last := by
  induction l with
  | nil => trivial
  | cons e l ih =>
    rw [List.map_cons] at hkeep
    refine ⟨(hkeep _ List.mem_cons_self).trans h.1, ih h.2 fun a ha => ?_⟩
    exact hkeep a (List.mem_cons_of_mem _ ha)

/-- A change at a place that is not one of the list's leaves it. -/
theorem puts {c : Option (Cell α)} (h : Linked heap l last) (hputs : heap.Puts heap' addr c)
    (haddr : addr ∉ l.map Prod.fst) : Linked heap' l last :=
  h.frame fun _ ha => hputs.of_ne fun heq => haddr (heq ▸ ha)

theorem cells_of_mem (h : Linked heap l last) (hmem : (addr, value) ∈ l) :
    ∃ next, heap.cells addr = some ⟨value, next⟩ := by
  induction l with
  | nil => cases hmem
  | cons e l ih =>
    rcases List.mem_cons.mp hmem with rfl | hmem
    · exact ⟨_, h.1⟩
    · exact ih h.2 hmem

/-- A place with nothing in it is in no list. -/
theorem not_mem (h : Linked heap l last) (hfree : heap.cells addr = none) :
    addr ∉ l.map Prod.fst := by
  intro hmem
  obtain ⟨⟨_, value⟩, hin, rfl⟩ := List.mem_map.mp hmem
  obtain ⟨next, hcell⟩ := h.cells_of_mem hin
  rw [hfree] at hcell
  cases hcell

theorem first_ne_zero (h : Linked heap l last) (hl : l ≠ []) : first l last ≠ 0 := by
  cases l with
  | nil => exact absurd rfl hl
  | cons e l => exact Heap.ne_zero_of_cells h.1

/-- There are no more cells in a list than there are in memory. -/
theorem length_le (h : Linked heap l last) (hnodup : (l.map Prod.fst).Nodup) :
    l.length ≤ heap.bound := by
  have hsub : l.map Prod.fst ⊆ List.range heap.bound := by
    intro a ha
    obtain ⟨⟨_, value⟩, hin, rfl⟩ := List.mem_map.mp ha
    obtain ⟨next, hcell⟩ := h.cells_of_mem hin
    exact List.mem_range.mpr (Heap.lt_bound_of_cells hcell)
  have := (hnodup.subperm hsub).length_le
  rwa [List.length_map, List.length_range] at this

/-- **The last cell of a list is made to point to another list.** -/
theorem setNext (h₁ : Linked heap (l₁ ++ [(addr, value)]) last) (h₂ : Linked heap l₂ last')
    (haddr : addr ∉ l₁.map Prod.fst ∧ addr ∉ l₂.map Prod.fst) :
    ∃ heap', heap.setNext addr (first l₂ last') = some heap' ∧
      Linked heap' (l₁ ++ (addr, value) :: l₂) last' ∧
      ∀ a ≠ addr, heap'.cells a = heap.cells a := by
  obtain ⟨hfront, hcell, -⟩ := linked_append.mp h₁
  obtain ⟨heap', hset, hputs⟩ := Heap.setNext_spec hcell (first l₂ last')
  refine ⟨heap', hset, linked_append.mpr ⟨?_, hputs.self, ?_⟩, fun _ => hputs.of_ne⟩
  · exact hfront.puts hputs haddr.1
  · exact h₂.puts hputs haddr.2

/-- A list that has a last cell is joined with another through that cell. -/
theorem join (h₁ : Linked heap l₁ last) (h₂ : Linked heap l₂ last')
    (hnodup : ((l₁ ++ l₂).map Prod.fst).Nodup) (hne : l₁ ≠ []) :
    lastOf l₁ 0 ∈ l₁.map Prod.fst ∧ lastOf l₁ 0 ≠ 0 ∧
      ∃ heap', heap.setNext (lastOf l₁ 0) (first l₂ last') = some heap' ∧
        Linked heap' (l₁ ++ l₂) last' ∧ ∀ a ≠ lastOf l₁ 0, heap'.cells a = heap.cells a := by
  obtain rfl | ⟨front, ⟨addr, value⟩, rfl⟩ := l₁.eq_nil_or_concat
  · exact absurd rfl hne
  · rw [List.concat_eq_append] at h₁ hnodup ⊢
    rw [List.append_assoc, List.map_append, List.singleton_append, List.map_cons,
      List.nodup_middle, List.nodup_cons, List.mem_append] at hnodup
    obtain ⟨heap', hset, hlinked, hframe⟩ := h₁.setNext h₂ (not_or.mp hnodup.1)
    have hcell : heap.cells addr = some ⟨value, first [] last⟩ := (linked_append.mp h₁).2.1
    rw [lastOf_append]
    refine ⟨by simp, Heap.ne_zero_of_cells hcell, heap', hset, ?_, hframe⟩
    rwa [List.append_assoc, List.singleton_append]

end Linked

/-! ### A cell that moves

What needs more room may be given another place. The lists that it is in have then
to be told, and that is one pointer: that of the cell before it, or of the list. -/

/-- What was at `addr` is at `addr'`, as `cell`: the same place, or one that was free. -/
structure Moves (heap heap' : Heap α) (addr addr' : Nat) (cell : Cell α) : Prop where
  cells : heap'.cells addr' = some cell
  place : addr' = addr ∨ heap.cells addr' = none
  frame : ∀ a, a ≠ addr → a ≠ addr' → heap'.cells a = heap.cells a

namespace Moves
variable {addr' : Nat} {cell : Cell α}

/-- Nothing is moved onto a cell that is there. -/
theorem ne_of_cells (h : Moves heap heap' addr addr' cell) {a : Nat} {other : Cell α}
    (hcell : heap.cells a = some other) (hne : a ≠ addr) : a ≠ addr' := by
  rintro rfl
  rcases h.place with heq | hfree
  · exact hne heq
  · rw [hcell] at hfree
    cases hfree

/-- The cells of a list that the moved cell is not in stay. -/
theorem linked (h : Moves heap heap' addr addr' cell) (hl : Linked heap l last)
    (haddr : addr ∉ l.map Prod.fst) : Linked heap' l last ∧ addr' ∉ l.map Prod.fst := by
  have hne : ∀ a ∈ l.map Prod.fst, a ≠ addr ∧ a ≠ addr' := by
    intro a ha
    obtain ⟨⟨_, value⟩, hin, rfl⟩ := List.mem_map.mp ha
    obtain ⟨next, hcell⟩ := hl.cells_of_mem hin
    have hother : _ ≠ addr := fun heq => haddr (heq ▸ ha)
    exact ⟨hother, h.ne_of_cells hcell hother⟩
  exact ⟨hl.frame fun a ha => h.frame a (hne a ha).1 (hne a ha).2,
    fun hmem => (hne _ hmem).2 rfl⟩

end Moves

end LinkedHeap
