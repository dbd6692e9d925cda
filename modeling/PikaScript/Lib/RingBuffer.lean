import Mathlib.Algebra.Order.Ring.Nat
import Mathlib.Data.List.Basic
import Mathlib.Logic.Function.Basic
import Mathlib.Tactic.Common
import PikaScript.Lib.Compaction

/-! Circular buffers.

A buffer of `N` slots with a head and a tail index holds the slots from head up
to tail, around the end, and never all of them. `contents` is that list; pushing
at the tail appends to it (`contents_push`) and moving the head on drops its
first element (`contents_pop`). -/
namespace RingBuffer
variable {N : Nat} {α : Type}

/-- How many slots are held. -/
def count (head tail : Fin N) : Nat :=
  if head.val ≤ tail.val then tail.val - head.val else tail.val + N - head.val

theorem count_lt (head tail : Fin N) : count head tail < N := by
  have hh := head.isLt
  have ht := tail.isLt
  unfold count
  split <;> omega

theorem count_eq_zero {head tail : Fin N} : count head tail = 0 ↔ head = tail := by
  have hh := head.isLt
  have ht := tail.isLt
  unfold count
  rw [Fin.ext_iff]
  split <;> omega

variable [NeZero N]

/-- The slot after `i`. -/
def next (i : Fin N) : Fin N := Fin.ofNat N (i.val + 1)

/-- What is held, oldest first. -/
def contents (slots : Fin N → α) (head tail : Fin N) : List α :=
  (List.range (count head tail)).map fun k => slots (Fin.ofNat N (head.val + k))

theorem next_val (i : Fin N) : (next i).val = if i.val + 1 = N then 0 else i.val + 1 := by
  have hi := i.isLt
  show (i.val + 1) % N = _
  split
  · rw [‹i.val + 1 = N›, Nat.mod_self]
  · exact Nat.mod_eq_of_lt (by omega)

@[simp] theorem length_contents (slots : Fin N → α) (head tail : Fin N) :
    (contents slots head tail).length = count head tail := by
  simp [contents]

theorem contents_eq_nil {slots : Fin N → α} {head tail : Fin N} :
    contents slots head tail = [] ↔ head = tail := by
  rw [← List.length_eq_zero_iff, length_contents, count_eq_zero]

/-- The buffer is full when the tail is just behind the head. -/
theorem count_full {head tail : Fin N} : next tail = head ↔ count head tail + 1 = N := by
  have hh := head.isLt
  have ht := tail.isLt
  have hn := next_val tail
  unfold count
  rw [Fin.ext_iff, hn]
  split <;> split <;> omega

theorem count_push {head tail : Fin N} (h : next tail ≠ head) :
    count head (next tail) = count head tail + 1 := by
  have hh := head.isLt
  have ht := tail.isLt
  have hn := next_val tail
  rw [ne_eq, Fin.ext_iff] at h
  unfold count
  split at hn <;> split <;> split <;> omega

theorem count_pop {head tail : Fin N} (h : head ≠ tail) :
    count head tail = count (next head) tail + 1 := by
  have hh := head.isLt
  have ht := tail.isLt
  have hn := next_val head
  rw [ne_eq, Fin.ext_iff] at h
  unfold count
  split at hn <;> split <;> split <;> omega

/-- The slot at the tail is the first one that is not held. -/
theorem slot_count (head tail : Fin N) : Fin.ofNat N (head.val + count head tail) = tail := by
  have hh := head.isLt
  have ht := tail.isLt
  ext
  show (head.val + count head tail) % N = tail.val
  unfold count
  split
  · rw [Nat.add_sub_cancel' ‹_›, Nat.mod_eq_of_lt ht]
  · rw [show head.val + (tail.val + N - head.val) = tail.val + N by omega, Nat.add_mod_right,
      Nat.mod_eq_of_lt ht]

theorem slot_lt_ne {head tail : Fin N} {k : Nat} (h : k < count head tail) :
    Fin.ofNat N (head.val + k) ≠ tail := by
  have hh := head.isLt
  have ht := tail.isLt
  rw [ne_eq, Fin.ext_iff]
  show ¬(head.val + k) % N = tail.val
  unfold count at h
  by_cases hlt : head.val + k < N
  · rw [Nat.mod_eq_of_lt hlt]
    split at h <;> omega
  · rw [Nat.mod_eq_sub_mod (by omega), Nat.mod_eq_of_lt (by split at h <;> omega)]
    split at h <;> omega

/-- **Pushing appends.** -/
theorem contents_push {slots : Fin N → α} {head tail : Fin N} (x : α) (h : next tail ≠ head) :
    contents (Function.update slots tail x) head (next tail) =
      contents slots head tail ++ [x] := by
  unfold contents
  rw [count_push h, List.range_succ, List.map_append]
  congr 1
  · refine List.map_congr_left fun k hk => ?_
    rw [Function.update_of_ne (slot_lt_ne (List.mem_range.mp hk))]
  · rw [List.map_singleton, slot_count, Function.update_self]

/-- **Moving the head on drops the oldest.** -/
theorem contents_pop {slots : Fin N → α} {head tail : Fin N} (h : head ≠ tail) :
    contents slots head tail = slots head :: contents slots (next head) tail := by
  unfold contents
  rw [count_pop h, List.range_succ_eq_map, List.map_cons, List.map_map]
  congr 1
  · congr 1
    ext
    exact Nat.mod_eq_of_lt head.isLt
  · refine List.map_congr_left fun k _ => ?_
    show slots _ = slots _
    congr 1
    ext
    show (head.val + (k + 1)) % N = ((head.val + 1) % N + k) % N
    rw [Nat.mod_add_mod, Nat.add_assoc, Nat.add_comm 1]

/-! ### Buffers with a count

Where the number of slots held is kept beside the indices, all of them can be held. -/

/-- The slot `k` after `i`. -/
def slot (i : Fin N) (k : Nat) : Fin N := Fin.ofNat N (i.val + k)

/-- The slots from `i` on, so many. -/
def window (slots : Fin N → α) (i : Fin N) (n : Nat) : List α :=
  (List.range n).map fun k => slots (slot i k)

@[simp] theorem length_window (slots : Fin N → α) (i : Fin N) (n : Nat) :
    (window slots i n).length = n := by
  simp [window]

@[simp] theorem slot_zero (i : Fin N) : slot i 0 = i := by
  ext
  exact Nat.mod_eq_of_lt i.isLt

theorem slot_succ (i : Fin N) (k : Nat) : slot i (k + 1) = next (slot i k) := by
  ext
  show (i.val + (k + 1)) % N = ((i.val + k) % N + 1) % N
  rw [Nat.mod_add_mod, Nat.add_assoc]

theorem slot_next (i : Fin N) (k : Nat) : slot (next i) k = slot i (k + 1) := by
  ext
  show ((i.val + 1) % N + k) % N = (i.val + (k + 1)) % N
  rw [Nat.mod_add_mod, Nat.add_assoc, Nat.add_comm 1]

theorem slot_slot (i : Fin N) (k m : Nat) : slot (slot i k) m = slot i (k + m) := by
  ext
  show ((i.val + k) % N + m) % N = (i.val + (k + m)) % N
  rw [Nat.mod_add_mod, Nat.add_assoc]

/-- The slots of a window are different ones. -/
theorem slot_ne {i : Fin N} {k n : Nat} (hkn : k < n) (hn : n < N) : slot i k ≠ slot i n := by
  have hi := i.isLt
  rw [ne_eq, Fin.ext_iff]
  show ¬(i.val + k) % N = (i.val + n) % N
  by_cases hlt : i.val + n < N
  · rw [Nat.mod_eq_of_lt hlt, Nat.mod_eq_of_lt (by omega)]
    omega
  · rw [Nat.mod_eq_sub_mod (show N ≤ i.val + n by omega),
      Nat.mod_eq_of_lt (show i.val + n - N < N by omega)]
    by_cases hlt' : i.val + k < N
    · rw [Nat.mod_eq_of_lt hlt']
      omega
    · rw [Nat.mod_eq_sub_mod (by omega), Nat.mod_eq_of_lt (by omega)]
      omega

/-- All slots are held when the window ends where it begins. -/
theorem slot_eq_iff {i : Fin N} {n : Nat} (hn : n ≤ N) : slot i n = i ↔ n = 0 ∨ n = N := by
  constructor
  · intro h
    by_contra hne
    push Not at hne
    exact slot_ne (i := i) (k := 0) (n := n) (by omega) (by omega) ((slot_zero i).trans h.symm)
  · rintro (rfl | rfl)
    · exact slot_zero i
    · ext
      show (i.val + n) % n = i.val
      rw [Nat.add_mod_right, Nat.mod_eq_of_lt i.isLt]

theorem window_succ (slots : Fin N → α) (i : Fin N) (n : Nat) :
    window slots i (n + 1) = slots i :: window slots (next i) n := by
  unfold window
  rw [List.range_succ_eq_map, List.map_cons, List.map_map, slot_zero]
  simp [Function.comp_def, slot_next]

theorem getElem?_window (slots : Fin N → α) (i : Fin N) {n k : Nat} (hk : k < n) :
    (window slots i n)[k]? = some (slots (slot i k)) := by
  simp [window, hk]

/-- **A window without its first slots** is one further on. -/
theorem drop_window (slots : Fin N → α) (i : Fin N) (n k : Nat) :
    (window slots i n).drop k = window slots (slot i k) (n - k) := by
  refine List.ext_getElem? fun m => ?_
  rw [List.getElem?_drop]
  by_cases hm : k + m < n
  · rw [getElem?_window slots i hm, getElem?_window slots _ (by omega), slot_slot]
  · rw [List.getElem?_eq_none (by simp; omega), List.getElem?_eq_none (by simp; omega)]

/-- **Writing behind a window** that does not hold all slots appends to it. -/
theorem window_write {slots : Fin N → α} {i : Fin N} {n : Nat} (x : α) (hn : n < N) :
    window (Function.update slots (slot i n) x) i (n + 1) = window slots i n ++ [x] := by
  unfold window
  rw [List.range_succ, List.map_append, List.map_singleton, Function.update_self]
  congr 1
  refine List.map_congr_left fun k hk => ?_
  rw [Function.update_of_ne (slot_ne (List.mem_range.mp hk) hn)]

/-! ### Taking one out

An entry in the middle is taken out by moving those behind it forward, around the end. -/

/-- What is held, from the head on, is a window. -/
theorem contents_eq (slots : Fin N → α) (head tail : Fin N) : contents slots head tail =
    Compaction.front (fun k => slots (slot head k)) (count head tail) := rfl

/-- Writing into a slot is writing into an entry of the window. -/
theorem update_slot {slots : Fin N → α} {i : Fin N} {j k : Nat} (hj : j < N) (hk : k < N) (x : α) :
    Function.update slots (slot i j) x (slot i k) =
      Function.update (fun k => slots (slot i k)) j x k := by
  by_cases h : k = j
  · rw [h, Function.update_self, Function.update_self]
  · have hne : slot i k ≠ slot i j := by
      rcases Nat.lt_or_gt_of_ne h with hlt | hlt
      · exact slot_ne hlt hj
      · exact (slot_ne hlt hk).symm
    rw [Function.update_of_ne hne, Function.update_of_ne h]

/-- **The slots behind an entry moved forward, and the tail with them, leave the others.** -/
theorem contents_remove {slots slots' : Fin N → α} {head tail last : Fin N} {i : Nat}
    (hlast : next last = tail) (hne : head ≠ tail) (hi : i < count head tail)
    (hmoved : ∀ k < count head tail, slots' (slot head k) =
      Compaction.pull (fun k => slots (slot head k)) i (count head tail) k) :
    contents slots' head last = (contents slots head tail).eraseIdx i := by
  have hcount : count head tail = count head last + 1 := by
    rw [← hlast] at hne ⊢
    exact count_push hne.symm
  rw [contents_eq, contents_eq, hcount, ← Compaction.front_pull (by omega)]
  refine Compaction.front_congr fun k hk => ?_
  rw [hmoved k (by omega), Compaction.pull, Compaction.pull]
  by_cases hik : i ≤ k
  · rw [if_pos ⟨hik, by omega⟩, if_pos ⟨hik, hk⟩]
  · rw [if_neg fun h => hik h.1, if_neg fun h => hik h.1]

end RingBuffer
