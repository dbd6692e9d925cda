import Mathlib.Algebra.BigOperators.Group.List.Basic
import Mathlib.Algebra.Order.Ring.Nat
import Mathlib.Data.List.Flatten
import Mathlib.Tactic.Common

/-! A stretch of memory read and written by offset.

Every access is checked: one that leaves the stretch gives none. What is read
back is settled by the place alone, so a store changes nothing outside its own
bytes and a stretch laid out from pieces holds each piece at its offset. -/
namespace Memory

/-- The first multiple of `align` from `size` on. -/
def alignBy (size align : Nat) : Nat := if size = 0 then 0 else ((size - 1) / align + 1) * align

/-- The bytes of a 32-bit word, low byte first. -/
def word32 (value : Nat) : List (BitVec 8) :=
  [BitVec.ofNat 8 value, BitVec.ofNat 8 (value / 2 ^ 8), BitVec.ofNat 8 (value / 2 ^ 16),
    BitVec.ofNat 8 (value / 2 ^ 24)]

variable (mem : List (BitVec 8)) (off : Nat)

/-- `bytes` copied to `off`. -/
def store (bytes : List (BitVec 8)) : Option (List (BitVec 8)) :=
  if off + bytes.length ≤ mem.length then
    some (mem.take off ++ bytes ++ mem.drop (off + bytes.length))
  else none

/-- The 32-bit word at `off`. -/
def load32 : Option Nat := do
  let b₀ ← mem[off]?
  let b₁ ← mem[off + 1]?
  let b₂ ← mem[off + 2]?
  let b₃ ← mem[off + 3]?
  some (b₀.toNat + 2 ^ 8 * b₁.toNat + 2 ^ 16 * b₂.toNat + 2 ^ 24 * b₃.toNat)

/-- The `size` bytes at `off`. -/
def loadBytes (size : Nat) : Option (List (BitVec 8)) :=
  if off + size ≤ mem.length then some ((mem.drop off).take size) else none

/-- The bytes in front of the first zero. -/
def untilZero : List (BitVec 8) → Option (List (BitVec 8))
  | [] => none
  | c :: l => if c = 0 then some [] else (untilZero l).map (c :: ·)

/-- The zero-ended string at `off`. -/
def loadString : Option (List (BitVec 8)) := untilZero (mem.drop off)

variable {mem off} {mem' bytes tail : List (BitVec 8)}

/-! ### Sizes -/

theorem le_alignBy (size : Nat) {align : Nat} (h : 0 < align) : size ≤ alignBy size align := by
  unfold alignBy
  split
  · omega
  · have := Nat.lt_div_mul_add (a := size - 1) h
    rw [Nat.add_mul]
    omega

theorem alignBy_four_le (size : Nat) : alignBy size 4 ≤ size + 3 := by
  unfold alignBy
  split <;> omega

@[simp] theorem length_word32 (value : Nat) : (word32 value).length = 4 := rfl

/-! ### Stores -/

theorem store_of_le (h : off + bytes.length ≤ mem.length) :
    store mem off bytes = some (mem.take off ++ bytes ++ mem.drop (off + bytes.length)) :=
  if_pos h

theorem length_store (h : store mem off bytes = some mem') : mem'.length = mem.length := by
  unfold store at h
  split at h
  · cases h
    simp only [List.length_append, List.length_take, List.length_drop]
    omega
  · cases h

theorem exists_store (mem : List (BitVec 8)) (off : Nat) (bytes : List (BitVec 8))
    (h : off + bytes.length ≤ mem.length) :
    ∃ mem', store mem off bytes = some mem' ∧ mem'.length = mem.length :=
  ⟨_, store_of_le h, length_store (store_of_le h)⟩

/-- A store right behind what is kept. -/
theorem store_append (kept : List (BitVec 8)) (h : bytes.length ≤ tail.length) :
    store (kept ++ tail) kept.length bytes = some (kept ++ bytes ++ tail.drop bytes.length) := by
  rw [store_of_le (by rw [List.length_append]; omega), List.take_left', List.drop_append]
  · simp
  · rfl

/-- **A store is read where it was made.** -/
theorem getElem?_store_self (h : store mem off bytes = some mem') {i : Nat}
    (hi : i < bytes.length) : mem'[off + i]? = bytes[i]? := by
  unfold store at h
  split at h
  · cases h
    have htake : (mem.take off).length = off := by
      rw [List.length_take]
      omega
    rw [List.append_assoc, List.getElem?_append_right (by omega), htake, Nat.add_sub_cancel_left,
      List.getElem?_append_left hi]
  · cases h

/-- **A store is read nowhere else.** -/
theorem getElem?_store_of_ne (h : store mem off bytes = some mem') {i : Nat}
    (hi : i < off ∨ off + bytes.length ≤ i) : mem'[i]? = mem[i]? := by
  unfold store at h
  split at h
  · cases h
    have htake : (mem.take off).length = off := by
      rw [List.length_take]
      omega
    rcases hi with hi | hi
    · rw [List.append_assoc, List.getElem?_append_left (by omega), List.getElem?_take_of_lt hi]
    · rw [List.getElem?_append_right (by simp only [List.length_append]; omega),
        List.getElem?_drop]
      congr 1
      simp only [List.length_append]
      omega
  · cases h

/-! ### Words -/

theorem load32_word32 {value : Nat} (h : value < 2 ^ 32)
    (hmem : ∀ i < 4, mem[off + i]? = (word32 value)[i]?) : load32 mem off = some value := by
  have h₀ := hmem 0 (by decide)
  have h₁ := hmem 1 (by decide)
  have h₂ := hmem 2 (by decide)
  have h₃ := hmem 3 (by decide)
  simp only [word32, Nat.add_zero, List.getElem?_cons_zero, List.getElem?_cons_succ] at h₀ h₁ h₂ h₃
  simp only [load32, h₀, h₁, h₂, h₃, Option.bind_eq_bind, Option.bind_some, BitVec.toNat_ofNat,
    Option.some.injEq]
  omega

theorem load32_congr {mem' : List (BitVec 8)} {off' : Nat}
    (h : ∀ i < 4, mem'[off' + i]? = mem[off + i]?) : load32 mem' off' = load32 mem off := by
  have h₀ := h 0 (by decide)
  have h₁ := h 1 (by decide)
  have h₂ := h 2 (by decide)
  have h₃ := h 3 (by decide)
  rw [Nat.add_zero, Nat.add_zero] at h₀
  simp only [load32, h₀, h₁, h₂, h₃]

theorem load32_store_self {value : Nat} (hv : value < 2 ^ 32)
    (h : store mem off (word32 value) = some mem') : load32 mem' off = some value :=
  load32_word32 hv fun _ hi => getElem?_store_self h hi

theorem load32_store_of_ne {off' : Nat} (h : store mem off bytes = some mem')
    (hoff : off' + 4 ≤ off ∨ off + bytes.length ≤ off') : load32 mem' off' = load32 mem off' := by
  apply load32_congr
  intro i hi
  exact getElem?_store_of_ne h (by omega)

/-! ### Layout -/

theorem load32_drop (n : Nat) : load32 (mem.drop n) off = load32 mem (n + off) := by
  apply load32_congr
  intro i _
  rw [List.getElem?_drop, Nat.add_assoc]

theorem load32_append (h : off + 4 ≤ mem.length) : load32 (mem ++ tail) off = load32 mem off := by
  apply load32_congr
  intro i hi
  exact List.getElem?_append_left (by omega)

/-- A word in the part of the memory that is laid out from `n` on. -/
theorem load32_of_drop {n : Nat} (h : mem.drop n = bytes ++ tail) (hoff : off + 4 ≤ bytes.length) :
    load32 mem (n + off) = load32 bytes off := by
  rw [← load32_drop, h, load32_append hoff]

/-- A word where it has been laid out. -/
theorem load32_of_drop_word32 {value : Nat} (hv : value < 2 ^ 32)
    (h : mem.drop off = word32 value ++ tail) : load32 mem off = some value := by
  rw [← Nat.add_zero off, load32_of_drop h (by rw [length_word32])]
  exact load32_word32 hv fun i _ => by rw [Nat.zero_add]

theorem loadBytes_eq_some (hoff : off + bytes.length ≤ mem.length)
    (h : ∀ i < bytes.length, mem[off + i]? = bytes[i]?) :
    loadBytes mem off bytes.length = some bytes := by
  rw [loadBytes, if_pos hoff, Option.some.injEq]
  apply List.ext_getElem?
  intro i
  by_cases hi : i < bytes.length
  · rw [List.getElem?_take_of_lt hi, List.getElem?_drop, h i hi]
  · rw [List.getElem?_eq_none (by rw [List.length_take]; omega), List.getElem?_eq_none (by omega)]

theorem loadBytes_append {size : Nat} (h : loadBytes mem off size = some bytes) :
    loadBytes (mem ++ tail) off size = some bytes := by
  unfold loadBytes at h
  split at h
  · cases h
    rw [loadBytes, if_pos (by rw [List.length_append]; omega),
      List.drop_append_of_le_length (by omega),
      List.take_append_of_le_length (by rw [List.length_drop]; omega)]
  · cases h

theorem loadBytes_of_drop (hoff : off ≤ mem.length) (h : mem.drop off = bytes ++ tail) :
    loadBytes mem off bytes.length = some bytes := by
  have hlen := congrArg List.length h
  rw [List.length_drop, List.length_append] at hlen
  rw [loadBytes, if_pos (by omega), h, List.take_left]

/-- **A zero-ended string is read up to its zero.** -/
theorem untilZero_append (h : 0 ∉ bytes) : untilZero (bytes ++ 0 :: tail) = some bytes := by
  induction bytes with
  | nil => rfl
  | cons c bytes ih =>
    rw [List.mem_cons, not_or] at h
    obtain ⟨hc, hbytes⟩ := h
    rw [List.cons_append, untilZero, if_neg (Ne.symm hc), ih hbytes]
    rfl

/-- What is read to the first zero is all that is in front of it. -/
theorem untilZero_eq_some (h : untilZero mem = some bytes) :
    0 ∉ bytes ∧ ∃ tail, mem = bytes ++ 0 :: tail := by
  induction mem generalizing bytes with
  | nil => cases h
  | cons c mem ih =>
    rw [untilZero] at h
    split at h
    · rename_i hc
      cases h
      exact ⟨List.not_mem_nil, mem, congrArg (· :: mem) hc⟩
    · rename_i hc
      obtain ⟨bytes, hbytes, rfl⟩ := Option.map_eq_some_iff.mp h
      obtain ⟨hzero, tail, rfl⟩ := ih hbytes
      exact ⟨fun hmem => (List.mem_cons.mp hmem).elim (Ne.symm hc) hzero, tail, rfl⟩

theorem loadString_of_drop (h : mem.drop off = bytes ++ 0 :: tail) (hz : 0 ∉ bytes) :
    loadString mem off = some bytes := by
  rw [loadString, h, untilZero_append hz]

/-- **The pieces of a layout stand one behind the other.** -/
theorem drop_flatten_of_getElem {pieces : List (List (BitVec 8))} {i : Nat}
    (h : i < pieces.length) :
    pieces.flatten.drop ((pieces.map List.length).take i).sum =
      pieces[i] ++ (pieces.drop (i + 1)).flatten := by
  rw [List.drop_sum_flatten, List.drop_eq_getElem_cons h, List.flatten_cons]

end Memory
