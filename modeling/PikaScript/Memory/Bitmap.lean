import Mathlib.Data.BitVec
import Mathlib.Data.List.Basic
import Mathlib.Tactic.Common

/-! The bitmap of `dataMemory.c`: one bit a block, eight blocks a byte. -/

namespace PikaScript

abbrev Bitmap := List (BitVec 8)

namespace Bitmap

/-- `bitmap_init`: `(size - 1) / 8 + 1` zero bytes, with the subtraction of a
`uint32_t`: a bitmap of no bits asks for 2^29 bytes. -/
def init (size : Nat) : Bitmap :=
  List.replicate ((size + 2 ^ 32 - 1) % 2 ^ 32 / 8 + 1) 0

/-- `bitmap_getByte`. -/
def getByte (bitmap : Bitmap) (index : Nat) : BitVec 8 :=
  bitmap.getD (index / 8) 0

/-- `bitmap_get`, `true` for 1. -/
def get (bitmap : Bitmap) (index : Nat) : Bool :=
  bitmap.getByte index &&& (1#8 <<< (index % 8)) != 0

/-- `bitmap_set`. -/
def set (bitmap : Bitmap) (index : Nat) (bit : Bool) : Bitmap :=
  if bit then bitmap.modify (index / 8) (· ||| (1#8 <<< (index % 8)))
  else bitmap.modify (index / 8) (· &&& ~~~(1#8 <<< (index % 8)))

/-- A block the bitmap has room for. -/
def Has (bitmap : Bitmap) (index : Nat) : Prop := index / 8 < bitmap.length

private theorem and_bit_ne_zero (byte : BitVec 8) (k : Fin 8) :
    (byte &&& (1#8 <<< k.val) != 0) = byte.getLsbD k.val := by
  revert byte k
  decide +kernel

theorem get_eq (bitmap : Bitmap) (index : Nat) :
    bitmap.get index = (bitmap.getByte index).getLsbD (index % 8) :=
  and_bit_ne_zero _ ⟨index % 8, Nat.mod_lt _ (by decide)⟩

@[simp] theorem length_set (bitmap : Bitmap) (index : Nat) (bit : Bool) :
    (bitmap.set index bit).length = bitmap.length := by
  unfold set
  split <;> exact List.length_modify ..

private theorem bit_getLsbD (k j : Fin 8) :
    (1#8 <<< k.val).getLsbD j.val = decide (j = k) := by
  revert k j
  decide

private theorem or_bit (byte : BitVec 8) (k j : Fin 8) :
    (byte ||| (1#8 <<< k.val)).getLsbD j.val = if j = k then true else byte.getLsbD j.val := by
  rw [BitVec.getLsbD_or, bit_getLsbD]
  by_cases h : j = k <;> simp [h]

private theorem and_not_bit (byte : BitVec 8) (k j : Fin 8) :
    (byte &&& ~~~(1#8 <<< k.val)).getLsbD j.val =
      if j = k then false else byte.getLsbD j.val := by
  rw [BitVec.getLsbD_and, BitVec.getLsbD_not, bit_getLsbD]
  by_cases h : j = k <;> simp [h]

/-- Setting a block the bitmap has room for sets that block and no other. -/
theorem get_set {bitmap : Bitmap} {index : Nat} (bit : Bool) (h : bitmap.Has index) (j : Nat) :
    (bitmap.set index bit).get j = if j = index then bit else bitmap.get j := by
  have hk : index % 8 < 8 := Nat.mod_lt _ (by decide)
  have hj : j % 8 < 8 := Nat.mod_lt _ (by decide)
  have hor := or_bit (bitmap.getByte j) ⟨_, hk⟩ ⟨_, hj⟩
  have hand := and_not_bit (bitmap.getByte j) ⟨_, hk⟩ ⟨_, hj⟩
  simp only [Fin.mk.injEq] at hor hand
  have hbyte (f : BitVec 8 → BitVec 8) : getByte (bitmap.modify (index / 8) f) j =
      if j / 8 = index / 8 then f (bitmap.getByte j) else bitmap.getByte j := by
    simp only [getByte, List.getD_eq_getElem?_getD, List.getElem?_modify]
    by_cases he : j / 8 = index / 8
    · have hlt : j / 8 < bitmap.length := he ▸ h
      simp [he, List.getElem?_eq_getElem (he ▸ hlt)]
    · simp [he, Ne.symm he]
  -- the block is the same one exactly when both its byte and its bit are
  have hsame : j = index ↔ j / 8 = index / 8 ∧ j % 8 = index % 8 := by omega
  rw [get_eq, get_eq]
  unfold set
  cases bit
  · rw [if_neg (by decide), hbyte]
    split
    · rw [hand]
      simp_all
    · simp_all
  · rw [if_pos rfl, hbyte]
    split
    · rw [hor]
      simp_all
    · simp_all

/-- The loops that mark the blocks of an allocation. -/
def fill (bitmap : Bitmap) (indices : List Nat) (bit : Bool) : Bitmap :=
  indices.foldl (fun b i => b.set i bit) bitmap

@[simp] theorem length_fill (bitmap : Bitmap) (indices : List Nat) (bit : Bool) :
    (bitmap.fill indices bit).length = bitmap.length := by
  induction indices generalizing bitmap with
  | nil => rfl
  | cons i rest ih => exact (ih _).trans (length_set ..)

theorem get_fill {bitmap : Bitmap} {indices : List Nat} (bit : Bool)
    (h : ∀ i ∈ indices, bitmap.Has i) (j : Nat) :
    (bitmap.fill indices bit).get j = if j ∈ indices then bit else bitmap.get j := by
  induction indices generalizing bitmap with
  | nil => simp [fill]
  | cons i rest ih =>
    have hrest : ∀ k ∈ rest, (bitmap.set i bit).Has k := fun k hk => by
      unfold Has
      rw [length_set]
      exact h k (List.mem_cons_of_mem _ hk)
    have hstep : (bitmap.fill (i :: rest) bit) = (bitmap.set i bit).fill rest bit := rfl
    rw [hstep, ih hrest, get_set bit (h i List.mem_cons_self)]
    by_cases hj : j = i <;> by_cases hr : j ∈ rest <;> simp [hj, hr]

/-- A byte of ones is eight used blocks. -/
theorem get_of_getByte_full {bitmap : Bitmap} {index j : Nat} (h : bitmap.getByte index = 0xFF)
    (hj : j / 8 = index / 8) : bitmap.get j = true := by
  have hbyte : bitmap.getByte j = 0xFF := by
    unfold getByte at h ⊢
    rw [hj, h]
  have hall : ∀ k : Fin 8, (0xFF : BitVec 8).getLsbD k.val = true := by decide
  rw [get_eq, hbyte]
  exact hall ⟨j % 8, Nat.mod_lt _ (by decide)⟩

theorem get_init (size j : Nat) : (init size).get j = false := by
  rw [get_eq]
  unfold getByte init
  rw [List.getD_eq_getElem?_getD, List.getElem?_replicate]
  split <;> exact BitVec.getLsbD_zero

theorem has_init {size j : Nat} (hsize : size < 2 ^ 32) (hj : j < size) : (init size).Has j := by
  unfold Has init
  rw [List.length_replicate]
  omega

end Bitmap

end PikaScript
