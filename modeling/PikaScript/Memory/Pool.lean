import Mathlib.Algebra.Order.Floor.Div
import Mathlib.Data.Set.Lattice
import PikaScript.Lib.Machine
import PikaScript.Lib.Word
import PikaScript.Memory.Bitmap

/-! The block pool of `dataMemory.c`.

`pool_malloc` first tries the blocks from `purlFreeBlockStart` on, which it
takes to be free without looking, and only then searches the bitmap from
`firstFreeBlock` up. Both are hints that malloc and free keep up separately.
The state below is the pool together with the allocations a caller holds, and
`Inv` says what the hints promise about the bitmap. -/
namespace PikaScript

structure Pool where
  bitmap : Bitmap
  /-- The address of the first block. -/
  mem : Nat
  aline : Nat
  size : Nat
  firstFreeBlock : Nat
  purlFreeBlockStart : Nat
deriving DecidableEq, Repr

namespace Pool

/-! ### The code -/

/-- `pool_getBlockIndex_byMemSize`: the blocks that hold `size` bytes. -/
def blockIndexByMemSize (aline size : Nat) : Nat :=
  if size = 0 then 0 else (size - 1) / aline + 1

/-- `pool_aline`. -/
def alineSize (aline size : Nat) : Nat :=
  u32 (blockIndexByMemSize aline size * aline)

/-- `pool_init`, given the address `mem` the platform's allocator returns. -/
def init (mem size aline : Nat) : Pool where
  bitmap := Bitmap.init (blockIndexByMemSize aline size)
  mem := mem
  aline := aline
  size := alineSize aline size
  firstFreeBlock := 0
  purlFreeBlockStart := 0

variable (pool : Pool)

/-- `pool_getBytes_byBlockIndex`. -/
def bytesByBlockIndex (blockIndex : Nat) : Nat :=
  pool.mem + u32 (blockIndex * pool.aline)

/-- `pool_getBlockIndex_byMem`. -/
def blockIndexByMem (mem : Nat) : Nat :=
  blockIndexByMemSize pool.aline (u32 (mem - pool.mem))

/-- `block_index_max` of `pool_malloc`. -/
def blockIndexMax : Nat := blockIndexByMemSize pool.aline pool.size

/-- The low speed loop of `pool_malloc`: `i` is `block_index`, `found` is
`block_num_found`, and `first` is the first free block once there is one. It
returns the last block of the run it found. The loop only moves up to
`purl_free_block_start`, so that many turns of fuel are enough. -/
def search (bitmap : Bitmap) (need purl : Nat) : Nat → Nat → Nat → Option Nat →
    Option Nat × Option Nat
  | 0, _, _, first => (none, first)
  | fuel + 1, i, found, first =>
    if purl ≤ i then (none, first)
    else if bitmap.getByte i = 0xFF then
      search bitmap need purl fuel (8 * (i / 8) + 7 + 1) 0 first
    else
      let free := !bitmap.get i
      let first := if free && first.isNone then some i else first
      let found := if free then found + 1 else 0
      if need ≤ found then (some i, first) else search bitmap need purl fuel (i + 1) found first

/-- The end of `pool_malloc`, from its label `found`. -/
def found (need blockIndex : Nat) : Option Nat × Pool :=
  let pool := { pool with
    bitmap := pool.bitmap.fill ((List.range need).map (blockIndex - ·)) true
    purlFreeBlockStart :=
      if pool.purlFreeBlockStart ≤ blockIndex then blockIndex + 1 else pool.purlFreeBlockStart }
  (some (pool.bytesByBlockIndex (u32 (sub32 blockIndex need + 1))), pool)

/-- `pool_malloc`. -/
def malloc (size : Nat) : Option Nat × Pool :=
  let need := blockIndexByMemSize pool.aline size
  -- high speed malloc
  let purlIndex := sub32 (u32 (pool.purlFreeBlockStart + need)) 1
  if purlIndex < pool.blockIndexMax then pool.found need purlIndex
  else
    let (hit, first) := search pool.bitmap need pool.purlFreeBlockStart
      (pool.purlFreeBlockStart - pool.firstFreeBlock) pool.firstFreeBlock 0 none
    let pool := { pool with firstFreeBlock := first.getD pool.firstFreeBlock }
    match hit with
    | some blockIndex => pool.found need blockIndex
    | none =>
      -- malloc for purl free blocks
      if purlIndex < pool.blockIndexMax then pool.found need purlIndex else (none, pool)

/-- The loop of `pool_free` that goes back to the first used block. -/
def backToUsed (bitmap : Bitmap) : Nat → Nat
  | 0 => 0
  | n + 1 => if bitmap.get n = false then backToUsed bitmap n else n + 1

/-- `pool_free`. -/
def free (mem size : Nat) : Pool :=
  let blockNum := blockIndexByMemSize pool.aline size
  let blockIndex := pool.blockIndexByMem mem
  let bitmap := pool.bitmap.fill ((List.range blockNum).map (blockIndex + ·)) false
  let blockEnd := sub32 (u32 (blockIndex + blockNum)) 1
  { pool with
    bitmap := bitmap
    firstFreeBlock := if blockIndex < pool.firstFreeBlock then blockIndex else pool.firstFreeBlock
    purlFreeBlockStart :=
      if blockEnd = sub32 pool.purlFreeBlockStart 1 then backToUsed bitmap blockIndex
      else pool.purlFreeBlockStart }

/-! ### The search -/

/-- `len` blocks from `start` on are free. -/
def FreeRun (bitmap : Bitmap) (start len : Nat) : Prop :=
  ∀ j, start ≤ j → j < start + len → bitmap.get j = false

theorem FreeRun.mono {bitmap : Bitmap} {start len start' len' : Nat}
    (h : FreeRun bitmap start len) (hstart : start ≤ start') (hend : start' + len' ≤ start + len) :
    FreeRun bitmap start' len' :=
  fun j h₁ h₂ => h j (hstart.trans h₁) (h₂.trans_le hend)

/-- What the loop knows when it looks at block `i`: the free run that ends just
below `i` is `found` long, no run of `need` blocks ends below `i`, and `first` is
the first free block there is below `i`. -/
structure Scanned (bitmap : Bitmap) (need i found : Nat) (first : Option Nat) : Prop where
  found_le : found ≤ i
  found_lt : found < need
  run : FreeRun bitmap (i - found) found
  longest : ∀ start ≤ i, FreeRun bitmap start (i - start) → i - start ≤ found
  none_before : ∀ start, start + need ≤ i → ¬FreeRun bitmap start need
  first_none : first = none → ∀ j < i, bitmap.get j = true
  first_some : ∀ k, first = some k → k < i ∧ ∀ j < k, bitmap.get j = true

section Search
variable {bitmap : Bitmap} {need i found : Nat} {first : Option Nat}

/-- The search starts above used blocks only. -/
theorem scanned_start (hneed : 0 < need) (hused : ∀ j < i, bitmap.get j = true) :
    Scanned bitmap need i 0 none where
  found_le := Nat.zero_le _
  found_lt := hneed
  run := fun j h₁ h₂ => absurd h₂ (by omega)
  longest start hstart hrun := by
    by_contra hlt
    have hfree := hrun start le_rfl (by omega)
    rw [hused start (by omega)] at hfree
    exact absurd hfree (by decide)
  none_before start hstart hrun := by
    have hfree := hrun start le_rfl (by omega)
    rw [hused start (by omega)] at hfree
    exact absurd hfree (by decide)
  first_none _ := hused
  first_some k hk := by cases hk

/-- A stretch of used blocks starts the count again. -/
theorem Scanned.skip (h : Scanned bitmap need i found first) {i' : Nat} (hi : i < i')
    (hused : ∀ j, i ≤ j → j < i' → bitmap.get j = true) :
    Scanned bitmap need i' 0 first where
  found_le := Nat.zero_le _
  found_lt := (Nat.zero_le _).trans_lt h.found_lt
  run := fun j h₁ h₂ => absurd h₂ (by omega)
  longest start hstart hrun := by
    by_contra hlt
    have hfree := hrun (i' - 1) (by omega) (by omega)
    rw [hused (i' - 1) (by omega) (by omega)] at hfree
    exact absurd hfree (by decide)
  none_before start hstart hrun := by
    by_cases hle : start + need ≤ i
    · exact h.none_before start hle hrun
    · have hlt := h.found_lt
      have hfree := hrun (start + need - 1) (by omega) (by omega)
      rw [hused _ (by omega) (by omega)] at hfree
      exact absurd hfree (by decide)
  first_none hn j hj := by
    by_cases hji : j < i
    · exact h.first_none hn j hji
    · exact hused j (by omega) hj
  first_some k hk := by
    obtain ⟨hki, hbelow⟩ := h.first_some k hk
    exact ⟨hki.trans hi, hbelow⟩

/-- The free run grows by a free block. -/
theorem Scanned.run_succ (h : Scanned bitmap need i found first) (hfree : bitmap.get i = false) :
    FreeRun bitmap (i + 1 - (found + 1)) (found + 1) := fun j h₁ h₂ => by
  have hle := h.found_le
  by_cases hj : j = i
  · exact hj ▸ hfree
  · exact h.run j (by omega) (by omega)

/-- A free block is the first one, or there was one below. -/
theorem Scanned.first_free (h : Scanned bitmap need i found first) :
    ∃ k, (if first.isNone then some i else first) = some k ∧ k ≤ i ∧
      ∀ j < k, bitmap.get j = true := by
  cases hf : first with
  | none => exact ⟨i, rfl, le_rfl, h.first_none hf⟩
  | some k =>
    obtain ⟨hki, hbelow⟩ := h.first_some k hf
    exact ⟨k, rfl, hki.le, hbelow⟩

/-- A free block that does not complete a run is counted. -/
theorem Scanned.free (h : Scanned bitmap need i found first) (hfree : bitmap.get i = false)
    (hlt : found + 1 < need) :
    Scanned bitmap need (i + 1) (found + 1) (if first.isNone then some i else first) where
  found_le := Nat.succ_le_succ h.found_le
  found_lt := hlt
  run := h.run_succ hfree
  longest start hstart hrun := by
    by_cases hs : start ≤ i
    · have := h.longest start hs (hrun.mono le_rfl (by omega))
      omega
    · omega
  none_before start hstart hrun := by
    by_cases hle : start + need ≤ i
    · exact h.none_before start hle hrun
    · have := h.longest start (by omega) (hrun.mono le_rfl (by omega))
      omega
  first_none hn := by
    obtain ⟨k, hk, -⟩ := h.first_free
    rw [hk] at hn
    cases hn
  first_some k hk := by
    obtain ⟨k', hk', hle, hbelow⟩ := h.first_free
    rw [hk] at hk'
    cases hk'
    exact ⟨Nat.lt_succ_of_le hle, hbelow⟩

/-- What the search returns: a run of free blocks if there is one below `purl`,
and a first free block with only used ones below it. -/
structure Searched (bitmap : Bitmap) (need purl : Nat) (r : Option Nat × Option Nat) : Prop where
  hit : ∀ last, r.1 = some last →
    last < purl ∧ need ≤ last + 1 ∧ FreeRun bitmap (last + 1 - need) need
  miss : r.1 = none → ∀ start, start + need ≤ purl → ¬FreeRun bitmap start need
  first : ∀ k, r.2 = some k → ∀ j < k, bitmap.get j = true

/-- The loop ends at `purl` without a run. -/
theorem Scanned.miss {purl : Nat} (h : Scanned bitmap need i found first) (hi : purl ≤ i) :
    Searched bitmap need purl (none, first) where
  hit last hl := by cases hl
  miss _ start hstart := h.none_before start (hstart.trans hi)
  first k hk := (h.first_some k hk).2

/-- The loop ends at a block that completes a run. -/
theorem Scanned.hit {purl : Nat} (h : Scanned bitmap need i found first) (hi : i < purl)
    (hfree : bitmap.get i = false) (hneed : need ≤ found + 1) :
    Searched bitmap need purl (some i, if first.isNone then some i else first) where
  hit last hl := by
    cases hl
    have hle := h.found_le
    exact ⟨hi, by omega, (h.run_succ hfree).mono (by omega) (by omega)⟩
  miss hn := by cases hn
  first k hk := by
    obtain ⟨k', hk', -, hbelow⟩ := h.first_free
    cases hk'.symm.trans hk
    exact hbelow

theorem search_spec {purl fuel : Nat} (h : Scanned bitmap need i found first)
    (hfuel : purl ≤ i + fuel) :
    Searched bitmap need purl (search bitmap need purl fuel i found first) := by
  induction fuel generalizing i found first with
  | zero => exact h.miss hfuel
  | succ fuel ih =>
    unfold search
    split
    · exact h.miss ‹_›
    · have hi : i < purl := Nat.lt_of_not_le ‹_›
      split
      · -- a full byte: on to the next one
        refine ih (h.skip (by omega) fun j hj hj' => ?_) (by omega)
        exact Bitmap.get_of_getByte_full ‹_› (by omega)
      · have hpos : 0 < need := (Nat.zero_le _).trans_lt h.found_lt
        cases hbit : bitmap.get i with
        | false =>
          simp only [Bool.not_false, Bool.true_and, if_true]
          split
          · exact h.hit hi hbit ‹_›
          · exact ih (h.free hbit (Nat.lt_of_not_le ‹_›)) (by omega)
        | true =>
          simp only [Bool.not_true, Bool.false_and, Bool.false_eq_true, if_false]
          rw [if_neg (Nat.not_le.mpr hpos)]
          refine ih (h.skip (Nat.lt_succ_self i) fun j hj hj' => ?_) (by omega)
          rw [show j = i by omega, hbit]

end Search

/-- Going back stops just above a used block, or at block 0. -/
theorem backToUsed_spec (bitmap : Bitmap) (n : Nat) :
    backToUsed bitmap n ≤ n ∧
      (∀ j, backToUsed bitmap n ≤ j → j < n → bitmap.get j = false) ∧
      (backToUsed bitmap n = 0 ∨ bitmap.get (backToUsed bitmap n - 1) = true) := by
  induction n with
  | zero => exact ⟨le_rfl, fun j _ h => absurd h (by omega), .inl rfl⟩
  | succ n ih =>
    obtain ⟨hle, hfree, hused⟩ := ih
    unfold backToUsed
    split
    · refine ⟨hle.trans (Nat.le_succ n), fun j h₁ h₂ => ?_, hused⟩
      by_cases hj : j = n
      · exact hj ▸ ‹_›
      · exact hfree j h₁ (by omega)
    · refine ⟨le_rfl, fun j h₁ h₂ => absurd h₂ (by omega), .inr ?_⟩
      rw [Nat.add_sub_cancel, ← Bool.not_eq_false]
      exact ‹_›

/-! ### The hints -/

/-- What the two hints promise about the bitmap, and the sizes that keep the
code's 32-bit arithmetic exact. -/
structure Hints (pool : Pool) : Prop where
  two_le_aline : 2 ≤ pool.aline
  aline_lt : pool.aline < 2 ^ 8
  bytes_lt : pool.blockIndexMax * pool.aline < 2 ^ 32
  has : ∀ j < pool.blockIndexMax, pool.bitmap.Has j
  used_below : ∀ j < pool.firstFreeBlock, pool.bitmap.get j = true
  free_above : ∀ j, pool.purlFreeBlockStart ≤ j → pool.bitmap.get j = false
  purl_le : pool.purlFreeBlockStart ≤ pool.blockIndexMax
  purl_used : pool.purlFreeBlockStart = 0 ∨
    pool.bitmap.get (pool.purlFreeBlockStart - 1) = true

/-- The blocks of `size` bytes are `size / aline` rounded up. -/
theorem blockIndexByMemSize_eq {aline : Nat} (h : 0 < aline) (size : Nat) :
    blockIndexByMemSize aline size = size ⌈/⌉ aline := by
  rw [Nat.ceilDiv_eq_add_pred_div]
  unfold blockIndexByMemSize
  split
  · simp [*, Nat.div_eq_of_lt (Nat.sub_lt h Nat.one_pos)]
  · rw [← Nat.add_div_right _ h]
    congr 1
    omega

theorem blockIndexByMemSize_pos {aline size : Nat} (h : 0 < size) :
    0 < blockIndexByMemSize aline size := by
  rw [blockIndexByMemSize, if_neg h.ne']
  exact Nat.succ_pos _

/-- With blocks of two bytes or more, a block count leaves the sign bit clear. -/
theorem blockIndexByMemSize_le {aline size : Nat} (h : 2 ≤ aline) (hsize : size < 2 ^ 32) :
    blockIndexByMemSize aline size ≤ 2 ^ 31 := by
  unfold blockIndexByMemSize
  split
  · exact Nat.zero_le _
  · have : (size - 1) / aline ≤ (size - 1) / 2 := Nat.div_le_div_left h (by decide)
    omega

theorem blockIndexByMemSize_mul {aline n : Nat} (h : 0 < aline) :
    blockIndexByMemSize aline (n * aline) = n := by
  rw [blockIndexByMemSize_eq h]
  exact Nat.mul_comm n aline ▸ smul_ceilDiv (α := Nat) (a := aline) h n

theorem Hints.aline_pos {pool : Pool} (h : pool.Hints) : 0 < pool.aline :=
  two_pos.trans_le h.two_le_aline

/-- The pool has at most 2^31 blocks. -/
theorem Hints.blockIndexMax_le {pool : Pool} (h : pool.Hints) :
    pool.blockIndexMax ≤ 2 ^ 31 := by
  have h₁ := h.bytes_lt
  have h₂ : pool.blockIndexMax * 2 ≤ pool.blockIndexMax * pool.aline :=
    Nat.mul_le_mul_left _ h.two_le_aline
  omega

theorem Hints.block_lt {pool : Pool} (h : pool.Hints) {block : Nat}
    (hb : block < pool.blockIndexMax) : block * pool.aline < 2 ^ 32 :=
  (Nat.mul_le_mul_right _ hb.le).trans_lt h.bytes_lt

/-- A block's address and its index determine each other. -/
theorem Hints.blockIndexByMem_eq {pool : Pool} (h : pool.Hints) {block : Nat}
    (hb : block < pool.blockIndexMax) :
    pool.blockIndexByMem (pool.mem + block * pool.aline) = block := by
  unfold blockIndexByMem
  rw [Nat.add_sub_cancel_left, u32_of_lt (h.block_lt hb), blockIndexByMemSize_mul h.aline_pos]

theorem Hints.init {mem size aline : Nat} (hsize : size < 2 ^ 32) (ha : 2 ≤ aline)
    (haline : aline < 2 ^ 8) : (init mem size aline).Hints := by
  have hpos : 0 < aline := two_pos.trans_le ha
  set blocks := blockIndexByMemSize aline size with hblocks
  have hblocks_le : blocks ≤ 2 ^ 31 := blockIndexByMemSize_le ha hsize
  have hmax : (Pool.init mem size aline).blockIndexMax =
    blockIndexByMemSize aline (u32 (blocks * aline)) := rfl
  have hbytes : blocks * aline < 2 ^ 32 + aline := by
    rw [hblocks]
    unfold blockIndexByMemSize
    split
    · omega
    · have := Nat.div_mul_le_self (size - 1) aline
      rw [Nat.add_mul]
      omega
  have hle : blockIndexByMemSize aline (u32 (blocks * aline)) ≤ blocks := by
    rw [blockIndexByMemSize_eq hpos]
    exact (ceilDiv_le_iff_le_mul hpos).mpr (Nat.mul_comm blocks aline ▸ u32_le _)
  exact {
    two_le_aline := ha
    aline_lt := haline
    bytes_lt := by
      rw [hmax]
      show blockIndexByMemSize aline (u32 (blocks * aline)) * aline < 2 ^ 32
      by_cases hlt : blocks * aline < 2 ^ 32
      · rwa [u32_of_lt hlt, blockIndexByMemSize_mul hpos]
      · -- the size wrapped: what is left is less than one block
        have hone : u32 (blocks * aline) ≤ aline := by
          unfold u32
          omega
        have : blockIndexByMemSize aline (u32 (blocks * aline)) ≤ 1 := by
          rw [blockIndexByMemSize_eq hpos]
          exact (ceilDiv_le_iff_le_mul hpos).mpr (by omega)
        exact (Nat.mul_le_mul_right _ this).trans_lt (by omega)
    has := fun j hj => Bitmap.has_init (by omega) (hj.trans_le (hmax ▸ hle))
    used_below := fun j hj => absurd hj (Nat.not_lt_zero _)
    free_above := fun j _ => Bitmap.get_init _ j
    purl_le := Nat.zero_le _
    purl_used := .inl rfl }

/-- `pool'` is `pool` with its hints moved and the blocks of a range marked. -/
structure Marks (pool pool' : Pool) (start len : Nat) (bit : Bool) : Prop where
  mem : pool'.mem = pool.mem
  aline : pool'.aline = pool.aline
  size : pool'.size = pool.size
  length : pool'.bitmap.length = pool.bitmap.length
  get : ∀ j, pool'.bitmap.get j =
    if start ≤ j ∧ j < start + len then bit else pool.bitmap.get j

theorem Marks.blockIndexMax {pool pool' : Pool} {start len : Nat} {bit : Bool}
    (h : Marks pool pool' start len bit) : pool'.blockIndexMax = pool.blockIndexMax := by
  unfold Pool.blockIndexMax
  rw [h.aline, h.size]

/-- The hints of a marked pool, from what they say about the bitmap. -/
theorem Hints.marks {pool pool' : Pool} {start len : Nat} {bit : Bool} (h : pool.Hints)
    (hm : Marks pool pool' start len bit)
    (hused : ∀ j < pool'.firstFreeBlock, pool'.bitmap.get j = true)
    (hfree : ∀ j, pool'.purlFreeBlockStart ≤ j → pool'.bitmap.get j = false)
    (hle : pool'.purlFreeBlockStart ≤ pool.blockIndexMax)
    (hlast : pool'.purlFreeBlockStart = 0 ∨
      pool'.bitmap.get (pool'.purlFreeBlockStart - 1) = true) : pool'.Hints where
  two_le_aline := hm.aline ▸ h.two_le_aline
  aline_lt := hm.aline ▸ h.aline_lt
  bytes_lt := by
    rw [hm.blockIndexMax, hm.aline]
    exact h.bytes_lt
  has j hj := by
    unfold Bitmap.Has
    rw [hm.length]
    exact h.has j (hm.blockIndexMax ▸ hj)
  used_below := hused
  free_above := hfree
  purl_le := hm.blockIndexMax.symm ▸ hle
  purl_used := hlast

/-! ### What malloc and free do -/

/-- From the label `found`: the run that ends at `last` is marked and returned. -/
theorem Hints.found {pool : Pool} (h : pool.Hints) {need last : Nat} (hneed : 0 < need)
    (hlast : last < pool.blockIndexMax) (hle : need ≤ last + 1) :
    ∃ pool', pool.found need last =
        (some (pool.mem + (last + 1 - need) * pool.aline), pool') ∧
      Marks pool pool' (last + 1 - need) need true ∧ pool'.Hints := by
  have hmax := h.blockIndexMax_le
  have hstart : u32 (sub32 last need + 1) = last + 1 - need := by
    unfold sub32 u32
    omega
  have hmem (j : Nat) : j ∈ (List.range need).map (last - ·) ↔
      last + 1 - need ≤ j ∧ j < last + 1 - need + need := by
    simp only [List.mem_map, List.mem_range]
    constructor
    · rintro ⟨i, hi, rfl⟩
      omega
    · rintro ⟨h₁, h₂⟩
      exact ⟨last - j, by omega, by omega⟩
  set pool' : Pool := (pool.found need last).2 with hpool'
  have hm : Marks pool pool' (last + 1 - need) need true :=
    { mem := rfl, aline := rfl, size := rfl, length := Bitmap.length_fill ..
      get := fun j => by
        rw [show pool'.bitmap = pool.bitmap.fill _ true from rfl, Bitmap.get_fill true _ j]
        · simp only [hmem]
        · intro i hi
          exact h.has i (by have := (hmem i).mp hi; omega) }
  have hpurl : pool'.purlFreeBlockStart = max (last + 1) pool.purlFreeBlockStart := by
    show (if pool.purlFreeBlockStart ≤ last then last + 1 else pool.purlFreeBlockStart) = _
    split <;> omega
  refine ⟨pool', ?_, hm, h.marks hm (fun j hj => ?_) (fun j hj => ?_) ?_ (.inr ?_)⟩
  · have hbytes : pool.bytesByBlockIndex (last + 1 - need) =
        pool.mem + (last + 1 - need) * pool.aline := by
      unfold bytesByBlockIndex
      rw [u32_of_lt (h.block_lt (by omega))]
    rw [hpool', ← hbytes, ← hstart]
    rfl
  · rw [hm.get]
    split
    · rfl
    · exact h.used_below j hj
  · rw [hpurl] at hj
    rw [hm.get, if_neg (by omega)]
    exact h.free_above j (by omega)
  · rw [hpurl]
    exact max_le hlast h.purl_le
  · rw [hm.get]
    split
    · rfl
    · rcases h.purl_used with h₀ | h₁
      · omega
      · rwa [show pool'.purlFreeBlockStart = pool.purlFreeBlockStart by omega]

/-- What `pool_malloc` answers to a request of `size` bytes. -/
inductive Malloced (pool : Pool) (size : Nat) : Option Nat × Pool → Prop
  /-- A run of free blocks is taken. -/
  | run {pool' : Pool} (start : Nat) :
      start + blockIndexByMemSize pool.aline size ≤ pool.blockIndexMax →
      FreeRun pool.bitmap start (blockIndexByMemSize pool.aline size) →
      Marks pool pool' start (blockIndexByMemSize pool.aline size) true → pool'.Hints →
      Malloced pool size (some (pool.mem + start * pool.aline), pool')
  /-- There is none, and at most the first hint moves. -/
  | noRun {pool' : Pool} :
      (∀ start, start + blockIndexByMemSize pool.aline size ≤ pool.blockIndexMax →
        ¬FreeRun pool.bitmap start (blockIndexByMemSize pool.aline size)) →
      Marks pool pool' 0 0 true → pool'.Hints → Malloced pool size (none, pool')

theorem Hints.malloc {pool : Pool} (h : pool.Hints) {size : Nat} (hpos : 0 < size)
    (hsize : size < 2 ^ 32) : Malloced pool size (pool.malloc size) := by
  set need := blockIndexByMemSize pool.aline size with hneed_def
  have hneed : 0 < need := blockIndexByMemSize_pos hpos
  have hneed_le : need ≤ 2 ^ 31 := blockIndexByMemSize_le h.two_le_aline hsize
  have hmax := h.blockIndexMax_le
  have hpurl := h.purl_le
  have hindex : sub32 (u32 (pool.purlFreeBlockStart + need)) 1 =
      pool.purlFreeBlockStart + need - 1 := by
    unfold sub32 u32
    omega
  unfold Pool.malloc
  simp only [← hneed_def, hindex]
  split
  · -- the blocks above the purl hint are free without a look
    rename_i hlt
    obtain ⟨pool', hfound, hm, hh⟩ := h.found hneed hlt (by omega)
    rw [hfound]
    rw [show pool.purlFreeBlockStart + need - 1 + 1 - need = pool.purlFreeBlockStart by omega]
      at hm ⊢
    exact .run _ (by omega) (fun j hj _ => h.free_above j hj) hm hh
  · rename_i hge
    have hs : Searched pool.bitmap need pool.purlFreeBlockStart
        (search pool.bitmap need pool.purlFreeBlockStart
          (pool.purlFreeBlockStart - pool.firstFreeBlock) pool.firstFreeBlock 0 none) :=
      search_spec (scanned_start hneed h.used_below) (by omega)
    generalize search pool.bitmap need pool.purlFreeBlockStart _ _ _ _ = r at hs
    obtain ⟨hit, first⟩ := r
    have hstay : Marks pool { pool with firstFreeBlock := first.getD pool.firstFreeBlock }
        0 0 true :=
      { mem := rfl, aline := rfl, size := rfl, length := rfl
        get := fun j => (if_neg (by omega)).symm }
    have hfirst : Hints { pool with firstFreeBlock := first.getD pool.firstFreeBlock } := by
      refine h.marks hstay (fun j hj => ?_) h.free_above h.purl_le h.purl_used
      cases first with
      | none => exact h.used_below j hj
      | some k => exact hs.first k rfl j hj
    cases hit with
    | some last =>
      obtain ⟨hlast, hle, hrun⟩ := hs.hit last rfl
      obtain ⟨pool', hfound, hm, hh⟩ := hfirst.found hneed (hlast.trans_le hpurl) hle
      dsimp only
      rw [hfound]
      refine .run (last + 1 - need) (by omega) hrun
        ⟨hm.mem, hm.aline, hm.size, hm.length, hm.get⟩ hh
    | none =>
      dsimp only
      rw [← hstay.blockIndexMax] at hge
      rw [if_neg hge]
      rw [hstay.blockIndexMax] at hge
      refine .noRun (fun start hstart hrun => ?_) hstay hfirst
      by_cases hle : start + need ≤ pool.purlFreeBlockStart
      · exact hs.miss rfl start hle hrun
      · -- a run that reaches beyond the purl hint has the used block below it, or starts there
        rcases h.purl_used with h₀ | h₁
        · omega
        · by_cases hbelow : start < pool.purlFreeBlockStart
          · rw [hrun _ (by omega) (by omega)] at h₁
            exact absurd h₁ (by decide)
          · omega

/-- `pool_free` on a used range of blocks marks it free. -/
theorem Hints.free {pool : Pool} (h : pool.Hints) {start size : Nat} (hpos : 0 < size)
    (hfit : start + blockIndexByMemSize pool.aline size ≤ pool.blockIndexMax)
    (hused : ∀ j, start ≤ j → j < start + blockIndexByMemSize pool.aline size →
      pool.bitmap.get j = true) :
    Marks pool (pool.free (pool.mem + start * pool.aline) size) start
        (blockIndexByMemSize pool.aline size) false ∧
      (pool.free (pool.mem + start * pool.aline) size).Hints := by
  set need := blockIndexByMemSize pool.aline size with hneed_def
  have hneed : 0 < need := blockIndexByMemSize_pos hpos
  have hmax := h.blockIndexMax_le
  have hpurl := h.purl_le
  have hblock : pool.blockIndexByMem (pool.mem + start * pool.aline) = start :=
    h.blockIndexByMem_eq (by omega)
  have hmem (j : Nat) : j ∈ (List.range need).map (start + ·) ↔ start ≤ j ∧ j < start + need := by
    simp only [List.mem_map, List.mem_range]
    constructor
    · rintro ⟨i, hi, rfl⟩
      omega
    · rintro ⟨h₁, h₂⟩
      exact ⟨j - start, by omega, by omega⟩
  have hbelow : start + need ≤ pool.purlFreeBlockStart := by
    by_contra hgt
    have hlast := hused (start + need - 1) (by omega) (by omega)
    rw [h.free_above _ (by omega)] at hlast
    exact absurd hlast (by decide)
  have hend : sub32 (u32 (start + need)) 1 = start + need - 1 := by
    unfold sub32 u32
    omega
  have hlastPurl : sub32 pool.purlFreeBlockStart 1 = pool.purlFreeBlockStart - 1 :=
    sub32_of_le (by omega) (by omega)
  set pool' := pool.free (pool.mem + start * pool.aline) size with hpool'
  have hbitmap : pool'.bitmap = pool.bitmap.fill ((List.range need).map (start + ·)) false := by
    simp only [hpool', Pool.free, hblock, ← hneed_def]
  have hm : Marks pool pool' start need false :=
    { mem := rfl, aline := rfl, size := rfl
      length := hbitmap ▸ Bitmap.length_fill ..
      get := fun j => by
        rw [hbitmap, Bitmap.get_fill false _ j]
        · simp only [hmem]
        · intro i hi
          exact h.has i (by have := (hmem i).mp hi; omega) }
  have hfirst : pool'.firstFreeBlock = min start pool.firstFreeBlock := by
    simp only [hpool', Pool.free, hblock]
    split <;> omega
  have hpurl' : pool'.purlFreeBlockStart =
      if start + need = pool.purlFreeBlockStart then backToUsed pool'.bitmap start
      else pool.purlFreeBlockStart := by
    rw [hbitmap]
    simp only [hpool', Pool.free, hblock, ← hneed_def, hend, hlastPurl]
    exact if_congr (by omega) rfl rfl
  obtain ⟨hback, hbackFree, hbackUsed⟩ := backToUsed_spec pool'.bitmap start
  refine ⟨hm, h.marks hm (fun j hj => ?_) (fun j hj => ?_) ?_ ?_⟩
  · rw [hm.get, if_neg (by omega)]
    exact h.used_below j (by omega)
  · rw [hpurl'] at hj
    split at hj
    · by_cases hjs : j < start
      · exact hbackFree j hj hjs
      · rw [hm.get]
        split
        · rfl
        · exact h.free_above j (by omega)
    · rw [hm.get]
      split
      · rfl
      · exact h.free_above j hj
  · rw [hpurl']
    split <;> omega
  · rw [hpurl']
    split
    · exact hbackUsed
    · refine h.purl_used.imp_right fun h₁ => ?_
      rwa [hm.get, if_neg (by omega)]

/-! ### A pool and what is allocated from it -/

/-- What the caller keeps of a `pool_malloc`: the address and the size asked for. -/
structure Alloc where
  mem : Nat
  size : Nat
deriving DecidableEq, Repr

/-- The blocks of an allocation: `size / aline` rounded up, from its address on. -/
def blocks (pool : Pool) (a : Alloc) : Set Nat :=
  Set.Ico ((a.mem - pool.mem) / pool.aline)
    ((a.mem - pool.mem) / pool.aline + a.size ⌈/⌉ pool.aline)

/-- No block belongs to both. -/
def Apart (pool : Pool) (a b : Alloc) : Prop :=
  ∀ i ∈ pool.blocks a, i ∉ pool.blocks b

theorem Apart.symm {pool : Pool} {a b : Alloc} (h : pool.Apart a b) : pool.Apart b a :=
  fun i hb ha => h i ha hb

structure Heap where
  pool : Pool
  live : List Alloc
deriving DecidableEq, Repr

inductive Request where
  | malloc (size : UInt32)
  | free (mem : Nat) (size : UInt32)

/-- A caller of the pool. It never asks for no bytes, and frees only what is
allocated, with the size it asked for. -/
def machine : Machine Request Heap (Option Nat) where
  step
    | .malloc size, h =>
      if size = 0 then none
      else match h.pool.malloc size.toNat with
        | (none, pool) => some (⟨pool, h.live⟩, none)
        | (some mem, pool) => some (⟨pool, ⟨mem, size.toNat⟩ :: h.live⟩, some mem)
    | .free mem size, h =>
      if ⟨mem, size.toNat⟩ ∈ h.live then
        some (⟨h.pool.free mem size.toNat, h.live.erase ⟨mem, size.toNat⟩⟩, none)
      else none

/-- `pool_init` with nothing allocated. -/
def Heap.init (mem : Nat) (size : UInt32) (aline : UInt8) : Heap :=
  ⟨Pool.init mem size.toNat aline.toNat, []⟩

/-- An allocation at block `start`: its blocks are in the pool and used. -/
structure Holds (pool : Pool) (a : Alloc) (start : Nat) : Prop where
  mem : a.mem = pool.mem + start * pool.aline
  size_pos : 0 < a.size
  size_lt : a.size < 2 ^ 32
  fits : start + blockIndexByMemSize pool.aline a.size ≤ pool.blockIndexMax
  used : ∀ j, start ≤ j → j < start + blockIndexByMemSize pool.aline a.size →
    pool.bitmap.get j = true

/-- The invariant of a run. -/
structure Heap.Inv (h : Heap) : Prop where
  hints : h.pool.Hints
  holds : ∀ a ∈ h.live, ∃ start, h.pool.Holds a start
  apart : h.live.Pairwise h.pool.Apart

theorem Holds.blocks_eq {pool : Pool} {a : Alloc} {start : Nat} (h : pool.Holds a start)
    (ha : 0 < pool.aline) :
    pool.blocks a = Set.Ico start (start + blockIndexByMemSize pool.aline a.size) := by
  unfold blocks
  rw [h.mem, Nat.add_sub_cancel_left, Nat.mul_div_cancel _ ha, blockIndexByMemSize_eq ha]

theorem Holds.of_mem_blocks {pool : Pool} {a : Alloc} {start i : Nat} (h : pool.Holds a start)
    (ha : 0 < pool.aline) (hi : i ∈ pool.blocks a) :
    i < pool.blockIndexMax ∧ pool.bitmap.get i = true := by
  rw [h.blocks_eq ha, Set.mem_Ico] at hi
  exact ⟨hi.2.trans_le h.fits, h.used i hi.1 hi.2⟩

theorem Marks.blocks {pool pool' : Pool} {start len : Nat} {bit : Bool}
    (h : Marks pool pool' start len bit) (a : Alloc) : pool'.blocks a = pool.blocks a := by
  unfold Pool.blocks
  rw [h.mem, h.aline]

theorem Marks.apart {pool pool' : Pool} {start len : Nat} {bit : Bool}
    (h : Marks pool pool' start len bit) : pool'.Apart = pool.Apart := by
  funext a b
  simp only [Apart, h.blocks]

/-- Marking keeps an allocation if no block of it becomes free. -/
theorem Holds.marks {pool pool' : Pool} {a : Alloc} {start first len : Nat} {bit : Bool}
    (h : pool.Holds a start) (hm : Marks pool pool' first len bit)
    (hkeep : ∀ j, start ≤ j → j < start + blockIndexByMemSize pool.aline a.size →
      bit = true ∨ ¬(first ≤ j ∧ j < first + len)) : pool'.Holds a start where
  mem := by rw [hm.mem, hm.aline, h.mem]
  size_pos := h.size_pos
  size_lt := h.size_lt
  fits := by
    rw [hm.aline, hm.blockIndexMax]
    exact h.fits
  used j h₁ h₂ := by
    rw [hm.aline] at h₂
    rw [hm.get]
    split
    · exact (hkeep j h₁ h₂).resolve_right fun hn => hn ‹_›
    · exact h.used j h₁ h₂

/-- What has been marked for a request is an allocation. -/
theorem Marks.holds {pool pool' : Pool} {start size : Nat}
    (h : Marks pool pool' start (blockIndexByMemSize pool.aline size) true) (hpos : 0 < size)
    (hlt : size < 2 ^ 32)
    (hfit : start + blockIndexByMemSize pool.aline size ≤ pool.blockIndexMax) :
    pool'.Holds ⟨pool.mem + start * pool.aline, size⟩ start where
  mem := by rw [h.mem, h.aline]
  size_pos := hpos
  size_lt := hlt
  fits := by
    rw [h.aline, h.blockIndexMax]
    exact hfit
  used j h₁ h₂ := by
    rw [h.aline] at h₂
    rw [h.get, if_pos ⟨h₁, h₂⟩]

theorem Heap.inv_init (mem : Nat) (size : UInt32) {aline : UInt8} (h : 2 ≤ aline.toNat) :
    (Heap.init mem size aline).Inv where
  hints := Hints.init size.toNat_lt h aline.toNat_lt
  holds _ ha := absurd ha List.not_mem_nil
  apart := List.Pairwise.nil

/-- What a malloc does: a free run is marked and is a new allocation, or nothing is. -/
theorem Heap.Inv.malloc_cases {h h' : Heap} {size : UInt32} {o : Option Nat} (hi : h.Inv)
    (hstep : machine.step (.malloc size) h = some (h', o)) :
    h'.pool.Hints ∧
      ((∃ start, FreeRun h.pool.bitmap start (blockIndexByMemSize h.pool.aline size.toNat) ∧
        Marks h.pool h'.pool start (blockIndexByMemSize h.pool.aline size.toNat) true ∧
        h'.pool.Holds ⟨h.pool.mem + start * h.pool.aline, size.toNat⟩ start ∧
        h'.live = ⟨h.pool.mem + start * h.pool.aline, size.toNat⟩ :: h.live) ∨
      Marks h.pool h'.pool 0 0 true ∧ h'.live = h.live) := by
  simp only [machine] at hstep
  split at hstep
  · cases hstep
  · have hpos : 0 < size.toNat := Nat.pos_of_ne_zero fun h₀ => ‹¬size = 0› (UInt32.toNat_inj.mp h₀)
    have hmalloc := hi.hints.malloc hpos size.toNat_lt
    generalize h.pool.malloc size.toNat = r at hmalloc hstep
    cases hmalloc with
    | run start hfit hrun hm hh =>
      cases hstep
      exact ⟨hh, .inl ⟨start, hrun, hm, hm.holds hpos size.toNat_lt hfit, rfl⟩⟩
    | noRun hno hm hh =>
      cases hstep
      exact ⟨hh, .inr ⟨hm, rfl⟩⟩

/-- What a free does: the blocks of the allocation are marked free. -/
theorem Heap.Inv.free_cases {h h' : Heap} {mem : Nat} {size : UInt32} {o : Option Nat}
    (hi : h.Inv) (hstep : machine.step (.free mem size) h = some (h', o)) :
    ⟨mem, size.toNat⟩ ∈ h.live ∧ h'.live = h.live.erase ⟨mem, size.toNat⟩ ∧ h'.pool.Hints ∧
      ∃ start, h.pool.Holds ⟨mem, size.toNat⟩ start ∧
        Marks h.pool h'.pool start (blockIndexByMemSize h.pool.aline size.toNat) false := by
  simp only [machine] at hstep
  split at hstep
  · rename_i hlive
    cases hstep
    obtain ⟨start, hs⟩ := hi.holds _ hlive
    have hmem : mem = h.pool.mem + start * h.pool.aline := hs.mem
    obtain ⟨hm, hh⟩ := hi.hints.free hs.size_pos hs.fits hs.used
    rw [← hmem] at hm hh
    exact ⟨hlive, rfl, hh, start, hs, hm⟩
  · cases hstep

/-- **Malloc keeps the invariant.** -/
theorem Heap.Inv.malloc {h h' : Heap} {size : UInt32} {o : Option Nat} (hi : h.Inv)
    (hstep : machine.step (.malloc size) h = some (h', o)) : h'.Inv := by
  have ha := hi.hints.aline_pos
  obtain ⟨hh, ⟨start, hrun, hm, hnew, hlive⟩ | ⟨hm, hlive⟩⟩ := hi.malloc_cases hstep
  · refine ⟨hh, fun b hb => ?_, hlive ▸ List.pairwise_cons.mpr ⟨fun b hb => ?_, ?_⟩⟩
    · rcases List.mem_cons.mp (hlive ▸ hb) with rfl | hb
      · exact ⟨start, hnew⟩
      · obtain ⟨s, hs⟩ := hi.holds b hb
        exact ⟨s, hs.marks hm fun _ _ _ => .inl rfl⟩
    · -- the run was free, the blocks of what is allocated are not
      obtain ⟨s, hs⟩ := hi.holds b hb
      intro j hj hjb
      rw [hnew.blocks_eq hh.aline_pos, hm.aline] at hj
      rw [hm.blocks] at hjb
      have hused := (hs.of_mem_blocks ha hjb).2
      rw [hrun j hj.1 hj.2] at hused
      exact absurd hused (by decide)
    · exact hm.apart ▸ hi.apart
  · refine ⟨hh, fun b hb => ?_, hlive ▸ hm.apart ▸ hi.apart⟩
    obtain ⟨s, hs⟩ := hi.holds b (hlive ▸ hb)
    exact ⟨s, hs.marks hm fun _ _ _ => .inl rfl⟩

/-- **Free keeps the invariant.** -/
theorem Heap.Inv.free {h h' : Heap} {mem : Nat} {size : UInt32} {o : Option Nat} (hi : h.Inv)
    (hstep : machine.step (.free mem size) h = some (h', o)) : h'.Inv := by
  have ha := hi.hints.aline_pos
  obtain ⟨hmem, hlive, hh, start, hs, hm⟩ := hi.free_cases hstep
  have hpair : (⟨mem, size.toNat⟩ :: h.live.erase ⟨mem, size.toNat⟩).Pairwise h.pool.Apart :=
    hi.apart.perm (List.perm_cons_erase hmem) Apart.symm
  obtain ⟨hothers, hrest⟩ := List.pairwise_cons.mp hpair
  refine ⟨hh, fun b hb => ?_, hlive ▸ hm.apart ▸ hrest⟩
  rw [hlive] at hb
  obtain ⟨s, hsb⟩ := hi.holds b (List.mem_of_mem_erase hb)
  refine ⟨s, hsb.marks hm fun j h₁ h₂ => .inr fun hj => ?_⟩
  refine hothers b hb j ?_ ?_
  · rw [hs.blocks_eq ha]
    exact ⟨hj.1, hj.2⟩
  · rw [hsb.blocks_eq ha]
    exact ⟨h₁, h₂⟩

/-- No block is used but those of the allocations. -/
def Heap.Exact (h : Heap) : Prop :=
  ∀ i, h.pool.bitmap.get i = true → ∃ a ∈ h.live, i ∈ h.pool.blocks a

theorem Heap.exact_init (mem : Nat) (size : UInt32) (aline : UInt8) :
    (Heap.init mem size aline).Exact := by
  intro i hi
  rw [show (Heap.init mem size aline).pool.bitmap.get i = false from Bitmap.get_init _ i] at hi
  cases hi

theorem Heap.Inv.exact_malloc {h h' : Heap} {size : UInt32} {o : Option Nat} (hi : h.Inv)
    (he : h.Exact) (hstep : machine.step (.malloc size) h = some (h', o)) : h'.Exact := by
  intro i hget
  obtain ⟨hh, ⟨start, -, hm, hnew, hlive⟩ | ⟨hm, hlive⟩⟩ := hi.malloc_cases hstep
  · rw [hm.get] at hget
    rw [hlive]
    split at hget
    · rename_i hin
      refine ⟨_, List.mem_cons_self, ?_⟩
      rw [hnew.blocks_eq hh.aline_pos, hm.aline]
      exact hin
    · obtain ⟨a, ha, hia⟩ := he i hget
      exact ⟨a, List.mem_cons_of_mem _ ha, hm.blocks a ▸ hia⟩
  · rw [hm.get, if_neg (by omega)] at hget
    obtain ⟨a, ha, hia⟩ := he i hget
    exact ⟨a, hlive ▸ ha, hm.blocks a ▸ hia⟩

theorem Heap.Inv.exact_free {h h' : Heap} {mem : Nat} {size : UInt32} {o : Option Nat}
    (hi : h.Inv) (he : h.Exact) (hstep : machine.step (.free mem size) h = some (h', o)) :
    h'.Exact := by
  intro i hget
  obtain ⟨-, hlive, -, start, hs, hm⟩ := hi.free_cases hstep
  rw [hm.get] at hget
  split at hget
  · cases hget
  · rename_i hout
    obtain ⟨a, ha, hia⟩ := he i hget
    rw [hlive]
    refine ⟨a, (List.mem_erase_of_ne fun heq => hout ?_).mpr ha, hm.blocks a ▸ hia⟩
    rw [heq, hs.blocks_eq hi.hints.aline_pos] at hia
    exact hia

/-- What a run from `pool_init` promises of the state it reaches. -/
structure Heap.Lawful (h : Heap) : Prop where
  apart : h.live.Pairwise h.pool.Apart
  inside : ∀ a ∈ h.live, ∀ i ∈ h.pool.blocks a, i < h.pool.blockIndexMax
  used : ∀ a ∈ h.live, ∀ i ∈ h.pool.blocks a, h.pool.bitmap.get i = true
  used_below : ∀ i < h.pool.firstFreeBlock, h.pool.bitmap.get i = true
  free_above : ∀ i, h.pool.purlFreeBlockStart ≤ i → h.pool.bitmap.get i = false
  malloc_none : ∀ size : UInt32, 0 < size.toNat → ((h.pool.malloc size.toNat).1 = none ↔
    ¬∃ start, start + size.toNat ⌈/⌉ h.pool.aline ≤ h.pool.blockIndexMax ∧
      FreeRun h.pool.bitmap start (size.toNat ⌈/⌉ h.pool.aline))

theorem Heap.Inv.lawful {h : Heap} (hi : h.Inv) : h.Lawful where
  apart := hi.apart
  inside a ha i hia := by
    obtain ⟨s, hs⟩ := hi.holds a ha
    exact (hs.of_mem_blocks hi.hints.aline_pos hia).1
  used a ha i hia := by
    obtain ⟨s, hs⟩ := hi.holds a ha
    exact (hs.of_mem_blocks hi.hints.aline_pos hia).2
  used_below := hi.hints.used_below
  free_above := hi.hints.free_above
  malloc_none size hpos := by
    rw [← blockIndexByMemSize_eq hi.hints.aline_pos]
    have hmalloc := hi.hints.malloc hpos size.toNat_lt
    generalize h.pool.malloc size.toNat = r at hmalloc
    cases hmalloc with
    | run start hfit hrun => exact iff_of_false (by simp) fun hn => hn ⟨start, hfit, hrun⟩
    | noRun hno => exact iff_of_true rfl fun ⟨start, hfit, hrun⟩ => hno start hfit hrun

/-- **The pool is lawful after every run.** Whatever is allocated and freed in
whatever order, allocations are apart, inside the pool and marked, the two hints
tell the truth, and `pool_malloc` refuses only what has no room anywhere. -/
theorem run_lawful (mem : Nat) (size : UInt32) (aline : UInt8) (haline : 2 ≤ aline.toNat)
    (requests : List Request) (h : Heap) (answers : List (Option Nat))
    (hrun : machine.run (Heap.init mem size aline) requests = some (h, answers)) : h.Lawful := by
  refine (machine.run_invariant (P := Heap.Inv) (fun i s s' o hs hstep => ?_)
    (Heap.inv_init mem size haline) hrun).lawful
  cases i with
  | malloc size => exact hs.malloc hstep
  | free mem size => exact hs.free hstep

/-- A full pool of sixteen blocks: what is freed is found again by the search. -/
theorem run_lawful_full :
    Heap.Lawful ⟨⟨[0xE3, 0xFF], 1000, 4, 64, 2, 16⟩, [⟨1000, 8⟩, ⟨1020, 44⟩]⟩ :=
  run_lawful 1000 64 4 (by decide)
    [.malloc 20, .malloc 44, .free 1000 20, .malloc 8, .malloc 16] _
    [some 1000, some 1020, none, some 1000, none] (by decide +kernel)

end Pool

end PikaScript
