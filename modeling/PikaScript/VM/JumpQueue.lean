import PikaScript.Lib.Machine
import PikaScript.Lib.RingBuffer

/-! The queue of jump contexts of `PikaVM.c`.

With `PIKA_SETJMP_ENABLE` the places to jump to are kept in a circular queue of
`PIKA_JMP_BUF_LIST_SIZE` slots, here `N`, with a head and a tail that are `int`s. Removing an
entry moves those behind it forward and the tail back, by a remainder of C, which is negative for
a negative dividend: at slot 0 the tail leaves the queue.

`lawful_iff`: calls are answered as a bounded list answers them, with head and tail in their
range, just when no entry is removed while the tail is 0. -/
namespace PikaScript

/-- `JmpBufCQ`. A `jmp_buf*` is an address; 0 is NULL. -/
structure JmpBufCQ (N : Nat) where
  buf : Fin N → Nat
  head : Int
  tail : Int

namespace JmpBufCQ
variable {N : Nat}

/-! ### The code -/

/-- The slot of an index. None outside of the array. -/
def slotAt (N : Nat) (i : Int) : Option (Fin N) :=
  if h : 0 ≤ i ∧ i < N then some ⟨i.toNat, by omega⟩ else none

/-- The index behind another one, as C computes it. -/
def after (N : Nat) (i : Int) : Int := (i + 1).tmod N

variable (cq : JmpBufCQ N)

/-- `_jcq_isEmpty`. -/
def isEmpty : Bool := cq.head == cq.tail

/-- `_jcq_isFull`. -/
def isFull : Bool := after N cq.tail == cq.head

/-- `_jcq_pop`. -/
def pop : Option (JmpBufCQ N × Nat) :=
  if cq.isEmpty then some (cq, 0)
  else do
    let i ← slotAt N cq.head
    return ({ cq with head := after N cq.head }, cq.buf i)

/-- `_jcq_check_pop`. -/
def checkPop : Option Nat :=
  if cq.isEmpty then some 0 else (slotAt N cq.head).map cq.buf

/-- `_jcq_push`. -/
def push (pos : Nat) : Option (JmpBufCQ N × Int) :=
  if cq.isFull then some (cq, -1)
  else do
    let i ← slotAt N cq.tail
    return ({ cq with buf := Function.update cq.buf i pos, tail := after N cq.tail }, 0)

/-- The loop of `_jcq_remove` that looks for an entry, from `i` on. It ends within as many rounds
as there are slots, or not at all; none when it does not. -/
def find (pos : Nat) : Nat → Int → Option (Option Int)
  | 0, i => if i = cq.tail then some none else none
  | rounds + 1, i =>
    if i = cq.tail then some none
    else do
      if cq.buf (← slotAt N i) = pos then return some i
      find pos rounds (after N i)

/-- The loop that moves the entries forward, from `j` on. -/
def move (tail : Int) : Nat → Int → (Fin N → Nat) → Option (Fin N → Nat)
  | 0, j, buf => if j = tail then some buf else none
  | rounds + 1, j, buf =>
    if j = tail then some buf
    else do
      let x := buf (← slotAt N (after N j))
      move tail rounds (after N j) (Function.update buf (← slotAt N j) x)

/-- `_jcq_remove`. -/
def remove (pos : Nat) : Option (JmpBufCQ N × Int) :=
  if cq.isEmpty then some (cq, -1)
  else do
    match ← cq.find pos N cq.head with
    | none => return (cq, -1)
    | some i =>
      let buf ← move cq.tail N i cq.buf
      return ({ cq with buf := buf, tail := (cq.tail - 1).tmod N }, 0)

/-- A call of one of the four functions. -/
inductive Call where
  | push (pos : Nat)
  | pop
  | checkPop
  | remove (pos : Nat)

/-- What a call returns: a result or an address. -/
inductive Answer where
  | res (res : Int)
  | pos (pos : Nat)
deriving DecidableEq

def machine (N : Nat) : Machine Call (JmpBufCQ N) Answer where
  step
    | .push pos, cq => (cq.push pos).map fun r => (r.1, .res r.2)
    | .pop, cq => cq.pop.map fun r => (r.1, .pos r.2)
    | .checkPop, cq => cq.checkPop.map fun pos => (cq, .pos pos)
    | .remove pos, cq => (cq.remove pos).map fun r => (r.1, .res r.2)

/-! ### What the queue is for -/

/-- What a bounded list of places makes of a call. -/
def fifo (N : Nat) (l : List Nat) : Call → List Nat × Answer
  | .push pos => if l.length + 1 = N then (l, .res (-1)) else (l ++ [pos], .res 0)
  | .pop => (l.tail, .pos (l.headD 0))
  | .checkPop => (l, .pos (l.headD 0))
  | .remove pos => if pos ∈ l then (l.erase pos, .res 0) else (l, .res (-1))

/-- What is in the queue, oldest first. -/
def stored [NeZero N] : List Nat :=
  match slotAt N cq.head, slotAt N cq.tail with
  | some head, some tail => RingBuffer.contents cq.buf head tail
  | _, _ => []

/-- The queue holds a list, with head and tail in their range. -/
structure Holds [NeZero N] (cq : JmpBufCQ N) (l : List Nat) : Prop where
  head : 0 ≤ cq.head ∧ cq.head < N
  tail : 0 ≤ cq.tail ∧ cq.tail < N
  stored : cq.stored = l

/-- Every call is answered as the list answers it, and leaves the queue holding what the list
does. -/
def Lawful [NeZero N] (cq : JmpBufCQ N) (l : List Nat) : List Call → Prop
  | [] => cq.Holds l
  | call :: calls => cq.Holds l ∧ ∃ cq', (machine N).step call cq = some (cq', (fifo N l call).2) ∧
      Lawful cq' (fifo N l call).1 calls

/-- Nothing that is in the queue is removed while the tail is 0. -/
def Clear [NeZero N] (call : Call) (cq : JmpBufCQ N) : Prop :=
  match call with
  | .remove pos => cq.tail = 0 → pos ∉ cq.stored
  | _ => True

instance [NeZero N] (call : Call) (cq : JmpBufCQ N) : Decidable (Clear call cq) :=
  match call with
  | .remove pos => inferInstanceAs (Decidable (cq.tail = 0 → pos ∉ cq.stored))
  | .push _ | .pop | .checkPop => .isTrue trivial

/-! ### Indices -/

variable [NeZero N] {cq : JmpBufCQ N} {l : List Nat} {head tail : Fin N}

omit [NeZero N] in
theorem slotAt_val (i : Fin N) : slotAt N i.val = some i := by
  have hi : (0 : Int) ≤ i.val ∧ (i.val : Int) < N :=
    ⟨Int.natCast_nonneg _, by exact_mod_cast i.isLt⟩
  rw [slotAt, dif_pos hi]
  rfl

theorem after_val (i : Fin N) : after N i.val = (RingBuffer.next i).val := by
  show Int.tmod ((i.val + 1 : Nat) : Int) N = ((i.val + 1) % N : Nat)
  exact (Int.ofNat_tmod _ _).symm

omit [NeZero N] in
theorem val_inj {i j : Fin N} : (i.val : Int) = j.val ↔ i = j := by
  rw [Int.ofNat_inj, Fin.ext_iff]

/-- Where the tail is moved back to. -/
theorem back_val {last : Fin N} (hlast : RingBuffer.next last = tail) (htail : tail.val ≠ 0) :
    (tail.val - 1 : Int).tmod N = last.val := by
  have hnext := RingBuffer.next_val last
  rw [hlast] at hnext
  have hlt := last.isLt
  have hval : (tail.val : Int) - 1 = (last.val : Nat) := by
    split at hnext <;> omega
  rw [hval, ← Int.ofNat_tmod, Nat.mod_eq_of_lt hlt]

/-- From slot 0 it is moved out of the queue. -/
theorem back_zero (hone : N ≠ 1) : (0 - 1 : Int).tmod N = -1 := by
  have hpos := NeZero.pos N
  rw [Int.zero_sub, Int.neg_tmod, Int.tmod_eq_of_lt (by decide) (by omega)]

/-! ### The loops -/

/-- The entry at a place of the queue. -/
def entry (cq : JmpBufCQ N) (head : Fin N) (k : Nat) : Nat := cq.buf (RingBuffer.slot head k)

/-- **The search finds the first place of an entry.** -/
theorem find_eq (htail : cq.tail = tail.val) {pos : Nat} {rounds k : Nat}
    (hk : k ≤ RingBuffer.count head tail) (hrounds : RingBuffer.count head tail ≤ k + rounds) :
    (cq.find pos rounds (RingBuffer.slot head k).val = some none ∧
      ∀ j, k ≤ j → j < RingBuffer.count head tail → cq.entry head j ≠ pos) ∨
    ∃ i, k ≤ i ∧ i < RingBuffer.count head tail ∧ cq.entry head i = pos ∧
      (∀ j, k ≤ j → j < i → cq.entry head j ≠ pos) ∧
      cq.find pos rounds (RingBuffer.slot head k).val =
        some (some ((RingBuffer.slot head i).val : Int)) := by
  have hend : RingBuffer.slot head (RingBuffer.count head tail) = tail :=
    RingBuffer.slot_count head tail
  induction rounds generalizing k with
  | zero =>
    obtain rfl : k = RingBuffer.count head tail := by omega
    rw [hend, find, htail, if_pos rfl]
    exact .inl ⟨rfl, fun j hj hlt => absurd hlt (by omega)⟩
  | succ rounds ih =>
    by_cases hk' : k = RingBuffer.count head tail
    · rw [hk', hend, find, htail, if_pos rfl]
      exact .inl ⟨rfl, fun j hj hlt => absurd hlt (by omega)⟩
    have hne : ((RingBuffer.slot head k).val : Int) ≠ cq.tail := by
      rw [htail, ne_eq, val_inj]
      exact RingBuffer.slot_lt_ne (by omega)
    rw [find, if_neg hne, slotAt_val, after_val, ← RingBuffer.slot_succ]
    simp only [Option.bind_eq_bind, Option.bind_some]
    by_cases hpos : cq.buf (RingBuffer.slot head k) = pos
    · rw [if_pos hpos]
      exact .inr ⟨k, le_rfl, by omega, hpos, fun j hj hlt => absurd hlt (by omega), rfl⟩
    · rw [if_neg hpos]
      rcases @ih (k + 1) (by omega) (by omega) with
        ⟨hfind, hnone⟩ | ⟨i, hi, hlt, heq, hfirst, hfind⟩
      · refine .inl ⟨hfind, fun j hj hlt => ?_⟩
        rcases Nat.eq_or_lt_of_le hj with rfl | hj
        · exact hpos
        · exact hnone j hj hlt
      · refine .inr ⟨i, by omega, hlt, heq, fun j hj hlt => ?_, hfind⟩
        rcases Nat.eq_or_lt_of_le hj with rfl | hj
        · exact hpos
        · exact hfirst j hj hlt

/-- **The entries are moved forward up to the tail.** -/
theorem move_eq {rounds j : Nat} (hj : j ≤ RingBuffer.count head tail)
    (hrounds : RingBuffer.count head tail ≤ j + rounds) (buf : Fin N → Nat) :
    ∃ buf', move (tail.val : Int) rounds (RingBuffer.slot head j).val buf = some buf' ∧
      ∀ k < N, buf' (RingBuffer.slot head k) =
        Compaction.pull (fun k => buf (RingBuffer.slot head k)) j
          (RingBuffer.count head tail) k := by
  have hend : RingBuffer.slot head (RingBuffer.count head tail) = tail :=
    RingBuffer.slot_count head tail
  have hcount := RingBuffer.count_lt head tail
  induction rounds generalizing j buf with
  | zero =>
    obtain rfl : j = RingBuffer.count head tail := by omega
    rw [hend, move, if_pos rfl]
    exact ⟨buf, rfl, fun k _ => by rw [Compaction.pull_self]⟩
  | succ rounds ih =>
    by_cases hj' : j = RingBuffer.count head tail
    · rw [hj', hend, move, if_pos rfl]
      exact ⟨buf, rfl, fun k _ => by rw [Compaction.pull_self]⟩
    have hne : ((RingBuffer.slot head j).val : Int) ≠ tail.val := by
      rw [ne_eq, val_inj]
      exact RingBuffer.slot_lt_ne (by omega)
    rw [move, if_neg hne, after_val, ← RingBuffer.slot_succ, slotAt_val, slotAt_val]
    simp only [Option.bind_eq_bind, Option.bind_some]
    obtain ⟨buf', hmove, hbuf'⟩ := @ih (j + 1) (by omega) (by omega)
      (Function.update buf (RingBuffer.slot head j) (buf (RingBuffer.slot head (j + 1))))
    refine ⟨buf', hmove, fun k hk => ?_⟩
    rw [hbuf' k hk, ← Compaction.pull_update (show j < RingBuffer.count head tail by omega)]
    unfold Compaction.pull
    split
    · exact RingBuffer.update_slot (by omega) (by omega) _
    · exact RingBuffer.update_slot (by omega) hk _

/-! ### The calls -/

theorem stored_eq (hhead : cq.head = head.val) (htail : cq.tail = tail.val) :
    cq.stored = RingBuffer.contents cq.buf head tail := by
  rw [stored, hhead, htail, slotAt_val, slotAt_val]

theorem holds_of (hhead : cq.head = head.val) (htail : cq.tail = tail.val)
    (hstored : RingBuffer.contents cq.buf head tail = l) : cq.Holds l where
  head := by
    have hlt := head.isLt
    omega
  tail := by
    have hlt := tail.isLt
    omega
  stored := (stored_eq hhead htail).trans hstored

theorem Holds.exists_fin (h : cq.Holds l) : ∃ head tail : Fin N, cq.head = head.val ∧
    cq.tail = tail.val ∧ RingBuffer.contents cq.buf head tail = l := by
  obtain ⟨hhead, htail, hstored⟩ := h
  have hheadVal : cq.head = ((⟨cq.head.toNat, by omega⟩ : Fin N).val : Int) :=
    (Int.toNat_of_nonneg hhead.1).symm
  have htailVal : cq.tail = ((⟨cq.tail.toNat, by omega⟩ : Fin N).val : Int) :=
    (Int.toNat_of_nonneg htail.1).symm
  exact ⟨_, _, hheadVal, htailVal, (stored_eq hheadVal htailVal).symm.trans hstored⟩

omit [NeZero N] in
theorem isEmpty_iff (hhead : cq.head = head.val) (htail : cq.tail = tail.val) :
    cq.isEmpty = true ↔ head = tail := by
  rw [isEmpty, beq_iff_eq, hhead, htail, val_inj]

theorem isFull_iff (hhead : cq.head = head.val) (htail : cq.tail = tail.val) :
    cq.isFull = true ↔ RingBuffer.next tail = head := by
  rw [isFull, beq_iff_eq, hhead, htail, after_val, val_inj]

theorem Holds.push (h : cq.Holds l) (pos : Nat) :
    ∃ cq', (machine N).step (.push pos) cq = some (cq', (fifo N l (.push pos)).2) ∧
      cq'.Holds (fifo N l (.push pos)).1 := by
  obtain ⟨head, tail, hhead, htail, hstored⟩ := h.exists_fin
  have hfull : RingBuffer.next tail = head ↔ l.length + 1 = N := by
    rw [← hstored, RingBuffer.length_contents, RingBuffer.count_full]
  simp only [machine, JmpBufCQ.push, fifo]
  by_cases hnext : RingBuffer.next tail = head
  · rw [if_pos ((isFull_iff hhead htail).mpr hnext), if_pos (hfull.mp hnext)]
    exact ⟨cq, rfl, h⟩
  · rw [if_neg (mt (isFull_iff hhead htail).mp hnext), if_neg (mt hfull.mpr hnext), htail,
      slotAt_val]
    refine ⟨_, rfl, @holds_of _ _ _ _ head (RingBuffer.next tail) hhead (after_val tail) ?_⟩
    rw [← hstored]
    exact RingBuffer.contents_push pos hnext

theorem Holds.headD (hstored : RingBuffer.contents cq.buf head tail = l) (hne : head ≠ tail) :
    l = cq.buf head :: RingBuffer.contents cq.buf (RingBuffer.next head) tail := by
  rw [← hstored, RingBuffer.contents_pop hne]

theorem Holds.pop (h : cq.Holds l) :
    ∃ cq', (machine N).step .pop cq = some (cq', (fifo N l .pop).2) ∧
      cq'.Holds (fifo N l .pop).1 := by
  obtain ⟨head, tail, hhead, htail, hstored⟩ := h.exists_fin
  simp only [machine, JmpBufCQ.pop, fifo]
  by_cases hempty : head = tail
  · obtain rfl : l = [] := by rw [← hstored, RingBuffer.contents_eq_nil.mpr hempty]
    rw [if_pos ((isEmpty_iff hhead htail).mpr hempty)]
    exact ⟨cq, rfl, h⟩
  · rw [if_neg (mt (isEmpty_iff hhead htail).mp hempty), hhead, slotAt_val,
      Holds.headD hstored hempty]
    exact ⟨_, rfl, holds_of (after_val head) htail rfl⟩

theorem Holds.checkPop (h : cq.Holds l) :
    ∃ cq', (machine N).step .checkPop cq = some (cq', (fifo N l .checkPop).2) ∧
      cq'.Holds (fifo N l .checkPop).1 := by
  obtain ⟨head, tail, hhead, htail, hstored⟩ := h.exists_fin
  refine ⟨cq, ?_, h⟩
  simp only [machine, JmpBufCQ.checkPop, fifo]
  by_cases hempty : head = tail
  · rw [if_pos ((isEmpty_iff hhead htail).mpr hempty), ← hstored,
      RingBuffer.contents_eq_nil.mpr hempty]
    rfl
  · rw [if_neg (mt (isEmpty_iff hhead htail).mp hempty), hhead, slotAt_val,
      Holds.headD hstored hempty]
    rfl

/-- The slot in front of the tail. -/
theorem exists_last (hempty : head ≠ tail) : ∃ last : Fin N, RingBuffer.next last = tail := by
  have hpos : 0 < RingBuffer.count head tail :=
    Nat.pos_of_ne_zero (mt RingBuffer.count_eq_zero.mp hempty)
  refine ⟨RingBuffer.slot head (RingBuffer.count head tail - 1), ?_⟩
  rw [← RingBuffer.slot_succ, Nat.sub_add_cancel hpos]
  exact RingBuffer.slot_count head tail

/-- **What removing an entry does.** -/
theorem remove_spec (hhead : cq.head = head.val) (htail : cq.tail = tail.val) (pos : Nat) :
    (pos ∉ RingBuffer.contents cq.buf head tail ∧ cq.remove pos = some (cq, -1)) ∨
    (pos ∈ RingBuffer.contents cq.buf head tail ∧
      ∃ buf, cq.remove pos = some ({ cq with buf := buf, tail := (cq.tail - 1).tmod N }, 0) ∧
        ∀ last, RingBuffer.next last = tail → RingBuffer.contents buf head last =
          (RingBuffer.contents cq.buf head tail).erase pos) := by
  have hmem : pos ∈ RingBuffer.contents cq.buf head tail ↔
      ∃ k < RingBuffer.count head tail, cq.entry head k = pos := Compaction.mem_front
  have hcount := RingBuffer.count_lt head tail
  unfold remove
  by_cases hempty : head = tail
  · rw [if_pos ((isEmpty_iff hhead htail).mpr hempty), RingBuffer.contents_eq_nil.mpr hempty]
    exact .inl ⟨List.not_mem_nil, rfl⟩
  rw [if_neg (mt (isEmpty_iff hhead htail).mp hempty)]
  have hzero : cq.head = (RingBuffer.slot head 0).val := by rw [RingBuffer.slot_zero, hhead]
  rw [hzero]
  rcases @find_eq N _ cq head tail htail pos N 0 (Nat.zero_le _) (by omega) with
    ⟨hfind, hnone⟩ | ⟨i, -, hi, heq, hfirst, hfind⟩
  · rw [hfind]
    refine .inl ⟨fun h => ?_, rfl⟩
    obtain ⟨k, hk, hpos⟩ := hmem.mp h
    exact hnone k (Nat.zero_le k) hk hpos
  · obtain ⟨buf', hmove, hbuf'⟩ := @move_eq N _ head tail N i hi.le (by omega) cq.buf
    rw [hfind, htail]
    simp only [Option.bind_eq_bind, Option.bind_some, hmove]
    refine .inr ⟨hmem.mpr ⟨i, hi, heq⟩, buf', rfl, fun last hlast => ?_⟩
    rw [RingBuffer.contents_remove hlast hempty hi fun k hk => hbuf' k (by omega),
      RingBuffer.contents_eq]
    exact Compaction.eraseIdx_first hi heq fun j hj => hfirst j (Nat.zero_le j) hj

theorem Holds.remove (h : cq.Holds l) (pos : Nat) (hclear : Clear (.remove pos) cq) :
    ∃ cq', (machine N).step (.remove pos) cq = some (cq', (fifo N l (.remove pos)).2) ∧
      cq'.Holds (fifo N l (.remove pos)).1 := by
  obtain ⟨head, tail, hhead, htail, hstored⟩ := h.exists_fin
  simp only [machine, fifo]
  rcases remove_spec hhead htail pos with ⟨hmem, heq⟩ | ⟨hmem, buf, heq, hbuf⟩ <;>
    rw [hstored] at hmem
  · rw [heq, if_neg hmem]
    exact ⟨cq, rfl, h⟩
  · have hempty : head ≠ tail := fun hempty => by
      rw [← hstored, RingBuffer.contents_eq_nil.mpr hempty] at hmem
      exact List.not_mem_nil hmem
    obtain ⟨last, hlast⟩ := exists_last hempty
    have hne : tail.val ≠ 0 := fun hzero =>
      hclear (by rw [htail, hzero]; rfl) (h.stored ▸ hmem)
    rw [heq, if_pos hmem]
    refine ⟨_, rfl, @holds_of _ _ _ _ head last hhead ?_ ?_⟩
    · rw [htail]
      exact back_val hlast hne
    · rw [← hstored]
      exact hbuf last hlast

/-- **A removal at slot 0 breaks the queue.** -/
theorem Holds.breaks (h : cq.Holds l) {call : Call} (hclear : ¬Clear call cq) {cq' : JmpBufCQ N}
    {answer : Answer} (hstep : (machine N).step call cq = some (cq', answer))
    (l' : List Nat) : ¬cq'.Holds l' := by
  cases call with
  | push | pop | checkPop => exact absurd trivial hclear
  | remove pos =>
    obtain ⟨head, tail, hhead, htail, hstored⟩ := h.exists_fin
    simp only [Clear, Classical.not_imp, not_not] at hclear
    obtain ⟨hzero, hmem⟩ := hclear
    rw [stored_eq hhead htail] at hmem
    rcases remove_spec hhead htail pos with ⟨hnot, -⟩ | ⟨-, buf, heq, -⟩
    · exact absurd hmem hnot
    · have hone : N ≠ 1 := by
        rintro rfl
        rw [RingBuffer.contents_eq_nil.mpr (Subsingleton.elim head tail)] at hmem
        exact List.not_mem_nil hmem
      simp only [machine, heq, Option.map_some, Option.some.injEq, Prod.mk.injEq] at hstep
      rw [← hstep.1]
      intro hholds
      have hrange : (0 : Int) ≤ (cq.tail - 1).tmod N := hholds.tail.1
      rw [hzero, back_zero hone] at hrange
      exact absurd hrange (by decide)

/-- **A call that keeps clear of slot 0 is answered as the list answers it.** -/
theorem Holds.step (h : cq.Holds l) {call : Call} (hclear : Clear call cq) :
    ∃ cq', (machine N).step call cq = some (cq', (fifo N l call).2) ∧
      cq'.Holds (fifo N l call).1 := by
  cases call with
  | push pos => exact h.push pos
  | pop => exact h.pop
  | checkPop => exact h.checkPop
  | remove pos => exact h.remove pos hclear

/-! ### The runs -/

theorem Lawful.holds {calls : List Call} (h : cq.Lawful l calls) : cq.Holds l := by
  cases calls with
  | nil => exact h
  | cons => exact h.1

theorem Holds.lawful_iff (h : cq.Holds l) (calls : List Call) :
    cq.Lawful l calls ↔ (machine N).Meets Clear cq calls := by
  induction calls generalizing cq l with
  | nil => exact iff_of_true h trivial
  | cons call calls ih =>
    constructor
    · rintro ⟨-, cq', hstep, hlawful⟩
      have hclear : Clear call cq := by
        by_contra hbad
        exact h.breaks hbad hstep _ hlawful.holds
      exact (machine N).meets_cons hstep hclear ((ih hlawful.holds).mp hlawful)
    · rintro ⟨hclear, hrest⟩
      obtain ⟨cq', hstep, h'⟩ := h.step hclear
      exact ⟨h, cq', hstep, (ih h').mpr (hrest cq' _ hstep)⟩

/-- **An empty queue answers all of some calls as a bounded list does, with head and tail in
their range, just when none of them removes an entry while the tail is 0.** -/
theorem jcq_lawful_iff (h : cq.Holds []) (calls : List Call) :
    cq.Lawful [] calls ↔ (machine N).Meets Clear cq calls :=
  h.lawful_iff calls

/-- An empty queue. -/
def empty (N : Nat) : JmpBufCQ N := ⟨fun _ => 0, 0, 0⟩

/-- An empty queue holds nothing. -/
theorem holds_empty : (empty N).Holds [] :=
  @holds_of N _ (empty N) [] ⟨0, NeZero.pos N⟩ ⟨0, NeZero.pos N⟩ rfl rfl
    (RingBuffer.contents_eq_nil.mpr rfl)

theorem jcq_lawful_iff_two :
    (empty 16).Lawful [] [.push 1, .push 2, .remove 1] ↔
      (machine 16).Meets Clear (empty 16) [.push 1, .push 2, .remove 1] :=
  jcq_lawful_iff holds_empty _

/-- The sixteenth place is removed while the tail is at slot 0 again. -/
theorem not_jcq_lawful : ¬∀ calls, (empty 16).Lawful [] calls := by
  intro hall
  have hmeets := (holds_empty.lawful_iff _).mp
    (hall ((List.replicate 15 [Call.push 1, .pop]).flatten ++ [.push 1, .remove 1]))
  exact absurd hmeets (by decide +kernel)

end JmpBufCQ

end PikaScript
