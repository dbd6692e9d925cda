import PikaScript.Data.ByteQueue
import PikaScript.Lib.LookaheadFifo

/-! The byte queue over its 16-bit fields.

`ByteQueueRecord` is the record of `dataQueue.c` with the widths it has there, and
its calls read and write the buffer only where there is one. It stands for a
`ByteQueue` of its size (`Views`), whose indices cannot leave the buffer and whose
counters cannot wrap, and so it answers any calls as a bounded first-in first-out
queue does. -/
namespace PikaScript

/-- `ByteQueue`, with what `buffer` points at. -/
structure ByteQueueRecord where
  buffer : List (BitVec 8)
  bufferSize : BitVec 16
  head : BitVec 16
  tail : BitVec 16
  peek : BitVec 16
  count : BitVec 16
  peekCount : BitVec 16

namespace ByteQueueRecord
variable (queue : ByteQueueRecord)

/-! ### The code -/

/-- `byteQueue_init`, of a queue that is not full. -/
def init (buffer : List (BitVec 8)) (size : BitVec 16) : ByteQueueRecord :=
  ⟨buffer, size, 0, 0, 0, 0, 0⟩

/-- An index that has been counted on, and put back at the end of the buffer. -/
def after (index : BitVec 16) : BitVec 16 :=
  if queue.bufferSize ≤ index + 1 then 0 else index + 1

/-- `byteQueue_readOne`. None when it reads outside the buffer. -/
def readOne : Option (ByteQueueRecord × Option (BitVec 8)) :=
  if queue.head == queue.tail && queue.count == 0 then some (queue, none)
  else do
    let byte ← queue.buffer[queue.head.toNat]?
    let head := queue.after queue.head
    let count := queue.count - 1
    return ({ queue with head := head, count := count, peekCount := count, peek := head },
      some byte)

/-- `byteQueue_peekOne`. None when it reads outside the buffer. -/
def peekOne : Option (ByteQueueRecord × Option (BitVec 8)) :=
  if queue.peek == queue.tail && queue.peekCount == 0 then some (queue, none)
  else do
    let byte ← queue.buffer[queue.peek.toNat]?
    return ({ queue with peek := queue.after queue.peek, peekCount := queue.peekCount - 1 },
      some byte)

/-- `byteQueue_resetPeek`. -/
def resetPeek : ByteQueueRecord := { queue with peekCount := queue.count, peek := queue.head }

/-- `byteQueue_getPeekedNumber`. -/
def getPeekedNumber : Int := queue.count.toNat - queue.peekCount.toNat

/-- `byteQueue_dropAllPeeked`. -/
def dropAllPeeked : ByteQueueRecord := { queue with count := queue.peekCount, head := queue.peek }

/-- `byteQueue_writeOne`. None when it writes outside the buffer. -/
def writeOne (byte : BitVec 8) : Option (ByteQueueRecord × Bool) :=
  if queue.head == queue.tail && queue.count != 0 then some (queue, false)
  else if queue.tail.toNat < queue.buffer.length then
    some ({ queue with
      buffer := queue.buffer.set queue.tail.toNat byte
      tail := queue.after queue.tail
      count := queue.count + 1
      peekCount := queue.peekCount + 1 }, true)
  else none

/-- A call. -/
def step : LookaheadFifo.Call (BitVec 8) →
    Option (ByteQueueRecord × LookaheadFifo.Answer (BitVec 8))
  | .write byte => (queue.writeOne byte).map fun r => (r.1, .wrote r.2)
  | .read => queue.readOne.map fun r => (r.1, .element r.2)
  | .peek => queue.peekOne.map fun r => (r.1, .element r.2)
  | .resetPeek => some (queue.resetPeek, .done)
  | .dropAllPeeked => some (queue.dropAllPeeked, .done)
  | .peekedNumber => some (queue, .number queue.getPeekedNumber)

/-- The calls of a byte queue; a call that leaves the buffer is refused. -/
def machine : Machine (LookaheadFifo.Call (BitVec 8)) ByteQueueRecord
    (LookaheadFifo.Answer (BitVec 8)) where
  step call queue := queue.step call

/-! ### The queue that a record stands for -/

/-- The record stands for a queue of its size: field for field the same. -/
structure Views {N : Nat} (record : ByteQueueRecord) (queue : ByteQueue N) : Prop where
  buffer : record.buffer = List.ofFn queue.buffer
  bufferSize : record.bufferSize.toNat = N
  head : record.head.toNat = queue.head.val
  tail : record.tail.toNat = queue.tail.val
  peek : record.peek.toNat = queue.peek.val
  count : record.count.toNat = queue.count
  peekCount : record.peekCount.toNat = queue.peekCount

end ByteQueueRecord

namespace ByteQueueRecord.Views
variable {N : Nat} {record : ByteQueueRecord} {queue queue' : ByteQueue N}
  {bytes : List (BitVec 8)} {byte : BitVec 8} {peeked : Nat}

theorem size_lt (h : record.Views queue) : N < 2 ^ 16 := h.bufferSize ▸ record.bufferSize.isLt

theorem getElem? (h : record.Views queue) {index : BitVec 16} {i : Fin N}
    (hi : index.toNat = i.val) : record.buffer[index.toNat]? = some (queue.buffer i) := by
  rw [h.buffer, hi, List.getElem?_ofFn, dif_pos i.isLt]

/-- Two indices are equal when the slots they stand for are. -/
theorem beq_slot {a b : BitVec 16} {i j : Fin N} (ha : a.toNat = i.val) (hb : b.toNat = j.val) :
    (a == b) = (i == j) := by
  rw [Bool.eq_iff_iff, beq_iff_eq, beq_iff_eq, ← BitVec.toNat_inj, ha, hb, Fin.ext_iff]

theorem beq_zero {a : BitVec 16} {n : Nat} (ha : a.toNat = n) : (a == 0) = (n == 0) := by
  rw [Bool.eq_iff_iff, beq_iff_eq, beq_iff_eq, ← BitVec.toNat_inj, ha]
  rfl

/-- A counter below the size can be counted on. -/
theorem toNat_succ {a : BitVec 16} {n : Nat} (ha : a.toNat = n) (hn : n + 1 < 2 ^ 16) :
    (a + 1).toNat = n + 1 := by
  rw [BitVec.toNat_add, ha]
  exact Nat.mod_eq_of_lt hn

theorem toNat_pred {a : BitVec 16} {n : Nat} (ha : a.toNat = n) (hn : n ≠ 0) :
    (a - 1).toNat = n - 1 := by
  have hlt := a.isLt
  rw [BitVec.toNat_sub, ha]
  simp
  omega

theorem resetPeek (h : record.Views queue) : record.resetPeek.Views queue.resetPeek :=
  ⟨h.buffer, h.bufferSize, h.head, h.tail, h.head, h.count, h.count⟩

theorem dropAllPeeked (h : record.Views queue) :
    record.dropAllPeeked.Views queue.dropAllPeeked :=
  ⟨h.buffer, h.bufferSize, h.peek, h.tail, h.peek, h.peekCount, h.peekCount⟩

variable [NeZero N]

/-- An index that has been counted on is the next slot. -/
theorem after (h : record.Views queue) {index : BitVec 16} {i : Fin N}
    (hi : index.toNat = i.val) : (record.after index).toNat = (RingBuffer.next i).val := by
  have hsize := h.size_lt
  have hlt := i.isLt
  have hnext := toNat_succ hi (by omega)
  have hend : record.bufferSize ≤ index + 1 ↔ i.val + 1 = N := by
    rw [BitVec.le_def, hnext, h.bufferSize]
    omega
  rw [ByteQueueRecord.after, RingBuffer.next_val]
  by_cases heq : i.val + 1 = N
  · rw [if_pos (hend.mpr heq), if_pos heq]
    rfl
  · rw [if_neg (fun hle => heq (hend.mp hle)), if_neg heq, hnext]

/-! ### The calls that move an index -/

theorem readOne_none (h : record.Views queue) (hread : queue.readOne = none) :
    record.readOne = some (record, none) := by
  refine if_pos ?_
  rw [beq_slot h.head h.tail, beq_zero h.count]
  by_contra hne
  rw [ByteQueue.readOne, if_neg hne] at hread
  cases hread

theorem readOne (h : record.Views queue) (hcount : queue.count ≠ 0)
    (hread : queue.readOne = some (byte, queue')) :
    ∃ record', record.readOne = some (record', some byte) ∧ record'.Views queue' := by
  have hempty : ¬((queue.head == queue.tail && queue.count == 0) = true) := by
    rw [Bool.and_eq_true, beq_iff_eq, beq_iff_eq]
    exact fun hboth => hcount hboth.2
  rw [ByteQueue.readOne, if_neg hempty, Option.some.injEq, Prod.mk.injEq] at hread
  obtain ⟨rfl, rfl⟩ := hread
  have hhead := h.after h.head
  have hpred := toNat_pred h.count hcount
  refine ⟨{ record with
    head := record.after record.head, count := record.count - 1
    peekCount := record.count - 1, peek := record.after record.head }, ?_,
    h.buffer, h.bufferSize, hhead, h.tail, hhead, hpred, hpred⟩
  rw [ByteQueueRecord.readOne, beq_slot h.head h.tail, beq_zero h.count, if_neg hempty,
    h.getElem? h.head]
  rfl

theorem peekOne_none (h : record.Views queue) (hpeek : queue.peekOne = none) :
    record.peekOne = some (record, none) := by
  refine if_pos ?_
  rw [beq_slot h.peek h.tail, beq_zero h.peekCount]
  by_contra hne
  rw [ByteQueue.peekOne, if_neg hne] at hpeek
  cases hpeek

theorem peekOne (h : record.Views queue) (hcount : queue.peekCount ≠ 0)
    (hpeek : queue.peekOne = some (byte, queue')) :
    ∃ record', record.peekOne = some (record', some byte) ∧ record'.Views queue' := by
  have hempty : ¬((queue.peek == queue.tail && queue.peekCount == 0) = true) := by
    rw [Bool.and_eq_true, beq_iff_eq, beq_iff_eq]
    exact fun hboth => hcount hboth.2
  rw [ByteQueue.peekOne, if_neg hempty, Option.some.injEq, Prod.mk.injEq] at hpeek
  obtain ⟨rfl, rfl⟩ := hpeek
  refine ⟨{ record with
    peek := record.after record.peek, peekCount := record.peekCount - 1 }, ?_,
    h.buffer, h.bufferSize, h.head, h.tail, h.after h.peek, h.count,
    toNat_pred h.peekCount hcount⟩
  rw [ByteQueueRecord.peekOne, beq_slot h.peek h.tail, beq_zero h.peekCount, if_neg hempty,
    h.getElem? h.peek]
  rfl

theorem writeOne_none (h : record.Views queue) (hwrite : queue.writeOne byte = none) :
    record.writeOne byte = some (record, false) := by
  refine if_pos ?_
  rw [bne, beq_slot h.head h.tail, beq_zero h.count]
  by_contra hne
  rw [ByteQueue.writeOne, bne, if_neg hne] at hwrite
  cases hwrite

theorem writeOne (h : record.Views queue) (hcount : queue.count < N)
    (hpeek : queue.peekCount ≤ queue.count) (hwrite : queue.writeOne byte = some queue') :
    ∃ record', record.writeOne byte = some (record', true) ∧ record'.Views queue' := by
  have hsize := h.size_lt
  by_cases hfull : (queue.head == queue.tail && queue.count != 0) = true
  · rw [ByteQueue.writeOne, if_pos hfull] at hwrite
    cases hwrite
  rw [ByteQueue.writeOne, if_neg hfull, Option.some.injEq] at hwrite
  subst hwrite
  refine ⟨{ record with
    buffer := record.buffer.set record.tail.toNat byte, tail := record.after record.tail
    count := record.count + 1, peekCount := record.peekCount + 1 }, ?_,
    ?_, h.bufferSize, h.head, h.after h.tail, h.peek, toNat_succ h.count (by omega),
    toNat_succ h.peekCount (by omega)⟩
  · have hin : record.tail.toNat < record.buffer.length := by
      rw [h.buffer, List.length_ofFn, h.tail]
      exact queue.tail.isLt
    rw [bne] at hfull
    rw [ByteQueueRecord.writeOne, bne, beq_slot h.head h.tail, beq_zero h.count, if_neg hfull,
      if_pos hin]
  · refine List.ext_getElem (by simp [h.buffer]) fun k hk hk' => ?_
    rw [List.length_ofFn] at hk'
    simp only [h.buffer, h.tail, List.getElem_set, List.getElem_ofFn, Function.update_apply,
      Fin.ext_iff, eq_comm]

end ByteQueueRecord.Views

/-! ### Any calls -/

namespace ByteQueueRecord
variable {N : Nat} [NeZero N] {record : ByteQueueRecord}
  {fifo : LookaheadFifo (BitVec 8) N}

/-- The record stands for a queue that holds what the abstract one does. -/
def Refines (record : ByteQueueRecord) (fifo : LookaheadFifo (BitVec 8) N) : Prop :=
  ∃ queue : ByteQueue N, record.Views queue ∧ queue.Holds fifo.queued fifo.peeked

theorem refines_write (h : record.Refines fifo) (byte : BitVec 8) :
    ∃ record', record.step (.write byte) = some (record', (fifo.write byte).2) ∧
      record'.Refines (fifo.write byte).1 := by
  obtain ⟨queue, hview, hholds⟩ := h
  rw [step, LookaheadFifo.write]
  by_cases hroom : fifo.queued.length < N
  · rw [dif_pos hroom]
    obtain ⟨queue', hwrite, hholds'⟩ := hholds.writeOne hroom byte
    have hlength := hholds.length
    have hpeek := hholds.peekCount
    obtain ⟨record', hwrite', hview'⟩ :=
      hview.writeOne (by omega) (by omega) hwrite
    exact ⟨record', by rw [hwrite']; rfl, queue', hview', hholds'⟩
  · rw [dif_neg hroom]
    have hfull : fifo.queued.length = N := le_antisymm fifo.length_le (not_lt.mp hroom)
    have hwrite := hview.writeOne_none (hholds.writeOne_none hfull byte)
    exact ⟨record, by rw [hwrite]; rfl, queue, hview, hholds⟩

theorem refines_read (h : record.Refines fifo) :
    ∃ record', record.step .read = some (record', fifo.read.2) ∧
      record'.Refines fifo.read.1 := by
  obtain ⟨queue, hview, hholds⟩ := h
  rw [step, LookaheadFifo.read]
  split
  · rename_i hnil
    have hread := hview.readOne_none ((hnil ▸ hholds).readOne_none)
    exact ⟨record, by rw [hread]; rfl, queue, hview, hholds⟩
  · rename_i byte rest hcons
    have hlength := hholds.length
    rw [hcons, List.length_cons] at hlength
    obtain ⟨queue', hread, hholds'⟩ := (hcons ▸ hholds).readOne
    obtain ⟨record', hread', hview'⟩ := hview.readOne (by omega) hread
    refine ⟨record', by rw [hread']; rfl, queue', hview', ?_⟩
    have hrest : fifo.queued.drop 1 = rest := by rw [hcons]; rfl
    show queue'.Holds (fifo.queued.drop 1) 0
    rw [hrest]
    exact hholds'

theorem refines_peek (h : record.Refines fifo) :
    ∃ record', record.step .peek = some (record', fifo.peek.2) ∧
      record'.Refines fifo.peek.1 := by
  obtain ⟨queue, hview, hholds⟩ := h
  rw [step, LookaheadFifo.peek]
  by_cases hmore : fifo.peeked < fifo.queued.length
  · rw [dif_pos hmore]
    have hlength := hholds.length
    have hcount := hholds.peekCount
    obtain ⟨queue', hpeek, hholds'⟩ := hholds.peekOne (List.drop_eq_getElem_cons hmore)
    obtain ⟨record', hpeek', hview'⟩ := hview.peekOne (by omega) hpeek
    exact ⟨record', by rw [hpeek']; rfl, queue', hview', hholds'⟩
  · rw [dif_neg hmore]
    have hnone := hholds.peekOne_none (List.drop_eq_nil_of_le (not_lt.mp hmore))
    have hpeek := hview.peekOne_none hnone
    exact ⟨record, by rw [hpeek]; rfl, queue, hview, hholds⟩

theorem refines_peekedNumber (h : record.Refines fifo) :
    record.getPeekedNumber = fifo.peeked := by
  obtain ⟨queue, hview, hholds⟩ := h
  have hpeek := hholds.peekCount
  have hle := hholds.peeked_le
  rw [getPeekedNumber, hview.count, hview.peekCount]
  omega

/-- **Every call is answered as the abstract queue answers it.** -/
theorem refines_step (h : record.Refines fifo) (call : LookaheadFifo.Call (BitVec 8)) :
    ∃ record', record.step call = some (record', (fifo.step call).2) ∧
      record'.Refines (fifo.step call).1 := by
  cases call with
  | write byte => exact refines_write h byte
  | read => exact refines_read h
  | peek => exact refines_peek h
  | resetPeek =>
    obtain ⟨queue, hview, hholds⟩ := h
    exact ⟨_, rfl, _, hview.resetPeek, hholds.resetPeek⟩
  | dropAllPeeked =>
    obtain ⟨queue, hview, hholds⟩ := h
    exact ⟨_, rfl, _, hview.dropAllPeeked, hholds.dropAllPeeked⟩
  | peekedNumber => exact ⟨record, by rw [step, refines_peekedNumber h]; rfl, h⟩

theorem refines_init {buffer : List (BitVec 8)} {size : BitVec 16} (hsize : size.toNat = N)
    (hbuffer : buffer.length = N) :
    (init buffer size).Refines (.empty : LookaheadFifo (BitVec 8) N) := by
  refine ⟨.init fun i => buffer.get (i.cast hbuffer.symm), ⟨?_, hsize, rfl, rfl, rfl, rfl, rfl⟩,
    .of_init _⟩
  refine List.ext_getElem (by rw [List.length_ofFn]; exact hbuffer) fun k hk hk' => ?_
  rw [List.getElem_ofFn]
  rfl

/-- **A byte queue is a bounded first-in first-out queue.** With a buffer of the size that is
given, whatever that is, every sequence of calls is taken, inside the buffer, and answered as
the abstract queue of that capacity answers it. -/
theorem byteQueue_run {size : BitVec 16} (hsize : size ≠ 0) {buffer : List (BitVec 8)}
    (hbuffer : buffer.length = size.toNat) (calls : List (LookaheadFifo.Call (BitVec 8))) :
    ∃ record' fifo' answers,
      machine.run (init buffer size) calls = some (record', answers) ∧
      (LookaheadFifo.machine (BitVec 8) size.toNat).run .empty calls = some (fifo', answers) := by
  have : NeZero size.toNat := ⟨fun hzero => hsize (BitVec.eq_of_toNat_eq hzero)⟩
  obtain ⟨record', fifo', answers, hrun, hrun', -⟩ :=
    Machine.run_both_of_meets (m := machine) (n := LookaheadFifo.machine _ size.toNat)
      (C := fun _ _ => True) (fun call _ fifo _ h => by
        obtain ⟨record', hstep, h'⟩ := refines_step h call
        exact ⟨record', _, _, hstep, rfl, h'⟩)
      (refines_init rfl hbuffer) (machine.meets_of_forall (fun _ _ => trivial) _ calls)
  exact ⟨record', fifo', answers, hrun, hrun'⟩

/-- A queue of two bytes, filled, read and looked into. -/
theorem byteQueue_run_two :
    ∃ record' fifo' answers,
      machine.run (init [0, 0] 2) [.write 7, .write 8, .write 9, .read, .peek, .dropAllPeeked]
        = some (record', answers) ∧
      (LookaheadFifo.machine (BitVec 8) (2 : BitVec 16).toNat).run .empty
        [.write 7, .write 8, .write 9, .read, .peek, .dropAllPeeked] = some (fifo', answers) :=
  byteQueue_run (by decide) rfl _

end ByteQueueRecord

end PikaScript
