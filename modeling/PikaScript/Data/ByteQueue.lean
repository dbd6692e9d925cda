import PikaScript.Lib.RingBuffer

/-! The byte queue of `dataQueue.c`.

A ring of bytes with a count, and a second head that looks ahead: `peek` and
`peek_count` run from `head` and `count` up to the tail, and reading puts them back.
`Holds` says which bytes are queued and how many of them have been peeked. -/
namespace PikaScript

structure ByteQueue (N : Nat) where
  buffer : Fin N → BitVec 8
  head : Fin N
  tail : Fin N
  peek : Fin N
  count : Nat
  peekCount : Nat

namespace ByteQueue
variable {N : Nat} [NeZero N] (queue : ByteQueue N)

/-! ### The code -/

/-- `byteQueue_init`, of a queue that is not full. -/
def init (buffer : Fin N → BitVec 8) : ByteQueue N := ⟨buffer, 0, 0, 0, 0, 0⟩

/-- `byteQueue_readOne`. -/
def readOne : Option (BitVec 8 × ByteQueue N) :=
  if queue.head == queue.tail && queue.count == 0 then none
  else
    let head := RingBuffer.next queue.head
    let count := queue.count - 1
    some (queue.buffer queue.head,
      { queue with head := head, count := count, peekCount := count, peek := head })

/-- `byteQueue_peekOne`. -/
def peekOne : Option (BitVec 8 × ByteQueue N) :=
  if queue.peek == queue.tail && queue.peekCount == 0 then none
  else
    some (queue.buffer queue.peek,
      { queue with peek := RingBuffer.next queue.peek, peekCount := queue.peekCount - 1 })

/-- `byteQueue_resetPeek`. -/
def resetPeek : ByteQueue N := { queue with peekCount := queue.count, peek := queue.head }

/-- `byteQueue_getPeekedNumber`. -/
def peekedNumber : Nat := queue.count - queue.peekCount

/-- `byteQueue_dropAllPeeked`. -/
def dropAllPeeked : ByteQueue N := { queue with count := queue.peekCount, head := queue.peek }

/-- `byteQueue_writeOne`; none when the queue is full. -/
def writeOne (byte : BitVec 8) : Option (ByteQueue N) :=
  if queue.head == queue.tail && queue.count != 0 then none
  else
    some { queue with
      buffer := Function.update queue.buffer queue.tail byte
      tail := RingBuffer.next queue.tail
      count := queue.count + 1
      peekCount := queue.peekCount + 1 }

/-- The bytes that are queued. -/
def contents : List (BitVec 8) := RingBuffer.window queue.buffer queue.head queue.count

/-! ### What a queue holds -/

end ByteQueue

/-- The queue holds the bytes, and so many of them have been peeked. -/
structure ByteQueue.Holds {N : Nat} [NeZero N] (queue : ByteQueue N) (bytes : List (BitVec 8))
    (peeked : Nat) : Prop where
  contents : queue.contents = bytes
  count_le : queue.count ≤ N
  peeked_le : peeked ≤ queue.count
  tail : queue.tail = RingBuffer.slot queue.head queue.count
  peek : queue.peek = RingBuffer.slot queue.head peeked
  peekCount : queue.peekCount = queue.count - peeked

namespace ByteQueue.Holds
variable {N : Nat} [NeZero N] {queue : ByteQueue N} {bytes rest : List (BitVec 8)}
  {byte : BitVec 8} {peeked : Nat}

theorem of_init (buffer : Fin N → BitVec 8) : (ByteQueue.init buffer).Holds [] 0 where
  contents := rfl
  count_le := Nat.zero_le _
  peeked_le := le_rfl
  tail := (RingBuffer.slot_zero _).symm
  peek := (RingBuffer.slot_zero _).symm
  peekCount := rfl

theorem length (h : queue.Holds bytes peeked) : bytes.length = queue.count := by
  rw [← h.contents, ByteQueue.contents, RingBuffer.length_window]

theorem length_le (h : queue.Holds bytes peeked) : bytes.length ≤ N := h.length ▸ h.count_le

/-- **Writing appends**, while there is room. -/
theorem writeOne (h : queue.Holds bytes peeked) (hroom : bytes.length < N) (byte : BitVec 8) :
    ∃ queue', queue.writeOne byte = some queue' ∧ queue'.Holds (bytes ++ [byte]) peeked := by
  have hlength := h.length
  have hpeeked := h.peeked_le
  have hfull : ¬((queue.head == queue.tail && queue.count != 0) = true) := by
    simp only [Bool.and_eq_true, beq_iff_eq, bne_iff_ne]
    intro ⟨htail, hcount⟩
    rcases (RingBuffer.slot_eq_iff h.count_le).mp (h.tail.symm.trans htail.symm) with h₀ | h₀
    · exact hcount h₀
    · omega
  refine ⟨_, if_neg hfull, ?_, by dsimp only; omega, Nat.le_succ_of_le hpeeked, ?_, h.peek, ?_⟩
  · rw [← h.contents]
    simp only [ByteQueue.contents, h.tail]
    exact RingBuffer.window_write byte (by omega)
  · simp only [h.tail, RingBuffer.slot_succ]
  · simp only [h.peekCount]
    omega

/-- A full queue takes no byte. -/
theorem writeOne_none (h : queue.Holds bytes peeked) (hfull : bytes.length = N)
    (byte : BitVec 8) : queue.writeOne byte = none := by
  have hcount : queue.count = N := h.length ▸ hfull
  have hne : queue.count ≠ 0 := by
    rw [hcount]
    exact NeZero.ne N
  have htail : queue.head = queue.tail :=
    (h.tail.trans ((RingBuffer.slot_eq_iff h.count_le).mpr (.inr hcount))).symm
  refine if_pos ?_
  rw [Bool.and_eq_true, beq_iff_eq, bne_iff_ne]
  exact ⟨htail, hne⟩

/-- Nothing can be read from an empty queue. -/
theorem readOne_none (h : queue.Holds [] peeked) : queue.readOne = none := by
  have hcount : queue.count = 0 := h.length.symm
  have htail : queue.head = queue.tail :=
    (h.tail.trans ((RingBuffer.slot_eq_iff h.count_le).mpr (.inl hcount))).symm
  refine if_pos ?_
  rw [Bool.and_eq_true, beq_iff_eq, beq_iff_eq]
  exact ⟨htail, hcount⟩

/-- **Reading takes the first byte**, and puts the peek back. -/
theorem readOne (h : queue.Holds (byte :: bytes) peeked) :
    ∃ queue', queue.readOne = some (byte, queue') ∧ queue'.Holds bytes 0 := by
  have hlength := h.length
  rw [List.length_cons] at hlength
  have hcontents := h.contents
  rw [ByteQueue.contents, ← hlength, RingBuffer.window_succ, List.cons.injEq] at hcontents
  have hempty : ¬((queue.head == queue.tail && queue.count == 0) = true) := by
    simp only [Bool.and_eq_true, beq_iff_eq]
    omega
  have hcount : queue.count - 1 = bytes.length := by omega
  refine ⟨_, (if_neg hempty).trans (by rw [hcontents.1]), ?_, ?_, Nat.zero_le _, ?_, ?_, ?_⟩
  · simp only [ByteQueue.contents, hcount]
    exact hcontents.2
  · have hle := h.count_le
    dsimp only
    omega
  · simp only [RingBuffer.slot_next, hcount, hlength]
    exact h.tail
  · exact (RingBuffer.slot_zero _).symm
  · rfl

/-- **Peeking shows the first byte that has not been peeked.** -/
theorem peekOne (h : queue.Holds bytes peeked) (hrest : bytes.drop peeked = byte :: rest) :
    ∃ queue', queue.peekOne = some (byte, queue') ∧ queue'.Holds bytes (peeked + 1) := by
  have hlength := h.length
  have hlt : peeked < bytes.length := by
    by_contra hge
    rw [List.drop_eq_nil_of_le (by omega)] at hrest
    cases hrest
  have hempty : ¬((queue.peek == queue.tail && queue.peekCount == 0) = true) := by
    simp only [Bool.and_eq_true, beq_iff_eq, h.peekCount]
    omega
  have hbyte : queue.buffer queue.peek = byte := by
    have hget : bytes[peeked]? = some byte := by
      rw [← List.head?_drop, hrest]
      rfl
    rw [← h.contents, ByteQueue.contents, RingBuffer.getElem?_window _ _ (by omega)] at hget
    rw [h.peek]
    exact Option.some.inj hget
  refine ⟨{ queue with
    peek := RingBuffer.next queue.peek, peekCount := queue.peekCount - 1 },
    (if_neg hempty).trans (by rw [hbyte]), h.contents, h.count_le, ?_, h.tail, ?_, ?_⟩
  · dsimp only
    omega
  · simp only [h.peek, RingBuffer.slot_succ]
  · simp only [h.peekCount]
    omega

theorem peekOne_none (h : queue.Holds bytes peeked) (hrest : bytes.drop peeked = []) :
    queue.peekOne = none := by
  have hlength := h.length
  have hle := h.peeked_le
  rw [List.drop_eq_nil_iff] at hrest
  have hall : peeked = queue.count := by omega
  refine if_pos ?_
  simp [h.peek, h.tail, h.peekCount, hall]

theorem resetPeek (h : queue.Holds bytes peeked) : queue.resetPeek.Holds bytes 0 where
  contents := h.contents
  count_le := h.count_le
  peeked_le := Nat.zero_le _
  tail := h.tail
  peek := (RingBuffer.slot_zero _).symm
  peekCount := rfl

theorem peekedNumber (h : queue.Holds bytes peeked) : queue.peekedNumber = peeked := by
  have hle := h.peeked_le
  rw [ByteQueue.peekedNumber, h.peekCount]
  omega

/-- **What has been peeked can be dropped.** -/
theorem dropAllPeeked (h : queue.Holds bytes peeked) :
    queue.dropAllPeeked.Holds (bytes.drop peeked) 0 where
  contents := by
    rw [← h.contents]
    simp only [ByteQueue.contents, ByteQueue.dropAllPeeked, RingBuffer.drop_window, h.peek,
      h.peekCount]
  count_le := by
    have hle := h.count_le
    simp only [ByteQueue.dropAllPeeked, h.peekCount]
    omega
  peeked_le := Nat.zero_le _
  tail := by
    have hle := h.peeked_le
    simp only [ByteQueue.dropAllPeeked, h.peek, h.peekCount, RingBuffer.slot_slot, h.tail]
    congr 1
    omega
  peek := (RingBuffer.slot_zero _).symm
  peekCount := rfl

end ByteQueue.Holds

end PikaScript
