import PikaScript.Data.Arg
import PikaScript.Lib.Machine
import PikaScript.Lib.RingBuffer
import PikaScript.Lib.Word

/-! The event queues of `PikaVM.c`.

Events go through the circular queue `cq` and signals through `sq`. Both are a
`PikaEventQueue`: parallel arrays of `PIKA_EVENT_LIST_SIZE` slots, here `N`, with
a head and a tail. `popEvent` takes from `cq`, and from `sq` when `cq` is empty,
through one pointer; but it reads the slot at the head of `cq` in either case.

What the queues are for is `fifo`: two first-in first-out lists of at most
`N - 1` entries. `Agrees` says when a step is right, and `run_law` that runs of
such steps answer as `fifo` does. -/
namespace PikaScript

/-- The address of a listener object; 0 is NULL. -/
abbrev Listener := Nat

/-- `PikaEventQueue`. The union `EventDataType` holds an `Arg*` in one queue and a
signal in the other, which is the parameter `D`. -/
structure EventQueue (N : Nat) (D : Type) where
  id : Fin N → Nat
  data : Fin N → D
  listener : Fin N → Listener
  res : Fin N → Option Arg
  head : Fin N
  tail : Fin N

/-- The part of `VMState` the queues are in. -/
structure VMState (N : Nat) where
  cq : EventQueue N (Option Arg)
  sq : EventQueue N Int

namespace EventQueue
variable {N : Nat} [NeZero N] {D : Type} (q : EventQueue N D)

/-- `_ecq_isEmpty`. -/
def isEmpty : Bool := q.head == q.tail

/-- `_ecq_isFull`. -/
def isFull : Bool := RingBuffer.next q.tail == q.head

/-- What both pushes write: the slot at the tail, and the tail after it. The id
array is of `uint32_t`. -/
def store (listener : Listener) (eventId : Nat) (data : D) : EventQueue N D :=
  { q with
    id := Function.update q.id q.tail (u32 eventId)
    data := Function.update q.data q.tail data
    listener := Function.update q.listener q.tail listener
    tail := RingBuffer.next q.tail }

/-- `arg_deinit` of the result kept in a slot. -/
def clearRes (i : Fin N) : EventQueue N D :=
  { q with res := Function.update q.res i none }

/-- Both pops move the head on. -/
def advance : EventQueue N D := { q with head := RingBuffer.next q.head }

end EventQueue

/-- An event's data is an object of its own from now on. -/
def Arg.eventData (data : Arg) : Arg :=
  if data.type = .objectNew then data.setType .object else data

/-- What a pop hands out. The signal is written for a signal only, and the data of
a signal is NULL. -/
structure Pop where
  listener : Listener
  id : Nat
  data : Option Arg
  signal : Option Int
deriving DecidableEq, Repr

namespace VMState
variable {N : Nat} [NeZero N] (s : VMState N)

/-- `__eventListener_pushEvent`: the result, the args it deinitialises and the
state. -/
def pushEvent (listener : Listener) (eventId : Nat) (eventData : Arg) :
    PikaRes × List Arg × VMState N :=
  let eventData := eventData.eventData
  if s.cq.isFull then (.errSignalEventFull, [eventData], s)
  else
    let stale := (s.cq.res s.cq.tail).toList ++ (s.cq.data s.cq.tail).toList
    (.ok, stale, { s with cq := (s.cq.clearRes s.cq.tail).store listener eventId (some eventData) })

/-- `__eventListener_pushSignal`; `firstLock` is `_VM_is_first_lock()`. -/
def pushSignal (firstLock : Bool) (listener : Listener) (eventId : Nat) (signal : Int) :
    PikaRes × List Arg × VMState N :=
  if s.sq.isFull then (.errSignalEventFull, [], s)
  else
    let sq := s.sq.store listener eventId signal
    if firstLock then (.ok, (sq.res sq.tail).toList, { s with sq := sq.clearRes sq.tail })
    else (.ok, [], { s with sq := sq })

/-- `__eventListener_popEvent`: the result, what it hands out with the slot it
says that was in, and the state. The slot it reads is the head of `cq`. -/
def popEvent : PikaRes × Option (Pop × Fin N) × VMState N :=
  let i := s.cq.head
  if !s.cq.isEmpty then
    (.ok, some (⟨s.cq.listener i, s.cq.id i, s.cq.data i, none⟩, s.cq.head),
      { s with cq := s.cq.advance })
  else if !s.sq.isEmpty then
    (.ok, some (⟨s.sq.listener i, s.sq.id i, none, some (s.sq.data i)⟩, s.sq.head),
      { s with sq := s.sq.advance })
  else (.errSignalEventEmpty, none, s)

/-- `__eventListener_popSignalEvent`. -/
def popSignalEvent : PikaRes × Option (Pop × Fin N) × VMState N :=
  let i := s.sq.head
  if s.sq.isEmpty then (.errSignalEventEmpty, none, s)
  else
    (.ok, some (⟨s.sq.listener i, s.sq.id i, none, some (s.sq.data i)⟩, s.sq.head),
      { s with sq := s.sq.advance })

/-- The end of `__VMEvent_pickupEvent`: the result of a run event is kept in the
slot the event came from. -/
def keepRes (fromSignal : Bool) (i : Fin N) (res : Option Arg) : VMState N :=
  if fromSignal then { s with sq := { s.sq with res := Function.update s.sq.res i res } }
  else { s with cq := { s.cq with res := Function.update s.cq.res i res } }

/-- Queues of zeros, as `g_PikaVMState` starts. -/
def init : VMState N where
  cq := ⟨fun _ => 0, fun _ => none, fun _ => 0, fun _ => none, 0, 0⟩
  sq := ⟨fun _ => 0, fun _ => 0, fun _ => 0, fun _ => none, 0, 0⟩

end VMState

/-! ### The queues as a machine -/

/-- A call of one of the four functions, or a result kept between two calls. -/
inductive EventCall (N : Nat) where
  | pushEvent (listener : Listener) (eventId : UInt64) (eventData : Arg)
  | pushSignal (firstLock : Bool) (listener : Listener) (eventId : UInt64) (signal : Int)
  | popEvent
  | popSignalEvent
  | keepRes (fromSignal : Bool) (i : Fin N) (res : Option Arg)

/-- What a caller is told. -/
abbrev EventAnswer := PikaRes × Option Pop

section Machine
variable {N : Nat} [NeZero N]

def eventMachine : Machine (EventCall N) (VMState N) EventAnswer where
  step
    | .pushEvent listener eventId eventData, s =>
      let (res, _, s') := s.pushEvent listener eventId.toNat eventData
      some (s', res, none)
    | .pushSignal firstLock listener eventId signal, s =>
      let (res, _, s') := s.pushSignal firstLock listener eventId.toNat signal
      some (s', res, none)
    | .popEvent, s =>
      let (res, pop, s') := s.popEvent
      some (s', res, pop.map (·.1))
    | .popSignalEvent, s =>
      let (res, pop, s') := s.popSignalEvent
      some (s', res, pop.map (·.1))
    | .keepRes fromSignal i res, s => some (s.keepRes fromSignal i res, .ok, none)

end Machine

/-! ### What the queues are for -/

structure Event where
  listener : Listener
  id : Nat
  data : Arg
deriving DecidableEq, Repr

structure Signal where
  listener : Listener
  id : Nat
  signal : Int
deriving DecidableEq, Repr

def Event.pop (e : Event) : Pop := ⟨e.listener, e.id, some e.data, none⟩

def Signal.pop (g : Signal) : Pop := ⟨g.listener, g.id, none, some g.signal⟩

/-- The events and the signals that wait, oldest first. -/
structure Fifos where
  events : List Event
  signals : List Signal
deriving DecidableEq, Repr

/-- Two first-in first-out queues that hold fewer than `N` entries each. A pop of
an event that finds none takes a signal. -/
def fifo (N : Nat) : Machine (EventCall N) Fifos EventAnswer where
  step
    | .pushEvent listener eventId eventData, q =>
      if q.events.length + 1 < N then
        let e : Event := ⟨listener, eventId.toNat, eventData.eventData⟩
        some ({ q with events := q.events ++ [e] }, .ok, none)
      else some (q, .errSignalEventFull, none)
    | .pushSignal _ listener eventId signal, q =>
      if q.signals.length + 1 < N then
        let g : Signal := ⟨listener, eventId.toNat, signal⟩
        some ({ q with signals := q.signals ++ [g] }, .ok, none)
      else some (q, .errSignalEventFull, none)
    | .popEvent, q =>
      match q.events, q.signals with
      | e :: events, _ => some ({ q with events := events }, .ok, some e.pop)
      | [], g :: signals => some ({ q with signals := signals }, .ok, some g.pop)
      | [], [] => some (q, .errSignalEventEmpty, none)
    | .popSignalEvent, q =>
      match q.signals with
      | g :: signals => some ({ q with signals := signals }, .ok, some g.pop)
      | [] => some (q, .errSignalEventEmpty, none)
    | .keepRes .., q => some (q, .ok, none)

section Accounting
variable {N : Nat}

/-- The event a call put in the queue, if it was accepted. -/
def acceptedEvent : EventCall N × EventAnswer → Option Event
  | (.pushEvent listener eventId eventData, (.ok, _)) =>
    some ⟨listener, eventId.toNat, eventData.eventData⟩
  | _ => none

/-- The signal a call put in the queue, if it was accepted. -/
def acceptedSignal : EventCall N × EventAnswer → Option Signal
  | (.pushSignal _ listener eventId signal, (.ok, _)) => some ⟨listener, eventId.toNat, signal⟩
  | _ => none

/-- The event an answer hands out. -/
def poppedEvent : EventAnswer → Option Event
  | (.ok, some ⟨listener, id, some data, _⟩) => some ⟨listener, id, data⟩
  | _ => none

/-- The signal an answer hands out. -/
def poppedSignal : EventAnswer → Option Signal
  | (.ok, some ⟨listener, id, none, some signal⟩) => some ⟨listener, id, signal⟩
  | _ => none

/-- A step of the two queues appends what it accepts and takes what it hands out
from the front. -/
theorem fifo_step {i : EventCall N} {q q' : Fifos} {a : EventAnswer}
    (h : (fifo N).step i q = some (q', a)) :
    q.events ++ (acceptedEvent (i, a)).toList = (poppedEvent a).toList ++ q'.events ∧
      q.signals ++ (acceptedSignal (i, a)).toList = (poppedSignal a).toList ++ q'.signals := by
  rcases q with ⟨events, signals⟩
  cases i with
  | pushEvent | pushSignal =>
    simp only [fifo] at h
    split at h <;> cases h <;>
      simp [acceptedEvent, acceptedSignal, poppedEvent, poppedSignal]
  | popEvent =>
    rcases events with _ | ⟨e, events⟩ <;> rcases signals with _ | ⟨g, signals⟩ <;> cases h <;>
      simp [acceptedEvent, acceptedSignal, poppedEvent, poppedSignal, Event.pop, Signal.pop]
  | popSignalEvent =>
    rcases signals with _ | ⟨g, signals⟩ <;> cases h <;>
      simp [acceptedEvent, acceptedSignal, poppedEvent, poppedSignal, Signal.pop]
  | keepRes =>
    cases h
    simp [acceptedEvent, acceptedSignal, poppedEvent, poppedSignal]

/-- Over a run, what was there and what was accepted is what was handed out, in
that order, and what still waits. -/
theorem fifo_run {calls : List (EventCall N)} {q q' : Fifos} {answers : List EventAnswer}
    (h : (fifo N).run q calls = some (q', answers)) :
    q.events ++ (calls.zip answers).filterMap acceptedEvent =
        answers.filterMap poppedEvent ++ q'.events ∧
      q.signals ++ (calls.zip answers).filterMap acceptedSignal =
        answers.filterMap poppedSignal ++ q'.signals := by
  induction calls generalizing q answers with
  | nil =>
    cases h
    simp
  | cons i rest ih =>
    obtain ⟨q₁, a, answers, h₁, h₂, rfl⟩ := (fifo N).run_cons h
    obtain ⟨he, hg⟩ := fifo_step h₁
    obtain ⟨ihe, ihg⟩ := ih h₂
    have hcons {α β : Type} (f : α → Option β) (x : α) (xs : List α) :
        (x :: xs).filterMap f = (f x).toList ++ xs.filterMap f := by
      cases hx : f x <;> simp [hx]
    simp only [List.zip_cons_cons, hcons, ← List.append_assoc, he, hg]
    simp only [List.append_assoc, ihe, ihg, and_self]

end Accounting

/-! ### A queue is the list of its slots from head to tail -/

namespace EventQueue
variable {N : Nat} [NeZero N] {D : Type} (q : EventQueue N D)

def slot (i : Fin N) : Listener × Nat × D := (q.listener i, q.id i, q.data i)

/-- What waits in the queue, oldest first. -/
def pending : List (Listener × Nat × D) := RingBuffer.contents q.slot q.head q.tail

theorem isEmpty_iff : q.isEmpty = true ↔ q.pending = [] := by
  rw [isEmpty, beq_iff_eq, pending, RingBuffer.contents_eq_nil]

theorem isFull_iff : q.isFull = true ↔ q.pending.length + 1 = N := by
  rw [isFull, beq_iff_eq, pending, RingBuffer.length_contents, RingBuffer.count_full]

theorem length_pending_lt : q.pending.length < N := by
  rw [pending, RingBuffer.length_contents]
  exact RingBuffer.count_lt ..

theorem isFull_eq_decide : q.isFull = !decide (q.pending.length + 1 < N) := by
  rw [Bool.eq_iff_iff, isFull_iff, Bool.not_eq_true', decide_eq_false_iff_not]
  have := q.length_pending_lt
  omega

theorem pending_store (listener : Listener) (eventId : Nat) (data : D) (h : q.isFull = false) :
    (q.store listener eventId data).pending = q.pending ++ [(listener, u32 eventId, data)] := by
  have hslot : (q.store listener eventId data).slot =
      Function.update q.slot q.tail (listener, u32 eventId, data) := by
    funext i
    by_cases hi : i = q.tail
    · subst hi
      simp [slot, store]
    · simp [slot, store, Function.update_of_ne hi]
  have hne : RingBuffer.next q.tail ≠ q.head := by
    intro he
    rw [isFull, he, beq_self_eq_true] at h
    exact absurd h (by decide)
  unfold pending
  rw [hslot]
  exact RingBuffer.contents_push _ hne

theorem pending_clearRes (i : Fin N) : (q.clearRes i).pending = q.pending := rfl

theorem pending_advance (h : q.isEmpty = false) :
    q.pending = q.slot q.head :: q.advance.pending := by
  have hne : q.head ≠ q.tail := by
    intro he
    rw [isEmpty, he, beq_self_eq_true] at h
    exact absurd h (by decide)
  exact RingBuffer.contents_pop hne

end EventQueue

/-! ### The machine behaves as the two queues -/

section Law
variable {N : Nat} [NeZero N]

def Event.slot (e : Event) : Listener × Nat × Option Arg := (e.listener, e.id, some e.data)

def Signal.slot (g : Signal) : Listener × Nat × Int := (g.listener, g.id, g.signal)

structure Represents (s : VMState N) (q : Fifos) : Prop where
  events : s.cq.pending = q.events.map Event.slot
  signals : s.sq.pending = q.signals.map Signal.slot

/-- When a step is right: an event's id fits the `uint32_t` array it is kept in,
and a signal that `popEvent` takes is in the slot that it reads. -/
def Agrees : EventCall N → VMState N → Prop
  | .pushEvent _ eventId _, _ => eventId.toNat < 2 ^ 32
  | .pushSignal _ _ eventId _, _ => eventId.toNat < 2 ^ 32
  | .popEvent, s => s.cq.isEmpty = true → s.sq.isEmpty = false → s.cq.head = s.sq.head
  | .popSignalEvent, _ => True
  | .keepRes .., _ => True

variable {s s' : VMState N} {q : Fifos} {a : EventAnswer}

theorem Represents.full_events (h : Represents s q) :
    s.cq.isFull = !decide (q.events.length + 1 < N) := by
  rw [s.cq.isFull_eq_decide, h.events, List.length_map]

theorem Represents.full_signals (h : Represents s q) :
    s.sq.isFull = !decide (q.signals.length + 1 < N) := by
  rw [s.sq.isFull_eq_decide, h.signals, List.length_map]

theorem Represents.pushEvent (h : Represents s q) {listener : Listener} {eventId : UInt64}
    {eventData : Arg} (hid : eventId.toNat < 2 ^ 32)
    (hstep : eventMachine.step (.pushEvent listener eventId eventData) s = some (s', a)) :
    ∃ q', (fifo N).step (.pushEvent listener eventId eventData) q = some (q', a) ∧
      Represents s' q' := by
  simp only [eventMachine, VMState.pushEvent, h.full_events] at hstep
  by_cases hlt : q.events.length + 1 < N
  · simp only [hlt, decide_true, Bool.not_true, Bool.false_eq_true, if_false] at hstep
    cases hstep
    refine ⟨⟨q.events ++ [⟨listener, eventId.toNat, eventData.eventData⟩], q.signals⟩,
      by simp only [fifo, hlt, if_true], ?_, h.signals⟩
    have hfull : (s.cq.clearRes s.cq.tail).isFull = false := by
      show s.cq.isFull = false
      rw [h.full_events, decide_eq_true hlt]
      rfl
    show ((s.cq.clearRes s.cq.tail).store _ _ _).pending = _
    rw [EventQueue.pending_store _ _ _ _ hfull, EventQueue.pending_clearRes, h.events,
      u32_of_lt hid, List.map_append]
    rfl
  · simp only [hlt, decide_false, Bool.not_false, if_true] at hstep
    cases hstep
    exact ⟨q, by simp only [fifo, hlt, if_false], h⟩

theorem Represents.pushSignal (h : Represents s q) {firstLock : Bool} {listener : Listener}
    {eventId : UInt64} {signal : Int} (hid : eventId.toNat < 2 ^ 32)
    (hstep : eventMachine.step (.pushSignal firstLock listener eventId signal) s = some (s', a)) :
    ∃ q', (fifo N).step (.pushSignal firstLock listener eventId signal) q = some (q', a) ∧
      Represents s' q' := by
  simp only [eventMachine, VMState.pushSignal, h.full_signals] at hstep
  by_cases hlt : q.signals.length + 1 < N
  · simp only [hlt, decide_true, Bool.not_true, Bool.false_eq_true, if_false] at hstep
    have hfull : s.sq.isFull = false := by
      rw [h.full_signals, decide_eq_true hlt]
      rfl
    let g : Signal := ⟨listener, eventId.toNat, signal⟩
    have hpending : (s.sq.store listener eventId.toNat signal).pending =
        (q.signals ++ [g]).map Signal.slot := by
      rw [EventQueue.pending_store _ _ _ _ hfull, h.signals, u32_of_lt hid, List.map_append]
      rfl
    refine ⟨⟨q.events, q.signals ++ [g]⟩, ?_⟩
    cases firstLock <;> simp only [Bool.false_eq_true, if_false, if_true] at hstep <;> cases hstep
    · exact ⟨by simp only [fifo, hlt, if_true, g], h.events, hpending⟩
    · exact ⟨by simp only [fifo, hlt, if_true, g], h.events, hpending⟩
  · simp only [hlt, decide_false, Bool.not_false, if_true] at hstep
    cases hstep
    exact ⟨q, by simp only [fifo, hlt, if_false], h⟩

/-- A queue whose pending slots are `x :: xs` is not empty, has `x` at its head
and `xs` after a pop. -/
theorem EventQueue.head_of_pending {D : Type} {e : EventQueue N D} {x : Listener × Nat × D}
    {xs : List (Listener × Nat × D)} (h : e.pending = x :: xs) :
    e.isEmpty = false ∧ e.slot e.head = x ∧ e.advance.pending = xs := by
  have hne : e.isEmpty = false := by
    rw [← Bool.not_eq_true, e.isEmpty_iff, h]
    exact List.cons_ne_nil _ _
  have hcons := (e.pending_advance hne).symm.trans h
  exact ⟨hne, (List.cons.inj hcons).1, (List.cons.inj hcons).2⟩

omit [NeZero N] in
/-- A signal is popped from the slot it is in. -/
theorem Signal.pop_of_slot {sq : EventQueue N Int} {i : Fin N} {g : Signal}
    (h : sq.slot i = g.slot) : g.pop = ⟨sq.listener i, sq.id i, none, some (sq.data i)⟩ := by
  simp only [EventQueue.slot, Signal.slot, Prod.mk.injEq] at h
  obtain ⟨h₁, h₂, h₃⟩ := h
  rw [h₁, h₂, h₃, Signal.pop]

omit [NeZero N] in
/-- An event is popped from the slot it is in. -/
theorem Event.pop_of_slot {cq : EventQueue N (Option Arg)} {i : Fin N} {e : Event}
    (h : cq.slot i = e.slot) : e.pop = ⟨cq.listener i, cq.id i, cq.data i, none⟩ := by
  simp only [EventQueue.slot, Event.slot, Prod.mk.injEq] at h
  obtain ⟨h₁, h₂, h₃⟩ := h
  rw [h₁, h₂, h₃, Event.pop]

theorem Represents.popEvent (h : Represents s q) (hagree : Agrees .popEvent s)
    (hstep : eventMachine.step .popEvent s = some (s', a)) :
    ∃ q', (fifo N).step .popEvent q = some (q', a) ∧ Represents s' q' := by
  simp only [eventMachine, VMState.popEvent] at hstep
  rcases q with ⟨_ | ⟨e, events⟩, signals⟩
  · have hcq : s.cq.isEmpty = true := s.cq.isEmpty_iff.mpr h.events
    rcases signals with _ | ⟨g, signals⟩
    · have hsq : s.sq.isEmpty = true := s.sq.isEmpty_iff.mpr h.signals
      simp only [hcq, hsq, Bool.not_true, Bool.false_eq_true, if_false] at hstep
      cases hstep
      exact ⟨_, rfl, h⟩
    · obtain ⟨hsq, hslot, hrest⟩ := EventQueue.head_of_pending h.signals
      simp only [hcq, hsq, Bool.not_true, Bool.not_false, Bool.false_eq_true, if_false, if_true,
        hagree hcq hsq] at hstep
      cases hstep
      exact ⟨⟨[], signals⟩, by simp only [fifo, Signal.pop_of_slot hslot]; rfl, h.events, hrest⟩
  · obtain ⟨hcq, hslot, hrest⟩ := EventQueue.head_of_pending h.events
    simp only [hcq, Bool.not_false, if_true] at hstep
    cases hstep
    exact ⟨⟨events, signals⟩, by simp only [fifo, Event.pop_of_slot hslot]; rfl, hrest, h.signals⟩

theorem Represents.popSignalEvent (h : Represents s q)
    (hstep : eventMachine.step .popSignalEvent s = some (s', a)) :
    ∃ q', (fifo N).step .popSignalEvent q = some (q', a) ∧ Represents s' q' := by
  simp only [eventMachine, VMState.popSignalEvent] at hstep
  rcases q with ⟨events, _ | ⟨g, signals⟩⟩
  · have hsq : s.sq.isEmpty = true := s.sq.isEmpty_iff.mpr h.signals
    simp only [hsq, if_true] at hstep
    cases hstep
    exact ⟨_, rfl, h⟩
  · obtain ⟨hsq, hslot, hrest⟩ := EventQueue.head_of_pending h.signals
    simp only [hsq, Bool.false_eq_true, if_false] at hstep
    cases hstep
    exact ⟨⟨events, signals⟩, by simp only [fifo, Signal.pop_of_slot hslot]; rfl, h.events, hrest⟩

/-- Steps that agree are steps of the two queues. -/
def simulation : Simulation (eventMachine (N := N)) (fifo N) Agrees where
  Rel := Represents
  step i s q s' a hagree h hstep := by
    cases i with
    | pushEvent => exact h.pushEvent hagree hstep
    | pushSignal => exact h.pushSignal hagree hstep
    | popEvent => exact h.popEvent hagree hstep
    | popSignalEvent => exact h.popSignalEvent hstep
    | keepRes fromSignal =>
      cases fromSignal <;> cases hstep
      · exact ⟨q, rfl, h.events, h.signals⟩
      · exact ⟨q, rfl, h.events, h.signals⟩

/-! ### The law of a run -/

/-- What the queues promise of a run from empty queues: it answers as two
first-in first-out queues do, so every accepted event and signal is handed out
once and in order or still waits, and a push onto a full queue changes nothing. -/
structure EventLaw (calls : List (EventCall N)) (answers : List EventAnswer) (s : VMState N) :
    Prop where
  queues : ∃ q, (fifo N).run ⟨[], []⟩ calls = some (q, answers) ∧ Represents s q ∧
    (calls.zip answers).filterMap acceptedEvent = answers.filterMap poppedEvent ++ q.events ∧
    (calls.zip answers).filterMap acceptedSignal = answers.filterMap poppedSignal ++ q.signals
  full_event : s.cq.isFull = true → ∀ listener eventId eventData,
    ∃ freed, s.pushEvent listener eventId eventData = (.errSignalEventFull, freed, s)
  full_signal : s.sq.isFull = true → ∀ firstLock listener eventId signal,
    s.pushSignal firstLock listener eventId signal = (.errSignalEventFull, [], s)

/-- **Runs whose steps agree keep the law**: whenever `popEvent` takes a signal
with the heads of the two queues in the same place, and the ids fit, the two
circular queues are two first-in first-out queues. -/
theorem run_law (s₀ s : VMState N) (calls : List (EventCall N)) (answers : List EventAnswer)
    (hcq : s₀.cq.isEmpty = true) (hsq : s₀.sq.isEmpty = true)
    (hagree : eventMachine.Meets Agrees s₀ calls)
    (hrun : eventMachine.run s₀ calls = some (s, answers)) : EventLaw calls answers s := by
  have hstart : Represents s₀ ⟨[], []⟩ :=
    ⟨s₀.cq.isEmpty_iff.mp hcq, s₀.sq.isEmpty_iff.mp hsq⟩
  obtain ⟨q, hq, hrep⟩ := simulation.run hstart hagree hrun
  obtain ⟨hevents, hsignals⟩ := fifo_run hq
  refine ⟨⟨q, hq, hrep, hevents, hsignals⟩, fun hfull listener eventId eventData => ?_,
    fun hfull firstLock listener eventId signal => ?_⟩
  · exact ⟨_, by rw [VMState.pushEvent, if_pos hfull]⟩
  · rw [VMState.pushSignal, if_pos hfull]

end Law

/-- A run that agrees: the signal is popped by `popEvent` before the heads part. -/
theorem run_law_aligned :
    ∃ s, EventLaw (N := 16) [.pushSignal false 2 6 7, .popEvent]
      [(.ok, none), (.ok, some ⟨2, 6, none, some 7⟩)] s :=
  ⟨_, run_law VMState.init _ _ _ rfl rfl
    ⟨show (6 : UInt64).toNat < 2 ^ 32 by decide,
      fun _ _ h => by cases h; exact ⟨fun _ _ => rfl, fun _ _ _ => trivial⟩⟩ rfl⟩

/-- One event popped, and the next signal comes out of a slot never written. -/
theorem not_law_of_parted_heads :
    ¬∀ (calls : List (EventCall 16)) (answers : List EventAnswer) (s : VMState 16),
      eventMachine.run VMState.init calls = some (s, answers) → EventLaw calls answers s := by
  intro h
  let calls : List (EventCall 16) := [.pushEvent 1 5 ⟨.int, 0, 5381, []⟩, .popEvent,
    .pushSignal false 2 6 7, .popEvent]
  let event : EventAnswer := (.ok, some ⟨1, 5, some ⟨.int, 0, 5381, []⟩, none⟩)
  obtain ⟨q, hq, -⟩ := (h calls
    [(.ok, none), event, (.ok, none), (.ok, some ⟨0, 0, none, some 0⟩)] _ rfl).queues
  have hfifo : (fifo 16).run ⟨[], []⟩ calls = some (⟨[], []⟩,
      [(.ok, none), event, (.ok, none), (.ok, some ⟨2, 6, none, some 7⟩)]) := rfl
  rw [hfifo] at hq
  have hanswers := congrArg (Option.map Prod.snd) hq
  simp only [Option.map_some] at hanswers
  exact absurd hanswers (by decide)

end PikaScript
