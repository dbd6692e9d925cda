import PikaScript.Event.Queue

/-! Awaiting the result of a signal.

`pika_eventListener_sendSignalAwaitResult` remembers a tail, pushes its signal and
waits for a result in the slot of that tail. Around it others push events and
signals, and pickups take them out of the queues, run them and keep their results;
a pickup is two steps here, since handlers run for as long as they like and may
pick up events themselves. Next to the queues goes what the code does not record:
which push an entry, and later its result, is of (`Source`).

The tail remembered is that of `cq` and the results waited for are those of `cq`,
but the signal goes through `sq`. -/
namespace PikaScript

/-- The push that an entry or a result is of: the `n`-th that a queue accepted. -/
inductive Source where
  | event (n : Nat)
  | signal (n : Nat)
deriving DecidableEq, Repr

/-- What is not in the code: the sources of the entries and the results of a queue. -/
structure Sources (N : Nat) where
  entry : Fin N → Option Source
  res : Fin N → Option Source

/-- A pickup whose handler runs: the slot that its result is kept in, whether it
is that of a signal, and the source of the entry it took. -/
structure Pickup (N : Nat) where
  slot : Fin N
  fromSignal : Bool
  source : Option Source

/-- How far the call has come. Its own signal has no source if its push was refused. -/
inductive Caller (N : Nat) where
  | ready
  | begun (tail : Fin N)
  | waiting (tail : Fin N) (own : Option Source)
  | returned (res : Arg) (source own : Option Source)

structure AwaitState (N : Nat) where
  vm : VMState N
  cqSources : Sources N
  sqSources : Sources N
  /-- How many pushes each queue has accepted. -/
  events : Nat
  signals : Nat
  pickups : List (Pickup N)
  caller : Caller N

/-- A step of the call (`begin`, `send`, `read`) or of anybody else. -/
inductive AwaitStep where
  | begin
  | send (firstLock : Bool) (listener : Listener) (eventId : UInt64) (signal : Int)
  | read
  | pushEvent (listener : Listener) (eventId : UInt64) (eventData : Arg)
  | pushSignal (firstLock : Bool) (listener : Listener) (eventId : UInt64) (signal : Int)
  | pickup
  | keep (k : Nat) (firstLock : Bool) (res : Option Arg)

namespace AwaitState
variable {N : Nat} [NeZero N] (s : AwaitState N)

def init : AwaitState N where
  vm := VMState.init
  cqSources := ⟨fun _ => none, fun _ => none⟩
  sqSources := ⟨fun _ => none, fun _ => none⟩
  events := 0
  signals := 0
  pickups := []
  caller := .ready

/-- `__eventListener_pushEvent`. The result in the slot is freed with its entry. -/
def pushEvent (listener : Listener) (eventId : UInt64) (eventData : Arg) : AwaitState N :=
  let r := s.vm.pushEvent listener eventId.toNat eventData
  let i := s.vm.cq.tail
  if r.1 = .ok then
    { s with
      vm := r.2.2
      cqSources := ⟨Function.update s.cqSources.entry i (some (.event s.events)),
        Function.update s.cqSources.res i none⟩
      events := s.events + 1 }
  else { s with vm := r.2.2 }

/-- `__eventListener_pushSignal`, and the source of the signal. -/
def pushSignal (firstLock : Bool) (listener : Listener) (eventId : UInt64) (signal : Int) :
    Option Source × AwaitState N :=
  let r := s.vm.pushSignal firstLock listener eventId.toNat signal
  let i := s.vm.sq.tail
  if r.1 = .ok then
    (some (.signal s.signals),
      { s with
        vm := r.2.2
        sqSources := ⟨Function.update s.sqSources.entry i (some (.signal s.signals)),
          if firstLock then Function.update s.sqSources.res r.2.2.sq.tail none
          else s.sqSources.res⟩
        signals := s.signals + 1 })
  else (none, { s with vm := r.2.2 })

/-- The start of `__VMEvent_pickupEvent`, of which `pickupMax` may run at a time.
`popEvent` reads the slot at the head of `cq` in either queue. -/
def pickup (pickupMax : Nat) : AwaitState N :=
  if pickupMax ≤ s.pickups.length then s
  else
    match s.vm.popEvent with
    | (_, none, vm) => { s with vm }
    | (_, some (pop, slot), vm) =>
      let sources := if pop.data.isNone then s.sqSources else s.cqSources
      { s with
        vm
        pickups := ⟨slot, pop.data.isNone, sources.entry s.vm.cq.head⟩ :: s.pickups }

/-- The end of `__VMEvent_pickupEvent`, with the result of the handler. -/
def keep (p : Pickup N) (firstLock : Bool) (res : Option Arg) : AwaitState N :=
  if firstLock then
    let source := if res.isSome then p.source else none
    if p.fromSignal then
      { s with
        vm := s.vm.keepRes true p.slot res
        sqSources := ⟨s.sqSources.entry, Function.update s.sqSources.res p.slot source⟩ }
    else
      { s with
        vm := s.vm.keepRes false p.slot res
        cqSources := ⟨s.cqSources.entry, Function.update s.cqSources.res p.slot source⟩ }
  else s

end AwaitState

/-- The call among the others, in any order. `pickupMax` is `PIKA_EVENT_PICKUP_MAX`. -/
def awaitMachine {N : Nat} [NeZero N] (pickupMax : Nat) :
    Machine AwaitStep (AwaitState N) Unit where
  step
    | .begin, s =>
      match s.caller with
      | .ready => some ({ s with caller := .begun s.vm.cq.tail }, ())
      | _ => none
    | .send firstLock listener eventId signal, s =>
      match s.caller with
      | .begun tail =>
        let (own, s) := s.pushSignal firstLock listener eventId signal
        some ({ s with caller := .waiting tail own }, ())
      | _ => none
    | .read, s =>
      match s.caller with
      | .waiting tail own =>
        match s.vm.cq.res tail with
        | none => some (s, ())
        | some res => some ({ s with caller := .returned res (s.cqSources.res tail) own }, ())
      | _ => none
    | .pushEvent listener eventId eventData, s => some (s.pushEvent listener eventId eventData, ())
    | .pushSignal firstLock listener eventId signal, s =>
      some ((s.pushSignal firstLock listener eventId signal).2, ())
    | .pickup, s => some (s.pickup pickupMax, ())
    | .keep k firstLock res, s =>
      s.pickups[k]?.map fun p =>
        ({ s.keep p firstLock res with pickups := s.pickups.eraseIdx k }, ())

namespace AwaitState
variable {N : Nat} [NeZero N] {s : AwaitState N}

/-- The call has returned the result of its own signal. -/
def ReturnedOwn (s : AwaitState N) : Prop :=
  ∃ res own, s.caller = .returned res (some own) (some own)

/-- A source that is an event's. -/
def OfEvent (events : Nat) (source : Option Source) : Prop := ∃ n < events, source = some (.event n)

/-- Events and signals do not meet: what is in `cq` is of an event, entries,
results and pickups alike, and what the call has sent is a signal. -/
structure Apart (s : AwaitState N) : Prop where
  entry : ∀ i, (s.vm.cq.data i).isSome → OfEvent s.events (s.cqSources.entry i)
  res : ∀ i, (s.vm.cq.res i).isSome → OfEvent s.events (s.cqSources.res i)
  pickups : ∀ p ∈ s.pickups, p.fromSignal = false → OfEvent s.events p.source
  own : ∀ tail own, s.caller = .waiting tail own → ∀ n, own ≠ some (.event n)
  returned : ∀ res source own, s.caller = .returned res source own →
    OfEvent s.events source ∧ ∀ n, own ≠ some (.event n)

theorem OfEvent.mono {m n : Nat} {source : Option Source} (h : OfEvent m source) (hmn : m ≤ n) :
    OfEvent n source := by
  obtain ⟨k, hk, rfl⟩ := h
  exact ⟨k, Nat.lt_of_lt_of_le hk hmn, rfl⟩

theorem apart_init : Apart (init : AwaitState N) where
  entry _ h := nomatch h
  res _ h := nomatch h
  pickups _ h := nomatch h
  own _ _ h := nomatch h
  returned _ _ _ h := nomatch h

/-- A push of a signal touches `sq` only. -/
theorem cq_pushSignal (vm : VMState N) (firstLock : Bool) (listener : Listener) (eventId : Nat)
    (signal : Int) : (vm.pushSignal firstLock listener eventId signal).2.2.cq = vm.cq := by
  unfold VMState.pushSignal
  split
  · rfl
  · cases firstLock <;> rfl

/-- A pop leaves the entries and results of `cq`, and hands out an event's data
from there only. -/
theorem cq_popEvent (vm : VMState N) :
    vm.popEvent.2.2.cq.data = vm.cq.data ∧ vm.popEvent.2.2.cq.res = vm.cq.res ∧
      ∀ pop slot, vm.popEvent.2.1 = some (pop, slot) → pop.data.isNone = false →
        (vm.cq.data vm.cq.head).isSome := by
  unfold VMState.popEvent
  split
  · refine ⟨rfl, rfl, fun pop slot h hdata => ?_⟩
    cases h
    simpa using hdata
  · split
    · refine ⟨rfl, rfl, fun pop slot h hdata => ?_⟩
      cases h
      cases hdata
    · refine ⟨rfl, rfl, fun pop slot h => ?_⟩
      cases h

/-- A push of an event that is accepted fills the slot at the tail, without a result. -/
theorem cq_pushEvent (vm : VMState N) (listener : Listener) (eventId : Nat) (eventData : Arg) :
    let r := vm.pushEvent listener eventId eventData
    (r.1 = .ok ∧ r.2.2.cq.data = Function.update vm.cq.data vm.cq.tail (some eventData.eventData) ∧
      r.2.2.cq.res = Function.update vm.cq.res vm.cq.tail none) ∨
    (r.1 ≠ .ok ∧ r.2.2 = vm) := by
  unfold VMState.pushEvent
  dsimp only
  split
  · exact .inr ⟨by simp, rfl⟩
  · exact .inl ⟨rfl, rfl, rfl⟩

theorem Apart.pushEvent (h : Apart s) (listener : Listener) (eventId : UInt64) (eventData : Arg) :
    Apart (s.pushEvent listener eventId eventData) := by
  unfold AwaitState.pushEvent
  rcases cq_pushEvent s.vm listener eventId.toNat eventData with ⟨hok, hdata, hres⟩ | ⟨hne, hvm⟩
  · rw [if_pos hok]
    refine ⟨fun i hi => ?_, fun i hi => ?_, fun p hp hevent => ?_, h.own,
      fun res source own hr => ?_⟩
    · by_cases htail : i = s.vm.cq.tail
      · subst htail
        exact ⟨s.events, Nat.lt_succ_self _, Function.update_self ..⟩
      · dsimp only at hi ⊢
        rw [hdata, Function.update_of_ne htail] at hi
        rw [Function.update_of_ne htail]
        exact (h.entry i hi).mono (Nat.le_succ _)
    · dsimp only at hi ⊢
      rw [hres] at hi
      by_cases htail : i = s.vm.cq.tail
      · subst htail
        rw [Function.update_self] at hi
        cases hi
      · rw [Function.update_of_ne htail] at hi ⊢
        exact (h.res i hi).mono (Nat.le_succ _)
    · exact (h.pickups p hp hevent).mono (Nat.le_succ _)
    · obtain ⟨hsource, hown⟩ := h.returned res source own hr
      exact ⟨hsource.mono (Nat.le_succ _), hown⟩
  · rw [if_neg hne, hvm]
    exact h

omit [NeZero N] in
/-- What keeps `cq` and its sources keeps events and signals apart. -/
theorem Apart.congr {s' : AwaitState N} (h : Apart s) (hcq : s'.vm.cq = s.vm.cq)
    (hsources : s'.cqSources = s.cqSources) (hevents : s'.events = s.events)
    (hpickups : s'.pickups = s.pickups) (hcaller : s'.caller = s.caller) : Apart s' := by
  refine ⟨?_, ?_, ?_, ?_, ?_⟩
  · rw [hcq, hsources, hevents]
    exact h.entry
  · rw [hcq, hsources, hevents]
    exact h.res
  · rw [hpickups, hevents]
    exact h.pickups
  · rw [hcaller]
    exact h.own
  · rw [hcaller, hevents]
    exact h.returned

/-- A signal of any party is no event. -/
theorem Apart.pushSignal (h : Apart s) (firstLock : Bool) (listener : Listener)
    (eventId : UInt64) (signal : Int) :
    Apart (s.pushSignal firstLock listener eventId signal).2 ∧
      ∀ n, (s.pushSignal firstLock listener eventId signal).1 ≠ some (.event n) := by
  have hcq := cq_pushSignal s.vm firstLock listener eventId.toNat signal
  unfold AwaitState.pushSignal
  dsimp only
  split
  · exact ⟨h.congr hcq rfl rfl rfl rfl, fun n heq => by cases heq⟩
  · exact ⟨h.congr hcq rfl rfl rfl rfl, fun n heq => by cases heq⟩

theorem Apart.pickup (h : Apart s) (pickupMax : Nat) : Apart (s.pickup pickupMax) := by
  obtain ⟨hdata, hres, hpop⟩ := cq_popEvent s.vm
  unfold AwaitState.pickup
  split
  · exact h
  split
  · rename_i vm heq
    rw [heq] at hdata hres
    exact ⟨fun i hi => h.entry i (hdata ▸ hi), fun i hi => h.res i (hres ▸ hi), h.pickups, h.own,
      h.returned⟩
  · rename_i pop slot vm heq
    rw [heq] at hdata hres hpop
    refine ⟨fun i hi => h.entry i (hdata ▸ hi), fun i hi => h.res i (hres ▸ hi), ?_, h.own,
      h.returned⟩
    intro p hp hevent
    rcases List.mem_cons.mp hp with rfl | hp
    · dsimp only at hevent ⊢
      rw [hevent]
      exact h.entry _ (hpop pop slot rfl hevent)
    · exact h.pickups p hp hevent

omit [NeZero N] in
theorem Apart.keep (h : Apart s) {p : Pickup N} (hp : p ∈ s.pickups) (firstLock : Bool)
    (res : Option Arg) : Apart (s.keep p firstLock res) := by
  unfold AwaitState.keep
  split
  · dsimp only
    split
    · exact h.congr rfl rfl rfl rfl rfl
    · refine ⟨h.entry, fun i hi => ?_, h.pickups, h.own, h.returned⟩
      have hi : (Function.update s.vm.cq.res p.slot res i).isSome := hi
      show OfEvent s.events (Function.update s.cqSources.res p.slot _ i)
      by_cases hslot : i = p.slot
      · subst hslot
        rw [Function.update_self] at hi ⊢
        rw [if_pos hi]
        exact h.pickups p hp (by simpa using ‹¬p.fromSignal = true›)
      · rw [Function.update_of_ne hslot] at hi ⊢
        exact h.res i hi
  · exact h

omit [NeZero N] in
theorem pickups_keep (p : Pickup N) (firstLock : Bool) (res : Option Arg) :
    (s.keep p firstLock res).pickups = s.pickups := by
  unfold AwaitState.keep
  split
  · dsimp only
    split <;> rfl
  · rfl

/-- Every step keeps events and signals apart. -/
theorem apart_step (pickupMax : Nat) (step : AwaitStep) (s s' : AwaitState N) (h : Apart s)
    (hstep : (awaitMachine pickupMax).step step s = some (s', ())) : Apart s' := by
  cases step with
  | begin =>
    simp only [awaitMachine] at hstep
    split at hstep <;> cases hstep
    exact ⟨h.entry, h.res, h.pickups, fun _ _ he => (nomatch he), fun _ _ _ he => (nomatch he)⟩
  | send firstLock listener eventId signal =>
    simp only [awaitMachine] at hstep
    split at hstep <;> cases hstep
    obtain ⟨hpush, hown⟩ := h.pushSignal firstLock listener eventId signal
    refine ⟨hpush.entry, hpush.res, hpush.pickups, fun tail own he => ?_,
      fun _ _ _ he => (nomatch he)⟩
    cases he
    exact hown
  | read =>
    simp only [awaitMachine] at hstep
    split at hstep
    · rename_i tail own hcaller
      split at hstep <;> cases hstep
      · exact h
      · refine ⟨h.entry, h.res, h.pickups, fun _ _ he => (nomatch he), fun _ _ _ he => ?_⟩
        cases he
        exact ⟨h.res tail (Option.isSome_of_eq_some ‹_›), h.own tail own hcaller⟩
    · cases hstep
  | pushEvent listener eventId eventData =>
    cases hstep
    exact h.pushEvent listener eventId eventData
  | pushSignal firstLock listener eventId signal =>
    cases hstep
    exact (h.pushSignal firstLock listener eventId signal).1
  | pickup =>
    cases hstep
    exact h.pickup pickupMax
  | keep k firstLock res =>
    obtain ⟨p, hp, he⟩ := Option.map_eq_some_iff.mp hstep
    cases he
    have hkeep := h.keep (List.mem_of_getElem? hp) firstLock res
    refine ⟨hkeep.entry, hkeep.res, fun q hq => hkeep.pickups q ?_, hkeep.own, hkeep.returned⟩
    rw [pickups_keep]
    exact List.mem_of_mem_eraseIdx hq

/-- **The call never returns the result of its signal**: whatever the others do,
what it returns is the result of an event, and it returns nothing before an event
has been pushed. -/
theorem not_returnedOwn (N : Nat) [NeZero N] (pickupMax : Nat) (steps : List AwaitStep)
    (s : AwaitState N) (os : List Unit)
    (hrun : (awaitMachine pickupMax).run init steps = some (s, os)) :
    ¬s.ReturnedOwn ∧ ∀ res source own, s.caller = .returned res source own →
      ∃ n < s.events, source = some (.event n) := by
  have h : Apart s := (awaitMachine pickupMax).run_invariant
    (fun i s s' _ hs hstep => apart_step pickupMax i s s' hs hstep) apart_init hrun
  refine ⟨fun ⟨res, own, hcaller⟩ => ?_, fun res source own hcaller => ?_⟩
  · obtain ⟨⟨n, -, hn⟩, hown⟩ := h.returned res _ _ hcaller
    exact hown n hn
  · exact (h.returned res source own hcaller).1

/-- The signal is sent, an event of another party is picked up, and the call returns
the result of that. -/
theorem not_returnedOwn_of_event : ∃ s : AwaitState 16,
    (¬s.ReturnedOwn ∧ ∀ res source own, s.caller = .returned res source own →
      ∃ n < s.events, source = some (.event n)) ∧
    s.caller = .returned (Arg.newInt 9) (some (.event 0)) (some (.signal 0)) :=
  ⟨_, not_returnedOwn 16 10 [.begin, .send true 1 5 7, .pushEvent 2 6 (Arg.newInt 8), .pickup,
    .keep 0 true (some (Arg.newInt 9)), .read] _ _ rfl, rfl⟩

/-- So a call that has returned need not have returned the result of its signal. -/
theorem not_await_of_event :
    ¬∀ (N : Nat) [NeZero N] (pickupMax : Nat) (steps : List AwaitStep) (s : AwaitState N)
      (os : List Unit), (awaitMachine pickupMax).run init steps = some (s, os) →
      ∀ res source own, s.caller = .returned res source own → s.ReturnedOwn := by
  intro h
  have hcaller := h 16 10 [.begin, .send true 1 5 7, .pushEvent 2 6 (Arg.newInt 8), .pickup,
    .keep 0 true (some (Arg.newInt 9)), .read] _ _ rfl (Arg.newInt 9) (some (.event 0))
    (some (.signal 0)) rfl
  obtain ⟨res, own, hreturned⟩ := hcaller
  cases hreturned

end AwaitState

end PikaScript
