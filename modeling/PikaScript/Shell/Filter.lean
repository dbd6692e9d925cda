import PikaScript.Data.ByteQueue
import PikaScript.Shell.LineEditor

/-! The stream filter of the shell.

Messages are taken out of the bytes that come in. `_do_obj_runChar` queues every byte, and
`_do_stream_filter` compares the queue with two tables of messages: what is in front is handed to
a handler, given to the line editor, or waited for.

`filter_run`: a byte that one table waits for is delivered when the other does not. This, and
messages that get in each other's way, are all that can go wrong. -/
namespace PikaScript

/-- `PIKA_SHELL_FILTER_FIFO_SIZE`. -/
abbrev filterFifoSize : Nat := 32

/-- `FilterItem`, over all that its handler can change. The message has the bytes of its size, and
the queue has room for them. -/
structure FilterItem (σ : Type) where
  handler : Option (σ → Bool × σ)
  message : Option Bytes
  size : Nat
  isVisible : Bool
  isCaseInsensitive : Bool
  ignoreMask : BitVec 8
  size_le : size ≤ filterFifoSize
  length_message : ∀ bytes, message = some bytes → size ≤ bytes.length

/-- `g_default_filter_messages`, the messages of the shell, and the mask of what is ignored. -/
structure FilterTables (σ : Type) where
  default : List (FilterItem σ)
  messages : List (FilterItem σ)
  ignoreMask : BitVec 8
  default_ne_nil : default ≠ []

inductive FilterReturn where
  | noResult
  | failDropOne
  | successGetAllPeeked
  | successDropAllPeeked
deriving DecidableEq, Repr

/-- How a comparison ends: `message_size` has come to 0, there was no byte to peek at, or another
one. -/
inductive Compared where
  | matched
  | missing
  | different
deriving DecidableEq, Repr

/-- What the filter does: a message is handed to its handler, a byte to the line editor, and
bytes are dropped. Messages are numbered through both tables. -/
inductive FilterEvent where
  | handed (i : Nat)
  | delivered (byte : BitVec 8)
  | dropped (bytes : Bytes)
deriving DecidableEq, Repr

/-- The filter while it runs, with what it has done. -/
structure Filtering (σ : Type) where
  queue : ByteQueue filterFifoSize
  world : σ
  events : List FilterEvent

/-- The shell: its queue, none while it has no buffer, and all that the handlers can change. -/
structure FilterShell (σ : Type) where
  queue : Option (ByteQueue filterFifoSize)
  world : σ

/-- The queue, which the first byte initializes. -/
def FilterShell.fifo {σ : Type} (self : FilterShell σ) : ByteQueue filterFifoSize :=
  self.queue.getD (.init fun _ => 0)

namespace Filter
variable {σ : Type}

/-! ### The code -/

/-- A letter in lower case. -/
def lower (c : BitVec 8) : BitVec 8 := if 0x41 ≤ c ∧ c ≤ 0x5a then c + 0x20 else c

section
variable (signedChar : Bool)

/-- A byte of a message against one of the queue. In the comparison without case the first is a
`char`, and the second is not. -/
def sameByte (msg : FilterItem σ) (letter byte : BitVec 8) : Bool :=
  if msg.isCaseInsensitive then
    (if signedChar then (lower letter).toInt else (lower letter).toNat) = ((lower byte).toNat : Int)
  else letter = byte

/-- The comparison of `_do_message_filter`. None when it reads behind the message. -/
def compareLoop (same : BitVec 8 → BitVec 8 → Bool) :
    Bytes → Nat → ByteQueue filterFifoSize → Option (Compared × ByteQueue filterFifoSize)
  | _, 0, queue => some (.matched, queue)
  | src, messageSize + 1, queue =>
    match queue.peekOne with
    | none => some (.missing, queue)
    | some (byte, queue) => do
      let letter ← src.head?
      if same letter byte then compareLoop same src.tail messageSize queue
      else return (.different, queue)

/-- A message that is not looked at. -/
def skipped (ignoreMask : BitVec 8) (msg : FilterItem σ) : Bool :=
  msg.ignoreMask &&& ignoreMask ≠ 0 || msg.message.isNone || msg.size = 0

/-- What is returned for a message that has been handled. -/
def handled (msg : FilterItem σ) : FilterReturn :=
  if msg.isVisible then .successGetAllPeeked else .successDropAllPeeked

/-- `_do_message_filter`, from the `i`-th message on. -/
def messageFilter (ignoreMask : BitVec 8) : List (FilterItem σ) → Nat → FilterReturn →
    Filtering σ → Option (FilterReturn × Filtering σ)
  | [], _, result, self => some (result, self)
  | msg :: msgs, i, result, self =>
    if skipped ignoreMask msg then messageFilter ignoreMask msgs (i + 1) result self
    else do
      let src ← msg.message
      let (compared, queue) ←
        compareLoop (sameByte signedChar msg) src msg.size self.queue.resetPeek
      match compared with
      | .different => messageFilter ignoreMask msgs (i + 1) result { self with queue := queue }
      | .missing => messageFilter ignoreMask msgs (i + 1) .noResult { self with queue := queue }
      | .matched =>
        match msg.handler with
        | none => return (handled msg, { self with queue := queue })
        | some handler =>
          let (isHandled, world) := handler self.world
          let self : Filtering σ := ⟨queue, world, self.events ++ [.handed i]⟩
          if isHandled then return (handled msg, self)
          else messageFilter ignoreMask msgs (i + 1) result self

/-- What `_do_stream_filter` does with a result, when it is the last one: the bytes to deliver, or
none when it goes on. -/
def settle (result : FilterReturn) (self : Filtering σ) : Option (Nat × Filtering σ) :=
  match result with
  | .noResult => none
  | .failDropOne => none
  | .successDropAllPeeked =>
    some (0, { self with
      queue := self.queue.dropAllPeeked
      events := self.events ++ [.dropped (self.queue.contents.take self.queue.peekedNumber)] })
  | .successGetAllPeeked => some (self.queue.peekedNumber, self)

/-- `_do_stream_filter`, and how many bytes are to be delivered. -/
def streamFilter (tables : FilterTables σ) (self : Filtering σ) : Option (Nat × Filtering σ) := do
  let (result, self) ←
    messageFilter signedChar tables.ignoreMask tables.default 0 .failDropOne self
  match settle result self with
  | some settled => return settled
  | none =>
    let dropCount := if result = .failDropOne then 1 else 0
    -- "user registered message filter"
    if tables.messages = [] then return (dropCount, self)
    else
      let (result, self) ← messageFilter signedChar tables.ignoreMask tables.messages
        tables.default.length .failDropOne self
      match settle result self with
      | some settled => return settled
      | none => return (if result = .failDropOne then 1 else dropCount, self)

end

/-- The inner loop of `_do_obj_runChar`: so many bytes go to the line editor. None when there are
not so many. -/
def deliver (consume : BitVec 8 → σ → ShellCtrl × σ) :
    Nat → Filtering σ → Option (ShellCtrl × Filtering σ)
  | 0, self => some (.continue, self)
  | n + 1, self => do
    let (inputChar, queue) ← self.queue.readOne
    let (ctrl, world) := consume inputChar self.world
    let self : Filtering σ := ⟨queue, world, self.events ++ [.delivered inputChar]⟩
    if ctrl = .exit then return (.exit, self) else deliver consume n self

section
variable (signedChar : Bool) (tables : FilterTables σ) (consume : BitVec 8 → σ → ShellCtrl × σ)

/-- So many rounds of the loop of `_do_obj_runChar`. None when it has not been left. -/
def rounds : Nat → Filtering σ → Option (ShellCtrl × Filtering σ)
  | 0, _ => none
  | n + 1, self =>
    if self.queue.peekCount = 0 then some (.continue, self)
    else do
      let (byteCount, self) ← streamFilter signedChar tables self
      let (ctrl, self) ← deliver consume byteCount self
      if ctrl = .exit then return (.exit, self)
      else if byteCount = 0 then return (.continue, self)
      else rounds n self

/-- `_do_obj_runChar`, and what it has done. None also when the queue is full. -/
def runChar (inputChar : BitVec 8) (self : FilterShell σ) :
    Option (FilterShell σ × ShellCtrl × List FilterEvent) := do
  let queue ← self.fifo.writeOne inputChar
  let (ctrl, self) ← rounds signedChar tables consume (queue.count + 1) ⟨queue, self.world, []⟩
  return (⟨some self.queue, self.world⟩, ctrl, self.events)

/-- A message whose handler prints something. -/
def defaultMessage (message : Bytes) (isCaseInsensitive : Bool)
    (h : message.length ≤ filterFifoSize) : FilterItem σ where
  handler := some fun world => (true, world)
  message := some message
  size := message.length
  isVisible := false
  isCaseInsensitive := isCaseInsensitive
  ignoreMask := 0
  size_le := h
  length_message _ heq := (congrArg List.length (Option.some.inj heq)).le

/-- `g_default_filter_messages`: "###Hi Pika", and "###bye pika" in any case. -/
def gDefaultFilterMessages : List (FilterItem σ) :=
  [defaultMessage [0x23, 0x23, 0x23, 0x48, 0x69, 0x20, 0x50, 0x69, 0x6b, 0x61] false (by decide),
    defaultMessage [0x23, 0x23, 0x23, 0x62, 0x79, 0x65, 0x20, 0x70, 0x69, 0x6b, 0x61] true
      (by decide)]

/-- A shell that characters come to. -/
def filterMachine : Machine (BitVec 8) (FilterShell σ) (ShellCtrl × List FilterEvent) where
  step inputChar self := runChar signedChar tables consume inputChar self

end

end Filter

/-! ### The law -/

namespace FilterItem
variable {σ : Type} (msg : FilterItem σ)

/-- The bytes of a message. -/
def text : Bytes := (msg.message.getD []).take msg.size

/-- What the message tells apart. -/
def letter (c : BitVec 8) : BitVec 8 := if msg.isCaseInsensitive then Filter.lower c else c

/-- The bytes start with the message. -/
def Occurs (bytes : Bytes) : Prop := msg.text.map msg.letter <+: bytes.map msg.letter

/-- The message can still match: the bytes are a beginning of it. -/
def Open (bytes : Bytes) : Prop :=
  bytes.length < msg.size ∧ bytes.map msg.letter <+: msg.text.map msg.letter

/-- What the handler returns, and what it leaves; a message without one is handled. -/
def answer (world : σ) : Bool × σ :=
  match msg.handler with
  | none => (true, world)
  | some handler => handler world

/-- What is done when a message is found that has this number. -/
def handing (i : Nat) : List FilterEvent := if msg.handler.isSome then [.handed i] else []

instance : DecidablePred msg.Occurs := fun _ => inferInstanceAs (Decidable (_ <+: _))

instance : DecidablePred msg.Open := fun _ => inferInstanceAs (Decidable (_ ∧ _))

end FilterItem

namespace FilterTables
variable {σ : Type} (tables : FilterTables σ)

/-- The messages that are looked at, each with its number. -/
def registered : List (FilterItem σ × Nat) :=
  (tables.default ++ tables.messages).zipIdx.filter fun p => !Filter.skipped tables.ignoreMask p.1

/-- Some of these messages can still match. -/
def Awaits (msgs : List (FilterItem σ)) (bytes : Bytes) : Prop :=
  ∃ msg ∈ msgs, Filter.skipped tables.ignoreMask msg = false ∧ msg.Open bytes

/-- The bytes are none, or some message can still match. -/
def Pending (bytes : Bytes) : Prop := bytes = [] ∨ ∃ p ∈ tables.registered, p.1.Open bytes

instance (msgs : List (FilterItem σ)) : DecidablePred (tables.Awaits msgs) :=
  fun _ => inferInstanceAs (Decidable (∃ msg ∈ msgs, _))

instance : DecidablePred tables.Pending := fun _ => inferInstanceAs (Decidable (_ ∨ _))

end FilterTables

/-- How many bytes are gone, and the messages that have been handed to their handlers for the
bytes from there on. -/
structure FilterFront where
  gone : Nat
  handed : List Nat

namespace Filter
variable {σ : Type}

section
variable (tables : FilterTables σ) (input : Bytes)

/-- The bytes that are there, when so many have come. -/
def known (seen : Nat) (front : FilterFront) : Bytes := (input.take seen).drop front.gone

/-- Every message that occurs here has been handed to its handler. -/
def Settled (front : FilterFront) : Prop :=
  ∀ p ∈ tables.registered, p.1.handler.isSome → p.1.Occurs (input.drop front.gone) →
    p.2 ∈ front.handed

/-- An event that is right when so many bytes have come: a message is handed over once where it
occurs, and a byte is delivered when no message can still match there. -/
inductive Takes (seen : Nat) : FilterFront → FilterEvent → FilterFront → Prop
  | handed {front : FilterFront} {msg : FilterItem σ} {i : Nat} :
    (msg, i) ∈ tables.registered → msg.Occurs (known input seen front) → i ∉ front.handed →
      Takes seen front (.handed i) ⟨front.gone, i :: front.handed⟩
  | delivered {front : FilterFront} {byte : BitVec 8} {rest : Bytes} :
    known input seen front = byte :: rest →
      (∀ p ∈ tables.registered, ¬p.1.Open (byte :: rest)) → Settled tables input front →
      Takes seen front (.delivered byte) ⟨front.gone + 1, []⟩
  | dropped {front : FilterFront} {bytes rest : Bytes} {msg : FilterItem σ} {i : Nat} :
    known input seen front = bytes ++ rest → (msg, i) ∈ tables.registered →
      bytes.length = msg.size → msg.Occurs bytes → Settled tables input front →
      Takes seen front (.dropped bytes) ⟨front.gone + bytes.length, []⟩

inductive TakesAll (seen : Nat) : FilterFront → List FilterEvent → FilterFront → Prop
  | nil (front : FilterFront) : TakesAll seen front [] front
  | cons {front front₁ front₂ : FilterFront} {event : FilterEvent} {events : List FilterEvent} :
    Takes tables input seen front event front₁ → TakesAll seen front₁ events front₂ →
      TakesAll seen front (event :: events) front₂

/-- The events of one byte after the other. Unless the line editor exits, only bytes are left that
a message waits for. -/
inductive Lawful : Nat → FilterFront → List (ShellCtrl × List FilterEvent) → FilterFront → Prop
  | nil (seen : Nat) (front : FilterFront) : Lawful seen front [] front
  | cons {seen : Nat} {front front₁ front₂ : FilterFront} {ctrl : ShellCtrl}
      {events : List FilterEvent} {rest : List (ShellCtrl × List FilterEvent)} :
    TakesAll tables input (seen + 1) front events front₁ →
      (ctrl = .continue → tables.Pending (known input (seen + 1) front₁)) →
      Lawful (seen + 1) front₁ rest front₂ → Lawful seen front ((ctrl, events) :: rest) front₂

end

/-- A stream that is filtered: every byte is taken, the events are right, and what is not gone is
in the queue. -/
def FilterLaw (signedChar : Bool) (tables : FilterTables σ)
    (consume : BitVec 8 → σ → ShellCtrl × σ) (world : σ) (input : Bytes) : Prop :=
  ∃ shell outputs front,
    (filterMachine signedChar tables consume).run ⟨none, world⟩ input = some (shell, outputs) ∧
      Lawful tables input 0 ⟨0, []⟩ outputs front ∧
      shell.fifo.contents = input.drop front.gone

/-- What the handlers have answered: the message that one of them has handled, and what they left
and did. -/
structure Asked (σ : Type) where
  handled : Option (FilterItem σ)
  world : σ
  events : List FilterEvent

/-- The handlers of some messages are asked, until one handles its message. -/
def ask : List (FilterItem σ × Nat) → σ → Asked σ
  | [], world => ⟨none, world, []⟩
  | (msg, i) :: found, world =>
    let (isHandled, world) := msg.answer world
    if isHandled then ⟨some msg, world, msg.handing i⟩
    else
      let asked := ask found world
      ⟨asked.handled, asked.world, msg.handing i ++ asked.events⟩

/-- The messages that occur. -/
def found (tables : FilterTables σ) (bytes : Bytes) : List (FilterItem σ × Nat) :=
  tables.registered.filter fun p => p.1.Occurs bytes

/-- Some bytes at which no message starts. -/
def Silent (tables : FilterTables σ) (bytes : Bytes) : Prop :=
  ∀ p ∈ tables.registered, ¬(p.1.handler.isSome ∧ p.1.Occurs bytes) ∧ ¬p.1.Open bytes

/-- No message without case meets a byte that a `char` is negative for. -/
def Ascii (tables : FilterTables σ) (bytes : Bytes) : Prop :=
  ∀ p ∈ tables.registered, p.1.isCaseInsensitive = true →
    p.1.Occurs bytes ∨ p.1.Open bytes → ∀ c ∈ bytes.take p.1.size, c < 0x80

/-- A round in which nothing goes wrong, with these bytes in the queue. Where there are messages
of the user, both tables wait or none does. Where a message occurs, none can still match, and the
handlers of all that occur are asked. Behind one that is dropped a message waits for what is there,
if anything is, and none starts within one that is delivered. -/
structure RoundWhen (signedChar : Bool) (tables : FilterTables σ) (world : σ)
    (bytes : Bytes) : Prop where
  agree : tables.messages ≠ [] →
    (tables.Awaits tables.default bytes ↔ tables.Awaits tables.messages bytes)
  decided : found tables bytes ≠ [] → ∀ p ∈ tables.registered, ¬p.1.Open bytes
  asked : ∀ p ∈ found tables bytes, p.1.handler.isSome →
    .handed p.2 ∈ (ask (found tables bytes) world).events
  dropped : ∀ msg ∈ (ask (found tables bytes) world).handled, msg.isVisible = false →
    tables.Pending (bytes.drop msg.size)
  delivered : ∀ msg ∈ (ask (found tables bytes) world).handled, msg.isVisible = true →
    ∀ k < msg.size, 0 < k → Silent tables (bytes.drop k)
  ascii : signedChar = true → Ascii tables bytes

section
variable (signedChar : Bool) (tables : FilterTables σ) (consume : BitVec 8 → σ → ShellCtrl × σ)

/-- Nothing goes wrong in the rounds that are taken. -/
def RoundsWhen : Nat → Filtering σ → Prop
  | 0, _ => True
  | n + 1, self =>
    self.queue.peekCount ≠ 0 → RoundWhen signedChar tables self.world self.queue.contents ∧
      ∀ filtered ∈ streamFilter signedChar tables self, filtered.1 ≠ 0 →
        ∀ delivered ∈ deliver consume filtered.1 filtered.2, delivered.1 = .continue →
          RoundsWhen n delivered.2

/-- Nothing goes wrong with this character. -/
def CharWhen (inputChar : BitVec 8) (self : FilterShell σ) : Prop :=
  ∀ queue ∈ self.fifo.writeOne inputChar,
    RoundsWhen signedChar tables consume (queue.count + 1) ⟨queue, self.world, []⟩

instance (bytes : Bytes) : Decidable (Silent tables bytes) :=
  inferInstanceAs (Decidable (∀ p ∈ tables.registered, _))

instance (bytes : Bytes) : Decidable (Ascii tables bytes) :=
  inferInstanceAs (Decidable (∀ p ∈ tables.registered, _))

instance (world : σ) (bytes : Bytes) : Decidable (RoundWhen signedChar tables world bytes) :=
  decidable_of_iff (_ ∧ _ ∧ _ ∧ _ ∧ _ ∧ _)
    ⟨fun ⟨agree, decided, asked, dropped, delivered, ascii⟩ =>
      ⟨agree, decided, asked, dropped, delivered, ascii⟩,
    fun h => ⟨h.agree, h.decided, h.asked, h.dropped, h.delivered, h.ascii⟩⟩

instance decidableRoundsWhen :
    ∀ n self, Decidable (RoundsWhen signedChar tables consume n self)
  | 0, _ => .isTrue trivial
  | n + 1, self =>
    have : ∀ self, Decidable (RoundsWhen signedChar tables consume n self) :=
      decidableRoundsWhen n
    inferInstanceAs (Decidable (_ → _ ∧ ∀ filtered ∈ streamFilter signedChar tables self, _ →
      ∀ delivered ∈ deliver consume filtered.1 filtered.2, _ → _))

instance (inputChar : BitVec 8) (self : FilterShell σ) :
    Decidable (CharWhen signedChar tables consume inputChar self) :=
  inferInstanceAs (Decidable (∀ queue ∈ self.fifo.writeOne inputChar, _))

end

/-! ### Comparisons -/

section
variable {same same' : BitVec 8 → BitVec 8 → Bool} {f : BitVec 8 → BitVec 8} {src bytes : Bytes}
  {queue : ByteQueue filterFifoSize} {peeked : Nat}

/-- A message against the bytes of the queue. -/
def compareBytes (same : BitVec 8 → BitVec 8 → Bool) : Bytes → Bytes → Compared
  | [], _ => .matched
  | _ :: _, [] => .missing
  | letter :: src, byte :: rest =>
    if same letter byte then compareBytes same src rest else .different

/-- **The comparison peeks at the bytes of the queue**, and where it matches, at those of the
message. -/
theorem compareLoop_eq (same : BitVec 8 → BitVec 8 → Bool) {n : Nat} (hn : n ≤ src.length)
    (h : queue.Holds bytes peeked) :
    ∃ queue' peeked', compareLoop same src n queue =
        some (compareBytes same (src.take n) (bytes.drop peeked), queue') ∧
      queue'.Holds bytes peeked' ∧
      (compareBytes same (src.take n) (bytes.drop peeked) = .matched → peeked' = peeked + n) := by
  induction n generalizing src queue peeked with
  | zero => exact ⟨queue, peeked, rfl, h, fun _ => rfl⟩
  | succ n ih =>
    obtain ⟨letter, src, rfl⟩ := List.exists_cons_of_length_pos (Nat.lt_of_lt_of_le
      (Nat.succ_pos n) hn)
    rw [List.take_succ_cons]
    cases hrest : bytes.drop peeked with
    | nil =>
      refine ⟨queue, peeked, ?_, h, nofun⟩
      rw [compareLoop, h.peekOne_none hrest]
      rfl
    | cons byte rest =>
      obtain ⟨queue₁, hpeek, h₁⟩ := h.peekOne hrest
      rw [compareLoop, hpeek]
      simp only [List.head?_cons, Option.bind_eq_bind, Option.bind_some, List.tail_cons,
        compareBytes]
      have hdrop : bytes.drop (peeked + 1) = rest := by
        rw [← List.tail_drop, hrest, List.tail_cons]
      split
      · obtain ⟨queue', peeked', hloop, h', hmatched⟩ := ih (Nat.le_of_succ_le_succ hn) h₁
        rw [hdrop] at hloop hmatched
        exact ⟨queue', peeked', hloop, h', fun heq => (hmatched heq).trans (by omega)⟩
      · exact ⟨queue₁, peeked + 1, rfl, h₁, nofun⟩

theorem compareBytes_matched (hsame : ∀ a b, same a b = true ↔ f a = f b) :
    compareBytes same src bytes = .matched ↔ src.map f <+: bytes.map f := by
  induction src generalizing bytes with
  | nil => simp [compareBytes]
  | cons a src ih =>
    cases bytes with
    | nil => simp [compareBytes]
    | cons b bytes =>
      rw [compareBytes, List.map_cons, List.map_cons, List.cons_prefix_cons, ← ih, ← hsame]
      split <;> simp [*]

theorem compareBytes_missing (hsame : ∀ a b, same a b = true ↔ f a = f b) :
    compareBytes same src bytes = .missing ↔
      bytes.length < src.length ∧ bytes.map f <+: src.map f := by
  induction src generalizing bytes with
  | nil => simp [compareBytes]
  | cons a src ih =>
    cases bytes with
    | nil => simp [compareBytes]
    | cons b bytes =>
      rw [compareBytes, List.map_cons, List.map_cons, List.cons_prefix_cons, List.length_cons,
        List.length_cons, Nat.succ_lt_succ_iff, eq_comm (a := f b), ← hsame]
      split <;> simp [*]

/-- A comparison that finds more bytes the same than another one. -/
theorem compareBytes_different (hsub : ∀ a b, same a b = true → same' a b = true)
    (h : compareBytes same' src bytes = .different) : compareBytes same src bytes = .different := by
  induction src generalizing bytes with
  | nil => cases h
  | cons a src ih =>
    cases bytes with
    | nil => cases h
    | cons b bytes =>
      rw [compareBytes] at h ⊢
      split at h
      · split
        · exact ih h
        · rfl
      · rename_i hnot
        rw [if_neg fun hsame => hnot (hsub a b hsame)]

theorem compareBytes_congr (h : ∀ b ∈ bytes.take src.length, ∀ a, same a b = same' a b) :
    compareBytes same src bytes = compareBytes same' src bytes := by
  induction src generalizing bytes with
  | nil => rfl
  | cons a src ih =>
    cases bytes with
    | nil => rfl
    | cons b bytes =>
      rw [List.length_cons, List.take_succ_cons] at h
      rw [compareBytes, compareBytes, h b List.mem_cons_self a,
        ih fun b' hb' => h b' (List.mem_cons_of_mem _ hb')]

end

/-! ### One message -/

section
variable {signedChar : Bool} {msg : FilterItem σ} {bytes more : Bytes} {ignoreMask : BitVec 8}

theorem length_text (hskipped : skipped ignoreMask msg = false) : msg.text.length = msg.size := by
  obtain ⟨src, hsrc⟩ : ∃ src, msg.message = some src := by
    simp only [skipped, Bool.or_eq_false_iff, Option.isNone_eq_false_iff] at hskipped
    exact Option.isSome_iff_exists.mp hskipped.1.2
  rw [FilterItem.text, hsrc, Option.getD_some,
    List.length_take_of_le (msg.length_message src hsrc)]

theorem size_pos (hskipped : skipped ignoreMask msg = false) : 0 < msg.size := by
  simp only [skipped, Bool.or_eq_false_iff, decide_eq_false_iff_not] at hskipped
  exact Nat.pos_of_ne_zero hskipped.2

/-- A message that occurs behind which nothing is known occurs already, or it can still match. -/
theorem occurs_append (hskipped : skipped ignoreMask msg = false)
    (h : msg.Occurs (bytes ++ more)) : msg.Occurs bytes ∨ msg.Open bytes := by
  have hlength := length_text hskipped
  rw [FilterItem.Occurs, List.map_append] at h
  rcases Nat.lt_or_ge bytes.length msg.size with hlt | hge
  · refine .inr ⟨hlt, List.prefix_of_prefix_length_le (List.prefix_append _ _) h ?_⟩
    rw [List.length_map, List.length_map]
    omega
  · refine .inl (List.prefix_of_prefix_length_le h (List.prefix_append _ _) ?_)
    rw [List.length_map, List.length_map]
    omega

/-- What the filter finds for a message. -/
def judged (signedChar : Bool) (ignoreMask : BitVec 8) (msg : FilterItem σ) (bytes : Bytes) :
    Compared :=
  if skipped ignoreMask msg then .different
  else compareBytes (sameByte signedChar msg) msg.text bytes

theorem lower_toNat {c : BitVec 8} (h : c < 0x80) : (lower c).toNat < 0x80 := by
  rw [BitVec.lt_def] at h
  unfold lower
  split
  · rename_i hletter
    have hle : c.toNat ≤ 0x5a := BitVec.le_def.mp hletter.2
    show (c.toNat + 0x20) % 2 ^ 8 < 0x80
    omega
  · exact h

theorem sameByte_unsigned (msg : FilterItem σ) (a b : BitVec 8) :
    sameByte false msg a b = true ↔ msg.letter a = msg.letter b := by
  unfold sameByte FilterItem.letter
  split
  · rw [if_neg Bool.false_ne_true, decide_eq_true_iff, Nat.cast_inj, BitVec.toNat_inj]
  · rw [decide_eq_true_iff]

/-- A `char` that is equal to a byte is that byte. -/
theorem sameByte_signed {a b : BitVec 8} (h : sameByte true msg a b = true) :
    sameByte false msg a b = true := by
  rw [sameByte_unsigned, FilterItem.letter, FilterItem.letter]
  rw [sameByte] at h
  split at h
  · rename_i hcase
    rw [if_pos hcase, if_pos hcase]
    rw [if_pos rfl, decide_eq_true_iff, BitVec.toInt_eq_toNat_cond] at h
    have hlt := (lower a).isLt
    refine BitVec.eq_of_toNat_eq ?_
    split at h <;> omega
  · rename_i hcase
    rw [if_neg hcase, if_neg hcase]
    exact of_decide_eq_true h

theorem sameByte_plain {b : BitVec 8} (hb : msg.isCaseInsensitive = true → b < 0x80)
    (a : BitVec 8) : sameByte true msg a b = sameByte false msg a b := by
  refine Bool.eq_iff_iff.mpr ⟨sameByte_signed, fun h => ?_⟩
  rw [sameByte] at h ⊢
  split at h
  · rename_i hcase
    have hlt := lower_toNat (hb hcase)
    rw [if_neg Bool.false_ne_true, decide_eq_true_iff] at h
    rw [if_pos hcase, if_pos rfl, decide_eq_true_iff, BitVec.toInt_eq_toNat_cond]
    split <;> omega
  · rename_i hcase
    rw [if_neg hcase]
    exact h

/-- **A message that is looked at is found where it occurs, and waited for where it can still
match**, unless a `char` is negative. -/
theorem judged_iff (hskipped : skipped ignoreMask msg = false)
    (hplain : signedChar = true → msg.isCaseInsensitive = true →
      msg.Occurs bytes ∨ msg.Open bytes → ∀ c ∈ bytes.take msg.size, c < 0x80) :
    (judged signedChar ignoreMask msg bytes = .matched ↔ msg.Occurs bytes) ∧
      (judged signedChar ignoreMask msg bytes = .missing ↔ msg.Open bytes) := by
  have hlength := length_text hskipped
  have hmatched := @compareBytes_matched _ _ msg.text bytes (sameByte_unsigned msg)
  have hmissing := @compareBytes_missing _ _ msg.text bytes (sameByte_unsigned msg)
  rw [hlength] at hmissing
  rw [judged, if_neg (by rw [hskipped]; exact Bool.false_ne_true)]
  cases signedChar with
  | false => exact ⟨hmatched, hmissing⟩
  | true =>
    by_cases hfound : msg.Occurs bytes ∨ msg.Open bytes
    · rw [compareBytes_congr fun b hb => sameByte_plain fun hcase => ?_]
      · exact ⟨hmatched, hmissing⟩
      · rw [hlength] at hb
        exact hplain rfl hcase hfound b hb
    · have hdifferent : compareBytes (sameByte false msg) msg.text bytes = .different := by
        cases heq : compareBytes (sameByte false msg) msg.text bytes with
        | matched => exact absurd (.inl (hmatched.mp heq)) hfound
        | missing => exact absurd (.inr (hmissing.mp heq)) hfound
        | different => rfl
      rw [not_or] at hfound
      rw [compareBytes_different (fun _ _ => sameByte_signed) hdifferent]
      exact ⟨iff_of_false nofun hfound.1, iff_of_false nofun hfound.2⟩

end

/-! ### A table -/

section
variable {signedChar : Bool} {ignoreMask : BitVec 8} {msgs more : List (FilterItem σ)}
  {msg : FilterItem σ} {bytes : Bytes} {self : Filtering σ} {peeked i : Nat}
  {result : FilterReturn}

/-- Some message of a table is waited for. -/
def waits (signedChar : Bool) (ignoreMask : BitVec 8) (msgs : List (FilterItem σ))
    (bytes : Bytes) : Bool :=
  msgs.any fun msg => judged signedChar ignoreMask msg bytes = .missing

theorem compareLoop_judged (signedChar : Bool) (hskipped : skipped ignoreMask msg = false)
    (h : self.queue.Holds bytes peeked) :
    ∃ src queue peeked', msg.message = some src ∧
      compareLoop (sameByte signedChar msg) src msg.size self.queue.resetPeek =
        some (judged signedChar ignoreMask msg bytes, queue) ∧ queue.Holds bytes peeked' ∧
      (judged signedChar ignoreMask msg bytes = .matched → peeked' = msg.size) := by
  obtain ⟨src, hsrc⟩ : ∃ src, msg.message = some src := by
    simp only [skipped, Bool.or_eq_false_iff, Option.isNone_eq_false_iff] at hskipped
    exact Option.isSome_iff_exists.mp hskipped.1.2
  have htext : msg.text = src.take msg.size := by rw [FilterItem.text, hsrc, Option.getD_some]
  obtain ⟨queue, peeked', hloop, hholds, hmatched⟩ :=
    compareLoop_eq (sameByte signedChar msg) (msg.length_message src hsrc) h.resetPeek
  rw [List.drop_zero, Nat.zero_add] at hmatched
  refine ⟨src, queue, peeked', hsrc, ?_, hholds, ?_⟩
  · rw [hloop, judged, if_neg (by rw [hskipped]; exact Bool.false_ne_true), htext, List.drop_zero]
  · rw [judged, if_neg (by rw [hskipped]; exact Bool.false_ne_true), htext]
    exact hmatched

theorem ask_cons (p : FilterItem σ × Nat) (found : List (FilterItem σ × Nat)) (world : σ) :
    ask (p :: found) world = if (p.1.answer world).1 then
        ⟨some p.1, (p.1.answer world).2, p.1.handing p.2⟩
      else ⟨(ask found (p.1.answer world).2).handled, (ask found (p.1.answer world).2).world,
        p.1.handing p.2 ++ (ask found (p.1.answer world).2).events⟩ := rfl

/-- The messages of a table that are found. -/
def matching (signedChar : Bool) (ignoreMask : BitVec 8) (msgs : List (FilterItem σ)) (i : Nat)
    (bytes : Bytes) : List (FilterItem σ × Nat) :=
  (msgs.zipIdx i).filter fun p => judged signedChar ignoreMask p.1 bytes = .matched

/-- **The handlers of the messages that are found are asked**; when none handles its message, the
table may wait. -/
theorem messageFilter_eq (msgs : List (FilterItem σ)) (result : FilterReturn)
    (self : Filtering σ) (h : self.queue.Holds bytes peeked) {asked : Asked σ}
    (hasked : ask (matching signedChar ignoreMask msgs i bytes) self.world = asked) :
    ∃ queue peeked', queue.Holds bytes peeked' ∧
      (∀ msg, asked.handled = some msg → peeked' = msg.size) ∧
      messageFilter signedChar ignoreMask msgs i result self =
        some ((asked.handled.map handled).getD
            (if waits signedChar ignoreMask msgs bytes then .noResult else result),
          ⟨queue, asked.world, self.events ++ asked.events⟩) := by
  subst hasked
  induction msgs generalizing self peeked i result with
  | nil => exact ⟨self.queue, peeked, h, nofun, by simp [messageFilter, matching, ask, waits]⟩
  | cons msg msgs ih =>
    rw [matching, List.zipIdx_cons, List.filter_cons, ← matching, messageFilter, waits,
      List.any_cons, ← waits]
    cases hskipped : skipped ignoreMask msg with
    | true =>
      have hjudged : judged signedChar ignoreMask msg bytes = .different := if_pos hskipped
      rw [hjudged]
      exact ih result self h
    | false =>
      obtain ⟨src, queue₁, peeked₁, hsrc, hloop, h₁, hpeeked⟩ :=
        compareLoop_judged signedChar hskipped h
      rw [if_neg Bool.false_ne_true, hsrc, Option.bind_eq_bind, Option.bind_some, hloop,
        Option.bind_eq_bind, Option.bind_some]
      cases hjudged : judged signedChar ignoreMask msg bytes with
      | different => exact ih result { self with queue := queue₁ } h₁
      | missing =>
        have hrest := @ih _ (i + 1) .noResult { self with queue := queue₁ } h₁
        rw [ite_self] at hrest
        exact hrest
      | matched =>
        obtain rfl := hpeeked hjudged
        dsimp only
        rw [decide_eq_true rfl, if_pos rfl, ask_cons]
        cases hhandler : msg.handler with
        | none =>
          have hanswer : (msg.answer self.world).1 = true := by rw [FilterItem.answer, hhandler]
          rw [if_pos hanswer]
          refine ⟨queue₁, msg.size, h₁, fun msg' heq => congrArg _ (Option.some.inj heq), ?_⟩
          simp [FilterItem.answer, FilterItem.handing, hhandler]
        | some handler =>
          have hanswer : msg.answer self.world = handler self.world := by
            rw [FilterItem.answer, hhandler]
          have hhanding : msg.handing i = [.handed i] := by
            rw [FilterItem.handing, hhandler]
            rfl
          rw [hanswer, hhanding]
          dsimp only
          split
          · exact ⟨queue₁, msg.size, h₁, fun msg' heq => congrArg _ (Option.some.inj heq), rfl⟩
          · have hrest := @ih _ (i + 1) result
              ⟨queue₁, (handler self.world).2, self.events ++ [.handed i]⟩ h₁
            rw [List.append_assoc] at hrest
            exact hrest

end

/-! ### Both tables -/

section
variable {signedChar : Bool} {tables : FilterTables σ} {bytes : Bytes} {self : Filtering σ}
  {world : σ} {msg : FilterItem σ} {peeked i : Nat}

theorem mem_registered : (msg, i) ∈ tables.registered ↔
    (tables.default ++ tables.messages)[i]? = some msg ∧
      skipped tables.ignoreMask msg = false := by
  rw [FilterTables.registered, List.mem_filter, List.mem_zipIdx_iff_getElem?, Bool.not_eq_true']

theorem mem_found {p : FilterItem σ × Nat} :
    p ∈ found tables bytes ↔ p ∈ tables.registered ∧ p.1.Occurs bytes := by
  rw [found, List.mem_filter, decide_eq_true_iff]

theorem judged_of_when (hwhen : RoundWhen signedChar tables world bytes)
    (h : (msg, i) ∈ tables.registered) :
    (judged signedChar tables.ignoreMask msg bytes = .matched ↔ msg.Occurs bytes) ∧
      (judged signedChar tables.ignoreMask msg bytes = .missing ↔ msg.Open bytes) :=
  judged_iff (mem_registered.mp h).2 fun hsigned hcase => hwhen.ascii hsigned (msg, i) h hcase

theorem skipped_of_judged {ignoreMask : BitVec 8} {compared : Compared}
    (h : judged signedChar ignoreMask msg bytes = compared) (hne : compared ≠ .different) :
    skipped ignoreMask msg = false := by
  by_contra hskipped
  exact hne (h.symm.trans (if_pos (by simpa using hskipped)))

theorem waits_iff (hwhen : RoundWhen signedChar tables world bytes)
    {msgs : List (FilterItem σ)} (hsub : msgs ⊆ tables.default ++ tables.messages) :
    waits signedChar tables.ignoreMask msgs bytes = true ↔ tables.Awaits msgs bytes := by
  rw [waits, List.any_eq_true, FilterTables.Awaits]
  refine exists_congr fun msg => and_congr_right fun hmem => ?_
  rw [decide_eq_true_iff]
  obtain ⟨i, hget⟩ := List.getElem?_of_mem (hsub hmem)
  constructor
  · intro hmissing
    have hskipped := skipped_of_judged hmissing nofun
    exact ⟨hskipped, (judged_of_when hwhen (mem_registered.mpr ⟨hget, hskipped⟩)).2.mp hmissing⟩
  · rintro ⟨hskipped, hopen⟩
    exact (judged_of_when hwhen (mem_registered.mpr ⟨hget, hskipped⟩)).2.mpr hopen

/-- What is found in both tables is what occurs. -/
theorem matching_append (hwhen : RoundWhen signedChar tables world bytes) :
    matching signedChar tables.ignoreMask tables.default 0 bytes ++
        matching signedChar tables.ignoreMask tables.messages tables.default.length bytes =
      found tables bytes := by
  rw [matching, matching, ← List.filter_append, found, FilterTables.registered, List.filter_filter,
    List.zipIdx_append, Nat.zero_add]
  refine List.filter_congr fun p hmem => ?_
  rw [← Nat.zero_add tables.default.length, ← List.zipIdx_append,
    List.mem_zipIdx_iff_getElem?] at hmem
  rw [Bool.eq_iff_iff, Bool.and_eq_true, decide_eq_true_iff, decide_eq_true_iff,
    Bool.not_eq_true']
  constructor
  · intro hmatched
    have hskipped := skipped_of_judged hmatched nofun
    exact ⟨(judged_of_when hwhen (mem_registered.mpr ⟨hmem, hskipped⟩)).1.mp hmatched, hskipped⟩
  · rintro ⟨hoccurs, hskipped⟩
    exact (judged_of_when hwhen (mem_registered.mpr ⟨hmem, hskipped⟩)).1.mpr hoccurs

theorem settle_handled (msg : FilterItem σ) (self : Filtering σ) :
    ∃ settled, settle (handled msg) self = some settled := by
  unfold handled
  split
  · exact ⟨_, rfl⟩
  · exact ⟨_, rfl⟩

/-- The handlers of two tables. -/
theorem ask_append (first second : List (FilterItem σ × Nat)) (world : σ) :
    ask (first ++ second) world =
      if (ask first world).handled.isSome then ask first world
      else ⟨(ask second (ask first world).world).handled,
        (ask second (ask first world).world).world,
        (ask first world).events ++ (ask second (ask first world).world).events⟩ := by
  induction first generalizing world with
  | nil => rfl
  | cons p first ih =>
    rw [List.cons_append, ask_cons, ask_cons, ih]
    split
    · rfl
    · dsimp only
      split
      · rfl
      · rw [List.append_assoc]

/-- **One round asks the handlers of what occurs.** When none handles its message, it waits if
the tables do, and otherwise one byte is delivered. -/
theorem streamFilter_eq (hwhen : RoundWhen signedChar tables self.world bytes)
    (h : self.queue.Holds bytes peeked) {asked : Asked σ}
    (hasked : ask (found tables bytes) self.world = asked) :
    ∃ queue peeked', queue.Holds bytes peeked' ∧
      (∀ msg, asked.handled = some msg → peeked' = msg.size) ∧
      streamFilter signedChar tables self =
        match asked.handled with
        | some msg =>
          settle (handled msg) ⟨queue, asked.world, self.events ++ asked.events⟩
        | none => some (if tables.Awaits tables.default bytes then 0 else 1,
            ⟨queue, asked.world, self.events ++ asked.events⟩) := by
  have hdefault := waits_iff hwhen (List.subset_append_left tables.default tables.messages)
  have hmessages := waits_iff hwhen (List.subset_append_right tables.default tables.messages)
  rw [← matching_append hwhen, ask_append] at hasked
  subst hasked
  generalize hask : ask (matching signedChar tables.ignoreMask tables.default 0 bytes)
    self.world = first
  obtain ⟨queue₁, peeked₁, h₁, hpeeked₁, heq₁⟩ :=
    messageFilter_eq tables.default .failDropOne self h hask
  rw [streamFilter, heq₁]
  cases hfirst : first.handled with
  | some msg =>
    obtain ⟨settled, hsettled⟩ :=
      @settle_handled σ msg ⟨queue₁, first.world, self.events ++ first.events⟩
    refine ⟨queue₁, peeked₁, h₁, hpeeked₁, ?_⟩
    simp [hfirst, hsettled]
  | none =>
    have hsettle : ∀ (b : Bool) (self : Filtering σ),
        settle (if b then .noResult else .failDropOne) self = none := by
      intro b self
      cases b <;> rfl
    by_cases hempty : tables.messages = []
    · refine ⟨queue₁, peeked₁, h₁, ?_, ?_⟩
      · simp [hempty, matching, ask]
      · by_cases hawaits : tables.Awaits tables.default bytes
        · simp [settle, hempty, hdefault.mpr hawaits, hawaits, matching, ask]
        · simp [settle, hempty, mt hdefault.mp hawaits, hawaits, matching, ask]
    · generalize hask₂ : ask (matching signedChar tables.ignoreMask tables.messages
        tables.default.length bytes) first.world = second
      obtain ⟨queue₂, peeked₂, h₂, hpeeked₂, heq₂⟩ := messageFilter_eq tables.messages
        .failDropOne ⟨queue₁, first.world, self.events ++ first.events⟩ h₁ hask₂
      have hagree := hwhen.agree hempty
      dsimp only at heq₂
      refine ⟨queue₂, peeked₂, h₂, hpeeked₂, ?_⟩
      cases hsecond : second.handled with
      | some msg =>
        obtain ⟨settled, hsettled⟩ := @settle_handled σ msg
          ⟨queue₂, second.world, self.events ++ (first.events ++ second.events)⟩
        simp [hsettle, hempty, heq₂, hsecond, hsettled]
      | none =>
        by_cases hawaits : tables.Awaits tables.default bytes
        · have hawaits' := hmessages.mpr (hagree.mp hawaits)
          simp [settle, hempty, hdefault.mpr hawaits, hawaits, heq₂, hsecond, hawaits']
        · have hawaits' := mt (hagree.mpr ∘ hmessages.mp) hawaits
          simp [settle, hempty, mt hdefault.mp hawaits, hawaits, heq₂, hsecond, hawaits']

end

/-! ### A round -/

section
variable {tables : FilterTables σ} {input bytes : Bytes} {seen gone k n peeked : Nat}
  {front front₁ front₂ : FilterFront} {events more : List FilterEvent} {handed : List Nat}

theorem TakesAll.append (h : TakesAll tables input seen front events front₁)
    (hmore : TakesAll tables input seen front₁ more front₂) :
    TakesAll tables input seen front (events ++ more) front₂ := by
  induction h with
  | nil => exact hmore
  | cons htakes _ ih => exact .cons htakes (ih hmore)

theorem drop_eq_known (hgone : front.gone ≤ seen) :
    input.drop front.gone = known input seen front ++ input.drop seen := by
  obtain ⟨n, rfl⟩ := Nat.exists_eq_add_of_le hgone
  rw [known, List.drop_take, Nat.add_sub_cancel_left, ← List.drop_drop, List.take_append_drop]

theorem known_add (k : Nat) : known input seen ⟨gone + k, handed⟩ =
    (known input seen ⟨gone, handed⟩).drop k := by
  rw [known, known, List.drop_drop]

/-- What occurs here, or can still match, has been handed to its handler. -/
theorem settled_of_known (hgone : front.gone ≤ seen)
    (h : ∀ p ∈ tables.registered, p.1.handler.isSome →
      p.1.Occurs (known input seen front) ∨ p.1.Open (known input seen front) →
        p.2 ∈ front.handed) : Settled tables input front := by
  intro p hmem hhandler hoccurs
  rw [drop_eq_known hgone] at hoccurs
  exact h p hmem hhandler (occurs_append (mem_registered.mp hmem).2 hoccurs)

theorem length_known_le : (known input seen front).length ≤ seen - front.gone := by
  rw [known, List.length_drop, List.length_take]
  omega

/-- Bytes at which no message starts are delivered. -/
theorem takesAll_silent (tables : FilterTables σ)
    (hbytes : known input seen ⟨gone, []⟩ = bytes) (hk : k ≤ bytes.length)
    (hsilent : ∀ l < k, Silent tables (bytes.drop l)) :
    TakesAll tables input seen ⟨gone, []⟩ ((bytes.take k).map .delivered) ⟨gone + k, []⟩ := by
  induction k generalizing gone bytes with
  | zero => exact .nil _
  | succ k ih =>
    obtain ⟨byte, bytes, rfl⟩ := List.exists_cons_of_length_pos (Nat.lt_of_lt_of_le
      (Nat.succ_pos k) hk)
    have hfirst := hsilent 0 (Nat.succ_pos k)
    rw [List.drop_zero] at hfirst
    have hrest : known input seen ⟨gone + 1, []⟩ = bytes := by
      rw [known_add, hbytes, List.drop_succ_cons, List.drop_zero]
    have hlater := ih hrest (Nat.le_of_succ_le_succ hk)
      fun l hl => hsilent (l + 1) (Nat.succ_lt_succ hl)
    have hgone : (⟨gone, []⟩ : FilterFront).gone ≤ seen := by
      have hle := @length_known_le input seen ⟨gone, []⟩
      rw [hbytes, List.length_cons] at hle
      omega
    rw [List.take_succ_cons, List.map_cons, Nat.add_comm k 1, ← Nat.add_assoc]
    refine .cons (.delivered hbytes (fun p hmem => (hfirst p hmem).2)
      (settled_of_known hgone fun p hmem hhandler hfound => ?_)) hlater
    rw [hbytes] at hfound
    exact (hfound.elim (fun hoccurs => (hfirst p hmem).1 ⟨hhandler, hoccurs⟩)
      (hfirst p hmem).2).elim

/-- **Bytes are delivered** when no message can still match at the first, and none starts at the
others. -/
theorem takesAll_delivered (hpos : 0 < k) (hk : k ≤ (known input seen front).length)
    (hopen : ∀ p ∈ tables.registered, ¬p.1.Open (known input seen front))
    (hsettled : Settled tables input front)
    (hsilent : ∀ l < k, 0 < l → Silent tables ((known input seen front).drop l)) :
    TakesAll tables input seen front (((known input seen front).take k).map .delivered)
      ⟨front.gone + k, []⟩ := by
  obtain ⟨k, rfl⟩ := Nat.exists_eq_succ_of_ne_zero hpos.ne'
  obtain ⟨byte, bytes, hbytes⟩ := List.exists_cons_of_length_pos (Nat.lt_of_lt_of_le hpos hk)
  rw [hbytes] at hk hopen hsilent ⊢
  have hrest : known input seen ⟨front.gone + 1, []⟩ = bytes := by
    have hadd := @known_add input seen front.gone [] 1
    have hsame : known input seen ⟨front.gone, []⟩ = known input seen front := rfl
    rw [hadd, hsame, hbytes, List.drop_succ_cons, List.drop_zero]
  have hlater := takesAll_silent tables hrest (Nat.le_of_succ_le_succ hk)
    fun l hl => hsilent (l + 1) (Nat.succ_lt_succ hl) (Nat.succ_pos l)
  rw [List.take_succ_cons, List.map_cons, Nat.succ_eq_one_add, ← Nat.add_assoc]
  exact .cons (.delivered hbytes hopen hsettled) hlater

/-- **The line editor gets bytes off the queue**, as many as it is to get unless it exits. -/
theorem deliver_spec (consume : BitVec 8 → σ → ShellCtrl × σ) (self : Filtering σ)
    (h : self.queue.Holds bytes peeked) (hn : n ≤ bytes.length) :
    ∃ ctrl self' k peeked', deliver consume n self = some (ctrl, self') ∧
      self'.events = self.events ++ (bytes.take k).map .delivered ∧
      self'.queue.Holds (bytes.drop k) peeked' ∧ k ≤ n ∧ (0 < n → 0 < k) ∧
      (peeked = 0 ∨ 0 < n → peeked' = 0) ∧ (ctrl = .continue → k = n) := by
  induction n generalizing self bytes peeked with
  | zero =>
    exact ⟨.continue, self, 0, peeked, rfl, (List.append_nil _).symm, h, le_rfl, id,
      fun hzero => hzero.resolve_right (Nat.lt_irrefl 0), fun _ => rfl⟩
  | succ n ih =>
    obtain ⟨byte, bytes, rfl⟩ := List.exists_cons_of_length_pos (Nat.lt_of_lt_of_le
      (Nat.succ_pos n) hn)
    obtain ⟨queue, hread, h₁⟩ := h.readOne
    rw [deliver, hread, Option.bind_eq_bind, Option.bind_some]
    dsimp only
    split
    · exact ⟨.exit, _, 1, 0, rfl, rfl, h₁, by omega, fun _ => Nat.one_pos, fun _ => rfl, nofun⟩
    · obtain ⟨ctrl, self', k, peeked', hdeliver, hevents, hholds, hk, -, hpeeked, hall⟩ :=
        ih ⟨queue, (consume byte self.world).2, self.events ++ [.delivered byte]⟩ h₁
          (Nat.le_of_succ_le_succ hn)
      refine ⟨ctrl, self', k + 1, peeked', hdeliver, ?_, hholds, Nat.succ_le_succ hk,
        fun _ => Nat.succ_pos k, fun _ => hpeeked (.inl rfl), fun hctrl => congrArg _ (hall hctrl)⟩
      rw [hevents, List.take_succ_cons, List.map_cons, List.append_assoc, List.singleton_append]

/-- The queue holds what is known and not gone, and nothing has been handed over for that yet. -/
structure Shows (input : Bytes) (seen : Nat) (queue : ByteQueue filterFifoSize)
    (front : FilterFront) (peeked : Nat) : Prop where
  holds : queue.Holds (known input seen front) peeked
  handed : front.handed = []
  gone_le : front.gone ≤ seen

variable {signedChar : Bool} {consume : BitVec 8 → σ → ShellCtrl × σ} {self : Filtering σ}
  {msg : FilterItem σ} {world : σ} {i : Nat} {l : List (FilterItem σ × Nat)}

/-- The message that is handled is one of those that are asked for. -/
theorem mem_of_handled (h : (ask l world).handled = some msg) : ∃ i, (msg, i) ∈ l := by
  induction l generalizing world with
  | nil => cases h
  | cons p l ih =>
    rw [ask_cons] at h
    split at h
    · obtain rfl := Option.some.inj h
      exact ⟨p.2, List.mem_cons_self⟩
    · obtain ⟨i, hmem⟩ := ih h
      exact ⟨i, List.mem_cons_of_mem _ hmem⟩

theorem nodup_found (tables : FilterTables σ) (bytes : Bytes) :
    ((found tables bytes).map Prod.snd).Nodup := by
  rw [found, FilterTables.registered, List.filter_filter]
  refine List.Nodup.sublist (List.filter_sublist.map Prod.snd) ?_
  rw [List.zipIdx_map_snd]
  exact List.nodup_range'

/-- **What occurs is handed over**, and everything once. -/
theorem takesAll_ask (gone : Nat) (handed : List Nat) (world : σ)
    (hmem : ∀ p ∈ l, p ∈ tables.registered ∧ p.1.Occurs (known input seen ⟨gone, handed⟩))
    (hnodup : (l.map Prod.snd).Nodup) (hfresh : ∀ p ∈ l, p.2 ∉ handed) :
    ∃ handed', TakesAll tables input seen ⟨gone, handed⟩ (ask l world).events ⟨gone, handed'⟩ ∧
      handed ⊆ handed' ∧ ∀ i, .handed i ∈ (ask l world).events → i ∈ handed' := by
  induction l generalizing handed world with
  | nil => exact ⟨handed, .nil _, List.Subset.refl _, fun _ hmem => absurd hmem List.not_mem_nil⟩
  | cons p l ih =>
    rw [List.map_cons, List.nodup_cons] at hnodup
    obtain ⟨hreg, hoccurs⟩ := hmem p List.mem_cons_self
    rw [ask_cons]
    cases hhandler : p.1.handler with
    | none =>
      have hanswer : (p.1.answer world).1 = true := by rw [FilterItem.answer, hhandler]
      have hhanding : p.1.handing p.2 = [] := by
        rw [FilterItem.handing, hhandler]
        rfl
      rw [if_pos hanswer, hhanding]
      exact ⟨handed, .nil _, List.Subset.refl _, fun _ hmem => absurd hmem List.not_mem_nil⟩
    | some handler =>
      have hhanding : p.1.handing p.2 = [.handed p.2] := by
        rw [FilterItem.handing, hhandler]
        rfl
      have hone : Takes tables input seen ⟨gone, handed⟩ (.handed p.2) ⟨gone, p.2 :: handed⟩ :=
        .handed hreg hoccurs (hfresh p List.mem_cons_self)
      rw [hhanding]
      split
      · refine ⟨p.2 :: handed, .cons hone (.nil _), List.subset_cons_self _ _, fun i hi => ?_⟩
        cases List.mem_singleton.mp hi
        exact List.mem_cons_self
      · obtain ⟨handed', htakes, hsub, hin⟩ := ih (p.2 :: handed) (p.1.answer world).2
          (fun q hq => hmem q (List.mem_cons_of_mem _ hq)) hnodup.2 fun q hq => by
            rw [List.mem_cons, not_or]
            refine ⟨fun heq => hnodup.1 (heq ▸ List.mem_map_of_mem hq), ?_⟩
            exact hfresh q (List.mem_cons_of_mem _ hq)
        refine ⟨handed', .cons hone htakes, List.Subset.trans (List.subset_cons_self _ _) hsub,
          fun i hi => ?_⟩
        rcases List.mem_cons.mp hi with heq | hi
        · cases heq
          exact hsub List.mem_cons_self
        · exact hin i hi

/-- A message that occurs is among those. -/
theorem settled_of_asked {events : List FilterEvent} {handed : List Nat}
    (hgone : front.gone ≤ seen)
    (hopen : ∀ p ∈ tables.registered, ¬p.1.Open (known input seen front))
    (hasked : ∀ p ∈ found tables (known input seen front), p.1.handler.isSome →
      .handed p.2 ∈ events)
    (hin : ∀ i, .handed i ∈ events → i ∈ handed) : Settled tables input ⟨front.gone, handed⟩ :=
  settled_of_known hgone fun p hmem hhandler hfound => hin _ (hasked p
    (mem_found.mpr ⟨hmem, hfound.resolve_right (hopen p hmem)⟩) hhandler)

/-- What a round comes to. Where it is the last one, a message waits for what is left. -/
def RoundEnds (signedChar : Bool) (tables : FilterTables σ)
    (consume : BitVec 8 → σ → ShellCtrl × σ) (input : Bytes) (seen : Nat) (self : Filtering σ)
    (front : FilterFront) : Prop :=
  ∃ byteCount self₁ ctrl self₂ events front' peeked',
    streamFilter signedChar tables self = some (byteCount, self₁) ∧
      deliver consume byteCount self₁ = some (ctrl, self₂) ∧
      self₂.events = self.events ++ events ∧ TakesAll tables input seen front events front' ∧
      Shows input seen self₂.queue front' peeked' ∧
      (known input seen front').length < filterFifoSize ∧
      (byteCount = 0 → ctrl = .continue ∧ tables.Pending (known input seen front')) ∧
      (byteCount ≠ 0 →
        (known input seen front').length < (known input seen front).length ∧ peeked' = 0)

/-- A round that delivers some bytes. -/
theorem roundEnds_of_deliver {queue : ByteQueue filterFifoSize} (hn : 0 < n)
    (hle : n ≤ (known input seen front).length)
    (hfilter : streamFilter signedChar tables self =
      some (n, ⟨queue, world, self.events ++ events⟩))
    (hholds : queue.Holds (known input seen front) peeked) (hgone : front.gone ≤ seen)
    (htakes : TakesAll tables input seen front events ⟨front.gone, handed⟩)
    (hopen : ∀ p ∈ tables.registered, ¬p.1.Open (known input seen front))
    (hsettled : Settled tables input ⟨front.gone, handed⟩)
    (hsilent : ∀ l < n, 0 < l → Silent tables ((known input seen front).drop l)) :
    RoundEnds signedChar tables consume input seen self front := by
  obtain ⟨ctrl, self₂, k, peeked', hdeliver, hevents, hholds₂, hk, hpos, hpeeked, -⟩ :=
    deliver_spec consume ⟨queue, world, self.events ++ events⟩ hholds hle
  have hall : TakesAll tables input seen ⟨front.gone, handed⟩
      (((known input seen front).take k).map .delivered) ⟨front.gone + k, []⟩ :=
    takesAll_delivered (hpos hn) (hk.trans hle) hopen hsettled
      fun l hl => hsilent l (Nat.lt_of_lt_of_le hl hk)
  have hknown : known input seen ⟨front.gone + k, []⟩ = (known input seen front).drop k :=
    known_add k
  have hlength := @length_known_le input seen front
  have hmax := hholds.length_le
  have hk₀ := hpos hn
  refine ⟨n, _, ctrl, self₂, _, ⟨front.gone + k, []⟩, peeked', hfilter, hdeliver, ?_,
    htakes.append hall, ⟨by rwa [hknown], rfl, by dsimp only; omega⟩, ?_,
    fun hzero => absurd hzero hn.ne', fun _ => ⟨?_, hpeeked (.inr hn)⟩⟩
  · rw [hevents, List.append_assoc]
  · rw [hknown, List.length_drop]
    omega
  · rw [hknown, List.length_drop]
    omega

/-- A round that drops a message. -/
theorem roundEnds_of_drop {queue : ByteQueue filterFifoSize}
    (hreg : (msg, i) ∈ tables.registered) (hoccurs : msg.Occurs (known input seen front))
    (hvisible : msg.isVisible = false)
    (hfilter : streamFilter signedChar tables self =
      settle (handled msg) ⟨queue, world, self.events ++ events⟩)
    (hholds : queue.Holds (known input seen front) msg.size) (hgone : front.gone ≤ seen)
    (htakes : TakesAll tables input seen front events ⟨front.gone, handed⟩)
    (hsettled : Settled tables input ⟨front.gone, handed⟩)
    (hpending : tables.Pending ((known input seen front).drop msg.size)) :
    RoundEnds signedChar tables consume input seen self front := by
  rw [handled, if_neg (by rw [hvisible]; exact Bool.false_ne_true), settle] at hfilter
  dsimp only at hfilter
  rw [hholds.peekedNumber, hholds.contents] at hfilter
  have hskipped := (mem_registered.mp hreg).2
  have hlength := length_text hskipped
  have hpos := size_pos hskipped
  have hle : msg.size ≤ (known input seen front).length := by
    have hle := hoccurs.length_le
    rwa [List.length_map, List.length_map, hlength] at hle
  have hbytes : ((known input seen front).take msg.size).length = msg.size :=
    List.length_take_of_le hle
  have hfront : msg.Occurs ((known input seen front).take msg.size) := by
    rw [FilterItem.Occurs, List.map_take]
    exact List.prefix_take_iff.mpr ⟨hoccurs, by rw [List.length_map, hlength]⟩
  have hone : Takes tables input seen ⟨front.gone, handed⟩
      (.dropped ((known input seen front).take msg.size)) ⟨front.gone + msg.size, []⟩ := by
    have hsplit : known input seen ⟨front.gone, handed⟩ =
        (known input seen front).take msg.size ++ (known input seen front).drop msg.size :=
      (List.take_append_drop msg.size (known input seen front)).symm
    have htakes := Takes.dropped hsplit hreg hbytes hfront hsettled
    rwa [hbytes] at htakes
  have hknown : known input seen ⟨front.gone + msg.size, []⟩ =
      (known input seen front).drop msg.size := known_add _
  have hmax := hholds.length_le
  have hseen := @length_known_le input seen front
  refine ⟨0, _, .continue, _, events ++ [.dropped ((known input seen front).take msg.size)],
    ⟨front.gone + msg.size, []⟩, 0, hfilter, rfl, List.append_assoc _ _ _,
    htakes.append (.cons hone (.nil _)), ⟨?_, rfl, ?_⟩, ?_, fun _ => ⟨rfl, ?_⟩,
    fun hzero => absurd rfl hzero⟩
  · rw [hknown]
    exact hholds.dropAllPeeked
  · dsimp only
    omega
  · rw [hknown, List.length_drop]
    omega
  · rwa [hknown]

/-- **Every round in which nothing goes wrong does what is right.** -/
theorem roundEnds (consume : BitVec 8 → σ → ShellCtrl × σ)
    (hwhen : RoundWhen signedChar tables self.world (known input seen front))
    (h : Shows input seen self.queue front peeked) (hne : known input seen front ≠ []) :
    RoundEnds signedChar tables consume input seen self front := by
  obtain ⟨queue, peeked', hholds, hpeeked, hfilter⟩ := streamFilter_eq hwhen h.holds rfl
  obtain ⟨gone, handed⟩ := front
  obtain rfl : handed = [] := h.handed
  obtain ⟨handed', htakes, -, hin⟩ := takesAll_ask gone [] self.world
    (fun p hmem => mem_found.mp hmem) (nodup_found tables (known input seen ⟨gone, []⟩))
    fun _ _ => List.not_mem_nil
  cases hhandled : (ask (found tables (known input seen ⟨gone, []⟩)) self.world).handled with
  | some msg =>
    obtain ⟨i, hmem⟩ := mem_of_handled hhandled
    obtain ⟨hreg, hoccurs⟩ := mem_found.mp hmem
    have hopen := hwhen.decided (List.ne_nil_of_mem hmem)
    have hsettled := settled_of_asked h.gone_le hopen hwhen.asked hin
    rw [hhandled] at hfilter
    obtain rfl := hpeeked msg hhandled
    cases hvisible : msg.isVisible with
    | false =>
      exact roundEnds_of_drop hreg hoccurs hvisible hfilter hholds h.gone_le htakes hsettled
        (hwhen.dropped msg hhandled hvisible)
    | true =>
      have hle : msg.size ≤ (known input seen ⟨gone, []⟩).length := by
        have hle := hoccurs.length_le
        rwa [List.length_map, List.length_map, length_text (mem_registered.mp hreg).2] at hle
      dsimp only at hfilter
      rw [handled, if_pos hvisible, settle, hholds.peekedNumber] at hfilter
      exact roundEnds_of_deliver (size_pos (mem_registered.mp hreg).2) hle hfilter hholds
        h.gone_le htakes hopen hsettled (hwhen.delivered msg hhandled hvisible)
  | none =>
    rw [hhandled] at hfilter
    dsimp only at hfilter
    by_cases hawaits : tables.Awaits tables.default (known input seen ⟨gone, []⟩)
    · rw [if_pos hawaits] at hfilter
      obtain ⟨msg, hmem, hskipped, hopen⟩ := hawaits
      obtain ⟨i, hget⟩ := List.getElem?_of_mem (List.mem_append_left tables.messages hmem)
      have hreg := mem_registered.mpr ⟨hget, hskipped⟩
      have hnil : found tables (known input seen ⟨gone, []⟩) = [] := by
        by_contra hfound
        exact hwhen.decided hfound _ hreg hopen
      rw [hnil] at hfilter
      exact ⟨0, _, .continue, _, [], ⟨gone, []⟩, peeked', hfilter, rfl, rfl, .nil _,
        ⟨hholds, rfl, h.gone_le⟩, Nat.lt_of_lt_of_le hopen.1 msg.size_le,
        fun _ => ⟨rfl, .inr ⟨_, hreg, hopen⟩⟩, fun hzero => absurd rfl hzero⟩
    · rw [if_neg hawaits] at hfilter
      have hopen : ∀ p ∈ tables.registered, ¬p.1.Open (known input seen ⟨gone, []⟩) := by
        rintro ⟨msg, i⟩ hmem hopen
        obtain ⟨hget, hskipped⟩ := mem_registered.mp hmem
        rcases List.mem_append.mp (List.mem_of_getElem? hget) with hmem' | hmem'
        · exact hawaits ⟨msg, hmem', hskipped, hopen⟩
        · exact hawaits ((hwhen.agree (List.ne_nil_of_mem hmem')).mpr
            ⟨msg, hmem', hskipped, hopen⟩)
      exact roundEnds_of_deliver Nat.one_pos (List.length_pos_of_ne_nil hne) hfilter hholds
        h.gone_le htakes hopen (settled_of_asked h.gone_le hopen hwhen.asked hin)
        fun l hl hl' => by omega

/-- **The rounds come to an end**, with the events that are right. -/
theorem rounds_spec (hwhen : RoundsWhen signedChar tables consume n self)
    (h : Shows input seen self.queue front peeked)
    (hpeeked : known input seen front = [] ∨ peeked < (known input seen front).length)
    (hn : (known input seen front).length < n) :
    ∃ ctrl self' events front' peeked',
      rounds signedChar tables consume n self = some (ctrl, self') ∧
        self'.events = self.events ++ events ∧
        TakesAll tables input seen front events front' ∧
        Shows input seen self'.queue front' peeked' ∧
        (known input seen front').length < filterFifoSize ∧
        (ctrl = .continue → tables.Pending (known input seen front')) := by
  induction n generalizing self front peeked with
  | zero => exact absurd hn (Nat.not_lt_zero _)
  | succ n ih =>
    have hcount := h.holds.length
    have hpeekCount := h.holds.peekCount
    rw [rounds]
    rcases hpeeked with hnil | hlt
    · have hzero : self.queue.peekCount = 0 := by
        rw [hnil] at hcount
        rw [hpeekCount, ← hcount]
        exact Nat.zero_sub _
      rw [if_pos hzero]
      refine ⟨.continue, self, [], front, peeked, rfl, (List.append_nil _).symm, .nil _, h, ?_,
        fun _ => .inl hnil⟩
      rw [hnil]
      exact Nat.zero_lt_succ _
    · have hsome : self.queue.peekCount ≠ 0 := by omega
      obtain ⟨hround, hrest⟩ := hwhen hsome
      rw [h.holds.contents] at hround
      obtain ⟨byteCount, self₁, ctrl, self₂, events, front₂, peeked₂, hfilter, hdeliver, hevents,
        htakes, hshows, hmax, hlast, hnext⟩ :=
        roundEnds consume hround h (List.ne_nil_of_length_pos (by omega))
      rw [if_neg hsome, hfilter, Option.bind_eq_bind, Option.bind_some]
      dsimp only
      rw [hdeliver, Option.bind_eq_bind, Option.bind_some]
      cases byteCount with
      | zero =>
        obtain ⟨rfl, hpending⟩ := hlast rfl
        exact ⟨.continue, self₂, events, front₂, peeked₂, rfl, hevents, htakes, hshows, hmax,
          fun _ => hpending⟩
      | succ byteCount =>
        obtain ⟨hless, rfl⟩ := hnext (Nat.succ_ne_zero _)
        cases ctrl with
        | exit => exact ⟨.exit, self₂, events, front₂, 0, rfl, hevents, htakes, hshows, hmax, nofun⟩
        | «continue» =>
          obtain ⟨ctrl, self', more, front', peeked', hrounds, hmore, htakes', h'⟩ :=
            ih (hrest _ hfilter (Nat.succ_ne_zero _) _ hdeliver rfl) hshows
              ((Nat.eq_zero_or_pos _).imp_left List.eq_nil_of_length_eq_zero) (by omega)
          refine ⟨ctrl, self', events ++ more, front', peeked', hrounds, ?_,
            htakes.append htakes', h'⟩
          rw [hmore, hevents, List.append_assoc]

end

/-! ### A run -/

section
variable {signedChar : Bool} {tables : FilterTables σ} {consume : BitVec 8 → σ → ShellCtrl × σ}
  {input rest : Bytes} {shell : FilterShell σ} {front : FilterFront} {seen peeked : Nat}

/-- **A character is taken**, and what is left fits with another one into the queue. -/
theorem runChar_spec {inputChar : BitVec 8} (hrest : input.drop seen = inputChar :: rest)
    (hwhen : CharWhen signedChar tables consume inputChar shell)
    (h : Shows input seen shell.fifo front peeked)
    (hroom : (known input seen front).length < filterFifoSize) :
    ∃ shell' ctrl events front' peeked',
      runChar signedChar tables consume inputChar shell = some (shell', ctrl, events) ∧
        TakesAll tables input (seen + 1) front events front' ∧
        Shows input (seen + 1) shell'.fifo front' peeked' ∧
        (known input (seen + 1) front').length < filterFifoSize ∧
        (ctrl = .continue → tables.Pending (known input (seen + 1) front')) := by
  have hseen : seen < input.length := by
    by_contra hge
    rw [List.drop_eq_nil_of_le (not_lt.mp hge)] at hrest
    cases hrest
  have hchar : input[seen]? = some inputChar := by
    rw [← List.head?_drop, hrest]
    rfl
  have hknown : known input (seen + 1) front = known input seen front ++ [inputChar] := by
    rw [known, List.take_add_one, hchar, List.drop_append_of_le_length]
    · rfl
    · rw [List.length_take_of_le hseen.le]
      exact h.gone_le
  obtain ⟨queue, hwrite, hholds⟩ := h.holds.writeOne hroom inputChar
  rw [← hknown] at hholds
  have hpeeked := h.holds.length ▸ h.holds.peeked_le
  have hlength : (known input (seen + 1) front).length = (known input seen front).length + 1 := by
    rw [hknown, List.length_append, List.length_singleton]
  obtain ⟨ctrl, self', events, front', peeked', hrounds, hevents, htakes, hshows, hmax, hpending⟩ :=
    rounds_spec (hwhen queue hwrite) ⟨hholds, h.handed, h.gone_le.trans (Nat.le_succ seen)⟩
      (.inr (by omega)) (by rw [hholds.length]; exact Nat.lt_succ_self _)
  rw [List.nil_append] at hevents
  refine ⟨⟨some self'.queue, self'.world⟩, ctrl, events, front', peeked', ?_, htakes, hshows, hmax,
    hpending⟩
  rw [runChar, hwrite, Option.bind_eq_bind, Option.bind_some, hrounds, ← hevents]
  rfl

/-- **The stream is filtered**, from any byte on. -/
theorem lawful_run (hrest : input.drop seen = rest)
    (hwhen : (filterMachine signedChar tables consume).Meets
      (CharWhen signedChar tables consume) shell rest)
    (h : Shows input seen shell.fifo front peeked)
    (hroom : (known input seen front).length < filterFifoSize) :
    ∃ shell' outputs front',
      (filterMachine signedChar tables consume).run shell rest = some (shell', outputs) ∧
        Lawful tables input seen front outputs front' ∧
        shell'.fifo.contents = input.drop front'.gone := by
  induction rest generalizing seen shell front peeked with
  | nil =>
    refine ⟨shell, [], front, rfl, .nil _ _, ?_⟩
    rw [h.holds.contents, drop_eq_known h.gone_le, hrest, List.append_nil]
  | cons inputChar rest ih =>
    obtain ⟨hchar, hlater⟩ := hwhen
    obtain ⟨shell₁, ctrl, events, front₁, peeked₁, hrun, htakes, hshows, hmax, hpending⟩ :=
      runChar_spec hrest hchar h hroom
    have hrest₁ : input.drop (seen + 1) = rest := by
      rw [← List.tail_drop, hrest, List.tail_cons]
    obtain ⟨shell', outputs, front', hrun', hlawful, hcontents⟩ :=
      ih hrest₁ (hlater shell₁ (ctrl, events) hrun) hshows hmax
    refine ⟨shell', (ctrl, events) :: outputs, front', ?_, .cons htakes hpending hlawful, hcontents⟩
    have hstep : (filterMachine signedChar tables consume).step inputChar shell =
        some (shell₁, ctrl, events) := hrun
    rw [Machine.run, hstep, Option.bind_some, hrun', Option.map_some]

/-- **The filter keeps the law in every run in which nothing goes wrong.** -/
theorem filter_run (signedChar : Bool) (tables : FilterTables σ)
    (consume : BitVec 8 → σ → ShellCtrl × σ) (world : σ) (input : Bytes)
    (hwhen : (filterMachine signedChar tables consume).Meets (CharWhen signedChar tables consume)
      ⟨none, world⟩ input) : FilterLaw signedChar tables consume world input := by
  have hstart : Shows input 0 (FilterShell.fifo ⟨none, world⟩) ⟨0, []⟩ 0 :=
    ⟨ByteQueue.Holds.of_init _, rfl, le_rfl⟩
  exact lawful_run List.drop_zero hwhen hstart (Nat.zero_lt_succ _)

/-- A message between two characters. -/
theorem filter_run_hi : FilterLaw true ⟨gDefaultFilterMessages, [], 0, List.cons_ne_nil _ _⟩
    (fun _ world => (.continue, world)) ()
    [0x78, 0x23, 0x23, 0x23, 0x48, 0x69, 0x20, 0x50, 0x69, 0x6b, 0x61, 0x79] :=
  filter_run _ _ _ _ _ (by decide +kernel)

/-- With a message of the user, no default message is waited for. -/
theorem not_filter : ¬FilterLaw true ⟨gDefaultFilterMessages,
    [defaultMessage [0x78] false (by decide)], 0, List.cons_ne_nil _ _⟩
    (fun _ world => (.continue, world)) () [0x23] := by
  rintro ⟨shell, outputs, front, hrun, hlawful, -⟩
  have houtputs : outputs = [(.continue, [.delivered 0x23])] :=
    Option.some.inj ((congrArg (Option.map Prod.snd) hrun).symm.trans rfl)
  rw [houtputs] at hlawful
  cases hlawful with
  | cons htakes _ _ =>
    cases htakes with
    | cons hone _ =>
      cases hone with
      | delivered hknown hopen _ =>
        rw [← hknown] at hopen
        exact absurd hopen (by decide)

end

end Filter
end PikaScript
