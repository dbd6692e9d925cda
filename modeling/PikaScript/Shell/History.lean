import Mathlib.Data.List.Chain
import Mathlib.Data.List.DropRight
import PikaScript.Lib.Machine
import PikaScript.VM.Operator

/-! The history of the shell.

`shHistory_add` makes room, drops an empty command and leaves out a repeated one, in that
order; a repeated one returns before `current` is set. `record` is what a history of any
length would keep of the commands, and `HistoryLaw` says that the last of them are there and
can be walked. -/
namespace PikaScript

/-! ### The code -/

/-- How many pointers fit the array `shHistory_create` asks for: its size is a `uint32_t`. -/
def historySlots (maxSize : Nat) : Nat := u32 (maxSize * 8) / 8

/-- `ShellHistory`. Of `history` the part below `count`. -/
structure ShellHistory where
  maxSize : Nat
  current : Int
  lastOffset : Int
  cachedCurrent : Bool
  history : List CString
  pos : 0 < maxSize
  fits : history.length ≤ historySlots maxSize
deriving DecidableEq

theorem historySlots_le (maxSize : Nat) : historySlots maxSize ≤ maxSize :=
  Nat.div_le_of_le_mul (by rw [Nat.mul_comm]; exact u32_le _)

theorem historySlots_of_lt {maxSize : Nat} (h : maxSize < 2 ^ 29) :
    historySlots maxSize = maxSize := by
  rw [historySlots, u32_of_lt (by omega), Nat.mul_div_cancel _ (by decide)]

namespace ShellHistory
variable (self : ShellHistory)

/-- `shHistory_create`. -/
def create (maxSize : Nat) (pos : 0 < maxSize) : ShellHistory where
  maxSize := maxSize
  current := -1
  lastOffset := 0
  cachedCurrent := false
  history := []
  pos := pos
  fits := Nat.zero_le _

theorem length_le_maxSize : self.history.length ≤ self.maxSize :=
  self.fits.trans (historySlots_le _)

/-- The first branch of `shHistory_add`: a full history loses its oldest command. -/
def evict : ShellHistory :=
  if self.history.length = self.maxSize then
    { self with
      history := self.history.tail
      fits := (List.length_tail ▸ Nat.sub_le _ _).trans self.fits }
  else self

/-- The filter for an empty command. -/
def dropEmpty : ShellHistory :=
  if self.history.getLast? = some [] then
    { self with
      history := self.history.dropLast
      fits := (List.length_dropLast ▸ Nat.sub_le _ _).trans self.fits }
  else self

/-- The end of `shHistory_add`. None when the array has no slot left. -/
def push (command : CString) : Option ShellHistory :=
  if h : self.history.length < historySlots self.maxSize then
    some { self with
      history := self.history ++ [command]
      current := self.history.length
      lastOffset := 0
      fits := by rw [List.length_append, List.length_singleton]; exact h }
  else none

/-- `shHistory_add`. -/
def add (command : CString) : Option ShellHistory :=
  let self := self.evict.dropEmpty
  if self.history.getLast? = some command then some self else self.push command

/-- `shHistory_get`, and what it leaves. -/
def get (offset : Int) : Option CString × ShellHistory :=
  let actualOffset := offset + self.lastOffset
  let index := self.current + actualOffset
  if index < 0 ∨ index ≥ self.history.length then (none, self)
  else (self.history[index.toNat]?, { self with lastOffset := actualOffset })

/-- `shHistory_getPrev`. -/
def getPrev : Option CString × ShellHistory := self.get (-1)

/-- `shHistory_getNext`. -/
def getNext : Option CString × ShellHistory := self.get 1

end ShellHistory

/-- A call of the history. -/
inductive HistoryCall where
  | add (command : StrValue)
  | getPrev
  | getNext
deriving DecidableEq

/-- The calls, with the command that is returned. -/
def historyMachine : Machine HistoryCall ShellHistory (Option CString) where
  step
    | .add command, self => (self.add command.text).map fun self => (self, none)
    | .getPrev, self => some (self.getPrev.2, self.getPrev.1)
    | .getNext, self => some (self.getNext.2, self.getNext.1)

/-! ### The commands recorded -/

/-- The commands without an empty one at the end. -/
def settled (log : List CString) : List CString :=
  if log.getLast? = some [] then log.dropLast else log

/-- One more command: an empty one before it is dropped, and it is not recorded again. -/
def record (log : List CString) (command : CString) : List CString :=
  if (settled log).getLast? = some command then settled log else settled log ++ [command]

/-- What a call leaves recorded. -/
def recordCall (log : List CString) : HistoryCall → List CString
  | .add command => record log command.text
  | _ => log

/-- The commands that are recorded of some calls. -/
def recorded (calls : List HistoryCall) : List CString := calls.foldl recordCall []

theorem settled_of_ne {log : List CString} (h : log.getLast? ≠ some []) : settled log = log :=
  if_neg h

theorem settled_of_eq {log : List CString} (h : log.getLast? = some []) :
    settled log = log.dropLast :=
  if_pos h

theorem record_of_ne {log : List CString} {command : CString}
    (h : (settled log).getLast? ≠ some command) : record log command = settled log ++ [command] :=
  if_neg h

theorem getLast?_record (log : List CString) (command : CString) :
    (record log command).getLast? = some command := by
  unfold record
  split
  · assumption
  · exact List.getLast?_concat

theorem settled_isChain {log : List CString} (h : log.IsChain (· ≠ ·)) :
    (settled log).IsChain (· ≠ ·) := by
  unfold settled
  split
  · exact h.dropLast
  · exact h

/-- No two adjacent commands are equal. -/
theorem record_isChain {log : List CString} (h : log.IsChain (· ≠ ·)) (command : CString) :
    (record log command).IsChain (· ≠ ·) := by
  unfold record
  split
  · exact settled_isChain h
  · rename_i hlast
    refine (settled_isChain h).append (List.isChain_singleton _) fun x hx y hy => ?_
    obtain rfl : command = y := by simpa using hy
    rintro rfl
    exact hlast hx

/-- A command equal to the latest one changes nothing. -/
theorem record_of_getLast? {log : List CString} (h : log.IsChain (· ≠ ·)) {command : CString}
    (hlast : log.getLast? = some command) : record log command = log := by
  have hsplit : log.dropLast ++ [command] = log := List.dropLast_append_getLast? _ hlast
  by_cases hempty : command = []
  · rw [record_of_ne, settled_of_eq (hempty ▸ hlast), hsplit]
    rw [settled_of_eq (hempty ▸ hlast)]
    intro hprev
    rw [← hsplit] at h
    exact (List.isChain_append.mp h).2.2 _ hprev _ rfl rfl
  · have hsettled : settled log = log := settled_of_ne (by rw [hlast]; simpa using hempty)
    rw [record, hsettled, if_pos hlast]

/-! ### The law of a run -/

namespace ShellHistory
variable (self : ShellHistory)

/-- The index of the entry the navigation is at. -/
def position : Int := self.current + self.lastOffset

/-- A navigation by `offset` returns the entry there and is at it, or returns NULL and does
not move. -/
def Navigates (offset : Int) (result : Option CString × ShellHistory) : Prop :=
  if 0 ≤ self.position + offset ∧ self.position + offset < self.history.length then
    ∃ entry, self.history[(self.position + offset).toNat]? = some entry ∧
      result.1 = some entry ∧ result.2.position = self.position + offset
  else result = (none, self)

end ShellHistory

/-- The commands a history can take: into a full one, of more than one entry, none behind an
empty command and not the latest one; into one with room not the command before an empty one,
and only while the array has a slot. -/
structure ShellHistory.AddWhen (sh : ShellHistory) (command : CString) : Prop where
  full : sh.history.length = sh.maxSize → 1 < sh.maxSize →
    sh.history.getLast? ≠ some [] ∧ sh.history.getLast? ≠ some command
  before : sh.history.length < sh.maxSize → sh.history.getLast? = some [] →
    sh.history.dropLast.getLast? ≠ some command
  room : sh.history.length < sh.maxSize → sh.history.getLast? ≠ some [] →
    sh.history.getLast? ≠ some command → sh.history.length < historySlots sh.maxSize

instance (sh : ShellHistory) (command : CString) : Decidable (sh.AddWhen command) :=
  @decidable_of_iff _
    ((sh.history.length = sh.maxSize → 1 < sh.maxSize →
      sh.history.getLast? ≠ some [] ∧ sh.history.getLast? ≠ some command) ∧
    (sh.history.length < sh.maxSize → sh.history.getLast? = some [] →
      sh.history.dropLast.getLast? ≠ some command) ∧
    (sh.history.length < sh.maxSize → sh.history.getLast? ≠ some [] →
      sh.history.getLast? ≠ some command → sh.history.length < historySlots sh.maxSize))
    ⟨fun h => ⟨h.1, h.2.1, h.2.2⟩, fun h => ⟨h.full, h.before, h.room⟩⟩
    (@instDecidableAnd _ _ inferInstance (@instDecidableAnd _ _ inferInstance inferInstance))

/-- The calls that keep the law. -/
def HistoryWhen : HistoryCall → ShellHistory → Prop
  | .add command, self => self.AddWhen command.text
  | _, _ => True

instance : ∀ call self, Decidable (HistoryWhen call self)
  | .add command, self => inferInstanceAs (Decidable (self.AddWhen command.text))
  | .getPrev, _ => .isTrue trivial
  | .getNext, _ => .isTrue trivial

/-- The history holds the most recent of the recorded commands, no two adjacent ones equal,
is at the latest one, and can be walked from where it is. -/
structure HistoryLaw (sh : ShellHistory) (log : List CString) : Prop where
  entries : sh.history = log.rtake sh.maxSize
  distinct : sh.history.IsChain (· ≠ ·)
  current : sh.current = sh.history.length - 1
  again : ∀ command, sh.history.getLast? = some command → sh.AddWhen command →
    (sh.add command).map ShellHistory.history = some sh.history
  prev : sh.Navigates (-1) sh.getPrev
  next : sh.Navigates 1 sh.getNext

/-- What every call keeps: the entries, and a place in them. -/
structure ShellHistory.Keeps (sh : ShellHistory) (log : List CString) : Prop where
  entries : sh.history = log.rtake sh.maxSize
  chain : log.IsChain (· ≠ ·)
  current : sh.current = sh.history.length - 1
  lastOffset_le : sh.lastOffset ≤ 0
  position_nonneg : sh.history ≠ [] → 0 ≤ sh.position
  start : sh.history = [] → sh.lastOffset = 0

namespace ShellHistory
variable {self self' : ShellHistory} {log : List CString} {command : CString}

@[simp] theorem maxSize_evict : self.evict.maxSize = self.maxSize := by
  unfold evict
  split <;> rfl

@[simp] theorem maxSize_dropEmpty : self.dropEmpty.maxSize = self.maxSize := by
  unfold dropEmpty
  split <;> rfl

@[simp] theorem history_dropEmpty : self.dropEmpty.history = settled self.history := by
  unfold dropEmpty settled
  split <;> rfl

theorem evict_of_lt (h : self.history.length < self.maxSize) : self.evict = self :=
  if_neg h.ne

theorem history_evict_of_full (h : self.history.length = self.maxSize) :
    self.evict.history = self.history.tail := by
  rw [evict, if_pos h]

theorem dropEmpty_of_ne (h : self.history.getLast? ≠ some []) : self.dropEmpty = self :=
  if_neg h

/-- What `push` leaves. -/
theorem push_eq (h : self.history.length < historySlots self.maxSize) :
    ∃ self', self.push command = some self' ∧ self'.maxSize = self.maxSize ∧
      self'.history = self.history ++ [command] ∧ self'.current = self.history.length ∧
      self'.lastOffset = 0 :=
  ⟨_, dif_pos h, rfl, rfl, rfl, rfl⟩

/-- A command that is pushed behind the others is the latest one. -/
theorem keeps_of_push (hroom : self.history.length < historySlots self.maxSize)
    (hchain : log.IsChain (· ≠ ·)) (hentries : self.history ++ [command] = log.rtake self.maxSize) :
    ∃ self', self.push command = some self' ∧ self'.maxSize = self.maxSize ∧ self'.Keeps log := by
  obtain ⟨self', hpush, hsize, hhistory, hcurrent, hoffset⟩ := @push_eq self command hroom
  have hlength : self'.history.length = self.history.length + 1 := by
    rw [hhistory, List.length_append, List.length_singleton]
  refine ⟨self', hpush, hsize, ?_, hchain, ?_, hoffset.le, fun _ => ?_, fun _ => hoffset⟩
  · rw [hhistory, hentries, hsize]
  · rw [hcurrent, hlength]
    omega
  · rw [position, hcurrent, hoffset]
    omega

/-- A history with room holds all that is recorded. -/
theorem Keeps.history_eq (h : self.Keeps log) (hlt : self.history.length < self.maxSize) :
    self.history = log := by
  have hentries := h.entries
  rw [List.rtake] at hentries
  have hlength := congrArg List.length hentries
  rw [List.length_drop] at hlength
  rw [hentries, show log.length - self.maxSize = 0 by omega, List.drop_zero]

theorem rtake_of_length_le {log : List CString} {n : Nat} (h : log.length ≤ n) :
    log.rtake n = log := by
  rw [List.rtake, Nat.sub_eq_zero_of_le h, List.drop_zero]

/-- The add of a command into a history with room. -/
theorem Keeps.add_of_lt (h : self.Keeps log) (hlt : self.history.length < self.maxSize)
    (hwhen : self.AddWhen command) :
    ∃ self', self.add command = some self' ∧ self'.maxSize = self.maxSize ∧
      self'.Keeps (record log command) := by
  have hlog := h.history_eq hlt
  have hadd : self.add command = if (settled log).getLast? = some command then
      some self.dropEmpty else self.dropEmpty.push command := by
    rw [ShellHistory.add, evict_of_lt hlt, history_dropEmpty, hlog]
  by_cases hlast : (settled log).getLast? = some command
  · have hne : self.history.getLast? ≠ some [] := by
      intro hempty
      rw [hlog] at hempty
      rw [settled_of_eq hempty] at hlast
      exact hwhen.before hlt (hlog ▸ hempty) (hlog ▸ hlast)
    have hsettled : settled log = log := settled_of_ne (hlog ▸ hne)
    rw [hadd, if_pos hlast, dropEmpty_of_ne hne]
    refine ⟨self, rfl, rfl, ?_⟩
    rw [record, if_pos hlast, hsettled]
    exact h
  · have hle : (settled log).length ≤ log.length := by
      unfold settled
      split
      · exact List.length_dropLast ▸ Nat.sub_le _ _
      · exact le_rfl
    have hroom : (settled log).length < historySlots self.maxSize := by
      by_cases hempty : log.getLast? = some []
      · have hpos : 0 < log.length := List.length_pos_of_mem (List.mem_of_getLast? hempty)
        have hfits := self.fits
        rw [hlog] at hfits
        rw [settled_of_eq hempty, List.length_dropLast]
        omega
      · rw [settled_of_ne hempty] at hlast ⊢
        exact hlog ▸ hwhen.room hlt (hlog ▸ hempty) (hlog ▸ hlast)
    rw [hadd, if_neg hlast]
    have hkeeps := @keeps_of_push self.dropEmpty (record log command) command
      (by rw [history_dropEmpty, maxSize_dropEmpty, hlog]; exact hroom)
      (record_isChain h.chain command)
      (by
        rw [history_dropEmpty, maxSize_dropEmpty, hlog, record_of_ne hlast, rtake_of_length_le]
        rw [hlog] at hlt
        rw [List.length_append, List.length_singleton]
        omega)
    rwa [maxSize_dropEmpty] at hkeeps

/-- The add of a command into a full history. -/
theorem Keeps.add_of_full (h : self.Keeps log) (hfull : self.history.length = self.maxSize)
    (hwhen : self.AddWhen command) :
    ∃ self', self.add command = some self' ∧ self'.maxSize = self.maxSize ∧
      self'.Keeps (record log command) := by
  have hpos := self.pos
  have hfits := self.fits
  have hevict : self.evict.history = self.history.tail := history_evict_of_full hfull
  have htail : self.history.tail.length + 1 = self.maxSize := by
    rw [List.length_tail]
    omega
  have hne : self.evict.history.getLast? ≠ some [] ∧
      self.evict.history.getLast? ≠ some command := by
    rcases Nat.eq_or_lt_of_le hpos with hone | hone
    · have hnil : self.history.tail = [] := List.eq_nil_of_length_eq_zero (by omega)
      rw [hevict, hnil]
      exact ⟨nofun, nofun⟩
    · have hlast : self.history.tail.getLast? = self.history.getLast? := by
        rw [List.getLast?_tail, if_neg (by omega)]
      rw [hevict, hlast]
      exact hwhen.full hfull hone
  have hadd : self.add command = self.evict.push command := by
    rw [ShellHistory.add, dropEmpty_of_ne hne.1, if_neg hne.2]
  have hentries : self.history.tail ++ [command] = (record log command).rtake self.maxSize := by
    obtain ⟨n, hn⟩ : ∃ n, self.maxSize = n + 1 := ⟨self.maxSize - 1, by omega⟩
    rcases Nat.eq_or_lt_of_le hpos with hone | hone
    · have hnil : self.history.tail = [] := List.eq_nil_of_length_eq_zero (by omega)
      have hlast := List.dropLast_append_getLast? _ (getLast?_record log command)
      rw [hnil, ← hlast, ← hone, List.rtake_concat_succ, List.rtake_zero]
    · have hlast : log.getLast? = self.history.getLast? := by
        have hlength : log.length ≠ 0 := by
          intro hzero
          rw [h.entries, List.eq_nil_of_length_eq_zero hzero] at hfull
          simp at hfull
          omega
        rw [h.entries, List.rtake, List.getLast?_drop, if_neg (by omega)]
      obtain ⟨hempty, hother⟩ := hwhen.full hfull hone
      have hsettled : settled log = log := settled_of_ne (hlast ▸ hempty)
      rw [record_of_ne (by rw [hsettled, hlast]; exact hother), hsettled, hn,
        List.rtake_concat_succ]
      congr 1
      rw [h.entries, hn, List.rtake, List.rtake, List.tail_drop]
      congr 1
      rw [h.entries, List.rtake, List.length_drop] at hfull
      omega
  rw [hadd]
  have hkeeps := @keeps_of_push self.evict (record log command) command
    (by rw [hevict, maxSize_evict]; omega) (record_isChain h.chain command)
    (by rw [hevict, maxSize_evict]; exact hentries)
  rwa [maxSize_evict] at hkeeps

/-- **An add is recorded.** -/
theorem Keeps.add (h : self.Keeps log) (hwhen : self.AddWhen command) :
    ∃ self', self.add command = some self' ∧ self'.maxSize = self.maxSize ∧
      self'.Keeps (record log command) := by
  rcases Nat.eq_or_lt_of_le self.length_le_maxSize with hfull | hlt
  · exact h.add_of_full hfull hwhen
  · exact h.add_of_lt hlt hwhen

/-- An add finds a slot when the array is as large as asked for, and brings in nothing else. -/
theorem exists_add (h : self.maxSize < 2 ^ 29) (command : CString) :
    ∃ self', self.add command = some self' ∧ self'.maxSize = self.maxSize ∧
      ∀ entry ∈ self'.history, entry = command ∨ entry ∈ self.history := by
  have hpos := self.pos
  have hle := self.length_le_maxSize
  have hsettled : ∀ log : List CString, (settled log).Sublist log := by
    intro log
    unfold settled
    split
    · exact List.dropLast_sublist _
    · exact List.Sublist.refl _
  have hevict : self.evict.history.Sublist self.history ∧
      self.evict.history.length < self.maxSize := by
    unfold evict
    split
    · refine ⟨List.tail_sublist _, ?_⟩
      rw [List.length_tail]
      omega
    · exact ⟨List.Sublist.refl _, by omega⟩
  have hsub : self.evict.dropEmpty.history.Sublist self.evict.history := by
    rw [history_dropEmpty]
    exact hsettled _
  have hslots : historySlots self.evict.dropEmpty.maxSize = self.maxSize := by
    rw [maxSize_dropEmpty, maxSize_evict, historySlots_of_lt h]
  unfold ShellHistory.add
  dsimp only
  split
  · refine ⟨_, rfl, by rw [maxSize_dropEmpty, maxSize_evict], fun entry hentry => .inr ?_⟩
    exact hevict.1.subset (hsub.subset hentry)
  · obtain ⟨self', hpush, hsize, hhistory, -, -⟩ := @push_eq self.evict.dropEmpty command
      (by rw [hslots]; exact hsub.length_le.trans_lt hevict.2)
    refine ⟨self', hpush, by rw [hsize, maxSize_dropEmpty, maxSize_evict], fun entry hentry => ?_⟩
    rw [hhistory, List.mem_append, List.mem_singleton] at hentry
    rcases hentry with hentry | hentry
    · exact .inr (hevict.1.subset (hsub.subset hentry))
    · exact .inl hentry

/-- What `get` returns and leaves. -/
theorem get_eq (self : ShellHistory) (offset : Int) :
    self.get offset =
      if 0 ≤ self.position + offset ∧ self.position + offset < self.history.length then
        (self.history[(self.position + offset).toNat]?,
          { self with lastOffset := offset + self.lastOffset })
      else (none, self) := by
  have hindex : self.current + (offset + self.lastOffset) = self.position + offset := by
    rw [position]
    omega
  unfold get
  dsimp only
  rw [hindex]
  by_cases hin : 0 ≤ self.position + offset ∧ self.position + offset < self.history.length
  · rw [if_pos hin, if_neg (by omega)]
  · rw [if_neg hin, if_pos (by omega)]

theorem navigates_get (self : ShellHistory) (offset : Int) :
    self.Navigates offset (self.get offset) := by
  unfold Navigates
  rw [get_eq]
  split
  · rename_i hin
    refine ⟨_, List.getElem?_eq_getElem (by omega), ?_, ?_⟩
    · exact List.getElem?_eq_getElem (by omega)
    · simp only [position]
      omega
  · rfl

/-- A navigation stays in the history. -/
theorem Keeps.get (h : self.Keeps log) (offset : Int) : (self.get offset).2.Keeps log := by
  rw [get_eq]
  split
  · rename_i hin
    have hposition : self.position = self.current + self.lastOffset := rfl
    have hcurrent := h.current
    refine ⟨h.entries, h.chain, h.current, ?_, fun _ => ?_, fun hnil => ?_⟩
    · dsimp only
      omega
    · dsimp only [position]
      omega
    · dsimp only at hnil
      rw [hnil, List.length_nil] at hin
      omega
  · exact h

theorem keeps_create (maxSize : Nat) (pos : 0 < maxSize) : (create maxSize pos).Keeps [] where
  entries := List.rtake_nil _ |>.symm
  chain := .nil
  current := rfl
  lastOffset_le := le_rfl
  position_nonneg h := absurd rfl h
  start _ := rfl

/-- The law of a state that is kept. -/
theorem Keeps.law (h : self.Keeps log) : HistoryLaw self log where
  entries := h.entries
  distinct := h.entries ▸ h.chain.drop _
  current := h.current
  again command hlast hwhen := by
    obtain ⟨self', hadd, hsize, hkeeps⟩ := h.add hwhen
    have hlog : log.getLast? = some command := by
      rw [h.entries, List.rtake, List.getLast?_drop] at hlast
      split at hlast
      · cases hlast
      · exact hlast
    rw [hadd, Option.map_some, hkeeps.entries, hsize, record_of_getLast? h.chain hlog, h.entries]
  prev := navigates_get self (-1)
  next := navigates_get self 1

/-- A call that meets the condition is made, and recorded. -/
theorem Keeps.step (h : self.Keeps log) {call : HistoryCall} (hwhen : HistoryWhen call self) :
    ∃ self' entry, historyMachine.step call self = some (self', entry) ∧
      self'.Keeps (recordCall log call) := by
  cases call with
  | add command =>
    obtain ⟨self', hadd, -, hkeeps⟩ := h.add hwhen
    exact ⟨self', none, by simp only [historyMachine, hadd, Option.map_some], hkeeps⟩
  | getPrev => exact ⟨_, _, rfl, h.get (-1)⟩
  | getNext => exact ⟨_, _, rfl, h.get 1⟩

/-- Calls that meet the condition are made to the last. -/
theorem Keeps.run (h : self.Keeps log) {calls : List HistoryCall}
    (hwhen : historyMachine.Meets HistoryWhen self calls) :
    ∃ self' entries, historyMachine.run self calls = some (self', entries) ∧
      self'.Keeps (calls.foldl recordCall log) := by
  induction calls generalizing self log with
  | nil => exact ⟨self, [], rfl, h⟩
  | cons call calls ih =>
    obtain ⟨self₁, entry, hstep, hkeeps⟩ := h.step hwhen.1
    obtain ⟨self', entries, hrun, hkeeps'⟩ := ih hkeeps (hwhen.2 self₁ entry hstep)
    exact ⟨self', entry :: entries, by simp [Machine.run, hstep, hrun], hkeeps'⟩

end ShellHistory

/-- **Calls that meet the condition keep the history law**: they are made to the last, and the
history holds the most recent of the commands recorded. -/
theorem run_recalls (maxSize : Nat) (pos : 0 < maxSize) (calls : List HistoryCall)
    (hwhen : historyMachine.Meets HistoryWhen (.create maxSize pos) calls) :
    ∃ self entries, historyMachine.run (.create maxSize pos) calls = some (self, entries) ∧
      HistoryLaw self (recorded calls) := by
  obtain ⟨self, entries, hrun, hkeeps⟩ := (ShellHistory.keeps_create maxSize pos).run hwhen
  exact ⟨self, entries, hrun, hkeeps.law⟩

/-- Three commands in a history of two, walked back and forth. -/
theorem run_recalls_three :
    let calls : List HistoryCall := [.add ⟨[0x61], by decide, by decide⟩,
      .add ⟨[0x62], by decide, by decide⟩, .getPrev, .add ⟨[0x63], by decide, by decide⟩,
      .getPrev, .getPrev, .getNext]
    ∃ self entries, historyMachine.run (.create 2 (by decide)) calls = some (self, entries) ∧
      HistoryLaw self (recorded calls) :=
  run_recalls 2 (by decide) _ (by decide)

/-- The latest command again, and a full history has lost its oldest one. -/
theorem not_historyLaw :
    ¬∀ (maxSize : Nat) (pos : 0 < maxSize) (calls : List HistoryCall) (self : ShellHistory)
      (entries : List (Option CString)),
      historyMachine.run (.create maxSize pos) calls = some (self, entries) →
        HistoryLaw self (recorded calls) := by
  intro h
  have hlaw := h 2 (by decide) [.add ⟨[0x61], by decide, by decide⟩,
    .add ⟨[0x62], by decide, by decide⟩, .add ⟨[0x62], by decide, by decide⟩] _ _ rfl
  exact absurd hlaw.entries (by decide)

end PikaScript
