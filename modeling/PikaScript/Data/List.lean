import PikaScript.Data.Args
import PikaScript.Data.Decimal

/-! The list of `PikaObj.c`.

A `PikaList` is an `Args` whose entries are named by their index in decimal, next
to an entry `"top"` that counts them. Insertion, removal and `pop` rename the
entries behind the place they change. The list of values that the entries stand
for is what a list of Python would be after the same calls, as long as the calls
keep to `ListCall.Proper`. -/
namespace PikaScript

/-- `PikaList`, as the `Args` of `_OBJ2LIST`. -/
abbrev PikaList := Args

namespace PikaList
variable (signedChar : Bool) (self : PikaList)

/-! ### The code -/

/-- The name `"top"`. -/
def top : CString := [0x74, 0x6f, 0x70]

/-- `fast_itoa` of an `int`, which it takes as a `uint32_t`. -/
def itoa (index : Int) : CString := decimal (index % 2 ^ 32).toNat

/-- What an index is found by. -/
def indexHash (index : Int) : Hash := hashTime33 signedChar (itoa index)

/-- `pikaList_init`. -/
def init : PikaList := Args.pushArgName signedChar [] top (Arg.newInt 0)

/-- `pikaList_getSize`, as the `int` that its callers make of it. None when the
assertion fails. -/
def getSize : Option Int :=
  (Args.getArg signedChar self top).bind fun arg =>
    if arg.type = .int ∧ 0 ≤ arg.getInt.toInt then some (arg.getInt.setWidth 32).toInt else none

/-- `pikaList_get`. -/
def get (index : Int) : Option Arg := Args.getArgHash self (indexHash signedChar index)

/-- `args_setInt` of `"top"`. -/
def setTop (size : Int) : Option PikaList :=
  Args.setInt signedChar self top (BitVec.ofInt 64 size)

/-- `pikaList_set`. `arg_setName` makes a none of no arg. -/
def set (index : Int) (arg : Option Arg) : Option (PikaList × PikaRes) := do
  let size ← getSize signedChar self
  if size < index then return (self, .errOutOfRange)
  let named := (arg.getD (Arg.create 0 .none [])).setNameHash (indexHash signedChar index)
  return (Args.setArg self named, .ok)

/-- `pikaList_append`. -/
def append : Option Arg → Option (PikaList × PikaRes)
  | none => some (self, .errArgNoFound)
  | some arg => do
    let size ← getSize signedChar self
    let self := Args.setArg self (arg.setNameHash (indexHash signedChar size))
    return (← setTop signedChar self (size + 1), .ok)

/-- `arg_setName` of what `pikaList_get` finds, if anything. -/
def rename (index index' : Int) : PikaList :=
  (KeyedList.update Arg.nameHash (indexHash signedChar index)
    (·.setNameHash (indexHash signedChar index')) self).getD self

/-- The first of some indices whose entry is equal to an arg. -/
def findEqual (arg : Option Arg) : List Nat → Option (Option Nat)
  | [] => some none
  | i :: is => do
    if ← Arg.isEqual (get signedChar self i) arg then return some i
    findEqual arg is

/-- Each of `n` entries from `first` on takes the name in front of its own. -/
def moveDown (first n : Nat) : PikaList :=
  (List.range n).foldl
    (fun self (k : Nat) => rename signedChar self (first + k) (first + k - 1)) self

/-- `pikaList_remove`. -/
def remove (arg : Option Arg) : Option (PikaList × PikaRes) := do
  let size ← getSize signedChar self
  if size ≤ 0 then return (self, .errOutOfRange)
  let found ← findEqual signedChar self arg (List.range size.toNat)
  let self := match found with
    | none => self
    | some i => KeyedList.remove Arg.nameHash (indexHash signedChar i) self
  -- `i_remove` is 0 when nothing is found
  let first := found.getD 0 + 1
  let self := moveDown signedChar self first (size.toNat - first)
  return (← setTop signedChar self (size - 1), .ok)

/-- `pikaList_pop_withIndex`. -/
def popWithIndex (index : Int) : Option (PikaList × Option Arg) := do
  let size ← getSize signedChar self
  if size ≤ 0 then return (self, none)
  let arg := get signedChar self (if index < 0 then size + index else index)
  return ((← remove signedChar self arg).1, arg.map Arg.copy)

/-- `pikaList_pop`. -/
def pop : Option (PikaList × Option Arg) := do
  let size ← getSize signedChar self
  if size ≤ 0 then return (self, none)
  popWithIndex signedChar self (size - 1)

/-- The `n` entries below `size`, from the last one on, take the name behind their own. -/
def moveUp (size : Int) (n : Nat) : PikaList :=
  (List.range n).foldl
    (fun self (k : Nat) => rename signedChar self (size - 1 - k) (size - k)) self

/-- `pikaList_insert`. -/
def insert (index : Int) (arg : Arg) : Option (PikaList × PikaRes) := do
  let size ← getSize signedChar self
  if size < index then return (self, .errOutOfRange)
  let self := moveUp signedChar self size (size - index).toNat
  let self := Args.setArg self (arg.copy.setNameHash (indexHash signedChar index))
  return (← setTop signedChar self (size + 1), .ok)

/-- One round of `pikaList_reverse`. -/
def swap (size : Int) (i : Nat) : Option PikaList := do
  let arg := (get signedChar self i).map Arg.copy
  let argTop := (get signedChar self (size - i - 1)).map Arg.copy
  let (self, _) ← set signedChar self i argTop
  let (self, _) ← set signedChar self (size - i - 1) arg
  return self

/-- `pikaList_reverse`. -/
def reverse : Option PikaList := do
  let size ← getSize signedChar self
  (List.range (size.toNat / 2)).foldlM (fun self i => swap signedChar self size i) self

end PikaList

/-! ### A list and its calls -/

inductive ListCall where
  | append (arg : Option Arg)
  | insert (index : Int) (arg : Arg)
  | set (index : Int) (arg : Option Arg)
  | pop
  | popWithIndex (index : Int)
  | remove (arg : Arg)
  | reverse

/-- What a call returns: a result code, or the arg that was popped. -/
inductive ListAnswer where
  | res (res : PikaRes)
  | popped (arg : Option Arg)
deriving DecidableEq

/-- The call in the code. -/
def ListCall.run (signedChar : Bool) : ListCall → PikaList → Option (PikaList × ListAnswer)
  | .append arg, self => (self.append signedChar arg).map fun r => (r.1, .res r.2)
  | .insert index arg, self => (self.insert signedChar index arg).map fun r => (r.1, .res r.2)
  | .set index arg, self => (self.set signedChar index arg).map fun r => (r.1, .res r.2)
  | .pop, self => (self.pop signedChar).map fun r => (r.1, .popped r.2)
  | .popWithIndex index, self =>
    (self.popWithIndex signedChar index).map fun r => (r.1, .popped r.2)
  | .remove arg, self => (self.remove signedChar (some arg)).map fun r => (r.1, .res r.2)
  | .reverse, self => (self.reverse signedChar).map (·, .res .ok)

/-! ### The list of Python -/

/-- The place an index stands for, from the end if it is negative. -/
def place (size : Nat) (index : Int) : Option Nat :=
  if 0 ≤ index then if index < size then some index.toNat else none
  else if 0 ≤ size + index then some (size + index).toNat else none

/-- What the call does to a list of Python, and the value it returns if it pops
one. None when it fails. An insertion behind the end is a failure here. -/
def ListCall.python : ListCall → List Val → Option (List Val × Option Val)
  | .append none, _ => none
  | .append (some arg), vals => some (vals ++ [.ofArg arg], none)
  | .insert index arg, vals =>
    if vals.length < index then none
    else some (vals.insertIdx (if index < 0 then vals.length + index else index).toNat
      (.ofArg arg), none)
  | .set index arg, vals =>
    (place vals.length index).map fun i => (vals.set i (.ofArg arg), none)
  | .pop, vals => vals.getLast?.map fun v => (vals.dropLast, some v)
  | .popWithIndex index, vals =>
    (place vals.length index).bind fun i => vals[i]?.map fun v => (vals.eraseIdx i, some v)
  | .remove arg, vals =>
    (vals.findIdx? (·.same (.ofArg arg))).map fun i => (vals.eraseIdx i, none)
  | .reverse, vals => some (vals.reverse, none)

/-- The code returned what Python would have: a popped arg of the popped value,
or a failure for a failure. -/
def ListAnswer.agrees : ListAnswer → Option (Option Val) → Bool
  | .res code, some none => code = .ok
  | .res code, none => code ≠ .ok
  | .popped (some arg), some (some v) => arg.Has v
  | .popped none, none => true
  | _, _ => false

/-- A `PikaList` beside a list of Python. A step is refused when the code does not
return what Python would have, or changes the list and reports a failure. -/
def besideMachine (signedChar : Bool) : Machine ListCall (PikaList × List Val) ListAnswer where
  step call s := do
    let (self, answer) ← call.run signedChar s.1
    match call.python s.2 with
    | none => if answer.agrees none ∧ self = s.1 then some (s, answer) else none
    | some (vals, v) => if answer.agrees (some v) then some ((self, vals), answer) else none

namespace PikaList
variable (signedChar : Bool)

/-- The entries that the values have from index `start` on. -/
def slots (start : Nat) : List Val → List (Hash × Val)
  | [] => []
  | v :: vals => (indexHash signedChar start, v) :: slots (start + 1) vals

/-- The entry that counts `size` entries. -/
def topSlot (size : Nat) : Hash × Val :=
  (hashTime33 signedChar top, ⟨.int, bytes64 (BitVec.ofNat 64 size)⟩)

/-- **The list is of the values**: it has one entry for each, named by its index,
and one that counts them, and no other. -/
def Represents (self : PikaList) (vals : List Val) : Prop :=
  KeyedList.Holds Arg.nameHash Arg.Has self
    (topSlot signedChar vals.length :: slots signedChar 0 vals)

/-- A name that a list of `size` entries does not have yet. -/
def NameFree (size : Nat) : Prop :=
  hashTime33 signedChar (decimal size) ≠ hashTime33 signedChar top ∧
    ∀ i < size, hashTime33 signedChar (decimal i) ≠ hashTime33 signedChar (decimal size)

instance (size : Nat) : Decidable (NameFree signedChar size) :=
  inferInstanceAs (Decidable (_ ∧ _))

/-- The entry at `i` is the first one that is equal to an arg. -/
def FirstEqual (self : PikaList) (arg : Option Arg) (i : Nat) : Prop :=
  Arg.isEqual (self.get signedChar i) arg = some true ∧
    ∀ j < i, Arg.isEqual (self.get signedChar j) arg = some false

instance (self : PikaList) (arg : Option Arg) (i : Nat) :
    Decidable (FirstEqual signedChar self arg i) :=
  inferInstanceAs (Decidable (_ ∧ _))

/-- When a list has room for one more entry. -/
def Room (size : Nat) : Prop := NameFree signedChar size ∧ size + 1 < 2 ^ 31

/-- An entry is popped by its index if it is the first one equal to itself. -/
def Pops (index : Int) (s : PikaList × List Val) : Prop :=
  s.2 = [] ∨ ∃ i, place s.2.length index = some i ∧
    FirstEqual signedChar s.1 (s.1.get signedChar i) i

end PikaList

open PikaList in
/-- When a call is right. -/
def ListCall.Proper (signedChar : Bool) : ListCall → PikaList × List Val → Prop
  | .append none, _ => True
  | .append (some _), (_, vals) => Room signedChar vals.length
  | .insert index _, (_, vals) =>
    vals.length < index ∨ 0 ≤ index ∧ Room signedChar vals.length
  | .set index _, (_, vals) => 0 ≤ index ∧ index ≠ vals.length
  | .pop, s => Pops signedChar (s.2.length - 1) s
  | .popWithIndex index, s => Pops signedChar index s
  | .remove arg, (self, vals) => vals = [] ∨ ∃ i < vals.length,
      FirstEqual signedChar self (some arg) i ∧ vals.findIdx? (·.same (.ofArg arg)) = some i
  | .reverse, _ => True

/-! ### Entries as slots -/

namespace PikaList
variable {signedChar : Bool} {self : PikaList} {entries : List (Hash × Val)} {arg : Arg}
  {v w : Val} {vals : List Val} {h : Hash} {size i : Nat}

/-- The entries that the slots are for are all there is. -/
abbrev Holds (self : PikaList) (entries : List (Hash × Val)) : Prop :=
  KeyedList.Holds Arg.nameHash Arg.Has self entries

/-- `args_setArg` changes the value of a name that is there. -/
theorem setArg_of_mem (hself : Holds self ((h, v) :: entries)) (hname : arg.nameHash = h)
    (harg : arg.Has w) : Holds (Args.setArg self arg) ((h, w) :: entries) := by
  subst hname
  obtain ⟨self', hup, hself'⟩ := hself.update (f := (·.copyContent arg))
    (List.nodup_cons.mp hself.nodup).1 fun a _ _ => ⟨rfl, Arg.has_copyContent harg⟩
  rw [Args.setArg, Args.updateArg, hup]
  exact hself'

/-- `args_setArg` adds a name that is not there. -/
theorem setArg_of_not_mem (hself : Holds self entries) (hname : arg.nameHash = h)
    (hnew : h ∉ entries.map Prod.fst) (harg : arg.Has v) :
    Holds (Args.setArg self arg) ((h, v) :: entries) := by
  subst hname
  have hup : Args.updateArg self arg = none :=
    KeyedList.update_eq_none.mpr fun hmem => hnew (hself.keys.mem_iff.mp hmem)
  rw [Args.setArg, hup, Option.getD_none, Args.pushArg]
  split
  · exact hself.cons hnew harg
  · exact hself.cons (a := arg.copy) hnew (Arg.has_copy harg)

/-- `arg_setName` moves a value to a name that is not there. -/
theorem rename_holds {index index' : Int}
    (hself : Holds self ((indexHash signedChar index, v) :: entries))
    (hnew : indexHash signedChar index' ∉ entries.map Prod.fst) :
    Holds (rename signedChar self index index')
      ((indexHash signedChar index', v) :: entries) := by
  obtain ⟨self', hup, hself'⟩ := hself.update (f := (·.setNameHash (indexHash signedChar index')))
    hnew fun a _ hv => ⟨rfl, Arg.has_setNameHash (indexHash signedChar index') hv⟩
  rw [rename, hup]
  exact hself'

/-- The size is read off the entry that counts. -/
theorem getSize_of_getArg {a : Arg} (hget : Args.getArg signedChar self top = some a)
    (ha : a.Has (topSlot signedChar size).2) (hsize : size < 2 ^ 31) :
    getSize signedChar self = some (size : Int) := by
  obtain ⟨htype, hcontent⟩ := ha
  have hint : a.getInt = BitVec.ofNat 64 size := Arg.getInt_of_prefix hcontent
  have hlong : (BitVec.ofNat 64 size).toInt = size := by
    rw [BitVec.toInt_eq_toNat_of_lt] <;> rw [BitVec.toNat_ofNat] <;> omega
  have hshort : ((BitVec.ofNat 64 size).setWidth 32).toInt = size := by
    rw [BitVec.setWidth_ofNat_of_le (by omega), BitVec.toInt_eq_toNat_of_lt] <;>
      rw [BitVec.toNat_ofNat] <;> omega
  rw [getSize, hget, Option.bind_some, if_pos ⟨htype, by rw [hint, hlong]; omega⟩, hint, hshort]

/-- Setting the size is an update in place of the entry that counts. -/
theorem exists_setTop {a : Arg} (hget : Args.getArg signedChar self top = some a)
    (ha : a.Has (topSlot signedChar size).2) (size' : Nat) :
    ∃ f : Arg → Arg, (∀ b, (f b).nameHash = hashTime33 signedChar top ∧
        (f b).Has (topSlot signedChar size').2) ∧
      setTop signedChar self size' =
        KeyedList.update Arg.nameHash (hashTime33 signedChar top) f self := by
  obtain ⟨htype, hcontent⟩ := ha
  have hint : a.type = .int := htype
  have hname : a.nameHash = hashTime33 signedChar top := KeyedList.key_of_lookup hget
  have hroom : 8 ≤ a.content.length := by simpa [topSlot] using hcontent.length_le
  refine ⟨fun _ => { a with content := bytes64 (BitVec.ofNat 64 size') ++ a.content.drop 8 },
    fun _ => ⟨hname, htype, List.prefix_append ..⟩, ?_⟩
  rw [setTop, Args.setInt, hget]
  dsimp only
  rw [if_neg (not_not_intro hint), Args.overwrite, Arg.write, if_pos (by simpa using hroom),
    Option.bind_some, hname, BitVec.ofInt_natCast, length_bytes64]
  rfl

theorem getSize_holds (hself : Holds self (topSlot signedChar size :: entries))
    (hsize : size < 2 ^ 31) : getSize signedChar self = some (size : Int) := by
  obtain ⟨a, ha, hhas⟩ := hself.lookup
  exact getSize_of_getArg ha hhas hsize

theorem setTop_holds (hself : Holds self (topSlot signedChar size :: entries)) (size' : Nat) :
    ∃ self', setTop signedChar self size' = some self' ∧
      Holds self' (topSlot signedChar size' :: entries) := by
  obtain ⟨a, ha, hhas⟩ := hself.lookup
  obtain ⟨f, hf, htop⟩ := exists_setTop ha hhas size'
  rw [htop]
  exact hself.update (List.nodup_cons.mp hself.nodup).1 fun b _ _ => hf b

/-! ### Names -/

variable {a b : List Val} {start : Nat}

theorem indexHash_natCast (hi : i < 2 ^ 32) :
    indexHash signedChar i = hashTime33 signedChar (decimal i) := by
  have hitoa : ((i : Int) % 2 ^ 32).toNat = i := by omega
  rw [indexHash, itoa, hitoa]

theorem slots_append (a b : List Val) (start : Nat) :
    slots signedChar start (a ++ b) =
      slots signedChar start a ++ slots signedChar (start + a.length) b := by
  induction a generalizing start with
  | nil => rfl
  | cons v a ih =>
    rw [List.cons_append, slots, ih, slots, List.cons_append, List.length_cons, Nat.add_right_comm,
      Nat.add_assoc]

theorem keys_slots (start : Nat) (vals : List Val) :
    (slots signedChar start vals).map Prod.fst =
      (List.range' start vals.length).map fun i : Nat => indexHash signedChar i := by
  induction vals generalizing start with
  | nil => rfl
  | cons v vals ih =>
    rw [slots, List.map_cons, ih, List.length_cons, List.range'_succ, List.map_cons]

theorem mem_slots : h ∈ (slots signedChar start vals).map Prod.fst ↔
    ∃ i : Nat, start ≤ i ∧ i < start + vals.length ∧ indexHash signedChar i = h := by
  simp [keys_slots, and_assoc]

/-- The names of `size` entries are apart from each other and from `"top"`. -/
structure Names (signedChar : Bool) (size : Nat) : Prop where
  top : ∀ i < size, indexHash signedChar i ≠ hashTime33 signedChar top
  index : ∀ i < size, ∀ j < size, indexHash signedChar i = indexHash signedChar j → i = j

theorem names_of_holds (hself : Holds self (topSlot signedChar size :: slots signedChar 0 vals)) :
    Names signedChar vals.length := by
  obtain ⟨htop, hnodup⟩ := List.nodup_cons.mp hself.nodup
  refine ⟨fun i hi heq => htop ?_, fun i hi j hj heq => ?_⟩
  · exact mem_slots.mpr ⟨i, by omega, by omega, heq⟩
  · rw [keys_slots] at hnodup
    exact List.inj_on_of_nodup_map hnodup (by simpa using hi) (by simpa using hj) heq

/-- A name is not that of a slot elsewhere. -/
theorem Names.not_mem_slots (hnames : Names signedChar size) (hi : i < size)
    (hsize : start + vals.length ≤ size) (hout : i < start ∨ start + vals.length ≤ i) :
    indexHash signedChar i ∉ (slots signedChar start vals).map Prod.fst := by
  intro hmem
  obtain ⟨j, hle, hlt, hj⟩ := mem_slots.mp hmem
  have := hnames.index j (by omega) i hi hj
  omega

theorem Names.succ (hnames : Names signedChar size) (hfree : NameFree signedChar size)
    (hsize : size < 2 ^ 32) : Names signedChar (size + 1) := by
  have hname : indexHash signedChar size = hashTime33 signedChar (decimal size) :=
    indexHash_natCast hsize
  have hother : ∀ i < size, indexHash signedChar i ≠ indexHash signedChar size := fun i hi => by
    rw [hname, indexHash_natCast (by omega)]
    exact hfree.2 i hi
  refine ⟨fun i hi => ?_, fun i hi j hj heq => ?_⟩
  · rcases Nat.lt_succ_iff_lt_or_eq.mp hi with hi | rfl
    · exact hnames.top i hi
    · exact hname ▸ hfree.1
  · rcases Nat.lt_succ_iff_lt_or_eq.mp hi with hi | rfl <;>
      rcases Nat.lt_succ_iff_lt_or_eq.mp hj with hj | rfl
    · exact hnames.index i hi j hj heq
    · exact absurd heq (hother i hi)
    · exact absurd heq.symm (hother j hj)
    · rfl

/-! ### The loops -/

theorem moveDown_succ (self : PikaList) (start n : Nat) :
    moveDown signedChar self (start + 1) (n + 1) =
      moveDown signedChar (rename signedChar self (start + 1 : Nat) start) (start + 2) n := by
  rw [moveDown, List.range_succ_eq_map, List.foldl_cons, List.foldl_map, moveDown]
  congr 2
  · funext self k
    congr 1 <;> push_cast <;> ring
  · push_cast
    ring

/-- The entries behind a gap close it, if their names are not in use elsewhere. -/
theorem moveDown_holds (hnames : Names signedChar size) (hsize : start + vals.length < size)
    (hself : Holds self (entries ++ slots signedChar (start + 1) vals))
    (hother : ∀ i : Nat, start ≤ i → i ≤ start + vals.length →
      indexHash signedChar i ∉ entries.map Prod.fst) :
    Holds (moveDown signedChar self (start + 1) vals.length)
      (entries ++ slots signedChar start vals) := by
  induction vals generalizing self entries start with
  | nil => exact hself
  | cons v vals ih =>
    rw [List.length_cons] at hsize hother ⊢
    rw [moveDown_succ]
    have hfront : Holds self ((indexHash signedChar (start + 1 : Nat), v) ::
        (entries ++ slots signedChar (start + 2) vals)) := hself.perm List.perm_middle
    have hnew : indexHash signedChar start ∉
        (entries ++ slots signedChar (start + 2) vals).map Prod.fst := by
      rw [List.map_append, List.mem_append, not_or]
      exact ⟨hother start (by omega) (by omega),
        hnames.not_mem_slots (by omega) (by omega) (.inl (by omega))⟩
    have hnext : Holds (rename signedChar self (start + 1 : Nat) start)
        (((indexHash signedChar start, v) :: entries) ++ slots signedChar (start + 1 + 1) vals) :=
      rename_holds hfront hnew
    have hmoved := ih (by omega) hnext fun i hle hlt => by
        rw [List.map_cons, List.mem_cons, not_or]
        refine ⟨fun heq => ?_, hother i (by omega) (by omega)⟩
        have := hnames.index i (by omega) start (by omega) heq
        omega
    exact hmoved.perm List.perm_middle.symm

theorem moveUp_succ (self : PikaList) (size : Int) (n : Nat) :
    moveUp signedChar self size (n + 1) =
      moveUp signedChar (rename signedChar self (size - 1) size) (size - 1) n := by
  rw [moveUp, List.range_succ_eq_map, List.foldl_cons, List.foldl_map, moveUp]
  congr 2
  · funext self k
    congr 1 <;> push_cast <;> ring
  · simp
  · simp

/-- The last entries make a gap in front of them, if their names are not in use elsewhere. -/
theorem moveUp_holds (hnames : Names signedChar size) (hsize : start + vals.length < size)
    (hself : Holds self (entries ++ slots signedChar start vals))
    (hother : ∀ i : Nat, start ≤ i → i ≤ start + vals.length →
      indexHash signedChar i ∉ entries.map Prod.fst) :
    Holds (moveUp signedChar self (start + vals.length) vals.length)
      (entries ++ slots signedChar (start + 1) vals) := by
  induction vals using List.reverseRecOn generalizing self entries with
  | nil => exact hself
  | append_singleton vals v ih =>
    rw [List.length_append, List.length_singleton] at hsize hother ⊢
    have hlast : ((start : Int) + (vals.length + 1 : Nat)) = (start + vals.length + 1 : Nat) := by
      omega
    have hprev : ((start + vals.length + 1 : Nat) : Int) - 1 = (start + vals.length : Nat) := by
      omega
    rw [hlast, moveUp_succ, hprev, Nat.cast_add]
    rw [slots_append, ← List.append_assoc] at hself
    have hfront : Holds self ((indexHash signedChar (start + vals.length : Nat), v) ::
        (entries ++ slots signedChar start vals)) := by
      refine hself.perm ?_
      exact List.perm_append_singleton _ _
    have hnew : indexHash signedChar (start + vals.length + 1 : Nat) ∉
        (entries ++ slots signedChar start vals).map Prod.fst := by
      rw [List.map_append, List.mem_append, not_or]
      exact ⟨hother _ (by omega) (by omega),
        hnames.not_mem_slots (by omega) (by omega) (.inr (by omega))⟩
    have hnext : Holds (rename signedChar self (start + vals.length : Nat)
          (start + vals.length + 1 : Nat))
        (((indexHash signedChar (start + vals.length + 1 : Nat), v) :: entries) ++
          slots signedChar start vals) := rename_holds hfront hnew
    have hmoved := ih (by omega) hnext fun i hle hlt => by
        rw [List.map_cons, List.mem_cons, not_or]
        refine ⟨fun heq => ?_, hother i (by omega) (by omega)⟩
        have := hnames.index i (by omega) _ (by omega) heq
        omega
    refine hmoved.perm ?_
    rw [slots_append, ← List.append_assoc, Nat.add_right_comm]
    exact (List.perm_append_singleton _ _).symm

/-! ### The calls -/

theorem split_at (hi : i < vals.length) : ∃ a v b, vals = a ++ v :: b ∧ a.length = i :=
  ⟨vals.take i, vals[i], vals.drop (i + 1), by simp, by simp; omega⟩

theorem Represents.names (hself : Represents signedChar self vals) :
    Names signedChar vals.length := names_of_holds hself

theorem Represents.getSize (hself : Represents signedChar self vals)
    (hsize : vals.length < 2 ^ 31) : getSize signedChar self = some (vals.length : Int) :=
  getSize_holds hself hsize

/-- One entry in front of the others. -/
theorem perm_focus (entry : Hash × Val) (a b : List Val) (v : Val) :
    (entry :: slots signedChar 0 (a ++ v :: b)).Perm ((indexHash signedChar a.length, v) ::
      entry :: (slots signedChar 0 a ++ slots signedChar (a.length + 1) b)) := by
  rw [slots_append, Nat.zero_add]
  exact (List.perm_middle.cons _).trans (List.Perm.swap ..)

theorem Represents.get (hself : Represents signedChar self vals) (hi : i < vals.length) :
    ∃ arg, get signedChar self i = some arg ∧ arg.Has vals[i] := by
  obtain ⟨a, v, b, rfl, rfl⟩ := split_at hi
  obtain ⟨arg, hget, harg⟩ := (hself.perm (perm_focus _ a b v)).lookup
  exact ⟨arg, hget, by simpa using harg⟩

/-- A value is changed in its place. -/
theorem Represents.setArg (hself : Represents signedChar self vals) (hi : i < vals.length)
    (hname : arg.nameHash = indexHash signedChar i) (harg : arg.Has v) :
    Represents signedChar (Args.setArg self arg) (vals.set i v) := by
  obtain ⟨a, w, b, rfl, rfl⟩ := split_at hi
  have hset := setArg_of_mem (hself.perm (perm_focus _ a b w)) hname harg
  rw [List.set_append_right _ _ (Nat.le_refl _), Nat.sub_self, List.set_cons_zero, Represents,
    List.length_append, List.length_cons]
  rw [List.length_append, List.length_cons] at hset
  exact hset.perm (perm_focus _ a b v).symm

theorem findEqual_of_firstEqual {arg : Option Arg} (hfirst : FirstEqual signedChar self arg i)
    {is is' : List Nat} (his : ∀ j ∈ is, j < i) :
    findEqual signedChar self arg (is ++ i :: is') = some (some i) := by
  induction is with
  | nil =>
    rw [List.nil_append, findEqual, hfirst.1]
    rfl
  | cons j is ih =>
    obtain ⟨hj, his⟩ := List.forall_mem_cons.mp his
    rw [List.cons_append, findEqual, hfirst.2 j hj]
    exact ih his

/-- **A removal takes one value out**, if the entry is found. -/
theorem Represents.remove (hself : Represents signedChar self vals)
    (hsize : vals.length < 2 ^ 31) {arg : Option Arg} (hi : i < vals.length)
    (hfirst : FirstEqual signedChar self arg i) :
    ∃ self', remove signedChar self arg = some (self', .ok) ∧
      Represents signedChar self' (vals.eraseIdx i) := by
  obtain ⟨a, v, b, rfl, rfl⟩ := split_at hi
  have hfound : findEqual signedChar self arg (List.range (a ++ v :: b).length) =
      some (some a.length) := by
    rw [List.length_append, List.range_add, List.length_cons, List.range_succ_eq_map]
    exact findEqual_of_firstEqual hfirst fun j hj => List.mem_range.mp hj
  have hnames := hself.names
  have hgetSize := hself.getSize hsize
  have hgap := (hself.perm (perm_focus _ a b v)).remove
  rw [List.length_append, List.length_cons] at hsize hfound hnames hgetSize hgap
  have hmoved := moveDown_holds hnames (by omega)
    (show Holds _ ((topSlot signedChar _ :: slots signedChar 0 a) ++ _) from hgap)
    fun i hle hlt => by
      rw [List.map_cons, List.mem_cons, not_or]
      exact ⟨hnames.top i (by omega), hnames.not_mem_slots (by omega) (by omega) (.inr (by omega))⟩
  obtain ⟨self', htop, hself'⟩ := setTop_holds hmoved (a.length + b.length)
  have hdec : ((a.length + (b.length + 1) : Nat) : Int) - 1 = (a.length + b.length : Nat) := by
    omega
  refine ⟨self', ?_, ?_⟩
  · have hrest : a.length + (b.length + 1) - (a.length + 1) = b.length := by omega
    rw [PikaList.remove, hgetSize]
    simp only [Option.bind_eq_bind, Option.bind_some]
    rw [if_neg (by omega), Int.toNat_natCast, hfound]
    simp only [Option.bind_some, Option.getD_some]
    rw [hrest, hdec, htop]
    rfl
  · rw [List.eraseIdx_append_of_length_le (Nat.le_refl _), Nat.sub_self, List.eraseIdx_cons_zero,
      Represents, List.length_append, slots_append, Nat.zero_add]
    exact hself'

/-- A new entry takes the name that a gap has left. -/
theorem fill_gap (hnames : Names signedChar (a ++ b).length.succ) {entry : Hash × Val}
    (hentry : entry.1 = hashTime33 signedChar top)
    (hself : Holds self
      (entry :: (slots signedChar 0 a ++ slots signedChar (a.length + 1) b)))
    (hname : arg.nameHash = indexHash signedChar a.length) (harg : arg.Has v) :
    Holds (Args.setArg self arg) (entry :: slots signedChar 0 (a ++ v :: b)) := by
  rw [Nat.succ_eq_add_one, List.length_append] at hnames
  refine (setArg_of_not_mem hself hname ?_ harg).perm (perm_focus entry a b v).symm
  rw [List.map_cons, List.mem_cons, List.map_append, List.mem_append, not_or, not_or, hentry]
  exact ⟨hnames.top _ (by omega), hnames.not_mem_slots (by omega) (by omega) (.inr (by omega)),
    hnames.not_mem_slots (by omega) (by omega) (.inl (by omega))⟩

theorem insertIdx_length (a b : List Val) (v : Val) :
    (a ++ b).insertIdx a.length v = a ++ v :: b := by
  induction a with
  | nil => rfl
  | cons x a ih => rw [List.cons_append, List.length_cons, List.insertIdx_succ_cons, ih,
      List.cons_append]

/-- **An insertion puts one value in.** -/
theorem Represents.insert (hself : Represents signedChar self vals)
    (hroom : Room signedChar vals.length) (hi : i ≤ vals.length) (harg : arg.Has v) :
    ∃ self', insert signedChar self i arg = some (self', .ok) ∧
      Represents signedChar self' (vals.insertIdx i v) := by
  obtain ⟨a, b, rfl, rfl⟩ : ∃ a b, vals = a ++ b ∧ a.length = i :=
    ⟨vals.take i, vals.drop i, by simp, by simp; omega⟩
  have hnames : Names signedChar ((a ++ b).length + 1) :=
    hself.names.succ hroom.1 (by have := hroom.2; omega)
  have hgetSize := hself.getSize (by have := hroom.2; omega)
  rw [Represents, slots_append, Nat.zero_add, ← List.cons_append] at hself
  have hnames' := hnames
  rw [List.length_append] at hnames'
  have hgap := moveUp_holds hnames' (by omega) hself fun j hle hlt => by
    rw [List.map_cons, List.mem_cons, not_or]
    exact ⟨hnames'.top j (by omega), hnames'.not_mem_slots (by omega) (by omega) (.inr (by omega))⟩
  have hcopy : (arg.copy.setNameHash (indexHash signedChar a.length)).Has v :=
    Arg.has_setNameHash _ (Arg.has_copy harg)
  obtain ⟨self', htop, hself'⟩ := setTop_holds (fill_gap hnames rfl hgap rfl hcopy)
    ((a ++ b).length + 1)
  refine ⟨self', ?_, ?_⟩
  · have hsize : ((a ++ b).length : Int) = a.length + b.length := by simp
    have hcount : ((a ++ b).length - a.length : Int).toNat = b.length := by omega
    rw [PikaList.insert, hgetSize]
    simp only [Option.bind_eq_bind, Option.bind_some]
    rw [if_neg (by omega), hcount]
    rw [← hsize, Nat.cast_succ] at htop
    rw [htop]
    rfl
  · have hlength : (a ++ v :: b).length = (a ++ b).length + 1 := by simp [Nat.add_assoc]
    rw [insertIdx_length, Represents, hlength]
    exact hself'

/-- **What is appended is the last value.** -/
theorem Represents.append (hself : Represents signedChar self vals)
    (hroom : Room signedChar vals.length) (arg : Arg) :
    ∃ self', append signedChar self (some arg) = some (self', .ok) ∧
      Represents signedChar self' (vals ++ [.ofArg (some arg)]) := by
  have hgetSize := hself.getSize (by have := hroom.2; omega)
  have hnames := hself.names.succ hroom.1 (by have := hroom.2; omega)
  have hnamed : (arg.setNameHash (indexHash signedChar vals.length)).Has (.ofArg (some arg)) :=
    Arg.has_setNameHash _ arg.has_ofArg
  have hfilled := fill_gap (a := vals) (b := []) (by rw [List.append_nil]; exact hnames) rfl
    (by rw [slots, List.append_nil]; exact hself) rfl hnamed
  obtain ⟨self', htop, hself'⟩ := setTop_holds hfilled (vals.length + 1)
  refine ⟨self', ?_, ?_⟩
  · rw [PikaList.append, hgetSize]
    simp only [Option.bind_eq_bind, Option.bind_some]
    rw [← Nat.cast_succ, htop]
    rfl
  · rw [Represents, List.length_append, List.length_singleton]
    exact hself'

theorem Represents.set (hself : Represents signedChar self vals) (hsize : vals.length < 2 ^ 31)
    (hi : i < vals.length) (arg : Option Arg) (harg : ∀ a, arg = some a → a.Has v)
    (hnone : arg = none → v = ⟨.none, []⟩) :
    ∃ self', set signedChar self i arg = some (self', .ok) ∧
      Represents signedChar self' (vals.set i v) := by
  refine ⟨Args.setArg self ((arg.getD (Arg.create 0 .none [])).setNameHash
    (indexHash signedChar i)), ?_, hself.setArg hi rfl (Arg.has_setNameHash _ ?_)⟩
  · rw [PikaList.set, hself.getSize hsize]
    simp only [Option.bind_eq_bind, Option.bind_some]
    rw [if_neg (by omega)]
    rfl
  · cases arg with
    | none =>
      rw [hnone rfl]
      exact Arg.has_ofArg (Arg.create 0 .none [])
    | some a => exact harg a rfl

/-- A popped value is the one at the place. -/
theorem Represents.popWithIndex (hself : Represents signedChar self vals)
    (hsize : vals.length < 2 ^ 31) {index : Int} (hplace : place vals.length index = some i)
    (hfirst : FirstEqual signedChar self (PikaList.get signedChar self i) i) :
    ∃ self' arg v, popWithIndex signedChar self index = some (self', some arg) ∧ arg.Has v ∧
      vals[i]? = some v ∧ Represents signedChar self' (vals.eraseIdx i) := by
  have hi : i < vals.length ∧ (if index < 0 then (vals.length : Int) + index else index) = i := by
    unfold place at hplace
    split at hplace
    · split at hplace <;> cases hplace
      rw [if_neg (by omega)]
      omega
    · split at hplace <;> cases hplace
      rw [if_pos (by omega)]
      omega
  obtain ⟨self', hremove, hself'⟩ := hself.remove hsize hi.1 hfirst
  obtain ⟨arg, hget, harg⟩ := hself.get hi.1
  refine ⟨self', arg.copy, vals[i], ?_, Arg.has_copy harg, List.getElem?_eq_getElem hi.1, hself'⟩
  rw [PikaList.popWithIndex, hself.getSize hsize]
  simp only [Option.bind_eq_bind, Option.bind_some]
  rw [if_neg (by omega), hi.2, hremove, hget]
  rfl

/-- The values after the first `k` swaps of a reversal. -/
structure Reversed (vals vals' : List Val) (k : Nat) : Prop where
  length : vals'.length = vals.length
  outer : ∀ j < vals.length, j < k ∨ vals.length - k ≤ j → vals'[j]? = vals[vals.length - 1 - j]?
  inner : ∀ j, k ≤ j → j < vals.length - k → vals'[j]? = vals[j]?

theorem Represents.swap (hself : Represents signedChar self vals) (hsize : vals.length < 2 ^ 31)
    {k : Nat} (hk : k < vals.length / 2) :
    ∃ self', swap signedChar self vals.length k = some self' ∧
      Represents signedChar self'
        ((vals.set k vals[vals.length - 1 - k]).set (vals.length - 1 - k) vals[k]) := by
  obtain ⟨arg, hget, harg⟩ := hself.get (i := k) (by omega)
  obtain ⟨argTop, hgetTop, hargTop⟩ := hself.get (i := vals.length - 1 - k) (by omega)
  have hindex : (vals.length : Int) - k - 1 = (vals.length - 1 - k : Nat) := by omega
  obtain ⟨self₁, hset₁, hself₁⟩ := hself.set hsize (i := k) (by omega)
    (some argTop.copy) (v := vals[vals.length - 1 - k])
    (fun a ha => by cases ha; exact Arg.has_copy hargTop) (fun h => nomatch h)
  obtain ⟨self₂, hset₂, hself₂⟩ := hself₁.set (by rw [List.length_set]; exact hsize)
    (i := vals.length - 1 - k) (by rw [List.length_set]; omega)
    (some arg.copy) (v := vals[k])
    (fun a ha => by cases ha; exact Arg.has_copy harg) (fun h => nomatch h)
  refine ⟨self₂, ?_, hself₂⟩
  rw [PikaList.swap, hindex, hget, hgetTop, Option.map_some, Option.map_some, hset₁]
  simp only [Option.bind_eq_bind, Option.bind_some]
  rw [hset₂]
  rfl

theorem Reversed.succ {vals vals' : List Val} {k : Nat} (h : Reversed vals vals' k)
    (hk : k < vals'.length / 2) :
    Reversed vals ((vals'.set k vals'[vals'.length - 1 - k]).set (vals'.length - 1 - k) vals'[k])
      (k + 1) := by
  have hlength := h.length
  refine ⟨by simp [h.length], fun j hj hout => ?_, fun j hle hlt => ?_⟩
  · rcases eq_or_ne j (vals'.length - 1 - k) with rfl | hlast
    · rw [List.getElem?_set_self (by rw [List.length_set]; omega), ← List.getElem?_eq_getElem,
        h.inner k (Nat.le_refl k) (by omega)]
      congr 1
      omega
    rw [List.getElem?_set_ne hlast.symm]
    rcases eq_or_ne j k with rfl | hfirst
    · rw [List.getElem?_set_self (by omega), ← List.getElem?_eq_getElem,
        h.inner _ (by omega) (by omega), hlength]
    · rw [List.getElem?_set_ne hfirst.symm]
      exact h.outer j hj (by omega)
  · rw [List.getElem?_set_ne (by omega), List.getElem?_set_ne (by omega)]
    exact h.inner j (by omega) (by omega)

/-- **A reversal reverses the values.** -/
theorem Represents.reverse (hself : Represents signedChar self vals)
    (hsize : vals.length < 2 ^ 31) :
    ∃ self', reverse signedChar self = some self' ∧ Represents signedChar self' vals.reverse := by
  have hloop (k : Nat) (hk : k ≤ vals.length / 2) : ∃ self' vals',
      (List.range k).foldlM (fun self (i : Nat) => PikaList.swap signedChar self vals.length i)
        self = some self' ∧
      Represents signedChar self' vals' ∧ Reversed vals vals' k := by
    induction k with
    | zero => exact ⟨self, vals, rfl, hself, rfl, fun j hj hout => by omega, fun _ _ _ => rfl⟩
    | succ k ih =>
      obtain ⟨self₁, vals₁, hrun, hself₁, hvals₁⟩ := ih (by omega)
      have hlength := hvals₁.length
      obtain ⟨self₂, hswap, hself₂⟩ := hself₁.swap (by omega) (k := k) (by omega)
      refine ⟨self₂, _, ?_, hself₂, hvals₁.succ (by omega)⟩
      rw [List.range_succ, List.foldlM_append, hrun]
      rw [hlength] at hswap
      simp [hswap]
  obtain ⟨self', vals', hrun, hself', hvals'⟩ := hloop _ (Nat.le_refl _)
  have hreverse : vals' = vals.reverse := by
    refine List.ext_getElem? fun j => ?_
    rcases Nat.lt_or_ge j vals.length with hj | hj
    · rw [List.getElem?_reverse hj]
      by_cases hout : j < vals.length / 2 ∨ vals.length - vals.length / 2 ≤ j
      · exact hvals'.outer j hj hout
      · rw [hvals'.inner j (by omega) (by omega)]
        congr 1
        omega
    · rw [List.getElem?_eq_none (hvals'.length ▸ hj), List.getElem?_eq_none (by simpa using hj)]
  refine ⟨self', ?_, hreverse ▸ hself'⟩
  rw [PikaList.reverse, hself.getSize hsize]
  exact hrun

theorem represents_init : Represents signedChar (init signedChar) [] := by
  have hempty : Holds [] [] := ⟨List.nodup_nil, List.Perm.refl _, fun _ hslot => nomatch hslot⟩
  have hinit : Holds [(Arg.newInt 0).setNameHash (hashTime33 signedChar top)]
      [topSlot signedChar 0] :=
    hempty.cons (v := ⟨.int, bytes64 (BitVec.ofNat 64 0)⟩) List.not_mem_nil
      ⟨rfl, List.prefix_refl (bytes64 0)⟩
  have hserialized : ((Arg.newInt 0).setNameHash (hashTime33 signedChar top)).isSerialized = true :=
    Arg.isSerialized_create ..
  rw [init, Args.pushArgName, Args.pushArg, if_pos hserialized]
  exact hinit

/-- What the code and Python both do is a step. -/
theorem step_of_done {call : ListCall} {self' : PikaList} {vals' : List Val}
    {answer : ListAnswer} {popped : Option Val}
    (hrun : call.run signedChar self = some (self', answer))
    (hpython : call.python vals = some (vals', popped)) (hagrees : answer.agrees (some popped)) :
    (besideMachine signedChar).step call (self, vals) = some ((self', vals'), answer) := by
  simp only [besideMachine, hrun, hpython, Option.bind_eq_bind, Option.bind_some]
  simp [hagrees]

/-- What the code refuses, with the list unchanged, and Python too, is a step. -/
theorem step_of_failed {call : ListCall} (answer : ListAnswer)
    (hrun : call.run signedChar self = some (self, answer)) (hpython : call.python vals = none)
    (hagrees : answer.agrees none) :
    (besideMachine signedChar).step call (self, vals) = some ((self, vals), answer) := by
  simp only [besideMachine, hrun, hpython, Option.bind_eq_bind, Option.bind_some]
  simp [hagrees]

/-- What the list and the values keep. -/
def Invariant (signedChar : Bool) (s : PikaList × List Val) : Prop :=
  Represents signedChar s.1 s.2 ∧ s.2.length < 2 ^ 31

section
variable {self : PikaList} {vals : List Val} {index : Int} {arg : Arg}

theorem step_insert (hs : Invariant signedChar (self, vals))
    (hcall : (ListCall.insert index arg).Proper signedChar (self, vals)) :
    ∃ s' answer, (besideMachine signedChar).step (.insert index arg) (self, vals) =
      some (s', answer) ∧ Invariant signedChar s' := by
  have hself : Represents signedChar self vals := hs.1
  by_cases hindex : (vals.length : Int) < index
  · refine ⟨_, _, step_of_failed (.res .errOutOfRange) ?_ (if_pos hindex) rfl, hs⟩
    rw [ListCall.run, PikaList.insert, hself.getSize hs.2, Option.bind_eq_bind,
      Option.bind_some, if_pos hindex]
    rfl
  · obtain ⟨hle, hroom⟩ := hcall.resolve_left hindex
    obtain ⟨i, rfl⟩ := Int.eq_ofNat_of_zero_le hle
    obtain ⟨self', hrun, hself'⟩ := hself.insert hroom (i := i) (by omega) arg.has_ofArg
    refine ⟨_, _, step_of_done (congrArg (Option.map _) hrun) (if_neg hindex) rfl, ?_, ?_⟩
    · rw [if_neg (by omega), Int.toNat_natCast]
      exact hself'
    · have := hroom.2
      exact Nat.lt_of_le_of_lt List.length_insertIdx_le_succ this

theorem step_set {arg : Option Arg} (hs : Invariant signedChar (self, vals))
    (hcall : (ListCall.set index arg).Proper signedChar (self, vals)) :
    ∃ s' answer, (besideMachine signedChar).step (.set index arg) (self, vals) =
      some (s', answer) ∧ Invariant signedChar s' := by
  have hself : Represents signedChar self vals := hs.1
  have hsize : vals.length < 2 ^ 31 := hs.2
  obtain ⟨hle, hne⟩ := hcall
  obtain ⟨i, rfl⟩ := Int.eq_ofNat_of_zero_le hle
  by_cases hi : i < vals.length
  · obtain ⟨self', hrun, hself'⟩ := hself.set hsize hi arg (v := .ofArg arg)
      (fun a ha => ha ▸ a.has_ofArg) (fun hnone => hnone ▸ rfl)
    have hplace : place vals.length i = some i := by
      rw [place, if_pos (by omega), if_pos (by omega), Int.toNat_natCast]
    refine ⟨_, _, step_of_done (congrArg (Option.map _) hrun) (congrArg (Option.map _) hplace)
      rfl, hself', ?_⟩
    rw [List.length_set]
    exact hsize
  · have hplace : place vals.length i = none := by
      rw [place, if_pos (by omega), if_neg (by omega)]
    refine ⟨_, _, step_of_failed (.res .errOutOfRange) ?_
      (congrArg (Option.map _) hplace) rfl, hs⟩
    rw [ListCall.run, PikaList.set, hself.getSize hsize, Option.bind_eq_bind, Option.bind_some,
      if_pos (by omega)]
    rfl

/-- What is popped under the condition is the value in its place. -/
theorem popWithIndex_of_pops (hs : Invariant signedChar (self, vals))
    (hpops : Pops signedChar index (self, vals)) (hne : vals ≠ []) :
    ∃ i self' arg v, place vals.length index = some i ∧
      popWithIndex signedChar self index = some (self', some arg) ∧
      (ListAnswer.popped (some arg)).agrees (some (some v)) = true ∧
      vals[i]? = some v ∧ Represents signedChar self' (vals.eraseIdx i) := by
  obtain ⟨i, hplace, hfirst⟩ := hpops.resolve_left hne
  obtain ⟨self', arg, v, hpop, harg, hrest⟩ :=
    Represents.popWithIndex (show Represents signedChar self vals from hs.1) hs.2 hplace hfirst
  exact ⟨i, self', arg, v, hplace, hpop, decide_eq_true harg, hrest⟩

theorem step_pop (hs : Invariant signedChar (self, vals))
    (hcall : ListCall.pop.Proper signedChar (self, vals)) :
    ∃ s' answer, (besideMachine signedChar).step .pop (self, vals) =
      some (s', answer) ∧ Invariant signedChar s' := by
  have hgetSize := Represents.getSize (show Represents signedChar self vals from hs.1) hs.2
  have hsize : vals.length < 2 ^ 31 := hs.2
  rcases eq_or_ne vals [] with rfl | hne
  · refine ⟨_, _, step_of_failed (.popped none) ?_ rfl rfl, hs⟩
    rw [ListCall.run, PikaList.pop, hgetSize]
    rfl
  · have hlast : Pops signedChar (vals.length - 1) (self, vals) := hcall
    obtain ⟨i, self', arg, v, hplace, hrun, hagrees, hv, hself'⟩ :=
      popWithIndex_of_pops hs hlast hne
    have hlength := List.length_pos_iff.mpr hne
    obtain rfl : i = vals.length - 1 := by
      rw [place, if_pos (by omega), if_pos (by omega)] at hplace
      cases hplace
      omega
    have hpop : PikaList.pop signedChar self = some (self', some arg) := by
      rw [PikaList.pop, hgetSize, Option.bind_eq_bind, Option.bind_some,
        if_neg (by omega)]
      exact hrun
    rw [List.eraseIdx_length_sub_one] at hself'
    refine ⟨_, _, step_of_done (congrArg (Option.map _) hpop) ?_ hagrees, hself', ?_⟩
    · rw [ListCall.python, List.getLast?_eq_getElem?, hv]
      rfl
    · rw [List.length_dropLast]
      omega

theorem step_popWithIndex (hs : Invariant signedChar (self, vals))
    (hcall : (ListCall.popWithIndex index).Proper signedChar (self, vals)) :
    ∃ s' answer, (besideMachine signedChar).step (.popWithIndex index) (self, vals) =
      some (s', answer) ∧ Invariant signedChar s' := by
  have hgetSize := Represents.getSize (show Represents signedChar self vals from hs.1) hs.2
  rcases eq_or_ne vals [] with rfl | hne
  · refine ⟨_, _, step_of_failed (.popped none) ?_ ?_ rfl, hs⟩
    · rw [ListCall.run, PikaList.popWithIndex, hgetSize]
      rfl
    · rw [ListCall.python]
      cases place _ index <;> rfl
  · obtain ⟨i, self', arg, v, hplace, hrun, hagrees, hv, hself'⟩ :=
      popWithIndex_of_pops hs hcall hne
    refine ⟨_, _, step_of_done (congrArg (Option.map _) hrun) ?_ hagrees, hself',
      Nat.lt_of_le_of_lt (List.length_eraseIdx_le ..) hs.2⟩
    rw [ListCall.python, hplace, Option.bind_some, hv]
    rfl

end

/-- A call that is proper is taken, and keeps the list a copy of the values. -/
theorem step_represents (call : ListCall) (s : PikaList × List Val)
    (hcall : call.Proper signedChar s) (hs : Invariant signedChar s) :
    ∃ s' answer, (besideMachine signedChar).step call s = some (s', answer) ∧
      Invariant signedChar s' := by
  obtain ⟨self, vals⟩ := s
  have hself : Represents signedChar self vals := hs.1
  have hsize : vals.length < 2 ^ 31 := hs.2
  cases call with
  | append arg =>
    cases arg with
    | none => exact ⟨_, _, step_of_failed (.res .errArgNoFound) rfl rfl rfl, hs⟩
    | some arg =>
      obtain ⟨self', hrun, hself'⟩ := hself.append hcall arg
      have hroom : vals.length + 1 < 2 ^ 31 := hcall.2
      refine ⟨_, _, step_of_done (congrArg (Option.map _) hrun) rfl rfl, hself', ?_⟩
      rw [List.length_append]
      exact hroom
  | insert index arg => exact step_insert hs hcall
  | set index arg => exact step_set hs hcall
  | pop => exact step_pop hs hcall
  | popWithIndex index => exact step_popWithIndex hs hcall
  | remove arg =>
    rcases eq_or_ne vals [] with rfl | hne
    · refine ⟨_, _, step_of_failed (.res .errOutOfRange) ?_ rfl rfl, hs⟩
      rw [ListCall.run, PikaList.remove, hself.getSize hsize]
      rfl
    · obtain ⟨i, hi, hfirst, hsame⟩ := hcall.resolve_left hne
      obtain ⟨self', hrun, hself'⟩ := hself.remove hsize hi hfirst
      exact ⟨_, _, step_of_done (congrArg (Option.map _) hrun) (congrArg (Option.map _) hsame) rfl,
        hself', Nat.lt_of_le_of_lt (List.length_eraseIdx_le ..) hsize⟩
  | reverse =>
    obtain ⟨self', hrun, hself'⟩ := hself.reverse hsize
    refine ⟨_, _, step_of_done (congrArg (Option.map _) hrun) rfl rfl, hself', ?_⟩
    rw [List.length_reverse]
    exact hsize

/-- **Proper calls keep the list what Python's would be**: every run of them, from
an empty list, is taken to its end. The code and Python return the same, a failure
leaves the list as it was, and the entries are those of the values. -/
theorem run_represents (signedChar : Bool) (calls : List ListCall)
    (hcalls : (besideMachine signedChar).Meets (ListCall.Proper signedChar)
      (init signedChar, []) calls) :
    ∃ self vals answers,
      (besideMachine signedChar).run (init signedChar, []) calls = some ((self, vals), answers) ∧
      Represents signedChar self vals := by
  obtain ⟨⟨self, vals⟩, answers, hrun, hself, -⟩ :=
    (besideMachine signedChar).run_total_of_meets step_represents
      (P := Invariant signedChar) (s := (init signedChar, [])) ⟨represents_init, Nat.two_pow_pos 31⟩
      hcalls
  exact ⟨self, vals, answers, hrun, hself⟩

/-- Two values, of which the first is removed. -/
theorem run_represents_removed : ∃ self vals answers,
    (besideMachine true).run (init true, [])
      [.append (some (Arg.newInt 7)), .append (some (Arg.newInt 8)), .remove (Arg.newInt 7)] =
        some ((self, vals), answers) ∧
    Represents true self vals :=
  run_represents true _
    (Machine.meets_cons _
      (show (besideMachine true).step _ _ = some (([Arg.create 177621 .int (bytes64 7),
        Arg.create 193507096 .int (bytes64 1)], [⟨.int, bytes64 7⟩]), .res .ok) by decide +kernel)
      (show Room true 0 from ⟨by decide +kernel, by decide⟩)
      (Machine.meets_cons _
        (show (besideMachine true).step _ _ = some (([Arg.create 177622 .int (bytes64 8),
          Arg.create 177621 .int (bytes64 7), Arg.create 193507096 .int (bytes64 2)],
          [⟨.int, bytes64 7⟩, ⟨.int, bytes64 8⟩]), .res .ok) by decide +kernel)
        (show Room true 1 from ⟨by decide +kernel, by decide⟩)
        ⟨.inr ⟨0, by decide +kernel, by decide +kernel, by decide +kernel⟩,
          fun _ _ _ => trivial⟩))

/-- A pop behind the end returns nothing, but the list is shorter after it. -/
theorem not_represents_of_pop :
    ¬∀ (signedChar : Bool) (calls : List ListCall), ∃ self vals answers,
      (besideMachine signedChar).run (init signedChar, []) calls = some ((self, vals), answers) ∧
      Represents signedChar self vals := by
  intro h
  obtain ⟨self, vals, answers, hrun, -⟩ := h true
    [.append (some (Arg.newInt 1)), .append (some (Arg.newInt 2)), .popWithIndex 5]
  have hnone : (besideMachine true).run (init true, [])
      [.append (some (Arg.newInt 1)), .append (some (Arg.newInt 2)), .popWithIndex 5] = none := by
    decide +kernel
  cases hnone.symm.trans hrun

end PikaList

end PikaScript
