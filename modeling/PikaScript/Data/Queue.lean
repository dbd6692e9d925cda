import Mathlib.Data.Fintype.Card
import PikaScript.Data.Args
import PikaScript.Data.Decimal

/-! The queues of `dataQueue.c` and `dataQueueObj.c`.

Both are a dictionary whose entries are named by their number in decimal, next to
two counters: how many values have been pushed and how many have been popped. A
`Queue` looks at the counters before it pops; a `QueueObj` counts the pop first and
then takes what has the name, if anything has. `Queued` is what a queue of values
looks like in such a dictionary. -/
namespace PikaScript

/-! ### Reading an entry -/

namespace Args
variable (signedChar : Bool) (self : Args)

/-- `_PIKA_INT_ERR`. -/
def intErr : BitVec 64 := BitVec.ofInt 64 (-999999999)

/-- The bits of `_PIKA_FLOAT_ERR`. -/
def floatErr : BitVec 64 := 0xc1cdcd64ff800000

/-- `args_getInt`. None where a float or a bool would be converted. -/
def getInt (name : CString) : Option (BitVec 64) :=
  match getArg signedChar self name with
  | none => some intErr
  | some arg =>
    if arg.type = .int then some arg.getInt
    else if arg.type = .float ∨ arg.type = .bool then none
    else some intErr

/-- `args_getFloat`, as bits. None where an int would be converted. -/
def getFloat (name : CString) : Option (BitVec 64) :=
  match getArg signedChar self name with
  | none => some floatErr
  | some arg =>
    if arg.type = .float then some arg.getInt
    else if arg.type = .int then none
    else some floatErr

/-- `args_getStr`; no entry is NULL. -/
def getStr (name : CString) : Option CString := (getArg signedChar self name).map Arg.getStr

end Args

namespace Queue
variable (signedChar : Bool) (self : Args)

/-- `fast_itoa` of a counter, which it takes as a `uint32_t`. -/
def itoa (index : BitVec 64) : CString := decimal (index.toNat % 2 ^ 32)

/-- A counter is read, and one is added to it. -/
def countOn (counter : CString) : Option (CString × Args) := do
  let count ← self.getInt signedChar counter
  return (itoa count, ← self.setInt signedChar counter (count + 1))

/-! ### `dataQueue.c` -/

/-- The name `"__t"`. -/
def top : CString := [0x5f, 0x5f, 0x74]

/-- The name `"__b"`. -/
def bottom : CString := [0x5f, 0x5f, 0x62]

/-- `New_queue`. -/
def new : Option Args := do
  let self ← Args.setInt signedChar [] top 0
  self.setInt signedChar bottom 0

/-- `queue_pushArg`. -/
def pushArg (arg : Arg) : Option Args := do
  let (name, self) ← countOn signedChar self top
  return self.setArg (arg.setNameHash (hashTime33 signedChar name))

/-- `__queue_popArg_noRmoveArg`; none is NULL. -/
def popArg : Option (Args × Option Arg) := do
  let topCount ← self.getInt signedChar top
  let bottomCount ← self.getInt signedChar bottom
  if topCount - bottomCount < 1 then return (self, none)
  let (name, self) ← countOn signedChar self bottom
  return (self, self.getArg signedChar name)

/-- A typed pop: the content of the arg that was popped. None when there is no arg, on
which the getters fail an assertion. -/
def popContent : Option (Args × Arg) := do
  let (self, arg) ← popArg signedChar self
  return (self, ← arg)

end Queue

/-! ### `dataQueueObj.c` -/

namespace QueueObj
variable (signedChar : Bool) (self : Args)

/-- The name `"top"`. -/
def top : CString := [0x74, 0x6f, 0x70]

/-- The name `"bottom"`. -/
def bottom : CString := [0x62, 0x6f, 0x74, 0x74, 0x6f, 0x6d]

/-- `queueObj_init` of an object without entries. -/
def init : Option Args := do
  let self ← Args.setInt signedChar [] top 0
  self.setInt signedChar bottom 0

/-- `queueObj_pushInt`. -/
def pushInt (val : BitVec 32) : Option Args := do
  let (name, self) ← Queue.countOn signedChar self top
  self.setInt signedChar name (val.signExtend 64)

/-- `queueObj_pushFloat`. -/
def pushFloat (val : BitVec 64) : Option Args := do
  let (name, self) ← Queue.countOn signedChar self top
  return self.setFloat signedChar name val

/-- `queueObj_pushStr`. -/
def pushStr (str : CString) : Option Args := do
  let (name, self) ← Queue.countOn signedChar self top
  return (self.setStr signedChar name (some str)).1

/-- `queueObj_pushObj`, of the constructor that `obj_newObj` is given. -/
def pushObj (newFun : BitVec 64) : Option Args := do
  let (name, self) ← Queue.countOn signedChar self top
  return self.setArg ((Arg.newPtr .objectMeta newFun).setNameHash (hashTime33 signedChar name))

/-- `queueObj_popInt`. -/
def popInt : Option (Args × BitVec 64) := do
  let (name, self) ← Queue.countOn signedChar self bottom
  let res ← self.getInt signedChar name
  return ((self.removeArg signedChar name).1, res)

/-- `queueObj_popFloat`. -/
def popFloat : Option (Args × BitVec 64) := do
  let (name, self) ← Queue.countOn signedChar self bottom
  let res ← self.getFloat signedChar name
  return ((self.removeArg signedChar name).1, res)

/-- `queueObj_popStr`; none is NULL. -/
def popStr : Option (Args × Option CString) := do
  let (name, self) ← Queue.countOn signedChar self bottom
  return (self, self.getStr signedChar name)

/-- `obj_getObj` of a meta object: `_obj_initMetaObj` makes the object, which is `made`, and
stores it. The constructor is returned beside the object. An object that is there, and an
entry that is no object, are not modelled. -/
def getObj (name : CString) (made : BitVec 64) :
    Option (Args × Option (BitVec 64 × BitVec 64)) :=
  match self.getArg signedChar name with
  | none => some (self, none)
  | some arg =>
    if arg.type ≠ .objectMeta then none
    else if arg.getPtr = 0 then some (self, none)
    else do
      let self ← self.setPtrWithType signedChar name .object made
      return (self, some (arg.getPtr, made))

/-- `queueObj_popObj`; none is NULL. -/
def popObj (made : BitVec 64) : Option (Args × Option (BitVec 64 × BitVec 64)) := do
  let (name, self) ← Queue.countOn signedChar self bottom
  getObj signedChar self name made

end QueueObj

/-! ### Calls and answers -/

inductive QueueCall where
  | pushInt (val : BitVec 32)
  | pushFloat (val : BitVec 64)
  | pushStr (str : CString)
  | pushArg (arg : Arg)
  | popInt
  | popFloat
  | popStr
  | popArg

inductive QueueObjCall where
  | pushInt (val : BitVec 32)
  | pushFloat (val : BitVec 64)
  | pushStr (str : CString)
  | pushObj (newFun : BitVec 64)
  | popInt
  | popFloat
  | popStr
  | popObj (made : BitVec 64)

/-- What a call returns. An object comes with the constructor that made it; no string,
arg or object is NULL. -/
inductive QueueAnswer where
  | pushed
  | int (val : BitVec 64)
  | float (val : BitVec 64)
  | str (str : Option CString)
  | arg (arg : Option Arg)
  | obj (obj : Option (BitVec 64 × BitVec 64))
deriving DecidableEq

/-- A `Queue` and its calls. -/
def queueMachine (signedChar : Bool) : Machine QueueCall Args QueueAnswer where
  step
    | .pushInt val, self =>
      (Queue.pushArg signedChar self (Arg.newInt (val.signExtend 64))).map (·, .pushed)
    | .pushFloat val, self =>
      (Queue.pushArg signedChar self (Arg.create 5381 .float (bytes64 val))).map (·, .pushed)
    | .pushStr str, self =>
      (Queue.pushArg signedChar self (Arg.create 5381 .string (str ++ [0]))).map (·, .pushed)
    | .pushArg arg, self => (Queue.pushArg signedChar self arg).map (·, .pushed)
    | .popInt, self => (Queue.popContent signedChar self).map fun r => (r.1, .int r.2.getInt)
    | .popFloat, self => (Queue.popContent signedChar self).map fun r => (r.1, .float r.2.getInt)
    | .popStr, self =>
      (Queue.popContent signedChar self).map fun r => (r.1, .str (some r.2.getStr))
    | .popArg, self => (Queue.popArg signedChar self).map fun r => (r.1, .arg r.2)

/-- A `QueueObj` and its calls. -/
def queueObjMachine (signedChar : Bool) : Machine QueueObjCall Args QueueAnswer where
  step
    | .pushInt val, self => (QueueObj.pushInt signedChar self val).map (·, .pushed)
    | .pushFloat val, self => (QueueObj.pushFloat signedChar self val).map (·, .pushed)
    | .pushStr str, self => (QueueObj.pushStr signedChar self str).map (·, .pushed)
    | .pushObj newFun, self => (QueueObj.pushObj signedChar self newFun).map (·, .pushed)
    | .popInt, self => (QueueObj.popInt signedChar self).map fun r => (r.1, .int r.2)
    | .popFloat, self => (QueueObj.popFloat signedChar self).map fun r => (r.1, .float r.2)
    | .popStr, self => (QueueObj.popStr signedChar self).map fun r => (r.1, .str r.2)
    | .popObj made, self => (QueueObj.popObj signedChar self made).map fun r => (r.1, .obj r.2)

/-! ### A queue of values -/

/-- What a queue is for: the values that are in it, oldest first, and how many have left. -/
structure Fifo where
  popped : Nat
  vals : List Val

/-- The int of a value of eight bytes. -/
def Val.getInt (v : Val) : BitVec 64 := Arg.getInt ⟨v.type, 0, 0, v.content⟩

/-- The value that a call pushes. -/
def QueueCall.pushes : QueueCall → Option Val
  | .pushInt val => some ⟨.int, bytes64 (val.signExtend 64)⟩
  | .pushFloat val => some ⟨.float, bytes64 val⟩
  | .pushStr str => some ⟨.string, str ++ [0]⟩
  | .pushArg arg => some (.ofArg (some arg))
  | _ => none

/-- The values that a pop is for. -/
def QueueCall.fits : QueueCall → Val → Bool
  | .popInt, v => v = ⟨.int, bytes64 v.getInt⟩
  | .popFloat, v => v = ⟨.float, bytes64 v.getInt⟩
  | .popStr, v => v.type = .string ∧ 0 ∈ v.content
  | _, _ => true

def QueueObjCall.pushes : QueueObjCall → Option Val
  | .pushInt val => some ⟨.int, bytes64 (val.signExtend 64)⟩
  | .pushFloat val => some ⟨.float, bytes64 val⟩
  | .pushStr str => some ⟨.string, str ++ [0]⟩
  | .pushObj newFun => some ⟨.objectMeta, bytes64 newFun⟩
  | _ => none

def QueueObjCall.fits : QueueObjCall → Val → Bool
  | .popInt, v => v = ⟨.int, bytes64 v.getInt⟩
  | .popFloat, v => v = ⟨.float, bytes64 v.getInt⟩
  | .popStr, v => v.type = .string ∧ 0 ∈ v.content
  | .popObj _, v => v = ⟨.objectMeta, bytes64 v.getInt⟩ ∧ v.getInt ≠ 0
  | _, _ => true

/-- First in, first out: a push adds its value, a pop takes the oldest one, or nothing. A pop
is refused when the oldest value is of another type than it is for. -/
def fifoMachine {I : Type} (pushes : I → Option Val) (fits : I → Val → Bool) :
    Machine I Fifo (Option (Option Val)) where
  step call s :=
    match pushes call, s.vals with
    | some v, vals => some (⟨s.popped, vals ++ [v]⟩, none)
    | none, [] => some (s, some none)
    | none, v :: vals => if fits call v then some (⟨s.popped + 1, vals⟩, some (some v)) else none

/-- The answer is that of a push, a value that was popped, or nothing. -/
def QueueAnswer.Gives : QueueAnswer → Option (Option Val) → Prop
  | .pushed, none => True
  | .int val, some (some v) => v = ⟨.int, bytes64 val⟩
  | .float val, some (some v) => v = ⟨.float, bytes64 val⟩
  | .str (some s), some (some v) => v.type = .string ∧ s = v.content.takeWhile (· ≠ 0)
  | .arg (some a), some (some v) => a.Has v
  | .obj (some (newFun, _)), some (some v) => v = ⟨.objectMeta, bytes64 newFun⟩
  | .str none, some none => True
  | .arg none, some none => True
  | .obj none, some none => True
  | _, _ => False

/-! ### What a setter leaves -/

namespace Args
variable {signedChar : Bool} {self self' self₂ : Args} {h h' : Hash} {arg : Arg} {v : Val}

/-- A value is found under a hash. -/
def Finds (self : Args) (h : Hash) (v : Val) : Prop :=
  ∃ arg, getArgHash self h = some arg ∧ arg.Has v

/-- Every int has room for one. -/
def IntsHold (self : Args) : Prop := ∀ arg ∈ self, arg.type = .int → 8 ≤ arg.content.length

/-- `args'` is `args` with a value stored under a hash. -/
structure Stores (args args' : Args) (h : Hash) (v : Val) : Prop where
  found : args'.Finds h v
  frame : ∀ h', h' ≠ h → getArgHash args' h' = getArgHash args h'

theorem Stores.finds (hs : Stores self self' h v) (hne : h' ≠ h) {w : Val}
    (hw : self.Finds h' w) : self'.Finds h' w := by
  rw [Finds, hs.frame h' hne]
  exact hw

theorem stores_pushArg (harg : arg.Has v) : Stores self (self.pushArg arg) arg.nameHash v := by
  refine ⟨?_, (pushArg_spec self arg).frame⟩
  rw [Finds, getArgHash, pushArg, KeyedList.lookup_cons]
  split
  · rw [if_pos rfl]
    exact ⟨arg, rfl, harg⟩
  · rw [if_pos arg.nameHash_copy]
    exact ⟨arg.copy, rfl, Arg.has_copy harg⟩

theorem stores_setArg (harg : arg.Has v) : Stores self (self.setArg arg) arg.nameHash v := by
  rw [setArg]
  cases hup : updateArg self arg with
  | none => exact stores_pushArg harg
  | some self' =>
    have hchange := changes_of_update (fun a _ => a.nameHash_copyContent arg) hup
    obtain ⟨a, ha⟩ := Option.isSome_iff_exists.mp (getArgHash_isSome.mpr hchange.mem)
    exact ⟨⟨_, KeyedList.lookup_update ha rfl hup, Arg.has_copyContent harg⟩, hchange.frame⟩

/-- A store of eight bytes over an entry that has room for them. -/
theorem stores_overwrite (type : ArgType) (val : BitVec 64)
    (hget : getArgHash self h = some arg) (hroom : 8 ≤ arg.content.length) :
    ∃ self', self.overwrite arg (bytes64 val) type = some self' ∧
      Stores self self' h ⟨type, bytes64 val⟩ := by
  have hsome : (self.overwrite arg (bytes64 val) type).isSome :=
    overwrite_isSome hget (by rwa [length_bytes64])
  obtain ⟨self', hself'⟩ := Option.isSome_iff_exists.mp hsome
  obtain ⟨arg', hwrite, hup⟩ := Option.bind_eq_some_iff.mp hself'
  have hkey : (arg'.setType type).nameHash = arg.nameHash := (Arg.write_eq_some hwrite).2.1
  have hprefix : bytes64 val <+: arg'.content := by
    rw [Arg.write, if_pos (by rwa [length_bytes64]), Option.some.injEq] at hwrite
    subst hwrite
    exact List.prefix_append ..
  obtain rfl := nameHash_of_getArgHash hget
  exact ⟨self', hself', ⟨_, KeyedList.lookup_update hget hkey hup, rfl, hprefix⟩,
    (overwrite_spec hget hself').frame⟩

/-- `args_setInt` stores its value, unless an int without room is in its place. -/
theorem stores_setInt {name : CString}
    (hroom : ∀ arg, self.getArg signedChar name = some arg → arg.type = .int →
      8 ≤ arg.content.length) (val : BitVec 64) :
    ∃ self', self.setInt signedChar name val = some self' ∧
      Stores self self' (hashTime33 signedChar name) ⟨.int, bytes64 val⟩ := by
  have hhas : ((Arg.newInt val).setNameHash (hashTime33 signedChar name)).Has
      ⟨.int, bytes64 val⟩ := ⟨rfl, List.prefix_refl _⟩
  have hpush : Stores self (pushArgName signedChar self name (Arg.newInt val))
      (hashTime33 signedChar name) ⟨.int, bytes64 val⟩ := stores_pushArg hhas
  rw [setInt]
  split
  · exact ⟨_, rfl, hpush⟩
  · rename_i arg hget
    split
    · exact ⟨_, rfl, hpush⟩
    · rename_i htype
      have htype : arg.type = .int := not_not.mp htype
      rw [htype]
      exact stores_overwrite .int val hget (hroom arg hget htype)

theorem getInt_of_finds {name : CString} {val : BitVec 64}
    (hfound : self.Finds (hashTime33 signedChar name) ⟨.int, bytes64 val⟩) :
    self.getInt signedChar name = some val := by
  obtain ⟨arg, hget, htype, hcontent⟩ := hfound
  have hget : self.getArg signedChar name = some arg := hget
  rw [getInt, hget]
  dsimp only
  rw [if_pos htype, Arg.getInt_of_prefix hcontent]

theorem getFloat_of_finds {name : CString} {val : BitVec 64}
    (hfound : self.Finds (hashTime33 signedChar name) ⟨.float, bytes64 val⟩) :
    self.getFloat signedChar name = some val := by
  obtain ⟨arg, hget, htype, hcontent⟩ := hfound
  have hget : self.getArg signedChar name = some arg := hget
  rw [getFloat, hget]
  dsimp only
  rw [if_pos htype, Arg.getInt_of_prefix hcontent]

/-- An int that is there has room for one. -/
theorem room_of_finds {name : CString} {val : BitVec 64} {type : ArgType}
    (hfound : self.Finds (hashTime33 signedChar name) ⟨type, bytes64 val⟩) {arg : Arg}
    (hget : self.getArg signedChar name = some arg) : 8 ≤ arg.content.length := by
  obtain ⟨arg', hget', -, hcontent⟩ := hfound
  cases hget.symm.trans hget'
  simpa using hcontent.length_le

end Args

namespace Args
variable {signedChar : Bool} {self self' : Args} {arg : Arg}

theorem IntsHold.pushArg (h : self.IntsHold) (harg : arg.type = .int → 8 ≤ arg.content.length) :
    (self.pushArg arg).IntsHold := by
  intro a ha htype
  rcases List.mem_cons.mp ha with rfl | ha
  · by_cases hheap : arg.isSerialized
    · rw [if_pos hheap] at htype ⊢
      exact harg htype
    · rw [if_neg hheap] at htype ⊢
      rw [Arg.content_copy]
      exact harg htype
  · exact h a ha htype

theorem IntsHold.update {k : Hash} {f : Arg → Arg} (h : self.IntsHold)
    (hf : ∀ a, (f a).type = .int → 8 ≤ (f a).content.length)
    (hup : KeyedList.update Arg.nameHash k f self = some self') : self'.IntsHold := by
  intro a ha htype
  rcases KeyedList.mem_update hup ha with ha | ⟨b, -, rfl⟩
  · exact h a ha htype
  · exact hf b htype

theorem IntsHold.setArg (h : self.IntsHold) (harg : arg.type = .int → 8 ≤ arg.content.length) :
    (self.setArg arg).IntsHold := by
  rw [Args.setArg]
  cases hup : updateArg self arg with
  | none => exact h.pushArg harg
  | some self' =>
    refine h.update (f := (·.copyContent arg)) (fun a htype => (harg htype).trans ?_) hup
    have hhas : (a.copyContent arg).Has (.ofArg (some arg)) :=
      Arg.has_copyContent (Arg.has_ofArg arg)
    exact hhas.2.length_le

theorem IntsHold.overwrite {type : ArgType} {bytes : Bytes} (h : self.IntsHold)
    (harg : type = .int → 8 ≤ arg.content.length)
    (hset : self.overwrite arg bytes type = some self') : self'.IntsHold := by
  obtain ⟨arg', hwrite, hup⟩ := Option.bind_eq_some_iff.mp hset
  have hlength : arg'.content.length = arg.content.length := by
    unfold Arg.write at hwrite
    split at hwrite
    · cases hwrite
      simp only [List.length_append, List.length_drop]
      omega
    · cases hwrite
  exact h.update (fun _ htype => hlength.symm ▸ harg htype) hup

theorem IntsHold.setInt {name : CString} {val : BitVec 64} (h : self.IntsHold)
    (hset : self.setInt signedChar name val = some self') : self'.IntsHold := by
  unfold Args.setInt at hset
  split at hset
  · cases hset
    exact h.pushArg fun _ => (length_bytes64 val).ge
  · rename_i arg hget
    split at hset
    · cases hset
      exact h.pushArg fun _ => (length_bytes64 val).ge
    · exact h.overwrite (fun htype => h arg (List.mem_of_find?_eq_some hget) htype) hset

theorem IntsHold.removeArg (h : self.IntsHold) (name : CString) :
    (self.removeArg signedChar name).1.IntsHold := by
  unfold Args.removeArg
  split
  · exact h
  · exact fun a ha => h a (KeyedList.mem_of_mem_remove ha)

/-- The setter of ints of a dictionary whose ints have room. -/
theorem IntsHold.stores_setInt (h : self.IntsHold) (signedChar : Bool) (name : CString)
    (val : BitVec 64) :
    ∃ self', self.setInt signedChar name val = some self' ∧
      Stores self self' (hashTime33 signedChar name) ⟨.int, bytes64 val⟩ ∧ self'.IntsHold := by
  obtain ⟨self', hset, hstores⟩ := Args.stores_setInt
    (fun arg hget htype => h arg (List.mem_of_find?_eq_some hget) htype) val
  exact ⟨self', hset, hstores, h.setInt hset⟩

theorem getArgHash_removeArg {name : CString} {h : Hash}
    (hne : h ≠ hashTime33 signedChar name) :
    getArgHash (self.removeArg signedChar name).1 h = getArgHash self h := by
  rcases removeArg_spec signedChar self name with ⟨hremoves, -⟩ | ⟨-, hsame⟩
  · exact hremoves.frame h hne
  · rw [hsame]

theorem getStr_of_finds {name : CString} {v : Val}
    (hfound : self.Finds (hashTime33 signedChar name) v) (hnul : 0 ∈ v.content) :
    self.getStr signedChar name = some (v.content.takeWhile (· ≠ 0)) := by
  obtain ⟨arg, hget, -, hcontent⟩ := hfound
  have hget : self.getArg signedChar name = some arg := hget
  rw [getStr, hget, Option.map_some, Arg.getStr_of_prefix hcontent hnul]

end Args

/-! ### A queue in a dictionary -/

/-- The names of the two counters of a queue. -/
structure QueueNames where
  top : CString
  bottom : CString

/-- The counters of a `Queue`. -/
def QueueNames.queue : QueueNames := ⟨Queue.top, Queue.bottom⟩

/-- The counters of a `QueueObj`. -/
def QueueNames.queueObj : QueueNames := ⟨QueueObj.top, QueueObj.bottom⟩

namespace Queue
variable (signedChar : Bool) (names : QueueNames)

/-- What the value with a number is found by. -/
def slotHash (n : Nat) : Hash := hashTime33 signedChar (itoa (BitVec.ofNat 64 n))

/-- The value of a counter. -/
def counter (n : Nat) : Val := ⟨.int, bytes64 (BitVec.ofNat 64 n)⟩

/-- The next value has a name of its own: another than the counters and than the values that
are in the queue. -/
structure NameFree (s : Fifo) : Prop where
  top : slotHash signedChar (s.popped + s.vals.length) ≠ hashTime33 signedChar names.top
  bottom : slotHash signedChar (s.popped + s.vals.length) ≠ hashTime33 signedChar names.bottom
  slots : ∀ i < s.vals.length,
    slotHash signedChar (s.popped + i) ≠ slotHash signedChar (s.popped + s.vals.length)

instance (s : Fifo) : Decidable (NameFree signedChar names s) :=
  decidable_of_iff (_ ∧ _ ∧ ∀ i < s.vals.length, _)
    ⟨fun ⟨htop, hbottom, hslots⟩ => ⟨htop, hbottom, hslots⟩, fun h => ⟨h.top, h.bottom, h.slots⟩⟩

/-- The names of `size` values are apart from each other and from the counters. -/
structure Apart (popped size : Nat) : Prop where
  top : ∀ i < size, slotHash signedChar (popped + i) ≠ hashTime33 signedChar names.top
  bottom : ∀ i < size, slotHash signedChar (popped + i) ≠ hashTime33 signedChar names.bottom
  slots : ∀ i < size, ∀ j < size,
    slotHash signedChar (popped + i) = slotHash signedChar (popped + j) → i = j

/-- **The dictionary is a queue of the values**: it has the two counters, and each value under
its number. What else is in it has been popped. -/
structure Queued (args : Args) (s : Fifo) : Prop where
  top : args.Finds (hashTime33 signedChar names.top) (counter (s.popped + s.vals.length))
  bottom : args.Finds (hashTime33 signedChar names.bottom) (counter s.popped)
  item : ∀ i v, s.vals[i]? = some v → args.Finds (slotHash signedChar (s.popped + i)) v
  apart : Apart signedChar names s.popped s.vals.length
  counters : hashTime33 signedChar names.top ≠ hashTime33 signedChar names.bottom

end Queue

namespace Queue
variable {signedChar : Bool} {names : QueueNames} {self self₁ self₂ : Args} {s : Fifo}
  {popped size : Nat} {v : Val} {vals : List Val}

theorem hashTime33_lt (str : CString) : hashTime33 signedChar str < 2 ^ 31 := by
  unfold hashTime33
  split
  · norm_num
  · exact Nat.mod_lt _ (by norm_num)

/-- There are no more names than hashes. -/
theorem Apart.size_le (h : Apart signedChar names popped size) : size ≤ 2 ^ 31 := by
  have hinj : Function.Injective fun i : Fin size =>
      (⟨slotHash signedChar (popped + i), hashTime33_lt _⟩ : Fin (2 ^ 31)) := by
    intro i j heq
    exact Fin.ext (h.slots i i.isLt j j.isLt (congrArg Fin.val heq))
  simpa using Fintype.card_le_of_injective _ hinj

theorem Apart.succ (h : Apart signedChar names s.popped s.vals.length)
    (hfree : NameFree signedChar names s) :
    Apart signedChar names s.popped (s.vals.length + 1) := by
  refine ⟨fun i hi => ?_, fun i hi => ?_, fun i hi j hj heq => ?_⟩
  · rcases Nat.lt_succ_iff_lt_or_eq.mp hi with hi | rfl
    · exact h.top i hi
    · exact hfree.top
  · rcases Nat.lt_succ_iff_lt_or_eq.mp hi with hi | rfl
    · exact h.bottom i hi
    · exact hfree.bottom
  · rcases Nat.lt_succ_iff_lt_or_eq.mp hi with hi | rfl <;>
      rcases Nat.lt_succ_iff_lt_or_eq.mp hj with hj | rfl
    · exact h.slots i hi j hj heq
    · exact absurd heq (hfree.slots i hi)
    · exact absurd heq.symm (hfree.slots j hj)
    · rfl

theorem Apart.tail (h : Apart signedChar names popped (size + 1)) :
    Apart signedChar names (popped + 1) size := by
  have hshift : ∀ i, popped + 1 + i = popped + (i + 1) := fun i => by omega
  refine ⟨fun i hi => ?_, fun i hi => ?_, fun i hi j hj heq => ?_⟩
  · rw [hshift]
    exact h.top _ (by omega)
  · rw [hshift]
    exact h.bottom _ (by omega)
  · rw [hshift, hshift] at heq
    exact Nat.succ_injective (h.slots _ (by omega) _ (by omega) heq)

/-- Counting on stores the next count. -/
theorem countOn_of_finds {name : CString} {n : Nat}
    (hfound : self.Finds (hashTime33 signedChar name) (counter n)) :
    ∃ self₁, countOn signedChar self name = some (itoa (BitVec.ofNat 64 n), self₁) ∧
      self.Stores self₁ (hashTime33 signedChar name) (counter (n + 1)) := by
  obtain ⟨self₁, hset, hstores⟩ := Args.stores_setInt
    (fun arg hget _ => Args.room_of_finds hfound hget) (BitVec.ofNat 64 n + 1)
  refine ⟨self₁, ?_, ?_⟩
  · simp only [countOn, Args.getInt_of_finds hfound, Option.bind_eq_bind, Option.bind_some, hset,
      Option.pure_def]
  · rw [counter, BitVec.ofNat_add]
    exact hstores

/-- **A value that is stored under the next number is added at the end.** -/
theorem Queued.push (h : Queued signedChar names self s) (hfree : NameFree signedChar names s) :
    ∃ self₁, countOn signedChar self names.top =
        some (itoa (BitVec.ofNat 64 (s.popped + s.vals.length)), self₁) ∧
      ∀ self₂ v, self₁.Stores self₂ (slotHash signedChar (s.popped + s.vals.length)) v →
        Queued signedChar names self₂ ⟨s.popped, s.vals ++ [v]⟩ := by
  obtain ⟨self₁, hcount, htop⟩ := countOn_of_finds h.top
  refine ⟨self₁, hcount, fun self₂ v hstores => ⟨?_, ?_, fun i w hw => ?_, ?_, h.counters⟩⟩
  · rw [List.length_append]
    exact hstores.finds hfree.top.symm htop.found
  · exact hstores.finds hfree.bottom.symm (htop.finds h.counters.symm h.bottom)
  · rcases Nat.lt_or_ge i s.vals.length with hi | hi
    · rw [List.getElem?_append_left hi] at hw
      exact hstores.finds (hfree.slots i hi) (htop.finds (h.apart.top i hi) (h.item i w hw))
    · rw [List.getElem?_append_right hi] at hw
      obtain ⟨hzero, rfl⟩ : i - s.vals.length = 0 ∧ v = w := by
        simpa [List.getElem?_singleton] using hw
      obtain rfl : i = s.vals.length := by omega
      exact hstores.found
  · rw [List.length_append]
    exact h.apart.succ hfree

/-- Nothing that is stored under the number of a popped value, and no removal of it, is seen. -/
theorem Queued.frame (h : Queued signedChar names self ⟨popped + 1, vals⟩)
    (hapart : Apart signedChar names popped (vals.length + 1))
    (hframe : ∀ h', h' ≠ slotHash signedChar popped →
      Args.getArgHash self₂ h' = Args.getArgHash self h') :
    Queued signedChar names self₂ ⟨popped + 1, vals⟩ := by
  have hfinds : ∀ h' v, h' ≠ slotHash signedChar popped → self.Finds h' v → self₂.Finds h' v := by
    intro h' v hne hfound
    rw [Args.Finds, hframe h' hne]
    exact hfound
  refine ⟨hfinds _ _ (hapart.top 0 (by omega)).symm h.top,
    hfinds _ _ (hapart.bottom 0 (by omega)).symm h.bottom, fun i v hv => ?_, h.apart, h.counters⟩
  have hi : i < vals.length := (List.getElem?_eq_some_iff.mp hv).1
  refine hfinds _ _ (fun heq => ?_) (h.item i v hv)
  have hslot : popped + 1 + i = popped + (i + 1) := by omega
  have hzero := hapart.slots (i + 1) (by omega) 0 (by omega) (by rw [← hslot]; exact heq)
  omega

/-- **Counting the bottom on takes the oldest value off**, and it is found under the name
that the count gives. -/
theorem Queued.pop (h : Queued signedChar names self ⟨popped, v :: vals⟩) :
    ∃ self₁, countOn signedChar self names.bottom =
        some (itoa (BitVec.ofNat 64 popped), self₁) ∧
      self₁.Finds (slotHash signedChar popped) v ∧
      Queued signedChar names self₁ ⟨popped + 1, vals⟩ := by
  obtain ⟨self₁, hcount, hbottom⟩ := countOn_of_finds h.bottom
  have hslot : ∀ i, popped + 1 + i = popped + (i + 1) := fun i => by omega
  refine ⟨self₁, hcount, ?_, ?_, hbottom.found, fun i w hw => ?_, h.apart.tail, h.counters⟩
  · exact hbottom.finds (h.apart.bottom 0 (by simp)) (h.item 0 v rfl)
  · rw [hslot]
    exact hbottom.finds h.counters h.top
  · rw [hslot]
    refine hbottom.finds (h.apart.bottom (i + 1) ?_) (h.item (i + 1) w hw)
    exact Nat.succ_lt_succ (List.getElem?_eq_some_iff.mp hw).1

/-! ### The calls of a `Queue` -/

theorem queued_pushArg (h : Queued signedChar .queue self s)
    (hfree : NameFree signedChar .queue s) {arg : Arg} (harg : arg.Has v) :
    ∃ self', pushArg signedChar self arg = some self' ∧
      Queued signedChar .queue self' ⟨s.popped, s.vals ++ [v]⟩ := by
  obtain ⟨self₁, hcount, hqueued⟩ := h.push hfree
  have hcount : countOn signedChar self top = _ := hcount
  have hnamed := Arg.has_setNameHash (slotHash signedChar (s.popped + s.vals.length)) harg
  exact ⟨_, by rw [pushArg, hcount]; rfl, hqueued _ v (Args.stores_setArg hnamed)⟩

/-- A queue looks at its counters: they are equal just when nothing is in it. -/
theorem popArg_eq (h : Queued signedChar .queue self s) :
    popArg signedChar self = if s.vals = [] then some (self, none) else
      (countOn signedChar self bottom).map fun r => (r.2, r.2.getArg signedChar r.1) := by
  have htop : self.getInt signedChar top = _ := Args.getInt_of_finds h.top
  have hbottom : self.getInt signedChar bottom = _ := Args.getInt_of_finds h.bottom
  have hsize := h.apart.size_le
  have hdiff : BitVec.ofNat 64 (s.popped + s.vals.length) - BitVec.ofNat 64 s.popped =
      BitVec.ofNat 64 s.vals.length := by
    rw [BitVec.ofNat_add]
    exact add_sub_cancel_left ..
  have hempty : BitVec.ofNat 64 s.vals.length < 1 ↔ s.vals = [] := by
    rw [BitVec.lt_def, BitVec.toNat_ofNat, Nat.mod_eq_of_lt (by omega), ← List.length_eq_zero_iff]
    exact Nat.lt_one_iff
  simp only [popArg, htop, hbottom, Option.bind_eq_bind, Option.bind_some, hdiff, hempty,
    Option.pure_def]
  split
  · rfl
  · rw [Option.map_eq_bind]
    rfl

theorem popArg_nil (h : Queued signedChar .queue self ⟨popped, []⟩) :
    popArg signedChar self = some (self, none) := by
  rw [popArg_eq h, if_pos rfl]

theorem popArg_cons (h : Queued signedChar .queue self ⟨popped, v :: vals⟩) :
    ∃ self' arg, popArg signedChar self = some (self', some arg) ∧ arg.Has v ∧
      Queued signedChar .queue self' ⟨popped + 1, vals⟩ := by
  obtain ⟨self₁, hcount, ⟨arg, hget, harg⟩, hqueued⟩ := h.pop
  have hcount : countOn signedChar self bottom = _ := hcount
  have hget : self₁.getArg signedChar (itoa (BitVec.ofNat 64 popped)) = some arg := hget
  exact ⟨self₁, arg, by rw [popArg_eq h, if_neg (List.cons_ne_nil v vals), hcount,
    Option.map_some, hget], harg, hqueued⟩

theorem popContent_cons (h : Queued signedChar .queue self ⟨popped, v :: vals⟩) :
    ∃ self' arg, popContent signedChar self = some (self', arg) ∧ arg.Has v ∧
      Queued signedChar .queue self' ⟨popped + 1, vals⟩ := by
  obtain ⟨self', arg, hpop, harg, hqueued⟩ := popArg_cons h
  exact ⟨self', arg, by rw [popContent, hpop]; rfl, harg, hqueued⟩

end Queue

/-- **What a step of the abstract queue can be**: a push, a pop of nothing, or a pop of the
oldest value. -/
theorem fifoMachine_step {I : Type} {pushes : I → Option Val} {fits : I → Val → Bool} {call : I}
    {s s' : Fifo} {q : Option (Option Val)}
    (h : (fifoMachine pushes fits).step call s = some (s', q)) :
    (∃ v, pushes call = some v ∧ s' = ⟨s.popped, s.vals ++ [v]⟩ ∧ q = none) ∨
    (pushes call = none ∧ s = ⟨s.popped, []⟩ ∧ s' = s ∧ q = some none) ∨
    (∃ v vals, pushes call = none ∧ fits call v = true ∧ s = ⟨s.popped, v :: vals⟩ ∧
      s' = ⟨s.popped + 1, vals⟩ ∧ q = some (some v)) := by
  obtain ⟨popped, held⟩ := s
  dsimp only [fifoMachine] at h
  cases hpush : pushes call with
  | some v =>
    rw [hpush] at h
    cases h
    exact .inl ⟨v, rfl, rfl, rfl⟩
  | none =>
    rw [hpush] at h
    cases held with
    | nil =>
      cases h
      exact .inr (.inl ⟨rfl, rfl, rfl, rfl⟩)
    | cons v vals =>
      dsimp only at h
      split at h
      · cases h
        exact .inr (.inr ⟨v, vals, rfl, ‹_›, rfl, rfl, rfl⟩)
      · cases h

namespace QueueCall
variable {signedChar : Bool} {self : Args} {s : Fifo} {v : Val}

/-- The pops that read the content of what they take. -/
def typed : QueueCall → Bool
  | .popInt | .popFloat | .popStr => true
  | _ => false

/-- When a call is right: a push has a free name, and a typed pop finds something. -/
structure Proper (signedChar : Bool) (call : QueueCall) (s : Fifo) : Prop where
  free : call.pushes ≠ none → Queue.NameFree signedChar .queue s
  typed : call.typed = true → s.vals ≠ []

instance (call : QueueCall) (s : Fifo) : Decidable (call.Proper signedChar s) :=
  decidable_of_iff ((call.pushes ≠ none → Queue.NameFree signedChar .queue s) ∧
      (call.typed = true → s.vals ≠ []))
    ⟨fun ⟨hfree, htyped⟩ => ⟨hfree, htyped⟩, fun h => ⟨h.free, h.typed⟩⟩

theorem step_push {call : QueueCall} (h : Queue.Queued signedChar .queue self s)
    (hpush : call.pushes = some v) (hfree : Queue.NameFree signedChar .queue s) :
    ∃ self', (queueMachine signedChar).step call self = some (self', .pushed) ∧
      Queue.Queued signedChar .queue self' ⟨s.popped, s.vals ++ [v]⟩ := by
  have hpushed : ∀ arg : Arg, arg.Has v →
      ∃ self', (Queue.pushArg signedChar self arg).map (·, QueueAnswer.pushed) =
          some (self', .pushed) ∧
        Queue.Queued signedChar .queue self' ⟨s.popped, s.vals ++ [v]⟩ := by
    intro arg harg
    obtain ⟨self', hpush, hqueued⟩ := Queue.queued_pushArg h hfree harg
    exact ⟨self', by rw [hpush]; rfl, hqueued⟩
  cases call with
  | pushInt val | pushFloat val | pushStr str =>
    cases hpush
    exact hpushed _ ⟨rfl, List.prefix_refl _⟩
  | pushArg arg =>
    cases hpush
    exact hpushed arg (Arg.has_ofArg arg)
  | popInt | popFloat | popStr | popArg => cases hpush

theorem step_pop {call : QueueCall} {popped : Nat} {vals : List Val}
    (h : Queue.Queued signedChar .queue self ⟨popped, v :: vals⟩)
    (hpop : call.pushes = none) (hfits : call.fits v = true) :
    ∃ self' answer, (queueMachine signedChar).step call self = some (self', answer) ∧
      answer.Gives (some (some v)) ∧
      Queue.Queued signedChar .queue self' ⟨popped + 1, vals⟩ := by
  obtain ⟨self', arg, hcontent, harg, hqueued⟩ := Queue.popContent_cons h
  cases call with
  | pushInt | pushFloat | pushStr | pushArg => cases hpop
  | popInt =>
    have hv : v = ⟨.int, bytes64 v.getInt⟩ := of_decide_eq_true hfits
    rw [hv] at harg
    refine ⟨self', .int arg.getInt, by simp only [queueMachine, hcontent, Option.map_some],
      ?_, hqueued⟩
    rw [Arg.getInt_of_prefix harg.2]
    exact hv
  | popFloat =>
    have hv : v = ⟨.float, bytes64 v.getInt⟩ := of_decide_eq_true hfits
    rw [hv] at harg
    refine ⟨self', .float arg.getInt, by simp only [queueMachine, hcontent, Option.map_some],
      ?_, hqueued⟩
    rw [Arg.getInt_of_prefix harg.2]
    exact hv
  | popStr =>
    obtain ⟨htype, hnul⟩ : v.type = .string ∧ 0 ∈ v.content := of_decide_eq_true hfits
    exact ⟨self', .str (some arg.getStr), by simp only [queueMachine, hcontent, Option.map_some],
      ⟨htype, Arg.getStr_of_prefix harg.2 hnul⟩, hqueued⟩
  | popArg =>
    obtain ⟨self', arg, hpop, harg, hqueued⟩ := Queue.popArg_cons h
    exact ⟨self', .arg (some arg), by simp only [queueMachine, hpop, Option.map_some], harg,
      hqueued⟩

/-- **A proper call is answered as the abstract queue answers it.** -/
theorem step_queued {call : QueueCall} {s' : Fifo} {q : Option (Option Val)}
    (hproper : call.Proper signedChar s) (h : Queue.Queued signedChar .queue self s)
    (hstep : (fifoMachine pushes fits).step call s = some (s', q)) :
    ∃ self' answer, (queueMachine signedChar).step call self = some (self', answer) ∧
      answer.Gives q ∧ Queue.Queued signedChar .queue self' s' := by
  rcases fifoMachine_step hstep with ⟨v, hpush, rfl, rfl⟩ | ⟨hpop, hs, rfl, rfl⟩ |
    ⟨v, vals, hpop, hfits, hs, rfl, rfl⟩
  · obtain ⟨self', hrun, hqueued⟩ := step_push h hpush (hproper.free (by rw [hpush]; simp))
    exact ⟨self', .pushed, hrun, trivial, hqueued⟩
  · have hnone := Queue.popArg_nil (hs ▸ h)
    have htyped : call.typed = false := by
      by_contra htyped
      exact hproper.typed (by simpa using htyped) (congrArg Fifo.vals hs)
    cases call with
    | popArg => exact ⟨self, .arg none, by simp only [queueMachine, hnone, Option.map_some],
        trivial, h⟩
    | popInt | popFloat | popStr => cases htyped
    | pushInt | pushFloat | pushStr | pushArg => cases hpop
  · exact step_pop (hs ▸ h) hpop hfits

end QueueCall

/-! ### The calls of a `QueueObj` -/

namespace QueueObj
variable {signedChar : Bool} {self : Args} {s : Fifo} {v : Val} {popped : Nat} {vals : List Val}

/-- The dictionary is a queue, and its ints have room. -/
structure Queued (signedChar : Bool) (args : Args) (s : Fifo) : Prop where
  queue : Queue.Queued signedChar .queueObj args s
  ints : args.IntsHold

theorem countOn_intsHold {name counter : CString} {self₁ : Args} (h : self.IntsHold)
    (hcount : Queue.countOn signedChar self counter = some (name, self₁)) : self₁.IntsHold := by
  simp only [Queue.countOn, Option.bind_eq_bind, Option.bind_eq_some_iff, Option.pure_def,
    Option.some.injEq, Prod.mk.injEq] at hcount
  obtain ⟨count, -, self', hset, -, rfl⟩ := hcount
  exact h.setInt hset

/-- A setter that stores a value, whatever the name, pushes it. -/
theorem queued_push (h : Queued signedChar self s)
    (hfree : Queue.NameFree signedChar .queueObj s) (put : CString → Args → Option Args)
    (hput : ∀ name (self : Args), self.IntsHold → ∃ self', put name self = some self' ∧
      self.Stores self' (hashTime33 signedChar name) v ∧ self'.IntsHold) :
    ∃ self', ((Queue.countOn signedChar self top).bind fun r => put r.1 r.2) = some self' ∧
      Queued signedChar self' ⟨s.popped, s.vals ++ [v]⟩ := by
  obtain ⟨self₁, hcount, hqueued⟩ := h.queue.push hfree
  have hcount : Queue.countOn signedChar self top = _ := hcount
  obtain ⟨self', hput, hstores, hints⟩ := hput _ self₁ (countOn_intsHold h.ints hcount)
  exact ⟨self', by rw [hcount, Option.bind_some, hput], hqueued self' v hstores, hints⟩

/-- A setter that goes through `args_setArg`. -/
theorem stores_setArg {arg : Arg} (harg : arg.Has v) (hint : arg.type ≠ .int) (self : Args)
    (hself : self.IntsHold) : ∃ self', some (self.setArg arg) = some self' ∧
      self.Stores self' arg.nameHash v ∧ self'.IntsHold :=
  ⟨_, rfl, Args.stores_setArg harg, hself.setArg fun htype => absurd htype hint⟩

theorem queued_pop (h : Queued signedChar self ⟨popped, v :: vals⟩) :
    ∃ name self₁, Queue.countOn signedChar self bottom = some (name, self₁) ∧
      self₁.Finds (hashTime33 signedChar name) v ∧
      ∀ self₂ : Args, self₂.IntsHold →
        (∀ h', h' ≠ hashTime33 signedChar name →
          Args.getArgHash self₂ h' = Args.getArgHash self₁ h') →
        Queued signedChar self₂ ⟨popped + 1, vals⟩ := by
  obtain ⟨self₁, hcount, hfound, hqueued⟩ := h.queue.pop
  exact ⟨_, self₁, hcount, hfound, fun self₂ hints hframe =>
    ⟨hqueued.frame h.queue.apart hframe, hints⟩⟩

theorem getObj_of_finds {name : CString} {newFun : BitVec 64} (made : BitVec 64)
    (hfound : self.Finds (hashTime33 signedChar name) ⟨.objectMeta, bytes64 newFun⟩)
    (hnew : newFun ≠ 0) (hints : self.IntsHold) :
    ∃ self', getObj signedChar self name made = some (self', some (newFun, made)) ∧
      self.Stores self' (hashTime33 signedChar name) ⟨.object, bytes64 made⟩ ∧
      self'.IntsHold := by
  obtain ⟨arg, hget, htype, hcontent⟩ := id hfound
  have hget : self.getArg signedChar name = some arg := hget
  have hptr : arg.getPtr = newFun := by
    rw [Arg.getPtr, if_neg fun hnone => ArgType.noConfusion (htype.symm.trans hnone)]
    exact Arg.getInt_of_prefix hcontent
  obtain ⟨self', hset, hstores⟩ := Args.stores_overwrite .object made hget
    (Args.room_of_finds hfound hget)
  refine ⟨self', ?_, hstores, hints.overwrite (fun heq => ArgType.noConfusion heq) hset⟩
  have hset : self.setPtrWithType signedChar name .object made = some self' := by
    rw [Args.setPtrWithType, hget]
    exact hset
  rw [getObj, hget]
  dsimp only
  rw [if_neg (not_not.mpr htype), hptr, if_neg hnew, hset]
  rfl

end QueueObj

namespace QueueObjCall
variable {signedChar : Bool} {self : Args} {s : Fifo} {v : Val} {popped : Nat} {vals : List Val}

/-- When a call is right: a push has a free name, and a pop finds something. -/
structure Proper (signedChar : Bool) (call : QueueObjCall) (s : Fifo) : Prop where
  free : call.pushes ≠ none → Queue.NameFree signedChar .queueObj s
  nonempty : call.pushes = none → s.vals ≠ []

instance (call : QueueObjCall) (s : Fifo) : Decidable (call.Proper signedChar s) :=
  decidable_of_iff ((call.pushes ≠ none → Queue.NameFree signedChar .queueObj s) ∧
      (call.pushes = none → s.vals ≠ []))
    ⟨fun ⟨hfree, hnonempty⟩ => ⟨hfree, hnonempty⟩, fun h => ⟨h.free, h.nonempty⟩⟩

theorem step_push {call : QueueObjCall} (h : QueueObj.Queued signedChar self s)
    (hpush : call.pushes = some v) (hfree : Queue.NameFree signedChar .queueObj s) :
    ∃ self', (queueObjMachine signedChar).step call self = some (self', .pushed) ∧
      QueueObj.Queued signedChar self' ⟨s.popped, s.vals ++ [v]⟩ := by
  cases call with
  | pushInt val =>
    cases hpush
    obtain ⟨self', hrun, hqueued⟩ := QueueObj.queued_push h hfree
      (fun name self => self.setInt signedChar name (val.signExtend 64))
      fun name self hints => hints.stores_setInt signedChar name _
    exact ⟨self', congrArg (Option.map (·, QueueAnswer.pushed)) hrun, hqueued⟩
  | pushFloat val =>
    cases hpush
    obtain ⟨self', hrun, hqueued⟩ := QueueObj.queued_push (v := ⟨.float, bytes64 val⟩) h hfree
      (fun name self => some (self.setFloat signedChar name val))
      fun name => QueueObj.stores_setArg ⟨rfl, List.prefix_refl _⟩ nofun
    exact ⟨self', congrArg (Option.map (·, QueueAnswer.pushed)) hrun, hqueued⟩
  | pushStr str =>
    cases hpush
    obtain ⟨self', hrun, hqueued⟩ := QueueObj.queued_push (v := ⟨.string, str ++ [0]⟩) h hfree
      (fun name self => some (self.setStr signedChar name (some str)).1)
      fun name => QueueObj.stores_setArg ⟨rfl, List.prefix_refl _⟩ nofun
    exact ⟨self', congrArg (Option.map (·, QueueAnswer.pushed)) hrun, hqueued⟩
  | pushObj newFun =>
    cases hpush
    obtain ⟨self', hrun, hqueued⟩ := QueueObj.queued_push
      (v := ⟨.objectMeta, bytes64 newFun⟩) h hfree
      (fun name self => some (self.setArg
        ((Arg.newPtr .objectMeta newFun).setNameHash (hashTime33 signedChar name))))
      fun name => QueueObj.stores_setArg ⟨rfl, List.prefix_refl _⟩ nofun
    exact ⟨self', congrArg (Option.map (·, QueueAnswer.pushed)) hrun, hqueued⟩
  | popInt | popFloat | popStr | popObj => cases hpush

theorem step_pop {call : QueueObjCall} (h : QueueObj.Queued signedChar self ⟨popped, v :: vals⟩)
    (hpop : call.pushes = none) (hfits : call.fits v = true) :
    ∃ self' answer, (queueObjMachine signedChar).step call self = some (self', answer) ∧
      answer.Gives (some (some v)) ∧ QueueObj.Queued signedChar self' ⟨popped + 1, vals⟩ := by
  obtain ⟨name, self₁, hcount, hfound, hframe⟩ := QueueObj.queued_pop h
  have hints := QueueObj.countOn_intsHold h.ints hcount
  cases call with
  | pushInt | pushFloat | pushStr | pushObj => cases hpop
  | popInt =>
    have hv : v = ⟨.int, bytes64 v.getInt⟩ := of_decide_eq_true hfits
    rw [hv] at hfound
    refine ⟨_, .int v.getInt, ?_, hv, hframe _ (hints.removeArg name)
      fun h' hne => Args.getArgHash_removeArg hne⟩
    simp only [queueObjMachine, QueueObj.popInt, hcount, Option.bind_eq_bind, Option.bind_some,
      Args.getInt_of_finds hfound, Option.pure_def, Option.map_some]
  | popFloat =>
    have hv : v = ⟨.float, bytes64 v.getInt⟩ := of_decide_eq_true hfits
    rw [hv] at hfound
    refine ⟨_, .float v.getInt, ?_, hv, hframe _ (hints.removeArg name)
      fun h' hne => Args.getArgHash_removeArg hne⟩
    simp only [queueObjMachine, QueueObj.popFloat, hcount, Option.bind_eq_bind, Option.bind_some,
      Args.getFloat_of_finds hfound, Option.pure_def, Option.map_some]
  | popStr =>
    obtain ⟨htype, hnul⟩ : v.type = .string ∧ 0 ∈ v.content := of_decide_eq_true hfits
    refine ⟨self₁, .str (some _), ?_, ⟨htype, rfl⟩, hframe self₁ hints fun h' _ => rfl⟩
    simp only [queueObjMachine, QueueObj.popStr, hcount, Option.bind_eq_bind, Option.bind_some,
      Args.getStr_of_finds hfound hnul, Option.pure_def, Option.map_some]
  | popObj made =>
    obtain ⟨hv, hnew⟩ : v = ⟨.objectMeta, bytes64 v.getInt⟩ ∧ v.getInt ≠ 0 :=
      of_decide_eq_true hfits
    rw [hv] at hfound
    obtain ⟨self', hobj, hstores, hints'⟩ := QueueObj.getObj_of_finds made hfound hnew hints
    refine ⟨self', .obj (some (v.getInt, made)), ?_, hv, hframe self' hints' hstores.frame⟩
    simp only [queueObjMachine, QueueObj.popObj, hcount, Option.bind_eq_bind, Option.bind_some,
      hobj, Option.map_some]

/-- **A proper call is answered as the abstract queue answers it.** -/
theorem step_queued {call : QueueObjCall} {s' : Fifo} {q : Option (Option Val)}
    (hproper : call.Proper signedChar s) (h : QueueObj.Queued signedChar self s)
    (hstep : (fifoMachine pushes fits).step call s = some (s', q)) :
    ∃ self' answer, (queueObjMachine signedChar).step call self = some (self', answer) ∧
      answer.Gives q ∧ QueueObj.Queued signedChar self' s' := by
  rcases fifoMachine_step hstep with ⟨v, hpush, rfl, rfl⟩ | ⟨hpop, hs, -, -⟩ |
    ⟨v, vals, hpop, hfits, hs, rfl, rfl⟩
  · obtain ⟨self', hrun, hqueued⟩ := step_push h hpush (hproper.free (by rw [hpush]; simp))
    exact ⟨self', .pushed, hrun, trivial, hqueued⟩
  · exact absurd (congrArg Fifo.vals hs) (hproper.nonempty hpop)
  · exact step_pop (hs ▸ h) hpop hfits

end QueueObjCall

/-! ### Any calls -/

namespace Queue
variable {signedChar : Bool}

/-- Two counters of different names start a queue. -/
theorem queued_new (names : QueueNames)
    (hne : hashTime33 signedChar names.top ≠ hashTime33 signedChar names.bottom) :
    ∃ self, (do
        let self ← Args.setInt signedChar [] names.top 0
        self.setInt signedChar names.bottom 0) = some self ∧
      Queued signedChar names self ⟨0, []⟩ ∧ self.IntsHold := by
  have hnil : Args.IntsHold [] := fun _ h => nomatch h
  obtain ⟨self₁, htop, hstop, hints⟩ := hnil.stores_setInt signedChar names.top 0
  obtain ⟨self₂, hbottom, hsbottom, hints'⟩ :=
    hints.stores_setInt signedChar names.bottom 0
  refine ⟨self₂, ?_, ⟨hsbottom.finds hne hstop.found, hsbottom.found, fun i v hv => ?_,
    ⟨fun i hi => ?_, fun i hi => ?_, fun i hi => ?_⟩, hne⟩, hints'⟩
  · rw [htop]
    exact hbottom
  · cases hv
  all_goals exact absurd hi (Nat.not_lt_zero i)

end Queue

/-- The counters of both queues have names of their own. -/
theorem counters_ne (signedChar : Bool) :
    hashTime33 signedChar Queue.top ≠ hashTime33 signedChar Queue.bottom ∧
      hashTime33 signedChar QueueObj.top ≠ hashTime33 signedChar QueueObj.bottom := by
  cases signedChar <;> decide +kernel

/-- What is asked of a queue: from a new one, any calls that the abstract queue takes are
taken, and answered as it answers them. -/
def IsFifo {I : Type} (new : Option Args) (machine : Machine I Args QueueAnswer)
    (pushes : I → Option Val) (fits : I → Val → Bool) (calls : List I) : Prop :=
  ∀ s answers, (fifoMachine pushes fits).run ⟨0, []⟩ calls = some (s, answers) →
    ∃ self self' answers', new = some self ∧ machine.run self calls = some (self', answers') ∧
      List.Forall₂ QueueAnswer.Gives answers' answers

/-- **A queue is first in first out** in every run whose pushes have free names, if no typed pop
of a `Queue` and no pop of a `QueueObj` is made when nothing is in it. -/
theorem queue_run (signedChar : Bool) :
    (∀ calls, (fifoMachine QueueCall.pushes QueueCall.fits).Meets
        (QueueCall.Proper signedChar) ⟨0, []⟩ calls →
      IsFifo (Queue.new signedChar) (queueMachine signedChar) QueueCall.pushes QueueCall.fits
        calls) ∧
    (∀ calls, (fifoMachine QueueObjCall.pushes QueueObjCall.fits).Meets
        (QueueObjCall.Proper signedChar) ⟨0, []⟩ calls →
      IsFifo (QueueObj.init signedChar) (queueObjMachine signedChar) QueueObjCall.pushes
        QueueObjCall.fits calls) := by
  refine ⟨fun calls hmeets s answers hrun => ?_, fun calls hmeets s answers hrun => ?_⟩
  · obtain ⟨self, hnew, hqueued, -⟩ := Queue.queued_new .queue (counters_ne signedChar).1
    obtain ⟨self', answers', hcode, hgives, -⟩ := Machine.run_of_abstract_of_meets
      (fun call self t t' q hproper h hstep => QueueCall.step_queued hproper h hstep)
      hqueued hmeets hrun
    exact ⟨self, self', answers', hnew, hcode, hgives⟩
  · obtain ⟨self, hnew, hqueued, hints⟩ := Queue.queued_new .queueObj (counters_ne signedChar).2
    obtain ⟨self', answers', hcode, hgives, -⟩ := Machine.run_of_abstract_of_meets
      (fun call self t t' q hproper h hstep => QueueObjCall.step_queued hproper h hstep)
      (QueueObj.Queued.mk hqueued hints) hmeets hrun
    exact ⟨self, self', answers', hnew, hcode, hgives⟩

/-- An int through a `Queue` that is empty again, and a string through a `QueueObj`. -/
theorem queue_run_one :
    IsFifo (Queue.new true) (queueMachine true) QueueCall.pushes QueueCall.fits
      [.pushInt 1, .popInt, .popArg] ∧
    IsFifo (QueueObj.init true) (queueObjMachine true) QueueObjCall.pushes QueueObjCall.fits
      [.pushStr [97], .popStr] :=
  ⟨(queue_run true).1 _ (by decide +kernel), (queue_run true).2 _ (by decide +kernel)⟩

/-- A `QueueObj` that is popped when nothing is in it does not return what is pushed then. -/
theorem not_fifo :
    ¬∀ signedChar,
      (∀ calls, IsFifo (Queue.new signedChar) (queueMachine signedChar) QueueCall.pushes
        QueueCall.fits calls) ∧
      (∀ calls, IsFifo (QueueObj.init signedChar) (queueObjMachine signedChar)
        QueueObjCall.pushes QueueObjCall.fits calls) := by
  intro h
  obtain ⟨self, self', answers', hnew, hrun, hgives⟩ :=
    (h true).2 [.popStr, .pushStr [97], .popStr] ⟨1, []⟩
      [some none, none, some (some ⟨.string, [97, 0]⟩)] rfl
  have hcode : ((QueueObj.init true).bind fun self =>
      ((queueObjMachine true).run self [.popStr, .pushStr [97], .popStr]).map Prod.snd) =
        some [.str none, .pushed, .str none] := by
    decide +kernel
  rw [hnew, Option.bind_some, hrun, Option.map_some, Option.some.injEq] at hcode
  subst hcode
  rw [List.forall₂_cons, List.forall₂_cons, List.forall₂_cons] at hgives
  exact hgives.2.2.1

end PikaScript
