import Mathlib.Data.Finset.Dedup
import PikaScript.Data.Arg
import PikaScript.Lib.KeyedList
import PikaScript.Lib.Machine

/-! The dictionary of `dataArgs.c`.

An `Args` is a list of args, newest first, found by the hash of their name; the
names are not kept. A setter either changes the first node of its hash in place
or puts a new node in front. `keySet` is what the dictionary is for: the set of
hashes that are set. The list follows it as long as every new node is of a new
hash, which `args_setInt` alone does not see to (`Fresh`). -/
namespace PikaScript

/-- `Args`, the list from `firstNode` on. -/
abbrev Args := List Arg

namespace Args
variable (signedChar : Bool) (self : Args)

/-! ### The code -/

/-- `args_getArg_hash`, through `args_getNode_hash`. -/
def getArgHash (nameHash : Hash) : Option Arg := KeyedList.lookup Arg.nameHash nameHash self

/-- `args_getArg`. -/
def getArg (name : CString) : Option Arg := getArgHash self (hashTime33 signedChar name)

/-- `args_getSize`, through `link_getSize`. -/
def getSize : Nat := self.length

/-- `args_pushArg`. An arg on the stack is copied first. -/
def pushArg (arg : Arg) : Args := (if arg.isSerialized then arg else arg.copy) :: self

/-- `args_pushArg_name`. -/
def pushArgName (name : CString) (arg : Arg) : Args :=
  pushArg self (arg.setNameHash (hashTime33 signedChar name))

/-- `_updateArg`: the first node of the hash takes over the content. -/
def updateArg (argNew : Arg) : Option Args :=
  KeyedList.update Arg.nameHash argNew.nameHash (·.copyContent argNew) self

/-- `args_setArg`. -/
def setArg (arg : Arg) : Args := (updateArg self arg).getD (pushArg self arg)

/-- A store through the content pointer of the first node of a hash, which
takes a new type; none if the content is too short for it. -/
def overwrite (arg : Arg) (bytes : Bytes) (type : ArgType) : Option Args :=
  (arg.write bytes).bind fun arg' =>
    KeyedList.update Arg.nameHash arg.nameHash (fun _ => arg'.setType type) self

/-- `args_setInt`. -/
def setInt (name : CString) (val : BitVec 64) : Option Args :=
  match getArg signedChar self name with
  | none => some (pushArgName signedChar self name (Arg.newInt val))
  | some arg =>
    if arg.type ≠ .int then some (pushArgName signedChar self name (Arg.newInt val))
    else overwrite self arg (bytes64 val) arg.type

/-- `args_setPtrWithType`; `args_setPtr` is the type `pointer`. -/
def setPtrWithType (name : CString) (type : ArgType) (val : BitVec 64) : Option Args :=
  match getArg signedChar self name with
  | none => some (pushArgName signedChar self name (Arg.newPtr type val))
  | some arg => overwrite self arg (bytes64 val) type

/-- `arg_set` on no arg. -/
def newArg (name : CString) (type : ArgType) (content : Bytes) : Arg :=
  Arg.create (hashTime33 signedChar name) type content

/-- `args_setFloat`, the value as the bits of a `pika_float`. -/
def setFloat (name : CString) (val : BitVec 64) : Args :=
  setArg self (newArg signedChar name .float (bytes64 val))

/-- `args_setRef`, the count of the object apart. -/
def setRef (name : CString) (obj : BitVec 64) : Args :=
  setArg self (newArg signedChar name .object (bytes64 obj))

/-- `args_setStr`; no string is NULL. -/
def setStr (name : CString) : Option CString → Args × PikaRes
  | none => (self, .errInvalidPtr)
  | some str => (setArg self (newArg signedChar name .string (str ++ [0])), .ok)

/-- `args_setNone`. -/
def setNone (name : CString) : Args := setArg self (newArg signedChar name .none [])

/-- `args_setBytes`: the size, the bytes and a zero. -/
def setBytes (name : CString) (src : Bytes) : Args :=
  setArg self
    (newArg signedChar name .bytes (bytes64 (BitVec.ofNat 64 src.length) ++ src ++ [0]))

/-- `args_setStructWithSize`. -/
def setStruct (name : CString) : Option Bytes → Args × PikaRes
  | none => (self, .errArgNoFound)
  | some struct => (setArg self (newArg signedChar name .struct struct), .ok)

/-- `args_setHeapStructWithSize`: the function that deinitialises it comes first. -/
def setHeapStruct (name : CString) (deinitFun : BitVec 64) : Option Bytes → Args × PikaRes
  | none => (self, .errArgNoFound)
  | some struct =>
    (setArg self (newArg signedChar name .structHeap (bytes64 deinitFun ++ struct)), .ok)

/-- `args_removeArg` of what `args_getArg` finds. -/
def removeArg (name : CString) : Args × PikaRes :=
  match getArg signedChar self name with
  | none => (self, .errInvalidPtr)
  | some arg => (KeyedList.remove Arg.nameHash arg.nameHash self, .ok)

end Args

/-! ### A dictionary and its calls -/

inductive ArgsCall where
  | setInt (name : CString) (val : BitVec 64)
  | setFloat (name : CString) (val : BitVec 64)
  | setStr (name : CString) (str : Option CString)
  | setNone (name : CString)
  | setBytes (name : CString) (src : Bytes)
  | setPtr (name : CString) (type : ArgType) (val : BitVec 64)
  | setRef (name : CString) (obj : BitVec 64)
  | setStruct (name : CString) (struct : Option Bytes)
  | setHeapStruct (name : CString) (deinitFun : BitVec 64) (struct : Option Bytes)
  | setArg (arg : Arg)
  | removeArg (name : CString)

/-- The hash a call is about. -/
def ArgsCall.hash (signedChar : Bool) : ArgsCall → Hash
  | .setInt name _ | .setFloat name _ | .setStr name _ | .setNone name | .setBytes name _
  | .setPtr name _ _ | .setRef name _ | .setStruct name _ | .setHeapStruct name _ _
  | .removeArg name => hashTime33 signedChar name
  | .setArg arg => arg.nameHash

/-- The dictionary as its callers use it. A store past the end of a content is
not given a meaning. -/
def argsMachine (signedChar : Bool) : Machine ArgsCall Args PikaRes where
  step
    | .setInt name val, self => (self.setInt signedChar name val).map (·, .ok)
    | .setFloat name val, self => some (self.setFloat signedChar name val, .ok)
    | .setStr name str, self => some (self.setStr signedChar name str)
    | .setNone name, self => some (self.setNone signedChar name, .ok)
    | .setBytes name src, self => some (self.setBytes signedChar name src, .ok)
    | .setPtr name type val, self => (self.setPtrWithType signedChar name type val).map (·, .ok)
    | .setRef name obj, self => some (self.setRef signedChar name obj, .ok)
    | .setStruct name struct, self => some (self.setStruct signedChar name struct)
    | .setHeapStruct name deinitFun struct, self =>
      some (self.setHeapStruct signedChar name deinitFun struct)
    | .setArg arg, self => some (self.setArg arg, .ok)
    | .removeArg name, self => some (self.removeArg signedChar name)

namespace Args
variable {signedChar : Bool} {self self' : Args} {h : Hash}

/-- The hashes of the nodes, newest first. -/
def keys (self : Args) : List Hash := self.map Arg.nameHash

/-! ### What each call does -/

/-- `args'` is `args` with the entry of `h` changed in place. -/
structure Changes (args args' : Args) (h : Hash) : Prop where
  mem : h ∈ args.keys
  keys : args'.keys = args.keys
  frame : ∀ h', h' ≠ h → getArgHash args' h' = getArgHash args h'

/-- `args'` is `args` with a node of hash `h` in front. -/
structure Pushes (args args' : Args) (h : Hash) : Prop where
  keys : args'.keys = h :: args.keys
  frame : ∀ h', h' ≠ h → getArgHash args' h' = getArgHash args h'

/-- What a setter ought to do: push only what is not there. -/
def Sets (args args' : Args) (h : Hash) : Prop :=
  Changes args args' h ∨ h ∉ args.keys ∧ Pushes args args' h

/-- `args'` is `args` without the first node of hash `h`. -/
structure Removes (args args' : Args) (h : Hash) : Prop where
  mem : h ∈ args.keys
  keys : args'.keys = args.keys.erase h
  frame : ∀ h', h' ≠ h → getArgHash args' h' = getArgHash args h'

theorem getArgHash_isSome : (getArgHash self h).isSome ↔ h ∈ self.keys := KeyedList.lookup_isSome

theorem nameHash_of_getArgHash {arg : Arg} (hget : getArgHash self h = some arg) :
    arg.nameHash = h := KeyedList.key_of_lookup hget

theorem mem_of_getArgHash {arg : Arg} (hget : getArgHash self h = some arg) : h ∈ self.keys :=
  getArgHash_isSome.mp (hget ▸ rfl)

theorem not_mem_of_getArgHash (hget : getArgHash self h = none) : h ∉ self.keys :=
  KeyedList.lookup_eq_none.mp hget

/-- In-place changes keep the hash of the node. -/
theorem changes_of_update {f : Arg → Arg} (hf : ∀ arg, arg.nameHash = h → (f arg).nameHash = h)
    (hup : KeyedList.update Arg.nameHash h f self = some self') : Changes self self' h where
  mem := KeyedList.update_isSome.mp (Option.isSome_of_eq_some hup)
  keys := KeyedList.keys_update hf hup
  frame _ hne := KeyedList.lookup_update_ne hne hf hup

theorem pushArg_spec (self : Args) (arg : Arg) :
    Pushes self (pushArg self arg) arg.nameHash := by
  have hhash : (if arg.isSerialized then arg else arg.copy).nameHash = arg.nameHash := by
    split
    · rfl
    · exact arg.nameHash_copy
  refine ⟨?_, fun h' hne => ?_⟩
  · simp only [keys, pushArg, List.map_cons, hhash]
  · rw [getArgHash, pushArg, KeyedList.lookup_cons, hhash, if_neg hne.symm]
    rfl

/-- `args_setArg` pushes only what it finds no node for. -/
theorem setArg_spec (self : Args) (arg : Arg) :
    Sets self (setArg self arg) arg.nameHash := by
  unfold setArg
  cases hup : updateArg self arg with
  | some self' => exact .inl (changes_of_update (fun a _ => a.nameHash_copyContent arg) hup)
  | none =>
    exact .inr ⟨KeyedList.update_eq_none.mp hup, pushArg_spec self arg⟩

/-- What is found after `args_setArg` is of what was set. -/
theorem exists_getArgHash_setArg (self : Args) {arg : Arg} {v : Val} (harg : arg.Has v) :
    ∃ a, getArgHash (setArg self arg) arg.nameHash = some a ∧ a.Has v := by
  unfold setArg
  cases hup : updateArg self arg with
  | some self' =>
    obtain ⟨a, ha⟩ := Option.isSome_iff_exists.mp
      (KeyedList.lookup_isSome.mpr (KeyedList.update_isSome.mp (Option.isSome_of_eq_some hup)))
    exact ⟨_, KeyedList.lookup_update ha (a.nameHash_copyContent arg) hup,
      Arg.has_copyContent harg⟩
  | none =>
    have hpush : ∀ a : Arg, a.nameHash = arg.nameHash → a.Has v →
        ∃ b, getArgHash (a :: self) arg.nameHash = some b ∧ b.Has v := fun a hname ha =>
      ⟨a, by rw [getArgHash, KeyedList.lookup_cons, if_pos hname], ha⟩
    rw [Option.getD_none, pushArg]
    split
    · exact hpush arg rfl harg
    · exact hpush arg.copy arg.nameHash_copy (Arg.has_copy harg)

/-- `args_setArg` changes what is found under no other hash. -/
theorem getArgHash_setArg_of_ne {arg : Arg} (hne : h ≠ arg.nameHash) :
    getArgHash (setArg self arg) h = getArgHash self h := by
  rcases setArg_spec self arg with hchange | ⟨-, hpush⟩
  · exact hchange.frame h hne
  · exact hpush.frame h hne

theorem overwrite_spec {arg : Arg} {bytes : Bytes} {type : ArgType}
    (hget : getArgHash self h = some arg) (hset : overwrite self arg bytes type = some self') :
    Changes self self' h := by
  obtain ⟨arg', hwrite, hup⟩ := Option.bind_eq_some_iff.mp hset
  obtain rfl := nameHash_of_getArgHash hget
  have hkey : (arg'.setType type).nameHash = arg.nameHash := (Arg.write_eq_some hwrite).2.1
  exact changes_of_update (fun _ _ => hkey) hup

/-- A node whose content has room for the store can be overwritten. -/
theorem overwrite_isSome {arg : Arg} {bytes : Bytes} {type : ArgType}
    (hget : getArgHash self h = some arg) (hroom : bytes.length ≤ arg.content.length) :
    (overwrite self arg bytes type).isSome := by
  rw [overwrite, Arg.write, if_pos hroom, Option.bind_some, KeyedList.update_isSome]
  exact nameHash_of_getArgHash hget ▸ mem_of_getArgHash hget

theorem pushArgName_spec (signedChar : Bool) (self : Args) (name : CString) (arg : Arg) :
    Pushes self (pushArgName signedChar self name arg) (hashTime33 signedChar name) :=
  pushArg_spec self _

/-- `args_setPtrWithType` sets, if the store stays inside the content. -/
theorem setPtrWithType_spec {name : CString} {type : ArgType} {val : BitVec 64}
    (hset : setPtrWithType signedChar self name type val = some self') :
    Sets self self' (hashTime33 signedChar name) := by
  unfold setPtrWithType at hset
  split at hset
  · cases hset
    exact .inr ⟨not_mem_of_getArgHash ‹_›, pushArgName_spec ..⟩
  · exact .inl (overwrite_spec ‹_› hset)

/-- `args_setInt` sets, or pushes over an entry of another type. -/
theorem setInt_spec {name : CString} {val : BitVec 64}
    (hset : setInt signedChar self name val = some self') :
    Sets self self' (hashTime33 signedChar name) ∨
      (∃ arg, getArg signedChar self name = some arg ∧ arg.type ≠ .int) ∧
        Pushes self self' (hashTime33 signedChar name) := by
  unfold setInt at hset
  split at hset
  · cases hset
    exact .inl (.inr ⟨not_mem_of_getArgHash ‹_›, pushArgName_spec ..⟩)
  · rename_i arg hget
    split at hset
    · cases hset
      exact .inr ⟨⟨arg, hget, ‹_›⟩, pushArgName_spec ..⟩
    · exact .inl (.inl (overwrite_spec hget hset))

theorem removeArg_spec (signedChar : Bool) (self : Args) (name : CString) :
    Removes self (removeArg signedChar self name).1 (hashTime33 signedChar name) ∧
        (removeArg signedChar self name).2 = .ok ∨
      hashTime33 signedChar name ∉ self.keys ∧
        removeArg signedChar self name = (self, .errInvalidPtr) := by
  unfold removeArg
  split
  · exact .inr ⟨not_mem_of_getArgHash ‹_›, rfl⟩
  · rename_i arg hget
    refine .inl ⟨⟨mem_of_getArgHash hget, ?_, fun h' hne => ?_⟩, rfl⟩
    · rw [nameHash_of_getArgHash hget]
      exact KeyedList.keys_remove
    · rw [nameHash_of_getArgHash hget]
      exact KeyedList.lookup_remove_ne hne

/-- Whatever a call does, it does it to the entry of its hash. -/
theorem step_spec {call : ArgsCall} {res : PikaRes}
    (hstep : (argsMachine signedChar).step call self = some (self', res)) :
    Changes self self' (call.hash signedChar) ∨ Pushes self self' (call.hash signedChar) ∨
      Removes self self' (call.hash signedChar) ∨ self' = self := by
  have hsets {h : Hash} (hs : Sets self self' h) :
      Changes self self' h ∨ Pushes self self' h ∨ Removes self self' h ∨ self' = self :=
    hs.imp_right fun hp => .inl hp.2
  cases call with
  | setInt name val =>
    obtain ⟨_, hset, he⟩ := Option.map_eq_some_iff.mp hstep
    cases he
    exact (setInt_spec hset).elim hsets fun hp => .inr (.inl hp.2)
  | setPtr name type val =>
    obtain ⟨_, hset, he⟩ := Option.map_eq_some_iff.mp hstep
    cases he
    exact hsets (setPtrWithType_spec hset)
  | setStr name str | setStruct name struct | setHeapStruct name deinitFun struct =>
    cases ‹Option _› <;> cases hstep
    · exact .inr (.inr (.inr rfl))
    · exact hsets (setArg_spec self _)
  | setFloat | setNone | setBytes | setRef | setArg =>
    cases hstep
    exact hsets (setArg_spec self _)
  | removeArg name =>
    have he : removeArg signedChar self name = (self', res) := Option.some.inj hstep
    rcases removeArg_spec signedChar self name with ⟨hr, -⟩ | ⟨-, hkeep⟩
    · rw [he] at hr
      exact .inr (.inr (.inl hr))
    · exact .inr (.inr (.inr (congrArg Prod.fst (he.symm.trans hkeep))))

/-- What the dictionary is for: the set of hashes that are set. -/
def keySet (signedChar : Bool) : Machine ArgsCall (Finset Hash) PikaRes where
  step
    | .setStr _ none, K => some (K, .errInvalidPtr)
    | .setStruct _ none, K => some (K, .errArgNoFound)
    | .setHeapStruct _ _ none, K => some (K, .errArgNoFound)
    | .removeArg name, K =>
      if hashTime33 signedChar name ∈ K then some (K.erase (hashTime33 signedChar name), .ok)
      else some (K, .errInvalidPtr)
    | call, K => some (insert (call.hash signedChar) K, .ok)

/-- When a call is right: `args_setInt` finds no entry, or an int one with the
bytes of an int, and `args_setPtr` finds no entry, or one with room for a pointer. -/
def Fresh (signedChar : Bool) : ArgsCall → Args → Prop
  | .setInt name _, self => ∀ arg, getArg signedChar self name = some arg →
      arg.type = .int ∧ 8 ≤ arg.content.length
  | .setPtr name _ _, self => ∀ arg, getArg signedChar self name = some arg →
      8 ≤ arg.content.length
  | _, _ => True

/-- The list holds each hash of the set once. -/
structure Holds (args : Args) (K : Finset Hash) : Prop where
  nodup : args.keys.Nodup
  mem : ∀ h, h ∈ args.keys ↔ h ∈ K

variable {K : Finset Hash}

theorem Holds.sets (hold : Holds self K) (hs : Sets self self' h) : Holds self' (insert h K) := by
  rcases hs with hc | ⟨hnew, hp⟩
  · refine ⟨hc.keys ▸ hold.nodup, fun h' => ?_⟩
    rw [hc.keys, hold.mem, Finset.mem_insert]
    constructor
    · exact .inr
    · rintro (rfl | hmem)
      · exact (hold.mem _).mp hc.mem
      · exact hmem
  · refine ⟨?_, fun h' => ?_⟩
    · rw [hp.keys]
      exact List.nodup_cons.mpr ⟨hnew, hold.nodup⟩
    · rw [hp.keys, List.mem_cons, hold.mem, Finset.mem_insert]

theorem Holds.removes (hold : Holds self K) (hr : Removes self self' h) :
    Holds self' (K.erase h) := by
  refine ⟨hr.keys ▸ hold.nodup.erase h, fun h' => ?_⟩
  rw [hr.keys, hold.nodup.mem_erase_iff, hold.mem, Finset.mem_erase]

/-- Fresh calls keep the list a copy of the set. -/
def simulation (signedChar : Bool) :
    Simulation (argsMachine signedChar) (keySet signedChar) (Fresh signedChar) where
  Rel := Holds
  step call self K self' res hfresh hold hstep := by
    cases call with
    | setInt name val =>
      obtain ⟨_, hset, he⟩ := Option.map_eq_some_iff.mp hstep
      cases he
      refine ⟨_, rfl, hold.sets ?_⟩
      exact (setInt_spec hset).resolve_right fun ⟨⟨arg, hget, hint⟩, _⟩ =>
        hint (hfresh arg hget).1
    | setPtr name type val =>
      obtain ⟨_, hset, he⟩ := Option.map_eq_some_iff.mp hstep
      cases he
      exact ⟨_, rfl, hold.sets (setPtrWithType_spec hset)⟩
    | setStr name str | setStruct name struct | setHeapStruct name deinitFun struct =>
      cases ‹Option _› <;> cases hstep
      · exact ⟨K, rfl, hold⟩
      · exact ⟨_, rfl, hold.sets (setArg_spec self _)⟩
    | setFloat | setNone | setBytes | setRef | setArg =>
      cases hstep
      exact ⟨_, rfl, hold.sets (setArg_spec self _)⟩
    | removeArg name =>
      have he : removeArg signedChar self name = (self', res) := Option.some.inj hstep
      rcases removeArg_spec signedChar self name with ⟨hr, hok⟩ | ⟨hno, hkeep⟩
      · rw [he] at hr hok
        obtain rfl : res = .ok := hok
        exact ⟨_, if_pos ((hold.mem _).mp hr.mem), hold.removes hr⟩
      · cases he.symm.trans hkeep
        exact ⟨_, if_neg fun hmem => hno ((hold.mem _).mpr hmem), hold⟩

/-- Fresh calls have a meaning. -/
theorem step_isSome {call : ArgsCall} (hfresh : Fresh signedChar call self) :
    ((argsMachine signedChar).step call self).isSome := by
  cases call with
  | setInt name val =>
    simp only [argsMachine, Option.isSome_map]
    unfold setInt
    split
    · rfl
    · split
      · rfl
      · exact overwrite_isSome ‹_› (by simpa using (hfresh _ ‹_›).2)
  | setPtr name type val =>
    simp only [argsMachine, Option.isSome_map]
    unfold setPtrWithType
    split
    · rfl
    · exact overwrite_isSome ‹_› (by simpa using hfresh _ ‹_›)
  | _ => rfl

/-- What the dictionary promises after the calls `calls`, from an empty one. -/
structure UniqueLaw (signedChar : Bool) (calls : List ArgsCall) (args : Args) : Prop where
  /-- At most one node a hash. -/
  nodup : args.keys.Nodup
  /-- As many nodes as hashes are set. -/
  size : ∃ K answers, (keySet signedChar).run ∅ calls = some (K, answers) ∧
    (∀ h, h ∈ args.keys ↔ h ∈ K) ∧ args.getSize = K.card
  /-- What is removed is gone. -/
  removed : ∀ name, getArg signedChar (removeArg signedChar args name).1 name = none

/-- **Fresh calls keep one node a hash**: in every run whose calls are fresh, which
always has a meaning, the list is a copy of the set of hashes set. -/
theorem run_unique (signedChar : Bool) (calls : List ArgsCall)
    (hfresh : (argsMachine signedChar).Meets (Fresh signedChar) [] calls) :
    ∃ self answers, (argsMachine signedChar).run [] calls = some (self, answers) ∧
      UniqueLaw signedChar calls self := by
  obtain ⟨⟨self, answers⟩, hrun⟩ := Option.isSome_iff_exists.mp
    ((argsMachine signedChar).run_isSome_of_meets (fun _ _ => step_isSome) hfresh)
  have hempty : Holds [] ∅ := ⟨List.nodup_nil, fun h => by simp [keys]⟩
  obtain ⟨K, hK, hold⟩ := (simulation signedChar).run hempty hfresh hrun
  refine ⟨self, answers, hrun, hold.nodup, ⟨K, answers, hK, hold.mem, ?_⟩, fun name => ?_⟩
  · rw [show K = self.keys.toFinset from Finset.ext fun h => by simp [hold.mem],
      List.toFinset_card_of_nodup hold.nodup]
    simp [keys, getSize]
  · rcases removeArg_spec signedChar self name with ⟨hr, -⟩ | ⟨hno, hkeep⟩
    · refine KeyedList.lookup_eq_none.mpr ?_
      show _ ∉ keys _
      rw [hr.keys]
      exact hold.nodup.not_mem_erase
    · rw [hkeep]
      exact KeyedList.lookup_eq_none.mpr hno

/-- An int set, made a string and removed. -/
theorem run_unique_retyped : ∃ self answers,
    (argsMachine true).run [] [.setInt [97] 1, .setStr [97] (some [98]), .removeArg [97]] =
      some (self, answers) ∧
    UniqueLaw true [.setInt [97] 1, .setStr [97] (some [98]), .removeArg [97]] self :=
  run_unique true _ ⟨fun _ hget => (nomatch hget),
    fun _ _ _ => ⟨trivial, fun _ _ _ => ⟨trivial, fun _ _ _ => trivial⟩⟩⟩

/-- A string made an int has two nodes. -/
theorem not_unique_of_setInt :
    ¬∀ (signedChar : Bool) (calls : List ArgsCall) (self : Args) (answers : List PikaRes),
      (argsMachine signedChar).run [] calls = some (self, answers) →
      UniqueLaw signedChar calls self := by
  intro h
  have hlaw := h true [.setStr [97] (some [98]), .setInt [97] 1]
    [Arg.create 177670 .int (bytes64 1), Arg.create 177670 .string [98, 0]] [.ok, .ok]
    (by decide +kernel)
  exact absurd hlaw.nodup (by decide)

end Args

end PikaScript
