import PikaScript.Data.Args

/-! The frames that `pikaVM_run_ex` keeps.

What a `def` or a `class` has defined refers to the `ByteCodeFrame` of its source, so
`_cache_bytecodeframe` keeps that in the object it runs on: as a heap struct of the
object's list, under a name with a counter in it. The pointer it hands out is into
the arg of the list, and is good for as long as that arg stays where it is. The
counter is one `char` of the name, so there are 256 names, and a setter that finds a
frame under its hash deinitialises it. -/
namespace PikaScript

/-- `sizeof(ByteCodeFrame)`. -/
def sizeofByteCodeFrame : Nat := 104

/-- A `ByteCodeFrame`, as its bytes. -/
abbrev FrameBytes := { bytes : Bytes // bytes.length = sizeofByteCodeFrame }

/-- `ByteCodeFrame bytecode_frame_stack = {0}`. -/
def FrameBytes.zero : FrameBytes := ⟨List.replicate sizeofByteCodeFrame 0, List.length_replicate⟩

/-- An arg of a list, and where it is in memory. -/
structure ListNode where
  mem : Nat
  arg : Arg
deriving DecidableEq, Repr

def ListNode.nameHash (n : ListNode) : Hash := n.arg.nameHash

/-- A frame that has been handed out: the arg it is in, and what has been loaded into it. -/
structure HandedFrame where
  mem : Nat
  frame : FrameBytes
deriving DecidableEq, Repr

/-- What the target decides. -/
structure Target where
  signedChar : Bool
  /-- The memory taken the n-th time, when what is in use is known. -/
  malloc : Nat → List Nat → Nat
  malloc_fresh : ∀ n used, malloc n used ∉ used
  /-- The address of `byteCodeFrame_deinit`. -/
  byteCodeFrameDeinit : BitVec 64
  /-- A `pika_float` as an `int`. -/
  floatToInt : BitVec 64 → BitVec 64

/-- An object, as far as its list and the frames in it go. -/
structure FrameHost where
  list : List ListNode
  /-- How often memory has been taken. -/
  mallocs : Nat
  /-- The frames handed out, the last one first. -/
  handed : List HandedFrame
  /-- Those of them that have been deinitialised. -/
  deinited : List Nat
deriving DecidableEq, Repr

/-- The arg that a setter gives to `args_setArg`. -/
def ArgsCall.argNew (signedChar : Bool) : ArgsCall → Option Arg
  | .setFloat name val => some (Args.newArg signedChar name .float (bytes64 val))
  | .setStr name str => str.map fun str => Args.newArg signedChar name .string (str ++ [0])
  | .setNone name => some (Args.newArg signedChar name .none [])
  | .setBytes name src =>
    some (Args.newArg signedChar name .bytes (bytes64 (BitVec.ofNat 64 src.length) ++ src ++ [0]))
  | .setRef name obj => some (Args.newArg signedChar name .object (bytes64 obj))
  | .setStruct name struct => struct.map (Args.newArg signedChar name .struct)
  | .setHeapStruct name deinitFun struct =>
    struct.map fun struct => Args.newArg signedChar name .structHeap (bytes64 deinitFun ++ struct)
  | .setArg arg => some arg
  | .setInt _ _ | .setPtr _ _ _ | .removeArg _ => none

namespace FrameHost
variable (t : Target) (self : FrameHost)

/-! ### The list -/

/-- `args_getArg`. -/
def getArg (name : CString) : Option ListNode :=
  KeyedList.lookup ListNode.nameHash (hashTime33 t.signedChar name) self.list

/-- Memory for an arg. -/
def newMem : Nat := t.malloc self.mallocs (self.list.map ListNode.mem)

/-- `arg_deinitHeap` of an arg of the list. -/
def deinitHeap (n : ListNode) : FrameHost :=
  if n.arg.type == .structHeap && !n.arg.isWeakRef &&
      (self.handed.map HandedFrame.mem).contains n.mem then
    { self with deinited := n.mem :: self.deinited }
  else self

/-- `args_pushArg`. -/
def pushArg (arg : Arg) : FrameHost :=
  { self with
    list := ⟨self.newMem t, if arg.isSerialized then arg else arg.copy⟩ :: self.list
    mallocs := self.mallocs + 1 }

/-- `arg_copy_content` of an arg of the list, which moves if its content is too small. -/
def takeOver (argNew : Arg) (n : ListNode) : ListNode where
  mem := if argNew.content.length ≤ n.arg.content.length then n.mem else self.newMem t
  arg := n.arg.copyContent argNew

/-- The first node of a hash is changed. -/
def change (hash : Hash) (f : ListNode → ListNode) : FrameHost :=
  { self with
    list := (KeyedList.update ListNode.nameHash hash f self.list).getD self.list
    mallocs := self.mallocs + 1 }

/-- `args_setArg`, with `_updateArg`. -/
def setArg (arg : Arg) : FrameHost :=
  match KeyedList.lookup ListNode.nameHash arg.nameHash self.list with
  | none => self.pushArg t arg
  | some n => (self.deinitHeap n).change arg.nameHash (self.takeOver t arg)

/-- A store into the content of the first node of a hash, which takes a type. -/
def overwrite (n : ListNode) (bytes : Bytes) (type : ArgType) : Option FrameHost :=
  (n.arg.write bytes).map fun arg =>
    self.change n.nameHash fun n => { n with arg := arg.setType type }

/-- `args_setInt`. -/
def setInt (name : CString) (val : BitVec 64) : Option FrameHost :=
  let arg := (Arg.newInt val).setNameHash (hashTime33 t.signedChar name)
  match self.getArg t name with
  | none => some (self.pushArg t arg)
  | some n =>
    if n.arg.type ≠ .int then some (self.pushArg t arg)
    else self.overwrite n (bytes64 val) n.arg.type

/-- `args_setPtrWithType`. -/
def setPtrWithType (name : CString) (type : ArgType) (val : BitVec 64) : Option FrameHost :=
  match self.getArg t name with
  | none =>
    some (self.pushArg t ((Arg.newPtr type val).setNameHash (hashTime33 t.signedChar name)))
  | some n => self.overwrite n (bytes64 val) type

/-- `args_removeArg` of what `args_getArg` finds. -/
def removeArg (name : CString) : FrameHost :=
  match self.getArg t name with
  | none => self
  | some n =>
    { self.deinitHeap n with list := KeyedList.remove ListNode.nameHash n.nameHash self.list }

/-- A call on the list of the object. -/
def callArgs : ArgsCall → Option FrameHost
  | .setInt name val => self.setInt t name val
  | .setPtr name type val => self.setPtrWithType t name type val
  | .removeArg name => some (self.removeArg t name)
  | call => some ((call.argNew t.signedChar).elim self (self.setArg t))

/-! ### The frames -/

/-- "@bcn". -/
def bcnName : CString := [0x40, 0x62, 0x63, 0x6E]

/-- `args_getInt`; `_PIKA_INT_ERR` if there is none. -/
def getInt (name : CString) : BitVec 64 :=
  match self.getArg t name with
  | none => -999999999
  | some n =>
    match n.arg.type with
    | .int | .bool => n.arg.getInt
    | .float => t.floatToInt n.arg.getInt
    | _ => -999999999

/-- `bcn_str`: "@bc" and the `char` of the counter. -/
def bcnStr (bcn : BitVec 32) : CString :=
  let char : BitVec 8 := 0x30 + bcn.setWidth 8
  [0x40, 0x62, 0x63] ++ if char = 0 then [] else [char]

/-- The arg of a frame, from `arg_setHeapStruct`. -/
def frameArg (name : CString) : Arg :=
  Args.newArg t.signedChar name .structHeap
    (bytes64 t.byteCodeFrameDeinit ++ FrameBytes.zero.val)

/-- The counter is created. -/
def startCount : Option FrameHost :=
  if (self.getArg t bcnName).isSome then some self else self.setInt t bcnName 0

/-- `_cache_bytecodeframe`. -/
def cacheBytecodeframe : Option FrameHost := do
  let self ← self.startCount t
  let bcn := (self.getInt t bcnName).setWidth 32
  let self := self.setArg t (frameArg t (bcnStr bcn))
  let n ← self.getArg t (bcnStr bcn)
  let self := { self with handed := ⟨n.mem, .zero⟩ :: self.handed }
  self.setInt t bcnName ((bcn + 1).signExtend 64)

/-- A frame is stored in the heap struct of an arg. -/
def store (frame : FrameBytes) (n : ListNode) : ListNode :=
  { n with arg.content := n.arg.content.take 8 ++ frame.val ++
      n.arg.content.drop (8 + sizeofByteCodeFrame) }

/-- The last frame handed out is loaded, through the pointer. -/
def load (frame : FrameBytes) : FrameHost :=
  match self.handed with
  | [] => self
  | last :: handed =>
    { self with
      list := (KeyedList.update ListNode.mem last.mem (store frame) self.list).getD self.list
      handed := { last with frame := frame } :: handed }

/-- `strstr` finds it. -/
def strstr (lines sub : CString) : Bool := lines.tails.any sub.isPrefixOf

/-- The test of `_cache_bcf_fn`: "def " or "class ". -/
def holdsDef (lines : CString) : Bool :=
  strstr lines [0x64, 0x65, 0x66, 0x20] || strstr lines [0x63, 0x6C, 0x61, 0x73, 0x73, 0x20]

/-- `pikaVM_run_ex` up to the run of the byte code, which is `frame`. -/
def runLines (lines : CString) (frame : FrameBytes) : Option FrameHost :=
  if holdsDef lines then (self.cacheBytecodeframe t).map (·.load frame) else some self

end FrameHost

/-- What happens to the object: a source is run, and what runs calls the functions of the
list. -/
inductive FrameCall where
  | run (lines : CString) (frame : FrameBytes)
  | args (call : ArgsCall)

def frameMachine (t : Target) : Machine FrameCall FrameHost Unit where
  step
    | .run lines frame, self => (self.runLines t lines frame).map (·, ())
    | .args call, self => (self.callArgs t call).map (·, ())

namespace FrameHost

/-- An object with nothing in it. -/
def init : FrameHost := ⟨[], 0, [], []⟩

/-- The arg is where the frame was handed out, and is the heap struct of it. -/
def Keeps (t : Target) (n : ListNode) (f : HandedFrame) : Prop :=
  n.mem = f.mem ∧ n.arg.Has ⟨.structHeap, bytes64 t.byteCodeFrameDeinit ++ f.frame.val⟩

/-- **What is claimed**: every frame handed out is valid and unchanged where it was handed out,
and no other is there. -/
structure FramesLaw (t : Target) (host : FrameHost) : Prop where
  kept : ∀ f ∈ host.handed, ∃ n ∈ host.list, Keeps t n f
  distinct : (host.handed.map HandedFrame.mem).Nodup
  deinited : host.deinited = []

/-- The counter that the next frame is named by. -/
def bcn (t : Target) (self : FrameHost) : BitVec 32 :=
  if (self.getArg t bcnName).isSome then (self.getInt t bcnName).setWidth 32 else 0

/-- What is found is no frame that has been handed out. -/
def NoFrame (self : FrameHost) (hash : Hash) : Prop :=
  ∀ n ∈ KeyedList.lookup ListNode.nameHash hash self.list,
    n.mem ∉ self.handed.map HandedFrame.mem

/-- When the frames are safe: the next name is not that of a frame, and no other setter finds one
under its hash. `args_setInt` puts an int in front of a frame, and so spares it. -/
def Spares (t : Target) : FrameCall → FrameHost → Prop
  | .run lines _, self =>
    holdsDef lines = true → self.NoFrame (hashTime33 t.signedChar (bcnStr (self.bcn t)))
  | .args (.setInt _ _), _ => True
  | .args (.setPtr name _ _), self | .args (.removeArg name), self =>
    self.NoFrame (hashTime33 t.signedChar name)
  | .args call, self => ∀ arg ∈ call.argNew t.signedChar, self.NoFrame arg.nameHash

/-! ### The invariant -/

/-- The invariant of a run: the law, and no two args are in the same place. -/
structure Inv (t : Target) (host : FrameHost) : Prop extends FramesLaw t host where
  mems : (host.list.map ListNode.mem).Nodup

variable {t : Target} {self self' : FrameHost} {hash : Hash}

theorem inv_init : Inv t init where
  kept _ hf := absurd hf List.not_mem_nil
  distinct := List.nodup_nil
  deinited := rfl
  mems := List.nodup_nil

theorem newMem_fresh (self : FrameHost) : self.newMem t ∉ self.list.map ListNode.mem :=
  t.malloc_fresh _ _

/-- A frame handed out is in the list. -/
theorem Inv.mem_of_handed (h : Inv t self) {mem : Nat}
    (hm : mem ∈ self.handed.map HandedFrame.mem) : mem ∈ self.list.map ListNode.mem := by
  obtain ⟨f, hf, rfl⟩ := List.mem_map.mp hm
  obtain ⟨n, hn, hmem, -⟩ := h.kept f hf
  exact hmem ▸ List.mem_map_of_mem hn

/-- An arg that is not a heap struct is no frame. -/
theorem Inv.not_handed (h : Inv t self) {n : ListNode} (hn : n ∈ self.list)
    (htype : n.arg.type ≠ .structHeap) : n.mem ∉ self.handed.map HandedFrame.mem := by
  intro hm
  obtain ⟨f, hf, hmem⟩ := List.mem_map.mp hm
  obtain ⟨n', hn', hmem', hhas⟩ := h.kept f hf
  have heq : n' = n := List.inj_on_of_nodup_map h.mems hn' hn (hmem'.trans hmem)
  exact htype (heq ▸ hhas.1)

/-- A new arg in front. -/
theorem Inv.push (h : Inv t self) (arg : Arg) : Inv t (self.pushArg t arg) where
  kept f hf := by
    obtain ⟨n, hn, hkeeps⟩ := h.kept f hf
    exact ⟨n, List.mem_cons_of_mem _ hn, hkeeps⟩
  distinct := h.distinct
  deinited := h.deinited
  mems := List.nodup_cons.mpr ⟨newMem_fresh self, h.mems⟩

/-- An arg that is no frame is changed, in its place or in a new one. -/
theorem Inv.change (h : Inv t self) {f : ListNode → ListNode} {n : ListNode}
    (hn : KeyedList.lookup ListNode.nameHash hash self.list = some n)
    (hframe : n.mem ∉ self.handed.map HandedFrame.mem)
    (hmem : (f n).mem = n.mem ∨ (f n).mem ∉ self.list.map ListNode.mem) :
    Inv t (self.change hash f) := by
  obtain ⟨list', hup, hperm'⟩ := KeyedList.perm_update (f := f) hn
  have hperm := KeyedList.perm_remove hn
  have hmems := (hperm.map ListNode.mem).nodup_iff.mp h.mems
  rw [List.map_cons, List.nodup_cons] at hmems
  unfold FrameHost.change
  rw [hup]
  refine ⟨⟨fun g hg => ?_, h.distinct, h.deinited⟩, ?_⟩
  · obtain ⟨n', hn', hkeeps⟩ := h.kept g hg
    refine ⟨n', hperm'.mem_iff.mpr (List.mem_cons_of_mem _ ?_), hkeeps⟩
    refine (List.mem_cons.mp (hperm.mem_iff.mp hn')).resolve_left fun heq => hframe ?_
    exact heq ▸ hkeeps.1 ▸ List.mem_map_of_mem hg
  · refine (hperm'.map ListNode.mem).nodup_iff.mpr (List.nodup_cons.mpr ⟨?_, hmems.2⟩)
    rcases hmem with heq | hfresh
    · exact heq ▸ hmems.1
    · exact fun hin => hfresh ((hperm.map ListNode.mem).mem_iff.mpr (List.mem_cons_of_mem _ hin))

/-- Nothing is deinitialised with an arg that is no frame. -/
theorem deinitHeap_eq {n : ListNode} (hframe : n.mem ∉ self.handed.map HandedFrame.mem) :
    self.deinitHeap n = self := by
  unfold deinitHeap
  rw [if_neg]
  simp only [Bool.and_eq_true, List.contains_iff_mem, not_and]
  exact fun _ => hframe

theorem Inv.setArg (h : Inv t self) {arg : Arg} (hspare : self.NoFrame arg.nameHash) :
    Inv t (self.setArg t arg) := by
  unfold FrameHost.setArg
  split
  · exact h.push arg
  · rename_i n hn
    rw [deinitHeap_eq (hspare n hn)]
    refine h.change hn (hspare n hn) ?_
    unfold takeOver
    dsimp only
    split
    · exact .inl rfl
    · exact .inr (newMem_fresh self)

theorem Inv.overwrite (h : Inv t self) {n : ListNode} {bytes : Bytes} {type : ArgType}
    (hn : KeyedList.lookup ListNode.nameHash hash self.list = some n)
    (hframe : n.mem ∉ self.handed.map HandedFrame.mem)
    (hset : self.overwrite n bytes type = some self') : Inv t self' := by
  obtain ⟨arg, -, rfl⟩ := Option.map_eq_some_iff.mp hset
  have hkey : n.nameHash = hash := KeyedList.key_of_lookup hn
  exact h.change (hkey ▸ hn) hframe (.inl rfl)

/-- `args_setInt` never changes a frame. -/
theorem Inv.setInt (h : Inv t self) {name : CString} {val : BitVec 64}
    (hset : self.setInt t name val = some self') : Inv t self' := by
  unfold FrameHost.setInt at hset
  split at hset
  · cases hset
    exact h.push _
  · rename_i n hn
    split at hset
    · cases hset
      exact h.push _
    · rename_i hint
      have hmem : n ∈ self.list := List.mem_of_find?_eq_some hn
      refine h.overwrite hn (h.not_handed hmem fun htype => hint fun heq => ?_) hset
      cases heq.symm.trans htype

theorem Inv.removeArg (h : Inv t self) {name : CString}
    (hspare : self.NoFrame (hashTime33 t.signedChar name)) : Inv t (self.removeArg t name) := by
  unfold FrameHost.removeArg
  split
  · exact h
  · rename_i n hn
    have hkey : n.nameHash = _ := KeyedList.key_of_lookup hn
    have hperm := KeyedList.perm_remove hn
    rw [deinitHeap_eq (hspare n hn), hkey]
    refine ⟨⟨fun g hg => ?_, h.distinct, h.deinited⟩, ?_⟩
    · obtain ⟨n', hn', hkeeps⟩ := h.kept g hg
      refine ⟨n', (List.mem_cons.mp (hperm.mem_iff.mp hn')).resolve_left fun heq => ?_, hkeeps⟩
      exact hspare n hn (heq ▸ hkeeps.1 ▸ List.mem_map_of_mem hg)
    · exact (List.nodup_cons.mp ((hperm.map ListNode.mem).nodup_iff.mp h.mems)).2

/-- A call on the list keeps the invariant, if it finds no frame. -/
theorem Inv.callArgs (h : Inv t self) {call : ArgsCall} (hspare : Spares t (.args call) self)
    (hcall : self.callArgs t call = some self') : Inv t self' := by
  have hset (hs : ∀ arg ∈ call.argNew t.signedChar, self.NoFrame arg.nameHash) :
      Inv t ((call.argNew t.signedChar).elim self (self.setArg t)) := by
    cases harg : call.argNew t.signedChar with
    | none => exact h
    | some arg => exact h.setArg (hs arg harg)
  cases call with
  | setInt name val => exact h.setInt hcall
  | setPtr name type val =>
    change self.setPtrWithType t name type val = _ at hcall
    unfold setPtrWithType at hcall
    split at hcall
    · cases hcall
      exact h.push _
    · exact h.overwrite ‹_› (hspare _ ‹_›) hcall
  | removeArg name =>
    cases hcall
    exact h.removeArg hspare
  | setFloat | setStr | setNone | setBytes | setRef | setStruct | setHeapStruct | setArg =>
    cases hcall
    exact hset hspare

/-! ### A frame is handed out -/

/-- The arg that is put in front. -/
def front (t : Target) (self : FrameHost) (arg : Arg) : ListNode :=
  ⟨self.newMem t, if arg.isSerialized then arg else arg.copy⟩

theorem lookup_pushArg (self : FrameHost) (arg : Arg) (hash : Hash) :
    KeyedList.lookup ListNode.nameHash hash (self.pushArg t arg).list =
      if arg.nameHash = hash then some (front t self arg)
      else KeyedList.lookup ListNode.nameHash hash self.list := by
  have hkey : (front t self arg).nameHash = arg.nameHash := by
    simp only [front, ListNode.nameHash]
    split
    · rfl
    · exact arg.nameHash_copy
  rw [← hkey]
  exact KeyedList.lookup_cons (front t self arg)

theorem has_front {arg : Arg} {v : Val} (h : arg.Has v) : (front t self arg).arg.Has v := by
  unfold front
  dsimp only
  split
  · exact h
  · exact Arg.has_copy h

theorem Inv.newMem_not_handed (h : Inv t self) :
    self.newMem t ∉ self.handed.map HandedFrame.mem :=
  fun hm => newMem_fresh self (h.mem_of_handed hm)

theorem NoFrame.push (h : Inv t self) (hn : self.NoFrame hash) (arg : Arg) :
    (self.pushArg t arg).NoFrame hash := by
  intro n hget
  rw [lookup_pushArg] at hget
  split at hget
  · cases hget
    exact h.newMem_not_handed
  · exact hn n hget

theorem handed_setArg {arg : Arg} (hspare : self.NoFrame arg.nameHash) :
    (self.setArg t arg).handed = self.handed := by
  unfold FrameHost.setArg
  split
  · rfl
  · rename_i n hn
    rw [deinitHeap_eq (hspare n hn)]
    rfl

/-- What is found after `args_setArg` holds what was set, and is no frame. -/
theorem Inv.found_setArg (h : Inv t self) {arg : Arg} {v : Val} {n : ListNode}
    (hspare : self.NoFrame arg.nameHash) (hv : arg.Has v)
    (hget : KeyedList.lookup ListNode.nameHash arg.nameHash (self.setArg t arg).list = some n) :
    n.arg.Has v ∧ n.mem ∉ self.handed.map HandedFrame.mem := by
  unfold FrameHost.setArg at hget
  split at hget
  · rw [lookup_pushArg, if_pos rfl] at hget
    cases hget
    exact ⟨has_front hv, h.newMem_not_handed⟩
  · rename_i n' hn'
    obtain ⟨list', hup, -⟩ := KeyedList.perm_update (f := self.takeOver t arg) hn'
    rw [deinitHeap_eq (hspare n' hn'), FrameHost.change, hup] at hget
    have hkey : (self.takeOver t arg n').nameHash = arg.nameHash :=
      n'.arg.nameHash_copyContent arg
    cases (KeyedList.lookup_update hn' hkey hup).symm.trans hget
    refine ⟨Arg.has_copyContent hv, ?_⟩
    unfold takeOver
    dsimp only
    split
    · exact hspare n' hn'
    · exact h.newMem_not_handed

theorem getInt_of_has {name : CString} {n : ListNode} {val : BitVec 64}
    (hget : self.getArg t name = some n) (h : n.arg.Has ⟨.int, bytes64 val⟩) :
    self.getInt t name = val := by
  have htype : n.arg.type = .int := h.1
  simp only [FrameHost.getInt, hget, htype]
  exact Arg.getInt_of_prefix h.2

/-- The counter before and after it is created. -/
theorem bcn_of_startCount {self₁ : FrameHost} (hcount : self.startCount t = some self₁) :
    (self₁ = self ∨ ∃ arg, self₁ = self.pushArg t arg) ∧
      (self₁.getInt t bcnName).setWidth 32 = self.bcn t := by
  unfold startCount at hcount
  split at hcount
  · rename_i hsome
    cases hcount
    exact ⟨.inl rfl, (if_pos hsome).symm⟩
  · rename_i hnone
    rw [Option.not_isSome_iff_eq_none] at hnone
    unfold FrameHost.setInt at hcount
    rw [hnone] at hcount
    cases hcount
    refine ⟨.inr ⟨_, rfl⟩, ?_⟩
    have hbcn : self.bcn t = 0 := if_neg (by simp [hnone])
    rw [hbcn]
    rw [getInt_of_has ((lookup_pushArg ..).trans (if_pos rfl)) (has_front (Arg.has_ofArg _))]
    rfl

/-- An arg that holds a frame is handed out. -/
theorem Inv.handOut (h : Inv t self) {f : HandedFrame} {n : ListNode} (hn : n ∈ self.list)
    (hkeeps : Keeps t n f) (hnew : f.mem ∉ self.handed.map HandedFrame.mem) :
    Inv t { self with handed := f :: self.handed } where
  kept g hg := by
    rcases List.mem_cons.mp hg with rfl | hg
    · exact ⟨n, hn, hkeeps⟩
    · exact h.kept g hg
  distinct := List.nodup_cons.mpr ⟨hnew, h.distinct⟩
  deinited := h.deinited
  mems := h.mems

/-- A new frame is in an arg of its own. -/
theorem Inv.cacheBytecodeframe (h : Inv t self)
    (hspare : self.NoFrame (hashTime33 t.signedChar (bcnStr (self.bcn t))))
    (hcache : self.cacheBytecodeframe t = some self') : Inv t self' := by
  unfold FrameHost.cacheBytecodeframe at hcache
  obtain ⟨self₁, hcount, hcache⟩ := Option.bind_eq_some_iff.mp hcache
  obtain ⟨hself₁, hbcn⟩ := bcn_of_startCount hcount
  rw [hbcn] at hcache
  have h₁ : Inv t self₁ ∧ self₁.NoFrame (hashTime33 t.signedChar (bcnStr (self.bcn t))) := by
    rcases hself₁ with rfl | ⟨arg, rfl⟩
    · exact ⟨h, hspare⟩
    · exact ⟨h.push arg, hspare.push h arg⟩
  obtain ⟨n, hget, hcache⟩ := Option.bind_eq_some_iff.mp hcache
  have hfound := h₁.1.found_setArg h₁.2 (Arg.has_ofArg (frameArg t (bcnStr (self.bcn t)))) hget
  have hhanded : (self₁.setArg t (frameArg t (bcnStr (self.bcn t)))).handed = self₁.handed :=
    handed_setArg h₁.2
  have hinv := (h₁.1.setArg h₁.2).handOut (List.mem_of_find?_eq_some hget)
    (show Keeps t n ⟨n.mem, .zero⟩ from ⟨rfl, hfound.1⟩) (hhanded.symm ▸ hfound.2)
  exact hinv.setInt hcache

/-- What is stored is the frame that the arg keeps. -/
theorem keeps_store {n : ListNode} {f : HandedFrame} (h : Keeps t n f) (frame : FrameBytes) :
    Keeps t (store frame n) { f with frame := frame } := by
  obtain ⟨hmem, htype, rest, hrest⟩ := h
  refine ⟨hmem, htype, n.arg.content.drop (8 + sizeofByteCodeFrame), ?_⟩
  have htake : n.arg.content.take 8 = bytes64 t.byteCodeFrameDeinit := by
    rw [← hrest, List.append_assoc, List.take_append_of_le_length (by simp)]
    exact List.take_of_length_le (by simp)
  rw [← htake]
  rfl

/-- Loading a frame changes no other. -/
theorem Inv.load (h : Inv t self) (frame : FrameBytes) : Inv t (self.load frame) := by
  unfold FrameHost.load
  split
  · exact h
  · rename_i last handed hhanded
    have hdistinct := h.distinct
    rw [hhanded, List.map_cons, List.nodup_cons] at hdistinct
    obtain ⟨n, hn, hkeeps⟩ := h.kept last (hhanded ▸ List.mem_cons_self)
    have hget : KeyedList.lookup ListNode.mem last.mem self.list = some n :=
      hkeeps.1 ▸ KeyedList.lookup_of_mem h.mems hn
    obtain ⟨list', hup, hperm'⟩ := KeyedList.perm_update (f := store frame) hget
    have hperm := KeyedList.perm_remove hget
    rw [hup]
    refine ⟨⟨fun f hf => ?_, List.nodup_cons.mpr hdistinct, h.deinited⟩, ?_⟩
    · rcases List.mem_cons.mp hf with rfl | hf
      · exact ⟨_, hperm'.mem_iff.mpr List.mem_cons_self, keeps_store hkeeps frame⟩
      · obtain ⟨n', hn', hkeeps'⟩ := h.kept f (hhanded ▸ List.mem_cons_of_mem _ hf)
        refine ⟨n', hperm'.mem_iff.mpr (List.mem_cons_of_mem _ ?_), hkeeps'⟩
        refine (List.mem_cons.mp (hperm.mem_iff.mp hn')).resolve_left fun heq => hdistinct.1 ?_
        rw [← hkeeps.1, ← heq, hkeeps'.1]
        exact List.mem_map_of_mem hf
    · rw [Option.getD_some, (hperm'.map ListNode.mem).nodup_iff]
      exact (hperm.map ListNode.mem).nodup_iff.mp h.mems

/-- **One step keeps the invariant**, if it spares the frames. -/
theorem Inv.step (h : Inv t self) {call : FrameCall} {o : Unit} (hspare : Spares t call self)
    (hstep : (frameMachine t).step call self = some (self', o)) : Inv t self' := by
  cases call with
  | run lines frame =>
    obtain ⟨self₁, hrun, heq⟩ := Option.map_eq_some_iff.mp hstep
    cases heq
    unfold runLines at hrun
    split at hrun
    · obtain ⟨self₂, hcache, rfl⟩ := Option.map_eq_some_iff.mp hrun
      exact (h.cacheBytecodeframe (hspare ‹_›) hcache).load frame
    · cases hrun
      exact h
  | args call =>
    obtain ⟨self₁, hcall, heq⟩ := Option.map_eq_some_iff.mp hstep
    cases heq
    exact h.callArgs hspare hcall

/-- **Every frame handed out stays as it is**, in every run whose steps spare the frames. -/
theorem run_keeps_frames (t : Target) (calls : List FrameCall) (host : FrameHost)
    (os : List Unit) (hspare : (frameMachine t).Meets (Spares t) init calls)
    (hrun : (frameMachine t).run init calls = some (host, os)) : FramesLaw t host :=
  ((frameMachine t).run_invariant_of_meets (fun _ _ _ _ hC hs hstep => hs.step hC hstep)
    inv_init hspare hrun).toFramesLaw

/-- A target whose memory is taken from the top. -/
def topTarget : Target where
  signedChar := true
  malloc _ used := used.max?.getD 0 + 1
  malloc_fresh _ _ hmem := Nat.not_succ_le_self _ (List.le_max?_getD_of_mem hmem)
  byteCodeFrameDeinit := 0x4000
  floatToInt _ := 0

/-- "def f". -/
def sourceDef : CString := [0x64, 0x65, 0x66, 0x20, 0x66]

/-- A frame of one byte over and over. -/
def frameOf (byte : BitVec 8) : FrameBytes :=
  ⟨List.replicate sizeofByteCodeFrame byte, List.length_replicate⟩

instance (host : FrameHost) (hash : Hash) : Decidable (host.NoFrame hash) :=
  inferInstanceAs (Decidable (∀ n ∈ KeyedList.lookup ListNode.nameHash hash host.list, _))

instance (t : Target) : ∀ call host, Decidable (Spares t call host)
  | .run lines _, host => inferInstanceAs (Decidable (holdsDef lines = true → host.NoFrame _))
  | .args (.setInt _ _), _ => .isTrue trivial
  | .args (.setPtr _ _ _), host | .args (.removeArg _), host =>
    inferInstanceAs (Decidable (host.NoFrame _))
  | .args (.setFloat _ _), host | .args (.setStr _ _), host | .args (.setNone _), host
  | .args (.setBytes _ _), host | .args (.setRef _ _), host | .args (.setStruct _ _), host
  | .args (.setHeapStruct _ _ _), host | .args (.setArg _), host =>
    inferInstanceAs (Decidable (∀ arg ∈ ArgsCall.argNew t.signedChar _, host.NoFrame _))

/-- Two sources with a def. -/
theorem run_keeps_frames_two : ∃ host os,
    (frameMachine topTarget).run init [.run sourceDef (frameOf 1), .run sourceDef (frameOf 2)] =
      some (host, os) ∧ FramesLaw topTarget host := by
  have hrun : ((frameMachine topTarget).run init
      [.run sourceDef (frameOf 1), .run sourceDef (frameOf 2)]).isSome := by decide +kernel
  obtain ⟨⟨host, os⟩, hrun⟩ := Option.isSome_iff_exists.mp hrun
  exact ⟨host, os, hrun, run_keeps_frames topTarget _ host os (by decide +kernel) hrun⟩

/-- The 257th frame is in the place of the first. -/
theorem not_keeps_frames :
    ¬∀ (t : Target) (calls : List FrameCall) (host : FrameHost) (os : List Unit),
      (frameMachine t).run init calls = some (host, os) → FramesLaw t host := by
  intro hall
  have hrun : ((frameMachine topTarget).run init
      (List.replicate 257 (.run sourceDef (frameOf 1)))).map (·.1.deinited) = some [2] := by
    decide +kernel
  obtain ⟨⟨host, os⟩, hrun, hdeinited⟩ := Option.map_eq_some_iff.mp hrun
  have hlaw := hall topTarget _ host os hrun
  rw [hlaw.deinited] at hdeinited
  cases hdeinited

end FrameHost

end PikaScript
