import PikaScript.Data.Args
import PikaScript.Lib.LinkedHeap
import PikaScript.Lib.OrderedMap
import PikaScript.Memory.ArgCache

/-! The list under the dictionary of `dataArgs.c`, in memory.

The nodes of an `Args` are the args themselves, each with a `next` pointer, so a
setter that needs more room for a content has to hang the new node in where the old
one was. The loops below are those of `dataArgs.c` and `dataLink.c`; a loop that the
code leaves only by `break` has as many turns as there can be nodes, and a step
through a null or a freed pointer gives none. What a node's object is told when an
arg is copied or freed is left out. -/
namespace PikaScript
open LinkedHeap

abbrev ArgHeap := LinkedHeap.Heap Arg

/-- An arg in memory. -/
abbrev ArgCell := LinkedHeap.Cell Arg

abbrev ArgMalloc := LinkedHeap.Malloc Arg

/-- An `Args`: its `firstNode`, and the memory that its nodes are in. -/
structure ArgList where
  firstNode : Nat
  heap : ArgHeap

/-! ### Args in memory -/

/-- A content that has a block with its header: `heap_size`, aligned, is a `uint32_t`. -/
def FitsBlock (content : Bytes) : Prop := sizeofArgBlock + content.length + 3 < 2 ^ 32

instance (content : Bytes) : Decidable (FitsBlock content) := inferInstanceAs (Decidable (_ < _))

namespace ArgHeap
variable (malloc : ArgMalloc) (heap : ArgHeap)

/-- `arg_create_hash`, where the arg is written whole. The bytes of a content that is too large
are written behind the block. -/
def argCreateHash (cell : ArgCell) : Option (Nat × ArgHeap) :=
  if FitsBlock cell.value.content then some (heap.alloc malloc cell) else none

/-- `arg_setContent`. -/
def argSetContent (self : Nat) (content : Bytes) : Option (Nat × ArgHeap) :=
  if self = 0 then argCreateHash malloc heap ⟨Arg.create 5381 .none content, 0⟩
  else do
    let cell ← heap.cells self
    if content.length ≤ cell.value.content.length then
      let heap ← heap.modify self (·.setContent content)
      return (self, heap)
    else
      let (newContent, heap) ← argCreateHash malloc heap
        ⟨Arg.create cell.value.nameHash cell.value.type content, cell.next⟩
      let heap ← heap.free self
      return (newContent, heap)

/-- `arg_copy_content`. -/
def argCopyContent (argDict argSrc : Nat) : Option (Nat × ArgHeap) := do
  let src ← heap.cells argSrc
  let (argDict, heap) ← argSetContent malloc heap argDict src.value.content
  let src ← heap.cells argSrc
  let heap ← heap.modify argDict fun arg =>
    (((arg.setNameHash src.value.nameHash).setType src.value.type).setFlag Arg.flagKeyword
      src.value.isKeyword).setFlag Arg.flagWeakRef src.value.isWeakRef
  return (argDict, heap)

/-- `arg_copy`: `New_arg` is NULL. -/
def argCopy (argSrc : Nat) : Option (Nat × ArgHeap) := argCopyContent malloc heap 0 argSrc

/-- The `arg_freeContent` of what is on the heap. -/
def freeSerialized (arg : Nat) : Option ArgHeap :=
  (heap.cells arg).bind fun cell =>
    if cell.value.isSerialized then heap.free arg else some heap

end ArgHeap

namespace ArgList
variable (malloc : ArgMalloc) (self : ArgList)

/-- The turns that a loop over the nodes may take. -/
def turns : Nat := self.heap.bound + 1

/-! ### `dataLink.c` -/

/-- `link_addNode`. -/
def linkAddNode (content : Nat) : Option ArgList :=
  (self.heap.setNext content self.firstNode).map fun heap => ⟨content, heap⟩

/-- The loop of `_link_removeNode`: the node before `content`. -/
def findPrior (heap : ArgHeap) (content : Nat) : Nat → Nat → Nat → Option (Option Nat)
  | 0, _, _ => none
  | turns + 1, priorNode, nodeNow =>
    if nodeNow = content then some (some priorNode)
    else if nodeNow = 0 then some none
    else (heap.cells nodeNow).bind fun cell => findPrior heap content turns nodeNow cell.next

/-- `link_removeNode`. A node that is not found is dereferenced all the same. -/
def linkRemoveNode (content : Nat) : Option ArgList := do
  let priorNode ← (← findPrior self.heap content self.turns 0 self.firstNode)
  let nodeToDelete ← self.heap.cells content
  let firstNode := if content = self.firstNode then nodeToDelete.next else self.firstNode
  if priorNode = 0 then
    let heap ← ArgHeap.freeSerialized self.heap content
    return ⟨nodeToDelete.next, heap⟩
  else
    let heap ← self.heap.setNext priorNode nodeToDelete.next
    let heap ← ArgHeap.freeSerialized heap content
    return ⟨firstNode, heap⟩

/-- The loop of `link_getSize`, whose count is an `int32_t`. -/
def sizeFrom (heap : ArgHeap) : Nat → Nat → Int → Option Int
  | 0, _, _ => none
  | turns + 1, nowNode, size =>
    if nowNode = 0 then some size
    else (heap.cells nowNode).bind fun cell => sizeFrom heap turns cell.next (s32 (size + 1))

/-- `args_getSize`, through `link_getSize`. -/
def getSize : Option Int := sizeFrom self.heap self.turns self.firstNode 0

/-! ### `dataArgs.c` -/

/-- `args_pushArg`. -/
def pushArg (arg : Nat) : Option ArgList := do
  let cell ← self.heap.cells arg
  if cell.value.isSerialized then linkAddNode self arg
  else
    let (newArg, heap) ← ArgHeap.argCopy malloc self.heap arg
    linkAddNode { self with heap := heap } newArg

/-- The loop of `_updateArg`: the node before that of the hash, and that node. -/
def findUpdate (heap : ArgHeap) (nameHash : Hash) : Nat → Nat → Nat → Option (Option (Nat × Nat))
  | 0, _, _ => none
  | turns + 1, priorNode, nodeNow => (heap.cells nodeNow).bind fun cell =>
    if cell.value.nameHash = nameHash then some (some (priorNode, nodeNow))
    else if cell.next = 0 then some none
    else findUpdate heap nameHash turns nodeNow cell.next

/-- `_updateArg`. -/
def updateArg (argNew : Nat) : Option (ArgList × PikaRes) :=
  if self.firstNode = 0 then some (self, .errArgNoFound)
  else do
    let cell ← self.heap.cells argNew
    match ← findUpdate self.heap cell.value.nameHash self.turns 0 self.firstNode with
    | none => return (self, .errArgNoFound)
    | some (priorNode, nodeToUpdate) =>
      let (nodeToUpdate, heap) ← ArgHeap.argCopyContent malloc self.heap nodeToUpdate argNew
      if priorNode = 0 then
        let heap ← ArgHeap.freeSerialized heap argNew
        return (⟨nodeToUpdate, heap⟩, .ok)
      else
        let heap ← heap.setNext priorNode nodeToUpdate
        let heap ← ArgHeap.freeSerialized heap argNew
        return (⟨self.firstNode, heap⟩, .ok)

/-- `args_setArg`. -/
def setArg (arg : Nat) : Option (ArgList × PikaRes) := do
  let (self, res) ← updateArg malloc self arg
  if res = .ok then return (self, .ok)
  else
    let self ← pushArg malloc self arg
    return (self, .ok)

/-- The loop of `args_getNode_hash`. -/
def nodeHashFrom (heap : ArgHeap) (nameHash : Hash) : Nat → Nat → Option Nat
  | 0, _ => none
  | turns + 1, node =>
    if node = 0 then some 0
    else (heap.cells node).bind fun cell =>
      if cell.value.nameHash = nameHash then some node
      else nodeHashFrom heap nameHash turns cell.next

/-- `args_getArg_hash`, through `args_getNode_hash`. -/
def getArgHash (nameHash : Hash) : Option Nat :=
  nodeHashFrom self.heap nameHash self.turns self.firstNode

/-- So many steps from a node. -/
def stepNext (heap : ArgHeap) : Nat → Nat → Option Nat
  | 0, nodeNow => some nodeNow
  | steps + 1, nodeNow => (heap.cells nodeNow).bind fun cell => stepNext heap steps cell.next

/-- `args_getArgByIndex`. -/
def getArgByIndex (index : Int) : Option Nat :=
  if self.firstNode = 0 then some 0 else stepNext self.heap index.toNat self.firstNode

/-- The loop of `args_foreach`. The handler is given the node, and leaves the list as it is. -/
def foreachFrom {C : Type} (heap : ArgHeap) (eachHandle : Nat → C → C) : Nat → Nat → C → Option C
  | 0, _, _ => none
  | turns + 1, nodeNow, context => (heap.cells nodeNow).bind fun cell =>
    let context := eachHandle nodeNow context
    if cell.next = 0 then some context
    else foreachFrom heap eachHandle turns cell.next context

/-- `args_foreach`. -/
def foreach {C : Type} (eachHandle : Nat → C → C) (context : C) : Option C :=
  if self.firstNode = 0 then some context
  else foreachFrom self.heap eachHandle self.turns self.firstNode context

/-- The loop of `args_reverse`. -/
def reverseFrom : Nat → ArgHeap → Nat → Nat → Option ArgList
  | 0, _, _, _ => none
  | turns + 1, heap, nodeNow, nodePrior =>
    if nodeNow = 0 then some ⟨nodePrior, heap⟩
    else do
      let cell ← heap.cells nodeNow
      let heap ← heap.setNext nodeNow nodePrior
      reverseFrom turns heap cell.next nodeNow

/-- `args_reverse`. -/
def reverse : Option (ArgList × PikaRes) :=
  (reverseFrom self.turns self.heap self.firstNode 0).map (·, .ok)

/-- `args_removeArg`. -/
def removeArg (argNow : Nat) : Option (ArgList × PikaRes) :=
  if argNow = 0 then some (self, .errInvalidPtr) else (linkRemoveNode self argNow).map (·, .ok)

end ArgList

/-! ### What is done to one arg -/

namespace ArgHeap
variable (malloc : ArgMalloc) {heap : ArgHeap} {addr : Nat} {cell src : ArgCell}

theorem argCreateHash_spec (heap : ArgHeap) (cell : ArgCell) (h : FitsBlock cell.value.content) :
    ∃ addr heap', argCreateHash malloc heap cell = some (addr, heap') ∧ addr ≠ 0 ∧
      heap.cells addr = none ∧ heap.Puts heap' addr (some cell) := by
  obtain ⟨hfree, hne, hputs⟩ := heap.alloc_spec malloc cell
  exact ⟨_, _, if_pos h, hne, hfree, hputs⟩

/-- A new content is stored in place, or in a new arg that points on to where the old one did. -/
theorem argSetContent_spec {content : Bytes} (hcell : heap.cells addr = some cell)
    (hfits : FitsBlock content) :
    ∃ addr' heap', argSetContent malloc heap addr content = some (addr', heap') ∧
      Moves heap heap' addr addr' { cell with value := cell.value.setContent content } := by
  rw [argSetContent, if_neg (Heap.ne_zero_of_cells hcell), hcell]
  by_cases hroom : content.length ≤ cell.value.content.length
  · obtain ⟨heap', hmodify, hputs⟩ := Heap.modify_spec hcell (·.setContent content)
    refine ⟨addr, heap', by simp [hroom, hmodify], hputs.self, .inl rfl, fun a ha _ => ?_⟩
    exact hputs.of_ne ha
  · obtain ⟨new, heap₁, hcreate, -, hfree, hputs⟩ := argCreateHash_spec malloc heap
      ⟨Arg.create cell.value.nameHash cell.value.type content, cell.next⟩ hfits
    have hne : addr ≠ new := by
      rintro rfl
      rw [hcell] at hfree
      cases hfree
    obtain ⟨heap', hrelease, hputs'⟩ := Heap.free_spec ((hputs.of_ne hne).trans hcell)
    refine ⟨new, heap', by simp [hroom, hcreate, hrelease], ?_, .inr hfree, fun a ha ha' => ?_⟩
    · rw [hputs'.of_ne hne.symm, hputs.self, Arg.setContent, if_neg hroom]
    · rw [hputs'.of_ne ha, hputs.of_ne ha']

/-- What `arg_copy_content` does behind `arg_setContent`. -/
theorem argCopyContent_eq {addr' srcAddr : Nat} {heap' : ArgHeap} {value : Arg} {next : Nat}
    (hsrc : heap.cells srcAddr = some src) (hne : srcAddr ≠ addr)
    (hset : argSetContent malloc heap addr src.value.content = some (addr', heap'))
    (hmoves : Moves heap heap' addr addr' ⟨value, next⟩) :
    ∃ heap'', argCopyContent malloc heap addr srcAddr = some (addr', heap'') ∧
      Moves heap heap'' addr addr'
        ⟨(((value.setNameHash src.value.nameHash).setType src.value.type).setFlag Arg.flagKeyword
          src.value.isKeyword).setFlag Arg.flagWeakRef src.value.isWeakRef, next⟩ := by
  have hsrc' : heap'.cells srcAddr = some src :=
    (hmoves.frame _ hne (hmoves.ne_of_cells hsrc hne)).trans hsrc
  obtain ⟨heap'', hmodify, hputs⟩ := Heap.modify_spec hmoves.cells fun arg =>
    (((arg.setNameHash src.value.nameHash).setType src.value.type).setFlag Arg.flagKeyword
      src.value.isKeyword).setFlag Arg.flagWeakRef src.value.isWeakRef
  refine ⟨heap'', ?_, hputs.self, hmoves.place, fun a ha ha' => ?_⟩
  · simp [argCopyContent, hsrc, hset, hsrc', hmodify]
  · rw [hputs.of_ne ha', hmoves.frame a ha ha']

/-- **An arg takes over another one's content, wherever it has to go for that, and points on to
where it did.** -/
theorem argCopyContent_spec {srcAddr : Nat} (hcell : heap.cells addr = some cell)
    (hsrc : heap.cells srcAddr = some src) (hne : srcAddr ≠ addr)
    (hfits : FitsBlock src.value.content) :
    ∃ addr' heap', argCopyContent malloc heap addr srcAddr = some (addr', heap') ∧
      Moves heap heap' addr addr' { cell with value := cell.value.copyContent src.value } := by
  obtain ⟨addr', heap', hset, hmoves⟩ := argSetContent_spec malloc hcell hfits
  obtain ⟨heap'', hcopy, hmoves'⟩ := argCopyContent_eq malloc hsrc hne hset hmoves
  exact ⟨addr', heap'', hcopy, hmoves'⟩

/-- A copy is a new arg. -/
theorem argCopy_spec {srcAddr : Nat} (hsrc : heap.cells srcAddr = some src)
    (hfits : FitsBlock src.value.content) :
    ∃ addr heap', argCopy malloc heap srcAddr = some (addr, heap') ∧
      Moves heap heap' 0 addr ⟨src.value.copy, 0⟩ ∧ addr ≠ 0 := by
  obtain ⟨addr, heap', hcreate, hne, hfree, hputs⟩ := argCreateHash_spec malloc heap
    ⟨Arg.create 5381 .none src.value.content, 0⟩ hfits
  have hmoves : Moves heap heap' 0 addr ⟨Arg.create 5381 .none src.value.content, 0⟩ :=
    ⟨hputs.self, .inr hfree, fun a _ ha => hputs.of_ne ha⟩
  have hset : argSetContent malloc heap 0 src.value.content = some (addr, heap') := hcreate
  obtain ⟨heap'', hcopy, hmoves'⟩ :=
    argCopyContent_eq malloc hsrc (Heap.ne_zero_of_cells hsrc) hset hmoves
  refine ⟨addr, heap'', hcopy, ?_, hne⟩
  have hsame : (Arg.create 5381 .none src.value.content).setContent src.value.content =
      Arg.create 5381 .none src.value.content := by
    simp [Arg.setContent, Arg.create]
  rwa [Arg.copy, Arg.copyContent, hsame]

/-- An arg that is done with is given back, if it has memory of its own. -/
theorem freeSerialized_spec (hcell : heap.cells addr = some cell) :
    ∃ heap', freeSerialized heap addr = some heap' ∧
      (∀ a, a ≠ addr → heap'.cells a = heap.cells a) ∧
      (cell.value.isSerialized = false → heap' = heap) := by
  rw [freeSerialized, hcell, Option.bind_some]
  by_cases h : cell.value.isSerialized
  · obtain ⟨heap', hfree, hputs⟩ := Heap.free_spec hcell
    exact ⟨heap', by rw [if_pos h, hfree], fun a => hputs.of_ne, fun hnot => by simp [h] at hnot⟩
  · exact ⟨heap, if_neg h, fun _ _ => rfl, fun _ => rfl⟩

/-! A content that is too large has no block. -/

theorem argCreateHash_eq_none (heap : ArgHeap) (cell : ArgCell)
    (h : ¬FitsBlock cell.value.content) : argCreateHash malloc heap cell = none := if_neg h

theorem argCopyContent_eq_none {srcAddr : Nat} (hsrc : heap.cells srcAddr = some src)
    (hlarge : ¬FitsBlock src.value.content)
    (hcell : ∀ cell, heap.cells addr = some cell → FitsBlock cell.value.content) :
    argCopyContent malloc heap addr srcAddr = none := by
  have hset : argSetContent malloc heap addr src.value.content = none := by
    rw [argSetContent]
    split
    · exact argCreateHash_eq_none malloc heap _ hlarge
    · cases h : heap.cells addr with
      | none => rfl
      | some cell =>
        have hroom : ¬src.value.content.length ≤ cell.value.content.length := by
          have := hcell cell h
          unfold FitsBlock at this hlarge
          omega
        simp [hroom, argCreateHash_eq_none malloc heap
          ⟨Arg.create cell.value.nameHash cell.value.type src.value.content, cell.next⟩ hlarge]
  simp [argCopyContent, hsrc, hset]

end ArgHeap

/-! ### What the loops find

Each loop is followed over the list that is read off the heap, from any of its
nodes on, with turns left for what is still to come. -/

namespace ArgList
variable {heap : ArgHeap} {nodes nodes₁ nodes₂ : List (Nat × Arg)} {turns addr : Nat} {arg : Arg}
  {nameHash : Hash}

theorem sizeFrom_spec (h : Linked heap nodes 0) (hturns : nodes.length < turns) (n : Int) :
    sizeFrom heap turns (first nodes 0) (s32 n) = some (s32 (n + nodes.length)) := by
  induction nodes generalizing turns n with
  | nil =>
    obtain ⟨turns, rfl⟩ := Nat.exists_eq_add_of_lt hturns
    rw [sizeFrom, first, if_pos rfl, List.length_nil, Int.natCast_zero, Int.add_zero]
  | cons node nodes ih =>
    obtain ⟨turns, rfl⟩ := Nat.exists_eq_succ_of_ne_zero (Nat.ne_zero_of_lt hturns)
    have hcount : s32 (s32 n + 1) = s32 (n + 1) := Int.bmod_add_bmod
    have hnext := ih h.2 (Nat.lt_of_succ_lt_succ hturns) (n + 1)
    rw [sizeFrom, if_neg (h.first_ne_zero (List.cons_ne_nil _ _)), first, h.1, Option.bind_some,
      hcount, hnext, List.length_cons, Nat.cast_succ, Int.add_assoc, Int.add_comm 1]

theorem nodeHashFrom_spec (h : Linked heap nodes 0) (hturns : nodes.length < turns)
    (nameHash : Hash) :
    nodeHashFrom heap nameHash turns (first nodes 0) =
      some ((KeyedList.lookup (·.2.nameHash) nameHash nodes).elim 0 Prod.fst) := by
  induction nodes generalizing turns with
  | nil =>
    obtain ⟨turns, rfl⟩ := Nat.exists_eq_add_of_lt hturns
    rfl
  | cons node nodes ih =>
    obtain ⟨turns, rfl⟩ := Nat.exists_eq_succ_of_ne_zero (Nat.ne_zero_of_lt hturns)
    have hnext := ih h.2 (Nat.lt_of_succ_lt_succ hturns)
    rw [nodeHashFrom, if_neg (h.first_ne_zero (List.cons_ne_nil _ _)), first, h.1,
      Option.bind_some, KeyedList.lookup_cons, hnext]
    split <;> rfl

theorem stepNext_spec (h : Linked heap nodes 0) {i : Nat} (hi : i < nodes.length) :
    stepNext heap i (first nodes 0) = (nodes.map Prod.fst)[i]? := by
  induction nodes generalizing i with
  | nil => cases hi
  | cons node nodes ih =>
    cases i with
    | zero => rfl
    | succ i =>
      rw [stepNext, first, h.1, Option.bind_some, ih h.2 (Nat.lt_of_succ_lt_succ hi)]
      rfl

theorem foreachFrom_spec {C : Type} (h : Linked heap nodes 0) (hne : nodes ≠ [])
    (hturns : nodes.length < turns) (eachHandle : Nat → C → C) (context : C) :
    foreachFrom heap eachHandle turns (first nodes 0) context =
      some ((nodes.map Prod.fst).foldl (fun context node => eachHandle node context) context) := by
  induction nodes generalizing turns context with
  | nil => exact absurd rfl hne
  | cons node nodes ih =>
    obtain ⟨turns, rfl⟩ := Nat.exists_eq_succ_of_ne_zero (Nat.ne_zero_of_lt hturns)
    rw [foreachFrom, first, h.1, Option.bind_some]
    by_cases hlast : nodes = []
    · subst hlast
      exact if_pos rfl
    · rw [if_neg (h.2.first_ne_zero hlast), ih h.2 hlast (Nat.lt_of_succ_lt_succ hturns)]
      rfl

/-- The node before one that is not in front of it is that of the last one in front. -/
theorem findPrior_spec (h : Linked heap (nodes₁ ++ (addr, arg) :: nodes₂) 0)
    (hfront : addr ∉ nodes₁.map Prod.fst) (hturns : nodes₁.length < turns) (priorNode : Nat) :
    findPrior heap addr turns priorNode (first (nodes₁ ++ (addr, arg) :: nodes₂) 0) =
      some (some (lastOf nodes₁ priorNode)) := by
  induction nodes₁ generalizing turns priorNode with
  | nil =>
    obtain ⟨turns, rfl⟩ := Nat.exists_eq_add_of_lt hturns
    exact if_pos rfl
  | cons node nodes₁ ih =>
    obtain ⟨turns, rfl⟩ := Nat.exists_eq_succ_of_ne_zero (Nat.ne_zero_of_lt hturns)
    obtain ⟨hne, hfront⟩ := List.ne_and_not_mem_of_not_mem_cons hfront
    rw [List.cons_append, first, findPrior, if_neg hne.symm,
      if_neg (Heap.ne_zero_of_cells h.1), h.1, Option.bind_some]
    exact ih h.2 hfront (Nat.lt_of_succ_lt_succ hturns) _

/-- The first node of the hash is found, and the one before it. -/
theorem findUpdate_spec (h : Linked heap (nodes₁ ++ (addr, arg) :: nodes₂) 0)
    (hfront : arg.nameHash ∉ nodes₁.map (·.2.nameHash)) (hturns : nodes₁.length < turns)
    (priorNode : Nat) :
    findUpdate heap arg.nameHash turns priorNode (first (nodes₁ ++ (addr, arg) :: nodes₂) 0) =
      some (some (lastOf nodes₁ priorNode, addr)) := by
  induction nodes₁ generalizing turns priorNode with
  | nil =>
    obtain ⟨turns, rfl⟩ := Nat.exists_eq_add_of_lt hturns
    rw [List.nil_append, first, findUpdate, h.1, Option.bind_some]
    exact if_pos rfl
  | cons node nodes₁ ih =>
    obtain ⟨turns, rfl⟩ := Nat.exists_eq_succ_of_ne_zero (Nat.ne_zero_of_lt hturns)
    obtain ⟨hne, hfront⟩ := List.ne_and_not_mem_of_not_mem_cons hfront
    have hcell : heap.cells node.1 = some ⟨node.2, first (nodes₁ ++ (addr, arg) :: nodes₂) 0⟩ := h.1
    have hmore : first (nodes₁ ++ (addr, arg) :: nodes₂) 0 ≠ 0 :=
      Linked.first_ne_zero h.2 (by simp)
    rw [List.cons_append, first, findUpdate, hcell, Option.bind_some, if_neg hne.symm,
      if_neg hmore]
    exact ih h.2 hfront (Nat.lt_of_succ_lt_succ hturns) _

/-- A hash that no node has is not found. -/
theorem findUpdate_eq_none (h : Linked heap nodes 0) (hne : nodes ≠ [])
    (hnot : nameHash ∉ nodes.map (·.2.nameHash)) (hturns : nodes.length < turns)
    (priorNode : Nat) :
    findUpdate heap nameHash turns priorNode (first nodes 0) = some none := by
  induction nodes generalizing turns priorNode with
  | nil => exact absurd rfl hne
  | cons node nodes ih =>
    obtain ⟨turns, rfl⟩ := Nat.exists_eq_succ_of_ne_zero (Nat.ne_zero_of_lt hturns)
    obtain ⟨hother, hnot⟩ := List.ne_and_not_mem_of_not_mem_cons hnot
    rw [findUpdate, first, h.1, Option.bind_some, if_neg hother.symm]
    by_cases hlast : nodes = []
    · subst hlast
      exact if_pos rfl
    · rw [if_neg (h.2.first_ne_zero hlast)]
      exact ih h.2 hlast hnot (Nat.lt_of_succ_lt_succ hturns) _

/-! ### The nodes of a list -/

/-- The nodes, at their addresses: no two are at one place, and each has a block of its own. -/
structure Holds (args : ArgList) (nodes : List (Nat × Arg)) : Prop where
  first : args.firstNode = first nodes 0
  linked : Linked args.heap nodes 0
  nodup : (nodes.map Prod.fst).Nodup
  fits : ∀ node ∈ nodes, FitsBlock node.2.content

/-- An arg that the caller has, and the list does not. -/
structure Outside (args : ArgList) (nodes : List (Nat × Arg)) (addr : Nat) (cell : ArgCell) :
    Prop where
  cells : args.heap.cells addr = some cell
  not_mem : addr ∉ nodes.map Prod.fst

namespace Holds
variable {self : ArgList} {cell : ArgCell} (malloc : ArgMalloc)

theorem length_lt (hold : Holds self nodes) : nodes.length < self.turns :=
  Nat.lt_succ_of_le (hold.linked.length_le hold.nodup)

theorem firstNode_eq_zero (hold : Holds self nodes) : self.firstNode = 0 ↔ nodes = [] := by
  rw [hold.first]
  constructor
  · intro h
    by_contra hne
    exact hold.linked.first_ne_zero hne h
  · rintro rfl
    rfl

/-- The addresses and the block of a node that takes the place of another. -/
theorem nodup_replace {addr' : Nat} {arg' : Arg}
    (hnodup : ((nodes₁ ++ (addr, arg) :: nodes₂).map Prod.fst).Nodup)
    (h₁ : addr' ∉ nodes₁.map Prod.fst) (h₂ : addr' ∉ nodes₂.map Prod.fst) :
    ((nodes₁ ++ (addr', arg') :: nodes₂).map Prod.fst).Nodup := by
  rw [List.map_append, List.map_cons, List.nodup_middle, List.nodup_cons] at hnodup ⊢
  exact ⟨fun hmem => (List.mem_append.mp hmem).elim h₁ h₂, hnodup.2⟩

/-- Giving back what is not in the list leaves it. -/
theorem freeSerialized (hold : Holds self nodes) (hout : Outside self nodes addr cell) :
    ∃ heap', ArgHeap.freeSerialized self.heap addr = some heap' ∧
      Holds ⟨self.firstNode, heap'⟩ nodes ∧
      (cell.value.isSerialized = false → Outside ⟨self.firstNode, heap'⟩ nodes addr cell) := by
  obtain ⟨heap', hfree, hkeep, hsame⟩ := ArgHeap.freeSerialized_spec hout.cells
  refine ⟨heap', hfree, ⟨hold.first, ?_, hold.nodup, hold.fits⟩, fun hstack => ?_⟩
  · exact hold.linked.frame fun a ha => hkeep a fun heq => hout.not_mem (heq ▸ ha)
  · rw [hsame hstack]
    exact hout

/-- `link_addNode`. -/
theorem linkAddNode (hold : Holds self nodes) (hout : Outside self nodes addr cell)
    (hfits : FitsBlock cell.value.content) :
    ∃ self', ArgList.linkAddNode self addr = some self' ∧
      Holds self' ((addr, cell.value) :: nodes) ∧
      ∀ a ≠ addr, self'.heap.cells a = self.heap.cells a := by
  have hone : Linked self.heap ([] ++ [(addr, cell.value)]) cell.next := ⟨hout.cells, trivial⟩
  obtain ⟨heap', hset, hlinked, hframe⟩ :=
    hone.setNext hold.linked ⟨List.not_mem_nil, hout.not_mem⟩
  refine ⟨⟨addr, heap'⟩, ?_, ⟨rfl, hlinked, ?_, ?_⟩, hframe⟩
  · rw [ArgList.linkAddNode, hold.first, hset]
    rfl
  · exact List.nodup_cons.mpr ⟨hout.not_mem, hold.nodup⟩
  · exact List.forall_mem_cons.mpr ⟨hfits, hold.fits⟩

/-- `args_pushArg`: the arg itself is put in front, or a copy of one on the stack. -/
theorem pushArg (hold : Holds self nodes) (hout : Outside self nodes addr cell)
    (hfits : FitsBlock cell.value.content) :
    ∃ self' nodes', ArgList.pushArg malloc self addr = some self' ∧ Holds self' nodes' ∧
      nodes'.map Prod.snd = Args.pushArg (nodes.map Prod.snd) cell.value ∧
      (cell.value.isSerialized = false → Outside self' nodes' addr cell) := by
  by_cases hheap : cell.value.isSerialized
  · obtain ⟨self', hadd, hold', -⟩ := hold.linkAddNode hout hfits
    refine ⟨self', _, by simp [ArgList.pushArg, hout.cells, hheap, hadd], hold', ?_, ?_⟩
    · rw [List.map_cons, Args.pushArg, if_pos hheap]
    · simp [hheap]
  · obtain ⟨copy, heap, hcopy, hmoves, -⟩ := ArgHeap.argCopy_spec malloc hout.cells hfits
    have hlinked : Linked heap nodes 0 ∧ copy ∉ nodes.map Prod.fst :=
      hmoves.linked hold.linked (hold.linked.not_mem self.heap.null)
    have hne : addr ≠ copy := hmoves.ne_of_cells hout.cells (Heap.ne_zero_of_cells hout.cells)
    have hcopied : Holds ⟨self.firstNode, heap⟩ nodes :=
      ⟨hold.first, hlinked.1, hold.nodup, hold.fits⟩
    obtain ⟨self', hadd, hold', hframe⟩ := hcopied.linkAddNode ⟨hmoves.cells, hlinked.2⟩
      (by rwa [Arg.content_copy])
    refine ⟨self', _, by simp [ArgList.pushArg, hout.cells, hheap, hcopy, hadd], hold', ?_,
      fun _ => ⟨?_, ?_⟩⟩
    · rw [List.map_cons, Args.pushArg, if_neg hheap]
    · rw [hframe _ hne, hmoves.frame _ (Heap.ne_zero_of_cells hout.cells) hne, hout.cells]
    · rw [List.map_cons]
      exact List.not_mem_cons_of_ne_of_not_mem hne hout.not_mem

theorem fitsBlock_copyContent {arg src : Arg} (harg : FitsBlock arg.content)
    (hsrc : FitsBlock src.content) : FitsBlock (arg.copyContent src).content := by
  have hcontent : (arg.copyContent src).content = (arg.setContent src.content).content := rfl
  rw [hcontent, Arg.setContent]
  split
  · have hlength : (src.content ++ arg.content.drop src.content.length).length =
        arg.content.length := by
      rw [List.length_append, List.length_drop]
      omega
    rwa [FitsBlock, hlength]
  · exact hsrc

/-- **`_updateArg` puts the arg, moved or not, where the old one was.** -/
theorem updateArg_of_mem {a : Nat} {v : Arg} (hold : Holds self (nodes₁ ++ (a, v) :: nodes₂))
    (hfront : v.nameHash ∉ nodes₁.map (·.2.nameHash)) (hhash : v.nameHash = cell.value.nameHash)
    (hout : Outside self (nodes₁ ++ (a, v) :: nodes₂) addr cell)
    (hfits : FitsBlock cell.value.content) :
    ∃ self' a', ArgList.updateArg malloc self addr = some (self', .ok) ∧
      Holds self' (nodes₁ ++ (a', v.copyContent cell.value) :: nodes₂) ∧
      (cell.value.isSerialized = false →
        Outside self' (nodes₁ ++ (a', v.copyContent cell.value) :: nodes₂) addr cell) := by
  have hfound := findUpdate_spec hold.linked hfront
    (lt_of_le_of_lt (by simp) hold.length_lt) 0
  rw [← hold.first, hhash] at hfound
  have hstart : self.firstNode ≠ 0 := fun h => by
    simpa using hold.firstNode_eq_zero.mp h
  obtain ⟨hlinked₁, hcell, hlinked₂⟩ := linked_append.mp hold.linked
  have hnodup := hold.nodup
  rw [List.map_append, List.map_cons, List.nodup_middle, List.nodup_cons, List.mem_append,
    not_or] at hnodup
  have haddr : addr ∉ nodes₁.map Prod.fst ∧ addr ≠ a ∧ addr ∉ nodes₂.map Prod.fst := by
    simpa [not_or] using hout.not_mem
  -- the old arg goes where the new content has room
  obtain ⟨a', heap₁, hcopy, hmoves⟩ :=
    ArgHeap.argCopyContent_spec malloc hcell hout.cells haddr.2.1 hfits
  obtain ⟨hkept₁, hnew₁⟩ := hmoves.linked hlinked₁ hnodup.1.1
  obtain ⟨hkept₂, hnew₂⟩ := hmoves.linked hlinked₂ hnodup.1.2
  have hne' : addr ≠ a' := hmoves.ne_of_cells hout.cells haddr.2.1
  have hsrc : heap₁.cells addr = some cell :=
    (hmoves.frame _ haddr.2.1 hne').trans hout.cells
  have hback : Linked heap₁ ((a', v.copyContent cell.value) :: nodes₂) 0 := ⟨hmoves.cells, hkept₂⟩
  have hnodup' : ((nodes₁ ++ (a', v.copyContent cell.value) :: nodes₂).map Prod.fst).Nodup :=
    nodup_replace hold.nodup hnew₁ hnew₂
  have hfits' : ∀ node ∈ nodes₁ ++ (a', v.copyContent cell.value) :: nodes₂,
      FitsBlock node.2.content := by
    have hall := List.forall_mem_append.mp hold.fits
    refine List.forall_mem_append.mpr ⟨hall.1, List.forall_mem_cons.mpr ⟨?_, ?_⟩⟩
    · exact fitsBlock_copyContent (List.forall_mem_cons.mp hall.2).1 hfits
    · exact (List.forall_mem_cons.mp hall.2).2
  have hnot : addr ∉ (nodes₁ ++ (a', v.copyContent cell.value) :: nodes₂).map Prod.fst := by
    simp [haddr.1, hne', haddr.2.2]
  -- and what points to it is told
  by_cases hhead : nodes₁ = []
  · subst hhead
    have hholds : Holds ⟨a', heap₁⟩ ([] ++ (a', v.copyContent cell.value) :: nodes₂) :=
      ⟨rfl, hback, hnodup', hfits'⟩
    obtain ⟨heap₂, hfree, hholds', hstack⟩ := hholds.freeSerialized ⟨hsrc, hnot⟩
    refine ⟨⟨a', heap₂⟩, a', ?_, hholds', hstack⟩
    simp [ArgList.updateArg, hstart, hout.cells, hfound, hcopy, lastOf, hfree]
  · obtain ⟨hlast, hprior, heap₂, hset, hlinked, hframe⟩ := hkept₁.join hback hnodup' hhead
    have hsrc₂ : heap₂.cells addr = some cell :=
      (hframe addr (ne_of_mem_of_not_mem hlast haddr.1).symm).trans hsrc
    have hfirst : self.firstNode =
        LinkedHeap.first (nodes₁ ++ (a', v.copyContent cell.value) :: nodes₂) 0 := by
      rw [hold.first, first_append, first_append]
      exact first_congr hhead _ _
    have hholds : Holds ⟨self.firstNode, heap₂⟩ _ := ⟨hfirst, hlinked, hnodup', hfits'⟩
    obtain ⟨heap₃, hfree, hholds', hstack⟩ := hholds.freeSerialized ⟨hsrc₂, hnot⟩
    refine ⟨⟨self.firstNode, heap₃⟩, a', ?_, hholds', hstack⟩
    rw [LinkedHeap.first] at hset
    simp [ArgList.updateArg, hstart, hout.cells, hfound, hcopy, hprior, hset, hfree]

/-- Where no node has the hash, `_updateArg` does nothing. -/
theorem updateArg_of_not_mem (hold : Holds self nodes) (hout : Outside self nodes addr cell)
    (hnot : cell.value.nameHash ∉ nodes.map (·.2.nameHash)) :
    ArgList.updateArg malloc self addr = some (self, .errArgNoFound) := by
  by_cases hempty : nodes = []
  · exact if_pos (hold.firstNode_eq_zero.mpr hempty)
  · have hfound := findUpdate_eq_none hold.linked hempty hnot hold.length_lt 0
    rw [← hold.first] at hfound
    have hstart : self.firstNode ≠ 0 := fun h => hempty (hold.firstNode_eq_zero.mp h)
    simp [ArgList.updateArg, hstart, hout.cells, hfound]

/-- **`args_setArg` does to the nodes what it is said to do to the args.** -/
theorem setArg_spec (hold : Holds self nodes) (hout : Outside self nodes addr cell)
    (hfits : FitsBlock cell.value.content) :
    ∃ self' nodes', ArgList.setArg malloc self addr = some (self', .ok) ∧ Holds self' nodes' ∧
      nodes'.map Prod.snd = Args.setArg (nodes.map Prod.snd) cell.value ∧
      (cell.value.isSerialized = false → Outside self' nodes' addr cell) := by
  by_cases hmem : cell.value.nameHash ∈ nodes.map (·.2.nameHash)
  · obtain ⟨nodes₁, ⟨a, v⟩, nodes₂, rfl, hhash, hfront⟩ := KeyedList.exists_first hmem
    have hhash : v.nameHash = cell.value.nameHash := hhash
    obtain ⟨self', a', hupdate, hold', hstack⟩ :=
      hold.updateArg_of_mem malloc (hhash ▸ hfront) hhash hout hfits
    refine ⟨self', _, by simp [ArgList.setArg, hupdate], hold', ?_, hstack⟩
    have hup : KeyedList.update Arg.nameHash v.nameHash (·.copyContent cell.value)
        (nodes₁.map Prod.snd ++ v :: nodes₂.map Prod.snd) =
          some (nodes₁.map Prod.snd ++ v.copyContent cell.value :: nodes₂.map Prod.snd) :=
      KeyedList.update_append (by simpa [hhash] using hfront) rfl
    simp only [Args.setArg, Args.updateArg, List.map_append, List.map_cons, ← hhash, hup,
      Option.getD_some]
  · obtain ⟨self', nodes', hpush, hold', hargs, hstack⟩ :=
      hold.pushArg malloc hout hfits
    have hupdate := hold.updateArg_of_not_mem malloc hout hmem
    refine ⟨self', nodes', by simp [ArgList.setArg, hupdate, hpush], hold', ?_, hstack⟩
    have hup : Args.updateArg (nodes.map Prod.snd) cell.value = none :=
      KeyedList.update_eq_none.mpr (by simpa using hmem)
    rw [hargs, Args.setArg, hup, Option.getD_none]

/-- No node can take over a content that is too large, and there is no copy of it. -/
theorem setArg_eq_none (hold : Holds self nodes) (hout : Outside self nodes addr cell)
    (hstack : cell.value.isSerialized = false) (hlarge : ¬FitsBlock cell.value.content) :
    ArgList.setArg malloc self addr = none := by
  by_cases hmem : cell.value.nameHash ∈ nodes.map (·.2.nameHash)
  · obtain ⟨nodes₁, ⟨a, v⟩, nodes₂, rfl, hhash, hfront⟩ := KeyedList.exists_first hmem
    have hhash : v.nameHash = cell.value.nameHash := hhash
    obtain ⟨-, hcell, -⟩ := linked_append.mp hold.linked
    have hfound := findUpdate_spec hold.linked (hhash ▸ hfront)
      (lt_of_le_of_lt (by simp) hold.length_lt) 0
    rw [← hold.first, hhash] at hfound
    have hstart : self.firstNode ≠ 0 := fun h => by simpa using hold.firstNode_eq_zero.mp h
    have hcopy := ArgHeap.argCopyContent_eq_none malloc hout.cells hlarge
      fun other hother => by
        obtain rfl := Option.some.inj (hother.symm.trans hcell)
        exact hold.fits (a, v) (by simp)
    simp [ArgList.setArg, ArgList.updateArg, hstart, hout.cells, hfound, hcopy]
  · have hupdate := hold.updateArg_of_not_mem malloc hout hmem
    have hcopy := ArgHeap.argCopyContent_eq_none malloc hout.cells hlarge
      fun other hother => by
        rw [self.heap.null] at hother
        cases hother
    simp [ArgList.setArg, hupdate, ArgList.pushArg, hout.cells, hstack, ArgHeap.argCopy, hcopy]

/-- **`args_removeArg` takes the node out and joins what is on its two sides.** -/
theorem removeArg_spec {a : Nat} {v : Arg} (hold : Holds self (nodes₁ ++ (a, v) :: nodes₂)) :
    ∃ self', ArgList.removeArg self a = some (self', .ok) ∧ Holds self' (nodes₁ ++ nodes₂) := by
  obtain ⟨hlinked₁, hcell, hlinked₂⟩ := linked_append.mp hold.linked
  have hnodup := hold.nodup
  rw [List.map_append, List.map_cons, List.nodup_middle, List.nodup_cons, ← List.map_append]
    at hnodup
  have hfits : ∀ node ∈ nodes₁ ++ nodes₂, FitsBlock node.2.content := fun node hmem =>
    hold.fits node (by
      rcases List.mem_append.mp hmem with h | h
      · exact List.mem_append_left _ h
      · exact List.mem_append_right _ (List.mem_cons_of_mem _ h))
  have hnot : a ∉ nodes₁.map Prod.fst ∧ a ∉ nodes₂.map Prod.fst := by
    simpa [not_or] using hnodup.1
  have hfound := findPrior_spec hold.linked hnot.1
    (lt_of_le_of_lt (by simp) hold.length_lt) 0
  rw [← hold.first] at hfound
  have hstart : a ≠ 0 := Heap.ne_zero_of_cells hcell
  by_cases hhead : nodes₁ = []
  · subst hhead
    have hholds : Holds ⟨LinkedHeap.first nodes₂ 0, self.heap⟩ ([] ++ nodes₂) :=
      ⟨rfl, hlinked₂, hnodup.2, hfits⟩
    obtain ⟨heap', hfree, hholds', -⟩ := hholds.freeSerialized ⟨hcell, hnodup.1⟩
    refine ⟨_, ?_, hholds'⟩
    simp [ArgList.removeArg, ArgList.linkRemoveNode, hstart, hfound, lastOf, hcell, hfree]
  · obtain ⟨hlast, hprior, heap₁, hset, hlinked, hframe⟩ :=
      hlinked₁.join hlinked₂ hnodup.2 hhead
    have hcell₁ : heap₁.cells a = some ⟨v, LinkedHeap.first nodes₂ 0⟩ :=
      (hframe a (ne_of_mem_of_not_mem hlast hnot.1).symm).trans hcell
    have hfirst : self.firstNode = LinkedHeap.first (nodes₁ ++ nodes₂) 0 := by
      rw [hold.first, first_append, first_append]
      exact first_congr hhead _ _
    have hother : a ≠ self.firstNode := by
      rw [hfirst, first_append]
      exact (ne_of_mem_of_not_mem (first_mem hhead _) hnot.1).symm
    have hholds : Holds ⟨self.firstNode, heap₁⟩ (nodes₁ ++ nodes₂) :=
      ⟨hfirst, hlinked, hnodup.2, hfits⟩
    obtain ⟨heap', hfree, hholds', -⟩ := hholds.freeSerialized ⟨hcell₁, hnodup.1⟩
    refine ⟨_, ?_, hholds'⟩
    simp [ArgList.removeArg, ArgList.linkRemoveNode, hstart, hfound, hprior, hcell, hset, hfree,
      hother]

/-- The loop turns the pointers of what is still to come around, in front of what is done. -/
theorem reverseFrom_spec {rest turned : List (Nat × Arg)} {turns : Nat} {heap : ArgHeap}
    (hrest : Linked heap rest 0) (hturned : Linked heap turned 0)
    (hnodup : ((rest ++ turned).map Prod.fst).Nodup) (hturns : rest.length < turns) :
    ∃ heap', reverseFrom turns heap (LinkedHeap.first rest 0) (LinkedHeap.first turned 0) =
        some ⟨LinkedHeap.first (rest.reverse ++ turned) 0, heap'⟩ ∧
      Linked heap' (rest.reverse ++ turned) 0 := by
  induction rest generalizing turns turned heap with
  | nil =>
    obtain ⟨turns, rfl⟩ := Nat.exists_eq_add_of_lt hturns
    exact ⟨heap, if_pos rfl, hturned⟩
  | cons node rest ih =>
    obtain ⟨turns, rfl⟩ := Nat.exists_eq_succ_of_ne_zero (Nat.ne_zero_of_lt hturns)
    obtain ⟨a, v⟩ := node
    have hnodup' : ((rest ++ (a, v) :: turned).map Prod.fst).Nodup := by
      rw [List.map_append, List.map_cons, List.nodup_middle, ← List.map_append]
      exact hnodup
    have hnot : a ∉ rest.map Prod.fst ∧ a ∉ turned.map Prod.fst := by
      simpa [not_or] using (List.nodup_cons.mp hnodup).1
    have hone : Linked heap ([] ++ [(a, v)]) (LinkedHeap.first rest 0) := ⟨hrest.1, trivial⟩
    obtain ⟨heap₁, hset, hturned', hframe⟩ := hone.setNext hturned ⟨List.not_mem_nil, hnot.2⟩
    have hrest' : Linked heap₁ rest 0 :=
      hrest.2.frame fun b hb => hframe b (ne_of_mem_of_not_mem hb hnot.1)
    obtain ⟨heap', hloop, hlinked⟩ := ih hrest' hturned' hnodup' (Nat.lt_of_succ_lt_succ hturns)
    have hloop : reverseFrom turns heap₁ (LinkedHeap.first rest 0) a =
        some ⟨LinkedHeap.first (rest.reverse ++ (a, v) :: turned) 0, heap'⟩ := hloop
    refine ⟨heap', ?_, by simpa using hlinked⟩
    rw [LinkedHeap.first, reverseFrom, if_neg (Heap.ne_zero_of_cells hrest.1), hrest.1]
    simpa [hset] using hloop

/-- **`args_reverse` turns the nodes around.** -/
theorem reverse_spec (hold : Holds self nodes) :
    ∃ self', ArgList.reverse self = some (self', .ok) ∧ Holds self' nodes.reverse := by
  have hnil : Linked self.heap [] 0 := trivial
  obtain ⟨heap', hloop, hlinked⟩ :=
    reverseFrom_spec hold.linked hnil (by simpa using hold.nodup) hold.length_lt
  rw [List.append_nil] at hloop hlinked
  refine ⟨_, by rw [ArgList.reverse, hold.first]; exact congrArg _ hloop, rfl, hlinked, ?_, ?_⟩
  · rw [List.map_reverse]
    exact List.nodup_reverse.mpr hold.nodup
  · exact fun node hmem => hold.fits node (List.mem_reverse.mp hmem)

/-! What is read off the list. -/

theorem getSize_spec (hold : Holds self nodes) :
    ArgList.getSize self = some (s32 nodes.length) := by
  have h := sizeFrom_spec hold.linked hold.length_lt 0
  rwa [Int.zero_add, ← hold.first] at h

theorem getArgHash_spec (hold : Holds self nodes) (nameHash : Hash) :
    ArgList.getArgHash self nameHash =
      some ((KeyedList.lookup (·.2.nameHash) nameHash nodes).elim 0 Prod.fst) := by
  rw [ArgList.getArgHash, hold.first]
  exact nodeHashFrom_spec hold.linked hold.length_lt nameHash

theorem getArgByIndex_spec (hold : Holds self nodes) {i : Nat} (hi : i < nodes.length) :
    ArgList.getArgByIndex self i = (nodes.map Prod.fst)[i]? := by
  have hstart : self.firstNode ≠ 0 := fun h => by
    rw [hold.firstNode_eq_zero.mp h] at hi
    cases hi
  rw [ArgList.getArgByIndex, if_neg hstart, hold.first]
  exact stepNext_spec hold.linked hi

theorem foreach_spec {C : Type} (hold : Holds self nodes) (eachHandle : Nat → C → C)
    (context : C) :
    ArgList.foreach self eachHandle context =
      some ((nodes.map Prod.fst).foldl (fun context node => eachHandle node context) context) := by
  by_cases hempty : nodes = []
  · subst hempty
    exact if_pos (hold.firstNode_eq_zero.mpr rfl)
  · rw [ArgList.foreach, if_neg fun h => hempty (hold.firstNode_eq_zero.mp h), hold.first]
    exact foreachFrom_spec hold.linked hempty hold.length_lt eachHandle context

end Holds

end ArgList

end PikaScript
