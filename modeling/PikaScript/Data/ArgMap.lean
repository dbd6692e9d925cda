import PikaScript.Data.ArgList

/-! An args list is an ordered map.

What the list in memory is for: an entry for each name hash, in an order. Setting
what is there keeps its place, whatever its node has to do for that; what is new
goes in front. The memory, the list of nodes and the map take the same steps with
the same answers, as long as no arg is too large for a block. The one thing in which
the list can then differ from the map is its size, which is counted in an
`int32_t`. -/
namespace PikaScript
open LinkedHeap

/-! ### The calls -/

inductive ArgListCall where
  /-- `args_setArg` of an arg that is on the heap, or on the caller's stack. -/
  | set (arg : ArgCell)
  /-- `args_removeArg` of what `args_getArg_hash` finds. -/
  | remove (nameHash : Hash)
  | reverse

/-- The arg has a block, if it needs one. -/
def ArgListCall.Fits : ArgListCall → Prop
  | .set arg => FitsBlock arg.value.content
  | _ => True

namespace ArgList

def empty : ArgList := ⟨0, Heap.empty⟩

/-- The arg is made by the caller. One on its stack is gone when the caller is done. -/
def setNew (malloc : ArgMalloc) (self : ArgList) (arg : ArgCell) :
    Option (ArgList × PikaRes) := do
  if arg.value.isSerialized then
    let (addr, heap) ← ArgHeap.argCreateHash malloc self.heap arg
    setArg malloc { self with heap := heap } addr
  else
    let (addr, heap) := self.heap.alloc malloc arg
    let (self, res) ← setArg malloc { self with heap := heap } addr
    let heap ← self.heap.free addr
    return ({ self with heap := heap }, res)

/-- What is looked up is removed. -/
def removeFound (self : ArgList) (nameHash : Hash) : Option (ArgList × PikaRes) := do
  let node ← getArgHash self nameHash
  removeArg self node

end ArgList

/-- The list in memory, as it is used. -/
def argListMachine (malloc : ArgMalloc) : Machine ArgListCall ArgList PikaRes where
  step
    | .set arg, self => self.setNew malloc arg
    | .remove nameHash, self => self.removeFound nameHash
    | .reverse, self => self.reverse

/-- What it is for. -/
def argMapMachine : Machine ArgListCall (OrderedMap Hash Val) PikaRes where
  step
    | .set arg, m => some (m.put arg.value.nameHash (Val.ofArg (some arg.value)), .ok)
    | .remove nameHash, m =>
      if nameHash ∈ m.keys then some (m.delete nameHash, .ok) else some (m, .errInvalidPtr)
    | .reverse, m => some (m.reverse, .ok)

namespace ArgList

/-- At the node there is an arg of the entry's hash, with its value. -/
def Points (heap : ArgHeap) (node : Nat) (entry : Hash × Val) : Prop :=
  ∃ cell, heap.cells node = some cell ∧ cell.value.nameHash = entry.1 ∧ cell.value.Has entry.2

/-- The node is that of the entry with the hash, or NULL if there is none. -/
def FoundAt (heap : ArgHeap) (nameHash : Hash) (node : Nat) : Option Val → Prop
  | none => node = 0
  | some v => Points heap node (nameHash, v)

/-- All that is read off the list is what the map says. -/
structure Agrees (args : ArgList) (m : OrderedMap Hash Val) : Prop where
  /-- `args_getSize`. -/
  size : getSize args = some (m.size : Int)
  /-- `args_getArgByIndex` and `args_foreach` give one node after the other, and each is that
  of an entry. -/
  nodes : ∃ nodes : List Nat, List.Forall₂ (Points args.heap) nodes m.entries ∧
    (∀ i < m.size, getArgByIndex args i = nodes[i]?) ∧
    ∀ {C : Type} (eachHandle : Nat → C → C) (context : C), foreach args eachHandle context =
      some (nodes.foldl (fun context node => eachHandle node context) context)
  /-- `args_getArg_hash` finds the entries, and nothing else. -/
  found : ∀ nameHash, ∃ node, getArgHash args nameHash = some node ∧
    FoundAt args.heap nameHash node (m.find nameHash)

/-- The calls come to an end, with the answers of the map, and the list agrees with it. -/
def Law (malloc : ArgMalloc) (calls : List ArgListCall) : Prop :=
  ∃ args m answers, (argListMachine malloc).run .empty calls = some (args, answers) ∧
    argMapMachine.run .empty calls = some (m, answers) ∧ Agrees args m

/-! ### The nodes mirror the map -/

/-- The args are, in their order, those of the entries. -/
abbrev MirrorsMap (args : Args) (m : OrderedMap Hash Val) : Prop :=
  KeyedList.Mirrors Arg.nameHash Prod.fst (fun arg entry => arg.Has entry.2) args m.entries

/-- The list in memory has the nodes of a map. -/
def Represents (args : ArgList) (m : OrderedMap Hash Val) : Prop :=
  ∃ nodes, Holds args nodes ∧ MirrorsMap (nodes.map Prod.snd) m

variable (malloc : ArgMalloc) {self : ArgList} {m : OrderedMap Hash Val} {args : Args}
  {nameHash : Hash}

theorem mirrors_setArg (h : MirrorsMap args m) (arg : Arg) :
    MirrorsMap (Args.setArg args arg) (m.put arg.nameHash (Val.ofArg (some arg))) := by
  by_cases hmem : arg.nameHash ∈ m.keys
  · obtain ⟨args', hup, hmirrors⟩ := KeyedList.Mirrors.update (k := arg.nameHash)
      (f := (·.copyContent arg)) (g := fun _ => (arg.nameHash, Val.ofArg (some arg)))
      h m.nodup hmem fun _ _ _ _ => ⟨Arg.nameHash_copyContent .., Arg.has_copyContent arg.has_ofArg⟩
    rw [Args.setArg, Args.updateArg, hup, Option.getD_some]
    rwa [MirrorsMap, OrderedMap.entries_put_of_mem hmem]
  · have hnone : Args.updateArg args arg = none := by
      rw [Args.updateArg, KeyedList.update_eq_none, h.keys]
      exact hmem
    rw [Args.setArg, hnone, Option.getD_none, MirrorsMap, OrderedMap.entries_put_of_not_mem hmem,
      Args.pushArg]
    refine .cons ?_ h
    split
    · exact ⟨rfl, arg.has_ofArg⟩
    · exact ⟨arg.nameHash_copy, Arg.has_copy arg.has_ofArg⟩

theorem mem_keys_iff {nodes : List (Nat × Arg)} (h : MirrorsMap (nodes.map Prod.snd) m) :
    nameHash ∈ m.keys ↔ nameHash ∈ nodes.map (·.2.nameHash) := by
  have hkeys := h.keys
  rw [List.map_map] at hkeys
  rw [OrderedMap.keys, ← hkeys]
  rfl

/-! ### The steps -/

/-- A call to set an arg that has a block. -/
theorem setNew_spec (h : Represents self m) {arg : ArgCell}
    (hfits : FitsBlock arg.value.content) :
    ∃ self', setNew malloc self arg = some (self', .ok) ∧
      Represents self' (m.put arg.value.nameHash (Val.ofArg (some arg.value))) := by
  obtain ⟨nodes, hold, hmirrors⟩ := h
  have hmirrors' := mirrors_setArg hmirrors arg.value
  obtain ⟨hfree, hne, hputs⟩ := self.heap.alloc_spec malloc arg
  have hnot := hold.linked.not_mem hfree
  have hold₁ : Holds { self with heap := (self.heap.alloc malloc arg).2 } nodes :=
    ⟨hold.first, hold.linked.puts hputs hnot, hold.nodup, hold.fits⟩
  obtain ⟨self₁, nodes', hset, hold', hargs, hstack⟩ :=
    hold₁.setArg_spec malloc ⟨hputs.self, hnot⟩ hfits
  rw [← hargs] at hmirrors'
  by_cases hheap : arg.value.isSerialized
  · have hcreate : ArgHeap.argCreateHash malloc self.heap arg = some (self.heap.alloc malloc arg) :=
      if_pos hfits
    exact ⟨self₁, by simp [setNew, hheap, hcreate, hset], nodes', hold', hmirrors'⟩
  · obtain ⟨hcell, hout⟩ := hstack (by simpa using hheap)
    obtain ⟨heap', hrelease, hputs'⟩ := Heap.free_spec hcell
    refine ⟨{ self₁ with heap := heap' }, by simp [setNew, hheap, hset, hrelease], nodes', ?_,
      hmirrors'⟩
    exact ⟨hold'.first, hold'.linked.puts hputs' hout, hold'.nodup, hold'.fits⟩

/-- An arg that is too large for a block is written past it, here or by the caller. -/
theorem setNew_eq_none (h : Represents self m) {arg : ArgCell}
    (hlarge : ¬FitsBlock arg.value.content) : setNew malloc self arg = none := by
  obtain ⟨nodes, hold, -⟩ := h
  by_cases hheap : arg.value.isSerialized
  · simp [setNew, hheap, ArgHeap.argCreateHash_eq_none malloc self.heap arg hlarge]
  · obtain ⟨hfree, hne, hputs⟩ := self.heap.alloc_spec malloc arg
    have hnot := hold.linked.not_mem hfree
    have hold₁ : Holds { self with heap := (self.heap.alloc malloc arg).2 } nodes :=
      ⟨hold.first, hold.linked.puts hputs hnot, hold.nodup, hold.fits⟩
    have hset := hold₁.setArg_eq_none malloc ⟨hputs.self, hnot⟩ (by simpa using hheap)
      hlarge
    simp [setNew, hheap, hset]

theorem removeFound_spec (h : Represents self m) (nameHash : Hash) :
    ∃ self' m' res, removeFound self nameHash = some (self', res) ∧
      argMapMachine.step (.remove nameHash) m = some (m', res) ∧ Represents self' m' := by
  obtain ⟨nodes, hold, hmirrors⟩ := h
  by_cases hmem : nameHash ∈ m.keys
  · have hin := (mem_keys_iff hmirrors).mp hmem
    obtain ⟨nodes₁, ⟨a, v⟩, nodes₂, rfl, hhash, hfront⟩ := KeyedList.exists_first hin
    have hfound := hold.getArgHash_spec nameHash
    rw [KeyedList.lookup_append hfront hhash] at hfound
    obtain ⟨self', hremove, hold'⟩ := hold.removeArg_spec
    refine ⟨self', m.delete nameHash, .ok, ?_, if_pos hmem, _, hold', ?_⟩
    · rw [removeFound, hfound]
      exact hremove
    · have hremoved := KeyedList.Mirrors.remove (k := nameHash) hmirrors m.nodup
      have hfront' : nameHash ∉ (nodes₁.map Prod.snd).map Arg.nameHash := by simpa using hfront
      rwa [List.map_append, List.map_cons, KeyedList.remove_append hfront' hhash,
        ← List.map_append] at hremoved
  · have hnot := (mem_keys_iff hmirrors).not.mp hmem
    have hfound := hold.getArgHash_spec nameHash
    rw [KeyedList.lookup_eq_none.mpr hnot] at hfound
    refine ⟨self, m, .errInvalidPtr, ?_, if_neg hmem, nodes, hold, hmirrors⟩
    rw [removeFound, hfound]
    rfl

theorem reverse_represents (h : Represents self m) :
    ∃ self', reverse self = some (self', .ok) ∧ Represents self' m.reverse := by
  obtain ⟨nodes, hold, hmirrors⟩ := h
  obtain ⟨self', hreverse, hold'⟩ := hold.reverse_spec
  refine ⟨self', hreverse, nodes.reverse, hold', ?_⟩
  rw [List.map_reverse]
  exact List.forall₂_reverse_iff.mpr hmirrors

/-- **The list in memory and the map take a step together.** -/
theorem step_spec {call : ArgListCall} (hfits : call.Fits) (h : Represents self m) :
    ∃ self' m' res, (argListMachine malloc).step call self = some (self', res) ∧
      argMapMachine.step call m = some (m', res) ∧ Represents self' m' := by
  cases call with
  | set arg =>
    obtain ⟨self', hset, h'⟩ := setNew_spec malloc h hfits
    exact ⟨self', _, .ok, hset, rfl, h'⟩
  | remove nameHash => exact removeFound_spec h nameHash
  | reverse =>
    obtain ⟨self', hreverse, h'⟩ := reverse_represents h
    exact ⟨self', _, .ok, hreverse, rfl, h'⟩

/-- A call that is taken is one of an arg that has a block. -/
theorem fits_of_step {call : ArgListCall} {self' : ArgList} {res : PikaRes} (h : Represents self m)
    (hstep : (argListMachine malloc).step call self = some (self', res)) : call.Fits := by
  cases call with
  | set arg =>
    by_contra hlarge
    have hnone : (argListMachine malloc).step (.set arg) self = none :=
      setNew_eq_none malloc h hlarge
    rw [hnone] at hstep
    cases hstep
  | remove | reverse => trivial

/-! ### Runs -/

theorem represents_empty : Represents .empty .empty :=
  ⟨[], ⟨rfl, trivial, List.nodup_nil, by simp⟩, .nil⟩

/-- A run of calls that fit is a run of the map. -/
theorem run_of_fits {calls : List ArgListCall} (h : Represents self m)
    (hfits : ∀ call ∈ calls, call.Fits) :
    ∃ self' m' answers, (argListMachine malloc).run self calls = some (self', answers) ∧
      argMapMachine.run m calls = some (m', answers) ∧ Represents self' m' := by
  have hmeets : (argListMachine malloc).Meets (fun call _ => call.Fits) self calls := by
    clear h
    induction calls generalizing self with
    | nil => trivial
    | cons call calls ih =>
      obtain ⟨hcall, hcalls⟩ := List.forall_mem_cons.mp hfits
      exact ⟨hcall, fun self₁ _ _ => ih hcalls⟩
  exact Machine.run_both_of_meets (fun _ _ _ hcall h => step_spec malloc hcall h) h hmeets

/-- In a run that comes to an end, all calls fit. -/
theorem fits_of_run {calls : List ArgListCall} {self' : ArgList} {answers : List PikaRes}
    (h : Represents self m)
    (hrun : (argListMachine malloc).run self calls = some (self', answers)) :
    ∀ call ∈ calls, call.Fits := by
  induction calls generalizing self m answers with
  | nil => simp
  | cons call calls ih =>
    obtain ⟨self₁, res, answers', hstep, hrest, -⟩ := Machine.run_cons _ hrun
    have hcall := fits_of_step malloc h hstep
    obtain ⟨self₂, m₁, res', hstep', -, h₁⟩ := step_spec malloc hcall h
    obtain ⟨rfl, -⟩ := Prod.mk.inj (Option.some.inj (hstep'.symm.trans hstep))
    exact List.forall_mem_cons.mpr ⟨hcall, ih h₁ hrest⟩

/-! ### What is read -/

theorem size_eq {nodes : List (Nat × Arg)} (h : MirrorsMap (nodes.map Prod.snd) m) :
    m.size = nodes.length := by
  have hlength := h.length_eq
  rw [List.length_map] at hlength
  exact hlength.symm

/-- Each node of the list is at an entry of the map. -/
theorem points_of_mirrors {heap : ArgHeap} {nodes : List (Nat × Arg)}
    {entries : List (Hash × Val)} (hlinked : Linked heap nodes 0)
    (h : KeyedList.Mirrors Arg.nameHash Prod.fst (fun arg entry => arg.Has entry.2)
      (nodes.map Prod.snd) entries) :
    List.Forall₂ (Points heap) (nodes.map Prod.fst) entries := by
  induction nodes generalizing entries with
  | nil =>
    cases h
    exact .nil
  | cons node nodes ih =>
    cases h with
    | cons hentry hrest => exact .cons ⟨_, hlinked.1, hentry⟩ (ih hlinked.2 hrest)

/-- What is found by its hash is the entry. -/
theorem found_of_mirrors {heap : ArgHeap} {nodes : List (Nat × Arg)}
    {entries : List (Hash × Val)} (hlinked : Linked heap nodes 0)
    (h : KeyedList.Mirrors Arg.nameHash Prod.fst (fun arg entry => arg.Has entry.2)
      (nodes.map Prod.snd) entries) (nameHash : Hash) :
    FoundAt heap nameHash ((KeyedList.lookup (·.2.nameHash) nameHash nodes).elim 0 Prod.fst)
      ((KeyedList.lookup Prod.fst nameHash entries).map Prod.snd) := by
  induction nodes generalizing entries with
  | nil =>
    cases h
    rfl
  | cons node nodes ih =>
    cases h with
    | @cons _ entry _ entries hentry hrest =>
      rw [KeyedList.lookup_cons, KeyedList.lookup_cons, hentry.1]
      by_cases hkey : entry.1 = nameHash
      · rw [if_pos hkey, if_pos hkey]
        exact ⟨_, hlinked.1, hentry.1.trans hkey, hentry.2⟩
      · rw [if_neg hkey, if_neg hkey]
        exact ih hlinked.2 hrest

/-- **The list agrees with its map, up to the count of its nodes.** -/
theorem agrees_iff (h : Represents self m) : Agrees self m ↔ m.size < 2 ^ 31 := by
  obtain ⟨nodes, hold, hmirrors⟩ := h
  have hsize := size_eq hmirrors
  constructor
  · intro hagrees
    have hcount := hagrees.size
    rw [hold.getSize_spec, ← hsize] at hcount
    have hfits := fitsS32_s32 m.size
    rw [Option.some.inj hcount] at hfits
    have := hfits.2
    omega
  · intro hsmall
    refine ⟨?_, ⟨nodes.map Prod.fst, points_of_mirrors hold.linked hmirrors, fun i hi => ?_,
      fun eachHandle context => hold.foreach_spec eachHandle context⟩, fun nameHash => ?_⟩
    · rw [hold.getSize_spec, ← hsize, s32_of_fits ⟨by omega, by omega⟩]
    · exact hold.getArgByIndex_spec (hsize ▸ hi)
    · exact ⟨_, hold.getArgHash_spec nameHash, found_of_mirrors hold.linked hmirrors nameHash⟩

/-- **An args list is an ordered map, whatever its nodes have to do, exactly as long as every arg
that is set has a block and the map has fewer entries than an `int32_t` counts.** -/
theorem argList_iff (malloc : ArgMalloc) (calls : List ArgListCall) :
    Law malloc calls ↔ (∀ call ∈ calls, call.Fits) ∧
      ∀ m answers, argMapMachine.run .empty calls = some (m, answers) → m.size < 2 ^ 31 := by
  constructor
  · rintro ⟨self, m, answers, hrun, hmap, hagrees⟩
    have hfits := fits_of_run malloc represents_empty hrun
    refine ⟨hfits, fun m' answers' hmap' => ?_⟩
    obtain ⟨self', m₁, answers₁, hrun₁, hmap₁, h⟩ := run_of_fits malloc
      represents_empty hfits
    obtain ⟨rfl, -⟩ := Prod.mk.inj (Option.some.inj (hrun₁.symm.trans hrun))
    obtain ⟨rfl, -⟩ := Prod.mk.inj (Option.some.inj (hmap₁.symm.trans hmap))
    obtain ⟨rfl, -⟩ := Prod.mk.inj (Option.some.inj (hmap₁.symm.trans hmap'))
    exact (agrees_iff h).mp hagrees
  · rintro ⟨hfits, hsmall⟩
    obtain ⟨self, m, answers, hrun, hmap, h⟩ := run_of_fits malloc
      represents_empty hfits
    exact ⟨self, m, answers, hrun, hmap, (agrees_iff h).mpr (hsmall m answers hmap)⟩

/-- For a content of `2 ^ 32 - 32` bytes `heap_size` is 0. -/
theorem not_argList :
    ¬Law .upward [.set ⟨⟨.struct, 0, 177670, List.replicate (2 ^ 32 - 32) 0⟩, 0⟩] := by
  rintro ⟨self, m, answers, hrun, -⟩
  have hfits : FitsBlock (List.replicate (2 ^ 32 - 32) 0) :=
    fits_of_run _ represents_empty hrun _ List.mem_cons_self
  rw [FitsBlock, List.length_replicate, sizeofArgBlock] at hfits
  omega

end ArgList

end PikaScript
