import Mathlib.Data.List.DropRight
import PikaScript.Lib.Worklist
import PikaScript.Library.Archive

/-! The maker of `PikaCompiler.c`: a module is compiled with all it depends on.

The maker is an object that keeps one object for each module it has met, with the
name and the state of the module, beside its own attributes. A module is entered by
the hash of its name with `|` for `.`, in front of what is there, but looked for by
the hash of its name as it is, so a submodule is not found again: its state is set
to `nocompiled` at every import. Otherwise the maker is a worklist, and what it does
about submodules is the worklist's forgetting (`compileModuleWithDepends_iff`).

A project is its `.py` files, each by the name of its module; what a module imports
is read from its bytecode. -/
namespace PikaScript

/-! ### The code -/

/-- The modules of a project, each with what its bytecode imports, in order. -/
structure Project where
  sources : List (CString × List CString)
deriving Repr

/-- The `state` of a module. -/
inductive ModuleState where
  | nocompiled
  | compiled
  | failed
deriving DecidableEq, Repr

/-- An arg of the maker: the object of a module with its name and state, or none. -/
structure MakerEntry where
  nameHash : Hash
  module : Option (CString × ModuleState)
deriving DecidableEq, Repr

/-- `PikaMaker`, and the modules it has compiled, in order. -/
structure Maker where
  list : List MakerEntry
  compiles : List CString
deriving DecidableEq, Repr

namespace Project
variable (p : Project)

/-- `_checkModuleType`: there is a `.py` file of this name. -/
def isFile (name : CString) : Bool := (p.sources.map Prod.fst).contains name

/-- The `IMP` and `INH` units in the bytecode of a module. -/
def imports (name : CString) : List CString :=
  ((KeyedList.lookup Prod.fst name p.sources).map Prod.snd).getD []

/-- `strPopLastToken`; without the sign nothing is popped. -/
def popLastToken (str : CString) (sign : BitVec 8) : CString :=
  if str.contains sign then (str.rdropWhile (· != sign)).dropLast else str

/-- The tries of `_redirectModuleFromFs`. -/
def redirectLoop : Nat → CString → CString
  | 0, name => name
  | n + 1, name =>
    if p.isFile name then name else redirectLoop n (popLastToken name charDot)

/-- `_redirectModuleFromFs`: the longest part of a dotted name that has a file. -/
def redirect (name : CString) : Option CString :=
  if name.count charDot = 0 then none
  else some (redirectLoop p (name.count charDot + 1) name)

end Project

namespace Maker
variable (signedChar : Bool) (p : Project) (self : Maker)

/-- An entry under its hash: in the place of the first one, or in front. -/
def enter (entry : MakerEntry) : Maker :=
  { self with
    list := (KeyedList.update MakerEntry.nameHash entry.nameHash (fun _ => entry) self.list).getD
      (entry :: self.list) }

/-- `obj_setStr`, `obj_setInt` and `obj_setPtr` of an attribute. -/
def setAttr (name : CString) : Maker := enter self ⟨hashTime33 signedChar name, none⟩

/-- `obj_removeArg`. -/
def removeAttr (name : CString) : Maker :=
  { self with
    list := KeyedList.remove MakerEntry.nameHash (hashTime33 signedChar name) self.list }

def pwd : CString := [0x70, 0x77, 0x64]
def err : CString := [0x65, 0x72, 0x72]
def lib : CString := [0x6c, 0x69, 0x62]
def res : CString := [0x72, 0x65, 0x73]

/-- `New_PikaMaker`. -/
def new : Maker :=
  setAttr signedChar (setAttr signedChar (setAttr signedChar ⟨[], []⟩ pwd) err) lib

/-- `pikaMaker_setState`. -/
def setState (moduleName : CString) (state : ModuleState) : Maker :=
  enter self ⟨moduleKey signedChar moduleName, some (moduleName, state)⟩

/-- `pikaMaker_getState`. No object holds another, so a dotted name is not found; an
attribute has no state. -/
def getState (moduleName : CString) : Option ModuleState :=
  if moduleName.contains charDot then some .nocompiled
  else match KeyedList.lookup MakerEntry.nameHash (hashTime33 signedChar moduleName) self.list with
    | none => some .nocompiled
    | some entry => entry.module.map Prod.snd

/-- `pikaMaker_compileModule`. It fails for a file that cannot be loaded. -/
def compileModule (moduleName : CString) : Maker × PikaRes :=
  if p.isFile moduleName then
    ({ setState signedChar self moduleName .compiled with
        compiles := self.compiles ++ [moduleName] }, .ok)
  else (setState signedChar self moduleName .failed, .errIoError)

/-- One import in `pikaMaker_getDependencies`. The warning about a missing file
changes nothing. -/
def addDependency (impModuleName : CString) : Maker :=
  let impModuleName := (p.redirect impModuleName).getD impModuleName
  if (KeyedList.lookup MakerEntry.nameHash (hashTime33 signedChar impModuleName) self.list).isSome
  then self
  else if p.isFile impModuleName then setState signedChar self impModuleName .nocompiled
  else self

/-- `pikaMaker_getDependencies`. -/
def getDependencies (moduleName : CString) : Maker :=
  (p.imports moduleName).foldl (addDependency signedChar p) self

/-- `__foreach_handler_getFirstNocompiled` over the maker. -/
def firstNocompiled : Option CString :=
  self.list.findSome? fun entry =>
    match entry.module with
    | some (name, .nocompiled) => some name
    | _ => none

/-- `pikaMaker_getFirstNocompiled`. -/
def getFirstNocompiled : Maker × Option CString :=
  match firstNocompiled self with
  | none => (removeAttr signedChar self res, none)
  | some name => (setAttr signedChar self res, some name)

/-- The loop of `pikaMaker_compileModuleWithDepends`; none without an end in so many
rounds. -/
def compileLoop : Nat → Maker → Option (Maker × PikaRes)
  | 0, _ => none
  | rounds + 1, self =>
    match getFirstNocompiled signedChar self with
    | (self, none) => some (self, .ok)
    | (self, some uncompiled) =>
      match compileModule signedChar p self uncompiled with
      | (self, .ok) => compileLoop rounds (getDependencies signedChar p self uncompiled)
      | (self, res) => some (setAttr signedChar self err, res)

/-- `pikaMaker_compileModuleWithDepends`. -/
def compileModuleWithDepends (rounds : Nat) (moduleName : CString) : Option (Maker × PikaRes) :=
  if getState signedChar self moduleName ≠ some .nocompiled then some (self, .ok)
  else match compileModule signedChar p self moduleName with
    | (self, .ok) => compileLoop signedChar p rounds (getDependencies signedChar p self moduleName)
    | (self, res) => some (setAttr signedChar self err, res)

/-- The hashes of the attributes of a maker. -/
def attrs : List Hash := [pwd, err, lib, res].map (hashTime33 signedChar)

/-- The object under the hash of a module. -/
def moduleState (name : CString) : Option (CString × ModuleState) :=
  (KeyedList.lookup MakerEntry.nameHash (moduleKey signedChar name) self.list).bind
    MakerEntry.module

end Maker

/-! ### What is claimed -/

namespace Project
variable (p : Project) (signedChar : Bool)

/-- The module an import is of: a part of a dotted name that has a file, if there is one. -/
def resolve (name : CString) : CString := (p.redirect name).getD name

/-- The modules a module imports. -/
def succ (name : CString) : List CString := ((p.imports name).map p.resolve).filter p.isFile

/-- The name of a submodule. -/
def isDotted (name : CString) : Bool := name.contains charDot

/-- **The dependency law**: the maker comes to its end, and every module that can be
reached has been compiled once and is `compiled`. -/
def DependsLaw (moduleName : CString) : Prop :=
  ∃ rounds self,
    Maker.compileModuleWithDepends signedChar p (Maker.new signedChar) rounds moduleName =
      some (self, .ok) ∧
    ∀ name, Worklist.Reach p.succ moduleName name →
      self.compiles.count name = 1 ∧ self.moduleState signedChar name = some (name, .compiled)

/-- No hash stands for two things: neither the hashes modules are entered by, nor the
attributes', nor those submodules are looked for by. -/
structure NamesFree (moduleName : CString) : Prop where
  key_inj : ∀ a b, Worklist.Reach p.succ moduleName a → Worklist.Reach p.succ moduleName b →
    moduleKey signedChar a = moduleKey signedChar b → a = b
  key_attr : ∀ a, Worklist.Reach p.succ moduleName a →
    moduleKey signedChar a ∉ Maker.attrs signedChar
  dotted_attr : ∀ a, Worklist.Reach p.succ moduleName a → isDotted a →
    hashTime33 signedChar a ∉ Maker.attrs signedChar
  dotted_key : ∀ a b, Worklist.Reach p.succ moduleName a → isDotted a →
    Worklist.Reach p.succ moduleName b → hashTime33 signedChar a ≠ moduleKey signedChar b

/-- The modules that can be reached, in the order they are visited when the newest of
those met is always the next. -/
def visits (moduleName : CString) : List CString :=
  (Worklist.fullRun p.succ moduleName (p.sources.length + 1)).2

end Project

/-! ### The maker as a worklist -/

/-- What a worklist has of an entry: a module, and whether it is compiled. -/
def MakerEntry.view (entry : MakerEntry) : Option (CString × Bool) :=
  entry.module.map fun module => (module.1, module.2 == .compiled)

/-- An attribute under its hash, or a module that can be reached under its own. -/
def MakerEntry.Proper (signedChar : Bool) (p : Project) (start : CString) (entry : MakerEntry) :
    Prop :=
  entry.module = none ∧ entry.nameHash ∈ Maker.attrs signedChar ∨
    ∃ name state, entry.module = some (name, state) ∧
      entry.nameHash = moduleKey signedChar name ∧ Worklist.Reach p.succ start name ∧
      state ≠ .failed

namespace Maker
variable {signedChar : Bool} {p : Project} {self : Maker} {start name : CString}
  {entry : MakerEntry} {l : Worklist CString} {visits : List CString}

/-- The maker is the worklist `l`, and has compiled `visits`. -/
structure Mirrors (signedChar : Bool) (p : Project) (start : CString) (maker : Maker)
    (l : Worklist CString) (visits : List CString) : Prop where
  nodup : (maker.list.map MakerEntry.nameHash).Nodup
  proper : ∀ entry ∈ maker.list, entry.Proper signedChar p start
  view : maker.list.filterMap MakerEntry.view = l
  compiles : maker.compiles = visits

theorem keys_enter : (enter self entry).list.map MakerEntry.nameHash =
    if entry.nameHash ∈ self.list.map MakerEntry.nameHash then
      self.list.map MakerEntry.nameHash
    else entry.nameHash :: self.list.map MakerEntry.nameHash := by
  unfold enter
  split
  · obtain ⟨list, hup⟩ := Option.isSome_iff_exists.mp
      (KeyedList.update_isSome (f := fun _ => entry).mpr ‹_›)
    rw [hup]
    exact KeyedList.keys_update (fun _ _ => rfl) hup
  · rw [KeyedList.update_eq_none.mpr ‹_›]
    rfl

/-- Entering puts the entry where its hash is, or in front. -/
theorem list_enter (h : Mirrors signedChar p start self l visits) : (enter self entry).list =
    if entry.nameHash ∈ self.list.map MakerEntry.nameHash then
      self.list.map fun e => if e.nameHash = entry.nameHash then entry else e
    else entry :: self.list := by
  unfold enter
  split
  · rw [KeyedList.update_eq_map h.nodup ‹_›]
    rfl
  · rw [KeyedList.update_eq_none.mpr ‹_›]
    rfl

theorem nodup_enter (h : Mirrors signedChar p start self l visits) :
    ((enter self entry).list.map MakerEntry.nameHash).Nodup := by
  rw [keys_enter]
  split
  · exact h.nodup
  · exact List.nodup_cons.mpr ⟨‹_›, h.nodup⟩

theorem proper_enter (h : Mirrors signedChar p start self l visits)
    (hentry : entry.Proper signedChar p start) :
    ∀ e ∈ (enter self entry).list, e.Proper signedChar p start := by
  rw [list_enter h]
  intro e he
  split at he
  · obtain ⟨e', he', rfl⟩ := List.mem_map.mp he
    split
    · exact hentry
    · exact h.proper e' he'
  · rcases List.mem_cons.mp he with rfl | he
    · exact hentry
    · exact h.proper e he

section
variable (hfree : p.NamesFree signedChar start)
include hfree

/-- An entry with the hash of an attribute is one. -/
theorem view_of_attr (hentry : entry.Proper signedChar p start)
    (hattr : entry.nameHash ∈ Maker.attrs signedChar) : entry.view = none := by
  rcases hentry with ⟨hnone, -⟩ | ⟨name, state, -, hkey, hreach, -⟩
  · rw [MakerEntry.view, hnone]
    rfl
  · exact (hfree.key_attr name hreach (hkey ▸ hattr)).elim

/-- An entry with the hash of a module is that module's. -/
theorem view_of_key (hentry : entry.Proper signedChar p start)
    (hreach : Worklist.Reach p.succ start name)
    (hkey : entry.nameHash = moduleKey signedChar name) :
    ∃ state, entry.module = some (name, state) ∧ state ≠ .failed := by
  rcases hentry with ⟨-, hattr⟩ | ⟨name', state, hmodule, hkey', hreach', hstate⟩
  · exact (hfree.key_attr name hreach (hkey ▸ hattr)).elim
  · cases hfree.key_inj name' name hreach' hreach (hkey'.symm.trans hkey)
    exact ⟨state, hmodule, hstate⟩

/-- A module is in the worklist when its hash is in the maker. -/
theorem mem_view_iff (h : Mirrors signedChar p start self l visits)
    (hreach : Worklist.Reach p.succ start name) :
    name ∈ l.map Prod.fst ↔ moduleKey signedChar name ∈ self.list.map MakerEntry.nameHash := by
  rw [← h.view, List.mem_map, List.mem_map]
  constructor
  · intro ⟨q, hq, hname⟩
    obtain ⟨e, he, hview⟩ := List.mem_filterMap.mp hq
    obtain ⟨⟨name', state⟩, hmodule, rfl⟩ := Option.map_eq_some_iff.mp hview
    cases (show name' = name from hname)
    rcases h.proper e he with ⟨hnone, -⟩ | ⟨name', state', hmodule', hkey, -, -⟩
    · rw [hmodule] at hnone
      cases hnone
    · rw [hmodule] at hmodule'
      cases hmodule'
      exact ⟨e, he, hkey⟩
  · intro ⟨e, he, hkey⟩
    obtain ⟨state, hmodule, -⟩ := view_of_key hfree (h.proper e he) hreach hkey
    refine ⟨(name, state == .compiled), List.mem_filterMap.mpr ⟨e, he, ?_⟩, rfl⟩
    rw [MakerEntry.view, hmodule]
    rfl

/-- **Setting a state** is marking in the worklist, or meeting. -/
theorem Mirrors.setState (h : Mirrors signedChar p start self l visits)
    (hreach : Worklist.Reach p.succ start name) (state : ModuleState) (hstate : state ≠ .failed) :
    Mirrors signedChar p start (Maker.setState signedChar self name state)
      (if name ∈ l.map Prod.fst then Worklist.mark name (state == .compiled) l
        else (name, state == .compiled) :: l) visits where
  nodup := nodup_enter h
  proper := proper_enter h (Or.inr ⟨name, state, rfl, rfl, hreach, hstate⟩)
  compiles := h.compiles
  view := by
    rw [Maker.setState, list_enter h]
    dsimp only
    by_cases hmem : name ∈ l.map Prod.fst
    · rw [if_pos hmem, if_pos ((mem_view_iff hfree h hreach).mp hmem), ← h.view, Worklist.mark,
        List.filterMap_map, List.map_filterMap]
      refine List.filterMap_congr fun e he => ?_
      by_cases hkey : e.nameHash = moduleKey signedChar name
      · obtain ⟨state', hmodule, -⟩ := view_of_key hfree (h.proper e he) hreach hkey
        simp [MakerEntry.view, hkey, hmodule]
      · rcases h.proper e he with ⟨hnone, -⟩ | ⟨name', state', hmodule, hkey', -, -⟩
        · simp [MakerEntry.view, hkey, hnone]
        · have hne : name' ≠ name := fun heq => hkey (heq ▸ hkey')
          simp [MakerEntry.view, hkey, hmodule, hne]
    · rw [if_neg hmem, if_neg ((mem_view_iff hfree h hreach).not.mp hmem),
        List.filterMap_cons, ← h.view]
      rfl

theorem Mirrors.setAttr (h : Mirrors signedChar p start self l visits)
    (hattr : hashTime33 signedChar name ∈ Maker.attrs signedChar) :
    Mirrors signedChar p start (Maker.setAttr signedChar self name) l visits where
  nodup := nodup_enter h
  proper := proper_enter h (Or.inl ⟨rfl, hattr⟩)
  compiles := h.compiles
  view := by
    rw [Maker.setAttr, list_enter h]
    dsimp only
    split
    · rw [List.filterMap_map, ← h.view]
      refine List.filterMap_congr fun e he => ?_
      by_cases hkey : e.nameHash = hashTime33 signedChar name
      · rw [view_of_attr hfree (h.proper e he) (hkey ▸ hattr), Function.comp_apply, if_pos hkey]
        rfl
      · rw [Function.comp_apply, if_neg hkey]
    · rw [List.filterMap_cons_none rfl, h.view]

theorem Mirrors.removeAttr (h : Mirrors signedChar p start self l visits)
    (hattr : hashTime33 signedChar name ∈ Maker.attrs signedChar) :
    Mirrors signedChar p start (Maker.removeAttr signedChar self name) l visits where
  nodup := by
    rw [Maker.removeAttr, KeyedList.keys_remove]
    exact h.nodup.erase _
  proper e he := h.proper e (KeyedList.mem_of_mem_remove he)
  compiles := h.compiles
  view := by
    rw [Maker.removeAttr, KeyedList.filterMap_remove, h.view]
    intro e he hkey
    exact view_of_attr hfree (h.proper e he) (hkey ▸ hattr)

end
end Maker

/-! ### Dependencies -/

theorem moduleKey_of_not_dotted {signedChar : Bool} {name : CString}
    (h : Project.isDotted name = false) :
    moduleKey signedChar name = hashTime33 signedChar name := by
  have hmem : charDot ∉ name := fun hmem => by
    rw [Project.isDotted, List.contains_iff_mem.mpr hmem] at h
    cases h
  rw [moduleKey, strsReplace_of_not_mem hmem]

namespace Maker
section
variable {signedChar : Bool} {p : Project} {self : Maker} {start name : CString}
  {l : Worklist CString} {visits : List CString}
  (hfree : p.NamesFree signedChar start)
include hfree

/-- A submodule is never found; another module is when it is in the worklist. -/
theorem lookup_isSome_iff (h : Mirrors signedChar p start self l visits)
    (hreach : Worklist.Reach p.succ start name) :
    (KeyedList.lookup MakerEntry.nameHash (hashTime33 signedChar name) self.list).isSome ↔
      name ∈ l.map Prod.fst ∧ Project.isDotted name = false := by
  rw [KeyedList.lookup_isSome]
  cases hdot : Project.isDotted name with
  | false =>
    rw [mem_view_iff hfree h hreach, moduleKey_of_not_dotted hdot]
    exact (and_iff_left rfl).symm
  | true =>
    refine ⟨fun hmem => ?_, fun h => (nomatch h.2)⟩
    obtain ⟨e, he, hhash⟩ := List.mem_map.mp hmem
    rcases h.proper e he with ⟨-, hattr⟩ | ⟨name', -, -, hkey, hreach', -⟩
    · exact (hfree.dotted_attr name hreach hdot (hhash ▸ hattr)).elim
    · exact (hfree.dotted_key name name' hreach hdot hreach' (hhash.symm.trans hkey)).elim

/-- **An import** of a module that has a file is meeting it. -/
theorem Mirrors.addDependency (h : Mirrors signedChar p start self l visits)
    (hreach : p.isFile (p.resolve name) → Worklist.Reach p.succ start (p.resolve name)) :
    Mirrors signedChar p start (Maker.addDependency signedChar p self name)
      (if p.isFile (p.resolve name) then
        Worklist.meet Project.isDotted l (p.resolve name) else l) visits := by
  have hdef : Maker.addDependency signedChar p self name =
      if (KeyedList.lookup MakerEntry.nameHash (hashTime33 signedChar (p.resolve name))
        self.list).isSome then self
      else if p.isFile (p.resolve name) then
        Maker.setState signedChar self (p.resolve name) .nocompiled
      else self := rfl
  rw [hdef]
  by_cases hfile : p.isFile (p.resolve name)
  · rw [if_pos hfile, if_pos hfile, Worklist.meet]
    have hiff := lookup_isSome_iff hfree h (hreach hfile)
    have hset := h.setState hfree (hreach hfile) .nocompiled (by decide)
    by_cases hmem : p.resolve name ∈ l.map Prod.fst
    · rw [if_pos hmem] at hset ⊢
      cases hdot : Project.isDotted (p.resolve name) with
      | false => rwa [if_pos (hiff.mpr ⟨hmem, hdot⟩)]
      | true => rwa [if_neg fun hsome => by simp [hdot] at hiff; simp [hiff] at hsome]
    · rw [if_neg hmem] at hset ⊢
      rwa [if_neg fun hsome => hmem (hiff.mp hsome).1]
  · rw [if_neg hfile, if_neg hfile, ite_self]
    exact h

/-- **The imports of a module** are met one after another. -/
theorem Mirrors.getDependencies (h : Mirrors signedChar p start self l visits)
    (hreach : Worklist.Reach p.succ start name) :
    Mirrors signedChar p start (Maker.getDependencies signedChar p self name)
      ((p.succ name).foldl (Worklist.meet Project.isDotted) l) visits := by
  have hsucc : ∀ imp ∈ p.imports name, p.isFile (p.resolve imp) →
      Worklist.Reach p.succ start (p.resolve imp) := fun imp himp hfile =>
    .step hreach (List.mem_filter.mpr ⟨List.mem_map_of_mem himp, hfile⟩)
  rw [Maker.getDependencies, Project.succ]
  generalize p.imports name = imps at hsucc
  induction imps generalizing self l with
  | nil => exact h
  | cons imp imps ih =>
    have hstep := h.addDependency hfree (hsucc imp List.mem_cons_self)
    have hrest := ih hstep fun imp himp => hsucc imp (List.mem_cons_of_mem _ himp)
    rw [List.foldl_cons, List.map_cons]
    by_cases hfile : p.isFile (p.resolve imp)
    · rw [List.filter_cons_of_pos hfile, List.foldl_cons]
      rwa [if_pos hfile] at hrest
    · rw [List.filter_cons_of_neg hfile]
      rwa [if_neg hfile] at hrest

theorem Mirrors.compileModule (h : Mirrors signedChar p start self l visits)
    (hreach : Worklist.Reach p.succ start name) (hfile : p.isFile name) :
    ∃ self', Maker.compileModule signedChar p self name = (self', .ok) ∧
      Mirrors signedChar p start self'
        (if name ∈ l.map Prod.fst then Worklist.mark name true l else (name, true) :: l)
        (visits ++ [name]) := by
  have hset := h.setState hfree hreach .compiled (by decide)
  rw [Maker.compileModule, if_pos hfile]
  exact ⟨_, rfl, hset.nodup, hset.proper, hset.view, by rw [h.compiles]⟩

omit hfree in
/-- What is looked for next is what the worklist visits next. -/
theorem firstNocompiled_eq (h : Mirrors signedChar p start self l visits) :
    firstNocompiled self = l.next := by
  have hproper := h.proper
  rw [← h.view, firstNocompiled]
  generalize self.list = list at hproper
  induction list with
  | nil => rfl
  | cons e list ih =>
    have ih := ih fun e he => hproper e (List.mem_cons_of_mem _ he)
    rcases hproper e List.mem_cons_self with ⟨hnone, -⟩ | ⟨name, state, hmodule, -, -, hstate⟩
    · rw [List.findSome?_cons, hnone, ih, List.filterMap_cons_none]
      rw [MakerEntry.view, hnone]
      rfl
    · have hview : e.view = some (name, state == .compiled) := by
        rw [MakerEntry.view, hmodule]
        rfl
      rw [List.findSome?_cons, hmodule, List.filterMap_cons, hview]
      cases state with
      | nocompiled => rfl
      | compiled => exact ih
      | failed => exact (hstate rfl).elim

theorem Mirrors.getFirstNocompiled (h : Mirrors signedChar p start self l visits) :
    ∃ self', Maker.getFirstNocompiled signedChar self = (self', l.next) ∧
      Mirrors signedChar p start self' l visits := by
  have hattr : hashTime33 signedChar res ∈ attrs signedChar :=
    List.mem_map_of_mem (by simp)
  rw [Maker.getFirstNocompiled, firstNocompiled_eq h]
  cases l.next with
  | none => exact ⟨_, rfl, h.removeAttr hfree hattr⟩
  | some name => exact ⟨_, rfl, h.setAttr hfree hattr⟩

omit hfree in
theorem Mirrors.reach (h : Mirrors signedChar p start self l visits)
    (hmem : name ∈ l.map Prod.fst) : Worklist.Reach p.succ start name := by
  rw [← h.view] at hmem
  obtain ⟨q, hq, rfl⟩ := List.mem_map.mp hmem
  obtain ⟨e, he, hview⟩ := List.mem_filterMap.mp hq
  obtain ⟨module, hmodule, rfl⟩ := Option.map_eq_some_iff.mp hview
  rcases h.proper e he with ⟨hnone, -⟩ | ⟨name', state, hmodule', -, hreach, -⟩
  · rw [hmodule] at hnone
    cases hnone
  · rw [hmodule] at hmodule'
    cases hmodule'
    exact hreach

/-! ### The loop -/

/-- Compiling a module and meeting its imports is a visit. -/
theorem Mirrors.visit (h : Mirrors signedChar p start self l visits)
    (hmem : name ∈ l.map Prod.fst) (hfile : p.isFile name) :
    ∃ self', Maker.compileModule signedChar p self name = (self', .ok) ∧
      Mirrors signedChar p start (Maker.getDependencies signedChar p self' name)
        (Worklist.visit p.succ Project.isDotted name l) (visits ++ [name]) := by
  obtain ⟨self', hcompile, h'⟩ := h.compileModule hfree (h.reach hmem) hfile
  rw [if_pos hmem] at h'
  exact ⟨self', hcompile, h'.getDependencies hfree (h.reach hmem)⟩

omit hfree in
theorem isFile_of_reach (hstart : p.isFile start) (h : Worklist.Reach p.succ start name) :
    p.isFile name := by
  cases h with
  | start => exact hstart
  | step _ hmem => exact (List.mem_filter.mp hmem).2

variable (hstart : p.isFile start)
include hstart

/-- One round of the loop. -/
theorem Mirrors.round (h : Mirrors signedChar p start self l visits) (rounds : Nat) :
    ∃ self', match l.next with
      | none =>
        compileLoop signedChar p (rounds + 1) self = some (self', .ok) ∧
          Mirrors signedChar p start self' l visits
      | some name =>
        compileLoop signedChar p (rounds + 1) self = compileLoop signedChar p rounds self' ∧
          Mirrors signedChar p start self' (Worklist.visit p.succ Project.isDotted name l)
            (visits ++ [name]) := by
  obtain ⟨self₁, hfirst, h₁⟩ := h.getFirstNocompiled hfree
  cases hnext : l.next with
  | none =>
    refine ⟨self₁, ?_, h₁⟩
    rw [compileLoop, hfirst, hnext]
  | some name =>
    have hmem : name ∈ l.map Prod.fst := List.mem_map_of_mem (Worklist.next_eq_some hnext)
    obtain ⟨self₂, hcompile, h₂⟩ := h₁.visit hfree hmem (isFile_of_reach hstart (h.reach hmem))
    refine ⟨_, ?_, h₂⟩
    rw [compileLoop, hfirst, hnext]
    dsimp only
    rw [hcompile]

/-- The worklist's run, which forgets the submodules. -/
abbrev worklistRun (p : Project) (start : CString) (n : Nat) : Worklist CString × List CString :=
  Worklist.run p.succ Project.isDotted start n

/-- **The loop ends where the worklist does.** -/
theorem compileLoop_of_next {n rounds : Nat}
    (h : Mirrors signedChar p start self (worklistRun p start n).1 (worklistRun p start n).2)
    (hend : (worklistRun p start (n + rounds)).1.next = none) :
    ∃ self', compileLoop signedChar p (rounds + 1) self = some (self', .ok) ∧
      Mirrors signedChar p start self' (worklistRun p start (n + rounds)).1
        (worklistRun p start (n + rounds)).2 := by
  induction rounds generalizing n self with
  | zero =>
    obtain ⟨self', hround⟩ := h.round hfree hstart 0
    rw [Nat.add_zero] at hend ⊢
    rw [hend] at hround
    exact ⟨self', hround⟩
  | succ rounds ih =>
    obtain ⟨self', hround⟩ := h.round hfree hstart (rounds + 1)
    cases hnext : (worklistRun p start n).1.next with
    | none =>
      have hstay : worklistRun p start (n + (rounds + 1)) = worklistRun p start n :=
        Worklist.run_eq_of_none hnext (Nat.le_add_right _ _)
      rw [hnext] at hround
      rw [hstay]
      exact ⟨self', hround⟩
    | some name =>
      rw [hnext] at hround
      obtain ⟨hloop, h'⟩ := hround
      have hstep : worklistRun p start (n + 1) = _ := Worklist.run_succ_of_some hnext
      have hadd : n + (rounds + 1) = n + 1 + rounds := by omega
      rw [hadd] at hend ⊢
      rw [hloop]
      refine ih (n := n + 1) ?_ hend
      rw [hstep]
      exact h'

/-- A loop that ends has gone through a whole run of the worklist. -/
theorem next_of_compileLoop {n rounds : Nat} {self' : Maker} {res : PikaRes}
    (h : Mirrors signedChar p start self (worklistRun p start n).1 (worklistRun p start n).2)
    (hloop : compileLoop signedChar p rounds self = some (self', res)) :
    ∃ n', (worklistRun p start n').1.next = none ∧
      Mirrors signedChar p start self' (worklistRun p start n').1 (worklistRun p start n').2 := by
  induction rounds generalizing n self with
  | zero => cases hloop
  | succ rounds ih =>
    obtain ⟨self₁, hround⟩ := h.round hfree hstart rounds
    cases hnext : (worklistRun p start n).1.next with
    | none =>
      rw [hnext] at hround
      cases hround.1.symm.trans hloop
      exact ⟨n, hnext, hround.2⟩
    | some name =>
      rw [hnext] at hround
      obtain ⟨hround, h'⟩ := hround
      have hstep : worklistRun p start (n + 1) = _ := Worklist.run_succ_of_some hnext
      refine ih (n := n + 1) ?_ (hround ▸ hloop)
      rw [hstep]
      exact h'

/-! ### The first module -/

omit hfree hstart in
theorem mirrors_new (signedChar : Bool) (p : Project) (start : CString) :
    Mirrors signedChar p start (new signedChar) [] [] where
  nodup := by cases signedChar <;> decide
  proper e he := by
    refine .inl ?_
    have hall : ∀ e ∈ (new signedChar).list, e.module = none ∧ e.nameHash ∈ attrs signedChar := by
      cases signedChar <;> decide
    exact hall e he
  view := by cases signedChar <;> rfl
  compiles := rfl

theorem mirrors_start : ∃ self',
    compileModule signedChar p (new signedChar) start = (self', .ok) ∧
      Mirrors signedChar p start (getDependencies signedChar p self' start)
        (worklistRun p start 1).1 (worklistRun p start 1).2 := by
  obtain ⟨self', hcompile, h'⟩ :=
    Mirrors.compileModule hfree (mirrors_new signedChar p start) .start hstart
  refine ⟨self', hcompile, ?_⟩
  have hrun : worklistRun p start 1 =
      ((p.succ start).foldl (Worklist.meet Project.isDotted) [(start, true)], [start]) := by
    have hmark : Worklist.mark start true [(start, false)] = [(start, true)] :=
      congrArg (· :: []) (if_pos rfl)
    show (Worklist.visit p.succ Project.isDotted start [(start, false)], [start]) = _
    rw [Worklist.visit, hmark]
  rw [hrun]
  rw [List.map_nil, if_neg List.not_mem_nil] at h'
  exact h'.getDependencies hfree .start

omit hstart in
theorem getState_new : getState signedChar (new signedChar) start = some .nocompiled := by
  rw [getState]
  split
  · rfl
  · have hdot : Project.isDotted start = false := Bool.not_eq_true _ ▸ ‹_›
    have hfound := lookup_isSome_iff hfree (mirrors_new signedChar p start) .start
    cases hlookup : KeyedList.lookup MakerEntry.nameHash (hashTime33 signedChar start)
        (new signedChar).list with
    | none => rfl
    | some e =>
      rw [hlookup] at hfound
      exact absurd (hfound.mp rfl).1 List.not_mem_nil

/-- The maker comes to the loop with the first module compiled. -/
theorem compileModuleWithDepends_eq : ∃ self',
    (∀ rounds, compileModuleWithDepends signedChar p (new signedChar) rounds start =
      compileLoop signedChar p rounds self') ∧
    Mirrors signedChar p start self' (worklistRun p start 1).1 (worklistRun p start 1).2 := by
  obtain ⟨self', hcompile, h'⟩ := mirrors_start hfree hstart
  refine ⟨_, fun rounds => ?_, h'⟩
  rw [compileModuleWithDepends, getState_new hfree, if_neg (fun h => h rfl), hcompile]

omit hfree hstart in
/-- What is compiled in the worklist is `compiled` in the maker. -/
theorem moduleState_of_mem (h : Mirrors signedChar p start self l visits)
    (hmem : (name, true) ∈ l) : self.moduleState signedChar name = some (name, .compiled) := by
  rw [← h.view] at hmem
  obtain ⟨e, he, hview⟩ := List.mem_filterMap.mp hmem
  rcases h.proper e he with ⟨hnone, -⟩ | ⟨name', state, hmodule, hkey, -, -⟩
  · rw [MakerEntry.view, hnone] at hview
    cases hview
  · rw [MakerEntry.view, hmodule, Option.map_some, Option.some_inj, Prod.mk.injEq,
      beq_iff_eq] at hview
    obtain ⟨hname, hstate⟩ := hview
    cases (show name' = name from hname)
    cases (show state = .compiled from hstate)
    rw [moduleState, ← hkey, KeyedList.lookup_of_mem h.nodup he]
    exact hmodule

end
end Maker

namespace Project
variable {signedChar : Bool} {p : Project} {start : CString}

theorem next_fullRun (hstart : p.isFile start) :
    (Worklist.fullRun p.succ start (p.sources.length + 1)).1.next = none := by
  refine Worklist.next_run_eq_none (p.sources.map Prod.fst) (fun name h => ?_) ?_
  · exact List.contains_iff_mem.mp (Maker.isFile_of_reach hstart h)
  · rw [List.length_map]
    exact Nat.lt_succ_self _

/-- A lawful end is one visit to each. -/
theorem noReturn_of_dependsLaw (hstart : p.isFile start) (hfree : p.NamesFree signedChar start)
    (h : p.DependsLaw signedChar start) :
    Worklist.NoReturn p.succ isDotted (p.visits start) := by
  obtain ⟨rounds, self, hdone, honce⟩ := h
  obtain ⟨self', heq, hmirrors⟩ := Maker.compileModuleWithDepends_eq hfree hstart
  obtain ⟨n, hnext, hmirrors⟩ :=
    Maker.next_of_compileLoop hfree hstart hmirrors ((heq rounds).symm.trans hdone)
  refine (Worklist.once_iff (next_fullRun hstart)).mp ⟨n, hnext, fun b hb => ?_⟩
  rw [← hmirrors.compiles]
  convert (honce b hb).1

theorem dependsLaw_of_noReturn (hstart : p.isFile start) (hfree : p.NamesFree signedChar start)
    (h : Worklist.NoReturn p.succ isDotted (p.visits start)) : p.DependsLaw signedChar start := by
  have hrun := ((Worklist.run_eq_or_stale isDotted start (p.sources.length + 1)).resolve_right
    fun hstale => hstale.1 h).1
  have hend := next_fullRun hstart
  have hvisited := Worklist.visited_run p.succ start (p.sources.length + 1)
  rw [← hrun, Nat.add_comm] at hend hvisited
  obtain ⟨self', heq, hmirrors⟩ := Maker.compileModuleWithDepends_eq hfree hstart
  obtain ⟨self, hloop, hmirrors⟩ := Maker.compileLoop_of_next hfree hstart hmirrors hend
  refine ⟨p.sources.length + 1, self, (heq _).trans hloop, fun name hreach => ?_⟩
  have hmem := (hvisited.mem_iff hend).mpr hreach
  refine ⟨?_, Maker.moduleState_of_mem hmirrors ((hvisited.done name).mpr hmem)⟩
  rw [hmirrors.compiles]
  convert List.count_eq_one_of_mem hvisited.visits_nodup hmem

/-- **Compiling with all dependencies** ends with each module compiled once, exactly if no
submodule is imported by a module that is visited when it is or behind it. -/
theorem dependsLaw_iff (signedChar : Bool) (p : Project) (start : CString)
    (hstart : p.isFile start) (hfree : p.NamesFree signedChar start) :
    p.DependsLaw signedChar start ↔ Worklist.NoReturn p.succ isDotted (p.visits start) :=
  ⟨noReturn_of_dependsLaw hstart hfree, dependsLaw_of_noReturn hstart hfree⟩

/-! ### Two projects -/

/-- Names are free in a project when they are for all its files. -/
theorem namesFree_of_sources (hstart : p.isFile start)
    (h : ∀ a ∈ p.sources.map Prod.fst,
      moduleKey signedChar a ∉ Maker.attrs signedChar ∧
      (isDotted a → hashTime33 signedChar a ∉ Maker.attrs signedChar) ∧
      ∀ b ∈ p.sources.map Prod.fst,
        (moduleKey signedChar a = moduleKey signedChar b → a = b) ∧
        (isDotted a → hashTime33 signedChar a ≠ moduleKey signedChar b)) :
    p.NamesFree signedChar start := by
  have hfile (a : CString) (ha : Worklist.Reach p.succ start a) : a ∈ p.sources.map Prod.fst :=
    List.contains_iff_mem.mp (Maker.isFile_of_reach hstart ha)
  refine ⟨fun a b ha hb => ?_, fun a ha => ?_, fun a ha => ?_, fun a b ha hdot hb => ?_⟩
  · exact ((h a (hfile a ha)).2.2 b (hfile b hb)).1
  · exact (h a (hfile a ha)).1
  · exact (h a (hfile a ha)).2.1
  · exact ((h a (hfile a ha)).2.2 b (hfile b hb)).2 hdot

def nameM : CString := [0x6d]
def nameC : CString := [0x63]
def nameAB : CString := [0x61, 0x2e, 0x62]

/-- `m` imports `a.b`, which imports `c`, which imports `m`. -/
def submodule : Project := ⟨[(nameM, [nameAB]), (nameAB, [nameC]), (nameC, [nameM])]⟩

theorem dependsLaw_submodule : submodule.DependsLaw false nameM :=
  (dependsLaw_iff false submodule nameM (by decide)
    (namesFree_of_sources (by decide) (by decide +kernel))).mpr (by decide +kernel)

/-- `m` imports `c` and `a.b`, and `c` imports `a.b`, too. -/
def submoduleTwice : Project := ⟨[(nameM, [nameC, nameAB]), (nameC, [nameAB]), (nameAB, [])]⟩

/-- `a.b` is compiled a second time when `c` has been. -/
theorem not_dependsLaw_submoduleTwice : ¬submoduleTwice.DependsLaw false nameM := by
  intro h
  have hfree : submoduleTwice.NamesFree false nameM :=
    namesFree_of_sources (by decide) (by decide +kernel)
  have hreturn := noReturn_of_dependsLaw (by decide) hfree h
  revert hreturn
  decide +kernel

end Project
end PikaScript
