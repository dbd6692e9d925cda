import PikaScript.Data.Args

/-! The dict of `PikaObj.c` and `PikaStdData_Dict.c`.

A dict is two `Args`: `"_keys"` holds the names as strings and `"dict"` the
values, both found by the hash of the name. Nothing but their order says which
key a value belongs to, newest first in both. What the two lists are for is a
list of pairs in the order of insertion, and they stay what it says as long as
both are changed together. -/
namespace PikaScript

/-- A C string, which has no NUL in it. -/
abbrev Name := {str : CString // 0 ∉ str}

/-- `PikaDict`, as the `Args` of `_OBJ2KEYS` and `_OBJ2DICT`. -/
structure PikaDict where
  keys : Args
  dict : Args
deriving DecidableEq

namespace PikaDict
variable (signedChar : Bool) (self : PikaDict)

/-! ### The code -/

/-- `pikaDict_init`. -/
def init : PikaDict := ⟨[], []⟩

/-- `_pikaDict_setVal`. -/
def setVal (val : Arg) : PikaDict × PikaRes :=
  ({ self with dict := Args.setArg self.dict val }, .ok)

/-- `pikaDict_set`; `pikaDict_setInt` and its like are this of a new arg. -/
def set (name : CString) (val : Option Arg) : PikaDict × PikaRes :=
  let val := (val.getD (Arg.create 0 .none [])).setNameHash (hashTime33 signedChar name)
  let self := (setVal self val).1
  let (keys, res) := Args.setStr signedChar self.keys name (some name)
  ({ self with keys }, res)

/-- `pikaDict_removeArg` of what `pikaDict_get` finds. -/
def removeArg (name : CString) : PikaDict × PikaRes :=
  let (dict, res) := Args.removeArg signedChar self.dict name
  ({ self with dict }, res)

/-- `PikaStdData_Dict_remove`. -/
def remove (key : CString) : PikaDict :=
  ⟨(Args.removeArg signedChar self.keys key).1, (Args.removeArg signedChar self.dict key).1⟩

/-- `pikaDict_reverse`. -/
def reverse : PikaDict × PikaRes := (⟨self.keys.reverse, self.dict.reverse⟩, .ok)

/-- `PikaStdData_dict_items___next__` until it returns NULL, from an `__iter_i` on:
the arg of that place in each list, if there is one. -/
def itemsFrom : Nat → List (Option Arg × Option Arg)
  | 0 => []
  | i + 1 => (self.keys[i]?, self.dict[i]?) :: itemsFrom i

/-- What iterating the dict yields, as `pikaDict_forEach` does and
`PikaStdData_dict_items___iter__`. -/
def items : List (Option Arg × Option Arg) := itemsFrom self self.keys.getSize

end PikaDict

instance : DecidableEq (PikaDict × List (Name × Val)) := inferInstance

/-! ### A dict and its calls -/

inductive DictCall where
  | set (name : Name) (val : Option Arg)
  | setVal (val : Arg)
  | removeArg (name : Name)
  | remove (key : Name)
  | reverse

/-- The call in the code. -/
def DictCall.run (signedChar : Bool) (self : PikaDict) : DictCall → PikaDict × PikaRes
  | .set name val => self.set signedChar name val
  | .setVal val => self.setVal val
  | .removeArg name => self.removeArg signedChar name
  | .remove key => (self.remove signedChar key, .ok)
  | .reverse => self.reverse

/-- What the call is for, on pairs in the order of insertion. -/
def DictCall.ordered (signedChar : Bool) (pairs : List (Name × Val)) :
    DictCall → List (Name × Val) × PikaRes
  | .set name val =>
    if name ∈ pairs.map Prod.fst then
      (pairs.map fun p => if p.1 = name then (name, .ofArg val) else p, .ok)
    else (pairs ++ [(name, .ofArg val)], .ok)
  | .setVal val =>
    (pairs.map fun p =>
      if hashTime33 signedChar p.1 = val.nameHash then (p.1, .ofArg (some val)) else p, .ok)
  | .removeArg name =>
    if name ∈ pairs.map Prod.fst then (pairs.filter (·.1 ≠ name), .ok) else (pairs, .errInvalidPtr)
  | .remove key => (pairs.filter (·.1 ≠ key), .ok)
  | .reverse => (pairs.reverse, .ok)

/-- A dict beside its pairs. A step is refused when they do not return the same. -/
def dictMachine (signedChar : Bool) : Machine DictCall (PikaDict × List (Name × Val)) PikaRes where
  step call s :=
    let (self, res) := call.run signedChar s.1
    let (pairs, res') := call.ordered signedChar s.2
    if res = res' then some ((self, pairs), res) else none

namespace PikaDict
variable (signedChar : Bool)

/-- **What a dict promises**, after calls that have left the pairs `pairs`. -/
structure Law (d : PikaDict) (pairs : List (Name × Val)) : Prop where
  /-- As many keys as values. -/
  size : d.keys.getSize = d.dict.getSize
  /-- A key names the value of its place. -/
  names : ∀ (i : Nat) (key val : Arg), d.keys[i]? = some key → d.dict[i]? = some val →
    hashTime33 signedChar key.getStr = val.nameHash
  /-- No key has two pairs. -/
  distinct : (pairs.map Prod.fst).Nodup
  /-- Iterating yields the pairs in their order. -/
  items : List.Forall₂ (fun item pair => ∃ key val, item = (some key, some val) ∧
    key.getStr = pair.1 ∧ val.Has pair.2) d.items pairs

/-- No other key has the hash of a name. -/
def Free (name : Name) (pairs : List (Name × Val)) : Prop :=
  ∀ p ∈ pairs, hashTime33 signedChar p.1 = hashTime33 signedChar name → p.1 = name

instance (name : Name) (pairs : List (Name × Val)) : Decidable (Free signedChar name pairs) :=
  inferInstanceAs (Decidable (∀ p ∈ pairs, _))

end PikaDict

/-- When a call keeps keys and values together. -/
def DictCall.Proper (signedChar : Bool) : DictCall → PikaDict × List (Name × Val) → Prop
  | .set name _, (_, pairs) => PikaDict.Free signedChar name pairs
  | .setVal val, (_, pairs) => ∃ p ∈ pairs, hashTime33 signedChar p.1 = val.nameHash
  | .removeArg name, (_, pairs) =>
    ∀ p ∈ pairs, hashTime33 signedChar p.1 ≠ hashTime33 signedChar name
  | .remove key, (_, pairs) => PikaDict.Free signedChar key pairs
  | .reverse, _ => True

namespace PikaDict
variable {signedChar : Bool} {self : PikaDict} {pairs : List (Name × Val)}

/-! ### A list beside the pairs -/

/-- The key of a pair. -/
def keyOf (signedChar : Bool) (p : Name × Val) : Hash := hashTime33 signedChar p.1

/-- The entries of a list are, newest first, those of the pairs: `part` of each,
under the hash of its name. -/
def Column (signedChar : Bool) (part : Name × Val → Val) (l : Args) (pairs : List (Name × Val)) :
    Prop :=
  KeyedList.Mirrors Arg.nameHash (keyOf signedChar) (fun a p => a.Has (part p)) l pairs.reverse

section Column
variable {part : Name × Val → Val} {l : Args} {arg : Arg} {name : Name} {v : Val}

theorem nodup_reverse (hnodup : (pairs.map (keyOf signedChar)).Nodup) :
    (pairs.reverse.map (keyOf signedChar)).Nodup := by
  rw [List.map_reverse]
  exact List.nodup_reverse.mpr hnodup

/-- An arg of a name that is there changes its pair. -/
theorem Column.setArg_of_mem (h : Column signedChar part l pairs)
    (hnodup : (pairs.map (keyOf signedChar)).Nodup)
    (hmem : arg.nameHash ∈ pairs.map (keyOf signedChar)) (g : Name × Val → Name × Val)
    (hg : ∀ p, keyOf signedChar p = arg.nameHash →
      keyOf signedChar (g p) = arg.nameHash ∧ arg.Has (part (g p))) :
    Column signedChar part (Args.setArg l arg)
      (pairs.map fun p => if keyOf signedChar p = arg.nameHash then g p else p) := by
  obtain ⟨l', hup, hl'⟩ := h.update (k := arg.nameHash) (f := (·.copyContent arg)) (g := g)
    (nodup_reverse hnodup) (by simpa using hmem) fun a p hp _ =>
      ⟨(hg p hp).1.symm, Arg.has_copyContent (hg p hp).2⟩
  rw [Column, Args.setArg, Args.updateArg, hup, ← List.map_reverse]
  exact hl'

/-- An arg of a new name adds a pair. -/
theorem Column.setArg_of_not_mem (h : Column signedChar part l pairs)
    (hmem : arg.nameHash ∉ pairs.map (keyOf signedChar)) {p : Name × Val}
    (hp : keyOf signedChar p = arg.nameHash) (hv : arg.Has (part p)) :
    Column signedChar part (Args.setArg l arg) (pairs ++ [p]) := by
  have hup : Args.updateArg l arg = none := by
    refine KeyedList.update_eq_none.mpr ?_
    rw [h.keys]
    simpa using hmem
  rw [Column, Args.setArg, hup, Option.getD_none, Args.pushArg, List.reverse_append]
  split
  · exact .cons ⟨hp.symm, hv⟩ h
  · exact .cons ⟨hp.symm, Arg.has_copy hv⟩ h

theorem removeArg_fst (l : Args) (name : CString) : (Args.removeArg signedChar l name).1 =
    KeyedList.remove Arg.nameHash (hashTime33 signedChar name) l := by
  unfold Args.removeArg
  split
  · exact (KeyedList.remove_of_lookup ‹_›).symm
  · rename_i arg hget
    rw [Args.nameHash_of_getArgHash hget]

/-- A removal takes the pair of its name out. -/
theorem Column.removeArg (h : Column signedChar part l pairs)
    (hnodup : (pairs.map (keyOf signedChar)).Nodup) (name : CString) :
    Column signedChar part (Args.removeArg signedChar l name).1
      (pairs.filter fun p => keyOf signedChar p ≠ hashTime33 signedChar name) := by
  have hremove := h.remove (k := hashTime33 signedChar name) (nodup_reverse hnodup)
  rw [List.filter_reverse] at hremove
  rw [Column, removeArg_fst]
  exact hremove

/-- Pairs with the same keys and the same part are of the same list. -/
theorem Column.map (h : Column signedChar part l pairs) {g : Name × Val → Name × Val}
    (hg : ∀ p, keyOf signedChar (g p) = keyOf signedChar p ∧ part (g p) = part p) :
    Column signedChar part l (pairs.map g) := by
  rw [Column, ← List.map_reverse, KeyedList.Mirrors, List.forall₂_map_right_iff]
  refine h.imp fun a p hp => ?_
  rw [(hg p).1, (hg p).2]
  exact hp

/-- Reversing the list reverses the pairs. -/
theorem Column.reverse (h : Column signedChar part l pairs) :
    Column signedChar part l.reverse pairs.reverse := List.rel_reverse h

end Column

/-! ### The calls -/

/-- The string that a name is kept as. -/
def nameVal (p : Name × Val) : Val := ⟨.string, p.1.1 ++ [0]⟩

/-- Both lists are of the pairs. -/
structure Represents (signedChar : Bool) (d : PikaDict) (pairs : List (Name × Val)) : Prop where
  nodup : (pairs.map (keyOf signedChar)).Nodup
  keys : Column signedChar nameVal d.keys pairs
  dict : Column signedChar Prod.snd d.dict pairs

theorem represents_init : Represents signedChar init [] :=
  ⟨List.nodup_nil, List.Forall₂.nil, List.Forall₂.nil⟩

theorem mem_keys {h : Hash} : h ∈ pairs.map (keyOf signedChar) ↔
    ∃ p ∈ pairs, hashTime33 signedChar p.1 = h := List.mem_map

theorem keys_map {g : Name × Val → Name × Val}
    (hg : ∀ p, keyOf signedChar (g p) = keyOf signedChar p) :
    (pairs.map g).map (keyOf signedChar) = pairs.map (keyOf signedChar) := by
  rw [List.map_map]
  exact List.map_congr_left fun p _ => hg p

theorem Represents.setVal (h : Represents signedChar self pairs) {val : Arg}
    (hval : ∃ p ∈ pairs, hashTime33 signedChar p.1 = val.nameHash) :
    Represents signedChar (self.setVal val).1
      (DictCall.ordered signedChar pairs (.setVal val)).1 := by
  have hkeep (p : Name × Val) : (if hashTime33 signedChar p.1 = val.nameHash then
      (p.1, Val.ofArg (some val)) else p).1 = p.1 := by split <;> rfl
  have hkeyOf (p : Name × Val) : keyOf signedChar (if hashTime33 signedChar p.1 = val.nameHash then
      (p.1, Val.ofArg (some val)) else p) = keyOf signedChar p := by rw [keyOf, hkeep, keyOf]
  refine ⟨(keys_map hkeyOf).symm ▸ h.nodup, h.keys.map fun p => ⟨hkeyOf p, ?_⟩, ?_⟩
  · rw [nameVal, hkeep]
    rfl
  · exact h.dict.setArg_of_mem h.nodup (mem_keys.mpr hval) (fun p => (p.1, .ofArg (some val)))
      fun p hp => ⟨hp, val.has_ofArg⟩

theorem Represents.set (h : Represents signedChar self pairs) {name : Name}
    (hname : Free signedChar name pairs) (val : Option Arg) :
    Represents signedChar (self.set signedChar name val).1
      (DictCall.ordered signedChar pairs (.set name val)).1 := by
  have hval : ((val.getD (Arg.create 0 .none [])).setNameHash (hashTime33 signedChar name)).Has
      (.ofArg val) := by cases val <;> exact ⟨rfl, List.prefix_refl _⟩
  have hkey : (Args.newArg signedChar name .string (name.1 ++ [0])).Has
      (nameVal (name, .ofArg val)) := ⟨rfl, List.prefix_refl _⟩
  rw [DictCall.ordered]
  by_cases hin : name ∈ pairs.map Prod.fst
  · have hmem : hashTime33 signedChar name ∈ pairs.map (keyOf signedChar) := by
      obtain ⟨p, hp, rfl⟩ := List.mem_map.mp hin
      exact List.mem_map_of_mem hp
    have hcongr : (pairs.map fun p => if p.1 = name then (name, Val.ofArg val) else p) =
        pairs.map fun p => if keyOf signedChar p = hashTime33 signedChar name then
          (name, Val.ofArg val) else p := by
      refine List.map_congr_left fun p hp => ?_
      refine if_congr ⟨fun heq => ?_, hname p hp⟩ rfl rfl
      rw [keyOf, heq]
    rw [if_pos hin, hcongr]
    refine ⟨?_, ?_, ?_⟩
    · rw [keys_map]
      · exact h.nodup
      · intro p
        split
        · exact Eq.symm ‹_›
        · rfl
    · exact h.keys.setArg_of_mem h.nodup hmem (fun _ => (name, .ofArg val)) fun _ _ => ⟨rfl, hkey⟩
    · exact h.dict.setArg_of_mem h.nodup hmem (fun _ => (name, .ofArg val)) fun _ _ => ⟨rfl, hval⟩
  · have hmem : hashTime33 signedChar name ∉ pairs.map (keyOf signedChar) := by
      intro hmem
      obtain ⟨p, hp, heq⟩ := mem_keys.mp hmem
      exact hin (List.mem_map.mpr ⟨p, hp, hname p hp heq⟩)
    rw [if_neg hin]
    refine ⟨?_, ?_, ?_⟩
    · rw [List.map_append, List.nodup_append_comm]
      exact List.nodup_cons.mpr ⟨hmem, h.nodup⟩
    · exact h.keys.setArg_of_not_mem hmem rfl hkey
    · exact h.dict.setArg_of_not_mem hmem rfl hval

theorem Represents.remove (h : Represents signedChar self pairs) {key : Name}
    (hkey : Free signedChar key pairs) :
    Represents signedChar (self.remove signedChar key) (pairs.filter (·.1 ≠ key)) := by
  have hfilter : (pairs.filter (·.1 ≠ key)) =
      pairs.filter fun p => keyOf signedChar p ≠ hashTime33 signedChar key := by
    refine List.filter_congr fun p hp => ?_
    refine decide_eq_decide.mpr (not_congr ⟨fun heq => ?_, hkey p hp⟩)
    rw [keyOf, heq]
  rw [hfilter]
  exact ⟨h.nodup.sublist (List.filter_sublist.map _), h.keys.removeArg h.nodup key,
    h.dict.removeArg h.nodup key⟩

theorem Represents.reverse (h : Represents signedChar self pairs) :
    Represents signedChar self.reverse.1 pairs.reverse :=
  ⟨nodup_reverse h.nodup, h.keys.reverse, h.dict.reverse⟩

/-! ### The law -/

theorem Column.length {part : Name × Val → Val} {l : Args}
    (h : Column signedChar part l pairs) : l.length = pairs.length := by
  rw [List.Forall₂.length_eq h, List.length_reverse]

/-- The entry at a place is that of the pair at the place. -/
theorem Column.get {part : Name × Val → Val} {l : Args} (h : Column signedChar part l pairs)
    {i : Nat} {p : Name × Val} (hp : pairs.reverse[i]? = some p) :
    ∃ a, l[i]? = some a ∧ a.nameHash = keyOf signedChar p ∧ a.Has (part p) := by
  obtain ⟨hlength, hget⟩ := List.forall₂_iff_get.mp h
  obtain ⟨hi, rfl⟩ := List.getElem?_eq_some_iff.mp hp
  exact ⟨_, List.getElem?_eq_getElem (hlength ▸ hi), hget i (hlength ▸ hi) hi⟩

theorem getStr_of_has {a : Arg} {p : Name × Val} (h : a.Has (nameVal p)) :
    a.getStr = p.1.1 := Arg.getStr_eq h.2 p.1.2

/-- Iterating from a place on yields the pairs up to it, the newest last. -/
theorem itemsFrom_represents (h : Represents signedChar self pairs) {n : Nat}
    (hn : n ≤ pairs.length) :
    List.Forall₂ (fun item pair => ∃ key val, item = (some key, some val) ∧
      key.getStr = pair.1.1 ∧ val.Has pair.2)
      (self.itemsFrom n) (pairs.reverse.take n).reverse := by
  induction n with
  | zero => exact .nil
  | succ n ih =>
    have hlt : n < pairs.reverse.length := by rwa [List.length_reverse]
    have hlast : pairs.reverse[n]? = some pairs.reverse[n] := List.getElem?_eq_getElem hlt
    obtain ⟨key, hkey, -, hname⟩ := h.keys.get hlast
    obtain ⟨val, hval, -, hv⟩ := h.dict.get hlast
    rw [itemsFrom, List.take_add_one, hlast, List.reverse_append]
    exact .cons ⟨key, val, by rw [hkey, hval], getStr_of_has hname, hv⟩ (ih (by omega))

/-- **Lists that are of the pairs keep the promise of a dict.** -/
theorem Represents.law (h : Represents signedChar self pairs) : Law signedChar self pairs where
  size := h.keys.length.trans h.dict.length.symm
  names i key val hkey hval := by
    have hi : i < pairs.reverse.length := by
      rw [List.length_reverse, ← h.keys.length]
      exact (List.getElem?_eq_some_iff.mp hkey).1
    obtain ⟨key', hkey', -, hname⟩ := h.keys.get (List.getElem?_eq_getElem hi)
    obtain ⟨val', hval', hhash, -⟩ := h.dict.get (List.getElem?_eq_getElem hi)
    cases hkey.symm.trans hkey'
    cases hval.symm.trans hval'
    rw [getStr_of_has hname, hhash, keyOf]
  distinct := by
    refine List.Nodup.of_map (fun name : Name => hashTime33 signedChar name) ?_
    rw [List.map_map]
    exact h.nodup
  items := by
    have hitems := itemsFrom_represents h (Nat.le_refl _)
    rw [← List.length_reverse, List.take_length, List.reverse_reverse,
      List.length_reverse] at hitems
    rw [PikaDict.items, Args.getSize, h.keys.length]
    exact hitems

/-- What returns the same is a step. -/
theorem step_of_agree {call : DictCall}
    (hres : (call.run signedChar self).2 = (call.ordered signedChar pairs).2) :
    (dictMachine signedChar).step call (self, pairs) =
      some (((call.run signedChar self).1, (call.ordered signedChar pairs).1),
        (call.run signedChar self).2) := if_pos hres

/-- What is not there is not removed. -/
theorem Represents.removeArg (h : Represents signedChar self pairs) {name : Name}
    (hname : ∀ p ∈ pairs, hashTime33 signedChar p.1 ≠ hashTime33 signedChar name) :
    self.removeArg signedChar name = (self, .errInvalidPtr) ∧
      DictCall.ordered signedChar pairs (.removeArg name) = (pairs, .errInvalidPtr) := by
  have habsent : hashTime33 signedChar name ∉ self.dict.keys := by
    rw [Args.keys, h.dict.keys]
    intro hmem
    obtain ⟨p, hp, heq⟩ := List.mem_map.mp hmem
    exact hname p (List.mem_reverse.mp hp) heq
  constructor
  · rcases Args.removeArg_spec signedChar self.dict name with ⟨hremoves, -⟩ | ⟨-, hkeep⟩
    · exact absurd hremoves.mem habsent
    · rw [PikaDict.removeArg, hkeep]
  · refine if_neg fun hmem => ?_
    obtain ⟨p, hp, heq⟩ := List.mem_map.mp hmem
    exact hname p hp (by rw [heq])

/-- A proper call is taken, and keeps both lists of the pairs. -/
theorem step_represents (call : DictCall) (s : PikaDict × List (Name × Val))
    (hcall : call.Proper signedChar s) (hs : Represents signedChar s.1 s.2) :
    ∃ s' res, (dictMachine signedChar).step call s = some (s', res) ∧
      Represents signedChar s'.1 s'.2 := by
  obtain ⟨self, pairs⟩ := s
  cases call with
  | set name val =>
    refine ⟨_, _, step_of_agree ?_, hs.set hcall val⟩
    rw [DictCall.ordered]
    split <;> rfl
  | setVal val => exact ⟨_, _, step_of_agree rfl, hs.setVal hcall⟩
  | removeArg name =>
    obtain ⟨hrun, hordered⟩ := hs.removeArg hcall
    have hagree : (DictCall.run signedChar self (.removeArg name)).2 =
        (DictCall.ordered signedChar pairs (.removeArg name)).2 := by
      rw [hordered, DictCall.run, hrun]
    refine ⟨_, _, step_of_agree hagree, ?_⟩
    rw [hordered, DictCall.run, hrun]
    exact hs
  | remove key => exact ⟨_, _, step_of_agree rfl, hs.remove hcall⟩
  | reverse => exact ⟨_, _, step_of_agree rfl, hs.reverse⟩

/-- **Proper calls keep keys and values together**: every run of them is taken to its
end and leaves a dict that keeps its promise. -/
theorem run_ordered (signedChar : Bool) (calls : List DictCall)
    (hcalls : (dictMachine signedChar).Meets (DictCall.Proper signedChar) (init, []) calls) :
    ∃ self pairs results,
      (dictMachine signedChar).run (init, []) calls = some ((self, pairs), results) ∧
      Law signedChar self pairs := by
  obtain ⟨⟨self, pairs⟩, results, hrun, h⟩ :=
    (dictMachine signedChar).run_total_of_meets step_represents (s := (init, []))
      (P := fun s => Represents signedChar s.1 s.2) represents_init hcalls
  exact ⟨self, pairs, results, hrun, h.law⟩

/-- The names "a" and "b". -/
def nameA : Name := ⟨[0x61], by decide⟩

@[inherit_doc nameA] def nameB : Name := ⟨[0x62], by decide⟩

/-- Two pairs, of which the older is removed. -/
theorem run_ordered_removed : ∃ self pairs results,
    (dictMachine true).run (init, [])
      [.set nameA (some (Arg.newInt 1)), .set nameB (some (Arg.newInt 2)), .remove nameA] =
        some ((self, pairs), results) ∧
    Law true self pairs :=
  run_ordered true _
    (Machine.meets_cons _ (step_of_agree rfl) (show Free true nameA [] by decide +kernel)
      (Machine.meets_cons _ (step_of_agree rfl)
        (show Free true nameB [(nameA, .ofArg (some (Arg.newInt 1)))] by decide +kernel)
        (Machine.meets_cons _ (step_of_agree rfl)
          (show Free true nameA [(nameA, .ofArg (some (Arg.newInt 1))),
            (nameB, .ofArg (some (Arg.newInt 2)))] by decide +kernel) trivial)))

/-- What `pikaDict_removeArg` removes leaves its key behind. -/
theorem not_law_of_removeArg :
    ¬∀ (signedChar : Bool) (calls : List DictCall), ∃ self pairs results,
      (dictMachine signedChar).run (init, []) calls = some ((self, pairs), results) ∧
      Law signedChar self pairs := by
  intro h
  obtain ⟨self, pairs, results, hrun, hlaw⟩ := h true
    [.set nameA (some (Arg.newInt 1)), .removeArg nameA]
  have hrun' : (dictMachine true).run (init, [])
      [.set nameA (some (Arg.newInt 1)), .removeArg nameA] =
        some ((⟨[Arg.create 177670 .string [0x61, 0]], []⟩, []), [.ok, .ok]) := by decide +kernel
  cases hrun'.symm.trans hrun
  exact absurd hlaw.size (by decide)

end PikaDict

end PikaScript
