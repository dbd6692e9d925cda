import PikaScript.Bytecode.Instruct
import PikaScript.Lib.Machine

/-! The instruction sets of `PikaVM.c`, with `PIKA_INSTRUCT_EXTENSION_ENABLE`.

Sets are registered at the end of a linked list that starts with the default one. An instruction
is looked for in the set that was used last, and then along the list. The loops go on to the next
item and then ask whether there is one behind it: they do not come to the last item of a longer
list, and of a list with one item they read what is behind its end.

`insSet_lawful_iff`: a run of registrations and lookups is right just when no lookup and no
registration meets that. -/
namespace PikaScript

/-- `VMInstruction`. A handler is an address. -/
structure VMInstruction where
  handler : Nat
  opStr : CString
  opIdx : Nat
  opStrLen : Nat
deriving DecidableEq, Repr

/-- `__INSTRUCTION_UNKNOWN`. -/
def instructionUnknown : Nat := 0xffff

/-- `VMInstructionSet`. Its instructions are an array, one for each index of its range. -/
structure VMInstructionSet where
  instructions : List VMInstruction
  signature : Nat
  opIdxStart : Nat
  opIdxEnd : Nat
  nonempty : instructions ≠ []
  range : opIdxEnd + 1 = opIdxStart + instructions.length
  indexed : instructions.map (·.opIdx) = List.range' opIdxStart instructions.length
  known : opIdxEnd < instructionUnknown

/-- `g_PikaVMInsSet`: the sets of the list, and the place of the one that was used last. -/
structure PikaVMInsSet where
  list : List VMInstructionSet
  recent : Nat
  inside : recent < list.length

namespace PikaVMInsSet

/-! ### The code -/

section
variable {β : Type} (find : VMInstructionSet → Option β)

/-- The loops that search the list, from an item and its place on. None when they read what is
behind the end, and none within when they end without a set. -/
def searchList : List VMInstructionSet → Nat → Option (Option (Nat × β))
  | [], _ => none
  | item :: rest, k =>
    match find item, rest with
    | some b, _ => some (some (k, b))
    | none, [] => none
    | none, [_] => some none
    | none, next :: rest => searchList (next :: rest) (k + 1)

theorem searchList_inside {items : List VMInstructionSet} {k j : Nat} {b : β}
    (h : searchList find items k = some (some (j, b))) : j < k + items.length := by
  fun_induction searchList find items k with
  | case1 => cases h
  | case2 item rest k b' =>
    cases h
    rw [List.length_cons]
    omega
  | case3 | case4 => cases h
  | case5 item k next rest _ _ ih =>
    have hlt := ih h
    rw [List.length_cons]
    omega

/-- The search of all three lookups: the set that was used last, and then the list. -/
def lookup (self : PikaVMInsSet) : Option (PikaVMInsSet × Option β) :=
  match find (self.list.get ⟨self.recent, self.inside⟩) with
  | some b => some (self, some b)
  | none =>
    match h : searchList find self.list 0 with
    | none => none
    | some none => some (self, none)
    | some (some (k, b)) =>
      some (⟨self.list, k, by have hlt := searchList_inside find h; omega⟩, some b)

end

variable (self : PikaVMInsSet)

/-- `instructUnit_getInstruct`. -/
def getInstruct (insIdx : Nat) : Option (PikaVMInsSet × Option VMInstruction) :=
  self.lookup fun set =>
    if set.opIdxStart ≤ insIdx ∧ insIdx ≤ set.opIdxEnd then
      set.instructions[insIdx - set.opIdxStart]?
    else none

/-- `__find_ins_idx_in_ins_set`. -/
def findInsIdxInInsSet (insStr : CString) (set : VMInstructionSet) : Nat :=
  (set.instructions.find? fun ins =>
    insStr.take ins.opStrLen = ins.opStr.take ins.opStrLen).elim instructionUnknown (·.opIdx)

/-- `pikaVM_getInstructFromAsm`. -/
def getInstructFromAsm (insStr : CString) : Option (PikaVMInsSet × Nat) :=
  (self.lookup fun set =>
    let insIdx := findInsIdxInInsSet insStr set
    if insIdx = instructionUnknown then none else some insIdx).map
      fun r => (r.1, r.2.getD InstructIndex.NON.toNat)

/-- `__find_ins_str_in_ins_set`. -/
def findInsStrInInsSet (opIdx : Nat) (set : VMInstructionSet) : Option CString :=
  (set.instructions.find? fun ins => ins.opIdx = opIdx).map (·.opStr)

/-- `instructUnit_getInstructStr` of a unit with an opcode. -/
def getInstructStr (opIdx : Nat) : Option (PikaVMInsSet × CString) :=
  (self.lookup (findInsStrInInsSet opIdx)).map fun r => (r.1, r.2.getD InstructIndex.NON.name)

/-- The loop of `pikaVM_registerInstructionSet`: whether a set with the signature is there. None
when it reads what is behind the end. -/
def searchSignature (signature : Nat) : List VMInstructionSet → Option Bool
  | [] => none
  | item :: rest =>
    if item.signature = signature then some true
    else
      match rest with
      | [] => none
      | [_] => some false
      | next :: rest => searchSignature signature (next :: rest)

/-- `pikaVM_registerInstructionSet`, with the signatures of `PIKA_INSTRUCT_SIGNATURE_DICT` and
whether there is room for an item. -/
def registerInstructionSet (signatureDict : List Nat) (insSet : VMInstructionSet) (room : Bool) :
    Option (PikaVMInsSet × Bool) :=
  if insSet.signature ∉ signatureDict then some (self, false)
  else do
    if ← searchSignature insSet.signature self.list then return (self, true)
    if !room then return (self, false)
    -- the loop has stopped at the last item
    return (⟨self.list ++ [insSet], self.recent, by
      have hinside := self.inside
      rw [List.length_append]
      omega⟩, true)

/-- What is looked up: an instruction by its index or by its name, or a name by its opcode. -/
inductive Query where
  | index (insIdx : Nat)
  | name (insStr : CString)
  | opcode (opIdx : Nat)

inductive Call where
  | query (q : Query)
  | register (insSet : VMInstructionSet) (room : Bool)

inductive Answer where
  | instruct (ins : Option VMInstruction)
  | index (insIdx : Nat)
  | str (insStr : CString)
  | registered (res : Bool)

def query (q : Query) : Option (PikaVMInsSet × Answer) :=
  match q with
  | .index insIdx => (self.getInstruct insIdx).map fun r => (r.1, .instruct r.2)
  | .name insStr => (self.getInstructFromAsm insStr).map fun r => (r.1, .index r.2)
  | .opcode opIdx => (self.getInstructStr opIdx).map fun r => (r.1, .str r.2)

def machine (signatureDict : List Nat) : Machine Call PikaVMInsSet Answer where
  step
    | .query q, self => self.query q
    | .register insSet room, self =>
      (self.registerInstructionSet signatureDict insSet room).map fun r => (r.1, .registered r.2)

/-! ### What the registry is for -/

/-- The instruction is one that is looked for. -/
def Matches : Query → VMInstruction → Prop
  | .index insIdx, ins => ins.opIdx = insIdx
  | .name insStr, ins => insStr.take ins.opStrLen = ins.opStr.take ins.opStrLen
  | .opcode opIdx, ins => ins.opIdx = opIdx

/-- What is answered for it. -/
def answerOf : Query → VMInstruction → Answer
  | .index _, ins => .instruct (some ins)
  | .name _, ins => .index ins.opIdx
  | .opcode _, ins => .str ins.opStr

/-- What is answered when there is none. -/
def absent : Query → Answer
  | .index _ => .instruct none
  | .name _ => .index InstructIndex.NON.toNat
  | .opcode _ => .str InstructIndex.NON.name

/-- A set contains what is looked for. -/
def Contains (q : Query) (set : VMInstructionSet) : Prop := ∃ ins ∈ set.instructions, Matches q ins

/-- The answer is that of a registered instruction. -/
def Finds (q : Query) (a : Answer) : Prop :=
  ∃ set ∈ self.list, ∃ ins ∈ set.instructions, Matches q ins ∧ a = answerOf q ins

/-- The answer is right: that of a registered instruction, or that there is none. -/
def Right (q : Query) (a : Answer) : Prop :=
  self.Finds q a ∨ ((∀ set ∈ self.list, ¬Contains q set) ∧ a = absent q)

/-- A lookup finds an instruction. -/
def Reaches (q : Query) : Prop := ∃ self' a, self.query q = some (self', a) ∧ self.Finds q a

/-- What is owed for a call: a right answer, or that nothing is lost. -/
def Answers (self self' : PikaVMInsSet) (a : Answer) : Call → Prop
  | .query q => self.Right q a ∧ self'.list = self.list
  | .register _ _ => self.list <+: self'.list ∧ ∀ q, self.Reaches q → self'.Reaches q

/-- Every call of a run gets what is owed. -/
def Lawful (signatureDict : List Nat) (self : PikaVMInsSet) : List Call → Prop
  | [] => True
  | call :: calls => ∃ self' a, (machine signatureDict).step call self = some (self', a) ∧
      Answers self self' a call ∧ Lawful signatureDict self' calls

/-- What is looked for is in the set that was used last, or in one that is not the last; or the
list has two sets, and the answer for none is right. A set is registered where there are two
already, or where it is not to be added. -/
def Served (signatureDict : List Nat) (call : Call) (self : PikaVMInsSet) : Prop :=
  match call with
  | .query q => Contains q (self.list.get ⟨self.recent, self.inside⟩) ∨
      (∃ set ∈ self.list.dropLast, Contains q set) ∨
        2 ≤ self.list.length ∧ self.Right q (absent q)
  | .register insSet _ => insSet.signature ∉ signatureDict ∨ 2 ≤ self.list.length ∨
      ∃ set ∈ self.list, set.signature = insSet.signature

/-! ### The search -/

section
variable {β : Type} {find : VMInstructionSet → Option β} {items : List VMInstructionSet} {k : Nat}

/-- What is found is in the only set, or in front of the last one. -/
theorem searchList_found {j : Nat} {b : β} (h : searchList find items k = some (some (j, b))) :
    ∃ set ∈ items, find set = some b ∧ (set ∈ items.dropLast ∨ items = [set]) := by
  fun_induction searchList find items k with
  | case1 => cases h
  | case2 item rest k b' hfind =>
    cases h
    refine ⟨item, List.mem_cons_self, hfind, ?_⟩
    cases rest with
    | nil => exact .inr rfl
    | cons next rest => exact .inl List.mem_cons_self
  | case3 | case4 => cases h
  | case5 item k next rest hne _ ih =>
    obtain ⟨set, hset, hfind, hplace⟩ := ih h
    refine ⟨set, List.mem_cons_of_mem _ hset, hfind, .inl (List.mem_cons_of_mem _ ?_)⟩
    exact hplace.resolve_right fun hone => hne (List.cons.inj hone).2

/-- **The last set of a longer list is not searched.** -/
theorem searchList_missed (h : searchList find items k = some none) :
    2 ≤ items.length ∧ ∀ set ∈ items.dropLast, find set = none := by
  fun_induction searchList find items k with
  | case1 => cases h
  | case2 | case3 => cases h
  | case4 item k last hfind =>
    refine ⟨le_rfl, fun set hset => ?_⟩
    obtain rfl := List.mem_singleton.mp hset
    exact hfind
  | case5 item k next rest _ hfind ih =>
    obtain ⟨hlength, hnone⟩ := ih h
    rw [List.dropLast_cons_of_ne_nil (List.cons_ne_nil _ _)]
    exact ⟨by rw [List.length_cons]; omega, List.forall_mem_cons.mpr ⟨hfind, hnone⟩⟩

/-- **What is behind the end is read of a list with one set**, if it is searched. -/
theorem searchList_none (h : searchList find items k = none) : items.length ≤ 1 := by
  fun_induction searchList find items k with
  | case1 => exact Nat.zero_le _
  | case2 => cases h
  | case3 => exact le_rfl
  | case4 => cases h
  | case5 item k next rest hne _ ih =>
    cases rest with
    | nil => exact (hne rfl).elim
    | cons third rest =>
      have hlength := ih h
      simp at hlength

variable {self : PikaVMInsSet}

theorem get_mem : self.list.get ⟨self.recent, self.inside⟩ ∈ self.list := List.get_mem _ _

/-- **What a lookup does**: it finds something in a set of the list, or it ends without the last
set, or it reads what is behind the only one. -/
theorem lookup_cases (find : VMInstructionSet → Option β) (self : PikaVMInsSet) :
    (∃ self' b, self.lookup find = some (self', some b) ∧ self'.list = self.list ∧
      ∃ set ∈ self.list, find set = some b ∧
        (set = self.list.get ⟨self.recent, self.inside⟩ ∨ set ∈ self.list.dropLast)) ∨
    (self.lookup find = some (self, none) ∧ 2 ≤ self.list.length ∧
      find (self.list.get ⟨self.recent, self.inside⟩) = none ∧
      ∀ set ∈ self.list.dropLast, find set = none) ∨
    (self.lookup find = none ∧ self.list.length ≤ 1 ∧
      find (self.list.get ⟨self.recent, self.inside⟩) = none) := by
  unfold lookup
  split
  · rename_i b hfind
    exact .inl ⟨self, b, rfl, rfl, _, get_mem, hfind, .inl rfl⟩
  · rename_i hfind
    split
    · rename_i hsearch
      exact .inr (.inr ⟨rfl, searchList_none hsearch, hfind⟩)
    · rename_i hsearch
      obtain ⟨hlength, hnone⟩ := searchList_missed hsearch
      exact .inr (.inl ⟨rfl, hlength, hfind, hnone⟩)
    · rename_i k b hsearch
      obtain ⟨set, hset, hfound, hplace⟩ := searchList_found hsearch
      refine .inl ⟨_, b, rfl, rfl, set, hset, hfound, hplace.elim .inr fun hone => .inl ?_⟩
      have honly : ∀ item ∈ self.list, item = set := by
        rw [hone]
        exact fun item hitem => List.mem_singleton.mp hitem
      exact (honly _ get_mem).symm

end

/-! ### The lookups -/

/-- A search of one set finds an instruction that is looked for, if there is one. -/
structure Searches {β : Type} (q : Query) (find : VMInstructionSet → Option β)
    (wrap : β → Answer) : Prop where
  found : ∀ set b, find set = some b → ∃ ins ∈ set.instructions,
    Matches q ins ∧ wrap b = answerOf q ins
  missed : ∀ set, find set = none → ¬Contains q set
  asked : ∀ self : PikaVMInsSet,
    self.query q = (self.lookup find).map fun r => (r.1, r.2.elim (absent q) wrap)

theorem opIdx_lt {set : VMInstructionSet} {ins : VMInstruction} (h : ins ∈ set.instructions) :
    set.opIdxStart ≤ ins.opIdx ∧ ins.opIdx ≤ set.opIdxEnd := by
  have hmem := @List.mem_map_of_mem _ _ _ _ VMInstruction.opIdx h
  have hrange := set.range
  rw [set.indexed, List.mem_range'_1] at hmem
  omega

theorem searches_index (insIdx : Nat) : Searches (.index insIdx)
    (fun set => if set.opIdxStart ≤ insIdx ∧ insIdx ≤ set.opIdxEnd then
      set.instructions[insIdx - set.opIdxStart]? else none) fun ins => .instruct (some ins) where
  found set ins h := by
    split at h
    · rename_i hrange
      have hget : (set.instructions.map (·.opIdx))[insIdx - set.opIdxStart]? = some ins.opIdx := by
        rw [List.getElem?_map, h]
        rfl
      obtain ⟨hlt, -⟩ := List.getElem?_eq_some_iff.mp h
      rw [set.indexed, List.getElem?_range' hlt, Option.some.injEq] at hget
      refine ⟨ins, List.mem_of_getElem? h, ?_, rfl⟩
      rw [Matches]
      omega
    · cases h
  missed set h := by
    rintro ⟨ins, hins, rfl⟩
    obtain ⟨hge, hle⟩ := opIdx_lt hins
    have hrange := set.range
    rw [if_pos ⟨hge, hle⟩, List.getElem?_eq_none_iff] at h
    omega
  asked self := by
    rw [query, getInstruct]
    refine congrArg (Option.map · _) (funext fun r => ?_)
    cases r.2 <;> rfl

theorem searches_name (insStr : CString) : Searches (.name insStr)
    (fun set =>
      let insIdx := findInsIdxInInsSet insStr set
      if insIdx = instructionUnknown then none else some insIdx) .index where
  found set insIdx h := by
    dsimp only at h
    split at h
    · cases h
    · rename_i hknown
      cases h
      cases hfind : set.instructions.find? fun ins =>
          insStr.take ins.opStrLen = ins.opStr.take ins.opStrLen with
      | none =>
        rw [findInsIdxInInsSet, hfind] at hknown
        exact absurd rfl hknown
      | some ins =>
        refine ⟨ins, List.mem_of_find?_eq_some hfind, ?_, ?_⟩
        · simpa [Matches] using List.find?_some hfind
        · rw [findInsIdxInInsSet, hfind]
          rfl
  missed set h := by
    rintro ⟨ins, hins, hmatch⟩
    dsimp only at h
    split at h
    · rename_i hunknown
      cases hfind : set.instructions.find? fun ins =>
          insStr.take ins.opStrLen = ins.opStr.take ins.opStrLen with
      | none => exact List.find?_eq_none.mp hfind ins hins (by simpa [Matches] using hmatch)
      | some ins' =>
        rw [findInsIdxInInsSet, hfind] at hunknown
        have hle := (opIdx_lt (List.mem_of_find?_eq_some hfind)).2
        have hknown := set.known
        exact absurd hunknown (by show ins'.opIdx ≠ _; omega)
    · cases h
  asked self := by
    rw [query, getInstructFromAsm, Option.map_map]
    refine congrArg (Option.map · _) (funext fun r => ?_)
    rw [Function.comp_apply]
    cases r.2 <;> rfl

theorem searches_opcode (opIdx : Nat) :
    Searches (.opcode opIdx) (findInsStrInInsSet opIdx) .str where
  found set insStr h := by
    obtain ⟨ins, hfind, rfl⟩ := Option.map_eq_some_iff.mp h
    refine ⟨ins, List.mem_of_find?_eq_some hfind, ?_, rfl⟩
    simpa [Matches] using List.find?_some hfind
  missed set h := by
    rintro ⟨ins, hins, hmatch⟩
    refine List.find?_eq_none.mp (Option.map_eq_none_iff.mp h) ins hins ?_
    simpa [Matches] using hmatch
  asked self := by
    rw [query, getInstructStr, Option.map_map]
    refine congrArg (Option.map · _) (funext fun r => ?_)
    rw [Function.comp_apply]
    cases r.2 <;> rfl

section
variable {β : Type} {find : VMInstructionSet → Option β} {wrap : β → Answer} {q : Query}
variable {self : PikaVMInsSet}

theorem Searches.contains (h : Searches q find wrap) {set : VMInstructionSet} {b : β}
    (hfind : find set = some b) : Contains q set := by
  obtain ⟨ins, hins, hmatch, -⟩ := h.found set b hfind
  exact ⟨ins, hins, hmatch⟩

theorem Searches.eq_none_iff (h : Searches q find wrap) {set : VMInstructionSet} :
    find set = none ↔ ¬Contains q set := by
  refine ⟨h.missed set, fun hnot => ?_⟩
  cases hfind : find set with
  | none => rfl
  | some b => exact absurd (h.contains hfind) hnot

/-- How a lookup ends: with an instruction that it finds, with none, or with nothing at all. -/
inductive Outcome (q : Query) (self : PikaVMInsSet) : Prop
  | found (self' : PikaVMInsSet) (a : Answer) (answer : self.query q = some (self', a))
      (list : self'.list = self.list) (finds : self.Finds q a)
      (place : Contains q (self.list.get ⟨self.recent, self.inside⟩) ∨
        ∃ set ∈ self.list.dropLast, Contains q set)
  | missed (answer : self.query q = some (self, absent q)) (length : 2 ≤ self.list.length)
      (recent : ¬Contains q (self.list.get ⟨self.recent, self.inside⟩))
      (rest : ∀ set ∈ self.list.dropLast, ¬Contains q set)
  | lost (answer : self.query q = none) (length : self.list.length ≤ 1)
      (recent : ¬Contains q (self.list.get ⟨self.recent, self.inside⟩))

theorem Searches.outcome (h : Searches q find wrap) (self : PikaVMInsSet) :
    Outcome q self := by
  rcases lookup_cases find self with ⟨self', b, hlookup, hlist, set, hset, hfind, hplace⟩ |
    ⟨hlookup, hlength, hrecent, hrest⟩ | ⟨hlookup, hlength, hrecent⟩
  · obtain ⟨ins, hins, hmatch, hwrap⟩ := h.found set b hfind
    have hcontains : Contains q set := ⟨ins, hins, hmatch⟩
    refine .found self' (wrap b) ?_ hlist ⟨set, hset, ins, hins, hmatch, hwrap⟩ ?_
    · rw [h.asked, hlookup]
      rfl
    · refine hplace.imp (fun heq => ?_) fun hmem => ⟨set, hmem, hcontains⟩
      rwa [← heq]
  · refine .missed ?_ hlength (h.eq_none_iff.mp hrecent) fun set hset =>
      h.eq_none_iff.mp (hrest set hset)
    rw [h.asked, hlookup]
    rfl
  · refine .lost ?_ hlength (h.eq_none_iff.mp hrecent)
    rw [h.asked, hlookup]
    rfl

end

variable {signatureDict : List Nat} {self : PikaVMInsSet}

/-- **Each of the three lookups.** -/
theorem outcome (q : Query) (self : PikaVMInsSet) : Outcome q self := by
  cases q with
  | index insIdx => exact (searches_index insIdx).outcome self
  | name insStr => exact (searches_name insStr).outcome self
  | opcode opIdx => exact (searches_opcode opIdx).outcome self

/-- **A lookup is right just when it is served.** -/
theorem query_iff (q : Query) (self : PikaVMInsSet) :
    (∃ self' a, self.query q = some (self', a) ∧ self.Right q a ∧ self'.list = self.list) ↔
      Served signatureDict (.query q) self := by
  rcases outcome q self with ⟨self', a, hquery, hlist, hfinds, hplace⟩ |
    ⟨hquery, hlength, hrecent, hrest⟩ | ⟨hquery, hlength, hrecent⟩
  · exact iff_of_true ⟨self', a, hquery, .inl hfinds, hlist⟩
      (hplace.elim .inl fun hset => .inr (.inl hset))
  · constructor
    · rintro ⟨self', a, hquery', hright, -⟩
      rw [hquery] at hquery'
      cases hquery'
      exact .inr (.inr ⟨hlength, hright⟩)
    · rintro (hcontains | ⟨set, hset, hcontains⟩ | ⟨-, hright⟩)
      · exact absurd hcontains hrecent
      · exact absurd hcontains (hrest set hset)
      · exact ⟨self, absent q, hquery, hright, rfl⟩
  · refine iff_of_false ?_ ?_
    · rintro ⟨self', a, hquery', -⟩
      rw [hquery] at hquery'
      cases hquery'
    · rintro (hcontains | ⟨set, hset, -⟩ | ⟨hlength', -⟩)
      · exact hrecent hcontains
      · have hpos := List.length_pos_of_mem hset
        rw [List.length_dropLast] at hpos
        omega
      · omega

/-! ### Registering -/

/-- What is in front of the last set is found. -/
theorem reaches_of_dropLast {q : Query} (h : ∃ set ∈ self.list.dropLast, Contains q set) :
    self.Reaches q := by
  obtain ⟨set, hset, hcontains⟩ := h
  rcases outcome q self with ⟨self', a, hquery, -, hfinds, -⟩ | ⟨-, -, -, hrest⟩ |
    ⟨-, hlength, -⟩
  · exact ⟨self', a, hquery, hfinds⟩
  · exact absurd hcontains (hrest set hset)
  · have hpos := List.length_pos_of_mem hset
    rw [List.length_dropLast] at hpos
    omega

theorem searchSignature_cases (signature : Nat) (items : List VMInstructionSet) :
    (∃ set ∈ items, set.signature = signature) ∧ searchSignature signature items = some true ∨
    2 ≤ items.length ∧ (searchSignature signature items).isSome ∨
    items.length ≤ 1 ∧ (∀ set ∈ items, set.signature ≠ signature) ∧
      searchSignature signature items = none := by
  fun_induction searchSignature signature items with
  | case1 => exact .inr (.inr ⟨Nat.zero_le _, fun _ h => absurd h List.not_mem_nil, rfl⟩)
  | case2 item rest h => exact .inl ⟨⟨item, List.mem_cons_self, h⟩, rfl⟩
  | case3 item h =>
    refine .inr (.inr ⟨le_rfl, fun set hset => ?_, rfl⟩)
    rwa [List.mem_singleton.mp hset]
  | case4 => exact .inr (.inl ⟨le_rfl, rfl⟩)
  | case5 item hnot next rest hne ih =>
    have hlength : 2 ≤ (item :: next :: rest).length := by
      rw [List.length_cons, List.length_cons]
      omega
    rcases ih with ⟨-, hsome⟩ | ⟨-, hsome⟩ | ⟨hone, -⟩
    · exact .inr (.inl ⟨hlength, by rw [hsome]; rfl⟩)
    · exact .inr (.inl ⟨hlength, hsome⟩)
    · cases rest with
      | nil => exact (hne rfl).elim
      | cons third rest => simp at hone

/-- Nothing is lost where nothing changes. -/
theorem answers_self (a : Answer) (insSet : VMInstructionSet) (room : Bool) :
    Answers self self a (.register insSet room) :=
  ⟨List.prefix_rfl, fun _ h => h⟩

/-- Nothing is lost behind which a set is added. -/
theorem reaches_append {self' : PikaVMInsSet} {insSet : VMInstructionSet}
    (hlist : self'.list = self.list ++ [insSet]) {q : Query} (h : self.Reaches q) :
    self'.Reaches q := by
  obtain ⟨-, a, -, set, hset, ins, hins, hmatch, -⟩ := h
  refine reaches_of_dropLast ⟨set, ?_, ins, hins, hmatch⟩
  rwa [hlist, List.dropLast_concat]

/-- **A set is registered, and nothing is lost, just when** the list has two sets already, or the
set is not to be added. -/
theorem register_iff (insSet : VMInstructionSet) (room : Bool) (self : PikaVMInsSet) :
    (∃ self' a, (machine signatureDict).step (.register insSet room) self = some (self', a) ∧
      Answers self self' a (.register insSet room)) ↔
        Served signatureDict (.register insSet room) self := by
  simp only [machine, registerInstructionSet]
  by_cases hdict : insSet.signature ∉ signatureDict
  · rw [if_pos hdict]
    exact iff_of_true ⟨self, .registered false, rfl, answers_self _ _ _⟩ (.inl hdict)
  rw [if_neg hdict]
  rcases searchSignature_cases insSet.signature self.list with ⟨hset, hsome⟩ | ⟨hlength, hsome⟩ |
    ⟨hlength, hnone, hend⟩
  · rw [hsome]
    exact iff_of_true ⟨self, .registered true, rfl, answers_self _ _ _⟩ (.inr (.inr hset))
  · refine iff_of_true ?_ (.inr (.inl hlength))
    obtain ⟨found, hfound⟩ := Option.isSome_iff_exists.mp hsome
    rw [hfound]
    cases found with
    | true => exact ⟨self, .registered true, rfl, answers_self _ _ _⟩
    | false =>
      cases room with
      | false => exact ⟨self, .registered false, rfl, answers_self _ _ _⟩
      | true =>
        exact ⟨_, .registered true, rfl, List.prefix_append _ _, fun q => reaches_append rfl⟩
  · rw [hend]
    refine iff_of_false ?_ ?_
    · rintro ⟨self', a, hrun, -⟩
      cases hrun
    · rintro (hnot | hlength' | ⟨set, hset, hsignature⟩)
      · exact hdict hnot
      · omega
      · exact hnone set hset hsignature

/-! ### Runs -/

theorem step_iff (call : Call) (self : PikaVMInsSet) :
    (∃ self' a, (machine signatureDict).step call self = some (self', a) ∧
      Answers self self' a call) ↔ Served signatureDict call self :=
  match call with
  | .query q => query_iff q self
  | .register insSet room => register_iff insSet room self

/-- **A run is right just when** what is looked up in it is in the set that was used last or in
front of the last set, or two sets are registered and none has it, and no second set is
registered. -/
theorem insSet_lawful_iff (signatureDict : List Nat) (self : PikaVMInsSet) (calls : List Call) :
    Lawful signatureDict self calls ↔
      (machine signatureDict).Meets (Served signatureDict) self calls := by
  induction calls generalizing self with
  | nil => exact iff_of_true trivial trivial
  | cons call calls ih =>
    constructor
    · rintro ⟨self', a, hstep, hanswers, hrest⟩
      exact (machine signatureDict).meets_cons hstep (step_iff call self |>.mp
        ⟨self', a, hstep, hanswers⟩) ((ih self').mp hrest)
    · rintro ⟨hserved, hrest⟩
      obtain ⟨self', a, hstep, hanswers⟩ := (step_iff call self).mpr hserved
      exact ⟨self', a, hstep, hanswers, (ih self').mpr (hrest self' a hstep)⟩

/-- `VM_default_instruction_set`, with one address for all handlers. -/
def defaultInsSet : VMInstructionSet where
  instructions := InstructIndex.table.map fun ins => ⟨0, ins.name, ins.toNat, 3⟩
  signature := 0
  opIdxStart := 0
  opIdxEnd := 35
  nonempty := by decide
  range := by decide
  indexed := by decide
  known := by decide

/-- `g_PikaVMInsSet` as it is initialized. -/
def initial : PikaVMInsSet := ⟨[defaultInsSet], 0, by decide⟩

/-- **An opcode that no set has is looked for behind the end of the list.** -/
theorem not_insSet_lawful : ¬∀ (signatureDict : List Nat) (self : PikaVMInsSet) (calls : List Call),
    Lawful signatureDict self calls := by
  intro h
  obtain ⟨self', a, hstep, -⟩ := h [0] initial [.query (.index 100)]
  have hnone : (machine [0]).step (.query (.index 100)) initial = none := by decide +kernel
  rw [hnone] at hstep
  cases hstep

end PikaVMInsSet

end PikaScript
