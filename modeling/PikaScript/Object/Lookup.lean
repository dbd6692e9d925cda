import PikaScript.Data.Arg
import PikaScript.Lib.BinarySearch

/-! The lookup of a native method.

The properties of a class and of its super classes are a chain of groups of methods, each
sorted by the hash of the name. A group of more than sixteen is searched by halves, with
bounds and a midpoint that are `int`s, a smaller one from the front. -/
namespace PikaScript

/-- A group of methods, sorted by hash, with its count in a `uint32_t`. -/
structure MethodGroup where
  methods : List Arg
  sorted : BinarySearch.Sorted Arg.nameHash methods
  count : methods.length < 2 ^ 32

/-! ### The code -/

/-- The midpoint of the bounds; their sum is an `int`. -/
def midpoint (left right : Int) : Int := s32 (right + left) / 2

/-- The search of one group in `_obj_getPropArg`. None when the assertion on its size fails,
when it leaves the group, and when it does not end in as many rounds as there are methods and
one. -/
def searchGroup (group : MethodGroup) (hash : Hash) : Option (Option Arg) :=
  let size := s32 group.methods.length
  if size < 0 then none
  else if size = 0 then some none
  else if size > 16 then
    BinarySearch.search Arg.nameHash midpoint group.methods hash (group.methods.length + 1) 0
      (size - 1)
  else some (group.methods.find? fun prop => prop.nameHash = hash)

/-- `_obj_getPropArg`, from the properties of the class on. -/
def objGetPropArg (hash : Hash) : List MethodGroup → Option (Option Arg)
  | [] => some none
  | prop :: super =>
    (searchGroup prop hash).bind fun aMethod =>
      match aMethod with
      | some method => some (some method)
      | none => objGetPropArg hash super

/-! ### The scan -/

/-- A scan of the groups in order. -/
def scan (hash : Hash) (chain : List MethodGroup) : Option Arg :=
  chain.findSome? fun group => group.methods.find? fun prop => prop.nameHash = hash

/-- The method of the group nearest to the class that has the hash. -/
def Nearest (hash : Hash) (chain : List MethodGroup) (method : Arg) : Prop :=
  ∃ front group back, chain = front ++ group :: back ∧
    (∀ g ∈ front, ∀ prop ∈ g.methods, prop.nameHash ≠ hash) ∧
    method ∈ group.methods ∧ method.nameHash = hash

/-- The lookup agrees with the scan, which finds the nearest method that has the hash, and
the search of every group of the chain ends inside it. -/
structure LookupLaw (chain : List MethodGroup) : Prop where
  agrees : ∀ hash, objGetPropArg hash chain = some (scan hash chain)
  nearest : ∀ hash method, scan hash chain = some method ↔ Nearest hash chain method
  ends : ∀ group ∈ chain, ∀ hash, (searchGroup group hash).isSome

/-- The bounds of every group can be added. -/
def LookupWhen (chain : List MethodGroup) : Prop :=
  ∀ group ∈ chain, group.methods.length ≤ 2 ^ 30

/-- In a sorted group the method of a hash is the one a scan finds. -/
theorem find?_methods_iff (group : MethodGroup) (hash : Hash) (method : Arg) :
    group.methods.find? (fun prop => prop.nameHash = hash) = some method ↔
      method ∈ group.methods ∧ method.nameHash = hash := by
  constructor
  · intro h
    exact ⟨List.mem_of_find?_eq_some h, by simpa using List.find?_some h⟩
  · intro ⟨hmem, hhash⟩
    obtain ⟨i, hi⟩ := List.mem_iff_getElem?.mp hmem
    exact group.sorted.find?_eq hi hhash

/-- **The scan finds the nearest method.** -/
theorem scan_eq_some_iff {hash : Hash} {chain : List MethodGroup} {method : Arg} :
    scan hash chain = some method ↔ Nearest hash chain method := by
  unfold scan Nearest
  rw [List.findSome?_eq_some_iff]
  constructor
  · intro ⟨front, group, back, hchain, hfind, hfront⟩
    obtain ⟨hmem, hhash⟩ := (find?_methods_iff group hash method).mp hfind
    refine ⟨front, group, back, hchain, fun g hg prop hprop => ?_, hmem, hhash⟩
    simpa using List.find?_eq_none.mp (hfront g hg) prop hprop
  · intro ⟨front, group, back, hchain, hfront, hmem, hhash⟩
    refine ⟨front, group, back, hchain, (find?_methods_iff group hash method).mpr ⟨hmem, hhash⟩,
      fun g hg => List.find?_eq_none.mpr fun prop hprop => ?_⟩
    simpa using hfront g hg prop hprop

/-- In a group whose bounds can be added the midpoint is between them. -/
theorem between_midpoint {size : Nat} (h : size ≤ 2 ^ 30) :
    BinarySearch.Between midpoint size := by
  intro left right h₁ h₂ h₃
  have hsum : s32 (right + left) = right + left := s32_of_fits ⟨by omega, by omega⟩
  rw [midpoint, hsum]
  omega

/-- A group whose bounds can be added is searched as by a scan. -/
theorem searchGroup_eq {group : MethodGroup} (h : group.methods.length ≤ 2 ^ 30) (hash : Hash) :
    searchGroup group hash = some (group.methods.find? fun prop => prop.nameHash = hash) := by
  have hsize : s32 group.methods.length = group.methods.length :=
    s32_of_fits ⟨by omega, by omega⟩
  unfold searchGroup
  simp only [hsize]
  rw [if_neg (by omega)]
  split
  · have hempty : group.methods = [] := List.length_eq_zero_iff.mp (by omega)
    rw [hempty, List.find?_nil]
  · split
    · exact BinarySearch.search_eq_find? group.sorted (between_midpoint h) le_rfl (by omega)
        (by omega) (fun i a _ hlt => absurd hlt (by omega))
        (fun i a hi hlt => by
          have := (List.getElem?_eq_some_iff.mp hi).1
          omega) (by omega)
    · rfl

/-- The last method of a group with more is searched outside it: once the bounds cannot be
added the midpoint is negative. -/
theorem search_last_eq_none {group : MethodGroup} (h : 2 ^ 30 < group.methods.length)
    (hsize : group.methods.length < 2 ^ 31) {last : Arg}
    (hlast : group.methods[group.methods.length - 1]? = some last) {rounds : Nat} {left : Int}
    (h₀ : 0 ≤ left) (hleft : left < group.methods.length) :
    BinarySearch.search Arg.nameHash midpoint group.methods last.nameHash rounds left
      (group.methods.length - 1) = none := by
  induction rounds generalizing left with
  | zero => rfl
  | succ rounds ih =>
    rw [BinarySearch.search, if_neg (by omega)]
    by_cases hsum : left + (group.methods.length - 1) < 2 ^ 31
    · have hmid : midpoint left (group.methods.length - 1) =
          (group.methods.length - 1 + left) / 2 := by
        rw [midpoint, s32_of_fits ⟨by omega, by omega⟩]
      rw [hmid]
      have hlt : (group.methods.length - 1 + left) / 2 < group.methods.length - 1 := by omega
      have hnonneg : 0 ≤ (group.methods.length - 1 + left) / 2 := by omega
      revert hlt hnonneg
      generalize ((group.methods.length : Int) - 1 + left) / 2 = m
      intro hlt hnonneg
      obtain ⟨prop, hprop⟩ : ∃ prop, group.methods[m.toNat]? = some prop :=
        ⟨_, List.getElem?_eq_getElem (by omega)⟩
      have hget : BinarySearch.getAt group.methods m = some prop := (if_pos hnonneg).trans hprop
      have hless : prop.nameHash < last.nameHash := group.sorted.lt hprop hlast (by omega)
      rw [hget]
      dsimp only
      rw [if_neg (ne_of_lt hless), if_pos hless]
      exact ih (by omega) (by omega)
    · have hmid : midpoint left (group.methods.length - 1) < 0 := by
        rw [midpoint, s32_of_over (by omega) (by omega)]
        omega
      have hget : BinarySearch.getAt group.methods (midpoint left (group.methods.length - 1)) =
          none := if_neg (by omega)
      rw [hget]

/-- Where every group is searched as by a scan, the chain is. -/
theorem objGetPropArg_eq {hash : Hash} {chain : List MethodGroup}
    (h : ∀ group ∈ chain, searchGroup group hash =
      some (group.methods.find? fun prop => prop.nameHash = hash)) :
    objGetPropArg hash chain = some (scan hash chain) := by
  induction chain with
  | nil => rfl
  | cons prop super ih =>
    rw [List.forall_mem_cons] at h
    have hrest := ih h.2
    rw [objGetPropArg, h.1, Option.bind_some, scan, List.findSome?_cons]
    cases prop.methods.find? (fun prop => prop.nameHash = hash) with
    | some method => rfl
    | none => exact hrest

/-- In a group with more some hash is searched outside it, or the assertion on its size
fails. -/
theorem exists_searchGroup_eq_none {group : MethodGroup} (h : 2 ^ 30 < group.methods.length) :
    ∃ hash, searchGroup group hash = none := by
  by_cases hsize : group.methods.length < 2 ^ 31
  · obtain ⟨last, hlast⟩ : ∃ last, group.methods[group.methods.length - 1]? = some last :=
      ⟨_, List.getElem?_eq_getElem (by omega)⟩
    have hword : s32 group.methods.length = group.methods.length :=
      s32_of_fits ⟨by omega, by omega⟩
    refine ⟨last.nameHash, ?_⟩
    unfold searchGroup
    simp only [hword]
    rw [if_neg (by omega), if_neg (by omega), if_pos (by omega)]
    exact search_last_eq_none h hsize hlast le_rfl (by omega)
  · have hcount := group.count
    have hneg : s32 group.methods.length < 0 := by
      rw [s32_of_over (by omega) (by omega)]
      omega
    refine ⟨0, ?_⟩
    unfold searchGroup
    dsimp only
    rw [if_pos hneg]

/-- Where the lookup agrees with the scan, the bounds of every group can be added. -/
theorem LookupLaw.lookupWhen {chain : List MethodGroup} (h : LookupLaw chain) :
    LookupWhen chain := by
  intro group hgroup
  by_contra hlarge
  obtain ⟨hash, hnone⟩ := exists_searchGroup_eq_none (Nat.not_le.mp hlarge)
  have hsome := h.ends group hgroup hash
  rw [hnone] at hsome
  cases hsome

/-- **The lookup agrees with a scan exactly when every group of the chain has at most
2 ^ 30 methods.** -/
theorem lookup_iff (chain : List MethodGroup) : LookupLaw chain ↔ LookupWhen chain := by
  refine ⟨LookupLaw.lookupWhen, fun h => ?_⟩
  refine ⟨fun hash => ?_, fun hash method => scan_eq_some_iff, fun group hgroup hash => ?_⟩
  · exact objGetPropArg_eq fun group hgroup => searchGroup_eq (h group hgroup) hash
  · rw [searchGroup_eq (h group hgroup)]
    rfl

/-- Methods with the hashes from zero on. -/
def manyMethods (count : Nat) : List Arg :=
  (List.range count).map fun hash => ⟨.methodNative, 0, hash, []⟩

theorem length_manyMethods (count : Nat) : (manyMethods count).length = count := by
  simp [manyMethods]

theorem sorted_manyMethods (count : Nat) :
    BinarySearch.Sorted Arg.nameHash (manyMethods count) := by
  unfold BinarySearch.Sorted manyMethods
  rw [List.pairwise_map]
  exact List.pairwise_lt_range

theorem not_lookupLaw_manyMethods {count : Nat} (h : 2 ^ 30 < count)
    (hcount : (manyMethods count).length < 2 ^ 32) :
    ¬LookupLaw [⟨manyMethods count, sorted_manyMethods count, hcount⟩] := by
  intro hlaw
  have hle : (manyMethods count).length ≤ 2 ^ 30 :=
    hlaw.lookupWhen _ (List.mem_singleton_self _)
  rw [length_manyMethods] at hle
  omega

/-- In a group of 2 ^ 30 + 1 methods the last one is searched outside the group. -/
theorem not_lookup : ¬LookupLaw [⟨manyMethods (2 ^ 30 + 1), sorted_manyMethods _, by
    rw [length_manyMethods]; omega⟩] :=
  not_lookupLaw_manyMethods (by omega) _

end PikaScript
