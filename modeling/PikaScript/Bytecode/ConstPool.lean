import PikaScript.Data.Arg
import PikaScript.Lib.StringTable

/-! The constant pool of a bytecode frame, from `PikaVM.c`.

The pool is a table of zero-ended strings that starts with the empty one. Its
memory is allocated with the first entry, and an offset in it is kept as a
`uint16_t`, of which the greatest value also says that nothing was found. -/
namespace PikaScript
open Memory

/-! ### The code -/

/-- `ConstPool`; its `content_offset_now` is zero between two calls. -/
structure ConstPool where
  argBuff : Option Bytes
  size : Nat
deriving DecidableEq, Repr

namespace ConstPool
variable (self : ConstPool)

/-- `constPool_init`. -/
def init : ConstPool := ⟨none, 1⟩

/-- `constPool_append`. -/
def append (content : CString) : ConstPool :=
  let size := u16 (content.length + 1)
  ⟨some (self.argBuff.getD [0] ++ (content ++ [0]).take size), u32 (self.size + size)⟩

/-- The loop of `constPool_getOffsetByData`, through `constPool_getNext`. -/
def scan (mem : Bytes) (data : CString) : Nat → Nat → Option Nat
  | 0, _ => none
  | fuel + 1, contentOffsetNow => do
    let now ← loadString mem contentOffsetNow
    let next := u32 (contentOffsetNow + now.length + 1)
    if self.size ≤ next then return 65535
    if data = (← loadString mem next) then return u16 next
    scan mem data fuel next

/-- `constPool_getOffsetByData`. Every round moves at least one byte on. -/
def getOffsetByData (data : CString) : Option Nat :=
  match self.argBuff with
  | none => some 65535
  | some mem => scan self mem data self.size 0

/-- The strings from an offset on, as `constPool_print` walks through them. -/
def walk (mem : Bytes) : Nat → Nat → List CString
  | 0, _ => []
  | fuel + 1, contentOffsetNow =>
    if self.size ≤ contentOffsetNow then []
    else
      match loadString mem contentOffsetNow with
      | none => []
      | some now => now :: walk mem fuel (contentOffsetNow + now.length + 1)

/-- The strings of the pool. -/
def entries : List CString :=
  match self.argBuff with
  | none => []
  | some mem => walk self mem self.size 0

/-! ### The pool as a list of strings -/

/-- The pool with these entries; one that holds the empty string alone has no memory. -/
def ofEntries (es : List CString) : ConstPool :=
  ⟨if es = [[]] then none else some (StringTable.layout es), (StringTable.layout es).length⟩

/-- Entries a pool can have: the empty string first, and no other string empty. -/
structure IsEntries (es : List CString) : Prop where
  head : ∃ rest, es = [] :: rest ∧ [] ∉ rest
  noZero : ∀ e ∈ es, 0 ∉ e
  size : (StringTable.layout es).length < 2 ^ 32

variable {es : List CString} {data : CString}

@[simp] theorem size_ofEntries (es : List CString) :
    (ofEntries es).size = (StringTable.layout es).length := rfl

theorem isEntries_init : IsEntries [[]] :=
  ⟨⟨[], rfl, List.not_mem_nil⟩, by decide, by decide⟩

theorem isEntries_concat (h : IsEntries es) (hne : data ≠ []) (hz : 0 ∉ data)
    (hsize : (StringTable.layout es).length + data.length + 1 < 2 ^ 32) :
    IsEntries (es ++ [data]) := by
  obtain ⟨⟨rest, rfl, hrest⟩, hzero, -⟩ := h
  refine ⟨⟨rest ++ [data], rfl, ?_⟩, ?_, ?_⟩
  · rw [List.mem_append, List.mem_singleton]
    exact fun h => h.elim hrest (fun h => hne h.symm)
  · intro e he
    rcases List.mem_append.mp he with he | he
    · exact hzero e he
    · rw [List.mem_singleton.mp he]
      exact hz
  · rwa [StringTable.length_layout_concat]

/-- The memory that an append goes on from. -/
theorem argBuff_ofEntries (es : List CString) :
    (ofEntries es).argBuff.getD [0] = StringTable.layout es := by
  unfold ofEntries
  split
  · rename_i hes
    rw [hes]
    rfl
  · rfl

/-- **Appending a string of fewer than 65535 bytes adds it as an entry.** -/
theorem append_ofEntries (h : IsEntries es) (hlength : data.length < 65535)
    (hsize : (StringTable.layout es).length + data.length + 1 < 2 ^ 32) :
    (ofEntries es).append data = ofEntries (es ++ [data]) := by
  obtain ⟨rest, hes, -⟩ := h.head
  have hne' : es ++ [data] ≠ [[]] := by
    rw [hes]
    simp
  have hu : u16 (data.length + 1) = data.length + 1 := u16_of_lt (by omega)
  rw [append, argBuff_ofEntries, hu, List.take_of_length_le (by rw [List.length_append]; rfl)]
  rw [ofEntries, ofEntries, if_neg hne', StringTable.layout_concat]
  simp only [List.length_append, List.length_singleton]
  rw [u32_of_lt (by omega)]

/-- The entry that starts behind the entries in front of it. -/
private theorem loadString_layout (hz : ∀ e ∈ es, 0 ∉ e) {before after : List CString} {e : CString}
    (hes : es = before ++ e :: after) :
    loadString (StringTable.layout es) (StringTable.layout before).length = some e := by
  have hdrop : (StringTable.layout es).drop (StringTable.layout before).length =
      e ++ 0 :: StringTable.layout after := by
    rw [hes, StringTable.layout_append, List.drop_left, StringTable.layout_cons]
  exact loadString_of_drop hdrop
    (hz e (by rw [hes]; exact List.mem_append_right _ List.mem_cons_self))

variable (data) in
private theorem scan_layout (hz : ∀ e ∈ es, 0 ∉ e)
    (hsize : (StringTable.layout es).length < 2 ^ 32) (before : List CString) (e : CString)
    (after : List CString) (hes : es = before ++ e :: after) (buff : Option Bytes) (fuel : Nat)
    (hfuel : after.length < fuel) :
    scan ⟨buff, (StringTable.layout es).length⟩ (StringTable.layout es) data fuel
        (StringTable.layout before).length =
      some (if data ∈ after then
        u16 ((StringTable.layout before).length + (e.length + 1 + StringTable.offset data after))
        else 65535) := by
  induction after generalizing before e fuel with
  | nil =>
    obtain ⟨fuel, rfl⟩ : ∃ n, fuel = n + 1 := ⟨fuel - 1, by omega⟩
    have hend : (StringTable.layout es).length =
        (StringTable.layout before).length + e.length + 1 := by
      rw [hes, StringTable.length_layout_concat]
    rw [scan, loadString_layout hz hes, Option.bind_eq_bind, Option.bind_some]
    dsimp only
    rw [u32_of_lt (by omega), if_pos (by omega), if_neg List.not_mem_nil]
    rfl
  | cons next after ih =>
    obtain ⟨fuel, rfl⟩ : ∃ n, fuel = n + 1 := ⟨fuel - 1, by omega⟩
    have hes' : es = (before ++ [e]) ++ next :: after := by rw [hes, List.append_assoc]; rfl
    have hnext := StringTable.length_layout_concat before e
    have hlt : (StringTable.layout (before ++ [e])).length < (StringTable.layout es).length := by
      have := StringTable.length_le_layout (next :: after)
      rw [List.length_cons] at this
      rw [hes', StringTable.layout_append (before ++ [e]), List.length_append]
      omega
    rw [scan, loadString_layout hz hes, Option.bind_eq_bind, Option.bind_some]
    dsimp only
    rw [u32_of_lt (by omega), ← hnext, if_neg (by omega), loadString_layout hz hes',
      Option.bind_some]
    by_cases hdata : data = next
    · rw [if_pos hdata, if_pos (by rw [hdata]; exact List.mem_cons_self), StringTable.offset,
        if_pos hdata.symm, hnext]
      rfl
    · rw [if_neg hdata, ih (before ++ [e]) next hes' fuel (Nat.lt_of_succ_lt_succ hfuel),
        StringTable.offset, if_neg (Ne.symm hdata), hnext]
      simp only [List.mem_cons, hdata, false_or, Nat.add_assoc]

/-- **A string that is not empty is found at its offset**, cut to sixteen bits; the
empty one is passed over. -/
theorem getOffsetByData_ofEntries (h : IsEntries es) :
    (ofEntries es).getOffsetByData data =
      some (if data ≠ [] ∧ data ∈ es then u16 (StringTable.offset data es) else 65535) := by
  obtain ⟨rest, hes, hrest⟩ := h.head
  have hmem : data ≠ [] ∧ data ∈ es ↔ data ∈ rest := by
    rw [hes, List.mem_cons]
    exact ⟨fun h => h.2.resolve_left h.1, fun h => ⟨fun hnil => hrest (hnil ▸ h), .inr h⟩⟩
  unfold getOffsetByData ofEntries
  by_cases hnil : es = [[]]
  · rw [if_pos hnil, if_neg]
    rw [hnil, List.mem_singleton]
    exact fun h => h.1 h.2
  · rw [if_neg hnil]
    have hfuel : rest.length < (StringTable.layout es).length := by
      have := StringTable.length_le_layout es
      rw [hes, List.length_cons] at this
      rw [hes]
      omega
    have hscan := scan_layout data h.noZero h.size [] [] rest hes (some (StringTable.layout es)) _
      hfuel
    simp only [StringTable.layout_nil, List.length_nil, Nat.zero_add] at hscan
    dsimp only
    rw [hscan]
    simp only [hmem]
    split
    · have hne : data ≠ [] := (hmem.mpr ‹_›).1
      rw [hes, StringTable.offset, if_neg (Ne.symm hne), List.length_nil, Nat.zero_add]
    · rfl

private theorem walk_layout (hz : ∀ e ∈ es, 0 ∉ e) (before after : List CString)
    (hes : es = before ++ after) (buff : Option Bytes) (fuel : Nat) (hfuel : after.length ≤ fuel) :
    walk ⟨buff, (StringTable.layout es).length⟩ (StringTable.layout es) fuel
      (StringTable.layout before).length = after := by
  induction after generalizing before fuel with
  | nil =>
    rw [List.append_nil] at hes
    cases fuel with
    | zero => rfl
    | succ fuel => rw [walk, if_pos (by rw [hes])]
  | cons e after ih =>
    obtain ⟨fuel, rfl⟩ : ∃ n, fuel = n + 1 := ⟨fuel - 1, by rw [List.length_cons] at hfuel; omega⟩
    have hes' : es = (before ++ [e]) ++ after := by rw [hes, List.append_assoc]; rfl
    have hnext := StringTable.length_layout_concat before e
    have hlt : (StringTable.layout before).length < (StringTable.layout es).length := by
      rw [hes', StringTable.layout_append (before ++ [e]), List.length_append]
      omega
    rw [walk, if_neg (by dsimp only; omega), loadString_layout hz hes]
    dsimp only
    rw [← hnext, ih (before ++ [e]) hes' fuel (Nat.le_of_succ_le_succ hfuel)]

/-- **The pool holds its entries**, once it has memory. -/
theorem entries_ofEntries (h : IsEntries es) (hne : es ≠ [[]]) : (ofEntries es).entries = es := by
  unfold entries ofEntries
  rw [if_neg hne]
  exact walk_layout h.noZero [] es rfl _ _ (StringTable.length_le_layout es)

end ConstPool

end PikaScript
