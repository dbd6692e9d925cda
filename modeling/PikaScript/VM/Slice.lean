import PikaScript.Data.Utf8
import PikaScript.Lib.Sequence

/-! Indexing and slicing.

The `SLC` instruction takes an element of a container or a slice of it. The parser writes a
zero for a bound left out at the start, and a number of its own for one left out at the
end. The index, the bounds and the length are `int`s. -/
namespace PikaScript
open Sequence

/-- The items of a list or a tuple; the index of the next one is an `int`. -/
structure ItemList (α : Type) where
  items : List α
  fits : items.length < 2 ^ 31

/-- A container with an order. -/
inductive Container (α : Type) where
  | str (value : TextValue)
  | bytes (value : BytesValue)
  | list (value : ItemList α)
  | tuple (value : ItemList α)

/-- What an index or a slice leaves: a value, an `IndexError`, or a read outside the payload. -/
inductive Element (α : Type) where
  | none
  | str (text : CString)
  | int (value : Int)
  | bytes (data : Bytes)
  | item (value : α)
  | list (items : List α)
  | tuple (items : List α)
  | indexError
  | outside

variable {α : Type}

/-! ### The code -/

/-- `arg_getLen`, an `int`; none when it reads outside the text. -/
def argGetLen : Container α → Option Int
  | .str value => strGetSizeUtf8 value.text
  | .bytes value => some (s32 value.data.length)
  | .list value => some (s32 value.items.length)
  | .tuple value => some (s32 value.items.length)

/-- `PikaStdData_Tuple___getitem__`, which lists have too. -/
def tupleGetitem (value : ItemList α) (key : Int) : Element α :=
  let i := s32 key
  if i < 0 ∨ i ≥ value.items.length then .indexError
  else
    match value.items[i.toNat]? with
    | some item => .item item
    | none => .none

/-- `PikaStdData_String___getitem__`. -/
def stringGetitem (value : TextValue) (key : Int) : Element α :=
  match strGet value.text (s32 key) with
  | none => .outside
  | some none => .none
  | some (some charBuff) => .str charBuff

/-- The element of `_vm_get`, with the index and the key it has left. -/
def vmGetElement (iIndex key : Int) : Container α → Element α
  | .str value => stringGetitem value key
  | .bytes value =>
    if iIndex < 0 then .outside
    else
      match value.data[iIndex.toNat]? with
      | none => .outside
      | some byte => .int byte.toNat
  | .list value => tupleGetitem value key
  | .tuple value => tupleGetitem value key

/-- `_vm_get` with the length and the index as `int`s. A negative index is written back to the
key. -/
def vmGetIndex (iLen iIndex aKey : Int) (aObj : Container α) : Element α :=
  if iLen = -1 then vmGetElement iIndex aKey aObj
  else if iIndex < 0 then
    if s32 (iIndex + iLen) ≥ iLen then .indexError
    else vmGetElement (s32 (iIndex + iLen)) (s32 (iIndex + iLen)) aObj
  else if iIndex ≥ iLen then .indexError
  else vmGetElement iIndex aKey aObj

/-- `_vm_get`. -/
def vmGet (aObj : Container α) (aKey : Int) : Element α :=
  match argGetLen aObj with
  | none => .outside
  | some iLen => vmGetIndex iLen (s32 aKey) aKey aObj

/-- The loop of `_vm_slice` over a list or a tuple; none when an item is not found. -/
def sliceLoop (aObj : Container α) : Nat → Int → List α → Option (List α)
  | 0, _, oSliced => some oSliced
  | count + 1, i, oSliced =>
    match vmGet aObj i with
    | .item aItem => sliceLoop aObj count (i + 1) (oSliced ++ [aItem])
    | _ => none

/-- `VM_PC_EXIT`, which stands for an end left out. -/
def vmPcExit : Int := -99999

/-- A bound of `_vm_slice` behind which a negative one is counted from the end, and which is
no further than the end. -/
def sliceBound (iLen i : Int) : Int :=
  let i := if i < 0 then s32 (i + iLen) else i
  if i > iLen then iLen else i

/-- `_vm_slice` behind its bounds. -/
def sliceBetween (aObj : Container α) (aStart iStart iEnd : Int) : Element α :=
  if iStart > iEnd then .str []
  else
    match aObj with
    | .bytes value =>
      if iEnd - iStart = 0 then .bytes []
      else if iStart < 0 ∨ iEnd > value.data.length then .outside
      else .bytes ((value.data.drop iStart.toNat).take (iEnd - iStart).toNat)
    | .str value =>
      if iEnd - iStart = 1 then vmGet aObj aStart
      else
        match stringSlice value.text iStart iEnd with
        | none => .outside
        | some none => .none
        | some (some sSliced) => .str sSliced
    | .list _ =>
      if iEnd - iStart = 1 then vmGet aObj aStart
      else
        match sliceLoop aObj (iEnd - iStart).toNat iStart [] with
        | none => .indexError
        | some oSliced => .list oSliced
    | .tuple _ =>
      if iEnd - iStart = 1 then vmGet aObj aStart
      else
        match sliceLoop aObj (iEnd - iStart).toNat iStart [] with
        | none => .indexError
        | some oSliced => .tuple oSliced

/-- `_vm_slice`. -/
def vmSlice (aObj : Container α) (aStart aEnd : Int) : Element α :=
  match argGetLen aObj with
  | none => .outside
  | some iLen =>
    sliceBetween aObj aStart (sliceBound iLen (s32 aStart))
      (sliceBound iLen (if s32 aEnd = vmPcExit then iLen else s32 aEnd))

/-- The bound the parser writes for the start of a slice. -/
def parseSliceStart (start : Option Int64) : Int := (start.map (·.toInt)).getD 0

/-- The bound the parser writes for the end of a slice. -/
def parseSliceEnd (stop : Option Int64) : Int := (stop.map (·.toInt)).getD (-99999)

/-! ### Python -/

namespace Container

/-- How many elements there are. -/
def length : Container α → Nat
  | .str value => value.chars.length
  | .bytes value => value.data.length
  | .list value => value.items.length
  | .tuple value => value.items.length

/-- The element at an index, or an `IndexError`. -/
def getItem (aObj : Container α) (i : Int) : Element α :=
  match aObj with
  | .str value => ((entry value.chars i).map fun c => .str (encodeChar c)).getD .indexError
  | .bytes value => ((entry value.data i).map fun byte => .int byte.toNat).getD .indexError
  | .list value => ((entry value.items i).map .item).getD .indexError
  | .tuple value => ((entry value.items i).map .item).getD .indexError

/-- The slice between two bounds, of the container's own type. -/
def getSlice (aObj : Container α) (start stop : Int) : Element α :=
  match aObj with
  | .str value => .str (encodeText (slice value.chars start stop))
  | .bytes value => .bytes (slice value.data start stop)
  | .list value => .list (slice value.items start stop)
  | .tuple value => .tuple (slice value.items start stop)

/-- The end of a slice, the length when it is left out. -/
def stop (aObj : Container α) (stop : Option Int64) : Int :=
  (stop.map (·.toInt)).getD aObj.length

end Container

/-- The start of a slice, the front when it is left out. -/
def sliceStart (start : Option Int64) : Int := (start.map (·.toInt)).getD 0

/-- The index has Python's element or an `IndexError`, and nothing outside is read. -/
def IndexLaw (aObj : Container α) (i : Int) : Prop := vmGet aObj i = aObj.getItem i

/-- The slice is Python's, and nothing outside is read. -/
def SliceLaw (aObj : Container α) (start stop : Option Int64) : Prop :=
  vmSlice aObj (parseSliceStart start) (parseSliceEnd stop) =
    aObj.getSlice (sliceStart start) (aObj.stop stop)

/-- The bytes of the payload are counted in an `int`. -/
def Counted (aObj : Container α) : Prop :=
  match aObj with
  | .str value => value.text.length < 2 ^ 31
  | .bytes value => value.data.length < 2 ^ 31
  | .list _ => True
  | .tuple _ => True

/-- Where an index has Python's element or an `IndexError`. In a `str` a character is found
only when it starts before the size that bounds the walk. Of the indices out of range only one
past the end is reported, but a list or a tuple reports all whose `int` is out of range. -/
def IndexWhen (aObj : Container α) (i : Int) : Prop :=
  match aObj with
  | .str value =>
    if InRange value.chars.length i then value.Reach (pos value.chars.length i).toNat
    else value.chars.length ≤ s32 i
  | .bytes value => InRange value.data.length i ∨ value.data.length ≤ s32 i
  | .list value => InRange value.items.length i ∨ ¬InRange value.items.length (s32 i)
  | .tuple value => InRange value.items.length i ∨ ¬InRange value.items.length (s32 i)

/-- A bound is an `int`. -/
def InInt (bound : Option Int64) : Prop := ∀ i, bound = some i → FitsS32 i.toInt

/-- The end is given as the number that stands for an end left out. -/
def IsExit (stop : Option Int64) : Prop := stop.map (·.toInt) = some vmPcExit

instance (stop : Option Int64) : Decidable (IsExit stop) :=
  inferInstanceAs (Decidable (stop.map (·.toInt) = some vmPcExit))

/-- The position `_vm_slice` starts at, which stays negative before the front. -/
def startPos (aObj : Container α) (start : Option Int64) : Int :=
  bound aObj.length (sliceStart start)

/-- The position `_vm_slice` ends at: the length for the number that stands for it. -/
def endPos (aObj : Container α) (stop : Option Int64) : Int :=
  if IsExit stop then aObj.length else bound aObj.length (aObj.stop stop)

/-- Where a slice is Python's. An end of -99999 is given only with nothing to take; the
positions do not cross, other than in a `str`, and do not start before the front, unless
they are the same; a list or a tuple has not one item taken; and in a `str` the last
character starts before the size that bounds the walk. -/
def SliceWhen (aObj : Container α) (start stop : Option Int64) : Prop :=
  (IsExit stop → aObj.length ≤ startPos aObj start) ∧
  match aObj with
  | .str value => endPos aObj stop ≤ startPos aObj start ∨
      0 ≤ startPos aObj start ∧ value.Reach (endPos aObj stop - 1).toNat
  | .bytes _ => startPos aObj start = endPos aObj stop ∨
      0 ≤ startPos aObj start ∧ startPos aObj start < endPos aObj stop
  | .list _ => startPos aObj start = endPos aObj stop ∨
      0 ≤ startPos aObj start ∧ startPos aObj start + 1 < endPos aObj stop
  | .tuple _ => startPos aObj start = endPos aObj stop ∨
      0 ≤ startPos aObj start ∧ startPos aObj start + 1 < endPos aObj stop

/-! ### Indexing -/

/-- `_vm_get` where the length is counted: an `IndexError` past the end, and the element at
the position before it. -/
theorem vmGet_eq {aObj : Container α} {n : Nat} (hlen : argGetLen aObj = some (n : Int))
    (hn : n < 2 ^ 31) (aKey : Int) :
    vmGet aObj aKey =
      if n ≤ s32 aKey then .indexError
      else vmGetElement (pos n (s32 aKey)) (if s32 aKey < 0 then pos n (s32 aKey) else aKey)
        aObj := by
  have hbound := fitsS32_s32 aKey
  unfold vmGet
  rw [hlen]
  dsimp only
  revert hbound
  generalize s32 aKey = i
  intro hbound
  unfold vmGetIndex
  rw [if_neg (by omega)]
  by_cases hneg : i < 0
  · have hsum : s32 (i + n) = i + n := s32_of_fits ⟨by have := hbound.1; omega, by omega⟩
    rw [if_pos hneg, if_pos hneg, hsum, pos_of_neg hneg, if_neg (by omega), if_neg (by omega)]
  · rw [if_neg hneg, if_neg hneg, pos_of_nonneg (by omega)]

/-- An item of a list or a tuple, or an `IndexError`. -/
def ItemList.getItem (value : ItemList α) (i : Int) : Element α :=
  ((entry value.items i).map .item).getD .indexError

theorem ItemList.getItem_of_inRange {value : ItemList α} {i : Int}
    (h : InRange value.items.length i) : ∃ item, value.items[(pos value.items.length i).toNat]? =
      some item ∧ value.getItem i = .item item := by
  obtain ⟨item, hitem⟩ := exists_entry h
  refine ⟨item, (entry_of_inRange h).symm.trans hitem, ?_⟩
  rw [getItem, hitem]
  rfl

theorem ItemList.getItem_of_not_inRange {value : ItemList α} {i : Int}
    (h : ¬InRange value.items.length i) : value.getItem i = .indexError := by
  rw [getItem, entry_of_not_inRange h]
  rfl

/-- `__getitem__` of a key that is not negative. -/
theorem tupleGetitem_of_nonneg {value : ItemList α} {key : Int} (h : 0 ≤ s32 key) :
    tupleGetitem value key = value.getItem (s32 key) := by
  unfold tupleGetitem
  dsimp only
  by_cases hlt : s32 key < value.items.length
  · have hin : InRange value.items.length (s32 key) := ⟨by omega, hlt⟩
    obtain ⟨item, hitem, hget⟩ := ItemList.getItem_of_inRange hin
    rw [pos_of_nonneg h] at hitem
    rw [if_neg (by omega), hitem, hget]
  · rw [if_pos (by omega), ItemList.getItem_of_not_inRange fun hin => hlt hin.2]

theorem tupleGetitem_of_neg {value : ItemList α} {key : Int} (h : s32 key < 0) :
    tupleGetitem value key = .indexError := by
  unfold tupleGetitem
  dsimp only
  rw [if_pos (.inl h)]

theorem vmGet_tuple (value : ItemList α) (i : Int) :
    vmGet (.tuple value) i = vmGet (.list value) i := rfl

theorem argGetLen_list (value : ItemList α) :
    argGetLen (.list value) = some (value.items.length : Int) := by
  have hfits := value.fits
  rw [argGetLen, s32_of_fits ⟨by omega, by omega⟩]

/-- **A list gives the item at the `int` of the index.** -/
theorem vmGet_list (value : ItemList α) (i : Int) :
    vmGet (.list value) i = value.getItem (s32 i) := by
  have hfits := value.fits
  have hbound := fitsS32_s32 i
  rw [vmGet_eq (argGetLen_list value) hfits, vmGetElement]
  by_cases hge : value.items.length ≤ s32 i
  · rw [if_pos hge, ItemList.getItem_of_not_inRange fun h => absurd h.2 (by omega)]
  rw [if_neg hge]
  by_cases hneg : s32 i < 0
  · have hpos : s32 (pos value.items.length (s32 i)) = pos value.items.length (s32 i) := by
      rw [pos_of_neg hneg]
      exact s32_of_fits ⟨by have := hbound.1; omega, by omega⟩
    rw [if_pos hneg]
    by_cases hin : InRange value.items.length (s32 i)
    · obtain ⟨hnonneg, hlt⟩ := inRange_iff.mp hin
      rw [tupleGetitem_of_nonneg (by omega), hpos]
      unfold ItemList.getItem
      rw [entry_pos hin]
    · have hlow : pos value.items.length (s32 i) < 0 := by
        by_contra hnonneg
        rw [pos_of_neg hneg] at hnonneg
        exact hin ⟨by omega, by omega⟩
      rw [tupleGetitem_of_neg (by omega), ItemList.getItem_of_not_inRange hin]
  · rw [if_neg hneg, tupleGetitem_of_nonneg (by omega)]

/-- The index law of a list or a tuple. -/
theorem getItem_s32_iff (value : ItemList α) (i : Int) :
    value.getItem (s32 i) = value.getItem i ↔
      InRange value.items.length i ∨ ¬InRange value.items.length (s32 i) := by
  have hfits := value.fits
  by_cases hin : InRange value.items.length i
  · have hword : s32 i = i := s32_of_fits ⟨by have := hin.1; omega, by have := hin.2; omega⟩
    rw [hword]
    exact iff_of_true rfl (.inl hin)
  · by_cases hin' : InRange value.items.length (s32 i)
    · obtain ⟨item, -, hget⟩ := ItemList.getItem_of_inRange hin'
      rw [hget, ItemList.getItem_of_not_inRange hin]
      exact iff_of_false (fun h => by cases h) (by tauto)
    · rw [ItemList.getItem_of_not_inRange hin, ItemList.getItem_of_not_inRange hin']
      exact iff_of_true rfl (.inr hin')

/-- The byte at an index, or an `IndexError`. -/
theorem getItem_bytes_of_inRange {value : BytesValue} {i : Int}
    (h : InRange value.data.length i) :
    ∃ byte, value.data[(pos value.data.length i).toNat]? = some byte ∧
      (Container.bytes value : Container α).getItem i = .int byte.toNat := by
  obtain ⟨byte, hbyte⟩ := exists_entry h
  refine ⟨byte, (entry_of_inRange h).symm.trans hbyte, ?_⟩
  rw [Container.getItem, hbyte]
  rfl

theorem getItem_bytes_of_not_inRange {value : BytesValue} {i : Int}
    (h : ¬InRange value.data.length i) :
    (Container.bytes value : Container α).getItem i = .indexError := by
  rw [Container.getItem, entry_of_not_inRange h]
  rfl

theorem argGetLen_bytes {value : BytesValue} (hsize : value.data.length < 2 ^ 31) :
    argGetLen (.bytes value : Container α) = some (value.data.length : Int) := by
  rw [argGetLen, s32_of_fits ⟨by omega, by omega⟩]

/-- Bytes counted in an `int`: the byte at the `int` of the index, an `IndexError` past the
end, and a read outside them before the front. -/
theorem vmGet_bytes {value : BytesValue} (hsize : value.data.length < 2 ^ 31) (i : Int) :
    vmGet (.bytes value : Container α) i =
      if value.data.length ≤ s32 i then .indexError
      else if InRange value.data.length (s32 i) then
        (Container.bytes value : Container α).getItem (s32 i)
      else .outside := by
  rw [vmGet_eq (argGetLen_bytes hsize) hsize]
  by_cases hge : value.data.length ≤ s32 i
  · rw [if_pos hge, if_pos hge]
  rw [if_neg hge, if_neg hge]
  simp only [vmGetElement]
  by_cases hin : InRange value.data.length (s32 i)
  · obtain ⟨hnonneg, hlt⟩ := inRange_iff.mp hin
    obtain ⟨byte, hbyte, hget⟩ := @getItem_bytes_of_inRange α value (s32 i) hin
    rw [if_neg (by omega), if_pos hin, hbyte, hget]
  · have hlow : pos value.data.length (s32 i) < 0 := by
      by_contra hnonneg
      exact hin (inRange_iff.mpr ⟨by omega, by unfold pos; split <;> omega⟩)
    rw [if_pos hlow, if_neg hin]

/-- The index law of bytes. -/
theorem index_bytes_iff {value : BytesValue} (hsize : value.data.length < 2 ^ 31) (i : Int) :
    IndexLaw (.bytes value : Container α) i ↔ IndexWhen (.bytes value : Container α) i := by
  unfold IndexLaw IndexWhen
  dsimp only
  rw [vmGet_bytes hsize]
  by_cases hin : InRange value.data.length i
  · have hword : s32 i = i := s32_of_fits ⟨by have := hin.1; omega, by have := hin.2; omega⟩
    rw [hword, if_neg (by have := hin.2; omega), if_pos hin]
    exact iff_of_true rfl (.inl hin)
  · rw [getItem_bytes_of_not_inRange hin]
    by_cases hge : value.data.length ≤ s32 i
    · rw [if_pos hge]
      exact iff_of_true rfl (.inr hge)
    · rw [if_neg hge]
      refine iff_of_false (fun h => ?_) (by tauto)
      split at h
      · rename_i hin'
        obtain ⟨byte, -, hget⟩ := @getItem_bytes_of_inRange α value (s32 i) hin'
        rw [hget] at h
        cases h
      · cases h

/-- The character at an index, or an `IndexError`. -/
theorem getItem_str_of_inRange {value : TextValue} {i : Int}
    (h : InRange value.chars.length i) :
    ∃ c, value.chars[(pos value.chars.length i).toNat]? = some c ∧
      (Container.str value : Container α).getItem i = .str (encodeChar c) := by
  obtain ⟨c, hc⟩ := exists_entry h
  refine ⟨c, (entry_of_inRange h).symm.trans hc, ?_⟩
  rw [Container.getItem, hc]
  rfl

theorem getItem_str_of_not_inRange {value : TextValue} {i : Int}
    (h : ¬InRange value.chars.length i) :
    (Container.str value : Container α).getItem i = .indexError := by
  rw [Container.getItem, entry_of_not_inRange h]
  rfl

/-- `__getitem__` of a string finds a character that starts before the size that bounds the
walk. -/
theorem stringGetitem_of_reach {value : TextValue} {key : Int} {k : Nat} (hkey : s32 key = k)
    (hreach : value.Reach k) :
    ∃ c, value.chars[k]? = some c ∧
      (stringGetitem value key : Element α) = .str (encodeChar c) := by
  obtain ⟨c, hc, hget⟩ := value.exists_strGet hreach
  refine ⟨c, hc, ?_⟩
  rw [stringGetitem, hkey, hget]

theorem stringGetitem_of_not_reach {value : TextValue} {key : Int} {k : Nat}
    (hkey : s32 key = k) (hreach : ¬value.Reach k) :
    (stringGetitem value key : Element α) = .none := by
  rw [stringGetitem, hkey, value.strGet_of_not_reach hreach]

/-- `__getitem__` of a string gives a character or nothing. -/
theorem stringGetitem_cases (value : TextValue) (key : Int) :
    (stringGetitem value key : Element α) = .outside ∨
      (stringGetitem value key : Element α) = .none ∨
      ∃ c, (stringGetitem value key : Element α) = .str (encodeChar c) := by
  unfold stringGetitem
  split
  · exact .inl rfl
  · exact .inr (.inl rfl)
  · rename_i hget
    obtain ⟨c, rfl⟩ := value.strGet_eq_some hget
    exact .inr (.inr ⟨c, rfl⟩)

theorem argGetLen_str {value : TextValue} (hsize : value.text.length < 2 ^ 31) :
    argGetLen (.str value : Container α) = some (value.chars.length : Int) := by
  rw [argGetLen, value.strGetSizeUtf8_eq, TextValue.sizeUtf8, if_pos hsize]

/-- Text counted in an `int`: an `IndexError` past the end, and `__getitem__` of the position
before it. -/
theorem vmGet_str {value : TextValue} (hsize : value.text.length < 2 ^ 31) (i : Int) :
    vmGet (.str value : Container α) i =
      if value.chars.length ≤ s32 i then .indexError
      else stringGetitem value
        (if s32 i < 0 then pos value.chars.length (s32 i) else i) := by
  have hle := value.length_chars_le
  rw [vmGet_eq (argGetLen_str hsize) (by omega), vmGetElement]

/-- The index law of a string. -/
theorem index_str_iff {value : TextValue} (hsize : value.text.length < 2 ^ 31) (i : Int) :
    IndexLaw (.str value : Container α) i ↔ IndexWhen (.str value : Container α) i := by
  have hle := value.length_chars_le
  unfold IndexLaw IndexWhen
  dsimp only
  rw [vmGet_str hsize]
  by_cases hin : InRange value.chars.length i
  · obtain ⟨c, hc, hget⟩ := @getItem_str_of_inRange α value i hin
    obtain ⟨hnonneg, hlt⟩ := inRange_iff.mp hin
    have hword : s32 i = i := s32_of_fits ⟨by have := hin.1; omega, by have := hin.2; omega⟩
    have hkey : s32 (if s32 i < 0 then pos value.chars.length (s32 i) else i) =
        ((pos value.chars.length i).toNat : Nat) := by
      have hposition : (if i < 0 then pos value.chars.length i else i) =
          pos value.chars.length i := by
        split
        · rfl
        · exact (pos_of_nonneg (by omega)).symm
      rw [Int.toNat_of_nonneg hnonneg, hword, hposition]
      exact s32_of_fits ⟨by omega, by omega⟩
    rw [hget, if_pos hin, if_neg (by have := hin.2; omega)]
    by_cases hreach : value.Reach (pos value.chars.length i).toNat
    · obtain ⟨c', hc', hfound⟩ := @stringGetitem_of_reach α value _ _ hkey hreach
      rw [hc, Option.some.injEq] at hc'
      rw [hfound, hc']
      exact iff_of_true rfl hreach
    · rw [stringGetitem_of_not_reach hkey hreach]
      exact iff_of_false (fun h => by cases h) hreach
  · rw [getItem_str_of_not_inRange hin, if_neg hin]
    by_cases hge : value.chars.length ≤ s32 i
    · rw [if_pos hge]
      exact iff_of_true rfl hge
    · rw [if_neg hge]
      refine iff_of_false (fun h => ?_) hge
      obtain hfound | hfound | ⟨c, hfound⟩ := @stringGetitem_cases α value
        (if s32 i < 0 then pos value.chars.length (s32 i) else i)
      · rw [hfound] at h
        cases h
      · rw [hfound] at h
        cases h
      · rw [hfound] at h
        cases h

/-- **An index has Python's element or an `IndexError` exactly where the code's checks
see it.** -/
theorem indexLaw_iff {aObj : Container α} (h : Counted aObj) (i : Int) :
    IndexLaw aObj i ↔ IndexWhen aObj i := by
  cases aObj with
  | str value => exact index_str_iff h i
  | bytes value => exact index_bytes_iff h i
  | list value =>
    unfold IndexLaw
    rw [vmGet_list]
    exact getItem_s32_iff value i
  | tuple value =>
    unfold IndexLaw
    rw [vmGet_tuple, vmGet_list]
    exact getItem_s32_iff value i

/-! ### Slicing -/

theorem argGetLen_eq {aObj : Container α} (h : Counted aObj) :
    argGetLen aObj = some (aObj.length : Int) ∧ aObj.length < 2 ^ 31 := by
  cases aObj with
  | str value => exact ⟨argGetLen_str h, value.length_chars_le.trans_lt h⟩
  | bytes value => exact ⟨argGetLen_bytes h, h⟩
  | list value => exact ⟨argGetLen_list value, value.fits⟩
  | tuple value => exact ⟨argGetLen_list value, value.fits⟩

theorem sliceBound_eq {n : Nat} {i : Int} (hn : n < 2 ^ 31) (hi : FitsS32 i) :
    sliceBound n i = bound n i := by
  unfold sliceBound bound
  by_cases hneg : i < 0
  · have hsum : s32 (i + n) = i + n := s32_of_fits ⟨by have := hi.1; omega, by omega⟩
    rw [if_pos hneg, pos_of_neg hneg, hsum]
    dsimp only
    split
    · omega
    · omega
  · rw [if_neg hneg, pos_of_nonneg (by omega)]
    dsimp only
    split
    · omega
    · omega

theorem fits_sliceStart {start : Option Int64} (h : InInt start) : FitsS32 (sliceStart start) := by
  cases start with
  | none => exact (by decide : FitsS32 0)
  | some i => exact h i rfl

/-- Bounds that are `int`s come to the positions. -/
theorem vmSlice_eq {aObj : Container α} (h : Counted aObj) {start stop : Option Int64}
    (hstart : InInt start) (hstop : InInt stop) :
    vmSlice aObj (parseSliceStart start) (parseSliceEnd stop) =
      sliceBetween aObj (sliceStart start) (startPos aObj start) (endPos aObj stop) := by
  obtain ⟨hlen, hn⟩ := argGetLen_eq h
  have hlength : FitsS32 (aObj.length : Int) := ⟨by omega, by omega⟩
  have hfirst : FitsS32 (sliceStart start) := fits_sliceStart hstart
  have hlast : sliceBound aObj.length
      (if s32 (parseSliceEnd stop) = vmPcExit then (aObj.length : Int)
        else s32 (parseSliceEnd stop)) = endPos aObj stop := by
    unfold endPos
    cases stop with
    | none =>
      have hexit : s32 (parseSliceEnd none) = vmPcExit := by decide
      have hnot : ¬IsExit none := by decide
      rw [if_pos hexit, if_neg hnot]
      exact sliceBound_eq hn hlength
    | some j =>
      have hword : s32 (parseSliceEnd (some j)) = j.toInt := s32_of_fits (hstop j rfl)
      rw [hword]
      by_cases hexit : j.toInt = vmPcExit
      · have hexit' : IsExit (some j) := congrArg some hexit
        rw [if_pos hexit, if_pos hexit', sliceBound_eq hn hlength, bound_length]
      · have hexit' : ¬IsExit (some j) := fun h => hexit (Option.some.inj h)
        rw [if_neg hexit, if_neg hexit']
        exact sliceBound_eq hn (hstop j rfl)
  unfold vmSlice
  rw [hlen]
  dsimp only
  rw [hlast]
  have hword : s32 (parseSliceStart start) = sliceStart start := s32_of_fits hfirst
  rw [hword, sliceBound_eq hn hfirst]
  rfl

section Positions
variable {aObj : Container α} {start stop : Option Int64}

theorem endPos_le : endPos aObj stop ≤ aObj.length := by
  unfold endPos
  split
  · exact le_rfl
  · exact bound_le

theorem endPos_of_exit (h : IsExit stop) : endPos aObj stop = aObj.length := if_pos h

theorem endPos_of_not_exit (h : ¬IsExit stop) :
    endPos aObj stop = bound aObj.length (aObj.stop stop) := if_neg h

theorem stop_of_exit (h : IsExit stop) : aObj.stop stop = -99999 := by
  unfold Container.stop
  rw [h]
  rfl

/-- Python takes as many elements as there are between the positions only when they do not
start before the front and the end is not the number that stands for one left out. -/
theorem nonneg_of_length_eq (hlt : startPos aObj start < endPos aObj stop)
    (h : (bound aObj.length (aObj.stop stop)).toNat - (bound aObj.length (sliceStart start)).toNat =
      (endPos aObj stop - startPos aObj start).toNat) :
    0 ≤ startPos aObj start ∧ ¬IsExit stop := by
  have hbound : bound aObj.length (aObj.stop stop) ≤ aObj.length := bound_le
  have hstart : bound aObj.length (sliceStart start) = startPos aObj start := rfl
  rw [hstart] at h
  by_cases hexit : IsExit stop
  · rw [endPos_of_exit hexit] at h hlt
    have hlow : bound aObj.length (aObj.stop stop) ≤ aObj.length - 99999 := by
      rw [stop_of_exit hexit, bound, pos_of_neg (by omega)]
      omega
    omega
  · rw [endPos_of_not_exit hexit] at h hlt
    exact ⟨by omega, hexit⟩

/-- Where the positions cross or meet, Python takes nothing. -/
theorem length_eq_zero (hexit : IsExit stop → aObj.length ≤ startPos aObj start)
    (hle : endPos aObj stop ≤ startPos aObj start) :
    (bound aObj.length (aObj.stop stop)).toNat -
      (bound aObj.length (sliceStart start)).toNat = 0 := by
  have hbound : bound aObj.length (aObj.stop stop) ≤ aObj.length := bound_le
  have hstart : bound aObj.length (sliceStart start) = startPos aObj start := rfl
  rw [hstart]
  by_cases h : IsExit stop
  · have := hexit h
    omega
  · rw [endPos_of_not_exit h] at hle
    omega

end Positions

/-- The loop over items that are there copies them. -/
theorem sliceLoop_eq (value : ItemList α) {count k : Nat}
    (h : k + count ≤ value.items.length) (oSliced : List α) :
    sliceLoop (.list value) count k oSliced =
      some (oSliced ++ (value.items.take (k + count)).drop k) := by
  have hfits := value.fits
  induction count generalizing k oSliced with
  | zero =>
    rw [Nat.add_zero, drop_take_self, List.append_nil, sliceLoop]
  | succ count ih =>
    have hword : s32 (k : Int) = k := s32_of_fits ⟨by omega, by omega⟩
    have hin : InRange value.items.length (k : Int) := ⟨by omega, by omega⟩
    obtain ⟨item, hitem, hget⟩ := ItemList.getItem_of_inRange hin
    rw [pos_of_nonneg (by omega), Int.toNat_natCast] at hitem
    have hrest := @ih (k + 1) (by omega) (oSliced ++ [item])
    rw [sliceLoop, vmGet_list, hword, hget]
    dsimp only
    rw [drop_take_cons hitem, List.append_cons oSliced item (List.drop _ _), ← hrest]
    rfl

/-- The loop copies as many items as it is told to. -/
theorem length_of_sliceLoop {aObj : Container α} {count : Nat} {i : Int} {oSliced res : List α}
    (h : sliceLoop aObj count i oSliced = some res) : res.length = oSliced.length + count := by
  induction count generalizing i oSliced with
  | zero =>
    rw [sliceLoop, Option.some.injEq] at h
    rw [← h, Nat.add_zero]
  | succ count ih =>
    rw [sliceLoop] at h
    split at h
    · have hlength := ih h
      rw [List.length_append, List.length_singleton] at hlength
      omega
    · cases h

theorem sliceLoop_tuple (value : ItemList α) (count : Nat) (i : Int) (oSliced : List α) :
    sliceLoop (.tuple value) count i oSliced = sliceLoop (.list value) count i oSliced := by
  induction count generalizing i oSliced with
  | zero => rfl
  | succ count ih =>
    rw [sliceLoop, sliceLoop, vmGet_tuple]
    split
    · exact ih _ _
    · rfl

/-- The items that a list or a tuple copies: none where the slice is another value. -/
def sliceItems (value : ItemList α) (iStart iEnd : Int) : Option (List α) :=
  if iStart > iEnd ∨ iEnd - iStart = 1 then none
  else sliceLoop (.list value) (iEnd - iStart).toNat iStart []

/-- An index does not give a list or a tuple. -/
theorem vmGet_list_ne (value : ItemList α) (i : Int) (xs : List α) :
    vmGet (.list value) i ≠ .list xs ∧ vmGet (.list value) i ≠ .tuple xs := by
  rw [vmGet_list]
  by_cases hin : InRange value.items.length (s32 i)
  · obtain ⟨item, -, hget⟩ := ItemList.getItem_of_inRange hin
    rw [hget]
    constructor <;> exact fun h => by cases h
  · rw [ItemList.getItem_of_not_inRange hin]
    constructor <;> exact fun h => by cases h

theorem sliceBetween_list (value : ItemList α) (aStart iStart iEnd : Int) (xs : List α) :
    sliceBetween (.list value) aStart iStart iEnd = .list xs ↔
      sliceItems value iStart iEnd = some xs := by
  unfold sliceBetween sliceItems
  split
  · rename_i hcross
    rw [if_pos (.inl hcross)]
    exact iff_of_false (fun h => by cases h) (fun h => by cases h)
  · rename_i hcross
    dsimp only
    split
    · rename_i hone
      rw [if_pos (.inr hone)]
      exact iff_of_false (vmGet_list_ne value aStart xs).1 (fun h => by cases h)
    · rename_i hone
      rw [if_neg (not_or.mpr ⟨hcross, hone⟩)]
      split
      · rename_i hnone
        rw [hnone]
        exact iff_of_false (fun h => by cases h) (fun h => by cases h)
      · rename_i oSliced hsome
        rw [hsome, Element.list.injEq, Option.some.injEq]

theorem sliceBetween_tuple (value : ItemList α) (aStart iStart iEnd : Int) (xs : List α) :
    sliceBetween (.tuple value) aStart iStart iEnd = .tuple xs ↔
      sliceItems value iStart iEnd = some xs := by
  unfold sliceBetween sliceItems
  split
  · rename_i hcross
    rw [if_pos (.inl hcross)]
    exact iff_of_false (fun h => by cases h) (fun h => by cases h)
  · rename_i hcross
    dsimp only
    split
    · rename_i hone
      rw [if_pos (.inr hone), vmGet_tuple]
      exact iff_of_false (vmGet_list_ne value aStart xs).2 (fun h => by cases h)
    · rename_i hone
      rw [if_neg (not_or.mpr ⟨hcross, hone⟩), sliceLoop_tuple]
      split
      · rename_i hnone
        rw [hnone]
        exact iff_of_false (fun h => by cases h) (fun h => by cases h)
      · rename_i oSliced hsome
        rw [hsome, Element.tuple.injEq, Option.some.injEq]

/-- What a list or a tuple copies has as many items as there are between the positions. -/
theorem length_of_sliceItems {value : ItemList α} {iStart iEnd : Int} {xs : List α}
    (h : sliceItems value iStart iEnd = some xs) :
    xs.length = (iEnd - iStart).toNat ∧ (iStart = iEnd ∨ iStart + 1 < iEnd) := by
  unfold sliceItems at h
  split at h
  · cases h
  · rename_i hshape
    have hlength := length_of_sliceLoop h
    rw [List.length_nil, Nat.zero_add] at hlength
    exact ⟨hlength, by omega⟩

theorem sliceItems_self (value : ItemList α) (i : Int) : sliceItems value i i = some [] := by
  unfold sliceItems
  rw [if_neg (by omega), Int.sub_self]
  rfl

/-- Between two positions in it, a list or a tuple copies the items. -/
theorem sliceItems_eq {value : ItemList α} {iStart iEnd : Int} (hstart : 0 ≤ iStart)
    (hlt : iStart + 1 < iEnd) (hend : iEnd ≤ value.items.length) :
    sliceItems value iStart iEnd = some ((value.items.take iEnd.toNat).drop iStart.toNat) := by
  obtain ⟨k, rfl⟩ := Int.eq_ofNat_of_zero_le hstart
  obtain ⟨m, rfl⟩ := Int.eq_ofNat_of_zero_le (show 0 ≤ iEnd by omega)
  have hcount : k + ((m : Int) - k).toNat = m := by omega
  unfold sliceItems
  rw [if_neg (by omega), sliceLoop_eq value (by omega), hcount, List.nil_append]
  rfl

/-- The slice law of the items of a list or a tuple. -/
theorem sliceItems_iff {aObj : Container α} {value : ItemList α} {start stop : Option Int64}
    (hlength : aObj.length = value.items.length) :
    sliceItems value (startPos aObj start) (endPos aObj stop) =
        some (slice value.items (sliceStart start) (aObj.stop stop)) ↔
      (IsExit stop → aObj.length ≤ startPos aObj start) ∧
        (startPos aObj start = endPos aObj stop ∨
          0 ≤ startPos aObj start ∧ startPos aObj start + 1 < endPos aObj stop) := by
  have hslice := @length_slice α value.items (sliceStart start) (aObj.stop stop)
  rw [← hlength] at hslice
  constructor
  · intro h
    obtain ⟨hcopied, hshape⟩ := length_of_sliceItems h
    rw [hslice] at hcopied
    rcases hshape with heq | hlt
    · refine ⟨fun hexit => ?_, .inl heq⟩
      rw [heq, endPos_of_exit hexit]
    · obtain ⟨hnonneg, hexit⟩ := nonneg_of_length_eq (by omega) hcopied
      exact ⟨fun h => absurd h hexit, .inr ⟨hnonneg, hlt⟩⟩
  · rintro ⟨hexit, heq | ⟨hnonneg, hlt⟩⟩
    · rw [length_eq_zero hexit heq.ge] at hslice
      rw [List.length_eq_zero_iff.mp hslice, heq, sliceItems_self]
    · have hle : endPos aObj stop ≤ aObj.length := endPos_le
      have hnot : ¬IsExit stop := fun h => by
        have := hexit h
        omega
      rw [sliceItems_eq hnonneg hlt (by omega), endPos_of_not_exit hnot, hlength]
      unfold startPos slice
      rw [hlength]

/-- Between two positions bytes are copied where they are. -/
theorem sliceBetween_bytes {value : BytesValue} {aStart iStart iEnd : Int} {xs : Bytes}
    (hend : iEnd ≤ value.data.length) :
    sliceBetween (.bytes value : Container α) aStart iStart iEnd = .bytes xs ↔
      (iStart = iEnd ∨ 0 ≤ iStart ∧ iStart < iEnd) ∧
        xs = (value.data.take iEnd.toNat).drop iStart.toNat := by
  unfold sliceBetween
  by_cases hcross : iStart > iEnd
  · rw [if_pos hcross]
    exact iff_of_false (fun h => by cases h) (by omega)
  rw [if_neg hcross]
  dsimp only
  by_cases hempty : iEnd - iStart = 0
  · obtain rfl : iStart = iEnd := by omega
    rw [if_pos hempty, drop_take_self, Element.bytes.injEq]
    exact ⟨fun h => ⟨.inl rfl, h.symm⟩, fun h => h.2.symm⟩
  rw [if_neg hempty]
  by_cases hout : iStart < 0
  · rw [if_pos (.inl hout)]
    exact iff_of_false (fun h => by cases h) (by omega)
  · have hcount : (iEnd - iStart).toNat = iEnd.toNat - iStart.toNat := by omega
    rw [if_neg (by omega), Element.bytes.injEq, hcount, ← List.drop_take]
    exact ⟨fun h => ⟨.inr ⟨by omega, by omega⟩, h.symm⟩, fun h => h.2.symm⟩

/-- The slice law of bytes. -/
theorem slice_bytes_iff {value : BytesValue} (hsize : value.data.length < 2 ^ 31)
    {start stop : Option Int64} (hstart : InInt start) (hstop : InInt stop) :
    SliceLaw (.bytes value : Container α) start stop ↔
      SliceWhen (.bytes value : Container α) start stop := by
  have hcounted : Counted (.bytes value : Container α) := hsize
  have hlength : (Container.bytes value : Container α).length = value.data.length := rfl
  have hslice := @length_slice _ value.data (sliceStart start)
    ((Container.bytes value : Container α).stop stop)
  have hend : endPos (.bytes value : Container α) stop ≤ value.data.length := endPos_le
  unfold SliceLaw SliceWhen
  rw [vmSlice_eq hcounted hstart hstop, Container.getSlice, sliceBetween_bytes hend]
  dsimp only
  constructor
  · rintro ⟨hshape, hxs⟩
    refine ⟨fun hexit => ?_, hshape⟩
    rcases hshape with heq | ⟨hnonneg, hlt⟩
    · rw [heq, endPos_of_exit hexit]
    · have hcopied := congrArg List.length hxs
      rw [hslice, List.length_drop, List.length_take] at hcopied
      obtain ⟨-, hnot⟩ := nonneg_of_length_eq hlt (by rw [hlength, hcopied]; omega)
      exact absurd hexit hnot
  · rintro ⟨hexit, hshape⟩
    refine ⟨hshape, ?_⟩
    rcases hshape with heq | ⟨hnonneg, hlt⟩
    · rw [← hlength, length_eq_zero hexit heq.ge] at hslice
      rw [List.length_eq_zero_iff.mp hslice, heq, drop_take_self]
    · have hnot : ¬IsExit stop := fun h => by
        have := hexit h
        omega
      rw [endPos_of_not_exit hnot]
      rfl

section Text
variable {value : TextValue} {start stop : Option Int64} {iEnd : Int}

/-- The element a slice of one takes in a string is at the position it starts at. -/
theorem vmGet_sliceStart (hsize : value.text.length < 2 ^ 31) (hstart : InInt start)
    (hlt : startPos (.str value : Container α) start < value.chars.length) :
    vmGet (.str value : Container α) (sliceStart start) =
      stringGetitem value (startPos (.str value : Container α) start) := by
  have hword : s32 (sliceStart start) = sliceStart start := s32_of_fits (fits_sliceStart hstart)
  have hpos : startPos (.str value : Container α) start =
      pos value.chars.length (sliceStart start) := by
    have hlength : (Container.str value : Container α).length = value.chars.length := rfl
    unfold startPos bound at hlt ⊢
    rw [hlength] at hlt ⊢
    omega
  rw [vmGet_str hsize, hword]
  rw [hpos] at hlt ⊢
  by_cases hneg : sliceStart start < 0
  · rw [if_pos hneg, if_neg (by omega)]
  · rw [pos_of_nonneg (by omega)] at hlt ⊢
    rw [if_neg (by omega), if_neg hneg]

/-- A slice of a string that is a string has as many characters as there are between the
positions, the last of which starts before the size that bounds the walk. -/
theorem sliceBetween_str (hsize : value.text.length < 2 ^ 31) (hstart : InInt start)
    {xs : CString} (hlt : startPos (.str value : Container α) start < iEnd)
    (hend : iEnd ≤ value.chars.length)
    (h : sliceBetween (.str value : Container α) (sliceStart start)
      (startPos (.str value : Container α) start) iEnd = .str xs) :
    ∃ cs : List Char, cs.length = (iEnd - startPos (.str value : Container α) start).toNat ∧
      xs = encodeText cs ∧
      (0 ≤ startPos (.str value : Container α) start → value.Reach (iEnd - 1).toNat) := by
  have hget := @vmGet_sliceStart α value start hsize hstart (by omega)
  have hle := value.length_chars_le
  revert h hlt hget
  generalize startPos (.str value : Container α) start = iStart
  intro hlt h hget
  unfold sliceBetween at h
  rw [if_neg (by omega)] at h
  dsimp only at h
  by_cases hone : iEnd - iStart = 1
  · rw [if_pos hone, hget] at h
    obtain hfound | hfound | ⟨c, hfound⟩ := @stringGetitem_cases α value iStart
    · rw [hfound] at h
      cases h
    · rw [hfound] at h
      cases h
    · refine ⟨[c], by rw [hone]; rfl, ?_, fun hnonneg => ?_⟩
      · rw [hfound, Element.str.injEq] at h
        rw [← h, encodeText, List.flatMap_singleton]
      · by_contra hnot
        have hkey : s32 iStart = ((iEnd - 1).toNat : Nat) := by
          rw [s32_of_fits ⟨by omega, by omega⟩]
          omega
        rw [stringGetitem_of_not_reach hkey hnot] at hfound
        cases hfound
  · rw [if_neg hone, stringSlice] at h
    split at h
    · cases h
    · cases h
    · rename_i sSliced hloop
      rw [Element.str.injEq] at h
      obtain ⟨cs, hcount, hsliced⟩ := value.stringSliceLoop_eq_some hloop
      refine ⟨cs, hcount, by rw [← h, hsliced, List.nil_append], fun hnonneg => ?_⟩
      obtain ⟨k, rfl⟩ := Int.eq_ofNat_of_zero_le hnonneg
      exact value.reach_of_stringSliceLoop hloop (by omega) (by omega)

/-- Between two positions in it, the last character of which starts before the size that bounds
the walk, a string has the characters. -/
theorem sliceBetween_str_of_reach (hsize : value.text.length < 2 ^ 31) (hstart : InInt start)
    (hnonneg : 0 ≤ startPos (.str value : Container α) start)
    (hlt : startPos (.str value : Container α) start < iEnd)
    (hend : iEnd ≤ value.chars.length) (hreach : value.Reach (iEnd - 1).toNat) :
    sliceBetween (.str value : Container α) (sliceStart start)
      (startPos (.str value : Container α) start) iEnd =
      .str (encodeText ((value.chars.take iEnd.toNat).drop
        (startPos (.str value : Container α) start).toNat)) := by
  have hget := @vmGet_sliceStart α value start hsize hstart (by omega)
  have hle := value.length_chars_le
  revert hlt hget hnonneg
  generalize startPos (.str value : Container α) start = iStart
  intro hnonneg hlt hget
  obtain ⟨k, rfl⟩ := Int.eq_ofNat_of_zero_le hnonneg
  unfold sliceBetween
  rw [if_neg (by omega)]
  dsimp only
  by_cases hone : iEnd - k = 1
  · have hkey : s32 (k : Int) = k := s32_of_fits ⟨by omega, by omega⟩
    obtain ⟨c, hc, hfound⟩ := @stringGetitem_of_reach α value k k hkey
      (hreach.mono (by omega))
    have hcount : iEnd.toNat = k + (0 + 1) := by omega
    rw [if_pos hone, hget, hfound, hcount, Int.toNat_natCast, drop_take_cons hc, Nat.add_zero,
      drop_take_self, encodeText, List.flatMap_singleton]
  · have hcount : k + (iEnd - k).toNat = iEnd.toNat := by omega
    rw [if_neg hone, stringSlice, value.stringSliceLoop_of_reach fun j _ hj =>
      hreach.mono (by omega), hcount, List.nil_append, Int.toNat_natCast]

/-- Positions of a string that cross or meet give an empty string. -/
theorem sliceBetween_str_of_le {aStart iStart : Int} (hle : iEnd ≤ iStart) :
    sliceBetween (.str value : Container α) aStart iStart iEnd = .str [] := by
  unfold sliceBetween
  by_cases hcross : iStart > iEnd
  · rw [if_pos hcross]
  · have hcount : (iEnd - iStart).toNat = 0 := by omega
    rw [if_neg hcross]
    dsimp only
    rw [if_neg (by omega), stringSlice, hcount, stringSliceLoop]

/-- The slice law of a string. -/
theorem slice_str_iff (hsize : value.text.length < 2 ^ 31) (hstart : InInt start)
    (hstop : InInt stop) : SliceLaw (.str value : Container α) start stop ↔
      SliceWhen (.str value : Container α) start stop := by
  have hcounted : Counted (.str value : Container α) := hsize
  have hlength : (Container.str value : Container α).length = value.chars.length := rfl
  have hslice := @length_slice _ value.chars (sliceStart start)
    ((Container.str value : Container α).stop stop)
  have hend : endPos (.str value : Container α) stop ≤ value.chars.length := endPos_le
  unfold SliceLaw SliceWhen
  rw [vmSlice_eq hcounted hstart hstop, Container.getSlice]
  dsimp only
  constructor
  · intro h
    rcases lt_or_ge (startPos (.str value : Container α) start)
      (endPos (.str value : Container α) stop) with hlt | hge
    · obtain ⟨cs, hcount, hcs, hreach⟩ := sliceBetween_str hsize hstart hlt hend h
      rw [← length_eq_of_encodeText_eq hcs, hslice] at hcount
      obtain ⟨hnonneg, hexit⟩ := nonneg_of_length_eq hlt hcount
      exact ⟨fun h => absurd h hexit, .inr ⟨hnonneg, hreach hnonneg⟩⟩
    · exact ⟨fun hexit => by rwa [← endPos_of_exit hexit], .inl hge⟩
  · rintro ⟨hexit, hshape⟩
    rcases lt_or_ge (startPos (.str value : Container α) start)
      (endPos (.str value : Container α) stop) with hlt | hge
    · obtain ⟨hnonneg, hreach⟩ := hshape.resolve_left (by omega)
      have hnot : ¬IsExit stop := fun h => by
        have := hexit h
        omega
      rw [sliceBetween_str_of_reach hsize hstart hnonneg hlt hend hreach,
        endPos_of_not_exit hnot]
      rfl
    · rw [← hlength, length_eq_zero hexit hge] at hslice
      rw [sliceBetween_str_of_le hge, List.length_eq_zero_iff.mp hslice, encodeText,
        List.flatMap_nil]

end Text

/-- **A slice is Python's exactly where its positions are.** -/
theorem sliceLaw_iff {aObj : Container α} (h : Counted aObj) {start stop : Option Int64}
    (hstart : InInt start) (hstop : InInt stop) :
    SliceLaw aObj start stop ↔ SliceWhen aObj start stop := by
  cases aObj with
  | str value => exact slice_str_iff h hstart hstop
  | bytes value => exact slice_bytes_iff h hstart hstop
  | list value =>
    unfold SliceLaw
    rw [vmSlice_eq h hstart hstop, Container.getSlice, sliceBetween_list]
    exact sliceItems_iff rfl
  | tuple value =>
    unfold SliceLaw
    rw [vmSlice_eq h hstart hstop, Container.getSlice, sliceBetween_tuple]
    exact sliceItems_iff rfl

/-- **An index has Python's element or an `IndexError` exactly where `IndexWhen` says, and a
slice is Python's exactly where `SliceWhen` says.** -/
theorem container_iff (aObj : Container α) (h : Counted aObj) :
    (∀ i : Int64, IndexLaw aObj i.toInt ↔ IndexWhen aObj i.toInt) ∧
      ∀ start stop, InInt start → InInt stop →
        (SliceLaw aObj start stop ↔ SliceWhen aObj start stop) :=
  ⟨fun i => indexLaw_iff h i.toInt, fun _ _ hstart hstop => sliceLaw_iff h hstart hstop⟩

theorem InInt.of_fits {i : Int64} (h : FitsS32 i.toInt) : InInt (some i) := by
  intro j hj
  obtain rfl := Option.some.inj hj
  exact h

theorem inInt_none : InInt none := fun _ h => by cases h

/-- `b"abc"[-1]` and `b"abc"[1:]`. -/
theorem container_abc :
    IndexLaw (.bytes ⟨[0x61, 0x62, 0x63], by decide⟩ : Container Unit) (-1) ∧
      SliceLaw (.bytes ⟨[0x61, 0x62, 0x63], by decide⟩ : Container Unit) (some 1) none := by
  have hcounted : Counted (.bytes ⟨[0x61, 0x62, 0x63], by decide⟩ : Container Unit) :=
    show 3 < 2 ^ 31 by decide
  obtain ⟨hindex, hslice⟩ := container_iff _ hcounted
  have hstart : InInt (some 1) := .of_fits (by decide)
  exact ⟨(hindex (-1)).mpr (.inl ⟨by decide, by decide⟩), (hslice (some 1) none hstart
    inInt_none).mpr ⟨fun h => absurd h (by decide), .inr ⟨by decide, by decide⟩⟩⟩

/-- `b"abc"[-5]` is read outside the bytes, and `[10, 20][0:1]` is an item. -/
theorem not_container :
    ¬IndexLaw (.bytes ⟨[0x61, 0x62, 0x63], by decide⟩ : Container Unit) (-5) ∧
      ¬SliceLaw (.list ⟨[10, 20], by decide⟩ : Container Nat) (some 0) (some 1) := by
  have hbytes : Counted (.bytes ⟨[0x61, 0x62, 0x63], by decide⟩ : Container Unit) :=
    show 3 < 2 ^ 31 by decide
  have hlist : Counted (.list ⟨[10, 20], by decide⟩ : Container Nat) := trivial
  have hstart : InInt (some 0) := .of_fits (by decide)
  have hstop : InInt (some 1) := .of_fits (by decide)
  refine ⟨fun h => ?_, fun h => ?_⟩
  · rcases (indexLaw_iff hbytes (-5)).mp h with h | h
    · exact absurd h.1 (by decide)
    · exact absurd h (by decide)
  · obtain ⟨-, h | ⟨-, h⟩⟩ := (sliceLaw_iff hlist hstart hstop).mp h
    · exact absurd h (by decide)
    · exact absurd h (by decide)

end PikaScript
