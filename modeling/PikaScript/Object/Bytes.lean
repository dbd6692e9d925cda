import PikaScript.Lib.Occurrence
import PikaScript.Lib.Word
import PikaScript.VM.Operator

/-! Containment and splitting of byte strings.

Both walk over the bytes with their own indices. A read outside a payload is not followed. -/
namespace PikaScript
open Occurrence

/-! ### `_bytes_contains` -/

/-- The indices of `_bytes_contains`: `i` into the needle, `j` into the hay. -/
structure BytesScan where
  i : Nat
  j : Nat
  startJ : Nat
  aligned : j = startJ + i

namespace BytesScan

/-- `i++, j++`. -/
def advance (scan : BytesScan) : BytesScan :=
  ⟨scan.i + 1, scan.j + 1, scan.startJ, by rw [scan.aligned, Nat.add_assoc]⟩

/-- `j = ++start_j, i = 0`. -/
def restart (scan : BytesScan) : BytesScan := ⟨0, scan.startJ + 1, scan.startJ + 1, rfl⟩

end BytesScan

/-- The loop of `_bytes_contains`; none when it reads outside the needle. -/
def bytesContainsLoop (bytes1 bytes2 : Bytes) (scan : BytesScan) : Option Bool :=
  if h : scan.j < bytes2.length then
    match bytes1[scan.i]? with
    | none => none
    | some byte =>
      if byte = bytes2[scan.j] then
        if scan.i + 1 = bytes1.length then some true
        else bytesContainsLoop bytes1 bytes2 scan.advance
      else bytesContainsLoop bytes1 bytes2 scan.restart
  else some false
termination_by (bytes2.length - scan.startJ, bytes2.length - scan.j)
decreasing_by
  · have hlt : bytes2.length - scan.advance.j < bytes2.length - scan.j := by
      simp only [BytesScan.advance]
      omega
    exact Prod.Lex.right _ hlt
  · have hstart := scan.aligned
    have hlt : bytes2.length - scan.restart.startJ < bytes2.length - scan.startJ := by
      simp only [BytesScan.restart]
      omega
    exact Prod.Lex.left _ _ hlt

/-- `_bytes_contains`, on two byte strings. -/
def bytesContains (bytes1 bytes2 : BytesValue) : Option Bool :=
  if bytes1.data.length > bytes2.data.length then some false
  else bytesContainsLoop bytes1.data bytes2.data ⟨0, 0, 0, rfl⟩

/-- The scan tells whether the needle occurs in the hay, and reads nothing outside them. -/
def ContainsLaw (needle hay : BytesValue) : Prop :=
  bytesContains needle hay = some (decide (needle.data <:+: hay.data))

/-- From a start at which the bytes before `i` agree, the loop looks for the needle in what is
there. -/
theorem bytesContainsLoop_eq {needle hay : Bytes} {scan : BytesScan}
    (hi : scan.i < needle.length)
    (hagree : ∀ k < scan.i, needle[k]? = hay[scan.startJ + k]?) :
    bytesContainsLoop needle hay scan = some (decide (needle <:+: hay.drop scan.startJ)) := by
  induction scan using bytesContainsLoop.induct needle hay with
  | case1 scan h hnone =>
    rw [List.getElem?_eq_none_iff] at hnone
    omega
  | case2 scan h hend hbyte =>
    rw [bytesContainsLoop]
    simp only [h, hbyte, hend, ↓reduceDIte, ↓reduceIte]
    have hat : At needle hay scan.startJ := at_iff_getElem?.mpr fun k hk => by
      rcases Nat.lt_or_ge k scan.i with hlt | hge
      · exact hagree k hlt
      · obtain rfl : k = scan.i := by omega
        rw [hbyte, ← scan.aligned, List.getElem?_eq_getElem h]
    rw [decide_eq_true hat.isInfix]
  | case3 scan h hend hbyte ih =>
    rw [bytesContainsLoop]
    simp only [h, hbyte, hend, ↓reduceDIte, ↓reduceIte]
    refine ih ?_ fun k hk => ?_
    · simp only [BytesScan.advance]
      omega
    · rcases Nat.lt_or_ge k scan.i with hlt | hge
      · exact hagree k hlt
      · obtain rfl : k = scan.i := by
          simp only [BytesScan.advance] at hk
          omega
        simp only [BytesScan.advance]
        rw [hbyte, ← scan.aligned, List.getElem?_eq_getElem h]
  | case4 scan h byte hbyte hne ih =>
    rw [bytesContainsLoop]
    simp only [h, hbyte, hne, ↓reduceDIte, ↓reduceIte]
    have hnot : ¬At needle hay scan.startJ := by
      intro hat
      have hread := at_iff_getElem?.mp hat scan.i hi
      rw [hbyte, ← scan.aligned, List.getElem?_eq_getElem h, Option.some.injEq] at hread
      exact hne hread
    rw [ih (Nat.zero_lt_of_lt hi) fun k hk => absurd hk (Nat.not_lt_zero k), Option.some.injEq,
      decide_eq_decide]
    exact (occurs_drop_iff hnot).symm
  | case5 scan h =>
    rw [bytesContainsLoop, dif_neg h, Option.some.injEq, eq_comm, decide_eq_false_iff_not]
    intro hoccurs
    have hle := hoccurs.length_le
    have hstart := scan.aligned
    rw [List.length_drop] at hle
    omega

/-- An empty needle is taken for absent from an empty hay, and read in any other. -/
theorem bytesContains_nil {needle hay : BytesValue} (hneedle : needle.data = []) :
    bytesContains needle hay ≠ some true := by
  have hshort : ¬([] : Bytes).length > hay.data.length := Nat.not_lt_zero _
  unfold bytesContains
  rw [hneedle, if_neg hshort, bytesContainsLoop]
  split
  · simp
  · simp

/-- Where the scan tells whether the needle occurs, the needle is not empty. -/
theorem ContainsLaw.ne_nil {needle hay : BytesValue} (h : ContainsLaw needle hay) :
    needle.data ≠ [] := by
  intro hneedle
  refine @bytesContains_nil needle hay hneedle ?_
  rw [h, hneedle, decide_eq_true (List.nil_prefix.isInfix)]

/-- **The scan tells whether the needle occurs exactly when the needle is not empty.** -/
theorem contains_iff (needle hay : BytesValue) : ContainsLaw needle hay ↔ needle.data ≠ [] := by
  refine ⟨ContainsLaw.ne_nil, fun h => ?_⟩
  unfold ContainsLaw bytesContains
  split
  · rename_i hlong
    have hnot : ¬needle.data <:+: hay.data := fun hoccurs => by
      have := hoccurs.length_le
      omega
    rw [decide_eq_false hnot]
  · exact bytesContainsLoop_eq (List.length_pos_iff.mpr h)
      fun k hk => absurd hk (Nat.not_lt_zero k)

/-- An empty needle is not found in an empty hay. -/
theorem not_contains : ¬ContainsLaw ⟨[], by decide⟩ ⟨[], by decide⟩ :=
  fun h => h.ne_nil rfl

/-! ### `builtins_bytearray_split` -/

/-- The arguments of `split`. -/
inductive SplitVars where
  | zero
  | one (sep : Value)
  | two (sep : Value) (maxsplit : Int64)

/-- The separator, a blank when none is given. -/
def SplitVars.sep : SplitVars → Value
  | zero => .bytes ⟨[0x20], by decide⟩
  | one sep => sep
  | two sep _ => sep

/-- `max_splite`, an `int`. -/
def SplitVars.maxSplite : SplitVars → Int
  | two _ maxsplit => s32 maxsplit.toInt
  | _ => -1

/-- What a split leaves: a list, an error with its text, or a read outside the data. -/
inductive SplitOutcome where
  | list (items : List Bytes)
  | error (text : String)
  | outside
deriving DecidableEq

/-- `memcmp` of the separator with the data at `i`; none when it reads outside the data. -/
def memcmpAt (data : Bytes) (i : Nat) (sep : Bytes) : Option Bool :=
  if i + sep.length ≤ data.length then some (decide (At sep data i)) else none

/-- The loop of `builtins_bytearray_split`, with the items and the start it leaves; none when
it reads outside the data, or does not end in so many rounds. -/
def splitLoop (data sep : Bytes) (maxSplite : Int) :
    Nat → Nat → Nat → Int → List Bytes → Option (List Bytes × Nat)
  | 0, _, _, _, _ => none
  | rounds + 1, i, start, splits, list =>
    if i < data.length then
      if i ≤ sub64 data.length sep.length then
        match memcmpAt data i sep with
        | none => none
        | some false => splitLoop data sep maxSplite rounds (i + 1) start splits list
        | some true =>
          let item := (data.drop start).take (i - start)
          if maxSplite ≠ -1 ∧ s32 (splits + 1) ≥ maxSplite then
            some (list ++ [item], i + sep.length)
          else
            splitLoop data sep maxSplite rounds (i + sep.length) (i + sep.length)
              (s32 (splits + 1)) (list ++ [item])
      else splitLoop data sep maxSplite rounds (i + 1) start splits list
    else some (list, start)

/-- `builtins_bytearray_split`. -/
def bytearraySplit (data : BytesValue) (vars : SplitVars) : SplitOutcome :=
  match vars.sep with
  | .bytes sep =>
    if data.data.length = 0 then .list [[]]
    else if sep.data.length = 0 then .error "ValueError: empty separator"
    else
      match splitLoop data.data sep.data vars.maxSplite (data.data.length + 1) 0 0 0 [] with
      | none => .outside
      | some (list, start) =>
        let list := if start < data.data.length then list ++ [data.data.drop start] else list
        if start = data.data.length then .list (list ++ [[]]) else .list list
  | _ => .error "TypeError: bytes is required"

/-- A separator that is not empty. -/
structure Separator extends BytesValue where
  nonempty : data ≠ []

/-- The arguments of a separator with or without a limit. -/
def splitVars (sep : Separator) : Option Int64 → SplitVars
  | none => .one (.bytes sep.toBytesValue)
  | some maxsplit => .two (.bytes sep.toBytesValue) maxsplit

/-- The items are a split of the data. -/
structure Split (data sep : Bytes) (maxsplit : Option Int64) (items : List Bytes) : Prop where
  joined : sep.intercalate items = data
  count : ∀ limit, maxsplit = some limit → 0 ≤ limit.toInt →
    (items.length : Int) ≤ limit.toInt + 1
  clean : ∀ item ∈ items.dropLast, ¬sep <:+: item
  leftmost : Pieces sep data items

/-- The list returned is a split of the data, and nothing outside them is read. -/
def SplitLaw (data : BytesValue) (sep : Separator) (maxsplit : Option Int64) : Prop :=
  ∃ items, bytearraySplit data (splitVars sep maxsplit) = .list items ∧
    Split data.data sep.data maxsplit items

/-- The data are empty, or as long as the separator, which is not in them when the limit is
zero. -/
def SplitWhen (data : BytesValue) (sep : Separator) (maxsplit : Option Int64) : Prop :=
  data.data = [] ∨ sep.data.length ≤ data.data.length ∧
    (maxsplit = some 0 → ¬sep.data <:+: data.data)

theorem memcmpAt_of_at {data sep : Bytes} {i : Nat} (hfits : i + sep.length ≤ data.length) :
    memcmpAt data i sep = some (decide (At sep data i)) :=
  if_pos hfits

theorem memcmpAt_eq_none {data sep : Bytes} {i : Nat} (h : data.length < i + sep.length) :
    memcmpAt data i sep = none :=
  if_neg (Nat.not_le.mpr h)

/-- What the loop leaves of the data from `start` on: the pieces, with the rest behind the last
cut as the last one; no more pieces than the limit lets it cut; and where it has no limit or
has cut nothing, no separator in the rest. -/
structure SplitRest (data sep : Bytes) (maxSplite : Int) (start : Nat) (splits : Int)
    (items : List Bytes) (last : Nat) : Prop where
  le : last ≤ data.length
  pieces : Pieces sep (data.drop start) (items ++ [data.drop last])
  count : maxSplite ≠ -1 → splits + items.length ≤ max maxSplite (splits + 1)
  rest : maxSplite = -1 ∨ items = [] → ∀ k, last ≤ k → k < data.length → ¬At sep data k

/-- One round at an index without the separator. -/
theorem splitLoop_skip {data sep : Bytes} {maxSplite : Int} {i start : Nat} {splits : Int}
    {list : List Bytes} (hle : sep.length ≤ data.length) (hsize : data.length < 2 ^ 64)
    (hi : i < data.length) (hnot : ¬At sep data i) (rounds : Nat) :
    splitLoop data sep maxSplite (rounds + 1) i start splits list =
      splitLoop data sep maxSplite rounds (i + 1) start splits list := by
  rw [splitLoop, if_pos hi, sub64_of_le hsize hle]
  by_cases hwindow : i ≤ data.length - sep.length
  · rw [if_pos hwindow, memcmpAt_of_at (by omega), decide_eq_false hnot]
  · rw [if_neg hwindow]

/-- One round at an index with the separator. -/
theorem splitLoop_cut {data sep : Bytes} {maxSplite : Int} {i start : Nat} {splits : Int}
    {list : List Bytes} (hsize : data.length < 2 ^ 64)
    (hi : i < data.length) (hat : At sep data i) (rounds : Nat) :
    splitLoop data sep maxSplite (rounds + 1) i start splits list =
      if maxSplite ≠ -1 ∧ s32 (splits + 1) ≥ maxSplite then
        some (list ++ [(data.drop start).take (i - start)], i + sep.length)
      else
        splitLoop data sep maxSplite rounds (i + sep.length) (i + sep.length)
          (s32 (splits + 1)) (list ++ [(data.drop start).take (i - start)]) := by
  have hwindow := hat.add_length_le hi.le
  rw [splitLoop, if_pos hi, sub64_of_le hsize (by omega), if_pos (by omega),
    memcmpAt_of_at hwindow, decide_eq_true hat]

/-- From a start with no separator up to `i`, the loop leaves the pieces of what is there: a
round without the separator keeps this, and one with it takes a piece off. -/
theorem splitLoop_eq {data sep : Bytes} {maxSplite : Int} (hsep : sep ≠ [])
    (hle : sep.length ≤ data.length) (hsize : data.length < 2 ^ 64) (hmax : maxSplite < 2 ^ 31)
    {rounds i start : Nat} {splits : Int} {list : List Bytes} (hrounds : data.length - i < rounds)
    (hstart : start ≤ i) (hi : i ≤ data.length)
    (hsplits : maxSplite ≠ -1 → 0 ≤ splits ∧ splits < 2 ^ 31 - 1)
    (hnone : ∀ k, start ≤ k → k < i → ¬At sep data k) :
    ∃ items last, splitLoop data sep maxSplite rounds i start splits list =
      some (list ++ items, last) ∧ SplitRest data sep maxSplite start splits items last := by
  have hpos : 0 < sep.length := List.length_pos_iff.mpr hsep
  induction rounds generalizing i start splits list with
  | zero => exact absurd hrounds (Nat.not_lt_zero _)
  | succ rounds ih =>
    rcases Nat.lt_or_ge i data.length with hlt | hge
    · by_cases hat : At sep data i
      · have hwindow := hat.add_length_le hi
        rw [splitLoop_cut hsize hlt hat]
        split
        · rename_i hlimit
          refine ⟨[(data.drop start).take (i - start)], i + sep.length, rfl, hwindow, ?_, ?_, ?_⟩
          · exact Pieces.cut_at hstart hi hat hnone (.last _)
          · intro _
            exact le_max_right _ _
          · rintro (h | h)
            · exact absurd h hlimit.1
            · cases h
        · rename_i hlimit
          have hcount : maxSplite ≠ -1 → s32 (splits + 1) = splits + 1 ∧
              splits + 1 < maxSplite := by
            intro hne
            obtain ⟨h₁, h₂⟩ := hsplits hne
            have hword : s32 (splits + 1) = splits + 1 := s32_of_fits ⟨by omega, by omega⟩
            refine ⟨hword, ?_⟩
            rw [not_and, hword, not_le] at hlimit
            exact hlimit hne
          have hnext : maxSplite ≠ -1 →
              0 ≤ s32 (splits + 1) ∧ s32 (splits + 1) < 2 ^ 31 - 1 := by
            intro hne
            obtain ⟨h₁, h₂⟩ := hsplits hne
            obtain ⟨h₃, h₄⟩ := hcount hne
            rw [h₃]
            exact ⟨by omega, by omega⟩
          obtain ⟨items, last, hloop, hrest⟩ := @ih (i + sep.length) (i + sep.length)
            (s32 (splits + 1)) (list ++ [(data.drop start).take (i - start)]) (by omega) le_rfl
            hwindow hnext fun k h₁ h₂ => absurd h₁ (by omega)
          refine ⟨(data.drop start).take (i - start) :: items, last, ?_, hrest.le, ?_, ?_, ?_⟩
          · rw [hloop, List.append_assoc, List.singleton_append]
          · exact Pieces.cut_at hstart hi hat hnone hrest.pieces
          · intro hne
            obtain ⟨h₁, h₂⟩ := hcount hne
            have hbound := hrest.count hne
            rw [h₁] at hbound
            rw [List.length_cons]
            push_cast
            omega
          · rintro (h | h)
            · exact hrest.rest (.inl h)
            · cases h
      · rw [splitLoop_skip hle hsize hlt hat]
        refine ih (by omega) (by omega) hlt hsplits fun k h₁ h₂ => ?_
        rcases Nat.lt_or_ge k i with hki | hki
        · exact hnone k h₁ hki
        · obtain rfl : k = i := by omega
          exact hat
    · obtain rfl : i = data.length := by omega
      refine ⟨[], start, ?_, hstart, .last _, ?_, fun _ => hnone⟩
      · rw [splitLoop, if_neg (lt_irrefl _), List.append_nil]
      · intro _
        rw [List.length_nil]
        omega

/-- On data as long as the separator the list has the pieces the loop leaves. -/
theorem bytearraySplit_eq {data : BytesValue} {sep : Separator} {maxsplit : Option Int64}
    (hdata : data.data ≠ []) (hle : sep.data.length ≤ data.data.length) :
    ∃ items last, bytearraySplit data (splitVars sep maxsplit) =
        .list (items ++ [data.data.drop last]) ∧
      SplitRest data.data sep.data (splitVars sep maxsplit).maxSplite 0 0 items last := by
  have hfits := data.fits
  have hmax : (splitVars sep maxsplit).maxSplite < 2 ^ 31 := by
    cases maxsplit with
    | none => exact (by decide : (-1 : Int) < 2 ^ 31)
    | some limit => exact (fitsS32_s32 limit.toInt).2
  obtain ⟨items, last, hloop, hrest⟩ :=
    @splitLoop_eq data.data sep.data (splitVars sep maxsplit).maxSplite sep.nonempty hle
      (by omega) hmax (data.data.length + 1) 0 0 0 [] (by omega) le_rfl (Nat.zero_le _)
      (fun _ => ⟨le_rfl, by omega⟩) (fun k _ h => absurd h (Nat.not_lt_zero k))
  have hvars : (splitVars sep maxsplit).sep = .bytes sep.toBytesValue := by
    cases maxsplit with
    | none | some => rfl
  refine ⟨items, last, ?_, hrest⟩
  unfold bytearraySplit
  rw [hvars]
  dsimp only
  rw [if_neg (by simpa using hdata), if_neg (by simpa using sep.nonempty), hloop]
  dsimp only
  rcases lt_or_eq_of_le hrest.le with hlt | heq
  · rw [if_pos hlt, if_neg hlt.ne, List.nil_append]
  · rw [if_neg heq.not_lt, if_pos heq, heq, List.drop_length, List.nil_append]

/-- A separator longer than the data is compared outside them. -/
theorem bytearraySplit_of_short {data : BytesValue} {sep : Separator} {maxsplit : Option Int64}
    (hdata : data.data ≠ []) (hlong : data.data.length < sep.data.length) :
    bytearraySplit data (splitVars sep maxsplit) = .outside := by
  have hvars : (splitVars sep maxsplit).sep = .bytes sep.toBytesValue := by
    cases maxsplit with
    | none | some => rfl
  have hpos : 0 < data.data.length := List.length_pos_iff.mpr hdata
  have hfits := sep.fits
  unfold bytearraySplit
  rw [hvars]
  dsimp only
  rw [if_neg (by simpa using hdata), if_neg (by simpa using sep.nonempty), splitLoop, if_pos hpos,
    sub64_of_lt (by omega) hlong, if_pos (by omega), memcmpAt_eq_none (by omega)]

/-- A limit that is kept as an `int` still bounds the cuts. -/
theorem SplitRest.length_le {data : BytesValue} {sep : Separator} {maxsplit : Option Int64}
    {items : List Bytes} {last : Nat} {limit : Int64} (hsome : maxsplit = some limit)
    (hlimit : 0 < limit.toInt)
    (h : SplitRest data.data sep.data (splitVars sep maxsplit).maxSplite 0 0 items last)
    (hcuts : items.length ≤ data.data.length) : (items.length : Int) ≤ limit.toInt := by
  subst hsome
  have hfits := data.fits
  change SplitRest _ _ (s32 limit.toInt) 0 0 items last at h
  by_cases hmax : s32 limit.toInt = -1
  · have hround := s32_emod limit.toInt
    rw [hmax] at hround
    omega
  · have hcount := h.count hmax
    by_cases hword : limit.toInt < 2 ^ 31
    · rw [s32_of_fits ⟨by omega, hword⟩] at hcount
      omega
    · have hbound := (fitsS32_s32 limit.toInt).2
      omega

/-- What the loop leaves is a split, unless the limit is zero and the separator is in the
data. -/
theorem SplitRest.split {data : BytesValue} {sep : Separator} {maxsplit : Option Int64}
    {items : List Bytes} {last : Nat}
    (h : SplitRest data.data sep.data (splitVars sep maxsplit).maxSplite 0 0 items last)
    (hzero : maxsplit = some 0 → ¬sep.data <:+: data.data) :
    Split data.data sep.data maxsplit (items ++ [data.data.drop last]) := by
  have hpieces : Pieces sep.data data.data (items ++ [data.data.drop last]) := h.pieces
  refine ⟨hpieces.intercalate_eq, fun limit hsome hlimit => ?_, hpieces.not_occurs sep.nonempty,
    hpieces⟩
  have hcuts := hpieces.length_le sep.nonempty
  rw [List.length_append, List.length_singleton] at hcuts ⊢
  rcases eq_or_lt_of_le hlimit with hlimit | hlimit
  · have hlimit' : limit = 0 := Int64.toInt_inj.mp hlimit.symm
    have hnil : items = [] := by
      by_contra hne
      obtain ⟨item, rest, rfl⟩ := List.exists_cons_of_ne_nil hne
      exact hzero (hlimit' ▸ hsome) (hpieces.occurs (by simp))
    rw [hnil, ← hlimit]
    rfl
  · have hle := h.length_le hsome hlimit (by omega)
    push_cast
    omega

/-- With a limit of zero, data that contain the separator are cut once. -/
theorem not_split_zero {data : BytesValue} {sep : Separator} {items : List Bytes} {last : Nat}
    (hdata : data.data ≠ []) (hoccurs : sep.data <:+: data.data)
    (h : SplitRest data.data sep.data (splitVars sep (some 0)).maxSplite 0 0 items last) :
    ¬Split data.data sep.data (some 0) (items ++ [data.data.drop last]) := by
  intro hsplit
  have hcount := hsplit.count 0 rfl le_rfl
  rw [List.length_append, List.length_singleton] at hcount
  have hnil : items = [] := by
    apply List.length_eq_zero_iff.mp
    have hzero : (0 : Int64).toInt = 0 := rfl
    rw [hzero] at hcount
    push_cast at hcount
    omega
  have hwhole : data.data.drop last = data.data := by
    have hpieces := h.pieces
    rw [hnil] at hpieces
    exact hpieces.eq_of_singleton
  have hlast : last = 0 := by
    have hlength := congrArg List.length hwhole
    have hpos : 0 < data.data.length := List.length_pos_iff.mpr hdata
    rw [List.length_drop] at hlength
    omega
  obtain ⟨k, hk⟩ := occurs_iff_exists_at.mp hoccurs
  have hpos : 0 < sep.data.length := List.length_pos_iff.mpr sep.nonempty
  have hlt : k < data.data.length := by
    have hle := hk.length_le
    rw [List.length_drop] at hle
    omega
  exact h.rest (.inr hnil) k (by omega) hlt hk

/-- Where the list is a split, the data are empty or as long as the separator, which is not in
them when the limit is zero. -/
theorem SplitLaw.splitWhen {data : BytesValue} {sep : Separator} {maxsplit : Option Int64}
    (h : SplitLaw data sep maxsplit) : SplitWhen data sep maxsplit := by
  obtain ⟨items, hlist, hsplit⟩ := h
  by_cases hdata : data.data = []
  · exact .inl hdata
  rcases Nat.lt_or_ge data.data.length sep.data.length with hlong | hle
  · rw [bytearraySplit_of_short hdata hlong] at hlist
    cases hlist
  · refine .inr ⟨hle, fun hzero hoccurs => ?_⟩
    subst hzero
    obtain ⟨cuts, last, hlist', hrest⟩ := @bytearraySplit_eq data sep (some 0) hdata hle
    rw [hlist', SplitOutcome.list.injEq] at hlist
    exact not_split_zero hdata hoccurs hrest (hlist ▸ hsplit)

/-- **The list is a split exactly when the data are empty, or the separator is no longer than
the data and not in them when the limit is zero.** -/
theorem split_iff (data : BytesValue) (sep : Separator) (maxsplit : Option Int64) :
    SplitLaw data sep maxsplit ↔ SplitWhen data sep maxsplit := by
  refine ⟨SplitLaw.splitWhen, fun h => ?_⟩
  by_cases hdata : data.data = []
  · refine ⟨[[]], ?_, ?_, ?_, ?_, ?_⟩
    · cases maxsplit with
      | none | some =>
        exact if_pos (List.length_eq_zero_iff.mpr hdata)
    · rw [hdata, List.intercalate_singleton]
    · intro limit _ hlimit
      rw [List.length_singleton]
      omega
    · simp
    · rw [hdata]
      exact .last []
  · obtain ⟨hle, hzero⟩ := h.resolve_left hdata
    obtain ⟨items, last, hlist, hrest⟩ := @bytearraySplit_eq data sep maxsplit hdata hle
    exact ⟨_, hlist, hrest.split hzero⟩

/-- `b"a b".split(b" ", 0)` has two items. -/
theorem not_split : ¬SplitLaw ⟨[0x61, 0x20, 0x62], by decide⟩ ⟨⟨[0x20], by decide⟩, by decide⟩
    (some 0) := by
  intro h
  rcases h.splitWhen with h | ⟨_, h⟩
  · exact absurd h (by decide)
  · exact h rfl (by decide)

end PikaScript
