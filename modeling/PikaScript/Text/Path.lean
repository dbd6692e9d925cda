import Mathlib.Data.List.Chain
import PikaScript.Text.Writer

/-! The path functions of `dataString.c`.

The folder and the name are cut at the last separator of a formatted copy. The loops that look
for it leave its index at 0 when they find none, and an empty folder is joined without a
separator, so that a path whose only separator comes first is not joined again.

`path_iff`: with this, and with copies and joined paths that their `int`s count, a path is joined
from its folder and its name. -/
namespace PikaScript
open Memory Replace Writer

namespace Path

/-! ### The code -/

/-- What the loops of the path functions read: their length is an `int`. -/
def counted (input : CString) : CString := input.take (s32 input.length).toNat

/-- A character in the loop of `strPathFormat`. -/
def slashed (c : BitVec 8) : BitVec 8 := if c = 0x5c then 0x2f else c

/-- The loops that look for the last separator. -/
def lastSlash : CString → Nat → Nat → Nat
  | [], _, j => j
  | c :: cs, i, j => lastSlash cs (i + 1) (if c = 0x2f then i else j)

end Path

open PikaScript.Path

/-- `strPathFormat`: the buffer after it and what it returns, as of the functions below. None when
they read or write outside. -/
def strPathFormat (input : CString) (output : Bytes) : Option (Bytes × Int) :=
  putText ((counted input).map slashed) output

/-- A formatted copy. `pikaMalloc` takes a `uint32_t`; nothing of the memory is read before it is
written. -/
def Path.formatCopy (input : CString) : Option CString :=
  (strPathFormat input (List.replicate ((input.length + 1) % 2 ^ 32) 0)).bind (untilZero ·.1)

/-- `strPathJoin`. The byte is the one in front of the copy of the first input, which is read when
the copy is empty. -/
def strPathJoin (before : BitVec 8) (input1 input2 : CString) (output : Bytes) :
    Option (Bytes × Int) :=
  if input1 = [] then (strPathFormat input2 output).map fun r => (r.1, 0)
  else do
    let format1 ← formatCopy input1
    let format2 ← formatCopy input2
    let r ← putLoop (counted format1) output 0
    let r ←
      (if (counted format1).getLast?.getD before ≠ 0x2f then putLoop [0x2f] r.1 r.2 else some r)
    let i := if format2.head? = some 0x2f then 1 else 0
    let r ← putLoop ((counted format2).drop i) r.1 r.2
    return (← storeAt r.1 r.2 [0], r.2)

/-- `strPathGetFolder`. -/
def strPathGetFolder (input : CString) (output : Bytes) : Option (Bytes × Int) := do
  let format ← formatCopy input
  putText (format.take (lastSlash (counted format) 0 0)) output

/-- `strCopy`: of an empty text, nothing. -/
def strCopy (strBuff : Bytes) (strIn : CString) : Option Bytes :=
  if strIn = [] then some strBuff else store strBuff 0 (strIn ++ [0])

/-- `strPathGetFileName`. -/
def strPathGetFileName (input : CString) (output : Bytes) : Option (Bytes × Int) :=
  if 0x2f ∉ input ∧ 0x5c ∉ input then (strCopy output input).map (·, 0)
  else do
    let format ← formatCopy input
    putText ((counted format).drop (lastSlash (counted format) 0 0 + 1)) output

namespace Path

/-! ### What it is for -/

def IsSeparator (c : BitVec 8) : Prop := c = 0x2f ∨ c = 0x5c

instance : DecidablePred IsSeparator := fun c => inferInstanceAs (Decidable (c = 0x2f ∨ c = 0x5c))

/-- No separator stands behind another one. -/
def NoDoubled (p : CString) : Prop := p.IsChain fun a b => ¬(IsSeparator a ∧ IsSeparator b)

/-- What is owed for a path, with a buffer for its name, and for another path joined to it. Each
buffer has the bytes that may be written, and no more. -/
structure PathLaw (p q : CString) (name : Bytes) : Prop where
  joins : ∃ folder file format,
    (∀ output : Bytes, output.length = p.length + 1 → Leaves (strPathGetFolder p output) folder) ∧
    Leaves (strPathGetFileName p name) file ∧
    (∀ output : Bytes, output.length = p.length + 1 → Leaves (strPathFormat p output) format) ∧
    (∀ before, ∀ output : Bytes, output.length = folder.length + file.length + 2 →
      Leaves (strPathJoin before folder file output) format) ∧
    ∀ output : Bytes, output.length = format.length + 1 →
      Leaves (strPathFormat format output) format
  bounded : ∀ before, ∀ output : Bytes, output.length = p.length + q.length + 2 →
    (strPathJoin before p q output).isSome

/-- A `uint32_t` does not take the size of a copy for 0. -/
def Copied (p : CString) : Prop := p.length % 2 ^ 32 ≠ 2 ^ 32 - 1

/-- When it is met: the copies have memory, the name of an empty path is there already, there is a
separator behind the first character or none, and an `int` counts what is joined. -/
structure Holds (p q : CString) (name : Bytes) : Prop where
  copied : Copied p
  named : p = [] → name = [0]
  rooted : (∃ c ∈ (counted p).tail, IsSeparator c) ∨ counted p = [] ∨ ∀ c ∈ p, ¬IsSeparator c
  joined : p ≠ [] → Copied q ∧ (counted p).length + (counted q).length +
    (if (counted p).getLast?.any (IsSeparator ·) then 0 else 1) <
      2 ^ 31 + if (counted q).head?.any (IsSeparator ·) then 1 else 0

variable {p q text output name : CString}

/-! ### Formatting -/

/-- A path as it is formatted. -/
def formatted (p : CString) : CString := (counted p).map slashed

theorem length_counted (p : CString) : (counted p).length = (s32 p.length).toNat := by
  have hle := @s32_le (p.length : Int) (by omega)
  rw [counted, List.length_take]
  omega

theorem length_counted_lt (p : CString) : (counted p).length < 2 ^ 31 := by
  have hfits := fitsS32_s32 (p.length : Int)
  unfold FitsS32 at hfits
  rw [length_counted]
  omega

theorem length_formatted (p : CString) : (formatted p).length = (counted p).length :=
  List.length_map _

theorem length_formatted_lt (p : CString) : (formatted p).length < 2 ^ 31 := by
  rw [length_formatted]
  exact length_counted_lt p

theorem length_formatted_le (p : CString) : (formatted p).length ≤ p.length := by
  rw [length_formatted, counted, List.length_take]
  exact Nat.min_le_right _ _

theorem counted_of_lt (h : p.length < 2 ^ 31) : counted p = p := by
  rw [counted, s32_natCast h, Int.toNat_natCast, List.take_length]

theorem counted_formatted (p : CString) : counted (formatted p) = formatted p :=
  counted_of_lt (length_formatted_lt p)

theorem slashed_slashed (c : BitVec 8) : slashed (slashed c) = slashed c := by
  unfold slashed
  split <;> simp_all

theorem formatted_formatted (p : CString) : formatted (formatted p) = formatted p := by
  rw [formatted, counted_formatted, formatted, List.map_map]
  exact List.map_congr_left fun c _ => slashed_slashed c

theorem slashed_eq_slash {c : BitVec 8} : slashed c = 0x2f ↔ IsSeparator c := by
  unfold slashed IsSeparator
  split <;> simp_all

theorem slashed_ne_zero {c : BitVec 8} (h : c ≠ 0) : slashed c ≠ 0 := by
  unfold slashed
  split
  · decide
  · exact h

theorem not_mem_formatted (h : 0 ∉ p) : 0 ∉ formatted p := by
  intro hmem
  obtain ⟨c, hc, hzero⟩ := List.mem_map.mp hmem
  exact slashed_ne_zero (fun heq => h (heq ▸ List.mem_of_mem_take hc)) hzero

theorem formatted_eq_self (hlt : text.length < 2 ^ 31) (h : ∀ c ∈ text, slashed c = c) :
    formatted text = text := by
  rw [formatted, counted_of_lt hlt, List.map_congr_left h]
  exact List.map_id' _

theorem slashed_of_mem_formatted {c : BitVec 8} (h : c ∈ formatted p) : slashed c = c := by
  obtain ⟨d, -, rfl⟩ := List.mem_map.mp h
  exact slashed_slashed d

theorem slash_mem_map {xs : CString} : 0x2f ∈ xs.map slashed ↔ ∃ c ∈ xs, IsSeparator c := by
  rw [List.mem_map]
  exact exists_congr fun c => and_congr_right fun _ => slashed_eq_slash

/-- **A formatted path is written into a byte more than it has.** -/
theorem leaves_format (hp : 0 ∉ p) (houtput : p.length < output.length) :
    Leaves (strPathFormat p output) (formatted p) := by
  have hle := length_formatted_le p
  rw [strPathFormat, ← formatted]
  exact leaves_putText (not_mem_formatted hp) (by omega) (length_formatted_lt p)

theorem copied_of_lt (h : p.length < 2 ^ 31) : Copied p := by
  unfold Copied
  omega

theorem formatCopy_eq (hp : 0 ∉ p) (hcopied : Copied p) : formatCopy p = some (formatted p) := by
  have hroom : (formatted p).length <
      (List.replicate ((p.length + 1) % 2 ^ 32) (0 : BitVec 8)).length := by
    have hmod := s32_emod (p.length : Int)
    have hfits := fitsS32_s32 (p.length : Int)
    unfold FitsS32 at hfits
    unfold Copied at hcopied
    rw [length_formatted, length_counted, List.length_replicate]
    omega
  obtain ⟨out, n, hrun, htext⟩ := leaves_putText (not_mem_formatted hp) hroom
    (length_formatted_lt p)
  rw [formatCopy, strPathFormat, ← formatted, hrun, Option.bind_some, htext]

theorem formatCopy_none (hcopied : ¬Copied p) : formatCopy p = none := by
  have hlength : p.length % 2 ^ 32 = 2 ^ 32 - 1 := not_not.mp hcopied
  have hword : s32 (p.length : Int) = -1 := by
    have hmod := s32_emod (p.length : Int)
    have hfits := fitsS32_s32 (p.length : Int)
    unfold FitsS32 at hfits
    omega
  have hsize : (p.length + 1) % 2 ^ 32 = 0 := by omega
  have hcounted : counted p = [] := by
    rw [counted, hword]
    rfl
  rw [formatCopy, strPathFormat, hcounted, hsize]
  rfl

/-! ### The last separator -/

theorem lastSlash_none {xs : CString} (h : 0x2f ∉ xs) (i j : Nat) : lastSlash xs i j = j := by
  induction xs generalizing i with
  | nil => rfl
  | cons c xs ih =>
    rw [List.mem_cons, not_or] at h
    rw [lastSlash, if_neg (Ne.symm h.1), ih h.2]

theorem lastSlash_eq {front tail : CString} (h : 0x2f ∉ tail) (i j : Nat) :
    lastSlash (front ++ 0x2f :: tail) i j = i + front.length := by
  induction front generalizing i j with
  | nil =>
    rw [List.nil_append, lastSlash, if_pos rfl, lastSlash_none h]
    rfl
  | cons c front ih =>
    rw [List.cons_append, lastSlash, ih, List.length_cons]
    omega

theorem exists_last {c : BitVec 8} {xs : CString} (h : c ∈ xs) :
    ∃ front tail, xs = front ++ c :: tail ∧ c ∉ tail := by
  obtain ⟨tail, front, hxs, hnot⟩ := List.eq_append_cons_of_mem (List.mem_reverse.mpr h)
  refine ⟨front.reverse, tail.reverse, ?_, by rwa [List.mem_reverse]⟩
  rw [← List.reverse_reverse xs, hxs]
  simp

/-! ### Folder and name -/

theorem leaves_folder (hp : 0 ∉ p) (hcopied : Copied p) (houtput : p.length < output.length) :
    Leaves (strPathGetFolder p output)
      ((formatted p).take (lastSlash (formatted p) 0 0)) := by
  have hzero : 0 ∉ (formatted p).take (lastSlash (formatted p) 0 0) :=
    fun h => not_mem_formatted hp (List.mem_of_mem_take h)
  have hle : ((formatted p).take (lastSlash (formatted p) 0 0)).length ≤ (formatted p).length :=
    List.length_take_le' _ _
  have hlt := length_formatted_lt p
  have hformatted := length_formatted_le p
  rw [strPathGetFolder, formatCopy_eq hp hcopied, Option.bind_eq_bind, Option.bind_some,
    counted_formatted]
  exact leaves_putText hzero (by omega) (by omega)

theorem leaves_fileName (hp : 0 ∉ p) (hcopied : Copied p) (houtput : p.length < output.length)
    (hsep : ∃ c ∈ p, IsSeparator c) : Leaves (strPathGetFileName p output)
      ((formatted p).drop (lastSlash (formatted p) 0 0 + 1)) := by
  have hzero : 0 ∉ (formatted p).drop (lastSlash (formatted p) 0 0 + 1) :=
    fun h => not_mem_formatted hp (List.mem_of_mem_drop h)
  have hle : ((formatted p).drop (lastSlash (formatted p) 0 0 + 1)).length ≤
      (formatted p).length := by
    rw [List.length_drop]
    exact Nat.sub_le _ _
  have hlt := length_formatted_lt p
  have hformatted := length_formatted_le p
  have hcontains : ¬(0x2f ∉ p ∧ 0x5c ∉ p) := by
    obtain ⟨c, hc, rfl | rfl⟩ := hsep
    · exact fun h => h.1 hc
    · exact fun h => h.2 hc
  rw [strPathGetFileName, if_neg hcontains, formatCopy_eq hp hcopied, Option.bind_eq_bind,
    Option.bind_some, counted_formatted]
  exact leaves_putText hzero (by omega) (by omega)

/-- A bare name is copied, but an empty one leaves what is there. -/
theorem leaves_bareName (hp : 0 ∉ p) (houtput : output.length = p.length + 1)
    (hbare : ∀ c ∈ p, ¬IsSeparator c) (hnamed : p = [] → output = [0]) :
    Leaves (strPathGetFileName p output) p := by
  have hcontains : 0x2f ∉ p ∧ 0x5c ∉ p :=
    ⟨fun h => hbare _ h (.inl rfl), fun h => hbare _ h (.inr rfl)⟩
  rw [strPathGetFileName, if_pos hcontains, strCopy]
  by_cases hnil : p = []
  · rw [if_pos hnil, hnil, hnamed hnil]
    exact ⟨_, _, rfl, rfl⟩
  · have hroom : (p ++ [0]).length ≤ output.length := by
      rw [List.length_append, List.length_singleton, houtput]
    have hstore := store_append [] hroom
    rw [List.nil_append, List.nil_append, List.length_nil] at hstore
    rw [if_neg hnil, hstore]
    refine ⟨_, _, rfl, ?_⟩
    rw [List.append_assoc]
    exact untilZero_append hp

/-! ### Joining -/

/-- What `strPathJoin` writes for two formatted copies. -/
def joinText (before : BitVec 8) (format1 format2 : CString) : CString :=
  format1 ++ (if format1.getLast?.getD before ≠ 0x2f then [0x2f] else []) ++
    format2.drop (if format2.head? = some 0x2f then 1 else 0)

theorem strPathJoin_nil (before : BitVec 8) (q : CString) (output : Bytes) :
    strPathJoin before [] q output = (strPathFormat q output).map fun r => (r.1, 0) :=
  if_pos rfl

/-- **A join writes one text.** -/
theorem strPathJoin_eq (before : BitVec 8) (hne : p ≠ []) (hp : 0 ∉ p) (hq : 0 ∉ q)
    (hcopied : Copied p) (hcopied' : Copied q) : strPathJoin before p q output =
      putText (joinText before (formatted p) (formatted q)) output := by
  have hmiddle : ∀ r : Bytes × Int,
      (if (formatted p).getLast?.getD before ≠ 0x2f then putLoop [0x2f] r.1 r.2 else some r) =
        putLoop (if (formatted p).getLast?.getD before ≠ 0x2f then [0x2f] else []) r.1 r.2 := by
    intro r
    split <;> rfl
  rw [strPathJoin, if_neg hne, formatCopy_eq hp hcopied, formatCopy_eq hq hcopied',
    Option.bind_eq_bind, Option.bind_some, Option.bind_some, counted_formatted, counted_formatted,
    putText, joinText, putLoop_append, putLoop_append, Option.bind_assoc, Option.bind_assoc]
  refine congrArg _ (funext fun r => ?_)
  rw [hmiddle, Option.bind_eq_bind]
  refine congrArg _ (funext fun r => ?_)
  dsimp only
  refine congrArg _ (funext fun r => ?_)
  cases storeAt r.1 r.2 [0] <;> rfl

theorem strPathJoin_none (before : BitVec 8) (hne : p ≠ []) (hp : 0 ∉ p)
    (hcopied : ¬(Copied p ∧ Copied q)) : strPathJoin before p q output = none := by
  rw [strPathJoin, if_neg hne]
  by_cases hcopied' : Copied p
  · rw [formatCopy_eq hp hcopied', formatCopy_none fun h => hcopied ⟨hcopied', h⟩]
    rfl
  · rw [formatCopy_none hcopied']
    rfl

theorem length_joinText (before : BitVec 8) (a b : CString) :
    (joinText before a b).length + (if b.head? = some 0x2f then 1 else 0) =
      a.length + b.length + if a.getLast?.getD before ≠ 0x2f then 1 else 0 := by
  cases b with
  | nil =>
    simp only [joinText, List.length_append, List.head?_nil, List.drop_nil, List.length_nil]
    split <;> simp
  | cons c b =>
    simp only [joinText, List.length_append, List.length_drop, List.length_cons]
    split <;> split <;> simp <;> omega

theorem getLast?_formatted (p : CString) : (formatted p).getLast? = some 0x2f ↔
    (counted p).getLast?.any (IsSeparator ·) := by
  rw [formatted, List.getLast?_map, Option.map_eq_some_iff, Option.any_eq_true]
  exact exists_congr fun c => and_congr_right fun _ =>
    slashed_eq_slash.trans decide_eq_true_iff.symm

theorem head?_formatted (p : CString) : (formatted p).head? = some 0x2f ↔
    (counted p).head?.any (IsSeparator ·) := by
  rw [formatted, List.head?_map, Option.map_eq_some_iff, Option.any_eq_true]
  exact exists_congr fun c => and_congr_right fun _ =>
    slashed_eq_slash.trans decide_eq_true_iff.symm

/-- The join of two paths stays within its buffer just when an `int` counts what it writes. -/
theorem joined_iff (hne : p ≠ []) (hp : 0 ∉ p) (hq : 0 ∉ q) :
    (∀ before, ∀ output : Bytes, output.length = p.length + q.length + 2 →
      (strPathJoin before p q output).isSome) ↔ (Copied p ∧ Copied q) ∧
        (counted p).length + (counted q).length +
          (if (counted p).getLast?.any (IsSeparator ·) then 0 else 1) <
            2 ^ 31 + if (counted q).head?.any (IsSeparator ·) then 1 else 0 := by
  by_cases hcopied : Copied p ∧ Copied q
  · have hsome : ∀ before, ∀ output : Bytes, output.length = p.length + q.length + 2 →
        ((strPathJoin before p q output).isSome ↔
          (joinText before (formatted p) (formatted q)).length < 2 ^ 31) := by
      intro before output houtput
      have hlength := length_joinText before (formatted p) (formatted q)
      have hle := length_formatted_le p
      have hle' := length_formatted_le q
      rw [strPathJoin_eq before hne hp hq hcopied.1 hcopied.2]
      refine putText_isSome ?_
      split at hlength <;> split at hlength <;> omega
    have hlength : ∀ before, (joinText before (formatted p) (formatted q)).length +
        (if (counted q).head?.any (IsSeparator ·) then 1 else 0) =
          (counted p).length + (counted q).length +
            if (formatted p).getLast?.getD before ≠ 0x2f then 1 else 0 := by
      intro before
      have hlength := length_joinText before (formatted p) (formatted q)
      simpa only [head?_formatted, length_formatted] using hlength
    simp only [and_iff_right hcopied, ← getLast?_formatted]
    constructor
    · intro h
      have hlt := (hsome 0 _ List.length_replicate).mp
        (h 0 (List.replicate _ 0) List.length_replicate)
      have hall := hlength 0
      by_cases hlast : (formatted p).getLast? = some 0x2f
      · rw [hlast, Option.getD_some, if_neg (not_not.mpr rfl)] at hall
        rw [if_pos hlast]
        omega
      · have hne : (formatted p).getLast?.getD 0 ≠ 0x2f := by
          intro heq
          rcases hx : (formatted p).getLast? with - | c
          · rw [hx] at heq
            cases heq
          · rw [hx] at heq
            exact hlast (hx.trans (congrArg some heq))
        rw [if_pos hne] at hall
        rw [if_neg hlast]
        omega
    · intro h before output houtput
      have hall := hlength before
      refine (hsome before output houtput).mpr ?_
      by_cases hlast : (formatted p).getLast? = some 0x2f
      · rw [hlast, Option.getD_some, if_neg (not_not.mpr rfl)] at hall
        rw [if_pos hlast] at h
        omega
      · have hle : (if (formatted p).getLast?.getD before ≠ 0x2f then 1 else 0) ≤ 1 := by
          split
          · exact le_rfl
          · exact Nat.zero_le _
        rw [if_neg hlast] at h
        omega
  · refine iff_of_false (fun h => ?_) fun h => hcopied h.1
    have hall := h 0 (List.replicate (p.length + q.length + 2) 0) List.length_replicate
    rw [strPathJoin_none 0 hne hp hcopied] at hall
    cases hall

/-! ### Root and name -/

theorem slash_mem_tail : 0x2f ∈ (formatted p).tail ↔ ∃ c ∈ (counted p).tail, IsSeparator c := by
  rw [formatted, ← List.map_tail]
  exact slash_mem_map

theorem exists_cut (h : 0x2f ∈ (formatted p).tail) : ∃ front tail,
    formatted p = front ++ 0x2f :: tail ∧ front ≠ [] ∧ 0x2f ∉ tail := by
  obtain ⟨front, tail, hcut, hnot⟩ := exists_last (List.mem_of_mem_tail h)
  refine ⟨front, tail, hcut, ?_, hnot⟩
  rintro rfl
  rw [hcut] at h
  exact hnot h

/-- The two sides of the last separator are joined again. -/
theorem joinText_cut {front tail : CString} (before : BitVec 8) (hdoubled : NoDoubled p)
    (hcut : formatted p = front ++ 0x2f :: tail) (hne : front ≠ []) (hnot : 0x2f ∉ tail) :
    joinText before front tail = formatted p := by
  have hchain : (formatted p).IsChain fun a b => ¬(a = 0x2f ∧ b = 0x2f) := by
    rw [formatted, List.isChain_map]
    refine (hdoubled.take _).imp fun a b hab => ?_
    rwa [slashed_eq_slash, slashed_eq_slash]
  have hlast : front.getLast?.getD before ≠ 0x2f := by
    rw [hcut, List.isChain_append] at hchain
    intro heq
    have hmem : (0x2f : BitVec 8) ∈ front.getLast? := by
      rw [List.getLast?_eq_some_getLast hne, Option.getD_some] at heq
      rw [List.getLast?_eq_some_getLast hne, heq]
      rfl
    exact hchain.2.2 _ hmem _ rfl ⟨rfl, rfl⟩
  have hhead : tail.head? ≠ some 0x2f := fun heq => hnot (List.mem_of_head? heq)
  rw [joinText, if_pos hlast, if_neg hhead, hcut]
  simp

theorem leaves_join_cut {front tail : CString} (before : BitVec 8) (hp : 0 ∉ p)
    (hdoubled : NoDoubled p) (hcut : formatted p = front ++ 0x2f :: tail) (hne : front ≠ [])
    (hnot : 0x2f ∉ tail) (houtput : output.length = front.length + tail.length + 2) :
    Leaves (strPathJoin before front tail output) (formatted p) := by
  have hlength := length_formatted_lt p
  have hmemFront : ∀ c ∈ front, c ∈ formatted p := fun c hc =>
    hcut ▸ List.mem_append_left _ hc
  have hmemTail : ∀ c ∈ tail, c ∈ formatted p := fun c hc =>
    hcut ▸ List.mem_append_right _ (List.mem_cons_of_mem _ hc)
  have hsum : (formatted p).length = front.length + tail.length + 1 := by
    rw [hcut, List.length_append, List.length_cons, Nat.add_assoc]
  have hfront := @formatted_eq_self front (by omega) fun c hc =>
    slashed_of_mem_formatted (hmemFront c hc)
  have htail := @formatted_eq_self tail (by omega) fun c hc =>
    slashed_of_mem_formatted (hmemTail c hc)
  have hzero := not_mem_formatted hp
  rw [strPathJoin_eq before hne (fun h => hzero (hmemFront 0 h)) (fun h => hzero (hmemTail 0 h))
    (copied_of_lt (by omega)) (copied_of_lt (by omega)), hfront, htail,
    joinText_cut before hdoubled hcut hne hnot]
  exact leaves_putText hzero (by omega) hlength

theorem lastSlash_of_tail (h : 0x2f ∉ (formatted p).tail) : lastSlash (formatted p) 0 0 = 0 := by
  cases hformatted : formatted p with
  | nil => rfl
  | cons c cs =>
    rw [hformatted, List.tail_cons] at h
    rw [lastSlash, ite_self, lastSlash_none h]

theorem leaves_join_nil (before : BitVec 8) (hq : 0 ∉ q) (houtput : q.length < output.length) :
    Leaves (strPathJoin before [] q output) (formatted q) := by
  obtain ⟨out, n, hrun, htext⟩ := leaves_format hq houtput
  exact ⟨out, 0, by rw [strPathJoin_nil, hrun]; rfl, htext⟩

theorem folder_none (hcopied : ¬Copied p) (output : Bytes) : strPathGetFolder p output = none := by
  rw [strPathGetFolder, formatCopy_none hcopied]
  rfl

/-- A folder and a name that are joined to the path are all that is left to find. -/
theorem joins_of (folder file : CString) (hp : 0 ∉ p) (hcopied : Copied p)
    (hfolder : (formatted p).take (lastSlash (formatted p) 0 0) = folder)
    (hfile : Leaves (strPathGetFileName p name) file)
    (hjoin : ∀ before, ∀ output : Bytes, output.length = folder.length + file.length + 2 →
      Leaves (strPathJoin before folder file output) (formatted p)) :
    ∃ folder file format,
      (∀ output : Bytes, output.length = p.length + 1 →
        Leaves (strPathGetFolder p output) folder) ∧
      Leaves (strPathGetFileName p name) file ∧
      (∀ output : Bytes, output.length = p.length + 1 →
        Leaves (strPathFormat p output) format) ∧
      (∀ before, ∀ output : Bytes, output.length = folder.length + file.length + 2 →
        Leaves (strPathJoin before folder file output) format) ∧
      ∀ output : Bytes, output.length = format.length + 1 →
        Leaves (strPathFormat format output) format := by
  refine ⟨folder, file, formatted p, fun output houtput => ?_, hfile,
    fun output houtput => leaves_format hp (by omega), hjoin, fun output houtput => ?_⟩
  · rw [← hfolder]
    exact leaves_folder hp hcopied (by omega)
  · have hformat := @leaves_format (formatted p) output (not_mem_formatted hp) (by omega)
    rwa [formatted_formatted] at hformat

/-- What holds meets the law. -/
theorem pathLaw_of_holds (hp : 0 ∉ p) (hq : 0 ∉ q) (hdoubled : NoDoubled p)
    (hname : name.length = p.length + 1) (h : Holds p q name) : PathLaw p q name := by
  refine ⟨?_, ?_⟩
  · by_cases hbare : ∀ c ∈ p, ¬IsSeparator c
    · have hslash : 0x2f ∉ formatted p := fun hmem => by
        obtain ⟨c, hc, hsep⟩ := slash_mem_map.mp hmem
        exact hbare c (List.mem_of_mem_take hc) hsep
      refine joins_of [] p hp h.copied ?_ (leaves_bareName hp hname hbare h.named) ?_
      · rw [lastSlash_none hslash, List.take_zero]
      · exact fun before output houtput => leaves_join_nil before hp (by rw [houtput]; omega)
    · have hsep : ∃ c ∈ p, IsSeparator c := by push Not at hbare; exact hbare
      have hfile := @leaves_fileName p name hp h.copied (by omega) hsep
      by_cases hnil : counted p = []
      · have hformatted : formatted p = [] := by rw [formatted, hnil, List.map_nil]
        rw [hformatted, List.drop_nil] at hfile
        refine joins_of [] [] hp h.copied (by rw [hformatted, List.take_nil]) hfile ?_
        intro before output houtput
        rw [hformatted]
        exact leaves_join_nil before List.not_mem_nil (by rw [houtput]; exact Nat.succ_pos _)
      · have hslash := slash_mem_tail.mpr (h.rooted.resolve_right fun hor => hor.elim hnil hbare)
        obtain ⟨front, tail, hcut, hne, hnot⟩ := exists_cut hslash
        have hindex : lastSlash (formatted p) 0 0 = front.length := by
          rw [hcut, lastSlash_eq hnot, Nat.zero_add]
        have htail : (formatted p).drop (lastSlash (formatted p) 0 0 + 1) = tail := by
          rw [hindex, hcut]
          simp
        rw [htail] at hfile
        refine joins_of front tail hp h.copied ?_ hfile fun before output houtput =>
          leaves_join_cut before hp hdoubled hcut hne hnot houtput
        rw [hindex, hcut, List.take_left]
  · by_cases hne : p = []
    · subst hne
      intro before output houtput
      obtain ⟨out, n, hrun, -⟩ := @leaves_join_nil q output before hq (by rw [houtput]; simp)
      rw [hrun]
      rfl
    · exact (joined_iff hne hp hq).mpr ⟨⟨h.copied, (h.joined hne).1⟩, (h.joined hne).2⟩

/-- What meets the law holds. -/
theorem holds_of_pathLaw (hp : 0 ∉ p) (hq : 0 ∉ q) (hname : name.length = p.length + 1)
    (h : PathLaw p q name) : Holds p q name := by
  obtain ⟨⟨folder, file, format, hfolder, hfile, hformat, hjoin, -⟩, hbounded⟩ := h
  have hcopied : Copied p := by
    by_contra hcopied
    obtain ⟨out, n, hrun, -⟩ := hfolder (List.replicate _ 0) List.length_replicate
    rw [folder_none hcopied] at hrun
    cases hrun
  refine ⟨hcopied, fun hnil => ?_, ?_, fun hne => ?_⟩
  · subst hnil
    obtain ⟨out, n, hrun, htext⟩ := hfile
    obtain ⟨c, rfl⟩ := List.length_eq_one_iff.mp hname
    have hkept : strPathGetFileName [] [c] = some ([c], 0) := rfl
    rw [hkept] at hrun
    cases hrun
    unfold untilZero at htext
    split at htext
    · rename_i hzero
      rw [hzero]
    · cases htext
  · by_cases hbare : ∀ c ∈ p, ¬IsSeparator c
    · exact .inr (.inr hbare)
    by_cases hnil : counted p = []
    · exact .inr (.inl hnil)
    refine .inl (slash_mem_tail.mp ?_)
    by_contra hslash
    have hsep : ∃ c ∈ p, IsSeparator c := by push Not at hbare; exact hbare
    -- the folder is empty, and the name lacks the first character
    have hindex := lastSlash_of_tail hslash
    have hempty := @leaves_folder p (List.replicate (p.length + 1) 0) hp hcopied
      (by rw [List.length_replicate]; omega)
    have hname' := @leaves_fileName p name hp hcopied (by omega) hsep
    rw [hindex, List.take_zero] at hempty
    rw [hindex] at hname'
    have hfolderEq := (hfolder _ List.length_replicate).unique hempty
    have hfileEq := hfile.unique hname'
    have hformatEq := (hformat (List.replicate (p.length + 1) 0) List.length_replicate).unique
      (leaves_format hp (by rw [List.length_replicate]; omega))
    rw [hfolderEq, hfileEq, hformatEq] at hjoin
    have hzero : 0 ∉ (formatted p).drop (0 + 1) :=
      fun hmem => not_mem_formatted hp (List.mem_of_mem_drop hmem)
    have hsame := (hjoin 0 (List.replicate _ 0) List.length_replicate).unique
      (leaves_join_nil 0 hzero (by rw [List.length_replicate]; omega))
    have hshorter := length_formatted_le ((formatted p).drop (0 + 1))
    have hpos : 0 < (formatted p).length := by
      rw [length_formatted]
      exact List.length_pos_iff.mpr hnil
    rw [← hsame, List.length_drop] at hshorter
    omega
  · obtain ⟨⟨-, hcopied'⟩, hlt⟩ := (joined_iff hne hp hq).mp hbounded
    exact ⟨hcopied', hlt⟩

/-- **A path is joined again from its folder and its name just when** a separator stands behind
its first character or nowhere, and the sizes are counted. -/
theorem path_iff (hp : 0 ∉ p) (hq : 0 ∉ q) (hdoubled : NoDoubled p)
    (hname : name.length = p.length + 1) : PathLaw p q name ↔ Holds p q name :=
  ⟨holds_of_pathLaw hp hq hname, pathLaw_of_holds hp hq hdoubled hname⟩

/-- "/a" -/
def slashA : CString := [0x2f, 0x61]

/-- "a/b" -/
def aSlashB : CString := [0x61, 0x2f, 0x62]

theorem path_iff_ab : PathLaw aSlashB aSlashB [0, 0, 0, 0] ↔ Holds aSlashB aSlashB [0, 0, 0, 0] :=
  path_iff (by decide) (by decide) (by unfold NoDoubled; decide) rfl

/-- **A path below the root is joined again without its root.** -/
theorem not_path : ¬∀ p q name : CString, 0 ∉ p → 0 ∉ q → NoDoubled p →
    name.length = p.length + 1 → PathLaw p q name := by
  intro h
  have hlaw := h slashA [] [0, 0, 0] (by decide) List.not_mem_nil (by unfold NoDoubled; decide) rfl
  have hholds := holds_of_pathLaw (by decide) List.not_mem_nil rfl hlaw
  have hrooted := hholds.rooted
  rw [counted_of_lt (by decide : slashA.length < 2 ^ 31)] at hrooted
  revert hrooted
  decide

end Path

end PikaScript
