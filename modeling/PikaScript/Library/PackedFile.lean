import PikaScript.Lib.Machine
import PikaScript.Lib.Word
import PikaScript.Library.Archive

/-! Reading a file of the packed library.

A `pikafs_FILE` is a part of the library bytes with a position. `pikafs_fread` clamps a request
that does not fit to the size of the whole file, and not to what is left of it. `reader` is the
file that is read from its front, and `ReadWhen` the requests both answer alike. -/
namespace PikaScript
open Memory

/-! ### The code -/

/-- `pikafs_FILE`: a file within the library bytes. -/
structure PikafsFile where
  libraryBytes : Bytes
  addr : Nat
  size : Nat
  pos : Nat
  inside : addr + size ≤ libraryBytes.length
  fits : libraryBytes.length < 2 ^ 64

/-- The arguments of a `pikafs_fread`, apart from the buffer. -/
structure FreadCall where
  size : Nat
  count : Nat
deriving DecidableEq, Repr

/-- The result of a `pikafs_fread`, and the bytes it copied to the buffer. -/
structure FreadResult where
  actualCount : Int
  bytes : Bytes
deriving DecidableEq, Repr

/-- `pikafs_fopen` of a library at an address. None when the file is not within it. -/
def pikafsFopen (address : Nat) (libraryBytes : Bytes) (fileName : CString) :
    Option (Option PikafsFile) :=
  (loadModuleDataWithName address libraryBytes fileName).bind fun
    | .error _ => some none
    | .ok (addr, size) =>
      if h : addr + size ≤ libraryBytes.length ∧ libraryBytes.length < 2 ^ 64 then
        some (some ⟨libraryBytes, addr, size, 0, h.1, h.2⟩)
      else none

namespace PikafsFile
variable (self : PikafsFile)

/-- `read_len` behind the test for what fits, of `size * count` in a `size_t`. -/
def readLen (request : Nat) : Nat :=
  if (self.pos + request) % 2 ^ 64 > self.size then self.size else request

/-- `pikafs_fread`. None when it reads outside the library bytes or divides by zero. -/
def fread (call : FreadCall) : Option (PikafsFile × FreadResult) :=
  let request := call.size * call.count % 2 ^ 64
  if self.pos ≥ self.size then some (self, ⟨0, []⟩)
  else do
    let readLen := self.readLen request
    let bytes ← loadBytes self.libraryBytes (self.addr + self.pos) readLen
    if call.size = 0 then none
    return ({ self with pos := (self.pos + readLen) % 2 ^ 64 },
      ⟨s32 (readLen / call.size : Nat), bytes⟩)

end PikafsFile

/-- The file, call by call. -/
def pikafsMachine : Machine FreadCall PikafsFile FreadResult where
  step call self := self.fread call

/-! ### The reader -/

/-- What a reader copies of the bytes that are left, and how many items that are. -/
def readResult (rest : Bytes) (call : FreadCall) : FreadResult where
  actualCount := ((rest.take (call.size * call.count)).length / call.size : Nat)
  bytes := rest.take (call.size * call.count)

/-- A reader of bytes from their front. -/
def readerMachine : Machine FreadCall Bytes FreadResult where
  step call rest := some (rest.drop (call.size * call.count), readResult rest call)

/-- A reader takes every run. -/
theorem readerMachine_run (rest : Bytes) (calls : List FreadCall) :
    ∃ rest' results, readerMachine.run rest calls = some (rest', results) := by
  obtain ⟨⟨rest', results⟩, hrun⟩ := Option.isSome_iff_exists.mp
    (readerMachine.run_isSome_of_meets (C := fun _ _ => True) (fun _ _ _ => rfl)
      (readerMachine.meets_of_forall (fun _ _ => trivial) rest calls))
  exact ⟨rest', results, hrun⟩

/-- **What a reader copies are the bytes in front of what it leaves.** -/
theorem readerMachine_flatten {rest rest' : Bytes} {calls : List FreadCall}
    {results : List FreadResult} (h : readerMachine.run rest calls = some (rest', results)) :
    (results.map FreadResult.bytes).flatten ++ rest' = rest := by
  induction calls generalizing rest results with
  | nil =>
    cases h
    rfl
  | cons call calls ih =>
    obtain ⟨rest₁, result, results', hstep, hrun, rfl⟩ := Machine.run_cons _ h
    cases hstep
    rw [List.map_cons, List.flatten_cons, List.append_assoc, ih hrun]
    exact List.take_append_drop _ _

/-- At the end a reader returns 0. -/
theorem readResult_nil (call : FreadCall) : readResult [] call = ⟨0, []⟩ := by
  rw [readResult, List.take_nil, List.length_nil, Nat.zero_div]
  rfl

/-! ### The law of a call -/

namespace PikafsFile
variable {self : PikafsFile} {call : FreadCall}

/-- The content of the file from its position on. -/
def rest (self : PikafsFile) : Bytes :=
  ((self.libraryBytes.drop self.addr).take self.size).drop self.pos

/-- The call does to the file what it does to a reader of its rest. -/
def Reads (self : PikafsFile) (call : FreadCall) : Prop :=
  ∃ self', self.fread call = some (self', readResult self.rest call) ∧
    self'.rest = self.rest.drop (call.size * call.count)

/-- The requests that are read as a reader reads them: at the end of the file any; before it the
items have a size, their number is an `int`, the request fits what is left or is made at the
start of the file, and `size * count` does not come round below what is left. -/
def ReadWhen (call : FreadCall) (self : PikafsFile) : Prop :=
  let request := call.size * call.count % 2 ^ 64
  let left := self.size - self.pos
  left = 0 ∨ 0 < call.size ∧ min (call.size * call.count) left / call.size < 2 ^ 31 ∧
    (request ≤ left ∨ self.pos = 0) ∧ (request = call.size * call.count ∨ left ≤ request)

instance (call : FreadCall) (self : PikafsFile) : Decidable (ReadWhen call self) := by
  unfold ReadWhen
  infer_instance

theorem length_rest : self.rest.length = self.size - self.pos := by
  have := self.inside
  simp only [rest, List.length_drop, List.length_take]
  omega

theorem rest_eq_nil (h : self.size ≤ self.pos) : self.rest = [] :=
  List.eq_nil_of_length_eq_zero (by rw [length_rest, Nat.sub_eq_zero_of_le h])

/-- What is copied of what is left. -/
theorem loadBytes_rest {len : Nat} (h : self.pos + len ≤ self.size) :
    loadBytes self.libraryBytes (self.addr + self.pos) len = some (self.rest.take len) := by
  have := self.inside
  rw [loadBytes, if_pos (by omega), rest, List.drop_take, List.drop_drop, List.take_take,
    Nat.min_eq_left (by omega)]

/-- The rest of a file at another position. -/
theorem rest_setPos (len : Nat) :
    { self with pos := self.pos + len : PikafsFile }.rest = self.rest.drop len := by
  simp only [rest, List.drop_drop]

theorem reads_of_end (h : self.size ≤ self.pos) : self.Reads call := by
  refine ⟨self, ?_, by rw [rest_eq_nil h, List.drop_nil]⟩
  rw [fread, if_pos h, rest_eq_nil h, readResult_nil]

theorem length_take_rest (len : Nat) :
    (self.rest.take len).length = min len (self.size - self.pos) := by
  rw [List.length_take, length_rest]

/-- A call before the end of the file reads as it should if and only if the items have a size,
what is copied is as long as it should be, and the number of items is an `int`. -/
theorem reads_iff_readLen (h : self.pos < self.size) : self.Reads call ↔
    call.size ≠ 0 ∧ self.readLen (call.size * call.count % 2 ^ 64) =
      min (call.size * call.count) (self.size - self.pos) ∧
    min (call.size * call.count) (self.size - self.pos) / call.size < 2 ^ 31 := by
  have hinside := self.inside
  have hfits := self.fits
  unfold Reads fread
  rw [if_neg (Nat.not_le.mpr h)]
  dsimp only
  constructor
  · rintro ⟨self', hread, -⟩
    obtain ⟨bytes, hload, hread⟩ := Option.bind_eq_some_iff.mp hread
    by_cases hsize : call.size = 0
    · rw [if_pos hsize] at hread
      cases hread
    rw [if_neg hsize] at hread
    obtain ⟨-, hresult⟩ := Prod.mk.inj (Option.some.inj hread)
    obtain ⟨hcount, rfl⟩ := FreadResult.mk.inj hresult
    have hlen : self.readLen (call.size * call.count % 2 ^ 64) =
        min (call.size * call.count) (self.size - self.pos) := by
      unfold loadBytes at hload
      split at hload
      · rename_i hin
        have hlength := congrArg List.length (Option.some.inj hload)
        rw [List.length_take_of_le (by rw [List.length_drop]; omega), length_take_rest] at hlength
        exact hlength
      · cases hload
    rw [hlen, length_take_rest] at hcount
    have hint := (fitsS32_s32 (min (call.size * call.count) (self.size - self.pos) /
      call.size : Nat)).2
    rw [hcount] at hint
    exact ⟨hsize, hlen, by exact_mod_cast hint⟩
  · rintro ⟨hsize, hlen, hint⟩
    have hpos : self.pos + min (call.size * call.count) (self.size - self.pos) ≤ self.size := by
      omega
    rw [hlen, loadBytes_rest hpos, Option.bind_eq_bind, Option.bind_some, if_neg hsize,
      s32_of_fits ⟨Int.le_trans (by decide) (Int.natCast_nonneg _), by exact_mod_cast hint⟩,
      Nat.mod_eq_of_lt (by omega)]
    have htake : self.rest.take (min (call.size * call.count) (self.size - self.pos)) =
        self.rest.take (call.size * call.count) := by
      rw [← length_rest, ← List.take_eq_take_min]
    refine ⟨_, by rw [readResult, length_take_rest, htake]; rfl, ?_⟩
    rw [rest_setPos, ← length_rest, ← List.drop_eq_drop_min]

/-- **A call reads as it should if and only if `ReadWhen` holds.** -/
theorem reads_iff : self.Reads call ↔ ReadWhen call self := by
  have hinside := self.inside
  have hfits := self.fits
  by_cases hend : self.size ≤ self.pos
  · exact iff_of_true (reads_of_end hend) (.inl (Nat.sub_eq_zero_of_le hend))
  have hmod : call.size * call.count % 2 ^ 64 ≤ call.size * call.count := Nat.mod_le _ _
  have hlt : call.size * call.count % 2 ^ 64 < 2 ^ 64 := Nat.mod_lt _ (by decide)
  rw [reads_iff_readLen (Nat.not_le.mp hend), ReadWhen, readLen]
  generalize min (call.size * call.count) (self.size - self.pos) / call.size = items
  generalize call.size * call.count % 2 ^ 64 = request at *
  generalize call.size * call.count = wanted at *
  split <;> omega

end PikafsFile

/-- **A file that is opened is read from the front of its content.** -/
theorem pikafsFopen_of_holds {address addr size : Nat} {libraryBytes content : Bytes}
    {fileName : CString}
    (hload : loadModuleDataWithName address libraryBytes fileName = some (.ok (addr, size)))
    (hholds : Holds libraryBytes addr size content) (hfits : libraryBytes.length < 2 ^ 64) :
    ∃ self, pikafsFopen address libraryBytes fileName = some (some self) ∧
      self.rest = content := by
  obtain ⟨-, hbytes⟩ := hholds
  unfold loadBytes at hbytes
  split at hbytes
  · rename_i hinside
    refine ⟨⟨libraryBytes, addr, size, 0, hinside, hfits⟩, ?_, Option.some.inj hbytes⟩
    rw [pikafsFopen, hload, Option.bind_some]
    exact dif_pos ⟨hinside, hfits⟩
  · cases hbytes

/-! ### The law of a run -/

/-- The calls do to the file what they do to a reader of its rest: what they copy is the content
from the position on, up to the position they leave. -/
def ReadLaw (self : PikafsFile) (calls : List FreadCall) : Prop :=
  ∃ self' results, pikafsMachine.run self calls = some (self', results) ∧
    readerMachine.run self.rest calls = some (self'.rest, results) ∧
    (results.map FreadResult.bytes).flatten ++ self'.rest = self.rest

/-- **The file is read as by a reader** in every run of calls that `ReadWhen` allows. -/
theorem run_reads (self : PikafsFile) (calls : List FreadCall)
    (hcalls : pikafsMachine.Meets PikafsFile.ReadWhen self calls) : ReadLaw self calls := by
  have hstep : ∀ call self rest, PikafsFile.ReadWhen call self → rest = self.rest →
      ∃ self' rest' result, pikafsMachine.step call self = some (self', result) ∧
        readerMachine.step call rest = some (rest', result) ∧ rest' = self'.rest := by
    intro call self rest hcall hrest
    obtain ⟨self', hread, hrest'⟩ := PikafsFile.reads_iff.mpr hcall
    exact ⟨self', _, _, hread, by rw [hrest, hrest']; rfl, rfl⟩
  obtain ⟨self', rest', results, hrun, hreader, rfl⟩ :=
    Machine.run_both_of_meets hstep rfl hcalls
  exact ⟨self', results, hrun, hreader, readerMachine_flatten hreader⟩

/-- Three bytes in front of two others. -/
def PikafsFile.threeBytes : PikafsFile where
  libraryBytes := [1, 2, 3, 4, 5]
  addr := 0
  size := 3
  pos := 0
  inside := by decide
  fits := by decide

theorem run_reads_three : ReadLaw .threeBytes [⟨2, 1⟩, ⟨1, 1⟩, ⟨1, 7⟩] :=
  run_reads _ _ (by decide)

/-- **The last partial read is clamped to the size of the whole file**: it returns what is
behind it. -/
theorem not_readLaw : ¬ ∀ self calls, ReadLaw self calls := by
  intro h
  obtain ⟨self', results, hrun, -, hflatten⟩ := h .threeBytes [⟨1, 2⟩, ⟨1, 2⟩]
  have hresults : (pikafsMachine.run .threeBytes [⟨1, 2⟩, ⟨1, 2⟩]).map Prod.snd =
      some [⟨2, [1, 2]⟩, ⟨3, [3, 4, 5]⟩] := by
    decide
  rw [hrun] at hresults
  obtain rfl : results = _ := Option.some.inj hresults
  exact absurd (congrArg List.length hflatten) (by simp [PikafsFile.rest, PikafsFile.threeBytes])

end PikaScript
