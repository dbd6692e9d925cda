import Mathlib.Tactic.Ring
import PikaScript.Lib.Word

/-! The iteration of `range`.

`builtins_range` leaves its bounds in a struct of four `int64_t`s, which `__next__` moves on.
A loop asks for the next value until it is none. -/
namespace PikaScript

/-- The `RangeData` of a range object; `stop` is its `end`. -/
structure RangeData where
  start : Int
  stop : Int
  step : Int
  i : Int
deriving DecidableEq

/-! ### The code -/

/-- `builtins_range`, from the integers it is given; each one is kept in an `int`. -/
def builtinsRange : List Int → RangeData
  | [stop] => ⟨0, s32 stop, 1, 0⟩
  | [start, stop] => ⟨s32 start, s32 stop, 1, s32 start⟩
  | [start, stop, step] => ⟨s32 start, s32 stop, s32 step, s32 start⟩
  | _ => ⟨0, 0, 0, 0⟩

/-- `builtins_RangeObj___next__`. -/
def rangeNext (range : RangeData) : Option Int × RangeData :=
  if range.i ≥ s32 range.stop then (none, range)
  else (some range.i, { range with i := s64 (range.i + s32 range.step) })

/-- The values of a loop over the range, in at most so many rounds. -/
def rangeIterate : Nat → RangeData → List Int
  | 0, _ => []
  | rounds + 1, range =>
    match rangeNext range with
    | (none, _) => []
    | (some value, range) => value :: rangeIterate rounds range

/-! ### The law -/

/-- A call of `range` with 32-bit integers, in one of its three forms. -/
inductive RangeCall where
  | one (stop : Int32)
  | two (start stop : Int32)
  | three (start stop step : Int32) (h : step ≠ 0)

namespace RangeCall

/-- The arguments given. -/
def args : RangeCall → List Int
  | one stop => [stop.toInt]
  | two start stop => [start.toInt, stop.toInt]
  | three start stop step _ => [start.toInt, stop.toInt, step.toInt]

/-- The first value. -/
def start : RangeCall → Int
  | one _ => 0
  | two start _ => start.toInt
  | three start _ _ _ => start.toInt

/-- The end. -/
def stop : RangeCall → Int
  | one stop => stop.toInt
  | two _ stop => stop.toInt
  | three _ stop _ _ => stop.toInt

/-- The step. -/
def step : RangeCall → Int
  | one _ => 1
  | two _ _ => 1
  | three _ _ step _ => step.toInt

/-- A value is strictly before the end in the direction of the step. -/
def Before (call : RangeCall) (value : Int) : Prop :=
  if 0 < call.step then value < call.stop else call.stop < value

instance (call : RangeCall) : DecidablePred call.Before := fun _ => by
  unfold Before
  infer_instance

/-- The first of the values `start`, `start + step` and so on, while they are before the end. -/
def values (call : RangeCall) (count : Nat) : List Int :=
  ((List.range count).map fun k : Nat => call.start + k * call.step).takeWhile
    fun value => call.Before value

end RangeCall

/-- A loop over the range gets the values before the end, and comes to its end. -/
structure RangeLaw (call : RangeCall) : Prop where
  yields : ∀ rounds, rangeIterate rounds (builtinsRange call.args) = call.values rounds
  stops : ∃ count, ∀ rounds, count ≤ rounds →
    rangeIterate rounds (builtinsRange call.args) = call.values count

/-- The step goes up, or the range is empty. -/
def RangeWhen (call : RangeCall) : Prop := 0 < call.step ∨ call.start = call.stop

theorem fitsS32_zero : FitsS32 0 := by decide

theorem fitsS32_one : FitsS32 1 := by decide

theorem RangeCall.fits (call : RangeCall) :
    FitsS32 call.start ∧ FitsS32 call.stop ∧ FitsS32 call.step := by
  cases call with
  | one stop => exact ⟨fitsS32_zero, fitsS32_toInt stop, fitsS32_one⟩
  | two start stop => exact ⟨fitsS32_toInt start, fitsS32_toInt stop, fitsS32_one⟩
  | three start stop step h =>
    exact ⟨fitsS32_toInt start, fitsS32_toInt stop, fitsS32_toInt step⟩

/-- Every form leaves its start, its end and its step, at the start. -/
theorem builtinsRange_args (call : RangeCall) :
    builtinsRange call.args = ⟨call.start, call.stop, call.step, call.start⟩ := by
  cases call with
  | one stop =>
    simp only [RangeCall.args, builtinsRange, s32_of_fits (fitsS32_toInt stop)]
    rfl
  | two start stop =>
    simp only [RangeCall.args, builtinsRange, s32_of_fits (fitsS32_toInt _)]
    rfl
  | three start stop step h =>
    simp only [RangeCall.args, builtinsRange, s32_of_fits (fitsS32_toInt _)]
    rfl

/-- From a value below the end, with a step that goes up, the loop gets the values below the
end. -/
theorem rangeIterate_eq {start stop step : Int} (hstop : FitsS32 stop) (hstep : FitsS32 step)
    (hpos : 0 < step) {i : Int} (hi : FitsS64 i) (rounds : Nat) :
    rangeIterate rounds ⟨start, stop, step, i⟩ =
      ((List.range rounds).map fun k : Nat => i + k * step).takeWhile
        fun value => value < stop := by
  induction rounds generalizing i with
  | zero => rfl
  | succ rounds ih =>
    rw [rangeIterate, rangeNext, List.range_succ_eq_map, List.map_cons, List.map_map]
    simp only [s32_of_fits hstop, s32_of_fits hstep]
    by_cases hend : i ≥ stop
    · rw [if_pos hend, List.takeWhile_cons_of_neg (by simpa using hend)]
    · rw [if_neg hend, List.takeWhile_cons_of_pos (by simpa using hend)]
      have hnext : FitsS64 (i + step) := by
        have h₁ := hstop.2
        have h₂ := hstep.2
        have h₃ := hi.1
        exact ⟨by omega, by omega⟩
      have hmap : ((fun k : Nat => i + k * step) ∘ Nat.succ) =
          fun k : Nat => i + step + k * step := by
        funext k
        simp only [Function.comp_apply, Nat.succ_eq_add_one, Nat.cast_add, Nat.cast_one]
        ring
      simp only [s64_of_fits hnext, hmap, ih hnext, Nat.cast_zero, zero_mul, add_zero]

/-- Once a value is not taken, the later ones do not matter. -/
theorem takeWhile_map_range {α : Type} {p : α → Bool} {f : Nat → α} {count rounds : Nat}
    (hcount : p (f count) = false) (hle : count ≤ rounds) :
    ((List.range rounds).map f).takeWhile p = ((List.range count).map f).takeWhile p := by
  obtain ⟨rest, rfl⟩ := Nat.exists_eq_add_of_le hle
  rw [List.range_add, List.map_append, List.takeWhile_append]
  split
  · rename_i hall
    have hrest : (((List.range rest).map (count + ·)).map f).takeWhile p = [] := by
      cases rest with
      | zero => rfl
      | succ rest =>
        rw [List.range_succ_eq_map, List.map_cons, List.map_cons, Nat.add_zero,
          List.takeWhile_cons_of_neg (by simp [hcount])]
    rw [hrest, List.append_nil]
    exact (List.takeWhile_prefix p).eq_of_length hall |>.symm
  · rfl

/-- With a step that goes up, the values come to the end. -/
theorem exists_values_eq {call : RangeCall} (hpos : 0 < call.step) :
    ∃ count, ∀ rounds, count ≤ rounds → call.values rounds = call.values count := by
  refine ⟨(call.stop - call.start).toNat, fun rounds hle => takeWhile_map_range ?_ hle⟩
  have hcount : call.stop - call.start ≤ ((call.stop - call.start).toNat : Int) :=
    Int.self_le_toNat _
  have hmul : ((call.stop - call.start).toNat : Int) * 1 ≤
      ((call.stop - call.start).toNat : Int) * call.step :=
    Int.mul_le_mul_of_nonneg_left hpos (Int.natCast_nonneg _)
  rw [decide_eq_false_iff_not, RangeCall.Before, if_pos hpos]
  omega

/-- An empty range whose step goes down gets no value. -/
theorem rangeIterate_nil {start step : Int} (hstart : FitsS32 start) (rounds : Nat) :
    rangeIterate rounds ⟨start, start, step, start⟩ = [] := by
  cases rounds with
  | zero => rfl
  | succ rounds =>
    rw [rangeIterate, rangeNext, s32_of_fits hstart, if_pos le_rfl]

/-- An empty range has no value. -/
theorem RangeCall.values_of_eq {call : RangeCall} (hneg : ¬0 < call.step)
    (h : call.start = call.stop) (rounds : Nat) : call.values rounds = [] := by
  cases rounds with
  | zero => rfl
  | succ rounds =>
    rw [RangeCall.values, List.range_succ_eq_map, List.map_cons, List.takeWhile_cons_of_neg]
    simp [RangeCall.Before, hneg, h]

/-- Where the first round of the loop is right, the step goes up or the range is empty. -/
theorem rangeWhen_of_first {call : RangeCall}
    (h : rangeIterate 1 (builtinsRange call.args) = call.values 1) : RangeWhen call := by
  by_contra hwhen
  obtain ⟨hneg, hne⟩ := not_or.mp hwhen
  obtain ⟨hstart, hstop, hstep⟩ := call.fits
  rw [builtinsRange_args, rangeIterate, rangeNext, s32_of_fits hstop] at h
  rcases lt_or_gt_of_ne hne with hlt | hgt
  · rw [if_neg (by simpa using hlt)] at h
    simp [RangeCall.values, RangeCall.Before, hneg, hlt.le] at h
  · rw [if_pos (by simpa using hgt.le)] at h
    simp [RangeCall.values, RangeCall.Before, hneg, hgt] at h

/-- **The loop over a range gets its values exactly when the step goes up or the range is
empty from the start.** -/
theorem range_iff (call : RangeCall) : RangeLaw call ↔ RangeWhen call := by
  refine ⟨fun h => rangeWhen_of_first (h.yields 1), fun h => ?_⟩
  obtain ⟨hstart, hstop, hstep⟩ := call.fits
  by_cases hpos : 0 < call.step
  · have hyields : ∀ rounds, rangeIterate rounds (builtinsRange call.args) =
        call.values rounds := by
      intro rounds
      have hwide : FitsS64 call.start :=
        ⟨by have := hstart.1; omega, by have := hstart.2; omega⟩
      rw [builtinsRange_args, rangeIterate_eq hstop hstep hpos hwide]
      unfold RangeCall.values RangeCall.Before
      simp only [if_pos hpos]
    obtain ⟨count, hcount⟩ := exists_values_eq hpos
    exact ⟨hyields, count, fun rounds hle => (hyields rounds).trans (hcount rounds hle)⟩
  · have heq : call.start = call.stop := h.resolve_left hpos
    have hnil : ∀ rounds, rangeIterate rounds (builtinsRange call.args) = [] := by
      intro rounds
      rw [builtinsRange_args, ← heq]
      exact rangeIterate_nil hstart rounds
    have hvalues : ∀ rounds, call.values rounds = [] := RangeCall.values_of_eq hpos heq
    exact ⟨fun rounds => (hnil rounds).trans (hvalues rounds).symm, 0, fun rounds _ =>
      (hnil rounds).trans (hvalues 0).symm⟩

/-- `range(5, 0, -1)` has no value. -/
theorem not_range : ¬RangeLaw (.three 5 0 (-1) (by decide)) := by
  intro h
  exact absurd (h.yields 1) (by decide)

end PikaScript
