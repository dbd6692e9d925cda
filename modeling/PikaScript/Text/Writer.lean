import PikaScript.Text.Replace

/-! Text written into a buffer, character by character, at an `int` that counts.

The count wraps, and what it indexes then is in front of the buffer. Within the buffer the text
comes out whole just when it is shorter than `2^31`. -/
namespace PikaScript
open Memory Replace

namespace Writer

/-- The loop that writes one character after another. None when it writes outside. -/
def putLoop : CString → Bytes → Int → Option (Bytes × Int)
  | [], output, j => some (output, j)
  | c :: cs, output, j => do putLoop cs (← storeAt output j [c]) (s32 (j + 1))

/-- A text and the NUL behind it. -/
def putText (text : CString) (output : Bytes) : Option (Bytes × Int) :=
  (putLoop text output 0).bind fun r => (storeAt r.1 r.2 [0]).map (·, r.2)

/-- The text that a call leaves in its buffer. -/
def Leaves (call : Option (Bytes × Int)) (text : CString) : Prop :=
  ∃ output n, call = some (output, n) ∧ untilZero output = some text

variable {text cs cs' : CString} {output : Bytes}

theorem Leaves.unique {call : Option (Bytes × Int)} {text' : CString} (h : Leaves call text)
    (h' : Leaves call text') : text = text' := by
  obtain ⟨output, n, hcall, htext⟩ := h
  obtain ⟨output', n', hcall', htext'⟩ := h'
  rw [hcall] at hcall'
  cases hcall'
  exact Option.some.inj (htext.symm.trans htext')

theorem putLoop_append (j : Int) : putLoop (cs ++ cs') output j =
    (putLoop cs output j).bind fun r => putLoop cs' r.1 r.2 := by
  induction cs generalizing output j with
  | nil => rfl
  | cons c cs ih =>
    rw [List.cons_append, putLoop, putLoop, Option.bind_eq_bind, Option.bind_assoc]
    exact congrArg _ (funext fun output => ih _)

/-- What fits is written behind what is there. -/
theorem putLoop_eq (kept free : Bytes) (hroom : cs.length ≤ free.length)
    (hfits : kept.length + cs.length < 2 ^ 31) :
    putLoop cs (kept ++ free) kept.length =
      some (kept ++ cs ++ free.drop cs.length, ((kept.length + cs.length : Nat) : Int)) := by
  induction cs generalizing kept free with
  | nil => simp [putLoop]
  | cons c cs ih =>
    rw [List.length_cons] at hroom hfits
    have hnext : s32 ((kept.length : Int) + 1) = ((kept ++ [c]).length : Nat) := by
      rw [List.length_append, List.length_singleton, Int.natCast_add, Int.natCast_one]
      exact s32_of_fits ⟨by omega, by omega⟩
    have hrest := ih (kept ++ [c]) (free.drop 1) (by rw [List.length_drop]; omega)
      (by rw [List.length_append, List.length_singleton]; omega)
    have hdrop : (free.drop 1).drop cs.length = free.drop (cs.length + 1) := by
      rw [List.drop_drop, Nat.add_comm]
    have hlength : (kept ++ [c]).length + cs.length = kept.length + (cs.length + 1) := by
      rw [List.length_append, List.length_singleton]
      omega
    rw [putLoop, storeAt_append kept free [c] (by rw [List.length_singleton]; omega),
      Option.bind_eq_bind, Option.bind_some, hnext, List.length_singleton, hrest, hdrop, hlength,
      List.append_assoc kept, List.singleton_append, List.length_cons]

/-- **A text that an `int` counts is written**, and nothing behind its NUL is touched. -/
theorem putText_eq (hroom : text.length < output.length) (hfits : text.length < 2 ^ 31) :
    putText text output =
      some (text ++ 0 :: output.drop (text.length + 1), (text.length : Int)) := by
  have hloop := putLoop_eq [] output hroom.le (by rw [List.length_nil]; omega)
  have hstore := storeAt_append text (output.drop text.length) [0] (by
    rw [List.length_singleton, List.length_drop]
    omega)
  have hzero : ((([] : Bytes).length : Nat) : Int) = 0 := rfl
  rw [List.nil_append, List.nil_append, hzero, List.length_nil, Nat.zero_add] at hloop
  rw [putText, hloop, Option.bind_some, hstore]
  simp

theorem storeAt_neg {p : Int} {bytes : Bytes} (h : p < 0) : storeAt output p bytes = none :=
  if_neg (by omega)

/-- A longer one is not. -/
theorem putLoop_long {j : Int} (hj : 0 ≤ j) (hlt : j < 2 ^ 31) (hlong : 2 ^ 31 ≤ j + cs.length) :
    ((putLoop cs output j).bind fun r => (storeAt r.1 r.2 [0]).map (·, r.2)) = none := by
  induction cs generalizing output j with
  | nil =>
    rw [List.length_nil] at hlong
    omega
  | cons c cs ih =>
    rw [List.length_cons] at hlong
    rw [putLoop, Option.bind_eq_bind, Option.bind_assoc, Option.bind_eq_none_iff]
    intro output' _
    by_cases hlast : j + 1 < 2 ^ 31
    · rw [s32_of_fits ⟨by omega, hlast⟩]
      exact ih (by omega) hlast (by push_cast at hlong; omega)
    · have hneg : s32 (j + 1) < 0 := by
        rw [s32_of_over (by omega) (by omega)]
        omega
      cases cs with
      | nil =>
        rw [putLoop, Option.bind_some, storeAt_neg hneg]
        rfl
      | cons c' cs => rw [putLoop, storeAt_neg hneg]; rfl

theorem putText_long (hlong : 2 ^ 31 ≤ text.length) : putText text output = none :=
  putLoop_long le_rfl (by decide) (by omega)

theorem leaves_putText (hzero : 0 ∉ text) (hroom : text.length < output.length)
    (hfits : text.length < 2 ^ 31) : Leaves (putText text output) text :=
  ⟨_, _, putText_eq hroom hfits, untilZero_append hzero⟩

/-- **Within the buffer, the text is written just when it is shorter than `2^31`.** -/
theorem putText_isSome (hroom : text.length < output.length) :
    (putText text output).isSome ↔ text.length < 2 ^ 31 := by
  refine ⟨fun h => ?_, fun h => by rw [putText_eq hroom h]; rfl⟩
  by_contra hlong
  rw [putText_long (not_lt.mp hlong)] at h
  cases h

end Writer

end PikaScript
