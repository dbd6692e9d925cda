import PikaScript.VM.Blocks
import PikaScript.VM.Chain

/-! The lines of a program do what they mean, wherever they sit in an array.

A loop is a rule about its pieces: the line that is tested, the body and the `JMP -1`; a
`for` loop and a comprehension are both a use of it. What is known of the loop around a line,
for a `break` in it, is kept up piece by piece (`Env.Knows`). -/
namespace PikaScript
open Commands

/-! ### Lines -/

section
variable {units piece : List AsmUnit} {start deepth : Nat} {isNewLine : Bool}

/-- An index of the array that a piece can start at. -/
structure Opens (units : List AsmUnit) (start : Nat) : Prop where
  le : start ≤ units.length
  settled : Settled (units.take start)

theorem take_behind (hsits : Sits units start piece) :
    units.take (start + piece.length) = units.take start ++ piece := by
  rw [List.take_add, ← List.prefix_iff_eq_take.mp hsits]

theorem Opens.behind (h : Opens units start) (hsits : Sits units start piece)
    (hpiece : Settled piece) : Opens units (start + piece.length) := by
  refine ⟨?_, ?_⟩
  · have hle := hsits.length_le
    rw [List.length_drop] at hle
    have := h.le
    omega
  · rw [take_behind hsits]
    exact h.settled.append hpiece

theorem Opens.next {unit : AsmUnit} (h : Opens units start) (hunit : units[start]? = some unit)
    (hinvoke : unit.invokeDeepth = 0) (hclass : unit.instruct ≠ .CLS) : Opens units (start + 1) :=
  h.behind (sits_cons.mpr ⟨hunit, List.nil_prefix⟩) (settled_singleton hinvoke hclass)

/-- What a text may have in it. -/
def AsmLine.allow (p : InstructIndex → Bool) : AsmLine → Bool
  | block _ => true
  | ins _ instruct _ => p instruct

def AsmLine.isCalm : AsmLine → Bool
  | block _ => true
  | ins _ instruct data => instruct.isCalm data

end

/-! ### Loops -/

section
variable {σ : Type} {host : VMHost σ} {units piece : List AsmUnit} {env : Env}
  {body : Cmd (Level σ) Stop} {head : Nat} {lines : List AsmLine}

end

/-! ### The loop around a line -/

/-- **What is known of the loop around** an index: the search back finds it, when no loop that
has ended since is less deep. -/
structure Env.Knows (units : List AsmUnit) (env : Env) (around : Around) (pos : Nat) : Prop where
  inTry : around.inTry = env.handler.isSome
  scan : ∀ ended ∈ around.loop, around.held = false → ∃ l ∈ env.loop, ∀ now, l.1 < now →
    (∀ f ∈ ended, now ≤ f) → findLoopDeepth now (units.take pos).reverse = some l.1

section
variable {σ : Type} {host : VMHost σ} {units piece : List AsmUnit} {env : Env} {around : Around}
  {pos start : Nat} {heads : List Nat} {tails : List Nat}

theorem nibbles_eq (h : ∀ f ∈ heads, f < 16) : nibbles heads = heads :=
  (List.map_congr_left fun f hf => Nat.mod_eq_of_lt (h f hf)).trans (List.map_id _)

theorem Marks.scan_of_le (h : Marks piece (nibbles heads) tails) (hlt : ∀ f ∈ heads, f < 16)
    {now : Nat} (hle : ∀ f ∈ heads, now ≤ f) (before : List AsmUnit) :
    findLoopDeepth now (piece.reverse ++ before) = findLoopDeepth now before := by
  have hnone : heads.reverse.find? (· < now) = none := by
    rw [List.find?_eq_none]
    intro f hf
    simpa using hle f (List.mem_reverse.mp hf)
  rw [h.scan, nibbles_eq hlt, hnone, Option.none_or]

/-- Behind a piece, with its loops. -/
theorem Env.Knows.behind (h : env.Knows units around pos) (hsits : Sits units pos piece)
    (hmarks : Marks piece (nibbles heads) tails) (hlt : ∀ f ∈ heads, f < 16) :
    env.Knows units (around.ended heads) (pos + piece.length) := by
  refine ⟨h.inTry, fun ended hended hheld => ?_⟩
  obtain ⟨before, hbefore, rfl⟩ := Option.map_eq_some_iff.mp hended
  obtain ⟨l, hl, hscan⟩ := h.scan before hbefore hheld
  refine ⟨l, hl, fun now hnow hle => ?_⟩
  rw [List.forall_mem_append] at hle
  rw [take_behind hsits, List.reverse_append, hmarks.scan_of_le hlt hle.2]
  exact hscan now hnow hle.1

/-- In the body of a block that is no loop. -/
theorem Env.Knows.inside {flag : Option Bool} (h : env.Knows units around pos) :
    (env.inside flag).Knows units around pos := ⟨h.inTry, h.scan⟩

/-- In the body of a loop. -/
theorem Env.Knows.inLoop {flag : Option Bool} {closing : Nat} (h : env.Knows units around pos)
    (hsits : Sits units pos piece) (hdeepth : env.deepth < 16)
    (hmarks : Marks piece (nibbles (heads ++ [env.deepth])) tails) :
    (env.inLoop flag closing).Knows units ⟨some [], around.inTry, false⟩ (pos + piece.length) := by
  refine ⟨h.inTry, ?_⟩
  rintro ended ⟨⟩ -
  refine ⟨_, rfl, fun now hnow _ => ?_⟩
  have hfirst : (nibbles (heads ++ [env.deepth])).reverse =
      env.deepth :: (nibbles heads).reverse := by
    rw [nibbles_append, List.reverse_append]
    show (env.deepth % 16) :: _ = _
    rw [Nat.mod_eq_of_lt hdeepth]
    rfl
  rw [take_behind hsits, List.reverse_append, hmarks.scan, hfirst, List.find?_cons,
    decide_eq_true hnow]
  rfl

end

end PikaScript
