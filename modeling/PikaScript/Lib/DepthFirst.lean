import Mathlib.Algebra.Order.BigOperators.Group.List
import Mathlib.Algebra.Order.Ring.Nat
import Mathlib.Logic.Function.Basic
import PikaScript.Lib.Worklist

/-! Depth-first marking.

What is still to be marked is a stack: the first thing on it is marked and its
successors are put in front, unless it is marked already. A marker that meets a
thing that is not valid gives none. From no marks and a stack of roots the marks are
what can be reached from them (`run_iff`), and a marker that meets valid things only,
finitely many, comes to its end (`run_isSome`). -/
namespace DepthFirst
variable {α : Type} [DecidableEq α] (succ : α → List α) (valid : α → Bool)

/-- The marks when the stack is empty; none also when that takes more steps. -/
def run : Nat → (α → Bool) → List α → Option (α → Bool)
  | _, marked, [] => some marked
  | 0, _, _ :: _ => none
  | n + 1, marked, a :: stack =>
    if valid a then
      if marked a then run n marked stack
      else run n (Function.update marked a true) (succ a ++ stack)
    else none

variable {succ valid} {roots stack : List α} {marked marked' : α → Bool} {a b : α} {n : Nat}

/-- What can be reached from some root. -/
def Reachable (succ : α → List α) (roots : List α) (a : α) : Prop :=
  ∃ root ∈ roots, Worklist.Reach succ root a

omit [DecidableEq α] in
theorem Reachable.step_succ (h : Reachable succ roots a) (hb : b ∈ succ a) :
    Reachable succ roots b := by
  obtain ⟨root, hroot, ha⟩ := h
  exact ⟨root, hroot, .step ha hb⟩

omit [DecidableEq α] in
/-- A set with the roots that is closed has everything that can be reached. -/
theorem Reachable.mem {S : α → Prop} (h : Reachable succ roots a) (hroots : ∀ a ∈ roots, S a)
    (hclosed : ∀ a, S a → ∀ b ∈ succ a, S b) : S a := by
  obtain ⟨root, hroot, ha⟩ := h
  induction ha with
  | start => exact hroots root hroot
  | step _ hb ih => exact hclosed _ ih _ hb

/-- What a marker keeps: marks and stack are of what can be reached, and what the roots and
the marked things need is marked or on the stack. -/
structure Marking (succ : α → List α) (roots : List α) (marked : α → Bool) (stack : List α) :
    Prop where
  of_marked : ∀ a, marked a → Reachable succ roots a
  of_stack : ∀ a ∈ stack, Reachable succ roots a
  root : ∀ a ∈ roots, marked a ∨ a ∈ stack
  closed : ∀ a, marked a → ∀ b ∈ succ a, marked b ∨ b ∈ stack

omit [DecidableEq α] in
theorem marking_start : Marking succ roots (fun _ => false) roots where
  of_marked _ h := absurd h Bool.false_ne_true
  of_stack a h := ⟨a, h, .start⟩
  root _ h := .inr h
  closed _ h := absurd h Bool.false_ne_true

omit [DecidableEq α] in
theorem Marking.pop (h : Marking succ roots marked (a :: stack)) (ha : marked a) :
    Marking succ roots marked stack := by
  have hpop (b : α) (hb : marked b ∨ b ∈ a :: stack) : marked b ∨ b ∈ stack := by
    rcases hb with hb | hb
    · exact .inl hb
    · rcases List.mem_cons.mp hb with rfl | hb
      · exact .inl ha
      · exact .inr hb
  exact ⟨h.of_marked, fun b hb => h.of_stack b (List.mem_cons_of_mem _ hb),
    fun b hb => hpop b (h.root b hb), fun b hb c hc => hpop c (h.closed b hb c hc)⟩

theorem Marking.push (h : Marking succ roots marked (a :: stack)) :
    Marking succ roots (Function.update marked a true) (succ a ++ stack) := by
  have ha : Reachable succ roots a := h.of_stack a List.mem_cons_self
  have hpush (b : α) (hb : marked b ∨ b ∈ a :: stack) :
      Function.update marked a true b ∨ b ∈ succ a ++ stack := by
    by_cases heq : b = a
    · exact .inl (by rw [heq, Function.update_self])
    · rw [Function.update_of_ne heq, List.mem_append]
      rcases hb with hb | hb
      · exact .inl hb
      · exact .inr (.inr ((List.mem_cons.mp hb).resolve_left heq))
  refine ⟨fun b hb => ?_, fun b hb => ?_, fun b hb => hpush b (h.root b hb), fun b hb c hc => ?_⟩
  · by_cases heq : b = a
    · exact heq ▸ ha
    · rw [Function.update_of_ne heq] at hb
      exact h.of_marked b hb
  · rcases List.mem_append.mp hb with hb | hb
    · exact ha.step_succ hb
    · exact h.of_stack b (List.mem_cons_of_mem _ hb)
  · by_cases heq : b = a
    · exact .inr (List.mem_append_left _ (heq ▸ hc))
    · rw [Function.update_of_ne heq] at hb
      exact hpush c (h.closed b hb c hc)

theorem marking_run (h : Marking succ roots marked stack)
    (hrun : run succ valid n marked stack = some marked') : Marking succ roots marked' [] := by
  induction n generalizing marked stack with
  | zero =>
    cases stack with
    | nil =>
      cases hrun
      exact h
    | cons a stack => cases hrun
  | succ n ih =>
    cases stack with
    | nil =>
      cases hrun
      exact h
    | cons a stack =>
      rw [run] at hrun
      split at hrun
      · split at hrun
        · exact ih (h.pop ‹_›) hrun
        · exact ih h.push hrun
      · cases hrun

/-- **The marks are what can be reached.** -/
theorem run_iff (hrun : run succ valid n (fun _ => false) roots = some marked') :
    marked' a ↔ Reachable succ roots a := by
  have h := marking_run marking_start hrun
  refine ⟨h.of_marked a, fun ha => ha.mem (S := fun a => marked' a) (fun a ha => ?_) ?_⟩
  · exact (h.root a ha).resolve_right List.not_mem_nil
  · exact fun a ha b hb => (h.closed a ha b hb).resolve_right List.not_mem_nil

/-! ### The end -/

/-- The steps a marker needs when only the things in `all` are met. -/
def steps (succ : α → List α) (all : List α) (marked : α → Bool) (stack : List α) : Nat :=
  stack.length + ((all.filter fun a => !marked a).map fun a => (succ a).length + 1).sum

theorem steps_push (succ : α → List α) (stack : List α) {all : List α} (ha : a ∈ all)
    (hmarked : marked a = false) :
    steps succ all (Function.update marked a true) (succ a ++ stack) <
      steps succ all marked (a :: stack) := by
  have hsum : ∀ l : List α, a ∈ l →
      ((l.filter fun b => !Function.update marked a true b).map fun b =>
        (succ b).length + 1).sum + ((succ a).length + 1) ≤
      ((l.filter fun b => !marked b).map fun b => (succ b).length + 1).sum := by
    intro l hl
    have hle (l : List α) : ((l.filter fun b => !Function.update marked a true b).map fun b =>
        (succ b).length + 1).sum ≤
        ((l.filter fun b => !marked b).map fun b => (succ b).length + 1).sum := by
      refine List.Sublist.sum_le_sum (List.Sublist.map _ ?_) fun _ _ => Nat.zero_le _
      refine List.monotone_filter_right l fun b hb => ?_
      by_cases heq : b = a
      · rw [heq, Function.update_self] at hb
        cases hb
      · rwa [Function.update_of_ne heq] at hb
    obtain ⟨before, after, rfl⟩ := List.append_of_mem hl
    have hbefore := hle before
    have hafter := hle after
    simp only [List.filter_append, List.map_append, List.sum_append, List.filter_cons,
      Function.update_self, hmarked, Bool.not_true, Bool.not_false, Bool.false_eq_true, if_false,
      if_true, List.map_cons, List.sum_cons]
    omega
  have := hsum all ha
  simp only [steps, List.length_append, List.length_cons]
  omega

theorem run_isSome {all : List α} (hvalid : ∀ a, Reachable succ roots a → valid a ∧ a ∈ all)
    (h : Marking succ roots marked stack) (hn : steps succ all marked stack ≤ n) :
    (run succ valid n marked stack).isSome := by
  induction n generalizing marked stack with
  | zero =>
    cases stack with
    | nil => rfl
    | cons a stack =>
      rw [steps, List.length_cons] at hn
      omega
  | succ n ih =>
    cases stack with
    | nil => rfl
    | cons a stack =>
      obtain ⟨ha, hall⟩ := hvalid a (h.of_stack a List.mem_cons_self)
      rw [run, if_pos ha]
      cases hmarked : marked a with
      | true =>
        refine ih (h.pop hmarked) ?_
        rw [steps, List.length_cons] at hn
        rw [steps]
        omega
      | false =>
        have := steps_push succ stack hall hmarked
        exact ih h.push (by omega)

end DepthFirst
