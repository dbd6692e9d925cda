import Mathlib.Data.List.Basic
import Mathlib.Tactic.Common

/-! Partial machines and their runs.

A machine takes an input in a state and either refuses it or gives the next
state and an output. Everything said about whole runs goes through one of two
rules: what every step keeps, a run keeps (`run_invariant`), and a step that is
simulated gives a run that is simulated, output for output (`Simulation.run`).
Both come in a form that asks something of every step taken (`Meets`), for
machines that are right only under a condition on the state before a step. -/

/-- A deterministic machine that may refuse an input. -/
structure Machine (I S O : Type) where
  step : I → S → Option (S × O)

namespace Machine
variable {I S T O : Type} (m : Machine I S O)

/-- The final state and the outputs of a run, if no step is refused. -/
def run (s : S) : List I → Option (S × List O)
  | [] => some (s, [])
  | i :: rest => (m.step i s).bind fun e => (run e.1 rest).map fun r => (r.1, e.2 :: r.2)

theorem run_cons {i : I} {rest : List I} {s s' : S} {os : List O}
    (h : m.run s (i :: rest) = some (s', os)) :
    ∃ s₁ o os', m.step i s = some (s₁, o) ∧ m.run s₁ rest = some (s', os') ∧ os = o :: os' := by
  simp only [run, Option.bind_eq_some_iff, Option.map_eq_some_iff, Prod.mk.injEq] at h
  obtain ⟨⟨s₁, o⟩, hstep, ⟨s₂, os'⟩, hrun, rfl, rfl⟩ := h
  exact ⟨s₁, o, os', hstep, hrun, rfl⟩

theorem run_append {a b : List I} {s s₁ s₂ : S} {os₁ os₂ : List O}
    (ha : m.run s a = some (s₁, os₁)) (hb : m.run s₁ b = some (s₂, os₂)) :
    m.run s (a ++ b) = some (s₂, os₁ ++ os₂) := by
  induction a generalizing s os₁ with
  | nil =>
    cases ha
    exact hb
  | cons i rest ih =>
    obtain ⟨s', o, os', h₁, h₂, rfl⟩ := m.run_cons ha
    simp [run, h₁, ih h₂]

/-- Every step of the run is taken under `C`, a condition on its input and the
state before it. -/
def Meets (C : I → S → Prop) (s : S) : List I → Prop
  | [] => True
  | i :: rest => C i s ∧ ∀ s₁ o, m.step i s = some (s₁, o) → Meets C s₁ rest

theorem meets_cons {C : I → S → Prop} {i : I} {rest : List I} {s s₁ : S} {o : O}
    (hstep : m.step i s = some (s₁, o)) (hC : C i s) (hrest : m.Meets C s₁ rest) :
    m.Meets C s (i :: rest) :=
  ⟨hC, fun s₂ o₂ h => by cases hstep.symm.trans h; exact hrest⟩

theorem meets_of_forall {C : I → S → Prop} (hC : ∀ i s, C i s) (s : S) (is : List I) :
    m.Meets C s is := by
  induction is generalizing s with
  | nil => trivial
  | cons i rest ih => exact ⟨hC i s, fun s₁ _ _ => ih s₁⟩

instance decidableMeets {C : I → S → Prop} [∀ i s, Decidable (C i s)] :
    ∀ s is, Decidable (m.Meets C s is)
  | _, [] => .isTrue trivial
  | s, i :: rest =>
    match h : m.step i s with
    | none => decidable_of_iff (C i s) (by simp [Meets, h])
    | some (s₁, _) =>
      have : Decidable (m.Meets C s₁ rest) := decidableMeets s₁ rest
      decidable_of_iff (C i s ∧ m.Meets C s₁ rest) (by simp [Meets, h])

/-- If no step under `C` is refused, no run whose steps are under `C` is. -/
theorem run_isSome_of_meets {C : I → S → Prop} (hstep : ∀ i s, C i s → (m.step i s).isSome)
    {s : S} {is : List I} (hC : m.Meets C s is) : (m.run s is).isSome := by
  induction is generalizing s with
  | nil => rfl
  | cons i rest ih =>
    obtain ⟨⟨s₁, o⟩, h₁⟩ := Option.isSome_iff_exists.mp (hstep i s hC.1)
    rw [run, h₁, Option.bind_some, Option.isSome_map]
    exact ih (hC.2 s₁ o h₁)

/-- What a step under `C` keeps, a run whose steps are under `C` keeps. -/
theorem run_invariant_of_meets {C : I → S → Prop} {P : S → Prop}
    (hstep : ∀ i s s' o, C i s → P s → m.step i s = some (s', o) → P s')
    {s s' : S} {is : List I} {os : List O} (hs : P s) (hC : m.Meets C s is)
    (hrun : m.run s is = some (s', os)) : P s' := by
  induction is generalizing s os with
  | nil =>
    simp only [run, Option.some.injEq, Prod.mk.injEq] at hrun
    exact hrun.1 ▸ hs
  | cons i rest ih =>
    obtain ⟨s₁, o, os', h₁, h₂, -⟩ := m.run_cons hrun
    exact ih (hstep i s s₁ o hC.1 hs h₁) (hC.2 s₁ o h₁) h₂

/-- If from `P` a step under `C` is taken and keeps `P`, a run whose steps are under
`C` is taken to its end. -/
theorem run_total_of_meets {C : I → S → Prop} {P : S → Prop}
    (hstep : ∀ i s, C i s → P s → ∃ s' o, m.step i s = some (s', o) ∧ P s')
    {s : S} {is : List I} (hs : P s) (hC : m.Meets C s is) :
    ∃ s' os, m.run s is = some (s', os) ∧ P s' := by
  induction is generalizing s with
  | nil => exact ⟨s, [], rfl, hs⟩
  | cons i rest ih =>
    obtain ⟨s₁, o, h₁, hs₁⟩ := hstep i s hC.1 hs
    obtain ⟨s', os, hrun, hs'⟩ := ih hs₁ (hC.2 s₁ o h₁)
    exact ⟨s', o :: os, by simp [run, h₁, hrun], hs'⟩

/-- What every step keeps, a run keeps. -/
theorem run_invariant {P : S → Prop}
    (hstep : ∀ i s s' o, P s → m.step i s = some (s', o) → P s')
    {s s' : S} {is : List I} {os : List O} (hs : P s)
    (hrun : m.run s is = some (s', os)) : P s' :=
  m.run_invariant_of_meets (C := fun _ _ => True) (fun i s s' o _ => hstep i s s' o) hs
    (m.meets_of_forall (fun _ _ => trivial) s is) hrun

end Machine

/-- Under `C`, every step of `m` is a step of `n` with the same output. -/
structure Simulation {I S T O : Type} (m : Machine I S O) (n : Machine I T O)
    (C : I → S → Prop) where
  Rel : S → T → Prop
  step : ∀ i s t s' o, C i s → Rel s t → m.step i s = some (s', o) →
    ∃ t', n.step i t = some (t', o) ∧ Rel s' t'

/-- A run whose steps are under `C` is a run of the abstract machine, output for output. -/
theorem Simulation.run {I S T O : Type} {m : Machine I S O} {n : Machine I T O}
    {C : I → S → Prop} (r : Simulation m n C) {s s' : S} {t : T} {is : List I} {os : List O}
    (hs : r.Rel s t) (hC : m.Meets C s is) (hrun : m.run s is = some (s', os)) :
    ∃ t', n.run t is = some (t', os) ∧ r.Rel s' t' := by
  induction is generalizing s t os with
  | nil =>
    simp only [Machine.run, Option.some.injEq, Prod.mk.injEq] at hrun
    obtain ⟨rfl, rfl⟩ := hrun
    exact ⟨t, rfl, hs⟩
  | cons i rest ih =>
    obtain ⟨s₁, o, os', h₁, h₂, rfl⟩ := m.run_cons hrun
    obtain ⟨t₁, hn, hrel⟩ := r.step i s t s₁ o hC.1 hs h₁
    obtain ⟨t', hrun', hrel'⟩ := ih hrel (hC.2 s₁ o h₁) h₂
    exact ⟨t', by simp [Machine.run, hn, hrun'], hrel'⟩

/-- A machine that takes every step of an abstract one under `C`, and answers as it says, takes
every run of it whose steps are under `C`. -/
theorem Machine.run_of_abstract_of_meets {I S T O Q : Type} {m : Machine I S O}
    {n : Machine I T Q} {Rel : S → T → Prop} {Answers : O → Q → Prop} {C : I → T → Prop}
    (hstep : ∀ i s t t' q, C i t → Rel s t → n.step i t = some (t', q) →
      ∃ s' o, m.step i s = some (s', o) ∧ Answers o q ∧ Rel s' t')
    {s : S} {t t' : T} {is : List I} {qs : List Q} (hs : Rel s t) (hC : n.Meets C t is)
    (hrun : n.run t is = some (t', qs)) :
    ∃ s' os, m.run s is = some (s', os) ∧ List.Forall₂ Answers os qs ∧ Rel s' t' := by
  induction is generalizing s t qs with
  | nil =>
    simp only [run, Option.some.injEq, Prod.mk.injEq] at hrun
    obtain ⟨rfl, rfl⟩ := hrun
    exact ⟨s, [], rfl, .nil, hs⟩
  | cons i rest ih =>
    obtain ⟨t₁, q, qs', h₁, h₂, rfl⟩ := n.run_cons hrun
    obtain ⟨s₁, o, hm, hanswer, hrel⟩ := hstep i s t t₁ q hC.1 hs h₁
    obtain ⟨s', os, hrun', hanswers, hrel'⟩ := ih hrel (hC.2 t₁ q h₁) h₂
    exact ⟨s', o :: os, by simp [run, hm, hrun'], .cons hanswer hanswers, hrel'⟩

/-- A machine that takes every step of an abstract one, and answers as it says, takes every run
of it. -/
theorem Machine.run_of_abstract {I S T O Q : Type} {m : Machine I S O} {n : Machine I T Q}
    {Rel : S → T → Prop} {Answers : O → Q → Prop}
    (hstep : ∀ i s t t' q, Rel s t → n.step i t = some (t', q) →
      ∃ s' o, m.step i s = some (s', o) ∧ Answers o q ∧ Rel s' t')
    {s : S} {t t' : T} {is : List I} {qs : List Q} (hs : Rel s t)
    (hrun : n.run t is = some (t', qs)) :
    ∃ s' os, m.run s is = some (s', os) ∧ List.Forall₂ Answers os qs ∧ Rel s' t' :=
  run_of_abstract_of_meets (C := fun _ _ => True) (fun i s t t' q _ => hstep i s t t' q) hs
    (n.meets_of_forall (fun _ _ => trivial) t is) hrun

/-- Two machines that under `C` take every step with the same output take every run whose steps
are under `C`. -/
theorem Machine.run_both_of_meets {I S T O : Type} {m : Machine I S O} {n : Machine I T O}
    {C : I → S → Prop} {Rel : S → T → Prop}
    (hstep : ∀ i s t, C i s → Rel s t → ∃ s' t' o, m.step i s = some (s', o) ∧
      n.step i t = some (t', o) ∧ Rel s' t')
    {s : S} {t : T} {is : List I} (hs : Rel s t) (hC : m.Meets C s is) :
    ∃ s' t' os, m.run s is = some (s', os) ∧ n.run t is = some (t', os) ∧ Rel s' t' := by
  induction is generalizing s t with
  | nil => exact ⟨s, t, [], rfl, rfl, hs⟩
  | cons i rest ih =>
    obtain ⟨s₁, t₁, o, hm, hn, hrel⟩ := hstep i s t hC.1 hs
    obtain ⟨s', t', os, hrun, hrun', hrel'⟩ := ih hrel (hC.2 s₁ o hm)
    exact ⟨s', t', o :: os, by simp [run, hm, hrun], by simp [run, hn, hrun'], hrel'⟩
