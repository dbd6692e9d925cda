import Mathlib.Data.List.Nodup
import Mathlib.Data.List.Perm.Subperm
import Mathlib.Data.Nat.Init
import Mathlib.Tactic.Common

/-! Worklists.

A worklist is what has been met so far, newest first, and what of it is done. The
first thing that is not done is visited next: it is done then, and its successors
are met. When only finitely many things can be reached, the visits come to an end,
and have been to everything that can be reached, once each.

A worklist may be unable to see that some things have been met before. Such a
thing is put back to not done when it is met again. The visits are the same as long
as that happens to nothing that has been visited (`run_eq_or_stale`); from then on
one thing is visited twice, or there is no end (`once_iff`). -/

/-- What has been met, newest first, and whether it is done. -/
abbrev Worklist (α : Type) := List (α × Bool)

namespace Worklist
variable {α : Type}

/-- The first thing that is not done. -/
def next (l : Worklist α) : Option α := (l.find? fun p => !p.2).map Prod.fst

/-- What can be reached from `start`. -/
inductive Reach (succ : α → List α) (start : α) : α → Prop where
  | start : Reach succ start start
  | step {a b : α} : Reach succ start a → b ∈ succ a → Reach succ start b

/-- What the visits keep when everything met is seen again. -/
structure Visited (succ : α → List α) (start : α) (l : Worklist α) (visits : List α) : Prop where
  mem_start : start ∈ l.map Prod.fst
  nodup : (l.map Prod.fst).Nodup
  visits_nodup : visits.Nodup
  done : ∀ a, (a, true) ∈ l ↔ a ∈ visits
  reach : ∀ a ∈ l.map Prod.fst, Reach succ start a
  closed : ∀ a ∈ visits, ∀ b ∈ succ a, b ∈ l.map Prod.fst

/-- Nothing that would be forgotten is met at its own visit or behind it. -/
def NoReturn (succ : α → List α) (forgets : α → Bool) (visits : List α) : Prop :=
  ∀ pre a post, visits = pre ++ a :: post → ∀ b ∈ succ a, forgets b → b ∉ pre ++ [a]

section
variable {succ : α → List α} {forgets : α → Bool} {start a b : α} {l : Worklist α} {visits : List α}

theorem next_eq_some (h : next l = some a) : (a, false) ∈ l := by
  obtain ⟨p, hp, rfl⟩ := Option.map_eq_some_iff.mp h
  have hdone : p.2 = false := by simpa using List.find?_some hp
  exact hdone ▸ List.mem_of_find?_eq_some hp

theorem next_eq_none (h : next l = none) : ∀ p ∈ l, p.2 = true := fun p hp => by
  simpa using List.find?_eq_none.mp (Option.map_eq_none_iff.mp h) p hp

theorem visited_start : Visited succ start [(start, false)] [] where
  mem_start := List.mem_singleton_self _
  nodup := List.nodup_singleton _
  visits_nodup := List.nodup_nil
  done a := by simp
  reach a ha := List.mem_singleton.mp ha ▸ .start
  closed a ha := nomatch ha

theorem Visited.mem_fst (h : Visited succ start l visits) (ha : a ∈ visits) :
    a ∈ l.map Prod.fst := List.mem_map_of_mem ((h.done a).mpr ha)

/-- What has been met and is not done has not been visited. -/
theorem Visited.not_mem (h : Visited succ start l visits) (ha : (a, false) ∈ l) : a ∉ visits := by
  rw [← h.done]
  intro hdone
  cases List.inj_on_of_nodup_map h.nodup hdone ha rfl

/-- What is left when there is nothing more to visit is everything that can be reached. -/
theorem Visited.mem_iff (h : Visited succ start l visits) (hnext : next l = none) :
    a ∈ visits ↔ Reach succ start a := by
  have hdone {b : α} (hb : b ∈ l.map Prod.fst) : b ∈ visits := by
    obtain ⟨p, hp, rfl⟩ := List.mem_map.mp hb
    exact (h.done p.1).mp (next_eq_none hnext p hp ▸ hp)
  constructor
  · intro ha
    exact h.reach a (h.mem_fst ha)
  · intro ha
    induction ha with
    | start => exact hdone h.mem_start
    | step _ hb ih => exact hdone (h.closed _ ih _ hb)

/-- The condition can be read off the visits one by one. -/
theorem noReturn_iff : NoReturn succ forgets visits ↔
    ∀ i : Fin visits.length, ∀ b ∈ succ visits[i], forgets b → b ∉ visits.take (i + 1) := by
  constructor
  · intro h i b hb hforgets
    rw [← List.take_append_getElem i.isLt]
    refine h _ _ (visits.drop (i + 1)) ?_ b hb hforgets
    rw [← List.drop_eq_getElem_cons i.isLt, List.take_append_drop]
  · intro h pre a post hpre b hb hforgets
    have hlt : pre.length < visits.length := by
      rw [hpre, List.length_append, List.length_cons]
      omega
    have hget : visits[pre.length] = a := by simp [hpre]
    have htake : visits.take (pre.length + 1) = pre ++ [a] := by
      rw [← List.take_append_getElem hlt, hget, hpre, List.take_left]
    exact htake ▸ h ⟨pre.length, hlt⟩ b (show b ∈ succ visits[pre.length] by rwa [hget]) hforgets

instance [DecidableEq α] : Decidable (NoReturn succ forgets visits) :=
  decidable_of_iff _ noReturn_iff.symm

theorem NoReturn.of_prefix (h : NoReturn succ forgets (visits ++ [a])) :
    NoReturn succ forgets visits := fun pre c post hpre =>
  h pre c (post ++ [a]) (by rw [hpre, List.append_assoc, List.cons_append])

theorem noReturn_append (h : NoReturn succ forgets visits)
    (hmeet : ∀ b ∈ succ a, forgets b → b ∉ visits ++ [a]) :
    NoReturn succ forgets (visits ++ [a]) := by
  intro pre c post hpre
  rcases List.eq_nil_or_concat post with rfl | ⟨post', d, rfl⟩
  · obtain ⟨rfl, hc⟩ := List.append_inj' hpre rfl
    cases hc
    exact hmeet
  · rw [List.concat_eq_append, ← List.cons_append, ← List.append_assoc] at hpre
    exact h pre c post' (List.append_inj' hpre rfl).1

end

variable [DecidableEq α] (succ : α → List α) (forgets : α → Bool)

/-- Mark `a` as done or not, where it stands. -/
def mark (a : α) (done : Bool) (l : Worklist α) : Worklist α :=
  l.map fun p => if p.1 = a then (a, done) else p

/-- Meet `a`. What is forgotten is put back when it is met again. -/
def meet (l : Worklist α) (a : α) : Worklist α :=
  if a ∈ l.map Prod.fst then if forgets a then mark a false l else l
  else (a, false) :: l

def visit (a : α) (l : Worklist α) : Worklist α := (succ a).foldl (meet forgets) (mark a true l)

/-- The worklist and the visits, in order, after `n` steps. -/
def run (start : α) : Nat → Worklist α × List α
  | 0 => ([(start, false)], [])
  | n + 1 =>
    match next (run start n).1 with
    | none => run start n
    | some a => (visit succ forgets a (run start n).1, (run start n).2 ++ [a])

/-- The run that forgets nothing. -/
abbrev fullRun (start : α) (n : Nat) : Worklist α × List α := run succ (fun _ => false) start n

variable {succ forgets} {start a b : α} {done : Bool} {l : Worklist α} {visits : List α}

/-! ### Meeting and marking -/

theorem map_fst_mark : (mark a done l).map Prod.fst = l.map Prod.fst := by
  rw [mark, List.map_map]
  refine List.map_congr_left fun p _ => ?_
  by_cases hp : p.1 = a
  · simp [hp]
  · simp [hp]

theorem mem_mark : (b, done) ∈ mark a true l ↔
    b = a ∧ done = true ∧ a ∈ l.map Prod.fst ∨ b ≠ a ∧ (b, done) ∈ l := by
  induction l with
  | nil => simp [mark]
  | cons p l ih =>
    have hcons : mark a true (p :: l) = (if p.1 = a then (a, true) else p) :: mark a true l := rfl
    rw [hcons, List.mem_cons, ih, List.mem_cons, List.map_cons, List.mem_cons]
    by_cases hp : p.1 = a
    · rw [if_pos hp, Prod.mk.injEq]
      grind
    · rw [if_neg hp]
      grind

theorem mem_mark_of_ne (hb : b ≠ a) (h : (b, done) ∈ l) : (b, done) ∈ mark a true l :=
  mem_mark.mpr (.inr ⟨hb, h⟩)

theorem mem_mark_false (h : (b, false) ∈ l) : (b, false) ∈ mark a false l := by
  refine List.mem_map.mpr ⟨(b, false), h, ?_⟩
  by_cases hb : b = a
  · rw [if_pos hb, hb]
  · rw [if_neg hb]

/-- Nothing changes where everything of that name is marked so already. -/
theorem mark_eq_self (h : ∀ p ∈ l, p.1 = a → p.2 = done) : mark a done l = l := by
  refine (List.map_congr_left fun p hp => ?_).trans (List.map_id l)
  by_cases ha : p.1 = a
  · rw [if_pos ha, ← ha, ← h p hp ha]
    rfl
  · rw [if_neg ha]
    rfl

theorem mem_meet : b ∈ (meet forgets l a).map Prod.fst ↔ b ∈ l.map Prod.fst ∨ b = a := by
  unfold meet
  split
  · have hiff : b ∈ l.map Prod.fst ↔ b ∈ l.map Prod.fst ∨ b = a :=
      ⟨.inl, fun h => h.elim id fun heq => heq ▸ ‹_›⟩
    split
    · rw [map_fst_mark, ← hiff]
    · exact hiff
  · rw [List.map_cons, List.mem_cons, or_comm]

theorem nodup_meet (h : (l.map Prod.fst).Nodup) : ((meet forgets l a).map Prod.fst).Nodup := by
  unfold meet
  split
  · split
    · rw [map_fst_mark]
      exact h
    · exact h
  · exact List.nodup_cons.mpr ⟨‹_›, h⟩

/-- Being met again leaves what is not done so. -/
theorem mem_meet_false (h : (b, false) ∈ l) : (b, false) ∈ meet forgets l a := by
  unfold meet
  split
  · split
    · exact mem_mark_false h
    · exact h
  · exact List.mem_cons_of_mem _ h

theorem mem_meet_true : (b, true) ∈ meet (fun _ => false) l a ↔ (b, true) ∈ l := by
  unfold meet
  split
  · rfl
  · simp

theorem mem_foldl_meet (as : List α) :
    b ∈ (as.foldl (meet forgets) l).map Prod.fst ↔ b ∈ l.map Prod.fst ∨ b ∈ as := by
  induction as generalizing l with
  | nil => simp
  | cons a as ih => rw [List.foldl_cons, ih, mem_meet, List.mem_cons, or_assoc]

theorem nodup_foldl_meet (as : List α) (h : (l.map Prod.fst).Nodup) :
    ((as.foldl (meet forgets) l).map Prod.fst).Nodup := by
  induction as generalizing l with
  | nil => exact h
  | cons a as ih => exact ih (nodup_meet h)

theorem mem_foldl_meet_false (as : List α) (h : (b, false) ∈ l) :
    (b, false) ∈ as.foldl (meet forgets) l := by
  induction as generalizing l with
  | nil => exact h
  | cons a as ih => exact ih (mem_meet_false h)

theorem mem_foldl_meet_true (as : List α) :
    (b, true) ∈ as.foldl (meet fun _ => false) l ↔ (b, true) ∈ l := by
  induction as generalizing l with
  | nil => rfl
  | cons a as ih => rw [List.foldl_cons, ih, mem_meet_true]

/-! ### Visits that see everything again -/

theorem Visited.visit (h : Visited succ start l visits) (ha : next l = some a) :
    Visited succ start (visit succ (fun _ => false) a l) (visits ++ [a]) := by
  have hmem : a ∈ l.map Prod.fst := List.mem_map_of_mem (next_eq_some ha)
  have hnodup : ((mark a true l).map Prod.fst).Nodup := by
    rw [map_fst_mark]
    exact h.nodup
  have hfst : ∀ b, b ∈ (Worklist.visit succ (fun _ => false) a l).map Prod.fst ↔
      b ∈ l.map Prod.fst ∨ b ∈ succ a := by
    intro b
    rw [Worklist.visit, mem_foldl_meet, map_fst_mark]
  refine ⟨(hfst _).mpr (.inl h.mem_start), nodup_foldl_meet _ hnodup, ?_, ?_, ?_, ?_⟩
  · rw [List.nodup_append_comm]
    exact List.nodup_cons.mpr ⟨h.not_mem (next_eq_some ha), h.visits_nodup⟩
  · intro b
    rw [Worklist.visit, mem_foldl_meet_true, mem_mark, h.done, List.mem_append,
      List.mem_singleton]
    by_cases hb : b = a
    · simp [hb, hmem]
    · simp [hb]
  · intro b hb
    rcases (hfst b).mp hb with hb | hb
    · exact h.reach b hb
    · exact .step (h.reach a hmem) hb
  · intro b hb c hc
    rcases List.mem_append.mp hb with hb | hb
    · exact (hfst c).mpr (.inl (h.closed b hb c hc))
    · cases List.mem_singleton.mp hb
      exact (hfst c).mpr (.inr hc)

theorem visited_run (succ : α → List α) (start : α) (n : Nat) :
    Visited succ start (fullRun succ start n).1 (fullRun succ start n).2 := by
  induction n with
  | zero => exact visited_start
  | succ n ih =>
    unfold fullRun run
    split
    · exact ih
    · exact ih.visit ‹_›

/-! ### Steps of a run -/

theorem run_succ_of_none {n : Nat} (h : next (run succ forgets start n).1 = none) :
    run succ forgets start (n + 1) = run succ forgets start n := by
  rw [run, h]

theorem run_succ_of_some {n : Nat} (h : next (run succ forgets start n).1 = some a) :
    run succ forgets start (n + 1) =
      (visit succ forgets a (run succ forgets start n).1,
        (run succ forgets start n).2 ++ [a]) := by
  rw [run, h]

/-- A run stays where it has come to its end. -/
theorem run_eq_of_none {n m : Nat} (h : next (run succ forgets start n).1 = none) (hm : n ≤ m) :
    run succ forgets start m = run succ forgets start n := by
  induction m, hm using Nat.le_induction with
  | base => rfl
  | succ m _ ih => rw [run_succ_of_none (ih ▸ h), ih]

/-- A run that has not come to its end has made as many visits as steps. -/
theorem length_run (start : α) (n : Nat) :
    next (run succ forgets start n).1 = none ∨ (run succ forgets start n).2.length = n := by
  induction n with
  | zero => exact .inr rfl
  | succ n ih =>
    cases hnext : next (run succ forgets start n).1 with
    | none =>
      rw [run_succ_of_none hnext]
      exact .inl hnext
    | some a =>
      rw [run_succ_of_some hnext, List.length_append, ih.resolve_left (by simp [hnext])]
      exact .inr rfl

/-- **Visits come to an end** when what can be reached is finite. -/
theorem next_run_eq_none (all : List α) (h : ∀ a, Reach succ start a → a ∈ all) {n : Nat}
    (hn : all.length < n) : next (fullRun succ start n).1 = none := by
  refine (length_run start n).resolve_right fun hlength => ?_
  change (fullRun succ start n).2.length = n at hlength
  have hvisited := visited_run succ start n
  have hsub : (fullRun succ start n).2 ⊆ all := fun a ha =>
    h a (hvisited.reach a (hvisited.mem_fst ha))
  have := (hvisited.visits_nodup.subperm hsub).length_le
  omega

/-! ### Visits that forget -/

/-- `b` has been visited, and has been visited again or is to be. -/
def Stale (b : α) (s : Worklist α × List α) : Prop :=
  2 ≤ s.2.count b ∨ 1 ≤ s.2.count b ∧ (b, false) ∈ s.1

theorem Stale.step {n : Nat} (h : Stale b (run succ forgets start n)) :
    Stale b (run succ forgets start (n + 1)) := by
  cases hnext : next (run succ forgets start n).1 with
  | none => exact run_succ_of_none hnext ▸ h
  | some a =>
    rw [run_succ_of_some hnext]
    have hcount : ((run succ forgets start n).2 ++ [a]).count b =
        (run succ forgets start n).2.count b + [a].count b := List.count_append
    rcases h with h | ⟨h, hmem⟩
    · exact .inl (by dsimp only; omega)
    · by_cases hb : b = a
      · rw [hb, List.count_singleton_self] at hcount
        exact .inl (by dsimp only; rw [hb]; rw [hb] at h; omega)
      · refine .inr ⟨by dsimp only; omega, mem_foldl_meet_false _ ?_⟩
        exact mem_mark_of_ne hb hmem

/-- What is forgotten may be met again as long as it is not done. -/
theorem foldl_meet_eq (as : List α)
    (h : ∀ b ∈ as, forgets b → ∀ p ∈ l, p.1 = b → p.2 = false) :
    as.foldl (meet forgets) l = as.foldl (meet fun _ => false) l := by
  induction as generalizing l with
  | nil => rfl
  | cons a as ih =>
    have hmeet : meet forgets l a = meet (fun _ => false) l a := by
      unfold meet
      by_cases ha : forgets a
      · rw [if_pos ha, mark_eq_self (h a List.mem_cons_self ha)]
        rfl
      · rw [if_neg ha]
        rfl
    rw [List.foldl_cons, List.foldl_cons, hmeet]
    refine ih fun b hb hforgets p hp heq => ?_
    obtain ⟨c, done⟩ := p
    cases done with
    | false => rfl
    | true => exact h b (List.mem_cons_of_mem _ hb) hforgets _ (mem_meet_true.mp hp) heq

theorem visit_eq (h : Visited succ start l visits) (hnext : next l = some a)
    (hmeet : ∀ b ∈ succ a, forgets b → b ∉ visits ++ [a]) :
    visit succ forgets a l = visit succ (fun _ => false) a l := by
  refine foldl_meet_eq _ fun b hb hforgets p hp heq => ?_
  obtain ⟨c, done⟩ := p
  cases done with
  | false => rfl
  | true =>
    cases (show c = b from heq)
    refine (hmeet b hb hforgets (List.mem_append.mpr ?_)).elim
    rcases mem_mark.mp hp with ⟨rfl, -, -⟩ | ⟨-, hdone⟩
    · exact .inr List.mem_cons_self
    · exact .inl ((h.done b).mp hdone)

/-- What is forgotten and met again when it has been visited is to be visited again. -/
theorem stale_visit (h : Visited succ start l visits) (hnext : next l = some a)
    (hb : b ∈ succ a) (hforgets : forgets b) (hmem : b ∈ visits ++ [a]) :
    Stale b (visit succ forgets a l, visits ++ [a]) := by
  refine .inr ⟨List.count_pos_iff.mpr hmem, ?_⟩
  have hfst : b ∈ (mark a true l).map Prod.fst := by
    rw [map_fst_mark]
    rcases List.mem_append.mp hmem with hb | hb
    · exact h.mem_fst hb
    · rw [List.mem_singleton.mp hb]
      exact List.mem_map_of_mem (next_eq_some hnext)
  obtain ⟨as, as', has⟩ := List.append_of_mem hb
  rw [visit, has, List.foldl_append, List.foldl_cons]
  refine mem_foldl_meet_false as' ?_
  have hmet : b ∈ (as.foldl (meet forgets) (mark a true l)).map Prod.fst :=
    (mem_foldl_meet as).mpr (.inl hfst)
  rw [meet, if_pos hmet, if_pos hforgets]
  obtain ⟨p, hp, rfl⟩ := List.mem_map.mp hmet
  exact List.mem_map.mpr ⟨p, hp, if_pos rfl⟩

/-- **A run that forgets is the run that forgets nothing** until something it has visited
is to be visited again. -/
theorem run_eq_or_stale (forgets : α → Bool) (start : α) (n : Nat) :
    run succ forgets start n = fullRun succ start n ∧
        NoReturn succ forgets (fullRun succ start n).2 ∨
      ¬NoReturn succ forgets (fullRun succ start n).2 ∧
        ∃ b, Reach succ start b ∧ Stale b (run succ forgets start n) := by
  induction n with
  | zero => exact .inl ⟨rfl, fun pre a post h => by simp [fullRun, run] at h⟩
  | succ n ih =>
    cases hnext : next (fullRun succ start n).1 with
    | none =>
      have hfull : fullRun succ start (n + 1) = fullRun succ start n := run_succ_of_none hnext
      rw [hfull]
      rcases ih with ⟨heq, h⟩ | ⟨hreturn, b, hb, hstale⟩
      · exact .inl ⟨run_succ_of_none (heq ▸ hnext) ▸ heq, h⟩
      · exact .inr ⟨hreturn, b, hb, hstale.step⟩
    | some a =>
      have hfull : fullRun succ start (n + 1) = _ := run_succ_of_some hnext
      have hvisited := visited_run succ start n
      rcases ih with ⟨heq, h⟩ | ⟨hreturn, b, hb, hstale⟩
      · rw [hfull, run_succ_of_some (heq ▸ hnext), heq]
        by_cases hmeet : ∀ b ∈ succ a, forgets b → b ∉ (fullRun succ start n).2 ++ [a]
        · exact .inl ⟨by rw [visit_eq hvisited hnext hmeet], noReturn_append h hmeet⟩
        · refine .inr ⟨fun h => hmeet (h _ a [] rfl), ?_⟩
          push Not at hmeet
          obtain ⟨b, hb, hforgets, hmem⟩ := hmeet
          have ha : Reach succ start a :=
            hvisited.reach a (List.mem_map_of_mem (next_eq_some hnext))
          exact ⟨b, .step ha hb, stale_visit hvisited hnext hb hforgets hmem⟩
      · refine .inr ⟨?_, b, hb, hstale.step⟩
        rw [hfull]
        exact fun h => hreturn h.of_prefix

/-- A run in which something is to be visited again does not end with one visit to each. -/
theorem not_stale_of_once {n : Nat} (hnext : next (run succ forgets start n).1 = none)
    (honce : (run succ forgets start n).2.count b = 1) (m : Nat) :
    ¬Stale b (run succ forgets start m) := by
  have hend (h : Stale b (run succ forgets start n)) : False := by
    rcases h with h | ⟨-, h⟩
    · omega
    · cases next_eq_none hnext _ h
  intro hstale
  rcases Nat.le_total n m with hm | hm
  · exact hend (run_eq_of_none hnext hm ▸ hstale)
  · exact hend (Nat.le_induction hstale (fun _ _ h => h.step) n hm)

/-- **One visit to each.** A run that forgets ends after one visit to everything that can be
reached, exactly if the run that forgets nothing meets nothing again that would be
forgotten. -/
theorem once_iff {m : Nat} (hend : next (fullRun succ start m).1 = none) :
    (∃ n, next (run succ forgets start n).1 = none ∧
      ∀ b, Reach succ start b → (run succ forgets start n).2.count b = 1) ↔
    NoReturn succ forgets (fullRun succ start m).2 := by
  constructor
  · intro ⟨n, hnext, honce⟩
    rcases run_eq_or_stale forgets start m with ⟨-, h⟩ | ⟨-, b, hb, hstale⟩
    · exact h
    · exact (not_stale_of_once hnext (honce b hb) m hstale).elim
  · intro h
    have heq := ((run_eq_or_stale forgets start m).resolve_right fun hstale => hstale.1 h).1
    have hvisited := visited_run succ start m
    refine ⟨m, heq ▸ hend, fun b hb => ?_⟩
    rw [heq]
    exact List.count_eq_one_of_mem hvisited.visits_nodup ((hvisited.mem_iff hend).mpr hb)

end Worklist
