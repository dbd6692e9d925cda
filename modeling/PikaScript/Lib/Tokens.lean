import Mathlib.Data.List.DropRight
import Mathlib.Tactic.Common

/-! Lists as tokens with a separator between them.

A front of such a list is some of its tokens, from the first one on. `search` tries the fronts
from the longest one down, one `pop` at a time; if one of them is looked for, it finds the
longest (`search_longest`). -/
namespace Tokens
variable {α : Type} [DecidableEq α] (sep : α)

/-- The list without its last token; the only one stays. -/
def pop (l : List α) : List α :=
  if sep ∈ l then (l.rdropWhile (· ≠ sep)).dropLast else l

/-- Some of the tokens of a list, from the first one on. -/
def Front (p l : List α) : Prop := p = l ∨ p ++ [sep] <+: l

/-- The first of a list and its fronts, from the longest one down, that is looked for. -/
def search (P : List α → Bool) : Nat → List α → List α
  | 0, l => l
  | rounds + 1, l => if P l then l else search P rounds (pop sep l)

/-- The longest front that is looked for. -/
structure Longest (P : List α → Bool) (l p : List α) : Prop where
  front : Front sep p l
  holds : P p
  le : ∀ q, Front sep q l → P q → q.length ≤ p.length

variable {sep} {P : List α → Bool} {l p t : List α}

theorem rdropWhile_append (h : sep ∉ t) : (p ++ sep :: t).rdropWhile (· ≠ sep) = p ++ [sep] := by
  induction t using List.reverseRecOn with
  | nil => exact List.rdropWhile_concat_neg _ _ _ (by simp)
  | append_singleton t x ih =>
    rw [List.mem_append, List.mem_singleton, not_or] at h
    rw [← List.cons_append, ← List.append_assoc,
      List.rdropWhile_concat_pos _ _ _ (by simpa using Ne.symm h.2), ih h.1]

theorem pop_append (h : sep ∉ t) : pop sep (p ++ sep :: t) = p := by
  rw [pop, if_pos (by simp), rdropWhile_append h, List.dropLast_concat]

theorem pop_of_not_mem (h : sep ∉ l) : pop sep l = l := if_neg h

omit [DecidableEq α] in
/-- The last separator of a list. -/
theorem exists_last (h : sep ∈ l) : ∃ p t, l = p ++ sep :: t ∧ sep ∉ t := by
  obtain ⟨t, p, hsplit, ht⟩ := List.eq_append_cons_of_mem (List.mem_reverse.mpr h)
  refine ⟨p.reverse, t.reverse, ?_, by rwa [List.mem_reverse]⟩
  rw [← List.reverse_reverse l, hsplit, List.reverse_append, List.reverse_cons,
    List.append_assoc, List.singleton_append]

/-- The last token that is popped. -/
theorem exists_pop (h : sep ∈ l) : ∃ t, l = pop sep l ++ sep :: t ∧ sep ∉ t := by
  obtain ⟨p, t, rfl, ht⟩ := exists_last h
  exact ⟨t, by rw [pop_append ht], ht⟩

theorem count_pop (h : sep ∈ l) : (pop sep l).count sep + 1 = l.count sep := by
  obtain ⟨p, t, rfl, ht⟩ := exists_last h
  rw [pop_append ht, List.count_append, List.count_cons_self, List.count_eq_zero.mpr ht]

theorem length_pop_le : (pop sep l).length ≤ l.length := by
  by_cases h : sep ∈ l
  · obtain ⟨p, t, rfl, ht⟩ := exists_last h
    rw [pop_append ht, List.length_append]
    exact Nat.le_add_right _ _
  · rw [pop_of_not_mem h]

/-! ### Fronts -/

omit [DecidableEq α] in
theorem Front.length_le (h : Front sep p l) : p.length ≤ l.length := by
  rcases h with rfl | h
  · exact Nat.le_refl _
  · exact (List.prefix_append p [sep]).length_le.trans h.length_le

omit [DecidableEq α] in
/-- The only front of one token is the token. -/
theorem front_of_not_mem (h : sep ∉ l) : Front sep p l ↔ p = l := by
  refine ⟨fun hp => hp.resolve_right fun hprefix => h ?_, .inl⟩
  exact hprefix.subset (List.mem_append_right _ (List.mem_singleton_self _))

/-- The fronts of a list are the list and the fronts of what a `pop` leaves. -/
theorem front_of_mem (h : sep ∈ l) : Front sep p l ↔ p = l ∨ Front sep p (pop sep l) := by
  obtain ⟨s, t, rfl, ht⟩ := exists_last h
  rw [pop_append ht, Front]
  have hs : s ++ [sep] <+: s ++ sep :: t := ⟨t, by simp⟩
  refine or_congr_right ⟨fun hp => ?_, ?_⟩
  · rcases List.prefix_or_prefix_of_prefix hp hs with hle | hle
    · rcases List.prefix_concat_iff.mp hle with heq | hle
      · exact .inl (List.append_cancel_right heq)
      · exact .inr hle
    · rcases List.prefix_concat_iff.mp hle with heq | ⟨u, rfl⟩
      · exact .inl (List.append_cancel_right heq.symm)
      · -- a separator behind the last one
        have hu : u ++ [sep] <+: t := by
          rw [← List.prefix_append_right_inj (s ++ [sep])]
          simpa using hp
        exact absurd (hu.subset (by simp)) ht
  · rintro (rfl | hp)
    · exact hs
    · exact hp.trans (List.prefix_append _ _)

theorem Front.trans_pop (h : Front sep p (pop sep l)) : Front sep p l := by
  by_cases hmem : sep ∈ l
  · exact (front_of_mem hmem).mpr (.inr h)
  · rwa [pop_of_not_mem hmem] at h

/-! ### The search -/

/-- **The search finds the longest front that is looked for.** -/
theorem search_longest {rounds : Nat} (hrounds : l.count sep < rounds)
    (h : ∃ q, Front sep q l ∧ P q) : Longest sep P l (search sep P rounds l) := by
  induction rounds generalizing l with
  | zero => omega
  | succ rounds ih =>
    rw [search]
    split
    · rename_i hl
      exact ⟨.inl rfl, hl, fun q hq _ => hq.length_le⟩
    · rename_i hl
      obtain ⟨q, hq, hP⟩ := h
      by_cases hmem : sep ∈ l
      · have hcount := count_pop hmem
        have hfront : ∀ q, Front sep q l → P q → Front sep q (pop sep l) := by
          intro q hq hP
          refine ((front_of_mem hmem).mp hq).resolve_left ?_
          rintro rfl
          exact hl hP
        have hlongest := ih (by omega) ⟨q, hfront q hq hP, hP⟩
        exact ⟨hlongest.front.trans_pop, hlongest.holds, fun q hq hP =>
          hlongest.le q (hfront q hq hP) hP⟩
      · obtain rfl : q = l := (front_of_not_mem hmem).mp hq
        exact absurd hP hl

end Tokens
