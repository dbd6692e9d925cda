import Mathlib.Data.List.Infix
import Mathlib.Tactic.Common

/-! Occurrences of a list in another one, and the pieces between them.

A list occurs at an index when it is a prefix of what is there. The pieces of a list are what
is left when some occurrences of a separator are taken out of it, from the left on. -/
namespace Occurrence
variable {α : Type}

/-- The list occurs at an index of the other one. -/
def At (needle hay : List α) (k : Nat) : Prop := needle <+: hay.drop k

instance [DecidableEq α] (needle hay : List α) (k : Nat) : Decidable (At needle hay k) :=
  inferInstanceAs (Decidable (needle <+: hay.drop k))

variable {needle hay : List α}

theorem At.occurs {k : Nat} (h : At needle hay k) : needle <:+: hay :=
  h.isInfix.trans (List.drop_suffix k hay).isInfix

theorem occurs_iff_exists_at : needle <:+: hay ↔ ∃ k, At needle hay k := by
  refine ⟨fun h => ?_, fun ⟨k, h⟩ => h.occurs⟩
  obtain ⟨t, hprefix, hsuffix⟩ := List.infix_iff_prefix_suffix.mp h
  refine ⟨hay.length - t.length, ?_⟩
  rw [At, ← List.suffix_iff_eq_drop.mp hsuffix]
  exact hprefix

theorem At.add_length_le {k : Nat} (h : At needle hay k) (hk : k ≤ hay.length) :
    k + needle.length ≤ hay.length := by
  have hle := h.length_le
  rw [List.length_drop] at hle
  omega

/-- An occurrence is read entry by entry. -/
theorem at_iff_getElem? {k : Nat} :
    At needle hay k ↔ ∀ i < needle.length, needle[i]? = hay[k + i]? := by
  rw [At, List.prefix_iff_getElem?]
  refine forall_congr' fun i => forall_congr' fun hi => ?_
  rw [List.getElem?_drop, List.getElem?_eq_getElem hi, eq_comm]

/-- A list that does not occur at an index occurs behind it. -/
theorem occurs_drop_iff {k : Nat} (h : ¬At needle hay k) :
    needle <:+: hay.drop k ↔ needle <:+: hay.drop (k + 1) := by
  constructor
  · intro hoccurs
    obtain ⟨i, hi⟩ := occurs_iff_exists_at.mp hoccurs
    rw [At, List.drop_drop] at hi
    cases i with
    | zero => exact absurd hi h
    | succ i =>
      refine occurs_iff_exists_at.mpr ⟨i, ?_⟩
      rw [At, List.drop_drop]
      rwa [show k + (i + 1) = k + 1 + i by omega] at hi
  · intro hoccurs
    rw [show hay.drop (k + 1) = (hay.drop k).drop 1 by rw [List.drop_drop]] at hoccurs
    exact hoccurs.trans (List.drop_suffix 1 _).isInfix

/-! ### Pieces -/

/-- The pieces of a list when occurrences of the separator are taken out, each one the first
of what is left. -/
inductive Pieces (sep : List α) : List α → List (List α) → Prop where
  | last (xs : List α) : Pieces sep xs [xs]
  | cut {item tail : List α} {items : List (List α)}
      (first : ∀ k < item.length, ¬At sep (item ++ sep ++ tail) k)
      (rest : Pieces sep tail items) : Pieces sep (item ++ sep ++ tail) (item :: items)

variable {sep xs : List α} {items : List (List α)}

theorem Pieces.ne_nil (h : Pieces sep xs items) : items ≠ [] := by
  cases h with
  | last | cut => exact List.cons_ne_nil _ _

/-- The pieces joined with the separator are the list again. -/
theorem Pieces.intercalate_eq (h : Pieces sep xs items) : sep.intercalate items = xs := by
  induction h with
  | last xs => simp
  | @cut item tail items first rest ih =>
    obtain ⟨next, others, rfl⟩ := List.exists_cons_of_ne_nil rest.ne_nil
    rw [List.intercalate_cons_cons, ih]

/-- No piece before the last one contains the separator. -/
theorem Pieces.not_occurs (h : Pieces sep xs items) (hsep : sep ≠ []) :
    ∀ item ∈ items.dropLast, ¬sep <:+: item := by
  induction h with
  | last xs => simp
  | @cut item tail items first rest ih =>
    rw [List.dropLast_cons_of_ne_nil rest.ne_nil]
    intro piece hpiece
    rcases List.mem_cons.mp hpiece with rfl | hpiece
    · intro hoccurs
      obtain ⟨k, hk⟩ := occurs_iff_exists_at.mp hoccurs
      have hpos : 0 < sep.length := List.length_pos_iff.mpr hsep
      have hlt : k < piece.length := by
        have hle := hk.length_le
        rw [List.length_drop] at hle
        omega
      apply first k hlt
      rw [At, List.append_assoc, List.drop_append_of_le_length hlt.le]
      exact hk.trans (List.prefix_append _ _)
    · exact ih piece hpiece

/-- A single piece is the whole list. -/
theorem Pieces.eq_of_singleton {item : List α} (h : Pieces sep xs [item]) : item = xs := by
  cases h with
  | last => rfl
  | cut first rest => exact absurd rfl rest.ne_nil

/-- A list with more than one piece contains the separator. -/
theorem Pieces.occurs {item : List α} (h : Pieces sep xs (item :: items)) (hitems : items ≠ []) :
    sep <:+: xs := by
  cases h with
  | last => exact absurd rfl hitems
  | cut first rest => exact List.infix_append _ _ _

/-- **There is one way to take every separator out.** -/
theorem Pieces.unique {items' : List (List α)} (h : Pieces sep xs items)
    (h' : Pieces sep xs items') (hclean : ∀ item ∈ items, ¬sep <:+: item)
    (hclean' : ∀ item ∈ items', ¬sep <:+: item) : items = items' := by
  induction h generalizing items' with
  | last xs =>
    have hxs := hclean xs (List.mem_singleton_self xs)
    cases h' with
    | last => rfl
    | cut first rest => exact absurd (List.infix_append _ _ _) hxs
  | @cut item tail items first rest ih =>
    generalize hall : item ++ sep ++ tail = xs at h'
    cases h' with
    | last =>
      refine absurd ?_ (hclean' xs (List.mem_singleton_self xs))
      rw [← hall]
      exact List.infix_append _ _ _
    | @cut item' tail' items' first' rest' =>
      have hat : At sep (item ++ sep ++ tail) item.length := by
        rw [At, List.append_assoc, List.drop_left]
        exact List.prefix_append _ _
      have hat' : At sep (item' ++ sep ++ tail') item'.length := by
        rw [At, List.append_assoc, List.drop_left]
        exact List.prefix_append _ _
      have hle : item'.length ≤ item.length :=
        Nat.not_lt.mp fun hlt => first' _ hlt (hall ▸ hat)
      have hge : item.length ≤ item'.length :=
        Nat.not_lt.mp fun hlt => first _ hlt (hall ▸ hat')
      rw [List.append_assoc, List.append_assoc] at hall
      obtain ⟨rfl, hrest⟩ := List.append_inj hall (Nat.le_antisymm hge hle)
      obtain rfl := List.append_cancel_left hrest
      rw [ih rest' (fun item hitem => hclean item (List.mem_cons_of_mem _ hitem))
        fun item hitem => hclean' item (List.mem_cons_of_mem _ hitem)]

/-- Each cut takes an entry at least. -/
theorem Pieces.length_le (h : Pieces sep xs items) (hsep : sep ≠ []) :
    items.length ≤ xs.length + 1 := by
  induction h with
  | last xs => simp
  | @cut item tail items first rest ih =>
    have hpos : 0 < sep.length := List.length_pos_iff.mpr hsep
    simp only [List.length_cons, List.length_append]
    omega

/-- The first occurrence from a start on takes a piece off. -/
theorem Pieces.cut_at {start i : Nat} (hstart : start ≤ i) (hi : i ≤ hay.length)
    (hat : At sep hay i) (hfirst : ∀ k, start ≤ k → k < i → ¬At sep hay k)
    (rest : Pieces sep (hay.drop (i + sep.length)) items) :
    Pieces sep (hay.drop start) ((hay.drop start).take (i - start) :: items) := by
  have hdrop : (hay.drop start).drop (i - start) = hay.drop i := by
    rw [List.drop_drop, Nat.add_sub_cancel' hstart]
  have hat' : hay.drop i = sep ++ hay.drop (i + sep.length) := by
    obtain ⟨tail, htail⟩ := hat
    rw [← List.drop_drop, ← htail, List.drop_left]
  have hall : hay.drop start =
      (hay.drop start).take (i - start) ++ sep ++ hay.drop (i + sep.length) := by
    rw [List.append_assoc, ← hat', ← hdrop, List.take_append_drop]
  have hnot : ∀ k < ((hay.drop start).take (i - start)).length,
      ¬At sep ((hay.drop start).take (i - start) ++ sep ++ hay.drop (i + sep.length)) k := by
    intro k hk
    rw [List.length_take, List.length_drop] at hk
    rw [← hall, At, List.drop_drop]
    exact hfirst (start + k) (Nat.le_add_right _ _) (by omega)
  have hcut := Pieces.cut hnot rest
  rwa [← hall] at hcut

end Occurrence
