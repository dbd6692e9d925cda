import Mathlib.Data.List.Nodup
import PikaScript.Lib.Memory

/-! Zero-ended strings laid out one behind the other, and found by offset.

A table only grows at its end, so an offset once given stays good: it is read back
from every later table. -/
namespace StringTable
open Memory

abbrev Str := List (BitVec 8)

/-- The bytes of a table. -/
def layout (es : List Str) : List (BitVec 8) := es.flatMap (· ++ [0])

/-- Where the first copy of an entry starts. -/
def offset (d : Str) : List Str → Nat
  | [] => 0
  | e :: es => if e = d then 0 else e.length + 1 + offset d es

/-- An entry put at the end, when it is not there yet. -/
def insert (es : List Str) (d : Str) : List Str := if d ∈ es then es else es ++ [d]

variable {es more : List Str} {d : Str}

@[simp] theorem layout_nil : layout [] = [] := rfl

theorem layout_cons (e : Str) (es : List Str) : layout (e :: es) = e ++ 0 :: layout es := by
  rw [layout, layout, List.flatMap_cons, List.append_assoc]
  rfl

theorem layout_append (es more : List Str) : layout (es ++ more) = layout es ++ layout more :=
  List.flatMap_append

theorem layout_concat (es : List Str) (d : Str) :
    layout (es ++ [d]) = layout es ++ (d ++ [0]) := by
  rw [layout_append, layout_cons, layout_nil]

theorem length_layout_concat (es : List Str) (d : Str) :
    (layout (es ++ [d])).length = (layout es).length + d.length + 1 := by
  rw [layout_concat, List.length_append, List.length_append, List.length_singleton, Nat.add_assoc]

/-- An entry has its terminator, so a table has at least a byte for each. -/
theorem length_le_layout (es : List Str) : es.length ≤ (layout es).length := by
  induction es with
  | nil => exact Nat.le_refl 0
  | cons e es ih =>
    rw [layout_cons, List.length_append, List.length_cons, List.length_cons]
    omega

/-- **The offset of an entry stays** when the table grows. -/
theorem offset_append (h : d ∈ es) (more : List Str) : offset d (es ++ more) = offset d es := by
  induction es with
  | nil => cases h
  | cons e es ih =>
    rw [List.cons_append, offset, offset]
    split
    · rfl
    · rw [ih ((List.mem_cons.mp h).resolve_left (Ne.symm ‹¬e = d›))]

/-- What is not there would start at the end. -/
theorem offset_of_not_mem (h : d ∉ es) : offset d es = (layout es).length := by
  induction es with
  | nil => rfl
  | cons e es ih =>
    obtain ⟨hne, hmem⟩ := not_or.mp (fun hor => h (List.mem_cons.mpr hor))
    rw [offset, if_neg (Ne.symm hne), ih hmem, layout_cons, List.length_append, List.length_cons]
    omega

/-- **A new entry starts where the table ended.** -/
theorem offset_concat (h : d ∉ es) : offset d (es ++ [d]) = (layout es).length := by
  rw [← offset_of_not_mem h]
  induction es with
  | nil => exact if_pos rfl
  | cons e es ih =>
    obtain ⟨hne, hmem⟩ := not_or.mp (fun hor => h (List.mem_cons.mpr hor))
    rw [List.cons_append, offset, offset, if_neg (Ne.symm hne), if_neg (Ne.symm hne), ih hmem]

theorem drop_layout (e : Str) (es : List Str) :
    (layout (e :: es)).drop (e.length + 1) = layout es := by
  rw [layout_cons, List.append_cons]
  exact List.drop_left' (by rw [List.length_append, List.length_singleton])

/-- The table from the offset of an entry on. -/
theorem drop_offset (h : d ∈ es) :
    ∃ rest, (layout es).drop (offset d es) = d ++ 0 :: layout rest := by
  induction es with
  | nil => cases h
  | cons e es ih =>
    rw [offset]
    split
    · subst e
      exact ⟨es, by rw [List.drop_zero, layout_cons]⟩
    · obtain ⟨rest, hrest⟩ := ih ((List.mem_cons.mp h).resolve_left (Ne.symm ‹¬e = d›))
      exact ⟨rest, by rw [← List.drop_drop, drop_layout, hrest]⟩

theorem offset_lt (h : d ∈ es) : offset d es < (layout es).length := by
  obtain ⟨rest, hrest⟩ := drop_offset h
  have hlength := congrArg List.length hrest
  rw [List.length_drop, List.length_append, List.length_cons] at hlength
  omega

/-- **An entry is read back from its offset.** -/
theorem loadString_offset (h : d ∈ es) (hz : 0 ∉ d) :
    loadString (layout es) (offset d es) = some d := by
  obtain ⟨rest, hrest⟩ := drop_offset h
  exact loadString_of_drop hrest hz

/-! ### Insertion -/

theorem insert_of_mem (h : d ∈ es) : insert es d = es := if_pos h

theorem insert_of_not_mem (h : d ∉ es) : insert es d = es ++ [d] := if_neg h

theorem mem_insert {e : Str} : e ∈ insert es d ↔ e ∈ es ∨ e = d := by
  unfold insert
  split
  · exact ⟨.inl, fun h => h.elim id (fun heq => heq ▸ ‹d ∈ es›)⟩
  · rw [List.mem_append, List.mem_singleton]

/-- A table after insertions starts with the table before them. -/
theorem prefix_foldl_insert (es ds : List Str) : es <+: ds.foldl insert es := by
  induction ds generalizing es with
  | nil => exact List.prefix_refl es
  | cons d ds ih =>
    apply List.IsPrefix.trans _ (ih (insert es d))
    unfold insert
    split
    · exact List.prefix_refl es
    · exact List.prefix_append es [d]

theorem mem_foldl_insert {e : Str} (ds : List Str) :
    e ∈ ds.foldl insert es ↔ e ∈ es ∨ e ∈ ds := by
  induction ds generalizing es with
  | nil => rw [List.foldl_nil, or_iff_left List.not_mem_nil]
  | cons d ds ih => rw [List.foldl_cons, ih, mem_insert, List.mem_cons, or_assoc]

theorem nodup_insert (h : es.Nodup) : (insert es d).Nodup := by
  unfold insert
  split
  · exact h
  · rw [List.nodup_append]
    refine ⟨h, List.nodup_singleton d, ?_⟩
    rintro a ha b hb rfl
    cases List.mem_singleton.mp hb
    exact ‹d ∉ es› ha

theorem nodup_foldl_insert (h : es.Nodup) (ds : List Str) : (ds.foldl insert es).Nodup := by
  induction ds generalizing es with
  | nil => exact h
  | cons d ds ih => exact ih (nodup_insert h)

end StringTable
