import Mathlib.Algebra.Order.Ring.Nat
import Mathlib.Data.Int.Order.Basic
import Mathlib.Data.List.Pairwise
import Mathlib.Order.Basic
import Mathlib.Tactic.Common

/-! Binary search by key, with any midpoint.

The bounds are signed, so that the upper one can pass the first entry. Where the midpoint
stays between the bounds, the search finds what a scan from the front finds; where it
does not, an entry outside the list may be asked for, which gives none. -/
namespace BinarySearch
variable {α κ : Type} [LinearOrder κ] (key : α → κ) (mid : Int → Int → Int)

/-- The entry at a signed index. -/
def getAt (entries : List α) (i : Int) : Option α :=
  if 0 ≤ i then entries[i.toNat]? else none

/-- The search, in so many rounds: none when they are used up, or when it leaves the entries. -/
def search (entries : List α) (k : κ) : Nat → Int → Int → Option (Option α)
  | 0, _, _ => none
  | rounds + 1, left, right =>
    if left > right then some none
    else
      match getAt entries (mid left right) with
      | none => none
      | some entry =>
        if key entry = k then some (some entry)
        else if key entry < k then search entries k rounds (mid left right + 1) right
        else search entries k rounds left (mid left right - 1)

/-- The keys go up. -/
def Sorted (entries : List α) : Prop := entries.Pairwise fun a b => key a < key b

/-- The midpoint of bounds inside the entries is between them. -/
def Between (size : Nat) : Prop :=
  ∀ left right : Int, 0 ≤ left → left ≤ right → right < size →
    left ≤ mid left right ∧ mid left right ≤ right

variable {key mid} {entries : List α} {k : κ}

theorem Sorted.lt (h : Sorted key entries) {i j : Nat} {a b : α} (hi : entries[i]? = some a)
    (hj : entries[j]? = some b) (hij : i < j) : key a < key b := by
  obtain ⟨hi', rfl⟩ := List.getElem?_eq_some_iff.mp hi
  obtain ⟨hj', rfl⟩ := List.getElem?_eq_some_iff.mp hj
  exact List.pairwise_iff_getElem.mp h i j hi' hj' hij

/-- An entry that has the key is the one a scan finds. -/
theorem Sorted.find?_eq (h : Sorted key entries) {i : Nat} {a : α} (hi : entries[i]? = some a)
    (hk : key a = k) : entries.find? (fun b => key b = k) = some a := by
  cases hfind : entries.find? (fun b => key b = k) with
  | none =>
    have hnone := List.find?_eq_none.mp hfind a (List.mem_of_getElem? hi)
    simp [hk] at hnone
  | some b =>
    have hb : key b = k := by simpa using List.find?_some hfind
    obtain ⟨j, hj⟩ := List.mem_iff_getElem?.mp (List.mem_of_find?_eq_some hfind)
    rcases lt_trichotomy i j with hij | rfl | hij
    · exact absurd (h.lt hi hj hij) (by simp [hk, hb])
    · exact hj.symm.trans hi
    · exact absurd (h.lt hj hi hij) (by simp [hk, hb])

/-- **The search finds what a scan finds**: what is left of the bounds has smaller keys, what
is right of them larger ones, and each round brings them nearer. -/
theorem search_eq_find? (hsorted : Sorted key entries) (hmid : Between mid entries.length)
    {rounds : Nat} {left right : Int} (hleft : 0 ≤ left) (hright : right < entries.length)
    (hrounds : right - left + 1 < rounds)
    (hbelow : ∀ (i : Nat) a, entries[i]? = some a → (i : Int) < left → key a < k)
    (habove : ∀ (i : Nat) a, entries[i]? = some a → right < (i : Int) → k < key a)
    (hpos : 0 < rounds) :
    search key mid entries k rounds left right = some (entries.find? fun a => key a = k) := by
  induction rounds generalizing left right with
  | zero => exact absurd hpos (lt_irrefl 0)
  | succ rounds ih =>
    rw [search]
    by_cases hcross : left > right
    · rw [if_pos hcross, eq_comm, Option.some.injEq, List.find?_eq_none]
      intro a ha hk
      obtain ⟨i, hi⟩ := List.mem_iff_getElem?.mp ha
      rw [decide_eq_true_eq] at hk
      rcases lt_or_ge (i : Int) left with h | h
      · exact absurd (hbelow i a hi h) (by simp [hk])
      · exact absurd (habove i a hi (by omega)) (by simp [hk])
    · obtain ⟨h₁, h₂⟩ := hmid left right hleft (by omega) hright
      rw [if_neg hcross]
      generalize mid left right = m at h₁ h₂
      obtain ⟨a, ha⟩ : ∃ a, entries[m.toNat]? = some a :=
        ⟨_, List.getElem?_eq_getElem (by omega)⟩
      have hget : getAt entries m = some a := (if_pos (by omega)).trans ha
      have hcast : ((m.toNat : Nat) : Int) = m := Int.toNat_of_nonneg (by omega)
      rw [hget]
      dsimp only
      split
      · rw [hsorted.find?_eq ha ‹_›]
      · rename_i hne
        split
        · rename_i hlt
          refine ih (by omega) hright (by omega) (fun i b hi hlt' => ?_) habove (by omega)
          rcases Nat.lt_or_ge i m.toNat with him | him
          · exact (hsorted.lt hi ha him).trans hlt
          · obtain rfl : i = m.toNat := by omega
            rw [ha, Option.some.injEq] at hi
            exact hi ▸ hlt
        · rename_i hge
          have hgt : k < key a := lt_of_le_of_ne (not_lt.mp hge) (Ne.symm hne)
          refine ih hleft (by omega) (by omega) hbelow (fun i b hi hlt' => ?_) (by omega)
          rcases Nat.lt_or_ge m.toNat i with him | him
          · exact hgt.trans (hsorted.lt ha hi him)
          · obtain rfl : i = m.toNat := by omega
            rw [ha, Option.some.injEq] at hi
            exact hi ▸ hgt

end BinarySearch
