import Mathlib.Algebra.Order.Ring.Nat
import Mathlib.Data.List.Nodup
import Mathlib.Tactic.Common

/-! Lists of entries that are found by a key.

The first entry with a key is the one found, changed and removed, so an entry
behind another of the same key is hidden until that one is removed. Nothing here
needs the keys to be distinct, apart from what is said of a removed key. -/
namespace KeyedList
variable {α K : Type} [DecidableEq K] (key : α → K) (k : K)

/-- The first entry with key `k`. -/
def lookup (l : List α) : Option α := l.find? (key · == k)

/-- The first entry with key `k` replaced; none if there is no such entry. -/
def update (f : α → α) : List α → Option (List α)
  | [] => none
  | a :: l => if key a = k then some (f a :: l) else (update f l).map (a :: ·)

/-- The first entry with key `k` taken out. -/
def remove (l : List α) : List α := l.eraseP (key · == k)

variable {key k} {f : α → α} {l l' : List α}

theorem lookup_cons (a : α) :
    lookup key k (a :: l) = if key a = k then some a else lookup key k l := by
  unfold lookup
  by_cases h : key a = k <;> simp [h]

theorem key_of_lookup {a : α} (h : lookup key k l = some a) : key a = k := by
  simpa using List.find?_some h

theorem lookup_isSome : (lookup key k l).isSome ↔ k ∈ l.map key := by
  induction l with
  | nil => simp [lookup]
  | cons a l ih =>
    rw [lookup_cons, List.map_cons, List.mem_cons]
    by_cases h : key a = k
    · simp [h]
    · simp [h, ih, Ne.symm h]

theorem lookup_eq_none : lookup key k l = none ↔ k ∉ l.map key := by
  rw [← lookup_isSome, Bool.not_eq_true, Option.isSome_eq_false_iff, Option.isNone_iff_eq_none]

theorem update_cons {a : α} (h : update key k f (a :: l) = some l') :
    (key a = k ∧ l' = f a :: l) ∨
      (key a ≠ k ∧ ∃ l₁, update key k f l = some l₁ ∧ l' = a :: l₁) := by
  unfold update at h
  split at h
  · cases h
    exact .inl ⟨‹_›, rfl⟩
  · obtain ⟨l₁, h₁, rfl⟩ := Option.map_eq_some_iff.mp h
    exact .inr ⟨‹_›, l₁, h₁, rfl⟩

/-- There is something to update when there is something to find. -/
theorem update_isSome : (update key k f l).isSome ↔ k ∈ l.map key := by
  induction l with
  | nil => simp [update]
  | cons a l ih =>
    unfold update
    rw [List.map_cons, List.mem_cons]
    split
    · simp [*]
    · rw [Option.isSome_map, ih]
      simp [Ne.symm ‹¬key a = k›]

theorem update_eq_none : update key k f l = none ↔ k ∉ l.map key := by
  rw [← update_isSome (f := f), Bool.not_eq_true, Option.isSome_eq_false_iff,
    Option.isNone_iff_eq_none]

/-- A key that is there has a first entry. -/
theorem exists_first (h : k ∈ l.map key) :
    ∃ front a back, l = front ++ a :: back ∧ key a = k ∧ k ∉ front.map key := by
  obtain ⟨a, ha⟩ := Option.isSome_iff_exists.mp (lookup_isSome.mpr h)
  obtain ⟨hkey, front, back, hsplit, hfront⟩ := List.find?_eq_some_iff_append.mp ha
  refine ⟨front, a, back, hsplit, by simpa using hkey, fun hmem => ?_⟩
  obtain ⟨b, hb, hkb⟩ := List.mem_map.mp hmem
  simpa [hkb] using hfront b hb

theorem lookup_append {front back : List α} {a : α} (hfront : k ∉ front.map key)
    (hkey : key a = k) : lookup key k (front ++ a :: back) = some a := by
  induction front with
  | nil => rw [List.nil_append, lookup_cons, if_pos hkey]
  | cons b front ih =>
    obtain ⟨hne, hfront⟩ := List.ne_and_not_mem_of_not_mem_cons hfront
    rw [List.cons_append, lookup_cons, if_neg hne.symm, ih hfront]

theorem update_append {front back : List α} {a : α} (hfront : k ∉ front.map key)
    (hkey : key a = k) : update key k f (front ++ a :: back) = some (front ++ f a :: back) := by
  induction front with
  | nil => exact if_pos hkey
  | cons b front ih =>
    obtain ⟨hne, hfront⟩ := List.ne_and_not_mem_of_not_mem_cons hfront
    rw [List.cons_append, update, if_neg hne.symm, ih hfront]
    rfl

theorem remove_append {front back : List α} {a : α} (hfront : k ∉ front.map key)
    (hkey : key a = k) : remove key k (front ++ a :: back) = front ++ back := by
  have hnot : ∀ b ∈ front, ¬(key b == k) = true := fun b hb heq =>
    hfront (beq_iff_eq.mp heq ▸ List.mem_map_of_mem hb)
  rw [remove, List.eraseP_append_right _ hnot, List.eraseP_cons_of_pos (by simpa using hkey)]

/-- Where no key occurs twice, an update changes the entry of its key. -/
theorem update_eq_map (hnodup : (l.map key).Nodup) (hk : k ∈ l.map key) :
    update key k f l = some (l.map fun a => if key a = k then f a else a) := by
  induction l with
  | nil => cases hk
  | cons a l ih =>
    obtain ⟨ha, hnodup⟩ := List.nodup_cons.mp hnodup
    rw [update, List.map_cons]
    by_cases heq : key a = k
    · have hrest : l.map (fun b => if key b = k then f b else b) = l := by
        refine (List.map_congr_left fun b hb => ?_).trans (List.map_id l)
        exact if_neg fun (h : key b = k) => ha (heq.trans h.symm ▸ List.mem_map_of_mem hb)
      rw [if_pos heq, if_pos heq, hrest]
    · rw [if_neg heq, if_neg heq, ih hnodup ((List.mem_cons.mp hk).resolve_left (Ne.symm heq))]
      rfl

/-- An update that keeps the key keeps every key. -/
theorem keys_update (hf : ∀ a, key a = k → key (f a) = k) (h : update key k f l = some l') :
    l'.map key = l.map key := by
  induction l generalizing l' with
  | nil => cases h
  | cons a l ih =>
    rcases update_cons h with ⟨ha, rfl⟩ | ⟨-, l₁, h₁, rfl⟩
    · rw [List.map_cons, List.map_cons, hf a ha, ha]
    · rw [List.map_cons, List.map_cons, ih h₁]

/-- **An update that keeps its key changes what is found under no other key.** -/
theorem lookup_update_ne {k' : K} (hk : k' ≠ k) (hf : ∀ a, key a = k → key (f a) = k)
    (h : update key k f l = some l') : lookup key k' l' = lookup key k' l := by
  induction l generalizing l' with
  | nil => cases h
  | cons a l ih =>
    rcases update_cons h with ⟨ha, rfl⟩ | ⟨-, l₁, h₁, rfl⟩
    · rw [lookup_cons, lookup_cons, hf a ha, ha, if_neg hk.symm, if_neg hk.symm]
    · rw [lookup_cons, lookup_cons, ih h₁]

/-- What is found after an update is the entry changed. -/
theorem lookup_update {a : α} (ha : lookup key k l = some a) (hf : key (f a) = k)
    (h : update key k f l = some l') : lookup key k l' = some (f a) := by
  induction l generalizing l' with
  | nil => cases h
  | cons b l ih =>
    rw [lookup_cons] at ha
    rcases update_cons h with ⟨hb, rfl⟩ | ⟨hb, l₁, h₁, rfl⟩
    · rw [if_pos hb] at ha
      cases ha
      rw [lookup_cons, if_pos hf]
    · rw [if_neg hb] at ha
      rw [lookup_cons, if_neg hb, ih ha h₁]

/-- **A removal changes what is found under no other key.** -/
theorem lookup_remove_ne {k' : K} (hk : k' ≠ k) :
    lookup key k' (remove key k l) = lookup key k' l := by
  induction l with
  | nil => rfl
  | cons a l ih =>
    unfold remove at ih ⊢
    by_cases ha : key a = k
    · rw [List.eraseP_cons_of_pos (by simpa using ha), lookup_cons, if_neg (ha ▸ hk.symm)]
    · rw [List.eraseP_cons_of_neg (by simpa using ha), lookup_cons, lookup_cons, ih]

theorem keys_remove : (remove key k l).map key = (l.map key).erase k := by
  induction l with
  | nil => rfl
  | cons a l ih =>
    unfold remove at ih ⊢
    by_cases ha : key a = k
    · rw [List.eraseP_cons_of_pos (by simpa using ha), List.map_cons, ha, List.erase_cons_head]
    · rw [List.eraseP_cons_of_neg (by simpa using ha), List.map_cons, List.map_cons, ih,
        List.erase_cons_tail (by simpa using ha)]

/-- An entry after an update was there, or is an entry changed. -/
theorem mem_update {b : α} (h : update key k f l = some l') (hb : b ∈ l') :
    b ∈ l ∨ ∃ a ∈ l, b = f a := by
  induction l generalizing l' with
  | nil => cases h
  | cons a l ih =>
    rcases update_cons h with ⟨-, rfl⟩ | ⟨-, l₁, h₁, rfl⟩
    · rcases List.mem_cons.mp hb with rfl | hb
      · exact .inr ⟨a, List.mem_cons_self, rfl⟩
      · exact .inl (List.mem_cons_of_mem a hb)
    · rcases List.mem_cons.mp hb with rfl | hb
      · exact .inl List.mem_cons_self
      · rcases ih h₁ hb with hb | ⟨c, hc, rfl⟩
        · exact .inl (List.mem_cons_of_mem a hb)
        · exact .inr ⟨c, List.mem_cons_of_mem a hc, rfl⟩

/-- What is not there is not removed. -/
theorem mem_of_mem_remove {a : α} (h : a ∈ remove key k l) : a ∈ l := List.mem_of_mem_eraseP h

/-- A view that does not show what has the key shows no removal of it. -/
theorem filterMap_remove {β : Type} {view : α → Option β} (h : ∀ a ∈ l, key a = k → view a = none) :
    (remove key k l).filterMap view = l.filterMap view := by
  induction l with
  | nil => rfl
  | cons a l ih =>
    have ih := ih fun b hb => h b (List.mem_cons_of_mem _ hb)
    unfold remove at ih ⊢
    by_cases ha : key a = k
    · rw [List.eraseP_cons_of_pos (by simpa using ha),
        List.filterMap_cons_none (h a List.mem_cons_self ha)]
    · rw [List.eraseP_cons_of_neg (by simpa using ha), List.filterMap_cons, ih,
        List.filterMap_cons]

theorem remove_of_lookup (h : lookup key k l = none) : remove key k l = l :=
  List.eraseP_of_forall_not fun a ha => by simpa using List.find?_eq_none.mp h a ha

/-! ### What a list holds

The order of the entries does not matter to those who find them by their keys
alone, as long as no key occurs twice. A list then holds slots: a value for each
key, in any order, next to which nothing else is there. -/

/-- One entry for each slot, of the key of the slot and with its value, and no
other; no key has two slots. -/
structure Holds {V : Type} (key : α → K) (R : α → V → Prop) (l : List α) (slots : List (K × V)) :
    Prop where
  nodup : (slots.map Prod.fst).Nodup
  keys : (l.map key).Perm (slots.map Prod.fst)
  held : ∀ slot ∈ slots, ∃ a ∈ l, key a = slot.1 ∧ R a slot.2

/-- An entry is found by its key, when no key occurs twice. -/
theorem lookup_of_mem {a : α} (hnodup : (l.map key).Nodup) (ha : a ∈ l) :
    lookup key (key a) l = some a := by
  induction l with
  | nil => cases ha
  | cons b l ih =>
    obtain ⟨hb, hnodup⟩ := List.nodup_cons.mp hnodup
    rw [lookup_cons]
    rcases List.mem_cons.mp ha with rfl | ha
    · exact if_pos rfl
    · have hne : key b ≠ key a := fun heq => hb (heq.symm ▸ List.mem_map_of_mem ha)
      rw [if_neg hne, ih hnodup ha]

/-- The entry removed and the others are what there was. -/
theorem perm_remove {a : α} (h : lookup key k l = some a) : l.Perm (a :: remove key k l) := by
  induction l with
  | nil => cases h
  | cons b l ih =>
    rw [lookup_cons] at h
    unfold remove at ih ⊢
    by_cases hb : key b = k
    · rw [if_pos hb] at h
      cases h
      rw [List.eraseP_cons_of_pos (by simpa using hb)]
    · rw [if_neg hb] at h
      rw [List.eraseP_cons_of_neg (by simpa using hb)]
      exact ((ih h).cons b).trans (List.Perm.swap a b _)

/-- The entry changed and the others are what there is after an update. -/
theorem perm_update {a : α} (h : lookup key k l = some a) :
    ∃ l', update key k f l = some l' ∧ l'.Perm (f a :: remove key k l) := by
  induction l with
  | nil => cases h
  | cons b l ih =>
    rw [lookup_cons] at h
    unfold remove at ih ⊢
    by_cases hb : key b = k
    · rw [if_pos hb] at h
      cases h
      rw [List.eraseP_cons_of_pos (by simpa using hb)]
      exact ⟨_, if_pos hb, List.Perm.refl _⟩
    · rw [if_neg hb] at h
      obtain ⟨l', hup, hp⟩ := ih h
      rw [List.eraseP_cons_of_neg (by simpa using hb), update, if_neg hb, hup]
      exact ⟨b :: l', rfl, (hp.cons b).trans (List.Perm.swap (f a) b _)⟩

namespace Holds
variable {V : Type} {R : α → V → Prop} {slots slots' : List (K × V)} {v v' : V} {k' : K} {a : α}

omit [DecidableEq K] in
/-- The order of the slots does not matter either. -/
theorem perm (h : Holds key R l slots) (hp : slots.Perm slots') : Holds key R l slots' :=
  ⟨(hp.map _).nodup_iff.mp h.nodup, h.keys.trans (hp.map _),
    fun slot hs => h.held slot (hp.mem_iff.mpr hs)⟩

/-- What has a slot is found, with its value. -/
theorem lookup (h : Holds key R l ((k, v) :: slots)) :
    ∃ a, lookup key k l = some a ∧ R a v := by
  obtain ⟨a, ha, rfl, hv⟩ := h.held (k, v) List.mem_cons_self
  exact ⟨a, lookup_of_mem (h.keys.nodup_iff.mpr h.nodup) ha, hv⟩

omit [DecidableEq K] in
/-- A new entry in front takes a new slot. -/
theorem cons (h : Holds key R l slots) (hk : key a ∉ slots.map Prod.fst) (hv : R a v) :
    Holds key R (a :: l) ((key a, v) :: slots) where
  nodup := List.nodup_cons.mpr ⟨hk, h.nodup⟩
  keys := h.keys.cons (key a)
  held slot hs := by
    rcases List.mem_cons.mp hs with rfl | hs
    · exact ⟨a, List.mem_cons_self, rfl, hv⟩
    · obtain ⟨b, hb, hslot⟩ := h.held slot hs
      exact ⟨b, List.mem_cons_of_mem a hb, hslot⟩

/-- What is removed leaves the other slots. -/
theorem remove (h : Holds key R l ((k, v) :: slots)) :
    Holds key R (remove key k l) slots := by
  obtain ⟨hk, hnodup⟩ := List.nodup_cons.mp h.nodup
  obtain ⟨a, ha, -⟩ := h.lookup
  refine ⟨hnodup, ?_, fun slot hs => ?_⟩
  · rw [keys_remove]
    simpa using h.keys.erase k
  · obtain ⟨b, hb, hkey, hv⟩ := h.held slot (List.mem_cons_of_mem _ hs)
    refine ⟨b, ?_, hkey, hv⟩
    rcases List.mem_cons.mp ((perm_remove ha).mem_iff.mp hb) with rfl | hmem
    · have hmem : slot.1 ∈ slots.map Prod.fst := List.mem_map_of_mem hs
      rw [← hkey, key_of_lookup ha] at hmem
      exact absurd hmem hk
    · exact hmem

/-- **An update changes a slot**: its value, and its key to one that has no slot. -/
theorem update (h : Holds key R l ((k, v) :: slots)) (hk : k' ∉ slots.map Prod.fst)
    (hf : ∀ a, key a = k → R a v → key (f a) = k' ∧ R (f a) v') :
    ∃ l', update key k f l = some l' ∧ Holds key R l' ((k', v') :: slots) := by
  obtain ⟨a, ha, hv⟩ := h.lookup
  obtain ⟨l', hup, hp⟩ := perm_update (f := f) ha
  obtain ⟨hkey, hv'⟩ := hf a (key_of_lookup ha) hv
  have hcons : Holds key R (f a :: KeyedList.remove key k l) ((k', v') :: slots) :=
    hkey ▸ h.remove.cons (hkey.symm ▸ hk) hv'
  exact ⟨l', hup, hcons.nodup, (hp.map key).trans hcons.keys, fun slot hs => by
    obtain ⟨b, hb, hslot⟩ := hcons.held slot hs
    exact ⟨b, hp.mem_iff.mpr hb, hslot⟩⟩

end Holds

/-! ### Lists entry by entry

Where the order matters too, a list is compared entry by entry with a list of
things that have keys of their own. -/

/-- The entries are, one after the other, of the keys and the values of some things. -/
abbrev Mirrors {T : Type} (key : α → K) (keyOf : T → K) (R : α → T → Prop) (l : List α)
    (things : List T) : Prop :=
  List.Forall₂ (fun a t => key a = keyOf t ∧ R a t) l things

namespace Mirrors
variable {T : Type} {keyOf : T → K} {R : α → T → Prop} {things : List T} {g : T → T}

omit [DecidableEq K] in
theorem keys (h : Mirrors key keyOf R l things) : l.map key = things.map keyOf := by
  induction h with
  | nil => rfl
  | cons hslot _ ih => rw [List.map_cons, List.map_cons, hslot.1, ih]

omit [DecidableEq K] in
private theorem keyOf_ne {t : T} (hnodup : ((t :: things).map keyOf).Nodup) :
    ∀ s ∈ things, keyOf s ≠ keyOf t := fun _ hs heq =>
  (List.nodup_cons.mp hnodup).1 (heq ▸ List.mem_map_of_mem hs)

/-- An update changes the thing of the key, in its place. -/
theorem update (h : Mirrors key keyOf R l things) (hnodup : (things.map keyOf).Nodup)
    (hk : k ∈ things.map keyOf)
    (hf : ∀ a t, keyOf t = k → R a t → key (f a) = keyOf (g t) ∧ R (f a) (g t)) :
    ∃ l', update key k f l = some l' ∧
      Mirrors key keyOf R l' (things.map fun t => if keyOf t = k then g t else t) := by
  induction h with
  | nil => cases hk
  | @cons a t l things hslot htail ih =>
    have hother := keyOf_ne hnodup
    rw [KeyedList.update, List.map_cons]
    by_cases heq : keyOf t = k
    · rw [if_pos (hslot.1.trans heq), if_pos heq]
      refine ⟨_, rfl, .cons (hf a t heq hslot.2) ?_⟩
      rwa [List.map_congr_left (g := id), List.map_id]
      intro s hs
      exact if_neg (heq ▸ hother s hs)
    · rw [if_neg (hslot.1 ▸ heq), if_neg heq]
      obtain ⟨l', hup, hl'⟩ := ih (List.nodup_cons.mp hnodup).2
        ((List.mem_cons.mp hk).resolve_left (Ne.symm heq))
      rw [hup]
      exact ⟨a :: l', rfl, .cons hslot hl'⟩

/-- A removal takes out the thing of the key. -/
theorem remove (h : Mirrors key keyOf R l things) (hnodup : (things.map keyOf).Nodup) :
    Mirrors key keyOf R (remove key k l) (things.filter fun t => keyOf t ≠ k) := by
  induction h with
  | nil => exact .nil
  | @cons a t l things hslot htail ih =>
    have hother := keyOf_ne hnodup
    unfold KeyedList.remove at ih ⊢
    by_cases heq : keyOf t = k
    · rw [List.eraseP_cons_of_pos (by simpa [hslot.1] using heq),
        List.filter_cons_of_neg (by simpa using heq), List.filter_eq_self.mpr]
      · exact htail
      · intro s hs
        simpa [← heq] using hother s hs
    · rw [List.eraseP_cons_of_neg (by simpa [hslot.1] using heq),
        List.filter_cons_of_pos (by simpa using heq)]
      exact .cons hslot (ih (List.nodup_cons.mp hnodup).2)

end Mirrors

end KeyedList
