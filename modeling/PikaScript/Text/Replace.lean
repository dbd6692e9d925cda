import Mathlib.Tactic.Ring
import PikaScript.StdLib.Split

/-! `strsReplace` of `dataStrs.c`.

The occurrences of a pattern are counted first, for the size of the buffer, and replaced in a
second loop. Lengths, the count and the distance to the next occurrence are `int`s.

`strsReplace_iff`: the text comes out with every occurrence replaced just when these hold what is
kept in them. -/
namespace PikaScript
open Memory Occurrence

namespace Replace

/-! ### The code -/

/-- The text at a pointer into a text. None outside of it. -/
def charsAt (text : CString) (p : Int) : Option CString :=
  if 0 ≤ p ∧ p ≤ text.length then some (text.drop p.toNat) else none

/-- Bytes written at a pointer into the buffer. None outside of it. -/
def storeAt (buf : Bytes) (p : Int) (bytes : Bytes) : Option Bytes :=
  if 0 ≤ p then store buf p.toNat bytes else none

/-- The loop that counts, from `ins` on. It ends within as many rounds as there are places in the
text, or not at all. -/
def countLoop (orig rep : CString) (lenRep : Int) : Nat → Int → Nat → Option Nat
  | 0, _, _ => none
  | rounds + 1, ins, count => do
    match strstrAt rep (← charsAt orig ins) with
    | none => return count
    | some k => countLoop orig rep lenRep rounds (ins + k + lenRep) (count + 1)

/-- `strncpy` of so many characters. As a `size_t` a negative number of them is more than any
buffer holds. -/
def strncpyAt (buf : Bytes) (p : Int) (text : CString) (n : Int) : Option Bytes :=
  if n < 0 then none else storeAt buf p (text.take n.toNat)

/-- So many rounds of the loop that replaces, from `rest` in the text and `tmp` in the buffer on,
and the copy of what is left. -/
def fillLoop (orig rep text : CString) (lenRep lenWith : Int) :
    Nat → Bytes → Int → Int → Option Bytes
  | 0, buf, tmp, rest => do storeAt buf tmp ((← charsAt orig rest) ++ [0])
  | rounds + 1, buf, tmp, rest => do
    let chars ← charsAt orig rest
    let front ← strstrAt rep chars
    let buf ← strncpyAt buf tmp chars (s32 front)
    let buf ← storeAt buf (tmp + s32 front) (text ++ [0])
    fillLoop orig rep text lenRep lenWith rounds buf (tmp + s32 front + lenWith)
      (rest + s32 (s32 front + lenRep))

/-- `strsReplace` of a pattern with a text: the text or NULL. None when it reads or writes
outside, or does not end. -/
def strsReplace (orig rep text : CString) : Option (Option CString) :=
  if strstrAt rep orig = none then some (some orig)
  else
    let lenRep := s32 rep.length
    if lenRep = 0 then some none
    else do
      let lenWith := s32 text.length
      let count := s32 (← countLoop orig rep lenRep (orig.length + 2) 0 0)
      let size := orig.length + s32 (s32 (lenWith - lenRep) * count) + 1
      let buf ← fillLoop orig rep text lenRep lenWith (count % 2 ^ 32).toNat
        (argsGetBuff (s32 size)) 0 0
      return some (← untilZero buf)

/-! ### What it is for -/

/-- What the `int`s and the buffer hold: the text that comes out is shorter than `2^32 - 2`, the
new text and each stretch with the pattern behind it are shorter than `2^31`, and there are fewer
than `2^32` occurrences. -/
structure Holds (rep text : CString) (items : List CString) : Prop where
  size : (text.intercalate items).length + 2 < 2 ^ 32
  lenWith : text.length < 2 ^ 31
  count : items.length ≤ 2 ^ 32
  stretch : ∀ item ∈ items.dropLast, item.length + rep.length < 2 ^ 31

/-- The replacements that come out: those with nothing to replace, and those that hold. -/
def Fits (rep text : CString) (items : List CString) : Prop :=
  items.length = 1 ∨ Holds rep text items

variable {orig rep text rest : CString} {items : List CString} {buf : Bytes}

/-! ### Items -/

/-- Where the pattern is found, the text splits. -/
theorem split_of_strstrAt {k : Nat} (h : strstrAt rep rest = some k) : ∃ item tail,
    rest = item ++ rep ++ tail ∧ item.length = k ∧
      ∀ j < item.length, ¬At rep (item ++ rep ++ tail) j := by
  obtain ⟨⟨tail, htail⟩, hle, hfirst⟩ := strstrAt_eq_some h
  have hrest : rest = rest.take k ++ rep ++ tail := by
    rw [List.append_assoc, htail, List.take_append_drop]
  have hlength : (rest.take k).length = k := List.length_take_of_le hle
  refine ⟨rest.take k, tail, hrest, hlength, ?_⟩
  rw [← hrest, hlength]
  exact hfirst

theorem strstrAt_item {item tail : CString}
    (hfirst : ∀ j < item.length, ¬At rep (item ++ rep ++ tail) j) :
    strstrAt rep (item ++ rep ++ tail) = some item.length := by
  have hat : At rep (item ++ rep ++ tail) item.length := by
    rw [At, List.append_assoc, List.drop_left]
    exact List.prefix_append _ _
  cases hk : strstrAt rep (item ++ rep ++ tail) with
  | none => exact absurd hat.occurs (strstrAt_eq_none hk)
  | some k =>
    obtain ⟨hat', -, hfirst'⟩ := strstrAt_eq_some hk
    rw [Option.some.injEq]
    refine Nat.le_antisymm (Nat.not_lt.mp fun hlt => hfirst' _ hlt hat)
      (Nat.not_lt.mp fun hlt => hfirst _ hlt hat')

theorem strstrAt_clean (h : ¬rep <:+: rest) : strstrAt rep rest = none := by
  cases hk : strstrAt rep rest with
  | none => rfl
  | some k => exact absurd (strstrAt_eq_some hk).1.occurs h

/-- **Every text has its items.** -/
theorem exists_items (hrep : rep ≠ []) (orig : CString) : ∃ items, StrItems rep orig items := by
  induction hn : orig.length using Nat.strong_induction_on generalizing orig with
  | _ n ih =>
    subst hn
    cases hk : strstrAt rep orig with
    | none => exact ⟨[orig], .last (strstrAt_eq_none hk)⟩
    | some k =>
      obtain ⟨item, tail, rfl, -, hfirst⟩ := split_of_strstrAt hk
      have hpos : 0 < rep.length := List.length_pos_iff.mpr hrep
      have hlt : tail.length < (item ++ rep ++ tail).length := by
        rw [List.length_append, List.length_append]
        omega
      obtain ⟨items, hitems⟩ := ih _ hlt tail rfl
      exact ⟨item :: items, hitems.cut hrep hfirst⟩

/-- The items of a text without the pattern, and of one with it. -/
theorem items_cases (h : StrItems rep rest items) : (items = [rest] ∧ ¬rep <:+: rest) ∨
    ∃ item tail more, items = item :: more ∧ rest = item ++ rep ++ tail ∧
      StrItems rep tail more ∧ ∀ j < item.length, ¬At rep (item ++ rep ++ tail) j := by
  obtain ⟨-, hclean, hpieces⟩ := h
  cases hpieces with
  | last => exact .inl ⟨rfl, hclean rest (List.mem_singleton_self rest)⟩
  | @cut item tail more first hrest =>
    exact .inr ⟨item, tail, more, rfl, rfl, ⟨hrest.intercalate_eq,
      fun piece hpiece => hclean piece (List.mem_cons_of_mem _ hpiece), hrest⟩, first⟩

theorem StrItems.unique {items' : List CString} (h : StrItems rep orig items)
    (h' : StrItems rep orig items') : items = items' :=
  h.leftmost.unique h'.leftmost h.clean h'.clean

/-! ### Pointers -/

theorem charsAt_append (front rest : CString) :
    charsAt (front ++ rest) (front.length : Int) = some rest := by
  rw [charsAt, if_pos ⟨Int.natCast_nonneg _, by rw [List.length_append]; omega⟩, Int.toNat_natCast,
    List.drop_left]

theorem charsAt_eq_some {p : Int} {chars : CString} (h : charsAt orig p = some chars) :
    0 ≤ p ∧ (chars.length : Int) = orig.length - p := by
  unfold charsAt at h
  split at h
  · rename_i hp
    cases h
    rw [List.length_drop]
    omega
  · cases h

theorem storeAt_append (kept free bytes : Bytes) (h : bytes.length ≤ free.length) :
    storeAt (kept ++ free) (kept.length : Int) bytes =
      some (kept ++ bytes ++ free.drop bytes.length) := by
  rw [storeAt, if_pos (Int.natCast_nonneg _), Int.toNat_natCast, store_append kept h]

theorem storeAt_eq_some {p : Int} {bytes buf' : Bytes} (h : storeAt buf p bytes = some buf') :
    0 ≤ p ∧ p + bytes.length ≤ buf.length ∧ buf'.length = buf.length := by
  unfold storeAt at h
  split at h
  · rename_i hp
    have hlength := length_store h
    unfold store at h
    split at h
    · omega
    · cases h
  · cases h

/-! ### What comes out -/

/-- The text of so many occurrences replaced, and the rest as it is. -/
def replaced (rep text : CString) : Nat → List CString → CString
  | 0, items => rep.intercalate items
  | _ + 1, [] => []
  | _ + 1, [item] => item
  | n + 1, item :: items => item ++ text ++ replaced rep text n items

theorem replaced_cons {item : CString} (hne : items ≠ []) (n : Nat) :
    replaced rep text (n + 1) (item :: items) = item ++ text ++ replaced rep text n items := by
  match items, hne with
  | next :: items, _ => rfl

theorem replaced_all (hne : items ≠ []) {n : Nat} (hn : items.length ≤ n + 1) :
    replaced rep text n items = text.intercalate items := by
  induction n generalizing items with
  | zero =>
    match items, hne with
    | [item], _ => simp [replaced]
    | _ :: _ :: _, _ => simp at hn
  | succ n ih =>
    match items, hne with
    | [item], _ => simp [replaced]
    | item :: next :: items, _ =>
      rw [replaced_cons (List.cons_ne_nil _ _), ih (List.cons_ne_nil _ _) (by simpa using hn),
        List.intercalate_cons_cons]

/-- The lengths are those that the buffer is sized by. -/
theorem length_replaced (h : StrItems rep rest items) {n : Nat} (hn : n + 1 ≤ items.length) :
    ((replaced rep text n items).length : Int) =
      rest.length + ((text.length : Int) - rep.length) * n := by
  induction n generalizing rest items with
  | zero =>
    rw [replaced, h.joined]
    simp
  | succ n ih =>
    rcases items_cases h with ⟨rfl, -⟩ | ⟨item, tail, more, rfl, rfl, hmore, -⟩
    · simp at hn
    · have hrest := ih hmore (by simpa using hn)
      rw [replaced_cons hmore.leftmost.ne_nil]
      simp only [List.length_append, Int.natCast_add]
      rw [hrest]
      push_cast
      ring

/-- **The occurrences are counted.** -/
theorem countLoop_eq (hrep : rep ≠ []) {front : CString} {rounds : Nat}
    (hrounds : rest.length < rounds) (h : StrItems rep rest items) (count : Nat) :
    countLoop (front ++ rest) rep rep.length rounds front.length count =
      some (count + (items.length - 1)) := by
  induction rounds generalizing front rest items count with
  | zero => exact absurd hrounds (Nat.not_lt_zero _)
  | succ rounds ih =>
    rw [countLoop, charsAt_append]
    simp only [Option.bind_eq_bind, Option.bind_some]
    rcases items_cases h with ⟨rfl, hclean⟩ | ⟨item, tail, more, rfl, rfl, hmore, hfirst⟩
    · rw [strstrAt_clean hclean]
      rfl
    · have hpos : 0 < rep.length := List.length_pos_iff.mpr hrep
      have hne := List.length_pos_iff.mpr hmore.leftmost.ne_nil
      have hplace : (front.length + item.length + rep.length : Int) =
          ((front ++ item ++ rep).length : Nat) := by
        rw [List.length_append, List.length_append]
        push_cast
        rfl
      have htext : front ++ (item ++ rep ++ tail) = front ++ item ++ rep ++ tail := by simp
      rw [strstrAt_item hfirst]
      dsimp only
      rw [hplace, htext, ih (by simp only [List.length_append] at hrounds; omega) hmore,
        List.length_cons]
      congr 1
      omega

theorem s32_natCast {n : Nat} (h : n < 2 ^ 31) : s32 (n : Int) = n :=
  s32_of_fits ⟨by omega, by omega⟩

/-- Where the text goes on behind an item and what is replaced. -/
theorem place_stretch {item rep : CString} (h : item.length + rep.length < 2 ^ 31)
    (front : CString) : (front.length : Int) + s32 ((item.length : Int) + rep.length) =
      ((front ++ item ++ rep).length : Nat) := by
  rw [← Int.natCast_add, s32_natCast h, List.length_append, List.length_append]
  push_cast
  ring

/-- **The text is written as long as the buffer has room.** -/
theorem fillLoop_eq (hw : text.length < 2 ^ 31) {n : Nat} {front : CString}
    (h : StrItems rep rest items) (hn : n + 1 ≤ items.length)
    (hstretch : ∀ item ∈ items.take n, item.length + rep.length < 2 ^ 31) (kept free : Bytes)
    (hroom : (replaced rep text n items).length + 1 ≤ free.length) :
    ∃ more, fillLoop (front ++ rest) rep text rep.length text.length n (kept ++ free) kept.length
      front.length = some (kept ++ replaced rep text n items ++ 0 :: more) := by
  induction n generalizing front rest items kept free with
  | zero =>
    rw [replaced, h.joined] at hroom ⊢
    rw [fillLoop, charsAt_append, Option.bind_eq_bind, Option.bind_some,
      storeAt_append kept free _ (by rwa [List.length_append])]
    exact ⟨free.drop (rest ++ [0]).length, by simp⟩
  | succ n ih =>
    rcases items_cases h with ⟨rfl, -⟩ | ⟨item, tail, more, rfl, rfl, hmore, hfirst⟩
    · simp at hn
    · rw [List.take_succ_cons] at hstretch
      obtain ⟨hitem, hrest⟩ := List.forall_mem_cons.mp hstretch
      rw [replaced_cons hmore.leftmost.ne_nil] at hroom ⊢
      simp only [List.length_append] at hroom
      have hfront : s32 (item.length : Int) = item.length := s32_natCast (by omega)
      have htake : (item ++ rep ++ tail).take item.length = item := by
        rw [List.append_assoc, List.take_left]
      have htext : front ++ (item ++ rep ++ tail) = front ++ item ++ rep ++ tail := by simp
      have hkept : (kept.length + item.length : Int) = ((kept ++ item).length : Nat) := by
        rw [List.length_append]
        push_cast
        rfl
      have hkept' : (((kept ++ item).length : Nat) : Int) + text.length =
          ((kept ++ item ++ text).length : Nat) := by
        rw [@List.length_append _ (kept ++ item) text]
        push_cast
        rfl
      have hcopy : strncpyAt (kept ++ free) kept.length (item ++ rep ++ tail) item.length =
          some (kept ++ item ++ free.drop item.length) := by
        rw [strncpyAt, if_neg (by omega), Int.toNat_natCast, htake,
          storeAt_append kept free item (by omega)]
      have hstore := storeAt_append (kept ++ item) (free.drop item.length) (text ++ [0]) (by
        rw [List.length_append, List.length_singleton, List.length_drop]
        omega)
      have hfree : kept ++ item ++ (text ++ [0]) ++
          (free.drop item.length).drop (text ++ [0]).length = kept ++ item ++ text ++
            (0 :: (free.drop item.length).drop (text ++ [0]).length) := by simp
      obtain ⟨more', hfill⟩ := @ih tail more (front ++ item ++ rep) hmore (by simpa using hn) hrest
        (kept ++ item ++ text) (0 :: (free.drop item.length).drop (text ++ [0]).length) (by
          simp only [List.length_cons, List.length_drop, List.length_append, List.length_nil]
          omega)
      refine ⟨more', ?_⟩
      rw [fillLoop, charsAt_append, Option.bind_eq_bind, Option.bind_some, strstrAt_item hfirst,
        Option.bind_eq_bind, Option.bind_some, hfront, hcopy, Option.bind_some, hkept, hstore,
        Option.bind_some, hkept', place_stretch hitem, htext, hfree, hfill]
      simp

/-! ### What does not come out -/

theorem s32_le {x : Int} (h : 0 ≤ x) : s32 x ≤ x := by
  have hmod := s32_emod x
  have hfits := fitsS32_s32 x
  unfold FitsS32 at hfits
  by_cases hneg : s32 x < 0
  · omega
  · omega

theorem s32_le_sub {x : Int} (h : 2 ^ 31 ≤ x) : s32 x ≤ x - 2 ^ 32 := by
  have hmod := s32_emod x
  have hfits := fitsS32_s32 x
  unfold FitsS32 at hfits
  omega

theorem s32_add_s32 (x y : Int) : s32 (s32 x + s32 y) = s32 (x + y) := by
  rw [s32, s32, s32, Int.bmod_add_bmod, Int.add_bmod_bmod]
  rfl

/-- A word that is not negative is of a small number, or of a large one. -/
theorem lt_of_s32_nonneg {n : Nat} (hn : n < 2 ^ 32) (h : 0 ≤ s32 (n : Int)) : n < 2 ^ 31 := by
  by_contra hge
  rw [s32_of_over (by omega) (by omega)] at h
  omega

variable {lenRep lenWith tmp p : Int} {rounds : Nat} {out : Bytes}

/-- **What a round does that does not leave the buffer.** -/
theorem fillLoop_succ
    (h : fillLoop orig rep text lenRep lenWith (rounds + 1) buf tmp p = some out) :
    ∃ chars front buf', charsAt orig p = some chars ∧ strstrAt rep chars = some front ∧
      0 ≤ s32 (front : Int) ∧ 0 ≤ tmp ∧ tmp + s32 front + text.length + 1 ≤ buf.length ∧
      buf'.length = buf.length ∧
      fillLoop orig rep text lenRep lenWith rounds buf' (tmp + s32 front + lenWith)
        (p + s32 (s32 front + lenRep)) = some out := by
  rw [fillLoop, Option.bind_eq_bind, Option.bind_eq_some_iff] at h
  obtain ⟨chars, hchars, h⟩ := h
  rw [Option.bind_eq_bind, Option.bind_eq_some_iff] at h
  obtain ⟨front, hfront, h⟩ := h
  rw [Option.bind_eq_some_iff] at h
  obtain ⟨mid, hmid, h⟩ := h
  rw [Option.bind_eq_some_iff] at h
  obtain ⟨buf', hbuf', h⟩ := h
  unfold strncpyAt at hmid
  split at hmid
  · cases hmid
  rename_i hnonneg
  obtain ⟨htmp, -, hsame⟩ := storeAt_eq_some hmid
  obtain ⟨-, hroom, hsame'⟩ := storeAt_eq_some hbuf'
  rw [List.length_append, List.length_singleton] at hroom
  exact ⟨chars, front, buf', hchars, hfront, not_lt.mp hnonneg, htmp, by omega, by omega, h⟩

/-- The last copy. -/
theorem fillLoop_zero (h : fillLoop orig rep text lenRep lenWith 0 buf tmp p = some out) :
    0 ≤ p ∧ 0 ≤ tmp ∧ tmp + (orig.length - p) + 1 ≤ buf.length ∧ out.length = buf.length := by
  rw [fillLoop] at h
  obtain ⟨chars, hchars, h⟩ := Option.bind_eq_some_iff.mp h
  obtain ⟨hp, hlength⟩ := charsAt_eq_some hchars
  obtain ⟨htmp, hroom, hsame⟩ := storeAt_eq_some h
  rw [List.length_append, List.length_singleton] at hroom
  exact ⟨hp, htmp, by omega, hsame⟩

theorem length_fillLoop (h : fillLoop orig rep text lenRep lenWith rounds buf tmp p = some out) :
    out.length = buf.length ∧ 0 ≤ tmp := by
  induction rounds generalizing buf tmp p with
  | zero =>
    obtain ⟨-, htmp, -, hsame⟩ := fillLoop_zero h
    exact ⟨hsame, htmp⟩
  | succ rounds ih =>
    obtain ⟨chars, front, buf', -, -, -, htmp, -, hsame, hrest⟩ := fillLoop_succ h
    exact ⟨(ih hrest).1.trans hsame, htmp⟩

/-- A pattern that is too long for an `int` is replaced in no buffer. -/
theorem fillLoop_long (hrep : 2 ^ 31 ≤ rep.length)
    (h : fillLoop orig rep text (s32 rep.length) lenWith (rounds + 1) buf tmp p = some out) :
    2 ^ 32 ≤ buf.length := by
  induction rounds generalizing buf tmp p with
  | zero =>
    obtain ⟨chars, front, buf', hchars, hfront, hnonneg, -, -, hsame, hrest⟩ := fillLoop_succ h
    obtain ⟨-, htmp, hroom, -⟩ := fillLoop_zero hrest
    obtain ⟨hat, hle, -⟩ := strstrAt_eq_some hfront
    have hinside := hat.add_length_le hle
    obtain ⟨-, hlength⟩ := charsAt_eq_some hchars
    have hstep : s32 (s32 front + s32 rep.length) ≤ front + rep.length - 2 ^ 32 := by
      rw [s32_add_s32]
      exact s32_le_sub (by omega)
    omega
  | succ rounds ih =>
    obtain ⟨chars, front, buf', -, -, -, -, -, hsame, hrest⟩ := fillLoop_succ h
    exact hsame ▸ ih hrest

/-- **The buffer has room for what is written**, however the pointer in the text has moved. -/
theorem fillLoop_room (hrep : rep.length < 2 ^ 31)
    (h : fillLoop orig rep text rep.length text.length rounds buf tmp p = some out) :
    tmp + ((text.length : Int) - rep.length) * rounds + (orig.length - p) + 1 ≤ buf.length := by
  induction rounds generalizing buf tmp p with
  | zero =>
    obtain ⟨-, -, hroom, -⟩ := fillLoop_zero h
    simpa using hroom
  | succ rounds ih =>
    obtain ⟨chars, front, buf', -, -, hnonneg, -, -, hsame, hrest⟩ := fillLoop_succ h
    have hroom := ih hrest
    have hstep : s32 (s32 front + rep.length) ≤ s32 front + rep.length := s32_le (by omega)
    have hsum : ((text.length : Int) - rep.length) * (rounds + 1 : Nat) =
        ((text.length : Int) - rep.length) * rounds + (text.length - rep.length) := by
      push_cast
      ring
    rw [hsame] at hroom
    rw [hsum]
    omega

/-- **Every stretch is one that an `int` holds.** -/
theorem fillLoop_stretch (hrep : rep.length < 2 ^ 31) (hbuf : buf.length < 2 ^ 32)
    {front rest : CString} (h : StrItems rep rest items) (hn : rounds + 1 ≤ items.length)
    (hitems : ∀ item ∈ items, item.length < 2 ^ 32)
    (hfill : fillLoop (front ++ rest) rep text rep.length text.length rounds buf tmp front.length =
      some out) : ∀ item ∈ items.take rounds, item.length + rep.length < 2 ^ 31 := by
  induction rounds generalizing buf tmp front rest items with
  | zero =>
    rw [List.take_zero]
    exact fun _ hmem => absurd hmem List.not_mem_nil
  | succ rounds ih =>
    rcases items_cases h with ⟨rfl, -⟩ | ⟨item, tail, more, rfl, rfl, hmore, hfirst⟩
    · simp at hn
    obtain ⟨chars, k, buf', hchars, hk, hnonneg, htmp, -, hsame, hrest⟩ := fillLoop_succ hfill
    rw [charsAt_append, Option.some.injEq] at hchars
    subst hchars
    rw [strstrAt_item hfirst, Option.some.injEq] at hk
    subst hk
    obtain ⟨hitem, hmoreItems⟩ := List.forall_mem_cons.mp hitems
    have hlt := lt_of_s32_nonneg hitem hnonneg
    have hword : s32 (item.length : Int) = item.length := s32_natCast hlt
    rw [hword] at hrest
    have hstretch : item.length + rep.length < 2 ^ 31 := by
      by_contra hge
      rw [s32_of_over (by omega) (by omega)] at hrest
      have hroom := fillLoop_room hrep hrest
      have hreplaced := @length_replaced rep text tail more hmore rounds (by simpa using hn)
      simp only [List.length_append, Int.natCast_add] at hroom
      omega
    have htext : front ++ (item ++ rep ++ tail) = front ++ item ++ rep ++ tail := by simp
    rw [place_stretch hstretch, htext] at hrest
    rw [List.take_succ_cons]
    exact List.forall_mem_cons.mpr
      ⟨hstretch, ih (hsame ▸ hbuf) hmore (by simpa using hn) hmoreItems hrest⟩

/-- A text that is too long for an `int` moves the pointer in front of the buffer. -/
theorem fillLoop_with (hbuf : buf.length < 2 ^ 32)
    (h : fillLoop orig rep text lenRep (s32 text.length) (rounds + 1) buf 0 p = some out) :
    text.length < 2 ^ 31 := by
  obtain ⟨chars, front, buf', -, -, hnonneg, -, hroom, -, hrest⟩ := fillLoop_succ h
  by_contra hge
  have htmp := (length_fillLoop hrest).2
  have hlt : text.length < 2 ^ 32 := by omega
  rw [@s32_of_over (text.length : Int) (by omega) (by omega)] at htmp
  omega

theorem countLoop_bounds {count c : Nat} (h : countLoop orig rep lenRep rounds p count = some c) :
    count ≤ c ∧ c < count + rounds := by
  induction rounds generalizing p count with
  | zero => cases h
  | succ rounds ih =>
    rw [countLoop] at h
    obtain ⟨chars, -, h⟩ := Option.bind_eq_some_iff.mp h
    cases hk : strstrAt rep chars with
    | none =>
      rw [hk] at h
      cases h
      omega
    | some k =>
      rw [hk] at h
      have hrest := ih h
      omega

theorem length_untilZero {l s : Bytes} (h : untilZero l = some s) : s.length < l.length := by
  induction l generalizing s with
  | nil => cases h
  | cons c l ih =>
    unfold untilZero at h
    split at h
    · cases h
      exact Nat.succ_pos _
    · obtain ⟨s', hs', rfl⟩ := Option.map_eq_some_iff.mp h
      exact Nat.succ_lt_succ (ih hs')

/-! ### The buffer -/

/-- The buffer that `strsReplace` writes into. -/
def buffer (orig rep text : CString) (count : Nat) : Bytes :=
  argsGetBuff (s32 (orig.length +
    s32 (s32 (s32 text.length - s32 rep.length) * s32 count) + 1))

theorem length_buffer_lt (count : Nat) : (buffer orig rep text count).length < 2 ^ 32 := by
  rw [buffer, argsGetBuff, List.length_replicate]
  omega

/-- It has a byte more than the text needs, as far as a `uint32_t` counts them. -/
theorem length_buffer (hrep : rep.length < 2 ^ 31) (hwith : text.length < 2 ^ 31)
    (h : StrItems rep orig items) : (buffer orig rep text (items.length - 1)).length =
      ((text.intercalate items).length + 2) % 2 ^ 32 := by
  have hne := List.length_pos_iff.mpr h.leftmost.ne_nil
  have hlength := @length_replaced rep text orig items h (items.length - 1) (by omega)
  rw [replaced_all h.leftmost.ne_nil (by omega)] at hlength
  have hdiff : s32 ((text.length : Int) - rep.length) = text.length - rep.length :=
    s32_of_fits ⟨by omega, by omega⟩
  have hsize : s32 (orig.length +
      s32 (((text.length : Int) - rep.length) * s32 ((items.length - 1 : Nat) : Int)) + 1) =
      s32 (((text.intercalate items).length + 1 : Nat) : Int) := by
    have hmul : s32 (((text.length : Int) - rep.length) * s32 ((items.length - 1 : Nat) : Int)) =
        s32 (((text.length : Int) - rep.length) * (items.length - 1 : Nat)) := Int.mul_bmod_bmod
    have hswap : ∀ a b : Int, s32 (a + s32 b + 1) = s32 (a + b + 1) := by
      intro a b
      rw [add_right_comm, add_right_comm a b]
      exact Int.add_bmod_bmod
    rw [hmul, hswap, ← hlength]
    push_cast
    rfl
  rw [buffer, s32_natCast hrep, s32_natCast hwith, hdiff, hsize, length_buff]

/-- The run of `strsReplace` where there is something to replace. -/
theorem strsReplace_eq (hfound : strstrAt rep orig ≠ none) (hlen : s32 (rep.length : Int) ≠ 0) :
    strsReplace orig rep text =
      (countLoop orig rep (s32 rep.length) (orig.length + 2) 0 0).bind fun count =>
        (fillLoop orig rep text (s32 rep.length) (s32 text.length) (u32 count)
          (buffer orig rep text count) 0 0).bind fun buf => (untilZero buf).map some := by
  have hrounds : ∀ count : Nat, (s32 (count : Int) % 2 ^ 32).toNat = u32 count := by
    intro count
    rw [s32_emod, u32]
    omega
  rw [strsReplace, if_neg hfound]
  dsimp only
  rw [if_neg hlen]
  simp only [Option.bind_eq_bind, hrounds]
  refine congrArg _ (funext fun count => congrArg _ (funext fun buf => ?_))
  cases untilZero buf <;> rfl

theorem not_mem_replaced (hwith : 0 ∉ text) (hrest : 0 ∉ rest) (h : StrItems rep rest items)
    (n : Nat) : 0 ∉ replaced rep text n items := by
  induction n generalizing rest items with
  | zero => rwa [replaced, h.joined]
  | succ n ih =>
    rcases items_cases h with ⟨rfl, -⟩ | ⟨item, tail, more, rfl, rfl, hmore, -⟩
    · exact hrest
    · simp only [List.mem_append, not_or] at hrest
      rw [replaced_cons hmore.leftmost.ne_nil]
      simp only [List.mem_append, not_or]
      exact ⟨⟨hrest.1.1, hwith⟩, ih hrest.2 hmore⟩

/-- Over the whole text: the occurrences are counted. -/
theorem countLoop_items (hrep : rep ≠ []) (h : StrItems rep orig items) :
    countLoop orig rep rep.length (orig.length + 2) 0 0 = some (items.length - 1) := by
  have hcounted := @countLoop_eq rep orig items hrep [] (orig.length + 2) (by omega) h 0
  rwa [List.nil_append, Nat.zero_add, List.length_nil, Int.natCast_zero] at hcounted

/-- Over the whole text: it is written as long as the buffer has room. -/
theorem fillLoop_items (hw : text.length < 2 ^ 31) {n : Nat} (h : StrItems rep orig items)
    (hn : n + 1 ≤ items.length)
    (hstretch : ∀ item ∈ items.take n, item.length + rep.length < 2 ^ 31)
    (hroom : (replaced rep text n items).length + 1 ≤ buf.length) :
    ∃ more, fillLoop orig rep text rep.length text.length n buf 0 0 =
      some (replaced rep text n items ++ 0 :: more) := by
  obtain ⟨more, hfill⟩ := @fillLoop_eq rep text orig items hw n [] h hn hstretch [] buf hroom
  rw [List.nil_append, List.nil_append, List.nil_append, List.length_nil,
    Int.natCast_zero] at hfill
  exact ⟨more, hfill⟩

/-- What fits comes out. -/
theorem strsReplace_of_holds (hrep : rep ≠ []) (horig : 0 ∉ orig) (hwith : 0 ∉ text)
    (h : StrItems rep orig items) (hholds : Holds rep text items)
    (hmany : items.length ≠ 1) :
    strsReplace orig rep text = some (some (text.intercalate items)) := by
  rcases items_cases h with ⟨rfl, -⟩ | ⟨item, tail, more, rfl, rfl, hmore, hfirst⟩
  · exact absurd rfl hmany
  have hpos : 0 < rep.length := List.length_pos_iff.mpr hrep
  have hne := List.length_pos_iff.mpr hmore.leftmost.ne_nil
  have hlt : rep.length < 2 ^ 31 := by
    have hitem := hholds.stretch item (by
      rw [List.dropLast_cons_of_ne_nil hmore.leftmost.ne_nil]
      exact List.mem_cons_self)
    omega
  have hcount : u32 ((item :: more).length - 1) = (item :: more).length - 1 := by
    refine u32_of_lt ?_
    have hle := hholds.count
    rw [List.length_cons] at hle ⊢
    omega
  have hroom := @length_buffer (item ++ rep ++ tail) rep text (item :: more) hlt hholds.lenWith h
  have hall := @replaced_all rep text (item :: more) h.leftmost.ne_nil
    ((item :: more).length - 1) (by omega)
  obtain ⟨left, hfill⟩ := @fillLoop_items (item ++ rep ++ tail) rep text (item :: more)
    (buffer (item ++ rep ++ tail) rep text ((item :: more).length - 1)) hholds.lenWith
    ((item :: more).length - 1) h (by rw [List.length_cons]; omega)
    (by rw [← List.dropLast_eq_take]; exact hholds.stretch) (by
      rw [hall, hroom, Nat.mod_eq_of_lt hholds.size]
      omega)
  rw [hall] at hfill
  rw [strsReplace_eq (by rw [strstrAt_item hfirst]; exact Option.some_ne_none _)
    (by rw [s32_natCast hlt]; omega), s32_natCast hlt, s32_natCast hholds.lenWith]
  rw [countLoop_items hrep h, Option.bind_some, hcount, hfill, Option.bind_some,
    untilZero_append]
  · rfl
  · have hnot := @not_mem_replaced rep text (item ++ rep ++ tail)
      (item :: more) hwith horig h ((item :: more).length - 1)
    rwa [hall] at hnot

theorem length_item_le {item : CString} (hitem : item ∈ items) :
    item.length ≤ (text.intercalate items).length := by
  induction items with
  | nil => cases hitem
  | cons first items ih =>
    cases items with
    | nil =>
      obtain rfl := List.mem_singleton.mp hitem
      simp
    | cons second items =>
      rw [List.intercalate_cons_cons, List.length_append, List.length_append]
      rcases List.mem_cons.mp hitem with rfl | hitem
      · omega
      · have hrest := ih hitem
        omega

/-- The new text comes out once for each occurrence. -/
theorem mul_length_le : text.length * (items.length - 1) ≤ (text.intercalate items).length := by
  induction items with
  | nil => simp
  | cons first items ih =>
    cases items with
    | nil => simp
    | cons second items =>
      rw [List.intercalate_cons_cons, List.length_append, List.length_append, List.length_cons,
        List.length_cons, Nat.add_sub_cancel, Nat.mul_succ]
      rw [List.length_cons, Nat.add_sub_cancel] at ih
      omega

/-- Of `2^32` occurrences and more, some would be left. -/
theorem few_of_fillLoop (hrep : rep ≠ []) (hlt : rep.length < 2 ^ 31) (horig : 0 ∉ orig)
    (hwith : 0 ∉ text) (h : StrItems rep orig items) (hbuf : buf.length < 2 ^ 32)
    (hfill : fillLoop orig rep text rep.length (s32 text.length) (u32 (items.length - 1)) buf 0 0 =
      some out) (hread : untilZero out = some (text.intercalate items)) :
    items.length ≤ 2 ^ 32 := by
  by_contra hge
  have hpos : 0 < rep.length := List.length_pos_iff.mpr hrep
  have hword : u32 (items.length - 1) < 2 ^ 32 := Nat.mod_lt _ (by decide)
  have hsize := length_untilZero hread
  rw [(length_fillLoop hfill).1] at hsize
  -- the new text is empty, as it comes out so often
  have hnil : text.length = 0 := by
    by_contra hnonempty
    have hle := @mul_length_le text items
    have hmul : 1 * (items.length - 1) ≤ text.length * (items.length - 1) :=
      Nat.mul_le_mul_right _ (Nat.pos_of_ne_zero hnonempty)
    omega
  have hsmall : ∀ item ∈ items, item.length < 2 ^ 32 := fun item hitem => by
    have hle := @length_item_le text items item hitem
    omega
  rw [@s32_natCast text.length (by omega)] at hfill
  have hroom := fillLoop_room hlt hfill
  have hlength := @length_replaced rep text orig items h (u32 (items.length - 1)) (by omega)
  have hlength' := @length_replaced rep text orig items h (items.length - 1) (by omega)
  have hstretch := @fillLoop_stretch rep text items buf 0 (u32 (items.length - 1)) out hlt hbuf []
    orig h (by omega) hsmall hfill
  obtain ⟨left, hout⟩ := @fillLoop_items orig rep text items buf (by omega)
    (u32 (items.length - 1)) h (by omega) hstretch (by omega)
  rw [hfill, Option.some.injEq] at hout
  rw [hout, untilZero_append (not_mem_replaced hwith horig h _), Option.some.injEq,
    ← @replaced_all rep text items h.leftmost.ne_nil (items.length - 1) (by omega)] at hread
  rw [hread, hlength', hnil, Int.natCast_zero, Int.zero_sub, Int.neg_mul, Int.neg_mul] at hlength
  have hsame : (rep.length : Int) * (u32 (items.length - 1) : Nat) =
      rep.length * (items.length - 1 : Nat) := by
    omega
  have hcancel := Int.eq_of_mul_eq_mul_left (by omega) hsame
  omega

/-- A pattern that an `int` does not hold writes outside the buffer. -/
theorem length_rep_lt {count : Nat} (hfound : strstrAt rep orig ≠ none)
    (hcount : countLoop orig rep (s32 rep.length) (orig.length + 2) 0 0 = some count)
    (hbuf : buf.length < 2 ^ 32)
    (hfill : fillLoop orig rep text (s32 rep.length) lenWith (u32 count) buf 0 0 = some out) :
    rep.length < 2 ^ 31 := by
  have hone : 1 ≤ count := by
    rw [countLoop] at hcount
    obtain ⟨chars, hchars, hcount⟩ := Option.bind_eq_some_iff.mp hcount
    have horigChars : charsAt orig 0 = some orig := @charsAt_append [] orig
    rw [horigChars, Option.some.injEq] at hchars
    subst hchars
    obtain ⟨k, hk⟩ := Option.ne_none_iff_exists'.mp hfound
    rw [hk] at hcount
    exact (countLoop_bounds hcount).1
  by_contra hge
  cases hrounds : u32 count with
  | zero =>
    rw [hrounds] at hfill
    obtain ⟨-, -, hroom, -⟩ := fillLoop_zero hfill
    have hmany := (countLoop_bounds hcount).2
    have hdvd : 2 ^ 32 ≤ count := by
      unfold u32 at hrounds
      omega
    omega
  | succ rounds =>
    rw [hrounds] at hfill
    have hlong := fillLoop_long (not_lt.mp hge) hfill
    omega

/-- What comes out fits. -/
theorem holds_of_strsReplace (hrep : rep ≠ []) (horig : 0 ∉ orig) (hwith : 0 ∉ text)
    (h : StrItems rep orig items) (hmany : items.length ≠ 1)
    (hrun : strsReplace orig rep text = some (some (text.intercalate items))) :
    Holds rep text items := by
  rcases items_cases h with ⟨rfl, -⟩ | ⟨item, tail, more, hitems, horigEq, hmore, hfirst⟩
  · exact absurd rfl hmany
  have hpos : 0 < rep.length := List.length_pos_iff.mpr hrep
  have hne := List.length_pos_iff.mpr hmore.leftmost.ne_nil
  have hitemsLength : items.length = more.length + 1 := by rw [hitems, List.length_cons]
  have hfound : strstrAt rep orig = some item.length := horigEq ▸ strstrAt_item hfirst
  have hlen : s32 (rep.length : Int) ≠ 0 := by
    intro hzero
    rw [strsReplace, if_neg (by rw [hfound]; exact Option.some_ne_none _)] at hrun
    dsimp only at hrun
    rw [if_pos hzero] at hrun
    cases hrun
  rw [strsReplace_eq (by rw [hfound]; exact Option.some_ne_none _) hlen] at hrun
  obtain ⟨count, hcount, hrun⟩ := Option.bind_eq_some_iff.mp hrun
  obtain ⟨out, hfill, hrun⟩ := Option.bind_eq_some_iff.mp hrun
  obtain ⟨s, hread, hs⟩ := Option.map_eq_some_iff.mp hrun
  obtain rfl := Option.some.inj hs
  have hshort := length_untilZero hread
  rw [(length_fillLoop hfill).1] at hshort
  have hbuf := @length_buffer_lt orig rep text count
  have hsize : (text.intercalate items).length < 2 ^ 32 := by omega
  have hsmall : ∀ item ∈ items, item.length < 2 ^ 32 := fun item hitem => by
    have hle := @length_item_le text items item hitem
    omega
  have hlt : rep.length < 2 ^ 31 :=
    length_rep_lt (by rw [hfound]; exact Option.some_ne_none _) hcount hbuf hfill
  rw [s32_natCast hlt] at hcount hfill
  obtain rfl := Option.some.inj (hcount.symm.trans (countLoop_items hrep h))
  have hstretch : ∀ n ≤ items.length - 1, u32 (items.length - 1) = n → text.length < 2 ^ 31 →
      ∀ item ∈ items.take n, item.length + rep.length < 2 ^ 31 := by
    intro n hn hrounds hshort
    rw [hrounds, s32_natCast hshort] at hfill
    exact @fillLoop_stretch rep text items _ 0 n out hlt hbuf [] orig h (by omega) hsmall hfill
  have hfew := few_of_fillLoop hrep hlt horig hwith h hbuf hfill hread
  have hcountWord : u32 (items.length - 1) = items.length - 1 := u32_of_lt (by omega)
  have hlenWith : text.length < 2 ^ 31 := by
    obtain ⟨n, hn⟩ : ∃ n, items.length - 1 = n + 1 := ⟨items.length - 2, by omega⟩
    rw [hcountWord, hn] at hfill
    rw [hn] at hbuf
    exact fillLoop_with hbuf hfill
  refine ⟨?_, hlenWith, hfew, ?_⟩
  · have hroom := @length_buffer orig rep text items hlt hlenWith h
    omega
  · rw [List.dropLast_eq_take]
    exact hstretch _ le_rfl hcountWord hlenWith

/-- A shorter text is put in the place of the pattern everywhere, or nowhere. -/
theorem strsReplace_shorter (hrep : rep.length < 2 ^ 31) (hshorter : text.length < rep.length)
    (horig : 0 ∉ orig) (hwith : 0 ∉ text) (h : StrItems rep orig items) {r : Option CString}
    (hrun : strsReplace orig rep text = some r) : r = some (text.intercalate items) := by
  have hne : rep ≠ [] := List.length_pos_iff.mp (Nat.zero_lt_of_lt hshorter)
  have hlen : s32 (rep.length : Int) ≠ 0 := by
    rw [s32_natCast hrep]
    omega
  by_cases hfound : strstrAt rep orig = none
  · rcases items_cases h with ⟨rfl, -⟩ | ⟨item, tail, more, rfl, rfl, -, hfirst⟩
    · rw [strsReplace, if_pos hfound, Option.some.injEq] at hrun
      rw [← hrun]
      simp
    · rw [strstrAt_item hfirst] at hfound
      cases hfound
  rw [strsReplace_eq hfound hlen] at hrun
  obtain ⟨count, hcount, hrun⟩ := Option.bind_eq_some_iff.mp hrun
  obtain ⟨out, hfill, hrun⟩ := Option.bind_eq_some_iff.mp hrun
  obtain ⟨s, hread, rfl⟩ := Option.map_eq_some_iff.mp hrun
  rw [s32_natCast hrep] at hcount hfill
  rw [s32_natCast (by omega : text.length < 2 ^ 31)] at hfill
  obtain rfl := Option.some.inj (hcount.symm.trans (countLoop_items hne h))
  have hpos := List.length_pos_iff.mpr h.leftmost.ne_nil
  have hbuf := @length_buffer_lt orig rep text (items.length - 1)
  have hroom := fillLoop_room hrep hfill
  have hlength := @length_replaced rep text orig items h (items.length - 1) (by omega)
  rw [replaced_all h.leftmost.ne_nil (by omega)] at hlength
  have hbare := @length_replaced rep [] orig items h (items.length - 1) (by omega)
  rw [List.length_nil, Int.natCast_zero, Int.zero_sub, Int.neg_mul] at hbare
  obtain ⟨d, hd⟩ := Nat.exists_eq_add_of_le hshorter.le
  have hdiff : (text.length : Int) - rep.length = -d := by omega
  have hcountWord : u32 (items.length - 1) = items.length - 1 := by
    refine u32_of_lt ?_
    by_contra hmany
    have hless : u32 (items.length - 1) + 2 ^ 32 ≤ items.length - 1 := by
      have hlt : u32 (items.length - 1) < 2 ^ 32 := Nat.mod_lt _ (by decide)
      have hmod : u32 (items.length - 1) = (items.length - 1) % 2 ^ 32 := rfl
      omega
    have hmul := Nat.mul_le_mul_left d hless
    have hall : d * (items.length - 1) ≤ rep.length * (items.length - 1) :=
      Nat.mul_le_mul_right _ (by omega)
    rw [hdiff, Int.neg_mul, ← Int.natCast_mul] at hroom
    rw [← Int.natCast_mul] at hbare
    rw [Nat.mul_add] at hmul
    omega
  rw [hcountWord] at hfill hroom
  have hsmall : ∀ item ∈ items, item.length < 2 ^ 32 := fun item hitem => by
    have hle := @length_item_le text items item hitem
    omega
  have hstretch := @fillLoop_stretch rep text items _ 0 (items.length - 1) out hrep hbuf [] orig h
    (by omega) hsmall hfill
  have hall := @replaced_all rep text items h.leftmost.ne_nil (items.length - 1) (by omega)
  obtain ⟨left, hout⟩ := @fillLoop_items orig rep text items
    (buffer orig rep text (items.length - 1)) (by omega) (items.length - 1) h (by omega)
    hstretch (by
      rw [hall]
      omega)
  rw [hfill, Option.some.injEq, hall] at hout
  have hnot := not_mem_replaced hwith horig h (items.length - 1)
  rw [replaced_all h.leftmost.ne_nil (by omega)] at hnot
  rw [hout, untilZero_append hnot] at hread
  rw [hread]

/-- A text without the pattern stays as it is. -/
theorem strsReplace_clean (h : ¬rep <:+: orig) : strsReplace orig rep text = some (some orig) := by
  rw [strsReplace, if_pos (strstrAt_clean h)]

theorem strsReplace_of_fits (hrep : rep ≠ []) (horig : 0 ∉ orig) (hwith : 0 ∉ text)
    (h : StrItems rep orig items) (hfits : Fits rep text items) :
    strsReplace orig rep text = some (some (text.intercalate items)) := by
  by_cases hmany : items.length = 1
  · obtain ⟨item, rfl⟩ := List.length_eq_one_iff.mp hmany
    obtain rfl : item = orig := by simpa using h.joined
    rw [strsReplace_clean (h.clean item (List.mem_singleton_self item))]
    simp
  · exact strsReplace_of_holds hrep horig hwith h (hfits.resolve_left hmany) hmany

theorem fits_of_strsReplace (hrep : rep ≠ []) (horig : 0 ∉ orig) (hwith : 0 ∉ text)
    (h : StrItems rep orig items)
    (hrun : strsReplace orig rep text = some (some (text.intercalate items))) :
    Fits rep text items := by
  by_cases hmany : items.length = 1
  · exact .inl hmany
  · exact .inr (holds_of_strsReplace hrep horig hwith h hmany hrun)

end Replace

end PikaScript
