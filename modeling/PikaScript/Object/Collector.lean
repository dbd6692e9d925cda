import Mathlib.Data.Bool.AllAny
import PikaScript.Lib.DepthFirst
import PikaScript.Lib.Word
import PikaScript.Object.Refcount

/-! The mark-sweep collector of `PikaObj.c` (`PIKA_GC_MARK_SWEEP_ENABLE`).

Every object is on one chain. A round marks what can be reached from the roots and
calls `obj_GC` on the first sixteen objects that are not marked: that counts one
reference less, and an object without references is deinitialised, which gives up
the references in its args. Rounds are made until nothing is left to sweep.

The calls under way are a list of tasks, innermost first. An object whose
deinitialisation has begun stays on the chain to its end, and its counter may go on
down below zero; a container is protected by `OBJ_FLAG_IN_DEL` then. `Sound` is what
holds between any two calls; `Live` is what saves the objects that can be reached,
as long as a counted reference to each of them is in something that can be reached,
too (`collects_iff`). The marker follows weak references as well. -/
namespace PikaScript

/-! ### The code -/

/-- An arg that refers to an object. It is counted when deinitialising it gives a
reference up: not in a weak reference, nor in a tuple that only borrows its list. -/
structure ObjRef where
  target : ObjId
  counted : Bool
deriving DecidableEq, Repr

/-- What a collection reads of objects and does not change: the args in the list of an
object, and those a dict, list or tuple holds. These three have a native `__del__`; there
is no other one. -/
structure GcGraph where
  root : ObjId → Bool
  container : ObjId → Bool
  members : ObjId → List ObjRef
  items : ObjId → List ObjRef

/-- `g_PikaObjState`, and the fields of objects that a collection writes. -/
structure GcState where
  gcChain : List ObjId
  refcnt : ObjId → Nat
  marked : ObjId → Bool
  inDel : ObjId → Bool
  markSweepBusy : Nat
  /-- The objects `obj_deinit` has been called on. -/
  deinited : List ObjId

/-- A call under way. -/
inductive GcTask where
  /-- `obj_GC` of an object on the free list. -/
  | sweep (o : ObjId)
  /-- `arg_deinit` of a counted arg that refers to an object. -/
  | drop (o : ObjId)
  /-- The end of `obj_deinit_no_del`. -/
  | free (o : ObjId)
deriving DecidableEq, Repr

namespace GcGraph
variable (g : GcGraph) (o : ObjId)

/-- The args `pikaGC_markObj` goes through. -/
def succ : List ObjId :=
  (g.members o ++ if g.container o then g.items o else []).map ObjRef.target

/-- The references `obj_deinit` gives up: `__del__` those of the items first. -/
def owned : List ObjId :=
  (((if g.container o then g.items o else []) ++ g.members o).filter ObjRef.counted).map
    ObjRef.target

end GcGraph

namespace GcState
variable (g : GcGraph) (s : GcState)

/-- `obj_refcntDec`. -/
def refcntDec (o : ObjId) : GcState :=
  { s with refcnt := Function.update s.refcnt o (u8 (s.refcnt o + 255)) }

/-- `obj_deinit`. -/
def objDeinit (o : ObjId) : GcState × List GcTask :=
  ({ s with
      inDel := if g.container o then Function.update s.inDel o true else s.inDel
      deinited := s.deinited ++ [o] },
    (g.owned o).map .drop ++ [.free o])

/-- `obj_GC`: not of an object that is not alive or in `__del__`. -/
def objGC (o : ObjId) : GcState × List GcTask :=
  if !s.gcChain.contains o then (s, [])
  else if s.inDel o then (s, [])
  else
    let s := refcntDec s o
    if s.refcnt o = 0 then objDeinit g s o else (s, [])

/-- The innermost call: what it leaves, and the calls it makes. -/
def step : GcTask → GcState × List GcTask
  | .sweep o => objGC g s o
  | .drop o => objGC g s o
  | .free o => ({ s with gcChain := s.gcChain.erase o }, [])

/-- Calls up to the last return; none if that takes more steps. -/
def finish : Nat → GcState → List GcTask → Option GcState
  | _, s, [] => some s
  | 0, _, _ :: _ => none
  | n + 1, s, task :: tasks => finish n (step g s task).1 ((step g s task).2 ++ tasks)

/-- `_pikaGC_mark`. None if it comes to an object that is not alive. -/
def mark (n : Nat) : Option GcState := do
  let marked ← DepthFirst.run g.succ s.gcChain.contains n (fun _ => false)
    (s.gcChain.filter g.root)
  return { s with marked := marked }

/-- The free list of `pikaGC_markSweepOnce`. -/
def freeList : List ObjId := (s.gcChain.filter fun o => !s.marked o).take 16

/-- `pikaGC_markSweepOnce`. -/
def markSweepOnce (n : Nat) : Option (GcState × Nat) := do
  let s ← mark g s n
  let freed ← finish g n s (s.freeList.map .sweep)
  return (freed, s.freeList.length)

/-- The rounds of `pikaGC_markSweep`. -/
def markSweepLoop (n : Nat) : Nat → GcState → Option GcState
  | 0, _ => none
  | rounds + 1, s => do
    let (s, count) ← markSweepOnce g s n
    if count ≠ 0 then markSweepLoop n rounds s else return s

/-- `pikaGC_markSweep`, in so many rounds of so many steps. -/
def markSweep (n : Nat) : Option GcState :=
  if 0 < s.markSweepBusy then some s
  else do
    let s ← markSweepLoop g n n { s with markSweepBusy := s.markSweepBusy + 1 }
    return { s with markSweepBusy := s.markSweepBusy - 1 }

/-! ### What is claimed -/

/-- What can be reached from a root on the chain. -/
def Reachable (o : ObjId) : Prop := DepthFirst.Reachable g.succ (s.gcChain.filter g.root) o

/-- The counted references in the objects of a list. -/
def references (l : List ObjId) : List ObjId := l.flatMap g.owned

/-- **Exact counts**: a graph of objects on the chain, each with the references to it in its
counter, and `extra` ones that are in no object; a root has one of these. -/
structure Exact (extra : ObjId → Nat) (s : GcState) : Prop where
  nodup : s.gcChain.Nodup
  targets : ∀ o ∈ s.gcChain, g.succ o ⊆ s.gcChain
  refcnt : ∀ o ∈ s.gcChain, s.refcnt o = extra o + (references g s.gcChain).count o
  small : ∀ o ∈ s.gcChain, s.refcnt o < 2 ^ 8
  root : ∀ o ∈ s.gcChain, g.root o → 1 ≤ extra o
  inDel : ∀ o ∈ s.gcChain, s.inDel o = false
  unlocked : s.markSweepBusy = 0
  deinited : s.deinited = []

/-- **What a collection is for**: it comes to its end, has deinitialised each object at most
once and none that can be reached, and left nothing on the chain that cannot. -/
def Collects : Prop :=
  ∃ n s', markSweep g s n = some s' ∧ s'.deinited.Nodup ∧ (∀ o ∈ s'.deinited, ¬Reachable g s o) ∧
    ∀ o ∈ s'.gcChain, Reachable g s' o

/-- A reference from outside, or a counted one in something that can be reached, unless there
is no counted one at all. -/
def Held (extra : ObjId → Nat) (o : ObjId) : Prop :=
  1 ≤ extra o ∨ (∃ p, Reachable g s p ∧ o ∈ g.owned p) ∨ o ∉ references g s.gcChain

/-! ### The tasks -/

/-- The objects whose deinitialisation is under way. -/
def freeing (tasks : List GcTask) : List ObjId :=
  tasks.filterMap fun | .free o => some o | _ => none

/-- The references that are being given up. -/
def drops (tasks : List GcTask) : List ObjId :=
  tasks.filterMap fun | .drop o => some o | _ => none

/-- An object on the free list is swept when nothing else is under way. -/
def SweepsLast : List GcTask → Prop
  | [] => True
  | .sweep _ :: tasks => freeing tasks = [] ∧ SweepsLast tasks
  | .drop _ :: tasks => SweepsLast tasks
  | .free _ :: tasks => SweepsLast tasks

/-- The objects on the chain whose args are as they were. -/
def standing (s : GcState) (tasks : List GcTask) : List ObjId :=
  s.gcChain.filter fun o => !(freeing tasks).contains o

/-- The counted references there are still, in objects or being given up. -/
def pending (s : GcState) (tasks : List GcTask) : List ObjId :=
  drops tasks ++ references g (standing s tasks)

section
variable {g : GcGraph} {s₀ s s' : GcState} {o x : ObjId} {tasks : List GcTask}
  {extra : ObjId → Nat}

@[simp] theorem freeing_sweep : freeing (.sweep o :: tasks) = freeing tasks := rfl
@[simp] theorem freeing_drop : freeing (.drop o :: tasks) = freeing tasks := rfl
@[simp] theorem freeing_free : freeing (.free o :: tasks) = o :: freeing tasks := rfl

/-- The tasks of `obj_deinit`. -/
theorem freeing_deinit : freeing ((g.owned o).map .drop ++ [.free o] ++ tasks) =
    o :: freeing tasks := by
  unfold freeing
  rw [List.filterMap_append, List.filterMap_append, List.filterMap_map]
  have hnone : (g.owned o).filterMap ((fun | GcTask.free o => some o | _ => none) ∘ GcTask.drop) =
      [] := List.filterMap_eq_nil_iff.mpr fun _ _ => rfl
  rw [hnone]
  rfl

theorem drops_deinit : drops ((g.owned o).map .drop ++ [.free o] ++ tasks) =
    g.owned o ++ drops tasks := by
  unfold drops
  rw [List.filterMap_append, List.filterMap_append, List.filterMap_map]
  have hsome : (g.owned o).filterMap ((fun | GcTask.drop o => some o | _ => none) ∘ GcTask.drop) =
      g.owned o := List.filterMap_some
  rw [hsome, List.append_assoc]
  rfl

theorem sweepsLast_deinit (h : SweepsLast tasks) :
    SweepsLast ((g.owned o).map .drop ++ [.free o] ++ tasks) := by
  induction g.owned o with
  | nil => exact h
  | cons _ _ ih => exact ih

theorem not_sweep_mem_deinit : GcTask.sweep x ∉ (g.owned o).map .drop ++ [.free o] := by
  simp

theorem mem_standing : o ∈ standing s tasks ↔ o ∈ s.gcChain ∧ o ∉ freeing tasks := by
  simp [standing]

@[simp] theorem standing_nil : standing s [] = s.gcChain :=
  List.filter_eq_self.mpr fun _ _ => rfl

@[simp] theorem pending_nil : pending g s [] = references g s.gcChain := by
  rw [pending, standing_nil]
  rfl

theorem nodup_standing (h : s.gcChain.Nodup) : (standing s tasks).Nodup := h.filter _

/-- What stands when the deinitialisation of an object begins. -/
theorem standing_cons (h : s.gcChain.Nodup) {tasks' : List GcTask}
    (htasks : freeing tasks' = o :: freeing tasks) :
    standing s tasks' = (standing s tasks).erase o := by
  rw [(nodup_standing h).erase_eq_filter, standing, standing, List.filter_filter, htasks]
  refine List.filter_congr fun p _ => ?_
  rw [List.contains_cons, Bool.not_or]
  rfl

/-- The references in the objects of a list, one object and the others. -/
theorem count_references {l : List ObjId} (h : o ∈ l) :
    (references g l).count x = (g.owned o).count x + (references g (l.erase o)).count x := by
  simp only [references, List.count_flatMap]
  exact (List.sum_map_erase (fun p => (g.owned p).count x) h).symm

end

/-! ### Every call -/

@[simp] theorem refcntDec_refcnt (s : GcState) (o : ObjId) :
    (refcntDec s o).refcnt o = u8 (s.refcnt o + 255) := Function.update_self ..

theorem refcntDec_refcnt_of_ne (s : GcState) {o x : ObjId} (h : x ≠ o) :
    (refcntDec s o).refcnt x = s.refcnt x := Function.update_of_ne h ..

/-- `__del__` sets a flag in the object. -/
theorem objDeinit_inDel (g : GcGraph) (s : GcState) (o x : ObjId) :
    (objDeinit g s o).1.inDel x = true ↔ x = o ∧ g.container o = true ∨ s.inDel x = true := by
  unfold objDeinit
  by_cases hxo : x = o
  · subst hxo
    cases hcontainer : g.container x with
    | true => simp only [if_true, Function.update_self, and_self, true_or]
    | false => simp only [Bool.false_eq_true, if_false, and_false, false_or]
  · dsimp only
    split
    · rw [Function.update_of_ne hxo]
      exact ⟨.inr, fun hx => hx.resolve_left fun h => hxo h.1⟩
    · exact ⟨.inr, fun hx => hx.resolve_left fun h => hxo h.1⟩

/-- How far a counter has gone below zero. -/
def debt (refcnt : Nat) : Nat := u8 (2 ^ 8 - refcnt)

/-- **What holds between any two calls** of a collection that began at `s₀`: an object is
deinitialised where it stops standing, and one that is being deinitialised is a container in
`__del__`, or its counter has not gone down by as many references as there are. -/
structure Sound (g : GcGraph) (s₀ s : GcState) (tasks : List GcTask) : Prop where
  nodup : s.gcChain.Nodup
  chain : s.gcChain.Sublist s₀.gcChain
  small : ∀ o ∈ s.gcChain, s.refcnt o < 2 ^ 8
  sweeps : SweepsLast tasks
  freeing_nodup : (freeing tasks).Nodup
  freeing_mem : ∀ o ∈ freeing tasks, o ∈ s.gcChain
  deinited_nodup : s.deinited.Nodup
  deinited : ∀ o, o ∈ s.deinited ↔ o ∈ s₀.gcChain ∧ o ∉ standing s tasks
  inDel : ∀ o ∈ s.gcChain, s.inDel o = true ↔ o ∈ freeing tasks ∧ g.container o = true
  pending : ∀ o, (pending g s tasks).count o ≤ (references g s₀.gcChain).count o
  spare : ∀ o ∈ freeing tasks, g.container o = false →
    debt (s.refcnt o) + (GcState.pending g s tasks).count o < 2 ^ 8

/-- What `obj_GC` does. -/
theorem objGC_cases (g : GcGraph) (s : GcState) (o : ObjId) :
    (o ∉ s.gcChain ∨ s.inDel o = true) ∧ objGC g s o = (s, []) ∨
    (o ∈ s.gcChain ∧ s.inDel o = false ∧ (refcntDec s o).refcnt o ≠ 0 ∧
      objGC g s o = (refcntDec s o, [])) ∨
    (o ∈ s.gcChain ∧ s.inDel o = false ∧ (refcntDec s o).refcnt o = 0 ∧
      objGC g s o = objDeinit g (refcntDec s o) o) := by
  unfold objGC
  by_cases halive : o ∈ s.gcChain
  · rw [List.contains_iff_mem.mpr halive, if_neg (by decide)]
    cases hdel : s.inDel o with
    | true => exact .inl ⟨.inr rfl, rfl⟩
    | false =>
      rw [if_neg Bool.false_ne_true]
      by_cases hzero : (refcntDec s o).refcnt o = 0
      · exact .inr (.inr ⟨halive, rfl, hzero, if_pos hzero⟩)
      · exact .inr (.inl ⟨halive, rfl, hzero, if_neg hzero⟩)
  · rw [if_pos (by simp [halive])]
    exact .inl ⟨.inl halive, rfl⟩

section
variable {g : GcGraph} {s₀ s s' : GcState} {o x : ObjId} {tasks : List GcTask}
  {extra : ObjId → Nat}

/-- A call that is done leaves the rest. -/
theorem Sound.sweep_tail (h : Sound g s₀ s (.sweep o :: tasks)) : Sound g s₀ s tasks :=
  { h with sweeps := h.sweeps.2 }

theorem pending_drop : pending g s (.drop o :: tasks) = o :: pending g s tasks := rfl

theorem Sound.drop_tail (h : Sound g s₀ s (.drop o :: tasks)) : Sound g s₀ s tasks where
  nodup := h.nodup
  chain := h.chain
  small := h.small
  sweeps := h.sweeps
  freeing_nodup := h.freeing_nodup
  freeing_mem := h.freeing_mem
  deinited_nodup := h.deinited_nodup
  deinited := h.deinited
  inDel := h.inDel
  pending x := (List.count_le_count_cons ..).trans (h.pending x)
  spare x hx hplain := Nat.lt_of_le_of_lt
    (Nat.add_le_add_left (List.count_le_count_cons ..) _) (h.spare x hx hplain)

/-- A plain object that is being deinitialised has a reference to give up. -/
def Room (g : GcGraph) (s : GcState) (tasks : List GcTask) (o : ObjId) : Prop :=
  o ∈ freeing tasks → g.container o = false →
    debt (s.refcnt o) + (GcState.pending g s tasks).count o + 1 < 2 ^ 8

theorem Sound.room_sweep (h : Sound g s₀ s (.sweep o :: tasks)) : Room g s tasks o := by
  intro hfree
  rw [h.sweeps.1] at hfree
  cases hfree

theorem Sound.room_drop (h : Sound g s₀ s (.drop o :: tasks)) : Room g s tasks o := by
  intro hfree hplain
  have hspare := h.spare o hfree hplain
  rw [pending_drop, List.count_cons_self] at hspare
  omega

/-- One more reference given up leaves a counter below zero short of zero. -/
theorem debt_pred {r : Nat} (hr : r < 2 ^ 8) (hdebt : debt r + 1 < 2 ^ 8) :
    u8 (r + 255) ≠ 0 ∧ debt (u8 (r + 255)) = debt r + 1 := by
  unfold debt u8 at *
  omega

/-- The references there are when the deinitialisation of an object begins. -/
theorem count_pending_deinit (h : s.gcChain.Nodup) (ho : o ∈ standing s tasks) :
    (pending g s ((g.owned o).map .drop ++ [.free o] ++ tasks)).count x =
      (pending g s tasks).count x := by
  rw [pending, pending, drops_deinit, standing_cons h freeing_deinit, List.append_assoc,
    List.count_append, List.count_append, List.count_append, count_references ho]
  omega

/-- The object at which `obj_GC` calls `obj_deinit` is one that stands. -/
theorem Sound.standing_of_zero (h : Sound g s₀ s tasks)
    (hroom : Room g s tasks o)
    (halive : o ∈ s.gcChain) (hdel : s.inDel o = false) (hzero : (refcntDec s o).refcnt o = 0) :
    o ∈ standing s tasks := by
  refine mem_standing.mpr ⟨halive, fun hfree => ?_⟩
  cases hcontainer : g.container o with
  | true =>
    rw [(h.inDel o halive).mpr ⟨hfree, hcontainer⟩] at hdel
    cases hdel
  | false =>
    have hroom := hroom hfree hcontainer
    rw [refcntDec_refcnt] at hzero
    exact (debt_pred (h.small o halive) (by omega)).1 hzero

/-- A counter goes down by one. -/
theorem Sound.refcntDec (h : Sound g s₀ s tasks) (halive : o ∈ s.gcChain)
    (hroom : Room g s tasks o) :
    Sound g s₀ (GcState.refcntDec s o) tasks := by
  refine { h with small := fun x hx => ?_, spare := fun x hx hplain => ?_ }
  · by_cases hxo : x = o
    · rw [hxo, refcntDec_refcnt]
      exact u8_lt _
    · rw [refcntDec_refcnt_of_ne s hxo]
      exact h.small x hx
  · have hpending : GcState.pending g (GcState.refcntDec s o) tasks = GcState.pending g s tasks :=
      rfl
    rw [hpending]
    by_cases hxo : x = o
    · subst hxo
      have hroom := hroom hx hplain
      rw [refcntDec_refcnt, (debt_pred (h.small x halive) (by omega)).2]
      omega
    · rw [refcntDec_refcnt_of_ne s hxo]
      exact h.spare x hx hplain

/-- The deinitialisation of an object begins. -/
theorem Sound.objDeinit (hexact : Exact g extra s₀) (h : Sound g s₀ s tasks)
    (ho : o ∈ standing s tasks) (hzero : s.refcnt o = 0) :
    Sound g s₀ (GcState.objDeinit g s o).1 ((GcState.objDeinit g s o).2 ++ tasks) := by
  obtain ⟨halive, hfree⟩ := mem_standing.mp ho
  have hstanding : standing s ((g.owned o).map .drop ++ [.free o] ++ tasks) =
      (standing s tasks).erase o := standing_cons h.nodup freeing_deinit
  have hcount (x : ObjId) : (GcState.pending g (GcState.objDeinit g s o).1
      ((GcState.objDeinit g s o).2 ++ tasks)).count x = (GcState.pending g s tasks).count x :=
    count_pending_deinit h.nodup ho
  have hdeinited : o ∉ s.deinited := fun hmem => ((h.deinited o).mp hmem).2 ho
  have hfreeing : freeing ((GcState.objDeinit g s o).2 ++ tasks) = o :: freeing tasks :=
    freeing_deinit
  refine ⟨h.nodup, h.chain, h.small, sweepsLast_deinit h.sweeps, ?_, fun x hx => ?_, ?_,
    fun x => ?_, fun x hx => ?_, fun x => (hcount x).trans_le (h.pending x),
    fun x hx hplain => ?_⟩
  · rw [hfreeing]
    exact List.nodup_cons.mpr ⟨hfree, h.freeing_nodup⟩
  · rw [hfreeing] at hx
    rcases List.mem_cons.mp hx with rfl | hx
    · exact halive
    · exact h.freeing_mem x hx
  · exact List.nodup_append.mpr ⟨h.deinited_nodup, List.nodup_singleton o, fun x hx y hy hxy =>
      hdeinited (List.mem_singleton.mp hy ▸ hxy ▸ hx)⟩
  · have hmem : x ∈ standing (GcState.objDeinit g s o).1 ((GcState.objDeinit g s o).2 ++ tasks) ↔
        x ≠ o ∧ x ∈ standing s tasks :=
      hstanding ▸ (nodup_standing h.nodup).mem_erase_iff
    refine (List.mem_append.trans (or_congr_left (h.deinited x))).trans ?_
    refine Iff.trans ?_ (and_congr_right fun _ => not_congr hmem).symm
    rw [List.mem_singleton, not_and]
    by_cases hxo : x = o
    · subst hxo
      exact ⟨fun _ => ⟨h.chain.subset halive, fun hne => absurd rfl hne⟩, fun _ => .inr rfl⟩
    · exact ⟨fun hx => ⟨(hx.resolve_right hxo).1, fun _ => (hx.resolve_right hxo).2⟩,
        fun hx => .inl ⟨hx.1, hx.2 hxo⟩⟩
  · rw [hfreeing, List.mem_cons, objDeinit_inDel, h.inDel x hx, or_and_right]
    exact or_congr_left (and_congr_right fun hxo => hxo ▸ Iff.rfl)
  · rw [hcount]
    rw [hfreeing] at hx
    rcases List.mem_cons.mp hx with rfl | hx
    · have hchain := h.chain.subset halive
      have hle := h.pending x
      have hrefcnt := hexact.refcnt x hchain
      have hsmall := hexact.small x hchain
      have hdebt : debt ((GcState.objDeinit g s x).1.refcnt x) = 0 := congrArg debt hzero
      omega
    · exact h.spare x hx hplain

/-- **`obj_GC` keeps what holds between calls.** -/
theorem Sound.objGC (hexact : Exact g extra s₀) (h : Sound g s₀ s tasks)
    (hroom : Room g s tasks o) :
    Sound g s₀ (GcState.objGC g s o).1 ((GcState.objGC g s o).2 ++ tasks) := by
  rcases objGC_cases g s o with ⟨-, heq⟩ | ⟨halive, hdel, hpos, heq⟩ | ⟨halive, hdel, hzero, heq⟩
  · rw [heq]
    exact h
  · rw [heq]
    exact h.refcntDec halive hroom
  · rw [heq]
    exact (h.refcntDec halive hroom).objDeinit hexact
      (h.standing_of_zero hroom halive hdel hzero) hzero

/-- What stands when a deinitialisation ends. -/
theorem standing_free (h : s.gcChain.Nodup) (o : ObjId) (tasks : List GcTask) :
    standing { s with gcChain := s.gcChain.erase o } tasks = standing s (.free o :: tasks) := by
  rw [standing_cons h freeing_free, (nodup_standing h).erase_eq_filter, standing, standing,
    h.erase_eq_filter, List.filter_filter, List.filter_filter]
  exact List.filter_congr fun _ _ => Bool.and_comm ..

theorem pending_free (h : s.gcChain.Nodup) (o : ObjId) (tasks : List GcTask) :
    pending g { s with gcChain := s.gcChain.erase o } tasks = pending g s (.free o :: tasks) := by
  rw [pending, standing_free h]
  rfl

/-- The deinitialisation of an object ends. -/
theorem Sound.free (h : Sound g s₀ s (.free o :: tasks)) :
    Sound g s₀ { s with gcChain := s.gcChain.erase o } tasks := by
  have hfreeing := List.nodup_cons.mp h.freeing_nodup
  have hpending := pending_free (g := g) h.nodup o tasks
  have hmem {x : ObjId} (hx : x ∈ s.gcChain.erase o) : x ≠ o ∧ x ∈ s.gcChain :=
    h.nodup.mem_erase_iff.mp hx
  refine ⟨h.nodup.erase o, List.erase_sublist.trans h.chain, fun x hx => h.small x (hmem hx).2,
    h.sweeps, hfreeing.2, fun x hx => ?_, h.deinited_nodup, fun x => ?_, fun x hx => ?_,
    fun x => ?_, fun x hx hplain => ?_⟩
  · have hxo : x ≠ o := fun hxo => hfreeing.1 (hxo ▸ hx)
    exact h.nodup.mem_erase_iff.mpr ⟨hxo, h.freeing_mem x (List.mem_cons_of_mem _ hx)⟩
  · rw [standing_free h.nodup]
    exact h.deinited x
  · rw [h.inDel x (hmem hx).2, freeing_free, List.mem_cons, or_iff_right (hmem hx).1]
  · rw [hpending]
    exact h.pending x
  · rw [hpending]
    exact h.spare x (List.mem_cons_of_mem _ hx) hplain

/-- **Every call keeps what holds between calls.** -/
theorem Sound.step {task : GcTask} (hexact : Exact g extra s₀)
    (h : Sound g s₀ s (task :: tasks)) :
    Sound g s₀ (GcState.step g s task).1 ((GcState.step g s task).2 ++ tasks) := by
  cases task with
  | sweep o => exact h.sweep_tail.objGC hexact h.room_sweep
  | drop o => exact h.drop_tail.objGC hexact h.room_drop
  | free o => exact h.free

theorem tasks_begin (l : List ObjId) :
    SweepsLast (l.map .sweep) ∧ freeing (l.map .sweep) = [] ∧ drops (l.map .sweep) = [] := by
  induction l with
  | nil => exact ⟨trivial, rfl, rfl⟩
  | cons _ _ ih => exact ⟨⟨ih.2.1, ih.1⟩, ih.2⟩

theorem standing_begin (marked : ObjId → Bool) (l : List ObjId) :
    standing { s with marked := marked } (l.map .sweep) = standing s [] := by
  rw [standing, (tasks_begin l).2.1]
  rfl

theorem pending_begin (marked : ObjId → Bool) (l : List ObjId) :
    pending g { s with marked := marked } (l.map .sweep) = pending g s [] := by
  rw [pending, standing_begin, (tasks_begin l).2.2]
  rfl

/-- A round begins. -/
theorem Sound.begin (h : Sound g s₀ s []) (marked : ObjId → Bool) (l : List ObjId) :
    Sound g s₀ { s with marked := marked } (l.map .sweep) := by
  obtain ⟨hlast, hfreeing, -⟩ := tasks_begin l
  have hstanding := standing_begin (s := s) marked l
  have hpending := pending_begin (g := g) (s := s) marked l
  exact ⟨h.nodup, h.chain, h.small, hlast, hfreeing ▸ h.freeing_nodup,
    hfreeing ▸ h.freeing_mem, h.deinited_nodup, hstanding ▸ h.deinited, hfreeing ▸ h.inDel,
    hpending ▸ h.pending, hpending ▸ hfreeing ▸ h.spare⟩

/-! ### What can be reached -/

/-- **What saves the objects that can be reached**: they stand, with the references to them in
their counters, and are not swept. -/
structure Live (g : GcGraph) (extra : ObjId → Nat) (s₀ s : GcState) (tasks : List GcTask) :
    Prop where
  standing : ∀ o, Reachable g s₀ o → o ∈ standing s tasks
  refcnt : ∀ o, Reachable g s₀ o → s.refcnt o = extra o + (pending g s tasks).count o
  pos : ∀ o, Reachable g s₀ o → s₀.refcnt o = 0 ∨ 1 ≤ s.refcnt o
  sweeps : ∀ o, .sweep o ∈ tasks → ¬Reachable g s₀ o

/-- An object that could be reached is gone. -/
def Lost (g : GcGraph) (extra : ObjId → Nat) (s₀ s : GcState) : Prop :=
  ∃ o, Reachable g s₀ o ∧ o ∈ s.deinited ∧ ¬Held g s₀ extra o

/-- `obj_GC` of an object that cannot be reached. -/
theorem Live.objGC (hsound : Sound g s₀ s tasks) (h : Live g extra s₀ s tasks)
    (ho : ¬Reachable g s₀ o)
    (hroom : Room g s tasks o) :
    Live g extra s₀ (GcState.objGC g s o).1 ((GcState.objGC g s o).2 ++ tasks) := by
  have hne {x : ObjId} (hx : Reachable g s₀ x) : x ≠ o := fun heq => ho (heq ▸ hx)
  rcases objGC_cases g s o with ⟨-, heq⟩ | ⟨halive, hdel, hpos, heq⟩ | ⟨halive, hdel, hzero, heq⟩
  · rw [heq]
    exact h
  · rw [heq]
    refine ⟨h.standing, fun x hx => ?_, fun x hx => ?_, h.sweeps⟩
    · rw [refcntDec_refcnt_of_ne s (hne hx)]
      exact h.refcnt x hx
    · rw [refcntDec_refcnt_of_ne s (hne hx)]
      exact h.pos x hx
  · rw [heq]
    have hstands := hsound.standing_of_zero hroom halive hdel hzero
    have hstanding : GcState.standing s ((g.owned o).map .drop ++ [.free o] ++ tasks) =
        (GcState.standing s tasks).erase o := standing_cons hsound.nodup freeing_deinit
    have hcount (x : ObjId) : (GcState.pending g (objDeinit g (refcntDec s o) o).1
        ((objDeinit g (refcntDec s o) o).2 ++ tasks)).count x =
        (GcState.pending g s tasks).count x :=
      count_pending_deinit hsound.nodup hstands
    have hrefcnt {x : ObjId} (hx : Reachable g s₀ x) :
        (objDeinit g (refcntDec s o) o).1.refcnt x = s.refcnt x :=
      refcntDec_refcnt_of_ne s (hne hx)
    refine ⟨fun x hx => ?_, fun x hx => ?_, fun x hx => ?_, fun x hx => ?_⟩
    · have hmem : x ∈ (GcState.standing s tasks).erase o :=
        (nodup_standing hsound.nodup).mem_erase_iff.mpr ⟨hne hx, h.standing x hx⟩
      exact hstanding.symm ▸ hmem
    · rw [hrefcnt hx, hcount]
      exact h.refcnt x hx
    · rw [hrefcnt hx]
      exact h.pos x hx
    · exact h.sweeps x ((List.mem_append.mp hx).resolve_left not_sweep_mem_deinit)

/-- What there is of an object that can be reached when a reference to it is given up. -/
theorem Live.drop_of_reachable (hsound : Sound g s₀ s (.drop o :: tasks))
    (h : Live g extra s₀ s (.drop o :: tasks)) (ho : Reachable g s₀ o) :
    (GcState.objGC g s o = (GcState.refcntDec s o, []) ∧
      Live g extra s₀ (GcState.refcntDec s o) tasks) ∨
      Lost g extra s₀ (GcState.objGC g s o).1 := by
  obtain ⟨halive, hfree⟩ := mem_standing.mp (h.standing o ho)
  have hrefcnt := h.refcnt o ho
  rw [pending_drop, List.count_cons_self] at hrefcnt
  have hdec : (GcState.refcntDec s o).refcnt o =
      extra o + (GcState.pending g s tasks).count o := by
    have := hsound.small o halive
    rw [refcntDec_refcnt, u8]
    omega
  have hmem : o ∈ references g s₀.gcChain := by
    have := hsound.pending o
    rw [pending_drop, List.count_cons_self] at this
    exact List.count_pos_iff.mp (by omega)
  rcases objGC_cases g s o with ⟨hdead | hdel, -⟩ | ⟨-, -, hpos, heq⟩ | ⟨-, -, hzero, heq⟩
  · exact absurd halive hdead
  · exact absurd ((hsound.inDel o halive).mp hdel).1 hfree
  · refine .inl ⟨heq, fun x hx => h.standing x hx, fun x hx => ?_, fun x hx => ?_,
      fun x hx => h.sweeps x (List.mem_cons_of_mem _ hx)⟩
    · by_cases hxo : x = o
      · subst hxo
        exact hdec
      · rw [refcntDec_refcnt_of_ne s hxo, h.refcnt x hx, pending_drop,
          List.count_cons_of_ne (Ne.symm hxo)]
        rfl
    · by_cases hxo : x = o
      · subst hxo
        exact .inr (Nat.pos_of_ne_zero hpos)
      · rw [refcntDec_refcnt_of_ne s hxo]
        exact h.pos x hx
  · -- the last counted reference is gone, and nothing that can be reached has one
    rw [hdec] at hzero
    refine .inr ⟨o, ho, ?_, ?_⟩
    · rw [heq]
      exact List.mem_append_right _ (List.mem_singleton_self o)
    · intro hheld
      rcases hheld with hextra | ⟨p, hp, howned⟩ | hnone
      · omega
      · have hmem : o ∈ GcState.pending g s tasks :=
          List.mem_append_right _ (List.mem_flatMap.mpr ⟨p, h.standing p hp, howned⟩)
        have := List.count_pos_iff.mpr hmem
        omega
      · exact hnone hmem

/-- **Every call keeps the objects that can be reached**, or one that nothing holds is lost. -/
theorem Live.step {task : GcTask} (hsound : Sound g s₀ s (task :: tasks))
    (h : Live g extra s₀ s (task :: tasks)) :
    Live g extra s₀ (GcState.step g s task).1 ((GcState.step g s task).2 ++ tasks) ∨
      Lost g extra s₀ (GcState.step g s task).1 := by
  have htail {x : ObjId} (hx : .sweep x ∈ tasks) : ¬Reachable g s₀ x :=
    h.sweeps x (List.mem_cons_of_mem _ hx)
  cases task with
  | sweep o =>
    exact .inl (Live.objGC hsound.sweep_tail ⟨h.standing, h.refcnt, h.pos, fun x => htail⟩
      (h.sweeps o List.mem_cons_self) hsound.room_sweep)
  | drop o =>
    by_cases ho : Reachable g s₀ o
    · refine (h.drop_of_reachable hsound ho).imp_left fun ⟨heq, hlive⟩ => ?_
      rw [GcState.step, heq]
      exact hlive
    · refine .inl (Live.objGC hsound.drop_tail ⟨h.standing, fun x hx => ?_, h.pos, fun x => htail⟩
        ho hsound.room_drop)
      rw [h.refcnt x hx, pending_drop, List.count_cons_of_ne fun heq : o = x => ho (heq ▸ hx)]
  | free o =>
    refine .inl ⟨fun x hx => ?_, fun x hx => ?_, h.pos, fun x => htail⟩
    · exact standing_free hsound.nodup o tasks ▸ h.standing x hx
    · exact (h.refcnt x hx).trans
        (congrArg (extra x + ·.count x) (pending_free (g := g) hsound.nodup o tasks).symm)

/-- The deinitialised objects stay so. -/
theorem deinited_step (g : GcGraph) (s : GcState) (task : GcTask) :
    s.deinited ⊆ (step g s task).1.deinited := by
  have hgc (o : ObjId) : s.deinited ⊆ (GcState.objGC g s o).1.deinited := by
    rcases objGC_cases g s o with ⟨-, heq⟩ | ⟨-, -, -, heq⟩ | ⟨-, -, -, heq⟩
    · rw [heq]
      exact List.Subset.refl _
    · rw [heq]
      exact List.Subset.refl _
    · rw [heq]
      exact List.subset_append_left ..
  cases task with
  | sweep o => exact hgc o
  | drop o => exact hgc o
  | free o => exact List.Subset.refl _

theorem Lost.of_subset (h : Lost g extra s₀ s) (hsub : s.deinited ⊆ s'.deinited) :
    Lost g extra s₀ s' := by
  obtain ⟨o, ho, hmem, hheld⟩ := h
  exact ⟨o, ho, hsub hmem, hheld⟩

/-! ### The end of a round -/

/-- The calls there are to come. -/
def remaining (g : GcGraph) (s : GcState) (tasks : List GcTask) : Nat :=
  tasks.length + ((standing s tasks).map fun o => (g.owned o).length + 1).sum

theorem remaining_objGC (h : Sound g s₀ s tasks)
    (hroom : Room g s tasks o) :
    remaining g (objGC g s o).1 ((objGC g s o).2 ++ tasks) = remaining g s tasks := by
  rcases objGC_cases g s o with ⟨-, heq⟩ | ⟨-, -, -, heq⟩ | ⟨halive, hdel, hzero, heq⟩
  · rw [heq]
    rfl
  · rw [heq]
    rfl
  · have hstands := h.standing_of_zero hroom halive hdel hzero
    have hstanding : standing (objDeinit g (refcntDec s o) o).1
        ((objDeinit g (refcntDec s o) o).2 ++ tasks) = (standing s tasks).erase o :=
      standing_cons h.nodup freeing_deinit
    have hsum := List.sum_map_erase (fun o => (g.owned o).length + 1) hstands
    have hlength : ((objDeinit g (refcntDec s o) o).2 ++ tasks).length =
        (g.owned o).length + 1 + tasks.length := by
      rw [List.length_append, objDeinit, List.length_append, List.length_map,
        List.length_singleton]
    rw [heq, remaining, remaining, hstanding, hlength]
    omega

/-- Each call takes one from what is to come. -/
theorem remaining_step {task : GcTask} (h : Sound g s₀ s (task :: tasks)) :
    remaining g (step g s task).1 ((step g s task).2 ++ tasks) + 1 =
      remaining g s (task :: tasks) := by
  have hcons (htask : freeing (task :: tasks) = freeing tasks) :
      remaining g s (task :: tasks) = remaining g s tasks + 1 := by
    rw [remaining, remaining, standing, htask, List.length_cons]
    exact Nat.add_right_comm ..
  cases task with
  | sweep o =>
    rw [hcons rfl]
    exact congrArg (· + 1) (remaining_objGC h.sweep_tail h.room_sweep)
  | drop o =>
    rw [hcons rfl]
    exact congrArg (· + 1) (remaining_objGC h.drop_tail h.room_drop)
  | free o =>
    have hstanding : standing (step g s (.free o)).1 ((step g s (.free o)).2 ++ tasks) =
        standing s (.free o :: tasks) := standing_free h.nodup o tasks
    have hlength : ((step g s (.free o)).2 ++ tasks).length = tasks.length := rfl
    rw [remaining, remaining, hstanding, hlength, List.length_cons]
    omega

/-- How often an object can be swept before it is deinitialised. -/
def patience (refcnt : Nat) : Nat := if refcnt = 0 then 2 ^ 8 else refcnt

/-- How often the objects that stand can be swept. -/
def sweepsLeft (s : GcState) (tasks : List GcTask) : Nat :=
  ((standing s tasks).map fun o => patience (s.refcnt o)).sum

/-- `obj_GC` takes one from what is left of an object, or all. -/
theorem sweepsLeft_objGC (h : Sound g s₀ s tasks) (hroom : Room g s tasks o) :
    sweepsLeft (objGC g s o).1 ((objGC g s o).2 ++ tasks) ≤ sweepsLeft s tasks ∧
      (o ∈ standing s tasks →
        sweepsLeft (objGC g s o).1 ((objGC g s o).2 ++ tasks) < sweepsLeft s tasks) := by
  have hsame (x : ObjId) (hx : x ∈ (standing s tasks).erase o) :
      patience ((refcntDec s o).refcnt x) = patience (s.refcnt x) := by
    rw [refcntDec_refcnt_of_ne s ((nodup_standing h.nodup).mem_erase_iff.mp hx).1]
  have herase := List.map_congr_left hsame
  rcases objGC_cases g s o with
    ⟨hdead, heq⟩ | ⟨halive, hdel, hpos, heq⟩ | ⟨halive, hdel, hzero, heq⟩
  · rw [heq]
    refine ⟨Nat.le_refl _, fun ho => ?_⟩
    obtain ⟨halive, hfree⟩ := mem_standing.mp ho
    rcases hdead with hdead | hdel
    · exact absurd halive hdead
    · exact absurd ((h.inDel o halive).mp hdel).1 hfree
  · rw [heq]
    have hstanding : standing (refcntDec s o) ([] ++ tasks) = standing s tasks := rfl
    by_cases ho : o ∈ standing s tasks
    · have hbefore := List.sum_map_erase (fun x => patience (s.refcnt x)) ho
      have hafter := List.sum_map_erase (fun x => patience ((refcntDec s o).refcnt x)) ho
      have hlt : patience ((refcntDec s o).refcnt o) < patience (s.refcnt o) := by
        have := h.small o halive
        rw [refcntDec_refcnt] at hpos ⊢
        unfold patience u8 at *
        split <;> split <;> omega
      rw [herase] at hafter
      rw [sweepsLeft, sweepsLeft, hstanding]
      dsimp only
      omega
    · rw [sweepsLeft, sweepsLeft, hstanding]
      rw [List.erase_of_not_mem ho] at herase
      exact ⟨Nat.le_of_eq (congrArg List.sum herase), fun hmem => absurd hmem ho⟩
  · have ho := h.standing_of_zero hroom halive hdel hzero
    have hstanding : standing (objDeinit g (refcntDec s o) o).1
        ((objDeinit g (refcntDec s o) o).2 ++ tasks) = (standing s tasks).erase o :=
      standing_cons h.nodup freeing_deinit
    have hbefore := List.sum_map_erase (fun x => patience (s.refcnt x)) ho
    have hafter : sweepsLeft (objDeinit g (refcntDec s o) o).1
        ((objDeinit g (refcntDec s o) o).2 ++ tasks) =
        (((standing s tasks).erase o).map fun x => patience (s.refcnt x)).sum := by
      rw [sweepsLeft, hstanding]
      exact congrArg List.sum herase
    have hpos : 0 < patience (s.refcnt o) := by
      unfold patience
      split <;> omega
    rw [heq, hafter, sweepsLeft]
    omega

theorem sweepsLeft_step {task : GcTask} (h : Sound g s₀ s (task :: tasks)) :
    sweepsLeft (step g s task).1 ((step g s task).2 ++ tasks) ≤ sweepsLeft s (task :: tasks) := by
  cases task with
  | sweep o => exact (sweepsLeft_objGC h.sweep_tail h.room_sweep).1
  | drop o => exact (sweepsLeft_objGC h.drop_tail h.room_drop).1
  | free o =>
    have hstanding : standing (step g s (.free o)).1 ((step g s (.free o)).2 ++ tasks) =
        standing s (.free o :: tasks) := standing_free h.nodup o tasks
    rw [sweepsLeft, sweepsLeft, hstanding]
    exact Nat.le_refl _

/-! ### Every round -/

variable {n count rounds : Nat}

theorem deinited_finish (h : finish g n s tasks = some s') : s.deinited ⊆ s'.deinited := by
  induction n generalizing s tasks with
  | zero =>
    cases tasks with
    | nil =>
      cases h
      exact List.Subset.refl _
    | cons task tasks => cases h
  | succ n ih =>
    cases tasks with
    | nil =>
      cases h
      exact List.Subset.refl _
    | cons task tasks => exact List.Subset.trans (deinited_step g s task) (ih h)

/-- **What a run of calls keeps.** -/
theorem finish_spec (hexact : Exact g extra s₀) (hsound : Sound g s₀ s tasks)
    (h : finish g n s tasks = some s') :
    Sound g s₀ s' [] ∧ sweepsLeft s' [] ≤ sweepsLeft s tasks ∧
      (Live g extra s₀ s tasks → Live g extra s₀ s' [] ∨ Lost g extra s₀ s') := by
  induction n generalizing s tasks with
  | zero =>
    cases tasks with
    | nil =>
      cases h
      exact ⟨hsound, Nat.le_refl _, .inl⟩
    | cons task tasks => cases h
  | succ n ih =>
    cases tasks with
    | nil =>
      cases h
      exact ⟨hsound, Nat.le_refl _, .inl⟩
    | cons task tasks =>
      obtain ⟨hend, hle, hlive⟩ := ih (hsound.step hexact) h
      refine ⟨hend, hle.trans (sweepsLeft_step hsound), fun hstart => ?_⟩
      rcases hstart.step hsound with hstep | hlost
      · exact hlive hstep
      · exact .inr (hlost.of_subset (deinited_finish (n := n) h))

theorem finish_isSome (hexact : Exact g extra s₀) (hsound : Sound g s₀ s tasks)
    (hn : remaining g s tasks ≤ n) : (finish g n s tasks).isSome := by
  induction n generalizing s tasks with
  | zero =>
    cases tasks with
    | nil => rfl
    | cons task tasks =>
      rw [remaining, List.length_cons] at hn
      omega
  | succ n ih =>
    cases tasks with
    | nil => rfl
    | cons task tasks =>
      have hstep := remaining_step hsound
      exact ih (hsound.step hexact) (by omega)

/-- What can be reached stays what can be reached. -/
theorem Live.reachable_iff (hsound : Sound g s₀ s []) (h : Live g extra s₀ s []) :
    Reachable g s o ↔ Reachable g s₀ o := by
  have hroot {x : ObjId} (hx : x ∈ s₀.gcChain.filter g.root) : x ∈ s.gcChain.filter g.root :=
    List.mem_filter.mpr ⟨(mem_standing.mp (h.standing x ⟨x, hx, .start⟩)).1,
      (List.mem_filter.mp hx).2⟩
  exact ⟨fun ⟨x, hx, hreach⟩ => ⟨x, (hsound.chain.filter g.root).subset hx, hreach⟩,
    fun ⟨x, hx, hreach⟩ => ⟨x, hroot hx, hreach⟩⟩

/-- The marks of a round. -/
theorem mark_spec (h : mark g s n = some s') :
    (∃ marked, s' = { s with marked := marked }) ∧ ∀ o, s'.marked o ↔ Reachable g s o := by
  rw [mark, Option.bind_eq_bind, Option.bind_eq_some_iff] at h
  obtain ⟨marked, hrun, h⟩ := h
  cases h
  exact ⟨⟨marked, rfl⟩, fun o => DepthFirst.run_iff hrun⟩

theorem mark_isSome (hsound : Sound g s₀ s []) (h : Live g extra s₀ s [])
    (hn : s₀.gcChain.length + (s₀.gcChain.map fun o => (g.succ o).length + 1).sum ≤ n) :
    (mark g s n).isSome := by
  have hvalid (o : ObjId) (ho : Reachable g s o) : s.gcChain.contains o ∧ o ∈ s.gcChain := by
    have hmem := (mem_standing.mp (h.standing o ((h.reachable_iff hsound).mp ho))).1
    exact ⟨List.contains_iff_mem.mpr hmem, hmem⟩
  have hrun : (DepthFirst.run g.succ s.gcChain.contains n (fun _ => false)
      (s.gcChain.filter g.root)).isSome := by
    refine DepthFirst.run_isSome hvalid DepthFirst.marking_start (Nat.le_trans ?_ hn)
    refine Nat.add_le_add ?_ ?_
    · exact (List.length_filter_le ..).trans hsound.chain.length_le
    · exact ((List.filter_sublist.trans hsound.chain).map _).sum_le_sum fun _ _ => Nat.zero_le _
  rw [mark]
  obtain ⟨marked, hmarked⟩ := Option.isSome_iff_exists.mp hrun
  rw [hmarked]
  rfl

theorem Sound.mark (h : Sound g s₀ s []) (hmark : GcState.mark g s n = some s') (l : List ObjId) :
    Sound g s₀ s' (l.map .sweep) := by
  obtain ⟨⟨marked, rfl⟩, -⟩ := mark_spec hmark
  exact h.begin marked l

/-- A round sweeps what it has not marked. -/
theorem Live.mark (hsound : Sound g s₀ s []) (h : Live g extra s₀ s [])
    (hmark : GcState.mark g s n = some s') : Live g extra s₀ s' (s'.freeList.map .sweep) := by
  obtain ⟨⟨marked, rfl⟩, hmarked⟩ := mark_spec hmark
  have hstanding := standing_begin (s := s) marked ({ s with marked := marked }.freeList)
  have hpending := pending_begin (g := g) (s := s) marked ({ s with marked := marked }.freeList)
  refine ⟨hstanding ▸ h.standing, hpending ▸ h.refcnt, h.pos, fun o ho hreach => ?_⟩
  obtain ⟨x, hx, heq⟩ := List.mem_map.mp ho
  cases heq
  have hfree := (List.mem_filter.mp (List.mem_of_mem_take hx)).2
  rw [(hmarked o).mpr ((h.reachable_iff hsound).mpr hreach)] at hfree
  cases hfree

/-- A round marks, and sweeps what it has listed then. -/
theorem markSweepOnce_cases (h : markSweepOnce g s n = some (s', count)) :
    ∃ s₁, mark g s n = some s₁ ∧ finish g n s₁ (s₁.freeList.map .sweep) = some s' ∧
      count = s₁.freeList.length := by
  rw [markSweepOnce, Option.bind_eq_bind, Option.bind_eq_some_iff] at h
  obtain ⟨s₁, hmark, h⟩ := h
  obtain ⟨s₂, hfinish, h⟩ := Option.bind_eq_some_iff.mp h
  cases h
  exact ⟨s₁, hmark, hfinish, rfl⟩

/-- **What a round does.** -/
theorem markSweepOnce_spec (hexact : Exact g extra s₀) (hsound : Sound g s₀ s [])
    (hlive : Live g extra s₀ s []) (h : markSweepOnce g s n = some (s', count)) :
    Sound g s₀ s' [] ∧ (Live g extra s₀ s' [] ∨ Lost g extra s₀ s') ∧
      (count = 0 → ∀ o ∈ s'.gcChain, Reachable g s' o) ∧
      (count ≠ 0 → sweepsLeft s' [] < sweepsLeft s []) := by
  obtain ⟨s₁, hmark, hfinish, rfl⟩ := markSweepOnce_cases h
  have hsound₁ := hsound.mark hmark s₁.freeList
  obtain ⟨hend, -, hstill⟩ := finish_spec hexact hsound₁ hfinish
  refine ⟨hend, hstill (hlive.mark hsound hmark), fun hcount o ho => ?_, fun hcount => ?_⟩
  · have hnone := List.length_eq_zero_iff.mp hcount
    rw [hnone, List.map_nil, finish] at hfinish
    cases hfinish
    have hmarked : s'.marked o := by
      have hfilter := (List.take_eq_nil_iff.mp hnone).resolve_left (by decide)
      simpa using List.filter_eq_nil_iff.mp hfilter o ho
    obtain ⟨⟨marked, rfl⟩, hreach⟩ := mark_spec hmark
    exact (hreach o).mp hmarked
  · obtain ⟨o, rest, hlist⟩ := List.exists_cons_of_length_pos (Nat.pos_of_ne_zero hcount)
    rw [hlist] at hfinish hsound₁
    have ho : o ∈ standing s₁ (rest.map .sweep) := by
      refine mem_standing.mpr ⟨?_, by rw [(tasks_begin rest).2.1]; exact List.not_mem_nil⟩
      have hmem : o ∈ s₁.freeList := hlist ▸ List.mem_cons_self
      exact (List.mem_filter.mp (List.mem_of_mem_take hmem)).1
    have hfirst := (sweepsLeft_objGC hsound₁.sweep_tail hsound₁.room_sweep).2 ho
    cases n with
    | zero => cases hfinish
    | succ n =>
      obtain ⟨-, hle, -⟩ := finish_spec hexact (hsound₁.step hexact) hfinish
      refine hle.trans_lt (hfirst.trans_eq ?_)
      obtain ⟨⟨marked, rfl⟩, -⟩ := mark_spec hmark
      rw [sweepsLeft, sweepsLeft, standing_begin]

theorem deinited_markSweepOnce (h : markSweepOnce g s n = some (s', count)) :
    s.deinited ⊆ s'.deinited := by
  obtain ⟨s₁, hmark, hfinish, rfl⟩ := markSweepOnce_cases h
  obtain ⟨⟨marked, rfl⟩, -⟩ := mark_spec hmark
  have hsub := deinited_finish hfinish
  exact hsub

theorem markSweepOnce_isSome (hexact : Exact g extra s₀) (hsound : Sound g s₀ s [])
    (hlive : Live g extra s₀ s [])
    (hmark : s₀.gcChain.length + (s₀.gcChain.map fun o => (g.succ o).length + 1).sum ≤ n)
    (hfinish : 16 + (s₀.gcChain.map fun o => (g.owned o).length + 1).sum ≤ n) :
    (markSweepOnce g s n).isSome := by
  obtain ⟨s₁, hs₁⟩ := Option.isSome_iff_exists.mp (mark_isSome hsound hlive hmark)
  have hremaining : remaining g s₁ (s₁.freeList.map .sweep) ≤ n := by
    refine Nat.le_trans (Nat.add_le_add ?_ ?_) hfinish
    · rw [List.length_map]
      exact List.length_take_le ..
    · have hsub := (hsound.mark hs₁ s₁.freeList).chain
      exact ((List.filter_sublist.trans hsub).map _).sum_le_sum fun _ _ => Nat.zero_le _
  obtain ⟨s₂, hs₂⟩ := Option.isSome_iff_exists.mp
    (finish_isSome hexact (hsound.mark hs₁ s₁.freeList) hremaining)
  rw [markSweepOnce, hs₁, Option.bind_eq_bind, Option.bind_some, hs₂]
  rfl

/-- A round, and the rounds behind it. -/
theorem markSweepLoop_succ (h : markSweepLoop g n (rounds + 1) s = some s') :
    ∃ s₁ count, markSweepOnce g s n = some (s₁, count) ∧
      (count ≠ 0 ∧ markSweepLoop g n rounds s₁ = some s' ∨ count = 0 ∧ s' = s₁) := by
  rw [markSweepLoop, Option.bind_eq_bind, Option.bind_eq_some_iff] at h
  obtain ⟨⟨s₁, count⟩, hround, h⟩ := h
  refine ⟨s₁, count, hround, ?_⟩
  dsimp only at h
  split at h
  · exact .inl ⟨‹_›, h⟩
  · cases h
    exact .inr ⟨not_not.mp ‹_›, rfl⟩

theorem deinited_markSweepLoop (h : markSweepLoop g n rounds s = some s') :
    s.deinited ⊆ s'.deinited := by
  induction rounds generalizing s with
  | zero => cases h
  | succ rounds ih =>
    obtain ⟨s₁, count, hround, h⟩ := markSweepLoop_succ h
    have hsub := deinited_markSweepOnce hround
    rcases h with ⟨-, h⟩ | ⟨-, rfl⟩
    · exact List.Subset.trans hsub (ih h)
    · exact hsub

/-- **What the rounds leave.** -/
theorem markSweepLoop_spec (hexact : Exact g extra s₀) (hsound : Sound g s₀ s [])
    (hlive : Live g extra s₀ s []) (h : markSweepLoop g n rounds s = some s') :
    Lost g extra s₀ s' ∨
      Sound g s₀ s' [] ∧ Live g extra s₀ s' [] ∧ ∀ o ∈ s'.gcChain, Reachable g s' o := by
  induction rounds generalizing s with
  | zero => cases h
  | succ rounds ih =>
    obtain ⟨s₁, count, hround, h⟩ := markSweepLoop_succ h
    obtain ⟨hsound₁, hlive₁, hdone, -⟩ := markSweepOnce_spec hexact hsound hlive hround
    rcases h with ⟨-, h⟩ | ⟨hzero, rfl⟩
    · rcases hlive₁ with hlive₁ | hlost
      · exact ih hsound₁ hlive₁ h
      · exact .inl (hlost.of_subset (deinited_markSweepLoop h))
    · rcases hlive₁ with hlive₁ | hlost
      · exact .inr ⟨hsound₁, hlive₁, hdone hzero⟩
      · exact .inl hlost

/-- The rounds come to their end when every object that can be reached is held. -/
theorem markSweepLoop_isSome (hexact : Exact g extra s₀)
    (hheld : ∀ o, Reachable g s₀ o → Held g s₀ extra o)
    (hmark : s₀.gcChain.length + (s₀.gcChain.map fun o => (g.succ o).length + 1).sum ≤ n)
    (hfinish : 16 + (s₀.gcChain.map fun o => (g.owned o).length + 1).sum ≤ n)
    (hsound : Sound g s₀ s []) (hlive : Live g extra s₀ s [])
    (hrounds : sweepsLeft s [] < rounds) : (markSweepLoop g n rounds s).isSome := by
  induction rounds generalizing s with
  | zero => omega
  | succ rounds ih =>
    obtain ⟨⟨s₁, count⟩, hround⟩ := Option.isSome_iff_exists.mp
      (markSweepOnce_isSome hexact hsound hlive hmark hfinish)
    obtain ⟨hsound₁, hlive₁, -, hless⟩ := markSweepOnce_spec hexact hsound hlive hround
    rw [markSweepLoop, hround, Option.bind_eq_bind, Option.bind_some]
    dsimp only
    split
    · refine ih hsound₁ (hlive₁.resolve_right fun hlost => ?_) ?_
      · obtain ⟨o, ho, -, hnot⟩ := hlost
        exact hnot (hheld o ho)
      · have := hless ‹_›
        omega
    · rfl

/-! ### A collection -/

/-- How a collection begins. -/
theorem Exact.sound (h : Exact g extra s₀) :
    Sound g s₀ { s₀ with markSweepBusy := s₀.markSweepBusy + 1 } [] where
  nodup := h.nodup
  chain := List.Sublist.refl _
  small := h.small
  sweeps := trivial
  freeing_nodup := List.nodup_nil
  freeing_mem _ ho := absurd ho List.not_mem_nil
  deinited_nodup := h.deinited ▸ List.nodup_nil
  deinited o := by
    rw [h.deinited, standing_nil]
    exact ⟨fun ho => absurd ho List.not_mem_nil, fun ho => absurd ho.1 ho.2⟩
  inDel o ho := by
    rw [h.inDel o ho]
    exact ⟨fun hdel => absurd hdel Bool.false_ne_true, fun hfree => absurd hfree.1 List.not_mem_nil⟩
  pending o := by
    rw [pending_nil]
  spare _ ho := absurd ho List.not_mem_nil

theorem Exact.mem_of_reachable (h : Exact g extra s) (ho : Reachable g s o) : o ∈ s.gcChain :=
  DepthFirst.Reachable.mem ho (fun _ hroot => (List.mem_filter.mp hroot).1) h.targets

theorem Exact.live (h : Exact g extra s₀) :
    Live g extra s₀ { s₀ with markSweepBusy := s₀.markSweepBusy + 1 } [] where
  standing o ho := by
    rw [standing_nil]
    exact h.mem_of_reachable ho
  refcnt o ho := by
    rw [pending_nil]
    exact h.refcnt o (h.mem_of_reachable ho)
  pos _ _ := Nat.eq_zero_or_pos _
  sweeps _ ho := absurd ho List.not_mem_nil

/-- What is saved to the end is held. -/
theorem Live.held (hexact : Exact g extra s₀) (hsound : Sound g s₀ s [])
    (h : Live g extra s₀ s []) (hall : ∀ o ∈ s.gcChain, Reachable g s o)
    (ho : Reachable g s₀ o) : Held g s₀ extra o := by
  rcases h.pos o ho with hzero | hpos
  · refine .inr (.inr fun hmem => ?_)
    have hrefcnt := hexact.refcnt o (hexact.mem_of_reachable ho)
    have := List.count_pos_iff.mpr hmem
    omega
  · rw [h.refcnt o ho, pending_nil] at hpos
    rcases Nat.eq_zero_or_pos (extra o) with hextra | hextra
    · have hmem : o ∈ references g s.gcChain := List.count_pos_iff.mp (by omega)
      obtain ⟨p, hp, howned⟩ := List.mem_flatMap.mp hmem
      exact .inr (.inl ⟨p, (h.reachable_iff hsound).mp (hall p hp), howned⟩)
    · exact .inl hextra

/-- A collection that does what it is for has every object that can be reached held. -/
theorem Collects.held (h : Exact g extra s) (hcollects : Collects g s) (ho : Reachable g s o) :
    Held g s extra o := by
  obtain ⟨n, s', hrun, -, hreach, -⟩ := hcollects
  have hunlocked : ¬0 < s.markSweepBusy := Nat.not_lt.mpr (Nat.le_of_eq h.unlocked)
  rw [markSweep, if_neg hunlocked, Option.bind_eq_bind, Option.bind_eq_some_iff] at hrun
  obtain ⟨s₁, hloop, heq⟩ := hrun
  cases heq
  rcases markSweepLoop_spec h h.sound h.live hloop with ⟨p, hp, hlost, -⟩ | ⟨hsound, hlive, hall⟩
  · exact absurd hp (hreach p hlost)
  · exact hlive.held h hsound hall ho

/-- **A collection does what it is for exactly when every object that can be reached is held
by a counted reference in something that can be reached, or from outside**, or has no counted
reference at all. -/
theorem collects_iff (h : Exact g extra s) :
    Collects g s ↔ ∀ o, Reachable g s o → Held g s extra o := by
  refine ⟨fun hcollects o ho => hcollects.held h ho, fun hheld => ?_⟩
  have hbound (a b c : Nat) : ∃ n, a ≤ n ∧ b ≤ n ∧ c < n :=
    ⟨a + b + (c + 1), by omega, by omega, by omega⟩
  obtain ⟨n, hmark, hfinish, hrounds⟩ := hbound
    (s.gcChain.length + (s.gcChain.map fun o => (g.succ o).length + 1).sum)
    (16 + (s.gcChain.map fun o => (g.owned o).length + 1).sum)
    (sweepsLeft { s with markSweepBusy := s.markSweepBusy + 1 } [])
  obtain ⟨s', hloop⟩ := Option.isSome_iff_exists.mp
    (markSweepLoop_isSome h hheld hmark hfinish h.sound h.live hrounds)
  have hunlocked : ¬0 < s.markSweepBusy := Nat.not_lt.mpr (Nat.le_of_eq h.unlocked)
  rcases markSweepLoop_spec h h.sound h.live hloop with ⟨o, ho, -, hnot⟩ | ⟨hsound, hlive, hall⟩
  · exact absurd (hheld o ho) hnot
  · refine ⟨n, { s' with markSweepBusy := s'.markSweepBusy - 1 }, ?_, hsound.deinited_nodup,
      fun o hmem ho => ?_, hall⟩
    · rw [markSweep, if_neg hunlocked, hloop]
      rfl
    · exact ((hsound.deinited o).mp hmem).2 (hlive.standing o ho)

end

/-- A root with a list it is in itself, and garbage with a reference to the list, too. -/
def listGraph : GcGraph where
  root o := o == 0
  container o := o == 1
  members o :=
    if o = 0 then [⟨1, true⟩]
    else if o = 2 then [⟨3, true⟩, ⟨1, true⟩]
    else if o = 3 then [⟨2, true⟩]
    else []
  items o := if o = 1 then [⟨0, true⟩] else []

def listState : GcState where
  gcChain := [3, 2, 1, 0]
  refcnt o := if o = 0 ∨ o = 1 then 2 else 1
  marked _ := false
  inDel _ := false
  markSweepBusy := 0
  deinited := []

theorem exact_list : Exact listGraph (fun o => if o = 0 then 1 else 0) listState where
  nodup := by decide +kernel
  targets := List.all_iff_forall_prop.mp (by decide +kernel)
  refcnt := List.all_iff_forall_prop.mp (by decide +kernel)
  small := List.all_iff_forall_prop.mp (by decide +kernel)
  root := List.all_iff_forall_prop.mp (by decide +kernel)
  inDel := List.all_iff_forall_prop.mp (by decide +kernel)
  unlocked := rfl
  deinited := rfl

theorem collects_list : Collects listGraph listState := by
  refine (collects_iff exact_list).mpr fun o ho => ?_
  have hroot : Reachable listGraph listState 0 := ⟨0, by decide +kernel, .start⟩
  have hcases : o = 0 ∨ o = 1 := by
    refine ho.mem (S := fun o => o = 0 ∨ o = 1)
      (List.all_iff_forall_prop.mp (by decide +kernel)) fun o ho => ?_
    rcases ho with rfl | rfl
    · exact List.all_iff_forall_prop.mp (by decide +kernel)
    · exact List.all_iff_forall_prop.mp (by decide +kernel)
  rcases hcases with rfl | rfl
  · exact .inl (by decide +kernel)
  · exact .inr (.inl ⟨0, hroot, by decide +kernel⟩)

/-- A root with a weak reference to an object that garbage has a counted reference to. -/
def weakGraph : GcGraph where
  root o := o == 0
  container _ := false
  members o :=
    if o = 0 then [⟨1, false⟩] else if o = 2 then [⟨2, true⟩, ⟨1, true⟩] else []
  items _ := []

def weakState : GcState where
  gcChain := [2, 1, 0]
  refcnt _ := 1
  marked _ := false
  inDel _ := false
  markSweepBusy := 0
  deinited := []

theorem exact_weak : Exact weakGraph (fun o => if o = 0 then 1 else 0) weakState where
  nodup := by decide +kernel
  targets := List.all_iff_forall_prop.mp (by decide +kernel)
  refcnt := List.all_iff_forall_prop.mp (by decide +kernel)
  small := List.all_iff_forall_prop.mp (by decide +kernel)
  root := List.all_iff_forall_prop.mp (by decide +kernel)
  inDel := List.all_iff_forall_prop.mp (by decide +kernel)
  unlocked := rfl
  deinited := rfl

/-- The garbage takes the object along. -/
theorem not_collects_weak :
    Exact weakGraph (fun o => if o = 0 then 1 else 0) weakState ∧
      ¬Collects weakGraph weakState := by
  refine ⟨exact_weak, fun hcollects => ?_⟩
  have hreach : Reachable weakGraph weakState 1 :=
    ⟨0, by decide +kernel, .step .start (by decide +kernel)⟩
  have hcases {o : ObjId} (ho : Reachable weakGraph weakState o) : o = 0 ∨ o = 1 := by
    refine ho.mem (S := fun o => o = 0 ∨ o = 1)
      (List.all_iff_forall_prop.mp (by decide +kernel)) fun o ho => ?_
    rcases ho with rfl | rfl
    · exact List.all_iff_forall_prop.mp (by decide +kernel)
    · exact List.all_iff_forall_prop.mp (by decide +kernel)
  rcases hcollects.held exact_weak hreach with hextra | ⟨p, hp, howned⟩ | hnone
  · exact absurd hextra (by decide +kernel)
  · rcases hcases hp with rfl | rfl
    · exact absurd howned (by decide +kernel)
    · exact absurd howned (by decide +kernel)
  · exact hnone (by decide +kernel)

end GcState
end PikaScript
