import Mathlib.Data.List.Count
import Mathlib.Logic.Function.Basic
import PikaScript.Data.Arg
import PikaScript.Lib.Machine

/-! Reference counts of objects: `PikaObj.c` and `dataArg.c`.

An object counts the args that refer to it, in a `uint8_t`. Deinitialising an arg
gives up its reference (`obj_GC`), and giving up the last one deinitialises the
object (`obj_deinit`): its `__del__` runs if it has one, then the args in its own
list are deinitialised, one after the other and each with all that follows from
it, and then its memory is freed. The calls that are under way are the list
`work`, innermost first; a body of `__del__` may itself call everything here.

An object is known by its address, and an address is not given out twice.
`Safe` is what the counts are for. They are right while they do not wrap and
while no `__del__` keeps a reference to its own object (`Counts`). -/
namespace PikaScript

/-- The address of an object. -/
abbrev ObjId := BitVec 64

/-- What `obj_GC` and `obj_deinit` look at. `hasDel` says that there is a `__del__`,
`inDel` is `OBJ_FLAG_IN_DEL`, and `freeing` that `obj_deinit_no_del` has begun. -/
structure Obj where
  refcnt : Nat
  hasDel : Bool
  inDel : Bool
  freeing : Bool
deriving DecidableEq, Repr

/-- A call under way. -/
inductive RefTask where
  /-- `arg_deinit` of an arg, still to be done. -/
  | deinit (arg : Arg)
  /-- `obj_deinit` inside `__del__`. -/
  | inDel (o : ObjId)
  /-- The end of `obj_deinit_no_del`. -/
  | free (o : ObjId)
deriving DecidableEq, Repr

structure RefState where
  obj : ObjId → Option Obj
  /-- The args in the lists of objects, with the object whose list it is. -/
  members : List (ObjId × Arg)
  /-- The args anywhere else. -/
  args : List Arg
  /-- References counted without an arg of their own: `arg_refcntInc` before
  `arg_refcntDec`, a new object before it is put in an arg, a loop register. -/
  holds : List ObjId
  work : List RefTask
  /-- The objects there have been, and those `obj_deinit` was called on. -/
  created : List ObjId
  deinited : List ObjId

inductive RefCall where
  | newObj (o : ObjId) (hasDel : Bool)
  | newArg (arg : Arg)
  | setObj (arg : Arg)
  | copy (arg : Arg)
  | refcntInc (arg : Arg)
  | refcntDec (arg : Arg)
  | deinit (arg : Arg)
  | gc (o : ObjId)
  | setSelf
  | addMember (o : ObjId) (arg : Arg)
  | removeMember (o : ObjId) (arg : Arg)
  /-- The innermost call under way goes on. -/
  | work
  /-- The body of the innermost `__del__` returns. -/
  | endDel
deriving DecidableEq, Repr

namespace RefState
variable (s : RefState)

/-- No object and no arg. -/
def init : RefState := ⟨fun _ => none, [], [], [], [], [], []⟩

/-- `PikaObj` fields written. -/
def setObj (o : ObjId) (ob : Option Obj) : RefState :=
  { s with obj := Function.update s.obj o ob }

/-! ### The code -/

/-- `obj_refcntInc`. -/
def objRefcntInc (o : ObjId) : Option RefState :=
  (s.obj o).map fun ob => s.setObj o (some { ob with refcnt := u8 (ob.refcnt + 1) })

/-- `obj_refcntDec`. -/
def objRefcntDec (o : ObjId) : Option RefState :=
  (s.obj o).map fun ob => s.setObj o (some { ob with refcnt := u8 (ob.refcnt + (2 ^ 8 - 1)) })

/-- `obj_deinit_no_del`: the args of the list are deinitialised in their order,
then the object is freed. -/
def objDeinitNoDel (o : ObjId) (ob : Obj) : RefState :=
  let own := (s.members.filter (·.1 = o)).map (·.2)
  { s.setObj o (some { ob with freeing := true }) with
    members := s.members.filter (·.1 ≠ o)
    work := own.map .deinit ++ .free o :: s.work }

/-- `obj_deinit`, up to the body of `__del__` if there is one. -/
def objDeinit (o : ObjId) (ob : Obj) : RefState :=
  let s := { s with deinited := o :: s.deinited }
  if ob.hasDel then
    { s.setObj o (some { ob with inDel := true }) with work := .inDel o :: s.work }
  else s.objDeinitNoDel o ob

/-- `obj_GC`. A count below zero is not one a `uint8_t` has. -/
def objGC (o : ObjId) : Option RefState :=
  (s.obj o).bind fun ob =>
    if ob.inDel then some s
    else
      (s.objRefcntDec o).map fun s =>
        let ob := { ob with refcnt := u8 (ob.refcnt + (2 ^ 8 - 1)) }
        if ob.refcnt = 0 then s.objDeinit o ob else s

/-- `arg_refcntInc`. -/
def argRefcntInc (arg : Arg) : Option RefState :=
  if arg.isCounted then s.objRefcntInc arg.getPtr else some s

/-- `arg_refcntDec`. -/
def argRefcntDec (arg : Arg) : Option RefState :=
  if arg.isCounted then s.objRefcntDec arg.getPtr else some s

/-- `arg_deinit`, through `arg_deinitHeap`. -/
def argDeinit (arg : Arg) : Option RefState :=
  if arg.isCounted then s.objGC arg.getPtr else some s

/-! ### The machine -/

/-- The args that can be used: those not being deinitialised. -/
def live (arg : Arg) : Prop := arg ∈ s.args ∨ arg ∈ s.members.map (·.2)

instance (arg : Arg) : Decidable (s.live arg) := inferInstanceAs (Decidable (_ ∨ _))

/-- Calls are made when nothing is under way, and by a body of `__del__`. -/
def idle : Bool :=
  match s.work with
  | [] | .inDel _ :: _ => true
  | _ => false

/-- A call. Callers use args that are live and deinitialise each once; a reference
without an arg is given up once. What a freed object would do has no meaning. -/
def call : RefCall → Option RefState
  | .newObj o hasDel =>
    if o ∈ s.created then none
    else some { s.setObj o (some ⟨1, hasDel, false, false⟩) with
      holds := o :: s.holds, created := o :: s.created }
  | .newArg arg => if arg.isCounted then none else some { s with args := arg :: s.args }
  | .setObj arg =>
    if arg.isCounted ∧ arg.getPtr ∈ s.holds then
      some { s with args := arg :: s.args, holds := s.holds.erase arg.getPtr }
    else none
  | .copy arg =>
    if s.live arg then
      (s.argRefcntInc arg).map fun s => { s with args := arg.copy :: s.args }
    else none
  | .refcntInc arg =>
    if s.live arg then
      (s.argRefcntInc arg).map fun s =>
        if arg.isCounted then { s with holds := arg.getPtr :: s.holds } else s
    else none
  | .refcntDec arg =>
    if s.live arg ∧ (arg.isCounted → arg.getPtr ∈ s.holds) then
      (s.argRefcntDec arg).map fun s =>
        if arg.isCounted then { s with holds := s.holds.erase arg.getPtr } else s
    else none
  | .deinit arg =>
    if arg ∈ s.args then
      some { s with args := s.args.erase arg, work := .deinit arg :: s.work }
    else none
  | .gc o => if o ∈ s.holds then { s with holds := s.holds.erase o }.objGC o else none
  | .setSelf =>
    match s.work with
    | .inDel o :: _ => (s.objRefcntInc o).map fun s => { s with holds := o :: s.holds }
    | _ => none
  | .addMember o arg =>
    if arg ∈ s.args ∧ (s.obj o).any (!·.freeing) then
      some { s with args := s.args.erase arg, members := (o, arg) :: s.members }
    else none
  | .removeMember o arg =>
    if (o, arg) ∈ s.members then
      some { s with members := s.members.erase (o, arg), work := .deinit arg :: s.work }
    else none
  | .work | .endDel => none

/-- What is under way goes on. -/
def goOn : RefCall → Option RefState
  | .work =>
    match s.work with
    | .deinit arg :: rest => { s with work := rest }.argDeinit arg
    | .free o :: rest => some { s.setObj o none with work := rest }
    | _ => none
  | .endDel =>
    match s.work with
    | .inDel o :: rest => (s.obj o).map fun ob => { s with work := rest }.objDeinitNoDel o ob
    | _ => none
  | _ => none

end RefState

def refMachine : Machine RefCall RefState Unit where
  step c s := ((if s.idle then s.call c else none).or (s.goOn c)).map (·, ())

/-! ### The references there are -/

/-- An arg that counts for `o`. -/
def Arg.refersTo (arg : Arg) (o : ObjId) : Bool := arg.isCounted && arg.getPtr == o

def RefTask.arg : RefTask → Option Arg
  | .deinit arg => some arg
  | _ => none

/-- The object that a call under way is deinitialising. -/
def RefTask.dying : RefTask → Option ObjId
  | .inDel o | .free o => some o
  | .deinit _ => none

namespace RefState

/-- The live references to `o`: args that count for it, in a list or not, those
about to be deinitialised among them, and references without an arg. -/
def refs (s : RefState) (o : ObjId) : Nat :=
  s.args.countP (·.refersTo o) + s.members.countP (·.2.refersTo o) +
    (s.work.filterMap RefTask.arg).countP (·.refersTo o) + s.holds.count o

/-- The objects whose deinitialisation is under way. -/
def dying (s : RefState) : List ObjId := s.work.filterMap RefTask.dying

/-- An object that `obj_deinit` was not called on. -/
def Active (s : RefState) (o : ObjId) : Prop :=
  ∃ ob, s.obj o = some ob ∧ ob.inDel = false ∧ ob.freeing = false

/-- What is true of the counts when `r` references to each object are owed. -/
structure Counted (s : RefState) (r : ObjId → Nat) : Prop where
  count : ∀ o ob, s.obj o = some ob → ob.inDel = false → ob.freeing = false →
    ob.refcnt = r o ∧ 0 < r o ∧ r o < 2 ^ 8
  unreferenced : ∀ o, (∀ ob, s.obj o = some ob → ob.freeing = true) → r o = 0
  inDel : ∀ o, .inDel o ∈ s.work → ∃ ob, s.obj o = some ob ∧ ob.inDel = true ∧ ob.freeing = false
  free : ∀ o, .free o ∈ s.work → ∃ ob, s.obj o = some ob ∧ ob.freeing = true
  nodup : s.dying.Nodup
  owner : ∀ p ∈ s.members, ∃ ob, s.obj p.1 = some ob ∧ ob.freeing = false

/-- The invariant: the references owed are the references there are. -/
def Inv (s : RefState) : Prop := s.Counted s.refs

/-- `obj_deinit` is called once on each object, and not on an active one. -/
structure Log (s : RefState) : Prop where
  created : ∀ o, s.obj o ≠ none → o ∈ s.created
  deinited : ∀ o ∈ s.deinited, o ∈ s.created
  nodup : s.deinited.Nodup
  mem : ∀ o ∈ s.created, o ∈ s.deinited ↔ ¬s.Active o

theorem countP_erase {α : Type} [BEq α] [LawfulBEq α] {a : α} {l : List α} (p : α → Bool)
    (h : a ∈ l) :
    l.countP p = (l.erase a).countP p + if p a then 1 else 0 := by
  rw [(List.perm_cons_erase h).countP_eq p, List.countP_cons]

theorem refersTo_eq {arg : Arg} (h : arg.isCounted = true) (o : ObjId) :
    arg.refersTo o = decide (o = arg.getPtr) := by
  rw [Arg.refersTo, h, Bool.true_and, Bool.eq_iff_iff, beq_iff_eq, decide_eq_true_iff]
  exact eq_comm

theorem refersTo_of_not {arg : Arg} (h : arg.isCounted = false) (o : ObjId) :
    arg.refersTo o = false := by
  rw [Arg.refersTo, h, Bool.false_and]

theorem refersTo_copy (arg : Arg) (o : ObjId) : arg.copy.refersTo o = arg.refersTo o := by
  rw [Arg.refersTo, Arg.refersTo, arg.isCounted_copy, arg.getPtr_copy]

section Lemmas
variable {s s' : RefState} {r r' : ObjId → Nat} {o : ObjId} {ob : Obj}

@[simp] theorem obj_setObj (x : ObjId) (ob : Option Obj) :
    (s.setObj o ob).obj x = if x = o then ob else s.obj x := by
  show Function.update s.obj o ob x = _
  rw [Function.update_apply]

@[simp] theorem refs_setObj (ob : Option Obj) (x : ObjId) : (s.setObj o ob).refs x = s.refs x := rfl

/-- A live counted arg is a reference to its object. -/
theorem refs_pos_of_live {arg : Arg} (h : s.live arg) (hc : arg.isCounted = true) :
    0 < s.refs arg.getPtr := by
  have hp : arg.refersTo arg.getPtr = true := by
    rw [refersTo_eq hc]
    exact decide_eq_true rfl
  unfold refs
  rcases h with h | h
  · have : 0 < s.args.countP (·.refersTo arg.getPtr) := List.countP_pos_iff.mpr ⟨arg, h, hp⟩
    omega
  · obtain ⟨p, hmem, rfl⟩ := List.mem_map.mp h
    have : 0 < s.members.countP (·.2.refersTo p.2.getPtr) :=
      List.countP_pos_iff.mpr ⟨p, hmem, hp⟩
    omega

/-- What is referred to exists, and is not being freed. -/
theorem Counted.exists_of_pos (h : s.Counted r) (hpos : 0 < r o) :
    ∃ ob, s.obj o = some ob ∧ ob.freeing = false := by
  by_contra hno
  have hzero := h.unreferenced o fun ob hob => by
    by_contra hf
    exact hno ⟨ob, hob, Bool.not_eq_true _ ▸ hf⟩
  omega

theorem dying_cases (h : o ∈ s.dying) : .inDel o ∈ s.work ∨ .free o ∈ s.work := by
  obtain ⟨t, ht, hd⟩ := List.mem_filterMap.mp h
  cases t with
  | deinit arg => cases hd
  | inDel o' =>
    cases hd
    exact .inl ht
  | free o' =>
    cases hd
    exact .inr ht

/-- An active object is not being deinitialised. -/
theorem Counted.not_dying (h : s.Counted r) (ha : s.Active o) : o ∉ s.dying := by
  intro hd
  obtain ⟨ob, hob, hdel, hfree⟩ := ha
  rcases dying_cases hd with hw | hw
  · obtain ⟨ob', hob', hdel', -⟩ := h.inDel o hw
    cases hob.symm.trans hob'
    exact absurd hdel (by simp [hdel'])
  · obtain ⟨ob', hob', hfree'⟩ := h.free o hw
    cases hob.symm.trans hob'
    exact absurd hfree (by simp [hfree'])

/-- Objects and the deinitialisations under way are as they were, and so are the
references owed. -/
theorem Counted.same (h : s.Counted r) (hobj : s'.obj = s.obj) (hr : ∀ o, r' o = r o)
    (hwork : ∀ t ∈ s'.work, t ∈ s.work ∨ t.dying = none) (hdying : s'.dying.Sublist s.dying)
    (howner : ∀ p ∈ s'.members, p ∈ s.members ∨ ∃ ob, s.obj p.1 = some ob ∧ ob.freeing = false) :
    s'.Counted r' := by
  have hrr : r' = r := funext hr
  subst hrr
  refine ⟨hobj ▸ h.count, hobj ▸ h.unreferenced, fun o hw => ?_, fun o hw => ?_,
    h.nodup.sublist hdying, fun p hp => ?_⟩
  · rw [hobj]
    exact h.inDel o ((hwork _ hw).resolve_right nofun)
  · rw [hobj]
    exact h.free o ((hwork _ hw).resolve_right nofun)
  · rw [hobj]
    exact (howner p hp).elim (h.owner p) id

/-- The log is as it was when the active objects are. -/
theorem Log.same (h : s.Log) (hobj : ∀ o, s'.obj o ≠ none → s.obj o ≠ none)
    (hactive : ∀ o, s'.Active o ↔ s.Active o) (hcreated : s'.created = s.created)
    (hdeinited : s'.deinited = s.deinited) : s'.Log where
  created o ho := hcreated ▸ h.created o (hobj o ho)
  deinited := by
    rw [hcreated, hdeinited]
    exact h.deinited
  nodup := hdeinited ▸ h.nodup
  mem o ho := by
    rw [hdeinited, hactive]
    exact h.mem o (hcreated ▸ ho)

/-! ### A count that changes -/

/-- A new count of an object that is not being freed is right if it is the number
of references now owed to it. -/
theorem Counted.recount (h : s.Counted r) {c : Nat} (hob : s.obj o = some ob)
    (hfree : ob.freeing = false) (hobj : s'.obj = (s.setObj o (some { ob with refcnt := c })).obj)
    (hr : ∀ x, x ≠ o → r' x = r x)
    (hc : ob.inDel = false → c = r' o ∧ 0 < r' o ∧ r' o < 2 ^ 8)
    (hwork : s'.work = s.work) (hmembers : s'.members = s.members) : s'.Counted r' := by
  have hget (x : ObjId) : s'.obj x =
      if x = o then some { ob with refcnt := c } else s.obj x := by
    rw [hobj, obj_setObj]
  have hkeep (x : ObjId) (b : Obj) (hb : s.obj x = some b) : ∃ b', s'.obj x = some b' ∧
      b'.inDel = b.inDel ∧ b'.freeing = b.freeing := by
    rw [hget]
    by_cases hx : x = o
    · subst hx
      cases hob.symm.trans hb
      exact ⟨_, if_pos rfl, rfl, rfl⟩
    · exact ⟨b, by rw [if_neg hx, hb], rfl, rfl⟩
  refine ⟨fun x b hb hdel hfr => ?_, fun x hx => ?_, fun x hw => ?_, fun x hw => ?_, ?_,
    fun p hp => ?_⟩
  · rw [hget] at hb
    by_cases hx : x = o
    · subst hx
      rw [if_pos rfl] at hb
      cases hb
      exact hc hdel
    · rw [if_neg hx] at hb
      rw [hr x hx]
      exact h.count x b hb hdel hfr
  · by_cases hxo : x = o
    · subst hxo
      have htrue : ob.freeing = true := hx { ob with refcnt := c } ((hget x).trans (if_pos rfl))
      rw [hfree] at htrue
      cases htrue
    · rw [hr x hxo]
      refine h.unreferenced x fun b hb => hx b ?_
      rw [hget, if_neg hxo, hb]
  · obtain ⟨b, hb, hdel, hfr⟩ := h.inDel x (hwork ▸ hw)
    obtain ⟨b', hb', hd, hf⟩ := hkeep x b hb
    exact ⟨b', hb', hd.trans hdel, hf.trans hfr⟩
  · obtain ⟨b, hb, hfr⟩ := h.free x (hwork ▸ hw)
    obtain ⟨b', hb', -, hf⟩ := hkeep x b hb
    exact ⟨b', hb', hf.trans hfr⟩
  · show (s'.work.filterMap _).Nodup
    rw [hwork]
    exact h.nodup
  · obtain ⟨b, hb, hfr⟩ := h.owner p (hmembers ▸ hp)
    obtain ⟨b', hb', -, hf⟩ := hkeep p.1 b hb
    exact ⟨b', hb', hf.trans hfr⟩

/-- The log does not depend on the counts. -/
theorem Log.recount (h : s.Log) {c : Nat} (hob : s.obj o = some ob)
    (hobj : s'.obj = (s.setObj o (some { ob with refcnt := c })).obj)
    (hcreated : s'.created = s.created) (hdeinited : s'.deinited = s.deinited) : s'.Log := by
  have hget (x : ObjId) : s'.obj x =
      if x = o then some { ob with refcnt := c } else s.obj x := by
    rw [hobj, obj_setObj]
  refine h.same (fun x hx => ?_) (fun x => ?_) hcreated hdeinited
  · rw [hget] at hx
    by_cases hxo : x = o
    · rw [hxo, hob]
      exact Option.some_ne_none _
    · rwa [if_neg hxo] at hx
  · unfold Active
    rw [hget]
    by_cases hxo : x = o
    · subst hxo
      simp [hob]
    · rw [if_neg hxo]

/-! ### An object that is deinitialised -/

/-- The args of its list are about to be deinitialised, and still refer to what
they refer to. -/
theorem refs_objDeinitNoDel (x : ObjId) : (s.objDeinitNoDel o ob).refs x = s.refs x := by
  have hown : ((s.members.filter (·.1 = o)).map (·.2)).countP (·.refersTo x) =
      (s.members.filter (·.1 = o)).countP (·.2.refersTo x) := List.countP_map
  have hsplit : s.members.countP (·.2.refersTo x) =
      (s.members.filter (·.1 = o)).countP (·.2.refersTo x) +
        (s.members.filter (·.1 ≠ o)).countP (·.2.refersTo x) := by
    rw [← List.countP_append]
    refine (List.Perm.countP_eq _ ?_).symm
    simpa using List.filter_append_perm (·.1 = o) s.members
  have htasks (l : List Arg) : (l.map RefTask.deinit).filterMap RefTask.arg = l := by
    induction l with
    | nil => rfl
    | cons a l ih => simp [RefTask.arg, ih]
  simp only [refs, objDeinitNoDel, setObj, List.filterMap_append, htasks, List.countP_append, hown,
    List.filterMap_cons, RefTask.arg, hsplit]
  omega

theorem dying_objDeinitNoDel : (s.objDeinitNoDel o ob).dying = o :: s.dying := by
  have htasks (l : List Arg) : (l.map RefTask.deinit).filterMap RefTask.dying = [] := by
    induction l with
    | nil => rfl
    | cons a l ih => simp [RefTask.dying]
  simp only [dying, objDeinitNoDel, List.filterMap_append, htasks, List.nil_append,
    List.filterMap_cons, RefTask.dying]

/-- Nothing refers to the object, so the counts of the others stay right. -/
theorem Counted.objDeinitNoDel (h : s.Counted r) (hr : ∀ x, x ≠ o → r x = s.refs x)
    (hzero : s.refs o = 0) (hdying : o ∉ s.dying) (ob : Obj) :
    (s.objDeinitNoDel o ob).Inv := by
  have hget (x : ObjId) : (s.objDeinitNoDel o ob).obj x =
      if x = o then some { ob with freeing := true } else s.obj x := obj_setObj x _
  have hrefs : (s.objDeinitNoDel o ob).refs = s.refs := funext fun x => refs_objDeinitNoDel x
  have hwork (t : RefTask) (ht : t ∈ (s.objDeinitNoDel o ob).work) :
      t = .free o ∨ t ∈ s.work ∨ t.dying = none := by
    rcases List.mem_append.mp ht with ht | ht
    · obtain ⟨arg, -, rfl⟩ := List.mem_map.mp ht
      exact .inr (.inr rfl)
    · exact (List.mem_cons.mp ht).imp_right .inl
  have hne {x : ObjId} {t : RefTask} (ht : t ∈ s.work) (hd : t.dying = some x) : x ≠ o := by
    rintro rfl
    exact hdying (List.mem_filterMap.mpr ⟨t, ht, hd⟩)
  unfold Inv
  rw [hrefs]
  refine ⟨fun x b hb hdel hfr => ?_, fun x hx => ?_, fun x hw => ?_, fun x hw => ?_, ?_,
    fun p hp => ?_⟩
  · rw [hget] at hb
    by_cases hx : x = o
    · rw [if_pos hx] at hb
      cases hb
      cases hfr
    · rw [if_neg hx] at hb
      rw [← hr x hx]
      exact h.count x b hb hdel hfr
  · by_cases hxo : x = o
    · rw [hxo, hzero]
    · rw [← hr x hxo]
      refine h.unreferenced x fun b hb => hx b ?_
      rw [hget, if_neg hxo, hb]
  · rcases hwork _ hw with hw | hw | hw
    · cases hw
    · rw [hget, if_neg (hne hw rfl)]
      exact h.inDel x hw
    · cases hw
  · rcases hwork _ hw with hw | hw | hw
    · cases hw
      exact ⟨_, (hget o).trans (if_pos rfl), rfl⟩
    · rw [hget, if_neg (hne hw rfl)]
      exact h.free x hw
    · cases hw
  · rw [dying_objDeinitNoDel]
    exact List.nodup_cons.mpr ⟨hdying, h.nodup⟩
  · have hp' := List.mem_filter.mp hp
    have hpo : p.1 ≠ o := of_decide_eq_true hp'.2
    rw [hget, if_neg hpo]
    exact h.owner p hp'.1

/-- `obj_deinit` of an object nothing refers to any more. -/
theorem Counted.objDeinit (h : s.Counted r) (hr : ∀ x, x ≠ o → r x = s.refs x)
    (hzero : s.refs o = 0) (hactive : s.Active o) (hfree : ob.freeing = false) :
    (s.objDeinit o ob).Inv := by
  have hdying : o ∉ s.dying := h.not_dying hactive
  have hlog : ({ s with deinited := o :: s.deinited } : RefState).Counted r :=
    h.same rfl (fun _ => rfl) (fun _ ht => .inl ht) (List.Sublist.refl _) fun _ hp => .inl hp
  unfold RefState.objDeinit
  dsimp only
  split
  · -- `__del__` runs first: the object stays, flagged
    have hget (x : ObjId) : (s.setObj o (some { ob with inDel := true })).obj x =
        if x = o then some { ob with inDel := true } else s.obj x := obj_setObj x _
    have hne {x : ObjId} {t : RefTask} (ht : t ∈ s.work) (hd : t.dying = some x) : x ≠ o := by
      rintro rfl
      exact hdying (List.mem_filterMap.mpr ⟨t, ht, hd⟩)
    refine ⟨fun x b hb hdel hfr => ?_, fun x hx => ?_, fun x hw => ?_, fun x hw => ?_, ?_,
      fun p hp => ?_⟩
    · have hb := (hget x).symm.trans hb
      by_cases hx : x = o
      · rw [if_pos hx] at hb
        cases hb
        cases hdel
      · rw [if_neg hx] at hb
        have hcount := h.count x b hb hdel hfr
        rw [hr x hx] at hcount
        exact hcount
    · by_cases hxo : x = o
      · rw [hxo]
        exact hzero
      · refine (hr x hxo).symm.trans (h.unreferenced x fun b hb => hx b ?_)
        exact (hget x).trans ((if_neg hxo).trans hb)
    · rcases List.mem_cons.mp hw with hw | hw
      · cases hw
        exact ⟨_, (hget o).trans (if_pos rfl), rfl, hfree⟩
      · obtain ⟨b, hb, hstatus⟩ := h.inDel x hw
        exact ⟨b, (hget x).trans ((if_neg (hne hw rfl)).trans hb), hstatus⟩
    · have hw := (List.mem_cons.mp hw).resolve_left nofun
      obtain ⟨b, hb, hstatus⟩ := h.free x hw
      exact ⟨b, (hget x).trans ((if_neg (hne hw rfl)).trans hb), hstatus⟩
    · exact List.nodup_cons.mpr ⟨hdying, h.nodup⟩
    · obtain ⟨b, hb, hfr⟩ := h.owner p hp
      by_cases hpo : p.1 = o
      · exact ⟨_, (hget p.1).trans (if_pos hpo), hfree⟩
      · exact ⟨b, (hget p.1).trans ((if_neg hpo).trans hb), hfr⟩
  · exact hlog.objDeinitNoDel hr hzero hdying ob

/-- What `obj_deinit` leaves: one object fewer that is active, and the log says which. -/
theorem Log.objDeinit (h : s.Log) (hactive : s.Active o) :
    (s.objDeinit o ob).Log ∧ (s.objDeinit o ob).deinited = o :: s.deinited ∧
      ∀ x, (s.objDeinit o ob).refs x = s.refs x := by
  obtain ⟨b, hb, -⟩ := id hactive
  have ho : o ∈ s.created := h.created o (hb ▸ Option.some_ne_none b)
  -- both ways of going on write the one object, and make it inactive
  obtain ⟨b', hget, hstatus⟩ : ∃ b' : Obj, (∀ x, (s.objDeinit o ob).obj x =
      if x = o then some b' else s.obj x) ∧ (b'.inDel = true ∨ b'.freeing = true) := by
    unfold RefState.objDeinit
    dsimp only
    split
    · exact ⟨_, fun x => obj_setObj x _, .inl rfl⟩
    · exact ⟨_, fun x => obj_setObj x _, .inr rfl⟩
  have hcreated : (s.objDeinit o ob).created = s.created := by
    unfold RefState.objDeinit
    dsimp only
    split <;> rfl
  have hdeinited : (s.objDeinit o ob).deinited = o :: s.deinited := by
    unfold RefState.objDeinit
    dsimp only
    split <;> rfl
  have hinactive : ¬(s.objDeinit o ob).Active o := by
    rintro ⟨b'', hb'', hdel, hfr⟩
    rw [hget, if_pos rfl] at hb''
    cases hb''
    rcases hstatus with hs | hs
    · rw [hs] at hdel
      cases hdel
    · rw [hs] at hfr
      cases hfr
  refine ⟨⟨fun x hx => ?_, fun x hx => ?_, ?_, fun x hx => ?_⟩, hdeinited, fun x => ?_⟩
  · rw [hcreated]
    rw [hget] at hx
    by_cases hxo : x = o
    · rwa [hxo]
    · exact h.created x (by rwa [if_neg hxo] at hx)
  · rw [hcreated]
    rw [hdeinited] at hx
    rcases List.mem_cons.mp hx with rfl | hx
    · exact ho
    · exact h.deinited x hx
  · rw [hdeinited]
    exact List.nodup_cons.mpr ⟨fun hmem => (h.mem o ho).mp hmem hactive, h.nodup⟩
  · rw [hcreated] at hx
    rw [hdeinited, List.mem_cons]
    by_cases hxo : x = o
    · exact iff_of_true (.inl hxo) (hxo ▸ hinactive)
    · rw [or_iff_right hxo, h.mem x hx]
      unfold Active
      rw [hget, if_neg hxo]
  · unfold RefState.objDeinit
    dsimp only
    split
    · rfl
    · exact refs_objDeinitNoDel x

/-! ### A reference that is given up -/

/-- What `obj_GC` does with the last reference owed to `o`, or with another one. -/
structure Released (s s' : RefState) (o : ObjId) : Prop where
  inv : s'.Inv
  log : s'.Log
  refs : ∀ x, s'.refs x = s.refs x
  deinited : s'.deinited = s.deinited ∨ s'.deinited = o :: s.deinited ∧ s.refs o = 0

/-- `obj_GC` when the reference it gives up is no longer among the live ones. -/
theorem Counted.objGC (h : s.Counted fun x => s.refs x + if x = o then 1 else 0) (hlog : s.Log) :
    ∃ s', s.objGC o = some s' ∧ Released s s' o := by
  obtain ⟨ob, hob, hfree⟩ := h.exists_of_pos (o := o) (by simp)
  cases hdel : ob.inDel with
  | true =>
    -- in `__del__`: the count is left alone
    refine ⟨s, by simp [RefState.objGC, hob, hdel], ?_, hlog, fun _ => rfl, .inl rfl⟩
    refine ⟨fun x b hb hd hf => ?_, fun x hx => ?_, h.inDel, h.free, h.nodup, h.owner⟩
    · have hxo : x ≠ o := by
        rintro rfl
        cases hob.symm.trans hb
        rw [hdel] at hd
        cases hd
      simpa [hxo] using h.count x b hb hd hf
    · exact Nat.eq_zero_of_add_eq_zero_right (h.unreferenced x hx)
  | false =>
    obtain ⟨hcount, hpos, hlt⟩ := h.count o ob hob hdel hfree
    rw [if_pos rfl] at hcount hpos hlt
    have hdec : u8 (ob.refcnt + (2 ^ 8 - 1)) = s.refs o := by
      unfold u8
      omega
    have hstep : s.objGC o = some
        (if s.refs o = 0 then (s.setObj o (some { ob with refcnt := s.refs o })).objDeinit o
            { ob with refcnt := s.refs o }
          else s.setObj o (some { ob with refcnt := s.refs o })) := by
      simp only [RefState.objGC, RefState.objRefcntDec, hob, hdel, hdec, Option.bind_some,
        Option.map_some, Bool.false_eq_true, if_false]
    by_cases hzero : s.refs o = 0
    · rw [if_pos hzero] at hstep
      -- the count is written once more with the object's new status
      have hcounted : (s.setObj o (some { ob with refcnt := s.refs o })).objDeinit o
          { ob with refcnt := s.refs o } = s.objDeinit o { ob with refcnt := s.refs o } := by
        unfold RefState.objDeinit RefState.objDeinitNoDel RefState.setObj
        simp only [Function.update_idem]
      rw [hcounted] at hstep
      have hactive : s.Active o := ⟨ob, hob, hdel, hfree⟩
      obtain ⟨hlog', hdeinited, hrefs⟩ : (s.objDeinit o { ob with refcnt := s.refs o }).Log ∧
          (s.objDeinit o { ob with refcnt := s.refs o }).deinited = o :: s.deinited ∧
          ∀ x, (s.objDeinit o { ob with refcnt := s.refs o }).refs x = s.refs x :=
        hlog.objDeinit hactive
      refine ⟨_, hstep, ?_, hlog', hrefs, .inr ⟨hdeinited, hzero⟩⟩
      exact h.objDeinit (fun x hx => by simp [hx]) hzero hactive hfree
    · rw [if_neg hzero] at hstep
      refine ⟨_, hstep, ?_, hlog.recount hob rfl rfl rfl, fun _ => rfl, .inl rfl⟩
      exact h.recount hob hfree rfl (fun x hx => by simp [hx])
        (fun _ => ⟨rfl, Nat.pos_of_ne_zero hzero, (Nat.le_succ _).trans_lt hlt⟩) rfl rfl

end Lemmas

/-! ### What each call keeps -/

/-- When a step is right: a reference is counted only below the end of the count,
and a `__del__` returns with no reference to its own object left. -/
def Counts : RefCall → RefState → Prop
  | .copy arg, s | .refcntInc arg, s => arg.isCounted = true → ∀ ob, s.obj arg.getPtr = some ob →
      ob.inDel = false → ob.refcnt + 1 < 2 ^ 8
  | .endDel, s => ∀ o rest, s.work = .inDel o :: rest → s.refs o = 0
  | _, _ => True

section Steps
variable {s s' : RefState} {o : ObjId} {arg : Arg}

theorem Inv.newObj {hasDel : Bool} (h : s.Inv) (hlog : s.Log)
    (hcall : s.call (.newObj o hasDel) = some s') : s'.Inv ∧ s'.Log := by
  simp only [call] at hcall
  split at hcall
  · cases hcall
  · rename_i hnew
    cases hcall
    have hnone : s.obj o = none := by
      by_contra hne
      exact hnew (hlog.created o hne)
    have hzero : s.refs o = 0 := h.unreferenced o fun b hb => by
      rw [hnone] at hb
      cases hb
    have hne {x : ObjId} {ob : Obj} (hob : s.obj x = some ob) : x ≠ o := by
      rintro rfl
      rw [hnone] at hob
      cases hob
    set s' : RefState := { s.setObj o (some ⟨1, hasDel, false, false⟩) with
      holds := o :: s.holds, created := o :: s.created } with hs'
    have hget (x : ObjId) : s'.obj x =
        if x = o then some ⟨1, hasDel, false, false⟩ else s.obj x := obj_setObj x _
    have hr (x : ObjId) : s'.refs x = s.refs x + if x = o then 1 else 0 := by
      simp only [refs, hs', setObj, List.count_cons, beq_iff_eq, eq_comm (a := o)]
      omega
    have hold {x : ObjId} {ob : Obj} (hob : s.obj x = some ob) : s'.obj x = some ob := by
      rw [hget, if_neg (hne hob), hob]
    refine ⟨⟨fun x b hb hdel hfr => ?_, fun x hx => ?_, fun x hw => ?_, fun x hw => ?_, h.nodup,
      fun p hp => ?_⟩, ⟨fun x hx => ?_, fun x hx => ?_, hlog.nodup, fun x hx => ?_⟩⟩
    · rw [hget] at hb
      rw [hr]
      by_cases hxo : x = o
      · subst hxo
        rw [if_pos rfl] at hb
        cases hb
        rw [hzero, if_pos rfl]
        exact ⟨rfl, by decide, by decide⟩
      · rw [if_neg hxo] at hb ⊢
        exact h.count x b hb hdel hfr
    · rw [hr]
      by_cases hxo : x = o
      · subst hxo
        have hfalse := hx _ ((hget x).trans (if_pos rfl))
        cases hfalse
      · rw [if_neg hxo]
        refine h.unreferenced x fun b hb => hx b ?_
        rw [hget, if_neg hxo, hb]
    · obtain ⟨b, hb, hstatus⟩ := h.inDel x hw
      exact ⟨b, hold hb, hstatus⟩
    · obtain ⟨b, hb, hstatus⟩ := h.free x hw
      exact ⟨b, hold hb, hstatus⟩
    · obtain ⟨b, hb, hstatus⟩ := h.owner p hp
      exact ⟨b, hold hb, hstatus⟩
    · by_cases hxo : x = o
      · exact List.mem_cons.mpr (.inl hxo)
      · rw [hget, if_neg hxo] at hx
        exact List.mem_cons_of_mem _ (hlog.created x hx)
    · exact List.mem_cons_of_mem _ (hlog.deinited x hx)
    · unfold Active
      rw [hget]
      rcases List.mem_cons.mp hx with rfl | hmem
      · refine iff_of_false (fun hd => hnew (hlog.deinited x hd)) fun hno => hno ?_
        exact ⟨_, if_pos rfl, rfl, rfl⟩
      · have hxo : x ≠ o := by
          rintro rfl
          exact hnew hmem
        rw [if_neg hxo]
        exact hlog.mem x hmem

/-- Calls that move args and references about change no count. -/
theorem Inv.moves (h : s.Inv) (hlog : s.Log) (hobj : s'.obj = s.obj)
    (hr : ∀ x, s'.refs x = s.refs x)
    (hwork : s'.work = s.work ∨ ∃ arg, s'.work = .deinit arg :: s.work)
    (howner : ∀ p ∈ s'.members, p ∈ s.members ∨ ∃ ob, s.obj p.1 = some ob ∧ ob.freeing = false)
    (hcreated : s'.created = s.created) (hdeinited : s'.deinited = s.deinited) :
    s'.Inv ∧ s'.Log := by
  have hdying : s'.dying = s.dying := by
    rcases hwork with hwork | ⟨arg, hwork⟩
    · rw [dying, hwork, dying]
    · rw [dying, hwork]
      rfl
  refine ⟨h.same hobj hr (fun t ht => ?_) (hdying ▸ List.Sublist.refl _) howner,
    hlog.same (fun x hx => hobj ▸ hx) (fun x => by unfold Active; rw [hobj]) hcreated hdeinited⟩
  rcases hwork with hwork | ⟨arg, hwork⟩
  · exact .inl (hwork ▸ ht)
  · rw [hwork] at ht
    rcases List.mem_cons.mp ht with rfl | ht
    · exact .inr rfl
    · exact .inl ht

/-- Counting one more reference to an object that is referred to, or is in its
`__del__`. -/
theorem Inv.counts (h : s.Inv) (hlog : s.Log) {ob : Obj} (hob : s.obj o = some ob)
    (hfree : ob.freeing = false) (hlt : ob.inDel = false → ob.refcnt + 1 < 2 ^ 8)
    (hobj : s'.obj = (s.setObj o (some { ob with refcnt := u8 (ob.refcnt + 1) })).obj)
    (hr : ∀ x, s'.refs x = s.refs x + if x = o then 1 else 0) (hwork : s'.work = s.work)
    (hmembers : s'.members = s.members) (hcreated : s'.created = s.created)
    (hdeinited : s'.deinited = s.deinited) : s'.Inv ∧ s'.Log := by
  refine ⟨h.recount hob hfree hobj (fun x hx => by simp [hr, hx]) (fun hdel => ?_) hwork hmembers,
    hlog.recount hob hobj hcreated hdeinited⟩
  obtain ⟨hcount, -, -⟩ := h.count o ob hob hdel hfree
  have hlt := hlt hdel
  rw [hr, if_pos rfl, u8_of_lt hlt]
  omega

theorem Inv.copy (h : s.Inv) (hlog : s.Log) (hC : Counts (.copy arg) s)
    (hcall : s.call (.copy arg) = some s') : s'.Inv ∧ s'.Log := by
  simp only [call] at hcall
  split at hcall
  · rename_i hlive
    unfold argRefcntInc at hcall
    split at hcall
    · rename_i hc
      obtain ⟨ob, hob, hfree⟩ := h.exists_of_pos (refs_pos_of_live hlive hc)
      simp only [objRefcntInc, hob, Option.map_some] at hcall
      cases hcall
      refine h.counts hlog hob hfree (hC hc ob hob) rfl (fun x => ?_) rfl rfl rfl rfl
      simp only [refs, setObj, List.countP_cons, refersTo_copy, refersTo_eq hc, decide_eq_true_eq]
      omega
    · rename_i hc
      cases hcall
      refine h.moves hlog rfl (fun x => ?_) (.inl rfl) (fun _ hp => .inl hp) rfl rfl
      simp [refs, refersTo_copy, refersTo_of_not (Bool.not_eq_true _ ▸ hc)]
  · cases hcall

theorem Inv.refcntInc (h : s.Inv) (hlog : s.Log) (hC : Counts (.refcntInc arg) s)
    (hcall : s.call (.refcntInc arg) = some s') : s'.Inv ∧ s'.Log := by
  simp only [call] at hcall
  split at hcall
  · rename_i hlive
    unfold argRefcntInc at hcall
    cases hc : arg.isCounted with
    | true =>
      obtain ⟨ob, hob, hfree⟩ := h.exists_of_pos (refs_pos_of_live hlive hc)
      simp only [hc, if_true, objRefcntInc, hob, Option.map_some] at hcall
      cases hcall
      refine h.counts hlog hob hfree (hC hc ob hob) rfl (fun x => ?_) rfl rfl rfl rfl
      simp only [refs, setObj, List.count_cons, beq_iff_eq, eq_comm (a := arg.getPtr)]
      omega
    | false =>
      simp only [hc, Bool.false_eq_true, if_false, Option.map_some] at hcall
      cases hcall
      exact ⟨h, hlog⟩
  · cases hcall

theorem Inv.setSelf (h : s.Inv) (hlog : s.Log) (hcall : s.call .setSelf = some s') :
    s'.Inv ∧ s'.Log := by
  simp only [call] at hcall
  split at hcall
  · rename_i o rest hwork
    obtain ⟨ob, hob, hdel, hfree⟩ := h.inDel o (hwork ▸ List.mem_cons_self)
    simp only [objRefcntInc, hob, Option.map_some] at hcall
    cases hcall
    refine h.counts hlog hob hfree (fun hd => ?_) rfl (fun x => ?_) rfl rfl rfl rfl
    · rw [hdel] at hd
      cases hd
    · simp only [refs, setObj, List.count_cons, beq_iff_eq, eq_comm (a := o)]
      omega
  · cases hcall

theorem Inv.refcntDec (h : s.Inv) (hlog : s.Log)
    (hcall : s.call (.refcntDec arg) = some s') : s'.Inv ∧ s'.Log := by
  simp only [call] at hcall
  split at hcall
  · rename_i hlive
    unfold argRefcntDec at hcall
    cases hc : arg.isCounted with
    | true =>
      have hpos := refs_pos_of_live hlive.1 hc
      obtain ⟨ob, hob, hfree⟩ := h.exists_of_pos hpos
      simp only [hc, if_true, objRefcntDec, hob, Option.map_some] at hcall
      cases hcall
      -- the arg is one reference, the one given up another
      have hr (x : ObjId) : s.refs x =
          refs { s with holds := s.holds.erase arg.getPtr } x +
            if x = arg.getPtr then 1 else 0 := by
        have hcount : s.holds.count x = (s.holds.erase arg.getPtr).count x +
            if x = arg.getPtr then 1 else 0 := by
          rw [List.count, countP_erase _ (hlive.2 hc)]
          simp only [beq_iff_eq, eq_comm (a := arg.getPtr)]
        simp only [refs, hcount]
        omega
      have htwo : 0 < refs { s with holds := s.holds.erase arg.getPtr } arg.getPtr :=
        refs_pos_of_live (s := { s with holds := s.holds.erase arg.getPtr }) hlive.1 hc
      refine ⟨h.recount hob hfree rfl (fun x hx => ?_) (fun hdel => ?_) rfl rfl,
        hlog.recount hob rfl rfl rfl⟩
      · rw [hr, if_neg hx]
        rfl
      · obtain ⟨hcount, -, hlt⟩ := h.count _ ob hob hdel hfree
        have hhere := hr arg.getPtr
        rw [if_pos rfl] at hhere
        refine ⟨?_, htwo, ?_⟩
        · show u8 _ = refs { s with holds := s.holds.erase arg.getPtr } arg.getPtr
          unfold u8
          omega
        · show refs { s with holds := s.holds.erase arg.getPtr } arg.getPtr < _
          omega
    | false =>
      simp only [hc, Bool.false_eq_true, if_false, Option.map_some] at hcall
      cases hcall
      exact ⟨h, hlog⟩
  · cases hcall

theorem Inv.newArg (h : s.Inv) (hlog : s.Log) (hcall : s.call (.newArg arg) = some s') :
    s'.Inv ∧ s'.Log := by
  simp only [call] at hcall
  split at hcall
  · cases hcall
  · rename_i hc
    cases hcall
    refine h.moves hlog rfl (fun x => ?_) (.inl rfl) (fun _ hp => .inl hp) rfl rfl
    simp [refs, refersTo_of_not (Bool.not_eq_true _ ▸ hc)]

theorem Inv.setObj (h : s.Inv) (hlog : s.Log) (hcall : s.call (.setObj arg) = some s') :
    s'.Inv ∧ s'.Log := by
  simp only [call] at hcall
  split at hcall
  · rename_i hc
    cases hcall
    refine h.moves hlog rfl (fun x => ?_) (.inl rfl) (fun _ hp => .inl hp) rfl rfl
    have hcount : s.holds.count x = (s.holds.erase arg.getPtr).count x +
        if x = arg.getPtr then 1 else 0 := by
      rw [List.count, countP_erase _ hc.2]
      simp only [beq_iff_eq, eq_comm (a := arg.getPtr)]
    simp only [refs, List.countP_cons, refersTo_eq hc.1, decide_eq_true_eq, hcount]
    omega
  · cases hcall

theorem Inv.deinit (h : s.Inv) (hlog : s.Log) (hcall : s.call (.deinit arg) = some s') :
    s'.Inv ∧ s'.Log := by
  simp only [call] at hcall
  split at hcall
  · rename_i hmem
    cases hcall
    refine h.moves hlog rfl (fun x => ?_) (.inr ⟨arg, rfl⟩) (fun _ hp => .inl hp) rfl rfl
    simp only [refs, List.filterMap_cons, RefTask.arg, List.countP_cons,
      countP_erase (Arg.refersTo · x) hmem]
    omega
  · cases hcall

theorem Inv.addMember (h : s.Inv) (hlog : s.Log) (hcall : s.call (.addMember o arg) = some s') :
    s'.Inv ∧ s'.Log := by
  simp only [call] at hcall
  split at hcall
  · rename_i hmem
    cases hcall
    refine h.moves hlog rfl (fun x => ?_) (.inl rfl) (fun p hp => ?_) rfl rfl
    · simp only [refs, List.countP_cons, countP_erase (Arg.refersTo · x) hmem.1]
      omega
    · rcases List.mem_cons.mp hp with rfl | hp
      · cases hob : s.obj o with
        | none => simp [hob] at hmem
        | some ob => exact .inr ⟨ob, rfl, by simpa [hob] using hmem.2⟩
      · exact .inl hp
  · cases hcall

theorem Inv.removeMember (h : s.Inv) (hlog : s.Log)
    (hcall : s.call (.removeMember o arg) = some s') : s'.Inv ∧ s'.Log := by
  simp only [call] at hcall
  split at hcall
  · rename_i hmem
    cases hcall
    refine h.moves hlog rfl (fun x => ?_) (.inr ⟨arg, rfl⟩)
      (fun _ hp => .inl (List.mem_of_mem_erase hp)) rfl rfl
    simp only [refs, List.filterMap_cons, RefTask.arg, List.countP_cons,
      countP_erase (fun p : ObjId × Arg => p.2.refersTo x) hmem]
    omega
  · cases hcall

/-- What a step that may deinitialise an object promises. -/
structure Stepped (s s' : RefState) : Prop where
  inv : s'.Inv
  log : s'.Log
  deinited : s'.deinited = s.deinited ∨ ∃ o, s'.deinited = o :: s.deinited ∧ s'.refs o = 0

/-- `obj_GC` of a reference without an arg. -/
theorem Inv.gc (h : s.Inv) (hlog : s.Log) (hcall : s.call (.gc o) = some s') : Stepped s s' := by
  simp only [call] at hcall
  split at hcall
  · rename_i hmem
    set s₀ : RefState := { s with holds := s.holds.erase o } with hs₀
    have hr (x : ObjId) : s₀.refs x + (if x = o then 1 else 0) = s.refs x := by
      have hcount : s.holds.count x = (s.holds.erase o).count x + if x = o then 1 else 0 := by
        rw [List.count, countP_erase _ hmem]
        simp only [beq_iff_eq, eq_comm (a := o)]
      simp only [hs₀, refs, hcount]
      omega
    have hcounted : s₀.Counted fun x => s₀.refs x + if x = o then 1 else 0 :=
      h.same rfl hr (fun _ ht => .inl ht) (List.Sublist.refl _) fun _ hp => .inl hp
    obtain ⟨s₁, hgc, hrel⟩ := hcounted.objGC
      (hlog.same (fun _ hx => hx) (fun _ => Iff.rfl) rfl rfl)
    cases hcall.symm.trans hgc
    refine ⟨hrel.inv, hrel.log, hrel.deinited.imp_right fun hd => ⟨o, hd.1, ?_⟩⟩
    rw [hrel.refs, hd.2]
  · cases hcall

/-- `arg_deinit` of an arg whose turn has come. It has a meaning. -/
theorem Inv.workDeinit (h : s.Inv) (hlog : s.Log) {rest : List RefTask}
    (hwork : s.work = .deinit arg :: rest) :
    ∃ s', { s with work := rest }.argDeinit arg = some s' ∧ Stepped s s' := by
  set s₀ : RefState := { s with work := rest } with hs₀
  have hwork₀ (t : RefTask) (ht : t ∈ s₀.work) : t ∈ s.work ∨ t.dying = none :=
    .inl (hwork ▸ List.mem_cons_of_mem _ ht)
  have hdying : s₀.dying.Sublist s.dying := by
    show (rest.filterMap _).Sublist (s.work.filterMap _)
    rw [hwork]
    exact List.Sublist.refl _
  have hlog₀ : s₀.Log := hlog.same (fun _ hx => hx) (fun _ => Iff.rfl) rfl rfl
  have hrefs (x : ObjId) : s₀.refs x + (if arg.refersTo x then 1 else 0) = s.refs x := by
    simp only [hs₀, refs, hwork, List.filterMap_cons, RefTask.arg, List.countP_cons]
    omega
  unfold argDeinit
  cases hc : arg.isCounted with
  | true =>
    have hcounted : s₀.Counted fun x => s₀.refs x + if x = arg.getPtr then 1 else 0 := by
      refine h.same rfl (fun x => ?_) hwork₀ hdying fun _ hp => .inl hp
      rw [← hrefs x, refersTo_eq hc]
      simp only [decide_eq_true_eq]
    obtain ⟨s', hgc, hrel⟩ := hcounted.objGC hlog₀
    refine ⟨s', by rw [if_pos rfl, hgc], hrel.inv, hrel.log,
      hrel.deinited.imp_right fun hd => ⟨arg.getPtr, hd.1, ?_⟩⟩
    rw [hrel.refs, hd.2]
  | false =>
    refine ⟨s₀, by rw [if_neg (by decide)], ?_, hlog₀, .inl rfl⟩
    refine h.same rfl (fun x => ?_) hwork₀ hdying fun _ hp => .inl hp
    rw [← hrefs x, refersTo_of_not hc]
    rfl

/-- `pikaFree` of an object. -/
theorem Inv.workFree (h : s.Inv) (hlog : s.Log) {rest : List RefTask}
    (hwork : s.work = .free o :: rest) :
    Inv { s.setObj o none with work := rest } ∧ Log { s.setObj o none with work := rest } := by
  obtain ⟨ob, hob, hfree⟩ := h.free o (hwork ▸ List.mem_cons_self)
  set s' : RefState := { s.setObj o none with work := rest } with hs'
  have hget (x : ObjId) : s'.obj x = if x = o then none else s.obj x := obj_setObj x _
  have hr (x : ObjId) : s'.refs x = s.refs x := by
    simp only [refs, hs', RefState.setObj, hwork, List.filterMap_cons, RefTask.arg]
  have hnodup : (o :: s'.dying).Nodup := by
    have hd := h.nodup
    rw [dying, hwork] at hd
    exact hd
  obtain ⟨hnot, hrest⟩ := List.nodup_cons.mp hnodup
  have hne {x : ObjId} {t : RefTask} (ht : t ∈ s'.work) (hd : t.dying = some x) : x ≠ o := by
    rintro rfl
    exact hnot (List.mem_filterMap.mpr ⟨t, ht, hd⟩)
  have hold {t : RefTask} (ht : t ∈ s'.work) : t ∈ s.work := hwork ▸ List.mem_cons_of_mem _ ht
  refine ⟨⟨fun x b hb hdel hfr => ?_, fun x hx => ?_, fun x hw => ?_, fun x hw => ?_, hrest,
    fun p hp => ?_⟩, hlog.same (fun x hx => ?_) (fun x => ?_) rfl rfl⟩
  · rw [hget] at hb
    rw [hr]
    by_cases hxo : x = o
    · rw [if_pos hxo] at hb
      cases hb
    · rw [if_neg hxo] at hb
      exact h.count x b hb hdel hfr
  · rw [hr]
    refine h.unreferenced x fun b hb => ?_
    by_cases hxo : x = o
    · subst hxo
      cases hob.symm.trans hb
      exact hfree
    · exact hx b (by rw [hget, if_neg hxo, hb])
  · rw [hget, if_neg (hne hw rfl)]
    exact h.inDel x (hold hw)
  · rw [hget, if_neg (hne hw rfl)]
    exact h.free x (hold hw)
  · obtain ⟨b, hb, hfr⟩ := h.owner p hp
    refine ⟨b, ?_, hfr⟩
    rw [hget, if_neg, hb]
    intro hpo
    rw [hpo, hob] at hb
    cases hb
    rw [hfree] at hfr
    cases hfr
  · rw [hget] at hx
    by_cases hxo : x = o
    · exact absurd (if_pos hxo) hx
    · rwa [if_neg hxo] at hx
  · unfold Active
    rw [hget]
    by_cases hxo : x = o
    · subst hxo
      simp [hob, hfree]
    · rw [if_neg hxo]

/-- `__del__` returns, with no reference to its object left behind. -/
theorem Inv.endDel (h : s.Inv) (hlog : s.Log) {rest : List RefTask}
    (hwork : s.work = .inDel o :: rest) (hzero : s.refs o = 0) :
    ∃ ob, s.obj o = some ob ∧ Inv ({ s with work := rest }.objDeinitNoDel o ob) ∧
      Log ({ s with work := rest }.objDeinitNoDel o ob) := by
  obtain ⟨ob, hob, hdel, hfree⟩ := h.inDel o (hwork ▸ List.mem_cons_self)
  set s₀ : RefState := { s with work := rest } with hs₀
  have hnodup : (o :: s₀.dying).Nodup := by
    have hd := h.nodup
    rw [dying, hwork] at hd
    exact hd
  have hr (x : ObjId) : s₀.refs x = s.refs x := by
    simp only [refs, hs₀, hwork, List.filterMap_cons, RefTask.arg]
  have hcounted : s₀.Counted s₀.refs := by
    refine h.same rfl hr (fun t ht => .inl (hwork ▸ List.mem_cons_of_mem _ ht)) ?_
      fun _ hp => .inl hp
    show (rest.filterMap _).Sublist (s.work.filterMap _)
    rw [hwork]
    exact List.sublist_cons_self ..
  refine ⟨ob, hob, hcounted.objDeinitNoDel (fun _ _ => rfl) ((hr o).trans hzero)
    (List.nodup_cons.mp hnodup).1 ob, ?_⟩
  have hget (x : ObjId) : (s₀.objDeinitNoDel o ob).obj x =
      if x = o then some { ob with freeing := true } else s.obj x := obj_setObj x _
  refine hlog.same (fun x hx => ?_) (fun x => ?_) rfl rfl
  · rw [hget] at hx
    by_cases hxo : x = o
    · rw [hxo, hob]
      exact Option.some_ne_none _
    · rwa [if_neg hxo] at hx
  · unfold Active
    rw [hget]
    by_cases hxo : x = o
    · subst hxo
      simp [hob, hdel]
    · rw [if_neg hxo]

/-- A step is a call made by an idle caller, or what is under way going on. -/
theorem step_cases {c : RefCall} (hstep : refMachine.step c s = some (s', ())) :
    s.call c = some s' ∨ s.goOn c = some s' := by
  simp only [refMachine, Option.map_eq_some_iff, Prod.mk.injEq, and_true] at hstep
  obtain ⟨_, hor, rfl⟩ := hstep
  rcases Option.or_eq_some_iff.mp hor with hc | ⟨-, hg⟩
  · split at hc
    · exact .inl hc
    · cases hc
  · exact .inr hg

theorem goOn_cases {c : RefCall} (h : s.goOn c = some s') :
    (c = .work ∧ ∃ arg rest, s.work = .deinit arg :: rest ∧
      { s with work := rest }.argDeinit arg = some s') ∨
    (c = .work ∧ ∃ o rest, s.work = .free o :: rest ∧
      s' = { s.setObj o none with work := rest }) ∨
    (c = .endDel ∧ ∃ o rest ob, s.work = .inDel o :: rest ∧ s.obj o = some ob ∧
      s' = { s with work := rest }.objDeinitNoDel o ob) := by
  unfold goOn at h
  split at h
  · split at h
    · exact .inl ⟨rfl, _, _, ‹_›, h⟩
    · exact .inr (.inl ⟨rfl, _, _, ‹_›, (Option.some.inj h).symm⟩)
    · cases h
  · split at h
    · obtain ⟨ob, hob, rfl⟩ := Option.map_eq_some_iff.mp h
      exact .inr (.inr ⟨rfl, _, _, ob, ‹_›, hob, rfl⟩)
    · cases h
  · cases h

/-- Counting a reference deinitialises nothing. -/
theorem deinited_argRefcnt (arg : Arg)
    (h : s.argRefcntInc arg = some s' ∨ s.argRefcntDec arg = some s') :
    s'.deinited = s.deinited := by
  unfold argRefcntInc argRefcntDec objRefcntInc objRefcntDec at h
  rcases h with h | h <;> split at h
  · obtain ⟨_, -, rfl⟩ := Option.map_eq_some_iff.mp h
    rfl
  · cases h
    rfl
  · obtain ⟨_, -, rfl⟩ := Option.map_eq_some_iff.mp h
    rfl
  · cases h
    rfl

/-- Of the calls only `obj_GC` deinitialises. -/
theorem deinited_call {c : RefCall} (h : s.call c = some s') (hgc : ∀ o, c ≠ .gc o) :
    s'.deinited = s.deinited := by
  cases c with
  | gc o => exact absurd rfl (hgc o)
  | work | endDel => cases h
  | newObj | newArg | setObj | deinit | addMember | removeMember =>
    simp only [call] at h
    split at h <;> cases h
    rfl
  | copy arg =>
    simp only [call] at h
    split at h
    · obtain ⟨s₁, h₁, rfl⟩ := Option.map_eq_some_iff.mp h
      have hsame : s₁.deinited = s.deinited := deinited_argRefcnt arg (.inl h₁)
      exact hsame
    · cases h
  | refcntInc arg | refcntDec arg =>
    simp only [call] at h
    split at h
    · obtain ⟨s₁, h₁, rfl⟩ := Option.map_eq_some_iff.mp h
      have hsame : s₁.deinited = s.deinited := deinited_argRefcnt arg (by tauto)
      split
      · exact hsame
      · exact hsame
    · cases h
  | setSelf =>
    simp only [call] at h
    split at h
    · obtain ⟨_, h₁, rfl⟩ := Option.map_eq_some_iff.mp h
      obtain ⟨_, -, rfl⟩ := Option.map_eq_some_iff.mp h₁
      rfl
    · cases h

/-- **An object is deinitialised only when nothing refers to it**, whatever the step. -/
theorem Inv.deinited_step (h : s.Inv) (hlog : s.Log) {c : RefCall}
    (hstep : refMachine.step c s = some (s', ())) :
    s'.deinited = s.deinited ∨ ∃ o, s'.deinited = o :: s.deinited ∧ s'.refs o = 0 := by
  rcases step_cases hstep with hc | hg
  · by_cases hgc : ∃ o, c = .gc o
    · obtain ⟨o, rfl⟩ := hgc
      exact (h.gc hlog hc).deinited
    · exact .inl (deinited_call hc fun o he => hgc ⟨o, he⟩)
  · rcases goOn_cases hg with ⟨-, arg, rest, hwork, hd⟩ | ⟨-, o, rest, hwork, rfl⟩ |
      ⟨-, o, rest, ob, hwork, hob, rfl⟩
    · obtain ⟨s₁, h₁, hs⟩ := h.workDeinit hlog hwork
      cases hd.symm.trans h₁
      exact hs.deinited
    · exact .inl rfl
    · exact .inl rfl

/-- A step that counts right keeps the invariant and the log. -/
theorem Inv.step (h : s.Inv) (hlog : s.Log) {c : RefCall} (hC : Counts c s)
    (hstep : refMachine.step c s = some (s', ())) : s'.Inv ∧ s'.Log := by
  rcases step_cases hstep with hc | hg
  · cases c with
    | newObj => exact h.newObj hlog hc
    | newArg => exact h.newArg hlog hc
    | setObj => exact h.setObj hlog hc
    | copy => exact h.copy hlog hC hc
    | refcntInc => exact h.refcntInc hlog hC hc
    | refcntDec => exact h.refcntDec hlog hc
    | deinit => exact h.deinit hlog hc
    | gc => exact ⟨(h.gc hlog hc).inv, (h.gc hlog hc).log⟩
    | setSelf => exact h.setSelf hlog hc
    | addMember => exact h.addMember hlog hc
    | removeMember => exact h.removeMember hlog hc
    | work | endDel => cases hc
  · rcases goOn_cases hg with ⟨-, arg, rest, hwork, hd⟩ | ⟨-, o, rest, hwork, rfl⟩ |
      ⟨rfl, o, rest, ob, hwork, hob, rfl⟩
    · obtain ⟨s₁, h₁, hs⟩ := h.workDeinit hlog hwork
      cases hd.symm.trans h₁
      exact ⟨hs.inv, hs.log⟩
    · exact h.workFree hlog hwork
    · obtain ⟨ob', hob', hs⟩ := h.endDel hlog hwork (hC o rest hwork)
      cases hob.symm.trans hob'
      exact hs

/-! ### What the counts are for -/

/-- What is promised of a state that a run from nothing reaches. -/
structure Safe (s : RefState) : Prop where
  /-- The next step deinitialises no object that is still referred to. -/
  unreferenced : ∀ c s' o, refMachine.step c s = some (s', ()) →
    s'.deinited = o :: s.deinited → s'.refs o = 0
  /-- No object is deinitialised twice. -/
  once : s.deinited.Nodup
  /-- An object that nothing refers to has been deinitialised. -/
  all : ∀ o ∈ s.created, s.refs o = 0 → o ∈ s.deinited
  /-- What a live arg refers to is there. -/
  present : ∀ o, 0 < s.refs o → s.obj o ≠ none

theorem Inv.safe (h : s.Inv) (hlog : s.Log) : s.Safe where
  unreferenced c s' o hstep hd := by
    rcases h.deinited_step hlog hstep with hsame | ⟨o', ho', hzero⟩
    · exact absurd (hd.symm.trans hsame) (List.cons_ne_self o s.deinited)
    · cases hd.symm.trans ho'
      exact hzero
  once := hlog.nodup
  all o ho hzero := by
    rw [hlog.mem o ho]
    rintro ⟨ob, hob, hdel, hfree⟩
    have := (h.count o ob hob hdel hfree).2.1
    omega
  present o hpos hnone := by
    obtain ⟨ob, hob, -⟩ := h.exists_of_pos hpos
    rw [hnone] at hob
    cases hob

theorem inv_init : Inv init ∧ Log init :=
  ⟨⟨nofun, fun _ _ => rfl, nofun, nofun, List.nodup_nil, nofun⟩,
    ⟨fun _ h => absurd rfl h, nofun, List.nodup_nil, nofun⟩⟩

end Steps

/-- **Reference counts are safe in every run that counts right**: an object is
deinitialised when the last reference to it is gone, not before and not twice. -/
theorem run_safe (calls : List RefCall) (s : RefState) (answers : List Unit)
    (hcounts : refMachine.Meets Counts init calls)
    (hrun : refMachine.run init calls = some (s, answers)) : s.Safe := by
  obtain ⟨hinv, hlog⟩ := refMachine.run_invariant_of_meets (P := fun s => s.Inv ∧ s.Log)
    (fun c s s' _ hC hs hstep => hs.1.step hs.2 hC hstep) inv_init hcounts hrun
  exact hinv.safe hlog

/-- An arg of the object at address 1. -/
private def objArg : Arg := Arg.newPtr .object 1

private def twoArgs : List RefCall :=
  [.newObj 1 false, .setObj objArg, .copy objArg, .deinit objArg, .work, .deinit objArg, .work,
    .work]

private theorem meets_twoArgs : refMachine.Meets Counts init twoArgs := by
  refine refMachine.meets_cons rfl trivial (refMachine.meets_cons rfl trivial ?_)
  refine refMachine.meets_cons rfl (fun _ ob hob _ => ?_) ?_
  · cases hob
    decide
  · exact refMachine.meets_cons rfl trivial (refMachine.meets_cons rfl trivial
      (refMachine.meets_cons rfl trivial (refMachine.meets_cons rfl trivial
        (refMachine.meets_cons rfl trivial trivial))))

/-- An object with two args, both deinitialised. -/
theorem run_safe_two_args : ∃ s answers,
    refMachine.run init twoArgs = some (s, answers) ∧ s.Safe ∧ s.deinited = [1] := by
  obtain ⟨s, answers, hrun, hd⟩ : ∃ s answers,
      refMachine.run init twoArgs = some (s, answers) ∧ s.deinited = [1] := ⟨_, _, rfl, rfl⟩
  exact ⟨s, answers, hrun, run_safe twoArgs s answers meets_twoArgs hrun, hd⟩

/-- The object at address 1 with `n + 1` args. -/
private def copied (n : Nat) : RefState where
  obj := Function.update (fun _ => none) 1 (some ⟨u8 (n + 1), false, false, false⟩)
  members := []
  args := List.replicate (n + 1) objArg
  holds := []
  work := []
  created := [1]
  deinited := []

private theorem objArg_copy : objArg.copy = objArg := by decide

private theorem objArg_isCounted : objArg.isCounted = true := by decide

private theorem objArg_getPtr : objArg.getPtr = 1 := by decide

private theorem run_copies (n k : Nat) :
    refMachine.run (copied k) (List.replicate n (.copy objArg)) =
      some (copied (k + n), List.replicate n ()) := by
  induction n generalizing k with
  | zero => rfl
  | succ n ih =>
    have hcount : u8 (u8 (k + 1) + 1) = u8 (k + 1 + 1) := by
      unfold u8
      omega
    have hlive : (copied k).live objArg := .inl (List.mem_replicate.mpr ⟨Nat.succ_ne_zero k, rfl⟩)
    have hstep : refMachine.step (.copy objArg) (copied k) = some (copied (k + 1), ()) := by
      simp only [refMachine, call, hlive, if_true, argRefcntInc, objArg_isCounted, objRefcntInc,
        objArg_getPtr, objArg_copy]
      simp [copied, idle, RefState.setObj, hcount, List.replicate_succ]
    rw [List.replicate_succ, Machine.run, hstep, Option.bind_some, ih, Nat.add_right_comm]
    rfl

/-- With 257 args of one object its count is back at 1: deinitialising any one of
them deinitialises the object under the other 256. -/
theorem not_safe_of_wrap : ¬∀ (calls : List RefCall) (s : RefState) (answers : List Unit),
    refMachine.run init calls = some (s, answers) → s.Safe := by
  intro h
  have hstart : refMachine.run init [.newObj 1 false, .setObj objArg] = some (copied 0, [(), ()]) :=
    rfl
  let wrapped : RefState := { copied 256 with
    args := (copied 256).args.erase objArg, work := [.deinit objArg] }
  have hdeinit : refMachine.run (copied 256) [.deinit objArg] = some (wrapped, [()]) := rfl
  have hrun := refMachine.run_append (refMachine.run_append hstart (run_copies 256 0)) hdeinit
  have hzero := (h _ _ _ hrun).unreferenced .work _ 1 rfl rfl
  exact absurd hzero (by decide +kernel)

end RefState

end PikaScript
