import PikaScript.VM.Program

/-! The frames of functions and classes.

A function is entered behind the jump over it. Its defaults are set where an argument does
not exist, its body is a program of its own, and a `RET` closes it; a class makes its object,
runs its body as that object and gives it back. `Method.meaning` says so block by block, and
the frame does the same. -/
namespace PikaScript
open Commands

/-! ### The meaning -/

section
variable {σ : Type} (host : VMHost σ)

/-- `JNZ`: the test fails when its value is true. -/
def testNot : Cmd (Level σ) Stop :=
  act fun s =>
    let (bAssert, data) := host.popBool s.2
    (.next, some bAssert, data)

/-- The defaults of a function: each is set when its argument does not exist. -/
def defaultsMeaning (deepth : Nat) : List (CString × ExprCode) → Cmd (Level σ) Stop
  | [] => exit .next
  | (argName, code) :: defaults =>
    seq (acts host (lineCode deepth true [.ins 0 .EST argName]))
      (seq (seq (testNot host) (ifFailed (exit .next) (code.1.meaning host deepth true [])))
        (defaultsMeaning deepth defaults))

/-- What a frame runs in front of its body. -/
def Header.entryMeaning (units : List AsmUnit) (deepth pos : Nat) :
    Header → Cmd (Level σ) Stop
  | defBlock _ defaults => defaultsMeaning host (deepth + 1) defaults
  | classBlock .. => actsAt host units pos 3
  | _ => exit .next

/-- What it runs behind its body. -/
def Header.exitMeaning (deepth : Nat) : Header → Cmd (Level σ) Stop
  | classBlock .. =>
    seq (acts host (lineCode (deepth + 1) true [insLine .RAS ['$', 'o', 'r', 'i', 'g', 'i', 'n']]))
      (seq (acts host (lineCode (deepth + 1) true [insLine .NEW ['s', 'e', 'l', 'f']]))
        (act fun s => (.stop .returned, s.1, host.ret s.2)))
  | _ => act fun s => (.stop .returned, s.1, host.ret (host.newLine s.2))

/-- **The meaning of a function or a class**, in the array of its program. -/
def Method.meaning (units : List AsmUnit) (m : Method) : Cmd (Level σ) Stop :=
  seq (m.header.entryMeaning host units m.deepth m.start)
    (seq (m.body.meaning host units (m.deepth + 1) m.next
        (m.start + (lineUnits (m.header.innerAsm m.deepth)).length))
      (m.header.exitMeaning host m.deepth))

end

section
variable {σ : Type} {host : VMHost σ} {units : List AsmUnit} {env : Env}
  {c d : Cmd (Level σ) Stop} {deepth n pos stop : Nat} {dat : CString}
  {leave : Exit Stop → Level σ → FrameState σ → Prop}

end

/-! ### The array around a method -/

theorem low_plug (place : Place) {p : Prog} {base : Nat} (h : (place.plug p).Low base) :
    p.Low (place.deepth base) := by
  induction place generalizing base with
  | hole => exact h
  | line stmt place ih => exact ih h
  | block header body place ih => exact ih h.2.2
  | inside header place rest ih => exact ih h.2.1

theorem level_plug (place : Place) {p : Prog} {base after : Nat}
    (h : (place.plug p).ClassesLevel base after) :
    p.ClassesLevel (place.deepth base) (place.next base after) := by
  induction place generalizing base after with
  | hole => exact h
  | line stmt place ih => exact ih h
  | block header body place ih => exact ih h.2.2
  | inside header place rest ih => exact ih h.2.1

section
variable {m : Method} {stackSize : Nat} {texts : List (List AsmLine)}

theorem le_deepth (place : Place) (base : Nat) : base ≤ place.deepth base := by
  induction place generalizing base with
  | hole => exact Nat.le_refl _
  | line stmt place ih => exact ih base
  | block header body place ih => exact ih base
  | inside header place rest ih => exact Nat.le_of_succ_le (ih (base + 1))

/-- The line behind a place is not deeper. -/
theorem head?_behind (place : Place) (base after : Nat) :
    ∀ k ∈ (place.behindDeepths base after).head?, k ≤ place.deepth base := by
  induction place generalizing base after with
  | hole => exact fun _ h => by cases h
  | line stmt place ih => exact ih base after
  | block header body place ih => exact ih base after
  | inside header place rest ih =>
    intro k hk
    have hle := le_deepth place (base + 1)
    rw [Place.behindDeepths, List.append_assoc, List.head?_append] at hk
    rcases Option.or_eq_some_iff.mp hk with hk | ⟨-, hk⟩
    · exact ih _ _ k hk
    rw [List.head?_append] at hk
    rcases Option.or_eq_some_iff.mp hk with hk | ⟨-, hk⟩
    · have hexit : k ≤ base + 1 := by
        cases header <;> simp [Header.blockType, BlockType.deepths] at hk <;> omega
      exact hexit.trans hle
    · rw [head?_deepths rest base after k hk]
      exact Nat.le_of_succ_le hle

/-- **A method that is less than ten deep is entered at its first line.** -/
theorem Method.deeper (hlow : m.prog.Low 0) (hlevel : m.prog.ClassesLevel 0 0) : m.Deeper := by
  obtain ⟨hlt, hbody, -⟩ := low_plug m.place hlow
  obtain ⟨hclass, hbodyLevel, -⟩ := level_plug m.place hlevel
  have hdeepth : m.deepth < registSize := hlt
  have hinner := method_deepths m.isMethod hclass
  rw [registSize] at hdeepth
  have hmod : m.deepth % 16 = m.deepth := Nat.mod_eq_of_lt (by omega)
  rw [List.forall_mem_append] at hinner
  refine ⟨List.forall_mem_append.mpr ⟨List.forall_mem_append.mpr ⟨fun k hk => ?_, fun k hk => ?_⟩,
    fun k hk => ?_⟩, fun k hk => ?_⟩
  · have hle : m.deepth < k ∧ k ≤ m.deepth + 2 := hinner.1 k hk
    rw [hmod, Nat.mod_eq_of_lt (by omega)]
    exact hle.1
  · have hle : m.deepth + 1 ≤ k ∧ k < 16 := Prog.deepths_lt hbody hbodyLevel hlt k hk
    rw [hmod, Nat.mod_eq_of_lt hle.2]
    exact hle.1
  · have hle : m.deepth < k ∧ k ≤ m.deepth + 2 := hinner.2 k hk
    rw [hmod, Nat.mod_eq_of_lt (by omega)]
    exact hle.1
  · rw [hmod]
    refine (Nat.mod_le _ _).trans ?_
    rw [List.head?_append] at hk
    rcases Option.or_eq_some_iff.mp hk with hk | ⟨-, hk⟩
    · exact (head?_deepths _ _ _ k hk).le
    · exact head?_behind m.place 0 0 k hk

end

/-! ### The frame of a method -/

section
variable {σ : Type} {host : VMHost σ} {units : List AsmUnit} {header : Header}
  {c d : Cmd (Level σ) Stop} {deepth now start mid pos : Nat}

end

end PikaScript
