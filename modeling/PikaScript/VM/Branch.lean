import Mathlib.Logic.Function.Basic
import PikaScript.VM.Jump

/-! The jumps of blocks, from `PikaVM.c`.

`JMP`, `JEZ`, `JNZ` and `NEL` have no target. They count lines that are not deeper than
their own, and what a branch was is kept in a register for each depth. `step` is the
machine with all that does not jump left to a host. A region of the array that is
`Tame` is not left but at its end, and the code of every program is (`tame_prog`). -/
namespace PikaScript

/-! ### The code -/

/-- `PIKA_REGIST_SIZE`. -/
def registSize : Nat := 10

/-- The test for a line that is not deeper. -/
def AsmUnit.endsBlock (thisBlockDeepth : Nat) (unit : AsmUnit) : Bool :=
  unit.isNewLine && unit.blockDeepth ≤ thisBlockDeepth

/-- The loop ahead of `PikaVMFrame_getAddrOffsetFromJmp`: how many units it skips. -/
def skipLines (thisBlockDeepth : Nat) : Nat → List AsmUnit → Nat
  | _, [] => 0
  | jmp, unit :: after =>
    let jmp := if unit.endsBlock thisBlockDeepth then jmp - 1 else jmp
    if jmp = 0 then 0 else skipLines thisBlockDeepth jmp after + 1

/-- Its loop back, over the units in front, the nearest first; none when it reads in
front of the array. -/
def backLines (thisBlockDeepth : Nat) : Nat → List AsmUnit → Option Nat
  | _, [] => none
  | jmp, unit :: before =>
    let jmp := if unit.isNewLine && unit.blockDeepth == thisBlockDeepth then jmp - 1 else jmp
    if jmp = 0 then some 0 else (backLines thisBlockDeepth jmp before).map (· + 1)

/-- `PikaVMFrame_getAddrOffsetFromJmp`: the unit that is next. -/
def getAddrFromJmp (units : List AsmUnit) (pc : Nat) (unit : AsmUnit) : Int → Option Nat
  | .ofNat jmp => some (pc + 1 + skipLines unit.blockDeepth jmp (units.drop (pc + 1)))
  | .negSucc jmp =>
    (backLines unit.blockDeepth (jmp + 1) (units.take pc).reverse).map (pc - 1 - ·)

/-- A frame: the program counter, `ireg`, and all else. -/
structure VMFrame (σ : Type) where
  pc : Nat
  ireg : Fin registSize → Bool
  data : σ

/-- What the instructs that do not jump do, with none for an error, and the truth value
that is popped off the stack. -/
structure Host (σ : Type) where
  run : AsmUnit → σ → Option σ
  popBool : σ → Bool × σ

section
variable {σ : Type} (host : Host σ) (units : List AsmUnit)

/-- The jump of a unit. -/
def VMFrame.jump (vm : VMFrame σ) (unit : AsmUnit) : Option (VMFrame σ) := do
  let jmp ← fastAtoi unit.data
  let pc ← getAddrFromJmp units vm.pc unit jmp
  return { vm with pc := pc }

/-- `_VM_JEZ`; none when the register of the depth is not in `ireg`. -/
def vmJez (vm : VMFrame σ) (unit : AsmUnit) (bAssert : Bool) : Option (VMFrame σ) :=
  if h : unit.blockDeepth < registSize then
    let vm := { vm with ireg := Function.update vm.ireg ⟨unit.blockDeepth, h⟩ !bAssert }
    if bAssert then some { vm with pc := vm.pc + 1 } else vm.jump units unit
  else none

/-- `VM_instruction_handler_NEL`. -/
def vmNel (vm : VMFrame σ) (unit : AsmUnit) : Option (VMFrame σ) :=
  if h : unit.blockDeepth < registSize then
    if vm.ireg ⟨unit.blockDeepth, h⟩ then some { vm with pc := vm.pc + 1 } else vm.jump units unit
  else none

/-- One round of the machine; none when the frame ends. -/
def VMFrame.step (vm : VMFrame σ) : Option (VMFrame σ) := do
  let unit ← units[vm.pc]?
  match unit.instruct with
  | .JMP => vm.jump units unit
  | .JEZ =>
    let (bAssert, data) := host.popBool vm.data
    vmJez units { vm with data := data } unit bAssert
  | .JNZ =>
    let (bAssert, data) := host.popBool vm.data
    vmJez units { vm with data := data } unit !bAssert
  | .NEL => vmNel units vm unit
  | .BRK => (getAddrOffsetOfBreak units vm.pc).map fun offset => { vm with pc := vm.pc + offset }
  | .CTN => (getAddrOffsetOfContinue units vm.pc).map fun offset => { vm with pc := vm.pc + offset }
  | .RET => none
  | _ => (host.run unit vm.data).map fun data => { vm with pc := vm.pc + 1, data := data }

end

/-! ### What a step does -/

/-- An instruct that counts lines. -/
def InstructIndex.isJump : InstructIndex → Bool
  | JMP | JEZ | JNZ | NEL => true
  | _ => false

def InstructIndex.isControl : InstructIndex → Bool
  | BRK | CTN => true
  | _ => false

section
variable {σ : Type} {host : Host σ} {units : List AsmUnit} {vm vm' : VMFrame σ} {unit : AsmUnit}

theorem jump_spec (h : vm.jump units unit = some vm') :
    ∃ jmp, fastAtoi unit.data = some jmp ∧ getAddrFromJmp units vm.pc unit jmp = some vm'.pc ∧
      vm'.ireg = vm.ireg ∧ vm'.data = vm.data := by
  obtain ⟨jmp, hjmp, h⟩ := Option.bind_eq_some_iff.mp h
  obtain ⟨pc, hpc, h⟩ := Option.bind_eq_some_iff.mp h
  cases h
  exact ⟨jmp, hjmp, hpc, rfl, rfl⟩

/-- A step goes to the next unit, or where a jump or a `break` goes, and changes no
register but that of its depth. -/
theorem step_spec (h : vm.step host units = some vm') (hunit : units[vm.pc]? = some unit) :
    (vm'.pc = vm.pc + 1 ∨ unit.instruct.isControl = true ∨ unit.instruct.isJump = true ∧
      ∃ jmp, fastAtoi unit.data = some jmp ∧ getAddrFromJmp units vm.pc unit jmp = some vm'.pc) ∧
    ∀ k : Fin registSize, k.val ≠ unit.blockDeepth → vm'.ireg k = vm.ireg k := by
  have hjez : ∀ {vm : VMFrame σ} {bAssert : Bool}, vmJez units vm unit bAssert = some vm' →
      (vm'.pc = vm.pc + 1 ∨ ∃ jmp, fastAtoi unit.data = some jmp ∧
        getAddrFromJmp units vm.pc unit jmp = some vm'.pc) ∧
      ∀ k : Fin registSize, k.val ≠ unit.blockDeepth → vm'.ireg k = vm.ireg k := by
    intro vm bAssert h
    unfold vmJez at h
    split at h
    · rename_i hreg
      have hframe : ∀ k : Fin registSize, k.val ≠ unit.blockDeepth →
          Function.update vm.ireg ⟨unit.blockDeepth, hreg⟩ (!bAssert) k = vm.ireg k :=
        fun k hk => Function.update_of_ne (fun heq => hk (congrArg Fin.val heq)) _ _
      dsimp only at h
      split at h
      · cases h
        exact ⟨.inl rfl, hframe⟩
      · obtain ⟨jmp, hjmp, hpc, hireg, -⟩ := jump_spec h
        exact ⟨.inr ⟨jmp, hjmp, hpc⟩, fun k hk => by rw [hireg]; exact hframe k hk⟩
    · cases h
  rw [VMFrame.step, hunit, Option.bind_eq_bind, Option.bind_some] at h
  split at h
  · rename_i hinstruct
    obtain ⟨jmp, hjmp, hpc, hireg, -⟩ := jump_spec h
    exact ⟨.inr (.inr ⟨by rw [hinstruct]; rfl, jmp, hjmp, hpc⟩), fun k _ => by rw [hireg]⟩
  · rename_i hinstruct
    obtain ⟨hpc, hireg⟩ := hjez h
    exact ⟨hpc.imp_right fun hjmp => .inr ⟨by rw [hinstruct]; rfl, hjmp⟩, hireg⟩
  · rename_i hinstruct
    obtain ⟨hpc, hireg⟩ := hjez h
    exact ⟨hpc.imp_right fun hjmp => .inr ⟨by rw [hinstruct]; rfl, hjmp⟩, hireg⟩
  · rename_i hinstruct
    unfold vmNel at h
    split at h
    · split at h
      · cases h
        exact ⟨.inl rfl, fun _ _ => rfl⟩
      · obtain ⟨jmp, hjmp, hpc, hireg, -⟩ := jump_spec h
        exact ⟨.inr (.inr ⟨by rw [hinstruct]; rfl, jmp, hjmp, hpc⟩), fun k _ => by rw [hireg]⟩
    · cases h
  · rename_i hinstruct
    obtain ⟨offset, -, rfl⟩ := Option.map_eq_some_iff.mp h
    exact ⟨.inr (.inl (by rw [hinstruct]; rfl)), fun _ _ => rfl⟩
  · rename_i hinstruct
    obtain ⟨offset, -, rfl⟩ := Option.map_eq_some_iff.mp h
    exact ⟨.inr (.inl (by rw [hinstruct]; rfl)), fun _ _ => rfl⟩
  · cases h
  · obtain ⟨data, -, rfl⟩ := Option.map_eq_some_iff.mp h
    exact ⟨.inl rfl, fun _ _ => rfl⟩

end

/-- A jump over one line goes to the first line that is not deeper. -/
theorem skipLines_one (deepth : Nat) (after : List AsmUnit) :
    skipLines deepth 1 after = after.findIdx (AsmUnit.endsBlock deepth) := by
  induction after with
  | nil => rfl
  | cons unit after ih =>
    rw [skipLines, List.findIdx_cons]
    cases h : unit.endsBlock deepth with
    | true => rfl
    | false =>
      rw [if_neg (by decide), if_neg (by decide), ih]
      rfl

/-- A jump over one line goes right behind a piece. -/
theorem skipLines_one_eq {deepth : Nat} {piece more : List AsmUnit} :
    skipLines deepth 1 (piece ++ more) = piece.length ↔
      (∀ unit ∈ piece, unit.endsBlock deepth = false) ∧
        ∀ unit ∈ more.head?, unit.endsBlock deepth = true := by
  induction piece with
  | nil =>
    rw [List.nil_append, List.length_nil, skipLines_one]
    cases more with
    | nil => simp
    | cons unit more => cases h : unit.endsBlock deepth <;> simp [List.findIdx_cons, h]
  | cons unit piece ih =>
    rw [List.cons_append, skipLines, List.length_cons, List.forall_mem_cons]
    cases h : unit.endsBlock deepth with
    | true => simp
    | false =>
      rw [if_neg (by decide), if_neg (by decide), Nat.add_right_cancel_iff, ih]
      simp

theorem skipLines_le_length (deepth jmp : Nat) (after : List AsmUnit) :
    skipLines deepth jmp after ≤ after.length := by
  induction after generalizing jmp with
  | nil => exact Nat.le_refl _
  | cons unit after ih =>
    rw [skipLines, List.length_cons]
    split <;> split <;> first | exact Nat.zero_le _ | exact Nat.succ_le_succ (ih _)

/-- A jump over one line does not go past a line that is not deeper. -/
theorem skipLines_one_le {deepth : Nat} {last : AsmUnit} (hlast : last.endsBlock deepth = true)
    (piece more : List AsmUnit) : skipLines deepth 1 (piece ++ last :: more) ≤ piece.length := by
  rw [skipLines_one]
  refine Nat.le_of_not_lt fun hlt => ?_
  have hnot := List.not_of_lt_findIdx hlt
  rw [List.getElem_append_right (Nat.le_refl _)] at hnot
  simp [hlast] at hnot

/-- A jump over two lines does not, when there is another such line in front of it. -/
theorem skipLines_two_le {deepth : Nat} {last : AsmUnit} (hlast : last.endsBlock deepth = true)
    {piece : List AsmUnit} (hpiece : ∃ unit ∈ piece, unit.endsBlock deepth = true)
    (more : List AsmUnit) : skipLines deepth 2 (piece ++ last :: more) ≤ piece.length := by
  induction piece with
  | nil =>
    obtain ⟨unit, hunit, -⟩ := hpiece
    cases hunit
  | cons unit piece ih =>
    rw [List.cons_append, skipLines, List.length_cons]
    cases hunit : unit.endsBlock deepth with
    | true => exact Nat.succ_le_succ (skipLines_one_le hlast piece more)
    | false =>
      refine Nat.succ_le_succ (ih ?_)
      obtain ⟨v, hv, hends⟩ := hpiece
      rcases List.mem_cons.mp hv with rfl | hv
      · rw [hunit] at hends
        cases hends
      · exact ⟨v, hv, hends⟩

/-- A jump back finds a line of its depth. -/
theorem backLines_lt {deepth : Nat} {piece : List AsmUnit}
    (hpiece : ∃ unit ∈ piece, unit.isNewLine = true ∧ unit.blockDeepth = deepth)
    (more : List AsmUnit) :
    ∃ k, backLines deepth 1 (piece ++ more) = some k ∧ k < piece.length := by
  induction piece with
  | nil =>
    obtain ⟨unit, hunit, -⟩ := hpiece
    cases hunit
  | cons unit piece ih =>
    rw [List.cons_append, backLines, List.length_cons]
    cases hunit : unit.isNewLine && unit.blockDeepth == deepth with
    | true => exact ⟨0, rfl, Nat.succ_pos _⟩
    | false =>
      obtain ⟨v, hv, hline, hdeepth⟩ := hpiece
      rcases List.mem_cons.mp hv with rfl | hv
      · rw [hline, hdeepth, beq_self_eq_true] at hunit
        cases hunit
      · obtain ⟨k, hk, hlt⟩ := ih ⟨v, hv, hline, hdeepth⟩
        refine ⟨k + 1, ?_, Nat.succ_lt_succ hlt⟩
        rw [if_neg (by decide), if_neg (by decide), hk]
        rfl

/-! ### Regions -/

/-- What a jump needs around it to stay in a region: it goes one line ahead; or two, with
a line ahead that is not deeper; or back, with a line of its depth behind. -/
def Lands (before after : List AsmUnit) (unit : AsmUnit) : Prop :=
  unit.instruct.isJump = true →
    fastAtoi unit.data = some 1 ∨
    (fastAtoi unit.data = some 2 ∧ ∃ line ∈ after, line.endsBlock unit.blockDeepth = true) ∨
    (fastAtoi unit.data = some (-1) ∧
      ∃ line ∈ before, line.isNewLine = true ∧ line.blockDeepth = unit.blockDeepth)

/-- A region all of whose jumps have that, between what is in front of it and behind. -/
def Tame (before : List AsmUnit) : List AsmUnit → List AsmUnit → Prop
  | [], _ => True
  | unit :: region, after =>
    Lands before (region ++ after) unit ∧ Tame (before ++ [unit]) region after

theorem Tame.append {before region more after : List AsmUnit}
    (h : Tame before region (more ++ after)) (hmore : Tame (before ++ region) more after) :
    Tame before (region ++ more) after := by
  induction region generalizing before with
  | nil =>
    rw [List.append_nil] at hmore
    exact hmore
  | cons unit region ih =>
    refine ⟨?_, ih h.2 ?_⟩
    · show Lands before (region ++ more ++ after) unit
      rw [List.append_assoc]
      exact h.1
    · rw [List.append_assoc]
      exact hmore

theorem Tame.lands {before front back after : List AsmUnit} {unit : AsmUnit}
    (h : Tame before (front ++ unit :: back) after) :
    Lands (before ++ front) (back ++ after) unit := by
  induction front generalizing before with
  | nil =>
    rw [List.append_nil]
    exact h.1
  | cons first front ih =>
    have := ih h.2
    rw [List.append_assoc] at this
    exact this

/-- The unit at an index, and what is around it. -/
theorem exists_split {region : List AsmUnit} {k : Nat} (h : k < region.length) :
    ∃ front unit back, region = front ++ unit :: back ∧ front.length = k := by
  refine ⟨region.take k, region[k], region.drop (k + 1), ?_, List.length_take_of_le h.le⟩
  rw [List.getElem_cons_drop, List.take_append_drop]

/-- **A tame region is left at its end only**, unless by a `break`, a `continue` or an
error. -/
theorem step_region {σ : Type} {host : Host σ} {front region back : List AsmUnit}
    {vm vm' : VMFrame σ} (htame : Tame [] region [])
    (hback : ∀ line ∈ back.head?, ∀ unit ∈ region, line.endsBlock unit.blockDeepth = true)
    (h : vm.step host (front ++ region ++ back) = some vm')
    (hlow : front.length ≤ vm.pc) (hhigh : vm.pc < front.length + region.length)
    (hcontrol : ∀ unit ∈ (front ++ region ++ back)[vm.pc]?, unit.instruct.isControl = false) :
    front.length ≤ vm'.pc ∧ vm'.pc ≤ front.length + region.length := by
  obtain ⟨before, unit, after, rfl, hpc⟩ :=
    exists_split (show vm.pc - front.length < region.length by omega)
  have hunits : front ++ (before ++ unit :: after) ++ back =
      (front ++ before) ++ unit :: (after ++ back) := by
    simp only [List.append_assoc, List.cons_append]
  have hindex : vm.pc = (front ++ before).length := by
    rw [List.length_append]
    omega
  have hunit : (front ++ (before ++ unit :: after) ++ back)[vm.pc]? = some unit := by
    rw [hunits, hindex, List.getElem?_append_right (Nat.le_refl _), Nat.sub_self]
    rfl
  have hafter : (front ++ (before ++ unit :: after) ++ back).drop (vm.pc + 1) = after ++ back := by
    rw [hunits, hindex, List.drop_append, List.drop_eq_nil_of_le (Nat.le_succ _),
      Nat.add_sub_cancel_left, List.nil_append, List.drop_succ_cons, List.drop_zero]
  have hbefore : (front ++ (before ++ unit :: after) ++ back).take vm.pc = front ++ before := by
    rw [hunits, hindex, List.take_left]
  have hlast : ∀ line ∈ back.head?, line.endsBlock unit.blockDeepth = true :=
    fun line hline => hback line hline unit (List.mem_append_right _ List.mem_cons_self)
  rw [List.length_append, List.length_cons] at hhigh ⊢
  rcases (step_spec h hunit).1 with hnext | hbreak | ⟨hjump, jmp, hjmp, haddr⟩
  · omega
  · rw [hcontrol unit hunit] at hbreak
    cases hbreak
  rcases htame.lands hjump with hone | ⟨htwo, hline⟩ | ⟨hback1, hline⟩
  · -- one line ahead
    cases hone.symm.trans hjmp
    have hpc' : vm'.pc = vm.pc + 1 + skipLines unit.blockDeepth 1 (after ++ back) := by
      rw [← hafter]
      exact (Option.some.inj haddr).symm
    have hle : skipLines unit.blockDeepth 1 (after ++ back) ≤ after.length := by
      cases back with
      | nil =>
        rw [List.append_nil]
        exact skipLines_le_length _ _ _
      | cons last more => exact skipLines_one_le (hlast last rfl) after more
    omega
  · -- two lines ahead
    cases htwo.symm.trans hjmp
    have hpc' : vm'.pc = vm.pc + 1 + skipLines unit.blockDeepth 2 (after ++ back) := by
      rw [← hafter]
      exact (Option.some.inj haddr).symm
    rw [List.append_nil] at hline
    have hle : skipLines unit.blockDeepth 2 (after ++ back) ≤ after.length := by
      cases back with
      | nil =>
        rw [List.append_nil]
        exact skipLines_le_length _ _ _
      | cons last more => exact skipLines_two_le (hlast last rfl) hline more
    omega
  · -- a line back
    cases hback1.symm.trans hjmp
    obtain ⟨k, hk, hpc'⟩ := Option.map_eq_some_iff.mp haddr
    rw [List.nil_append] at hline
    obtain ⟨line, hmem, hline⟩ := hline
    obtain ⟨k', hk', hlt⟩ := backLines_lt ⟨line, List.mem_reverse.mpr hmem, hline⟩ front.reverse
    rw [hbefore, List.reverse_append] at hk
    cases hk.symm.trans hk'
    rw [List.length_reverse] at hlt
    omega

/-! ### The code of a program is tame -/

/-- Every `try` has an `except` behind it. -/
def Prog.Caught : Prog → Prop
  | nil => True
  | line _ rest => rest.Caught
  | block header body rest =>
    (header = .tryBlock → ∃ body' rest', rest = .block .exceptBlock body' rest') ∧
      body.Caught ∧ rest.Caught

/-- An instruct that goes one line ahead, if it jumps. -/
def AsmLine.isNear : AsmLine → Bool
  | block _ => true
  | ins _ instruct data => !instruct.isJump || data == InstructIndex.letters ['1']

theorem tame_near {lines : List AsmLine} (h : lines.all AsmLine.isNear = true)
    (blockDeepth : Nat) (isNewLine : Bool) (before after : List AsmUnit) :
    Tame before ((asmUnits blockDeepth isNewLine lines).map AsmUnit.narrow) after := by
  induction lines generalizing blockDeepth isNewLine before with
  | nil => trivial
  | cons line lines ih =>
    rw [List.all_cons, Bool.and_eq_true] at h
    obtain ⟨hline, hrest⟩ := h
    cases line with
    | block deepth => exact ih hrest deepth true before
    | ins invokeDeepth instruct data =>
      refine ⟨fun hjump => .inl ?_, ih hrest _ _ _⟩
      have hdata : data = InstructIndex.letters ['1'] := by
        have hjump : instruct.isJump = true := hjump
        rw [AsmLine.isNear, hjump] at hline
        simpa using hline
      show fastAtoi data = some 1
      rw [hdata]
      decide

theorem isNear_code (code : List ExprIns) : (code.map ExprIns.line).all AsmLine.isNear = true := by
  rw [List.all_map, List.all_eq_true]
  intro e _
  have hexpr : ∀ instruct ∈ exprInstructs, instruct.isJump = false := by decide
  simp [ExprIns.line, AsmLine.isNear, hexpr _ e.mem_exprInstructs]

theorem isNear_argIn (argIn : ArgIn) (deepth : Nat) :
    (argIn.asm deepth).all AsmLine.isNear = true :=
  argIn.all_asm (fun _ => rfl) rfl isNear_code deepth

/-- A line of a depth that is there. -/
def HasLine (deepth : Nat) (units : List AsmUnit) : Prop :=
  ∃ line ∈ units, line.isNewLine = true ∧ line.blockDeepth = deepth % 16

theorem HasLine.mono {deepth : Nat} {units more : List AsmUnit} (h : HasLine deepth units)
    (hmore : units ⊆ more) : HasLine deepth more := by
  obtain ⟨line, hline, hdeepth⟩ := h
  exact ⟨line, hmore hline, hdeepth⟩

/-- The first unit of a line that says something. -/
theorem hasLine_ins (deepth invokeDeepth : Nat) (instruct : InstructIndex) (data : CString)
    (lines : List AsmLine) :
    HasLine deepth (lineUnits (.block deepth :: .ins invokeDeepth instruct data :: lines)) :=
  ⟨_, List.mem_cons_self, rfl, rfl⟩

/-- A unit that does not jump. -/
theorem lands_plain {before after : List AsmUnit} {unit : AsmUnit}
    (h : unit.instruct.isJump = false) : Lands before after unit := by
  intro hjump
  rw [h] at hjump
  cases hjump

/-- `JEZ 2` with the end of its loop ahead. -/
theorem lands_two {deepth : Nat} {before after : List AsmUnit} {unit : AsmUnit}
    (hdata : unit.data = InstructIndex.letters ['2']) (hdeepth : unit.blockDeepth = deepth % 16)
    (hafter : HasLine deepth after) : Lands before after unit := by
  intro _
  obtain ⟨line, hline, hnew, hline'⟩ := hafter
  refine .inr (.inl ⟨by rw [hdata]; decide, line, hline, ?_⟩)
  rw [AsmUnit.endsBlock, hnew, hline', hdeepth]
  simp

theorem tame_for (iter : List ExprIns) (argIn : ArgIn) (deepth : Nat) {before after : List AsmUnit}
    (hafter : HasLine deepth after) :
    Tame before (lineUnits (.block deepth :: forAsm deepth iter argIn)) after := by
  have hargIn := startsBlock_argIn argIn deepth
  have hiter : (AsmLine.block deepth :: (iter.map ExprIns.line ++
      [.ins 0 .OUT (lReg deepth)])).all AsmLine.isNear = true := by
    rw [List.all_cons, List.all_append, isNear_code]
    rfl
  rw [forAsm, ← List.cons_append, lineUnits_append _ hargIn, ← List.cons_append,
    lineUnits_append _ (by trivial), List.append_assoc]
  refine (tame_near hiter 0 false _ _).append (@Tame.append _ _ _ _ ?_
    (tame_near (isNear_argIn argIn deepth) 0 false _ _))
  refine ⟨lands_plain rfl, lands_plain rfl, lands_plain rfl, lands_two rfl rfl ?_, trivial⟩
  exact hafter.mono (List.subset_append_right _ _)

theorem tame_jmpBack {deepth : Nat} {before : List AsmUnit} (hbefore : HasLine deepth before)
    (after : List AsmUnit) : Tame before [jmpBack (deepth % 16)] after := by
  have hdata : fastAtoi (InstructIndex.letters ['-', '1']) = some (-1) := by decide
  exact ⟨fun _ => .inr (.inr ⟨hdata, hbefore⟩), trivial⟩

theorem tame_exitFor {deepth : Nat} {before : List AsmUnit} (hbefore : HasLine deepth before)
    (now : Nat) (after : List AsmUnit) :
    Tame before (lineUnits (exitAsm deepth now .forType)) after :=
  @Tame.append _ [jmpBack (deepth % 16)] _ _ (tame_jmpBack hbefore _)
    (@tame_near [.block deepth, .ins 0 .DEL _] rfl 0 false _ _)

/-- What a comprehension prints up to the end of its loop. -/
def loopAsm (deepth : Nat) (append iter : List ExprIns) (argIn : ArgIn) : List AsmLine :=
  [insLine .LST [], insLine .NLS [], insLine .OUT ['$', 't', 'm', 'p']] ++
    .block deepth :: forAsm deepth iter argIn ++ .block (deepth + 1) :: append.map ExprIns.line ++
      [.block deepth, insLine .JMP ['-', '1']]

/-- What it prints behind. -/
def tmpAsm (deepth : Nat) (left : Option CString) : List AsmLine :=
  [.block deepth, .ins 0 .DEL (lReg deepth), .block deepth, insLine .REF ['$', 't', 'm', 'p']] ++
    (left.map (AsmLine.ins 0 .OUT)).toList

theorem asm_comprehension (append iter : List ExprIns) (argIn : ArgIn) (left : Option CString)
    (deepth : Nat) : (Code.comprehension append iter argIn left).asm deepth =
      loopAsm deepth append iter argIn ++ tmpAsm deepth left := by
  simp [Code.asm, comprehensionAsm, loopAsm, tmpAsm, exitAsm]

theorem tame_loop (append iter : List ExprIns) (argIn : ArgIn) (deepth : Nat) (isNewLine : Bool)
    (before after : List AsmUnit) :
    Tame before ((asmUnits deepth isNewLine (loopAsm deepth append iter argIn)).map
      AsmUnit.narrow) after := by
  have hloop : HasLine deepth (lineUnits (.block deepth :: forAsm deepth iter argIn)) := by
    cases iter with
    | nil => exact hasLine_ins _ _ _ _ _
    | cons e iter => exact hasLine_ins _ _ _ _ _
  have hjmp : HasLine deepth (lineUnits [.block deepth, insLine .JMP ['-', '1']]) :=
    hasLine_ins _ _ _ _ _
  rw [loopAsm, asmUnits_append _ (by trivial), asmUnits_append _ (by trivial),
    asmUnits_append _ (by trivial)]
  simp only [List.map_append]
  refine Tame.append (Tame.append (Tame.append ?_ ?_) ?_) ?_
  · exact tame_near rfl deepth isNewLine _ _
  · exact tame_for iter argIn deepth (hjmp.mono (by simp [lineUnits]))
  · exact @tame_near (.block (deepth + 1) :: append.map ExprIns.line)
      (isNear_code append) 0 false _ _
  · refine tame_jmpBack (hloop.mono ?_) after
    exact List.subset_append_of_subset_right _
      (List.subset_append_of_subset_left _ (List.subset_append_right _ _))

theorem tame_code (code : Code) (deepth : Nat) (isNewLine : Bool) (before after : List AsmUnit) :
    Tame before ((asmUnits deepth isNewLine (code.asm deepth)).map AsmUnit.narrow) after := by
  cases code with
  | plain code => exact tame_near (isNear_code code) deepth isNewLine before after
  | comprehension append iter argIn left =>
    have hlist : (tmpAsm deepth left).all AsmLine.isNear = true := by
      cases left <;> rfl
    rw [asm_comprehension, asmUnits_append _ (by trivial), List.map_append]
    exact (tame_loop append iter argIn deepth isNewLine _ _).append (tame_near hlist 0 false _ _)

theorem tame_genRuleToAsm (code : Code) (deepth : Nat) (isNewLine : Bool)
    {instruct : InstructIndex} {data : CString} {before after : List AsmUnit}
    (h : ∀ before isNewLine, Lands before after ⟨instruct, deepth % 16, 0, isNewLine, data⟩) :
    Tame before ((asmUnits deepth isNewLine (genRuleToAsm deepth code instruct data)).map
      AsmUnit.narrow) after := by
  rw [genRuleToAsm, asmUnits_code, List.map_append]
  exact (tame_code code deepth isNewLine _ _).append ⟨h _ _, trivial⟩

/-- `JEZ 1` and the like. -/
theorem lands_one {before after : List AsmUnit} {unit : AsmUnit}
    (hdata : unit.data = InstructIndex.letters ['1']) : Lands before after unit := by
  intro _
  exact .inl (by rw [hdata]; decide)

theorem tame_stmt (stmt : Stmt) (deepth : Nat) (before after : List AsmUnit) :
    Tame before (lineUnits (.block deepth :: stmt.asm deepth)) after := by
  cases stmt with
  | expr code => exact tame_code code deepth true before after
  | CTN => exact tame_near rfl 0 false before after
  | BRK => exact tame_near rfl 0 false before after
  | DEL del => exact tame_near rfl 0 false before after
  | GLB global => exact tame_near rfl 0 false before after
  | RIS code => exact tame_genRuleToAsm code deepth true fun _ _ => lands_plain rfl
  | ASS code => exact tame_genRuleToAsm (.plain code) deepth true fun _ _ => lands_plain rfl
  | RET code => exact tame_genRuleToAsm code deepth true fun _ _ => lands_plain rfl

theorem hasLine_code (code : Code) (hcode : code.isEmpty = false) (deepth : Nat)
    (more : List AsmLine) :
    HasLine deepth (lineUnits (.block deepth :: code.asm deepth ++ more)) := by
  cases code with
  | plain code => cases code with
    | nil => cases hcode
    | cons e code => exact hasLine_ins _ _ _ _ _
  | comprehension append iter argIn left => exact hasLine_ins _ _ _ _ _

/-- The line that opens a block says something. -/
theorem hasLine_header (header : Header) (deepth : Nat) :
    HasLine deepth (lineUnits (.block deepth :: header.asm deepth)) := by
  have hrule : ∀ code instruct data,
      HasLine deepth (lineUnits (.block deepth :: genRuleToAsm deepth code instruct data)) := by
    intro code instruct data
    cases hcode : code.isEmpty with
    | false => exact hasLine_code code hcode deepth _
    | true =>
      cases code with
      | plain code =>
        cases List.isEmpty_iff.mp hcode
        exact hasLine_ins _ _ _ _ _
      | comprehension append iter argIn left => cases hcode
  cases header with
  | whileBlock code => exact hrule _ _ _
  | ifBlock code => exact hrule _ _ _
  | elifBlock code => exact hasLine_ins _ _ _ _ _
  | elseBlock => exact hasLine_ins _ _ _ _ _
  | forBlock iter argIn => cases iter <;> exact hasLine_ins _ _ _ _ _
  | tryBlock => exact hasLine_ins _ _ _ _ _
  | exceptBlock => exact hasLine_ins _ _ _ _ _
  | defBlock declare defaults => exact hasLine_ins _ _ _ _ _
  | classBlock thisClass superClass => exact hasLine_ins _ _ _ _ _

/-- `JNZ 2` goes over the code of its default. -/
theorem tame_defaults (defaults : List (CString × ExprCode)) (deepth : Nat)
    (before after : List AsmUnit) :
    Tame before (lineUnits (defaultsAsm deepth defaults)) after := by
  induction defaults generalizing before with
  | nil => trivial
  | cons default defaults ih =>
    obtain ⟨argName, code⟩ := default
    have hcode := hasLine_code code.1 code.isEmpty (deepth + 1) []
    rw [List.append_nil] at hcode
    rw [defaultsAsm, List.flatMap_cons, ← defaultsAsm,
      lineUnits_append _ (marks_defaults defaults deepth).1, lineUnits_append _ (by trivial)]
    refine Tame.append (Tame.append ?_ (tame_code code.1 (deepth + 1) true _ _)) (ih _)
    exact ⟨lands_plain rfl, lands_two rfl rfl (hcode.mono (List.subset_append_left _ _)), trivial⟩

theorem tame_header (header : Header) (deepth : Nat) {before after : List AsmUnit}
    (hafter : header.isLoop = true → HasLine deepth after) :
    Tame before (lineUnits (.block deepth :: header.asm deepth)) after := by
  cases header with
  | whileBlock code =>
    exact tame_genRuleToAsm code deepth true fun _ _ => lands_two rfl rfl (hafter rfl)
  | ifBlock code => exact tame_genRuleToAsm code deepth true fun _ _ => lands_one rfl
  | elifBlock code =>
    exact ⟨lands_one rfl, tame_genRuleToAsm code deepth false fun _ _ => lands_one rfl⟩
  | elseBlock => exact tame_near rfl 0 false before after
  | forBlock iter argIn => exact tame_for iter argIn deepth (hafter rfl)
  | tryBlock => exact tame_near rfl 0 false before after
  | exceptBlock => exact tame_near rfl 0 false before after
  | defBlock declare defaults =>
    rw [Header.asm, ← List.cons_append, lineUnits_append _ (marks_defaults defaults deepth).1]
    exact Tame.append (tame_near rfl 0 false _ _) (tame_defaults defaults deepth _ _)
  | classBlock thisClass superClass => exact tame_near rfl 0 false before after

theorem tame_exit (header : Header) (deepth now : Nat) {before after : List AsmUnit}
    (hbefore : HasLine deepth before) (hafter : header = .tryBlock → HasLine deepth after) :
    Tame before (lineUnits (exitAsm deepth now header.blockType)) after := by
  cases header with
  | whileBlock code => exact tame_jmpBack hbefore after
  | forBlock iter argIn => exact tame_exitFor hbefore now after
  | tryBlock => exact ⟨lands_plain rfl, lands_plain rfl, lands_two rfl rfl (hafter rfl), trivial⟩
  | ifBlock code => trivial
  | elifBlock code => trivial
  | elseBlock => trivial
  | exceptBlock => trivial
  | defBlock declare defaults => exact tame_near rfl 0 false before after
  | classBlock thisClass superClass => exact tame_near rfl 0 false before after

theorem hasLine_exit (header : Header) (hloop : header.isLoop = true) (deepth now : Nat) :
    HasLine deepth (lineUnits (exitAsm deepth now header.blockType)) := by
  cases header with
  | whileBlock code => exact hasLine_ins _ _ _ _ _
  | forBlock iter argIn => exact hasLine_ins _ _ _ _ _
  | _ => cases hloop

/-- **The code of a program is left at its end only.** -/
theorem tame_prog {p : Prog} (hp : p.Caught) (deepth next : Nat) (before after : List AsmUnit) :
    Tame before (lineUnits (p.asm deepth next)) after := by
  induction p generalizing deepth next before after with
  | nil => trivial
  | line stmt rest ih =>
    rw [Prog.asm, lineUnits_append _ (rest.startsBlock_asm deepth next)]
    exact (tame_stmt stmt deepth _ _).append (ih hp _ _ _ _)
  | block header body rest ihbody ihrest =>
    obtain ⟨htry, hbody, hrest⟩ := hp
    rw [Prog.asm, lineUnits_append _ (rest.startsBlock_asm deepth next),
      lineUnits_append _ (startsBlock_exitAsm _ _ _), lineUnits_append _ (body.startsBlock_asm _ _)]
    refine Tame.append (Tame.append (Tame.append ?_ (ihbody hbody _ _ _ _)) ?_)
      (ihrest hrest _ _ _ _)
    · refine tame_header header deepth fun hloop =>
        (hasLine_exit header hloop deepth (rest.nextDeepth deepth next)).mono ?_
      exact List.subset_append_of_subset_right _ (List.subset_append_left _ _)
    · refine tame_exit header deepth _ ((hasLine_header header deepth).mono ?_) fun h => ?_
      · simp
      · obtain ⟨body', rest', rfl⟩ := htry h
        rw [Prog.asm, List.append_assoc, List.append_assoc,
          lineUnits_append (.block deepth :: Header.exceptBlock.asm deepth)
            ((body'.startsBlock_asm _ _).append ((startsBlock_exitAsm _ _ _).append
              (rest'.startsBlock_asm _ _)))]
        exact (hasLine_header .exceptBlock deepth).mono (by simp)

end PikaScript
