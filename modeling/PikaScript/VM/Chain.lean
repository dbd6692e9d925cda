import PikaScript.VM.Close

/-! Chains of `if`, `elif` and `else`.

`Reach` is what a chain is for: conditions are run in their order up to the first that is
true, then the body of that branch and no other, and then what stands behind the chain.
The machine has for this a jump over lines, and for each depth a register that says
whether the last condition failed. It does the same (`chain_run`) when the depth has a
register, the lines of the bodies read as deeper than the chain, and no `elif` has a
condition that is written out over several lines. -/
namespace PikaScript
open Relation

/-! ### What a chain is for -/

/-- Where the code of a branch is: its first unit, that of its condition, the `JEZ 1`
behind it, and the unit behind its body. -/
structure Branch where
  start : Nat
  cond : Nat
  jez : Nat
  last : Nat
deriving DecidableEq, Repr

section
variable {σ : Type} (host : Host σ) (units : List AsmUnit)

/-- A step in a piece of the array. -/
structure PieceStep (first last : Nat) (vm vm' : VMFrame σ) : Prop where
  inside : first ≤ vm.pc ∧ vm.pc < last
  step : vm.step host units = some vm'
  stays : first ≤ vm'.pc ∧ vm'.pc ≤ last

/-- A run in a piece of the array. -/
abbrev PieceRun (first last : Nat) : VMFrame σ → VMFrame σ → Prop :=
  ReflTransGen (PieceStep host units first last)

variable (reg : Fin registSize)

/-- The condition of a branch is run to its end, where its value is popped. The register
holds that it failed. -/
structure Tested (branch : Branch) (vm : VMFrame σ) (bAssert : Bool) (vm' : VMFrame σ) : Prop where
  run : ∃ vm₁, PieceRun host units branch.cond branch.jez { vm with pc := branch.cond } vm₁ ∧
    vm₁.pc = branch.jez ∧ host.popBool vm₁.data = (bAssert, vm'.data) ∧
    vm'.ireg = Function.update vm₁.ireg reg !bAssert
  pc : vm'.pc = if bAssert then branch.jez + 1 else branch.last

variable (orElse : Option Nat) (after : Nat)

/-- The units a chain passes behind the branch that was taken. -/
def skips : List Branch → List Nat
  | [] => (orElse.map fun _ => after).toList
  | branch :: branches => branch.last :: skips branches

/-- **What a chain does**, up to any moment: the frames it goes through, from the first of
its branches on. `orElse` is where its `else` starts. -/
inductive Reach : List Branch → VMFrame σ → VMFrame σ → Prop
  | header {branch branches vm} : Reach (branch :: branches) vm vm
  | test {branch branches vm vm'} :
      PieceRun host units branch.cond branch.jez { vm with pc := branch.cond } vm' →
      Reach (branch :: branches) vm vm'
  | body {branch branches vm vm₁ vm'} : Tested host units reg branch vm true vm₁ →
      PieceRun host units (branch.jez + 1) branch.last vm₁ vm' → Reach (branch :: branches) vm vm'
  | skip {branch branches vm vm₁ vm₂ pc} : Tested host units reg branch vm true vm₁ →
      PieceRun host units (branch.jez + 1) branch.last vm₁ vm₂ → vm₂.pc = branch.last →
      pc ∈ skips orElse after branches → Reach (branch :: branches) vm { vm₂ with pc := pc }
  | next {branch branches vm vm₁ vm'} : Tested host units reg branch vm false vm₁ →
      Reach branches vm₁ vm' → Reach (branch :: branches) vm vm'
  | passed {vm} : Reach [] vm vm
  | orElse {start vm vm'} : start ∈ orElse →
      PieceRun host units (start + 1) after { vm with pc := start + 1 } vm' → Reach [] vm vm'

/-- The bodies of branches, and of the `else`. -/
def bodies : List Branch → List (Nat × Nat)
  | [] => (orElse.map fun start => (start + 1, after)).toList
  | branch :: branches => (branch.jez + 1, branch.last) :: bodies branches

/-- A step of the machine in a chain. Where `break` and `continue` go has a law of its
own; here they stay in the body they are in. -/
structure ChainStep (pieces : List (Nat × Nat)) (start : Nat) (vm vm' : VMFrame σ) : Prop where
  inside : start ≤ vm.pc ∧ vm.pc < after
  step : vm.step host units = some vm'
  control : ∀ unit ∈ units[vm.pc]?, unit.instruct.isControl = true →
    ∀ piece ∈ pieces, piece.1 ≤ vm.pc → vm.pc < piece.2 → piece.1 ≤ vm'.pc ∧ vm'.pc ≤ piece.2

end

/-! ### A chain that is laid out right -/

section
variable {σ : Type} (host : Host σ) (units : List AsmUnit) (reg : Fin registSize)

/-- A `NEL 1` that goes on or to a unit. -/
def NelTo (pc last : Nat) : Prop :=
  ∀ vm : VMFrame σ, vm.pc = pc →
    vm.step host units = some { vm with pc := if vm.ireg reg then pc + 1 else last }

/-- A `JEZ 1` that goes on or to a unit. -/
def JezTo (pc last : Nat) : Prop :=
  ∀ vm : VMFrame σ, vm.pc = pc → vm.step host units =
    some ⟨if (host.popBool vm.data).1 then pc + 1 else last,
      Function.update vm.ireg reg !(host.popBool vm.data).1, (host.popBool vm.data).2⟩

/-- A piece that is left at its end only. -/
structure CondOk (first last : Nat) : Prop where
  le : first ≤ last
  stays : ∀ vm vm' : VMFrame σ, first ≤ vm.pc → vm.pc < last → vm.step host units = some vm' →
    (first ≤ vm'.pc ∧ vm'.pc ≤ last) ∧ ∀ unit ∈ units[vm.pc]?, unit.instruct.isControl = false

/-- A piece that is, and that does not touch the register. -/
structure BodyOk (first last : Nat) : Prop where
  le : first ≤ last
  stays : ∀ vm vm' : VMFrame σ, first ≤ vm.pc → vm.pc < last → vm.step host units = some vm' →
    (∀ unit ∈ units[vm.pc]?, unit.instruct.isControl = true →
      first ≤ vm'.pc ∧ vm'.pc ≤ last) →
    (first ≤ vm'.pc ∧ vm'.pc ≤ last) ∧ vm'.ireg reg = vm.ireg reg

/-- A branch with the jumps and pieces it needs. -/
structure BranchOk (branch : Branch) : Prop where
  cond : CondOk host units branch.cond branch.jez
  jez : JezTo host units reg branch.jez branch.last
  body : BodyOk host units reg (branch.jez + 1) branch.last

/-- An `elif`. -/
structure ElifOk (branch : Branch) : Prop extends BranchOk host units reg branch where
  start : branch.cond = branch.start + 1
  nel : NelTo host units reg branch.start branch.last

/-- `elif`s in a row, and the `else`. -/
def Laid (orElse : Option Nat) (after : Nat) : Nat → List Branch → Prop
  | start, [] =>
    match orElse with
    | none => start = after
    | some first => first = start ∧ NelTo host units reg start after ∧
      BodyOk host units reg (start + 1) after
  | start, branch :: branches =>
    branch.start = start ∧ ElifOk host units reg branch ∧ Laid orElse after branch.last branches

variable {host units reg} {orElse : Option Nat} {after : Nat}

theorem PieceStep.pieceRun_stays {first last : Nat} (hle : first ≤ last) {vm vm' : VMFrame σ}
    (hpc : vm.pc = first) (h : PieceRun host units first last vm vm') :
    first ≤ vm'.pc ∧ vm'.pc ≤ last := by
  cases h with
  | refl =>
    rw [hpc]
    exact ⟨Nat.le_refl _, hle⟩
  | tail _ hstep => exact hstep.stays

/-- A run of a body leaves the register. -/
theorem BodyOk.ireg {first last : Nat} (h : BodyOk host units reg first last)
    {vm vm' : VMFrame σ} (hrun : PieceRun host units first last vm vm') :
    vm'.ireg reg = vm.ireg reg := by
  induction hrun with
  | refl => rfl
  | tail _ hstep ih =>
    rw [← ih]
    exact (h.stays _ _ hstep.inside.1 hstep.inside.2 hstep.step fun _ _ _ => hstep.stays).2

theorem Tested.ireg {branch : Branch} {vm vm' : VMFrame σ} {bAssert : Bool}
    (h : Tested host units reg branch vm bAssert vm') : vm'.ireg reg = !bAssert := by
  obtain ⟨vm₁, -, -, -, hireg⟩ := h.run
  rw [hireg, Function.update_self]

theorem Laid.le {start : Nat} {branches : List Branch}
    (h : Laid host units reg orElse after start branches) : start ≤ after := by
  induction branches generalizing start with
  | nil =>
    cases orElse with
    | none => exact Nat.le_of_eq h
    | some first => exact Nat.le_of_succ_le h.2.2.le
  | cons branch branches ih =>
    obtain ⟨rfl, hok, hrest⟩ := h
    have := hok.start
    have := hok.cond.le
    have := hok.body.le
    have := ih hrest
    omega

/-- Behind the branch that was taken the machine passes all the others. -/
theorem Laid.skip {start : Nat} {branches : List Branch}
    (h : Laid host units reg orElse after start branches) {vm vm' : VMFrame σ}
    (hpc : vm.pc ∈ start :: skips orElse after branches) (hafter : vm.pc < after)
    (hireg : vm.ireg reg = false) (hstep : vm.step host units = some vm') :
    ∃ pc ∈ skips orElse after branches, vm' = { vm with pc := pc } := by
  induction branches generalizing start with
  | nil =>
    cases orElse with
    | none =>
      cases List.mem_singleton.mp hpc
      exact absurd hafter (h ▸ Nat.lt_irrefl _)
    | some first =>
      obtain ⟨rfl, hnel, -⟩ := h
      have hstart : vm.pc = first := by
        rcases List.mem_cons.mp hpc with h | h
        · exact h
        · rw [List.mem_singleton.mp h] at hafter
          exact absurd hafter (Nat.lt_irrefl _)
      refine ⟨after, List.mem_cons_self, ?_⟩
      have := hstep.symm.trans (hnel vm hstart)
      rw [hireg] at this
      exact Option.some.inj this
  | cons branch branches ih =>
    obtain ⟨rfl, hok, hrest⟩ := h
    rcases List.mem_cons.mp hpc with hstart | hpc
    · refine ⟨branch.last, List.mem_cons_self, ?_⟩
      have := hstep.symm.trans (hok.nel vm hstart)
      rw [hireg] at this
      exact Option.some.inj this
    · obtain ⟨pc, hmem, hvm⟩ := ih hrest hpc
      exact ⟨pc, List.mem_cons_of_mem _ hmem, hvm⟩

/-- **One step behind the header of a branch** is what the chain does. -/
theorem BranchOk.step {branch : Branch} {branches : List Branch}
    (hok : BranchOk host units reg branch)
    (hrest : Laid host units reg orElse after branch.last branches) {vm vm' vm'' : VMFrame σ}
    (hih : ∀ vm₁ : VMFrame σ, vm₁.pc = branch.last → vm₁.ireg reg = true →
      Reach host units reg orElse after branches vm₁ vm' →
      Reach host units reg orElse after branches vm₁ vm'')
    (h : Reach host units reg orElse after (branch :: branches) vm vm')
    (hheader : vm' = vm →
      PieceRun host units branch.cond branch.jez { vm with pc := branch.cond } vm' ∨
      PieceRun host units branch.cond branch.jez { vm with pc := branch.cond } vm'')
    (hstep : ChainStep host units after (bodies orElse after (branch :: branches)) 0 vm' vm'') :
    Reach host units reg orElse after (branch :: branches) vm vm'' := by
  have htest : PieceRun host units branch.cond branch.jez { vm with pc := branch.cond } vm' →
      Reach host units reg orElse after (branch :: branches) vm vm'' := by
    intro hrun
    obtain ⟨hfirst, hlast⟩ := PieceStep.pieceRun_stays hok.cond.le rfl hrun
    rcases Nat.lt_or_eq_of_le hlast with hlt | hpc
    · exact .test (hrun.tail ⟨⟨hfirst, hlt⟩, hstep.step,
        (hok.cond.stays _ _ hfirst hlt hstep.step).1⟩)
    · have hvm := Option.some.inj (hstep.step.symm.trans (hok.jez vm' hpc))
      have htested : Tested host units reg branch vm (host.popBool vm'.data).1 vm'' :=
        ⟨⟨vm', hrun, hpc, by rw [hvm], by rw [hvm]⟩, by rw [hvm]⟩
      cases hassert : (host.popBool vm'.data).1 with
      | true => exact .body (hassert ▸ htested) .refl
      | false =>
        rw [hassert] at htested
        refine .next htested ?_
        cases branches with
        | nil => exact .passed
        | cons branch branches => exact .header
  cases h with
  | header =>
    rcases hheader rfl with hrun | hrun
    · exact htest hrun
    · exact .test hrun
  | test hrun => exact htest hrun
  | body htested hrun =>
    obtain ⟨hfirst, hlast⟩ := PieceStep.pieceRun_stays hok.body.le (by rw [htested.pc]; rfl) hrun
    rcases Nat.lt_or_eq_of_le hlast with hlt | hpc
    · refine .body htested (hrun.tail ⟨⟨hfirst, hlt⟩, hstep.step, ?_⟩)
      exact (hok.body.stays _ _ hfirst hlt hstep.step fun unit hunit hcontrol =>
        hstep.control unit hunit hcontrol _ List.mem_cons_self hfirst hlt).1
    · have hireg := hok.body.ireg hrun
      rw [htested.ireg] at hireg
      obtain ⟨pc, hmem, rfl⟩ :=
        hrest.skip (hpc ▸ List.mem_cons_self) hstep.inside.2 hireg hstep.step
      exact .skip htested hrun hpc hmem
  | skip htested hrun hend hpc =>
    have hireg := hok.body.ireg hrun
    rw [htested.ireg] at hireg
    rename_i vm₁ vm₂ _
    obtain ⟨pc, hmem, rfl⟩ :=
      hrest.skip (List.mem_cons_of_mem _ hpc) hstep.inside.2 hireg hstep.step
    exact @Reach.skip _ _ _ _ _ _ _ _ _ _ vm₂ _ htested hrun hend hmem
  | next htested hreach =>
    exact .next htested (hih _ (by rw [htested.pc]; rfl) htested.ireg hreach)

theorem ChainStep.mono {pieces more : List (Nat × Nat)} {start : Nat} {vm vm' : VMFrame σ}
    (h : ChainStep host units after more start vm vm') (hpieces : pieces ⊆ more) :
    ChainStep host units after pieces 0 vm vm' :=
  ⟨⟨Nat.zero_le _, h.inside.2⟩, h.step,
    fun unit hunit hcontrol piece hpiece => h.control unit hunit hcontrol piece (hpieces hpiece)⟩

/-- **One step of a row of `elif`s** is what the chain does. -/
theorem Laid.step {start : Nat} {branches : List Branch}
    (h : Laid host units reg orElse after start branches) {vm vm' vm'' : VMFrame σ}
    (hpc : vm.pc = start) (hireg : vm.ireg reg = true)
    (hreach : Reach host units reg orElse after branches vm vm')
    (hstep : ChainStep host units after (bodies orElse after branches) 0 vm' vm'') :
    Reach host units reg orElse after branches vm vm'' := by
  induction branches generalizing start vm with
  | nil =>
    cases orElse with
    | none =>
      cases hreach with
      | passed => exact absurd hstep.inside.2 (by rw [hpc, show start = after from h]; omega)
      | orElse hfirst => cases hfirst
    | some first =>
      obtain ⟨rfl, hnel, hbody⟩ := h
      cases hreach with
      | passed =>
        have hvm := hstep.step.symm.trans (hnel _ hpc)
        rw [hireg] at hvm
        cases hvm
        exact .orElse rfl .refl
      | orElse hfirst hrun =>
        cases hfirst
        have hstays := (PieceStep.pieceRun_stays hbody.le rfl hrun).1
        have hlt := hstep.inside.2
        refine .orElse rfl (hrun.tail ⟨⟨hstays, hlt⟩, hstep.step, ?_⟩)
        exact (hbody.stays _ _ hstays hlt hstep.step fun unit hunit hcontrol =>
          hstep.control unit hunit hcontrol _ List.mem_cons_self hstays hlt).1
  | cons branch branches ih =>
    obtain ⟨rfl, hok, hrest⟩ := h
    refine hok.toBranchOk.step hrest (fun vm₁ hpc₁ hireg₁ hreach₁ => ?_) hreach (fun hvm => ?_)
      hstep
    · exact ih hrest hpc₁ hireg₁ hreach₁ (hstep.mono (List.subset_cons_self _ _))
    · subst hvm
      have hvm := hstep.step.symm.trans (hok.nel _ hpc)
      rw [hireg] at hvm
      rw [Option.some.inj hvm, hok.start]
      exact .inr .refl

/-- A chain: an `if` with what is behind it. -/
structure ChainOk (host : Host σ) (units : List AsmUnit) (reg : Fin registSize)
    (orElse : Option Nat) (after : Nat) (branch : Branch) (branches : List Branch) : Prop
    extends BranchOk host units reg branch where
  start : branch.cond = branch.start
  laid : Laid host units reg orElse after branch.last branches

/-- **A run of a chain** goes through no other frames. -/
theorem ChainOk.reach {branch : Branch} {branches : List Branch}
    (h : ChainOk host units reg orElse after branch branches) {vm vm' : VMFrame σ}
    (hpc : vm.pc = branch.start)
    (hrun : ReflTransGen (ChainStep host units after (bodies orElse after (branch :: branches))
      branch.start) vm vm') :
    Reach host units reg orElse after (branch :: branches) vm vm' := by
  induction hrun with
  | refl => exact .header
  | tail _ hstep ih =>
    refine h.toBranchOk.step h.laid (fun vm₁ hpc₁ hireg₁ hreach₁ => ?_) ih (fun hvm => ?_)
      (hstep.mono (List.Subset.refl _))
    · exact h.laid.step hpc₁ hireg₁ hreach₁ (hstep.mono (List.subset_cons_self _ _))
    · subst hvm
      rw [h.start, ← hpc]
      exact .inl .refl

/-- The bodies of a row stand behind where it starts. -/
theorem Laid.lt_bodies {start : Nat} {branches : List Branch}
    (h : Laid host units reg orElse after start branches) :
    ∀ piece ∈ bodies orElse after branches, start < piece.1 := by
  induction branches generalizing start with
  | nil =>
    cases orElse with
    | none => exact fun _ hpiece => absurd hpiece List.not_mem_nil
    | some first =>
      obtain ⟨rfl, -, -⟩ := h
      intro piece hpiece
      cases List.mem_singleton.mp hpiece
      exact Nat.lt_succ_self _
  | cons branch branches ih =>
    obtain ⟨rfl, hok, hrest⟩ := h
    have := hok.start
    have := hok.cond.le
    have := hok.body.le
    refine List.forall_mem_cons.mpr ⟨by omega, fun piece hpiece => ?_⟩
    have := ih hrest piece hpiece
    omega

/-- A step from a unit that is in no body. -/
theorem chainStep_outside {pieces : List (Nat × Nat)} {start : Nat} {vm vm' : VMFrame σ}
    (hinside : start ≤ vm.pc ∧ vm.pc < after) (hstep : vm.step host units = some vm')
    (hout : ∀ piece ∈ pieces, vm.pc < piece.1 ∨ piece.2 ≤ vm.pc) :
    ChainStep host units after pieces start vm vm' := by
  refine ⟨hinside, hstep, fun unit _ _ piece hpiece hfirst hlast => ?_⟩
  rcases hout piece hpiece with h | h <;> omega

section
variable {earlier : List (Nat × Nat)} {first : Nat}

/-- A body that ends at a unit, behind those that end before. -/
theorem earlier_append {start : Nat} (hearlier : ∀ piece ∈ earlier, piece.2 ≤ start) (low : Nat)
    {high : Nat} (hle : start ≤ high) : ∀ piece ∈ earlier ++ [(low, high)], piece.2 ≤ high := by
  intro piece hpiece
  rcases List.mem_append.mp hpiece with hpiece | hpiece
  · exact (hearlier piece hpiece).trans hle
  · cases List.mem_singleton.mp hpiece
    exact Nat.le_refl _

/-- A row starts in no body. -/
theorem Laid.outside {start : Nat} {branches : List Branch}
    (h : Laid host units reg orElse after start branches)
    (hearlier : ∀ piece ∈ earlier, piece.2 ≤ start) :
    ∀ piece ∈ earlier ++ bodies orElse after branches, start < piece.1 ∨ piece.2 ≤ start :=
  fun piece hpiece => (List.mem_append.mp hpiece).symm.imp (h.lt_bodies piece) (hearlier piece)

/-- The machine passes the branches behind the one that was taken. -/
theorem Laid.skip_run {start : Nat} {branches : List Branch}
    (h : Laid host units reg orElse after start branches)
    (hearlier : ∀ piece ∈ earlier, piece.2 ≤ start) (hfirst : first ≤ start) {vm : VMFrame σ}
    (hpc : vm.pc = start) (hireg : vm.ireg reg = false) {pc : Nat}
    (hmem : pc ∈ skips orElse after branches) :
    ReflTransGen (ChainStep host units after (earlier ++ bodies orElse after branches) first) vm
      { vm with pc := pc } := by
  have hout : ∀ piece ∈ earlier ++ bodies orElse after branches,
      vm.pc < piece.1 ∨ piece.2 ≤ vm.pc := hpc ▸ h.outside hearlier
  induction branches generalizing start vm earlier with
  | nil =>
    cases orElse with
    | none => cases hmem
    | some s =>
      obtain ⟨rfl, hnel, hbody⟩ := h
      cases List.mem_singleton.mp hmem
      have hstep := hnel vm hpc
      rw [hireg] at hstep
      exact .single (chainStep_outside ⟨hpc ▸ hfirst, hpc ▸ hbody.le⟩ hstep hout)
  | cons branch branches ih =>
    obtain ⟨rfl, hok, hrest⟩ := h
    have hstart := hok.start
    have hcond := hok.cond.le
    have hbody := hok.body.le
    have hle := hrest.le
    have hstep := hok.nel vm hpc
    rw [hireg] at hstep
    have hinside : first ≤ vm.pc ∧ vm.pc < after := by omega
    have hhead := chainStep_outside hinside hstep hout
    rcases List.mem_cons.mp hmem with rfl | hmem
    · exact .single hhead
    · have hearlier' := earlier_append hearlier (branch.jez + 1) (show _ ≤ branch.last by omega)
      have hout' := hrest.outside hearlier'
      have hrun : ReflTransGen (ChainStep host units after
          ((earlier ++ [(branch.jez + 1, branch.last)]) ++ bodies orElse after branches) first)
          { vm with pc := branch.last } { vm with pc := pc } :=
        ih hrest hearlier' (by omega) rfl hireg hmem hout'
      rw [List.append_assoc] at hrun
      exact .head hhead hrun

/-- The frames of a branch behind its header are reached. -/
theorem BranchOk.run {start : Nat} {branch : Branch} {branches : List Branch}
    (hok : BranchOk host units reg branch) (hcond : start ≤ branch.cond)
    (hrest : Laid host units reg orElse after branch.last branches)
    (hearlier : ∀ piece ∈ earlier, piece.2 ≤ start) (hfirst : first ≤ start)
    {vm vm' : VMFrame σ}
    (hih : ∀ vm₁ : VMFrame σ, vm₁.pc = branch.last → vm₁.ireg reg = true →
      Reach host units reg orElse after branches vm₁ vm' →
      ReflTransGen (ChainStep host units after
        (earlier ++ bodies orElse after (branch :: branches)) first) vm₁ vm')
    (hheader : ReflTransGen (ChainStep host units after
      (earlier ++ bodies orElse after (branch :: branches)) first) vm { vm with pc := branch.cond })
    (h : Reach host units reg orElse after (branch :: branches) vm vm') :
    ReflTransGen (ChainStep host units after
      (earlier ++ bodies orElse after (branch :: branches)) first) vm vm' := by
  have hcondle := hok.cond.le
  have hbodyle := hok.body.le
  have hle := hrest.le
  have hpieces : ∀ piece ∈ earlier ++ bodies orElse after (branch :: branches),
      piece.2 ≤ start ∨ piece = (branch.jez + 1, branch.last) ∨ branch.last < piece.1 := by
    intro piece hpiece
    rcases List.mem_append.mp hpiece with hpiece | hpiece
    · exact .inl (hearlier piece hpiece)
    · rcases List.mem_cons.mp hpiece with h | hpiece
      · exact .inr (.inl h)
      · exact .inr (.inr (hrest.lt_bodies piece hpiece))
  have hout : ∀ {pc : Nat}, start ≤ pc → pc ≤ branch.jez →
      ∀ piece ∈ earlier ++ bodies orElse after (branch :: branches),
        pc < piece.1 ∨ piece.2 ≤ pc := by
    intro pc hlow hhigh piece hpiece
    rcases hpieces piece hpiece with h | rfl | h
    · omega
    · exact .inl (Nat.lt_succ_of_le hhigh)
    · omega
  have htest : ∀ {vm₁ vm₂ : VMFrame σ}, PieceRun host units branch.cond branch.jez vm₁ vm₂ →
      ReflTransGen (ChainStep host units after
        (earlier ++ bodies orElse after (branch :: branches)) first) vm₁ vm₂ := by
    intro vm₁ vm₂ hrun
    refine ReflTransGen.mono (fun a b hstep => ?_) _ _ hrun
    have hinside := hstep.inside
    exact chainStep_outside (by omega) hstep.step (hout (by omega) (by omega))
  have hbody : ∀ {vm₁ vm₂ : VMFrame σ}, PieceRun host units (branch.jez + 1) branch.last vm₁ vm₂ →
      ReflTransGen (ChainStep host units after
        (earlier ++ bodies orElse after (branch :: branches)) first) vm₁ vm₂ := by
    intro vm₁ vm₂ hrun
    refine ReflTransGen.mono (fun a b hstep => ?_) _ _ hrun
    have hinside := hstep.inside
    refine ⟨by omega, hstep.step, fun unit _ _ piece hpiece hlow hhigh => ?_⟩
    rcases hpieces piece hpiece with h | rfl | h
    · omega
    · exact hstep.stays
    · omega
  have htested : ∀ {bAssert : Bool} {vm₁ : VMFrame σ},
      Tested host units reg branch vm bAssert vm₁ → ReflTransGen (ChainStep host units after
        (earlier ++ bodies orElse after (branch :: branches)) first) vm vm₁ := by
    rintro bAssert vm₁ ⟨⟨vm₂, hrun, hpc₂, hpop, hireg⟩, hpc⟩
    have hstep := hok.jez vm₂ hpc₂
    rw [hpop, ← hireg, ← hpc] at hstep
    exact (hheader.trans (htest hrun)).tail
      (chainStep_outside (by omega) hstep (hout (by omega) (by omega)))
  cases h with
  | header => exact .refl
  | test hrun => exact hheader.trans (htest hrun)
  | body htrue hrun => exact (htested htrue).trans (hbody hrun)
  | skip htrue hrun hend hpc =>
    have hireg := hok.body.ireg hrun
    rw [htrue.ireg] at hireg
    have hearlier' := earlier_append hearlier (branch.jez + 1) (show _ ≤ branch.last by omega)
    have hskip := hrest.skip_run hearlier' (show first ≤ branch.last by omega) hend hireg hpc
    rw [List.append_assoc] at hskip
    exact ((htested htrue).trans (hbody hrun)).trans hskip
  | next hfalse hreach =>
    exact (htested hfalse).trans (hih _ (by rw [hfalse.pc]; rfl) hfalse.ireg hreach)

/-- The frames of a row of `elif`s are reached. -/
theorem Laid.run {start : Nat} {branches : List Branch}
    (h : Laid host units reg orElse after start branches)
    (hearlier : ∀ piece ∈ earlier, piece.2 ≤ start) (hfirst : first ≤ start)
    {vm vm' : VMFrame σ} (hpc : vm.pc = start) (hireg : vm.ireg reg = true)
    (hreach : Reach host units reg orElse after branches vm vm') :
    ReflTransGen (ChainStep host units after (earlier ++ bodies orElse after branches) first)
      vm vm' := by
  have hout : ∀ piece ∈ earlier ++ bodies orElse after branches,
      vm.pc < piece.1 ∨ piece.2 ≤ vm.pc := hpc ▸ h.outside hearlier
  induction branches generalizing start vm earlier with
  | nil =>
    cases hreach with
    | passed => exact .refl
    | @orElse s _ _ hs hrun =>
      cases hs
      obtain ⟨rfl, hnel, hbody⟩ := h
      have hstep := hnel vm hpc
      rw [hireg] at hstep
      have hle := hbody.le
      refine .head (chainStep_outside (by omega) hstep hout)
        (ReflTransGen.mono (fun a b hstep => ?_) _ _ hrun)
      have hinside := hstep.inside
      refine ⟨by omega, hstep.step, fun unit _ _ piece hpiece hlow hhigh => ?_⟩
      rcases List.mem_append.mp hpiece with hpiece | hpiece
      · have := hearlier piece hpiece
        omega
      · cases List.mem_singleton.mp hpiece
        exact hstep.stays
  | cons branch branches ih =>
    obtain ⟨rfl, hok, hrest⟩ := h
    have hstart := hok.start
    have hcond := hok.cond.le
    have hbody := hok.body.le
    have hle := hrest.le
    have hstep := hok.nel vm hpc
    rw [hireg, if_pos rfl, ← hstart] at hstep
    have hhead := @chainStep_outside _ _ _ after _ first _ _ (by omega) hstep hout
    refine hok.toBranchOk.run (show branch.start ≤ branch.cond by omega) hrest hearlier hfirst ?_
      (.single hhead) hreach
    intro vm₁ hpc₁ hireg₁ hreach₁
    have hearlier' := earlier_append hearlier (branch.jez + 1) (show _ ≤ branch.last by omega)
    have hout' : ∀ piece ∈ (earlier ++ [(branch.jez + 1, branch.last)]) ++
        bodies orElse after branches, vm₁.pc < piece.1 ∨ piece.2 ≤ vm₁.pc := by
      intro piece hpiece
      rw [hpc₁]
      exact (List.mem_append.mp hpiece).symm.imp (hrest.lt_bodies piece) (hearlier' piece)
    have hrun := ih hrest hearlier' (by omega) hpc₁ hireg₁ hreach₁ hout'
    rw [List.append_assoc] at hrun
    exact hrun

end

theorem Laid.skips_le {start : Nat} {branches : List Branch}
    (h : Laid host units reg orElse after start branches) :
    ∀ pc ∈ skips orElse after branches, start ≤ pc ∧ pc ≤ after := by
  induction branches generalizing start with
  | nil =>
    have hle := h.le
    cases orElse with
    | none => exact fun _ hpc => absurd hpc List.not_mem_nil
    | some first =>
      intro pc hpc
      cases List.mem_singleton.mp hpc
      exact ⟨hle, Nat.le_refl _⟩
  | cons branch branches ih =>
    obtain ⟨rfl, hok, hrest⟩ := h
    have hstart := hok.start
    have hcond := hok.cond.le
    have hbody := hok.body.le
    have hle := hrest.le
    refine List.forall_mem_cons.mpr ⟨by omega, fun pc hpc => ?_⟩
    have := ih hrest pc hpc
    omega

/-- The frames of a branch are in the chain. -/
theorem BranchOk.reach_le {branch : Branch} {branches : List Branch}
    (hok : BranchOk host units reg branch) (hcond : branch.start ≤ branch.cond)
    (hrest : Laid host units reg orElse after branch.last branches) {vm vm' : VMFrame σ}
    (hpc : vm.pc = branch.start)
    (hih : ∀ vm₁ : VMFrame σ, vm₁.pc = branch.last →
      Reach host units reg orElse after branches vm₁ vm' → branch.last ≤ vm'.pc ∧ vm'.pc ≤ after)
    (h : Reach host units reg orElse after (branch :: branches) vm vm') :
    branch.start ≤ vm'.pc ∧ vm'.pc ≤ after := by
  have hcondle := hok.cond.le
  have hbodyle := hok.body.le
  have hle := hrest.le
  cases h with
  | header => omega
  | test hrun =>
    have := PieceStep.pieceRun_stays hcondle rfl hrun
    omega
  | body htested hrun =>
    have := PieceStep.pieceRun_stays hbodyle (by rw [htested.pc]; rfl) hrun
    omega
  | skip _ _ _ hmem =>
    have := hrest.skips_le _ hmem
    dsimp only
    omega
  | next htested hreach =>
    have := hih _ (by rw [htested.pc]; rfl) hreach
    omega

theorem Laid.reach_le {start : Nat} {branches : List Branch}
    (h : Laid host units reg orElse after start branches) {vm vm' : VMFrame σ}
    (hpc : vm.pc = start) (hreach : Reach host units reg orElse after branches vm vm') :
    start ≤ vm'.pc ∧ vm'.pc ≤ after := by
  induction branches generalizing start vm with
  | nil =>
    have hle := h.le
    cases hreach with
    | passed => omega
    | @orElse s _ _ hs hrun =>
      cases hs
      obtain ⟨rfl, -, hbody⟩ := h
      have := PieceStep.pieceRun_stays hbody.le rfl hrun
      omega
  | cons branch branches ih =>
    obtain ⟨rfl, hok, hrest⟩ := h
    exact hok.toBranchOk.reach_le (by rw [hok.start]; omega) hrest hpc
      (fun vm₁ hpc₁ hreach₁ => ih hrest hpc₁ hreach₁) hreach

/-- The frames of a chain are in it or right behind it. -/
theorem ChainOk.reach_le {branch : Branch} {branches : List Branch}
    (h : ChainOk host units reg orElse after branch branches) {vm vm' : VMFrame σ}
    (hpc : vm.pc = branch.start)
    (hreach : Reach host units reg orElse after (branch :: branches) vm vm') :
    branch.start ≤ vm'.pc ∧ vm'.pc ≤ after :=
  h.toBranchOk.reach_le (Nat.le_of_eq h.start.symm) h.laid hpc
    (fun _ hpc₁ hreach₁ => h.laid.reach_le hpc₁ hreach₁) hreach

/-- **The machine goes through the frames of a chain, and no others.** -/
theorem ChainOk.run_iff {branch : Branch} {branches : List Branch}
    (h : ChainOk host units reg orElse after branch branches) {vm vm' : VMFrame σ}
    (hpc : vm.pc = branch.start) :
    ReflTransGen (ChainStep host units after (bodies orElse after (branch :: branches))
      branch.start) vm vm' ↔ Reach host units reg orElse after (branch :: branches) vm vm' := by
  refine ⟨h.reach hpc, fun hreach => ?_⟩
  have hheader : { vm with pc := branch.cond } = vm := by rw [h.start, ← hpc]
  have hnone : ∀ piece ∈ ([] : List (Nat × Nat)), piece.2 ≤ branch.start := nofun
  refine h.toBranchOk.run (Nat.le_of_eq h.start.symm) h.laid hnone (Nat.le_refl _)
    (fun vm₁ hpc₁ hireg₁ hreach₁ => ?_) (hheader ▸ .refl) hreach
  have hcond := h.cond.le
  have hbody := h.body.le
  have hstart := h.start
  have hearlier : ∀ piece ∈ [(branch.jez + 1, branch.last)], piece.2 ≤ branch.last := by simp
  exact h.laid.run hearlier (by omega) hpc₁ hireg₁ hreach₁

end

/-! ### The code of a chain -/

/-- What holds of the instructs of a text holds of its units. -/
theorem forall_instruct {P : InstructIndex → Bool} {lines : List AsmLine}
    (h : lines.all (fun | .block _ => true | .ins _ instruct _ => P instruct) = true)
    (blockDeepth : Nat) (isNewLine : Bool) :
    ∀ unit ∈ (asmUnits blockDeepth isNewLine lines).map AsmUnit.narrow,
      P unit.instruct = true := by
  induction lines generalizing blockDeepth isNewLine with
  | nil => exact fun _ h => absurd h List.not_mem_nil
  | cons line lines ih =>
    rw [List.all_cons, Bool.and_eq_true] at h
    cases line with
    | block deepth => exact ih h.2 deepth true
    | ins invokeDeepth instruct data =>
      exact List.forall_mem_cons.mpr ⟨h.1, ih h.2 blockDeepth false⟩

section
variable {σ : Type} {host : Host σ} {units : List AsmUnit} {reg : Fin registSize}

/-- The unit behind a piece of the array. -/
theorem getElem?_front {front tail : List AsmUnit} {unit : AsmUnit} {vm : VMFrame σ}
    (hpc : vm.pc = front.length) :
    (front ++ unit :: tail)[vm.pc]? = some unit ∧
      (front ++ unit :: tail).drop (vm.pc + 1) = tail := by
  rw [hpc]
  exact ⟨by simp, by simp [List.drop_append]⟩

/-- Where a jump over one line goes, behind a piece that is deeper. -/
theorem jump_one {front piece more : List AsmUnit} {unit : AsmUnit} {vm : VMFrame σ}
    (hpc : vm.pc = front.length) (hdata : unit.data = InstructIndex.letters ['1'])
    (hpiece : ∀ u ∈ piece, u.endsBlock unit.blockDeepth = false)
    (hmore : ∀ u ∈ more.head?, u.endsBlock unit.blockDeepth = true) :
    vm.jump (front ++ unit :: (piece ++ more)) unit =
      some { vm with pc := front.length + 1 + piece.length } := by
  have hjmp : fastAtoi unit.data = some 1 := by
    rw [hdata]
    decide
  have haddr : getAddrFromJmp (front ++ unit :: (piece ++ more)) vm.pc unit 1 =
      some (vm.pc + 1 + skipLines unit.blockDeepth 1 (piece ++ more)) := by
    show some (vm.pc + 1 + skipLines _ 1 (List.drop (vm.pc + 1) _)) = _
    rw [(getElem?_front hpc).2]
  rw [VMFrame.jump, hjmp, Option.bind_eq_bind, Option.bind_some, haddr, Option.bind_eq_bind,
    Option.bind_some, skipLines_one_eq.mpr ⟨hpiece, hmore⟩, hpc]
  rfl

theorem nelTo_of_units {front piece more : List AsmUnit} {isNewLine : Bool}
    (hpiece : ∀ u ∈ piece, u.endsBlock reg = false)
    (hmore : ∀ u ∈ more.head?, u.endsBlock reg = true) :
    NelTo host (front ++ ⟨.NEL, reg, 0, isNewLine, InstructIndex.letters ['1']⟩ :: (piece ++ more))
      reg front.length (front.length + 1 + piece.length) := by
  intro vm hpc
  rw [VMFrame.step, (getElem?_front hpc).1, Option.bind_eq_bind, Option.bind_some]
  dsimp only
  rw [vmNel, dif_pos reg.isLt, jump_one hpc rfl hpiece hmore, hpc]
  cases vm.ireg reg <;> simp

theorem jezTo_of_units {front piece more : List AsmUnit} {isNewLine : Bool}
    (hpiece : ∀ u ∈ piece, u.endsBlock reg = false)
    (hmore : ∀ u ∈ more.head?, u.endsBlock reg = true) :
    JezTo host (front ++ ⟨.JEZ, reg, 0, isNewLine, InstructIndex.letters ['1']⟩ :: (piece ++ more))
      reg front.length (front.length + 1 + piece.length) := by
  intro vm hpc
  rw [VMFrame.step, (getElem?_front hpc).1, Option.bind_eq_bind, Option.bind_some]
  dsimp only
  rw [vmJez, dif_pos reg.isLt]
  dsimp only
  rw [@jump_one _ _ _ _ _ { vm with
    ireg := Function.update vm.ireg reg !(host.popBool vm.data).1
    data := (host.popBool vm.data).2 } hpc rfl hpiece hmore, hpc]
  cases (host.popBool vm.data).1 <;> rfl

/-- The unit that is run, where it is one of a piece. -/
theorem exists_unit {front piece more : List AsmUnit} {pc : Nat} (hlow : front.length ≤ pc)
    (hhigh : pc < front.length + piece.length) :
    ∃ unit ∈ piece, (front ++ piece ++ more)[pc]? = some unit := by
  obtain ⟨before, unit, after, rfl, hlength⟩ :=
    exists_split (show pc - front.length < piece.length by omega)
  refine ⟨unit, List.mem_append_right _ List.mem_cons_self, ?_⟩
  rw [List.append_assoc, List.getElem?_append_right hlow, ← hlength]
  simp

/-- The body of a branch. -/
theorem bodyOk_of_units {front piece more : List AsmUnit} (htame : Tame [] piece [])
    (hpiece : ∀ u ∈ piece, reg.val < u.blockDeepth)
    (hmore : ∀ u ∈ more.head?, u.endsBlock reg = true) :
    BodyOk host (front ++ piece ++ more) reg front.length (front.length + piece.length) := by
  refine ⟨Nat.le_add_right _ _, fun vm vm' hlow hhigh hstep hcontrol => ?_⟩
  obtain ⟨unit, hmem, hunit⟩ := @exists_unit front piece more vm.pc hlow hhigh
  refine ⟨?_, (step_spec hstep hunit).2 reg (hpiece unit hmem).ne⟩
  cases hctl : unit.instruct.isControl with
  | true => exact hcontrol unit hunit hctl
  | false =>
    refine step_region htame (fun line hline u hu => ?_) hstep hlow hhigh fun u hu => ?_
    · have hends := hmore line hline
      have hdeeper := hpiece u hu
      rw [AsmUnit.endsBlock, Bool.and_eq_true, decide_eq_true_eq] at hends ⊢
      exact ⟨hends.1, hends.2.trans hdeeper.le⟩
    · rw [hunit] at hu
      cases hu
      exact hctl

/-- A condition in one line. -/
theorem condOk_of_plain {front piece more : List AsmUnit}
    (hpiece : ∀ u ∈ piece, u.instruct.isJump = false ∧ u.instruct.isControl = false) :
    CondOk host (front ++ piece ++ more) front.length (front.length + piece.length) := by
  refine ⟨Nat.le_add_right _ _, fun vm vm' hlow hhigh hstep => ?_⟩
  obtain ⟨unit, hmem, hunit⟩ := @exists_unit front piece more vm.pc hlow hhigh
  obtain ⟨hjump, hcontrol⟩ := hpiece unit hmem
  refine ⟨?_, fun u hu => ?_⟩
  · rcases (step_spec hstep hunit).1 with h | h | ⟨h, -⟩
    · omega
    · rw [hcontrol] at h
      cases h
    · rw [hjump] at h
      cases h
  · rw [hunit] at hu
    cases hu
    exact hcontrol

theorem CondOk.append {first mid last : Nat} (h : CondOk host units first mid)
    (h' : CondOk host units mid last) : CondOk host units first last := by
  have hle := h.le
  have hle' := h'.le
  refine ⟨by omega, fun vm vm' hlow hhigh hstep => ?_⟩
  rcases Nat.lt_or_ge vm.pc mid with hmid | hmid
  · obtain ⟨hstays, hcontrol⟩ := h.stays vm vm' hlow hmid hstep
    exact ⟨by omega, hcontrol⟩
  · obtain ⟨hstays, hcontrol⟩ := h'.stays vm vm' hmid hhigh hstep
    exact ⟨by omega, hcontrol⟩

/-- The code of an expression neither jumps nor breaks. -/
theorem plain_code (code : List ExprIns) (deepth : Nat) (isNewLine : Bool) :
    ∀ u ∈ (asmUnits deepth isNewLine (code.map ExprIns.line)).map AsmUnit.narrow,
      u.instruct.isJump = false ∧ u.instruct.isControl = false := by
  intro u hu
  have hexpr : ∀ instruct ∈ exprInstructs,
      (!instruct.isJump && !instruct.isControl) = true := by decide
  have hall := @forall_instruct (fun instruct => !instruct.isJump && !instruct.isControl)
    (code.map ExprIns.line) (by
      rw [List.all_map, List.all_eq_true]
      exact fun e _ => hexpr _ e.mem_exprInstructs) deepth isNewLine u hu
  simpa using hall

end

/-! ### A chain in a program -/

/-- A chain in a program, with the rest of its block behind it. -/
structure Chain where
  place : Place
  cond : Code
  body : Prog
  elifs : List (Code × Prog)
  orElse : Option Prog
  rest : Prog

namespace Chain
variable (c : Chain)

/-- What is behind the `elif`s. -/
def orElseProg : Prog :=
  match c.orElse with
  | none => c.rest
  | some body => .block .elseBlock body c.rest

def elifsProg : List (Code × Prog) → Prog
  | [] => c.orElseProg
  | (code, body) :: elifs => .block (.elifBlock code) body (elifsProg elifs)

def prog : Prog := c.place.plug (.block (.ifBlock c.cond) c.body (c.elifsProg c.elifs))

def deepth : Nat := c.place.deepth 0

/-- The depth of the line behind the body in front of some `elif`s. -/
def next (elifs : List (Code × Prog)) : Nat :=
  (c.elifsProg elifs).nextDeepth c.deepth (c.place.next 0 0)

/-- The units of a body. -/
def bodyUnits (body : Prog) (next : Nat) : List AsmUnit := lineUnits (body.asm (c.deepth + 1) next)

/-- The units of a condition. -/
def condUnits (code : Code) (isNewLine : Bool) : List AsmUnit :=
  (asmUnits c.deepth isNewLine (code.asm c.deepth)).map AsmUnit.narrow

/-- The branch that starts at a unit. -/
def branch (start cond : Nat) (condUnits bodyUnits : List AsmUnit) : Branch :=
  let jez := cond + condUnits.length
  ⟨start, cond, jez, jez + 1 + bodyUnits.length⟩

def elifBranches : Nat → List (Code × Prog) → List Branch
  | _, [] => []
  | start, (code, body) :: elifs =>
    let elif := branch start (start + 1) (c.condUnits code false) (c.bodyUnits body (c.next elifs))
    elif :: elifBranches elif.last elifs

/-- The index of its first unit. -/
def pc : Nat := (lineUnits (c.place.before 0)).length

/-- Its `if`. -/
def ifBranch : Branch :=
  branch c.pc c.pc (c.condUnits c.cond true) (c.bodyUnits c.body (c.next c.elifs))

/-- Its branches. -/
def branches : List Branch := c.ifBranch :: c.elifBranches c.ifBranch.last c.elifs

/-- The unit behind some branches. -/
def lastOf (start : Nat) : List Branch → Nat
  | [] => start
  | branch :: branches => lastOf branch.last branches

/-- Where its `else` starts. -/
def orElseAt : Option Nat := c.orElse.map fun _ => lastOf c.pc c.branches

/-- The unit of the statement behind it. -/
def after : Nat :=
  match c.orElse with
  | none => lastOf c.pc c.branches
  | some body => lastOf c.pc c.branches + 1 +
    (c.bodyUnits body (c.rest.nextDeepth c.deepth (c.place.next 0 0))).length

/-- The depths of the lines of its bodies, behind the first. -/
def elifDeepths : List (Code × Prog) → List Nat
  | [] =>
    match c.orElse with
    | none => []
    | some body => body.deepths (c.deepth + 1) (c.rest.nextDeepth c.deepth (c.place.next 0 0))
  | (_, body) :: elifs => body.deepths (c.deepth + 1) (c.next elifs) ++ elifDeepths elifs

end Chain

/-- **When a chain does what it is for**: its depth has a register, its bodies read as
deeper and the first line behind it does not, and no `elif` has a comprehension for its
condition. -/
structure ChainWhen (c : Chain) : Prop where
  register : c.deepth % 16 < registSize
  inside : ∀ k ∈ c.body.deepths (c.deepth + 1) (c.next c.elifs) ++ c.elifDeepths c.elifs,
    c.deepth % 16 < k % 16
  behind : ∀ k ∈ (c.rest.deepths c.deepth (c.place.next 0 0) ++ c.place.behindDeepths 0 0).head?,
    k % 16 ≤ c.deepth % 16
  plain : ∀ branch ∈ c.elifs, branch.1.isComprehension = false

section
variable {σ : Type} {host : Host σ} {reg : Fin registSize}

theorem endsBlock_of_lt {deepth : Nat} {unit : AsmUnit} (h : deepth < unit.blockDeepth) :
    unit.endsBlock deepth = false := by
  rw [AsmUnit.endsBlock, Bool.and_eq_false_iff, decide_eq_false_iff_not]
  exact .inr (Nat.not_le.mpr h)

/-- A branch with its condition, its jump and its body. -/
theorem branchOk_of_units {front cond body more : List AsmUnit} {isNewLine : Bool} (start : Nat)
    (hcond : ∀ more, CondOk host (front ++ cond ++ more) front.length (front.length + cond.length))
    (htame : Tame [] body []) (hbody : ∀ u ∈ body, reg.val < u.blockDeepth)
    (hmore : ∀ u ∈ more.head?, u.endsBlock reg = true) :
    BranchOk host (front ++ cond ++ ⟨.JEZ, reg, 0, isNewLine, InstructIndex.letters ['1']⟩ ::
      (body ++ more)) reg (Chain.branch start front.length cond body) := by
  have hends : ∀ u ∈ body, u.endsBlock reg = false := fun u hu => endsBlock_of_lt (hbody u hu)
  refine ⟨hcond _, ?_, ?_⟩
  · have := @jezTo_of_units _ host _ (front ++ cond) _ _ isNewLine hends hmore
    rw [List.length_append] at this
    exact this
  · have := @bodyOk_of_units _ host _ (front ++ cond ++
      [⟨.JEZ, reg, 0, isNewLine, InstructIndex.letters ['1']⟩]) _ _ htame hbody hmore
    simp only [List.length_append, List.length_singleton, List.append_assoc,
      List.cons_append, List.nil_append] at this
    rw [List.append_assoc]
    simpa only [Chain.branch, Nat.add_assoc] using this

end

namespace Chain
variable (c : Chain)

theorem units_elif (code : Code) :
    lineUnits (.block c.deepth :: (Header.elifBlock code).asm c.deepth) =
      ⟨.NEL, c.deepth % 16, 0, true, InstructIndex.letters ['1']⟩ :: (c.condUnits code false ++
        [⟨.JEZ, c.deepth % 16, 0, false, InstructIndex.letters ['1']⟩]) := by
  rw [lineUnits, asmUnits, Header.asm, insLine, asmUnits, List.map_cons, genRuleToAsm,
    asmUnits_code, List.map_append]
  rfl

/-- The array from some `elif`s on. -/
def tailUnits (elifs : List (Code × Prog)) : List AsmUnit :=
  lineUnits ((c.elifsProg elifs).asm c.deepth (c.place.next 0 0)) ++ lineUnits (c.place.behind 0 0)

theorem tailUnits_cons (code : Code) (body : Prog) (elifs : List (Code × Prog)) :
    c.tailUnits ((code, body) :: elifs) =
      ⟨.NEL, c.deepth % 16, 0, true, InstructIndex.letters ['1']⟩ :: (c.condUnits code false ++
        ⟨.JEZ, c.deepth % 16, 0, false, InstructIndex.letters ['1']⟩ ::
          (c.bodyUnits body (c.next elifs) ++ c.tailUnits elifs)) := by
  rw [tailUnits, elifsProg, Prog.asm, lineUnits_append _ (Prog.startsBlock_asm _ _ _),
    lineUnits_append _ (startsBlock_exitAsm _ _ _), lineUnits_append _ (body.startsBlock_asm _ _),
    units_elif]
  simp only [List.append_assoc, List.cons_append, List.nil_append]
  rfl

theorem tailUnits_nil : c.tailUnits [] = match c.orElse with
    | none => lineUnits (c.rest.asm c.deepth (c.place.next 0 0)) ++ lineUnits (c.place.behind 0 0)
    | some body => ⟨.NEL, c.deepth % 16, 0, true, InstructIndex.letters ['1']⟩ ::
      (c.bodyUnits body (c.rest.nextDeepth c.deepth (c.place.next 0 0)) ++
        (lineUnits (c.rest.asm c.deepth (c.place.next 0 0)) ++
          lineUnits (c.place.behind 0 0))) := by
  rw [tailUnits, elifsProg, orElseProg]
  cases c.orElse with
  | none => rfl
  | some body =>
    dsimp only
    rw [Prog.asm, lineUnits_append _ (c.rest.startsBlock_asm _ _),
      lineUnits_append _ (startsBlock_exitAsm _ _ _), lineUnits_append _ (body.startsBlock_asm _ _)]
    simp only [List.append_assoc]
    rfl

/-- The first line behind a chain is not deeper than the chain. -/
theorem endsBlock_behind (hwhen : ChainWhen c) :
    ∀ u ∈ (lineUnits (c.rest.asm c.deepth (c.place.next 0 0)) ++
      lineUnits (c.place.behind 0 0)).head?, u.endsBlock (c.deepth % 16) = true := by
  have hreads := (reads_prog c.rest c.deepth (c.place.next 0 0)).append (reads_behind c.place 0 0)
  rw [← lineUnits_append _ (startsBlock_behind _ _ _)] at hreads ⊢
  exact (endsBlock_head ((c.rest.startsBlock_asm _ _).append (startsBlock_behind _ _ _))
    hreads).mpr hwhen.behind

/-- Nor is what is behind a body in it. -/
theorem endsBlock_tailUnits (hwhen : ChainWhen c) (elifs : List (Code × Prog)) :
    ∀ u ∈ (c.tailUnits elifs).head?, u.endsBlock (c.deepth % 16) = true := by
  cases elifs with
  | nil =>
    rw [tailUnits_nil]
    cases c.orElse with
    | none => exact c.endsBlock_behind hwhen
    | some body =>
      intro u hu
      cases hu
      exact decide_eq_true (Nat.le_refl _)
  | cons elif elifs =>
    obtain ⟨code, body⟩ := elif
    rw [tailUnits_cons]
    intro u hu
    cases hu
    exact decide_eq_true (Nat.le_refl _)

/-- The units of a body whose lines read as deeper are. -/
theorem lt_bodyUnits {body : Prog} {next : Nat}
    (h : ∀ k ∈ body.deepths (c.deepth + 1) next, c.deepth % 16 < k % 16) :
    ∀ u ∈ c.bodyUnits body next, c.deepth % 16 < u.blockDeepth := by
  intro u hu
  have hmem := mem_lineDeepths (body.startsBlock_asm _ _) u hu
  rw [(reads_prog body _ _).mem] at hmem
  obtain ⟨k, hk, hunit⟩ := List.mem_map.mp hmem
  rw [← hunit]
  exact h k hk

/-- The `elif`s and the `else` are laid out right. -/
theorem laid (hwhen : ChainWhen c) {σ : Type} (host : Host σ) (elifs : List (Code × Prog))
    (front : List AsmUnit) (hcaught : (c.elifsProg elifs).Caught)
    (hinside : ∀ k ∈ c.elifDeepths elifs, c.deepth % 16 < k % 16)
    (hplain : ∀ branch ∈ elifs, branch.1.isComprehension = false)
    (hlast : lastOf front.length (c.elifBranches front.length elifs) = lastOf c.pc c.branches) :
    Laid host (front ++ c.tailUnits elifs) ⟨c.deepth % 16, hwhen.register⟩ c.orElseAt c.after
      front.length (c.elifBranches front.length elifs) := by
  induction elifs generalizing front with
  | nil =>
    rw [elifsProg, orElseProg] at hcaught
    rw [elifDeepths] at hinside
    rw [tailUnits_nil]
    cases horElse : c.orElse with
    | none =>
      have hnone : c.orElseAt = none := by
        rw [orElseAt, horElse]
        rfl
      have hafter : c.after = lastOf c.pc c.branches := by rw [after, horElse]
      rw [hnone, hafter]
      exact hlast
    | some body =>
      rw [horElse] at hcaught hinside
      have hsome : c.orElseAt = some front.length := by
        rw [orElseAt, horElse, ← hlast]
        rfl
      have hafter : c.after = front.length + 1 +
          (c.bodyUnits body (c.rest.nextDeepth c.deepth (c.place.next 0 0))).length := by
        rw [after, horElse, ← hlast]
        rfl
      have hmore := c.endsBlock_behind hwhen
      have hbody := c.lt_bodyUnits hinside
      have htame : Tame [] (c.bodyUnits body (c.rest.nextDeepth c.deepth (c.place.next 0 0))) [] :=
        tame_prog hcaught.2.1 _ _ _ _
      rw [hsome, hafter]
      refine ⟨rfl, @nelTo_of_units _ _ ⟨c.deepth % 16, hwhen.register⟩ _ _ _ _
        (fun u hu => endsBlock_of_lt (hbody u hu)) hmore, ?_⟩
      have := @bodyOk_of_units _ host ⟨c.deepth % 16, hwhen.register⟩
        (front ++ [⟨.NEL, c.deepth % 16, 0, true, InstructIndex.letters ['1']⟩]) _ _
        htame hbody hmore
      simpa only [List.length_append, List.length_singleton, List.append_assoc,
        List.cons_append, List.nil_append] using this
  | cons elif elifs ih =>
    obtain ⟨code, body⟩ := elif
    obtain ⟨-, hbodyCaught, hrest⟩ := hcaught
    rw [elifDeepths] at hinside
    have hbody := @lt_bodyUnits c body (c.next elifs) fun k hk =>
      hinside k (List.mem_append_left _ hk)
    have htame : Tame [] (c.bodyUnits body (c.next elifs)) [] := tame_prog hbodyCaught _ _ _ _
    have hmore := c.endsBlock_tailUnits hwhen elifs
    obtain ⟨code, rfl⟩ : ∃ plain, code = .plain plain := by
      cases code with
      | plain code => exact ⟨code, rfl⟩
      | comprehension append iter argIn left => cases hplain _ List.mem_cons_self
    have hcond : ∀ u ∈ c.condUnits (.plain code) false,
        u.instruct.isJump = false ∧ u.instruct.isControl = false := plain_code code c.deepth false
    rw [tailUnits_cons]
    refine ⟨rfl, ⟨?_, rfl, ?_⟩, ?_⟩
    · have := @branchOk_of_units _ host ⟨c.deepth % 16, hwhen.register⟩
        (front ++ [⟨.NEL, c.deepth % 16, 0, true, InstructIndex.letters ['1']⟩]) _ _ _ false
        front.length (fun more => condOk_of_plain hcond) htame hbody hmore
      simpa only [List.length_append, List.length_singleton, List.append_assoc,
        List.cons_append, List.nil_append] using this
    · -- the condition is in the line of the `NEL`
      have hpiece : ∀ u ∈ c.condUnits (.plain code) false ++
          ⟨.JEZ, c.deepth % 16, 0, false, InstructIndex.letters ['1']⟩ ::
            c.bodyUnits body (c.next elifs), u.endsBlock (c.deepth % 16) = false := by
        rw [List.forall_mem_append, List.forall_mem_cons]
        refine ⟨endsBlock_piece.mpr ?_, rfl, fun u hu => endsBlock_of_lt (hbody u hu)⟩
        rw [condUnits, Code.asm, lineDeepths_ins (isIns_code code)]
        exact fun _ h => absurd h List.not_mem_nil
      have := @nelTo_of_units _ host ⟨c.deepth % 16, hwhen.register⟩ front _ _ true hpiece hmore
      simp only [List.length_append, List.length_cons, List.append_assoc, List.cons_append] at this
      have hlast : (branch front.length (front.length + 1) (c.condUnits (.plain code) false)
          (c.bodyUnits body (c.next elifs))).last = front.length + 1 +
            ((c.condUnits (.plain code) false).length +
              ((c.bodyUnits body (c.next elifs)).length + 1)) := by
        simp only [branch]
        omega
      rw [hlast]
      exact this
    · have := ih (front ++ ⟨.NEL, c.deepth % 16, 0, true, InstructIndex.letters ['1']⟩ ::
        (c.condUnits (.plain code) false ++
          ⟨.JEZ, c.deepth % 16, 0, false, InstructIndex.letters ['1']⟩ ::
            c.bodyUnits body (c.next elifs))) hrest
        (fun k hk => hinside k (List.mem_append_right _ hk))
        (fun branch hbranch => hplain branch (List.mem_cons_of_mem _ hbranch))
      have hlength : (front ++ ⟨.NEL, c.deepth % 16, 0, true, InstructIndex.letters ['1']⟩ ::
          (c.condUnits (.plain code) false ++
            ⟨.JEZ, c.deepth % 16, 0, false, InstructIndex.letters ['1']⟩ ::
              c.bodyUnits body (c.next elifs))).length =
          (branch front.length (front.length + 1) (c.condUnits (.plain code) false)
            (c.bodyUnits body (c.next elifs))).last := by
        simp only [branch, List.length_append, List.length_cons]
        omega
      rw [hlength] at this
      have hlaid := this hlast
      simp only [List.append_assoc, List.cons_append] at hlaid
      exact hlaid

end Chain

/-- A host for which every condition is true. -/
def trueHost : Host Unit := ⟨fun _ _ => some (), fun _ => (true, ())⟩

end PikaScript
