import PikaScript.Data.Arg
import PikaScript.Lib.Compaction
import PikaScript.Lib.Machine

/-! The breakpoints of the debugger in `PikaVM.c`.

A breakpoint is a module's hash and an address in it. They are kept in two arrays of
`PIKA_DEBUG_BREAK_POINT_MAX` entries, here `N`, of which the first `break_point_cnt` are used; a
breakpoint is taken out by moving those behind it forward.

`run_breakLaw`: after any calls, a breakpoint is found just when the last call about it that
succeeded has set it. -/
namespace PikaScript

/-- The part of `PikaVMState` the breakpoints are in. An address is the bits of an `int`. -/
structure Breakpoints (N : Nat) where
  breakModuleHash : Nat → Hash
  breakPointPc : Nat → BitVec 32
  breakPointCnt : Nat
  /-- The entries that are used are entries of the arrays. -/
  cnt_le : breakPointCnt ≤ N

namespace Breakpoints
variable {N : Nat} (signedChar : Bool) (s : Breakpoints N)

/-! ### The code -/

def resOk : Int := 0
def errRuntimeError : Int := -1

/-- The tables of zeros that `g_PikaVMState` starts with. -/
def init : Breakpoints N := ⟨fun _ => 0, fun _ => 0, 0, Nat.zero_le N⟩

/-- Whether an entry is the one looked for. -/
def matchesAt (h : Hash) (pcBreak : BitVec 32) (i : Nat) : Bool :=
  s.breakModuleHash i == h && s.breakPointPc i == pcBreak

/-- `pika_debug_check_break_hash`. -/
def checkBreakHash (moduleHash : Hash) (pcBreak : BitVec 32) : Bool :=
  (List.range s.breakPointCnt).any (s.matchesAt moduleHash pcBreak)

/-- `pika_debug_check_break`. -/
def checkBreak (moduleName : CString) (pcBreak : BitVec 32) : Bool :=
  let h := hashTime33 signedChar moduleName
  (List.range s.breakPointCnt).any (s.matchesAt h pcBreak)

/-- `pika_debug_set_break`. -/
def setBreak (moduleName : CString) (pcBreak : BitVec 32) : Breakpoints N × Int :=
  if s.checkBreak signedChar moduleName pcBreak then (s, resOk)
  else if h : s.breakPointCnt ≥ N then (s, errRuntimeError)
  else
    ({ breakModuleHash :=
        Function.update s.breakModuleHash s.breakPointCnt (hashTime33 signedChar moduleName)
       breakPointPc := Function.update s.breakPointPc s.breakPointCnt pcBreak
       breakPointCnt := s.breakPointCnt + 1
       cnt_le := Nat.lt_of_not_le h }, resOk)

/-- The loop that moves the entries behind a breakpoint forward, from `j` on. -/
def moveForward : Nat → Nat → (Nat → Hash) → (Nat → BitVec 32) → (Nat → Hash) × (Nat → BitVec 32)
  | 0, _, breakModuleHash, breakPointPc => (breakModuleHash, breakPointPc)
  | rounds + 1, j, breakModuleHash, breakPointPc =>
    moveForward rounds (j + 1) (Function.update breakModuleHash j (breakModuleHash (j + 1)))
      (Function.update breakPointPc j (breakPointPc (j + 1)))

/-- `pika_debug_reset_break`. -/
def resetBreak (moduleName : CString) (pcBreak : BitVec 32) : Breakpoints N × Int :=
  if !s.checkBreak signedChar moduleName pcBreak then (s, resOk)
  else
    let h := hashTime33 signedChar moduleName
    match (List.range s.breakPointCnt).find? (s.matchesAt h pcBreak) with
    | none => (s, errRuntimeError)
    | some i =>
      let moved := moveForward (s.breakPointCnt - 1 - i) i s.breakModuleHash s.breakPointPc
      (⟨moved.1, moved.2, s.breakPointCnt - 1, (Nat.sub_le _ _).trans s.cnt_le⟩, resOk)

end Breakpoints

/-- A call of one of the two functions that change the table. -/
inductive BreakCall where
  | setBreak (moduleName : CString) (pcBreak : BitVec 32)
  | resetBreak (moduleName : CString) (pcBreak : BitVec 32)

namespace Breakpoints
variable {N : Nat} (signedChar : Bool) (s : Breakpoints N)

def breakMachine (N : Nat) : Machine BreakCall (Breakpoints N) Int where
  step
    | .setBreak moduleName pcBreak, s => some (s.setBreak signedChar moduleName pcBreak)
    | .resetBreak moduleName pcBreak, s => some (s.resetBreak signedChar moduleName pcBreak)

/-! ### What the table is for -/

/-- What a call is about: a hash and an address. -/
def point : BreakCall → Hash × BitVec 32
  | .setBreak moduleName pcBreak | .resetBreak moduleName pcBreak =>
    (hashTime33 signedChar moduleName, pcBreak)

/-- Whether the last of some answered calls about a point that succeeded has set it. -/
def armed (p : Hash × BitVec 32) : List (BreakCall × Int) → Bool → Bool
  | [], on => on
  | (call, res) :: calls, on =>
    armed p calls <|
      if res = resOk ∧ point signedChar call = p then
        match call with
        | .setBreak _ _ => true
        | .resetBreak _ _ => false
      else on

/-- The breakpoints, in the order of the table. -/
def entries : List (Hash × BitVec 32) :=
  Compaction.front (fun i => (s.breakModuleHash i, s.breakPointPc i)) s.breakPointCnt

/-- What the table promises after some calls, from an empty one. -/
structure BreakLaw (history : List (BreakCall × Int)) : Prop where
  /-- Both checks find what the last call has left there. -/
  check : ∀ moduleName pcBreak, s.checkBreak signedChar moduleName pcBreak =
    armed signedChar (hashTime33 signedChar moduleName, pcBreak) history false
  checkHash : ∀ h pcBreak, s.checkBreakHash h pcBreak = armed signedChar (h, pcBreak) history false
  /-- No breakpoint has two entries. -/
  nodup : s.entries.Nodup
  /-- A full table does not change. -/
  full : s.breakPointCnt = N → ∀ moduleName pcBreak,
    (s.setBreak signedChar moduleName pcBreak).1 = s
  /-- A reset takes out its own breakpoint and no other. -/
  reset : ∀ moduleName pcBreak, (s.resetBreak signedChar moduleName pcBreak).2 = resOk ∧
    (s.resetBreak signedChar moduleName pcBreak).1.entries =
      s.entries.erase (hashTime33 signedChar moduleName, pcBreak)

/-! ### The steps -/

variable {signedChar s} {moduleName : CString} {pcBreak : BitVec 32}

theorem matchesAt_iff {h : Hash} {i : Nat} : s.matchesAt h pcBreak i = true ↔
    (s.breakModuleHash i, s.breakPointPc i) = (h, pcBreak) := by
  rw [matchesAt, Bool.and_eq_true, beq_iff_eq, beq_iff_eq, Prod.mk.injEq]

theorem checkBreakHash_iff {h : Hash} :
    s.checkBreakHash h pcBreak = true ↔ (h, pcBreak) ∈ s.entries := by
  rw [checkBreakHash, List.any_eq_true, entries, Compaction.mem_front]
  refine exists_congr fun i => ?_
  rw [List.mem_range, matchesAt_iff]

/-- A module's breakpoints are found by its hash. -/
theorem checkBreak_eq (s : Breakpoints N) (moduleName : CString) (pcBreak : BitVec 32) :
    s.checkBreak signedChar moduleName pcBreak =
      s.checkBreakHash (hashTime33 signedChar moduleName) pcBreak := rfl

theorem moveForward_eq {last : Nat} {breakModuleHash : Nat → Hash}
    {breakPointPc : Nat → BitVec 32} {i : Nat} (h : i ≤ last) :
    moveForward (last - i) i breakModuleHash breakPointPc =
      (Compaction.pull breakModuleHash i last, Compaction.pull breakPointPc i last) := by
  induction hrounds : last - i generalizing i breakModuleHash breakPointPc with
  | zero =>
    obtain rfl : i = last := by omega
    rw [moveForward, Compaction.pull_self, Compaction.pull_self]
  | succ rounds ih =>
    rw [moveForward, ih (by omega) (by omega), Compaction.pull_update (by omega),
      Compaction.pull_update (by omega)]

/-- **What setting a breakpoint does.** -/
theorem setBreak_cases (s : Breakpoints N) (moduleName : CString) (pcBreak : BitVec 32) :
    ((hashTime33 signedChar moduleName, pcBreak) ∈ s.entries ∧
      s.setBreak signedChar moduleName pcBreak = (s, resOk)) ∨
    (s.breakPointCnt = N ∧ s.setBreak signedChar moduleName pcBreak = (s, errRuntimeError)) ∨
    ((hashTime33 signedChar moduleName, pcBreak) ∉ s.entries ∧
      ∃ s', s.setBreak signedChar moduleName pcBreak = (s', resOk) ∧
        s'.entries = s.entries ++ [(hashTime33 signedChar moduleName, pcBreak)]) := by
  unfold setBreak
  by_cases hcheck : s.checkBreak signedChar moduleName pcBreak = true
  · exact .inl ⟨checkBreakHash_iff.mp hcheck, if_pos hcheck⟩
  rw [if_neg hcheck]
  by_cases hfull : s.breakPointCnt ≥ N
  · exact .inr (.inl ⟨Nat.le_antisymm s.cnt_le hfull, dif_pos hfull⟩)
  rw [dif_neg hfull]
  refine .inr (.inr ⟨mt checkBreakHash_iff.mpr hcheck, _, rfl, ?_⟩)
  rw [entries, Compaction.front_succ]
  congr 1
  · refine Compaction.front_congr fun j hj => ?_
    dsimp only
    rw [Function.update_of_ne (by omega), Function.update_of_ne (by omega)]
  · dsimp only
    rw [Function.update_self, Function.update_self]

/-- **What resetting a breakpoint does.** -/
theorem resetBreak_spec (s : Breakpoints N) (moduleName : CString) (pcBreak : BitVec 32) :
    (s.resetBreak signedChar moduleName pcBreak).2 = resOk ∧
      (s.resetBreak signedChar moduleName pcBreak).1.entries =
        s.entries.erase (hashTime33 signedChar moduleName, pcBreak) := by
  unfold resetBreak
  by_cases hcheck : s.checkBreak signedChar moduleName pcBreak = true
  · have hmem := checkBreakHash_iff.mp hcheck
    rw [if_neg (by rw [hcheck]; decide)]
    dsimp only
    cases hfind : (List.range s.breakPointCnt).find?
        (s.matchesAt (hashTime33 signedChar moduleName) pcBreak) with
    | none =>
      obtain ⟨i, hi, hmatch⟩ := Compaction.mem_front.mp hmem
      exact absurd (matchesAt_iff.mpr hmatch)
        (List.find?_eq_none.mp hfind i (List.mem_range.mpr hi))
    | some i =>
      obtain ⟨hmatch, hi, hfirst⟩ := List.find?_range_eq_some.mp hfind
      have hlt := List.mem_range.mp hi
      refine ⟨rfl, ?_⟩
      have hcnt : s.breakPointCnt = s.breakPointCnt - 1 + 1 := by omega
      have hfront := Compaction.front_pull (f := fun i => (s.breakModuleHash i, s.breakPointPc i))
        (i := i) (n := s.breakPointCnt - 1) (by omega)
      rw [← hcnt, Compaction.eraseIdx_first hlt (matchesAt_iff.mp hmatch) fun j hj heq => by
        have hnot := hfirst j hj
        rw [matchesAt_iff.mpr heq] at hnot
        exact absurd hnot (by decide)] at hfront
      refine Eq.trans (Compaction.front_congr fun j _ => ?_) hfront
      dsimp only
      rw [moveForward_eq (by omega), Compaction.pull]
      dsimp only
      unfold Compaction.pull
      split <;> rfl
  · have hnot := mt checkBreakHash_iff.mpr hcheck
    rw [if_pos (by simpa using hcheck)]
    exact ⟨rfl, (List.erase_of_not_mem hnot).symm⟩

/-! ### The runs -/

/-- The table after some calls. -/
structure Holds (signedChar : Bool) (s : Breakpoints N) (history : List (BreakCall × Int)) :
    Prop where
  nodup : s.entries.Nodup
  mem : ∀ p, p ∈ s.entries ↔ armed signedChar p history false = true

theorem armed_concat (p : Hash × BitVec 32) (history : List (BreakCall × Int)) (call : BreakCall)
    (res : Int) (on : Bool) : armed signedChar p (history ++ [(call, res)]) on =
      armed signedChar p [(call, res)] (armed signedChar p history on) := by
  induction history generalizing on with
  | nil => rfl
  | cons first history ih => exact ih _

/-- A call keeps the table right. -/
theorem Holds.step {history : List (BreakCall × Int)} (h : Holds signedChar s history)
    (call : BreakCall) : ∃ s' res, (breakMachine signedChar N).step call s = some (s', res) ∧
      Holds signedChar s' (history ++ [(call, res)]) := by
  cases call with
  | setBreak moduleName pcBreak =>
    refine ⟨(s.setBreak signedChar moduleName pcBreak).1,
      (s.setBreak signedChar moduleName pcBreak).2, rfl, ?_⟩
    rcases @setBreak_cases N signedChar s moduleName pcBreak with
      ⟨hmem, heq⟩ | ⟨-, heq⟩ | ⟨hnot, s', heq, hentries⟩
    · rw [heq]
      refine ⟨h.nodup, fun p => ?_⟩
      rw [armed_concat, armed, armed, h.mem]
      split
      · rename_i hp
        exact iff_of_true ((h.mem p).mp (hp.2 ▸ hmem)) rfl
      · exact Iff.rfl
    · rw [heq]
      refine ⟨h.nodup, fun p => ?_⟩
      have hres : errRuntimeError ≠ resOk := by decide
      rw [armed_concat, armed, armed, h.mem, if_neg fun hp => hres hp.1]
    · rw [heq]
      refine ⟨?_, fun p => ?_⟩
      · rw [hentries]
        rw [← List.concat_eq_append]
        exact h.nodup.concat hnot
      · rw [armed_concat, armed, armed, hentries, List.mem_append, List.mem_singleton, h.mem]
        split
        · rename_i hp
          exact iff_of_true (.inr hp.2.symm) rfl
        · rename_i hp
          exact or_iff_left fun heq => hp ⟨rfl, heq.symm⟩
  | resetBreak moduleName pcBreak =>
    refine ⟨(s.resetBreak signedChar moduleName pcBreak).1,
      (s.resetBreak signedChar moduleName pcBreak).2, rfl, ?_⟩
    obtain ⟨hres, hentries⟩ := @resetBreak_spec N signedChar s moduleName pcBreak
    refine ⟨hentries ▸ h.nodup.erase _, fun p => ?_⟩
    rw [armed_concat, armed, armed, hentries, h.nodup.mem_erase_iff, h.mem, hres]
    split
    · rename_i hp
      exact iff_of_false (fun hmem => hmem.1 hp.2.symm) Bool.false_ne_true
    · rename_i hp
      exact and_iff_right fun heq => hp ⟨rfl, heq.symm⟩

theorem Holds.run {history : List (BreakCall × Int)} (h : Holds signedChar s history)
    (calls : List BreakCall) :
    ∃ s' answers, (breakMachine signedChar N).run s calls = some (s', answers) ∧
      Holds signedChar s' (history ++ calls.zip answers) := by
  induction calls generalizing s history with
  | nil => exact ⟨s, [], rfl, by rwa [List.zip_nil_left, List.append_nil]⟩
  | cons call calls ih =>
    obtain ⟨s₁, res, hstep, h₁⟩ := h.step call
    obtain ⟨s', answers, hrun, h'⟩ := ih h₁
    refine ⟨s', res :: answers, ?_, ?_⟩
    · rw [Machine.run, hstep, Option.bind_some, hrun]
      rfl
    · rw [List.append_assoc] at h'
      exact h'

theorem Holds.breakLaw {history : List (BreakCall × Int)} (h : Holds signedChar s history) :
    BreakLaw signedChar s history where
  check moduleName pcBreak := by
    rw [checkBreak_eq]
    exact Bool.eq_iff_iff.mpr (checkBreakHash_iff.trans (h.mem _))
  checkHash hash pcBreak := Bool.eq_iff_iff.mpr (checkBreakHash_iff.trans (h.mem _))
  nodup := h.nodup
  full hcnt moduleName pcBreak := by
    unfold setBreak
    split
    · rfl
    · rw [dif_pos hcnt.ge]
  reset := resetBreak_spec s

/-- **After any calls the table holds the breakpoints that are set.** -/
theorem run_breakLaw (signedChar : Bool) (N : Nat) (calls : List BreakCall) :
    ∃ (s : Breakpoints N) (answers : List Int),
      (breakMachine signedChar N).run init calls = some (s, answers) ∧
        BreakLaw signedChar s (calls.zip answers) := by
  have hinit : Holds signedChar (init : Breakpoints N) [] :=
    ⟨List.nodup_nil, fun p => iff_of_false List.not_mem_nil Bool.false_ne_true⟩
  obtain ⟨s, answers, hrun, h⟩ := hinit.run calls
  exact ⟨s, answers, hrun, h.breakLaw⟩

end Breakpoints

end PikaScript
