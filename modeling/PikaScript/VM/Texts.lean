import PikaScript.VM.Lines

/-! What the text of a program is like: how deep its lines are and its loops, the unit it
ends with, and that an error in a `try` is not caught early. -/
namespace PikaScript

/-! ### Depths -/

section
variable {deepth next : Nat}

theorem Code.deepths_le {code : Code} :
    ∀ k ∈ code.deepths deepth, deepth ≤ k ∧ k ≤ deepth + 1 := by
  intro k hk
  cases code with
  | plain code =>
    rw [deepths] at hk
    split at hk <;> simp at hk
    omega
  | comprehension append iter argIn left =>
    rw [deepths] at hk
    split at hk <;> simp at hk <;> omega

theorem Header.deepths_le {header : Header} :
    ∀ k ∈ header.deepths deepth, deepth ≤ k ∧ k ≤ deepth + 2 := by
  intro k hk
  have hcode : ∀ {code : Code}, k ∈ deepth :: code.deepths deepth →
      deepth ≤ k ∧ k ≤ deepth + 2 := by
    intro code hk
    rcases List.mem_cons.mp hk with rfl | hk
    · omega
    · have := Code.deepths_le k hk
      omega
  cases header with
  | whileBlock code => exact hcode hk
  | ifBlock code => exact hcode hk
  | elifBlock code => exact hcode hk
  | forBlock iter argIn =>
    rw [deepths] at hk
    split at hk <;> simp at hk <;> omega
  | defBlock declare defaults =>
    rcases List.mem_cons.mp hk with rfl | hk
    · omega
    · obtain ⟨default, -, hk⟩ := List.mem_flatMap.mp hk
      rcases List.mem_cons.mp hk with rfl | hk
      · omega
      · have := Code.deepths_le k hk
        omega
  | _ =>
    simp [deepths, innerDeepths] at hk
    omega

theorem Stmt.deepths_le {stmt : Stmt} :
    ∀ k ∈ stmt.deepths deepth, deepth ≤ k ∧ k ≤ deepth + 1 := by
  intro k hk
  have hcode : ∀ {code : Code}, k ∈ deepth :: code.deepths deepth →
      deepth ≤ k ∧ k ≤ deepth + 1 := by
    intro code hk
    rcases List.mem_cons.mp hk with rfl | hk
    · omega
    · exact Code.deepths_le k hk
  cases stmt with
  | expr code => exact Code.deepths_le k hk
  | RIS code => exact hcode hk
  | RET code => exact hcode hk
  | _ =>
    simp [deepths] at hk
    omega

theorem BlockType.deepths_le {blockType : BlockType}
    (hlevel : blockType = .classType → next = deepth) :
    ∀ k ∈ blockType.deepths deepth next, deepth ≤ k ∧ k ≤ deepth + 1 := by
  intro k hk
  cases blockType with
  | classType =>
    simp [deepths, hlevel rfl] at hk
    omega
  | _ =>
    simp [deepths] at hk
    try omega

/-- The depths of a program that is less than ten deep fit in four bits. -/
theorem Prog.deepths_lt {p : Prog} (hlow : p.Low deepth) (hlevel : p.ClassesLevel deepth next)
    (hdeepth : deepth ≤ registSize) : ∀ k ∈ p.deepths deepth next, deepth ≤ k ∧ k < 16 := by
  rw [registSize] at hdeepth
  induction p generalizing deepth next with
  | nil => exact fun _ h => absurd h List.not_mem_nil
  | line stmt rest ih =>
    refine List.forall_mem_append.mpr ⟨fun k hk => ?_, ih hlow hlevel hdeepth⟩
    have := Stmt.deepths_le k hk
    omega
  | block header body rest ihbody ihrest =>
    obtain ⟨hlt, hbody, hrest⟩ := hlow
    obtain ⟨hclass, hbodyLevel, hrestLevel⟩ := hlevel
    rw [registSize] at hlt
    refine List.forall_mem_append.mpr ⟨List.forall_mem_append.mpr
      ⟨List.forall_mem_append.mpr ⟨fun k hk => ?_, fun k hk => ?_⟩, fun k hk => ?_⟩,
        ihrest hrest hrestLevel hdeepth⟩
    · have := Header.deepths_le k hk
      omega
    · have := ihbody hbody hbodyLevel (by omega) k hk
      omega
    · have := BlockType.deepths_le hclass k hk
      omega

theorem Header.loops_lt {header : Header} (hdeepth : deepth < registSize) :
    ∀ f ∈ header.codeLoops deepth ++ header.ownLoops deepth, f < 16 := by
  rw [registSize] at hdeepth
  have hcode : ∀ (code : Code) (deepth : Nat), ∀ f ∈ code.loops deepth, f = deepth := by
    intro code deepth f hf
    rw [Code.loops] at hf
    split at hf
    · exact List.mem_singleton.mp hf
    · cases hf
  refine List.forall_mem_append.mpr ⟨fun f hf => ?_, fun f hf => ?_⟩
  · cases header with
    | defBlock declare defaults =>
      obtain ⟨default, -, hf⟩ := List.mem_flatMap.mp hf
      rw [hcode _ _ f hf]
      omega
    | whileBlock code => rw [hcode _ _ f hf]; omega
    | ifBlock code => rw [hcode _ _ f hf]; omega
    | elifBlock code => rw [hcode _ _ f hf]; omega
    | _ => cases hf
  · rw [ownLoops] at hf
    split at hf
    · rw [List.mem_singleton.mp hf]
      omega
    · cases hf

theorem Stmt.loops_lt {stmt : Stmt} (hdeepth : deepth < 16) : ∀ f ∈ stmt.loops deepth, f < 16 := by
  have hcode : ∀ code : Code, ∀ f ∈ code.loops deepth, f < 16 := by
    intro code f hf
    rw [Code.loops] at hf
    split at hf
    · rw [List.mem_singleton.mp hf]
      exact hdeepth
    · cases hf
  cases stmt with
  | expr code => exact hcode code
  | RIS code => exact hcode code
  | RET code => exact hcode code
  | _ => exact fun _ h => absurd h List.not_mem_nil

theorem Prog.loops_lt {p : Prog} (hlow : p.Low deepth) (hdeepth : deepth ≤ registSize) :
    ∀ f ∈ p.loops deepth, f < 16 := by
  induction p generalizing deepth with
  | nil => exact fun _ h => absurd h List.not_mem_nil
  | line stmt rest ih =>
    exact List.forall_mem_append.mpr
      ⟨Stmt.loops_lt (Nat.lt_of_le_of_lt hdeepth (by decide)), ih hlow hdeepth⟩
  | block header body rest ihbody ihrest =>
    obtain ⟨hlt, hbody, hrest⟩ := hlow
    rw [loops, List.append_assoc]
    exact List.forall_mem_append.mpr ⟨Header.loops_lt hlt,
      List.forall_mem_append.mpr ⟨ihbody hbody hlt, ihrest hrest hdeepth⟩⟩

/-! ### The last unit -/

/-- An instruct that the search behind an error does not stop at. -/
def InstructIndex.isPassed : InstructIndex → Bool
  | NTR | RET => false
  | _ => true

/-- A text that the search behind an error passes. -/
abbrev Passed (lines : List AsmLine) : Prop :=
  lines.all (AsmLine.allow InstructIndex.isPassed) = true

theorem Passed.append {lines more : List AsmLine} (h : Passed lines) (hmore : Passed more) :
    Passed (lines ++ more) := by
  rw [Passed, List.all_append, h, hmore]
  rfl

end

end PikaScript
