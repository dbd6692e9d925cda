import Mathlib.Tactic.Common

/-! Structured commands, and machines that realise them.

A command says from each state how it is left (`Exit`) and in which state; where it says
nothing, it runs for ever. `andThen` goes on by how a command was left, `loop` repeats
one until a `break`. A machine realises a command between entries and exits if it comes
to the exit the command names, and runs for ever if there is none (`Realises`); there is a
rule for each way to build a command. -/
namespace Commands

/-- How a command is left. -/
inductive Exit (ω : Type) where
  | next
  | brk
  | cont
  | stop (why : ω)
deriving DecidableEq, Repr

/-- From which state a command is left how, and in which state. -/
abbrev Cmd (σ ω : Type) := σ → Exit ω → σ → Prop

section
variable {α σ ω : Type}

/-- A command that is done at once. -/
def act (f : σ → Exit ω × σ) : Cmd σ ω := fun s o s' => f s = (o, s')

def exit (o : Exit ω) : Cmd σ ω := act fun s => (o, s)

/-- A command, and another by how the first was left. -/
def andThen (c : Cmd σ ω) (k : Exit ω → Cmd σ ω) : Cmd σ ω :=
  fun s o s' => ∃ o₁ s₁, c s o₁ s₁ ∧ k o₁ s₁ o s'

def seq (c d : Cmd σ ω) : Cmd σ ω :=
  andThen c fun
    | .next => d
    | o => exit o

def cond (b : σ → Bool) (c d : Cmd σ ω) : Cmd σ ω := fun s => if b s then c s else d s

/-- A command, again and again. -/
inductive loop (c : Cmd σ ω) : σ → Exit ω → σ → Prop
  | again {s o s₁ o' s'} : c s o s₁ → o = .next ∨ o = .cont → loop c s₁ o' s' → loop c s o' s'
  | brk {s s'} : c s .brk s' → loop c s .next s'
  | stop {s why s'} : c s (.stop why) s' → loop c s (.stop why) s'

/-- A command with a variable of its own, in the place of one around it. -/
def inner (a : α) (c : Cmd (α × σ) ω) : Cmd (α × σ) ω :=
  fun s o s' => ∃ b, c (a, s.2) o (b, s'.2) ∧ s'.1 = s.1

end

/-! ### Machines -/

section
variable {M : Type} (step : M → Option M)

/-- The state some steps later. -/
def after : Nat → M → Option M
  | 0, m => some m
  | n + 1, m => (step m).bind (after n)

def Reaches (m m' : M) : Prop := ∃ n, after step n m = some m'

/-- In one step at least. -/
def ReachesPlus (m m' : M) : Prop := ∃ n, after step (n + 1) m = some m'

/-- The machine runs for ever. -/
def Diverges (m : M) : Prop := ∀ n, (after step n m).isSome

variable {step} {m m₁ m₂ : M}

theorem after_add (n k : Nat) (m : M) :
    after step (n + k) m = (after step n m).bind (after step k) := by
  induction n generalizing m with
  | zero => rw [Nat.zero_add]; rfl
  | succ n ih =>
    rw [Nat.add_right_comm, after, after]
    cases step m with
    | none => rfl
    | some m₁ => exact ih m₁

theorem Reaches.refl (m : M) : Reaches step m m := ⟨0, rfl⟩

theorem Reaches.trans (h : Reaches step m m₁) (h' : Reaches step m₁ m₂) : Reaches step m m₂ := by
  obtain ⟨n, hn⟩ := h
  obtain ⟨k, hk⟩ := h'
  exact ⟨n + k, by rw [after_add, hn, Option.bind_some, hk]⟩

theorem ReachesPlus.reaches (h : ReachesPlus step m m₁) : Reaches step m m₁ := by
  obtain ⟨n, hn⟩ := h
  exact ⟨n + 1, hn⟩

theorem ReachesPlus.trans_left (h : ReachesPlus step m m₁) (h' : Reaches step m₁ m₂) :
    ReachesPlus step m m₂ := by
  obtain ⟨n, hn⟩ := h
  obtain ⟨k, hk⟩ := h'
  exact ⟨n + k, by rw [Nat.add_right_comm, after_add, hn, Option.bind_some, hk]⟩

theorem ReachesPlus.trans_right (h : Reaches step m m₁) (h' : ReachesPlus step m₁ m₂) :
    ReachesPlus step m m₂ := by
  obtain ⟨n, hn⟩ := h
  obtain ⟨k, hk⟩ := h'
  exact ⟨n + k, by rw [Nat.add_assoc, after_add, hn, Option.bind_some, hk]⟩

/-- A run has all its beginnings. -/
theorem isSome_of_le {n k : Nat} (hle : k ≤ n) (h : (after step n m).isSome) :
    (after step k m).isSome := by
  obtain ⟨j, rfl⟩ := Nat.exists_eq_add_of_le hle
  rw [after_add] at h
  cases hk : after step k m with
  | none => rw [hk] at h; cases h
  | some m₁ => rfl

theorem Diverges.of_reaches (h : Reaches step m m₁) (hdiv : Diverges step m₁) :
    Diverges step m := by
  obtain ⟨k, hk⟩ := h
  intro n
  refine isSome_of_le (Nat.le_add_left n k) ?_
  rw [after_add, hk]
  exact hdiv n

/-- **What always comes to itself again runs for ever**, or does so on the way. -/
theorem diverges_of_again {X : M → Prop}
    (hX : ∀ m, X m → Diverges step m ∨ ∃ m₁, ReachesPlus step m m₁ ∧ X m₁) (hm : X m) :
    Diverges step m := by
  intro n
  induction n using Nat.strongRecOn generalizing m with
  | ind n ih =>
    rcases hX m hm with hdiv | ⟨m₁, ⟨k, hk⟩, hm₁⟩
    · exact hdiv n
    · rcases Nat.lt_or_ge k n with hlt | hge
      · have hsplit : n = k + 1 + (n - (k + 1)) := by omega
        rw [hsplit, after_add, hk]
        exact ih (n - (k + 1)) (by omega) hm₁
      · exact isSome_of_le (Nat.le_succ_of_le hge) (by rw [hk]; rfl)

end

/-! ### Machines that realise commands -/

/-- From an entry the machine comes to an exit of the command, and runs for ever if it
has none. -/
structure Realises {M σ ω : Type} (step : M → Option M) (enter : σ → M → Prop) (c : Cmd σ ω)
    (leave : Exit ω → σ → M → Prop) : Prop where
  returns : ∀ {s m o s'}, enter s m → c s o s' → ∃ m', Reaches step m m' ∧ leave o s' m'
  diverges : ∀ {s m}, enter s m → (∀ o s', ¬c s o s') → Diverges step m

section
variable {M α σ ω : Type} {step : M → Option M} {enter enter' : σ → M → Prop}
  {leave leave' : Exit ω → σ → M → Prop} {c d : Cmd σ ω}

theorem realises_act {f : σ → Exit ω × σ}
    (h : ∀ s m, enter s m → ∃ m', Reaches step m m' ∧ leave (f s).1 (f s).2 m') :
    Realises step enter (act f) leave := by
  refine ⟨fun {s m o s'} hm hf => ?_, fun {s m} _ hnone => (hnone (f s).1 (f s).2 rfl).elim⟩
  have hrun := h s m hm
  rw [show f s = (o, s') from hf] at hrun
  exact hrun

theorem realises_exit (o : Exit ω) : Realises step (leave o) (exit o) leave :=
  realises_act fun _ m hm => ⟨m, .refl m, hm⟩

/-- Steps in front of a command. -/
theorem Realises.front (h : Realises step enter c leave)
    (henter : ∀ s m, enter' s m → ∃ m', Reaches step m m' ∧ enter s m') :
    Realises step enter' c leave := by
  constructor
  · intro s m o s' hm hc
    obtain ⟨m₁, hreach, hm₁⟩ := henter s m hm
    obtain ⟨m₂, hreach', hm₂⟩ := h.returns hm₁ hc
    exact ⟨m₂, hreach.trans hreach', hm₂⟩
  · intro s m hm hnone
    obtain ⟨m₁, hreach, hm₁⟩ := henter s m hm
    exact (h.diverges hm₁ hnone).of_reaches hreach

/-- Steps behind it. -/
theorem Realises.back (h : Realises step enter c leave')
    (hleave : ∀ o s m, leave' o s m → ∃ m', Reaches step m m' ∧ leave o s m') :
    Realises step enter c leave := by
  refine ⟨fun hm hc => ?_, h.diverges⟩
  obtain ⟨m₁, hreach, hm₁⟩ := h.returns hm hc
  obtain ⟨m₂, hreach', hm₂⟩ := hleave _ _ _ hm₁
  exact ⟨m₂, hreach.trans hreach', hm₂⟩

theorem Realises.mono (h : Realises step enter c leave') (henter : ∀ s m, enter' s m → enter s m)
    (hleave : ∀ o s m, leave' o s m → leave o s m) : Realises step enter' c leave :=
  (h.front fun s m hm => ⟨m, .refl m, henter s m hm⟩).back
    fun o s m hm => ⟨m, .refl m, hleave o s m hm⟩

/-- What a command says of its states, beside where the machine is. -/
theorem Realises.spec {pre : σ → Prop} {post : Exit ω → σ → Prop} (h : Realises step enter c leave)
    (hspec : ∀ {s o s'}, pre s → c s o s' → post o s') :
    Realises step (fun s m => pre s ∧ enter s m) c (fun o s m => post o s ∧ leave o s m) := by
  refine ⟨fun {s m o s'} hm hc => ?_, fun hm hnone => h.diverges hm.2 hnone⟩
  obtain ⟨m', hreach, hm'⟩ := h.returns hm.2 hc
  exact ⟨m', hreach, hspec hm.1 hc, hm'⟩

theorem Realises.andThen {k : Exit ω → Cmd σ ω} {mid : Exit ω → σ → M → Prop}
    (h : Realises step enter c mid) (hk : ∀ o, Realises step (mid o) (k o) leave) :
    Realises step enter (andThen c k) leave := by
  constructor
  · rintro s m o s' hm ⟨o₁, s₁, hc, hrest⟩
    obtain ⟨m₁, hreach, hm₁⟩ := h.returns hm hc
    obtain ⟨m₂, hreach', hm₂⟩ := (hk o₁).returns hm₁ hrest
    exact ⟨m₂, hreach.trans hreach', hm₂⟩
  · intro s m hm hnone
    by_cases hc : ∃ o₁ s₁, c s o₁ s₁
    · obtain ⟨o₁, s₁, hc⟩ := hc
      obtain ⟨m₁, hreach, hm₁⟩ := h.returns hm hc
      exact ((hk o₁).diverges hm₁ fun o s' hrest =>
        hnone o s' ⟨o₁, s₁, hc, hrest⟩).of_reaches hreach
    · exact h.diverges hm fun o₁ s₁ hc' => hc ⟨o₁, s₁, hc'⟩

/-- The exits of the first of two commands: the entry of the second, or those of both. -/
def leaveTo (mid : σ → M → Prop) (leave : Exit ω → σ → M → Prop) : Exit ω → σ → M → Prop
  | .next => mid
  | o => leave o

theorem Realises.seq {mid : σ → M → Prop} (h : Realises step enter c (leaveTo mid leave))
    (hd : Realises step mid d leave) : Realises step enter (seq c d) leave := by
  refine h.andThen fun o => ?_
  cases o with
  | next => exact hd
  | brk =>
    show Realises step (leave .brk) (exit .brk) leave
    exact realises_exit .brk
  | cont =>
    show Realises step (leave .cont) (exit .cont) leave
    exact realises_exit .cont
  | stop why =>
    show Realises step (leave (.stop why)) (exit (.stop why)) leave
    exact realises_exit (.stop why)

theorem Realises.cond {b : σ → Bool}
    (hc : Realises step (fun s m => enter s m ∧ b s = true) c leave)
    (hd : Realises step (fun s m => enter s m ∧ b s = false) d leave) :
    Realises step enter (cond b c d) leave := by
  constructor
  · intro s m o s' hm hrun
    unfold Commands.cond at hrun
    split at hrun
    · exact hc.returns ⟨hm, ‹_›⟩ hrun
    · exact hd.returns ⟨hm, Bool.not_eq_true _ ▸ ‹_›⟩ hrun
  · intro s m hm hnone
    unfold Commands.cond at hnone
    split at hnone
    · exact hc.diverges ⟨hm, ‹_›⟩ hnone
    · exact hd.diverges ⟨hm, Bool.not_eq_true _ ▸ ‹_›⟩ hnone

/-- **A loop**: its body comes back to the head of the loop, in a step at least. -/
theorem Realises.loop {head : σ → M → Prop} {mid : Exit ω → σ → M → Prop}
    (h : Realises step head c mid)
    (hagain : ∀ s m, mid .next s m ∨ mid .cont s m → ∃ m', ReachesPlus step m m' ∧ head s m')
    (hbrk : ∀ s m, mid .brk s m → ∃ m', Reaches step m m' ∧ leave .next s m')
    (hstop : ∀ why s m, mid (.stop why) s m → ∃ m', Reaches step m m' ∧ leave (.stop why) s m') :
    Realises step head (loop c) leave := by
  have hround : ∀ {s m o s₁}, head s m → c s o s₁ → o = .next ∨ o = .cont →
      ∃ m', ReachesPlus step m m' ∧ head s₁ m' := by
    intro s m o s₁ hm hc ho
    obtain ⟨m₁, hreach, hm₁⟩ := h.returns hm hc
    have hmid : mid .next s₁ m₁ ∨ mid .cont s₁ m₁ := by
      rcases ho with rfl | rfl
      · exact .inl hm₁
      · exact .inr hm₁
    obtain ⟨m₂, hreach', hm₂⟩ := hagain s₁ m₁ hmid
    exact ⟨m₂, .trans_right hreach hreach', hm₂⟩
  constructor
  · intro s m o s' hm hrun
    induction hrun generalizing m with
    | again hc ho _ ih =>
      obtain ⟨m₁, hreach, hm₁⟩ := hround hm hc ho
      obtain ⟨m₂, hreach', hm₂⟩ := ih hm₁
      exact ⟨m₂, hreach.reaches.trans hreach', hm₂⟩
    | brk hc =>
      obtain ⟨m₁, hreach, hm₁⟩ := h.returns hm hc
      obtain ⟨m₂, hreach', hm₂⟩ := hbrk _ _ hm₁
      exact ⟨m₂, hreach.trans hreach', hm₂⟩
    | stop hc =>
      obtain ⟨m₁, hreach, hm₁⟩ := h.returns hm hc
      obtain ⟨m₂, hreach', hm₂⟩ := hstop _ _ _ hm₁
      exact ⟨m₂, hreach.trans hreach', hm₂⟩
  · intro s m hm hnone
    refine diverges_of_again (X := fun m => ∃ s, head s m ∧ ∀ o s', ¬Commands.loop c s o s')
      ?_ ⟨s, hm, hnone⟩
    rintro m ⟨s, hm, hnone⟩
    by_cases hc : ∃ o s₁, c s o s₁
    · obtain ⟨o, s₁, hc⟩ := hc
      have hgo : o = .next ∨ o = .cont → ∃ m₁, ReachesPlus step m m₁ ∧
          ∃ s, head s m₁ ∧ ∀ o s', ¬Commands.loop c s o s' := by
        intro ho
        obtain ⟨m₁, hreach, hm₁⟩ := hround hm hc ho
        exact ⟨m₁, hreach, s₁, hm₁, fun o' s' hrun => hnone o' s' (.again hc ho hrun)⟩
      cases o with
      | next => exact .inr (hgo (.inl rfl))
      | cont => exact .inr (hgo (.inr rfl))
      | brk => exact (hnone _ _ (.brk hc)).elim
      | stop why => exact (hnone _ _ (.stop hc)).elim
    · exact .inl (h.diverges hm fun o s₁ hc' => hc ⟨o, s₁, hc'⟩)

theorem Realises.inner {a : α} {c : Cmd (α × σ) ω} {enter : α → α × σ → M → Prop}
    {leave : α → Exit ω → α × σ → M → Prop} (h : ∀ x, Realises step (enter x) c (leave x)) :
    Realises step (fun s m => enter s.1 (a, s.2) m) (inner a c)
      (fun o s m => ∃ b, leave s.1 o (b, s.2) m) := by
  constructor
  · rintro s m o s' hm ⟨b, hc, hsame⟩
    obtain ⟨m', hreach, hm'⟩ := (h s.1).returns hm hc
    exact ⟨m', hreach, b, by rw [hsame]; exact hm'⟩
  · rintro ⟨x, s⟩ m hm hnone
    exact (h x).diverges hm fun o s' hc => hnone o (x, s'.2) ⟨s'.1, hc, rfl⟩

end

end Commands
