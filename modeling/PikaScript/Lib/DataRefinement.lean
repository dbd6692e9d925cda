import PikaScript.Lib.Commands

/-! Commands over two kinds of states.

An abstract command describes a concrete one between relations of their states, one for the
entry and one for each exit (`Describes`): where one is left the other is. The abstract
command may stop for no reason, and then it says nothing of the concrete one. There is a
rule for each way to build commands. -/
namespace Commands

/-- An exit with a reason that may be none. -/
def Exit.known {ω : Type} : Exit ω → Exit (Option ω)
  | next => .next
  | brk => .brk
  | cont => .cont
  | stop why => .stop (some why)

theorem Exit.known_inj {ω : Type} {o o' : Exit ω} (h : o.known = o'.known) : o = o' := by
  cases o <;> cases o' <;> cases h <;> rfl

theorem Exit.known_or {ω : Type} (o : Exit (Option ω)) :
    o = .stop none ∨ ∃ o' : Exit ω, o = o'.known := by
  cases o with
  | next => exact .inr ⟨.next, rfl⟩
  | brk => exact .inr ⟨.brk, rfl⟩
  | cont => exact .inr ⟨.cont, rfl⟩
  | stop why => cases why with
    | none => exact .inl rfl
    | some why => exact .inr ⟨.stop why, rfl⟩

theorem Exit.known_ne {ω : Type} (o : Exit ω) : o.known ≠ .stop none := by
  intro h
  cases o <;> cases h

/-- **An abstract command describes a concrete one.** -/
structure Describes {τ σ ω : Type} (pre : τ → σ → Prop) (d : Cmd τ (Option ω)) (c : Cmd σ ω)
    (post : Exit ω → τ → σ → Prop) : Prop where
  forth : ∀ {t s o t'}, pre t s → d t o.known t' → ∃ s', c s o s' ∧ post o t' s'
  back : ∀ {t s o s'}, pre t s → c s o s' →
    (∃ t', d t (.stop none) t') ∨ ∃ t', d t o.known t' ∧ post o t' s'

section
variable {α τ σ ω : Type} {pre pre' : τ → σ → Prop} {post post' : Exit ω → τ → σ → Prop}
  {d d' : Cmd τ (Option ω)} {c c' : Cmd σ ω}

/-- What two commands that are done at once come to. -/
def Matches (post : Exit ω → τ → σ → Prop) (t : Exit (Option ω) × τ) (s : Exit ω × σ) : Prop :=
  t.1 = .stop none ∨ t.1 = s.1.known ∧ post s.1 t.2 s.2

theorem describes_act {f : τ → Exit (Option ω) × τ} {g : σ → Exit ω × σ}
    (h : ∀ t s, pre t s → Matches post (f t) (g s)) : Describes pre (act f) (act g) post := by
  constructor
  · intro t s o t' hpre hf
    have hf : f t = (o.known, t') := hf
    have hmatch := h t s hpre
    rw [hf] at hmatch
    rcases hmatch with hnone | ⟨ho, hpost⟩
    · exact (o.known_ne hnone).elim
    · have ho := Exit.known_inj ho
      subst ho
      exact ⟨(g s).2, rfl, hpost⟩
  · intro t s o s' hpre hg
    have hg : g s = (o, s') := hg
    have hmatch := h t s hpre
    rw [hg] at hmatch
    rcases hmatch with hnone | ⟨ho, hpost⟩
    · exact .inl ⟨(f t).2, by rw [← hnone]; rfl⟩
    · exact .inr ⟨(f t).2, by rw [← ho]; rfl, hpost⟩

theorem describes_exit (o : Exit ω) (h : ∀ t s, pre t s → post o t s) :
    Describes pre (exit o.known) (exit o) post :=
  describes_act fun t s hpre => .inr ⟨rfl, h t s hpre⟩

/-- An exit that is passed on. -/
theorem describes_pass (o : Exit ω) : Describes (post o) (exit o.known) (exit o) post :=
  describes_exit o fun _ _ hpost => hpost

theorem Describes.mono (h : Describes pre' d c post') (hpre : ∀ t s, pre t s → pre' t s)
    (hpost : ∀ o t s, post' o t s → post o t s) : Describes pre d c post := by
  constructor
  · intro t s o t' ht hd
    obtain ⟨s', hc, hs'⟩ := h.forth (hpre t s ht) hd
    exact ⟨s', hc, hpost _ _ _ hs'⟩
  · intro t s o s' ht hc
    rcases h.back (hpre t s ht) hc with hnone | ⟨t', hd, ht'⟩
    · exact .inl hnone
    · exact .inr ⟨t', hd, hpost _ _ _ ht'⟩

/-- What the abstract command does not see. -/
theorem Describes.front {g : σ → σ} (h : Describes pre' d c post)
    (hpre : ∀ t s, pre t s → pre' t (g s)) :
    Describes pre d (seq (act fun s => (.next, g s)) c) post := by
  constructor
  · intro t s o t' ht hd
    obtain ⟨s', hc, hs'⟩ := h.forth (hpre t s ht) hd
    exact ⟨s', ⟨.next, g s, rfl, hc⟩, hs'⟩
  · rintro t s o s' ht ⟨o₁, s₁, hg, hc⟩
    cases hg
    exact h.back (hpre t s ht) hc

theorem Describes.andThen {k : Exit (Option ω) → Cmd τ (Option ω)} {l : Exit ω → Cmd σ ω}
    {mid : Exit ω → τ → σ → Prop} (h : Describes pre d c mid)
    (hnone : k (.stop none) = exit (.stop none))
    (hk : ∀ o : Exit ω, Describes (mid o) (k o.known) (l o) post) :
    Describes pre (andThen d k) (andThen c l) post := by
  constructor
  · rintro t s o t' ht ⟨o₁, t₁, hd, hrest⟩
    rcases o₁.known_or with rfl | ⟨o₁, rfl⟩
    · rw [hnone] at hrest
      have hrest : (Exit.stop none, t₁) = (o.known, t') := hrest
      exact (o.known_ne (congrArg Prod.fst hrest).symm).elim
    · obtain ⟨s₁, hc, hmid⟩ := h.forth ht hd
      obtain ⟨s', hl, hs'⟩ := (hk o₁).forth hmid hrest
      exact ⟨s', ⟨o₁, s₁, hc, hl⟩, hs'⟩
  · rintro t s o s' ht ⟨o₁, s₁, hc, hrest⟩
    rcases h.back ht hc with ⟨t₁, hd⟩ | ⟨t₁, hd, hmid⟩
    · exact .inl ⟨t₁, .stop none, t₁, hd, by rw [hnone]; rfl⟩
    · rcases (hk o₁).back hmid hrest with ⟨t', hd'⟩ | ⟨t', hd', ht'⟩
      · exact .inl ⟨t', o₁.known, t₁, hd, hd'⟩
      · exact .inr ⟨t', ⟨o₁.known, t₁, hd, hd'⟩, ht'⟩

/-- The exits of the first of two commands. -/
def nextTo (mid : τ → σ → Prop) (post : Exit ω → τ → σ → Prop) : Exit ω → τ → σ → Prop
  | .next => mid
  | o => post o

theorem Describes.seq {mid : τ → σ → Prop} (h : Describes pre d c (nextTo mid post))
    (h' : Describes mid d' c' post) : Describes pre (seq d d') (seq c c') post := by
  refine h.andThen rfl fun o => ?_
  cases o with
  | next => exact h'
  | brk => exact @describes_pass τ σ ω post .brk
  | cont => exact @describes_pass τ σ ω post .cont
  | stop why => exact @describes_pass τ σ ω post (.stop why)

theorem Describes.cond {b : τ → Bool} {b' : σ → Bool} (hb : ∀ t s, pre t s → b t = b' s)
    (h : Describes pre d c post) (h' : Describes pre d' c' post) :
    Describes pre (cond b d d') (cond b' c c') post := by
  constructor
  · intro t s o t' ht hrun
    have hbt := hb t s ht
    unfold Commands.cond at hrun ⊢
    cases hbs : b' s with
    | true =>
      rw [hbt, hbs] at hrun
      exact h.forth ht hrun
    | false =>
      rw [hbt, hbs] at hrun
      exact h'.forth ht hrun
  · intro t s o s' ht hrun
    have hbt := hb t s ht
    unfold Commands.cond at hrun ⊢
    cases hbs : b' s with
    | true =>
      rw [hbs] at hrun hbt
      rw [hbt]
      exact h.back ht hrun
    | false =>
      rw [hbs] at hrun hbt
      rw [hbt]
      exact h'.back ht hrun

/-- **A loop**, by what is true at its head. -/
theorem Describes.loop {head : τ → σ → Prop} {mid : Exit ω → τ → σ → Prop}
    (h : Describes head d c mid) (hagain : ∀ t s, mid .next t s ∨ mid .cont t s → head t s)
    (hbrk : ∀ t s, mid .brk t s → post .next t s)
    (hstop : ∀ why t s, mid (.stop why) t s → post (.stop why) t s) :
    Describes head (loop d) (loop c) post := by
  have hround : ∀ {o : Exit ω} {t s}, o = .next ∨ o = .cont → mid o t s → head t s := by
    rintro o t s (rfl | rfl) hmid
    · exact hagain t s (.inl hmid)
    · exact hagain t s (.inr hmid)
  constructor
  · intro t s o t' ht hrun
    generalize ho : o.known = o' at hrun
    induction hrun generalizing s with
    | @again t o₁ t₁ o' t' hd ho₁ _ ih =>
      obtain ⟨o₂, hknown, ho₂⟩ : ∃ o₂ : Exit ω, o₁ = o₂.known ∧ (o₂ = .next ∨ o₂ = .cont) := by
        rcases ho₁ with rfl | rfl
        · exact ⟨.next, rfl, .inl rfl⟩
        · exact ⟨.cont, rfl, .inr rfl⟩
      subst hknown
      obtain ⟨s₁, hc, hmid⟩ := h.forth ht hd
      obtain ⟨s', hloop, hs'⟩ := ih (hround ho₂ hmid) ho
      exact ⟨s', .again hc ho₂ hloop, hs'⟩
    | @brk t t' hd =>
      have ho : o.known = Exit.known .next := ho
      have ho := Exit.known_inj ho
      subst ho
      obtain ⟨s₁, hc, hmid⟩ := h.forth (o := .brk) ht hd
      exact ⟨s₁, .brk hc, hbrk _ _ hmid⟩
    | @stop t why t' hd =>
      cases why with
      | none => exact (o.known_ne ho).elim
      | some why =>
        have ho : o.known = Exit.known (.stop why) := ho
        have ho := Exit.known_inj ho
        subst ho
        obtain ⟨s₁, hc, hmid⟩ := h.forth (o := .stop why) ht hd
        exact ⟨s₁, .stop hc, hstop why _ _ hmid⟩
  · intro t s o s' ht hrun
    induction hrun generalizing t with
    | again hc ho _ ih =>
      rcases h.back ht hc with ⟨t₁, hd⟩ | ⟨t₁, hd, hmid⟩
      · exact .inl ⟨t₁, .stop hd⟩
      · have hknown : ∀ {o : Exit ω}, o = .next ∨ o = .cont →
            o.known = .next ∨ o.known = .cont := by
          rintro o (rfl | rfl)
          · exact .inl rfl
          · exact .inr rfl
        rcases ih (hround ho hmid) with ⟨t', hloop⟩ | ⟨t', hloop, ht'⟩
        · exact .inl ⟨t', .again hd (hknown ho) hloop⟩
        · exact .inr ⟨t', .again hd (hknown ho) hloop, ht'⟩
    | brk hc =>
      rcases h.back ht hc with ⟨t₁, hd⟩ | ⟨t₁, hd, hmid⟩
      · exact .inl ⟨t₁, .stop hd⟩
      · exact .inr ⟨t₁, .brk hd, hbrk _ _ hmid⟩
    | stop hc =>
      rcases h.back ht hc with ⟨t₁, hd⟩ | ⟨t₁, hd, hmid⟩
      · exact .inl ⟨t₁, .stop hd⟩
      · exact .inr ⟨t₁, .stop hd, hstop _ _ _ hmid⟩

/-- States with the same variable. -/
def Same (R : τ → σ → Prop) (t : α × τ) (s : α × σ) : Prop := t.1 = s.1 ∧ R t.2 s.2

theorem Describes.inner {R : τ → σ → Prop} {S : Exit ω → τ → σ → Prop} {a : α}
    {d : Cmd (α × τ) (Option ω)} {c : Cmd (α × σ) ω}
    (h : Describes (Same R) d c fun o => Same (S o)) :
    Describes (Same R) (inner a d) (inner a c) fun o => Same (S o) := by
  constructor
  · rintro ⟨x, t⟩ ⟨y, s⟩ o ⟨x', t'⟩ ⟨hsame, ht⟩ ⟨b, hd, hx⟩
    obtain ⟨⟨b', s'⟩, hc, -, hs'⟩ := h.forth (t := (a, t)) (s := (a, s)) ⟨rfl, ht⟩ hd
    exact ⟨(y, s'), ⟨b', hc, rfl⟩, hx.trans hsame, hs'⟩
  · rintro ⟨x, t⟩ ⟨y, s⟩ o ⟨y', s'⟩ ⟨hsame, ht⟩ ⟨b, hc, hy⟩
    rcases h.back (t := (a, t)) (s := (a, s)) ⟨rfl, ht⟩ hc with ⟨⟨b', t'⟩, hd⟩ |
      ⟨⟨b', t'⟩, hd, -, ht'⟩
    · exact .inl ⟨(x, t'), b', hd, rfl⟩
    · exact .inr ⟨(x, t'), ⟨b', hd, rfl⟩, hsame.trans hy.symm, ht'⟩

end

/-! ### Commands in a row -/

section
variable {σ ω : Type}

end

end Commands
