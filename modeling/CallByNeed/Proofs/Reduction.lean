import CallByNeed.Proofs.Nameless

/-!
# Reduction

A program gives terms to some addresses, those of the names that its modules
bind.  `HeadStep` is call-by-name reduction at the head of a term: a bound name
is unfolded and an abstraction takes its argument as it is.  `Reduces` does the
same anywhere in a term and any number of times.
-/

variable {next b : Nameless} {args : List Nameless}

namespace CallByNeed

variable {a : Address}

/-- The terms of the names that are bound in modules. -/
abbrev Definitions := Address → Option Nameless

/-- A program that refers only to its own names. -/
structure Definitions.SelfContained (pg : Definitions) : Prop where
  closed : ∀ {a t}, pg a = some t → t.ClosedAt 0
  defined : ∀ {a t}, pg a = some t →
    ∀ o, t.Occurs o → (pg o).isSome

/-- One step of call-by-name reduction to weak head normal form. -/
inductive HeadStep (pg : Definitions) : Nameless → Nameless → Prop where
  | unfold {a t} (defined : pg a = some t) : HeadStep pg (.free a) t
  | beta {b arg} : HeadStep pg (.app (.lam b) arg) (b.instantiate 0 arg)
  | left {f reduced arg} (step : HeadStep pg f reduced) :
      HeadStep pg (.app f arg) (.app reduced arg)

/-- A number of steps at the head. -/
inductive HeadSteps (pg : Definitions) : Nat → Nameless → Nameless → Prop where
  | refl (t : Nameless) : HeadSteps pg 0 t t
  | step {k : Nat} {fst next last : Nameless} (step : HeadStep pg fst next)
      (sts : HeadSteps pg k next last) : HeadSteps pg (k + 1) fst last

/-- One step anywhere in a term. -/
inductive Reduction (pg : Definitions) : Nameless → Nameless → Prop where
  | unfold {a t} (defined : pg a = some t) : Reduction pg (.free a) t
  | beta {b arg} : Reduction pg (.app (.lam b) arg) (b.instantiate 0 arg)
  | lam {b reduced} (step : Reduction pg b reduced) : Reduction pg (.lam b) (.lam reduced)
  | left {f reduced arg} (step : Reduction pg f reduced) :
      Reduction pg (.app f arg) (.app reduced arg)
  | right {f arg reduced} (step : Reduction pg arg reduced) :
      Reduction pg (.app f arg) (.app f reduced)

/-- Finitely many steps anywhere in a term. -/
abbrev Reduces (pg : Definitions) : Nameless → Nameless → Prop :=
  Relation.ReflTransGen (Reduction pg)

/-- Reduction at the head never ends. -/
def Diverges (pg : Definitions) (t : Nameless) : Prop := ∀ k, ∃ reduced, HeadSteps pg k t reduced

/-- What stands at the head of a term. -/
def Nameless.head : Nameless → Nameless
  | .app f _ => f.head
  | t => t

theorem Nameless.head_apply (f : Nameless) (args : List Nameless) :
    (f.apply args).head = f.head := by
  induction args generalizing f with
  | nil => rfl
  | cons arg args ih => exact ih _

variable {pg : Definitions} {reduced t fst last f : Nameless} {k few many : Nat}

namespace HeadStep

theorem not_lam : ¬ HeadStep pg (.lam b) reduced := by
  intro step
  cases step

theorem determines {snd : Nameless} (step : HeadStep pg t fst) (again : HeadStep pg t snd) :
    fst = snd := by
  induction step generalizing snd with
  | unfold defined =>
    cases again with
    | unfold same => exact Option.some.inj (defined.symm.trans same)
  | beta =>
    cases again with
    | beta => rfl
    | left step => exact absurd step not_lam
  | left step ih =>
    cases again with
    | beta => exact absurd step not_lam
    | left o => rw [ih o]

theorem head_ne_missing (step : HeadStep pg t reduced) (x : Name) : t.head ≠ .missing x := by
  induction step with
  | unfold defined => simp [Nameless.head]
  | beta => simp [Nameless.head]
  | left step ih => exact ih

theorem reduction (step : HeadStep pg t reduced) : Reduction pg t reduced := by
  induction step with
  | unfold defined => exact .unfold defined
  | beta => exact .beta
  | left step ih => exact .left ih

theorem occurs (selfc : pg.SelfContained) (step : HeadStep pg t reduced)
    (occurs : reduced.Occurs a) : t.Occurs a ∨ (pg a).isSome := by
  induction step with
  | unfold defined => exact .inr (selfc.defined defined a occurs)
  | beta => exact .inl occurs.instantiate
  | left step ih =>
    rcases occurs with l | r
    · exact (ih l).imp_left .inl
    · exact .inl (.inr r)

end HeadStep

namespace HeadSteps

theorem trans {fr bk : Nat} (sts : HeadSteps pg fr fst next)
    (more : HeadSteps pg bk next last) : HeadSteps pg (fr + bk) fst last := by
  induction sts with
  | refl => simpa using more
  | step step _ ih =>
    have joined := HeadSteps.step step (ih more)
    grind

theorem single (step : HeadStep pg fst next) : HeadSteps pg 1 fst next :=
  .step step (.refl next)

theorem left (sts : HeadSteps pg k f reduced) (arg : Nameless) :
    HeadSteps pg k (.app f arg) (.app reduced arg) := by
  induction sts with
  | refl => exact .refl _
  | step step _ ih => exact .step (.left step) ih

theorem apply (sts : HeadSteps pg k f reduced) (args : List Nameless) :
    HeadSteps pg k (f.apply args) (reduced.apply args) := by
  induction args generalizing f reduced with
  | nil => exact sts
  | cons arg args ih => exact ih (sts.left arg)

/-- Reduction is deterministic: of two rows of steps the longer one goes on
from the end of the other. -/
theorem rest (sts : HeadSteps pg few t fst) (more : HeadSteps pg many t last) (le : few ≤ many) :
    HeadSteps pg (many - few) fst last := by
  induction sts generalizing many with
  | refl => simpa using more
  | step step _ ih =>
    cases more with
    | refl => omega
    | step o later =>
      rw [step.determines o] at ih
      simp_all

theorem front (sts : HeadSteps pg many t last) (le : few ≤ many) :
    ∃ mid, HeadSteps pg few t mid := by
  induction sts generalizing few with
  | refl t =>
    obtain rfl : few = 0 := by omega
    exact ⟨t, .refl t⟩
  | step step _ ih =>
    cases few with
    | zero => exact ⟨_, .refl _⟩
    | succ few =>
      obtain ⟨mid, sts⟩ := ih (Nat.le_of_succ_le_succ le)
      exact ⟨mid, .step step sts⟩

theorem reduces (sts : HeadSteps pg k t reduced) : Reduces pg t reduced := by
  induction sts with
  | refl => exact .refl
  | step step _ ih => exact .head step.reduction ih

theorem occurs (selfc : pg.SelfContained) (sts : HeadSteps pg k t reduced)
    (occurs : reduced.Occurs a) : t.Occurs a ∨ (pg a).isSome := by
  induction sts with
  | refl => exact .inl occurs
  | step step _ ih =>
    rcases ih occurs with next | defined
    · exact step.occurs selfc next
    · exact .inr defined

end HeadSteps

/-- A term where reduction ends. -/
def Final (pg : Definitions) (t : Nameless) : Prop := ∀ reduced, ¬ HeadStep pg t reduced

theorem final_lam (b : Nameless) : Final pg (.lam b) := fun _ => HeadStep.not_lam

theorem final_of_missing (missing : t.head = .missing x) : Final pg t :=
  fun _ step => step.head_ne_missing x missing

theorem HeadSteps.final (sts : HeadSteps pg few t fst) (more : HeadSteps pg many t last)
    (ends : Final pg fst) : many ≤ few ∧ HeadSteps pg (few - many) last fst := by
  have le : many ≤ few := by
    by_contra less
    have rest := sts.rest more (by omega)
    cases counted : many - few with
    | zero => omega
    | succ k =>
      rw [counted] at rest
      cases rest with
      | step step _ => exact ends _ step
  exact ⟨le, more.rest sts le⟩

theorem HeadSteps.final_eq (sts : HeadSteps pg few t fst) (more : HeadSteps pg many t last)
    (ends : Final pg fst) (lastEnds : Final pg last) : fst = last := by
  obtain ⟨_, rest⟩ := sts.final more ends
  cases counted : few - many with
  | zero =>
    rw [counted] at rest
    cases rest
    rfl
  | succ k =>
    rw [counted] at rest
    cases rest with
    | step step _ => exact absurd step (lastEnds _)

namespace Diverges

theorem of_steps (sts : HeadSteps pg k t reduced) (diverges : Diverges pg reduced) :
    Diverges pg t := by
  intro many
  obtain ⟨last, more⟩ := diverges many
  exact (sts.trans more).front (Nat.le_add_left many k)

theorem apply (diverges : Diverges pg f) (args : List Nameless) : Diverges pg (f.apply args) := by
  intro k
  obtain ⟨reduced, sts⟩ := diverges k
  exact ⟨_, sts.apply args⟩

/-- A term that comes back to itself at the head is reduced for ever. -/
theorem of_cycle (sts : HeadSteps pg (k + 1) t (t.apply args)) :
    Diverges pg t := by
  have rounds : ∀ many, ∃ taken out, many ≤ taken ∧ HeadSteps pg taken t (t.apply out) := by
    intro many
    induction many with
    | zero => exact ⟨0, [], Nat.le_refl 0, .refl t⟩
    | succ many ih =>
      obtain ⟨taken, out, le, bef⟩ := ih
      refine ⟨taken + (k + 1), args ++ out, by omega, ?_⟩
      rw [Nameless.apply_append]
      exact bef.trans (sts.apply out)
  intro many
  obtain ⟨taken, out, le, sts⟩ := rounds many
  exact sts.front le

theorem not_final (diverges : Diverges pg t) (sts : HeadSteps pg k t reduced) :
    ¬ Final pg reduced := by
  intro ends
  obtain ⟨last, more⟩ := diverges (k + 1)
  have := (sts.final more ends).1
  omega

end Diverges

theorem ends_of_not_diverges (ends : ¬ Diverges pg t) :
    ∃ k ending, HeadSteps pg k t ending ∧ Final pg ending := by
  by_contra goesOn
  simp only [not_exists, not_and] at goesOn
  refine ends fun k => ?_
  induction k with
  | zero => exact ⟨t, .refl t⟩
  | succ k ih =>
    obtain ⟨reduced, sts⟩ := ih
    have continues := goesOn k reduced sts
    simp only [Final, not_forall, not_not] at continues
    obtain ⟨next, step⟩ := continues
    exact ⟨next, sts.trans (.step step (.refl next))⟩

namespace Reduces

theorem lam (reduces : Reduces pg b reduced) : Reduces pg (.lam b) (.lam reduced) :=
  reduces.lift _ fun _ _ => .lam

theorem app {arg o : Nameless} (l : Reduces pg f reduced) (r : Reduces pg arg o) :
    Reduces pg (.app f arg) (.app reduced o) := by
  have fst : Reduces pg (.app f arg) (.app reduced arg) :=
    l.lift (Nameless.app · arg) fun _ _ => .left
  have snd : Reduces pg (.app reduced arg) (.app reduced o) :=
    r.lift (Nameless.app reduced) fun _ _ => .right
  exact fst.trans snd

theorem apply {os : List Nameless} (l : Reduces pg f reduced)
    (r : List.Forall₂ (Reduces pg) args os) : Reduces pg (f.apply args) (reduced.apply os) := by
  induction r generalizing f reduced with
  | nil => exact l
  | cons fst _ ih => exact ih (l.app fst)

end Reduces

/-- Closing a variable that the program does not define goes through a step. -/
theorem Reduction.close (selfc : pg.SelfContained) (undefined : pg a = none)
    (step : Reduction pg t reduced) (dp : Nat) :
    Reduction pg (t.close a dp) (reduced.close a dp) := by
  induction step generalizing dp with
  | @unfold o t defined =>
    have differ : o ≠ a := by grind
    have fresh : ¬ t.Occurs a := by
      intro occurs
      simpa [undefined] using selfc.defined defined a occurs
    rw [Nameless.close_of_closedAt (selfc.closed defined) (Nat.zero_le dp) fresh]
    simp only [Nameless.close, if_neg differ]
    exact .unfold defined
  | @beta b arg =>
    rw [Nameless.close_instantiate_comm _ _ _ (Nat.zero_le dp)]
    exact .beta
  | lam step ih => exact .lam (ih (dp + 1))
  | left step ih => exact .left (ih dp)
  | right step ih => exact .right (ih dp)

theorem Reduces.close (selfc : pg.SelfContained) (undefined : pg a = none)
    (reduces : Reduces pg t reduced) (dp : Nat) : Reduces pg (t.close a dp) (reduced.close a dp) :=
  reduces.lift _ fun _ _ step => step.close selfc undefined dp

end CallByNeed
