import CallByNeed.Proofs.Reduction

/-!
# Standard reductions

A reduction anywhere in a term can be done in another order: first at the head,
until the term has the outer shape of the result, and then in the parts.  Such
a reduction is `Standard`, and `Reduces.standard` reorders any other.  So the
order in which the machine works misses no result.
-/

namespace CallByNeed

variable {lv dp k : Nat} {t reduced r : Nameless}

namespace Nameless

theorem lift_lift (t : Nameless) {low high : Nat} (le : low ≤ high) :
    (t.lift low).lift (high + 1) = (t.lift high).lift low := by
  induction t generalizing low high with
  | bound i => grind [lift]
  | free a => rfl
  | missing x => rfl
  | lam b ih => simp only [lift, ih (Nat.succ_le_succ le)]
  | app f arg ihF ihA => grind [lift]

/-- A term does not refer to a binder that it was just given room for. -/
theorem instantiate_lift (t : Nameless) (lv : Nat) (repl : Nameless) :
    (t.lift lv).instantiate lv repl = t := by
  induction t generalizing lv repl with
  | bound i => grind [lift, instantiate]
  | free a => rfl
  | missing x => rfl
  | lam b ih => simp only [lift, instantiate, ih]
  | app f arg ihF ihA =>
    simp only [lift, instantiate, ihF, ihA]

theorem lift_instantiate (t repl : Nameless) (le : lv ≤ dp) :
    (t.instantiate lv repl).lift dp = (t.lift (dp + 1)).instantiate lv (repl.lift dp) := by
  induction t generalizing repl lv dp with
  | bound i => grind [lift, instantiate]
  | free a => rfl
  | missing x => rfl
  | lam b ih => simp_all [lift, instantiate, lift_lift]
  | app f arg ihF ihA => grind [lift, instantiate]

theorem instantiate_lift_comm (t repl : Nameless) (le : lv ≤ dp) :
    (t.lift lv).instantiate (dp + 1) (repl.lift lv) = (t.instantiate dp repl).lift lv := by
  induction t generalizing repl lv dp with
  | bound i => grind [lift, instantiate]
  | free a => rfl
  | missing x => rfl
  | lam b ih =>
    simp only [lift, instantiate, ← ih _ (Nat.succ_le_succ le), lift_lift repl (Nat.zero_le lv)]
  | app f arg ihF ihA => grind [lift, instantiate]

theorem instantiate_instantiate (t arg repl : Nameless) (le : lv ≤ dp) :
    (t.instantiate lv arg).instantiate dp repl =
      (t.instantiate (dp + 1) (repl.lift lv)).instantiate lv (arg.instantiate dp repl) := by
  induction t generalizing arg repl lv dp with
  | bound i => grind [instantiate, instantiate_lift]
  | free a => rfl
  | missing x => rfl
  | lam b ih => simp_all [instantiate, instantiate_lift_comm, lift_lift]
  | app f arg ihF ihA => grind [instantiate]

end Nameless

/-- A reduction that does at the head what has to be done there, and then goes on in the
parts of the term. -/
inductive Standard (pg : Definitions) : Nameless → Nameless → Prop where
  | atom {k : Nat} {t r : Nameless} (sts : HeadSteps pg k t r)
      (small : r.size = 0) : Standard pg t r
  | lam {k : Nat} {t b reduced : Nameless}
      (sts : HeadSteps pg k t (.lam b)) (inn : Standard pg b reduced) :
      Standard pg t (.lam reduced)
  | app {k : Nat} {t f arg reduced o : Nameless} (sts : HeadSteps pg k t (.app f arg))
      (l : Standard pg f reduced) (rt : Standard pg arg o) :
      Standard pg t (.app reduced o)

variable {pg : Definitions}

section Instances

variable (selfc : pg.SelfContained)

include selfc

theorem HeadStep.lift (step : HeadStep pg t reduced) (lv : Nat) :
    HeadStep pg (t.lift lv) (reduced.lift lv) := by
  induction step with
  | unfold defined =>
    rw [Nameless.lift_of_closedAt (selfc.closed defined) (Nat.zero_le lv)]
    exact .unfold defined
  | beta =>
    rw [Nameless.lift_instantiate _ _ (Nat.zero_le lv)]
    exact .beta
  | left step ih => exact .left ih

theorem HeadStep.instantiate (step : HeadStep pg t reduced) (dp : Nat) (repl : Nameless) :
    HeadStep pg (t.instantiate dp repl) (reduced.instantiate dp repl) := by
  induction step with
  | unfold defined =>
    rw [Nameless.instantiate_of_closedAt (selfc.closed defined) (Nat.zero_le dp)]
    exact .unfold defined
  | beta =>
    rw [Nameless.instantiate_instantiate _ _ _ (Nat.zero_le dp)]
    exact .beta
  | left step ih => exact .left ih

theorem Reduction.instantiate (step : Reduction pg t reduced) (dp : Nat) (repl : Nameless) :
    Reduction pg (t.instantiate dp repl) (reduced.instantiate dp repl) := by
  induction step generalizing dp repl with
  | unfold defined =>
    rw [Nameless.instantiate_of_closedAt (selfc.closed defined) (Nat.zero_le dp)]
    exact .unfold defined
  | beta =>
    rw [Nameless.instantiate_instantiate _ _ _ (Nat.zero_le dp)]
    exact .beta
  | lam step ih => exact .lam (ih (dp + 1) (repl.lift 0))
  | left step ih => exact .left (ih dp repl)
  | right step ih => exact .right (ih dp repl)

theorem Reduces.instantiate (reduces : Reduces pg t reduced) (dp : Nat) (repl : Nameless) :
    Reduces pg (t.instantiate dp repl) (reduced.instantiate dp repl) :=
  reduces.lift (Nameless.instantiate · dp repl) fun _ _ step =>
    step.instantiate selfc dp repl

theorem HeadSteps.lift (sts : HeadSteps pg k t reduced) (lv : Nat) :
    HeadSteps pg k (t.lift lv) (reduced.lift lv) := by
  induction sts with
  | refl => exact .refl _
  | step step _ ih => exact .step (step.lift selfc lv) ih

theorem HeadSteps.instantiate (sts : HeadSteps pg k t reduced) (dp : Nat) (repl : Nameless) :
    HeadSteps pg k (t.instantiate dp repl) (reduced.instantiate dp repl) := by
  induction sts with
  | refl => exact .refl _
  | step step _ ih => exact .step (step.instantiate selfc dp repl) ih

end Instances

namespace Standard

theorem refl (t : Nameless) : Standard pg t t := by
  induction t with
  | bound i => exact .atom (.refl _) rfl
  | free a => exact .atom (.refl _) rfl
  | missing x => exact .atom (.refl _) rfl
  | lam b ih => exact .lam (.refl _) ih
  | app f arg ihF ihA => exact .app (.refl _) ihF ihA

theorem head {next : Nameless} (sts : HeadSteps pg k t next) (standard : Standard pg next r) :
    Standard pg t r := by
  cases standard with
  | atom more small => exact .atom (sts.trans more) small
  | lam more inn => exact .lam (sts.trans more) inn
  | app more l rt => exact .app (sts.trans more) l rt

theorem unfold {definition : Nameless} (standard : Standard pg t (.free a))
    (defined : pg a = some definition) : Standard pg t definition := by
  cases standard with
  | atom sts _ => exact head (sts.trans (.single (.unfold defined))) (refl _)

section Instances

variable (selfc : pg.SelfContained)

include selfc

theorem lift (standard : Standard pg t r) (lv : Nat) : Standard pg (t.lift lv) (r.lift lv) := by
  induction standard generalizing lv with
  | atom sts small => exact (refl _).head (sts.lift selfc lv)
  | lam sts inn ih => exact .lam (sts.lift selfc lv) (ih (lv + 1))
  | app sts l rt ihLeft ihRight =>
    exact .app (sts.lift selfc lv) (ihLeft lv) (ihRight lv)

/-- Standard reductions of a term and of what replaces a variable in it make one. -/
theorem instantiate {arg : Nameless} (standard : Standard pg t r)
    (replaced : Standard pg arg reduced) (dp : Nat) :
    Standard pg (t.instantiate dp arg) (r.instantiate dp reduced) := by
  induction standard generalizing arg reduced dp with
  | @atom k t r sts small =>
    refine head (sts.instantiate selfc dp arg) ?_
    cases r with
    | bound i => grind [Nameless.instantiate, refl]
    | free a => exact refl _
    | missing x => exact refl _
    | lam b => cases small
    | app f arg => cases small
  | lam sts inn ih =>
    exact .lam (sts.instantiate selfc dp arg) (ih (replaced.lift selfc 0) (dp + 1))
  | app sts l rt ihLeft ihRight =>
    exact .app (sts.instantiate selfc dp arg) (ihLeft replaced dp) (ihRight replaced dp)

theorem beta {b arg : Nameless} (standard : Standard pg t (.app (.lam b) arg)) :
    Standard pg t (b.instantiate 0 arg) := by
  cases standard with
  | atom _ small => cases small
  | app sts l r =>
    cases l with
    | atom _ small => cases small
    | lam inn reduces =>
      have contracts : HeadSteps pg _ t _ := (sts.trans (inn.left _)).trans (.single .beta)
      exact head contracts (reduces.instantiate selfc r 0)

/-- One more step, wherever it is made, can be put in its place. -/
theorem step {t mid r : Nameless} (standard : Standard pg t mid) (step : Reduction pg mid r) :
    Standard pg t r := by
  induction step generalizing t with
  | unfold defined => exact standard.unfold defined
  | beta => exact standard.beta selfc
  | lam step ih =>
    cases standard with
    | atom _ small => cases small
    | lam sts inn => exact .lam sts (ih inn)
  | left step ih =>
    cases standard with
    | atom _ small => cases small
    | app sts l rt => exact .app sts (ih l) rt
  | right step ih =>
    cases standard with
    | atom _ small => cases small
    | app sts l rt => exact .app sts l (ih rt)

end Instances

end Standard

/-- Every reduction can be made a standard one. -/
theorem Reduces.standard (selfc : pg.SelfContained) (reduces : Reduces pg t r) :
    Standard pg t r := by
  induction reduces with
  | refl => exact .refl _
  | tail _ step ih => exact ih.step selfc step

end CallByNeed
