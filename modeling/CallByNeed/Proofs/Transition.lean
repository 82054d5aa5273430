import CallByNeed.Proofs.Stores

/-!
# What one transition can do

A transition reads and changes the focus, the value, the stack and the store of
a state; its tallies and events only record it.  `Move` lists the transitions
that go on and `Raise` those that fail, each with what makes it possible, and
`State.step_spec` says that there are no others.  Everything that is proved
about runs is proved from these two lists.
-/

namespace CallByNeed

/-- The part of a state that transitions depend on. -/
structure Configuration where
  focus : Option (Term × Env)
  value : Value
  stack : List Frame
  store : Store

def State.configuration (st : State) : Configuration :=
  ⟨st.focus, st.value, st.stack, st.engine.store⟩

/-- The transitions that lead to another configuration. -/
inductive Move (host : Host) : Configuration → Configuration → Prop where
  /-- The value of a bound name is there already. -/
  | reuse {x env v k s a th} (found : Store.find s x env = some a)
      (held : s.thunk? a = some th)
      (forced : th.phase = .forced) :
      Move host ⟨some (.var x, env), v, k, s⟩ ⟨none, th.value, k, s⟩
  /-- The evaluation of a bound name's thunk begins. -/
  | enter {x env v k s a th} (found : Store.find s x env = some a)
      (held : s.thunk? a = some th)
      (unforced : th.phase = .unforced) :
      Move host ⟨some (.var x, env), v, k, s⟩
        ⟨th.code?, v, .update a :: k, s.update a Thunk.begin⟩
  | close {p b env v k s} :
      Move host ⟨some (.lam p b, env), v, k, s⟩
        ⟨none, (s.build (.closure p b env)).1, k, (s.build (.closure p b env)).2⟩
  /-- The argument of an application waits on the stack. -/
  | postpone {f arg env v k s} :
      Move host ⟨some (.app f arg, env), v, k, s⟩
        ⟨some (f, env), v, .argument (some (s.delay arg env).1) :: k, (s.delay arg env).2⟩
  | memoize {v a k s} :
      Move host ⟨none, v, .update a :: k, s⟩ ⟨none, v, k, s.update a (·.memoize v)⟩
  /-- A closure is applied. -/
  | bind {v arg k s p b env} (closure : v.form = .closure p b env) :
      Move host ⟨none, v, .argument arg :: k, s⟩ ⟨some (b, .layer p arg env), v, k, s⟩
  /-- A variable without a value takes another argument. -/
  | extend {v arg k s x args} (neutral : v.form = .neutral x args) :
      Move host ⟨none, v, .argument arg :: k, s⟩
        ⟨none, (s.build (.neutral x (args ++ [arg]))).1, k,
          (s.build (.neutral x (args ++ [arg]))).2⟩
  /-- A primitive is given an argument whose value is there already. -/
  | supply {v a k s x th} (prim : v.form = .primitive x) (held : s.thunk? a = some th)
      (forced : th.phase = .forced) :
      Move host ⟨none, v, .argument (some a) :: k, s⟩ ⟨none, th.value, .call x :: k, s⟩
  /-- A primitive needs its argument evaluated first. -/
  | demand {v a k s x th} (prim : v.form = .primitive x) (held : s.thunk? a = some th)
      (unforced : th.phase = .unforced) :
      Move host ⟨none, v, .argument (some a) :: k, s⟩
        ⟨th.code?, v, .update a :: .call x :: k, s.update a Thunk.begin⟩
  | call {v x k s r} (computed : host x v = .ok r) :
      Move host ⟨none, v, .call x :: k, s⟩ ⟨none, r, k, s⟩

theorem Move.pass {f : Term} {k : List Frame} (found : s.find x env = some a) :
    Move host ⟨some (.app f (.var x), env), v, k, s⟩
      ⟨some (f, env), v, .argument (some a) :: k, s⟩ := by
  have move : Move host ⟨some (.app f (.var x), env), v, k, s⟩ _ := .postpone
  grind [Store.delay]

/-- The error of a thunk that needs its own value. -/
def Thunk.cycle (th : Thunk) : Raised :=
  if th.isWritable then .evaluation (.cyclic th.label) [] else .unwritable

/-- The error of a value that is applied and is no function. -/
def Value.refusal (v : Value) : Raised :=
  if v.isWritable then .evaluation (.notAFunction v.text) [] else .unwritable

/-- A value that can be applied to a thunk. -/
def Form.isApplicable : Form → Bool
  | .closure _ _ _ => true
  | .neutral _ _ => true
  | .primitive _ => true
  | .constant _ => false
  | .absent => false

/-- The transitions that fail. -/
inductive Raise (host : Host) : Configuration → Raised → Prop where
  | unbound {x env v k s} (lost : Store.find s x env = none) :
      Raise host ⟨some (.var x, env), v, k, s⟩ (.evaluation (.unbound x) [])
  | dangling {x env v k s a} (found : Store.find s x env = some a)
      (empty : s.thunk? a = none) :
      Raise host ⟨some (.var x, env), v, k, s⟩ .noThunk
  | cyclic {x env v k s a th} (found : Store.find s x env = some a)
      (held : s.thunk? a = some th)
      (forcing : th.phase = .forcing) :
      Raise host ⟨some (.var x, env), v, k, s⟩ th.cycle
  | refused {v arg k s} (refuses : v.form.isApplicable = false) :
      Raise host ⟨none, v, .argument arg :: k, s⟩ v.refusal
  /-- A primitive is given a place without a thunk. -/
  | unsupplied {v arg k s x} (prim : v.form = .primitive x)
      (empty : arg.bind s.thunk? = none) :
      Raise host ⟨none, v, .argument arg :: k, s⟩ .noThunk
  | cyclicArgument {v a k s x th} (prim : v.form = .primitive x) (held : s.thunk? a = some th)
      (forcing : th.phase = .forcing) :
      Raise host ⟨none, v, .argument (some a) :: k, s⟩ th.cycle
  | host {v x k s er} (failed : host x v = .error er) :
      Raise host ⟨none, v, .call x :: k, s⟩ er

namespace State

/-- What is known of a transition by its result. -/
def Accounts (host : Host) (st : State) : Transition → Prop
  | .moved next =>
    Move host st.configuration next.configuration ∧
      next.engine.tally.steps = st.engine.tally.steps
  | .returned v e =>
    st.focus = none ∧ st.stack = [] ∧ v = st.value ∧ e = st.engine
  | .raised er failed =>
    Raise host st.configuration er ∧ failed.engine = st.engine ∧ failed.pending = st.pending

theorem enter_of_unforced (st : State) (a : Address)
    (unforced : th.phase = .unforced) :
    st.enter a th = .moved { st with
      focus := th.code?
      stack := .update a :: st.stack
      engine := st.engine.begin a th.name } := by
  simp [enter, unforced]

theorem enter_of_forcing (st : State) (a : Address) (forcing : th.phase = .forcing) :
    st.enter a th = .raised th.cycle st := by
  simp [enter, forcing, Thunk.cycle]

end State

namespace Engine

@[simp] theorem store_notify (e : Engine) (kd : EventKind) (x : Option Name) :
    (e.notify kd x).store = e.store := by
  cases x <;> rfl

@[simp] theorem tally_notify (e : Engine) (kd : EventKind) (x : Option Name) :
    (e.notify kd x).tally = e.tally := by
  cases x <;> rfl

@[simp] theorem store_begin (e : Engine) (a : Address) (x : Option Name) :
    (e.begin a x).store = e.store.update a Thunk.begin := by
  simp [begin, update]

@[simp] theorem steps_begin (e : Engine) (a : Address) (x : Option Name) :
    (e.begin a x).tally.steps = e.tally.steps := by
  simp [begin, update]

@[simp] theorem store_memoize (e : Engine) (a : Address) (v : Value) :
    (e.memoize a v).store = e.store.update a (·.memoize v) := by
  simp [memoize, update]

@[simp] theorem tally_memoize (e : Engine) (a : Address) (v : Value) :
    (e.memoize a v).tally = e.tally := by
  simp [memoize, update]

@[simp] theorem store_countHit (e : Engine) : e.countHit.store = e.store := rfl

@[simp] theorem steps_countHit (e : Engine) : e.countHit.tally.steps = e.tally.steps := rfl

@[simp] theorem store_countStep (e : Engine) : e.countStep.store = e.store := rfl

@[simp] theorem steps_countStep (e : Engine) : e.countStep.tally.steps = e.tally.steps + 1 := rfl

end Engine

namespace State

theorem evaluate_accounts (host : Host) (v : Value) (k : List Frame) (e : Engine) (env : Env)
    (t : Term) :
    Accounts host ⟨some (t, env), v, k, e⟩ (State.evaluate ⟨some (t, env), v, k, e⟩ env t) := by
  cases t with
  | var x =>
    simp only [State.evaluate]
    cases found : e.store.find x env with
    | none => exact ⟨.unbound found, rfl, rfl⟩
    | some a =>
      cases held : e.store.thunk? a with
      | none => simpa only [held] using ⟨.dangling found held, rfl, rfl⟩
      | some th =>
        simp only [held]
        cases phase : th.phase with
        | forced => exact ⟨.reuse found held phase, rfl⟩
        | unforced =>
          rw [if_neg (by simp), enter_of_unforced _ _ phase]
          refine ⟨?_, by simp⟩
          simpa [configuration] using Move.enter found held phase
        | forcing =>
          rw [if_neg (by simp), enter_of_forcing _ _ phase]
          exact ⟨.cyclic found held phase, rfl, rfl⟩
  | lam p b => exact ⟨.close, rfl⟩
  | app f arg => exact ⟨.postpone, rfl⟩

theorem applyTo_accounts (host : Host) (v : Value) (arg : Option Address) (k : List Frame)
    (e : Engine) :
    Accounts host ⟨none, v, .argument arg :: k, e⟩ (State.applyTo ⟨none, v, k, e⟩ arg) := by
  unfold State.applyTo
  cases form : v.form with
  | closure p b env => exact ⟨.bind form, rfl⟩
  | neutral x args => exact ⟨.extend form, rfl⟩
  | constant dt => exact ⟨.refused (by simp [form, Form.isApplicable]), rfl, rfl⟩
  | absent => exact ⟨.refused (by simp [form, Form.isApplicable]), rfl, rfl⟩
  | primitive x =>
    cases arg with
    | none => exact ⟨.unsupplied form rfl, rfl, rfl⟩
    | some a =>
      cases held : e.store.thunk? a with
      | none =>
        simp only [held]
        exact ⟨.unsupplied form held, rfl, rfl⟩
      | some th =>
        simp only [held]
        cases phase : th.phase with
        | forced => exact ⟨.supply form held phase, rfl⟩
        | unforced =>
          rw [if_neg (by simp), enter_of_unforced _ _ phase]
          refine ⟨?_, by simp⟩
          simpa [configuration] using Move.demand form held phase
        | forcing =>
          rw [if_neg (by simp), enter_of_forcing _ _ phase]
          exact ⟨.cyclicArgument form held phase, rfl, rfl⟩

/-- Every transition is one of those that are listed. -/
theorem step_spec (host : Host) (st : State) : Accounts host st (st.step host) := by
  obtain ⟨focus, v, k, e⟩ := st
  cases focus with
  | some control => exact evaluate_accounts host v k e control.2 control.1
  | none =>
    cases k with
    | nil => exact ⟨rfl, rfl, rfl, rfl⟩
    | cons fr k =>
      cases fr with
      | argument th => exact applyTo_accounts host v th k e
      | update a =>
        refine ⟨?_, by simp⟩
        have move : Move host ⟨none, v, .update a :: k, e.store⟩ _ := .memoize
        simpa [configuration] using move
      | call prim =>
        simp only [step]
        cases computed : host prim v with
        | ok r => exact ⟨.call computed, rfl⟩
        | error er => exact ⟨.host computed, rfl, rfl⟩

end State

variable {host : Host} {next c : Configuration} {er : Raised}

theorem Move.determines {fst o : Configuration} (move : Move host fst next)
    (again : Move host fst o) : next = o := by
  cases move <;> cases again <;> simp_all

theorem Raise.determines {o : Raised} (raise : Raise host c er) (again : Raise host c o) :
    er = o := by
  cases raise <;> cases again <;> simp_all [Form.isApplicable]

theorem Move.excludes (move : Move host c next) : ¬ Raise host c er := by
  intro raise
  cases move <;> cases raise <;> simp_all [Form.isApplicable]

theorem Move.stack_ne_nil {bef aft : Configuration} (move : Move host bef aft)
    (noFocus : bef.focus = none) : bef.stack ≠ [] := by
  cases move <;> simp_all

theorem Raise.stack_ne_nil (raise : Raise host c er) (noFocus : c.focus = none) : c.stack ≠ [] := by
  cases raise <;> simp_all

theorem Move.size_le {bef aft : Configuration} (move : Move host bef aft) :
    bef.store.size ≤ aft.store.size := by
  cases move with
  | postpone => exact Store.size_le_delay _ _ _
  | _ => simp

namespace State

theorem step_of_move {st : State} (move : Move host st.configuration next) :
    ∃ moved, st.step host = .moved moved ∧ moved.configuration = next ∧
      moved.engine.tally.steps = st.engine.tally.steps := by
  have accounts := step_spec host st
  cases r : st.step host with
  | moved moved =>
    rw [r] at accounts
    exact ⟨moved, rfl, accounts.1.determines move, accounts.2⟩
  | returned v e =>
    rw [r] at accounts
    obtain ⟨noFocus, noFrames, _⟩ := accounts
    obtain ⟨focus, v, k, e⟩ := st
    cases noFocus
    cases noFrames
    cases move
  | raised er failed =>
    rw [r] at accounts
    exact absurd accounts.1 move.excludes

theorem step_of_raise {st : State} (raise : Raise host st.configuration er) :
    ∃ failed, st.step host = .raised er failed ∧ failed.engine = st.engine ∧
      failed.pending = st.pending := by
  have accounts := step_spec host st
  cases r : st.step host with
  | moved moved =>
    rw [r] at accounts
    exact absurd raise accounts.1.excludes
  | returned v e =>
    rw [r] at accounts
    obtain ⟨noFocus, noFrames, _⟩ := accounts
    obtain ⟨focus, v, k, e⟩ := st
    cases noFocus
    cases noFrames
    cases raise
  | raised o failed =>
    rw [r] at accounts
    rw [raise.determines accounts.1]
    exact ⟨failed, rfl, accounts.2⟩

end State

end CallByNeed
