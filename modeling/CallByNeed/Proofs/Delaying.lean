import CallByNeed.Proofs.HalfForced

/-!
# Ways to delay an argument

The machine of this library shares the thunk of a variable that is passed on, and
takes an abstraction for its own value.  Here the way in which arguments are
delayed is a parameter: `runWith` is the machine with some way to delay, and the
requests are made with it as they are made with the machine.  With the way of this
library they are the same (`evaluateWith_delay` and the others).

What is said of moves and fuel holds for every way to delay.
-/

variable {n : Nat} {er : Raised}

namespace CallByNeed

/-- A way to make the thunk for an argument. -/
abbrev Delaying := Store → Term → Env → Address × Store

/-- The plain way: every argument gets a new thunk of its own. -/
def Store.suspend (s : Store) (t : Term) (env : Env) : Address × Store :=
  s.alloc (.suspended t env none)

/-- One transition of the machine with a way to delay. -/
def State.stepWith (dl : Delaying) (host : Host) (st : State) : Transition :=
  match st.focus with
  | some (.app f arg, env) =>
    let (a, s) := dl st.engine.store arg env
    .moved { st with
      focus := some (f, env)
      stack := .argument a :: st.stack
      engine := { st.engine with store := s } }
  | _ => st.step host

section Machine

variable (dl : Delaying) (cfg : Settings)

def runWith : (n taken : Nat) → State → Except Stop Value × Engine
  | 0, _, st => (.error .outOfFuel, st.engine)
  | n + 1, taken, st =>
    if cfg.limit.exceeded (taken + 1) then
      st.counted.abandon (.evaluation (.stepLimit cfg.limit.bound) [])
    else
      match st.counted.stepWith dl cfg.host with
      | .moved st => runWith n (taken + 1) st
      | .returned v e => (.ok v, e)
      | .raised er st => st.abandon er

variable (n : Nat)

def evaluateWith (t : Term) (env : Env) : Eval Value :=
  fun e => runWith dl cfg n 0 ⟨some (t, env), Value.absent, [], e⟩

def applyWith (f : Value) (args : List (Option Address)) : Eval Value := fun e =>
    runWith dl cfg n 0 ⟨none, f, args.map .argument, e⟩

def forceWith (th : Option Address) : Eval Value := fun e =>
    match th with
    | none => (.error (.raised .noThunk), e)
    | some a =>
      match e.store.thunk? a with
      | none => (.error (.raised .noThunk), e)
      | some th =>
        if th.phase = .forced then (.ok th.value, e.countHit)
        else if th.phase = .forcing then (.error (.raised th.cycle), e)
        else runWith dl cfg n 0 (entered a th e)

def openClosureWith (p : Name) (b : Term) (env : Env) (x : Name) : Eval Value := fun e =>
    evaluateWith dl cfg n b (.layer p (some e.store.size) env)
      { e with store := e.store.withVariable x }

def quoteWith (v : Value) (us : List Name) : Eval (List Task × List Term) :=
  match v.form with
  | .closure p b env => do
      let x := freshName p us
      let r ← openClosureWith dl cfg n p b env x
      pure ([.quote r (us ++ [x]), .bind x], [])
  | _ => quote cfg n v us

def Task.performWith (ts : List Term) : Task → Eval (List Task × List Term)
  | .quote v us => do
      let (tks, built) ← quoteWith dl cfg n v us
      pure (tks, built ++ ts)
  | .quoteThunk th us => do
      let v ← forceWith dl cfg n th
      let (tks, built) ← quoteWith dl cfg n v us
      pure (tks, built ++ ts)
  | tk => tk.perform cfg n ts

def performAllWith (st0 : Nat) :
    (n : Nat) → List Task → List Term → Engine → Except Stop Term × Engine
  | _, [], t :: _, e => (.ok t, e)
  | _, [], [], e => (.error (.raised .noTerm), e)
  | 0, _ :: _, _, e => (.error .outOfFuel, e)
  | n + 1, tk :: tks, ts, e =>
    match countTask cfg st0 e with
    | (.error stop, e) => (.error stop, e)
    | (.ok (), e) =>
      match tk.performWith dl cfg n ts e with
      | (.error stop, e) => (.error stop, e)
      | (.ok (added, ts), e) =>
        performAllWith st0 n (added ++ tks) ts e

def normalizeWith (v : Value) : Eval Term := fun e =>
    performAllWith dl cfg e.tally.steps n [.quote v []] [] e

def countWith (v : Value) : Eval Value := fun e =>
    applyWith dl cfg n v [some e.store.size, some (e.store.size + 1)]
      { e with store := e.store.withCounter }

def numberWith (v : Value) : Eval (Option Datum) := fun e =>
    (tallied (countWith dl cfg n v e).1, (countWith dl cfg n v e).2)

end Machine

variable {taken st0 k : Nat} {st : State} {e : Engine}
  {fst next : Configuration} {host : Host}

section Steps

variable {dl : Delaying} {cfg : Settings}

theorem runWith_exceeded (exc : cfg.limit.exceeded (taken + 1) = true) (n : Nat) (st : State) :
    runWith dl cfg (n + 1) taken st =
      st.counted.abandon (.evaluation (.stepLimit cfg.limit.bound) []) := by
  simp [runWith, exc]

section

variable (within : cfg.limit.exceeded (taken + 1) = false)

include within

theorem runWith_moved {next : State} (stepped : st.counted.stepWith dl cfg.host = .moved next)
    (n : Nat) : runWith dl cfg (n + 1) taken st = runWith dl cfg n (taken + 1) next := by
  simp [runWith, within, stepped]

theorem runWith_returned (stepped : st.counted.stepWith dl cfg.host = .returned v e)
    (n : Nat) : runWith dl cfg (n + 1) taken st = (.ok v, e) := by
  simp [runWith, within, stepped]

theorem runWith_stopped {failed : State}
    (stepped : st.counted.stepWith dl cfg.host = .raised er failed) (n : Nat) :
    runWith dl cfg (n + 1) taken st = failed.abandon er := by
  simp [runWith, within, stepped]

end

theorem forceWith_of_forced (held : e.store.thunk? a = some th)
    (forced : th.phase = .forced) (n : Nat) :
    forceWith dl cfg n (some a) e = (.ok th.value, e.countHit) := by
  simp [forceWith, held, forced]

theorem forceWith_of_unforced (held : e.store.thunk? a = some th)
    (unforced : th.phase = .unforced) (n : Nat) :
    forceWith dl cfg n (some a) e = runWith dl cfg n 0 (entered a th e) := by
  simp [forceWith, held, unforced]

theorem performAllWith_exceeded (exc : cfg.limit.exceeded (e.tally.steps + 1 - st0) = true)
    (tk : Task) (tks : List Task) (ts : List Term) :
    performAllWith dl cfg st0 (n + 1) (tk :: tks) ts e =
      (.error (.raised (.evaluation (.stepLimit cfg.limit.bound) [])), e.countStep) := by
  simp [performAllWith, countTask_eq, exc]

theorem performAllWith_ok {aft : Engine}
    {added : List Task × List Term} (within : cfg.limit.exceeded (e.tally.steps + 1 - st0) = false)
    (perf : tk.performWith dl cfg n ts e.countStep = (.ok added, aft)) (tks : List Task) :
    performAllWith dl cfg st0 (n + 1) (tk :: tks) ts e =
      performAllWith dl cfg st0 n (added.1 ++ tks) added.2 aft := by
  simp [performAllWith, countTask_eq, within, perf]

theorem performAllWith_error {aft : Engine} {stop : Stop}
    (within : cfg.limit.exceeded (e.tally.steps + 1 - st0) = false)
    (perf : tk.performWith dl cfg n ts e.countStep = (.error stop, aft)) (tks : List Task) :
    performAllWith dl cfg st0 (n + 1) (tk :: tks) ts e = (.error stop, aft) := by
  simp [performAllWith, countTask_eq, within, perf]

end Steps

/-! ### The way of this library -/

theorem State.stepWith_delay (host : Host) (st : State) :
    st.stepWith Store.delay host = st.step host := by
  obtain ⟨focus, v, k, e⟩ := st
  unfold stepWith
  split
  · rename_i focused
    cases focused
    rfl
  · rfl

section Delay

variable (cfg : Settings) (n : Nat)

theorem runWith_delay (taken : Nat) (st : State) :
    runWith Store.delay cfg n taken st = run cfg n taken st := by
  induction n generalizing taken st with
  | zero => rfl
  | succ n ih =>
    have same := State.stepWith_delay cfg.host st.counted
    cases bound : cfg.limit.exceeded (taken + 1) with
    | true => rw [runWith_exceeded bound, run_exceeded bound]
    | false =>
      cases stepped : st.counted.step cfg.host with
      | moved next =>
        rw [runWith_moved bound (same.trans stepped), run_moved bound stepped, ih]
      | returned v e =>
        rw [runWith_returned bound (same.trans stepped), run_answered bound stepped]
      | raised er failed =>
        rw [runWith_stopped bound (same.trans stepped), run_stopped bound stepped]

theorem evaluateWith_delay (t : Term) (env : Env) :
    evaluateWith Store.delay cfg n t env = evaluate cfg n t env := by
  funext e
  exact runWith_delay cfg n 0 _

theorem applyWith_delay (f : Value) (args : List (Option Address)) :
    applyWith Store.delay cfg n f args = apply cfg n f args := by
  funext e
  exact runWith_delay cfg n 0 _

theorem forceWith_delay (th : Option Address) :
    forceWith Store.delay cfg n th = force cfg n th := by
  funext e
  cases found : th.bind e.store.thunk? with
  | none =>
    rw [force_of_none cfg n found]
    cases th with
    | none => rfl
    | some a =>
      have empty : e.store.thunk? a = none := found
      simp [forceWith, empty]
  | some held =>
    obtain ⟨a, rfl, there⟩ := Option.bind_eq_some_iff.mp found
    cases phase : held.phase with
    | forced =>
      rw [force_of_forced cfg n there phase, forceWith_of_forced there phase]
    | forcing =>
      rw [force_of_forcing cfg n there phase]
      simp [forceWith, there, phase]
    | unforced =>
      rw [force_of_unforced cfg n there phase, forceWith_of_unforced there phase, runWith_delay]

theorem quoteWith_delay (v : Value) (us : List Name) :
    quoteWith Store.delay cfg n v us = quote cfg n v us := by
  unfold quoteWith quote
  cases v.form with
  | closure p b env =>
    have opened : openClosureWith Store.delay cfg n p b env
        (freshName p us) = openClosure cfg n p b env (freshName p us) := by
      funext e
      rw [openClosure_eq, openClosureWith, evaluateWith_delay]
    simp only [opened]
  | _ => rfl

theorem performWith_delay (ts : List Term) (tk : Task) :
    tk.performWith Store.delay cfg n ts = tk.perform cfg n ts := by
  cases tk with
  | quote v us => simp only [Task.performWith, Task.perform, quoteWith_delay]
  | quoteThunk th us =>
    simp only [Task.performWith, Task.perform, quoteWith_delay, forceWith_delay]
  | bind x => rfl
  | combine x k => rfl

theorem performAllWith_delay (st0 : Nat) (tks : List Task) (ts : List Term) (e : Engine) :
    performAllWith Store.delay cfg st0 n tks ts e = performAll cfg st0 n tks ts e := by
  induction n generalizing tks ts e with
  | zero =>
    cases tks with
    | nil => cases ts <;> rfl
    | cons tk tks => rfl
  | succ n ih =>
    cases tks with
    | nil => cases ts <;> rfl
    | cons tk tks =>
      have same := performWith_delay cfg n ts tk
      cases bound : cfg.limit.exceeded (e.tally.steps + 1 - st0) with
      | true => rw [performAllWith_exceeded bound, performAll_exceeded cfg n bound]
      | false =>
        rcases perf : tk.perform cfg n ts e.countStep with ⟨oc, aft⟩
        have also := (congrFun same e.countStep).trans perf
        cases oc with
        | error stop =>
          rw [performAllWith_error bound also, performAll_error cfg n bound perf]
        | ok added =>
          rw [performAllWith_ok bound also, performAll_ok cfg n bound perf, ih]

theorem normalizeWith_delay (v : Value) :
    normalizeWith Store.delay cfg n v = normalize cfg n v := by
  funext e
  exact performAllWith_delay cfg n _ _ _ _

theorem numberWith_delay (v : Value) : numberWith Store.delay cfg n v = number cfg n v := by
  funext e
  rw [number_eq, numberWith, countWith, applyWith_delay, ← count_eq]

end Delay

/-! ### Moves -/

/-- The transitions with a way to delay that lead to another configuration. -/
inductive MoveWith (dl : Delaying) (host : Host) : Configuration → Configuration → Prop where
  | postpone {f arg env v k s} :
      MoveWith dl host ⟨some (.app f arg, env), v, k, s⟩
        ⟨some (f, env), v, .argument (some (dl s arg env).1) :: k, (dl s arg env).2⟩
  | move {bef aft : Configuration} (o : ∀ f arg env, bef.focus ≠ some (.app f arg, env))
      (move : Move host bef aft) : MoveWith dl host bef aft

/-- A row of moves, with their number. -/
inductive MovesWith (dl : Delaying) (host : Host) :
    Nat → Configuration → Configuration → Prop where
  | refl (c : Configuration) : MovesWith dl host 0 c c
  | step {k : Nat} {fst next last : Configuration} (move : MoveWith dl host fst next)
      (moves : MovesWith dl host k next last) :
      MovesWith dl host (k + 1) fst last

namespace MovesWith

variable {dl : Delaying}

theorem trans {fr bk : Nat} {last : Configuration} (moves : MovesWith dl host fr fst next)
    (more : MovesWith dl host bk next last) : MovesWith dl host (fr + bk) fst last := by
  induction moves with
  | refl => simpa using more
  | @step k _ _ _ move _ ih =>
    have joined := MovesWith.step move (ih more)
    grind

theorem single (move : MoveWith dl host fst next) : MovesWith dl host 1 fst next :=
  .step move (.refl next)

end MovesWith

section Runs

variable {dl : Delaying} {cfg : Settings}

theorem State.stepWith_of_focus (o : ∀ f arg env, st.focus ≠ some (.app f arg, env)) :
    st.stepWith dl host = st.step host := by grind [State.stepWith]

theorem State.stepWith_of_move (move : MoveWith dl host st.configuration next) :
    ∃ moved, st.stepWith dl host = .moved moved ∧ moved.configuration = next := by
  generalize st0 : st.configuration = fst at move
  cases move with
  | postpone =>
    obtain ⟨focus, v, k, e⟩ := st
    cases st0
    exact ⟨_, rfl, rfl⟩
  | move o move =>
    subst st0
    obtain ⟨moved, stepped, reached, _⟩ := State.step_of_move move
    exact ⟨moved, (State.stepWith_of_focus o).trans stepped, reached⟩

theorem State.stepWith_of_raise (raise : Raise host st.configuration er) :
    ∃ failed, st.stepWith dl host = .raised er failed ∧
      failed.engine = st.engine ∧ failed.pending = st.pending := by
  have o : ∀ f arg env, st.focus ≠ some (.app f arg, env) := by
    intro f arg env focused
    obtain ⟨focus, v, k, e⟩ := st
    cases focused
    cases raise
  grind [State.step_of_raise, State.stepWith_of_focus]

/-- More fuel does not change how a run ends. -/
theorem runWith_ended (ended : (runWith dl cfg n taken st).1 ≠ .error .outOfFuel) (more : Nat) :
    runWith dl cfg (n + more) taken st = runWith dl cfg n taken st := by
  induction n generalizing taken st with
  | zero => exact absurd rfl ended
  | succ n ih =>
    rw [Nat.add_right_comm]
    cases bound : cfg.limit.exceeded (taken + 1) with
    | true => rw [runWith_exceeded bound, runWith_exceeded bound]
    | false =>
      cases stepped : st.counted.stepWith dl cfg.host with
      | moved next =>
        rw [runWith_moved bound stepped] at ended
        rw [runWith_moved bound stepped, runWith_moved bound stepped, ih ended]
      | returned v e =>
        rw [runWith_returned bound stepped, runWith_returned bound stepped]
      | raised er failed =>
        rw [runWith_stopped bound stepped, runWith_stopped bound stepped]

theorem run_ended (ended : (run cfg n taken st).1 ≠ .error .outOfFuel) (more : Nat) :
    run cfg (n + more) taken st = run cfg n taken st := by
  rw [← runWith_delay] at ended
  rw [← runWith_delay, ← runWith_delay]
  exact runWith_ended ended more

variable (unb : ∀ sts, cfg.limit.exceeded sts = false)

include unb

theorem runWith_of_moves (moves : MovesWith dl cfg.host k fst next)
    (starts : st.configuration = fst) :
    ∃ last : State, last.configuration = next ∧ ∀ n,
      runWith dl cfg (n + k) taken st = runWith dl cfg n (taken + k) last := by
  induction moves generalizing taken st with
  | refl => exact ⟨st, starts, fun _ => rfl⟩
  | @step k _ _ _ move _ ih =>
    rw [← starts, ← st.configuration_counted] at move
    obtain ⟨moved, stepped, reached⟩ := State.stepWith_of_move move
    obtain ⟨last, ends, continues⟩ := ih reached
    refine ⟨last, ends, fun n => ?_⟩
    rw [← Nat.add_assoc, runWith_moved (unb _) stepped, continues]
    congr 1
    omega

/-- Without fuel for all moves, a run does not end. -/
theorem runWith_exhausted (moves : MovesWith dl cfg.host k fst next)
    (starts : st.configuration = fst) (few : n ≤ k) :
    (runWith dl cfg n taken st).1 = .error .outOfFuel := by
  induction moves generalizing n taken st with
  | refl =>
    cases Nat.le_zero.mp few
    rfl
  | step move _ ih =>
    cases n with
    | zero => rfl
    | succ n =>
      rw [← starts, ← st.configuration_counted] at move
      obtain ⟨moved, stepped, reached⟩ := State.stepWith_of_move move
      rw [runWith_moved (unb _) stepped]
      exact ih reached (by omega)

theorem runWith_returns
    (moves : MovesWith dl cfg.host k fst ⟨none, v, [], s⟩) (starts : st.configuration = fst) :
    ∃ n aft, runWith dl cfg n taken st = (.ok v, aft) ∧ aft.store = s := by
  obtain ⟨last, ends, continues⟩ := runWith_of_moves unb moves starts
  obtain ⟨focus, o, stk, e⟩ := last
  cases ends
  refine ⟨1 + k, e.countStep, ?_, rfl⟩
  rw [continues]
  exact runWith_returned (unb _) rfl 0

theorem runWith_fails {k : Nat} {fst next : Configuration}
    (moves : MovesWith dl cfg.host k fst next) (raise : Raise cfg.host next er) {taken : Nat}
    {st : State} (starts : st.configuration = fst) :
    ∃ n failed, runWith dl cfg n taken st = State.abandon failed er ∧
      failed.engine.store = next.store ∧ failed.pending = (updates next.stack).reverse := by
  obtain ⟨last, ends, continues⟩ := runWith_of_moves unb moves starts
  subst ends
  have raises : Raise cfg.host last.counted.configuration er := raise
  obtain ⟨failed, stepped, e, pending⟩ : ∃ failed, last.counted.stepWith dl _ = _ ∧ _ :=
    State.stepWith_of_raise raises
  refine ⟨1 + k, failed, ?_, by rw [e]; rfl, pending⟩
  rw [continues]
  exact runWith_stopped (unb _) stepped 0

end Runs

end CallByNeed
