import CallByNeed.Machine.ReadBack
import CallByNeed.Numeral
import CallByNeed.Proofs.Runs

/-!
# Requests

A request asks an engine for the value of a term, of a thunk or of an
application, for a normal form or for a number.  Each of them is made of runs
that start without a frame to update, and of thunks that are added with their
values.  What all of these keep, every request keeps (`Kept.perform`).
-/

variable {args : List (Option Address)} {admitted : Settings → Prop} {f : Value}
  {b t : Term}

namespace CallByNeed

/-- What can be asked of an engine. -/
inductive Request where
  | evaluate (t : Term) (env : Env)
  | force (th : Option Address)
  | apply (f : Value) (args : List (Option Address))
  | normalize (v : Value)
  | number (v : Value)

/-- What a request gives. -/
inductive Answer where
  | value (v : Value)
  | term (t : Term)
  | number (num : Option Datum)

/-- Makes a request.  The engine is changed also when it fails. -/
def Request.perform (cfg : Settings) (n : Nat) (rq : Request)
    (e : Engine) : Except Stop Answer × Engine :=
  match rq with
  | .evaluate t env =>
    let (r, e) := CallByNeed.evaluate cfg n t env e
    (r.map .value, e)
  | .force th =>
    let (r, e) := CallByNeed.force cfg n th e
    (r.map .value, e)
  | .apply f args =>
    let (r, e) := CallByNeed.apply cfg n f args e
    (r.map .value, e)
  | .normalize v =>
    let (r, e) := CallByNeed.normalize cfg n v e
    (r.map .term, e)
  | .number v =>
    let (r, e) := CallByNeed.number cfg n v e
    (r.map .number, e)

/-- A store with a thunk for a variable that has no value. -/
def Store.withVariable (s : Store) (x : Name) : Store :=
  ((s.build (.neutral x [])).2.alloc (.evaluated (s.build (.neutral x [])).1 none)).2

/-- A store with the thunks of the host's successor and zero. -/
def Store.withCounter (s : Store) : Store :=
  ((s.alloc (.evaluated (.given (.primitive successorName)) none)).2.alloc
    (.evaluated (.given (.constant (.int 0))) none)).2

/-- A host whose successor counts. -/
def Host.Succeeds (host : Host) : Prop := ∀ v, host successorName v = .ok (increment v)

namespace Action

variable {ε σ α β : Type} {ac : ExceptT ε (StateM σ) α} {st aft : σ}

theorem bind_ok {v : α} (done : ac st = (.ok v, aft)) (next : α → ExceptT ε (StateM σ) β) :
    (ac >>= next) st = next v aft := by
  simp [bind, ExceptT.bind, ExceptT.mk, StateT.bind, done, ExceptT.bindCont]

theorem bind_error {er : ε} (stopped : ac st = (.error er, aft))
    (next : α → ExceptT ε (StateM σ) β) : (ac >>= next) st = (.error er, aft) := by
  simp [bind, ExceptT.bind, ExceptT.mk, StateT.bind, stopped, ExceptT.bindCont]
  rfl

theorem get_bind (next : σ → ExceptT ε (StateM σ) β) (st : σ) :
    ((get : ExceptT ε (StateM σ) σ) >>= next) st = next st st := rfl

theorem lift_ok_bind (v : α) (next : α → ExceptT ε (StateM σ) β) (st : σ) :
    ((liftM (.ok v : Except ε α) : ExceptT ε (StateM σ) α) >>= next) st = next v st := rfl

theorem lift_error_bind (er : ε) (next : α → ExceptT ε (StateM σ) β) (st : σ) :
    ((liftM (.error er : Except ε α) : ExceptT ε (StateM σ) α) >>= next) st = (.error er, st) := rfl

theorem bind_eq (ac : ExceptT ε (StateM σ) α) (next : α → ExceptT ε (StateM σ) β) (st : σ) :
    (ac >>= next) st =
      match ac st with
      | (.ok v, aft) => next v aft
      | (.error er, aft) => (.error er, aft) := by grind [bind_ok, bind_error]

theorem bind_cases {next : α → ExceptT ε (StateM σ) β} {r : Except ε β}
    (ran : (ac >>= next) st = (r, aft)) :
    (∃ er, r = .error er ∧ ac st = (.error er, aft)) ∨ ∃ v mid, ac st = (.ok v, mid) ∧
        next v mid = (r, aft) := by grind [bind_eq]

/-- What holds where the first of two actions stops holds where both of them stop. -/
theorem bind_stops (good : σ → Prop) {next : α → ExceptT ε (StateM σ) β} (fst : good (ac st).2)
    (rest : ∀ v mid, ac st = (.ok v, mid) → good (next v mid).2) : good ((ac >>= next) st).2 := by
  rcases ran : (ac >>= next) st with ⟨r, last⟩
  rcases bind_cases ran with ⟨er, _, stopped⟩ | ⟨v, mid, began, late⟩
  · rwa [stopped] at fst
  · have later := rest v mid began
    rwa [late] at later

theorem of_bind_ok {next : α → ExceptT ε (StateM σ) β} {r : β}
    (done : (ac >>= next) st = (.ok r, aft)) :
    ∃ v mid, ac st = (.ok v, mid) ∧ next v mid = (.ok r, aft) :=
  (bind_cases done).resolve_left fun ⟨_, impossible, _⟩ => by cases impossible

theorem map_eq (change : α → β) (ac : ExceptT ε (StateM σ) α) (st : σ) :
    (change <$> ac) st = ((ac st).1.map change, (ac st).2) := by
  rw [map_eq_pure_bind]
  rcases ran : ac st with ⟨r, aft⟩
  cases r with
  | ok v =>
    rw [bind_ok ran]
    rfl
  | error er =>
    rw [bind_error ran]
    rfl

end Action

variable {v : Value} {e aft : Engine} {stop : Stop} {env : Env} {us : List Name}
  {th : Option Address} {st0 : Nat} {ts : List Term} {a : Address}
  {r : Except Stop Value}

section ReadBack

variable (cfg : Settings) (n : Nat)

theorem countTask_eq (st0 : Nat) (e : Engine) :
    countTask cfg st0 e =
      (if cfg.limit.exceeded (e.tally.steps + 1 - st0) then
        .error (.raised (.evaluation (.stepLimit cfg.limit.bound) []))
      else .ok (), e.countStep) := by
  have counted : (modify Engine.countStep : Eval Unit) e = (.ok (), e.countStep) := rfl
  rw [countTask, Action.bind_ok counted, Action.get_bind]
  by_cases exc : cfg.limit.exceeded (e.tally.steps + 1 - st0) = true
  · simp [exc]
    rfl
  · simp [exc]
    rfl

theorem count_eq (v : Value) (e : Engine) : count cfg n v e =
      apply cfg n v [some e.store.size, some (e.store.size + 1)]
        { e with store := e.store.withCounter } := by
  have written : ∀ next : Engine, (set next : Eval PUnit) e = (.ok ⟨⟩, next) := fun next => rfl
  rw [count, Action.get_bind]
  simp only [Action.bind_ok (written _)]
  simp [Store.withCounter]

omit cfg n in
theorem Value.form_of_integer? {datum : Datum} (integer : v.integer? = some datum) :
    v.form = .constant datum := by
  unfold Value.integer? at integer
  split at integer
  · split at integer
    · cases integer
      assumption
    · cases integer
  · cases integer

theorem number_of_ok {r : Value} (counted : count cfg n v e = (.ok r, aft)) :
    number cfg n v e = (.ok r.integer?, aft) := by
  simp only [number, counted]

/-- A value that cannot be counted with stands for no number. -/
theorem number_of_refused {tx : String}
    (counted : count cfg n v e = (.error (.raised (.evaluation (.notAFunction tx) tr)), aft)) :
    number cfg n v e = (.ok none, aft) := by
  simp only [number, counted]

theorem number_of_error (counted : count cfg n v e = (.error stop, aft))
    (os : ∀ tx tr, stop ≠ .raised (.evaluation (.notAFunction tx) tr)) :
    number cfg n v e = (.error stop, aft) := by
  simp only [number, counted]

theorem number_cases {r : Except Stop (Option Datum)} (numbered : number cfg n v e = (r, aft)) :
    (∃ found, count cfg n v e = (.ok found, aft) ∧ r = .ok found.integer?) ∨
      (∃ tx tr, count cfg n v e =
        (.error (.raised (.evaluation (.notAFunction tx) tr)), aft) ∧ r = .ok none) ∨
      ∃ stop, count cfg n v e = (.error stop, aft) ∧ r = .error stop ∧
        ∀ tx tr, stop ≠ .raised (.evaluation (.notAFunction tx) tr) := by
  rcases counted : count cfg n v e with ⟨oc, mid⟩
  cases oc with
  | ok found =>
    cases (number_of_ok cfg n counted).symm.trans numbered
    exact .inl ⟨found, rfl, rfl⟩
  | error stop =>
    by_cases refused : ∃ tx tr, stop = .raised (.evaluation (.notAFunction tx) tr)
    · obtain ⟨tx, tr, rfl⟩ := refused
      cases (number_of_refused cfg n counted).symm.trans numbered
      exact .inr (.inl ⟨tx, tr, rfl, rfl⟩)
    · push Not at refused
      cases (number_of_error cfg n counted refused).symm.trans numbered
      exact .inr (.inr ⟨stop, rfl, rfl, refused⟩)

/-- The number that a count comes to. -/
def tallied : Except Stop Value → Except Stop (Option Datum)
  | .ok r => .ok r.integer?
  | .error (.raised (.evaluation (.notAFunction _) _)) => .ok none
  | .error stop => .error stop

theorem number_eq (v : Value) (e : Engine) :
    number cfg n v e = (tallied (count cfg n v e).1, (count cfg n v e).2) := by
  unfold number tallied
  split <;> simp_all

omit cfg n in
/-- Errors that are alike are both refusals, which count to no number, or errors of the
count. -/
theorem Raised.Alike.tallied {o : Raised} (alike : er.Alike o) :
    (tallied (.error (.raised er)) = .ok none ∧
        tallied (.error (.raised o)) = .ok none) ∨
      (tallied (.error (.raised er)) = .error (.raised er) ∧
        tallied (.error (.raised o)) = .error (.raised o)) := by
  cases alike with
  | evaluation cause tr longer =>
    cases cause with
    | notAFunction tx => exact .inl ⟨rfl, rfl⟩
    | _ => exact .inr ⟨rfl, rfl⟩
  | cyclic lb across tr longer => exact .inr ⟨rfl, rfl⟩
  | same =>
    cases er with
    | evaluation cause tr =>
      cases cause with
      | notAFunction tx => exact .inl ⟨rfl, rfl⟩
      | _ => exact .inr ⟨rfl, rfl⟩
    | _ => exact .inr ⟨rfl, rfl⟩

theorem openClosure_eq (p : Name) (b : Term) (env : Env) (x : Name) (e : Engine) :
    openClosure cfg n p b env x e =
      evaluate cfg n b (.layer p (some e.store.size) env)
        { e with store := e.store.withVariable x } := rfl

theorem perform_closure_ok {r : Value} (form : v.form = .closure p b env)
    (opened : openClosure cfg n p b env (freshName p us) e = (.ok r, aft)) (ts : List Term) :
    (Task.quote v us).perform cfg n ts e =
      (.ok ([.quote r (us ++ [freshName p us]), .bind (freshName p us)], ts), aft) := by
  have quoted : quote cfg n v us e =
      (.ok ([.quote r (us ++ [freshName p us]), .bind (freshName p us)], []), aft) := by
    unfold quote
    rw [form]
    exact Action.bind_ok opened _
  exact Action.bind_ok quoted _

theorem perform_closure_error (form : v.form = .closure p b env)
    (opened : openClosure cfg n p b env (freshName p us) e = (.error stop, aft)) (ts : List Term) :
    (Task.quote v us).perform cfg n ts e = (.error stop, aft) := by
  have quoted : quote cfg n v us e = (.error stop, aft) := by
    unfold quote
    rw [form]
    exact Action.bind_error opened _
  exact Action.bind_error quoted _

theorem perform_neutral (form : v.form = .neutral x args) (us : List Name)
    (ts : List Term) (e : Engine) :
    (Task.quote v us).perform cfg n ts e =
      (.ok (args.map (.quoteThunk · us) ++ [.combine x args.length], ts), e) := by
  have quoted : quote cfg n v us e =
      (.ok (args.map (.quoteThunk · us) ++ [.combine x args.length], []), e) := by
    unfold quote
    rw [form]
    rfl
  exact Action.bind_ok quoted _

/-- An evaluation that does not need the engine.  It does not fail with an error of the
evaluation. -/
def Eval.Still {α : Type} (ac : Eval α) (r : Except Stop α) : Prop :=
  (∀ e, ac e = (r, e)) ∧ ∀ cause tr, r ≠ .error (.raised (.evaluation cause tr))

/-- A task that is done without the engine and leads to no others. -/
def Task.Finishes (tk : Task) (ts : List Term) (r : Except Stop (List Task × List Term)) : Prop :=
  Eval.Still (tk.perform cfg n ts) r ∧ r ≠ .error .outOfFuel ∧
    ∀ added built, r = .ok (added, built) → added = []

/-- A value that is neither a closure nor neutral is read back without the
engine. -/
theorem perform_host (v : Value) (notClosure : ∀ p b env, v.form ≠ .closure p b env)
    (notNeutral : ∀ x args, v.form ≠ .neutral x args) (us : List Name) (ts : List Term) :
    ∃ r, (Task.quote v us).Finishes cfg n ts r := by
  cases form : v.form with
  | closure p b env => exact absurd form (notClosure p b env)
  | neutral x args => exact absurd form (notNeutral x args)
  | primitive x =>
    refine ⟨.ok ([], .var x :: ts), ⟨fun e => ?_, by simp⟩, by simp, by simp_all⟩
    have quoted : quote cfg n v us e = (.ok ([], [.var x]), e) := by
      unfold quote
      rw [form]
      rfl
    exact Action.bind_ok quoted _
  | absent =>
    refine ⟨.error (.raised .noThunk), ⟨fun e => ?_, by simp⟩, by simp, by simp⟩
    have quoted : quote cfg n v us e = (.error (.raised .noThunk), e) := by
      unfold quote
      rw [form]
      rfl
    exact Action.bind_error quoted _
  | constant dt =>
    by_cases wr : dt.isWritable = true
    · refine ⟨.ok ([], .var dt.written :: ts), ⟨fun e => ?_, by simp⟩, by simp, by simp_all⟩
      have quoted : quote cfg n v us e = (.ok ([], [.var dt.written]), e) := by
        unfold quote
        rw [form]
        simp only [wr, if_true]
        rfl
      exact Action.bind_ok quoted _
    · refine ⟨.error (.raised .unwritable), ⟨fun e => ?_, by simp⟩, by simp, by simp⟩
      have quoted : quote cfg n v us e = (.error (.raised .unwritable), e) := by
        unfold quote
        rw [form]
        simp only [wr]
        rfl
      exact Action.bind_error quoted _

theorem perform_quoteThunk_ok (forced : force cfg n th e = (.ok v, aft)) (us : List Name)
    (ts : List Term) :
    (Task.quoteThunk th us).perform cfg n ts e = (Task.quote v us).perform cfg n ts aft := by
  simp only [Task.perform]
  exact Action.bind_ok forced _

theorem perform_quoteThunk_error (failed : force cfg n th e = (.error stop, aft)) (us : List Name)
    (ts : List Term) : (Task.quoteThunk th us).perform cfg n ts e = (.error stop, aft) := by
  simp only [Task.perform]
  exact Action.bind_error failed _

theorem perform_bind (x : Name) (ts : List Term) : ∃ r, (Task.bind x).Finishes cfg n ts r := by
  cases ts with
  | nil => exact ⟨.error (.raised .noTerm), ⟨fun e => rfl, by simp⟩, by simp, by simp⟩
  | cons b ts =>
    exact ⟨.ok ([], .lam x b :: ts), ⟨fun e => rfl, by simp⟩, by simp, by simp_all⟩

theorem perform_combine (x : Name) (k : Nat) (ts : List Term) :
    ∃ r, (Task.combine x k).Finishes cfg n ts r := by
  by_cases few : ts.length < k
  · refine ⟨.error (.raised .noTerm), ⟨fun e => ?_, by simp⟩, by simp, by simp⟩
    simp only [Task.perform, few, if_true]
    rfl
  · refine ⟨.ok ([], (Term.var x).apply (ts.take k).reverse :: ts.drop k),
      ⟨fun e => ?_, by simp⟩, by simp, by simp_all⟩
    simp only [Task.perform, few, if_false]
    rfl

theorem performAll_nil (ts : List Term) :
    ∃ r, ∀ st0, Eval.Still (performAll cfg st0 n [] ts) r := by
  cases ts with
  | nil =>
    exact ⟨.error (.raised .noTerm), fun st0 => ⟨fun e => by cases n <;> rfl, by simp⟩⟩
  | cons t ts => exact ⟨.ok t, fun st0 => ⟨fun e => by cases n <;> rfl, by simp⟩⟩

theorem performAll_exceeded (exc : cfg.limit.exceeded (e.tally.steps + 1 - st0) = true) (tk : Task)
    (tks : List Task) (ts : List Term) :
    performAll cfg st0 (n + 1) (tk :: tks) ts e =
      (.error (.raised (.evaluation (.stepLimit cfg.limit.bound) [])), e.countStep) := by
  simp [performAll, countTask_eq, exc]

theorem performAll_ok {added : List Task}
    (within : cfg.limit.exceeded (e.tally.steps + 1 - st0) = false)
    (perf : tk.perform cfg n ts e.countStep = (.ok (added, built), aft)) (tks : List Task) :
    performAll cfg st0 (n + 1) (tk :: tks) ts e =
      performAll cfg st0 n (added ++ tks) built aft := by
  simp [performAll, countTask_eq, within, perf]

theorem performAll_error (within : cfg.limit.exceeded (e.tally.steps + 1 - st0) = false)
    (perf : tk.perform cfg n ts e.countStep = (.error stop, aft)) (tks : List Task) :
    performAll cfg st0 (n + 1) (tk :: tks) ts e = (.error stop, aft) := by
  simp [performAll, countTask_eq, within, perf]

end ReadBack

/-- The configuration in which the value of a thunk is asked for. -/
def askFor (a : Address) (s : Store) : Configuration :=
  ⟨some (.var "", .layer "" (some a) (.root 0)), Value.absent, [], s⟩

/-- The state in which the evaluation of a thunk starts. -/
def entered (a : Address) (th : Thunk) (e : Engine) : State :=
  ⟨th.code?, Value.absent, [.update a], e.begin a th.name⟩

/-- Forcing a thunk that has no value is a run that begins by entering it. -/
theorem move_entered (host : Host) {th : Thunk} (held : e.store.thunk? a = some th)
    (unforced : th.phase = .unforced) :
    Move host (askFor a e.store) (entered a th e).configuration := by
  have move : Move host (askFor a e.store)
      ⟨th.code?, Value.absent, [.update a],
        e.store.update a Thunk.begin⟩ := .enter (by simp [Store.find]) held unforced
  simpa [entered, State.configuration] using move

section Force

variable (cfg : Settings) (n : Nat)

theorem force_of_forced {th : Thunk} (held : e.store.thunk? a = some th)
    (forced : th.phase = .forced) : force cfg n (some a) e = (.ok th.value, e.countHit) := by
  simp [force, held, forced]

theorem force_of_unforced {th : Thunk} (held : e.store.thunk? a = some th)
    (unforced : th.phase = .unforced) : force cfg n (some a) e = run cfg n 0 (entered a th e) := by
  simp [force, held, unforced, State.enter_of_unforced, entered]

theorem force_of_forcing {th : Thunk} (held : e.store.thunk? a = some th)
    (forcing : th.phase = .forcing) : force cfg n (some a) e = (.error (.raised th.cycle), e) := by
  simp [force, held, forcing, State.enter_of_forcing]

theorem force_of_none (empty : th.bind e.store.thunk? = none) :
    force cfg n th e = (.error (.raised .noThunk), e) := by
  cases th with
  | none => rfl
  | some a => grind [force]

theorem reaches_of_evaluate {cfg : Settings} {n : Nat}
    (evd : evaluate cfg n t env e = (.ok v, aft)) :
    Configuration.Reaches cfg.host ⟨some (t, env), Value.absent, [], e.store⟩ v aft.store :=
  reaches_of_run evd

theorem reaches_of_apply {cfg : Settings} {n : Nat}
    (applied : apply cfg n f args e = (.ok v, aft)) :
    Configuration.Reaches cfg.host ⟨none, f, args.map .argument, e.store⟩ v aft.store :=
  reaches_of_run applied

/-- Forcing a thunk returns what the machine comes to when a variable is evaluated that
stands for it. -/
theorem reaches_of_force {cfg : Settings} {n : Nat} (forced : force cfg n (some a) e = (.ok v, aft))
    (x : Name) (env : Env) :
    Configuration.Reaches cfg.host ⟨some (.var x, .layer x (some a) env), Value.absent, [],
      e.store⟩ v aft.store := by
  have found : e.store.find x (.layer x (some a) env) = some a := by simp [Store.find]
  cases held : e.store.thunk? a with
  | none =>
    have failed : force cfg n (some a) e = _ := force_of_none cfg n held
    cases failed.symm.trans forced
  | some th =>
    cases phase : th.phase with
    | forced =>
      rw [force_of_forced cfg n held phase] at forced
      cases forced
      exact ⟨1, .step (.reuse found held phase) (.refl _)⟩
    | forcing =>
      rw [force_of_forcing cfg n held phase] at forced
      cases forced
    | unforced =>
      rw [force_of_unforced cfg n held phase] at forced
      obtain ⟨k, moves⟩ := reaches_of_run forced
      refine ⟨k + 1, .step (.enter found held phase) ?_⟩
      simpa [entered, State.configuration] using moves

/-- Without a bound on steps, a thunk whose value the machine comes to is forced. -/
theorem force_of_reaches {cfg : Settings} (unb : ∀ sts, cfg.limit.exceeded sts = false)
    (reaches : (askFor a e.store).Reaches cfg.host v s) :
    ∃ n aft, force cfg n (some a) e = (.ok v, aft) ∧ aft.store = s := by
  obtain ⟨k, moves⟩ := reaches
  cases moves with
  | @step k _ _ _ move rest =>
    cases move with
    | reuse found held forced =>
      simp only [Store.find, if_true, Option.some.injEq] at found
      subst found
      obtain ⟨same, _⟩ := rest.eq_of_halted fun next move => move.stack_ne_nil rfl rfl
      cases same
      exact ⟨0, _, force_of_forced cfg 0 held forced, rfl⟩
    | @enter _ _ _ _ _ _ th found held unforced =>
      simp only [Store.find, if_true, Option.some.injEq] at found
      subst found
      have begun : Moves cfg.host k (entered a th e).configuration ⟨none, v, [], s⟩ := by
        simpa [entered, State.configuration] using rest
      obtain ⟨aft, ran, stored, _⟩ :=
        run_of_moves_returned (entered a th e) begun (unb _) (Nat.lt_succ_self _)
      exact ⟨_, aft, (force_of_unforced cfg _ held unforced).trans ran, stored⟩

end Force

/-! ### What requests pass through -/

section Trails

variable (cfg : Settings) (n : Nat)

/-- The states that forcing a thunk passes through. -/
def forceTrail (th : Option Address) (e : Engine) : List State :=
  match th with
  | none => []
  | some a =>
    match e.store.thunk? a with
    | none => []
    | some th =>
      if th.phase = .unforced then trail cfg n 0 (entered a th e)
      else []

omit cfg n in
/-- Forcing a thunk is a run that starts by entering it, or it is answered at once. -/
theorem force_cases (th : Option Address) (e : Engine) :
    (∃ a held, th = some a ∧ e.store.thunk? a = some held ∧
        held.phase = .unforced ∧ ∀ cfg n, force cfg n th e = run cfg n 0 (entered a held e) ∧
          forceTrail cfg n th e = CallByNeed.trail cfg n 0 (entered a held e)) ∨
      ∃ r aft, aft.store = e.store ∧ aft.events = e.events ∧
        aft.tally.steps = e.tally.steps ∧ r ≠ .error .outOfFuel ∧
        (∀ cause tr, r = .error (.raised (.evaluation cause tr)) →
          ∃ a lb, e.store.phase? a = some .forcing ∧ cause = .cyclic lb) ∧
        ∀ cfg n, force cfg n th e = (r, aft) ∧ forceTrail cfg n th e = [] := by
  cases th with
  | none => exact .inr ⟨_, e, rfl, rfl, rfl, by simp, by simp, fun _ _ => ⟨rfl, rfl⟩⟩
  | some a =>
    cases held : e.store.thunk? a with
    | none =>
      exact .inr ⟨_, e, rfl, rfl, rfl, by simp, by simp, fun cfg n =>
        ⟨force_of_none cfg n held, by simp [forceTrail, held]⟩⟩
    | some th =>
      cases phase : th.phase with
      | unforced =>
        exact .inl ⟨a, th, rfl, held, phase, fun cfg n =>
          ⟨force_of_unforced cfg n held phase, by simp [forceTrail, held, phase]⟩⟩
      | forced =>
        exact .inr ⟨_, e.countHit, rfl, rfl, rfl, by simp, by simp, fun cfg n =>
          ⟨force_of_forced cfg n held phase, by simp [forceTrail, held, phase]⟩⟩
      | forcing =>
        refine .inr ⟨_, e, rfl, rfl, rfl, by simp, fun cause tr cycle => ?_,
          fun cfg n => ⟨force_of_forcing cfg n held phase, by simp [forceTrail, held, phase]⟩⟩
        refine ⟨a, th.label, by simp [Store.phase?, held, phase], ?_⟩
        unfold Thunk.cycle at cycle
        split at cycle <;> cases cycle
        rfl

/-- The states that opening a value for reading it back passes through. -/
def quoteTrail (v : Value) (us : List Name) (e : Engine) : List State :=
  match v.form with
  | .closure p b env =>
    trail cfg n 0
      ⟨some (b, .layer p (some e.store.size) env), Value.absent, [],
        { e with store := e.store.withVariable (freshName p us) }⟩
  | _ => []

def Task.trail (e : Engine) : Task → List State
  | .quote v us => quoteTrail cfg n v us e
  | .quoteThunk th us =>
    forceTrail cfg n th e ++
      match force cfg n th e with
      | (.ok v, e) => quoteTrail cfg n v us e
      | _ => []
  | _ => []

/-- The states that the runs of a read-back pass through. -/
def performTrail (cfg : Settings) (st0 : Nat) :
    (n : Nat) → List Task → List Term → Engine → List State
  | _, [], _, _ => []
  | 0, _ :: _, _, _ => []
  | n + 1, tk :: tks, ts, e =>
    match countTask cfg st0 e with
    | (.error _, _) => []
    | (.ok (), e) =>
      tk.trail cfg n e ++
        match tk.perform cfg n ts e with
        | (.error _, _) => []
        | (.ok (added, ts), e) =>
          performTrail cfg st0 n (added ++ tks) ts e

/-- The states that the machine passes through for a request. -/
def Request.trail (rq : Request) (e : Engine) : List State :=
  match rq with
  | .evaluate t env =>
    CallByNeed.trail cfg n 0 ⟨some (t, env), Value.absent, [], e⟩
  | .force th => forceTrail cfg n th e
  | .apply f args =>
    CallByNeed.trail cfg n 0 ⟨none, f, args.map .argument, e⟩
  | .normalize v =>
    performTrail cfg e.tally.steps n [.quote v []] [] e
  | .number v =>
    CallByNeed.trail cfg n 0
      ⟨none, v, [some e.store.size, some (e.store.size + 1)].map .argument,
        { e with store := e.store.withCounter }⟩

end Trails

/-- The state in which a closure is opened, to be read back. -/
def opening (p : Name) (b : Term) (env : Env) (us : List Name) (e : Engine) : State :=
  ⟨some (b, .layer p (some e.store.size) env), Value.absent, [],
    { e with store := e.store.withVariable (freshName p us) }⟩

/-- The states that two evaluations pass through, one after the other. -/
def Eval.passing {α : Type} (ac : Eval α) (trail : Engine → List State)
    (trails : α → Engine → List State) (e : Engine) : List State := trail e ++
    match ac e with
    | (.ok v, aft) => trails v aft
    | (.error _, _) => []

/-- A property of evaluations and of the states that they pass through.  It holds of the parts
of reading back, and of parts that follow each other. -/
structure Traced (cfg : Settings)
    (tells : ∀ {α : Type}, Eval α → (Engine → List State) → Prop) : Prop where
  still : ∀ {α : Type} {ac : Eval α} {r : Except Stop α}, ac.Still r → tells ac fun _ => []
  bind : ∀ {α β : Type} {ac : Eval α} {trail : Engine → List State} {next : α → Eval β}
    {trails : α → Engine → List State}, tells ac trail →
    (∀ v, tells (next v) (trails v)) →
    tells (ac >>= next) (ac.passing trail trails)
  counted : ∀ st0, tells (countTask cfg st0) fun _ => []
  opens : ∀ n p b env us,
    tells (openClosure cfg n p b env (freshName p us)) fun e =>
      trail cfg n 0 (opening p b env us e)
  forces : ∀ n th, tells (force cfg n th) (forceTrail cfg n th)

namespace Traced

variable {cfg : Settings} {tells : ∀ {α : Type}, Eval α → (Engine → List State) → Prop}

theorem quote (traced : Traced cfg tells) (n : Nat) (v : Value) (us : List Name) (ts : List Term) :
    tells ((Task.quote v us).perform cfg n ts) (quoteTrail cfg n v us) := by
  cases form : v.form with
  | closure p b env =>
    have performs : (Task.quote v us).perform cfg n ts =
        openClosure cfg n p b env (freshName p us) >>=
          fun r => pure ([.quote r (us ++ [freshName p us]), .bind (freshName p us)], ts) := by
      simp [Task.perform, CallByNeed.quote, form]
    have passes : quoteTrail cfg n v us = Eval.passing
        (openClosure cfg n p b env (freshName p us)) (fun e => trail cfg n 0 (opening p b env us e))
        fun _ _ => [] := by
      funext e
      simp only [quoteTrail, form, Eval.passing]
      split <;> exact (List.append_nil _).symm
    rw [performs, passes]
    exact traced.bind (traced.opens n p b env us) fun _ => traced.still ⟨fun _ => rfl, by simp⟩
  | neutral x args =>
    rw [show quoteTrail cfg n v us = fun _ => [] by
      funext e; simp only [quoteTrail, form]]
    exact traced.still ⟨perform_neutral cfg n form us ts, by simp⟩
  | _ =>
    obtain ⟨oc, same, _⟩ := perform_host cfg n v (by simp [form]) (by simp [form]) us ts
    rw [show quoteTrail cfg n v us = fun _ => [] by
      funext e; simp only [quoteTrail, form]]
    exact traced.still same

theorem perform (traced : Traced cfg tells) (n : Nat) (tk : Task) (ts : List Term) :
    tells (tk.perform cfg n ts) fun e => tk.trail cfg n e := by
  cases tk with
  | quote v us => exact traced.quote n v us ts
  | quoteThunk th us =>
    have passes : (fun e => (Task.quoteThunk th us).trail cfg n e) =
        Eval.passing (force cfg n th) (forceTrail cfg n th) fun v => quoteTrail cfg n v us := by
      funext e
      simp only [Task.trail, Eval.passing]
      rcases force cfg n th e with ⟨_ | _, _⟩ <;> rfl
    rw [passes]
    exact traced.bind (traced.forces n th) fun v => traced.quote n v us ts
  | bind x =>
    obtain ⟨oc, same, _⟩ := perform_bind cfg n x ts
    exact traced.still same
  | combine x k =>
    obtain ⟨oc, same, _⟩ := perform_combine cfg n x k ts
    exact traced.still same

theorem performAll (traced : Traced cfg tells) (st0 n : Nat) (tks : List Task) (ts : List Term) :
    tells (performAll cfg st0 n tks ts) (performTrail cfg st0 n tks ts) := by
  induction n generalizing tks ts with
  | zero =>
    cases tks with
    | nil =>
      obtain ⟨oc, same⟩ := performAll_nil cfg 0 ts
      exact traced.still (same st0)
    | cons tk tks => exact traced.still ⟨fun _ => rfl, by simp⟩
  | succ n ih =>
    cases tks with
    | nil =>
      obtain ⟨oc, same⟩ := performAll_nil cfg (n + 1) ts
      exact traced.still (same st0)
    | cons tk tks =>
      have performs : CallByNeed.performAll cfg st0 (n + 1) (tk :: tks) ts =
          (countTask cfg st0 >>= fun _ => tk.perform cfg n ts >>=
            fun built => CallByNeed.performAll cfg st0 n (built.1 ++ tks)
              built.2 : Eval Term) := by grind [CallByNeed.performAll, Action.bind_eq]
      have passes : performTrail cfg st0 (n + 1) (tk :: tks) ts =
          (countTask cfg st0).passing (fun _ => []) fun _ =>
            (tk.perform cfg n ts).passing (fun e => tk.trail cfg n e)
              fun built => performTrail cfg st0 n (built.1 ++ tks) built.2 := by
        funext e
        simp only [performTrail, Eval.passing]
        rcases countTask cfg st0 e with ⟨_ | _, mid⟩
        · rfl
        · dsimp only
          rcases tk.perform cfg n ts mid with ⟨_ | _, _⟩ <;> rfl
      rw [performs, passes]
      exact traced.bind (traced.counted st0) fun _ =>
        traced.bind (traced.perform n tk ts) fun built => ih _ _

end Traced

/-- A relation between the stores before and after a request, given by what the
parts of a request do.  Requests that stop for an ignored reason are left out. -/
structure Kept (cfg : Settings) (ignored : Stop → Prop)
    (rel : Store → Store → Prop) : Prop where
  refl : ∀ s, rel s s
  trans : ∀ {fst snd thd}, rel fst snd → rel snd thd → rel fst thd
  alloc : ∀ s v, rel s (s.alloc (.evaluated v none)).2
  build : ∀ s form, rel s (s.build form).2
  run : ∀ {st0 : Configuration} {k n taken : Nat} {st : State}
    {r : Except Stop Value} {e : Engine},
    (∀ a, .update a ∉ st0.stack) →
    Moves cfg.host k st0 st.configuration →
    run cfg n taken st = (r, e) →
    (∀ stop, ignored stop → r ≠ .error stop) → rel st0.store e.store

namespace Kept

variable {cfg : Settings} {ignored : Stop → Prop} {rel : Store → Store → Prop} {n : Nat}

/-- What rows of moves keep is kept by runs, if a run that is given up keeps it. -/
theorem of_moves (refl : ∀ s, rel s s)
    (trans : ∀ {fst snd thd}, rel fst snd → rel snd thd → rel fst thd)
    (alloc : ∀ s v, rel s (s.alloc (.evaluated v none)).2)
    (build : ∀ s form, rel s (s.build form).2)
    (moves : ∀ {st0 last : Configuration} {k : Nat},
      (∀ a, .update a ∉ st0.stack) → Moves cfg.host k st0 last →
      rel st0.store last.store)
    (abandon : ∀ {bef : Store} {st : State} (er : Raised),
      rel bef st.engine.store → rel bef (st.abandon er).2.store) : Kept cfg ignored rel := by
  refine ⟨refl, trans, alloc, build, ?_⟩
  intro st0 k n taken st r e noFrames led ran _
  obtain ⟨more, last, further, _, ending⟩ := run_spec cfg n taken st
  have kept : rel st0.store last.engine.store := moves noFrames (led.trans further)
  rw [ran] at ending
  rcases ending with ⟨_, exh⟩ | ⟨_, _, ending⟩
  · simp_all
  · generalize oc : (r, e) = pair at ending
    cases ending with
    | returned => simp_all
    | limited =>
      rw [show e = _ from congrArg Prod.snd oc]
      exact abandon _ kept
    | failed _ _ sameEngine _ =>
      rw [show e = _ from congrArg Prod.snd oc]
      simp_all

section

variable (kept : Kept cfg ignored rel)

include kept

theorem evaluate (evd : CallByNeed.evaluate cfg n t env e = (r, aft))
    (ended : ∀ stop, ignored stop → r ≠ .error stop) : rel e.store aft.store := by
  have moves : Moves cfg.host 0 ⟨some (t, env), Value.absent, [], e.store⟩
      (State.mk (some (t, env)) Value.absent [] e).configuration := .refl _
  exact kept.run (by simp) moves evd ended

theorem apply (applied : CallByNeed.apply cfg n f args e = (r, aft))
    (ended : ∀ stop, ignored stop → r ≠ .error stop) : rel e.store aft.store := by
  have moves : Moves cfg.host 0 ⟨none, f, args.map .argument, e.store⟩
      (State.mk none f (args.map .argument) e).configuration := .refl _
  exact kept.run (by simp) moves applied ended

theorem force (forced : CallByNeed.force cfg n th e = (r, aft))
    (ended : ∀ stop, ignored stop → r ≠ .error stop) : rel e.store aft.store := by
  rcases force_cases th e with ⟨a, held, rfl, there, unforced, runs⟩ |
    ⟨_, _, s, _, _, _, _, answers⟩
  · rw [(runs cfg n).1] at forced
    have moves := Moves.step (move_entered cfg.host there unforced) (.refl _)
    exact kept.run (by simp [askFor]) moves forced ended
  · cases (answers cfg n).1.symm.trans forced
    rw [s]
    exact kept.refl _

theorem withVariable (s : Store) (x : Name) : rel s (s.withVariable x) :=
  kept.trans (kept.build s _) (kept.alloc _ _)

theorem withCounter (s : Store) : rel s s.withCounter :=
  kept.trans (kept.alloc s _) (kept.alloc _ _)

/-- What the parts of reading back keep, reading back keeps. -/
theorem traced :
    Traced cfg fun ac _ => ∀ {e aft r}, ac e = (r, aft) →
      (∀ stop, ignored stop → r ≠ .error stop) → rel e.store aft.store where
  still unused := by
    intro e aft r perf _
    rw [unused.1] at perf
    cases perf
    exact kept.refl _
  bind fst rest := by
    intro e aft r perf ended
    rcases Action.bind_cases perf with ⟨stop, rfl, stopped⟩ | ⟨v, mid, began, late⟩
    · grind
    · exact kept.trans (fst began (by simp)) (rest v late ended)
  counted st0 := by
    intro e aft r perf _
    rw [countTask_eq] at perf
    cases perf
    exact kept.refl _
  opens n p b env us := by
    intro e aft r opened ended
    rw [openClosure_eq] at opened
    exact kept.trans (kept.withVariable e.store _) (kept.evaluate opened ended)
  forces n th := kept.force

theorem count (counted : CallByNeed.count cfg n v e = (r, aft))
    (ended : ∀ stop, ignored stop → r ≠ .error stop) : rel e.store aft.store := by
  rw [count_eq] at counted
  exact kept.trans (kept.withCounter e.store) (kept.apply counted ended)

theorem number (heeded : ∀ v tr, ¬ ignored (.raised (.evaluation (.notAFunction v) tr)))
    {r : Except Stop (Option Datum)} (numbered : CallByNeed.number cfg n v e = (r, aft))
    (ended : ∀ stop, ignored stop → r ≠ .error stop) : rel e.store aft.store := by
  rcases number_cases cfg n numbered with
    ⟨found, counted, rfl⟩ | ⟨tx, tr, counted, rfl⟩ | ⟨stop, counted, rfl, _⟩
  · exact kept.count counted (by simp)
  · refine kept.count counted fun stop isIgnored failed => ?_
    grind
  · exact kept.count counted (by simpa using ended)

end

/-- What the parts of a request keep, the request keeps, however it ends. -/
theorem perform (kept : Kept cfg (· = .outOfFuel) rel) {rq : Request} {r : Except Stop Answer}
    (perf : rq.perform cfg n e = (r, aft)) (ended : r ≠ .error .outOfFuel) :
    rel e.store aft.store := by
  cases rq with
  | evaluate t env =>
    cases perf
    refine kept.evaluate rfl fun stop isFuel failed => ended ?_
    simp [isFuel ▸ failed, Except.map]
  | force th =>
    cases perf
    refine kept.force rfl fun stop isFuel failed => ended ?_
    simp [isFuel ▸ failed, Except.map]
  | apply f args =>
    cases perf
    refine kept.apply rfl fun stop isFuel failed => ended ?_
    simp [isFuel ▸ failed, Except.map]
  | normalize v =>
    cases perf
    refine kept.traced.performAll _ _ _ _ rfl fun stop isFuel failed => ended ?_
    simp [isFuel ▸ failed, Except.map]
  | number v =>
    cases perf
    refine kept.number (by simp) rfl fun stop isFuel failed => ended ?_
    simp [isFuel ▸ failed, Except.map]

end Kept

/-- The stores that an engine can come to hold by requests with admitted
settings, whatever their outcomes. -/
inductive ReachedUnder (admitted : Settings → Prop) (st0 : Store) : Store → Prop where
  | start : ReachedUnder admitted st0 st0
  | request {cfg : Settings} {n : Nat} {rq : Request} {e aft : Engine}
      {r : Except Stop Answer} (ely : ReachedUnder admitted st0 e.store)
      (allowed : admitted cfg)
      (perf : rq.perform cfg n e = (r, aft))
      (ended : r ≠ .error .outOfFuel) : ReachedUnder admitted st0 aft.store

theorem ReachedUnder.trans {fst snd thd : Store}
    (early : ReachedUnder admitted fst snd) (late : ReachedUnder admitted snd thd) :
    ReachedUnder admitted fst thd := by
  induction late with
  | start => exact early
  | request _ allowed perf ended ih => exact .request ih allowed perf ended

/-- The stores that an engine can come to hold by any requests. -/
abbrev Reached : Store → Store → Prop := ReachedUnder fun _ => True

theorem Kept.reached {rel : Store → Store → Prop} (refl : ∀ s, rel s s)
    (kept : ∀ cfg, admitted cfg → Kept cfg (· = .outOfFuel) rel) {st0 : Store}
    (reached : ReachedUnder admitted st0 s) : rel st0 s := by
  induction reached with
  | start => exact refl st0
  | request _ allowed perf ended ih =>
    exact (kept _ allowed).trans ih ((kept _ allowed).perform perf ended)

end CallByNeed
