import CallByNeed.Proofs.Delaying

/-!
# The natural semantics of call by need

`Yields` defines evaluation by recursion on what is asked for, without a stack.
A variable gives the value that its thunk keeps, or marks the thunk, evaluates
it and keeps the value; an abstraction gives a closure; an application delays
its argument, evaluates its function and applies the result.  No transitions are
counted.  An error names the thunks that were being evaluated, outermost first;
they are put back at the end (`Outcome.conclude`).

The machine computes what this relation yields, and nothing else.

A thunk can be unforced and hold no term, if it was marked and put back by hand.
Its value is then the one that was computed last, which is why demands carry it.
-/

variable {e : Engine}

namespace CallByNeed

/-- What can be asked for.  `last` is the value that was computed last. -/
inductive Demand where
  /-- The value of a term. -/
  | evaluate (last : Value) (t : Term) (env : Env)
  /-- The value of a thunk.  The use of a value that is kept is counted or not. -/
  | force (counted : Bool) (last : Value) (pl : Option Address)
  /-- The value of a function applied to a thunk. -/
  | apply (f : Value) (arg : Option Address)
  /-- The value of a function applied to thunks. -/
  | applyAll (f : Value) (args : List (Option Address))

/-- What a demand leads to: a value, or an error with the thunks whose evaluation
was abandoned, outermost first. -/
inductive Outcome where
  | returned (v : Value)
  | raised (er : Raised) (abd : List Address)

/-- Big-step evaluation. -/
inductive Yields (host : Host) : Demand → Engine → Outcome → Engine → Prop where
  | unbound {last x env e} (lost : e.store.find x env = none) :
      Yields host (.evaluate last (.var x) env) e (.raised (.evaluation (.unbound x) []) []) e
  | lookup {last x env e a oc aft} (found : e.store.find x env = some a)
      (forces : Yields host (.force true last (some a)) e oc aft) :
      Yields host (.evaluate last (.var x) env) e oc aft
  | abstraction {last p b env e} :
      Yields host (.evaluate last (.lam p b) env) e
        (.returned (e.store.build (.closure p b env)).1)
        { e with store := (e.store.build (.closure p b env)).2 }
  | application {last f arg env e v mid oc aft}
      (evaluates : Yields host (.evaluate last f env)
        { e with store := (e.store.delay arg env).2 } (.returned v) mid)
      (applies : Yields host (.apply v (some (e.store.delay arg env).1)) mid oc aft) :
      Yields host (.evaluate last (.app f arg) env) e oc aft
  | noFunction {last f arg env e er abd aft}
      (fails : Yields host (.evaluate last f env) { e with store := (e.store.delay arg env).2 }
        (.raised er abd) aft) :
      Yields host (.evaluate last (.app f arg) env) e (.raised er abd) aft
  /-- The value is there already. -/
  | kept {counted last a e th} (held : e.store.thunk? a = some th)
      (forced : th.phase = .forced) :
      Yields host (.force counted last (some a)) e (.returned th.value)
        (if counted then e.countHit else e)
  | nothing {counted last pl e} (empty : pl.bind e.store.thunk? = none) :
      Yields host (.force counted last pl) e (.raised .noThunk []) e
  /-- The thunk is marked while its term is evaluated, and keeps the value. -/
  | memo {counted last a e th t env v aft} (held : e.store.thunk? a = some th)
      (unforced : th.phase = .unforced) (code : th.code? = some (t, env))
      (evaluates : Yields host (.evaluate last t env) (e.begin a th.name) (.returned v) aft) :
      Yields host (.force counted last (some a)) e (.returned v) (aft.memoize a v)
  | abandon {counted last a e th t env er abd aft} (held : e.store.thunk? a = some th)
      (unforced : th.phase = .unforced) (code : th.code? = some (t, env))
      (fails : Yields host (.evaluate last t env) (e.begin a th.name) (.raised er abd) aft) :
      Yields host (.force counted last (some a)) e (.raised er (a :: abd)) aft
  /-- There is no term to evaluate. -/
  | blank {counted last a e th} (held : e.store.thunk? a = some th)
      (unforced : th.phase = .unforced) (noCode : th.code? = none) :
      Yields host (.force counted last (some a)) e (.returned last)
        ((e.begin a th.name).memoize a last)
  /-- The thunk needs its own value. -/
  | blackHole {counted last a e th}
      (held : e.store.thunk? a = some th) (forcing : th.phase = .forcing) :
      Yields host (.force counted last (some a)) e (.raised th.cycle []) e
  | closure {f arg e p b env oc aft} (form : f.form = .closure p b env)
      (evaluates : Yields host (.evaluate f b (.layer p arg env)) e oc aft) :
      Yields host (.apply f arg) e oc aft
  | neutral {f arg e x args} (form : f.form = .neutral x args) :
      Yields host (.apply f arg) e (.returned (e.store.build (.neutral x (args ++ [arg]))).1)
        { e with
          store := (e.store.build (.neutral x (args ++ [arg]))).2 }
  | primitive {f arg e x v aft r} (form : f.form = .primitive x)
      (forces : Yields host (.force false f arg) e (.returned v) aft)
      (computed : host x v = .ok r) :
      Yields host (.apply f arg) e (.returned r) aft
  | hostFails {f arg e x v aft er} (form : f.form = .primitive x)
      (forces : Yields host (.force false f arg) e (.returned v) aft)
      (failed : host x v = .error er) :
      Yields host (.apply f arg) e (.raised er []) aft
  | noArgument {f arg e x er abd aft} (form : f.form = .primitive x)
      (fails : Yields host (.force false f arg) e (.raised er abd) aft) :
      Yields host (.apply f arg) e (.raised er abd) aft
  | refused {f arg e} (refuses : f.form.isApplicable = false) :
      Yields host (.apply f arg) e (.raised f.refusal []) e
  | applied {f e} : Yields host (.applyAll f []) e (.returned f) e
  | applyNext {f arg args e v mid oc aft}
      (applies : Yields host (.apply f arg) e (.returned v) mid)
      (rest : Yields host (.applyAll v args) mid oc aft) :
      Yields host (.applyAll f (arg :: args)) e oc aft
  | applyFails {f arg args e er abd aft}
      (fails : Yields host (.apply f arg) e (.raised er abd) aft) :
      Yields host (.applyAll f (arg :: args)) e (.raised er abd) aft

/-- An error with a trace, unless it has one or takes none. -/
def Raised.withTrace (tr : List String) : Raised → Raised
  | .evaluation cause [] => .evaluation cause tr
  | er => er

theorem State.traced_eq (st : State) (er : Raised) : st.traced er = er.withTrace st.trace := by rfl

/-- The end of an evaluation: the thunks that were abandoned are named in the trace
of the error and put back. -/
def Outcome.conclude (e : Engine) : Outcome → Except Raised Value × Engine
  | .returned v => (.ok v, e)
  | .raised er abd =>
    (.error (er.withTrace (abd.filterMap fun a =>
        (e.store.thunk? a).map Thunk.label)),
      abd.foldl (fun e a => e.update a Thunk.reset) e)

namespace Engine

/-- An engine that has counted more transitions. -/
def stepped (e : Engine) (k : Nat) : Engine :=
  { e with tally := { e.tally with steps := e.tally.steps + k } }

/-- An engine that has counted no transitions. -/
def unstepped (e : Engine) : Engine := { e with tally := { e.tally with steps := 0 } }

variable (e : Engine) (k : Nat)

@[simp] theorem store_stepped : (e.stepped k).store = e.store := rfl

@[simp] theorem stepped_zero : e.stepped 0 = e := rfl

@[simp] theorem unstepped_stepped : (e.stepped k).unstepped = e.unstepped := rfl

theorem stepped_notify (kd : EventKind) (x : Option Name) :
    (e.stepped k).notify kd x = (e.notify kd x).stepped k := by
  cases x <;> rfl

theorem stepped_begin (a : Address) (x : Option Name) :
    (e.stepped k).begin a x = (e.begin a x).stepped k := by
  simp only [begin]
  rw [← stepped_notify]
  rfl

theorem stepped_memoize (a : Address) (v : Value) :
    (e.stepped k).memoize a v = (e.memoize a v).stepped k := by
  simp only [memoize]
  rw [← stepped_notify]
  rfl

theorem stepped_resets (ads : List Address) :
    ads.foldl (fun e a => e.update a Thunk.reset)
        (e.stepped k) = (ads.foldl (fun e a => e.update a Thunk.reset) e).stepped k := by
  induction ads generalizing e with
  | nil => rfl
  | cons fst rest ih => exact ih (e.update fst Thunk.reset)

end Engine

/-! ### Abandoned thunks can be named -/

variable {demand : Demand} {aft : Engine} {oc : Outcome} {a : Address} {n : Nat}

/-- A thunk that is being evaluated is left alone by everything else. -/
theorem Yields.forcing_kept (yields : Yields host demand e oc aft)
    (held : e.store.thunk? a = some th) (forcing : th.phase = .forcing) :
    aft.store.thunk? a = some th := by
  -- what is marked next is unforced, so it is another thunk
  have differs : ∀ {e : Engine} {entered : Address} {o : Thunk}, e.store.thunk? a = some th →
      e.store.thunk? entered = some o → o.phase = .unforced → entered ≠ a := by grind
  induction yields with
  | unbound | nothing | blackHole | refused | applied | abstraction | neutral => exact held
  | lookup _ _ ih => exact ih held
  | application _ _ fst snd => exact snd (fst (Store.thunk?_delay held _ _))
  | noFunction _ ih => exact ih (Store.thunk?_delay held _ _)
  | @kept counted =>
    cases counted <;> exact held
  | memo there unforced _ _ ih =>
    have o := differs held there unforced
    simp_all
  | abandon there unforced _ _ ih => exact ih (by simp [differs held there unforced, held])
  | blank there unforced => simp [differs held there unforced, held]
  | closure _ _ ih => exact ih held
  | primitive _ _ _ ih => exact ih held
  | hostFails _ _ _ ih => exact ih held
  | noArgument _ _ ih => exact ih held
  | applyNext _ _ fst snd => exact snd (fst held)
  | applyFails _ ih => exact ih held

/-- The thunks that an error abandons have terms, by which they can be named. -/
theorem Yields.abandoned_writable (yields : Yields host demand e oc aft)
    {abd : List Address} (raised : oc = .raised er abd) :
    ∀ a ∈ abd, ∀ th, aft.store.thunk? a = some th → th.isWritable := by
  induction yields generalizing er abd with
  | unbound | nothing | blackHole | refused | hostFails =>
    cases raised
    simp
  | abstraction | kept | memo | blank | neutral | primitive | applied => cases raised
  | lookup _ _ ih => exact ih raised
  | application _ _ _ ih => exact ih raised
  | closure _ _ ih => exact ih raised
  | applyNext _ _ _ ih => exact ih raised
  | noFunction _ ih | noArgument _ _ ih | applyFails _ ih => exact ih raised
  | @abandon _ _ entered e marked t env _ _ _ held _ code fails ih =>
    cases raised
    intro a mem th later
    rcases List.mem_cons.mp mem with rfl | inn
    · have begun : (e.begin a marked.name).store.thunk? a = some marked.begin := by simp [held]
      cases (fails.forcing_kept begun rfl).symm.trans later
      cases ct : marked.content with
      | code => simp [Thunk.isWritable, ct]
      | value => simp [Thunk.code?, ct] at code
    grind

/-! ### The machine -/

/-- The transition by which the machine takes up a demand, above a stack. -/
def Demand.transition (k : List Frame) (e : Engine) : Demand → Transition
  | .evaluate last t env => .moved ⟨some (t, env), last, k, e⟩
  | .force _ last none => .raised .noThunk ⟨none, last, k, e⟩
  | .force counted last (some a) =>
    match e.store.thunk? a with
    | none => .raised .noThunk ⟨none, last, k, e⟩
    | some th =>
      if th.phase = .forced then
        .moved ⟨none, th.value, k, if counted then e.countHit else e⟩
      else (State.mk none last k e).enter a th
  | .apply f arg => .moved ⟨none, f, .argument arg :: k, e⟩
  | .applyAll f args =>
    .moved ⟨none, f, args.map .argument ++ k, e⟩

/-- The transition by which the machine gives an outcome to a stack. -/
def Outcome.transition (k : List Frame) (e : Engine) : Outcome → Transition
  | .returned v => .moved ⟨none, v, k, e⟩
  | .raised er abd =>
    .raised er ⟨none, Value.absent, (abd.map .update).reverse ++ k, e⟩

/-- Goes on from where a transition leads. -/
def resume (cfg : Settings) (n : Nat) : Transition → Except Stop Value × Engine
  | .moved st => run cfg n 0 st
  | .returned v e => (.ok v, e)
  | .raised er st => st.abandon er

/-- A run from one transition comes by another one, some transitions later. -/
def Leads (cfg : Settings) (fst last : Transition) : Prop :=
  ∃ k, ∀ n, resume cfg (n + k) fst = resume cfg n last

theorem Leads.refl (cfg : Settings) (transition : Transition) : Leads cfg transition transition :=
  ⟨0, fun _ => rfl⟩

theorem Leads.trans {fst snd thd : Transition} (early : Leads cfg fst snd)
    (late : Leads cfg snd thd) : Leads cfg fst thd := by
  obtain ⟨few, early⟩ := early
  obtain ⟨more, late⟩ := late
  refine ⟨more + few, fun n => ?_⟩
  grind

/-- A run that is given up depends on the engine and on the thunks that were being
evaluated. -/
theorem Leads.raised (cfg : Settings) (er : Raised) {o : State} (e : o.engine = st.engine)
    (pending : o.pending = st.pending) : Leads cfg (.raised er o) (.raised er st) :=
  ⟨0, fun _ => State.abandon_congr e pending er⟩

section Machine

variable {cfg : Settings} (unb : ∀ sts, cfg.limit.exceeded sts = false)

include unb

/-- Without a bound it does not matter how many transitions were taken before. -/
theorem run_taken (n taken o : Nat) (st : State) : run cfg n taken st = run cfg n o st := by
  induction n generalizing taken o st with
  | zero => rfl
  | succ n ih =>
    simp only [run, unb, Bool.false_eq_true, if_false]
    grind

theorem run_resumes (n : Nat) (st : State) :
    run cfg (n + 1) 0 st = resume cfg n (st.counted.step cfg.host) := by
  have within := unb (0 + 1)
  cases stepped : st.counted.step cfg.host with
  | moved next =>
    rw [run_moved within stepped, run_taken unb n (0 + 1) 0]
    rfl
  | returned v e => grind [State.counted, run, resume]
  | raised er failed => exact run_stopped within stepped n

theorem Leads.step (st : State) : Leads cfg (.moved st) (st.counted.step cfg.host) :=
  ⟨1, fun n => run_resumes unb n st⟩

theorem resume_lookup {last : Value} {k : List Frame}
    (found : e.store.find x env = some a) (n : Nat) :
    resume cfg (n + 1) (.moved ⟨some (.var x, env), last, k, e⟩) =
      resume cfg n ((Demand.force true last (some a)).transition k e.countStep) := by
  refine (run_resumes unb n _).trans ?_
  simp only [State.step, State.counted, State.evaluate, Engine.store_countStep, found,
    Demand.transition]
  cases e.store.thunk? a with
  | none =>
    simp only [resume]
    exact State.abandon_congr rfl rfl _
  | some th =>
    cases phase : th.phase with
    | forced =>
      simp only [phase, if_true]
      rfl
    | unforced =>
      simp only [phase, State.enter_of_unforced _ _ phase]
      rfl
    | forcing =>
      simp only [phase, State.enter_of_forcing _ _ phase]
      exact State.abandon_congr rfl rfl _

theorem resume_supply {f : Value} (form : f.form = .primitive x) (arg : Option Address)
    (k : List Frame) (e : Engine) (n : Nat) :
    resume cfg (n + 1) (.moved ⟨none, f, .argument arg :: k, e⟩) =
      resume cfg n ((Demand.force false f arg).transition (.call x :: k) e.countStep) := by
  refine (run_resumes unb n _).trans ?_
  simp only [State.step, State.counted, State.applyTo, form]
  cases arg with
  | none => rfl
  | some a =>
    simp only [Demand.transition, Engine.store_countStep]
    cases e.store.thunk? a <;> rfl

omit unb in
theorem Demand.transition_unforced (counted : Bool) (last : Value) (e : Engine)
    (held : e.store.thunk? a = some th) (unforced : th.phase = .unforced) (k : List Frame) :
    (Demand.force counted last (some a)).transition k e =
      .moved ⟨th.code?, last, .update a :: k, e.begin a th.name⟩ := by
  simp [Demand.transition, held, unforced, State.enter_of_unforced _ _ unforced]

omit unb in
theorem Demand.transition_nothing (counted : Bool) (last : Value) (e : Engine) {pl : Option Address}
    (empty : pl.bind e.store.thunk? = none) (k : List Frame) :
    (Demand.force counted last pl).transition k e = .raised .noThunk ⟨none, last, k, e⟩ := by
  cases pl with
  | none => rfl
  | some a =>
    have empty : e.store.thunk? a = none := empty
    simp [Demand.transition, empty]

theorem leads_call (x : Name) (v : Value) (k : List Frame) (e : Engine) :
    (∀ r, cfg.host x v = .ok r →
      Leads cfg (.moved ⟨none, v, .call x :: k, e⟩)
        ((Outcome.returned r).transition k e.countStep)) ∧
    ∀ er, cfg.host x v = .error er →
      Leads cfg (.moved ⟨none, v, .call x :: k, e⟩)
        ((Outcome.raised er []).transition k e.countStep) := by
  constructor
  · intro r computed
    refine (Leads.step unb _).trans ?_
    simp only [State.step, State.counted, computed]
    exact .refl cfg _
  · intro er failed
    refine (Leads.step unb _).trans ?_
    simp only [State.step, State.counted, failed]
    exact .raised cfg er rfl rfl

omit unb in
theorem leads_past (er : Raised) (abd : List Address) {fr : Frame} (waits : fr.updated? = none)
    (k : List Frame) (e : Engine) :
    Leads cfg ((Outcome.raised er abd).transition (fr :: k) e)
      ((Outcome.raised er abd).transition k e) := by
  refine .raised cfg er rfl ?_
  simp [State.pending, waits]

/-- The machine carries out what a demand yields, above every stack. -/
theorem Yields.leads (yields : Yields cfg.host demand e oc aft) (stk : List Frame) (k : Nat) :
    ∃ more, Leads cfg (demand.transition stk (e.stepped k))
      (oc.transition stk (aft.stepped more)) := by
  induction yields generalizing stk k with
  | @unbound last x env e lost =>
    refine ⟨k + 1, (Leads.step unb _).trans ?_⟩
    simp only [State.step, State.counted, State.evaluate, Engine.store_countStep,
      Engine.store_stepped, lost]
    exact .raised cfg _ rfl rfl
  | @lookup last x env e a _ _ found _ ih =>
    obtain ⟨more, leads⟩ := ih stk (k + 1)
    have looks : (e.stepped k).store.find x env = some a := found
    exact ⟨more, .trans ⟨1, resume_lookup unb looks⟩ leads⟩
  | abstraction => exact ⟨k + 1, Leads.step unb _⟩
  | @application last f arg env e _ _ _ _ _ _ fst snd =>
    obtain ⟨mid, evaluates⟩ := fst (.argument (some (e.store.delay arg env).1) :: stk) (k + 1)
    obtain ⟨more, applies⟩ := snd stk mid
    have sts := Leads.step unb ⟨some (.app f arg, env), last, stk, e.stepped k⟩
    exact ⟨more, (sts.trans evaluates).trans applies⟩
  | @noFunction last f arg env e er abd _ _ ih =>
    obtain ⟨more, fails⟩ := ih (.argument (some (e.store.delay arg env).1) :: stk) (k + 1)
    have sts := Leads.step unb ⟨some (.app f arg, env), last, stk, e.stepped k⟩
    exact ⟨more, (sts.trans fails).trans (leads_past er abd rfl stk _)⟩
  | @kept counted last a e th held forced =>
    refine ⟨k, ?_⟩
    simp only [Demand.transition, Engine.store_stepped, held, forced, if_true]
    cases counted <;> exact .refl cfg _
  | @memo counted last a e th t env v aft held unforced code _ ih =>
    obtain ⟨mid, evaluates⟩ := ih (.update a :: stk) k
    have sts := Leads.step unb ⟨none, v, .update a :: stk, aft.stepped mid⟩
    refine ⟨mid + 1, ?_⟩
    rw [Demand.transition_unforced counted last (e.stepped k) held unforced,
      Engine.stepped_begin, code, ← Engine.stepped_memoize]
    exact evaluates.trans sts
  | @abandon counted last a e th t env er abd _ held unforced code _ ih =>
    obtain ⟨more, fails⟩ := ih (.update a :: stk) k
    refine ⟨more, ?_⟩
    rw [Demand.transition_unforced counted last (e.stepped k) held unforced,
      Engine.stepped_begin, code]
    refine fails.trans (.raised cfg er rfl ?_)
    simp [State.pending]
  | @blank counted last a e th held unforced noCode =>
    have sts := Leads.step unb ⟨none, last, .update a :: stk, (e.begin a th.name).stepped k⟩
    refine ⟨k + 1, ?_⟩
    rw [Demand.transition_unforced counted last (e.stepped k) held unforced,
      Engine.stepped_begin, noCode, ← Engine.stepped_memoize]
    exact sts
  | blackHole held forcing =>
    refine ⟨k, ?_⟩
    simp only [Demand.transition, Engine.store_stepped, held, forcing,
      State.enter_of_forcing _ _ forcing]
    exact .raised cfg _ rfl rfl
  | @nothing counted last pl e empty =>
    refine ⟨k, ?_⟩
    rw [Demand.transition_nothing counted last (e.stepped k) empty]
    exact .raised cfg _ rfl rfl
  | closure form _ ih =>
    obtain ⟨more, evaluates⟩ := ih stk (k + 1)
    refine ⟨more, (Leads.step unb _).trans ?_⟩
    simp only [State.step, State.counted, State.applyTo, form]
    exact evaluates
  | neutral form =>
    refine ⟨k + 1, (Leads.step unb _).trans ?_⟩
    simp only [State.step, State.counted, State.applyTo, form]
    exact .refl cfg _
  | @primitive f arg e x v aft r form _ computed ih =>
    obtain ⟨mid, forces⟩ := ih (.call x :: stk) (k + 1)
    have calls := (leads_call unb x v stk (aft.stepped mid)).1 _ computed
    have supplies : Leads cfg _ _ := ⟨1, resume_supply unb form arg stk (e.stepped k)⟩
    exact ⟨mid + 1, (supplies.trans forces).trans calls⟩
  | @hostFails f arg e x v aft er form _ failed ih =>
    obtain ⟨mid, forces⟩ := ih (.call x :: stk) (k + 1)
    have calls := (leads_call unb x v stk (aft.stepped mid)).2 _ failed
    have supplies : Leads cfg _ _ := ⟨1, resume_supply unb form arg stk (e.stepped k)⟩
    exact ⟨mid + 1, (supplies.trans forces).trans calls⟩
  | @noArgument f arg e x er abd _ form _ ih =>
    obtain ⟨more, fails⟩ := ih (.call x :: stk) (k + 1)
    have supplies : Leads cfg _ _ := ⟨1, resume_supply unb form arg stk (e.stepped k)⟩
    exact ⟨more, (supplies.trans fails).trans (leads_past er abd rfl stk _)⟩
  | @refused f arg e refuses =>
    refine ⟨k + 1, (Leads.step unb _).trans ?_⟩
    simp only [State.step, State.counted, State.applyTo]
    cases form : f.form with
    | constant dt => exact .raised cfg _ rfl rfl
    | absent => exact .raised cfg _ rfl rfl
    | _ => simp [form, Form.isApplicable] at refuses
  | applied => exact ⟨k, .refl cfg _⟩
  | @applyNext f arg args _ _ _ _ _ _ _ fst snd =>
    obtain ⟨mid, applies⟩ := fst (args.map .argument ++ stk) k
    obtain ⟨more, rest⟩ := snd stk mid
    exact ⟨more, applies.trans rest⟩
  | @applyFails f arg args _ er abd aft _ ih =>
    obtain ⟨more, fails⟩ := ih (args.map .argument ++ stk) k
    refine ⟨more, fails.trans (.raised cfg er rfl ?_)⟩
    simp [State.pending, Function.comp_def, Frame.updated?]

/-! ### What the machine computes is yielded -/

omit unb in
theorem resume_ended {transition : Transition}
    (ended : (resume cfg n transition).1 ≠ .error .outOfFuel) (more : Nat) :
    resume cfg (n + more) transition = resume cfg n transition := by
  cases transition with
  | moved st => exact run_ended ended more
  | returned v e => rfl
  | raised er failed => rfl

omit unb in
/-- A run that ends comes by everything that it leads to, with the fuel that is
left. -/
theorem Leads.rest {fst : Transition} (leads : Leads cfg fst (.moved st))
    (ended : (resume cfg n fst).1 ≠ .error .outOfFuel) :
    ∃ l, l ≤ n ∧ resume cfg l (.moved st) = resume cfg n fst ∧
      (resume cfg l (.moved st)).1 ≠ .error .outOfFuel := by
  obtain ⟨k, leads⟩ := leads
  by_cases enough : k ≤ n
  · grind [Nat.sub_add_cancel]
  · -- the whole fuel would be used up before that
    have exh : resume cfg (0 + k) fst = resume cfg 0 (.moved st) := leads 0
    have longer := resume_ended ended (k - n)
    have wanting : (resume cfg 0 (.moved st)).1 = .error .outOfFuel := rfl
    grind

/-- Where the machine ends with a demand, above any stack, the demand yields
something. -/
def Explained (cfg : Settings) (n : Nat) (demand : Demand) : Prop :=
  ∀ (e : Engine) (stk : List Frame) (k : Nat),
    (resume cfg n (demand.transition stk (e.stepped k))).1 ≠
      .error .outOfFuel → ∃ oc aft, Yields cfg.host demand e oc aft

omit unb in
theorem explained_force (evaluates : ∀ last t env, Explained cfg n (.evaluate last t env))
    (counted : Bool) (last : Value) (pl : Option Address) :
    Explained cfg n (.force counted last pl) := by
  intro e stk k ended
  cases there : pl.bind e.store.thunk? with
  | none => exact ⟨_, _, .nothing there⟩
  | some th =>
    obtain ⟨a, rfl, held⟩ := Option.bind_eq_some_iff.mp there
    cases phase : th.phase with
    | forced => exact ⟨_, _, .kept held phase⟩
    | forcing => exact ⟨_, _, .blackHole held phase⟩
    | unforced =>
      cases code : th.code? with
      | none => exact ⟨_, _, .blank held phase code⟩
      | some control =>
        rw [Demand.transition_unforced counted last (e.stepped k) held phase,
          Engine.stepped_begin, code] at ended
        obtain ⟨oc, aft, yields⟩ := evaluates last control.1 control.2 _ _ _ ended
        cases oc with
        | returned v => exact ⟨_, _, .memo held phase code yields⟩
        | raised er abd => exact ⟨_, _, .abandon held phase code yields⟩

theorem explained_apply
    (sooner : ∀ less < n, ∀ last t env, Explained cfg less (.evaluate last t env)) (f : Value)
    (arg : Option Address) : Explained cfg n (.apply f arg) := by
  intro e stk k ended
  cases n with
  | zero => exact absurd rfl ended
  | succ n =>
    have evaluates := sooner n (Nat.lt_succ_self n)
    cases form : f.form with
    | closure p b env =>
      rw [Demand.transition, resume, run_resumes unb] at ended
      simp only [State.step, State.counted, State.applyTo, form] at ended
      obtain ⟨oc, aft, yields⟩ := evaluates f b (.layer p arg env) e stk (k + 1) ended
      exact ⟨_, _, .closure form yields⟩
    | neutral x args => exact ⟨_, _, .neutral form⟩
    | constant dt => exact ⟨_, _, .refused (by simp [form, Form.isApplicable])⟩
    | absent => exact ⟨_, _, .refused (by simp [form, Form.isApplicable])⟩
    | primitive x =>
      have supplies := resume_supply unb form arg stk (e.stepped k) n
      rw [Demand.transition, supplies] at ended
      obtain ⟨oc, aft, forces⟩ := explained_force evaluates false f arg
        e (.call x :: stk) (k + 1) ended
      cases oc with
      | raised er abd => exact ⟨_, _, .noArgument form forces⟩
      | returned v =>
        cases computed : cfg.host x v with
        | ok r => exact ⟨_, _, .primitive form forces computed⟩
        | error er => exact ⟨_, _, .hostFails form forces computed⟩

theorem explained_evaluate (n : Nat) : ∀ last t env, Explained cfg n (.evaluate last t env) := by
  induction n using Nat.strong_induction_on with
  | _ n sooner =>
    intro last t env e stk k ended
    cases n with
    | zero => exact absurd rfl ended
    | succ n =>
      have evaluates := sooner n (Nat.lt_succ_self n)
      cases t with
      | lam p b => exact ⟨_, _, .abstraction⟩
      | var x =>
        cases found : e.store.find x env with
        | none => exact ⟨_, _, .unbound found⟩
        | some a =>
          have looks : (e.stepped k).store.find x env = some a := found
          rw [Demand.transition, resume_lookup unb looks] at ended
          obtain ⟨oc, aft, forces⟩ := explained_force evaluates true last
            (some a) e stk (k + 1) ended
          exact ⟨_, _, .lookup found forces⟩
      | app f arg =>
        rw [Demand.transition, resume, run_resumes unb] at ended
        obtain ⟨oc, mid, yields⟩ := evaluates last f env
          { e with store := (e.store.delay arg env).2 }
          (.argument (some (e.store.delay arg env).1) :: stk) (k + 1) ended
        cases oc with
        | raised er abd => exact ⟨_, _, .noFunction yields⟩
        | returned v =>
          -- the fuel that the function leaves is enough to apply it
          obtain ⟨more, leads⟩ := yields.leads unb
            (.argument (some (e.store.delay arg env).1) :: stk) (k + 1)
          obtain ⟨l, le, _, endedLater⟩ := leads.rest ended
          have sooner : ∀ less < l, ∀ last t env, Explained cfg less (.evaluate last t env) :=
            fun less lt => sooner less (by omega)
          obtain ⟨oc, aft, applied⟩ := explained_apply unb sooner v _ mid stk more endedLater
          exact ⟨_, _, .application yields applied⟩

theorem explained_applyAll (n : Nat) (f : Value) (args : List (Option Address)) :
    Explained cfg n (.applyAll f args) := by
  induction args generalizing n f with
  | nil => exact fun e stk k ended => ⟨_, _, .applied⟩
  | cons arg args ih =>
    intro e stk k ended
    obtain ⟨oc, mid, applies⟩ := explained_apply unb
      (fun less _ => explained_evaluate unb less) f arg e (args.map .argument ++ stk) k ended
    cases oc with
    | raised er abd => exact ⟨_, _, .applyFails applies⟩
    | returned v =>
      obtain ⟨more, leads⟩ := applies.leads unb (args.map .argument ++ stk) k
      obtain ⟨l, _, _, endedLater⟩ := leads.rest ended
      obtain ⟨oc, aft, rest⟩ := ih l v mid stk more endedLater
      exact ⟨_, _, .applyNext applies rest⟩

theorem Yields.finishes {last : Engine} (yields : Yields cfg.host demand e oc last) (k : Nat) :
    ∃ more, ∀ n, resume cfg (n + 1) (oc.transition [] (last.stepped k)) =
      ((oc.conclude last).1.mapError .raised, (oc.conclude last).2.stepped more) := by
  cases oc with
  | returned v =>
    refine ⟨k + 1, fun n => ?_⟩
    simp only [Outcome.transition, resume, run_resumes unb]
    rfl
  | raised er abd =>
    refine ⟨k, fun n => ?_⟩
    -- the frames on the stack are those of the abandoned thunks
    have pending : (State.mk none Value.absent ((abd.map .update).reverse ++ [])
        (last.stepped k)).pending = abd := by
      simp [State.pending, Function.comp_def, Frame.updated?]
    have traceable : (State.mk none Value.absent ((abd.map .update).reverse ++ [])
        (last.stepped k)).isTraceable := by
      refine State.isTraceable_of_pending ?_
      rw [pending]
      exact yields.abandoned_writable rfl
    have unwound : (State.mk none Value.absent ((abd.map .update).reverse ++ [])
        (last.stepped k)).unwind = ((Outcome.raised er abd).conclude last).2.stepped k := by
      rw [State.unwind, pending]
      exact last.stepped_resets k abd
    simp only [Outcome.transition, resume, State.abandon_of_traceable traceable, unwound,
      State.traced_eq, State.trace, pending]
    rfl

/-- The machine ends with a demand exactly as it is yielded, in an engine that
differs in the number of transitions alone. -/
theorem ends_iff_yields (explained : ∀ n, Explained cfg n demand) (e : Engine)
    (r : Except Raised Value) (record : Engine) :
    (∃ n aft, resume cfg n (demand.transition [] e) =
        (r.mapError .raised, aft) ∧ aft.unstepped = record) ↔
      ∃ oc last aft, Yields cfg.host demand e oc last ∧
        oc.conclude last = (r, aft) ∧ aft.unstepped = record := by
  constructor
  · rintro ⟨n, aft, ended, rfl⟩
    have notFuel : (resume cfg n (demand.transition [] (e.stepped 0))).1 ≠ .error .outOfFuel := by
      rw [Engine.stepped_zero, ended]
      cases r <;> simp [Except.mapError]
    obtain ⟨oc, last, yields⟩ := explained n e [] 0 notFuel
    obtain ⟨k, few, leads⟩ := yields.leads unb [] 0
    obtain ⟨more, finishes⟩ := yields.finishes unb k
    have longer := resume_ended notFuel (few + 1)
    rw [show n + (few + 1) = n + 1 + few by omega, leads, finishes, Engine.stepped_zero,
      ended] at longer
    obtain ⟨rss, rfl⟩ := Prod.mk.inj longer
    refine ⟨oc, last, (oc.conclude last).2, yields, ?_, by simp⟩
    refine Prod.ext ?_ rfl
    cases concluded : (oc.conclude last).1 <;> cases r <;>
      simp_all [Except.mapError]
  · rintro ⟨oc, last, aft, yields, concluded, rfl⟩
    obtain ⟨k, few, leads⟩ := yields.leads unb [] 0
    obtain ⟨more, finishes⟩ := yields.finishes unb k
    refine ⟨0 + 1 + few, aft.stepped more, ?_, by simp⟩
    simp_all

/-- Forcing a thunk ends as the machine ends with that demand.  Where the value is
kept already no transition is taken. -/
theorem force_ends_iff (pl : Option Address) (e : Engine) (r : Except Stop Value)
    (finite : r ≠ .error .outOfFuel) (record : Engine) :
    (∃ n aft, force cfg n pl e = (r, aft) ∧
        aft.unstepped = record) ↔
      ∃ n aft, resume cfg n ((Demand.force true Value.absent pl).transition [] e) = (r, aft) ∧
        aft.unstepped = record := by
  cases there : pl.bind e.store.thunk? with
  | none =>
    simp only [force_of_none cfg _ there, Demand.transition_nothing true _ e there]
    exact Iff.rfl
  | some th =>
    obtain ⟨a, rfl, held⟩ := Option.bind_eq_some_iff.mp there
    cases phase : th.phase with
    | unforced =>
      simp only [force_of_unforced cfg _ held phase, Demand.transition_unforced true _ e held phase]
      exact Iff.rfl
    | forcing =>
      have stays : ∀ n, resume cfg n
          ((Demand.force true Value.absent (some a)).transition [] e) =
            (.error (.raised th.cycle), e) := by
        intro n
        have notForced : th.phase ≠ .forced := by simp [phase]
        simp only [Demand.transition, held, if_neg notForced,
          State.enter_of_forcing _ _ phase, resume, Thunk.cycle]
        by_cases wr : th.isWritable = true
        · simp only [wr, if_true]
          rfl
        · simp only [wr]
          rfl
      simp only [force_of_forcing cfg _ held phase, stays]
    | forced =>
      have returns : ∀ n, resume cfg (n + 1)
          ((Demand.force true Value.absent (some a)).transition [] e) =
            (.ok th.value, e.countHit.countStep) := by
        intro n
        simp only [Demand.transition, held, phase, if_true, resume, run_resumes unb]
        rfl
      simp only [force_of_forced cfg _ held phase]
      constructor
      · rintro ⟨n, aft, ended, rfl⟩
        cases ended
        exact ⟨1, _, returns 0, rfl⟩
      · rintro ⟨n, aft, ended, rfl⟩
        cases n with
        | zero =>
          simp only [Demand.transition, held, phase, if_true] at ended
          cases ended
          exact absurd rfl finite
        | succ n =>
          rw [returns] at ended
          cases ended
          exact ⟨0, _, rfl, rfl⟩

end Machine

/-- Without a bound on the number of transitions, the machine implements the
natural semantics of call by need, from every engine.  Evaluating a term, forcing a
thunk and applying a function return a value or raise an error exactly when that
is yielded, once the thunks that an error abandons are put back; the store, the
events and the numbers of evaluations and of hits are then the same. -/
theorem machine_implements_natural_semantics {cfg : Settings}
    (unb : ∀ sts, cfg.limit.exceeded sts = false) (e : Engine)
    (r : Except Raised Value) (record : Engine) :
    (∀ t env,
      (∃ n aft, evaluate cfg n t env e = (r.mapError .raised, aft) ∧ aft.unstepped = record) ↔
        ∃ oc last aft, Yields cfg.host (.evaluate Value.absent t env) e oc last ∧
          oc.conclude last = (r, aft) ∧ aft.unstepped = record) ∧
    (∀ pl,
      (∃ n aft, force cfg n pl e = (r.mapError .raised, aft) ∧ aft.unstepped = record) ↔
        ∃ oc last aft, Yields cfg.host (.force true Value.absent pl) e oc last ∧
          oc.conclude last = (r, aft) ∧ aft.unstepped = record) ∧
    ∀ f args,
      (∃ n aft, apply cfg n f args e = (r.mapError .raised, aft) ∧ aft.unstepped = record) ↔
        ∃ oc last aft, Yields cfg.host (.applyAll f args) e oc last ∧
          oc.conclude last = (r, aft) ∧ aft.unstepped = record := by
  have evaluates := fun n => explained_evaluate unb n
  refine ⟨fun t env => ?_, fun pl => ?_, fun f args => ?_⟩
  · exact ends_iff_yields unb (fun n => evaluates n _ t env) e r record
  · rw [force_ends_iff unb pl e _ (by cases r <;> simp [Except.mapError])]
    simp_all [ends_iff_yields, explained_force]
  · have applies := ends_iff_yields unb (fun n => explained_applyAll unb n f args) e r record
    simp only [Demand.transition, resume, List.append_nil] at applies
    exact applies

/-- A thunk named `A` for the identity, and a thunk named `B` for `A` applied to itself. -/
def selfApplied : Engine :=
  .fresh ⟨#[.suspended (.lam "x" (.var "x")) (.root 0) (some "A"),
    .suspended (.app (.var "A") (.var "A")) (.root 0) (some "B")],
    #[[("A", some 0), ("B", some 1)]], 0⟩

/-- `A` is evaluated as the function and used again as the argument, which is a hit. -/
theorem selfApplied_implemented :
    ∃ value record,
      (∃ n aft, force ⟨countingHost, some 0⟩ n (some 1) selfApplied = (.ok value, aft) ∧
        aft.unstepped = record) ∧
      (∃ oc last aft,
        Yields countingHost (.force true Value.absent (some 1)) selfApplied oc last ∧
        oc.conclude last = (.ok value, aft) ∧ aft.unstepped = record) ∧
      value.form = .closure "x" (.var "x") (.root 0) ∧ record.tally = ⟨0, 2, 1⟩ ∧
      record.events = #[⟨.force, "B"⟩, ⟨.force, "A"⟩, ⟨.value, "A"⟩, ⟨.value, "B"⟩] ∧
      record.store.phase? 0 = some .forced ∧ record.store.phase? 1 = some .forced := by
  obtain ⟨value, aft, ran, facts⟩ : ∃ value aft,
      force ⟨countingHost, some 0⟩ 9 (some 1) selfApplied = (.ok value, aft) ∧
      value.form = .closure "x" (.var "x") (.root 0) ∧ aft.unstepped.tally = ⟨0, 2, 1⟩ ∧
      aft.unstepped.events = #[⟨.force, "B"⟩, ⟨.force, "A"⟩, ⟨.value, "A"⟩, ⟨.value, "B"⟩] ∧
      aft.unstepped.store.phase? 0 = some .forced ∧ aft.unstepped.store.phase? 1 = some .forced :=
    ⟨_, _, rfl, rfl, rfl, rfl, rfl, rfl⟩
  have implemented := @machine_implements_natural_semantics ⟨countingHost, some 0⟩
    (fun _ => rfl) selfApplied (.ok value) aft.unstepped
  exact ⟨value, aft.unstepped, ⟨9, aft, ran, rfl⟩,
    (implemented.2.1 (some 1)).mp ⟨9, aft, ran, rfl⟩, facts⟩

end CallByNeed
