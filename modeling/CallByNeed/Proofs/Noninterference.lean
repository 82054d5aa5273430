import CallByNeed.Proofs.HalfForced

/-!
# What is not entered does not matter

A thunk that a request never enters can hold anything: the request takes the
same transitions, and its answer, its error and what it records are the same.
Values refer to thunks by their addresses, so that the two runs differ in the
content of that one thunk and in nothing else.

A thunk is entered when it gets a frame on the stack, so a request that does not
enter it passes through no state with such a frame.
-/

variable {o : Address} {taken : Nat} {passed : Engine → List State} {k : List Frame}

namespace CallByNeed

/-- A thunk that holds something else. -/
def Thunk.holding (ct : Content) (th : Thunk) : Thunk := { th with content := ct }

/-- A store in which the thunk at an address holds something else. -/
def Store.replace (s : Store) (a : Address) (ct : Content) : Store := s.update a (Thunk.holding ct)

def Engine.replace (e : Engine) (a : Address) (ct : Content) : Engine :=
  { e with store := e.store.replace a ct }

def State.replace (st : State) (a : Address) (ct : Content) : State :=
  { st with engine := st.engine.replace a ct }

def Transition.replace (a : Address) (ct : Content) : Transition → Transition
  | .moved st => .moved (st.replace a ct)
  | .returned v e => .returned v (e.replace a ct)
  | .raised er st => .raised er (st.replace a ct)

/-- Whether a request begins the evaluation of a thunk. -/
def Request.Enters (cfg : Settings) (n : Nat) (rq : Request) (e : Engine) (a : Address) : Prop :=
  ∃ st ∈ rq.trail cfg n e, .update a ∈ st.stack

namespace Store

/-- A store is known by its thunks, its tables and the number of its values. -/
theorem eq_of_thunk? {o : Store} (ths : ∀ a, s.thunk? a = o.thunk? a) (tbs : s.tables = o.tables)
    (built : s.built = o.built) : s = o := by
  obtain ⟨_, _, _⟩ := s
  obtain ⟨_, _, _⟩ := o
  cases tbs
  cases built
  cases Array.ext_getElem? ths
  rfl

variable (s : Store) {a : Address} (ct : Content)

@[simp] theorem tables_replace : (s.replace a ct).tables = s.tables := rfl

@[simp] theorem size_replace : (s.replace a ct).size = s.size := s.size_update a _

theorem thunk?_replace_of_ne (differs : o ≠ a) : (s.replace a ct).thunk? o = s.thunk? o := by
  simp [replace, differs.symm]

theorem replace_update (differs : o ≠ a) (change : Thunk → Thunk) :
    (s.replace a ct).update o change = (s.update o change).replace a ct := by
  refine eq_of_thunk? (fun pl => ?_) rfl rfl
  by_cases here : a = pl
  · subst here
    simp [replace, differs]
  · simp [replace, here]

theorem replace_alloc (inside : a < s.size) (th : Thunk) :
    (s.replace a ct).alloc th = (s.size, (s.alloc th).2.replace a ct) := by
  refine Prod.ext (s.size_replace ct) (eq_of_thunk? (fun pl => ?_) rfl rfl)
  by_cases new : pl = s.size
  · subst new
    simp [replace, Nat.ne_of_lt inside]
  simp_all [replace]

theorem replace_build (form : Form) :
    (s.replace a ct).build form = ((s.build form).1, (s.build form).2.replace a ct) := rfl

theorem replace_find (x : Name) (env : Env) : (s.replace a ct).find x env = s.find x env :=
  find_congr (s.tables_replace ct) x env

theorem replace_delay (inside : a < s.size) (t : Term) (env : Env) :
    (s.replace a ct).delay t env = ((s.delay t env).1, (s.delay t env).2.replace a ct) := by
  cases t with
  | var x =>
    cases found : s.find x env with
    | none => simp [delay, replace_find, found, replace_alloc s ct inside]
    | some pl => simp [delay, replace_find, found]
  | lam p b =>
    have grown : a < (s.build (.closure p b env)).2.size := inside
    simp [delay, replace_build, replace_alloc _ ct grown]
  | app f arg => simp [delay, replace_alloc s ct inside]

theorem replace_withVariable (inside : a < s.size) (x : Name) :
    (s.replace a ct).withVariable x = (s.withVariable x).replace a ct := by
  have grown : a < (s.build (.neutral x [])).2.size := inside
  rw [withVariable, replace_build, replace_alloc _ ct grown]
  rfl

theorem replace_withCounter (inside : a < s.size) : (s.replace a ct).withCounter =
      s.withCounter.replace a ct := by grind [size_alloc, withCounter, replace_alloc]

theorem thunk?_withVariable {s : Store} (held : s.thunk? a = some th) (x : Name) :
    (s.withVariable x).thunk? a = some th := thunk?_alloc_of_some (by simpa using held) _

theorem thunk?_withCounter {s : Store} (held : s.thunk? a = some th) :
    s.withCounter.thunk? a = some th := thunk?_alloc_of_some (thunk?_alloc_of_some held _) _

end Store

namespace Engine

variable (e : Engine) {a : Address} (ct : Content)

theorem replace_update (differs : o ≠ a) (change : Thunk → Thunk) :
    (e.replace a ct).update o change = (e.update o change).replace a ct := by
  simp [Engine.replace, Engine.update, Store.replace_update _ ct differs]

theorem replace_notify (kd : EventKind) (x : Option Name) :
    (e.replace a ct).notify kd x = (e.notify kd x).replace a ct := by
  cases x <;> rfl

theorem replace_begin (differs : o ≠ a) (x : Option Name) :
    (e.replace a ct).begin o x = (e.begin o x).replace a ct := by
  unfold begin
  rw [← replace_notify, ← replace_update _ ct differs]
  rfl

theorem replace_memoize (differs : o ≠ a) (v : Value) :
    (e.replace a ct).memoize o v = (e.memoize o v).replace a ct := by
  grind [memoize, replace_notify, replace_update, Engine.replace, Store.thunk?_replace_of_ne]

end Engine

namespace State

variable {host : Host} (st : State) {a : Address} {th : Thunk}

theorem replace_enter (differs : o ≠ a) (ct : Content) (entered : Thunk) :
    (st.replace a ct).enter o entered = (st.enter o entered).replace a ct := by
  grind [enter, Transition.replace, State.replace, Engine.replace_begin]

/-- One transition of a term.  A name that stands for the replaced thunk would
begin its evaluation. -/
theorem replace_evaluate
    (ct : Content) (held : e.store.thunk? a = some th) (unforced : th.phase = .unforced)
    (avoided : ∀ next, State.evaluate ⟨some (t, env), v, k, e⟩ env t =
      .moved next → .update a ∉ next.stack) :
    State.evaluate ⟨some (t, env), v, k, e.replace a ct⟩ env t =
      (State.evaluate ⟨some (t, env), v, k, e⟩ env t).replace
        a ct := by
  cases t with
  | lam p b => rfl
  | app f arg =>
    simp [State.evaluate, Engine.replace, Transition.replace, State.replace,
      Store.replace_delay _ ct (Store.thunk?_lt held)]
  | var x =>
    simp only [State.evaluate, Engine.replace, Store.replace_find] at avoided ⊢
    cases found : e.store.find x env with
    | none => rfl
    | some o =>
      by_cases entered : o = a
      · grind [enter_of_unforced]
      · simp only [Store.thunk?_replace_of_ne _ ct entered]
        cases e.store.thunk? o with
        | none => rfl
        | some looked =>
          by_cases forced : looked.phase = .forced
          · simp only [forced, if_true]
            rfl
          · simp only [forced, if_false]
            exact replace_enter ⟨some (.var x, env), v, k, e⟩ entered ct looked

/-- One transition of an application.  A primitive that is given the replaced
thunk would begin its evaluation. -/
theorem replace_applyTo {arg : Option Address}
    (ct : Content) (held : e.store.thunk? a = some th) (unforced : th.phase = .unforced)
    (avoided : ∀ next, State.applyTo ⟨none, v, k, e⟩ arg = .moved next → .update a ∉ next.stack) :
    State.applyTo ⟨none, v, k, e.replace a ct⟩ arg =
      (State.applyTo ⟨none, v, k, e⟩ arg).replace a ct := by
  unfold State.applyTo at avoided ⊢
  cases form : v.form with
  | closure p b env => rfl
  | neutral x args => rfl
  | constant dt => rfl
  | absent => rfl
  | primitive x =>
    cases arg with
    | none => rfl
    | some o =>
      by_cases entered : o = a
      · grind [enter_of_unforced]
      · simp only [Engine.replace, Store.thunk?_replace_of_ne _ ct entered]
        cases e.store.thunk? o with
        | none => rfl
        | some looked =>
          by_cases forced : looked.phase = .forced
          · simp only [forced, if_true]
            rfl
          · simp only [forced, if_false]
            exact replace_enter ⟨none, v, .call x :: k, e⟩ entered ct looked

/-- One transition that neither waits for the replaced thunk nor enters it. -/
theorem replace_step (ct : Content) (held : st.engine.store.thunk? a = some th)
    (unforced : th.phase = .unforced) (unawaited : .update a ∉ st.stack) (host : Host)
    (avoided : ∀ next, st.step host = .moved next → .update a ∉ next.stack) :
    (st.replace a ct).step host = (st.step host).replace a ct := by
  obtain ⟨focus, v, k, e⟩ := st
  cases focus with
  | some control => exact replace_evaluate ct held unforced avoided
  | none =>
    cases k with
    | nil => rfl
    | cons fr k =>
      cases fr with
      | argument pl => exact replace_applyTo ct held unforced avoided
      | update o =>
        grind [State.step, State.replace, Transition.replace, Engine.replace_memoize]
      | call prim =>
        simp only [State.step, State.replace]
        cases host prim v <;> rfl

/-- A transition that neither waits for an unforced thunk nor enters it leaves it
as it is. -/
theorem kept_of_step {next : State} (held : st.engine.store.thunk? a = some th)
    (unawaited : .update a ∉ st.stack) (moved : st.step host = .moved next)
    (avoided : .update a ∉ next.stack) : next.engine.store.thunk? a = some th := by
  have accounts := step_spec host st
  rw [moved] at accounts
  rcases accounts.1.effect with ⟨begun, _, _, _, s, fs⟩ | ⟨kept, _, s, fs⟩ | ⟨grows, _⟩
  · have differs : begun ≠ a := by
      rintro rfl
      exact avoided (mem_updates.mp (fs ▸ List.mem_cons_self))
    simp_all [configuration]
  · have differs : kept ≠ a := by
      rintro rfl
      exact unawaited (mem_updates.mp (fs ▸ List.mem_cons_self))
    simp_all [configuration]
  · exact grows.keeps held

/-! ### Runs that are given up -/

private theorem replace_resets (ct : Content) {ads : List Address} (absent : a ∉ ads) (e : Engine) :
    ads.foldl (fun e a => e.update a Thunk.reset)
        (e.replace a ct) = (ads.foldl (fun e a => e.update a Thunk.reset) e).replace a ct := by
  induction ads generalizing e with
  | nil => rfl
  | cons fst rest ih => grind [Engine.replace_update]

/-- A thunk that the stack does not wait for shows up in no trace. -/
theorem replace_abandon (ct : Content) (absent : a ∉ st.pending) (er : Raised) :
    (st.replace a ct).abandon er = ((st.abandon er).1, (st.abandon er).2.replace a ct) := by
  have same : ∀ o ∈ st.pending, (st.replace a ct).engine.store.thunk? o =
        st.engine.store.thunk? o := by
    intro o mem
    refine Store.thunk?_replace_of_ne _ ct ?_
    grind
  have pending : (st.replace a ct).pending = st.pending := rfl
  have tr : (st.replace a ct).trace = st.trace := by
    grind [State.trace, List.filterMap_congr]
  have traceable : (st.replace a ct).isTraceable = st.isTraceable := by
    unfold isTraceable
    grind
  have unwound : (st.replace a ct).unwind = st.unwind.replace a ct :=
    replace_resets ct absent st.engine
  unfold abandon
  rw [tr, traceable, unwound]
  split
  · split <;> rfl
  · rfl

theorem kept_of_abandon (held : st.engine.store.thunk? a = some th) (absent : a ∉ st.pending)
    (er : Raised) : (st.abandon er).2.store.thunk? a = some th := by
  rcases st.abandon_engine er with same | same
  · rw [same, unwind_thunk?, if_neg absent, held]
  · rw [same, held]

end State

/-! ### Requests -/

/-- No state has a frame for the thunk at an address. -/
def Avoids (passed : List State) (a : Address) : Prop := ∀ st ∈ passed, .update a ∉ st.stack

/-- What becomes of an action, if the thunk at an address holds something else in
the engine after it. -/
def instead {α : Type} (a : Address) (ct : Content)
    (oc : Except Stop α × Engine) : Except Stop α × Engine := (oc.1, oc.2.replace a ct)

/-- An action gives the same when the thunk at an address holds something else,
leaves that thunk as it is and passes through the same states. -/
structure Overlooks {α : Type} (ac : Engine → Except Stop α × Engine)
    (passed : Engine → List State) (e : Engine) (a : Address) (th : Thunk)
    (ct : Content) : Prop where
  same : ac (e.replace a ct) = instead a ct (ac e)
  passes : passed (e.replace a ct) = (passed e).map (·.replace a ct)
  kept : (ac e).2.store.thunk? a = some th

/-- The state in which a value is applied to the host's successor and zero. -/
def counting (v : Value) (e : Engine) : State :=
  ⟨none, v, [some e.store.size, some (e.store.size + 1)].map .argument,
    { e with store := e.store.withCounter }⟩

section Requests

variable {cfg : Settings} {n : Nat} {a : Address} {th : Thunk}
  {e : Engine}

theorem Avoids.head (avoids : Avoids (trail cfg n taken st) a) :
    .update a ∉ st.stack := by
  refine avoids st ?_
  unfold trail
  grind

/-- A run that avoids a thunk takes the same transitions whatever the thunk
holds. -/
theorem run_replace (ct : Content) (unforced : th.phase = .unforced)
    (held : st.engine.store.thunk? a = some th) (avoids : Avoids (trail cfg n taken st) a) :
    run cfg n taken (st.replace a ct) = instead a ct (run cfg n taken st) ∧
      trail cfg n taken (st.replace a ct) = (trail cfg n taken st).map (·.replace a ct) ∧
      (run cfg n taken st).2.store.thunk? a = some th := by
  induction n generalizing taken st with
  | zero => exact ⟨rfl, rfl, held⟩
  | succ n ih =>
    have unawaited := avoids.head
    have absent : a ∉ st.counted.pending := fun mem =>
      unawaited (State.mem_pending.mp mem)
    cases bound : cfg.limit.exceeded (taken + 1) with
    | true =>
      rw [run_exceeded bound, run_exceeded bound]
      refine ⟨st.counted.replace_abandon ct absent _, ?_, st.counted.kept_of_abandon held absent _⟩
      simp [trail, bound]
    | false =>
      have same := st.counted.replace_step ct held unforced unawaited cfg.host
      have accounts := State.step_spec cfg.host st.counted
      simp only [trail, bound, Bool.false_eq_true, if_false] at avoids ⊢
      cases stepped : st.counted.step cfg.host with
      | moved next =>
        rw [stepped] at same avoids
        have later : Avoids (trail cfg n (taken + 1) next) a :=
          fun passed mem => avoids passed (List.mem_cons_of_mem st mem)
        have replaced : (st.replace a ct).counted.step cfg.host = .moved (next.replace a ct) := by
          refine same fun _ moved => ?_
          cases moved
          exact later.head
        have heldNext := st.counted.kept_of_step held unawaited stepped later.head
        simp_all [run_moved]
      | returned v e =>
        rw [stepped] at same accounts
        obtain ⟨noFocus, noFrames, rfl, rfl⟩ := accounts
        have ended : run cfg (n + 1) taken st =
            (.ok st.value, st.engine.countStep) := run_returned bound noFocus noFrames
        have replaced : run cfg (n + 1) taken (st.replace a ct) =
            (.ok st.value, st.engine.countStep.replace a ct) := run_returned bound noFocus noFrames
        have stops : (st.replace a ct).counted.step cfg.host =
            .returned st.value (st.engine.countStep.replace a ct) := same (by simp)
        rw [ended, replaced, stops]
        exact ⟨rfl, rfl, held⟩
      | raised er failed =>
        rw [stepped] at same accounts
        obtain ⟨_, sameEngine, samePending⟩ := accounts
        have replaced : (st.replace a ct).counted.step cfg.host =
            .raised er (failed.replace a ct) := same (by simp)
        rw [← samePending] at absent
        rw [run_stopped bound stepped, run_stopped bound replaced, replaced]
        exact ⟨failed.replace_abandon ct absent er, rfl,
          failed.kept_of_abandon (by rw [sameEngine]; exact held) absent er⟩

variable (ct : Content) (unforced : th.phase = .unforced)

include unforced

theorem run_overlooks (st0 : Engine → State) (held : (st0 e).engine.store.thunk? a = some th)
    (moved : st0 (e.replace a ct) = (st0 e).replace a ct)
    (avoids : Avoids (trail cfg n taken (st0 e)) a) :
    Overlooks (fun e => run cfg n taken (st0 e))
      (fun e => trail cfg n taken (st0 e)) e a th ct := by
  obtain ⟨same, passes, kept⟩ := run_replace ct unforced held avoids
  exact ⟨by rw [moved, same], by rw [moved, passes], kept⟩

omit unforced in
theorem Overlooks.change {α β : Type} {ac : Engine → Except Stop α × Engine} (overlooks : Overlooks ac passed e a th ct)
    (change : Except Stop α → Except Stop β) :
    Overlooks (fun e => (change (ac e).1, (ac e).2)) passed e a th ct := by
  obtain ⟨same, passes, kept⟩ := overlooks
  refine ⟨?_, passes, kept⟩
  rw [same]
  rfl

omit unforced in
theorem Overlooks.of_unused {α : Type} {ac : Engine → Except Stop α × Engine} {r : Except Stop α} (held : e.store.thunk? a = some th)
    (unused : ∀ e, ac e = (r, e)) (none : ∀ e, passed e = []) : Overlooks ac passed e a th ct := by
  constructor
  · rw [unused, unused]
    rfl
  · rw [none, none]
    rfl
  simp_all

theorem force_overlooks {pl : Option Address} (held : e.store.thunk? a = some th)
    (avoids : Avoids (forceTrail cfg n pl e) a) :
    Overlooks (force cfg n pl) (forceTrail cfg n pl) e a th ct := by
  cases pl with
  | none => exact .of_unused ct held (fun _ => rfl) fun _ => rfl
  | some en =>
    have differs : en ≠ a := by
      rintro rfl
      simp only [forceTrail, held, unforced, if_true] at avoids
      exact avoids.head List.mem_cons_self
    have looked : (e.replace a ct).store.thunk? en =
        e.store.thunk? en := Store.thunk?_replace_of_ne _ ct differs
    cases there : e.store.thunk? en with
    | none =>
      have empty : (some en).bind e.store.thunk? = none := there
      have emptyStill : (some en).bind (e.replace a ct).store.thunk? =
          none := looked.trans there
      constructor
      · rw [force_of_none cfg n empty, force_of_none cfg n emptyStill]
        rfl
      · simp [forceTrail, looked, there]
      grind [force_of_none]
    | some found =>
      have thereStill := looked.trans there
      cases phase : found.phase with
      | forced =>
        constructor
        · rw [force_of_forced cfg n there phase, force_of_forced cfg n thereStill phase]
          rfl
        · simp [forceTrail, thereStill, there, phase]
        simp_all [force_of_forced]
      | forcing =>
        constructor
        · rw [force_of_forcing cfg n there phase, force_of_forcing cfg n thereStill phase]
          rfl
        · simp [forceTrail, thereStill, there, phase]
        simp_all [force_of_forcing]
      | unforced =>
        simp only [forceTrail, there, phase, if_true] at avoids
        have begun : (entered en found e).engine.store.thunk? a =
            some th := by
          simp [entered, differs, held]
        have moved : entered en found (e.replace a ct) = (entered en found e).replace a ct := by
          simp [entered, State.replace, Engine.replace_begin _ ct differs]
        have ran := run_overlooks ct unforced (entered en found) begun moved avoids
        constructor
        · rw [force_of_unforced cfg n there phase, force_of_unforced cfg n thereStill phase]
          exact ran.same
        · simp only [forceTrail, thereStill, there, phase, if_true]
          exact ran.passes
        · rw [force_of_unforced cfg n there phase]
          exact ran.kept

theorem traced_overlooks (cfg : Settings) :
    Traced cfg fun ac trail => ∀ {e : Engine},
      e.store.thunk? a = some th → Avoids (trail e) a → Overlooks ac trail e a th ct where
  still unused := fun held _ => .of_unused ct held unused.1 fun _ => rfl
  bind := by
    intro α β ac trail next trails fst rest e held avoids
    obtain ⟨same, passes, kept⟩ := fst held fun st mem =>
      avoids st (List.mem_append_left _ mem)
    rcases began : ac e with ⟨stop | v, mid⟩
    · rw [began] at same kept
      constructor
      · rw [Action.bind_error began, Action.bind_error same]
        rfl
      · grind [Eval.passing, instead]
      · rw [Action.bind_error began]
        exact kept
    · rw [began] at same kept
      have more := rest v kept fun st mem => avoids st (List.mem_append_right _ (by
        rw [began]
        exact mem))
      constructor
      · rw [Action.bind_ok began, Action.bind_ok same]
        exact more.same
      · simp only [Eval.passing, began, same, instead, passes, more.passes, List.map_append]
      · rw [Action.bind_ok began]
        exact more.kept
  counted st0 := by
    intro e held _
    exact ⟨by rw [countTask_eq, countTask_eq]; rfl, rfl, by rw [countTask_eq]; exact held⟩
  opens n p b env us := by
    intro e held avoids
    refine run_overlooks ct unforced (opening p b env us)
      (Store.thunk?_withVariable held _) ?_ avoids
    -- the variable gets the same address, whatever the thunk holds
    simp [opening, State.replace, Engine.replace,
      Store.replace_withVariable _ ct (Store.thunk?_lt held)]
  forces n th := force_overlooks ct unforced

theorem Request.overlooks {rq : Request} (held : e.store.thunk? a = some th)
    (avoids : Avoids (rq.trail cfg n e) a) :
    Overlooks (rq.perform cfg n) (fun e => rq.trail cfg n e) e a th ct := by
  cases rq with
  | evaluate t env =>
    exact (run_overlooks ct unforced
      (fun e => ⟨some (t, env), Value.absent, [], e⟩) held rfl avoids).change
        ct (Except.map Answer.value)
  | force pl =>
    exact (force_overlooks ct unforced held avoids).change ct (Except.map Answer.value)
  | apply f args =>
    exact (run_overlooks ct unforced
      (fun e => ⟨none, f, args.map .argument, e⟩) held rfl avoids).change
        ct (Except.map Answer.value)
  | normalize v =>
    -- both read-backs count from the same number of steps
    obtain ⟨same, passes, kept⟩ :=
      ((traced_overlooks ct unforced cfg).performAll _ _ _ _ held avoids).change ct
        (Except.map Answer.term)
    exact ⟨same, passes, kept⟩
  | number v =>
    have performs : (Request.number v).perform cfg n = fun e =>
        ((tallied (run cfg n 0 (counting v e)).1).map .number, (run cfg n 0 (counting v e)).2) := by
      funext e
      simp only [Request.perform, number_eq, count_eq]
      rfl
    rw [performs]
    refine (run_overlooks ct unforced (counting v) (Store.thunk?_withCounter held) ?_
      avoids).change ct fun r => (tallied r).map Answer.number
    simp [counting, State.replace, Engine.replace,
      Store.replace_withCounter _ ct (Store.thunk?_lt held)]

end Requests

/-- Let a request not enter an unforced thunk.  Whatever the thunk holds instead,
the request passes through the same states, gives the same answer or error,
counts the same and tells observers the same.  The thunk stays as it is and is
again not entered; the engines afterwards differ in what it holds alone. -/
theorem Request.unentered_thunk_irrelevant {cfg : Settings} {n : Nat}
    {rq : Request} {e aft : Engine} {a : Address} {th : Thunk}
    {r : Except Stop Answer} (held : e.store.thunk? a = some th)
    (unforced : th.phase = .unforced)
    (unentered : ¬ rq.Enters cfg n e a)
    (perf : rq.perform cfg n e = (r, aft)) (ct : Content) :
    aft.store.thunk? a = some th ∧
    ∃ o, rq.perform cfg n (e.replace a ct) = (r, o) ∧
      o.tally = aft.tally ∧ o.events = aft.events ∧
      o.store.thunk? a = some (th.holding ct) ∧
      o = aft.replace a ct ∧
      rq.trail cfg n (e.replace a ct) = (rq.trail cfg n e).map (·.replace a ct) ∧
      ¬ rq.Enters cfg n (e.replace a ct) a := by
  have avoids : Avoids (rq.trail cfg n e) a :=
    fun st mem awaited => unentered ⟨st, mem, awaited⟩
  obtain ⟨same, passes, kept⟩ := Request.overlooks ct unforced held avoids
  rw [perf] at same kept
  refine ⟨kept, aft.replace a ct, same, rfl, rfl, ?_, rfl, passes, ?_⟩
  · simp_all [Engine.replace, Store.replace]
  · rintro ⟨st, mem, awaited⟩
    rw [passes] at mem
    obtain ⟨former, passed, rfl⟩ := List.mem_map.mp mem
    exact avoids former passed awaited

/-- A thunk named `A` for a name that is bound nowhere, and a thunk named `U` in
which a constant function is applied to it. -/
def ignoring : Engine :=
  .fresh ⟨#[.suspended (.var "nowhere") (.root 0) (some "A"),
    .suspended (.app (.lam "x" (.lam "y" (.var "y"))) (.app (.var "A") (.var "A"))) (.root 0)
      (some "U")], #[[("A", some 0), ("U", some 1)]], 0⟩

/-- A term that has no value. -/
def endless : Term :=
  .app (.lam "x" (.app (.var "x") (.var "x"))) (.lam "x" (.app (.var "x") (.var "x")))

/-- The constant function gives the same for an argument without a value as for
one that is bound nowhere. -/
theorem ignoring_unentered :
    ¬ (Request.force (some 1)).Enters ⟨countingHost, some 40⟩ 60 ignoring 0 ∧
    ∃ r aft,
      (Request.force (some 1)).perform ⟨countingHost, some 40⟩ 60 ignoring = (.ok r, aft) ∧
      aft.store.phase? 0 = some .unforced ∧
      ∃ o, (Request.force (some 1)).perform ⟨countingHost, some 40⟩ 60
          (ignoring.replace 0 (.code endless (.root 0))) = (.ok r, o) ∧
        o.tally = aft.tally ∧ o.events = aft.events ∧
        o = aft.replace 0 (.code endless (.root 0)) := by
  have unentered : ¬ (Request.force (some 1)).Enters ⟨countingHost, some 40⟩ 60 ignoring 0 := by
    unfold Request.Enters
    decide
  have perf : (Request.force (some 1)).perform ⟨countingHost, some 40⟩ 60 ignoring =
      (.ok (.value ⟨.closure "y" (.var "y") (.layer "x" (some 2) (.root 0)), 2⟩), _) := rfl
  obtain ⟨kept, o, same, tally, evs, _, replaced, _⟩ :=
    Request.unentered_thunk_irrelevant rfl rfl unentered perf (.code endless (.root 0))
  exact ⟨unentered, _, _, perf, by rw [Store.phase?, kept]; rfl, o, same, tally, evs, replaced⟩

end CallByNeed
