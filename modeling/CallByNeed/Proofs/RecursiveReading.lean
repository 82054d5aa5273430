import CallByNeed.Proofs.Confinement

/-!
# Reading back by recursion

`readBack` reads a value back by recursion: it opens a closure and reads its result back under
a binder, and it forces and reads back the arguments of a variable from left to right.  The
list of tasks and its stack of terms do the same (`work_quote`): what is done for a value, with
any tasks behind it, is what the recursion does, and its term is put on the stack for them.
-/

namespace CallByNeed

/-- An engine with the fuel that is left, and the thunks that were forced to be read back, each
one with the engine that it was forced in. -/
structure Meter where
  fuel : Nat
  engine : Engine
  forced : List (Option Address × Engine)

abbrev Metered := ExceptT Stop (StateM Meter)

/-- Spends fuel on a task, and counts it as a transition. -/
def spend : Metered Unit := fun meter =>
  match meter.fuel with
  | 0 => (.error .outOfFuel, meter)
  | n + 1 => (.ok (), { meter with fuel := n, engine := meter.engine.countStep })

/-- An evaluation with the fuel that is left. -/
def metered {α : Type} (ac : Nat → Eval α) : Metered α := fun meter =>
  ((ac meter.fuel meter.engine).1, { meter with engine := (ac meter.fuel meter.engine).2 })

variable (cfg : Settings)

def forceNoted (th : Option Address) : Metered Value := fun meter =>
  metered (force cfg · th) { meter with forced := meter.forced ++ [(th, meter.engine)] }

/-- Reads a value back by recursion, as deep as `depth` says. -/
def readBack : (dp : Nat) → Value → List Name → Metered Term
  | 0, _, _ => throw .outOfFuel
  | dp + 1, v, us =>
    match v.form with
    | .closure p b env => do
        let x := freshName p us
        let r ← metered fun n => openClosure cfg n p b env x
        spend
        let t ← readBack dp r (us ++ [x])
        spend
        pure (.lam x t)
    | .neutral x args => do
        let ts ← args.mapM fun th => do
          spend
          let v ← forceNoted cfg th
          readBack dp v us
        spend
        pure ((Term.var x).apply ts)
    | .constant dt =>
      if dt.isWritable then pure (.var dt.written) else throw (.raised .unwritable)
    | .primitive x => pure (.var x)
    | .absent => throw (.raised .noThunk)

/-! ### The list of tasks -/

def Task.performNoted (ts : List Term) : Task → Metered (List Task × List Term)
  | .quoteThunk th us => do
      let v ← forceNoted cfg th
      metered fun n => (Task.quote v us).perform cfg n ts
  | tk => metered fun n => tk.perform cfg n ts

/-- Does all tasks, and notes the thunks that are forced. -/
def workFor : (n : Nat) → List Task → List Term → Metered Term
  | _, [], t :: _ => pure t
  | _, [], [] => throw (.raised .noTerm)
  | 0, _ :: _, _ => throw .outOfFuel
  | n + 1, tk :: tks, ts => do
      spend
      let (added, ts) ← tk.performNoted cfg ts
      workFor n (added ++ tks) ts

def work (tks : List Task) (ts : List Term) : Metered Term :=
  fun meter => workFor cfg meter.fuel tks ts meter

variable {cfg} {meter : Meter}

theorem Action.bind_congr {ε σ α β : Type} {ac : ExceptT ε (StateM σ) α} {st : σ}
    {next o : α → ExceptT ε (StateM σ) β}
    (same : ∀ v aft, ac st = (.ok v, aft) → next v aft = o v aft) :
    (ac >>= next) st = (ac >>= o) st := by
  rw [bind_eq, bind_eq]
  rcases ran : ac st with ⟨r, aft⟩
  cases r with
  | ok v => exact same v aft ran
  | error er => rfl

theorem metered_bind {α β : Type} (ac : Nat → Eval α) (next : α → β) :
    metered (fun n => ac n >>= fun v => pure (next v)) =
      (do let v ← metered ac; pure (next v)) := by
  funext meter
  rw [Action.bind_eq, metered, metered, Action.bind_eq]
  rcases ran : ac meter.fuel meter.engine with ⟨r, aft⟩
  cases r <;> rfl

theorem spend_zero (empty : meter.fuel = 0) : spend meter = (.error .outOfFuel, meter) := by
  simp only [spend, empty]

theorem fuel_of_spend {aft : Meter} (spent : spend meter = (.ok (), aft)) :
    meter.fuel = aft.fuel + 1 := by
  cases n : meter.fuel with
  | zero =>
    rw [spend_zero n] at spent
    cases spent
  | succ l =>
    simp only [spend, n] at spent
    cases spent
    rfl

theorem fuel_performNoted (tk : Task) (ts : List Term) (meter : Meter) :
    (tk.performNoted cfg ts meter).2.fuel = meter.fuel := by
  cases tk with
  | quoteThunk th us =>
    rw [Task.performNoted, Action.bind_eq]
    have kept : (forceNoted cfg th meter).2.fuel = meter.fuel := rfl
    rcases forced : forceNoted cfg th meter with ⟨r, aft⟩
    rw [forced] at kept
    cases r with
    | ok v => exact kept
    | error stop => exact kept
  | _ => rfl

theorem work_cons (tk : Task) (tks : List Task) (ts : List Term) :
    work cfg (tk :: tks) ts = (do
      spend
      let found ← tk.performNoted cfg ts
      work cfg (found.1 ++ tks) found.2) := by
  funext meter
  rw [work]
  cases l : meter.fuel with
  | zero =>
    rw [Action.bind_error (spend_zero l)]
    rfl
  | succ n =>
    rw [workFor]
    refine Action.bind_congr fun _ spent paid => Action.bind_congr fun found aft perf => ?_
    have kept : (tk.performNoted cfg ts spent).2.fuel = spent.fuel := fuel_performNoted tk ts spent
    have one := fuel_of_spend paid
    rw [perf] at kept
    have same : n = aft.fuel := Nat.succ.inj (l.symm.trans (one.trans (congrArg (· + 1) kept.symm)))
    rw [work, same]

theorem work_nil (t : Term) (ts : List Term) : work cfg [] (t :: ts) = pure t := by
  funext meter
  rw [work]
  cases meter.fuel <;> rfl

/-! ### Fuel -/

/-- An action that adds no fuel. -/
def Frugal {α : Type} (ac : Metered α) : Prop := ∀ meter, (ac meter).2.fuel ≤ meter.fuel

namespace Frugal

variable {α β : Type}

theorem spend : Frugal spend := by
  intro meter
  rw [CallByNeed.spend]
  split
  · exact Nat.le_refl _
  · rename_i n l
    simp only
    omega

theorem bind {ac : Metered α} {next : α → Metered β} (fst : Frugal ac)
    (later : ∀ v, Frugal (next v)) : Frugal (ac >>= next) := by
  intro meter
  have early := fst meter
  rw [Action.bind_eq]
  rcases ran : ac meter with ⟨r, aft⟩
  rw [ran] at early
  cases r with
  | ok v => exact Nat.le_trans (later v aft) early
  | error stop => exact early

theorem mapM {ac : α → Metered β} (each : ∀ v, Frugal (ac v)) (vs : List α) :
    Frugal (vs.mapM ac) := by
  induction vs with
  | nil =>
    rw [List.mapM_nil]
    exact fun _ => Nat.le_refl _
  | cons v vs ih =>
    rw [List.mapM_cons]
    exact (each v).bind fun _ => ih.bind fun _ _ => Nat.le_refl _

theorem readBack (dp : Nat) (v : Value) (us : List Name) : Frugal (readBack cfg dp v us) := by
  induction dp generalizing v us with
  | zero => exact fun _ => Nat.le_refl _
  | succ dp ih =>
    rw [CallByNeed.readBack]
    split
    · exact bind (fun _ => Nat.le_refl _) fun _ => spend.bind fun _ => (ih _ _).bind fun _ =>
        spend.bind fun _ _ => Nat.le_refl _
    · refine (mapM (fun th => ?_) _).bind fun _ => spend.bind fun _ _ => Nat.le_refl _
      exact spend.bind fun _ => bind (fun _ => Nat.le_refl _) fun v => ih v us
    · split <;> exact fun _ => Nat.le_refl _
    · exact fun _ => Nat.le_refl _
    · exact fun _ => Nat.le_refl _

end Frugal

/-! ### The loop and the recursion -/

/-- What is done for a value, with any tasks behind it, is what the recursion does. -/
def ReadsAs (cfg : Settings) (dp : Nat) : Prop :=
  ∀ (v : Value) (us : List Name) (tks : List Task) (ts : List Term) (meter : Meter),
    meter.fuel < dp →
    ((Task.quote v us).performNoted cfg ts >>= fun found =>
        work cfg (found.1 ++ tks) found.2) meter =
      (readBack cfg dp v us >>= fun t =>
        work cfg tks (t :: ts)) meter

theorem work_bind (x : Name) (tks : List Task) (b : Term) (ts : List Term) :
    work cfg (.bind x :: tks) (b :: ts) = (do spend; work cfg tks (.lam x b :: ts)) :=
  work_cons _ _ _

theorem work_combine (x : Name) (tks : List Task) (read ts : List Term) :
    work cfg (.combine x read.length :: tks) (read.reverse ++ ts) =
      (do spend; work cfg tks ((Term.var x).apply read :: ts)) := by
  have perf : (Task.combine x read.length).performNoted cfg (read.reverse ++ ts) =
      pure ([], (Term.var x).apply read :: ts) := by
    funext meter
    have enough : ¬ (read.reverse ++ ts).length < read.length := by
      rw [List.length_append, List.length_reverse]
      omega
    have taken : (read.reverse ++ ts).take read.length = read.reverse := by
      rw [← List.length_reverse, List.take_left]
    have dropped : (read.reverse ++ ts).drop read.length = ts := by
      rw [← List.length_reverse, List.drop_left]
    simp only [Task.performNoted, Task.perform, if_neg enough, taken, dropped, List.reverse_reverse]
    rfl
  rw [work_cons, perf]
  simp only [pure_bind, List.nil_append]

/-- Arguments are read back from left to right, behind those that have been read. -/
theorem work_arguments (reads : ReadsAs cfg dp) (x : Name) (us : List Name)
    (tks : List Task) (ts : List Term) (args : List (Option Address)) (read : List Term)
    (meter : Meter) (enough : meter.fuel ≤ dp) :
    work cfg (args.map (.quoteThunk · us) ++
        .combine x (read.length + args.length) :: tks) (read.reverse ++ ts) meter =
      ((args.mapM fun th => do
          spend
          let v ← forceNoted cfg th
          readBack cfg dp v us) >>= fun more => do
        spend
        work cfg tks ((Term.var x).apply (read ++ more) :: ts)) meter := by
  induction args generalizing read meter with
  | nil =>
    rw [List.map_nil, List.nil_append, List.length_nil, Nat.add_zero, work_combine]
    simp only [List.mapM_nil, pure_bind, List.append_nil]
  | cons arg args ih =>
    rw [List.map_cons, List.cons_append, work_cons, List.mapM_cons, Task.performNoted]
    simp only [bind_assoc, pure_bind]
    refine Action.bind_congr fun _ spent paid => Action.bind_congr fun v forced ran => ?_
    have one := fuel_of_spend paid
    have kept : (forceNoted cfg arg spent).2.fuel = spent.fuel := rfl
    rw [ran] at kept
    have few : forced.fuel < dp := by
      have : forced.fuel = spent.fuel := kept
      omega
    refine (reads v us _ _ forced few).trans (Action.bind_congr fun t aft quoted => ?_)
    have frugal : (readBack cfg dp v us forced).2.fuel ≤ forced.fuel :=
      Frugal.readBack dp v us forced
    rw [quoted] at frugal
    have less : aft.fuel ≤ dp := Nat.le_trans frugal (Nat.le_of_lt few)
    have next := ih (read ++ [t]) aft less
    have k : (read ++ [t]).length + args.length = read.length + (arg :: args).length := by
      simp only [List.length_append, List.length_cons, List.length_nil]
      omega
    rw [k, List.reverse_append, List.reverse_singleton] at next
    simpa only [List.append_assoc, List.cons_append, List.nil_append] using next

theorem readsAs (dp : Nat) : ReadsAs cfg dp := by
  induction dp with
  | zero => exact fun _ _ _ _ _ few => absurd few (Nat.not_lt_zero _)
  | succ dp ih =>
    intro v us tks ts meter few
    rw [readBack]
    cases form : v.form with
    | closure p b env =>
      have opens : (Task.quote v us).performNoted cfg ts = (do
          let r ← metered fun n =>
            openClosure cfg n p b env (freshName p us)
          pure ([.quote r (us ++ [freshName p us]), .bind (freshName p us)], ts)) := by
        simp only [Task.performNoted, Task.perform, quote, form, bind_assoc, pure_bind,
          List.nil_append]
        exact metered_bind _ _
      rw [opens]
      simp only [bind_assoc, pure_bind]
      refine Action.bind_congr fun r opened ran => ?_
      have kept : (metered (fun n =>
        openClosure cfg n p b env (freshName p us)) meter).2.fuel =
        meter.fuel := rfl
      rw [ran] at kept
      rw [List.cons_append, work_cons]
      refine Action.bind_congr fun _ spent paid => ?_
      have one := fuel_of_spend paid
      have less : spent.fuel < dp := by
        have : opened.fuel = meter.fuel := kept
        omega
      refine (ih r _ _ ts spent less).trans ?_
      simp only [List.singleton_append, work_bind]
    | neutral x args =>
      have leads : (Task.quote v us).performNoted cfg ts =
          pure (args.map (.quoteThunk · us) ++ [.combine x args.length], ts) := by
        simp only [Task.performNoted, Task.perform, quote, form]
        rfl
      rw [leads]
      simp only [bind_assoc, pure_bind, List.append_assoc, List.singleton_append]
      have all := work_arguments ih x us tks ts args [] meter (Nat.le_of_lt_succ few)
      simpa using all
    | primitive x =>
      simp only [Task.performNoted, Task.perform, quote, form]
      rfl
    | absent =>
      simp only [Task.performNoted, Task.perform, quote, form]
      rfl
    | constant dt =>
      simp only [Task.performNoted, Task.perform, quote, form]
      split <;> rfl

/-! ### The loop as it is -/

theorem performNoted_eq (tk : Task) (ts : List Term) (meter : Meter) :
    tk.perform cfg meter.fuel ts meter.engine =
      ((tk.performNoted cfg ts meter).1, (tk.performNoted cfg ts meter).2.engine) := by
  cases tk with
  | quoteThunk th us =>
    rcases forced : force cfg meter.fuel th meter.engine with ⟨r, aft⟩
    have noted : forceNoted cfg th meter =
        (r, ⟨meter.fuel, aft, meter.forced ++ [(th, meter.engine)]⟩) := by
      rw [forceNoted, metered, forced]
    cases r with
    | ok v =>
      rw [perform_quoteThunk_ok cfg meter.fuel forced, Task.performNoted, Action.bind_ok noted]
      rfl
    | error stop =>
      rw [perform_quoteThunk_error cfg meter.fuel forced, Task.performNoted,
        Action.bind_error noted]
  | _ => rfl

/-- Without a bound, the loop that notes what is forced is the loop itself. -/
theorem work_eq (unb : ∀ sts, cfg.limit.exceeded sts = false) (st0 : Nat) (tks : List Task)
    (ts : List Term) (meter : Meter) :
    performAll cfg st0 meter.fuel tks ts meter.engine =
      ((work cfg tks ts meter).1, (work cfg tks ts meter).2.engine) := by
  obtain ⟨n, e, forced⟩ := meter
  induction n generalizing tks ts e forced with
  | zero => cases tks <;> cases ts <;> rfl
  | succ n ih =>
    cases tks with
    | nil => cases ts <;> rfl
    | cons tk tks =>
      have paid : spend ⟨n + 1, e, forced⟩ = (.ok (), ⟨n, e.countStep, forced⟩) := rfl
      have same : tk.perform cfg n ts e.countStep = _ :=
        performNoted_eq tk ts ⟨n, e.countStep, forced⟩
      have kept : (tk.performNoted cfg ts ⟨n, e.countStep, forced⟩).2.fuel = n :=
        fuel_performNoted tk ts _
      rw [work_cons, Action.bind_ok paid]
      rcases perf : tk.performNoted cfg ts ⟨n, e.countStep, forced⟩ with
        ⟨r, aft⟩
      rw [perf] at same kept
      cases r with
      | error stop => rw [performAll_error cfg n (unb _) same, Action.bind_error perf]
      | ok found =>
        obtain ⟨l, mid, noted⟩ := aft
        cases kept
        rw [performAll_ok cfg l (unb _) same, Action.bind_ok perf]
        exact ih _ _ _ _

/-! ### The stack of terms -/

/-- What the loop comes by when it reads a value back: the tasks and the terms at each turn. -/
inductive Visits (cfg : Settings) (v : Value) (e : Engine) :
    List Task → List Term → Engine → Prop
  | start : Visits cfg v e [.quote v []] [] e
  | turn {tk : Task} {tks added : List Task} {ts built : List Term} {bef aft : Engine}
      {n : Nat} (visited : Visits cfg v e (tk :: tks) ts bef)
      (perf : tk.perform cfg n ts bef.countStep = (.ok (added, built), aft)) :
      Visits cfg v e (added ++ tks) built aft

/-- The terms that the next task takes from the stack are there, and one term is left when there
is no task. -/
def Safe : List Task → List Term → Prop
  | [], ts => ts.length = 1
  | .bind _ :: _, ts => ts ≠ []
  | .combine _ k :: _, ts => k ≤ ts.length
  | _, _ => True

theorem Suffices.safe (enough : Suffices tks ts.length) :
    Safe tks ts := by
  cases tks with
  | nil => exact enough
  | cons tk tks =>
    cases tk with
    | bind x => exact List.ne_nil_of_length_pos enough.1
    | combine x k => exact enough.1
    | _ => trivial

section Stack

variable {tks added : List Task} {ts built : List Term} {n : Nat} {e aft : Engine}

theorem Suffices.quote (enough : Suffices tks (ts.length + 1))
    (perf : (Task.quote v us).perform cfg n ts e = (.ok (added, built), aft)) :
    Suffices (added ++ tks) built.length := by
  simp only [Task.perform, CallByNeed.quote] at perf
  cases form : v.form with
  | closure p b env =>
    simp only [form, bind_assoc, pure_bind] at perf
    obtain ⟨r, mid, _, done⟩ := Action.of_bind_ok perf
    cases done
    exact ⟨Nat.succ_pos _, enough⟩
  | neutral x args =>
    simp only [form, pure_bind] at perf
    cases perf
    have all := @suffices_arguments args us x 0 _ _ enough
    rwa [Nat.zero_add] at all
  | primitive x =>
    simp only [form, pure_bind] at perf
    cases perf
    exact enough
  | absent =>
    simp only [form] at perf
    cases perf
  | constant dt =>
    simp only [form] at perf
    split at perf
    · cases perf
      exact enough
    · cases perf

theorem Suffices.perform (enough : Suffices (tk :: tks) ts.length)
    (perf : tk.perform cfg n ts e = (.ok (added, built), aft)) :
    Suffices (added ++ tks) built.length := by
  cases tk with
  | quote v us => exact enough.quote perf
  | quoteThunk th us =>
    obtain ⟨v, mid, _, quoted⟩ := Action.of_bind_ok perf
    exact Suffices.quote enough quoted
  | bind x =>
    cases ts with
    | nil => cases perf
    | cons b ts =>
      cases perf
      exact enough.2
  | combine x k =>
    obtain ⟨there, os⟩ := enough
    simp only [Task.perform, if_neg (Nat.not_lt.mpr there)] at perf
    cases perf
    simpa using os

theorem Visits.suffices (visited : Visits cfg v e tks ts aft) :
    Suffices tks ts.length := by
  induction visited with
  | start => exact (rfl : 1 = 1)
  | turn _ perf ih => exact ih.perform perf

end Stack

/-- A value read back by recursion, with the fuel for it. -/
def recursed (cfg : Settings) (n : Nat) (v : Value) (e : Engine) :
    Except Stop Term × Meter :=
  (do spend; readBack cfg n v [] : Metered Term) ⟨n, e, []⟩

/-- A value read back by the list of tasks, with the thunks that are forced noted. -/
def looped (cfg : Settings) (n : Nat) (v : Value) (e : Engine) :
    Except Stop Term × Meter := work cfg [.quote v []] [] ⟨n, e, []⟩

/-- The list of tasks reads a value back as the recursion does, if there is no bound: with the
same term or the same error, from the same fuel, with the same thunks forced one after the
other in the same engines, and with the same engine in the end.  No term is missing on the stack
when a task takes it, and there is exactly one in the end. -/
theorem normalize_eq_recursion (unb : ∀ sts, cfg.limit.exceeded sts = false)
    (n : Nat) (v : Value) (e : Engine) :
    normalize cfg n v e = ((recursed cfg n v e).1, (recursed cfg n v e).2.engine) ∧
    normalize cfg n v e = ((looped cfg n v e).1, (looped cfg n v e).2.engine) ∧
    (looped cfg n v e).2.forced = (recursed cfg n v e).2.forced ∧
    ∀ tks ts aft, Visits cfg v e tks ts aft → Safe tks ts := by
  have same : looped cfg n v e = recursed cfg n v e := by
    rw [looped, recursed, work_cons]
    refine Action.bind_congr fun _ spent paid => ?_
    have few : spent.fuel < n := Nat.lt_of_lt_of_eq (Nat.lt_succ_self _) (fuel_of_spend paid).symm
    refine (readsAs n v [] [] [] spent few).trans ?_
    simp only [work_nil, bind_pure]
  have erased : normalize cfg n v e = _ :=
    work_eq unb e.tally.steps [.quote v []] [] ⟨n, e, []⟩
  refine ⟨?_, erased, congrArg (·.2.forced) same, fun tks ts aft visited =>
    visited.suffices.safe⟩
  rw [← same]
  exact erased

/-- The value of `x => x x`. -/
def duplicator : Value := ⟨.closure "x" (.app (.var "x") (.var "x")) (.root 0), 1⟩

theorem duplicator_eq_recursion :
    (∀ sts, (⟨countingHost, none⟩ : Settings).limit.exceeded sts = false) ∧
    (recursed ⟨countingHost, none⟩ 9 duplicator (.fresh .empty)).1 =
      .ok (.lam "x" (.app (.var "x") (.var "x"))) ∧
    (recursed ⟨countingHost, none⟩ 9 duplicator (.fresh .empty)).2.forced.map Prod.fst =
      [some 0] ∧
    (normalize ⟨countingHost, none⟩ 9 duplicator (.fresh .empty)).1 =
      (recursed ⟨countingHost, none⟩ 9 duplicator (.fresh .empty)).1 := by
  have unb : ∀ sts, (⟨countingHost, none⟩ : Settings).limit.exceeded sts = false :=
    fun _ => rfl
  have same := (normalize_eq_recursion unb 9 duplicator (.fresh .empty)).1
  exact ⟨unb, by cbv, by cbv, congrArg Prod.fst same⟩

end CallByNeed
