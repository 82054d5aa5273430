import CallByNeed.Proofs.Realms

/-!
# Requests stay in their realm

A request for a thunk of a realm meets only what the realm has: it fails on a
name that may be missing, or on a thunk that needs its own value if the realm is
not ranked, and on nothing else but the bound on its steps.  Normal forms and
numbers of the values that come out are asked for in the same realm, with the
thunks that were added.

Other requests may have been made in between.  They evaluate thunks of the realm
on their own, and leave the realm sealed (`kept_sealed`).
-/

variable {a : Address}

namespace CallByNeed

variable {er : Raised} {top : ℚ} {r : Except Stop Value}

/-! ### Computations from outside -/

/-- Thunks of a realm without host values are evaluated apart from what is outside. -/
theorem guards_sealed (lk : Store) (host : Host) :
    Guards host Realm.level (fun rm s => rm.counted = none ∧ Sealed lk rm s) (Inside lk)
      (fun rm o => ∃ few, rm.Later 0 few o) where
  refl rm := ⟨0, .refl 0 rm⟩
  trans := by
    rintro fst snd thd ⟨few, early⟩ ⟨more, late⟩
    exact ⟨few + more, early.trans late (Nat.le_refl 0)⟩
  steady kept tbs steady := ⟨kept.1, kept.2.steady tbs steady⟩
  enter := by
    rintro rm bef aft a th k ⟨_, closed⟩ enters
    obtain ⟨lv, given⟩ := Option.isSome_iff_exists.mp enters.given
    have below : rm.Below (lv + 1) a := ⟨lv, given, fun _ => by linarith⟩
    rw [enters.entered]
    exact Stacks.base.enter closed below enters.held enters.unforced bef.value _
  move := by
    rintro rm base bef aft ⟨pure, closed⟩ inside above move
    obtain ⟨o, few, later, _, closed, inside⟩ := inside.move closed (by simp [pure]) above move
    exact ⟨o, ⟨few, later.weaken (Nat.zero_le _)⟩, ⟨later.keeps, later.adds⟩,
      ⟨later.pure pure, closed⟩, inside⟩

/-- Whatever is asked of an engine, a realm without host values stays sealed. -/
theorem kept_sealed (lk : Store) (cfg : Settings) :
    Kept cfg (· = .outOfFuel) fun bef aft => ∀ rm : Realm,
      rm.counted = none ∧ Sealed lk rm bef →
      ∃ o, (∃ few, rm.Later 0 few o) ∧ o.counted = none ∧ Sealed lk o aft :=
  (guards_sealed lk cfg.host).kept

/-! ### Failures of computations from inside -/

/-- The failures that a realm allows. -/
inductive Realm.Faults (rm : Realm) : Raised → Prop where
  | limited {bound tr} : Faults rm (.evaluation (.stepLimit bound) tr)
  | unbound {x tr} (missing : rm.missing x) : Faults rm (.evaluation (.unbound x) tr)
  | cyclic {lb tr} (unranked : ¬ rm.ranked) : Faults rm (.evaluation (.cyclic lb) tr)
  | refused {tx tr} (counting : rm.counted.isSome) :
      Faults rm (.evaluation (.notAFunction tx) tr)
  | unwritable {most} (counting : rm.counted = some most)
      (large : Nat.pow 10 Number.mostDigits ≤ most) : Faults rm .unwritable

theorem Realm.Faults.traced {rm : Realm} (faults : rm.Faults er) (st : State) :
    rm.Faults (st.traced er) := by
  unfold State.traced
  split
  · cases faults with
    | limited => exact .limited
    | unbound missing => exact .unbound missing
    | cyclic unranked => exact .cyclic unranked
    | refused counting => exact .refused counting
  · exact faults

theorem Realm.Faults.of_later {rm o : Realm} {size few : Nat} (faults : o.Faults er)
    (later : rm.Later size few o) (pure : rm.counted = none) : rm.Faults er := by
  have none := later.pure pure
  cases faults with
  | limited => exact .limited
  | unbound missing => exact .unbound (later.missing ▸ missing)
  | cyclic unranked => exact .cyclic (later.ranked ▸ unranked)
  | refused counting => simp [none] at counting
  | unwritable counting => simp [none] at counting

section Inside

variable {lk : Store} {rm : Realm} {host : Host} {c : Configuration}

/-- In a ranked realm no thunk that may be used is being evaluated. -/
theorem Stacks.not_ranked (marked : c.Marked) (fs : Stacks rm [] top c.stack) {th : Thunk}
    (below : rm.Below top a) (held : c.store.thunk? a = some th) (forcing : th.phase = .forcing) :
    ¬ rm.ranked := by
  intro ranked
  have mem : a ∈ updates c.stack := marked.forcing_iff.mp (by simp [Store.phase?, held, forcing])
  obtain ⟨lv, given, less⟩ := below
  obtain ⟨o, same, le⟩ := fs.le_level ranked mem
  grind

/-- A thunk of a realm that needs its own value can be named. -/
theorem Sealed.cycle_faults (marked : c.Marked) (closed : Sealed lk rm c.store)
    (fs : Stacks rm [] top c.stack) {th : Thunk} (below : rm.Below top a)
    (held : c.store.thunk? a = some th) (forcing : th.phase = .forcing) : rm.Faults th.cycle := by
  have unranked := fs.not_ranked marked below held forcing
  obtain ⟨lv, given, _⟩ := below
  obtain ⟨t, env, ct, _⟩ := (closed.fits given held).code_covers (by simp [forcing])
  have wr : th.isWritable := by grind [Thunk.isWritable]
  rw [Thunk.cycle, if_pos wr]
  exact .cyclic unranked

theorem Within.refusal_faults {v : Value} (within : Within lk rm top v.form)
    (refuses : v.form.isApplicable = false) : rm.Faults v.refusal := by
  generalize form : v.form = shape at within refuses
  cases within with
  | closure covers => cases refuses
  | neutral below => cases refuses
  | primitive calls => cases refuses
  | constant counts =>
    obtain ⟨most, counting, kd⟩ := counts
    unfold Value.refusal
    split
    · exact .refused (by simp [counting])
    · rename_i unwritable
      rw [Value.isWritable, form] at unwritable
      rcases kd with rfl | ⟨num, small, rfl⟩
      · exact absurd rfl unwritable
      · have large : Nat.pow 10 Number.mostDigits ≤ num := by simp_all [Datum.isWritable]
        exact .unwritable counting (Nat.le_trans large small)

/-- A computation in a realm fails only as the realm allows. -/
theorem Inside.raise (closed : Sealed lk rm c.store) (inside : Inside lk rm [] c)
    (marked : c.Marked) (succeeds : rm.counted.isSome → host.Succeeds) (raise : Raise host c er) :
    rm.Faults er := by
  cases inside with
  | evaluates covers fs =>
    cases raise with
    | unbound lost =>
      rw [closed.find] at lost
      exact .unbound (covers.lost (by simp [Term.freeNames]) lost)
    | dangling found empty =>
      rw [closed.find] at found
      obtain ⟨lv, given, _⟩ := covers.found (by simp [Term.freeNames]) found
      obtain ⟨th, held, _⟩ := closed.holds given
      simp_all
    | cyclic found held forcing =>
      rw [closed.find] at found
      have below := covers.found (by simp [Term.freeNames]) found
      exact closed.cycle_faults marked fs below held forcing
  | returns within fs =>
    cases raise with
    | refused refuses => exact within.refusal_faults refuses
    | unsupplied prim empty =>
      cases fs with
      | argument below rest =>
        obtain ⟨lv, given, _⟩ := below
        obtain ⟨th, held, _⟩ := closed.holds given
        simp_all
    | cyclicArgument prim held forcing =>
      have all := fs
      cases fs with
      | argument below rest => exact closed.cycle_faults marked all below held forcing
    | host failed =>
      cases fs with
      | call calls rest =>
        obtain ⟨counting, rfl⟩ := calls
        rw [succeeds counting] at failed
        cases failed

theorem Inside.moves {k : Nat} {st0 last : Configuration} (closed : Sealed lk rm st0.store)
    (inside : Inside lk rm [] st0) (succeeds : rm.counted.isSome → host.Succeeds)
    (moves : Moves host k st0 last) :
    ∃ o few, rm.Later st0.store.size few o ∧ few ≤ k ∧
      Sealed lk o last.store ∧ Inside lk o [] last := by
  induction moves generalizing rm with
  | refl => exact ⟨rm, 0, .refl _ _, Nat.le_refl 0, closed, inside⟩
  | step move _ ih =>
    obtain ⟨mid, few, early, one, closed, inside⟩ :=
      inside.move closed succeeds move.stack_ne_nil move
    obtain ⟨o, more, late, bound, closed, inside⟩ :=
      ih closed inside fun counting => succeeds (early.isSome_iff.mp counting)
    exact ⟨o, few + more, early.trans late move.size_le, by omega, closed, inside⟩

end Inside

/-- A sealed store between requests. -/
structure Rests (lk : Store) (rm : Realm) (s : Store) : Prop where
  closed : Sealed lk rm s
  settled : s.Settled
  writable : s.Writable

/-- A value of the realm, or a failure that it allows. -/
def Realm.Admits (lk : Store) (rm : Realm) : Except Stop Value → Prop
  | .ok v => ∃ top, Within lk rm top v.form
  | .error (.raised er) => rm.Faults er
  | .error .outOfFuel => True

section Requests

variable {lk : Store} {rm : Realm} {cfg : Settings} {n : Nat}
  {e aft : Engine}

/-- A run from inside a realm gives what the realm admits, and the host counts at
most as far as transitions are made. -/
theorem run_confined {st0 : Configuration} {k taken : Nat} {st : State}
    (rests : Rests lk rm st0.store) (inside : Inside lk rm [] st0)
    (succeeds : rm.counted.isSome → cfg.host.Succeeds) (noFrames : ∀ a, .update a ∉ st0.stack)
    (moves : Moves cfg.host k st0 st.configuration) (ran : run cfg n taken st = (r, aft))
    (ended : r ≠ .error .outOfFuel) :
    ∃ o few, rm.Later st0.store.size few o ∧
      st.engine.tally.steps + few ≤ aft.tally.steps + k ∧ Rests lk o aft.store ∧ o.Admits lk r := by
  have heeded : ∀ stop, stop = .outOfFuel → r ≠ .error stop :=
    fun stop same failed => ended (same ▸ failed)
  obtain ⟨settled, wr, _⟩ :=
    (kept_settles cfg).run noFrames moves ran heeded rests.settled rests.writable
  obtain ⟨more, last, further, sts, ending⟩ := run_spec cfg n taken st
  have all := moves.trans further
  obtain ⟨o, few, later, bound, closed, inside⟩ := inside.moves rests.closed succeeds all
  have marked := (Underway.moves rests.settled noFrames all).marked
  have lbs : last.engine.store.Writable :=
    all.preserves (fun c => c.store.Writable) rests.writable fun _ _ ely move => ely.move move
  have traceable : last.counted.isTraceable :=
    @Configuration.Marked.isTraceable last.counted marked lbs
  have gaveUp : ∀ {er : Raised}, o.Faults er → (r, aft) = last.counted.abandon er →
      aft.tally.steps = last.engine.tally.steps + 1 ∧ Sealed lk o aft.store ∧
        o.Admits lk r := by
    intro er faults oc
    rw [State.abandon_of_traceable traceable] at oc
    cases oc
    have unwound : Sealed lk o last.counted.unwind.store := Sealed.unwind closed
    exact ⟨by simp [State.counted], unwound, faults.traced last.counted⟩
  have concluded : aft.tally.steps = last.engine.tally.steps + 1 ∧
      Sealed lk o aft.store ∧ o.Admits lk r := by
    rcases ending with ⟨_, exh⟩ | ⟨_, _, ending⟩
    · simp_all
    · rw [ran] at ending
      cases r with
      | ok v =>
        obtain ⟨_, noFocus, noStack, rfl, rfl⟩ := ending.of_ok
        refine ⟨rfl, closed, ?_⟩
        obtain ⟨focus, v, stk, e⟩ := last
        cases noFocus
        cases inside with
        | returns within fs => exact ⟨_, within⟩
      | error stop =>
        rcases ending.of_error with ⟨_, oc⟩ | ⟨_, er, failed, raise, sameEngine, samePending, oc⟩
        · exact gaveUp .limited oc
        · have succeedsLater : o.counted.isSome → cfg.host.Succeeds :=
            fun counting => succeeds (later.isSome_iff.mp counting)
          apply gaveUp (inside.raise closed marked succeedsLater raise)
          rw [oc]
          exact @State.abandon_congr last.counted failed sameEngine samePending er
  obtain ⟨counted, closed, admits⟩ := concluded
  exact ⟨o, few, later, by omega, ⟨closed, settled, wr⟩, admits⟩

theorem evaluate_confined (rests : Rests lk rm e.store) {top : ℚ} {t : Term} {env : Env}
    (covers : Covers lk rm top env t.freeNames) (succeeds : rm.counted.isSome → cfg.host.Succeeds)
    (evd : evaluate cfg n t env e = (r, aft)) (ended : r ≠ .error .outOfFuel) :
    ∃ o few, rm.Later e.store.size few o ∧ Rests lk o aft.store ∧ o.Admits lk r := by
  have inside : Inside lk rm [] ⟨some (t, env), Value.absent, [], e.store⟩ :=
    .evaluates covers .base
  obtain ⟨o, few, later, _, rests, admits⟩ :=
    run_confined rests inside succeeds (by simp) (.refl _) evd ended
  exact ⟨o, few, later, rests, admits⟩

theorem force_confined (rests : Rests lk rm e.store) {lv : ℚ} (given : rm.level a = some lv)
    (succeeds : rm.counted.isSome → cfg.host.Succeeds) (forced : force cfg n (some a) e = (r, aft))
    (ended : r ≠ .error .outOfFuel) :
    ∃ o few, rm.Later e.store.size few o ∧ Rests lk o aft.store ∧ o.Admits lk r := by
  obtain ⟨th, held, fits⟩ := rests.closed.holds given
  cases phase : th.phase with
  | forced =>
    rw [force_of_forced cfg n held phase] at forced
    cases forced
    exact ⟨rm, 0, .refl _ _, rests, lv, fits.value_within phase⟩
  | forcing =>
    have forcing : e.store.phase? a = some .forcing := by
      simp [Store.phase?, held, phase]
    exact absurd forcing (rests.settled a)
  | unforced =>
    rw [force_of_unforced cfg n held phase] at forced
    have covers : Covers lk rm (lv + 1) (.layer "" (some a) (.root 0))
        (Term.var "").freeNames := by
      constructor
      · intro x o mem found
        rw [Term.freeNames, List.mem_singleton] at mem
        simp only [Store.find, mem, if_true, Option.some.injEq] at found
        exact found ▸ ⟨lv, given, fun _ => by linarith⟩
      simp [Term.freeNames, Store.find]
    have inside : Inside lk rm [] (askFor a e.store) := .evaluates covers .base
    have moves := Moves.step (move_entered cfg.host held phase) (.refl _)
    obtain ⟨o, few, later, _, rests, admits⟩ :=
      run_confined rests inside succeeds (by simp [askFor]) moves forced ended
    exact ⟨o, few, later, rests, admits⟩

end Requests

/-! ### Normal forms -/

/-- A task about values and thunks of a realm. -/
def Task.Allowed (lk : Store) (rm : Realm) : Task → Prop
  | .quote v _ => ∃ top, Within lk rm top v.form
  | .quoteThunk th _ => ∃ a lv, th = some a ∧ rm.level a = some lv
  | .bind _ => True
  | .combine _ _ => True

/-- Whether tasks find the terms that they need, when there are so many to start
with, and leave one. -/
def Suffices : List Task → Nat → Prop
  | [], ts => ts = 1
  | .quote _ _ :: tks, ts => Suffices tks (ts + 1)
  | .quoteThunk _ _ :: tks, ts => Suffices tks (ts + 1)
  | .bind _ :: tks, ts => 0 < ts ∧ Suffices tks ts
  | .combine _ k :: tks, ts => k ≤ ts ∧ Suffices tks (ts - k + 1)

/-- What may come of a task: tasks of the realm that find their terms, or a
failure that the realm allows. -/
def Realm.Continues (lk : Store) (rm : Realm) (tks : List Task) (aft : Engine) :
    Except Stop (List Task × List Term) → Prop
  | .ok (added, built) => ∃ o few, rm.Later 0 few o ∧
      Rests lk o aft.store ∧ (∀ tk ∈ added, tk.Allowed lk o) ∧ Suffices (added ++ tks) built.length
  | .error (.raised er) => rm.Faults er
  | .error .outOfFuel => True

theorem Task.Allowed.grow {lk : Store} {rm o : Realm} {size : Nat} {tk : Task}
    (allowed : tk.Allowed lk rm) (grow : rm.Grow size o) : tk.Allowed lk o := by
  cases tk with
  | quote v us =>
    obtain ⟨top, within⟩ := allowed
    exact ⟨top, within.grow grow fun _ => le_refl top⟩
  | quoteThunk th us =>
    obtain ⟨a, lv, same, given⟩ := allowed
    exact ⟨a, lv, same, grow.keeps given⟩
  | bind x => trivial
  | combine x k => trivial

/-- The arguments of a variable are read, and then the variable is applied. -/
theorem suffices_arguments {args : List (Option Address)} (us : List Name) (x : Name)
    {read ts : Nat} {tks : List Task} (enough : Suffices tks (ts + 1)) :
    Suffices ((args.map (.quoteThunk · us) ++ [.combine x (read + args.length)]) ++
      tks) (ts + read) := by
  induction args generalizing read with
  | nil =>
    constructor
    · simp
    · simpa using enough
  | cons arg args ih =>
    have next := @ih (read + 1)
    rw [show read + 1 + args.length = read + (arg :: args).length by
      simp only [List.length_cons]; omega] at next
    exact next

section ReadBack

variable {lk : Store} {rm : Realm} {cfg : Settings} {n : Nat}
  {e aft : Engine}

theorem Rests.withVariable (rests : Rests lk rm e.store) (x : Name) (lv : ℚ) :
    Rests lk (rm.add e.store.size lv) (e.store.withVariable x) := by
  obtain ⟨settled, wr, _⟩ := (kept_settles ⟨countingHost, none⟩).withVariable
    e.store x rests.settled rests.writable
  exact ⟨rests.closed.withVariable x lv, settled, wr⟩

section

variable (pure : rm.counted = none)

include pure

section

variable (rests : Rests lk rm e.store)

include rests

/-- A closure of a realm is opened in the realm, with its variable on top. -/
theorem open_confined {p x : Name} {b : Term} {env : Env}
    (covers : Covers lk rm top env (Term.lam p b).freeNames)
    (opened : openClosure cfg n p b env x e = (r, aft)) (ended : r ≠ .error .outOfFuel) :
    ∃ o few, rm.Later 0 few o ∧ Rests lk o aft.store ∧ o.Admits lk r := by
  let extended := rm.add e.store.size top
  have less : top < top + 1 := by linarith
  have added : rm.Later e.store.size 0 extended := Realm.later_add rests.closed.fresh top
  have below : extended.Below (top + 1) e.store.size :=
    ⟨top, Realm.level_add_self rm _ top, fun _ => less⟩
  have inn := (covers.grow added.toGrow fun _ => le_of_lt less).layer below
  have counts : extended.counted.isSome → cfg.host.Succeeds := by simp [added.pure pure]
  obtain ⟨o, few, later, rests, admits⟩ :=
    evaluate_confined (e := { e with store := e.store.withVariable x })
      (rests.withVariable x top) inn counts opened ended
  have early : rm.Later 0 0 extended := added.weaken (Nat.zero_le _)
  exact ⟨o, 0 + few, early.trans later (Nat.zero_le _), rests, admits⟩

variable {v : Value} {tks : List Task} {ts : List Term}

theorem quote_confined {us : List Name} (allowed : (Task.quote v us).Allowed lk rm)
    (enough : Suffices tks (ts.length + 1)) {r : Except Stop (List Task × List Term)}
    (perf : (Task.quote v us).perform cfg n ts e = (r, aft)) : rm.Continues lk tks aft r := by
  obtain ⟨top, within⟩ := allowed
  cases form : v.form with
  | closure p b env =>
    rw [form] at within
    cases within with
    | closure covers =>
      rcases opened : openClosure cfg n p b env (freshName p us) e with ⟨oc, last⟩
      have confined := open_confined pure rests covers opened
      cases oc with
      | ok r =>
        rw [perform_closure_ok cfg n form opened] at perf
        cases perf
        obtain ⟨o, few, later, rests, admits⟩ := confined (by simp)
        refine ⟨o, few, later, rests, ?_, Nat.succ_pos _, enough⟩
        intro tk mem
        simp only [List.mem_cons, List.not_mem_nil, or_false] at mem
        rcases mem with rfl | rfl
        · exact admits
        · trivial
      | error stop =>
        rw [perform_closure_error cfg n form opened] at perf
        cases perf
        cases stop with
        | outOfFuel => trivial
        | raised er =>
          obtain ⟨o, few, later, _, faults⟩ := confined (by simp)
          exact Realm.Faults.of_later faults later pure
  | neutral x args =>
    rw [form] at within
    cases within with
    | neutral below =>
      rw [perform_neutral cfg n form] at perf
      cases perf
      have all := @suffices_arguments args us x 0 _ _ enough
      rw [Nat.zero_add] at all
      refine ⟨rm, 0, .refl 0 rm, rests, ?_, all⟩
      intro tk mem
      rcases List.mem_append.mp mem with read | last
      · obtain ⟨arg, listed, rfl⟩ := List.mem_map.mp read
        obtain ⟨a, same, lv, given, _⟩ := below arg listed
        exact ⟨a, lv, same, given⟩
      · rw [List.mem_singleton.mp last]
        trivial
  | primitive x =>
    rw [form] at within
    cases within with
    | primitive calls => simp [Realm.Calls, pure] at calls
  | constant dt =>
    rw [form] at within
    cases within with
    | constant counts => simp [Realm.Counts, pure] at counts
  | absent =>
    rw [form] at within
    cases within

theorem task_confined {tk : Task} (allowed : tk.Allowed lk rm)
    (enough : Suffices (tk :: tks) ts.length) {r : Except Stop (List Task × List Term)}
    (perf : tk.perform cfg n ts e = (r, aft)) : rm.Continues lk tks aft r := by
  cases tk with
  | quote v us => exact quote_confined pure rests allowed enough perf
  | quoteThunk th us =>
    obtain ⟨a, lv, rfl, given⟩ := allowed
    rcases forced : force cfg n (some a) e with ⟨oc, mid⟩
    have confined := force_confined rests given (by simp [pure]) forced
    cases oc with
    | ok v =>
      rw [perform_quoteThunk_ok cfg n forced] at perf
      obtain ⟨o, few, later, rests, admits⟩ := confined (by simp)
      have quoted := quote_confined (later.pure pure) rests admits enough perf
      have early := later.weaken (Nat.zero_le _)
      cases r with
      | ok built =>
        obtain ⟨last, more, late, rests, allowed, enough⟩ := quoted
        exact ⟨last, few + more, early.trans late (Nat.le_refl 0), rests, allowed, enough⟩
      | error stop =>
        cases stop with
        | outOfFuel => trivial
        | raised er => exact Realm.Faults.of_later quoted early pure
    | error stop =>
      rw [perform_quoteThunk_error cfg n forced] at perf
      cases perf
      cases stop with
      | outOfFuel => trivial
      | raised er =>
        obtain ⟨o, few, later, _, faults⟩ := confined (by simp)
        exact Realm.Faults.of_later faults later pure
  | bind x =>
    obtain ⟨some, enough⟩ := enough
    cases ts with
    | nil => cases some
    | cons b ts =>
      cases perf
      exact ⟨rm, 0, .refl 0 rm, rests, by simp, enough⟩
  | combine x k =>
    obtain ⟨some, enough⟩ := enough
    have done : (Task.combine x k).perform cfg n ts e =
        (.ok ([], (Term.var x).apply (ts.take k).reverse :: ts.drop k), e) := by
      simp only [Task.perform, if_neg (Nat.not_lt.mpr some)]
      rfl
    rw [done] at perf
    cases perf
    refine ⟨rm, 0, .refl 0 rm, rests, by simp, ?_⟩
    simpa using enough

theorem performAll_confined {st0 : Nat} (allowed : ∀ tk ∈ tks, tk.Allowed lk rm)
    (enough : Suffices tks ts.length)
    (perf : performAll cfg st0 n tks ts e = (.error (.raised er), aft)) : rm.Faults er := by
  induction n generalizing rm e tks ts with
  | zero =>
    cases tks with
    | cons tk tks => cases perf
    | nil =>
      cases ts with
      | nil => cases enough
      | cons t ts => cases perf
  | succ n ih =>
    cases tks with
    | nil =>
      cases ts with
      | nil => cases enough
      | cons t ts => cases perf
    | cons tk tks =>
      cases bound : cfg.limit.exceeded (e.tally.steps + 1 - st0) with
      | true =>
        rw [performAll_exceeded cfg n bound] at perf
        cases perf
        exact .limited
      | false =>
        rcases done : tk.perform cfg n ts e.countStep with ⟨oc, mid⟩
        have continues := task_confined (e := e.countStep) pure rests
          (allowed tk List.mem_cons_self) enough done
        cases oc with
        | error stop =>
          rw [performAll_error cfg n bound done] at perf
          cases perf
          exact continues
        | ok built =>
          rw [performAll_ok cfg n bound done] at perf
          obtain ⟨o, few, later, rests, added, enough⟩ := continues
          have faults := ih (later.pure pure) rests ?_ enough perf
          · exact faults.of_later later pure
          · intro next mem
            rcases List.mem_append.mp mem with new | old
            · exact added next new
            · exact (allowed next (List.mem_cons_of_mem _ old)).grow later.toGrow

theorem normalize_confined (within : Within lk rm top v.form)
    (normalized : normalize cfg n v e = (.error (.raised er), aft)) : rm.Faults er := by
  apply performAll_confined pure rests _ _ normalized
  · intro tk mem
    rw [List.mem_singleton.mp mem]
    exact ⟨top, within⟩
  · exact rfl

section Numbers

variable (within : Within lk rm top v.form) (succeeds : cfg.host.Succeeds)

include within succeeds

/-- Counting with the host's successor and zero stays in the realm, and goes at most
as far as transitions are made. -/
theorem count_confined (counted : count cfg n v e = (r, aft)) (ended : r ≠ .error .outOfFuel) :
    ∃ (o : Realm) (few : Nat), o.ranked = rm.ranked ∧ o.missing = rm.missing ∧
      o.counted = some few ∧ e.tally.steps + few ≤ aft.tally.steps ∧ o.Admits lk r := by
  let counting := rm.withCounter e.store.size top
  have free : ∀ a, e.store.size ≤ a → rm.level a = none :=
    fun a beyond => rests.closed.free_of_le beyond
  have grow : rm.Grow e.store.size counting := Realm.grow_withCounter free top pure
  obtain ⟨settled, writable, _⟩ :=
    (kept_settles cfg).withCounter e.store rests.settled rests.writable
  have ready : Rests lk counting e.store.withCounter :=
    ⟨rests.closed.withCounter pure top, settled, writable⟩
  have higher : Within lk counting (top + 1) v.form := within.grow grow fun _ => by linarith
  have inside : Inside lk counting []
      ⟨none, v, [some e.store.size, some (e.store.size + 1)].map .argument,
        e.store.withCounter⟩ := .returns higher (.arguments (Realm.below_withCounter free top))
  rw [count_eq] at counted
  obtain ⟨o, few, later, steps, _, admits⟩ :=
    run_confined ready inside (fun _ => succeeds) (by simp) (.refl _) counted ended
  refine ⟨o, few, later.ranked.trans grow.ranked, later.missing.trans grow.missing, ?_, steps,
    admits⟩
  rw [later.counts]
  simp [counting, Realm.withCounter, Realm.add, Realm.counting]

/-- The only failure that counting adds is a number that is too large to be shown,
which takes as many steps. -/
theorem number_confined (numbered : number cfg n v e = (.error (.raised er), aft)) :
    rm.Faults er ∨
      er = .unwritable ∧ e.tally.steps + Nat.pow 10 Number.mostDigits ≤ aft.tally.steps := by
  rcases number_cases cfg n numbered with
    ⟨_, _, ⟨⟩⟩ | ⟨_, _, _, ⟨⟩⟩ | ⟨_, counted, ⟨⟩, refused⟩
  obtain ⟨o, few, ranked, absent, known, steps, faults⟩ :=
    count_confined pure rests within succeeds counted (by simp)
  cases faults with
  | limited => exact .inl .limited
  | unbound missing => exact .inl (.unbound (absent ▸ missing))
  | cyclic unranked => exact .inl (.cyclic (ranked ▸ unranked))
  | @refused text trace => exact absurd rfl (refused text trace)
  | unwritable most large =>
    rw [known] at most
    cases most
    exact .inr ⟨rfl, by omega⟩

/-- A number that is too large to be shown takes as many steps to be found. -/
theorem steps_of_number {datum : Datum} (numbered : number cfg n v e = (.ok (some datum), aft))
    (large : datum.isWritable = false) :
    e.tally.steps + Nat.pow 10 Number.mostDigits ≤ aft.tally.steps := by
  rcases number_cases cfg n numbered with ⟨found, counted, same⟩ | ⟨_, _, _, ⟨⟩⟩ | ⟨_, _, ⟨⟩, _⟩
  have constant := Value.form_of_integer? (Except.ok.inj same).symm
  obtain ⟨o, few, _, _, known, steps, top, bounded⟩ :=
    count_confined pure rests within succeeds counted (by simp)
  rw [constant] at bounded
  cases bounded with
  | constant counts =>
    obtain ⟨most, counting, rfl | ⟨num, small, rfl⟩⟩ := counts
    · cases large
    · have long : Nat.pow 10 Number.mostDigits ≤ num := by simpa [Datum.isWritable] using large
      rw [known] at counting
      cases counting
      omega

end Numbers

end

end

end ReadBack

/-! ### Requests after other requests -/

/-- What is asked for. -/
inductive Wanted where
  | value
  | normalForm
  | number
deriving DecidableEq

/-- A request fails after a number of steps.  Any requests may have been made of
an engine before a value is requested, and again before its normal form or its
number is, and each of these has a bound of its own. -/
inductive Fails (s : Store) (rq : Settings → Nat → Eval Value) :
    Wanted → Nat → Raised → Prop where
  | value {lim : Limit} {n : Nat} {e aft : Engine} {er : Raised} (reached : Reached s e.store)
      (failed : rq ⟨countingHost, lim⟩ n e = (.error (.raised er), aft)) :
      Fails s rq .value (aft.tally.steps - e.tally.steps) er
  | normalForm {lim bound : Limit} {n more : Nat} {e aft later last : Engine}
      {v : Value} {er : Raised} (reached : Reached s e.store)
      (requested : rq ⟨countingHost, lim⟩ n e = (.ok v, aft))
      (further : Reached aft.store later.store)
      (failed : normalize ⟨countingHost, bound⟩ more v later = (.error (.raised er), last)) :
      Fails s rq .normalForm (last.tally.steps - later.tally.steps) er
  | number {lim bound : Limit} {n more : Nat} {e aft later last : Engine}
      {v : Value} {er : Raised} (reached : Reached s e.store)
      (requested : rq ⟨countingHost, lim⟩ n e = (.ok v, aft))
      (further : Reached aft.store later.store)
      (failed : number ⟨countingHost, bound⟩ more v later = (.error (.raised er), last)) :
      Fails s rq .number (last.tally.steps - later.tally.steps) er

theorem succeeds_countingHost : countingHost.Succeeds := fun _ => rfl

/-- A request that gives what a realm admits, in every later realm. -/
def Realm.Answers (lk : Store) (rm : Realm) (rq : Settings → Nat → Eval Value) :
    Prop :=
  ∀ {o : Realm} {few : Nat}, rm.Later 0 few o →
    ∀ {cfg : Settings} {n : Nat} {e aft : Engine} {r : Except Stop Value},
      Rests lk o e.store → rq cfg n e = (r, aft) → r ≠ .error .outOfFuel →
      ∃ last more, o.Later e.store.size more last ∧ Rests lk last aft.store ∧ last.Admits lk r

section Histories

variable {lk s : Store} {rm : Realm}

theorem Rests.reached {aft : Store} (rests : Rests lk rm s) (pure : rm.counted = none)
    (reached : Reached s aft) : ∃ o few, rm.Later 0 few o ∧ Rests lk o aft := by
  obtain ⟨o, ⟨few, later⟩, _, closed⟩ :=
    Kept.reached (kept_sealed lk ⟨countingHost, none⟩).refl
      (fun cfg _ => kept_sealed lk cfg) reached rm ⟨pure, rests.closed⟩
  obtain ⟨settled, wr, _⟩ :=
    Kept.reached (kept_settles ⟨countingHost, none⟩).refl
      (fun cfg _ => kept_settles cfg) reached rests.settled rests.writable
  exact ⟨o, few, later, closed, settled, wr⟩

theorem answers_force {lv : ℚ} (pure : rm.counted = none) (given : rm.level a = some lv) :
    rm.Answers lk fun cfg n => force cfg n (some a) := by
  intro o few later cfg n e aft r rests forced ended
  exact force_confined rests (later.keeps given) (by simp [later.pure pure]) forced ended

theorem answers_evaluate {t : Term} (env : Env) (pure : rm.counted = none)
    (isClosed : t.freeNames = []) : rm.Answers lk fun cfg n => evaluate cfg n t env := by
  intro o few later cfg n e aft r rests evd ended
  have covers : Covers lk o 0 env t.freeNames := by
    rw [isClosed]
    exact ⟨by simp, by simp⟩
  exact evaluate_confined rests covers (by simp [later.pure pure]) evd ended

theorem Realm.Answers.value {rq : Settings → Nat → Eval Value} (answers : rm.Answers lk rq)
    (rests : Rests lk rm s) (pure : rm.counted = none) {cfg : Settings} {n : Nat} {v : Value}
    {e aft later : Engine} (reached : Reached s e.store) (requested : rq cfg n e = (.ok v, aft))
    (further : Reached aft.store later.store) :
    ∃ o few top, rm.Later 0 few o ∧ Rests lk o later.store ∧ Within lk o top v.form := by
  obtain ⟨fst, few, early, rests⟩ := rests.reached pure reached
  obtain ⟨snd, more, mid, rests, top, within⟩ := answers early rests requested (by simp)
  have both := early.trans mid (Nat.zero_le _)
  obtain ⟨thd, most, late, rests⟩ := rests.reached (both.pure pure) further
  exact ⟨thd, _, top, both.trans late (Nat.le_refl 0), rests,
    within.grow late.toGrow fun _ => le_refl top⟩

/-- Requests fail only as their realm allows, or by counting for too long. -/
theorem Realm.Answers.faults {rq : Settings → Nat → Eval Value} (answers : rm.Answers lk rq)
    (rests : Rests lk rm s) (pure : rm.counted = none) {wanted : Wanted} {taken : Nat}
    (fails : Fails s rq wanted taken er) :
    rm.Faults er ∨ wanted = .number ∧ er = .unwritable ∧ Nat.pow 10 Number.mostDigits ≤ taken := by
  cases fails with
  | value reached failed =>
    obtain ⟨fst, few, early, rests⟩ := rests.reached pure reached
    obtain ⟨snd, more, late, _, faults⟩ := answers early rests failed (by simp)
    have both := early.trans late (Nat.zero_le _)
    exact .inl (Realm.Faults.of_later faults both pure)
  | normalForm reached requested further failed =>
    obtain ⟨o, few, top, later, rests, within⟩ := answers.value rests pure reached requested further
    have faults := normalize_confined (later.pure pure) rests within failed
    exact .inl (faults.of_later later pure)
  | number reached requested further failed =>
    obtain ⟨o, few, top, later, rests, within⟩ := answers.value rests pure reached requested further
    rcases number_confined (later.pure pure) rests within succeeds_countingHost failed with
      faults | ⟨unwritable, long⟩
    · exact .inl (faults.of_later later pure)
    grind

end Histories

end CallByNeed
