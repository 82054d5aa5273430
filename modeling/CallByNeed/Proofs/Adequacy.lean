import CallByNeed.Proofs.Histories

/-!
# Call by need against call by name

The machine returns a closure for a term exactly if call-by-name reduction of
the term reaches an abstraction, and it reports a name as unbound exactly if
reduction reaches a term with that name at its head.  It reports a cycle only
for a term whose reduction never ends.
-/

namespace CallByNeed

variable {host : Host} {k n taken : Nat} {st0 : Configuration} {fi : Nameless}
  {st : State} {v : Value} {aft : Engine} {stop : Stop}

/-- A configuration from which there is no move has a value or fails. -/
theorem Configuration.halted (halted : ∀ next, ¬ Move host c next) :
    (c.focus = none ∧ c.stack = []) ∨ ∃ er, Raise host c er := by
  let st : State := ⟨c.focus, c.value, c.stack, .fresh c.store⟩
  have accounts := st.step_spec host
  cases r : st.step host with
  | moved next =>
    rw [r] at accounts
    exact absurd accounts.1 (halted _)
  | returned v e =>
    rw [r] at accounts
    exact .inl ⟨accounts.1, accounts.2.1⟩
  | raised er failed =>
    rw [r] at accounts
    exact .inr ⟨er, accounts.1⟩

section Runs

variable {lk : Store} {rl : Roles} {cfg : Settings} {wt : Nat}
  {total : Nameless}

theorem Means.moves {last : Configuration} (sound : Sound lk rl st0.store)
    (means : Means lk rl [] st0 wt total) (moves : Moves host k st0 last) :
    ∃ o sts r lighter, rl.Grow 0 o ∧ Sound lk o last.store ∧
      HeadSteps lk.definitions sts total r ∧ Means lk o [] last lighter r := by
  induction moves generalizing rl wt total with
  | refl => exact ⟨rl, 0, total, wt, .refl _ _, sound, .refl total, means⟩
  | step move _ ih =>
    obtain ⟨mid, sts, reduced, lighter, grow, sound, reaches, stands, _⟩ :=
      means.move sound move.stack_ne_nil move
    obtain ⟨o, more, r, lightest, further, sound, later, ends⟩ := ih sound stands
    exact ⟨o, sts + more, r, lightest, grow.trans further, sound, reaches.trans later, ends⟩

/-- If reduction ends, so does the machine: a transition that is no reduction
makes the weight fall. -/
theorem Means.halts (sound : Sound lk rl st0.store) (means : Means lk rl [] st0 wt total)
    (sts : HeadSteps lk.definitions k total fi) (ends : Final lk.definitions fi) :
    ∃ moved last, Moves host moved st0 last ∧ ∀ next, ¬ Move host last next := by
  induction k using Nat.strong_induction_on generalizing rl st0 wt total with
  | _ k fewer =>
    induction wt using Nat.strong_induction_on generalizing rl st0 total with
    | _ wt lighter =>
      by_cases halted : ∀ next, ¬ Move host st0 next
      · exact ⟨0, st0, .refl st0, halted⟩
      · push Not at halted
        obtain ⟨next, move⟩ := halted
        obtain ⟨o, taken, reduced, less, _, sound, reaches, stands, progress⟩ :=
          means.move sound move.stack_ne_nil move
        obtain ⟨atMost, rest⟩ := sts.final reaches ends
        have further : ∃ moved last,
            Moves host moved next last ∧ ∀ next, ¬ Move host last next := by grind
        obtain ⟨moved, last, moves, halted⟩ := further
        exact ⟨moved + 1, last, .step move moves, halted⟩

/-- The value that the machine comes to is a reduct of the term that it started
with. -/
theorem Means.returned (sound : Sound lk rl st0.store)
    (means : Means lk rl [] st0 wt total) (came : st0.Reaches host v s) :
    ∃ o sts r, rl.Grow 0 o ∧ Sound lk o s ∧ HeadSteps lk.definitions sts total r ∧
      Denotes lk o v r := by
  obtain ⟨k, moves⟩ := came
  obtain ⟨o, sts, r, _, grow, soundLast, reaches, stands⟩ := means.moves sound moves
  obtain ⟨least, own, t, control, waits, _⟩ := stands
  cases control with
  | value denotes =>
    cases waits
    exact ⟨o, sts, _, grow, soundLast, reaches, denotes⟩

theorem Means.failed (settled : st.engine.store.Settled) (wr : st.engine.store.Writable)
    (noFrames : ∀ a, .update a ∉ st.stack) (unb : ∀ sts, cfg.limit.exceeded sts = false)
    (sound : Sound lk rl st.engine.store) (means : Means lk rl [] st.configuration wt total)
    (ran : run cfg n taken st = (.error stop, aft)) :
    stop = .outOfFuel ∨
      (∃ x tr, stop = .raised (.evaluation (.unbound x) tr) ∧
        ∃ sts reduced, HeadSteps lk.definitions sts total reduced ∧
          reduced.head = .missing x) ∨
      (∃ lb tr, stop = .raised (.evaluation (.cyclic lb) tr)) ∧ Diverges lk.definitions total := by
  obtain ⟨k, last, moves, _, ending⟩ := run_spec cfg n taken st
  obtain ⟨o, sts, reduced, _, _, soundLast, reaches, stands⟩ := means.moves sound moves
  have underway : Underway st.engine.store last.configuration :=
    Underway.moves settled noFrames moves
  have lbs : last.engine.store.Writable :=
    moves.preserves (fun c => c.store.Writable) wr fun _ _ ely move => ely.move move
  rcases ending with ⟨_, exh⟩ | ⟨_, _, ending⟩
  · simp_all
  · rw [ran] at ending
    rcases ending.of_error with ⟨exc, _⟩ | ⟨_, er, failed, raise, sameEngine, samePending, gaveUp⟩
    · simp_all
    · have sameStore : failed.engine.store = last.engine.store := by simp_all
      have traceable := (underway.of_same sameStore samePending).marked.isTraceable
        (sameStore ▸ lbs)
      rw [State.abandon_of_traceable traceable] at gaveUp
      cases gaveUp
      rcases stands.raise soundLast underway.marked raise with ⟨x, rfl, missing⟩ |
        ⟨diverges, a, th, held, forcing, rfl⟩
      · exact .inr (.inl ⟨x, _, rfl, sts, reduced, reaches, missing⟩)
      · have writableThunk := lbs a th held (by simp [forcing])
        refine .inr (.inr ⟨⟨th.label, failed.trace, ?_⟩, .of_steps reaches diverges⟩)
        simp [Thunk.cycle, writableThunk, State.traced]

/-- A run without a bound comes to an end if reduction does. -/
theorem Means.ends (unb : ∀ sts, cfg.limit.exceeded sts = false)
    (sound : Sound lk rl st.engine.store) (means : Means lk rl [] st.configuration wt total)
    (sts : HeadSteps lk.definitions k total fi) (ends : Final lk.definitions fi) :
    ∃ n, (run cfg n 0 st).1 ≠ .error .outOfFuel := by
  obtain ⟨moved, last, moves, halted⟩ := means.halts sound sts ends
  obtain ⟨reached, rfl, _, continues⟩ := run_of_moves moves rfl (unb (0 + moved))
  refine ⟨1 + moved, ?_⟩
  rw [continues]
  rcases Configuration.halted halted with ⟨noFocus, noFrames⟩ | ⟨er, raise⟩
  · have returned : run cfg 1 (0 + moved) reached =
        (.ok reached.value, reached.engine.countStep) := run_returned (unb _) noFocus noFrames
    rw [returned]
    simp
  · obtain ⟨failed, _, _, gaveUp⟩ : ∃ failed : State,
        failed.engine = reached.engine.countStep ∧ failed.pending = reached.pending ∧
        run cfg 1 (0 + moved) reached = failed.abandon er := run_raised (unb _) raise
    obtain ⟨raised, noValue⟩ := failed.abandon_fst er
    simp_all

end Runs

section Evaluate

variable {lk : Store} {e : Engine} {cfg : Settings} {num : Nat} {t : Term}

section

variable (wlk : lk.Linked)

include wlk

variable {s : Store} {rl : Roles}

theorem Sound.evaluates (sound : Sound lk rl s) (num : Nat) (t : Term) :
    ∃ wt, Means lk rl [] ⟨some (t, .root num), Value.absent, [], s⟩ wt (lk.source (.root num) t) :=
  ⟨_, _, _, _, .term (sound.gives_root wlk num), .base, rfl⟩

theorem Sound.asks (sound : Sound lk rl s) {mn : Nameless}
    (means : rl.meaning? a = some mn) : ∃ wt, Means lk rl [] (askFor a s) wt mn := by
  have gives := gives_layer (sound.gives_root wlk 0) means ""
  refine ⟨_, _, _, _, .term gives, ?_, rfl⟩
  simpa [Term.nameless, Term.assign, askFor] using Waits.base

/-- What a source term evaluates to is a closure: variables without a value are
out of its reach. -/
theorem Denotes.isClosure (sound : Sound lk rl s) {sts : Nat} {r : Nameless}
    (reaches : HeadSteps lk.definitions sts (lk.source (.root num) t) r)
    (denotes : Denotes lk rl v r) : (∃ p b env, v.form = .closure p b env) ∧ ∃ b, r = .lam b := by
  cases denotes with
  | closure form gives => exact ⟨⟨_, _, _, form⟩, _, rfl⟩
  | @neutral x args a mns form opened given =>
    have occurs : ((Nameless.free a).apply mns).Occurs a := Nameless.occurs_apply.mpr (.inl rfl)
    have bound : a < lk.size := by
      rcases reaches.occurs wlk.selfContained occurs with src | defined
      · exact wlk.occurs_source src
      · exact wlk.definitions_isSome.mp defined
    simp [sound.declared bound] at opened

section

variable (reached : Reached lk e.store)

include reached

theorem evaluate_returned (evd : evaluate cfg n t (.root num) e = (.ok v, aft)) :
    (∃ p b env, v.form = .closure p b env) ∧
      ∃ k b, HeadSteps lk.definitions k (lk.source (.root num) t) (.lam b) := by
  obtain ⟨rl, sound⟩ := reached.sound wlk
  obtain ⟨wt, means⟩ := sound.evaluates wlk num t
  obtain ⟨o, sts, r, _, soundAfter, reaches, denotes⟩ :=
    means.returned sound (reaches_of_evaluate evd)
  obtain ⟨closure, b, rfl⟩ := denotes.isClosure wlk soundAfter reaches
  grind

section

variable (unb : ∀ sts, cfg.limit.exceeded sts = false)

include unb

theorem evaluate_failed (evd : evaluate cfg n t (.root num) e = (.error stop, aft)) :
    stop = .outOfFuel ∨
      (∃ x tr, stop = .raised (.evaluation (.unbound x) tr) ∧
        ∃ k reduced, HeadSteps lk.definitions k
          (lk.source (.root num) t) reduced ∧ reduced.head = .missing x) ∨
      (∃ lb tr, stop = .raised (.evaluation (.cyclic lb) tr)) ∧
        Diverges lk.definitions (lk.source (.root num) t) := by
  obtain ⟨rl, sound⟩ := reached.sound wlk
  obtain ⟨settled, wr⟩ := reached.settled wlk
  obtain ⟨wt, means⟩ := sound.evaluates wlk num t
  exact means.failed settled wr (by simp) unb sound evd

theorem evaluate_ends (sts : HeadSteps lk.definitions k (lk.source (.root num) t) fi)
    (ends : Final lk.definitions fi) :
    ∃ n, (evaluate cfg n t (.root num) e).1 ≠ .error .outOfFuel := by
  obtain ⟨rl, sound⟩ := reached.sound wlk
  obtain ⟨wt, means⟩ := sound.evaluates wlk num t
  exact means.ends unb sound sts ends

/-- Of the outcomes of an evaluation, the one that reduction calls for is the
one that comes. -/
theorem evaluate_complete (sts : HeadSteps lk.definitions k (lk.source (.root num) t) fi)
    (ends : Final lk.definitions fi) :
    (∃ n v aft, evaluate cfg n t (.root num) e = (.ok v, aft) ∧
        ∃ b, fi = .lam b) ∨
      ∃ n x tr aft, evaluate cfg n t (.root num) e =
        (.error (.raised (.evaluation (.unbound x) tr)), aft) ∧ fi.head = .missing x := by
  obtain ⟨n, ended⟩ := evaluate_ends wlk reached unb sts ends
  rcases evd : evaluate cfg n t (.root num) e with ⟨r, aft⟩
  rw [evd] at ended
  cases r with
  | ok v =>
    obtain ⟨_, taken, b, reaches⟩ := evaluate_returned wlk reached evd
    exact .inl ⟨n, v, aft, evd, b, sts.final_eq reaches ends (final_lam b)⟩
  | error stop =>
    rcases evaluate_failed wlk reached unb evd with
      rfl | ⟨x, tr, rfl, taken, reduced, reaches, missing⟩ | ⟨_, diverges⟩
    · exact absurd rfl ended
    · have same := sts.final_eq reaches ends (final_of_missing missing)
      grind
    · exact absurd ends (diverges.not_final sts)

end

end

end

end Evaluate

/-- The machine agrees with call-by-name reduction of a term, where the names of
modules are unfolded to their own terms: whatever was asked of the engine
before, and without a bound on the steps, a closure is returned if and only if
reduction reaches an abstraction, and a name is reported as unbound if and only
if reduction reaches a term with that name at its head.  The only other outcome
is a cycle, and it is reported only if reduction never ends. -/
theorem evaluate_adequate {ms : Modules} {s : Store}
    (pg : Program ms s) {e : Engine} (reached : Reached s e.store)
    {cfg : Settings} (unb : ∀ sts, cfg.limit.exceeded sts = false)
    (lk : Module) (t : Term) :
    ((∃ n v aft, evaluate cfg n t lk.env e = (.ok v, aft) ∧
        ∃ p b env, v.form = .closure p b env) ↔
      ∃ k b, HeadSteps s.definitions k (s.source lk.env t) (.lam b)) ∧
    (∀ x, (∃ n tr aft, evaluate cfg n t lk.env e =
        (.error (.raised (.evaluation (.unbound x) tr)), aft)) ↔
      ∃ k reduced, HeadSteps s.definitions k (s.source lk.env t)
        reduced ∧ reduced.head = .missing x) ∧
    ∀ n er aft, evaluate cfg n t lk.env e = (.error (.raised er), aft) →
      (∃ x tr, er = .evaluation (.unbound x) tr) ∨
        (∃ lb tr, er = .evaluation (.cyclic lb) tr) ∧
          Diverges s.definitions (s.source lk.env t) := by
  refine ⟨⟨?_, ?_⟩, fun x => ⟨?_, ?_⟩, ?_⟩
  · rintro ⟨n, v, aft, evd, _⟩
    exact (evaluate_returned pg.linked reached evd).2
  · rintro ⟨k, b, sts⟩
    rcases evaluate_complete pg.linked reached unb sts (final_lam b) with
      ⟨n, v, aft, evd, _⟩ | ⟨_, _, _, _, _, missing⟩
    · exact ⟨n, v, aft, evd, (evaluate_returned pg.linked reached evd).1⟩
    · cases missing
  · rintro ⟨n, tr, aft, evd⟩
    rcases evaluate_failed pg.linked reached unb evd with
      impossible | ⟨o, _, same, reduction⟩ | ⟨⟨_, _, impossible⟩, _⟩
    · cases impossible
    · cases same
      exact reduction
    · cases impossible
  · rintro ⟨k, reduced, sts, missing⟩
    rcases evaluate_complete pg.linked reached unb sts
      (final_of_missing missing) with ⟨_, _, _, _, b, rfl⟩ |
      ⟨n, o, tr, aft, evd, same⟩
    · cases missing
    · cases missing.symm.trans same
      exact ⟨n, tr, aft, evd⟩
  · intro n er aft evd
    rcases evaluate_failed pg.linked reached unb evd with
      impossible | ⟨x, tr, same, _⟩ | ⟨⟨lb, tr, same⟩, diverges⟩
    · cases impossible
    · simp_all
    · cases same
      exact .inr ⟨⟨lb, tr, rfl⟩, diverges⟩

/-- The identity applied to itself is reduced in four steps, so it has a
value. -/
theorem evaluate_adequate_identity : Program identityModules identityStore ∧
    HeadSteps identityStore.definitions 4 (identityStore.source (.root 1) (.var "Main"))
      (.lam (.bound 0)) ∧
    ∃ n v aft, evaluate ⟨countingHost, none⟩ n (.var "Main") (.root 1)
        (.fresh identityStore) = (.ok v, aft) ∧
      ∃ p b env, v.form = .closure p b env := by
  have main : identityStore.definitions 1 = some (.app (.free 0) (.free 0)) := rfl
  have identity : identityStore.definitions 0 = some (.lam (.bound 0)) := rfl
  have sts : HeadSteps identityStore.definitions 4
      (identityStore.source (.root 1) (.var "Main")) (.lam (.bound 0)) :=
    .step (.unfold main) (.step (.left (.unfold identity))
      (.step .beta (.single (.unfold identity))))
  exact ⟨program_identity, sts,
    (evaluate_adequate program_identity .start (fun _ => rfl)
      ⟨"main", some "main", 1, []⟩ (.var "Main")).1.mpr ⟨4, _, sts⟩⟩

end CallByNeed
