import CallByNeed.Proofs.Transition

/-!
# What a run is made of

A run is a row of moves and an ending.  `run_spec` takes a run apart and
`run_of_moves` puts one together.  A run that fails puts back the thunks that
have a frame on the stack, if their labels can be shown.
-/

namespace CallByNeed

/-- A row of moves, with their number. -/
inductive Moves (host : Host) : Nat → Configuration → Configuration → Prop where
  | refl (c : Configuration) : Moves host 0 c c
  | step {k : Nat} {fst next last : Configuration}
      (move : Move host fst next) (moves : Moves host k next last) :
      Moves host (k + 1) fst last

variable {host : Host} {fst next last : Configuration} {k taken : Nat}
  {cfg : Settings} {st : State} {er : Raised}

namespace Moves

theorem trans {fr bk : Nat} (moves : Moves host fr fst next) (more : Moves host bk next last) :
    Moves host (fr + bk) fst last := by
  induction moves with
  | refl => simpa using more
  | @step k _ _ _ move _ ih =>
    have joined := Moves.step move (ih more)
    grind

theorem snoc (moves : Moves host k fst next) (move : Move host next last) :
    Moves host (k + 1) fst last := moves.trans (.step move (.refl last))

/-- A row of moves to where none is possible goes through every other row. -/
theorem rest {mid : Configuration} (moves : Moves host few fst mid)
    (whole : Moves host many fst last) (halted : ∀ next, ¬ Move host last next) :
    ∃ more, many = few + more ∧ Moves host more mid last := by
  induction moves generalizing many with
  | refl => exact ⟨many, (Nat.zero_add many).symm, whole⟩
  | step move _ ih =>
    cases whole with
    | refl => exact absurd move (halted _)
    | step again bk =>
      cases move.determines again
      grind

theorem eq_of_halted (moves : Moves host k fst last) (halted : ∀ next, ¬ Move host fst next) :
    fst = last ∧ k = 0 := by
  cases moves with
  | refl => exact ⟨rfl, rfl⟩
  | step move _ => exact absurd move (halted _)

theorem preserves (moves : Moves host k fst last) (inv : Configuration → Prop) (st0 : inv fst)
    (step : ∀ bef aft, inv bef → Move host bef aft → inv aft) : inv last := by
  induction moves with
  | refl => exact st0
  | step move _ ih => exact ih (step _ _ st0 move)

end Moves

theorem Limit.exceeded_mono {lim : Limit} {few many : Nat} (le : few ≤ many)
    (within : lim.exceeded many = false) : lim.exceeded few = false := by
  cases lim with
  | none => rfl
  | some bound =>
    simp only [Limit.exceeded, ne_eq, decide_not, Bool.and_eq_false_imp,
      Bool.not_eq_eq_eq_not, Bool.not_true, decide_eq_false_iff_not, not_lt] at within ⊢
    omega

/-- A state with one more transition counted. -/
def State.counted (st : State) : State := { st with engine := st.engine.countStep }

@[simp] theorem State.configuration_counted (st : State) :
    st.counted.configuration = st.configuration := rfl

/-- How a run ends in a state, after a number of transitions. -/
inductive Concludes (cfg : Settings) (taken : Nat) (last : State) :
    Except Stop Value × Engine → Prop where
  | returned (within : cfg.limit.exceeded (taken + 1) = false)
      (noFocus : last.focus = none) (noFrames : last.stack = []) :
      Concludes cfg taken last (.ok last.value, last.engine.countStep)
  | limited (exc : cfg.limit.exceeded (taken + 1) = true) :
      Concludes cfg taken last
        (last.counted.abandon (.evaluation (.stepLimit cfg.limit.bound) []))
  | failed {er : Raised} {failed : State} (within : cfg.limit.exceeded (taken + 1) = false)
      (raise : Raise cfg.host last.configuration er)
      (sameEngine : failed.engine = last.engine.countStep)
      (samePending : failed.pending = last.pending) :
      Concludes cfg taken last (failed.abandon er)

/-- A run that is given up has no value. -/
theorem State.abandon_fst (st : State) (er : Raised) :
    ∃ raised, (st.abandon er).1 = .error (.raised raised) := by
  unfold State.abandon
  split
  · split <;> exact ⟨_, rfl⟩
  · exact ⟨_, rfl⟩

variable {v : Value} {aft : Engine} {n : Nat}

theorem Concludes.of_ok {last : State} (ending : Concludes cfg taken last (.ok v, aft)) :
    cfg.limit.exceeded (taken + 1) = false ∧ last.focus = none ∧ last.stack = [] ∧
      v = last.value ∧ aft = last.engine.countStep := by
  generalize oc : (Except.ok v, aft) = pair at ending
  cases ending with
  | returned within noFocus noFrames => simp_all
  | limited exc =>
    obtain ⟨raised, failed⟩ := last.counted.abandon_fst
      (.evaluation (.stepLimit cfg.limit.bound) [])
    grind
  | @failed er failed within raise sameEngine samePending =>
    obtain ⟨raised, gaveUp⟩ := failed.abandon_fst er
    grind

/-- A run that fails reached its bound, or gave up at a failing transition. -/
theorem Concludes.of_error {last : State} {stop : Stop}
    (ending : Concludes cfg taken last (.error stop, aft)) :
    (cfg.limit.exceeded (taken + 1) = true ∧ (.error stop, aft) =
        last.counted.abandon (.evaluation (.stepLimit cfg.limit.bound) [])) ∨
      (cfg.limit.exceeded (taken + 1) = false ∧ ∃ (er : Raised) (failed : State),
        Raise cfg.host last.configuration er ∧
        failed.engine = last.engine.countStep ∧ failed.pending = last.pending ∧
        (.error stop, aft) = failed.abandon er) := by
  generalize oc : (Except.error stop, aft) = pair at ending
  cases ending with
  | returned => cases oc
  | limited exc => exact .inl ⟨exc, rfl⟩
  | failed within raise sameEngine samePending => grind

theorem run_exceeded (exc : cfg.limit.exceeded (taken + 1) = true) (n : Nat) (st : State) :
    run cfg (n + 1) taken st =
      st.counted.abandon (.evaluation (.stepLimit cfg.limit.bound) []) := by
  simp [run, exc, State.counted]

section

variable (within : cfg.limit.exceeded (taken + 1) = false)

include within

theorem run_moved {next : State} (stepped : st.counted.step cfg.host = .moved next) (n : Nat) :
    run cfg (n + 1) taken st = run cfg n (taken + 1) next := by
  grind [State.counted, run]

theorem run_stopped {failed : State} (stepped : st.counted.step cfg.host = .raised er failed)
    (n : Nat) : run cfg (n + 1) taken st = failed.abandon er := by grind [State.counted, run]

theorem run_answered {v : Value} (stepped : st.counted.step cfg.host = .returned v e)
    (n : Nat) : run cfg (n + 1) taken st = (.ok v, e) := by grind [State.counted, run]

end

/-- The states between the transitions of a run, its first and last one
included. -/
def trail (cfg : Settings) : (n taken : Nat) → State → List State
  | 0, _, st => [st]
  | n + 1, taken, st =>
    if cfg.limit.exceeded (taken + 1) then [st]
    else
      match st.counted.step cfg.host with
      | .moved next => st :: trail cfg n (taken + 1) next
      | _ => [st]

/-- The states that transitions leave one after the other, and the one that they lead to. -/
inductive Course (host : Host) (st0 : State) : List State → State → Prop where
  | refl : Course host st0 [] st0
  | snoc {l : List State} {st next : State} (course : Course host st0 l st)
      (stepped : st.counted.step host = .moved next) : Course host st0 (l ++ [st]) next

theorem Course.cons {st0 snd last : State} {l : List State}
    (stepped : st0.counted.step host = .moved snd) (course : Course host snd l last) :
    Course host st0 (st0 :: l) last := by
  induction course with
  | refl => exact .snoc .refl stepped
  | snoc _ later ih => exact .snoc ih later

theorem Course.moves {st0 last : State} {l : List State} (course : Course host st0 l last) :
    Moves host l.length st0.configuration last.configuration ∧
      last.engine.tally.steps = st0.engine.tally.steps + l.length := by
  induction course with
  | refl => exact ⟨.refl _, rfl⟩
  | @snoc l st next _ stepped ih =>
    have accounts := State.step_spec host st.counted
    rw [stepped] at accounts
    rw [List.length_append, List.length_singleton]
    refine ⟨ih.1.snoc accounts.1, ?_⟩
    rw [accounts.2]
    exact congrArg (· + 1) ih.2

/-- How a run ends in a state that no transition leaves. -/
inductive Ends (cfg : Settings) (taken : Nat) (last : State) :
    Except Stop Value × Engine → Prop where
  | limited (exc : cfg.limit.exceeded (taken + 1) = true) :
      Ends cfg taken last (last.counted.abandon (.evaluation (.stepLimit cfg.limit.bound) []))
  | answered {v : Value} {e : Engine} (within : cfg.limit.exceeded (taken + 1) = false)
      (stepped : last.counted.step cfg.host = .returned v e) :
      Ends cfg taken last (.ok v, e)
  | stopped {er : Raised} {failed : State} (within : cfg.limit.exceeded (taken + 1) = false)
      (stepped : last.counted.step cfg.host = .raised er failed) :
      Ends cfg taken last (failed.abandon er)

theorem Ends.concludes {last : State} {oc : Except Stop Value × Engine}
    (ending : Ends cfg taken last oc) : Concludes cfg taken last oc := by
  have accounts := State.step_spec cfg.host last.counted
  cases ending with
  | limited exc => exact .limited exc
  | answered within stepped =>
    rw [stepped] at accounts
    obtain ⟨noFocus, noFrames, rfl, rfl⟩ := accounts
    exact .returned within noFocus noFrames
  | stopped within stepped =>
    rw [stepped] at accounts
    exact .failed within accounts.1 accounts.2.1 accounts.2.2

/-- A run goes through states, and uses up its fuel or comes to an ending. -/
theorem run_course (cfg : Settings) (n taken : Nat) (st : State) :
    ∃ l last, Course cfg.host st l last ∧
      trail cfg n taken st = l ++ [last] ∧
      (∀ ely < l.length, cfg.limit.exceeded (taken + ely + 1) = false) ∧
      ((l.length = n ∧ run cfg n taken st = (.error .outOfFuel, last.engine)) ∨
        (l.length < n ∧ Ends cfg (taken + l.length) last (run cfg n taken st))) := by
  induction n generalizing taken st with
  | zero => exact ⟨[], st, .refl, rfl, by simp, .inl ⟨rfl, rfl⟩⟩
  | succ n ih =>
    cases exc : cfg.limit.exceeded (taken + 1) with
    | true =>
      refine ⟨[], st, .refl, by simp [trail, exc], by simp, .inr ⟨Nat.succ_pos n, ?_⟩⟩
      rw [run_exceeded exc]
      exact .limited exc
    | false =>
      cases stepped : st.counted.step cfg.host with
      | moved next =>
        obtain ⟨l, last, course, passes, within, ending⟩ := ih (taken + 1) next
        refine ⟨st :: l, last, .cons stepped course,
          by simp [trail, exc, stepped, passes], fun ely less => ?_, ?_⟩
        · cases ely with
          | zero => exact exc
          | succ ely => grind
        · rw [run_moved exc stepped, List.length_cons,
            show taken + (l.length + 1) = taken + 1 + l.length by omega]
          simp_all
      | returned v e =>
        refine ⟨[], st, .refl, by simp [trail, exc, stepped], by simp, .inr ⟨Nat.succ_pos n, ?_⟩⟩
        rw [run_answered exc stepped]
        exact .answered exc stepped
      | raised er failed =>
        refine ⟨[], st, .refl, by simp [trail, exc, stepped], by simp, .inr ⟨Nat.succ_pos n, ?_⟩⟩
        rw [run_stopped exc stepped]
        exact .stopped exc stepped

/-- A run uses up its fuel on moves, or comes to an ending. -/
theorem run_spec (cfg : Settings) (n taken : Nat) (st : State) :
    ∃ k last, Moves cfg.host k st.configuration last.configuration ∧
      last.engine.tally.steps = st.engine.tally.steps + k ∧
      ((k = n ∧ run cfg n taken st = (.error .outOfFuel, last.engine)) ∨
        (k < n ∧ (∀ ely < k, cfg.limit.exceeded (taken + ely + 1) = false) ∧
          Concludes cfg (taken + k) last (run cfg n taken st))) := by
  obtain ⟨l, last, course, _, within, ending⟩ := run_course cfg n taken st
  refine ⟨l.length, last, course.moves.1, course.moves.2, ?_⟩
  rcases ending with exh | ⟨enough, ending⟩
  · exact .inl exh
  · exact .inr ⟨enough, within, ending.concludes⟩

theorem run_of_moves (moves : Moves cfg.host k fst next) (starts : st.configuration = fst)
    (within : cfg.limit.exceeded (taken + k) = false) :
    ∃ last : State, last.configuration = next ∧
      last.engine.tally.steps = st.engine.tally.steps + k ∧
      ∀ n, run cfg (n + k) taken st = run cfg n (taken + k) last := by
  induction moves generalizing taken st with
  | refl => exact ⟨st, starts, rfl, fun _ => rfl⟩
  | @step k _ _ _ move _ ih =>
    have bound : cfg.limit.exceeded (taken + 1) = false := Limit.exceeded_mono (by omega) within
    have later : cfg.limit.exceeded (taken + 1 + k) = false := Limit.exceeded_mono (by omega) within
    rw [← starts, ← st.configuration_counted] at move
    obtain ⟨moved, r, reached, sts⟩ := State.step_of_move move
    obtain ⟨last, ends, counted, continues⟩ := ih reached later
    refine ⟨last, ends, ?_, ?_⟩
    · rw [counted, sts]
      simp [State.counted]
      omega
    · intro n
      rw [show n + (k + 1) = n + k + 1 by omega, run_moved bound r, continues,
        show taken + 1 + k = taken + (k + 1) by omega]

theorem run_returned (within : cfg.limit.exceeded (taken + 1) = false) (noFocus : st.focus = none)
    (noFrames : st.stack = []) :
    run cfg (n + 1) taken st = (.ok st.value, st.engine.countStep) := by
  simp [run, within, State.step, noFocus, noFrames]

theorem run_of_moves_returned (st : State)
    (moves : Moves cfg.host k st.configuration ⟨none, v, [], s⟩)
    (within : cfg.limit.exceeded (k + 1) = false) (enough : k < n) :
    ∃ aft, run cfg n 0 st = (.ok v, aft) ∧ aft.store = s ∧
      aft.tally.steps = st.engine.tally.steps + (k + 1) := by
  obtain ⟨last, ends, sts, continues⟩ := run_of_moves moves rfl
    (show cfg.limit.exceeded (0 + k) = false from Limit.exceeded_mono (by omega) within)
  obtain ⟨focus, found, stk, e⟩ := last
  cases ends
  obtain ⟨more, rfl⟩ := Nat.exists_eq_add_of_lt enough
  refine ⟨e.countStep, ?_, rfl, ?_⟩
  · rw [show k + more + 1 = more + 1 + k by omega, continues,
      run_returned (by rwa [Nat.zero_add]) rfl rfl]
  · rw [← Nat.add_assoc, ← sts]
    rfl

/-- From a configuration the machine comes to a value, and to a store. -/
def Configuration.Reaches (host : Host) (c : Configuration) (v : Value) (s : Store) : Prop :=
  ∃ k, Moves host k c ⟨none, v, [], s⟩

theorem reaches_of_run (ran : run cfg n taken st = (.ok v, aft)) :
    st.configuration.Reaches cfg.host v aft.store := by
  obtain ⟨k, last, moves, _, ending⟩ := run_spec cfg n taken st
  rw [ran] at ending
  rcases ending with ⟨_, exh⟩ | ⟨_, _, ending⟩
  · cases exh
  · obtain ⟨_, noFocus, noFrames, rfl, rfl⟩ := ending.of_ok
    refine ⟨k, ?_⟩
    simpa [State.configuration, noFocus, noFrames] using moves

theorem run_raised (within : cfg.limit.exceeded (taken + 1) = false)
    (raise : Raise cfg.host st.configuration er) :
    ∃ failed : State, failed.engine = st.engine.countStep ∧
      failed.pending = st.pending ∧ run cfg (n + 1) taken st = failed.abandon er := by
  rw [← st.configuration_counted] at raise
  obtain ⟨failed, r, sameEngine, samePending⟩ := State.step_of_raise raise
  exact ⟨failed, sameEngine, samePending, run_stopped within r n⟩

namespace State

theorem mem_pending : a ∈ st.pending ↔ .update a ∈ st.stack := by
  simp only [pending, List.mem_reverse, List.mem_filterMap]
  constructor
  · rintro ⟨fr, mem, updated⟩
    cases fr with
    | update o =>
      cases updated
      exact mem
    | argument th => cases updated
    | call prim => cases updated
  · intro mem
    exact ⟨_, mem, rfl⟩

private theorem resetAll_store (ads : List Address) (e : Engine) :
    (ads.foldl (fun e a => e.update a Thunk.reset) e).store.tables = e.store.tables ∧
    ∀ a, (ads.foldl (fun e a => e.update a Thunk.reset) e).store.thunk? a =
      if a ∈ ads then (e.store.thunk? a).map Thunk.reset
      else e.store.thunk? a := by
  induction ads generalizing e with
  | nil => simp
  | cons fst rest ih =>
    obtain ⟨tbs, ths⟩ := ih (e.update fst Thunk.reset)
    refine ⟨tbs, fun a => ?_⟩
    rw [List.foldl_cons, ths]
    have twice : Thunk.reset ∘ Thunk.reset = Thunk.reset := by
      funext th
      simp only [Function.comp_apply]
      rw [Thunk.reset, if_neg th.phase_reset]
    by_cases same : fst = a
    · simp_all [Engine.update]
    · have o : a ≠ fst := fun equal => same equal.symm
      simp [Engine.update, same, o]

/-- Giving up a run puts back the thunks that have a frame on the stack. -/
theorem unwind_thunk? (st : State) (a : Address) : st.unwind.store.thunk? a =
      if a ∈ st.pending then
        (st.engine.store.thunk? a).map Thunk.reset
      else st.engine.store.thunk? a :=
  (resetAll_store st.pending st.engine).2 a

theorem unwind_tables (st : State) : st.unwind.store.tables = st.engine.store.tables :=
  (resetAll_store st.pending st.engine).1

@[simp] theorem unwind_tally (st : State) : st.unwind.tally = st.engine.tally := by
  unfold unwind
  generalize st.pending = ads
  generalize st.engine = e
  induction ads generalizing e with
  | nil => rfl
  | cons a ads ih =>
    rw [List.foldl_cons, ih]
    rfl

/-- What becomes of a state that is given up depends on its engine and on the
thunks that it waits to update. -/
theorem abandon_congr {o : State} (e : o.engine = st.engine) (pending : o.pending = st.pending)
    (er : Raised) : o.abandon er = st.abandon er := by
  unfold abandon isTraceable trace unwind
  rw [e, pending]

/-- An error with the trace that a run gives to it. -/
def traced (st : State) : Raised → Raised
  | .evaluation cause [] => .evaluation cause st.trace
  | er => er

theorem abandon_of_traceable (traceable : st.isTraceable) (er : Raised) :
    st.abandon er = (.error (.raised (st.traced er)), st.unwind) := by
  unfold abandon traced
  split <;> simp_all

theorem traced_evaluation (st : State) (cause : EvalError) (tr : List String) :
    ∃ longer, st.traced (.evaluation cause tr) = .evaluation cause longer := by
  cases tr with
  | nil => exact ⟨st.trace, rfl⟩
  | cons lb tr => exact ⟨lb :: tr, rfl⟩

theorem isTraceable_of_pending
    (wr : ∀ a ∈ st.pending, ∀ th, st.engine.store.thunk? a = some th → th.isWritable) :
    st.isTraceable := by
  grind [isTraceable, Option.all_eq_true]

/-- A run that is given up puts its thunks back, unless it cannot name them. -/
theorem abandon_engine (st : State) (er : Raised) :
    (st.abandon er).2 = st.unwind ∨ (st.abandon er).2 = st.engine := by
  unfold abandon
  grind

/-- A run that is given up fails with its own error, which may get a trace. -/
theorem abandon_evaluation {aft : Engine}
    (abd : st.abandon er = (.error (.raised (.evaluation cause tr)), aft)) :
    aft = st.unwind ∧ (er = .evaluation cause [] ∧ tr = st.trace ∨
      er = .evaluation cause tr ∧ tr ≠ []) := by
  unfold abandon at abd
  grind

theorem abandon_tally (st : State) (er : Raised) : (st.abandon er).2.tally = st.engine.tally := by
  rcases st.abandon_engine er with unwound | l
  · simp_all
  · rw [l]

end State

/-- The same error, for all that a program can tell: the thunks that were being
evaluated may be others, and so may the one that is found to need its own value. -/
inductive Raised.Alike : Raised → Raised → Prop where
  | evaluation (cause : EvalError) (tr o : List String) :
      Alike (.evaluation cause tr) (.evaluation cause o)
  | cyclic (lb otherLabel : String) (tr o : List String) :
      Alike (.evaluation (.cyclic lb) tr) (.evaluation (.cyclic otherLabel) o)
  | same (er : Raised) : Alike er er

/-- Errors stay alike with the traces that runs give to them. -/
theorem Raised.Alike.traced {o : Raised} (alike : er.Alike o) (l r : State) :
    (l.traced er).Alike (r.traced o) := by
  cases alike with
  | evaluation cause tr longer =>
    obtain ⟨fst, same⟩ := l.traced_evaluation cause tr
    obtain ⟨snd, also⟩ := r.traced_evaluation cause longer
    rw [same, also]
    exact .evaluation cause fst snd
  | cyclic lb across tr longer =>
    obtain ⟨fst, same⟩ := l.traced_evaluation (.cyclic lb) tr
    obtain ⟨snd, also⟩ := r.traced_evaluation (.cyclic across) longer
    rw [same, also]
    exact .cyclic lb across fst snd
  | same =>
    cases er with
    | evaluation cause tr =>
      obtain ⟨fst, same⟩ := l.traced_evaluation cause tr
      obtain ⟨snd, also⟩ := r.traced_evaluation cause tr
      rw [same, also]
      exact .evaluation cause fst snd
    | _ => exact .same _

/-- The thunk at an address keeps what it holds, and stays forced or without a
value. -/
def Store.Steady (bef aft : Store) (a : Address) : Prop :=
  ∀ {th}, bef.thunk? a = some th → ∃ later,
    aft.thunk? a = some later ∧ later.content = th.content ∧
      (later.phase = .forced ↔ th.phase = .forced)

theorem Store.steady_begin {s : Store} {begun : Address} {th : Thunk}
    (held : s.thunk? begun = some th) (unforced : th.phase = .unforced) (a : Address) :
    s.Steady (s.update begun Thunk.begin) a := by
  intro o there
  by_cases same : begun = a
  · simp_all
  simp_all

theorem State.steady_unwind (st : State) (a : Address) :
    st.engine.store.Steady st.unwind.store a := by
  intro th held
  rw [State.unwind_thunk?]
  split
  · simp_all [Thunk.phase_reset_eq_forced]
  simp_all

end CallByNeed
