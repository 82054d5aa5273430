import CallByNeed.Proofs.CutShort

/-!
# How far a reading goes past its bound

Reading a value back counts its tasks and the transitions of its runs against one
bound, but it looks at the count only where a task starts, while each run has the whole
bound for itself.  A task that forces a thunk and opens its value makes two runs, so that
a reading that is given up has gone past its bound by twice the bound at most.

A reading that ends has not gone past it, since no run is the last thing that it does: a
thunk is read back for a term that is put together afterwards.
-/

namespace CallByNeed

/-- The host does not pretend that the bound on steps was reached. -/
def Host.Unlimited (host : Host) : Prop :=
  ∀ x v lim tr, host x v ≠ .error (.evaluation (.stepLimit lim) tr)

/-- A limit that is exceeded after so many steps. -/
def Limit.Stops (lim : Int) (bound : Nat) : Prop :=
  ∀ {sts : Nat}, 1 ≤ sts → (Limit.exceeded (some lim) sts = true ↔ bound < sts)

theorem Limit.stops {lim : Int} (nonzero : lim ≠ 0) : Limit.Stops lim lim.toNat := by
  intro sts some
  simp only [Limit.exceeded, ne_eq, Bool.and_eq_true, decide_eq_true_eq]
  omega

/-- A part of a reading comes to an end, after no more than so many steps and one, or without
the one if it gives something. -/
structure Bounded {α : Type} (lim : Int) (bound most : Nat) (e : Engine)
    (r : Except Stop α) (aft : Engine) : Prop where
  ended : r ≠ .error .outOfFuel
  later : e.tally.steps ≤ aft.tally.steps
  least : aft.tally.steps ≤ e.tally.steps + most + 1
  within : ∀ v, r = .ok v → aft.tally.steps ≤ e.tally.steps + most
  limited : ∀ o tr, r = .error (.raised (.evaluation (.stepLimit o) tr)) →
    o = lim ∧ e.tally.steps + bound < aft.tally.steps

section Parts

variable {α β : Type} {host : Host} {lim : Int} {bound most n : Nat}
  {e mid aft : Engine}

namespace Bounded

variable {r : Except Stop α}

theorem still (sts : aft.tally.steps = e.tally.steps) (ended : r ≠ .error .outOfFuel)
    (os : ∀ o tr, r ≠ .error (.raised (.evaluation (.stepLimit o) tr))) :
    Bounded lim bound most e r aft :=
  ⟨ended, by omega, by omega, fun _ _ => by omega, fun o tr failed => absurd failed (os o tr)⟩

theorem more (bds : Bounded lim bound few e r aft) (le : few ≤ most) :
    Bounded lim bound most e r aft :=
  ⟨bds.ended, bds.later, bds.least.trans (by omega),
    fun v returned => (bds.within v returned).trans (by omega), bds.limited⟩

theorem of_steps {st0 : Engine} (bds : Bounded lim bound most st0 r aft)
    (same : st0.tally.steps = e.tally.steps) : Bounded lim bound most e r aft := by
  obtain ⟨ended, later, least, within, limited⟩ := bds
  rw [same] at later least within limited
  exact ⟨ended, later, least, within, limited⟩

theorem error {stop : Stop} (bds : Bounded lim bound most e (.error stop : Except Stop α) aft) :
    Bounded lim bound most e (.error stop : Except Stop β) aft :=
  ⟨by simpa using bds.ended, bds.later, bds.least, by simp,
    fun o tr failed => bds.limited o tr (by simpa using failed)⟩

theorem bind {ac : Eval α} {next : α → Eval β} {more : Nat} {r : Except Stop β}
    (fst : ∀ {r mid}, ac e = (r, mid) → Bounded lim bound most e r mid)
    (rest : ∀ {v mid r aft}, ac e = (.ok v, mid) →
      next v mid = (r, aft) → Bounded lim bound more mid r aft)
    (perf : (ac >>= next) e = (r, aft)) : Bounded lim bound (most + more) e r aft := by
  rcases Action.bind_cases perf with ⟨stop, rfl, stopped⟩ | ⟨v, mid, began, late⟩
  · exact (fst stopped).error.more (Nat.le_add_right most more)
  · have within := (fst began).within v rfl
    have later := (fst began).later
    have last := rest began late
    have least := last.least
    refine ⟨last.ended, later.trans last.later, by omega, fun v returned => ?_,
      fun o tr failed => ?_⟩
    · have := last.within v returned
      omega
    · obtain ⟨same, past⟩ := last.limited o tr failed
      omega

end Bounded

theorem Raise.cause_ne_stepLimit {o : Int}
    (raise : Raise host c er) (unlimited : Host.Unlimited host) :
    er ≠ .evaluation (.stepLimit o) tr := by
  rintro same
  cases raise with
  | host failed => exact unlimited _ _ _ _ (failed.trans (by rw [same]))
  | cyclic | cyclicArgument => grind [Thunk.cycle]
  | refused => grind [Value.refusal]
  | unbound | dangling | unsupplied => cases same

theorem run_bounds (unlimited : Host.Unlimited host) (stops : Limit.Stops lim bound)
    {r : Except Stop Value} (enough : bound < n ∨ r ≠ .error .outOfFuel)
    (ran : run ⟨host, some lim⟩ n 0 st = (r, aft)) : Bounded lim bound bound st.engine r aft := by
  obtain ⟨l, last, course, _, within, ending⟩ := run_course ⟨host, some lim⟩ n 0 st
  have few : l.length ≤ bound := by
    by_contra more
    have allowed := within bound (by omega)
    rw [Nat.zero_add, (stops (Nat.succ_pos bound)).mpr (Nat.lt_succ_self bound)] at allowed
    cases allowed
  have taken := course.moves.2
  rw [ran] at ending
  rcases ending with ⟨us, exh⟩ | ⟨_, ending⟩
  · grind
  · have sts := (ending.run 0).2
    simp only at sts
    have exceeds := stops (Nat.succ_pos (0 + l.length))
    refine ⟨ending.ended, by omega, by omega, ?_, ?_⟩
    · rintro v rfl
      have allowed := (Concludes.of_ok ending.concludes).1
      simp_all
    · rintro o tr rfl
      rcases Concludes.of_error ending.concludes with ⟨exc, abd⟩ | ⟨_, er, failed, raise, _, _, abd⟩
      · rw [exceeds] at exc
        obtain ⟨_, ⟨same, _⟩ | ⟨same, _⟩⟩ := State.abandon_evaluation abd.symm
        · cases same
          exact ⟨rfl, by omega⟩
        simp_all
      · obtain ⟨_, ⟨same, _⟩ | ⟨same, _⟩⟩ := State.abandon_evaluation abd.symm
        · exact absurd same (raise.cause_ne_stepLimit unlimited)
        · exact absurd same (raise.cause_ne_stepLimit unlimited)

theorem force_bounds (unlimited : Host.Unlimited host) (stops : Limit.Stops lim bound)
    (enough : bound < n) {th : Option Address} {r : Except Stop Value}
    (forced : force ⟨host, some lim⟩ n th e = (r, aft)) : Bounded lim bound bound e r aft := by
  rcases force_cases th e with ⟨a, held, _, _, _, runs⟩ | ⟨_, _, _, _, sts, ended, cycle, answers⟩
  · rw [(runs _ n).1] at forced
    exact (run_bounds unlimited stops (.inl enough) forced).of_steps (by simp [entered])
  · cases (answers _ n).1.symm.trans forced
    refine .still sts ended fun o tr failed => ?_
    simp_all

theorem number_bounds (unlimited : Host.Unlimited host) (stops : Limit.Stops lim bound)
    {r : Except Stop (Option Datum)} (enough : bound < n ∨ r ≠ .error .outOfFuel)
    (numbered : number ⟨host, some lim⟩ n v e = (r, aft)) :
    r ≠ .error .outOfFuel ∧ aft.tally.steps ≤ e.tally.steps + bound + 1 := by
  rcases number_cases _ n numbered with
    ⟨_, counted, rfl⟩ | ⟨_, _, counted, rfl⟩ | ⟨stop, counted, rfl, _⟩
  · rw [count_eq] at counted
    exact ⟨by simp, (run_bounds unlimited stops (.inr (by simp)) counted).least⟩
  · rw [count_eq] at counted
    exact ⟨by simp, (run_bounds unlimited stops (.inr (by simp)) counted).least⟩
  · rw [count_eq] at counted
    have bds := run_bounds unlimited stops (enough.imp_right (by simp)) counted
    exact ⟨by simpa using bds.ended, bds.least⟩

/-- A task that reads a thunk back. -/
def Task.isThunk : Task → Bool
  | .quoteThunk _ _ => true
  | _ => false

/-- The last task does not read a thunk back. -/
def Closed (tks : List Task) : Prop := ∀ tk ∈ tks.getLast?, tk.isThunk = false

theorem Closed.append {added : List Task} (fst : Closed added) (last : Closed tks) :
    Closed (added ++ tks) := by
  intro tk mem
  rw [List.getLast?_append] at mem
  cases fi : tks.getLast? with
  | none =>
    rw [fi, Option.none_or] at mem
    exact fst tk mem
  | some o =>
    rw [fi, Option.some_or] at mem
    exact last tk (fi ▸ mem)

variable {ts : List Term} {r : Except Stop (List Task × List Term)}

theorem Task.Finishes.bounds {cfg : Settings} {tk : Task} {oc : Except Stop (List Task × List Term)}
    (finishes : tk.Finishes cfg n ts oc) (perf : tk.perform cfg n ts e = (r, aft)) :
    Bounded lim bound most e r aft ∧ ∀ added built, r = .ok (added, built) →
      Closed added ∧ (added = [] → aft.tally.steps = e.tally.steps) := by
  obtain ⟨⟨same, os⟩, ended, none⟩ := finishes
  cases (same e).symm.trans perf
  refine ⟨.still rfl ended fun o tr => os _ tr, fun added built done => ?_⟩
  grind [Closed]

/-- What reading a value back leads to ends with a task that builds a term, and a value
that leads to none is read back without a run. -/
theorem quote_bounds (unlimited : Host.Unlimited host) (stops : Limit.Stops lim bound)
    (enough : bound < n) {v : Value} {us : List Name}
    (perf : (Task.quote v us).perform ⟨host, some lim⟩ n ts e = (r, aft)) :
    Bounded lim bound bound e r aft ∧ ∀ added built, r = .ok (added, built) →
      Closed added ∧ (added = [] → aft.tally.steps = e.tally.steps) := by
  cases form : v.form with
  | closure p b env =>
    rcases opened : openClosure ⟨host, some lim⟩ n p b env (freshName p us) e with ⟨oc, mid⟩
    have bds : Bounded lim bound bound e oc mid :=
      (run_bounds unlimited stops (.inl enough) opened).of_steps rfl
    cases oc with
    | ok inn =>
      rw [perform_closure_ok _ n form opened] at perf
      cases perf
      refine ⟨⟨by simp, bds.later, bds.least, fun _ _ => bds.within inn rfl, by simp⟩, ?_⟩
      simp [Closed, Task.isThunk]
    | error stop =>
      rw [perform_closure_error _ n form opened] at perf
      cases perf
      exact ⟨bds.error, by simp⟩
  | neutral x args =>
    rw [perform_neutral _ n form] at perf
    cases perf
    refine ⟨.still rfl (by simp) (by simp), ?_⟩
    simp [Closed, Task.isThunk]
  | _ =>
    obtain ⟨oc, finishes⟩ := perform_host ⟨host, some lim⟩ n v
      (by simp [form]) (by simp [form]) us ts
    exact finishes.bounds perf

theorem perform_bounds (unlimited : Host.Unlimited host) (stops : Limit.Stops lim bound)
    (enough : bound < n) {tk : Task} (perf : tk.perform ⟨host, some lim⟩ n ts e = (r, aft)) :
    Bounded lim bound (bound + bound) e r aft ∧ ∀ added built, r = .ok (added, built) →
      Closed added ∧ (added = [] → tk.isThunk = false → aft.tally.steps = e.tally.steps) := by
  cases tk with
  | quote v us =>
    obtain ⟨bds, closed⟩ := quote_bounds unlimited stops enough perf
    exact ⟨bds.more (Nat.le_add_left bound bound), fun added built same =>
      ⟨(closed added built same).1, fun none _ => (closed added built same).2 none⟩⟩
  | quoteThunk th us =>
    have performs : (Task.quoteThunk th us).perform ⟨host, some lim⟩ n ts =
        force ⟨host, some lim⟩ n th >>=
          fun v => (Task.quote v us).perform ⟨host, some lim⟩ n ts := rfl
    rw [performs] at perf
    refine ⟨Bounded.bind (fun forced => force_bounds unlimited stops enough forced)
      (fun _ late => (quote_bounds unlimited stops enough late).1) perf, ?_⟩
    rintro added built rfl
    obtain ⟨v, mid, _, late⟩ := Action.of_bind_ok perf
    have closed := (quote_bounds unlimited stops enough late).2 added built rfl
    exact ⟨closed.1, fun _ th => by cases th⟩
  | bind x =>
    obtain ⟨oc, finishes⟩ := perform_bind ⟨host, some lim⟩ n x ts
    obtain ⟨bds, closed⟩ := finishes.bounds perf
    exact ⟨bds, fun added built same => ⟨(closed added built same).1,
      fun none _ => (closed added built same).2 none⟩⟩
  | combine x k =>
    obtain ⟨oc, finishes⟩ := perform_combine ⟨host, some lim⟩ n x k ts
    obtain ⟨bds, closed⟩ := finishes.bounds perf
    exact ⟨bds, fun added built same => ⟨(closed added built same).1,
      fun none _ => (closed added built same).2 none⟩⟩

/-- A reading looks at its count before each task, and the last task makes no run. -/
theorem performAll_bounds (unlimited : Host.Unlimited host) (stops : Limit.Stops lim bound)
    {st0 : Nat} {tks : List Task} {r : Except Stop Term} (closed : Closed tks)
    (most : e.tally.steps ≤ st0 + 3 * bound) (finished : tks = [] → e.tally.steps ≤ st0 + bound)
    (began : st0 ≤ e.tally.steps) (enough : bound + 2 + (st0 + bound - e.tally.steps) ≤ n)
    (perf : performAll ⟨host, some lim⟩ st0 n tks ts e = (r, aft)) :
    r ≠ .error .outOfFuel ∧ (∀ t, r = .ok t → aft.tally.steps ≤ st0 + bound) ∧
      ∀ o tr, r = .error (.raised (.evaluation (.stepLimit o) tr)) →
        o = lim ∧ st0 + bound < aft.tally.steps ∧ aft.tally.steps ≤ st0 + (3 * bound + 1) := by
  induction n generalizing tks ts e with
  | zero => omega
  | succ n ih =>
    cases tks with
    | nil =>
      have least := finished rfl
      cases ts with
      | nil =>
        cases perf
        simp
      | cons t ts =>
        cases perf
        simp_all
    | cons tk tks =>
      have exceeds := stops (show 1 ≤ e.tally.steps + 1 - st0 by omega)
      cases exc : (Settings.mk host (some lim)).limit.exceeded (e.tally.steps + 1 - st0) with
      | true =>
        rw [performAll_exceeded _ n exc] at perf
        rw [exceeds] at exc
        cases perf
        refine ⟨by simp, by simp, fun o tr failed => ?_⟩
        cases failed
        rw [Engine.steps_countStep]
        exact ⟨rfl, by omega, by omega⟩
      | false =>
        have allowed := exc
        rw [← Bool.not_eq_true, exceeds] at allowed
        rcases done : tk.perform ⟨host, some lim⟩ n ts e.countStep with ⟨oc, mid⟩
        obtain ⟨bds, leads⟩ := perform_bounds unlimited stops (by omega) done
        have counted := Engine.steps_countStep e
        have later := bds.later
        cases oc with
        | error stop =>
          rw [performAll_error _ n exc done] at perf
          cases perf
          refine ⟨by simpa using bds.ended, by simp, fun o tr failed => ?_⟩
          cases failed
          obtain ⟨same, past⟩ := bds.limited o tr rfl
          have := bds.least
          omega
        | ok parts =>
          obtain ⟨added, built⟩ := parts
          rw [performAll_ok _ n exc done] at perf
          have grown := bds.within _ rfl
          obtain ⟨closedAdded, unmoved⟩ := leads added built rfl
          refine ih (closedAdded.append fun o mem => ?_) (by omega) ?_ (by omega) (by omega) perf
          · refine closed o ?_
            rw [List.getLast?_cons]
            cases fi : tks.getLast? <;> simp_all
          · intro none
            obtain ⟨rfl, rfl⟩ := List.append_eq_nil_iff.mp none
            have same := unmoved rfl (closed tk (by simp))
            omega

end Parts

/-- Reading a value back under a bound comes to an end.  If it gives a term, it has taken no
more steps than the bound, those of its runs included.  If the bound is reached, it has taken
more of them, and less than three times as many and two. -/
theorem normalize_within_limit {host : Host} (unlimited : Host.Unlimited host) {bound : Nat}
    (positive : 1 ≤ bound) (v : Value) (e : Engine) {n : Nat}
    (enough : 2 * bound + 2 ≤ n) :
    ∃ r aft, normalize ⟨host, some bound⟩ n v e = (r, aft) ∧
      r ≠ .error .outOfFuel ∧
      (∀ t, r = .ok t → aft.tally.steps ≤ e.tally.steps + bound) ∧
      ∀ lim tr, r = .error (.raised (.evaluation (.stepLimit lim) tr)) →
        lim = bound ∧ e.tally.steps + bound < aft.tally.steps ∧
          aft.tally.steps ≤ e.tally.steps + (3 * bound + 1) := by
  refine ⟨_, _, rfl, ?_⟩
  have stops : Limit.Stops bound bound := Limit.stops (by omega)
  exact performAll_bounds unlimited stops (by simp [Closed, Task.isThunk]) (by omega) (by simp)
    (le_refl _) (by omega) rfl

/-- A thunk with a value, and one for an abstraction whose body has none. -/
def overrunning : Engine :=
  .fresh ⟨#[.evaluated (.given (.primitive successorName)) none,
    .suspended (.lam "y" (.app (.lam "x" (.app (.var "x") (.var "x")))
      (.lam "x" (.app (.var "x") (.var "x"))))) (.root 0) none], #[[]], 0⟩

/-- A reading can take three times as many steps as its bound, and one. -/
theorem normalize_past_twice_limit :
    ∃ aft, normalize ⟨countingHost, some 3⟩ 8 (.given (.neutral "x" [some 0, some 1]))
        overrunning = (.error (.raised (.evaluation (.stepLimit 3) [])), aft) ∧
      ¬ aft.tally.steps ≤ overrunning.tally.steps + (2 * 3 + 1) :=
  ⟨_, rfl, by decide⟩

theorem unlimited_countingHost : Host.Unlimited countingHost := by
  intro x v lim tr failed
  grind [countingHost]

theorem normalize_within_limit_at_three : Host.Unlimited countingHost ∧
    ∃ aft, normalize ⟨countingHost, some 3⟩ 8 (.given (.neutral "x" [some 0, some 1]))
        overrunning = (.error (.raised (.evaluation (.stepLimit 3) [])), aft) ∧
      overrunning.tally.steps + 3 < aft.tally.steps ∧
      aft.tally.steps ≤ overrunning.tally.steps + (3 * 3 + 1) := by
  obtain ⟨r, aft, normalized, _, _, limited⟩ :=
    normalize_within_limit unlimited_countingHost (by decide : 1 ≤ 3)
      (.given (.neutral "x" [some 0, some 1])) overrunning (by decide : 2 * 3 + 2 ≤ 8)
  obtain ⟨last, failed⟩ : ∃ last, normalize ⟨countingHost, some 3⟩ 8
      (.given (.neutral "x" [some 0, some 1])) overrunning =
        (.error (.raised (.evaluation (.stepLimit 3) [])), last) := ⟨_, rfl⟩
  grind [unlimited_countingHost]

end CallByNeed
