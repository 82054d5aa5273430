import CallByNeed.Proofs.NormalForms

/-!
# Bounds on steps that are large enough

A request that has succeeded under some bound on its steps succeeds in the same
way under every other bound that allows for the steps it has taken.  The steps
of a run are at most its fuel, and those of a reading are counted by the engine
that it leaves.
-/

namespace CallByNeed

/-- The same host, and a bound that allows for a number of steps. -/
structure Settings.Allows (cfg o : Settings) (sts : Nat) : Prop where
  host : o.host = cfg.host
  within : o.limit.exceeded sts = false

theorem Settings.Allows.fewer {cfg o : Settings} {few many : Nat} (allows : cfg.Allows o many)
    (le : few ≤ many) : cfg.Allows o few := ⟨allows.host, Limit.exceeded_mono le allows.within⟩

section Requests

variable {cfg o : Settings} {n : Nat} {v : Value} {aft : Engine}

theorem run_steps_le (ran : run cfg n taken st = (.ok v, aft)) :
    st.engine.tally.steps ≤ aft.tally.steps := by
  obtain ⟨k, last, _, sts, ⟨_, exh⟩ | ⟨_, _, ending⟩⟩ := run_spec cfg n taken st
  · simp [ran] at exh
  · obtain ⟨_, _, _, _, rfl⟩ := Concludes.of_ok (ran ▸ ending)
    rw [Engine.steps_countStep, sts]
    omega

theorem run_within {taken : Nat} {st : State} (allows : cfg.Allows o (taken + n))
    (ran : run cfg n taken st = (.ok v, aft)) : run o n taken st = (.ok v, aft) := by
  induction n generalizing taken st with
  | zero => cases ran
  | succ n ih =>
    have fst := (allows.fewer (show taken + 1 ≤ taken + (n + 1) by omega)).within
    rw [run] at ran ⊢
    split at ran
    · obtain ⟨raised, failed⟩ := State.abandon_fst _ _
      rw [ran] at failed
      cases failed
    · rw [if_neg (by simp [fst]), allows.host]
      grind

theorem evaluate_within {t : Term} {env : Env} {e : Engine} (allows : cfg.Allows o n)
    (evd : evaluate cfg n t env e = (.ok v, aft)) : evaluate o n t env e = (.ok v, aft) :=
  run_within (allows.fewer (by omega)) evd

theorem force_within {th : Option Address} {e : Engine} (allows : cfg.Allows o n)
    (forced : force cfg n th e = (.ok v, aft)) :
    force o n th e = (.ok v, aft) ∧ e.tally.steps ≤ aft.tally.steps := by
  cases found : th.bind e.store.thunk? with
  | none => grind [force_of_none]
  | some th =>
    obtain ⟨a, rfl, held⟩ := Option.bind_eq_some_iff.mp found
    cases phase : th.phase with
    | forced =>
      rw [force_of_forced cfg n held phase] at forced
      rw [force_of_forced o n held phase, forced]
      cases forced
      simp
    | forcing =>
      rw [force_of_forcing cfg n held phase] at forced
      cases forced
    | unforced =>
      rw [force_of_unforced cfg n held phase] at forced
      rw [force_of_unforced o n held phase]
      have later := run_steps_le forced
      simp only [entered, Engine.steps_begin] at later
      exact ⟨run_within (allows.fewer (by omega)) forced, later⟩

end Requests

section ReadBack

variable {cfg o : Settings} {n : Nat} {ts : List Term} {e later : Engine}
  {parts : List Task × List Term}

theorem quote_within (allows : cfg.Allows o n)
    (done : (Task.quote v us).perform cfg n ts e = (.ok parts, later)) :
    (Task.quote v us).perform o n ts e = (.ok parts, later) ∧
      e.tally.steps ≤ later.tally.steps := by
  cases form : v.form with
  | closure p b env =>
    rcases opened : openClosure cfg n p b env (freshName p us) e with ⟨oc, mid⟩
    cases oc with
    | error stop =>
      rw [perform_closure_error cfg n form opened] at done
      cases done
    | ok inn =>
      rw [perform_closure_ok cfg n form opened] at done
      rw [perform_closure_ok o n form (evaluate_within allows opened), done]
      cases done
      exact ⟨rfl, run_steps_le opened⟩
  | neutral x args =>
    rw [perform_neutral cfg n form] at done
    rw [perform_neutral o n form, done]
    grind
  | constant dt =>
    have same : (Task.quote v us).perform o n ts e = (Task.quote v us).perform cfg n ts e := by
      simp only [Task.perform, quote, form]
    rw [same]
    obtain ⟨t, _, _, rfl, _⟩ := quotes_of_host (by simp [form]) (by simp [form]) done
    simp_all
  | primitive x =>
    rw [perform_primitive form] at done
    rw [perform_primitive form, done]
    grind
  | absent =>
    obtain ⟨_, _, _, _, read⟩ := quotes_of_host (by simp [form]) (by simp [form]) done
    cases read <;> simp_all

theorem perform_within {tk : Task} (allows : cfg.Allows o n)
    (done : tk.perform cfg n ts e = (.ok parts, later)) :
    tk.perform o n ts e = (.ok parts, later) ∧ e.tally.steps ≤ later.tally.steps := by
  cases tk with
  | quote v us => exact quote_within allows done
  | quoteThunk th us =>
    rcases forced : force cfg n th e with ⟨oc, mid⟩
    cases oc with
    | error stop =>
      rw [perform_quoteThunk_error cfg n forced] at done
      cases done
    | ok v =>
      obtain ⟨again, early⟩ := force_within allows forced
      rw [perform_quoteThunk_ok cfg n forced] at done
      rw [perform_quoteThunk_ok o n again]
      grind [quote_within]
  | bind x =>
    obtain ⟨r, ⟨perf, _⟩, _⟩ := perform_bind cfg n x ts
    have same : (Task.bind x).perform o n ts e = (Task.bind x).perform cfg n ts e := by rfl
    grind
  | combine x k =>
    obtain ⟨r, ⟨perf, _⟩, _⟩ := perform_combine cfg n x k ts
    have same : (Task.combine x k).perform o n ts e =
        (Task.combine x k).perform cfg n ts e := by rfl
    grind

variable {st0 : Nat} {tks : List Task} {aft : Engine} {r : Term}

theorem performAll_steps_le (perf : performAll cfg st0 n tks ts e = (.ok r, aft)) :
    e.tally.steps ≤ aft.tally.steps := by
  induction n generalizing tks ts e with
  | zero =>
    cases tks with
    | nil =>
      obtain ⟨oc, same⟩ := performAll_nil cfg 0 ts
      rw [(same _).1] at perf
      simp_all
    | cons tk tks => cases perf
  | succ n ih =>
    cases tks with
    | nil =>
      obtain ⟨oc, same⟩ := performAll_nil cfg (n + 1) ts
      rw [(same _).1] at perf
      simp_all
    | cons tk tks =>
      obtain ⟨less, added, built, later, counted, done, remaining⟩ := performAll_cons perf
      cases counted
      have unb : cfg.Allows ⟨cfg.host, none⟩ n := ⟨rfl, rfl⟩
      have early := (perform_within unb done).2
      grind [Engine.steps_countStep]

/-- Tasks that were carried out are carried out again under a bound that allows for the
steps. -/
theorem performAll_within (allows : cfg.Allows o n) (enough : cfg.Allows o (aft.tally.steps - st0))
    (perf : performAll cfg st0 n tks ts e = (.ok r, aft)) :
    performAll o st0 n tks ts e = (.ok r, aft) := by
  induction n generalizing tks ts e with
  | zero =>
    cases tks with
    | nil =>
      cases ts with
      | nil => cases perf
      | cons t ts => exact perf
    | cons tk tks => cases perf
  | succ n ih =>
    cases tks with
    | nil =>
      cases ts with
      | nil => cases perf
      | cons t ts => exact perf
    | cons tk tks =>
      obtain ⟨less, added, built, later, counted, done, remaining⟩ := performAll_cons perf
      cases counted
      obtain ⟨again, early⟩ := perform_within (allows.fewer (Nat.le_succ n)) done
      rw [Engine.steps_countStep] at early
      have late := performAll_steps_le remaining
      have bound := (enough.fewer (show e.tally.steps + 1 - st0 ≤
        aft.tally.steps - st0 by omega)).within
      rw [performAll_ok o n bound again]
      exact ih (allows.fewer (Nat.le_succ n)) remaining

theorem normalize_within (allows : cfg.Allows o n)
    (enough : cfg.Allows o (aft.tally.steps - e.tally.steps))
    (normalized : normalize cfg n v e = (.ok r, aft)) : normalize o n v e = (.ok r, aft) :=
  performAll_within allows enough normalized

end ReadBack

end CallByNeed
