import CallByNeed.Proofs.Requests

/-!
# Reading back as a relation

`performAll` works through a list of tasks with a stack of finished terms.
`Quotes` says what that comes to, one value at a time: which evaluations reading
a value back asks for, in which order, and which term it makes of them.  A
request that ends with a term follows the relation (`quotes_of_normalize`), and
without a bound on steps every reading of the relation is carried out by a
request with enough fuel (`Quotes.normalizes`).
-/

variable {args : List (Option Address)} {mid : Engine} {t : Term} {enclosing : List Name} {x : Name}

namespace CallByNeed

/-- The same host, and a bound on steps that allows for more of them. -/
structure Settings.Widens (cfg wider : Settings) : Prop where
  host : wider.host = cfg.host
  limit : ∀ {sts}, wider.limit.exceeded sts = true → cfg.limit.exceeded sts = true

theorem Settings.Widens.refl (cfg : Settings) : cfg.Widens cfg := ⟨rfl, id⟩

variable {e later aft : Engine} {us : List Name} {v : Value} {n : Nat}
  {ts : List Term} {r : Term}

namespace Term

variable {f : Term} {args : List Term}

/-- No abstraction is applied in a term. -/
def isNormal : Term → Bool
  | var _ => true
  | lam _ b => b.isNormal
  | app (lam _ _) _ => false
  | app f arg => f.isNormal && arg.isNormal

/-- No binder in a term has the name of one around it, or one of the given
names. -/
def isUnshadowed : (enclosing : List Name) → Term → Bool
  | _, var _ => true
  | enclosing, lam p b =>
    !enclosing.contains p && b.isUnshadowed (p :: enclosing)
  | enclosing, app f arg =>
    f.isUnshadowed enclosing && arg.isUnshadowed enclosing

theorem isUnshadowed_congr {o : List Name}
    (same : ∀ x, x ∈ enclosing ↔ x ∈ o) : t.isUnshadowed enclosing = t.isUnshadowed o := by
  induction t generalizing enclosing o with
  | var x => rfl
  | lam p b ih => grind [isUnshadowed]
  | app f arg ihF ihA => grind [isUnshadowed]

theorem isNormal_apply (normal : f.isNormal) (notLam : ∀ p b, f ≠ lam p b)
    (all : ∀ arg ∈ args, arg.isNormal) : (f.apply args).isNormal := by
  induction args generalizing f with
  | nil => exact normal
  | cons arg args ih =>
    refine ih ?_ (by simp) fun o mem => all o (List.mem_cons_of_mem _ mem)
    simp_all [isNormal]

theorem isUnshadowed_apply (unshadowed : f.isUnshadowed enclosing)
    (all : ∀ arg ∈ args, arg.isUnshadowed enclosing) : (f.apply args).isUnshadowed enclosing := by
  induction args generalizing f with
  | nil => exact unshadowed
  | cons arg args ih =>
    refine ih ?_ fun o mem => all o (List.mem_cons_of_mem _ mem)
    simp [isUnshadowed, unshadowed, all arg List.mem_cons_self]

end Term

theorem length_le_freshName (x : Name) (us : List Name) : x.length ≤ (freshName x us).length := by
  fun_induction freshName x us with
  | case1 x us taken ih => grind [String.length_append]
  | case2 x us free => exact Nat.le_refl _

theorem freshName_notMem (x : Name) (us : List Name) : freshName x us ∉ us := by
  fun_induction freshName x us with
  | case1 x us taken ih =>
    intro mem
    have longer := length_le_freshName (x ++ "'") (us.erase x)
    have differ : freshName (x ++ "'") (us.erase x) ≠ x := by
      intro same
      simp_all
    simp_all
  | case2 x us free => exact free

theorem freshName_of_notMem (free : x ∉ us) : freshName x us = x := by
  rw [freshName, dif_neg free]

section Fuel

variable {cfg wider : Settings} {few many : Nat} (widens : cfg.Widens wider)
  (le : few ≤ many)

include widens le

theorem run_more (ran : run cfg few taken st = (.ok v, aft)) :
    run wider many taken st = (.ok v, aft) := by
  induction few generalizing taken st many with
  | zero => cases ran
  | succ few ih =>
    obtain ⟨more, rfl⟩ : ∃ more, many = more + 1 := ⟨many - 1, by omega⟩
    rw [run] at ran ⊢
    split at ran
    · obtain ⟨raised, failed⟩ := State.abandon_fst _ _
      rw [ran] at failed
      cases failed
    · rename_i within
      rw [if_neg fun exc => within (widens.limit exc), widens.host]
      grind

theorem evaluate_more (evd : evaluate cfg few t env e = (.ok v, aft)) :
    evaluate wider many t env e = (.ok v, aft) := run_more widens le evd

theorem force_more {th : Option Address} (forced : force cfg few th e = (.ok v, aft)) :
    force wider many th e = (.ok v, aft) := by
  cases found : th.bind e.store.thunk? with
  | none => grind [force_of_none]
  | some th =>
    obtain ⟨a, rfl, held⟩ := Option.bind_eq_some_iff.mp found
    cases phase : th.phase with
    | forced => simp_all [force_of_forced]
    | forcing => simp_all [force_of_forcing]
    | unforced =>
      rw [force_of_unforced cfg few held phase] at forced
      grind [force_of_unforced, run_more]

end Fuel

mutual

/-- A value is read back as a term, under binders of the names in use: the engine
that it is read from, and the one that it leaves. -/
inductive Quotes (cfg : Settings) :
    Engine → Value → List Name → Term → Engine → Prop where
  | closure {e mid later : Engine} {v r : Value} {us : List Name}
      {p : Name} {b t : Term} {env : Env} {n : Nat}
      (form : v.form = .closure p b env)
      (opened : evaluate cfg n b (.layer p (some e.store.size) env)
        { e with store := e.store.withVariable (freshName p us) } = (.ok r, mid))
      (read : Quotes cfg mid.countStep r (us ++ [freshName p us]) t later) :
      Quotes cfg e v us (.lam (freshName p us) t) later.countStep
  | neutral {e later : Engine} {v : Value} {us : List Name} {x : Name}
      {args : List (Option Address)} {ts : List Term}
      (form : v.form = .neutral x args)
      (read : QuotesAll cfg e args us ts later) :
      Quotes cfg e v us ((Term.var x).apply ts) later.countStep
  | constant {e : Engine} {v : Value} {us : List Name} {dt : Datum}
      (form : v.form = .constant dt) (wr : dt.isWritable) :
      Quotes cfg e v us (.var dt.written) e
  | primitive {e : Engine} {v : Value} {us : List Name} {x : Name}
      (form : v.form = .primitive x) :
      Quotes cfg e v us (.var x) e

/-- Thunks are forced and their values read back, one after the other. -/
inductive QuotesAll (cfg : Settings) :
    Engine → List (Option Address) → List Name → List Term → Engine → Prop where
  | nil {e : Engine} {us : List Name} : QuotesAll cfg e [] us [] e
  | cons {e mid next later : Engine} {arg : Option Address} {v : Value}
      {args : List (Option Address)} {us : List Name} {t : Term} {ts : List Term}
      {n : Nat} (forced : force cfg n arg e.countStep = (.ok v, mid))
      (fst : Quotes cfg mid v us t next)
      (rest : QuotesAll cfg next args us ts later) :
      QuotesAll cfg e (arg :: args) us (t :: ts) later

end

variable {cfg : Settings}

theorem Quotes.closure_of_notMem {r : Value}
    (free : p ∉ us) (form : v.form = .closure p b env)
    (opened : evaluate cfg n b (.layer p (some e.store.size) env)
      { e with store := e.store.withVariable p } = (.ok r, mid))
    (read : Quotes cfg mid.countStep r (us ++ [p]) t later) :
    Quotes cfg e v us (.lam p t) later.countStep := by
  have quoted := @Quotes.closure cfg e mid later v r us p b t env n form
  grind [freshName_of_notMem]

theorem QuotesAll.append {fr bk : List (Option Address)} {os : List Term}
    (fst : QuotesAll cfg e fr us ts mid) (snd : QuotesAll cfg mid bk us os later) :
    QuotesAll cfg e (fr ++ bk) us (ts ++ os) later := by
  induction fr generalizing e ts with
  | nil =>
    cases fst
    exact snd
  | cons arg fr ih =>
    cases fst with
    | cons forced read rest => exact .cons forced read (ih rest)

section Perform

theorem perform_constant (form : v.form = .constant dt) (wr : dt.isWritable)
    (us : List Name) (ts : List Term) (e : Engine) :
    (Task.quote v us).perform cfg n ts e = (.ok ([], .var dt.written :: ts), e) := by
  have quoted : quote cfg n v us e = (.ok ([], [.var dt.written]), e) := by
    simp only [quote, form, wr, if_true]
    rfl
  exact Action.bind_ok quoted _

theorem perform_primitive (form : v.form = .primitive x) (us : List Name)
    (ts : List Term) (e : Engine) :
    (Task.quote v us).perform cfg n ts e = (.ok ([], .var x :: ts), e) := by
  have quoted : quote cfg n v us e = (.ok ([], [.var x]), e) := by
    simp only [quote, form]
    rfl
  exact Action.bind_ok quoted _

theorem quotes_of_host {added : List Task}
    (notClosure : ∀ p b env, v.form ≠ .closure p b env)
    (notNeutral : ∀ x args, v.form ≠ .neutral x args)
    (done : (Task.quote v us).perform cfg n ts e = (.ok (added, built), later)) :
    ∃ t, added = [] ∧ built = t :: ts ∧ later = e ∧ Quotes cfg e v us t e := by
  cases form : v.form with
  | closure p b env => exact absurd form (notClosure p b env)
  | neutral x args => exact absurd form (notNeutral x args)
  | constant dt =>
    cases wr : dt.isWritable with
    | true =>
      rw [perform_constant form wr] at done
      cases done
      exact ⟨_, rfl, rfl, rfl, .constant form wr⟩
    | false =>
      obtain ⟨parts, mid, quoted, _⟩ := Action.of_bind_ok done
      simp only [quote, form, wr] at quoted
      cases quoted
  | primitive x =>
    rw [perform_primitive form] at done
    cases done
    exact ⟨_, rfl, rfl, rfl, .primitive form⟩
  | absent =>
    obtain ⟨parts, mid, quoted, _⟩ := Action.of_bind_ok done
    simp only [quote, form] at quoted
    cases quoted

end Perform

/-! ## Requests follow the relation -/

section Steps

variable {tks : List Task} {st0 : Nat} {b : Term}

/-- A successful task counts one step, does its part and leaves the rest. -/
theorem performAll_cons (perf : performAll cfg st0 n (tk :: tks) ts e = (.ok r, aft)) :
    ∃ less added built later, n = less + 1 ∧
      tk.perform cfg less ts e.countStep = (.ok (added, built), later) ∧
      performAll cfg st0 less (added ++ tks) built later = (.ok r, aft) := by
  cases n with
  | zero => cases perf
  | succ n =>
    cases bound : cfg.limit.exceeded (e.tally.steps + 1 - st0) with
    | true => simp_all [performAll_exceeded]
    | false =>
      rcases done : tk.perform cfg n ts e.countStep with ⟨oc, later⟩
      cases oc with
      | error stop =>
        rw [performAll_error cfg n bound done] at perf
        cases perf
      | ok parts =>
        rw [performAll_ok cfg n bound done] at perf
        grind

theorem performs_bind (perf : performAll cfg st0 n (.bind x :: tks) (b :: ts) e = (.ok r, aft)) :
    ∃ less, n = less + 1 ∧ performAll cfg st0 less tks (.lam x b :: ts)
      e.countStep = (.ok r, aft) := by
  obtain ⟨less, added, built, later, rfl, done, perf⟩ := performAll_cons perf
  cases done
  simp_all

theorem performs_combine {read : List Term}
    (perf : performAll cfg st0 n (.combine x read.length :: tks)
      (read.reverse ++ ts) e = (.ok r, aft)) :
    ∃ less, n = less + 1 ∧ performAll cfg st0 less tks
      ((Term.var x).apply read :: ts) e.countStep = (.ok r, aft) := by
  obtain ⟨less, added, built, later, rfl, done, perf⟩ := performAll_cons perf
  have enough : ¬ (read.reverse ++ ts).length < read.length := by simp
  have taken : (read.reverse ++ ts).take read.length = read.reverse := by simp
  have l : (read.reverse ++ ts).drop read.length = ts := by simp
  simp only [Task.perform, enough, if_false, taken, l, List.reverse_reverse] at done
  cases done
  simp_all

end Steps

/-- Whenever tasks that begin with reading a value back end with a term, the
value was read and the other tasks went on with less fuel. -/
def PerformsQuotes (cfg : Settings) (n : Nat) : Prop :=
  ∀ {st0 : Nat} {v : Value} {us : List Name} {added tks : List Task}
    {ts built : List Term} {e later aft : Engine} {r : Term},
    (Task.quote v us).perform cfg n ts e = (.ok (added, built), later) →
    performAll cfg st0 n (added ++ tks) built later = (.ok r, aft) →
    ∃ less t last, less ≤ n ∧ Quotes cfg e v us t last ∧
      performAll cfg st0 less tks (t :: ts) last = (.ok r, aft)

theorem quotesAll_of_performAll {st0 : Nat} {rest : List Task}
    (ih : ∀ less < n, PerformsQuotes cfg less)
    (perf : performAll cfg st0 n (args.map (.quoteThunk · us) ++ rest) ts e = (.ok r, aft)) :
    ∃ less read last, less ≤ n ∧ QuotesAll cfg e args us read last ∧
      performAll cfg st0 less rest (read.reverse ++ ts) last = (.ok r, aft) := by
  induction args generalizing n ts e with
  | nil => exact ⟨n, [], e, Nat.le_refl _, .nil, perf⟩
  | cons arg args step =>
    obtain ⟨less, added, built, later, rfl, done, remaining⟩ := performAll_cons perf
    rcases forced : force cfg less arg e.countStep with ⟨oc, mid⟩
    cases oc with
    | error stop =>
      rw [perform_quoteThunk_error cfg less forced] at done
      cases done
    | ok v =>
      rw [perform_quoteThunk_ok cfg less forced] at done
      obtain ⟨fewer, t, next, le, fst, perf⟩ := ih less (Nat.lt_succ_self less) done remaining
      obtain ⟨least, read, last, further, os, perf⟩ :=
        step (fun fewest below => ih fewest (by omega)) perf
      refine ⟨least, t :: read, last, by omega, .cons forced fst os, ?_⟩
      simpa using perf

theorem QuotesAll.length_eq
    (read : QuotesAll cfg e args us ts later) : args.length = ts.length := by
  induction args generalizing e ts with
  | nil =>
    cases read
    rfl
  | cons arg args ih =>
    cases read with
    | cons _ _ rest => simpa using ih rest

theorem performsQuotes (cfg : Settings) (n : Nat) : PerformsQuotes cfg n := by
  induction n using Nat.strong_induction_on with
  | _ n ih =>
    intro st0 v us added tks ts built e later aft r done perf
    cases form : v.form with
    | closure p b env =>
      rcases opened : openClosure cfg n p b env (freshName p us) e with ⟨oc, mid⟩
      cases oc with
      | error stop =>
        rw [perform_closure_error cfg n form opened] at done
        cases done
      | ok inn =>
        rw [perform_closure_ok cfg n form opened] at done
        cases done
        obtain ⟨less, fr, parts, next, rfl, begun, remaining⟩ := performAll_cons perf
        obtain ⟨fewer, t, last, le, read, bound⟩ := ih less (Nat.lt_succ_self less) begun remaining
        obtain ⟨least, rfl, l⟩ := performs_bind bound
        exact ⟨least, _, _, by omega, .closure form opened read, l⟩
    | neutral x args =>
      rw [perform_neutral cfg n form] at done
      cases done
      rw [List.append_assoc] at perf
      obtain ⟨less, read, last, le, each, combined⟩ := quotesAll_of_performAll ih perf
      rw [each.length_eq] at combined
      obtain ⟨least, rfl, l⟩ := performs_combine combined
      exact ⟨least, _, _, by omega, .neutral form each, l⟩
    | _ =>
      obtain ⟨t, rfl, rfl, rfl, read⟩ := quotes_of_host (by simp [form]) (by simp [form]) done
      grind

/-- A request that ends with a term has read the value back. -/
theorem quotes_of_normalize (normalizes : normalize cfg n v e = (.ok r, aft)) :
    Quotes cfg e.countStep v [] r aft := by
  obtain ⟨less, added, built, later, rfl, done, remaining⟩ := performAll_cons normalizes
  obtain ⟨least, t, last, _, read, perf⟩ := performsQuotes cfg less done remaining
  grind [performAll]

mutual

/-- What a value is read back as is normal, and no binder in it has the name of
one around it. -/
theorem Quotes.normal {e later : Engine} {v : Value} {us : List Name} {t : Term} :
    Quotes cfg e v us t later → t.isNormal ∧ t.isUnshadowed us
  | @Quotes.closure _ _ _ _ _ _ us p _ _ _ _ _ _ read => by
      obtain ⟨normal, unshadowed⟩ := Quotes.normal read
      have same : ∀ x, x ∈ freshName p us :: us ↔
          x ∈ us ++ [freshName p us] := by
        simp [or_comm]
      refine ⟨normal, ?_⟩
      simp [Term.isUnshadowed, freshName_notMem p us, Term.isUnshadowed_congr same, unshadowed]
  | .neutral _ read =>
    have all := QuotesAll.normal read
    ⟨Term.isNormal_apply rfl (by simp) fun t mem => (all t mem).1,
      Term.isUnshadowed_apply rfl fun t mem => (all t mem).2⟩
  | .constant _ _ => ⟨rfl, rfl⟩
  | .primitive _ => ⟨rfl, rfl⟩

theorem QuotesAll.normal {e later : Engine} {args : List (Option Address)}
    {us : List Name} {ts : List Term} :
    QuotesAll cfg e args us ts later →
    ∀ t ∈ ts, t.isNormal ∧ t.isUnshadowed us
  | .nil => by simp
  | .cons _ fst rest => by
      have head := Quotes.normal fst
      have tail := QuotesAll.normal rest
      simp_all

end

mutual

theorem Quotes.wider {wider : Settings} (widens : cfg.Widens wider) {e later : Engine}
    {v : Value} {us : List Name} {t : Term} :
    Quotes cfg e v us t later → Quotes wider e v us t later
  | .closure form opened read =>
    .closure form (evaluate_more widens (Nat.le_refl _) opened) (Quotes.wider widens read)
  | .neutral form read => .neutral form (QuotesAll.wider widens read)
  | .constant form wr => .constant form wr
  | .primitive form => .primitive form

theorem QuotesAll.wider {wider : Settings} (widens : cfg.Widens wider)
    {e later : Engine} {args : List (Option Address)} {us : List Name}
    {ts : List Term} :
    QuotesAll cfg e args us ts later →
    QuotesAll wider e args us ts later
  | .nil => .nil
  | .cons forced fst rest =>
    .cons (force_more widens (Nat.le_refl _) forced) (Quotes.wider widens fst)
      (QuotesAll.wider widens rest)

end

/-! ## The relation is followed by requests -/

section Unbounded

variable (unb : ∀ sts, cfg.limit.exceeded sts = false)

include unb

theorem performAll_bind (st0 n : Nat) (x : Name) (b : Term) (tks : List Task) (ts : List Term)
    (e : Engine) :
    performAll cfg st0 (n + 1) (.bind x :: tks) (b :: ts) e =
      performAll cfg st0 n tks (.lam x b :: ts) e.countStep := by
  rw [performAll_ok cfg n (unb _) rfl]
  rfl

theorem performAll_combine (st0 n : Nat) (x : Name) (read : List Term) (tks : List Task)
    (ts : List Term) (e : Engine) :
    performAll cfg st0 (n + 1) (.combine x read.length :: tks)
        (read.reverse ++ ts) e = performAll cfg st0 n tks ((Term.var x).apply read :: ts)
        e.countStep := by
  have enough : ¬ (read.reverse ++ ts).length < read.length := by simp
  have done : (Task.combine x read.length).perform cfg n (read.reverse ++ ts)
      e.countStep = (.ok ([], (Term.var x).apply read :: ts), e.countStep) := by
    simp only [Task.perform, enough, if_false]
    simp
    rfl
  rw [performAll_ok cfg n (unb _) done]
  rfl

mutual

/-- With enough fuel, a value is read back and the other tasks go on. -/
theorem Quotes.performs {e later : Engine} {v : Value} {us : List Name} {t : Term} :
    Quotes cfg e v us t later →
    ∃ need k, ∀ n, need ≤ n → ∀ st0 tks ts, ∃ added built mid,
      (Task.quote v us).perform cfg (n + k) ts e = (.ok (added, built), mid) ∧
      performAll cfg st0 (n + k) (added ++ tks) built mid =
        performAll cfg st0 n tks (t :: ts) later
  | @Quotes.closure _ _ _ _ _ _ _ _ _ _ _ few form opened read => by
      obtain ⟨need, k, inn⟩ := Quotes.performs read
      refine ⟨max few need, k + 2, fun n enough st0 tks ts => ?_⟩
      have more := evaluate_more (.refl cfg) (show few ≤ n + (k + 2) by omega) opened
      refine ⟨_, _, _, perform_closure_ok cfg _ form ((openClosure_eq ..).trans more) ts, ?_⟩
      obtain ⟨added, built, mid, done, perf⟩ :=
        inn (n + 1) (by omega) st0 (.bind (freshName _ _) :: tks) ts
      rw [show n + (k + 2) = n + 1 + k + 1 by omega]
      simp only [List.cons_append, List.nil_append]
      rw [performAll_ok cfg _ (unb _) done, perf, performAll_bind unb]
  | @Quotes.neutral _ _ _ _ _ _ _ _ form read => by
      obtain ⟨need, k, inn⟩ := QuotesAll.performs read
      refine ⟨need, k + 1, fun n enough st0 tks ts => ?_⟩
      refine ⟨_, _, _, perform_neutral cfg _ form _ _ _, ?_⟩
      rw [show n + (k + 1) = n + 1 + k by omega, List.append_assoc,
        inn (n + 1) (by omega), read.length_eq]
      grind [performAll_combine]
  | .constant form wr =>
    ⟨0, 0, fun n _ st0 tks ts =>
      ⟨[], _, _, perform_constant form wr _ ts _, rfl⟩⟩
  | .primitive form =>
    ⟨0, 0, fun n _ st0 tks ts =>
      ⟨[], _, _, perform_primitive form _ ts _, rfl⟩⟩

theorem QuotesAll.performs {e later : Engine} {args : List (Option Address)}
    {us : List Name} {read : List Term} :
    QuotesAll cfg e args us read later →
    ∃ need k, ∀ n, need ≤ n → ∀ st0 tks ts,
      performAll cfg st0 (n + k) (args.map (.quoteThunk · us) ++ tks) ts e =
        performAll cfg st0 n tks (read.reverse ++ ts) later
  | .nil => ⟨0, 0, fun _ _ _ _ _ => rfl⟩
  | @QuotesAll.cons _ _ _ _ _ _ _ args us _ _ few forced fst rest => by
      obtain ⟨need, k, one⟩ := Quotes.performs fst
      obtain ⟨needRest, countRest, os⟩ := QuotesAll.performs rest
      refine ⟨few + need + needRest, countRest + k + 1, fun n enough st0 tks ts => ?_⟩
      have more := force_more (.refl cfg) (show few ≤ n + countRest + k by omega) forced
      obtain ⟨added, built, mid, done, perf⟩ := one (n + countRest) (by omega) st0
        (args.map (.quoteThunk · us) ++ tks) ts
      rw [← perform_quoteThunk_ok cfg _ more] at done
      rw [show n + (countRest + k + 1) = n + countRest + k + 1 by omega,
        List.map_cons, List.cons_append, performAll_ok cfg _ (unb _) done, perf,
        os n (by omega)]
      simp

end

/-- Without a bound on steps, what the relation reads is what a request reads. -/
theorem Quotes.normalizes (read : Quotes cfg e.countStep v [] r aft) :
    ∃ enough, ∀ n, enough ≤ n → normalize cfg n v e = (.ok r, aft) := by
  obtain ⟨need, k, performs⟩ := Quotes.performs unb read
  refine ⟨need + k + 1, fun n enough => ?_⟩
  obtain ⟨less, rfl⟩ : ∃ less, n = less + k + 1 := ⟨n - k - 1, by omega⟩
  obtain ⟨added, built, mid, done, perf⟩ := performs less (by omega) e.tally.steps [] []
  unfold normalize
  rw [performAll_ok cfg _ (unb _) done, perf]
  cases less <;> rfl

end Unbounded

end CallByNeed
