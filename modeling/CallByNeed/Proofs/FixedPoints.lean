import CallByNeed.Proofs.NormalForms

/-!
# Terms in normal form are read back as they are

A closed term in normal form, in which no binder has the name of one around it,
is evaluated in any environment and its value read back: the result is the term
itself, with the same names of binders.

While such a term is read back, each of its variables stands for a variable of
its own name without a value.  Then no application takes place, and the value
of a part of the term still shows that part: `Presents` says how.  The thunks of
arguments are forced one after the other; that leaves the others as they are.
-/

variable {b arg f : Term} {form : Form}

namespace CallByNeed

/-- A thunk whose value has some property, or that is to be evaluated from a
term. -/
def Store.Awaits (s : Store) (t : Term) (env : Env) (property : Form → Prop) (a : Address) : Prop :=
  ∃ th, s.thunk? a = some th ∧
    ((th.phase = .unforced ∧ th.content = .code t env) ∨
      (th.phase = .forced ∧ property th.value.form))

/-- A value that shows a term in normal form, whose names stand for variables
without a value. -/
def Presents (s : Store) (env : Env) : Term → Form → Prop
  | .var x, form => form = .neutral x []
  | .lam p b, form => form = .closure p b env
  | .app f arg, form => ∃ x args a, form = .neutral x (args ++ [some a]) ∧
      Presents s env f (.neutral x args) ∧ s.Awaits arg env (Presents s env arg) a

/-- An environment gives a name to a variable of that name without a value. -/
def Store.Opens (s : Store) (env : Env) (x : Name) : Prop :=
  ∃ a th, s.find x env = some a ∧
    s.thunk? a = some th ∧ th.phase = .forced ∧ th.value.form = .neutral x []

variable {s : Store} {env : Env} {t : Term} {p : Name} {cfg : Settings}

theorem Presents.neutral (shows : Presents s env t form)
    (notLam : ∀ p b, t ≠ .lam p b) : ∃ x args, form = .neutral x args := by
  cases t with
  | var x => exact ⟨x, [], shows⟩
  | lam p b => exact absurd rfl (notLam p b)
  | app f arg =>
    obtain ⟨x, args, a, form, _⟩ := shows
    simp_all

/-- Thunks keep what they hold, except that those that are not evaluated may
come to hold a value that shows their term.  A thunk that is being evaluated may
change in any way. -/
structure Store.Advances (bef aft : Store) : Prop where
  tables : aft.tables = bef.tables
  thunks : ∀ {a th}, bef.thunk? a = some th → th.phase ≠ .forcing →
    aft.thunk? a = some th ∨
      th.phase = .unforced ∧ ∃ t env o, th.content = .code t env ∧
        aft.thunk? a = some o ∧ o.phase = .forced ∧
        Presents aft env t o.value.form

section Later

variable {bef aft : Store} (advances : bef.Advances aft)

include advances

theorem Store.Awaits.later (awaits : bef.Awaits t env (Presents bef env t) a)
    (keeps : ∀ {form}, Presents bef env t form → Presents aft env t form) :
    aft.Awaits t env (Presents aft env t) a := by
  obtain ⟨th, held, ⟨unforced, ct⟩ | ⟨forced, v⟩⟩ := awaits
  · rcases advances.thunks held (by simp [unforced]) with
      same | ⟨_, code, out, o, known, changed, forced, v⟩
    · exact ⟨th, same, .inl ⟨unforced, ct⟩⟩
    · cases ct.symm.trans known
      exact ⟨o, changed, .inr ⟨forced, v⟩⟩
  · rcases advances.thunks held (by simp [forced]) with same | ⟨unforced, _⟩
    · exact ⟨th, same, .inr ⟨forced, keeps v⟩⟩
    simp_all

theorem Presents.later (presents : Presents bef env t form) :
    Presents aft env t form := by
  induction t generalizing form with
  | var x => exact presents
  | lam p b _ => exact presents
  | app f arg ihF ihA =>
    obtain ⟨x, args, a, rfl, shows, awaits⟩ := presents
    exact ⟨x, args, a, rfl, ihF shows, awaits.later advances ihA⟩

theorem Store.Opens.later (opens : bef.Opens env x) : aft.Opens env x := by
  obtain ⟨a, th, found, held, forced, form⟩ := opens
  refine ⟨a, th, ?_, ?_, forced, form⟩
  · rwa [Store.find_congr advances.tables]
  · rcases advances.thunks held (by simp [forced]) with same | ⟨unforced, _⟩
    · exact same
    simp_all

end Later

namespace Store.Advances

theorem refl (s : Store) : s.Advances s := ⟨rfl, fun held _ => .inl held⟩

theorem trans {fst snd thd : Store} (early : fst.Advances snd) (late : snd.Advances thd) :
    fst.Advances thd := by
  refine ⟨late.tables.trans early.tables, fun {a th} held settled => ?_⟩
  rcases early.thunks held settled with
    same | ⟨unforced, t, env, o, ct, changed, forced, v⟩
  · exact late.thunks same settled
  · rcases late.thunks changed (by simp [forced]) with same | ⟨impossible, _⟩
    · exact .inr ⟨unforced, t, env, o, ct, same, forced, v.later late⟩
    simp_all

end Store.Advances

/-! ## Evaluation -/

/-- A store with the same names and more thunks. -/
structure Store.Enlarges (bef aft : Store) : Prop where
  tables : aft.tables = bef.tables
  keeps : bef.Keeps aft

namespace Store.Enlarges

theorem refl (s : Store) : s.Enlarges s := ⟨rfl, fun held => held⟩

theorem trans {fst snd thd : Store} (early : fst.Enlarges snd) (late : snd.Enlarges thd) :
    fst.Enlarges thd :=
  ⟨late.tables.trans early.tables, fun held => late.keeps (early.keeps held)⟩

theorem advances {bef aft : Store} (grown : bef.Enlarges aft) : bef.Advances aft :=
  ⟨grown.tables, fun held _ => .inl (grown.keeps held)⟩

theorem build (s : Store) (form : Form) : s.Enlarges (s.build form).2 := ⟨rfl, fun held => held⟩

theorem delay (s : Store) (t : Term) (env : Env) : s.Enlarges (s.delay t env).2 :=
  ⟨Store.tables_delay s t env, fun held => Store.thunk?_delay held t env⟩

theorem withVariable (s : Store) (x : Name) : s.Enlarges (s.withVariable x) :=
  ⟨rfl, fun held => Store.thunk?_alloc_of_some held _⟩

end Store.Enlarges

theorem Term.isNormal_app :
    (Term.app f arg).isNormal ↔ (∀ p b, f ≠ .lam p b) ∧ f.isNormal ∧ arg.isNormal := by
  cases f <;> simp [Term.isNormal]

theorem awaits_delay (opens : ∀ x ∈ arg.freeNames, s.Opens env x) :
    (s.delay arg env).2.Awaits arg env
      (Presents (s.delay arg env).2 env arg) (s.delay arg env).1 := by
  rcases s.delay_cases arg env with ⟨x, a, rfl, found, delayed⟩ |
    ⟨_, _, delayed⟩ | ⟨p, b, rfl, delayed⟩
  · obtain ⟨pl, th, bound, held, forced, form⟩ := opens x (by simp [Term.freeNames])
    cases found.symm.trans bound
    rw [delayed]
    exact ⟨th, held, .inr ⟨forced, form⟩⟩
  · rw [delayed]
    exact ⟨.suspended arg env none, by simp, .inl ⟨rfl, rfl⟩⟩
  · rw [delayed]
    exact ⟨.evaluated (s.build (.closure p b env)).1 none, by simp, .inr ⟨rfl, rfl⟩⟩

/-- A term in normal form is evaluated without entering a thunk, to a value that
shows it. -/
theorem moves_of_normal (host : Host) (normal : t.isNormal)
    (opens : ∀ x ∈ t.freeNames, s.Opens env x) (v : Value) (k : List Frame) :
    ∃ cnt r aft, Moves host cnt ⟨some (t, env), v, k, s⟩
        ⟨none, r, k, aft⟩ ∧ s.Enlarges aft ∧ Presents aft env t r.form := by
  induction t generalizing s k with
  | var x =>
    obtain ⟨a, th, found, held, forced, form⟩ := opens x (by simp [Term.freeNames])
    exact ⟨1, th.value, s, .step (.reuse found held forced) (.refl _), .refl s, form⟩
  | lam p b _ =>
    exact ⟨1, _, _, .step .close (.refl _), .build s _, rfl⟩
  | app f arg ih _ =>
    obtain ⟨notLam, normal, _⟩ := Term.isNormal_app.mp normal
    have delayed := Store.Enlarges.delay s arg env
    have awaits := awaits_delay fun x free =>
      opens x (Term.mem_freeNames_app.mpr (.inr free))
    obtain ⟨cnt, r, aft, moves, grown, shows⟩ := ih normal
      (fun x free => (opens x (Term.mem_freeNames_app.mpr (.inl free))).later
        delayed.advances) (.argument (some (s.delay arg env).1) :: k)
    obtain ⟨x, args, neutral⟩ := shows.neutral notLam
    have built := Store.Enlarges.build aft (.neutral x (args ++ [some (s.delay arg env).1]))
    refine ⟨_, _, _, .step .postpone (moves.snoc (.extend neutral)),
      delayed.trans (grown.trans built), x, args, _, rfl, ?_, ?_⟩
    · rw [neutral] at shows
      exact shows.later built.advances
    · have advances := (grown.trans built).advances
      exact awaits.later advances fun shows => shows.later advances

section Unbounded

variable (unb : ∀ sts, cfg.limit.exceeded sts = false)

include unb

theorem evaluate_normal (e : Engine) (normal : t.isNormal)
    (opens : ∀ x ∈ t.freeNames, e.store.Opens env x) :
    ∃ n v aft, evaluate cfg n t env e = (.ok v, aft) ∧
      e.store.Enlarges aft.store ∧ Presents aft.store env t v.form := by
  obtain ⟨k, v, s, moves, keeps, shows⟩ := moves_of_normal cfg.host normal opens Value.absent []
  obtain ⟨aft, ran, rfl, _⟩ :=
    run_of_moves_returned ⟨some (t, env), Value.absent, [], e⟩ moves (unb _) (Nat.lt_succ_self k)
  exact ⟨_, v, aft, ran, keeps, shows⟩

/-- The value of the thunk of an argument shows the argument, and the other
thunks are as they were. -/
theorem force_normal (e : Engine) (normal : t.isNormal)
    (opens : ∀ x ∈ t.freeNames, e.store.Opens env x)
    (awaits : e.store.Awaits t env (Presents e.store env t) a) :
    ∃ n v aft, force cfg n (some a) e = (.ok v, aft) ∧
      e.store.Advances aft.store ∧ Presents aft.store env t v.form := by
  obtain ⟨th, held, ⟨unforced, ct⟩ | ⟨forced, shows⟩⟩ := awaits
  · have begun : ∀ x ∈ t.freeNames, (e.store.update a Thunk.begin).Opens env x := by
      intro x free
      obtain ⟨pl, o, found, there, forced, form⟩ := opens x free
      have differ : a ≠ pl := by grind
      refine ⟨pl, o, ?_, by simp [differ, there], forced, form⟩
      rwa [Store.find_congr (Store.tables_update ..)]
    obtain ⟨k, v, s, moves, grown, shows⟩ :=
      moves_of_normal cfg.host normal begun Value.absent [.update a]
    have starts : (entered a th e).configuration =
        ⟨some (t, env), Value.absent, [.update a], e.store.update a Thunk.begin⟩ := by
      simp [entered, State.configuration, Thunk.code?, ct]
    rw [← starts] at moves
    obtain ⟨aft, ran, stored, _⟩ := run_of_moves_returned _ (moves.snoc .memoize) (unb _)
      (Nat.lt_succ_self _)
    rw [← force_of_unforced cfg _ held unforced] at ran
    have forcing : s.thunk? a = some th.begin := grown.keeps (by simp [held])
    have kept : s.Advances (s.update a (·.memoize v)) := by
      refine ⟨rfl, fun {pl o} there settled => .inl ?_⟩
      have differ : a ≠ pl := by
        rintro rfl
        simp_all
      simp [differ, there]
    rw [← stored] at kept
    refine ⟨_, v, aft, ran, ⟨kept.tables.trans grown.tables, ?_⟩, shows.later kept⟩
    intro pl o there settled
    by_cases same : a = pl
    · subst same
      cases held.symm.trans there
      exact .inr ⟨unforced, t, env, th.begin.memoize v, ct,
        by simp [stored, forcing], rfl, shows.later kept⟩
    · left
      have kept : s.thunk? pl = some o := grown.keeps (by simp [same, there])
      simp [stored, same, kept]
  · exact ⟨0, th.value, e.countHit, force_of_forced cfg 0 held forced, .refl _, shows⟩

end Unbounded

/-! ## Reading back -/

/-- What is known of a part of a term in normal form that is read back under
binders of the names in use. -/
structure Term.Readable (t : Term) (s : Store) (env : Env) (us : List Name) :
    Prop where
  normal : t.isNormal
  unshadowed : t.isUnshadowed us
  opens : ∀ x ∈ t.freeNames, s.Opens env x

namespace Term.Readable

variable {aft : Store} {us : List Name}

theorem later (readable : t.Readable s env us) (advances : s.Advances aft) :
    t.Readable aft env us :=
  ⟨readable.normal, readable.unshadowed, fun x free => (readable.opens x free).later advances⟩

theorem function (readable : (Term.app f arg).Readable s env us) :
    f.Readable s env us := by
  obtain ⟨normal, unshadowed, opens⟩ := readable
  simp only [Term.isUnshadowed, Bool.and_eq_true] at unshadowed
  exact ⟨(Term.isNormal_app.mp normal).2.1, unshadowed.1,
    fun x free => opens x (Term.mem_freeNames_app.mpr (.inl free))⟩

theorem argument (readable : (Term.app f arg).Readable s env us) :
    arg.Readable s env us := by
  obtain ⟨normal, unshadowed, opens⟩ := readable
  simp only [Term.isUnshadowed, Bool.and_eq_true] at unshadowed
  exact ⟨(Term.isNormal_app.mp normal).2.2, unshadowed.2,
    fun x free => opens x (Term.mem_freeNames_app.mpr (.inr free))⟩

theorem notMem (readable : (Term.lam p b).Readable s env us) : p ∉ us := by
  have unshadowed := readable.unshadowed
  simp_all [Term.isUnshadowed]

/-- Under a binder its name stands for its variable, which is new. -/
theorem body (readable : (Term.lam p b).Readable s env us) :
    b.Readable (s.withVariable p) (.layer p (some s.size) env) (us ++ [p]) := by
  obtain ⟨normal, unshadowed, opens⟩ := readable
  simp only [Term.isUnshadowed, Bool.and_eq_true] at unshadowed
  refine ⟨normal, ?_, fun x free => ?_⟩
  · rw [← unshadowed.2]
    exact Term.isUnshadowed_congr fun x => by simp [or_comm]
  · by_cases same : p = x
    · subst same
      refine ⟨s.size, .evaluated (s.build (.neutral p [])).1 none, ?_, ?_, rfl, rfl⟩
      · simp [Store.find]
      · simp [Store.withVariable]
    · obtain ⟨a, th, found, held, rest⟩ := (opens x (by
        simp [Term.freeNames, free, Ne.symm same])).later
          (Store.Enlarges.withVariable s p).advances
      exact ⟨a, th, by rwa [Store.find, if_neg same], held, rest⟩

end Term.Readable

/-- A value that shows a term is read back as the term. -/
def Term.ReadsBack (cfg : Settings) (t : Term) : Prop :=
  ∀ (e : Engine) {env : Env} {v : Value} {us : List Name},
    t.Readable e.store env us → Presents e.store env t v.form →
    ∃ later, Quotes cfg e v us t later ∧ e.store.Advances later.store

/-- The arguments of a variable that shows a term are read back as those of the
term. -/
def Term.ArgumentsReadBack (cfg : Settings) (t : Term) : Prop :=
  ∀ (e : Engine) {env : Env} {x : Name} {args : List (Option Address)}
    {us : List Name}, t.Readable e.store env us → Presents e.store env t (.neutral x args) →
    ∃ ts later, QuotesAll cfg e args us ts later ∧
      (Term.var x).apply ts = t ∧ e.store.Advances later.store

section Unbounded

variable (unb : ∀ sts, cfg.limit.exceeded sts = false)

include unb

theorem Term.ReadsBack.lam (inn : b.ReadsBack cfg) : (Term.lam p b).ReadsBack cfg := by
  intro e env v us readable shows
  obtain ⟨n, r, mid, opened, grown, shown⟩ :=
    evaluate_normal unb { e with store := e.store.withVariable p }
      readable.body.normal readable.body.opens
  obtain ⟨later, read, advances⟩ := inn mid.countStep (readable.body.later grown.advances) shown
  refine ⟨later.countStep, ?_, ?_⟩
  · exact .closure_of_notMem readable.notMem shows opened read
  · exact ((Store.Enlarges.withVariable e.store p).trans grown).advances.trans advances

theorem Term.ArgumentsReadBack.app (fr : f.ArgumentsReadBack cfg)
    (last : arg.ReadsBack cfg) : (Term.app f arg).ArgumentsReadBack cfg := by
  intro e env x args us readable shows
  obtain ⟨_, fst, a, same, shows, awaits⟩ := shows
  cases same
  obtain ⟨ts, mid, read, rfl, early⟩ := fr e readable.function shows
  have aft := readable.later early
  obtain ⟨n, v, next, forced, forcing, shown⟩ := force_normal unb
    mid.countStep aft.argument.normal aft.argument.opens
    (awaits.later early fun shows => shows.later early)
  obtain ⟨later, quoted, late⟩ := last next (aft.argument.later forcing) shown
  refine ⟨ts ++ [arg], later, read.append (.cons forced quoted .nil), ?_,
    early.trans (forcing.trans late)⟩
  simp [Term.apply]

end Unbounded

theorem Term.ArgumentsReadBack.readsBack (args : t.ArgumentsReadBack cfg)
    (notLam : ∀ p b, t ≠ .lam p b) : t.ReadsBack cfg := by
  intro e env v us readable shows
  obtain ⟨x, given, neutral⟩ := shows.neutral notLam
  rw [neutral] at shows
  obtain ⟨ts, later, read, rfl, advances⟩ := args e readable shows
  exact ⟨later.countStep, .neutral neutral read, advances⟩

theorem Term.readsBack (unb : ∀ sts, cfg.limit.exceeded sts = false) (t : Term) :
    t.ReadsBack cfg ∧ t.ArgumentsReadBack cfg := by
  induction t with
  | var x =>
    have args : (Term.var x).ArgumentsReadBack cfg := by
      intro e env o args us readable shows
      cases shows
      exact ⟨[], e, .nil, rfl, .refl _⟩
    exact ⟨args.readsBack (by simp), args⟩
  | lam p b ih =>
    refine ⟨ih.1.lam unb, ?_⟩
    intro e env x args us readable shows
    cases shows
  | app f arg ihF ihA =>
    have args := ihF.2.app unb ihA.1
    exact ⟨args.readsBack (by simp), args⟩

theorem Term.freeNames_ne_nil (normal : t.isNormal) (notLam : ∀ p b, t ≠ .lam p b) :
    t.freeNames ≠ [] := by
  induction t with
  | var x => simp [Term.freeNames]
  | lam p b _ => exact absurd rfl (notLam p b)
  | app f arg ih _ =>
    obtain ⟨innerNotLam, inn, _⟩ := Term.isNormal_app.mp normal
    obtain ⟨x, free⟩ := List.exists_mem_of_ne_nil _ (ih inn innerNotLam)
    exact List.ne_nil_of_mem (Term.mem_freeNames_app.mpr (.inl free))

theorem Term.eq_lam_of_closed (closed : t.freeNames = []) (normal : t.isNormal) :
    ∃ p b, t = .lam p b := by
  by_contra notLam
  push Not at notLam
  exact Term.freeNames_ne_nil normal notLam closed

/-- The value of a term is read back as the term, in every environment and every
engine, whatever the engine is asked in between. -/
structure Term.IsFixed (t : Term) : Prop where
  /-- Without a bound on steps the requests give a value and the term. -/
  returns : ∀ cfg : Settings, (∀ sts, cfg.limit.exceeded sts = false) →
    ∀ (env : Env) (e : Engine), ∃ enough v mid,
      (∀ n, enough ≤ n → evaluate cfg n t env e = (.ok v, mid)) ∧
      ∀ later, ∃ need aft, ∀ n, need ≤ n →
        normalize cfg n v later = (.ok t, aft)
  /-- With any bound on steps they give nothing else. -/
  only : ∀ {cfg : Settings} {few many : Nat} {env : Env} {v : Value}
    {e mid later aft : Engine} {o : Term},
    evaluate cfg few t env e = (.ok v, mid) →
    normalize cfg many v later = (.ok o, aft) → o = t

section Closed

variable (closed : t.freeNames = []) (normal : t.isNormal)
  (unshadowed : t.isUnshadowed [])

include closed normal unshadowed

theorem Term.normalizes_of_closed (unb : ∀ sts, cfg.limit.exceeded sts = false) (shown : Presents e.store env t v.form) :
    ∃ need aft, ∀ n, need ≤ n → normalize cfg n v e = (.ok t, aft) := by
  have readable : t.Readable e.store env [] := ⟨normal, unshadowed, by simp [closed]⟩
  obtain ⟨aft, read, _⟩ := (t.readsBack unb).1 e.countStep readable shown
  obtain ⟨need, normalizes⟩ := read.normalizes unb
  exact ⟨need, aft, normalizes⟩

theorem Term.returns_of_closed (unb : ∀ sts, cfg.limit.exceeded sts = false) (env : Env)
    (e : Engine) :
    ∃ enough v mid, (∀ n, enough ≤ n → evaluate cfg n t env e = (.ok v, mid)) ∧
      ∀ later, ∃ need aft, ∀ n, need ≤ n → normalize cfg n v later = (.ok t, aft) := by
  have opens : ∀ s : Store, ∀ x ∈ t.freeNames, s.Opens env x := by
    simp [closed]
  obtain ⟨enough, v, mid, evd, _, shows⟩ := evaluate_normal unb e normal (opens e.store)
  refine ⟨enough, v, mid, fun n le => evaluate_more (.refl cfg) le evd, fun later => ?_⟩
  have shown : Presents later.store env t v.form := by
    -- the value is a closure of the term, which holds no thunk
    obtain ⟨p, b, rfl⟩ := Term.eq_lam_of_closed closed normal
    exact shows
  exact Term.normalizes_of_closed closed normal unshadowed unb shown

/-- A closed term in normal form without shadowing is its own normal form. -/
theorem Term.isFixed : t.IsFixed := by
  constructor
  · intro cfg unb env e
    exact Term.returns_of_closed closed normal unshadowed unb env e
  · intro cfg few many env v e mid later aft o evd normalized
    -- the bound is lifted, which changes neither the value nor the term
    let lifted : Settings := { cfg with limit := none }
    have unb : ∀ sts, lifted.limit.exceeded sts = false := fun _ => rfl
    have widens : cfg.Widens lifted := ⟨rfl, by simp [unb]⟩
    obtain ⟨enough, _, _, evaluates, reads⟩ :=
      Term.returns_of_closed closed normal unshadowed unb env e
    have same := evaluate_more widens (Nat.le_max_left few enough) evd
    rw [evaluates _ (Nat.le_max_right few enough)] at same
    cases same
    obtain ⟨need, last, normalizes⟩ := reads later
    obtain ⟨want, again⟩ := ((quotes_of_normalize normalized).wider widens).normalizes unb
    have agree := again _ (Nat.le_max_left want need)
    grind

end Closed

end CallByNeed
