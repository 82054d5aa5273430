import CallByNeed.Proofs.NormalOrder
import CallByNeed.Proofs.Renaming

/-!
# The names of bound variables do not matter

What is asked of terms that are the same up to the names of their binders takes the
same course: it comes to an answer or to an error together, and everything that is
counted is counted alike.  Reading back does the same work in both, but the names that
it makes up may differ, so that for its answers the reductions are compared: both
normal forms are reducts of one nameless term, which has no more than one
(`Reduces.normal_unique`).
-/

variable {known : Address → Prop} {across : List Term} {num : Nat} {o : Env}

namespace CallByNeed

variable {og : Origin}

/-- Requests that accompany each other, wherever both evaluations have come to. -/
def Concurs (og : Origin) {α β : Type} (rel : α → β → Prop) (fst : Eval α) (snd : Eval β) : Prop :=
  ∀ l r, Engine.Renamed og l r → Accompanies og rel (fst l) (snd r)

namespace Concurs

variable {α β γ δ : Type} {rel : α → β → Prop} {related : γ → δ → Prop}

theorem pure {l : α} {r : β} (same : rel l r) : Concurs og rel (pure l) (pure r) :=
  fun _ _ es => ⟨.answer same, es⟩

theorem throw (er : Raised) : Concurs og rel (throw (.raised er)) (throw (.raised er)) :=
  fun _ _ es => ⟨.error (.same er), es⟩

theorem bind {fst : Eval α} {snd : Eval β} {next : α → Eval γ} {following : β → Eval δ}
    (concurs : Concurs og rel fst snd)
    (continues : ∀ {l rt}, rel l rt → Concurs og related (next l) (following rt)) :
    Concurs og related (fst >>= next) (snd >>= following) := by
  intro l rt es
  obtain ⟨rss, es⟩ := concurs l rt es
  rcases began : fst l with ⟨early, mid⟩
  rcases started : snd rt with ⟨r, later⟩
  rw [began, started] at rss es
  cases rss with
  | answer same =>
    rw [Action.bind_ok began, Action.bind_ok started]
    exact continues same mid later es
  | error alike =>
    rw [Action.bind_error began, Action.bind_error started]
    exact ⟨.error alike, es⟩
  | outOfFuel =>
    rw [Action.bind_error began, Action.bind_error started]
    exact ⟨.outOfFuel, es⟩

end Concurs

section Requests

variable (lim : Limit) (n : Nat)

theorem Concurs.evaluate (envs : Env.Renamed og env o) {across : Term}
    (ts : Term.Renamed env.binders o.binders t across) :
    Concurs og (Value.Renamed og) (evaluate ⟨countingHost, lim⟩ n t env)
      (CallByNeed.evaluate ⟨countingHost, lim⟩ n across o) := by
  intro l r es
  have sts : State.Renamed og ⟨some (t, env), Value.absent, [], l⟩
      ⟨some (across, o), Value.absent, [], r⟩ := ⟨.term envs ts, .absent, .nil, es⟩
  exact sts.run lim n 0

theorem Concurs.apply {f o : Value} (same : Value.Renamed og f o) {args os : List (Option Address)}
    (pairs : List.Forall₂ og.pairing.Pairs args os) :
    Concurs og (Value.Renamed og) (apply ⟨countingHost, lim⟩ n f args)
      (CallByNeed.apply ⟨countingHost, lim⟩ n o os) := by
  intro l r es
  have fs : List.Forall₂ (Frame.Matches og.pairing) (args.map .argument) (os.map .argument) := by
    rw [List.forall₂_map_left_iff, List.forall₂_map_right_iff]
    exact pairs.imp fun {_ _} paired => .argument paired
  have sts : State.Renamed og ⟨none, f, args.map .argument, l⟩
      ⟨none, o, os.map .argument, r⟩ := ⟨.value, same, fs, es⟩
  exact sts.run lim n 0

theorem Concurs.force {th opp : Option Address} (pairs : og.pairing.Pairs th opp) :
    Concurs og (Value.Renamed og) (force ⟨countingHost, lim⟩ n th)
      (CallByNeed.force ⟨countingHost, lim⟩ n opp) := by
  obtain ⟨a, pl, rfl, rfl, paired⟩ := pairs
  intro l r es
  have ths := es.stores.thunks paired
  generalize held : l.store.thunk? a = fst at ths
  generalize there : r.store.thunk? pl = snd at ths
  cases ths with
  | none =>
    have nothing : (some a).bind l.store.thunk? = none := held
    have nothingAlso : (some pl).bind r.store.thunk? = none := there
    rw [force_of_none _ _ nothing, force_of_none _ _ nothingAlso]
    exact ⟨.error (.same _), es⟩
  | @some mine theirs same =>
    cases phase : theirs.phase with
    | forced =>
      rw [force_of_forced _ _ held (same.phase.trans phase), force_of_forced _ _ there phase]
      exact ⟨.answer same.value, es.countHit⟩
    | forcing =>
      rw [force_of_forcing _ _ held (same.phase.trans phase), force_of_forcing _ _ there phase,
        Thunk.cycle, Thunk.cycle, same.isWritable]
      refine ⟨.error ?_, es⟩
      split
      · exact .cyclic _ _ [] []
      · exact .same _
    | unforced =>
      rw [force_of_unforced _ _ held (same.phase.trans phase), force_of_unforced _ _ there phase]
      have sts : State.Renamed og (entered a mine l) (entered pl theirs r) :=
        ⟨same.code?, .absent, .cons (.update paired) .nil, es.begin paired _ _⟩
      exact sts.run lim n 0

/-- Closures are opened with variables of any names. -/
theorem Concurs.openClosure (envs : Env.Renamed og env o) {across : Name}
    {inn : Term} (bodies : Term.Renamed (p :: env.binders) (across :: o.binders) b inn)
    (x opp : Name) :
    Concurs og (Value.Renamed og) (openClosure ⟨countingHost, lim⟩ n p b env x)
      (CallByNeed.openClosure ⟨countingHost, lim⟩ n across inn o opp) := by
  intro l r es
  rw [openClosure_eq, openClosure_eq]
  have built := es.stores.build (.neutral x []) (.neutral opp [])
  have added : Store.Renamed og (l.store.withVariable x)
      (r.store.withVariable opp) := built.alloc (.evaluated (.neutral .nil))
  have pairs : og.pairing.Pairs (some l.store.size) (some r.store.size) :=
    ⟨_, _, rfl, rfl, es.stores.sizes⟩
  exact Concurs.evaluate lim n (.layer pairs envs) bodies _ _ (es.store added)

end Requests

/-! ### Reading back -/

inductive Task.Renamed (og : Origin) : Task → Task → Prop where
  | quote {v r} (same : Value.Renamed og v r) (us os : List Name) :
      Renamed og (.quote v us) (.quote r os)
  | quoteThunk {th pl} (pairs : og.pairing.Pairs th pl) (us os : List Name) :
      Renamed og (.quoteThunk th us) (.quoteThunk pl os)
  | bind (x across : Name) : Renamed og (.bind x) (.bind across)
  | combine (x across : Name) (k : Nat) : Renamed og (.combine x k) (.combine across k)

/-- What a task leads to in both evaluations: as many tasks and as many terms. -/
def Task.LeadsAlike (og : Origin) (l r : List Task × List Term) : Prop :=
  List.Forall₂ (Task.Renamed og) l.1 r.1 ∧ l.2.length = r.2.length

variable {v r : Value} {ts : List Term} {pg : Definitions}
  {t fst snd : Nameless}

section ReadBack

variable (lim : Limit) (n : Nat)

theorem Concurs.quote (same : Value.Renamed og v r) (us os : List Name) :
    Concurs og (Task.LeadsAlike og) (quote ⟨countingHost, lim⟩ n v us)
      (CallByNeed.quote ⟨countingHost, lim⟩ n r os) := by
  obtain ⟨form, identity⟩ := v
  obtain ⟨across, otherIdentity⟩ := r
  cases same with
  | closure envs bodies =>
    apply Concurs.bind (Concurs.openClosure lim n envs bodies _ _)
    intro l rt opened
    exact .pure ⟨.cons (.quote opened _ _) (.cons (.bind _ _) .nil), rfl⟩
  | @neutral x opp args given pairs =>
    have tks : List.Forall₂ (Task.Renamed og) (args.map (.quoteThunk · us))
        (given.map (.quoteThunk · os)) := by
      rw [List.forall₂_map_left_iff, List.forall₂_map_right_iff]
      exact pairs.imp fun {_ _} paired => .quoteThunk paired us os
    have combine : Task.Renamed og (.combine x args.length) (.combine opp given.length) := by
      rw [pairs.length_eq]
      exact .combine x opp given.length
    exact .pure ⟨List.rel_append tks (.cons combine .nil), rfl⟩
  | primitive x => exact .pure ⟨.nil, rfl⟩
  | constant dt =>
    simp only [CallByNeed.quote]
    split
    · exact .pure ⟨.nil, rfl⟩
    · exact .throw _
  | absent => exact .throw _

theorem Concurs.perform {o : Task} (same : Task.Renamed og tk o) {os : List Term}
    (lengths : ts.length = os.length) :
    Concurs og (Task.LeadsAlike og) (tk.perform ⟨countingHost, lim⟩ n ts)
      (o.perform ⟨countingHost, lim⟩ n os) := by
  have append : ∀ {l rt : List Task × List Term}, Task.LeadsAlike og l rt →
      Task.LeadsAlike og (l.1, l.2 ++ ts) (rt.1, rt.2 ++ os) := by
    rintro l rt ⟨tks, built⟩
    exact ⟨tks, by simp [built, lengths]⟩
  cases same with
  | quote same us across =>
    apply Concurs.bind (Concurs.quote lim n same us across)
    intro l rt leads
    exact .pure (append leads)
  | quoteThunk pairs us across =>
    apply Concurs.bind (Concurs.force lim n pairs)
    intro v r same
    apply Concurs.bind (Concurs.quote lim n same us across)
    intro l rt leads
    exact .pure (append leads)
  | bind x across =>
    cases ts with
    | nil =>
      cases List.length_eq_zero_iff.mp lengths.symm
      exact .throw _
    | cons b ts =>
      cases os with
      | nil => cases lengths
      | cons inn os => exact .pure ⟨.nil, lengths⟩
  | combine x across k =>
    simp only [Task.perform, ← lengths]
    split
    · exact .throw _
    · exact .pure ⟨.nil, by simp [lengths]⟩

theorem Accompanies.finished {l r : Engine} (es : Engine.Renamed og l r)
    (lengths : ts.length = across.length) (st0 o : Nat) :
    Accompanies og (fun _ _ => True) (performAll ⟨countingHost, lim⟩ st0 n [] ts l)
      (performAll ⟨countingHost, lim⟩ o n [] across r) := by
  cases ts with
  | nil =>
    cases List.length_eq_zero_iff.mp lengths.symm
    cases n <;> exact ⟨.error (.same _), es⟩
  | cons t ts =>
    cases across with
    | nil => cases lengths
    | cons inn across => cases n <;> exact ⟨.answer trivial, es⟩

/-- Both evaluations do their tasks, under bounds that count from where they began. -/
theorem Concurs.performAll (begun : Nat) {os : List Task}
    (same : List.Forall₂ (Task.Renamed og) tks os)
    (lengths : ts.length = across.length) :
    Concurs og (fun _ _ => True)
      (performAll ⟨countingHost, lim⟩ (og.left.tally.steps + begun) n tks ts)
      (CallByNeed.performAll ⟨countingHost, lim⟩ (og.right.tally.steps + begun) n os across) := by
  intro l rt es
  induction n generalizing tks os ts across l rt with
  | zero =>
    cases same with
    | nil => exact .finished lim 0 es lengths _ _
    | cons head tail => exact ⟨.outOfFuel, es⟩
  | succ n ih =>
    cases same with
    | nil => exact .finished lim (n + 1) es lengths _ _
    | @cons tk o tks os head tail =>
      have sts : l.tally.steps + 1 - (og.left.tally.steps + begun) =
          rt.tally.steps + 1 - (og.right.tally.steps + begun) := by
        obtain ⟨spent, fst, snd⟩ := es.tallies
        grind [Tally.plus]
      cases bound : lim.exceeded (rt.tally.steps + 1 - (og.right.tally.steps + begun)) with
      | true =>
        have exc := (congrArg lim.exceeded sts).trans bound
        rw [performAll_exceeded _ _ exc, performAll_exceeded _ _ bound]
        exact ⟨.error (.same _), es.countStep⟩
      | false =>
        have within := (congrArg lim.exceeded sts).trans bound
        obtain ⟨rss, es⟩ := Concurs.perform lim n head lengths _ _ es.countStep
        rcases fst : tk.perform ⟨countingHost, lim⟩ n ts l.countStep with ⟨early, mid⟩
        rcases snd : o.perform ⟨countingHost, lim⟩ n across rt.countStep with ⟨r, later⟩
        rw [fst, snd] at rss es
        cases rss with
        | @answer built opp leads =>
          obtain ⟨added, alike⟩ := leads
          rw [performAll_ok _ _ within fst, performAll_ok _ _ bound snd]
          exact ih (List.rel_append added tail) alike _ _ es
        | error alike =>
          rw [performAll_error _ _ within fst, performAll_error _ _ bound snd]
          exact ⟨.error alike, es⟩
        | outOfFuel =>
          rw [performAll_error _ _ within fst, performAll_error _ _ bound snd]
          exact ⟨.outOfFuel, es⟩

section

variable (same : Value.Renamed og v r)

include same

theorem Concurs.normalize :
    Concurs og (fun _ _ => True) (normalize ⟨countingHost, lim⟩ n v)
      (CallByNeed.normalize ⟨countingHost, lim⟩ n r) := by
  intro l rt es
  obtain ⟨spent, fst, snd⟩ := es.tallies
  have perf := Concurs.performAll lim n spent.steps
    (.cons (.quote same [] []) .nil) (Eq.refl (List.length [])) l rt es
  unfold CallByNeed.normalize
  rw [fst, snd]
  exact perf

theorem Concurs.count :
    Concurs og (Value.Renamed og) (count ⟨countingHost, lim⟩ n v)
      (CallByNeed.count ⟨countingHost, lim⟩ n r) := by
  intro l rt es
  rw [count_eq, count_eq]
  have one : Store.Renamed og
      (l.store.alloc (.evaluated (.given (.primitive successorName)) none)).2
      (rt.store.alloc (.evaluated (.given (.primitive successorName)) none)).2 :=
    es.stores.alloc (.evaluated (.primitive successorName))
  have two : Store.Renamed og l.store.withCounter rt.store.withCounter :=
    one.alloc (.evaluated (.constant (.int 0)))
  have pairs : List.Forall₂ og.pairing.Pairs
      [some l.store.size, some (l.store.size + 1)] [some rt.store.size, some (rt.store.size + 1)] :=
    .cons ⟨_, _, rfl, rfl, es.stores.sizes⟩
      (.cons ⟨_, _, rfl, rfl, Origin.pairing_succ es.stores.sizes⟩ .nil)
  exact Concurs.apply lim n same pairs _ _ (es.store two)

theorem Value.Renamed.integer? : v.integer? = r.integer? := by
  obtain ⟨form, identity⟩ := v
  obtain ⟨across, otherIdentity⟩ := r
  cases same <;> rfl

theorem Concurs.number :
    Concurs og Eq (number ⟨countingHost, lim⟩ n v) (CallByNeed.number ⟨countingHost, lim⟩ n r) := by
  intro l rt es
  obtain ⟨rss, es⟩ := Concurs.count lim n same l rt es
  rw [number_eq, number_eq]
  refine ⟨?_, es⟩
  generalize (CallByNeed.count ⟨countingHost, lim⟩ n v l).1 = fst at rss
  generalize (CallByNeed.count ⟨countingHost, lim⟩ n r rt).1 = snd at rss
  cases rss with
  | answer counted => exact .answer counted.integer?
  | error alike =>
    rcases alike.tallied with ⟨refused, also⟩ | ⟨failed, also⟩
    · rw [refused, also]
      exact .answer rfl
    · rw [failed, also]
      exact .error alike
  | outOfFuel => exact .outOfFuel

end

end ReadBack

/-! ### Normal forms -/

/-- A standard reduction of a term without parts does nothing. -/
theorem Standard.of_atom {r : Nameless} (ends : Final pg t) (small : t.size = 0)
    (standard : Standard pg t r) : r = t := by
  cases standard with
  | atom sts _ => exact ends.eq_of_steps sts
  | lam sts _ =>
    rw [← ends.eq_of_steps sts] at small
    cases small
  | app sts _ _ =>
    rw [← ends.eq_of_steps sts] at small
    cases small

/-- Standard reductions to normal forms begin with the steps at the head, and these come to
one value. -/
theorem Standard.meet (undefined : ∀ a, known a → pg a = none)
    (l : Standard pg t fst) (r : Standard pg t snd) (normal : fst.NormalIn known dp)
    (also : snd.NormalIn known dp) : ∃ v, Final pg v ∧ Standard pg v fst ∧ Standard pg v snd := by
  obtain ⟨_, v, reaches, ends, _, rest⟩ := l.value undefined normal
  obtain ⟨_, o, reachesAlso, endsAlso, _, restAlso⟩ := r.value undefined also
  cases reaches.final_eq reachesAlso ends endsAlso
  grind

/-- Standard reductions of a term to normal forms come to the same one. -/
theorem Standard.unique (undefined : ∀ a, known a → pg a = none)
    (l : Standard pg t fst) (r : Standard pg t snd) (normal : fst.NormalIn known dp)
    (also : snd.NormalIn known dp) : fst = snd := by
  induction fst generalizing t snd dp with
  | missing x => exact normal.elim
  | bound i =>
    obtain ⟨v, ends, rest, restAlso⟩ := l.meet undefined r normal also
    cases rest with
    | atom sts small =>
      cases ends.eq_of_steps sts
      exact (restAlso.of_atom ends small).symm
  | free a =>
    obtain ⟨v, ends, rest, restAlso⟩ := l.meet undefined r normal also
    cases rest with
    | atom sts small =>
      cases ends.eq_of_steps sts
      exact (restAlso.of_atom ends small).symm
  | lam b ih =>
    obtain ⟨v, ends, rest, restAlso⟩ := l.meet undefined r normal also
    cases rest with
    | atom _ small => cases small
    | lam sts inn =>
      cases ends.eq_of_steps sts
      obtain ⟨reduced, rfl, innerAlso⟩ := restAlso.of_lam
      exact congrArg Nameless.lam (ih inn innerAlso normal also)
  | app f arg ihF ihA =>
    obtain ⟨v, ends, rest, restAlso⟩ := l.meet undefined r normal also
    cases rest with
    | atom _ small => cases small
    | app sts fr bk =>
      cases ends.eq_of_steps sts
      obtain ⟨reduced, given, rfl, frontAlso, backAlso⟩ := restAlso.of_app ends
      rw [ihF fr frontAlso normal.2.1 also.2.1, ihA bk backAlso normal.2.2 also.2.2]

/-- A closed normal form of a term is its only one. -/
theorem Reduces.normal_unique (selfc : pg.SelfContained) (l : Reduces pg t fst)
    (r : Reduces pg t snd) (normal : fst.NormalIn (fun _ => False) 0)
    (also : snd.NormalIn (fun _ => False) 0) : fst = snd :=
  (l.standard selfc).unique (by simp) (r.standard selfc) normal also

/-- What is read back from the value of a term is a closed normal form of the term. -/
theorem evaluate_normalize_reduces {lk : Store} (wlk : lk.Linked)
    (reached : Reached lk e.store) {t r : Term} {aft : Engine}
    (normalized : (evaluate cfg n t (.root num) >>= normalize cfg n) e = (.ok r, aft)) :
    Reduces lk.definitions (lk.source (.root num) t)
        (r.nameless .missing []) ∧ (r.nameless .missing []).NormalIn (fun _ => False) 0 := by
  obtain ⟨v, mid, evd, read⟩ := Action.of_bind_ok normalized
  obtain ⟨rl, sound⟩ := reached.sound wlk
  obtain ⟨wt, means⟩ := sound.evaluates wlk num t
  obtain ⟨between, sts, mn, _, soundMiddle, reaches, denotes⟩ :=
    means.returned sound (reaches_of_evaluate evd)
  have within : mn.Within lk [] := by
    intro a occurs
    right
    rcases reaches.occurs wlk.selfContained occurs with src | defined
    · exact wlk.definitions_isSome.mpr (wlk.occurs_source src)
    · exact defined
  have reading := normalize_reads wlk soundMiddle denotes within read
  have closed : ∀ x ∈ r.freeNames, x ∈ ([] : List Name) := by
    simpa [Scope.names] using reading.bound
  exact ⟨reaches.reduces.trans reading.reduces,
    Term.nameless_normalIn (quotes_of_normalize read).normal.1 closed⟩

/-! ### The course of requests -/

/-- Two requests take the same course: their results stand alongside each other, and the
engines in which they were made counted the same on the way. -/
structure SameCourse {α β : Type} (rel : α → β → Prop) (l r : Engine)
    (oc : Except Stop α × Engine) (o : Except Stop β × Engine) : Prop where
  results : Alongside rel oc.1 o.1
  tallies : ∃ spent, oc.2.tally = l.tally.plus spent ∧
    o.2.tally = r.tally.plus spent

theorem Alongside.refine {α β : Type} {rel related : α → β → Prop} {l : Except Stop α}
    {r : Except Stop β} (rss : Alongside rel l r)
    (same : ∀ {v o}, l = .ok v → r = .ok o → rel v o → related v o) : Alongside related l r := by
  cases rss with
  | answer matched => exact .answer (same rfl rfl matched)
  | error alike => exact .error alike
  | outOfFuel => exact .outOfFuel

theorem Store.source_of_empty {s : Store} (empty : s.table num = []) (t : Term) :
    s.source (.root num) t = t.nameless .missing [] := by
  have missing : s.globals (.root num) = .missing := by
    funext x
    simp [Store.globals, Store.find, empty, Table.find]
  rw [Store.source, missing]

/-- Evaluation respects the renaming of bound variables.  Two terms have the same nameless form
and are evaluated in roots without names of a program, by engines of which anything may have been
asked before, under the same bound on steps.  Then their values are found, read back and decoded
by the same course: one request has an answer if the other one has, or both fail with the same
error, and steps, evaluations of thunks and uses of kept values are counted alike.  The numbers
are the same, and the normal forms have the same nameless form. -/
theorem bound_names_irrelevant {ms : Modules} {s : Store}
    (pg : Program ms s) {l r : Engine} (reached : Reached s l.store)
    (reachedAlso : Reached s r.store) {rt across : Nat} (empty : s.table rt = [])
    (emptyAlso : s.table across = []) {t o : Term}
    (renamed : t.nameless .missing [] = o.nameless .missing []) (lim : Limit)
    (n : Nat) :
    SameCourse (fun _ _ => True) l r (evaluate ⟨countingHost, lim⟩ n t (.root rt) l)
        (evaluate ⟨countingHost, lim⟩ n o (.root across) r) ∧
      SameCourse (fun normal opp =>
          normal.nameless .missing [] = opp.nameless .missing []) l r
        ((evaluate ⟨countingHost, lim⟩ n t (.root rt) >>= normalize ⟨countingHost, lim⟩ n) l)
        ((evaluate ⟨countingHost, lim⟩ n o (.root across) >>=
          normalize ⟨countingHost, lim⟩ n) r) ∧
      SameCourse Eq l r
        ((evaluate ⟨countingHost, lim⟩ n t (.root rt) >>= number ⟨countingHost, lim⟩ n) l)
        ((evaluate ⟨countingHost, lim⟩ n o (.root across) >>=
          number ⟨countingHost, lim⟩ n) r) := by
  have wlk := pg.linked
  obtain ⟨_, sound⟩ := reached.sound wlk
  obtain ⟨_, soundAlso⟩ := reachedAlso.sound wlk
  -- no thunk has been added yet, so that there is nothing to compare
  have es : Engine.Renamed ⟨l, r, rt, across⟩ l r := by
    refine ⟨⟨?_, ?_, ?_, ?_⟩, ⟨0, 0, 0⟩, rfl, rfl⟩
    · rw [← empty, Store.table, Store.table, sound.tables]
    · rw [← emptyAlso, Store.table, Store.table, soundAlso.tables]
    · simp [Origin.pairing_eq_some]
    simp_all [Origin.pairing_eq_some, Store.thunk?_of_le]
  have evd : Concurs ⟨l, r, rt, across⟩ (Value.Renamed _)
      (evaluate ⟨countingHost, lim⟩ n t (.root rt))
      (evaluate ⟨countingHost, lim⟩ n o (.root across)) :=
    Concurs.evaluate lim n .root (Term.renamed_of_nameless renamed)
  refine ⟨?_, ?_, ?_⟩
  · obtain ⟨rss, aft⟩ := evd l r es
    exact ⟨rss.refine fun _ _ _ => trivial, aft.tallies⟩
  · obtain ⟨rss, aft⟩ := evd.bind (Concurs.normalize lim n) l r es
    refine ⟨rss.refine fun fst snd _ => ?_, aft.tallies⟩
    obtain ⟨reduces, normal⟩ := evaluate_normalize_reduces wlk reached (Prod.ext fst rfl)
    obtain ⟨reducesAlso, normalAlso⟩ :=
      evaluate_normalize_reduces wlk reachedAlso (Prod.ext snd rfl)
    rw [Store.source_of_empty empty, renamed] at reduces
    rw [Store.source_of_empty emptyAlso] at reducesAlso
    exact reduces.normal_unique wlk.selfContained reducesAlso normal normalAlso
  · obtain ⟨rss, aft⟩ := evd.bind (Concurs.number lim n) l r es
    exact ⟨rss, aft.tallies⟩

/-- The term `shadowing` with other names, none of which is bound twice. -/
def unshadowed : Term :=
  .lam "a" (.app (.lam "b" (.lam "c" (.var "b"))) (.var "a"))

/-- A store with one root, in which nothing has a name. -/
def nothingNamed : Store := (Store.empty.addTable []).2

/-- With other names, no binder of the term has to be renamed when its normal form is read
back. -/
theorem unshadowed_same_course : Program [] nothingNamed ∧ nothingNamed.table 0 = [] ∧
    shadowing.nameless .missing [] = unshadowed.nameless .missing [] ∧
    SameCourse (fun normal opp =>
        normal.nameless .missing [] = opp.nameless .missing [])
      (.fresh nothingNamed) (.fresh nothingNamed)
      ((evaluate ⟨countingHost, some 20⟩ 20 shadowing (.root 0) >>=
        normalize ⟨countingHost, some 20⟩ 20) (.fresh nothingNamed))
      ((evaluate ⟨countingHost, some 20⟩ 20 unshadowed (.root 0) >>=
        normalize ⟨countingHost, some 20⟩ 20) (.fresh nothingNamed)) := by
  have pg : Program [] nothingNamed := .addTable .empty
  have empty : nothingNamed.table 0 = [] := rfl
  have renamed : shadowing.nameless .missing [] = unshadowed.nameless .missing [] := rfl
  have started : Reached nothingNamed (Engine.fresh nothingNamed).store := .start
  exact ⟨pg, empty, renamed,
    (bound_names_irrelevant pg started started empty empty renamed (some 20) 20).2.1⟩

end CallByNeed
