import CallByNeed.Proofs.HalfForced

/-!
# Evaluations that are completed

The evaluation of a thunk is completed by the transition that reaches its frame.
`Store.Logs` relates the stores before and after any part of a request to the
thunks whose evaluations were completed in between: none of them had its value
before, all of them have it afterwards, and what has its value keeps it.

Nothing is assumed about where a request starts, and requests that run out of
fuel are included.
-/

namespace CallByNeed

variable {host : Host}

/-- The thunk whose evaluation the next transition completes. -/
def Configuration.completing? (c : Configuration) : Option Address :=
  match c.focus, c.stack with
  | none, .update a :: _ => some a
  | _, _ => none

/-- The evaluations that are completed on the way through states, in order.  The
last state is not left. -/
def completions (passed : List State) : List Address :=
  passed.dropLast.filterMap fun st => st.configuration.completing?

/-- The evaluations that a request completes, in order. -/
def Request.completions (cfg : Settings) (n : Nat) (rq : Request) (e : Engine) : List Address :=
  CallByNeed.completions (rq.trail cfg n e)

variable {bef fst snd thd s : Store} {α : Type} {r : Except Stop Value}
  {ts : List Term}

namespace Store

/-- A thunk is forced when, and only when, its term and environment are gone. -/
def Coherent (s : Store) : Prop :=
  ∀ {a th}, s.thunk? a = some th → (th.phase = .forced ↔ th.code? = none)

/-- What can become of a store while the evaluations in a log are completed. -/
structure Logs (bef : Store) (log : List Address) (aft : Store) : Prop where
  tables : aft.tables = bef.tables
  nodup : log.Nodup
  completes : ∀ a ∈ log, bef.phase? a ≠ some .forced ∧ aft.phase? a = some .forced
  held : ∀ {a th}, bef.thunk? a = some th →
    ∃ later, aft.thunk? a = some later ∧ later.name = th.name ∧
      (th.phase = .forced → later = th) ∧
      (later.phase ≠ .forced → later.content = th.content) ∧
      (later.phase = .forced → th.phase = .forced ∨ a ∈ log)
  added : ∀ {a th}, bef.thunk? a = none →
    aft.thunk? a = some th → th.name = none
  coherent : bef.Coherent → aft.Coherent

theorem Logs.refl (s : Store) : s.Logs [] s where
  tables := rfl
  nodup := .nil
  completes _ mem := by cases mem
  held held := ⟨_, held, rfl, fun _ => rfl, fun _ => rfl, .inl⟩
  added none held := by simp [none] at held
  coherent := id

variable {aft : Store} {a : Address}

theorem Logs.forced (logs : bef.Logs log aft)
    (held : bef.thunk? a = some th) (forced : th.phase = .forced) : aft.thunk? a = some th := by
  obtain ⟨later, heldLater, _, same, _⟩ := logs.held held
  simp_all

theorem Logs.phase_forced (logs : bef.Logs log aft)
    (forced : bef.phase? a = some .forced) : aft.phase? a = some .forced := by grind [held, Option.map_eq_some_iff, phase?]

theorem Logs.trans {fr bk : List Address} (early : fst.Logs fr snd) (late : snd.Logs bk thd) :
    fst.Logs (fr ++ bk) thd where
  tables := late.tables.trans early.tables
  nodup := by
    refine List.nodup_append.mpr ⟨early.nodup, late.nodup, ?_⟩
    rintro a mem o again rfl
    -- completed in the first part, so forced when the second part starts
    exact (late.completes a again).1 (early.completes a mem).2
  completes a mem := by
    rcases List.mem_append.mp mem with inFront | inBack
    · obtain ⟨notBefore, done⟩ := early.completes a inFront
      exact ⟨notBefore, late.phase_forced done⟩
    · obtain ⟨notBefore, done⟩ := late.completes a inBack
      exact ⟨fun forced => notBefore (early.phase_forced forced), done⟩
  held {a th} held := by
    obtain ⟨mid, heldMiddle, nameMiddle, sameMiddle, contentMiddle, forcedMiddle⟩ := early.held held
    obtain ⟨later, heldLater, nameLater, sameLater, contentLater, forcedLater⟩ :=
      late.held heldMiddle
    grind [forced]
  added {a th} new held := by
    cases between : snd.thunk? a with
    | none => exact late.added between held
    | some mid =>
      obtain ⟨later, heldLater, x, _⟩ := late.held between
      rw [held] at heldLater
      cases heldLater
      rw [x, early.added new between]
  coherent st0 := late.coherent (early.coherent st0)

theorem Grows.logs (grows : bef.Grows aft) (tbs : aft.tables = bef.tables) : bef.Logs [] aft where
  tables := tbs
  nodup := .nil
  completes _ mem := by cases mem
  held held := ⟨_, grows.keeps held, rfl, fun _ => rfl, fun _ => rfl, .inl⟩
  added new held := by
    rcases grows.adds held with old | ⟨_, _, rfl⟩ | ⟨_, rfl⟩
    · simp [new] at old
    · rfl
    · rfl
  coherent st0 := by
    intro a th held
    rcases grows.adds held with old | ⟨_, _, rfl⟩ | ⟨_, rfl⟩
    · exact st0 old
    · simp [Thunk.suspended, Thunk.code?]
    · simp [Thunk.evaluated, Thunk.code?]

/-- A thunk whose phase is changed, other than to or from that of a value. -/
theorem logs_mark (change : Thunk → Thunk) (ct : ∀ th, (change th).content = th.content)
    (x : ∀ th, (change th).name = th.name) (tbs : aft.tables = s.tables)
    (marked : ∀ {a th}, aft.thunk? a = some th →
      ∃ former, s.thunk? a = some former ∧
      (th = former ∨ th = change former ∧ former.phase ≠ .forced ∧
      th.phase ≠ .forced))
    (kept : ∀ {a th}, s.thunk? a = some th → ∃ later, aft.thunk? a = some later) :
    s.Logs [] aft where
  tables := tbs
  nodup := .nil
  completes _ mem := by cases mem
  held {a th} held := by grind
  added new held := by grind
  coherent st0 := by
    intro a th held
    obtain ⟨former, heldFormer, rfl | ⟨rfl, unforced, stays⟩⟩ := marked held
    · exact st0 heldFormer
    · have code : (change former).code? = former.code? := by
        simp [Thunk.code?, ct]
      rw [code, ← st0 heldFormer]
      simp_all

theorem logs_begin (held : s.thunk? a = some th) (unforced : th.phase = .unforced) :
    s.Logs [] (s.update a Thunk.begin) := by
  apply logs_mark Thunk.begin Thunk.content_begin Thunk.name_begin (tables_update s _ _)
  · intro o later heldLater
    rw [thunk?_update] at heldLater
    split at heldLater
    · rename_i same
      subst same
      rw [held] at heldLater
      cases heldLater
      simp_all
    simp_all
  grind [thunk?_update]

theorem logs_memoize (forcing : s.phase? a = some .forcing) (v : Value) :
    s.Logs [a] (s.update a (·.memoize v)) := by
  obtain ⟨begun, heldBegun, phase⟩ := Option.map_eq_some_iff.mp forcing
  constructor
  · rfl
  · simp
  · simp_all [phase?]
  · intro o th held
    rw [thunk?_update]
    split
    · simp_all
    simp_all
  · simp_all
  · intro st0 o th held
    rw [thunk?_update] at held
    split at held
    · obtain ⟨former, _, rfl⟩ := Option.map_eq_some_iff.mp held
      simp [Thunk.code?]
    · exact st0 held

end Store

/-- Every thunk that the stack waits to update has begun, and is waited for
once. -/
structure Configuration.Awaits (c : Configuration) : Prop where
  nodup : (updates c.stack).Nodup
  begun : ∀ a ∈ updates c.stack, c.store.phase? a = some .forcing

theorem Configuration.Awaits.of_noFrames {c : Configuration} (noFrames : ∀ a, .update a ∉ c.stack) :
    c.Awaits := by
  have none : ∀ a, a ∉ updates c.stack := fun a mem =>
    noFrames a (mem_updates.mp mem)
  constructor
  · grind
  simp_all

theorem Configuration.Awaits.move {bef aft : Configuration} (awaits : bef.Awaits)
    (move : Move host bef aft) : aft.Awaits := by
  rcases move.effect with ⟨begun, th, held, unforced, s, fs⟩ | ⟨kept, v, s, fs⟩ | ⟨grows, fs⟩
  · constructor
    · rw [fs, List.nodup_cons]
      refine ⟨fun mem => ?_, awaits.nodup⟩
      have forcing := awaits.begun begun mem
      simp [Store.phase?, held, unforced] at forcing
    · intro a mem
      rw [fs, List.mem_cons] at mem
      rw [s]
      by_cases same : begun = a
      · subst same
        simp [Store.phase?, held]
      · have ely := awaits.begun a (mem.resolve_left fun equal => same equal.symm)
        simpa [Store.phase?, same] using ely
  · have nodup := awaits.nodup
    rw [fs, List.nodup_cons] at nodup
    refine ⟨nodup.2, fun a mem => ?_⟩
    have differs : kept ≠ a := by grind
    have ely := awaits.begun a (by simp [fs, mem])
    simp_all [Store.phase?]
  · refine ⟨fs ▸ awaits.nodup, fun a mem => ?_⟩
    rw [fs] at mem
    obtain ⟨th, held, phase⟩ := Option.map_eq_some_iff.mp (awaits.begun a mem)
    simp [Store.phase?, grows.keeps held, phase]

/-- A transition completes the evaluation that it was about to complete, and no
other. -/
theorem Move.logs {bef aft : Configuration} (move : Move host bef aft) (awaits : bef.Awaits) :
    bef.store.Logs bef.completing?.toList aft.store := by
  cases move with
  | enter found held unforced => exact Store.logs_begin held unforced
  | demand prim held unforced => exact Store.logs_begin held unforced
  | memoize => exact Store.logs_memoize (awaits.begun _ List.mem_cons_self) _
  | postpone => exact (Store.grows_delay _ _ _).logs (by simp)
  | @close p b env => exact (Store.grows_build _ (.closure p b env)).logs rfl
  | @extend _ arg _ _ x args =>
    exact (Store.grows_build _ (.neutral x (args ++ [arg]))).logs rfl
  | reuse | bind | supply | call => exact .refl _

theorem Move.completed {bef aft : Configuration} (move : Move host bef aft)
    (awaits : bef.Awaits) (completing : bef.completing? = some a) :
    ∃ th : Thunk, aft.store.thunk? a = some (th.memoize bef.value) := by
  cases move with
  | memoize =>
    cases completing
    obtain ⟨th, held, _⟩ := Option.map_eq_some_iff.mp (awaits.begun _ List.mem_cons_self)
    have there : Store.thunk? _ a = some th := held
    exact ⟨th, by simp [there]⟩
  | _ => cases completing

theorem State.logs_unwind (st : State) : st.engine.store.Logs [] st.unwind.store := by
  apply Store.logs_mark Thunk.reset Thunk.content_reset Thunk.name_reset st.unwind_tables
  · grind [unwind_thunk?, Option.map_eq_some_iff, Thunk.reset]
  grind [unwind_thunk?]

theorem State.logs_abandon (st : State) (er : Raised) :
    st.engine.store.Logs [] (st.abandon er).2.store := by
  unfold abandon
  split
  · split
    · exact st.logs_unwind
    · exact .refl _
  · exact st.logs_unwind

/-! ### Runs -/

/-- A run that ends in its last state does not stop short of completing an
evaluation there. -/
def Quiet (passed : List State) : Prop :=
  ∀ last ∈ passed.getLast?, last.configuration.completing? = none

theorem completions_append {fr : List State} (quiet : Quiet fr) (bk : List State) :
    completions (fr ++ bk) = completions fr ++ completions bk := by
  rcases List.eq_nil_or_concat bk with rfl | ⟨rest, last, rfl⟩
  · simp [completions]
  · rcases List.eq_nil_or_concat fr with rfl | ⟨early, mid, rfl⟩
    · simp [completions]
    · have none : mid.configuration.completing? = Option.none := quiet mid (by simp)
      have joined : early.concat mid ++ rest.concat last =
          (early ++ [mid] ++ rest) ++ [last] := by simp
      rw [completions, joined, List.dropLast_concat]
      simp [completions, none]

/-- The states that a part of a request passes through account for the stores
before and after it. -/
structure Accounted {α : Type} (passed : List State) (bef : Store)
    (r : Except Stop α) (aft : Store) : Prop where
  logs : bef.Logs (completions passed) aft
  quiet : ∀ v, r = .ok v → Quiet passed

theorem Accounted.nil {aft : Store} (logs : bef.Logs [] aft) (r : Except Stop α) :
    Accounted [] bef r aft := ⟨logs, fun _ _ => by simp [Quiet]⟩

theorem Accounted.after {passed : List State} {r : Except Stop α}
    (accounted : Accounted passed snd r thd) (logs : fst.Logs [] snd) :
    Accounted passed fst r thd :=
  ⟨logs.trans accounted.logs, accounted.quiet⟩

theorem Accounted.append {β : Type} {fr bk : List State} {v : α} {r : Except Stop β}
    (early : Accounted fr fst (Except.ok v) snd) (late : Accounted bk snd r thd) :
    Accounted (fr ++ bk) fst r thd := by
  have quiet := early.quiet v rfl
  constructor
  · rw [completions_append quiet]
    exact early.logs.trans late.logs
  · intro r returned
    rcases List.eq_nil_or_concat bk with rfl | ⟨rest, last, rfl⟩
    · simpa using quiet
    · have quietLate := late.quiet r returned
      simpa [Quiet] using quietLate

section Requests

variable (cfg : Settings) {n : Nat} {e aft : Engine}

omit cfg in
theorem Course.logs {st0 last : State} {l : List State} (course : Course host st0 l last)
    (awaits : st0.configuration.Awaits) :
    st0.engine.store.Logs (l.filterMap fun st => st.configuration.completing?)
      last.engine.store := by
  induction course with
  | refl => exact .refl _
  | @snoc l st next course stepped ih =>
    have accounts := State.step_spec host st.counted
    rw [stepped] at accounts
    have here : st.configuration.Awaits := course.moves.1.preserves _ awaits
      fun _ _ awaits move => awaits.move move
    have logs : st0.engine.store.Logs _ next.engine.store := ih.trans (accounts.1.logs here)
    rw [List.filterMap_append, List.filterMap_cons]
    cases completing : st.configuration.completing? <;> simpa [completing] using logs

theorem run_accounted (awaits : st.configuration.Awaits)
    (ran : run cfg n taken st = (r, aft)) :
    Accounted (trail cfg n taken st) st.engine.store r aft.store := by
  obtain ⟨l, last, course, passes, _, ending⟩ := run_course cfg n taken st
  have logs := course.logs awaits
  have failing : ∀ {failed : State} {er : Raised},
      failed.engine = last.engine.countStep → (r, aft) = failed.abandon er →
      Accounted (l ++ [last]) st.engine.store r aft.store := by
    intro failed er same abd
    obtain ⟨raised, stopped⟩ := failed.abandon_fst er
    have bk := failed.logs_abandon er
    rw [same] at bk
    rw [← abd] at stopped bk
    refine ⟨?_, fun v returned => by cases stopped.symm.trans returned⟩
    rw [completions, List.dropLast_concat]
    simpa using logs.trans bk
  rw [passes]
  rw [ran] at ending
  rcases ending with ⟨_, exh⟩ | ⟨_, ending⟩
  · cases exh
    exact ⟨by simpa [completions] using logs, by simp⟩
  · generalize oc : (r, aft) = pair at ending
    cases ending.concludes with
    | returned _ noFocus noFrames =>
      cases oc
      refine ⟨by simpa [completions] using logs, fun _ _ o mem => ?_⟩
      grind [Configuration.completing?, State.configuration]
    | limited => exact failing rfl oc
    | failed _ _ sameEngine _ => exact failing sameEngine oc

theorem evaluate_accounted {t : Term} {env : Env} (evd : evaluate cfg n t env e = (r, aft)) :
    Accounted (trail cfg n 0 ⟨some (t, env), Value.absent, [], e⟩) e.store r aft.store :=
  run_accounted cfg (.of_noFrames fun _ mem => by cases mem) evd

theorem apply_accounted {f : Value} {args : List (Option Address)}
    (applied : apply cfg n f args e = (r, aft)) :
    Accounted (trail cfg n 0 ⟨none, f, args.map .argument, e⟩) e.store r aft.store := by
  refine run_accounted cfg (.of_noFrames fun a mem => ?_) applied
  simp [State.configuration] at mem

theorem force_accounted {th : Option Address} (forced : force cfg n th e = (r, aft)) :
    Accounted (forceTrail cfg n th e) e.store r aft.store := by
  rcases force_cases th e with ⟨a, held, rfl, there, unforced, runs⟩ |
    ⟨_, _, s, _, _, _, _, answers⟩
  · rw [(runs cfg n).1] at forced
    rw [(runs cfg n).2]
    have st0 : (askFor a e.store).Awaits := .of_noFrames (by simp [askFor])
    have awaits := st0.move (move_entered cfg.host there unforced)
    have ran := run_accounted cfg awaits forced
    rw [show (entered a held e).engine.store =
      e.store.update a Thunk.begin by simp [entered]] at ran
    exact ran.after (Store.logs_begin there unforced)
  · cases (answers cfg n).1.symm.trans forced
    rw [(answers cfg n).2]
    exact .nil (s ▸ .refl _) _

theorem logs_withVariable (s : Store) (x : Name) : s.Logs [] (s.withVariable x) :=
  ((Store.grows_build s _).logs rfl).trans ((Store.grows_alloc _ _).logs rfl)

theorem logs_withCounter (s : Store) : s.Logs [] s.withCounter :=
  ((Store.grows_alloc s _).logs rfl).trans ((Store.grows_alloc _ _).logs rfl)

theorem traced_accounted :
    Traced cfg fun ac trail => ∀ {e aft r},
      ac e = (r, aft) → Accounted (trail e) e.store r aft.store where
  still unused := by
    intro e aft r perf
    rw [unused.1] at perf
    cases perf
    exact .nil (.refl _) _
  bind fst rest := by
    intro e aft r perf
    rcases Action.bind_cases perf with ⟨stop, rfl, stopped⟩ | ⟨v, mid, began, late⟩
    · simp only [Eval.passing, stopped, List.append_nil]
      exact ⟨(fst stopped).logs, fun _ returned => by cases returned⟩
    · simp only [Eval.passing, began]
      exact (fst began).append (rest v late)
  counted st0 := by
    intro e aft r perf
    rw [countTask_eq] at perf
    cases perf
    exact .nil (.refl _) _
  opens n p b env us := by
    intro e aft r opened
    exact (evaluate_accounted cfg opened).after (logs_withVariable e.store _)
  forces n th := force_accounted cfg

/-- The log of a request accounts for the stores before and after it, whatever
its outcome. -/
theorem Request.logs {rq : Request} {r : Except Stop Answer}
    (perf : rq.perform cfg n e = (r, aft)) : e.store.Logs (rq.completions cfg n e) aft.store := by
  cases rq with
  | evaluate t env =>
    cases perf
    exact (evaluate_accounted cfg rfl).logs
  | force th =>
    cases perf
    exact (force_accounted cfg rfl).logs
  | apply f args =>
    cases perf
    exact (apply_accounted cfg rfl).logs
  | normalize v =>
    cases perf
    exact ((traced_accounted cfg).performAll _ _ _ _ rfl).logs
  | number v =>
    have counted : e.store.Logs ((Request.number v).completions cfg n e)
        (count cfg n v e).2.store := by
      have applied := (apply_accounted cfg (count_eq cfg n v e).symm).after
        (logs_withCounter e.store)
      exact applied.logs
    have same : (CallByNeed.number cfg n v e).2 = (count cfg n v e).2 := by
      unfold CallByNeed.number
      split <;> simp_all
    cases perf
    grind

end Requests

end CallByNeed
