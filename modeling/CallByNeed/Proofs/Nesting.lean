import CallByNeed.Proofs.Completions

/-!
# Events and traces

Observers are told when the evaluation of a thunk with a name begins and when its value
is kept.  What they are told about one request is nested: each beginning is matched by
a value, in the order of brackets, except for the evaluations that the request leaves
unfinished.  These are the thunks in the trace of its error, outermost first.
-/

variable {told fr : List Event} {next : State} {er : Raised} {α : Type}

namespace CallByNeed

variable {st : State} {host : Host} {e : Engine}

/-! ### Nested events -/

/-- Beginnings and values that match. -/
inductive Nested : List Event → Prop where
  | nil : Nested []
  | pair {x : Name} {inn rest : List Event} (inside : Nested inn) (later : Nested rest) :
      Nested (⟨.force, x⟩ :: inn ++ ⟨.value, x⟩ :: rest)

theorem Nested.append {bk : List Event} (fst : Nested fr) (snd : Nested bk) :
    Nested (fr ++ bk) := by
  induction fst with
  | nil => exact snd
  | pair inside _ _ ih =>
    rw [List.append_assoc, List.cons_append]
    exact .pair inside ih

/-- Events in which the beginnings for these names, outermost first, are not matched. -/
inductive Unmatched : List Name → List Event → Prop where
  | nil {evs : List Event} (nested : Nested evs) : Unmatched [] evs
  | cons {x : Name} {xs : List Name} {fr bk : List Event} (nested : Nested fr)
      (inside : Unmatched xs bk) : Unmatched (x :: xs) (fr ++ ⟨.force, x⟩ :: bk)

namespace Unmatched

variable {x : Name} {xs : List Name}

theorem nested (unmatched : Unmatched [] told) : Nested told := by
  cases unmatched with
  | nil nested => exact nested

theorem after (nested : Nested fr) (unmatched : Unmatched xs told) :
    Unmatched xs (fr ++ told) := by
  cases unmatched with
  | nil later => exact .nil (nested.append later)
  | cons later inside =>
    rw [← List.append_assoc]
    exact .cons (nested.append later) inside

theorem force (unmatched : Unmatched xs told) (x : Name) :
    Unmatched (xs ++ [x]) (told ++ [⟨.force, x⟩]) := by
  induction unmatched with
  | nil nested => exact .cons nested (.nil .nil)
  | cons nested _ ih =>
    rw [List.append_assoc, List.cons_append]
    exact .cons nested ih

theorem value (unmatched : Unmatched (xs ++ [x]) told) : Unmatched xs (told ++ [⟨.value, x⟩]) := by
  generalize whole : xs ++ [x] = all at unmatched
  induction unmatched generalizing xs with
  | nil => simp at whole
  | cons nested inside ih =>
    cases xs with
    | nil =>
      cases whole
      rw [List.append_assoc, List.cons_append]
      exact .nil (nested.append (.pair inside.nested .nil))
    | cons fst xs =>
      cases whole
      rw [List.append_assoc, List.cons_append]
      exact .cons nested (ih rfl)

theorem begins (unmatched : Unmatched xs told) (x : Option Name) :
    Unmatched (xs ++ x.toList) (told ++ x.toList.map (Event.mk .force)) := by
  cases x with
  | none => simpa using unmatched
  | some x => exact unmatched.force x

theorem keeps {x : Option Name} (unmatched : Unmatched (xs ++ x.toList) told) :
    Unmatched xs (told ++ x.toList.map (Event.mk .value)) := by
  cases x with
  | none => simpa using unmatched
  | some x => exact unmatched.value

/-- What is not matched yet can be. -/
theorem closes (unmatched : Unmatched xs told) : ∃ rest, Nested (told ++ rest) := by
  induction xs using List.reverseRecOn generalizing told with
  | nil => exact ⟨[], by simpa using unmatched.nested⟩
  | append_singleton xs x ih =>
    obtain ⟨rest, nested⟩ := ih unmatched.value
    grind

end Unmatched

/-! ### Transitions -/

theorem Engine.events_notify (e : Engine) (kd : EventKind) (x : Option Name) :
    (e.notify kd x).events.toList = e.events.toList ++ x.toList.map (Event.mk kd) := by
  cases x <;> simp [notify]

theorem Engine.events_begin (e : Engine) (a : Address) (x : Option Name) :
    (e.begin a x).events.toList = e.events.toList ++ x.toList.map (Event.mk .force) :=
  Engine.events_notify _ _ _

theorem Engine.events_memoize (e : Engine) (a : Address) (v : Value) :
    (e.memoize a v).events.toList = e.events.toList ++
      ((e.store.thunk? a).bind Thunk.name).toList.map (Event.mk .value) :=
  Engine.events_notify _ _ _

variable {a : Address} {l passed : List State} {aft : Engine}

theorem State.enter_moved (entered : st.enter a th = .moved next) :
    next.stack = .update a :: st.stack ∧
      next.engine = st.engine.begin a th.name := by grind [State.enter]

/-- A transition tells that an evaluation begins, that its value is kept, or nothing. -/
theorem State.step_told (stepped : st.counted.step host = .moved next) :
    (∃ a th, st.engine.store.thunk? a = some th ∧
        next.pending = st.pending ++ [a] ∧ st.configuration.completing? = none ∧
        next.engine = st.engine.countStep.begin a th.name) ∨
      (∃ a, st.configuration.completing? = some a ∧
        st.pending = next.pending ++ [a] ∧
        next.engine = st.engine.countStep.memoize a st.value) ∨
      (st.configuration.completing? = none ∧ next.pending = st.pending ∧
        next.engine.events = st.engine.events) := by
  obtain ⟨focus, v, k, e⟩ := st
  cases focus with
  | some control =>
    obtain ⟨t, env⟩ := control
    cases t with
    | var x =>
      simp only [State.counted, State.step, State.evaluate] at stepped
      split at stepped
      · cases stepped
      · split at stepped
        · cases stepped
        · rename_i held
          split at stepped
          · cases stepped
            exact .inr (.inr ⟨rfl, rfl, rfl⟩)
          · obtain ⟨fs, told⟩ := State.enter_moved stepped
            exact .inl ⟨_, _, held, by simp [pending, fs, Frame.updated?], rfl, told⟩
    | lam p b =>
      cases stepped
      exact .inr (.inr ⟨rfl, rfl, rfl⟩)
    | app f arg =>
      cases stepped
      exact .inr (.inr ⟨rfl, rfl, rfl⟩)
  | none =>
    cases k with
    | nil => cases stepped
    | cons fr k =>
      cases fr with
      | argument th =>
        simp only [State.counted, State.step, State.applyTo] at stepped
        split at stepped
        · cases stepped
          exact .inr (.inr ⟨rfl, rfl, rfl⟩)
        · cases stepped
          exact .inr (.inr ⟨rfl, rfl, rfl⟩)
        · split at stepped
          · cases stepped
          · split at stepped
            · cases stepped
            · rename_i held
              split at stepped
              · cases stepped
                exact .inr (.inr ⟨rfl, rfl, rfl⟩)
              · obtain ⟨fs, told⟩ := State.enter_moved stepped
                exact .inl ⟨_, _, held, by simp [pending, fs, Frame.updated?]; rfl, rfl, told⟩
        · cases stepped
      | update a =>
        cases stepped
        exact .inr (.inl ⟨a, rfl, by simp [pending, Frame.updated?], rfl⟩)
      | call prim =>
        simp only [State.counted, State.step] at stepped
        split at stepped
        · cases stepped
          exact .inr (.inr ⟨rfl, rfl, rfl⟩)
        · cases stepped

/-! ### Courses -/

/-- The name of a thunk. -/
def Store.name? (s : Store) (a : Address) : Option Name := (s.thunk? a).bind Thunk.name

/-- The names of the thunks that a state is evaluating, outermost first. -/
def State.named (st : State) : List Name := st.pending.filterMap st.engine.store.name?

theorem Store.Logs.name? {bef aft : Store} (logs : bef.Logs log aft)
    (there : (bef.phase? a).isSome) : aft.name? a = bef.name? a := by
  obtain ⟨_, found⟩ := Option.isSome_iff_exists.mp there
  obtain ⟨th, held, _⟩ := Option.map_eq_some_iff.mp found
  grind [held, Store.name?]

/-- What has been told on a course is matched, except for what is being evaluated. -/
theorem Course.unmatched {st0 last : State} (course : Course host st0 l last)
    (awaits : st0.configuration.Awaits) (begins : Unmatched st0.named told) :
    ∃ more, last.engine.events.toList = st0.engine.events.toList ++ more ∧
      Unmatched last.named (told ++ more) := by
  induction course with
  | refl => exact ⟨[], by simp, by simpa using begins⟩
  | @snoc l st next course stepped ih =>
    obtain ⟨more, evs, unmatched⟩ := ih
    have accounts := State.step_spec host st.counted
    rw [stepped] at accounts
    have here : st.configuration.Awaits := course.moves.1.preserves _ awaits
      fun _ _ awaits move => awaits.move move
    have logs : st.engine.store.Logs _ next.engine.store := accounts.1.logs here
    have same : ∀ {ads : List Address}, (∀ a ∈ ads, a ∈ st.pending) →
        ads.filterMap next.engine.store.name? = ads.filterMap st.engine.store.name? := by
      intro ads members
      refine List.filterMap_congr fun a mem => logs.name? ?_
      have begun := here.begun a (State.mem_pending_iff_updates.mp (members _ mem))
      exact Option.isSome_iff_exists.mpr ⟨_, begun⟩
    have one : ∀ (s : Store) a, [a].filterMap s.name? = (s.name? a).toList := by grind
    rcases State.step_told stepped with ⟨a, th, held, pending, _, e⟩ |
      ⟨a, _, pending, e⟩ | ⟨_, pending, e⟩
    · have x : next.engine.store.name? a = th.name := by simp_all [Store.name?]
      refine ⟨more ++ th.name.toList.map (Event.mk .force), ?_, ?_⟩
      · rw [e, Engine.events_begin, ← List.append_assoc, ← evs]
        rfl
      · rw [State.named, pending, List.filterMap_append, same fun _ => id, one, x,
          ← List.append_assoc]
        exact unmatched.begins th.name
    · refine ⟨more ++ (st.engine.store.name? a).toList.map (Event.mk .value), ?_, ?_⟩
      · rw [e, Engine.events_memoize, ← List.append_assoc, ← evs]
        rfl
      · rw [State.named, pending, List.filterMap_append, one] at unmatched
        rw [State.named, same (by simp +contextual [pending]), ← List.append_assoc]
        exact unmatched.keeps
    grind [State.named]

/-- What is being evaluated at the end of a course was entered on it and was not completed. -/
theorem Course.mem_pending_iff {st0 last : State} (course : Course host st0 l last)
    (awaits : st0.configuration.Awaits) (a : Address) :
    a ∈ last.pending ↔ (∃ st ∈ l ++ [last], a ∈ st.pending) ∧
      a ∉ l.filterMap fun st => st.configuration.completing? := by
  constructor
  · intro mem
    refine ⟨⟨last, by simp, mem⟩, fun completed => ?_⟩
    have forced := ((course.logs awaits).completes a completed).2
    have here : last.configuration.Awaits := course.moves.1.preserves _ awaits
      fun _ _ awaits move => awaits.move move
    have forcing := here.begun a (State.mem_pending_iff_updates.mp mem)
    cases forced.symm.trans forcing
  · rintro ⟨⟨st, mem, entered⟩, uncompleted⟩
    induction course with
    | refl => simp_all
    | @snoc l st next _ stepped ih =>
      rw [List.filterMap_append, List.mem_append, not_or] at uncompleted
      grind [State.step_told]

/-- When the evaluation of a thunk began, just those outside it were being evaluated. -/
theorem Course.began {st0 last : State} (course : Course host st0 l last)
    (few : st0.pending.length ≤ 1) {out inn : List Address}
    (pending : last.pending = out ++ a :: inn) : ∃ st ∈ l ++ [last], st.pending = out ++ [a] := by
  induction course generalizing inn with
  | refl => grind [List.length_eq_zero_iff]
  | @snoc l st next _ stepped ih =>
    have ely : ∀ {inn}, st.pending = out ++ a :: inn →
        ∃ passed ∈ l ++ [st] ++ [next], passed.pending = out ++ [a] := by grind
    rcases State.step_told stepped with ⟨begun, _, _, grown, _⟩ | ⟨kept, _, shrunk, _⟩ |
      ⟨_, same, _⟩
    · rcases List.eq_nil_or_concat inn with rfl | ⟨fewer, innermost, rfl⟩
      · grind
      grind [List.append_inj_left']
    · simp_all
    simp_all

/-! ### Errors -/

/-- The host raises no error with a trace of its own. -/
def Host.Traceless (host : Host) : Prop :=
  ∀ x v cause tr, host x v = .error (.evaluation cause tr) → tr = []

theorem Raise.traceless (raise : Raise host c er)
    (traceless : Host.Traceless host)
    (evaluation : er = .evaluation cause tr) : tr = [] := by
  cases raise with
  | unbound => simp_all
  | host failed => exact traceless _ _ _ _ (failed.trans (by rw [evaluation]))
  | cyclic | cyclicArgument => grind [Thunk.cycle]
  | refused => grind [Value.refusal]
  | dangling | unsupplied => cases evaluation

/-- The host is called in a state and raises an error. -/
def State.HostRaises (host : Host) (st : State) (er : Raised) : Prop :=
  st.focus = none ∧ ∃ x k, st.stack = .call x :: k ∧ host x st.value = .error er

/-- A thunk that needs its own value is among those in the trace, unless it is the host that
says so. -/
theorem Raise.label_mem_trace {lb : String} (raise : Raise host st.configuration er)
    (marked : st.configuration.Marked) (cyclic : er = .evaluation (.cyclic lb) []) :
    lb ∈ st.trace ∨ st.HostRaises host er := by
  have listed : ∀ {a th}, st.engine.store.thunk? a = some th →
      th.phase = .forcing → th.cycle = .evaluation (.cyclic lb) [] → lb ∈ st.trace := by
    intro a th held forcing cycle
    refine List.mem_filterMap.mpr ⟨a, State.mem_pending_iff_updates.mpr
      (marked.forcing_iff.mp ?_), ?_⟩
    · simp [State.configuration, Store.phase?, held, forcing]
    grind [Thunk.cycle]
  generalize there : st.configuration = c at raise
  have s : st.engine.store = c.store := congrArg Configuration.store there
  have value : st.value = c.value := congrArg Configuration.value there
  cases raise with
  | cyclic _ held forcing => exact .inl (listed (by rwa [s]) forcing cyclic)
  | cyclicArgument _ held forcing => exact .inl (listed (by rwa [s]) forcing cyclic)
  | host failed =>
    exact .inr ⟨congrArg Configuration.focus there, _, _, congrArg Configuration.stack there,
      value ▸ failed⟩
  | refused => grind [Value.refusal]
  | unbound | dangling | unsupplied => cases cyclic

theorem State.abandon_events (st : State) (er : Raised) :
    (st.abandon er).2.events = st.engine.events := by
  have unwound : st.unwind.events = st.engine.events := by
    unfold unwind
    generalize st.pending = ads
    generalize st.engine = e
    induction ads generalizing e with
    | nil => rfl
    | cons a ads ih =>
      rw [List.foldl_cons, ih]
      rfl
  rcases st.abandon_engine er with l | l
  · rw [l, unwound]
  · rw [l]

theorem State.trace_labels {st : State}
    (begun : ∀ a ∈ st.pending, (st.engine.store.phase? a).isSome) :
    st.trace.map some = st.pending.map fun a => (st.unwind.store.thunk? a).map Thunk.label := by
  have lbs : ∀ ads ⊆ st.pending,
      (ads.filterMap fun a =>
        (st.engine.store.thunk? a).map Thunk.label).map some =
      ads.map fun a => (st.unwind.store.thunk? a).map Thunk.label := by
    intro ads members
    induction ads with
    | nil => rfl
    | cons a ads ih =>
      obtain ⟨mem, os⟩ := List.cons_subset.mp members
      have there := begun a mem
      rw [Store.phase?, Option.isSome_map] at there
      obtain ⟨th, held⟩ := Option.isSome_iff_exists.mp there
      simp_all [Thunk.label, State.unwind_thunk?]
  exact lbs st.pending (List.Subset.refl _)

/-! ### Requests -/

/-- The thunks that were still being evaluated in the last of the states that were passed
through, outermost first. -/
def unfinished (passed : List State) : List Address := (passed.getLast?.map State.pending).getD []

/-- What a part of a request tells and how it fails, by the states that it passes through. -/
structure Chronicle {α : Type} (host : Host) (e : Engine) (passed : List State)
    (r : Except Stop α) (aft : Engine) : Prop where
  accounted : Accounted passed e.store r aft.store
  told : ∃ told, aft.events.toList = e.events.toList ++ told ∧
    Unmatched ((unfinished passed).filterMap aft.store.name?) told
  left : ∀ a, a ∈ unfinished passed ↔
    (∃ st ∈ passed, a ∈ st.pending) ∧ a ∉ completions passed
  nodup : (unfinished passed).Nodup
  began : ∀ out a inn, unfinished passed = out ++ a :: inn →
    ∃ st ∈ passed, st.pending = out ++ [a]
  unforced : ∀ a ∈ unfinished passed, e.store.phase? a ≠ some .forced
  returned : ∀ v, r = .ok v → unfinished passed = [] ∧ aft.store.Settled
  traced : ∀ cause tr, r = .error (.raised (.evaluation cause tr)) →
    (tr.map some = (unfinished passed).map fun a =>
      (aft.store.thunk? a).map Thunk.label) ∧
    ∀ lb, cause = .cyclic lb → lb ∈ tr ∨
      ∃ st ∈ passed.getLast?, st.HostRaises host (.evaluation (.cyclic lb) [])

theorem Chronicle.still {r : Except Stop α} (logs : e.store.Logs [] aft.store)
    (evs : aft.events = e.events) (settled : aft.store.Settled)
    (failed : ∀ cause tr, r = .error (.raised (.evaluation cause tr)) →
      tr = [] ∧ ∀ lb, cause ≠ .cyclic lb) : Chronicle host e [] r aft where
  accounted := .nil logs r
  told := ⟨[], by simp [evs], .nil .nil⟩
  left a := by simp [unfinished]
  nodup := .nil
  began out a inn none := by simp [unfinished] at none
  unforced a mem := by cases mem
  returned v _ := ⟨rfl, settled⟩
  traced cause tr stopped := by
    obtain ⟨rfl, os⟩ := failed cause tr stopped
    exact ⟨rfl, fun lb cyclic => absurd cyclic (os lb)⟩

theorem Configuration.Marked.awaits {c : Configuration} (marked : c.Marked) : c.Awaits where
  nodup := List.nodup_iff_count_le_one.mpr fun a => by
    rw [marked a]
    split <;> omega
  begun _ := marked.forcing_iff.mpr

theorem run_chronicle {cfg : Settings} (traceless : Host.Traceless cfg.host) {n taken : Nat}
    {st : State} {e : Engine} {r : Except Stop Value}
    (marked : st.configuration.Marked) (few : st.pending.length ≤ 1)
    (logs : e.store.Logs [] st.engine.store)
    (evs : st.engine.events.toList = e.events.toList ++ told) (begins : Unmatched st.named told)
    (ran : run cfg n taken st = (r, aft)) : Chronicle cfg.host e (trail cfg n taken st) r aft := by
  have awaits := marked.awaits
  have accounted := (run_accounted cfg awaits ran).after logs
  obtain ⟨l, last, course, passes, _, ending⟩ := run_course cfg n taken st
  obtain ⟨more, eventsLast, unmatched⟩ := course.unmatched awaits begins
  rw [evs, List.append_assoc] at eventsLast
  have here : last.configuration.Marked := course.moves.1.preserves _ marked
    fun _ _ marked move => marked.move move
  have begun : ∀ a ∈ last.pending, (last.engine.store.phase? a).isSome := by
    intro a mem
    have forcing := here.forcing_iff.mpr (State.mem_pending_iff_updates.mp mem)
    exact Option.isSome_iff_exists.mpr ⟨_, forcing⟩
  rw [passes] at accounted ⊢
  have pending : unfinished (l ++ [last]) = last.pending := by simp [unfinished]
  have completed : completions (l ++ [last]) =
      l.filterMap fun st => st.configuration.completing? := by
    rw [completions, List.dropLast_concat]
  -- whatever the ending, it leaves names and events as they are
  have chronicle : ∀ {r : Except Stop Value} {aft : Engine},
      Accounted (l ++ [last]) e.store r aft.store → aft.events = last.engine.events →
      (∀ a ∈ last.pending, aft.store.name? a = last.engine.store.name? a) →
      (∀ v, r = .ok v → last.pending = [] ∧ aft.store.Settled) →
      (∀ cause tr, r = .error (.raised (.evaluation cause tr)) →
        (tr.map some = last.pending.map fun a =>
          (aft.store.thunk? a).map Thunk.label) ∧
        ∀ lb, cause = .cyclic lb → lb ∈ tr ∨
          last.HostRaises cfg.host (.evaluation (.cyclic lb) [])) →
      Chronicle cfg.host e (l ++ [last]) r aft := by
    intro r aft accounted evs xs returned traced
    refine ⟨accounted, ?_, ?_, ?_, ?_, ?_, ?_, ?_⟩ <;> rw [pending]
    · refine ⟨told ++ more, by rw [evs, eventsLast], ?_⟩
      rwa [List.filterMap_congr xs]
    · rw [completed]
      exact course.mem_pending_iff awaits
    · exact List.nodup_reverse.mpr here.awaits.nodup
    · exact fun out a inn => course.began few
    · intro a mem forced
      have forcing := here.forcing_iff.mpr (State.mem_pending_iff_updates.mp mem)
      have still := (logs.trans (course.logs awaits)).phase_forced forced
      cases still.symm.trans forcing
    · exact returned
    · simpa using traced
  have failing : ∀ {failed : State} {er : Raised}, failed.engine = last.engine.countStep →
      failed.pending = last.pending → (∀ cause tr, er = .evaluation cause tr → tr = []) →
      (∀ lb, er = .evaluation (.cyclic lb) [] → lb ∈ last.trace ∨
        last.HostRaises cfg.host (.evaluation (.cyclic lb) [])) →
      (r, aft) = failed.abandon er → Chronicle cfg.host e (l ++ [last]) r aft := by
    intro failed er sameEngine samePending plain cyclic abd
    have abandonedLogs := failed.logs_abandon er
    have sameEvents := failed.abandon_events er
    obtain ⟨raised, stopped⟩ := failed.abandon_fst er
    rw [← abd, sameEngine] at abandonedLogs sameEvents
    rw [← abd] at stopped
    refine chronicle accounted sameEvents (fun a mem => ?_) ?_ ?_
    · exact abandonedLogs.name? (begun a mem)
    · grind
    · intro cause tr fa
      subst fa
      obtain ⟨rfl, ⟨rfl, rfl⟩ | ⟨same, own⟩⟩ := State.abandon_evaluation abd.symm
      on_goal 2 => exact absurd (plain cause tr same) own
      have sameTrace : failed.trace = last.trace := by
        unfold State.trace
        rw [samePending, sameEngine]
        rfl
      have lbs := @State.trace_labels failed (by rw [samePending, sameEngine]; exact begun)
      rw [samePending] at lbs
      refine ⟨lbs, ?_⟩
      rintro lb rfl
      rw [sameTrace]
      exact cyclic lb rfl
  rw [ran] at ending
  rcases ending with ⟨_, exh⟩ | ⟨_, ending⟩
  · cases exh
    exact chronicle accounted rfl (fun _ _ => rfl) (by simp) (by simp)
  · generalize oc : (r, aft) = pair at ending
    cases ending.concludes with
    | returned _ _ noFrames =>
      cases oc
      refine chronicle accounted rfl (fun _ _ => rfl) (fun _ _ => ⟨?_, ?_⟩) (by simp)
      · simp [State.pending, noFrames]
      · intro a forcing
        have mem := here.forcing_iff.mp forcing
        simp [State.configuration, noFrames] at mem
    | limited =>
      refine @failing last.counted _ rfl rfl ?_ (fun _ cyclic => by cases cyclic) oc
      intro cause tr evaluation
      cases evaluation
      rfl
    | failed _ raise sameEngine samePending =>
      refine failing sameEngine samePending (fun _ _ => raise.traceless traceless) ?_ oc
      rintro lb rfl
      exact raise.label_mem_trace here rfl

theorem Chronicle.append {β : Type} {mid : Engine} {fr bk : List State} {v : α}
    {r : Except Stop β} (early : Chronicle host e fr (.ok v) mid)
    (late : Chronicle host mid bk r aft) : Chronicle host e (fr ++ bk) r aft := by
  have finished := (early.returned v rfl).1
  have same : unfinished (fr ++ bk) = unfinished bk := by
    rcases List.eq_nil_or_concat bk with rfl | ⟨rest, last, rfl⟩
    · rw [List.append_nil, finished]
      rfl
    · simp [unfinished]
  refine ⟨early.accounted.append late.accounted, ?_, ?_, ?_, ?_, ?_, ?_, ?_⟩ <;> rw [same]
  · obtain ⟨fst, evs, nested⟩ := early.told
    obtain ⟨snd, eventsLate, unmatched⟩ := late.told
    rw [finished] at nested
    exact ⟨fst ++ snd, by rw [eventsLate, evs, List.append_assoc], unmatched.after nested.nested⟩
  · intro a
    rw [late.left, completions_append (early.accounted.quiet v rfl), List.mem_append, not_or]
    constructor
    · rintro ⟨⟨st, mem, entered⟩, uncompleted⟩
      refine ⟨⟨st, List.mem_append_right _ mem, entered⟩, fun completed => ?_, uncompleted⟩
      -- completed in the first part, so that the second part does not enter it
      exact late.unforced a ((late.left a).mpr ⟨⟨st, mem, entered⟩, uncompleted⟩)
        (early.accounted.logs.completes a completed).2
    · rintro ⟨⟨st, mem, entered⟩, uncompletedEarly, uncompleted⟩
      rcases List.mem_append.mp mem with bef | later
      · have l := (early.left a).mpr ⟨⟨st, bef, entered⟩, uncompletedEarly⟩
        simp_all
      grind
  · exact late.nodup
  · intro out a inn split
    obtain ⟨st, mem, pending⟩ := late.began out a inn split
    grind
  · exact fun a mem forced =>
      late.unforced a mem (early.accounted.logs.phase_forced forced)
  · exact late.returned
  · intro cause tr failed
    obtain ⟨labels, cyclic⟩ := late.traced cause tr failed
    refine ⟨labels, fun lb same => (cyclic lb same).imp_right ?_⟩
    rintro ⟨st, last, raises⟩
    exact ⟨st, List.mem_getLast?_append_of_mem_getLast? last, raises⟩

/-- The outcome is only known to be an error, or to be a value. -/
theorem Chronicle.transport {β : Type} {r : Except Stop α} {o : Except Stop β}
    (chronicle : Chronicle host e passed r aft) (vs : ∀ v, o = .ok v → ∃ v, r = .ok v)
    (errors : ∀ stop, o = .error stop → r = .error stop) : Chronicle host e passed o aft where
  accounted := ⟨chronicle.accounted.logs, fun v same =>
    have ⟨v, returned⟩ := vs v same
    chronicle.accounted.quiet v returned⟩
  told := chronicle.told
  left := chronicle.left
  nodup := chronicle.nodup
  began := chronicle.began
  unforced := chronicle.unforced
  returned v same :=
    have ⟨v, returned⟩ := vs v same
    chronicle.returned v returned
  traced cause tr same := chronicle.traced cause tr (errors _ same)

theorem Chronicle.error {β : Type} {stop : Stop}
    (chronicle : Chronicle host e passed (.error stop : Except Stop α) aft) :
    Chronicle host e passed (.error stop : Except Stop β) aft :=
  chronicle.transport (by simp) (by simp)

theorem Chronicle.map {β : Type} {r : Except Stop α} {change : α → β}
    (chronicle : Chronicle host e passed r aft) : Chronicle host e passed (r.map change) aft := by
  cases r with
  | ok v => exact chronicle.transport (fun _ _ => ⟨v, rfl⟩) (by simp [Except.map])
  | error stop => exact chronicle.error

section Requests

variable {cfg : Settings} {n : Nat} {r : Except Stop Value}

section

variable (traceless : Host.Traceless cfg.host)

include traceless

theorem run_chronicle_of_noFrames (settled : e.store.Settled)
    (grows : e.store.Grows st.engine.store) (tbs : st.engine.store.tables = e.store.tables)
    (evs : st.engine.events = e.events) (noFrames : ∀ a, .update a ∉ st.stack)
    (ran : run cfg n 0 st = (r, aft)) : Chronicle cfg.host e (trail cfg n 0 st) r aft := by
  have none : st.pending = [] :=
    List.eq_nil_iff_forall_not_mem.mpr fun a mem => noFrames a (State.mem_pending.mp mem)
  have marked := (@Underway.start st.configuration (settled.of_grows grows) noFrames).marked
  have same : st.engine.events.toList = e.events.toList ++ [] := by simp [evs]
  refine run_chronicle traceless marked (by simp [none]) (grows.logs tbs) same ?_ ran
  rw [State.named, none]
  exact .nil .nil

theorem force_chronicle (settled : e.store.Settled) {th : Option Address}
    (forced : force cfg n th e = (r, aft)) :
    Chronicle cfg.host e (forceTrail cfg n th e) r aft := by
  rcases force_cases th e with ⟨a, held, rfl, there, unforced, runs⟩ |
    ⟨_, _, s, evs, _, _, cycle, answers⟩
  · rw [(runs cfg n).1] at forced
    rw [(runs cfg n).2]
    have st0 := (@Underway.start (askFor a e.store) settled (by simp [askFor])).marked
    have marked := st0.move (move_entered cfg.host there unforced)
    have pending : (entered a held e).pending = [a] := rfl
    have x : (entered a held e).engine.store.name? a = held.name := by
      simp [entered, Store.name?, there]
    refine run_chronicle traceless marked (by simp [pending]) ?_
      (Engine.events_begin _ _ _) ?_ forced
    · simpa [entered] using Store.logs_begin there unforced
    · rw [State.named, pending, List.filterMap_cons, x]
      cases held.name with
      | none => exact .nil .nil
      | some x => exact .cons .nil (.nil .nil)
  · cases (answers cfg n).1.symm.trans forced
    rw [(answers cfg n).2]
    refine .still (s ▸ .refl _) evs (s ▸ settled) fun cause tr failed => ?_
    obtain ⟨a, _, forcing, _⟩ := cycle cause tr failed
    exact absurd forcing (settled a)

theorem traced_chronicle :
    Traced cfg fun ac trail => ∀ {e aft r}, e.store.Settled →
      ac e = (r, aft) → Chronicle cfg.host e (trail e) r aft where
  still unused := by
    intro e aft r settled perf
    rw [unused.1] at perf
    cases perf
    exact .still (.refl _) rfl settled fun cause tr failed => absurd failed (unused.2 cause tr)
  bind fst rest := by
    intro e aft r settled perf
    rcases Action.bind_cases perf with ⟨stop, rfl, stopped⟩ | ⟨v, mid, began, late⟩
    · simp only [Eval.passing, stopped, List.append_nil]
      exact (fst settled stopped).error
    · simp only [Eval.passing, began]
      have early := fst settled began
      exact early.append (rest v (early.returned v rfl).2 late)
  counted st0 := by
    intro e aft r settled perf
    rw [countTask_eq] at perf
    cases perf
    refine .still (.refl _) rfl settled fun cause tr failed => ?_
    grind
  opens n p b env us := by
    intro e aft r settled opened
    have added := Store.grows_alloc (e.store.build (.neutral (freshName p us) [])).2
      (e.store.build (.neutral (freshName p us) [])).1
    have grows : e.store.Grows (e.store.withVariable (freshName p us)) := ⟨added.keeps, added.adds⟩
    exact run_chronicle_of_noFrames traceless settled grows rfl rfl
      (fun _ mem => by cases mem) opened
  forces n th := by grind [force_chronicle]

end

end Requests

/-- From an engine in which no thunk is being evaluated, what observers are told about a
request can be completed to matching beginnings and values, and it is complete if the
request is answered.  If it fails, its trace has the labels of just the thunks that it
entered and did not complete: when the evaluation of one of them began, those before it
in the trace were being evaluated.  The beginnings that are not matched are those of the
ones with a name.  The label of a thunk that needs its own value is in the trace, unless the
request ends in a call of the host that raises just this error. -/
theorem Request.events_nest {cfg : Settings} (traceless : Host.Traceless cfg.host)
    {e aft : Engine} (settled : e.store.Settled) {rq : Request}
    (notNumber : ∀ v, rq ≠ .number v) {n : Nat} {r : Except Stop Answer}
    (perf : rq.perform cfg n e = (r, aft)) :
    ∃ told, aft.events.toList = e.events.toList ++ told ∧
      (∃ rest, Nested (told ++ rest)) ∧ (∀ ans, r = .ok ans → Nested told) ∧
      ∀ cause tr, r = .error (.raised (.evaluation cause tr)) →
        ∃ l : List Address, l.Nodup ∧
          (∀ a, a ∈ l ↔
            (∃ st ∈ rq.trail cfg n e, .update a ∈ st.stack) ∧
              a ∉ rq.completions cfg n e) ∧
          (∀ out a inn, l = out ++ a :: inn →
            ∃ st ∈ rq.trail cfg n e, st.pending = out ++ [a]) ∧
          (tr.map some = l.map fun a =>
            (aft.store.thunk? a).map Thunk.label) ∧
          Unmatched (l.filterMap aft.store.name?) told ∧
          ∀ lb, cause = .cyclic lb → lb ∈ tr ∨
            ∃ st ∈ (rq.trail cfg n e).getLast?,
              st.HostRaises cfg.host (.evaluation (.cyclic lb) []) := by
  have chronicle : Chronicle cfg.host e (rq.trail cfg n e) r aft := by
    cases rq with
    | evaluate t env =>
      cases perf
      exact (run_chronicle_of_noFrames traceless settled (.refl _) rfl rfl (by simp) rfl).map
    | force th =>
      cases perf
      exact (force_chronicle traceless settled rfl).map
    | apply f args =>
      cases perf
      exact (run_chronicle_of_noFrames traceless settled (.refl _) rfl rfl (by simp) rfl).map
    | normalize v =>
      cases perf
      exact ((traced_chronicle traceless).performAll _ _ _ _ settled rfl).map
    | number v => exact absurd rfl (notNumber v)
  obtain ⟨told, evs, unmatched⟩ := chronicle.told
  refine ⟨told, evs, unmatched.closes, fun ans returned => ?_, fun cause tr failed => ?_⟩
  · rw [(chronicle.returned ans returned).1] at unmatched
    exact unmatched.nested
  · obtain ⟨lbs, cyclic⟩ := chronicle.traced cause tr failed
    refine ⟨_, chronicle.nodup, fun a => ?_, chronicle.began, lbs, unmatched, cyclic⟩
    simp only [← State.mem_pending]
    exact chronicle.left a

/-- A thunk named `A` that needs a thunk without a name, which needs the value of `A`. -/
def looping : Engine :=
  .fresh ⟨#[.suspended (.var "b") (.root 0) (some "A"), .suspended (.var "a") (.root 0) none],
    #[[("a", some 0), ("b", some 1)]], 0⟩

/-- The beginning of `A` is not matched, and `A` is in the trace. -/
theorem events_nest_at_loop : Host.Traceless countingHost ∧ looping.store.Settled ∧
    ∃ tr aft, (Request.force (some 0)).perform ⟨countingHost, some 40⟩ 9 looping =
        (.error (.raised (.evaluation (.cyclic "A") tr)), aft) ∧
      ∃ told, aft.events.toList = looping.events.toList ++ told ∧
        (∃ rest, Nested (told ++ rest)) ∧ tr.length = 2 ∧ "A" ∈ tr := by
  have traceless : Host.Traceless countingHost := by
    intro x v cause tr failed
    unfold countingHost at failed
    split at failed
    · cases failed
    · cases failed
      rfl
  have settled : looping.store.Settled := by
    intro a
    match a with
    | 0 => decide
    | 1 => decide
    | a + 2 => simp [looping, Engine.fresh, Store.phase?, Store.thunk?]
  obtain ⟨tr, aft, perf, two⟩ : ∃ tr aft,
      (Request.force (some 0)).perform ⟨countingHost, some 40⟩ 9 looping =
        (.error (.raised (.evaluation (.cyclic "A") tr)), aft) ∧ tr.length = 2 :=
    ⟨_, _, rfl, rfl⟩
  obtain ⟨told, evs, closes, _, failed⟩ := Request.events_nest traceless settled (by simp) perf
  obtain ⟨_, _, _, _, _, _, cyclic⟩ := failed _ _ rfl
  refine ⟨traceless, settled, tr, aft, perf, told, evs, closes, two,
    (cyclic "A" rfl).resolve_right ?_⟩
  rintro ⟨st, _, _, x, _, _, raised⟩
  have counted : countingHost x st.value = _ := raised
  unfold countingHost at counted
  split at counted
  · cases counted
  · cases counted

/-- The host says of a thunk that there is not that it needs its own value. -/
def ghostHost : Host := fun _ _ => .error (.evaluation (.cyclic "ghost") [])

/-- A place for a value that is there already. -/
def supplied : Engine := .fresh ⟨#[.evaluated (.given (.constant .nothing)) none], #[], 0⟩

/-- The error that a host makes up has an empty trace. -/
theorem ghost_untraced : Host.Traceless ghostHost ∧ supplied.store.Settled ∧
    ((Request.apply (.given (.primitive "p")) [some 0]).perform ⟨ghostHost, none⟩ 9 supplied).1 =
      .error (.raised (.evaluation (.cyclic "ghost") [])) := by
  refine ⟨?_, ?_, rfl⟩
  · intro x v cause tr failed
    cases failed
    rfl
  · intro a
    match a with
    | 0 => decide
    | a + 1 => simp [supplied, Engine.fresh, Store.phase?, Store.thunk?]

end CallByNeed
