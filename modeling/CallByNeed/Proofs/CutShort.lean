import CallByNeed.Proofs.Completions

/-!
# Runs that are cut short

A bound on the steps does not change what a run does, it only cuts it short.  A run
under a bound passes through the states of the run without a bound, up to the one
in which the bound is reached (`trail_bounded`), and it is given up there
(`run_bounded`).

A run that is given up names the thunks that it was evaluating, so the bound is
reported as such if and only if the labels of all thunks that can be evaluated can be
shown (`Store.Nameable`).
-/

namespace CallByNeed

variable {oc : Except Stop Value × Engine}

/-! ### Runs under a bound -/

theorem Settings.exceeded_bounded (host : Host) {bound sts : Nat} (positive : 1 ≤ bound) :
    (Settings.mk host (some (bound : Int))).limit.exceeded sts = true ↔ bound < sts := by
  simp only [Limit.exceeded, ne_eq, Bool.and_eq_true, decide_eq_true_eq]
  omega

theorem Settings.within_bounded (host : Host) {bound : Nat} (positive : 1 ≤ bound)
    (less : taken < bound) :
    (Settings.mk host (some (bound : Int))).limit.exceeded (taken + 1) = false := by
  rw [← Bool.not_eq_true, Settings.exceeded_bounded host positive]
  omega

section Runs

variable {cfg : Settings} {host : Host} {taken bound : Nat} {st0 last passed : State}
  {l : List State}

/-- A run follows a course as far as its bound allows. -/
theorem Course.run (course : Course cfg.host st0 l last)
    (within : cfg.limit.exceeded (taken + l.length) = false) (n : Nat) :
    CallByNeed.run cfg (n + l.length) taken st0 =
        CallByNeed.run cfg n (taken + l.length) last ∧
      trail cfg (n + l.length) taken st0 = l ++ trail cfg n (taken + l.length) last := by
  induction course generalizing n with
  | refl => exact ⟨rfl, rfl⟩
  | @snoc l st next _ stepped ih =>
    rw [List.length_append, List.length_singleton, ← Nat.add_assoc] at within
    obtain ⟨runs, passes⟩ := ih (Limit.exceeded_mono (Nat.le_succ _) within) (n + 1)
    rw [List.length_append, List.length_singleton, Nat.add_comm l.length 1, ← Nat.add_assoc,
      runs, passes, run_moved within stepped, ← Nat.add_assoc, Nat.add_right_comm taken 1]
    simp_all [trail]

theorem Course.take (course : Course host st0 l last)
    (reached : (l ++ [last])[bound]? = some passed) : Course host st0 (l.take bound) passed := by
  induction course generalizing passed with
  | refl =>
    obtain ⟨rfl, rfl⟩ : bound = 0 ∧ st0 = passed := by grind
    exact .refl
  | @snoc l st next course stepped ih =>
    rcases Nat.lt_or_ge bound (l ++ [st]).length with less | ends
    · grind
    · rw [List.getElem?_append_right ends, List.getElem?_singleton] at reached
      obtain ⟨_, rfl⟩ : bound - (l ++ [st]).length = 0 ∧ next = passed := by
        simpa using reached
      rw [List.take_of_length_le ends]
      exact .snoc course stepped

theorem Ends.run (ending : Ends cfg taken last oc) (n : Nat) :
    CallByNeed.run cfg (n + 1) taken last = oc ∧
      oc.2.tally.steps = last.engine.tally.steps + 1 := by
  have accounts := State.step_spec cfg.host last.counted
  cases ending with
  | limited exc =>
    exact ⟨run_exceeded exc n last, by rw [State.abandon_tally]; rfl⟩
  | answered within stepped =>
    rw [stepped] at accounts
    obtain ⟨_, _, _, same⟩ := accounts
    exact ⟨run_answered within stepped n, by rw [same]; rfl⟩
  | stopped within stepped =>
    rw [stepped] at accounts
    exact ⟨run_stopped within stepped n, by rw [State.abandon_tally, accounts.2.1]; rfl⟩

theorem Ends.ended (ending : Ends cfg taken last oc) : oc.1 ≠ .error .outOfFuel := by
  cases ending with
  | limited =>
    obtain ⟨_, stopped⟩ := last.counted.abandon_fst (.evaluation (.stepLimit cfg.limit.bound) [])
    simp [stopped]
  | answered => simp
  | @stopped er failed =>
    obtain ⟨_, stopped⟩ := failed.abandon_fst er
    simp [stopped]

/-- A run without a bound ends as it does with a bound that it does not reach. -/
theorem Ends.bounded (ending : Ends ⟨host, none⟩ taken last oc) (positive : 1 ≤ bound)
    (less : taken < bound) : Ends ⟨host, some bound⟩ taken last oc := by
  have within := Settings.within_bounded host positive less
  cases ending with
  | limited exc => cases exc
  | answered _ stepped => exact .answered within stepped
  | stopped _ stepped => exact .stopped within stepped

/-- A run is given up in the state in which its bound is reached. -/
theorem Course.run_bounded (course : Course host st0 l last) (positive : 1 ≤ bound)
    (reached : (l ++ [last])[bound]? = some passed) (enough : bound < n) :
    CallByNeed.run ⟨host, some bound⟩ n 0 st0 =
        passed.counted.abandon (.evaluation (.stepLimit bound) []) ∧
      trail ⟨host, some bound⟩ n 0 st0 = l.take bound ++ [passed] := by
  have most : bound ≤ l.length := by grind
  have taken : (l.take bound).length = bound := List.length_take_of_le most
  have exc : (Settings.mk host (some (bound : Int))).limit.exceeded (bound + 1) = true :=
    (Settings.exceeded_bounded host positive).mpr (Nat.lt_succ_self bound)
  have within : (Settings.mk host (some (bound : Int))).limit.exceeded
      (0 + (l.take bound).length) = false := by
    rw [taken, Nat.zero_add, ← Bool.not_eq_true, Settings.exceeded_bounded host positive]
    simp
  obtain ⟨runs, passes⟩ := (course.take reached).run within (n - (bound + 1) + 1)
  rw [taken, show n - (bound + 1) + 1 + bound = n by omega, Nat.zero_add] at runs passes
  rw [runs, passes, run_exceeded exc]
  exact ⟨rfl, by simp [trail, exc]⟩

end Runs

/-! ### Values that are kept -/

/-- The thunk that the next transition gives its value, with the value. -/
def Configuration.keeping? (c : Configuration) : Option (Address × Value) :=
  c.completing?.map fun a => (a, c.value)

/-- The thunks that are given their values when states are left, in order. -/
def memoized (l : List State) : List (Address × Value) :=
  l.filterMap fun st => st.configuration.keeping?

/-- The thunks that a request gives their values, in order. -/
def Request.memoized (cfg : Settings) (n : Nat) (rq : Request) (e : Engine) :
    List (Address × Value) := CallByNeed.memoized (rq.trail cfg n e).dropLast

section Kept

variable {host : Host} {st0 last : State} {l : List State} {a : Address} {v : Value}

/-- What is kept on a course is there at its end. -/
theorem Course.kept (course : Course host st0 l last) (awaits : st0.configuration.Awaits)
    (mem : (a, v) ∈ memoized l) :
    ∃ th, last.engine.store.thunk? a = some th ∧ th.phase = .forced ∧ th.content = .value v := by
  induction course with
  | refl => cases mem
  | @snoc l st next course stepped ih =>
    have accounts := State.step_spec host st.counted
    rw [stepped] at accounts
    have here : st.configuration.Awaits := course.moves.1.preserves _ awaits
      fun _ _ awaits move => awaits.move move
    rw [memoized, List.filterMap_append] at mem
    rcases List.mem_append.mp mem with ely | now
    · obtain ⟨th, held, forced, ct⟩ := ih ely
      exact ⟨th, (accounts.1.logs here).forced held forced, forced, ct⟩
    · obtain ⟨_, same, keeping⟩ := List.mem_filterMap.mp now
      cases List.mem_singleton.mp same
      obtain ⟨_, completing, same⟩ := Option.map_eq_some_iff.mp keeping
      cases same
      obtain ⟨th, held⟩ := accounts.1.completed here completing
      exact ⟨th.memoize st.value, held, rfl, rfl⟩

/-- What a course keeps is what those thunks hold afterwards that had no value before. -/
theorem Course.kept_iff (course : Course host st0 l last) (awaits : st0.configuration.Awaits)
    {bef aft : Store} (early : bef.Logs [] st0.engine.store) (late : last.engine.store.Logs [] aft)
    {th : Thunk} (held : bef.thunk? a = some th) (unforced : th.phase ≠ .forced) :
    (a, v) ∈ memoized l ↔ aft.thunk? a = some (th.memoize v) := by
  obtain ⟨later, heldLater, x, _, _, completed⟩ :=
    ((early.trans (course.logs awaits)).trans late).held held
  have there : ∀ {v}, (a, v) ∈ memoized l → later = th.memoize v := by
    intro v mem
    obtain ⟨kept, heldKept, phase, ct⟩ := course.kept awaits mem
    cases heldLater.symm.trans (late.forced heldKept phase)
    obtain ⟨_, _, _⟩ := later
    cases x
    cases phase
    cases ct
    rfl
  constructor
  · grind
  · intro kept
    cases heldLater.symm.trans kept
    have mem := (completed rfl).resolve_left unforced
    simp only [List.nil_append, List.append_nil, List.mem_filterMap] at mem
    obtain ⟨st, mem, completing⟩ := mem
    have keeping : (a, st.value) ∈ memoized l :=
      List.mem_filterMap.mpr ⟨st, mem, by simp [Configuration.keeping?, completing]; rfl⟩
    cases there keeping
    exact keeping

end Kept

/-! ### Labels -/

/-- The labels of all thunks that can be evaluated can be shown. -/
def Store.Nameable (s : Store) : Prop :=
  ∀ a th, s.thunk? a = some th → th.phase = .unforced → th.isWritable

/-- What is waited for can be named, and so can what may be evaluated next. -/
structure Configuration.Labelled (c : Configuration) : Prop where
  awaits : c.Awaits
  nameable : c.store.Nameable
  named : ∀ a ∈ updates c.stack, ∀ th, c.store.thunk? a = some th → th.isWritable

namespace Configuration.Labelled

variable {host : Host} {bef aft : Configuration}

theorem of_noFrames (nameable : bef.store.Nameable) (noFrames : ∀ a, .update a ∉ bef.stack) :
    bef.Labelled where
  awaits := .of_noFrames noFrames
  nameable := nameable
  named a mem := absurd (mem_updates.mp mem) (noFrames a)

theorem move (labelled : bef.Labelled) (move : Move host bef aft) : aft.Labelled := by
  refine ⟨labelled.awaits.move move, ?_, ?_⟩
  · intro a th held unforced
    rcases move.effect with ⟨begun, former, heldBefore, _, changed, _⟩ | ⟨kept, v, changed, _⟩ |
      ⟨grows, _⟩
    · rw [changed, Store.thunk?_update] at held
      split at held
      · obtain ⟨o, _, rfl⟩ := Option.map_eq_some_iff.mp held
        cases unforced
      · exact labelled.nameable a th held unforced
    · rw [changed, Store.thunk?_update] at held
      split at held
      · obtain ⟨o, _, rfl⟩ := Option.map_eq_some_iff.mp held
        cases unforced
      · exact labelled.nameable a th held unforced
    · rcases grows.adds held with old | ⟨t, env, rfl⟩ | ⟨v, rfl⟩
      · exact labelled.nameable a th old unforced
      · rfl
      · cases unforced
  · intro a mem th held
    rcases move.effect with ⟨begun, former, heldBefore, unforced, changed, fs⟩ |
      ⟨kept, v, changed, fs⟩ | ⟨grows, fs⟩
    · rw [changed, Store.thunk?_update] at held
      split at held
      · rename_i same
        subst same
        rw [heldBefore] at held
        cases held
        exact labelled.nameable begun former heldBefore unforced
      · rename_i differs
        rw [fs, List.mem_cons] at mem
        exact labelled.named a (mem.resolve_left (Ne.symm differs)) th held
    · have nodup := labelled.awaits.nodup
      rw [fs, List.nodup_cons] at nodup
      have differs : kept ≠ a := by grind
      rw [changed, Store.thunk?_update, if_neg differs] at held
      exact labelled.named a (by simp [fs, mem]) th held
    · rw [fs] at mem
      obtain ⟨former, heldBefore, _⟩ := Option.map_eq_some_iff.mp (labelled.awaits.begun a mem)
      cases (grows.keeps heldBefore).symm.trans held
      exact labelled.named a mem _ heldBefore

/-- A run that is given up here can name what it waits for. -/
theorem isTraceable {st : State} (labelled : st.configuration.Labelled) :
    st.counted.isTraceable := by
  refine State.isTraceable_of_pending fun a mem th held => ?_
  exact labelled.named a (State.mem_pending_iff_updates.mp mem) th held

end Configuration.Labelled

/-! ### Requests for a value -/

/-- Whether a request asks for a value, which takes one run at most. -/
def Request.isSingle : Request → Bool
  | .evaluate _ _ => true
  | .force _ => true
  | .apply _ _ => true
  | .normalize _ => false
  | .number _ => false

/-- A request that is a run from a state. -/
structure Request.StartsIn (rq : Request) (e : Engine) (st : State) : Prop where
  performs : ∀ cfg n, rq.perform cfg n e =
    ((run cfg n 0 st).1.map Answer.value, (run cfg n 0 st).2)
  passes : ∀ cfg n, rq.trail cfg n e = CallByNeed.trail cfg n 0 st
  steps : st.engine.tally.steps = e.tally.steps
  logs : e.store.Logs [] st.engine.store
  reached : ∀ host, ∃ st0 k, st0.store = e.store ∧
    (∀ a, .update a ∉ st0.stack) ∧ Moves host k st0 st.configuration

/-- A request that is answered without a run. -/
structure Request.AnsweredBy (rq : Request) (e : Engine)
    (oc : Except Stop Answer × Engine) : Prop where
  performs : ∀ cfg n, rq.perform cfg n e = oc
  passes : ∀ cfg n, rq.trail cfg n e = []
  steps : oc.2.tally.steps = e.tally.steps
  ended : oc.1 ≠ .error .outOfFuel

namespace Request

variable {host : Host} {rq : Request} {e : Engine} {st : State}

theorem StartsIn.awaits (starts : rq.StartsIn e st) : st.configuration.Awaits := by
  obtain ⟨st0, k, _, noFrames, moves⟩ := starts.reached fun _ v => .ok v
  exact moves.preserves _ (.of_noFrames noFrames) fun _ _ awaits move => awaits.move move

theorem StartsIn.labelled (starts : rq.StartsIn e st) (nameable : e.store.Nameable) :
    st.configuration.Labelled := by
  obtain ⟨st0, k, same, noFrames, moves⟩ := starts.reached fun _ v => .ok v
  exact moves.preserves _ (.of_noFrames (same ▸ nameable) noFrames)
    fun _ _ labelled move => labelled.move move

theorem startsIn_force {th : Thunk} (held : e.store.thunk? a = some th)
    (unforced : th.phase = .unforced) : (Request.force (some a)).StartsIn e (entered a th e) where
  performs cfg n := by grind [perform, force_of_unforced]
  passes cfg n := by
    simp [trail, forceTrail, held, unforced]
  steps := by simp [entered]
  logs := by
    simp only [entered, Engine.store_begin]
    exact Store.logs_begin held unforced
  reached host := ⟨askFor a e.store, 1, rfl, by simp [askFor],
    .step (move_entered host held unforced) (.refl _)⟩

/-- A request for a value is a run, or it is answered at once. -/
theorem starts_or_answered (single : rq.isSingle) (e : Engine) :
    (∃ st, rq.StartsIn e st) ∨ ∃ oc, rq.AnsweredBy e oc := by
  cases rq with
  | evaluate t env =>
    exact .inl ⟨⟨some (t, env), Value.absent, [], e⟩, fun _ _ => rfl, fun _ _ => rfl, rfl,
      .refl _, fun _ => ⟨_, 0, rfl, by simp [State.configuration], .refl _⟩⟩
  | apply f args =>
    exact .inl ⟨⟨none, f, args.map .argument, e⟩, fun _ _ => rfl, fun _ _ => rfl,
      rfl, .refl _, fun _ => ⟨_, 0, rfl, by simp [State.configuration], .refl _⟩⟩
  | normalize v => cases single
  | number v => cases single
  | force pl =>
    rcases force_cases pl e with ⟨a, th, rfl, held, unforced, _⟩ |
      ⟨r, aft, _, _, sts, ended, _, answers⟩
    · exact .inl ⟨_, startsIn_force held unforced⟩
    · refine .inr ⟨(r.map .value, aft), fun cfg n => ?_, fun cfg n => (answers cfg n).2, sts, ?_⟩
      · grind [perform]
      · cases r with
        | ok v => simp [Except.map]
        | error stop => simpa [Except.map] using ended

/-- A request stops at a bound: in the state that it reaches without one by that many
transitions, with one more step counted and its thunks put back.  Until then it has given
their values to the same thunks. -/
structure StopsAt (host : Host) (n : Nat) (e : Engine) (rq : Request) (bound : Nat)
    (passed : State) : Prop where
  reached : (rq.trail ⟨host, none⟩ n e)[bound]? = some passed
  limited : rq.perform ⟨host, some bound⟩ n e =
    (.error (.raised (.evaluation (.stepLimit bound) passed.trace)), passed.counted.unwind)
  steps : passed.counted.unwind.tally.steps = e.tally.steps + (bound + 1)
  memoized : rq.memoized ⟨host, some bound⟩ n e =
    CallByNeed.memoized ((rq.trail ⟨host, none⟩ n e).take bound)
  kept : ∀ a th v, e.store.thunk? a = some th →
    th.phase ≠ .forced →
    ((a, v) ∈ rq.memoized ⟨host, some bound⟩ n e ↔
      passed.counted.unwind.store.thunk? a = some (th.memoize v))

/-- A bound on the steps only cuts a request short. -/
structure CutShort (host : Host) (e : Engine) (rq : Request) : Prop where
  /-- A bound that is not reached changes nothing. -/
  unreached : ∀ n r aft, rq.perform ⟨host, none⟩ n e = (r, aft) → r ≠ .error .outOfFuel →
    ∀ bound : Nat, max (aft.tally.steps - e.tally.steps) 1 ≤ bound →
      rq.perform ⟨host, some bound⟩ n e = (r, aft)
  /-- One that is smaller than the number of steps is reached. -/
  reached : ∀ n r aft, rq.perform ⟨host, none⟩ n e = (r, aft) → r ≠ .error .outOfFuel →
    ∀ bound : Nat, 1 ≤ bound → bound < aft.tally.steps - e.tally.steps →
      ∃ passed, rq.StopsAt host n e bound passed
  /-- A request that does not end reaches every bound. -/
  endless : (∀ n, (rq.perform ⟨host, none⟩ n e).1 = .error .outOfFuel) →
    ∀ bound : Nat, 1 ≤ bound → ∀ n, bound < n →
      ∃ passed, rq.StopsAt host n e bound passed

theorem StartsIn.stopsAt (starts : rq.StartsIn e st) (nameable : e.store.Nameable) {l : List State}
    {last : State} {bound n : Nat} (course : Course host st l last)
    (passes : CallByNeed.trail ⟨host, none⟩ n 0 st = l ++ [last]) (positive : 1 ≤ bound)
    (most : bound ≤ l.length) (enough : bound < n) :
    ∃ passed, rq.StopsAt host n e bound passed := by
  obtain ⟨passed, reached⟩ : ∃ passed, (l ++ [last])[bound]? = some passed :=
    ⟨_, List.getElem?_eq_getElem (by simpa using Nat.lt_succ_of_le most)⟩
  obtain ⟨stopped, cut⟩ := course.run_bounded positive reached enough
  have short := course.take reached
  have labelled := short.moves.1.preserves _ (starts.labelled nameable)
    fun _ _ labelled move => labelled.move move
  rw [State.abandon_of_traceable labelled.isTraceable] at stopped
  have kept : rq.memoized ⟨host, some bound⟩ n e = CallByNeed.memoized (l.take bound) := by
    rw [Request.memoized, starts.passes, cut, List.dropLast_concat]
  refine ⟨passed, ?_, ?_, ?_, ?_, ?_⟩
  · rw [starts.passes, passes, reached]
  · rw [starts.performs, stopped]
    rfl
  · rw [State.unwind_tally, ← starts.steps, ← Nat.add_assoc]
    have sts := short.moves.2
    rw [List.length_take_of_le most] at sts
    exact congrArg (· + 1) sts
  · rw [kept, starts.passes, passes, List.take_append_of_le_length most]
  · intro a th v held unforced
    rw [kept]
    exact short.kept_iff starts.awaits starts.logs passed.counted.logs_unwind held unforced

theorem StartsIn.cutShort (starts : rq.StartsIn e st) (nameable : e.store.Nameable) :
    rq.CutShort host e := by
  -- what the run without a bound does, if it ends
  have ended : ∀ {n r aft}, rq.perform ⟨host, none⟩ n e = (r, aft) → r ≠ .error .outOfFuel →
      ∃ l last, Course host st l last ∧
        CallByNeed.trail ⟨host, none⟩ n 0 st = l ++ [last] ∧ l.length < n ∧
        Ends ⟨host, none⟩ l.length last (run ⟨host, none⟩ n 0 st) ∧
        aft.tally.steps - e.tally.steps = l.length + 1 := by
    intro n r aft perf ended
    rw [starts.performs] at perf
    obtain ⟨same, rfl⟩ := Prod.mk.inj perf
    obtain ⟨l, last, course, passes, _, ⟨_, exh⟩ | ⟨enough, ending⟩⟩ :=
      run_course ⟨host, none⟩ n 0 st
    · rw [exh] at same
      exact absurd same.symm ended
    · rw [Nat.zero_add] at ending
      refine ⟨l, last, course, passes, enough, ending, ?_⟩
      rw [(ending.run 0).2, course.moves.2, starts.steps]
      omega
  constructor
  · intro n r aft perf finished bound allows
    obtain ⟨l, last, course, _, enough, ending, sts⟩ := ended perf finished
    have positive : 1 ≤ bound := le_trans (le_max_right _ _) allows
    have less : l.length < bound := by omega
    have within := Limit.exceeded_mono (Nat.le_succ _) (Settings.within_bounded host positive less)
    have bounded := (Course.run course (by rwa [Nat.zero_add]) (n - (l.length + 1) + 1)).1
    rw [Nat.zero_add, ((ending.bounded positive less).run _).1,
      show n - (l.length + 1) + 1 + l.length = n by omega] at bounded
    rw [starts.performs, bounded, ← starts.performs, perf]
  · intro n r aft perf finished bound positive fewer
    obtain ⟨l, last, course, passes, enough, _, sts⟩ := ended perf finished
    exact starts.stopsAt nameable course passes positive (by omega) (by omega)
  · intro exh bound positive n enough
    obtain ⟨l, last, course, passes, _, ⟨us, _⟩ | ⟨_, ending⟩⟩ := run_course ⟨host, none⟩ n 0 st
    · exact starts.stopsAt nameable course passes positive (by omega) enough
    · have running := exh n
      rw [starts.performs] at running
      cases oc : (run ⟨host, none⟩ n 0 st).1 with
      | ok v => simp [oc, Except.map] at running
      | error stop =>
        rw [oc] at running
        cases running
        exact absurd oc ending.ended

theorem AnsweredBy.cutShort {oc : Except Stop Answer × Engine} (answered : rq.AnsweredBy e oc) :
    rq.CutShort host e where
  unreached n r aft perf ended bound allows := by
    rw [answered.performs] at perf ⊢
    exact perf
  reached n r aft perf ended bound positive fewer := by
    rw [answered.performs] at perf
    grind [steps]
  endless exh := by
    have running := exh 0
    rw [answered.performs] at running
    exact absurd running answered.ended

/-- The state in which the value of a thunk is asked for by a name. -/
def referenceTo (a : Address) (e : Engine) : State :=
  ⟨some (.var "", .layer "" (some a) (.root 0)), Value.absent, [], e⟩

/-- A reference to a thunk without a term takes three steps, and the second one is taken
while the thunk is being evaluated. -/
theorem course_referenceTo (host : Host) {th : Thunk}
    (held : e.store.thunk? a = some th) (unforced : th.phase = .unforced)
    (uncoded : th.code? = none) :
    ∃ last, Course host (referenceTo a e) [referenceTo a e, entered a th e.countStep] last ∧
      last.counted.step host = .returned last.value last.counted.engine := by
  have asked : (referenceTo a e).counted.step host = .moved (entered a th e.countStep) := by
    simp [referenceTo, State.step, State.evaluate, State.counted, Store.find, State.enter, held,
      unforced, entered]
  refine ⟨⟨none, Value.absent, [], (entered a th e.countStep).counted.engine.memoize
    a Value.absent⟩, .snoc (.snoc .refl asked) ?_, rfl⟩
  simp only [State.step, State.counted, entered, uncoded]

/-- Where a bound only cuts short what is asked for, all that can be evaluated can be named. -/
theorem nameable_of_cutShort (host : Host)
    (cuts : ∀ rq : Request, rq.isSingle → rq.CutShort host e) : e.store.Nameable := by
  intro a th held unforced
  by_contra unwritable
  rw [Bool.not_eq_true] at unwritable
  have uncoded : th.code? = none := by
    obtain ⟨x, ct, phase⟩ := th
    cases ct with
    | code t env => cases x <;> cases unwritable
    | value v => rfl
  obtain ⟨last, course, answers⟩ := course_referenceTo host held unforced uncoded
  have ran := (@Course.run ⟨host, none⟩ 0 _ _ _ course rfl 1).1
  rw [run_answered rfl answers] at ran
  have perf : (Request.evaluate (.var "") (.layer "" (some a) (.root 0))).perform
      ⟨host, none⟩ 3 e = (.ok (.value last.value), last.counted.engine) :=
    congrArg (fun oc => (oc.1.map Answer.value, oc.2)) ran
  have sts : last.counted.engine.tally.steps = e.tally.steps + 2 + 1 :=
    congrArg (· + 1) course.moves.2
  obtain ⟨passed, stops⟩ := (cuts _ rfl).reached 3 _ _ perf (by simp) 1 (le_refl 1) (by omega)
  -- the bound is reached while the label of the thunk is needed
  have limited := (course.run_bounded (le_refl 1) rfl (by omega : 1 < 3)).1
  have begun : (entered a th e.countStep).counted.engine.store.thunk? a = some th.begin := by
    simp [entered, State.counted, held]
  rw [State.abandon_of_unwritable (State.mem_pending.mpr (.head _)) begun
    (by simpa [Thunk.isWritable] using unwritable)] at limited
  have given := stops.limited.symm.trans
    (congrArg (fun oc => (oc.1.map Answer.value, oc.2)) limited)
  cases given

/-- A bound on the steps only cuts a request for a value short, whatever the request and its
host, if and only if the labels of all thunks that can be evaluated can be shown. -/
theorem cutShort_iff_nameable (e : Engine) :
    (∀ (host : Host) (rq : Request), rq.isSingle → rq.CutShort host e) ↔
      e.store.Nameable := by
  constructor
  · intro cuts
    exact nameable_of_cutShort (fun _ v => .ok v) (cuts _)
  · intro nameable host rq single
    rcases starts_or_answered single e with ⟨st, starts⟩ | ⟨oc, answered⟩
    · exact starts.cutShort nameable
    · exact answered.cutShort

/-- A bound of one step is not reported as such, at a request that takes four of them. -/
theorem force_reference_not_cut_short :
    (∃ v aft, (Request.force (some 1)).perform ⟨fun _ v => .ok v, none⟩ 4
        (referring (.int (Nat.pow 10 Number.mostDigits : Nat))) = (.ok v, aft) ∧
      aft.tally.steps =
        (referring (.int (Nat.pow 10 Number.mostDigits : Nat))).tally.steps + 4) ∧
    ∃ aft, (Request.force (some 1)).perform ⟨fun _ v => .ok v, some 1⟩ 2
        (referring (.int (Nat.pow 10 Number.mostDigits : Nat))) =
          (.error (.raised .unwritable), aft) := by
  refine ⟨⟨_, _, rfl, rfl⟩, ?_⟩
  obtain ⟨aft, perf, _⟩ := force_referring unwritable_power
  grind

end Request

end CallByNeed
