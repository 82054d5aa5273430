import CallByNeed.Proofs.Requests

/-!
# Thunks whose evaluation has begun

The thunks that are being evaluated are those with a frame to update on the
stack, each with one frame.  A request that starts where no thunk is being
evaluated ends there too, provided that the labels of its thunks can be shown:
a label that cannot be shown keeps a failed run from putting back its thunks.
-/

namespace CallByNeed

/-- The thunks that a stack waits to update, innermost first. -/
def updates (k : List Frame) : List Address := k.filterMap Frame.updated?

@[simp] theorem updates_nil : updates [] = [] := rfl

@[simp] theorem updates_argument (th : Option Address) (k : List Frame) :
    updates (.argument th :: k) = updates k := rfl

@[simp] theorem updates_update (a : Address) (k : List Frame) :
    updates (.update a :: k) = a :: updates k := rfl

@[simp] theorem updates_call (prim : Name) (k : List Frame) :
    updates (.call prim :: k) = updates k := rfl

theorem count_update (k : List Frame) (a : Address) :
    k.count (.update a) = (updates k).count a := by
  induction k with
  | nil => rfl
  | cons fr k ih =>
    cases fr with
    | update o => grind [updates_update]
    | argument th => simpa using ih
    | call prim => simpa using ih

variable {a : Address} {st passed : State} {host : Host}
  {bef aft c : Configuration} {s : Store} {e : Engine}

theorem mem_updates {k : List Frame} : a ∈ updates k ↔ .update a ∈ k := by
  rw [← List.count_pos_iff, ← count_update, List.count_pos_iff]

theorem State.mem_pending_iff_updates : a ∈ st.pending ↔ a ∈ updates st.stack := by
  rw [State.mem_pending, mem_updates]

namespace Store

/-- Thunks may have been added, and the others are as they were. -/
structure Grows (bef aft : Store) : Prop where
  keeps : ∀ {a th}, bef.thunk? a = some th → aft.thunk? a = some th
  adds : ∀ {a th}, aft.thunk? a = some th →
    bef.thunk? a = some th ∨
      (∃ t env, th = .suspended t env none) ∨ ∃ v, th = .evaluated v none

theorem Grows.refl (s : Store) : Grows s s := ⟨id, .inl⟩

theorem grows_build (s : Store) (form : Form) : Grows s (s.build form).2 := ⟨id, .inl⟩

theorem grows_alloc (s : Store) (v : Value) : Grows s (s.alloc (.evaluated v none)).2 := by
  refine ⟨fun held => thunk?_alloc_of_some held _, fun {a th} held => ?_⟩
  grind [thunk?_alloc]

theorem grows_delay (s : Store) (t : Term) (env : Env) : Grows s (s.delay t env).2 := by
  refine ⟨fun held => thunk?_delay held t env, fun {a th} held => ?_⟩
  cases old : s.thunk? a with
  | none =>
    rcases delay_thunk?_new held old with suspended | evd
    · grind
    simp_all
  | some o =>
    rw [thunk?_delay old] at held
    exact .inl held

end Store

/-- A move begins an evaluation, keeps the value of one, or leaves all thunks
and their frames as they were. -/
theorem Move.effect (move : Move host bef aft) :
    (∃ a th, bef.store.thunk? a = some th ∧
        th.phase = .unforced ∧ aft.store = bef.store.update a Thunk.begin ∧
        updates aft.stack = a :: updates bef.stack) ∨
      (∃ a v, aft.store = bef.store.update a (·.memoize v) ∧
        updates bef.stack = a :: updates aft.stack) ∨
      (bef.store.Grows aft.store ∧ updates aft.stack = updates bef.stack) := by
  cases move with
  | enter found held unforced => exact .inl ⟨_, _, held, unforced, rfl, rfl⟩
  | demand prim held unforced => exact .inl ⟨_, _, held, unforced, rfl, rfl⟩
  | memoize => exact .inr (.inl ⟨_, _, rfl, rfl⟩)
  | postpone => exact .inr (.inr ⟨Store.grows_delay _ _ _, rfl⟩)
  | close | extend | reuse | bind | supply | call => exact .inr (.inr ⟨⟨id, .inl⟩, rfl⟩)

/-- The thunks that are being evaluated are those with a frame, and each of
them has one. -/
def Configuration.Marked (c : Configuration) : Prop := ∀ a, (updates c.stack).count a =
    if c.store.phase? a = some .forcing then 1 else 0

namespace Configuration.Marked

theorem forcing_iff (marked : c.Marked) :
    c.store.phase? a = some .forcing ↔ a ∈ updates c.stack := by
  rw [← List.count_pos_iff, marked a]
  split <;> simp_all

theorem of_grows (marked : bef.Marked) (grows : bef.store.Grows aft.store)
    (fs : updates aft.stack = updates bef.stack) : aft.Marked := by
  intro a
  have same : aft.store.phase? a = some .forcing ↔ bef.store.phase? a = some .forcing := by
    simp only [Store.phase?, Option.map_eq_some_iff]
    constructor
    · rintro ⟨th, held, forcing⟩
      rcases grows.adds held with old | ⟨_, _, rfl⟩ | ⟨_, rfl⟩
      · simp_all
      · simp [Thunk.suspended] at forcing
      · simp [Thunk.evaluated] at forcing
    · rintro ⟨th, held, forcing⟩
      exact ⟨th, grows.keeps held, forcing⟩
  rw [fs, marked a]
  simp only [same]

theorem move (marked : bef.Marked) (move : Move host bef aft) : aft.Marked := by
  rcases move.effect with ⟨begun, th, held, unforced, s, fs⟩ | ⟨kept, v, s, fs⟩ | ⟨grows, fs⟩
  · intro a
    rw [fs, s]
    by_cases same : begun = a
    · subst same
      have none : (updates bef.stack).count begun = 0 := by
        rw [marked begun]
        simp [Store.phase?, held, unforced]
      simp [none, Store.phase?, held]
    · rw [List.count_cons_of_ne same, marked a]
      simp [Store.phase?, same]
  · intro a
    have bef := marked a
    rw [fs] at bef
    rw [s]
    by_cases same : kept = a
    · subst same
      rw [List.count_cons_self] at bef
      split at bef
      · simp_all [Store.phase?]
      · omega
    simp_all [Store.phase?]
  · exact marked.of_grows grows fs

end Configuration.Marked

namespace Store

/-- No thunk is being evaluated. -/
def Settled (s : Store) : Prop := ∀ a, s.phase? a ≠ some .forcing

/-- The labels of all thunks that can be evaluated can be shown. -/
def Writable (s : Store) : Prop := ∀ a th, s.thunk? a = some th → th.phase ≠ .forced → th.isWritable

/-- Every thunk is as it was before, or its value was kept in the meantime. -/
def Evolves (bef aft : Store) : Prop :=
  ∀ a th, bef.thunk? a = some th →
    aft.thunk? a = some th ∨ th.phase = .unforced ∧ ∃ v, aft.thunk? a = some (th.memoize v)

theorem Evolves.refl (s : Store) : s.Evolves s := fun _ _ held => .inl held

theorem Evolves.trans {fst snd thd : Store} (early : fst.Evolves snd) (late : snd.Evolves thd) :
    fst.Evolves thd := by
  intro a th held
  rcases early a th held with same | ⟨unforced, v, kept⟩
  · exact late a th same
  · rcases late a _ kept with same | ⟨impossible, _⟩
    · simp_all
    · simp at impossible

theorem Grows.evolves {bef aft : Store} (grows : bef.Grows aft) : bef.Evolves aft :=
  fun _ _ held => .inl (grows.keeps held)

end Store

/-- Where a thunk of the store before a run is during the run: as it was, begun,
or with its value kept. -/
def Configuration.Follows (bef : Store) (c : Configuration) : Prop :=
  ∀ a th, bef.thunk? a = some th →
    c.store.thunk? a = some th ∨
      th.phase = .unforced ∧ (c.store.thunk? a = some th.begin ∨
        ∃ v, c.store.thunk? a = some (th.memoize v))

/-- What holds at every transition of a run that starts in a store without
begun evaluations. -/
structure Underway (bef : Store) (c : Configuration) : Prop where
  marked : c.Marked
  follows : c.Follows bef

namespace Underway

theorem start (settled : c.store.Settled) (noFrames : ∀ a, .update a ∉ c.stack) :
    Underway c.store c := by
  refine ⟨fun a => ?_, fun a th held => .inl held⟩
  have absent : a ∉ updates c.stack := by
    rw [mem_updates]
    exact noFrames a
  rw [List.count_eq_zero.mpr absent, if_neg (settled a)]

theorem move {host : Host} {s : Store} {bef aft : Configuration} (settled : s.Settled)
    (underway : Underway s bef) (move : Move host bef aft) : Underway s aft := by
  refine ⟨underway.marked.move move, fun a th held => ?_⟩
  have ely := underway.follows a th held
  rcases move.effect with ⟨begun, o, heldBefore, unforced, changed, _⟩ |
    ⟨kept, v, changed, fs⟩ | ⟨grows, _⟩
  · rw [changed]
    by_cases same : begun = a
    · subst same
      rcases ely with old | ⟨_, old | ⟨v, old⟩⟩
      · simp_all
      · rw [old] at heldBefore
        cases heldBefore
        simp at unforced
      · rw [old] at heldBefore
        cases heldBefore
        simp at unforced
    simp_all
  · rw [changed]
    by_cases same : kept = a
    · subst same
      -- the thunk has a frame, so its evaluation has begun
      have forcing : bef.store.phase? kept = some .forcing :=
        underway.marked.forcing_iff.mpr (by simp [fs])
      rcases ely with old | ⟨unforced, old | ⟨v, old⟩⟩
      · have phase : s.phase? kept = some .forcing := by
          simpa [Store.phase?, old, held] using forcing
        exact absurd phase (settled kept)
      · exact .inr ⟨unforced, .inr ⟨v, by simp [old]; rfl⟩⟩
      · simp [Store.phase?, old] at forcing
    simp_all
  · rcases ely with old | ⟨unforced, old | ⟨v, old⟩⟩
    · exact .inl (grows.keeps old)
    · exact .inr ⟨unforced, .inl (grows.keeps old)⟩
    · exact .inr ⟨unforced, .inr ⟨v, grows.keeps old⟩⟩

theorem moves {k : Nat} {st0 last : Configuration} (settled : st0.store.Settled)
    (noFrames : ∀ a, .update a ∉ st0.stack) (moves : Moves host k st0 last) :
    Underway st0.store last :=
  moves.preserves (Underway st0.store) (Underway.start settled noFrames)
    fun _ _ underway move => underway.move settled move

theorem returned (underway : Underway s c) (noFrames : c.stack = []) :
    c.store.Settled ∧ s.Evolves c.store := by
  have settled : c.store.Settled := by
    intro a forcing
    simpa [noFrames] using underway.marked.forcing_iff.mp forcing
  refine ⟨settled, fun a th held => ?_⟩
  rcases underway.follows a th held with same | ⟨unforced, begun | kept⟩
  · exact .inl same
  · exact absurd (by simp [Store.phase?, begun]) (settled a)
  simp_all

/-- A run that is given up puts back the evaluations that it had begun. -/
theorem unwound (settled : s.Settled) (underway : Underway s st.configuration) :
    st.unwind.store.Settled ∧ s.Evolves st.unwind.store := by
  have pending : ∀ {a}, a ∈ st.pending ↔ st.engine.store.phase? a = some .forcing := by
    intro a
    rw [State.mem_pending_iff_updates]
    exact underway.marked.forcing_iff.symm
  constructor
  · intro a forcing
    obtain ⟨th, held, phase⟩ := Option.map_eq_some_iff.mp forcing
    rw [State.unwind_thunk?] at held
    split at held
    · obtain ⟨begun, _, rfl⟩ := Option.map_eq_some_iff.mp held
      exact begun.phase_reset phase
    grind [Store.phase?]
  · intro a th held
    rw [State.unwind_thunk?]
    have ely := underway.follows a th held
    split
    · rename_i mem
      have forcing := pending.mp mem
      rcases ely with same | ⟨unforced, begun | ⟨v, kept⟩⟩
      · simp only [State.configuration] at same
        have phase : s.phase? a = some .forcing := by
          simpa [Store.phase?, held, same] using forcing
        exact absurd phase (settled a)
      · refine .inl ?_
        simp only [State.configuration] at begun
        cases th
        simp_all [Thunk.begin, Thunk.reset]
      simp_all [State.configuration, Store.phase?]
    · rename_i absent
      rcases ely with same | ⟨unforced, begun | kept⟩
      · exact .inl same
      · simp_all [State.configuration, Store.phase?]
      · exact .inr ⟨unforced, kept⟩

end Underway

theorem Store.Settled.of_grows {bef aft : Store} (settled : bef.Settled) (grows : bef.Grows aft) :
    aft.Settled := by
  intro a forcing
  obtain ⟨th, held, phase⟩ := Option.map_eq_some_iff.mp forcing
  rcases grows.adds held with old | ⟨_, _, rfl⟩ | ⟨_, rfl⟩
  · exact settled a (by simp [Store.phase?, old, phase])
  · simp [Thunk.suspended] at phase
  · simp [Thunk.evaluated] at phase

namespace Store.Writable

theorem of_grows {bef aft : Store} (wr : bef.Writable) (grows : bef.Grows aft) : aft.Writable := by
  intro a th held unforced
  rcases grows.adds held with old | ⟨t, env, rfl⟩ | ⟨v, rfl⟩
  · exact wr a th old unforced
  · rfl
  · simp [Thunk.evaluated] at unforced

theorem move (wr : bef.store.Writable) (move : Move host bef aft) : aft.store.Writable := by
  rcases move.effect with ⟨begun, o, heldBefore, unforced, changed, _⟩ |
    ⟨kept, v, changed, _⟩ | ⟨grows, _⟩
  · rw [changed]
    intro a th held _
    rw [Store.thunk?_update] at held
    split at held
    · rename_i same
      subst same
      rw [heldBefore] at held
      cases held
      have lb := wr begun o heldBefore (by simp [unforced])
      simpa [Thunk.isWritable] using lb
    · exact wr a th held ‹_›
  · rw [changed]
    intro a th held unforced
    rw [Store.thunk?_update] at held
    split at held
    · obtain ⟨o, _, rfl⟩ := Option.map_eq_some_iff.mp held
      simp at unforced
    · exact wr a th held unforced
  · exact wr.of_grows grows

end Store.Writable

/-- Evaluations that were begun are ended or taken back, and the labels of
thunks can still be shown. -/
def Settles (bef aft : Store) : Prop :=
  bef.Settled → bef.Writable → aft.Settled ∧ aft.Writable ∧ bef.Evolves aft

theorem Store.Writable.unwound (wr : st.engine.store.Writable) : st.unwind.store.Writable := by
  intro a th held unforced
  rw [State.unwind_thunk?] at held
  split at held
  · obtain ⟨o, heldBefore, rfl⟩ := Option.map_eq_some_iff.mp held
    have lb := wr a o heldBefore fun forced =>
      unforced (Thunk.phase_reset_eq_forced.mpr forced)
    simpa [Thunk.isWritable] using lb
  · exact wr a th held unforced

theorem Configuration.Marked.isTraceable (marked : st.configuration.Marked)
    (wr : st.engine.store.Writable) : st.isTraceable := by
  refine State.isTraceable_of_pending fun a mem th held => ?_
  have forcing : st.engine.store.phase? a = some .forcing :=
    marked.forcing_iff.mpr (State.mem_pending_iff_updates.mp mem)
  refine wr a th held ?_
  simp_all [Store.phase?]

/-- When labels can be shown, a run that is given up puts back what it had
begun. -/
theorem settles_abandon {r : Except Stop Value} (settled : s.Settled)
    (underway : Underway s st.configuration) (wr : st.engine.store.Writable)
    (abd : st.abandon er = (r, e)) : e.store.Settled ∧ e.store.Writable ∧ s.Evolves e.store := by
  rw [State.abandon_of_traceable (underway.marked.isTraceable wr)] at abd
  cases abd
  obtain ⟨settledAfter, evolves⟩ := underway.unwound settled
  exact ⟨settledAfter, wr.unwound, evolves⟩

theorem Underway.of_same {o : State} (underway : Underway s st.configuration)
    (sameEngine : o.engine.store = st.engine.store) (samePending : o.pending = st.pending) :
    Underway s o.configuration := by
  have fs : ∀ a, (updates o.stack).count a =
      (updates st.stack).count a := by simp_all [State.pending, updates]
  refine ⟨fun a => ?_, fun a th held => ?_⟩
  · have marked : (updates st.stack).count a =
        if st.engine.store.phase? a = some .forcing then 1 else 0 :=
      underway.marked a
    show (updates o.stack).count a =
      if o.engine.store.phase? a = some .forcing then 1 else 0
    simp_all
  · have follows := underway.follows a th held
    grind [State.configuration]

theorem kept_settles (cfg : Settings) : Kept cfg (· = .outOfFuel) Settles where
  refl s settled wr := ⟨settled, wr, .refl s⟩
  trans early late settled wr := by
    obtain ⟨settled, wr, evolved⟩ := early settled wr
    obtain ⟨settled, wr, further⟩ := late settled wr
    exact ⟨settled, wr, evolved.trans further⟩
  alloc s v settled wr := by
    have grows := s.grows_alloc v
    exact ⟨settled.of_grows grows, wr.of_grows grows, grows.evolves⟩
  build s form settled wr := ⟨settled, wr, .refl s⟩
  run := by
    intro st0 k n taken st r e noFrames moves ran ended settled wr
    obtain ⟨more, last, further, _, ending⟩ := run_spec cfg n taken st
    have all := moves.trans further
    have underway := Underway.moves settled noFrames all
    have lbs : last.engine.store.Writable :=
      all.preserves (fun c => c.store.Writable) wr fun _ _ ely move => ely.move move
    rw [ran] at ending
    rcases ending with ⟨_, exh⟩ | ⟨_, _, ending⟩
    · simp_all
    · generalize oc : (r, e) = pair at ending
      cases ending with
      | returned _ _ noFrames =>
        cases oc
        obtain ⟨settledAfter, evolves⟩ := underway.returned noFrames
        exact ⟨settledAfter, lbs, evolves⟩
      | limited _ =>
        have counted : Underway st0.store last.counted.configuration := underway
        exact settles_abandon settled counted lbs oc.symm
      | failed _ _ sameEngine samePending =>
        have sameStore := congrArg Engine.store sameEngine
        exact settles_abandon settled (underway.of_same sameStore samePending)
          (sameStore ▸ lbs) oc.symm

section Trails

variable {cfg : Settings} {n : Nat}

theorem moves_of_mem_trail (mem : passed ∈ trail cfg n taken st) :
    ∃ k, Moves cfg.host k st.configuration passed.configuration := by
  induction n generalizing taken st with
  | zero =>
    cases List.mem_singleton.mp mem
    exact ⟨0, .refl _⟩
  | succ n ih =>
    unfold trail at mem
    split at mem
    · cases List.mem_singleton.mp mem
      exact ⟨0, .refl _⟩
    · have accounts := State.step_spec cfg.host st.counted
      split at mem
      · rename_i next r
        rw [r] at accounts
        rcases List.mem_cons.mp mem with rfl | later
        · exact ⟨0, .refl _⟩
        · obtain ⟨k, moves⟩ := ih later
          exact ⟨k + 1, .step accounts.1 moves⟩
      · cases List.mem_singleton.mp mem
        exact ⟨0, .refl _⟩

theorem marked_of_mem_trail {k : Nat} {st0 : Configuration} (settled : st0.store.Settled)
    (noFrames : ∀ a, .update a ∉ st0.stack) (moves : Moves cfg.host k st0 st.configuration)
    (mem : passed ∈ trail cfg n taken st) : passed.configuration.Marked := by
  obtain ⟨more, further⟩ := moves_of_mem_trail mem
  exact (Underway.moves settled noFrames (moves.trans further)).marked

theorem kept_settled (cfg : Settings) :
    Kept cfg (fun _ => True) fun bef aft => bef.Settled → aft.Settled where
  refl _ settled := settled
  trans early late settled := late (early settled)
  alloc s v settled := by
    intro a forcing
    obtain ⟨th, held, phase⟩ := Option.map_eq_some_iff.mp forcing
    rcases (s.grows_alloc v).adds held with old | ⟨_, _, rfl⟩ | ⟨_, rfl⟩
    · exact settled a (by simp [Store.phase?, old, phase])
    · simp [Thunk.suspended] at phase
    · simp [Thunk.evaluated] at phase
  build _ _ settled := settled
  run := by
    intro st0 k n taken st r e noFrames moves ran ended settled
    obtain ⟨more, last, further, _, ending⟩ := run_spec cfg n taken st
    have underway := Underway.moves settled noFrames (moves.trans further)
    rw [ran] at ending
    rcases ending with ⟨_, exh⟩ | ⟨_, _, ending⟩
    · simp_all
    · have failed : ∀ (st : State) (er : Raised), (st.abandon er) ≠ (r, e) := by
        intro st er abd
        unfold State.abandon at abd
        grind
      generalize oc : (r, e) = pair at ending
      cases ending with
      | returned _ _ noFrames =>
        cases oc
        exact (underway.returned noFrames).1
      | limited _ => exact absurd oc.symm (failed _ _)
      | failed _ _ _ _ => exact absurd oc.symm (failed _ _)

theorem marked_of_mem_forceTrail {th : Option Address} (settled : e.store.Settled)
    (mem : passed ∈ forceTrail cfg n th e) : passed.configuration.Marked := by
  unfold forceTrail at mem
  split at mem
  · cases mem
  · split at mem
    · cases mem
    · rename_i held
      split at mem
      · rename_i unforced
        have moves := Moves.step (move_entered cfg.host held unforced) (.refl _)
        exact marked_of_mem_trail (by simpa [askFor] using settled) (by simp [askFor]) moves mem
      · cases mem

/-- While a value is read back there is one frame for each evaluation that is begun. -/
theorem traced_marked (cfg : Settings) :
    Traced cfg fun ac trail => ∀ {e : Engine}, e.store.Settled →
      (∀ passed ∈ trail e, passed.configuration.Marked) ∧
        ∀ {v aft}, ac e = (.ok v, aft) → aft.store.Settled where
  still unused := by
    intro e settled
    refine ⟨by simp, fun perf => ?_⟩
    rw [unused.1] at perf
    grind
  bind fst rest := by
    intro e settled
    obtain ⟨marked, early⟩ := fst settled
    refine ⟨fun passed mem => ?_, fun perf => ?_⟩
    · rcases List.mem_append.mp mem with bef | later
      · simp_all
      grind
    · obtain ⟨v, mid, began, late⟩ := Action.of_bind_ok perf
      grind
  counted st0 := by
    intro e settled
    refine ⟨by simp, fun perf => ?_⟩
    rw [countTask_eq] at perf
    obtain ⟨_, rfl⟩ := Prod.mk.inj perf
    exact settled
  opens n p b env us := by
    intro e settled
    have opened := (kept_settled cfg).withVariable e.store (freshName p us) settled
    exact ⟨fun passed => marked_of_mem_trail opened (by simp [opening, State.configuration])
        (.refl (opening p b env us e).configuration),
      fun perf => (kept_settled cfg).evaluate perf (by simp) opened⟩
  forces n th := by
    intro e settled
    exact ⟨fun passed => marked_of_mem_forceTrail settled,
      fun forced => (kept_settled cfg).force forced (by simp) settled⟩

theorem marked_of_mem_requestTrail {rq : Request} (settled : e.store.Settled)
    (mem : passed ∈ rq.trail cfg n e) : passed.configuration.Marked := by
  cases rq with
  | evaluate t env =>
    exact marked_of_mem_trail settled (by simp [State.configuration])
      (.refl (State.mk (some (t, env)) Value.absent [] e).configuration) mem
  | force th => exact marked_of_mem_forceTrail settled mem
  | apply f args =>
    exact marked_of_mem_trail settled (by simp [State.configuration])
      (.refl (State.mk none f (args.map .argument) e).configuration) mem
  | normalize v => exact ((traced_marked cfg).performAll _ _ _ _ settled).1 _ mem
  | number v =>
    have opened := (kept_settled cfg).withCounter e.store settled
    exact marked_of_mem_trail opened (by simp [State.configuration])
      (.refl (State.mk none v ([some e.store.size, some (e.store.size + 1)].map .argument)
        { e with store := e.store.withCounter }).configuration) mem

end Trails

/-- A run that is given up while it evaluates a thunk whose label cannot be
shown leaves every thunk as it is. -/
theorem State.abandon_of_unwritable (mem : a ∈ st.pending)
    (held : st.engine.store.thunk? a = some th) (unwritable : th.isWritable = false)
    (cause : EvalError) :
    st.abandon (.evaluation cause []) = (.error (.raised .unwritable), st.engine) := by
  grind [State.isTraceable, State.abandon]

/-- Forcing a thunk whose label cannot be shown leaves it begun, if the bound on
steps is reached at once. -/
theorem force_leaves_begun (host : Host) {th : Thunk} (held : e.store.thunk? a = some th)
    (unforced : th.phase = .unforced) (unwritable : th.isWritable = false) :
    ∃ aft, (Request.force (some a)).perform ⟨host, some (-1)⟩ 1 e =
        (.error (.raised .unwritable), aft) ∧ aft.store.phase? a = some .forcing := by
  have begun : (entered a th e).counted.engine.store.thunk? a = some th.begin := by
    simp [entered, State.counted, held]
  have lb : th.begin.isWritable = false := by
    simpa [Thunk.isWritable] using unwritable
  have abd : run ⟨host, some (-1)⟩ 1 0 (entered a th e) =
      (.error (.raised .unwritable), (entered a th e).counted.engine) := by
    have exc : Limit.exceeded (some (-1)) (0 + 1) = true := by decide
    simp only [run, exc, if_true]
    exact State.abandon_of_unwritable (State.mem_pending.mpr (.head _)) begun lb _
  simp_all [Request.perform, force_of_unforced, Except.map, Store.phase?]

/-- From an engine in which no thunk is being evaluated, every request keeps
exactly one frame for each evaluation that it has begun.  It leaves none of
them begun and every other thunk as it was, whatever the request, its host, its
bound and its outcome, if and only if the labels of all thunks can be shown. -/
theorem Request.leaves_none_begun_iff {e : Engine} (settled : e.store.Settled) :
    (∀ (cfg : Settings) (n : Nat) (rq : Request),
      ∀ st ∈ rq.trail cfg n e, ∀ a,
        st.stack.count (.update a) =
          if st.engine.store.phase? a = some .forcing then 1 else 0) ∧
    ((∀ (cfg : Settings) (n : Nat) (rq : Request) (r : Except Stop Answer) (aft : Engine),
        rq.perform cfg n e = (r, aft) →
        r ≠ .error .outOfFuel →
        aft.store.Settled ∧ e.store.Evolves aft.store) ↔
      e.store.Writable) := by
  refine ⟨fun cfg n rq st mem a => ?_, ?_, ?_⟩
  · rw [count_update]
    exact marked_of_mem_requestTrail settled mem a
  · intro clean a th held notForced
    by_contra unwritable
    have unforced : th.phase = .unforced := by
      cases phase : th.phase with
      | unforced => rfl
      | forced => exact absurd phase notForced
      | forcing => exact absurd (by simp [Store.phase?, held, phase]) (settled a)
    obtain ⟨aft, perf, begun⟩ := force_leaves_begun (fun _ v => .ok v)
      held unforced (by simpa using unwritable)
    exact (clean _ _ _ _ _ perf (by simp)).1 a begun
  · intro wr cfg n rq r aft perf ended
    obtain ⟨settledAfter, _, evolves⟩ := (kept_settles cfg).perform perf ended settled wr
    simp_all

/-- A thunk without a name that holds a datum, not yet evaluated, and a thunk
named `U` that refers to it. -/
def referring (dt : Datum) : Engine :=
  .fresh ⟨#[⟨none, .value (.given (.constant dt)), .unforced⟩,
    .suspended (.var "h") (.root 0) (some "U")], #[[("h", some 0)]], 0⟩

theorem settled_referring (dt : Datum) : (referring dt).store.Settled := by
  intro a
  grind [referring, Engine.fresh, Store.phase?, Store.thunk?, Thunk.suspended]

/-- If the datum cannot be written, a request for `U` that reaches its bound at
the second step leaves `U` begun. -/
theorem force_referring (unwritable : dt.isWritable = false) :
    ∃ aft, (Request.force (some 1)).perform ⟨fun _ v => .ok v, some 1⟩ 2
        (referring dt) = (.error (.raised .unwritable), aft) ∧
      aft.store.phase? 1 = some .forcing := by
  let last : State := ⟨none, .given (.constant dt), [.update 0, .update 1],
    (((referring dt).begin 1 (some "U")).countStep.begin 0 none).countStep⟩
  have ran : force ⟨fun _ v => .ok v, some 1⟩ 2 (some 1) (referring dt) =
      last.abandon (.evaluation (.stepLimit 1) []) := rfl
  have held : last.engine.store.thunk? 0 =
      some ⟨none, .value (.given (.constant dt)), .forcing⟩ := rfl
  rw [State.abandon_of_unwritable (State.mem_pending.mpr (.head _)) held unwritable] at ran
  exact ⟨last.engine, by simp [Request.perform, ran, Except.map], rfl⟩

/-- No number with that many digits can be written. -/
theorem unwritable_power : (Datum.int (Nat.pow 10 Number.mostDigits : Nat)).isWritable = false := by
  decide +kernel

/-- A request can end with an evaluation still begun. -/
theorem force_leaves_reference_begun :
    (referring (.int (Nat.pow 10 Number.mostDigits : Nat))).store.Settled ∧
    ∃ aft, (Request.force (some 1)).perform ⟨fun _ v => .ok v, some 1⟩ 2
        (referring (.int (Nat.pow 10 Number.mostDigits : Nat))) =
          (.error (.raised .unwritable), aft) ∧
      aft.store.phase? 1 = some .forcing :=
  ⟨settled_referring _, force_referring unwritable_power⟩

/-- At an engine whose labels can all be shown every request ends with none
begun. -/
theorem leaves_none_begun_at_small_datum :
    (referring (.int 7)).store.Settled ∧ (referring (.int 7)).store.Writable ∧
    ∀ (cfg : Settings) (n : Nat) (rq : Request) (r : Except Stop Answer) (aft : Engine),
      rq.perform cfg n (referring (.int 7)) = (r, aft) →
      r ≠ .error .outOfFuel →
      aft.store.Settled ∧ (referring (.int 7)).store.Evolves aft.store := by
  have wr : (referring (.int 7)).store.Writable := by
    intro a th held _
    match a with
    | 0 => cases held; decide +kernel
    | 1 => cases held; rfl
    | a + 2 => simp [referring, Engine.fresh, Store.thunk?] at held
  have settled := settled_referring (.int 7)
  exact ⟨settled, wr, (Request.leaves_none_begun_iff settled).2.mpr wr⟩

end CallByNeed
