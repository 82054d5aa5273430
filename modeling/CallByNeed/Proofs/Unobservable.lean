import CallByNeed.Proofs.Independence
import CallByNeed.Proofs.Sharing

/-!
# Sharing cannot be observed

A request is made of the plain machine, which gives every argument a thunk of its
own, and of the machine of this library.  The plain machine needs more transitions,
so that the fuels of the two differ: `Tracks` says that one comes to an end where the
other one does, with counterparts or with the same error.  It is shown for runs, and
from there for the requests that are made of runs.
-/

namespace CallByNeed

/-- The fuel sufficed. -/
def Ended {α : Type} (oc : Except Stop α × Engine) : Prop := oc.1 ≠ .error .outOfFuel

/-- More fuel does not change an outcome. -/
def Steady {α : Type} (outcomes : Nat → Except Stop α × Engine) : Prop :=
  ∀ n more, Ended (outcomes n) → outcomes (n + more) = outcomes n

variable {e l r : Engine} {v o : Value} {bound k : Nat}
  {pr : Pairing} {env : Env} {α : Type}

namespace Steady

variable {β : Type}

theorem of_const (oc : Except Stop α × Engine) : Steady fun _ => oc := fun _ _ _ => rfl

/-- All fuels that suffice lead to the same outcome. -/
theorem unique {outcomes : Nat → Except Stop α × Engine} (steady : Steady outcomes) {o : Nat}
    (ended : Ended (outcomes n)) (also : Ended (outcomes o)) : outcomes n = outcomes o := by
  rw [← steady n o ended, Nat.add_comm, steady o n also]

theorem bind {fst : Nat → Eval α} {next : α → Nat → Eval β} (steady : Steady (fst · e))
    (following : ∀ v aft, Steady (next v · aft)) : Steady fun n => (fst n >>= (next · n)) e := by
  intro n more ended
  rcases began : fst n e with ⟨early, mid⟩
  have endedFirst : Ended (fst n e) := by
    rw [began]
    rintro ⟨⟩
    exact ended (by simp only [Action.bind_error began])
  have again := (steady n more endedFirst).trans began
  cases early with
  | error stop => simp only [Action.bind_error began, Action.bind_error again]
  | ok v =>
    simp only [Action.bind_ok began] at ended
    simp only [Action.bind_ok began, Action.bind_ok again]
    exact following v mid n more ended

end Steady

section Steady

variable (dl : Delaying) (cfg : Settings)

theorem steady_runWith (taken : Nat) (st : State) : Steady fun n => runWith dl cfg n taken st :=
  fun _ more ended => runWith_ended ended more

theorem steady_forceWith (th : Option Address) (e : Engine) :
    Steady fun n => forceWith dl cfg n th e := by
  cases th with
  | none => exact .of_const _
  | some a =>
    simp only [forceWith]
    cases e.store.thunk? a with
    | none => exact .of_const _
    | some th =>
      by_cases forced : th.phase = .forced
      · simp only [forced, if_true]
        exact .of_const _
      · by_cases forcing : th.phase = .forcing
        · simp only [forcing, reduceCtorEq, if_true, if_false]
          exact .of_const _
        simp_all [steady_runWith]

theorem steady_quoteWith (v : Value) (us : List Name) (e : Engine) :
    Steady fun n => quoteWith dl cfg n v us e := by
  cases form : v.form with
  | closure p b env =>
    have opening : Steady fun n => openClosureWith dl cfg n p b env
        (freshName p us) e := steady_runWith dl cfg 0 _
    simp only [quoteWith, form]
    exact opening.bind fun _ _ => .of_const _
  | _ =>
    simp only [quoteWith, quote, form]
    exact .of_const _

theorem steady_performWith (ts : List Term) (tk : Task) (e : Engine) :
    Steady fun n => tk.performWith dl cfg n ts e := by
  cases tk with
  | quote v us =>
    exact Steady.bind (steady_quoteWith dl cfg v us e) fun _ _ => .of_const _
  | quoteThunk th us =>
    exact Steady.bind (steady_forceWith dl cfg th e) fun v aft =>
      Steady.bind (steady_quoteWith dl cfg v us aft) fun _ _ => .of_const _
  | bind x => exact .of_const _
  | combine x k => exact .of_const _

/-- What is left when all tasks are done. -/
def finished : List Term → Except Stop Term
  | [] => .error (.raised .noTerm)
  | t :: _ => .ok t

theorem performAllWith_nil (st0 n : Nat) (ts : List Term) (e : Engine) :
    performAllWith dl cfg st0 n [] ts e = (finished ts, e) := by
  cases ts with
  | nil => cases n <;> rfl
  | cons t ts => cases n <;> rfl

/-- A task is performed, and then those that it leads to and the others. -/
theorem performAllWith_cons {st0 : Nat}
    (within : cfg.limit.exceeded (e.tally.steps + 1 - st0) = false) (tk : Task) (tks : List Task)
    (ts : List Term) :
    performAllWith dl cfg st0 (n + 1) (tk :: tks) ts e =
      (tk.performWith dl cfg n ts >>= fun added =>
        (performAllWith dl cfg st0 n (added.1 ++ tks) added.2 : Eval Term))
        e.countStep := by
  rcases perf : tk.performWith dl cfg n ts e.countStep with ⟨early, aft⟩
  cases early with
  | error stop => rw [performAllWith_error within perf, Action.bind_error perf]
  | ok added => rw [performAllWith_ok within perf, Action.bind_ok perf]

theorem steady_performAllWith (st0 : Nat) (tks : List Task) (ts : List Term) (e : Engine) :
    Steady fun n => performAllWith dl cfg st0 n tks ts e := by
  intro n more ended
  induction n generalizing tks ts e with
  | zero =>
    cases tks with
    | nil => simp only [performAllWith_nil]
    | cons tk tks => exact absurd rfl ended
  | succ n ih =>
    cases tks with
    | nil => simp only [performAllWith_nil]
    | cons tk tks =>
      simp only [Nat.add_right_comm n 1 more] at ended ⊢
      cases bound : cfg.limit.exceeded (e.tally.steps + 1 - st0) with
      | true => rw [performAllWith_exceeded bound, performAllWith_exceeded bound]
      | false =>
        have steady := steady_performWith dl cfg ts tk e.countStep
        rcases perf : tk.performWith dl cfg n ts e.countStep with ⟨early, aft⟩
        have endedFirst : Ended (tk.performWith dl cfg n ts e.countStep) := by
          rw [perf]
          rintro ⟨⟩
          exact ended (by rw [performAllWith_error bound perf])
        have again := (steady n more endedFirst).trans perf
        cases early with
        | error stop =>
          rw [performAllWith_error bound perf, performAllWith_error bound again]
        | ok added =>
          rw [performAllWith_ok bound perf] at ended
          rw [performAllWith_ok bound perf, performAllWith_ok bound again]
          exact ih _ _ _ ended

theorem steady_normalizeWith (v : Value) (e : Engine) :
    Steady fun n => normalizeWith dl cfg n v e := steady_performAllWith dl cfg e.tally.steps _ _ e

theorem ended_of_tallied {counted : Except Stop Value × Engine}
    (ended : Ended (tallied counted.1, counted.2)) : Ended counted := by
  intro exh
  exact ended (by rw [exh]; rfl)

theorem steady_numberWith (v : Value) (e : Engine) : Steady fun n => numberWith dl cfg n v e := by
  intro n more ended
  have counted : countWith dl cfg (n + more) v e = countWith dl cfg n v e :=
    steady_runWith dl cfg 0 _ n more (ended_of_tallied ended)
  simp only [numberWith, counted]

end Steady

/-! ### Stores between requests -/

/-- The stores of both machines when no run is under way. -/
structure Aligned (pr : Pairing) (plain shared : Store) : Prop where
  folds : Folds pr plain shared
  plainSettled : plain.Settled
  settled : shared.Settled
  writable : shared.Writable

namespace Aligned

variable {plain shared : Store}

theorem start (lk : s.Linked) :
    Aligned (fun a => if a < s.size then some a else none) s s where
  plainSettled := lk.settled
  settled := lk.settled
  writable := lk.writable
  folds :=
    { tables := rfl
      rooted := fun mem given => if_pos (lk.bounded mem given)
      held := by
        intro pl a paired
        by_cases below : pl < s.size
        · rw [if_pos below] at paired
          cases paired
          obtain ⟨th, held⟩ := Store.thunk?_of_lt below
          obtain ⟨t, num, x, rfl⟩ := lk.declared held
          refine ⟨_, _, held, held, .alike rfl (by simp [Thunk.suspended]) rfl rfl (.root num) ?_⟩
          grind
        · rw [if_neg below] at paired
          cases paired }

theorem build (aligned : Aligned pr plain shared) (form o : Form) :
    Aligned pr (plain.build form).2 (shared.build o).2 :=
  ⟨aligned.folds.change rfl rfl fun _ there also same => ⟨_, _, there, also, same⟩,
    aligned.plainSettled, aligned.settled, aligned.writable⟩

theorem alloc (aligned : Aligned pr plain shared) (same : Value.Matches pr v o) :
    pr.Extends (pr.add plain.size shared.size) ∧
      Aligned (pr.add plain.size shared.size) (plain.alloc (.evaluated v none)).2
        (shared.alloc (.evaluated o none)).2 := by
  have grows := Pairing.extends_add aligned.folds.free shared.size
  have there : (shared.alloc (.evaluated o none)).2.thunk? shared.size =
      some (.evaluated o none) := by simp
  refine ⟨grows, ?_, aligned.plainSettled.of_grows (plain.grows_alloc v),
    aligned.settled.of_grows (shared.grows_alloc o),
    aligned.writable.of_grows (shared.grows_alloc o)⟩
  exact aligned.folds.allocate rfl (fun held => Store.thunk?_alloc_of_some held _) there
    (.kept rfl rfl (same.extend grows))

end Aligned

/-! ### Outcomes -/

/-- A relation of answers with the stores that they come with. -/
abbrev Relation (α β : Type) := Pairing → α × Store → β × Store → Prop

/-- The answers are related and the stores go on from each other. -/
def Along {α β : Type} (rel : Pairing → α → β → Prop) : Relation α β :=
  fun pr l r => rel pr l.1 r.1 ∧ Aligned pr l.2 r.2

/-- The answers are the same, and nothing is asked of the stores. -/
def SameAnswer (α : Type) : Relation α α := fun _ l r => l.1 = r.1

/-- Both machines return what is related, or both fail in the same way. -/
inductive Parallel {α β : Type} (rel : Relation α β) (pr : Pairing) :
    Except Stop α × Engine → Except Stop β × Engine → Prop where
  | value {more l r} {plain shared : Engine} (grows : pr.Extends more)
      (related : rel more (l, plain.store) (r, shared.store)) :
      Parallel rel pr (.ok l, plain) (.ok r, shared)
  | error {raised o plain shared} (alike : Raised.Alike raised o) :
      Parallel rel pr (.error (.raised raised), plain) (.error (.raised o), shared)

/-- One machine comes to an end where the other one does, with less fuel than a bound. -/
structure Tracks {α β : Type} (rel : Relation α β) (pr : Pairing)
    (bound : Nat) (plain : Nat → Except Stop α × Engine)
    (shared : Nat → Except Stop β × Engine) : Prop where
  follows : ∀ n < bound, Ended (shared n) →
    ∃ o, Parallel rel pr (plain o) (shared n)
  ends : ∀ n < bound, Ended (plain n) → ∃ o, Ended (shared o)

namespace Parallel

variable {β : Type} {rel : Relation α β} {plain : Except Stop α × Engine}
  {shared : Except Stop β × Engine}

theorem ended (parallel : Parallel rel pr plain shared) : Ended plain ∧ Ended shared := by
  cases parallel <;> simp [Ended]

theorem extend {more : Pairing} (parallel : Parallel rel more plain shared)
    (grows : pr.Extends more) : Parallel rel pr plain shared := by
  cases parallel with
  | value further related => exact .value (grows.trans further) related
  | error alike => exact .error alike

end Parallel

namespace Tracks

variable {β γ δ : Type} {rel : Relation α β} {related : Relation γ δ}
  {plain : Nat → Except Stop α × Engine} {shared : Nat → Except Stop β × Engine}

theorem parallel (tracks : ∀ bound, Tracks rel pr bound plain shared) (steady : Steady plain) (ended : Ended (plain n)) : ∃ o, Parallel rel pr (plain n) (shared o) := by
  obtain ⟨o, endedAlso⟩ := (tracks (n + 1)).ends n (Nat.lt_succ_self _) ended
  obtain ⟨again, parallel⟩ := (tracks (o + 1)).follows o (Nat.lt_succ_self _) endedAlso
  rw [steady.unique ended parallel.ended.1]
  grind

theorem extend {more : Pairing} (tracks : Tracks rel more bound plain shared)
    (grows : pr.Extends more) : Tracks rel pr bound plain shared where
  follows := by
    intro n less ended
    obtain ⟨o, parallel⟩ := tracks.follows n less ended
    exact ⟨o, parallel.extend grows⟩
  ends := tracks.ends

theorem of_const {plain : Except Stop α × Engine} {shared : Except Stop β × Engine}
    (parallel : Parallel rel pr plain shared) (bound : Nat) :
    Tracks rel pr bound (fun _ => plain) (fun _ => shared) :=
  ⟨fun _ _ _ => ⟨0, parallel⟩, fun _ _ _ => ⟨0, parallel.ended.2⟩⟩

theorem bind {fst : Nat → Eval α} {snd : Nat → Eval β} {next : α → Nat → Eval γ}
    {following : β → Nat → Eval δ} (tracks : ∀ bound, Tracks rel pr bound (fst · l) (snd · r))
    (steady : Steady (fst · l)) (steadyAlso : Steady (snd · r))
    (steadyNext : ∀ v e, Steady (next v · e)) (steadyFollowing : ∀ v e, Steady (following v · e))
    (continues : ∀ {more v rs} {plain shared : Engine}, pr.Extends more →
      rel more (v, plain.store) (rs, shared.store) →
      Tracks related more bound (next v · plain) (following rs · shared)) :
    Tracks related pr bound (fun n => (fst n >>= (next · n)) l)
      (fun n => (snd n >>= (following · n)) r) where
  follows := by
    intro n less ended
    rcases began : snd n r with ⟨early, mid⟩
    have endedFirst : Ended (snd n r) := by
      rw [began]
      rintro ⟨⟩
      exact ended (by simp only [Action.bind_error began])
    obtain ⟨some, parallel⟩ := (tracks (n + 1)).follows n (Nat.lt_succ_self _) endedFirst
    rw [began] at parallel
    generalize ran : fst some l = oc at parallel
    cases parallel with
    | error alike =>
      refine ⟨some, ?_⟩
      simp only [Action.bind_error ran, Action.bind_error began]
      exact .error alike
    | @value more v _ plain _ grows matched =>
      simp only [Action.bind_ok began] at ended ⊢
      obtain ⟨o, parallel⟩ := (continues grows matched).follows n less ended
      refine ⟨some + o, ?_⟩
      have again : fst (some + o) l = (.ok v, plain) :=
        (steady some o (by simp [Ended, ran])).trans ran
      have rest : next v (some + o) plain = next v o plain := by
        rw [Nat.add_comm]
        exact steadyNext v plain o some parallel.ended.1
      simp only [Action.bind_ok again, rest]
      exact parallel.extend grows
  ends := by
    intro n less ended
    rcases began : fst n l with ⟨early, mid⟩
    have endedFirst : Ended (fst n l) := by
      rw [began]
      rintro ⟨⟩
      exact ended (by simp only [Action.bind_error began])
    obtain ⟨some, parallel⟩ := Tracks.parallel tracks steady endedFirst
    rw [began] at parallel
    generalize ran : snd some r = oc at parallel
    cases parallel with
    | error alike => grind [Action.bind_error, Ended]
    | @value more _ rs _ shared grows matched =>
      simp only [Action.bind_ok began] at ended
      obtain ⟨o, endedRest⟩ := (continues grows matched).ends n less ended
      refine ⟨some + o, ?_⟩
      have again : snd (some + o) r = (.ok rs, shared) :=
        (steadyAlso some o (by simp [Ended, ran])).trans ran
      have rest : following rs (some + o) shared = following rs o shared := by
        rw [Nat.add_comm]
        exact steadyFollowing rs shared o some endedRest
      grind [Action.bind_ok]

theorem later {bef : Nat → Except Stop α × Engine} {also : Nat → Except Stop β × Engine}
    (tracks : Tracks rel pr bound bef also) (fst : ¬ Ended (plain 0))
    (sts : ∀ n, plain (n + 1) = bef n) (snd : ¬ Ended (shared 0))
    (stepsAlso : ∀ n, shared (n + 1) = also n) : Tracks rel pr (bound + 1) plain shared where
  follows := by
    intro n less ended
    cases n with
    | zero => exact absurd ended snd
    | succ n =>
      rw [stepsAlso] at ended ⊢
      obtain ⟨o, parallel⟩ := tracks.follows n (by omega) ended
      grind
  ends := by
    intro n less ended
    cases n with
    | zero => exact absurd ended fst
    | succ n =>
      rw [sts] at ended
      obtain ⟨o, endedAlso⟩ := tracks.ends n (by omega) ended
      grind

end Tracks

/-! ### Runs -/

/-- A row of moves of the shared machine is a row of no fewer moves of the plain one. -/
theorem Shares.moves (uniform : host.Uniform) {plain shared next : Configuration}
    (shares : Shares pr plain shared) (moves : Moves host k shared next) :
    ∃ total more aft, k ≤ total ∧ MovesWith Store.suspend host total plain aft ∧
      pr.Extends more ∧ Shares more aft next := by
  induction moves generalizing pr plain with
  | refl => exact ⟨0, pr, plain, Nat.le_refl 0, .refl _, fun _ _ => id, shares⟩
  | step move _ ih =>
    obtain ⟨fst, mid, between, moved, grows, still⟩ := shares.move uniform move
    obtain ⟨rest, more, aft, enough, further, growsMore, last⟩ := ih still
    exact ⟨fst + 1 + rest, more, aft, by omega, moved.trans further, grows.trans growsMore, last⟩

/-- Where both stacks are empty, no run is under way. -/
theorem Shares.aligned {plain shared : Configuration} (shares : Shares pr plain shared)
    (wr : shared.store.Writable) (noFrames : shared.stack = []) (noFocus : shared.focus = none) :
    plain.focus = none ∧ plain.stack = [] ∧
      Form.Matches pr plain.value.form shared.value.form ∧ Aligned pr plain.store shared.store := by
  obtain ⟨focus, v, k, plain⟩ := plain
  obtain ⟨otherFocus, r, otherStack, shared⟩ := shared
  cases noFrames
  cases noFocus
  obtain ⟨folds, fs, controls, marked, begun⟩ := shares
  cases fs
  cases controls with
  | value forms =>
    refine ⟨rfl, rfl, forms, folds, fun pl forcing => ?_, fun a forcing => ?_, wr⟩
    · simp_all
    · simpa using marked.forcing_iff.mp forcing

/-- A thunk is asked for its value: it has one, or its evaluation is begun. -/
theorem MovesWith.asked {aft : Configuration}
    (moves : MovesWith dl host (k + 1) (askFor pl e.store) aft) :
    ∃ th, e.store.thunk? pl = some th ∧
      ((th.phase = .forced ∧ aft = ⟨none, th.value, [], e.store⟩) ∨
        (th.phase = .unforced ∧ MovesWith dl host k (entered pl th e).configuration aft)) := by
  cases moves with
  | step fst rest =>
    cases fst with
    | move _ move =>
      cases move with
      | reuse found held forced =>
        cases Option.some.inj found
        refine ⟨_, held, .inl ⟨forced, ?_⟩⟩
        cases rest with
        | refl => rfl
        | step again _ =>
          cases again with
          | move _ move => exact absurd rfl (move.stack_ne_nil rfl)
      | enter found held unforced =>
        cases Option.some.inj found
        simp_all [entered, State.configuration]

theorem Frames.ne_nil {plain rest : List Frame}
    (fs : Frames pr plain (.update a :: rest)) : plain ≠ [] := by
  cases fs with
  | update nonempty => simp [nonempty]

section Runs

variable {cfg : Settings} (unb : ∀ sts, cfg.limit.exceeded sts = false)
  (uniform : cfg.host.Uniform)

include unb uniform

/-- Runs from where the plain machine comes to share with the other one. -/
theorem Shares.tracks {mid : Configuration} {plain shared : State}
    (reached : MovesWith Store.suspend cfg.host k plain.configuration mid)
    (shares : Shares pr mid shared.configuration) (wr : shared.engine.store.Writable)
    (bound : Nat) :
    Tracks (Along Value.Matches) pr bound (fun n => runWith Store.suspend cfg n 0 plain)
      (fun n => runWith Store.delay cfg n 0 shared) where
  follows := by
    intro n _ ended
    simp only [runWith_delay] at ended ⊢
    obtain ⟨taken, last, moves, _, ending⟩ := run_spec cfg n 0 shared
    obtain ⟨total, more, aft, _, moved, grows, still⟩ := shares.moves uniform moves
    have lbs : last.engine.store.Writable :=
      moves.preserves (fun c => c.store.Writable) wr fun _ _ ely move => ely.move move
    rcases ending with ⟨_, exh⟩ | ⟨_, _, ending⟩
    · exact absurd (congrArg Prod.fst exh) ended
    · generalize run cfg n 0 shared = oc at ending
      cases ending with
      | returned _ noFocus noFrames =>
        obtain ⟨focus, stk, forms, aligned⟩ := still.aligned lbs noFrames noFocus
        obtain ⟨_, v, _, s⟩ := aft
        cases focus
        cases stk
        obtain ⟨enough, e, returned, rfl⟩ : ∃ n e,
            runWith Store.suspend cfg n 0 plain = (.ok v, e) ∧ _ :=
          runWith_returns unb (reached.trans moved) rfl
        refine ⟨enough, ?_⟩
        rw [returned]
        exact .value grows ⟨forms, aligned⟩
      | limited exc => simp [unb] at exc
      | @failed er failed _ raise sameEngine samePending =>
        obtain ⟨extra, fi, o, further, raises, alike, named⟩ := still.raise uniform lbs raise
        obtain ⟨enough, abd, gaveUp, s, pending⟩ : ∃ n abd,
            runWith Store.suspend cfg n 0 plain = State.abandon abd o ∧ _ :=
          runWith_fails unb ((reached.trans moved).trans further) raises rfl
        have traceable : abd.isTraceable := by grind [State.isTraceable_of_pending]
        have marked : last.counted.configuration.Marked := still.marked
        have waits : failed.pending = last.counted.pending := samePending
        have same : failed.abandon er = last.counted.abandon er :=
          State.abandon_congr sameEngine waits er
        refine ⟨enough, ?_⟩
        rw [gaveUp, State.abandon_of_traceable traceable, same,
          State.abandon_of_traceable (marked.isTraceable lbs)]
        exact .error (alike.traced abd last.counted)
  ends := by
    intro n _ ended
    refine ⟨n, fun exh => ?_⟩
    simp only [runWith_delay] at exh
    obtain ⟨taken, last, moves, _, ending⟩ := run_spec cfg n 0 shared
    rcases ending with ⟨rfl, _⟩ | ⟨_, _, ending⟩
    · obtain ⟨total, _, _, enough, moved, _⟩ := shares.moves uniform moves
      exact ended (runWith_exhausted unb (reached.trans moved) rfl (by omega))
    · generalize run cfg n 0 shared = oc at ending exh
      cases ending with
      | returned => cases exh
      | limited => simp_all
      | @failed er failed =>
        obtain ⟨raised, same⟩ := failed.abandon_fst er
        simp_all

omit unb uniform in
/-- Machines without frames to update share where they are asked the same. -/
theorem Aligned.shares {focus o : Option (Term × Env)} {r : Value} {k fs : List Frame}
    {plain shared : Store} (aligned : Aligned pr plain shared) (controls : Controls pr focus v o r)
    (rows : Frames pr k fs) (noFrames : updates fs = []) :
    Shares pr ⟨focus, v, k, plain⟩ ⟨o, r, fs, shared⟩ where
  folds := aligned.folds
  frames := rows
  controls := controls
  marked := by
    intro a
    simp [noFrames, aligned.settled a]
  begun := fun pl forcing => absurd forcing (aligned.plainSettled pl)

section

variable (aligned : Aligned pr l.store r.store)

include aligned

theorem Aligned.evaluates {o : Env} (envs : Env.Matches pr env o) (t : Term) (bound : Nat) :
    Tracks (Along Value.Matches) pr bound (fun n => evaluateWith Store.suspend cfg n t env l)
      (fun n => evaluateWith Store.delay cfg n t o r) :=
  Shares.tracks unb uniform (.refl _) (aligned.shares (.term envs) .nil rfl) aligned.writable bound

theorem Aligned.applies {f : Value} (same : Value.Matches pr f o) {args os : List (Option Address)}
    (pairs : List.Forall₂ pr.Pairs args os) (bound : Nat) :
    Tracks (Along Value.Matches) pr bound (fun n => applyWith Store.suspend cfg n f args l)
      (fun n => applyWith Store.delay cfg n o os r) := by
  have rows : Frames pr (args.map .argument) (os.map .argument) := by
    induction pairs with
    | nil => exact .nil
    | cons pair _ ih => exact .argument pair ih
  have noFrames : updates (os.map .argument) = [] := by
    simp [updates, Frame.updated?]
  exact Shares.tracks unb uniform (.refl _) (aligned.shares (.value same) rows noFrames)
    aligned.writable bound

theorem Aligned.forces {th opp : Option Address} (pairs : pr.Pairs th opp) (bound : Nat) :
    Tracks (Along Value.Matches) pr bound (fun n => forceWith Store.suspend cfg n th l)
      (fun n => forceWith Store.delay cfg n opp r) := by
  obtain ⟨pl, a, rfl, rfl, paired⟩ := id pairs
  obtain ⟨_, o, _, there, _⟩ := aligned.folds.held paired
  have asked : Shares pr (askFor pl l.store) (askFor a r.store) :=
    aligned.shares (.term (.layer pairs (.root 0))) .nil rfl
  cases phase : o.phase with
  | forcing => exact absurd (by simp [Store.phase?, there, phase]) (aligned.settled a)
  | forced =>
    have move : Move cfg.host (askFor a r.store)
        ⟨none, o.value, [], r.store⟩ := .reuse (by simp [Store.find]) there phase
    obtain ⟨k, more, ⟨_, v, _, s⟩, moves, grows, still⟩ := asked.move uniform move
    obtain ⟨focus, stk, forms, aft⟩ := still.aligned aligned.writable rfl rfl
    cases focus
    cases stk
    -- the plain thunk has the value as well, or comes to it
    obtain ⟨enough, e, forced, rfl⟩ : ∃ n e,
        forceWith Store.suspend cfg n (some pl) l = (.ok v, e) ∧ e.store = s := by
      obtain ⟨th, held, ⟨forced, same⟩ | ⟨unforced, rest⟩⟩ := moves.asked
      · cases same
        exact ⟨0, _, forceWith_of_forced held forced 0, rfl⟩
      · obtain ⟨n, e, returned, same⟩ := runWith_returns unb rest rfl
        exact ⟨n, e, (forceWith_of_unforced held unforced n).trans returned, same⟩
    simp only [forceWith_of_forced there phase]
    refine ⟨fun _ _ _ => ⟨enough, ?_⟩, fun _ _ _ => ⟨0, by simp [Ended]⟩⟩
    rw [forced]
    exact .value grows ⟨forms, aft⟩
  | unforced =>
    have move := move_entered cfg.host there phase
    obtain ⟨k, more, aft, moves, grows, still⟩ := asked.move uniform move
    obtain ⟨th, held, ⟨_, same⟩ | ⟨unforced, rest⟩⟩ := moves.asked
    · cases same
      exact absurd rfl still.frames.ne_nil
    · simp only [forceWith_of_unforced there phase, forceWith_of_unforced held unforced]
      exact (still.tracks unb uniform rest (aligned.writable.move move) bound).extend grows

theorem Aligned.opens {o : Env} (envs : Env.Matches pr env o) (p : Name) (b : Term) (x : Name)
    (bound : Nat) :
    Tracks (Along Value.Matches) pr bound
      (fun n => openClosureWith Store.suspend cfg n p b env x l)
      (fun n => openClosureWith Store.delay cfg n p b o x r) := by
  have unknowns : Value.Matches pr (l.store.build (.neutral x [])).1
      (r.store.build (.neutral x [])).1 := .neutral .nil
  obtain ⟨grows, added⟩ : pr.Extends (pr.add l.store.size r.store.size) ∧
      Aligned (pr.add l.store.size r.store.size)
        ({ l with store := l.store.withVariable x } : Engine).store
        ({ r with store := r.store.withVariable x } : Engine).store :=
    (aligned.build _ _).alloc unknowns
  have inn : Env.Matches (pr.add l.store.size r.store.size) (.layer p (some l.store.size) env)
      (.layer p (some r.store.size) o) :=
    .layer ⟨_, _, rfl, rfl, Pairing.add_self _ _ _⟩ (envs.extend grows)
  exact (added.evaluates unb uniform inn b bound).extend grows

theorem Aligned.quotes (same : Value.Matches pr v o) (us : List Name) (bound : Nat) :
    Tracks (Along Task.Leads) pr bound (fun n => quoteWith Store.suspend cfg n v us l)
      (fun n => quoteWith Store.delay cfg n o us r) := by
  obtain ⟨form, identity⟩ := v
  obtain ⟨across, otherIdentity⟩ := o
  have grows : pr.Extends pr := fun _ _ => id
  cases same with
  | @closure p b env otherEnv envs =>
    simp only [quoteWith]
    refine Tracks.bind (aligned.opens unb uniform envs p b _)
      (steady_runWith _ cfg 0 _) (steady_runWith _ cfg 0 _)
      (fun _ _ => .of_const _) (fun _ _ => .of_const _) ?_
    rintro more rs opp plain shared _ ⟨matched, still⟩
    exact .of_const (.value (fun _ _ => id)
      ⟨⟨.cons (.quote matched _) (.cons (.bind _) .nil), rfl⟩, still⟩) bound
  | @neutral x args os pairs =>
    exact .of_const (.value grows ⟨.neutral pairs x us, aligned⟩) bound
  | primitive x => exact .of_const (.value grows ⟨⟨.nil, rfl⟩, aligned⟩) bound
  | constant dt =>
    simp only [quoteWith, quote]
    split
    · exact .of_const (.value grows ⟨⟨.nil, rfl⟩, aligned⟩) bound
    · exact .of_const (.error (.same _)) bound

theorem Aligned.performs {o : Task} (same : Task.Matches pr tk o) (ts : List Term)
    (bound : Nat) :
    Tracks (Along Task.Leads) pr bound (fun n => tk.performWith Store.suspend cfg n ts l)
      (fun n => o.performWith Store.delay cfg n ts r) := by
  have append : ∀ {more : Pairing} {fst snd : List Task × List Term} {plain shared : Engine},
      Task.Leads more fst snd → Aligned more plain.store shared.store →
      Tracks (Along Task.Leads) more bound (fun _ => (.ok (fst.1, fst.2 ++ ts), plain))
        (fun _ => (.ok (snd.1, snd.2 ++ ts), shared)) := by
    intro more fst snd plain shared leads still
    exact .of_const (.value (fun _ _ => id) ⟨⟨leads.1, congrArg (· ++ ts) leads.2⟩, still⟩) bound
  cases same with
  | quote matched us =>
    refine Tracks.bind (aligned.quotes unb uniform matched us)
      (steady_quoteWith _ cfg _ us l) (steady_quoteWith _ cfg _ us r)
      (fun _ _ => .of_const _) (fun _ _ => .of_const _) ?_
    rintro more fst snd plain shared _ ⟨leads, still⟩
    exact append leads still
  | quoteThunk pairs us =>
    refine Tracks.bind (aligned.forces unb uniform pairs)
      (steady_forceWith _ cfg _ l) (steady_forceWith _ cfg _ r)
      (fun v aft => (steady_quoteWith _ cfg v us aft).bind fun _ _ => .of_const _)
      (fun v aft => (steady_quoteWith _ cfg v us aft).bind fun _ _ => .of_const _) ?_
    rintro more v opp plain shared _ ⟨matched, still⟩
    refine Tracks.bind (still.quotes unb uniform matched us)
      (steady_quoteWith _ cfg _ us plain) (steady_quoteWith _ cfg _ us shared)
      (fun _ _ => .of_const _) (fun _ _ => .of_const _) ?_
    rintro further fst snd l r _ ⟨leads, later⟩
    exact append leads later
  | bind x =>
    cases ts with
    | nil => exact .of_const (.error (.same _)) bound
    | cons b ts => exact .of_const (.value (fun _ _ => id) ⟨⟨.nil, rfl⟩, aligned⟩) bound
  | combine x k =>
    simp only [Task.performWith, Task.perform]
    split
    · exact .of_const (.error (.same _)) bound
    · exact .of_const (.value (fun _ _ => id) ⟨⟨.nil, rfl⟩, aligned⟩) bound

theorem Aligned.performsAll (st0 o : Nat) {os : List Task}
    (same : List.Forall₂ (Task.Matches pr) tks os) (ts : List Term) (bound : Nat) :
    Tracks (SameAnswer Term) pr bound
      (fun n => performAllWith Store.suspend cfg st0 n tks ts l)
      (fun n => performAllWith Store.delay cfg o n os ts r) := by
  induction bound generalizing pr l r tks os ts with
  | zero => exact ⟨fun n less => absurd less (Nat.not_lt_zero n),
      fun n less => absurd less (Nat.not_lt_zero n)⟩
  | succ bound ih =>
    cases same with
    | nil =>
      simp only [performAllWith_nil]
      cases ts with
      | nil => exact .of_const (.error (.same _)) _
      | cons t ts => exact .of_const (.value (fun _ _ => id) rfl) _
    | @cons tk across tks os head tail =>
      have counted : Aligned pr l.countStep.store r.countStep.store := aligned
      refine Tracks.later ?_ (fun ended => ended rfl)
        (fun n => performAllWith_cons _ cfg (unb _) tk tks ts) (fun ended => ended rfl)
        (fun n => performAllWith_cons _ cfg (unb _) across os ts)
      refine Tracks.bind (counted.performs unb uniform head ts) (steady_performWith _ cfg ts tk _)
        (steady_performWith _ cfg ts across _) (fun _ _ => steady_performAllWith _ cfg st0 _ _ _)
        (fun _ _ => steady_performAllWith _ cfg o _ _ _) ?_
      rintro more ⟨added, built⟩ ⟨addedAlso, _⟩ plain shared grows ⟨⟨matched, rfl⟩, still⟩
      exact ih still (List.rel_append matched
        (tail.imp fun {_ _} alike => alike.extend grows)) built

theorem Aligned.normalizes (same : Value.Matches pr v o) (bound : Nat) :
    Tracks (SameAnswer Term) pr bound (fun n => normalizeWith Store.suspend cfg n v l)
      (fun n => normalizeWith Store.delay cfg n o r) :=
  aligned.performsAll unb uniform _ _ (.cons (.quote same []) .nil) [] bound

theorem Aligned.counts (same : Value.Matches pr v o) (bound : Nat) :
    Tracks (Along Value.Matches) pr bound
      (fun n => countWith Store.suspend cfg n v l) (fun n => countWith Store.delay cfg n o r) := by
  have successors : Value.Matches pr (.given (.primitive successorName))
      (.given (.primitive successorName)) := .primitive successorName
  obtain ⟨grows, one⟩ := aligned.alloc successors
  have zeros : Value.Matches (pr.add l.store.size r.store.size)
      (.given (.constant (.int 0))) (.given (.constant (.int 0))) := .constant (.int 0)
  obtain ⟨further, two⟩ := one.alloc zeros
  simp only [Store.size_alloc] at further two
  have pairs := pr.pairs_two further
  have whole := grows.trans further
  have ctr : Aligned _ ({ l with store := l.store.withCounter } : Engine).store
      ({ r with store := r.store.withCounter } : Engine).store := two
  exact (ctr.applies unb uniform (same.extend whole) pairs bound).extend whole

end

omit unb uniform in
/-- Counts that go in parallel come to the same number. -/
theorem Parallel.tallied {plain shared : Except Stop Value × Engine}
    (parallel : Parallel (Along Value.Matches) pr plain shared) :
    Parallel (SameAnswer (Option Datum)) pr (tallied plain.1, plain.2)
      (tallied shared.1, shared.2) := by
  have grows : pr.Extends pr := fun _ _ => id
  cases parallel with
  | value further related => exact .value further (Value.Matches.integer? related.1)
  | error alike =>
    rcases alike.tallied with ⟨fst, snd⟩ | ⟨fst, snd⟩
    · rw [fst, snd]
      exact .value grows rfl
    · rw [fst, snd]
      exact .error alike

theorem Aligned.numbers (aligned : Aligned pr l.store r.store) (same : Value.Matches pr v o)
    (bound : Nat) :
    Tracks (SameAnswer (Option Datum)) pr bound (fun n => numberWith Store.suspend cfg n v l)
      (fun n => numberWith Store.delay cfg n o r) where
  follows := by
    intro n less ended
    obtain ⟨more, parallel⟩ := (aligned.counts unb uniform same bound).follows n less
      (ended_of_tallied ended)
    exact ⟨more, parallel.tallied⟩
  ends := by
    intro n less ended
    obtain ⟨more, parallel⟩ := Tracks.parallel (aligned.counts unb uniform same)
      (steady_runWith _ cfg 0 _) (ended_of_tallied ended)
    exact ⟨more, parallel.tallied.ended.2⟩

end Runs

/-! ### What can be told -/

/-- What a program can tell of an outcome: the answer, or an error that lies in the program. -/
inductive Told (α : Type) where
  | answer (ans : α)
  | unbound (x : Name)
  | cyclic

def tells {α : Type} : Except Stop α → Option (Told α)
  | .ok ans => some (.answer ans)
  | .error (.raised (.evaluation (.unbound x) _)) => some (.unbound x)
  | .error (.raised (.evaluation (.cyclic _) _)) => some .cyclic
  | .error _ => none

theorem tells_parallel {plain shared : Except Stop α × Engine}
    (parallel : Parallel (SameAnswer α) pr plain shared) : tells plain.1 = tells shared.1 := by
  cases parallel with
  | value _ related => exact congrArg (fun ans => some (Told.answer ans)) related
  | error alike =>
    cases alike with
    | evaluation cause tr o => cases cause <;> rfl
    | cyclic lb across tr o => rfl
    | same => rfl

/-- Requests that track each other tell the same. -/
theorem Tracks.tells_iff {plain shared : Nat → Except Stop α × Engine}
    (tracks : ∀ bound, Tracks (SameAnswer α) pr bound plain shared) (steady : Steady plain)
    (told : Told α) :
    (∃ n, tells (shared n).1 = some told) ↔ ∃ n, tells (plain n).1 = some told := by
  have ended : ∀ {oc : Except Stop α × Engine}, tells oc.1 = some told →
      Ended oc := by
    intro oc tell exh
    rw [exh] at tell
    cases tell
  constructor
  · rintro ⟨n, tell⟩
    obtain ⟨o, parallel⟩ := (tracks (n + 1)).follows n (Nat.lt_succ_self _) (ended tell)
    exact ⟨o, (tells_parallel parallel).trans tell⟩
  · rintro ⟨n, tell⟩
    obtain ⟨o, parallel⟩ := Tracks.parallel tracks steady (ended tell)
    exact ⟨o, (tells_parallel parallel).symm.trans tell⟩

/-- What is asked of the value of a term tells the same, when it does so of counterparts. -/
theorem Aligned.tells_iff (unb : ∀ sts, cfg.limit.exceeded sts = false)
    (uniform : cfg.host.Uniform) (aligned : Aligned pr l.store r.store) {o : Env}
    (envs : Env.Matches pr env o) (t : Term) {next following : Value → Nat → Eval α}
    (steady : ∀ v e, Steady (next v · e)) (steadyAlso : ∀ v e, Steady (following v · e))
    (tracks : ∀ {more v rs} {plain shared : Engine},
      Aligned more plain.store shared.store → Value.Matches more v rs → ∀ bound,
      Tracks (SameAnswer α) more bound (next v · plain) (following rs · shared)) (told : Told α) :
    (∃ n, tells ((evaluateWith Store.delay cfg n t o >>= (following · n)) r).1 = some told) ↔
      ∃ n, tells ((evaluateWith Store.suspend cfg n t env >>= (next · n)) l).1 = some told := by
  have evd : ∀ (dl : Delaying) (env : Env) (e : Engine),
      Steady fun n => evaluateWith dl cfg n t env e := fun dl env e => steady_runWith dl cfg 0 _
  have both := fun bound => Tracks.bind (aligned.evaluates unb uniform envs t)
    (evd Store.suspend env l) (evd Store.delay o r) steady steadyAlso
    fun _ related => tracks related.2 related.1 bound
  exact Tracks.tells_iff both ((evd Store.suspend env l).bind steady) told

/-- It cannot be observed that thunks are shared.  Without a bound on the steps, an expression
over linked modules has the same normal form and the same number for the machine that gives every
argument a thunk of its own: one returns an answer, reports a name as unbound or finds a cycle if
and only if the other one does. -/
theorem sharing_unobservable {ms : Modules} {s : Store} (pg : Program ms s)
    {cfg : Settings} (unb : ∀ sts, cfg.limit.exceeded sts = false)
    (uniform : cfg.host.Uniform) (lk : Module) (t : Term) :
    (∀ told : Told Term,
      (∃ n, tells ((evaluate cfg n t lk.env >>= normalize cfg n) (.fresh s)).1 = some told) ↔
        ∃ n, tells ((evaluateWith Store.suspend cfg n t lk.env >>=
          normalizeWith Store.suspend cfg n) (.fresh s)).1 = some told) ∧
    ∀ told : Told (Option Datum),
      (∃ n, tells ((evaluate cfg n t lk.env >>= number cfg n) (.fresh s)).1 = some told) ↔
        ∃ n, tells ((evaluateWith Store.suspend cfg n t lk.env >>=
          numberWith Store.suspend cfg n) (.fresh s)).1 = some told := by
  have aligned : Aligned _ (Engine.fresh s).store (Engine.fresh s).store := .start pg.linked
  constructor
  · intro told
    have same := aligned.tells_iff unb uniform (.root lk.table) t
      (steady_normalizeWith Store.suspend cfg) (steady_normalizeWith Store.delay cfg)
      (fun still matched => still.normalizes unb uniform matched) told
    simp only [evaluateWith_delay, normalizeWith_delay] at same
    exact same
  · intro told
    have same := aligned.tells_iff unb uniform (.root lk.table) t
      (steady_numberWith Store.suspend cfg) (steady_numberWith Store.delay cfg)
      (fun still matched => still.numbers unb uniform matched) told
    simp only [evaluateWith_delay, numberWith_delay] at same
    exact same

/-- The identity is given a numeral, which is its own value, and a name that stands for nothing.
The machine that does not share decodes the first and reports the second. -/
theorem identity_sharing_unobservable : Program identityModules identityStore ∧
    (∃ n, tells ((evaluateWith Store.suspend ⟨countingHost, none⟩ n
        (.app (.var "Id") (.lam "s" (.lam "z" (.app (.var "s") (.app (.var "s") (.var "z"))))))
        (.root 1) >>= numberWith Store.suspend ⟨countingHost, none⟩ n)
        (.fresh identityStore)).1 = some (.answer (some (.int 2)))) ∧
    ∃ n, tells ((evaluateWith Store.suspend ⟨countingHost, none⟩ n
        (.app (.var "Id") (.var "nothing")) (.root 1) >>=
          normalizeWith Store.suspend ⟨countingHost, none⟩ n)
        (.fresh identityStore)).1 = some (.unbound "nothing") := by
  have same := sharing_unobservable program_identity (fun _ => rfl : ∀ sts,
    (Settings.mk countingHost none).limit.exceeded sts = false) countingHost_uniform
    ⟨"main", some "main", 1, []⟩
  exact ⟨program_identity, ((same _).2 _).mp ⟨40, rfl⟩, ((same _).1 _).mp ⟨40, rfl⟩⟩

end CallByNeed
