import CallByNeed.Proofs.Pairing

/-!
# Two engines side by side

The right engine leads and the left one follows: a move of the right engine is
matched by one or more moves of the left one, an error by the same error.  So
what the left engine computes, the right one computes with no more transitions
(`Lockstep.run`).
-/

variable {kids : List Address} {inn : List Frame} {aft : Engine} {bound : Nat}

namespace CallByNeed

variable {pl : Address}
variable {across : Thunk} {lg : Ledger} {pr : Pairing} {fs rest : List Frame}

namespace Agrees

variable {lk l r aft : Store} {o : Ledger}

/-- The right engine goes on without touching its thunks. -/
theorem lead (agrees : Agrees lk lg pr l r) (grown : r.Grows aft) (grows : lg.Grows r o aft)
    (sameChildren : o.children = lg.children) : Agrees lk o pr l aft := by
  refine ⟨agrees.program, agrees.leftTables, grows.tables.trans agrees.rightTables,
    agrees.declared, fun given => ?_, agrees.injective, fun forcing => ?_, ?_⟩
  · obtain ⟨th, across, held, there, x, same⟩ := agrees.paired given
    exact ⟨th, across, held, grown.keeps there, x,
      same.rebase (grows.source (Store.thunk?_lt there))⟩
  · obtain ⟨th, held, phase⟩ := Option.map_eq_some_iff.mp forcing
    rcases grown.adds held with old | ⟨_, _, rfl⟩ | ⟨_, rfl⟩
    · exact agrees.begun (by simp [Store.phase?, old, phase])
    · simp [Thunk.suspended] at phase
    · simp [Thunk.evaluated] at phase
  · rw [sameChildren]
    exact agrees.repeated

theorem beginBoth (agrees : Agrees lk lg pr l r) (given : pr a = some pl)
    (there : r.thunk? pl = some across) (unforced : across.phase = .unforced) :
    Agrees lk lg pr (l.update a Thunk.begin) (r.update pl Thunk.begin) := by
  refine ⟨agrees.program, agrees.leftTables, agrees.rightTables, agrees.declared,
    fun {again opp} paired => ?_, agrees.injective, fun {opp} forcing => ?_, fun mem paired => ?_⟩
  · obtain ⟨th, o, held, thereAgain, x, same⟩ := agrees.paired paired
    by_cases equal : a = again
    · subst equal
      rw [given] at paired
      cases paired
      rw [there] at thereAgain
      cases thereAgain
      refine ⟨th.begin, across.begin, by simp [held], by simp [there], x, ?_⟩
      cases same with
      | kept _ forced => simp [unforced] at forced
      | ahead _ _ forced => simp [unforced] at forced
      | alike _ _ ct otherContent envs =>
        exact .alike rfl (by simp) ct otherContent envs
    · have apart : pl ≠ opp := fun same =>
        equal (agrees.injective given (same ▸ paired))
      simp_all
  · by_cases equal : pl = opp
    · grind
    · exact agrees.begun (by simpa [Store.phase?, equal] using forcing)
  · obtain ⟨known, pairedKnown, begun⟩ := agrees.repeated mem paired
    refine ⟨known, pairedKnown, ?_⟩
    by_cases equal : a = known
    · simp_all [Store.phase?]
    · simpa [Store.phase?, equal] using begun

theorem memoizeBoth (agrees : Agrees lk lg pr l r) {across : Value}
    (given : pr a = some pl) (forms : Form.Matches pr v.form across.form) (kids : List Address)
    (bound : Nat) :
    Agrees lk (lg.close pl kids bound) pr
      (l.update a (·.memoize v)) (r.update pl (·.memoize across)) := by
  obtain ⟨mine, theirs, heldMine, thereTheirs, nameMine, _⟩ := agrees.paired given
  refine ⟨agrees.program, agrees.leftTables, agrees.rightTables, agrees.declared,
    fun {again opp} paired => ?_, agrees.injective, fun {opp} forcing => ?_,
    fun {again kid own} mem paired => ?_⟩
  · by_cases equal : a = again
    · subst equal
      rw [given] at paired
      cases paired
      exact ⟨mine.memoize v, theirs.memoize across, by simp [heldMine],
        by simp [thereTheirs], nameMine, .kept rfl rfl forms⟩
    · have apart : pl ≠ opp := fun same =>
        equal (agrees.injective given (same ▸ paired))
      obtain ⟨th, o, held, there, x, same⟩ := agrees.paired paired
      exact ⟨th, o, by simp [equal, held], by simp [apart, there], x, same.rebase rfl⟩
  · by_cases equal : pl = opp
    · grind
    · exact agrees.begun (by simpa [Store.phase?, equal] using forcing)
  · by_cases equal : own = pl
    · subst equal
      exact ⟨a, given, by simp [Store.phase?, heldMine]⟩
    · rw [Ledger.close] at mem
      simp only [Function.update_of_ne equal] at mem
      obtain ⟨known, pairedKnown, begun⟩ := agrees.repeated mem paired
      refine ⟨known, pairedKnown, ?_⟩
      by_cases same : a = known
      · simp_all
      · simpa [Store.phase?, same] using begun

end Agrees

/-- While both engines evaluate a thunk, it has the same label in both, which can
be shown. -/
theorem Thunk.Matches.label {o : Thunk} (same : Thunk.Matches lg pr pl th o)
    (xs : th.name = o.name) (forcing : o.phase = .forcing) :
    th.phase = .forcing ∧ th.label = o.label ∧ th.isWritable ∧ o.isWritable := by
  cases same with
  | kept _ forced => simp [forcing] at forced
  | ahead _ _ forced => simp [forcing] at forced
  | alike phase _ ct otherContent _ =>
    obtain ⟨x, held, mine⟩ := th
    obtain ⟨otherName, otherHeld, theirs⟩ := o
    cases xs
    cases ct
    cases otherContent
    refine ⟨phase.trans forcing, ?_⟩
    cases x with
    | none => exact ⟨rfl, rfl, rfl⟩
    | some x => exact ⟨rfl, rfl, rfl⟩

theorem Thunk.Matches.cycle {o : Thunk} (same : Thunk.Matches lg pr pl th o)
    (xs : th.name = o.name) (forcing : o.phase = .forcing) : th.cycle = o.cycle := by
  obtain ⟨_, lbs, wr, otherWritable⟩ := same.label xs forcing
  simp [Thunk.cycle, lbs, wr, otherWritable]

theorem Form.Matches.refusal {l r : Value} (forms : Form.Matches pr l.form r.form)
    (refuses : r.form.isApplicable = false) :
    l.form.isApplicable = false ∧ l.refusal = r.refusal := by
  obtain ⟨form, identity⟩ := l
  obtain ⟨o, otherIdentity⟩ := r
  cases forms with
  | closure => cases refuses
  | neutral => cases refuses
  | primitive => cases refuses
  | constant dt => exact ⟨rfl, rfl⟩

theorem updates_matches {l r : List Frame} (fs : List.Forall₂ (Frame.Matches pr) l r) :
    List.Forall₂ (fun a pl => pr a = some pl) (updates l) (updates r) := by
  induction fs with
  | nil => exact .nil
  | cons head _ ih =>
    cases head with
    | argument => exact ih
    | update paired => exact .cons paired ih
    | call => exact ih

theorem filterMap_matches {fst snd : Address → Option String} {l r : List Address}
    (same : List.Forall₂ (fun a pl => pr a = some pl) l r)
    (alike : ∀ a pl, pr a = some pl → pl ∈ r → fst a = snd pl) :
    l.filterMap fst = r.filterMap snd := by
  induction same with
  | nil => rfl
  | cons head _ ih => grind

/-- Configurations of both engines that are equal up to the pairing. -/
structure Lockstep (host : Host) (lk : Store) (lg : Ledger) (pr : Pairing)
    (l r : Configuration) : Prop where
  recorded : Recorded host lk lg r
  agrees : Agrees lk lg pr l.store r.store
  occupied : ∀ a, l.store.phase? a = some .forcing →
    ∃ pl, pr a = some pl ∧ r.store.phase? pl = some .forcing
  aims : Aim.Matches pr l.aim r.aim
  frames : List.Forall₂ (Frame.Matches pr) l.stack r.stack

namespace Lockstep

variable {host : Host} {lk : Store} {l r next : Configuration}

section

variable (lock : Lockstep host lk lg pr l r)

include lock

/-- Cuts the stack of the left engine where that of the right one is cut. -/
theorem cut (k : r.stack = fs ++ rest) :
    ∃ mine base, l.stack = mine ++ base ∧
      Shows pr l ⟨r.aim, fs⟩ base ∧ List.Forall₂ (Frame.Matches pr) base rest := by
  have same := lock.frames
  rw [k] at same
  have fr := List.forall₂_take_append _ _ _ same
  have bk := List.forall₂_drop_append _ _ _ same
  have whole := (List.take_append_drop fs.length l.stack).symm
  exact ⟨_, _, whole, ⟨lock.aims, _, whole, fr⟩, bk⟩

omit lock in
theorem own (uniform : host.Uniform) (lock : Lockstep host lk lg pr l r) {o : Ledger} (stk : r.stack = fs ++ rest)
    (recorded : Recorded host lk o next) (echo : Echo host o next.store bound kids ⟨r.aim, fs⟩ part)
    (grown : r.store.Grows next.store) (grows : lg.Grows r.store o next.store)
    (sameChildren : o.children = lg.children) (aim : next.aim = part.aim)
    (split : next.stack = part.frames ++ rest) (new : ∀ kid ∈ kids, r.store.size ≤ kid) :
    ∃ k ahead more, 0 < k ∧ Moves host k l ahead ∧ pr.Extends more ∧
      Lockstep host lk o more ahead next := by
  obtain ⟨mine, base, whole, shows, bases⟩ := lock.cut stk
  have agrees := lock.agrees.lead grown grows sameChildren
  have occupied : Occupied o bound pr l.store next.store := by
    intro a forcing
    obtain ⟨pl, given, begun⟩ := lock.occupied a forcing
    obtain ⟨th, held, phase⟩ := Option.map_eq_some_iff.mp begun
    exact ⟨pl, given, .inl (by simp [Store.phase?, grown.keeps held, phase])⟩
  obtain ⟨k, more, ahead, enough, moves, onward, agreesAhead, aims, top, stackAhead, same⟩ :=
    agrees.follow uniform recorded.fits (fun rank _ => recorded.fits.repeats uniform rank) occupied
      shows echo
      (by
        intro kid mem known given
        obtain ⟨_, th, _, there, _⟩ := lock.agrees.paired given
        exact absurd (Store.thunk?_lt there) (Nat.not_lt.mpr (new kid mem)))
      (by
        intro kid mem owner known
        rw [sameChildren] at known
        exact absurd (lock.recorded.fits.owned known).2.1 (Nat.not_lt.mpr (new kid mem)))
  refine ⟨k, ahead, more, enough, moves, onward.grows, recorded, agreesAhead, ?_, ?_, ?_⟩
  · intro a forcing
    obtain ⟨pl, given, begun⟩ := lock.occupied a ((onward.forcing a).mp forcing)
    obtain ⟨th, held, phase⟩ := Option.map_eq_some_iff.mp begun
    exact ⟨pl, onward.grows _ _ given, by simp [Store.phase?, grown.keeps held, phase]⟩
  · rw [aim]
    exact aims
  · rw [stackAhead, split]
    exact List.rel_append same (bases.imp fun {_ _} matched => matched.extend onward.grows)

theorem enter (k : r.stack = fs ++ rest) (asks : Asks r.store ⟨r.aim, fs⟩ pl inn)
    (there : r.store.thunk? pl = some across) (unforced : across.phase = .unforced)
    (recorded : Recorded host lk lg ⟨across.code?, r.value,
      .update pl :: (inn ++ rest), r.store.update pl Thunk.begin⟩) :
    ∃ ahead, Move host l ahead ∧ Lockstep host lk lg pr ahead
      ⟨across.code?, r.value, .update pl :: (inn ++ rest), r.store.update pl Thunk.begin⟩ := by
  obtain ⟨_, base, _, shows, bases⟩ := lock.cut k
  obtain ⟨mine, a, os, whole, asksLeft, given, same⟩ := asks.matched lock.agrees shows
  obtain ⟨th, o, held, again, _, matched⟩ := lock.agrees.paired given
  rw [there] at again
  cases again
  cases matched with
  | kept _ forced => simp [unforced] at forced
  | ahead _ _ forced => simp [unforced] at forced
  | @alike t env otherEnv phase _ ct otherContent envs =>
    rw [unforced] at phase
    refine ⟨_, asksLeft.enter whole held phase, recorded,
      lock.agrees.beginBoth given there unforced, ?_, ?_, ?_⟩
    · intro known forcing
      by_cases equal : a = known
      · simp_all [Store.phase?]
      · obtain ⟨opp, paired, begun⟩ := lock.occupied known
          (by simpa [Store.phase?, equal] using forcing)
        have apart : pl ≠ opp := fun same =>
          equal (lock.agrees.injective given (same ▸ paired))
        simp_all [Store.phase?]
    · simp only [Configuration.aim, Thunk.code?, ct, otherContent]
      exact .term envs
    · exact .cons (.update given) (List.rel_append same bases)

theorem memoize {below : List Frame} (noFocus : r.focus = none)
    (top : r.stack = .update pl :: below)
    (recorded : Recorded host lk (lg.close pl kids bound)
      ⟨none, r.value, below, r.store.update pl (·.memoize r.value)⟩) :
    ∃ ahead, Move host l ahead ∧
      Lockstep host lk (lg.close pl kids bound) pr ahead
        ⟨none, r.value, below, r.store.update pl (·.memoize r.value)⟩ := by
  have aim : r.aim = .form r.value.form := by simp [Configuration.aim, noFocus]
  obtain ⟨th, held, forcing⟩ := lock.recorded.forcing top
  have same := lock.frames
  rw [top] at same
  obtain ⟨focus, v, whole, s⟩ := l
  cases same with
  | @cons _ _ base _ head tail =>
    cases head with
    | @update a _ given =>
      obtain ⟨noFocusLeft, form⟩ : focus = none ∧ Form.Matches pr v.form r.value.form := by
        have aims := lock.aims
        rw [aim] at aims
        generalize aimed : Configuration.aim _ = mine at aims
        cases aims with
        | form forms =>
          obtain ⟨empty, rfl⟩ := Configuration.focus_of_form aimed
          simp_all
      subst noFocusLeft
      refine ⟨_, .memoize, recorded,
        lock.agrees.memoizeBoth given form kids bound, ?_, .form form, tail⟩
      intro known begun
      have differ : a ≠ known := by
        rintro rfl
        simp_all [Store.phase?]
      obtain ⟨opp, paired, begunThere⟩ := lock.occupied known
        (by simpa [Store.phase?, differ] using begun)
      have apart : pl ≠ opp := fun same =>
        differ (lock.agrees.injective given (same ▸ paired))
      simp_all [Store.phase?]

omit lock in
/-- A move of the right engine is matched by moves of the left one. -/
theorem move (uniform : host.Uniform) (lock : Lockstep host lk lg pr l r)
    (move : Move host r next) :
    ∃ cnt ahead o more, 0 < cnt ∧ Moves host cnt l ahead ∧
      pr.Extends more ∧ Lockstep host lk o more ahead next := by
  have recorded := lock.recorded
  have marked := recorded.marked.move move
  obtain ⟨fs, rest, k, tracks⟩ := recorded.tracks
  cases move.advance recorded.fits tracks.bottom tracks.plain k with
  | @own o kids bound part _ echo grown grows fits sameChildren aim split plain new dst =>
    have later : Recorded host lk o next := by
      refine ⟨fits, marked, part.frames, rest, split, ?_⟩
      rw [aim]
      exact tracks.advance grows echo plain new dst
    obtain ⟨cnt, ahead, more, some, moves, growing, together⟩ :=
      lock.own uniform k later echo grown grows sameChildren aim split
        fun kid mem => (new kid mem).1
    exact ⟨cnt, ahead, o, more, some, moves, growing, together⟩
  | enter asks held unforced =>
    obtain ⟨ahead, fst, together⟩ := lock.enter k asks held unforced
      (recorded.enter tracks asks held unforced marked rfl rfl rfl)
    exact ⟨1, ahead, lg, pr, Nat.one_pos, .step fst (.refl _), fun _ _ => id, together⟩
  | memoize noFocus noFrames top =>
    cases noFrames
    cases top
    obtain ⟨kids, bound, later⟩ := recorded.memoize noFocus tracks k marked rfl rfl rfl rfl
    obtain ⟨ahead, fst, together⟩ := lock.memoize noFocus k later
    exact ⟨1, ahead, _, pr, Nat.one_pos, .step fst (.refl _), fun _ _ => id, together⟩

omit lock in
theorem moves (uniform : host.Uniform) {k : Nat} (lock : Lockstep host lk lg pr l r)
    (moves : Moves host k r next) :
    ∃ more ahead o extended, k ≤ more ∧ Moves host more l ahead ∧
      pr.Extends extended ∧ Lockstep host lk o extended ahead next := by
  induction moves generalizing l lg pr with
  | refl => exact ⟨0, l, lg, pr, Nat.le_refl 0, .refl _, fun _ _ => id, lock⟩
  | step fst _ ih =>
    obtain ⟨some, mid, between, paired, positive, fr, grows, together⟩ := lock.move uniform fst
    obtain ⟨more, ahead, o, extended, enough, bk, further, ended⟩ := ih together
    exact ⟨some + more, ahead, o, extended, by omega, fr.trans bk, grows.trans further, ended⟩

/-- The right engine finds that it needs a value in order to compute it, and so
does the left one. -/
theorem cyclic (asks : Asks r.store ⟨r.aim, r.stack⟩ pl inn)
    (there : r.store.thunk? pl = some across) (forcing : across.phase = .forcing) :
    Raise host l across.cycle := by
  obtain ⟨mine, a, os, whole, asksLeft, given, _⟩ :=
    asks.matched lock.agrees ⟨lock.aims, l.stack, (List.append_nil _).symm, lock.frames⟩
  obtain ⟨th, o, held, again, xs, same⟩ := lock.agrees.paired given
  rw [there] at again
  cases again
  rw [← same.cycle xs forcing]
  exact asksLeft.cyclic whole held (same.label xs forcing).1

omit lock in
theorem raise (uniform : host.Uniform) (lock : Lockstep host lk lg pr l r)
    (raise : Raise host r er) : Raise host l er := by
  have shows : Shows pr l ⟨r.aim, r.stack⟩ [] :=
    ⟨lock.aims, l.stack, (List.append_nil _).symm, lock.frames⟩
  have dangling : ∀ {th opp : Option Address}, pr.Pairs th opp →
      opp.bind r.store.thunk? ≠ none := by
    rintro _ _ ⟨a, pl, rfl, rfl, given⟩ empty
    obtain ⟨_, o, _, there, _⟩ := lock.agrees.paired given
    simp [there] at empty
  cases raise with
  | @unbound x env v k s lost =>
    obtain ⟨focus, mine, whole, heap⟩ := l
    obtain ⟨o, fs, rfl, rfl, envs, _⟩ := shows.term
    rcases lock.agrees.find envs x with ⟨none, _⟩ | ⟨_, _, _, found, _⟩
    · exact .unbound none
    · simp [lost] at found
  | @dangling x env v k s a found empty =>
    obtain ⟨focus, mine, whole, heap⟩ := l
    obtain ⟨o, fs, rfl, rfl, envs, _⟩ := shows.term
    rcases lock.agrees.find envs x with ⟨_, lost⟩ | ⟨_, pl, _, again, given⟩
    · simp [found] at lost
    · cases found.symm.trans again
      exact absurd empty (dangling ⟨_, _, rfl, rfl, given⟩)
  | cyclic found held forcing => exact lock.cyclic (.name found) held forcing
  | @refused v arg k s refuses =>
    obtain ⟨focus, mine, whole, heap⟩ := l
    obtain ⟨fs, rfl, rfl, forms, same⟩ := shows.form
    cases same with
    | cons head tail =>
      cases head with
      | argument pairs =>
        obtain ⟨refusesLeft, errors⟩ := forms.refusal refuses
        rw [← errors]
        exact .refused refusesLeft
  | unsupplied prim empty =>
    have fs := lock.frames
    generalize l.stack = whole at fs
    cases fs with
    | cons head tail =>
      cases head with
      | argument pairs => exact absurd empty (dangling pairs)
  | @cyclicArgument v a k s x th prim held forcing =>
    have asks : Asks s ⟨.form v.form, .argument (some a) :: k⟩ a (.call x :: k) := by
      rw [prim]
      exact .primitive
    exact lock.cyclic asks held forcing
  | @host v x k s er failed =>
    obtain ⟨focus, mine, whole, heap⟩ := l
    obtain ⟨fs, rfl, rfl, forms, same⟩ := shows.form
    cases same with
    | cons head tail =>
      cases head with
      | call =>
        rcases uniform pr x mine v forms with
          ⟨_, _, _, computed, _⟩ | ⟨again, failedLeft, failedAgain⟩
        · simp_all
        · cases failed.symm.trans failedAgain
          exact .host failedLeft

theorem final (noFocus : r.focus = none) (noFrames : r.stack = []) :
    l.focus = none ∧ l.stack = [] ∧ Form.Matches pr l.value.form r.value.form := by
  have aim : r.aim = .form r.value.form := by simp [Configuration.aim, noFocus]
  have shows : Shows pr l ⟨.form r.value.form, []⟩ [] := by
    refine ⟨aim ▸ lock.aims, l.stack, (List.append_nil _).symm, ?_⟩
    rw [← noFrames]
    exact lock.frames
  obtain ⟨fs, noFocusLeft, k, forms, same⟩ := shows.form
  simp_all

theorem updates :
    List.Forall₂ (fun a pl => pr a = some pl)
      (CallByNeed.updates l.stack) (CallByNeed.updates r.stack) := updates_matches lock.frames

theorem mem_updates (given : pr a = some pl) :
    a ∈ CallByNeed.updates l.stack ↔ pl ∈ CallByNeed.updates r.stack := by
  have unique : Relator.BiUnique fun a pl => pr a = some pl := by
    constructor
    · intro a again pl paired pairedAgain
      exact lock.agrees.injective paired pairedAgain
    · intro a pl again paired pairedAgain
      simp_all
  exact List.rel_mem unique given lock.updates

end

theorem trace {l r : State} (lock : Lockstep host lk lg pr l.configuration r.configuration) :
    l.trace = r.trace := by
  have same := lock.updates
  unfold State.trace State.pending
  rw [List.filterMap_reverse, List.filterMap_reverse]
  refine congrArg List.reverse (filterMap_matches same fun a pl given mem => ?_)
  obtain ⟨th, o, held, there, xs, matched⟩ := lock.agrees.paired given
  have begun : r.configuration.store.phase? pl = some .forcing :=
    lock.recorded.marked.forcing_iff.mpr mem
  have forcing : o.phase = .forcing := by simpa [Store.phase?, there] using begun
  simp only [State.configuration] at held there
  rw [held, there]
  exact congrArg some (matched.label xs forcing).2.1

theorem unwind {l r : State} (lock : Lockstep host lk lg pr l.configuration r.configuration) :
    Agrees lk lg pr l.unwind.store r.unwind.store := by
  have agrees := lock.agrees
  have pending : ∀ {a pl}, pr a = some pl → (a ∈ l.pending ↔ pl ∈ r.pending) := by
    intro a pl given
    rw [State.mem_pending_iff_updates, State.mem_pending_iff_updates]
    exact lock.mem_updates given
  have forcing : ∀ {pl}, r.engine.store.phase? pl = some .forcing ↔ pl ∈ r.pending := by
    intro pl
    rw [State.mem_pending_iff_updates]
    exact lock.recorded.marked.forcing_iff
  refine ⟨agrees.program, l.unwind_tables.trans agrees.leftTables,
    r.unwind_tables.trans agrees.rightTables, agrees.declared, fun {a pl} given => ?_,
    agrees.injective, fun {pl} begun => ?_, fun {a kid own} mem given => ?_⟩
  · obtain ⟨th, o, held, there, xs, same⟩ := agrees.paired given
    simp only [State.configuration] at held there
    rw [State.unwind_thunk?, State.unwind_thunk?, held, there]
    by_cases waiting : pl ∈ r.pending
    · have begun : o.phase = .forcing := by grind [Store.phase?]
      rw [if_pos waiting, if_pos ((pending given).mpr waiting)]
      refine ⟨th.reset, o.reset, rfl, rfl, by simp [xs], ?_⟩
      cases same with
      | kept _ forced => simp [begun] at forced
      | ahead _ _ forced => simp [begun] at forced
      | alike phase _ ct otherContent envs =>
        refine .alike ?_ ?_ (by simpa using ct) (by simpa using otherContent) envs
        · simp [Thunk.reset, phase, begun]
        · simp [Thunk.reset, begun]
    simp_all
  · obtain ⟨th, held, phase⟩ := Option.map_eq_some_iff.mp begun
    rw [State.unwind_thunk?] at held
    split at held
    · obtain ⟨reset, _, rfl⟩ := Option.map_eq_some_iff.mp held
      exact absurd phase reset.phase_reset
    grind [Store.phase?]
  · obtain ⟨known, paired, begun⟩ := agrees.repeated mem given
    have ended : r.engine.store.phase? own = some .forced := (lock.recorded.fits.owned mem).2.2
    have free : own ∉ r.pending := fun waiting => by grind
    refine ⟨known, paired, ?_⟩
    rw [Store.phase?, State.unwind_thunk?, if_neg fun waiting => free ((pending paired).mp waiting)]
    exact begun

end Lockstep

/-- A request was not cut short by its bound or for want of fuel. -/
def Stop.isDecisive : Stop → Bool
  | .raised (.evaluation (.stepLimit _) _) => false
  | .outOfFuel => false
  | _ => true

/-- What a request gives that is not cut short. -/
def Decided {α : Type} (r : Except Stop α) : Prop := ∀ stop, r = .error stop → stop.isDecisive

theorem run_decided {r : Except Stop Value} (marked : st.configuration.Marked) (wr : st.engine.store.Writable)
    (ran : run cfg n taken st = (r, aft)) (decided : Decided r) :
    ∃ (k : Nat) (last : State), Moves cfg.host k st.configuration last.configuration ∧
      last.engine.tally.steps = st.engine.tally.steps + k ∧ k < n ∧
      cfg.limit.exceeded (taken + k + 1) = false ∧ last.counted.isTraceable ∧
      (∀ next, ¬ Move cfg.host last.configuration next) ∧
      ((last.focus = none ∧ last.stack = [] ∧
          (r, aft) = (.ok last.value, last.engine.countStep)) ∨
        ∃ er, Raise cfg.host last.configuration er ∧ (r, aft) = last.counted.abandon er) := by
  obtain ⟨k, last, moves, sts, ending⟩ := run_spec cfg n taken st
  have lbs : last.engine.store.Writable :=
    moves.preserves (fun c => c.store.Writable) wr fun _ _ ely move => ely.move move
  have marks : last.configuration.Marked :=
    moves.preserves Configuration.Marked marked fun _ _ ely move => ely.move move
  have traceable : last.counted.isTraceable := Configuration.Marked.isTraceable (by exact marks) lbs
  rw [ran] at ending
  rcases ending with ⟨_, exh⟩ | ⟨enough, _, ending⟩
  · exact absurd (decided .outOfFuel (congrArg Prod.fst exh)) (by simp [Stop.isDecisive])
  · generalize oc : (r, aft) = pair at ending
    cases ending with
    | returned within noFocus noFrames =>
      exact ⟨k, last, moves, sts, enough, within, traceable,
        fun _ move => move.stack_ne_nil noFocus noFrames, .inl ⟨noFocus, noFrames, rfl⟩⟩
    | limited exc =>
      rw [State.abandon_of_traceable traceable] at oc
      exact absurd (decided _ (congrArg Prod.fst oc)) (by simp [Stop.isDecisive, State.traced])
    | @failed er failed within raise sameEngine samePending =>
      have pending : failed.pending = last.counted.pending := samePending
      have same := State.abandon_congr sameEngine pending er
      exact ⟨k, last, moves, sts, enough, within, traceable,
        fun _ move => move.excludes raise, .inr ⟨er, raise, same⟩⟩

/-- Both requests give values that are related, or stop for the same reason. -/
inductive Coincide {ε α β : Type} (rel : α → β → Prop) :
    Except ε α → Except ε β → Prop where
  | value {l r} (related : rel l r) : Coincide rel (.ok l) (.ok r)
  | stop (reason : ε) : Coincide rel (.error reason) (.error reason)

theorem Coincide.refl {ε α : Type} (r : Except ε α) : Coincide Eq r r := by
  cases r with
  | ok v => exact .value rfl
  | error stop => exact .stop stop

/-- Values that are equal up to a pairing and their identities. -/
def Value.Matches (pr : Pairing) (l r : Value) : Prop := Form.Matches pr l.form r.form

/-- What the left engine computes, the right one computes with no more
transitions. -/
theorem Lockstep.run {lk : Store} {l r : State}
    {rs : Except Stop Value} (uniform : cfg.host.Uniform)
    (lock : Lockstep cfg.host lk lg pr l.configuration r.configuration)
    (marked : l.configuration.Marked) (wr : l.engine.store.Writable)
    (ran : CallByNeed.run cfg n taken l = (rs, aft)) (decided : Decided rs) :
    ∃ oc last o more, CallByNeed.run cfg n taken r = (oc, last) ∧
      pr.Extends more ∧ o.Fits cfg.host lk last.store ∧ Agrees lk o more aft.store last.store ∧
      Coincide (Value.Matches more) rs oc ∧
      last.tally.steps + l.engine.tally.steps ≤ aft.tally.steps + r.engine.tally.steps := by
  obtain ⟨k, ended, moves, sts, enough, within, traceable, halted, ending⟩ :=
    run_decided marked wr ran decided
  obtain ⟨fewer, reached, led, stepsRight, endingRight⟩ := run_spec cfg n taken r
  obtain ⟨more, ahead, o, extended, least, follows, grows, together⟩ := lock.moves uniform led
  obtain ⟨rest, rfl, remaining⟩ := follows.rest moves halted
  rcases endingRight with ⟨exh, _⟩ | ⟨_, _, endingRight⟩
  · omega
  generalize oc : CallByNeed.run cfg n taken r = pair at endingRight
  cases endingRight with
  | limited exc =>
    have sooner : cfg.limit.exceeded (taken + fewer + 1) = false :=
      Limit.exceeded_mono (by omega) within
    simp_all
  | returned _ noFocus noFrames =>
    obtain ⟨noFocusLeft, noFramesLeft, forms⟩ := together.final noFocus noFrames
    obtain ⟨rfl, rfl⟩ := remaining.eq_of_halted fun next move =>
      move.stack_ne_nil noFocusLeft noFramesLeft
    rcases ending with ⟨_, _, same⟩ | ⟨er, raise, _⟩
    · cases same
      exact ⟨_, _, o, extended, rfl, grows, together.recorded.fits, together.agrees,
        .value forms, by simp; omega⟩
    · exact absurd noFramesLeft (raise.stack_ne_nil noFocusLeft)
  | @failed er failed _ raise sameEngine samePending =>
    have raiseLeft := together.raise uniform raise
    obtain ⟨rfl, rfl⟩ := remaining.eq_of_halted fun next move => move.excludes raiseLeft
    have pending : failed.pending = reached.counted.pending := samePending
    have traceableRight : reached.counted.isTraceable :=
      Configuration.Marked.isTraceable (by exact together.recorded.marked)
        together.recorded.fits.writable
    have counted : Lockstep cfg.host lk o extended ended.counted.configuration
        reached.counted.configuration := together
    rcases ending with ⟨noFocus, noFrames, _⟩ | ⟨again, raiseAgain, same⟩
    · exact absurd noFrames (raiseLeft.stack_ne_nil noFocus)
    · cases raiseLeft.determines raiseAgain
      rw [State.abandon_of_traceable traceable] at same
      cases same
      have errors : ended.counted.traced er = reached.counted.traced er := by
        unfold State.traced
        rw [counted.trace]
      have fits : o.Fits cfg.host lk reached.counted.engine.store := together.recorded.fits
      have gaveUp : failed.abandon er =
          (.error (.raised (ended.counted.traced er)), reached.counted.unwind) := by
        rw [State.abandon_congr sameEngine pending er,
          State.abandon_of_traceable traceableRight, errors]
      refine ⟨_, _, o, extended, gaveUp, grows, fits.unwind, counted.unwind, .stop _, ?_⟩
      simp [State.counted]
      omega

end CallByNeed
