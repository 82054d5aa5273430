import CallByNeed.Proofs.Lockstep

/-!
# Requests to two engines

Two engines for one program are between requests, and the right one may have
more values.  A request to the left engine that is not cut short gives the same
as the request to the right one, up to a pairing of their thunks, and the right
engine takes no more transitions for it (`Mirrors`).
-/

variable {aft : Engine}

namespace CallByNeed

variable {l r : Engine}

/-- Stores of one program between requests that hold the same, except that the
right one may have more values. -/
structure Peers (host : Host) (lk : Store) (pr : Pairing) (l r : Store) :
    Prop where
  agree : ∃ lg, Ledger.Fits host lk lg r ∧
    Agrees lk lg pr l r
  leftSettled : l.Settled
  leftWritable : l.Writable
  rightSettled : r.Settled

namespace Peers

variable {host : Host} {lk l r : Store} {pr : Pairing}

theorem start (wlk : lk.Linked) (reached : ReachedBy host lk r) :
    ∃ pr, Peers host lk pr lk r ∧ ∀ a < lk.size, pr a = some a := by
  obtain ⟨settled, lg, fits⟩ := reached.recorded wlk
  have dcd : ∀ {a pl : Address},
      (if a < lk.size then some a else none) = some pl → pl = a ∧ a < lk.size := by simp
  refine ⟨fun a => if a < lk.size then some a else none,
    ⟨⟨lg, fits, ?_⟩, wlk.settled, wlk.writable, settled⟩, fun a within => if_pos within⟩
  refine ⟨wlk, rfl, fits.tables, fun a within => if_pos within,
    fun {a pl} given => ?_, fun {a again pl} given givenAgain => ?_,
    fun {pl} forcing => absurd forcing (settled pl), fun {a kid own} mem given => ?_⟩
  · obtain ⟨rfl, within⟩ := dcd given
    obtain ⟨th, held⟩ := Store.thunk?_of_lt within
    obtain ⟨src, _, later, there, x⟩ := fits.declared held
    obtain ⟨t, num, lb, rfl⟩ := wlk.declared held
    refine ⟨_, later, held, there, x.symm, ?_⟩
    cases phase : later.phase with
    | forced => exact .ahead (by simp [Thunk.suspended]) rfl phase src (.root num)
    | forcing => exact absurd (by simp [Store.phase?, there, phase]) (settled pl)
    | unforced =>
      have notForced : later.phase ≠ .forced := by simp [phase]
      obtain ⟨code, env, ct, again⟩ := fits.code there notForced
      cases src.symm.trans again
      exact .alike phase.symm notForced rfl ct (.root num)
  · simp_all
  · obtain ⟨rfl, within⟩ := dcd given
    obtain ⟨th, held⟩ := Store.thunk?_of_lt within
    have unowned := (fits.declared held).2.1
    rw [(fits.owned mem).1] at unowned
    cases unowned

theorem build (peers : Peers host lk pr l r) (form o : Form) :
    Peers host lk pr (l.build form).2 (r.build o).2 := by
  obtain ⟨⟨lg, fits, agrees⟩, leftSettled, leftWritable, rightSettled⟩ := peers
  have led := agrees.lead (r.grows_build o) (lg.grows_build r o) rfl
  exact ⟨⟨lg, fits.build o, led.build form⟩, leftSettled, leftWritable, rightSettled⟩

theorem alloc (peers : Peers host lk pr l r) {o : Value} (same : Value.Matches pr v o) :
    pr.Extends (pr.add l.size r.size) ∧
      Peers host lk (pr.add l.size r.size)
        (l.alloc (.evaluated v none)).2 (r.alloc (.evaluated o none)).2 := by
  obtain ⟨⟨lg, fits, agrees⟩, leftSettled, leftWritable, rightSettled⟩ := peers
  have settles := kept_settles ⟨host, none⟩
  have grows := Pairing.extends_add agrees.unpaired r.size
  have added : Ledger.Fits host lk (lg.add r.size none none)
      (r.alloc (.evaluated o none)).2 := fits.add (.inr ⟨o, none, rfl, rfl⟩) none
  have led := agrees.lead (r.grows_alloc o) (lg.grows_add r (.evaluated o none) none none) rfl
  obtain ⟨settledLeft, writableLeft, _⟩ := settles.alloc l v leftSettled leftWritable
  obtain ⟨settledRight, _⟩ := settles.alloc r o rightSettled fits.writable
  refine ⟨grows, ⟨⟨_, added, led.add ((Store.thunk?_alloc _ _ _).trans (if_pos rfl)) rfl
    (.kept rfl rfl (same.extend grows)) ?_ ?_⟩, settledLeft, writableLeft, settledRight⟩⟩
  · intro a given
    obtain ⟨_, th, _, there, _⟩ := agrees.paired given
    exact absurd (Store.thunk?_lt there) (Nat.lt_irrefl _)
  · intro own mem
    exact absurd (fits.owned mem).2.1 (Nat.lt_irrefl _)

theorem rightWritable (peers : Peers host lk pr l r) : r.Writable := by
  obtain ⟨lg, fits, _⟩ := peers.agree
  exact fits.writable

end Peers

/-- What a request leads to in both engines. -/
structure Proceeds (host : Host) (lk : Store) (pr more : Pairing)
    (l r aft last : Engine) : Prop where
  grows : pr.Extends more
  peers : Peers host lk more aft.store last.store
  steps : last.tally.steps + l.tally.steps ≤ aft.tally.steps + r.tally.steps

variable {host : Host} {pr : Pairing} {α : Type} {rs : Except Stop Value} {env : Env}

theorem Proceeds.refl {lk : Store} (peers : Peers host lk pr l.store r.store) :
    Proceeds host lk pr pr l r l r :=
  ⟨fun _ _ => id, peers, Nat.le_of_eq (Nat.add_comm _ _)⟩

theorem Proceeds.trans {lk : Store} {mid more : Pairing} {between o last : Engine}
    (early : Proceeds host lk pr mid l r between o)
    (late : Proceeds host lk mid more between o aft last) :
    Proceeds host lk pr more l r aft last := by
  refine ⟨early.grows.trans late.grows, late.peers, ?_⟩
  have fst := early.steps
  have snd := late.steps
  omega

/-- The second request does to the right engine what the first one does to the
left engine. -/
def Mirrors (host : Host) (lk : Store) {α β : Type} (rel : Pairing → α → β → Prop)
    (pr : Pairing) (fst : Eval α) (snd : Eval β) : Prop :=
  ∀ ⦃l r : Engine⦄ ⦃rs : Except Stop α⦄ ⦃aft : Engine⦄,
    Peers host lk pr l.store r.store → fst l = (rs, aft) → Decided rs →
    ∃ oc last more, snd r = (oc, last) ∧
      Proceeds host lk pr more l r aft last ∧ Coincide (rel more) rs oc

theorem Decided.ended {rs : Except Stop α} (decided : Decided rs) :
    ∀ stop, stop = .outOfFuel → rs ≠ .error stop := by
  rintro stop rfl failed
  have decisive := decided .outOfFuel failed
  cases decisive

theorem Decided.error {β : Type} {stop : Stop}
    (decided : Decided (Except.error stop : Except Stop α)) :
    Decided (Except.error stop : Except Stop β) := by
  intro o same
  cases same
  exact decided stop rfl

theorem Coincide.decided {β : Type} {rel : α → β → Prop} {rs : Except Stop α} {oc : Except Stop β}
    (coincide : Coincide rel rs oc) (decided : Decided rs) : Decided oc := by
  cases coincide with
  | value => simp [Decided]
  | stop stop => exact decided.error

section Runs

variable {cfg : Settings} {lk : Store} {n : Nat}

section

variable (uniform : cfg.host.Uniform)

include uniform

theorem Lockstep.proceeds {st0 opp : Configuration} {k o : Nat} {l r : State}
    (peers : Peers cfg.host lk pr st0.store opp.store) (plain : Plain st0.stack)
    (plainRight : Plain opp.stack) (moves : Moves cfg.host k st0 l.configuration)
    (movesRight : Moves cfg.host o opp r.configuration)
    (lock : Lockstep cfg.host lk lg pr l.configuration r.configuration)
    (ran : CallByNeed.run cfg n 0 l = (rs, aft)) (decided : Decided rs) :
    ∃ oc last more, CallByNeed.run cfg n 0 r = (oc, last) ∧
      Proceeds cfg.host lk pr more l.engine r.engine aft last ∧
      Coincide (Value.Matches more) rs oc := by
  have marked := (Underway.moves peers.leftSettled plain moves).marked
  have wr : l.configuration.store.Writable :=
    moves.preserves (fun c => c.store.Writable) peers.leftWritable fun _ _ ely move => ely.move move
  obtain ⟨oc, last, records, more, ranRight, grows, fits, agrees, coincide, sts⟩ :=
    lock.run uniform marked wr ran decided
  have settles := kept_settles cfg
  obtain ⟨settled, lbs, _⟩ :=
    settles.run plain moves ran decided.ended peers.leftSettled peers.leftWritable
  obtain ⟨settledRight, _⟩ :=
    settles.run plainRight movesRight ranRight (coincide.decided decided).ended
      peers.rightSettled peers.rightWritable
  exact ⟨oc, last, more, ranRight,
    ⟨grows, ⟨⟨records, fits, agrees⟩, settled, lbs, settledRight⟩, sts⟩, coincide⟩

omit uniform in
theorem Peers.lockstep (l r : Configuration) (peers : Peers host lk pr l.store r.store)
    (aims : Aim.Matches pr l.aim r.aim) (fs : List.Forall₂ (Frame.Matches pr) l.stack r.stack)
    (plain : Plain r.stack) : ∃ lg, Lockstep host lk lg pr l r := by
  obtain ⟨lg, fits, agrees⟩ := peers.agree
  exact ⟨lg, .start fits peers.rightSettled plain, agrees,
    fun a forcing => absurd forcing (peers.leftSettled a), aims, fs⟩

theorem Mirrors.evaluate {o : Env} (envs : Env.Matches pr env o) (t : Term) :
    Mirrors cfg.host lk Value.Matches pr (evaluate cfg n t env) (evaluate cfg n t o) := by
  intro l r rs aft peers evd decided
  have plain : Plain [] := by simp [Plain]
  obtain ⟨lg, lock⟩ :=
    Peers.lockstep ⟨some (t, env), Value.absent, [], l.store⟩
      ⟨some (t, o), Value.absent, [], r.store⟩ peers (.term envs) .nil plain
  exact lock.proceeds uniform peers plain plain (.refl _) (.refl _) evd decided

theorem Mirrors.apply {f o : Value} {args os : List (Option Address)} (same : Value.Matches pr f o)
    (pairs : List.Forall₂ pr.Pairs args os) :
    Mirrors cfg.host lk Value.Matches pr (apply cfg n f args) (apply cfg n o os) := by
  intro l r rs aft peers applied decided
  have plain : ∀ passed : List (Option Address), Plain (passed.map .argument) := by
    simp [Plain]
  have fs : List.Forall₂ (Frame.Matches pr) (args.map .argument) (os.map .argument) := by
    rw [List.forall₂_map_left_iff, List.forall₂_map_right_iff]
    exact pairs.imp fun {_ _} paired => .argument paired
  obtain ⟨lg, lock⟩ :=
    Peers.lockstep ⟨none, f, args.map .argument, l.store⟩
      ⟨none, o, os.map .argument, r.store⟩ peers (.form same) fs (plain os)
  exact lock.proceeds uniform peers (plain args) (plain os) (.refl _) (.refl _) applied decided

theorem Peers.enter (peers : Peers cfg.host lk pr l.store r.store) {o : Thunk}
    (given : pr a = some pl) (held : l.store.thunk? a = some th) (unforced : th.phase = .unforced)
    (there : r.store.thunk? pl = some o) (unforcedRight : o.phase = .unforced)
    (ran : run cfg n 0 (entered a th l) = (rs, aft)) (decided : Decided rs) :
    ∃ oc last more, run cfg n 0 (entered pl o r) = (oc, last) ∧
      Proceeds cfg.host lk pr more l r aft last ∧ Coincide (Value.Matches more) rs oc := by
  have plain : Plain [] := by simp [Plain]
  have move := move_entered cfg.host held unforced
  have moveRight := move_entered cfg.host there unforcedRight
  have envs : Env.Matches pr (.layer "" (some a) (.root 0))
      (.layer "" (some pl) (.root 0)) := .layer ⟨a, pl, rfl, rfl, given⟩ (.root 0)
  obtain ⟨lg, lock⟩ := Peers.lockstep (askFor a l.store)
    (askFor pl r.store) peers (.term envs) .nil plain
  have asks : Asks r.store ⟨(askFor pl r.store).aim, []⟩ pl [] := .name (by simp [Store.find])
  have begun : (entered pl o r).configuration = ⟨o.code?, Value.absent,
      [.update pl], r.store.update pl Thunk.begin⟩ := by
    simp [entered, State.configuration]
  have marked := lock.recorded.marked.move moveRight
  rw [begun] at marked
  obtain ⟨ahead, fst, together⟩ := lock.enter rfl asks there unforcedRight
    (lock.recorded.enter (.outside plain) asks there unforcedRight marked rfl rfl rfl)
  cases move.determines fst
  obtain ⟨oc, last, more, ranRight, proceeds, coincide⟩ :=
    Lockstep.proceeds uniform peers plain plain (.step move (.refl _)) (.step moveRight (.refl _))
      (begun ▸ together) ran decided
  refine ⟨oc, last, more, ranRight, ⟨proceeds.grows, proceeds.peers, ?_⟩, coincide⟩
  simpa [entered] using proceeds.steps

/-- The right engine has evaluated a thunk and the left one has not. -/
theorem Agrees.repeated_run (peers : Peers cfg.host lk pr l.store r.store)
    (fits : lg.Fits cfg.host lk r.store) (agrees : Agrees lk lg pr l.store r.store)
    {o : Thunk} {otherEnv : Env} (given : pr a = some pl)
    (held : l.store.thunk? a = some th) (unforced : th.phase = .unforced)
    (ct : th.content = .code t env) (there : r.store.thunk? pl = some o)
    (forced : o.phase = .forced) (src : lg.source pl = some (t, otherEnv))
    (envs : Env.Matches pr env otherEnv) (ran : run cfg n 0 (entered a th l) = (rs, aft))
    (decided : Decided rs) :
    ∃ more, Proceeds cfg.host lk pr more l r aft r.countHit ∧
      Coincide (Value.Matches more) rs (.ok o.value) := by
  have plain : Plain (askFor a l.store).stack := by simp [Plain, askFor]
  have asked := Moves.step (move_entered cfg.host held unforced) (.refl _)
  have begun : (entered a th l).configuration = ⟨th.code?, Value.absent,
      [.update a], l.store.update a Thunk.begin⟩ := by
    simp [entered, State.configuration]
  have marked := (Underway.moves peers.leftSettled plain asked).marked
  have wr : (entered a th l).configuration.store.Writable :=
    peers.leftWritable.move (move_entered cfg.host held unforced)
  obtain ⟨settled, lbs, _⟩ := (kept_settles cfg).run plain asked ran decided.ended
    peers.leftSettled peers.leftWritable
  have idle : Occupied lg (lg.rank pl + 1) pr l.store r.store :=
    fun known forcing => absurd forcing (peers.leftSettled known)
  have st0 : Agrees lk lg pr (askFor a l.store).store r.store := agrees
  obtain ⟨k, more, v, s, moves, onward, agreesAfter, forms⟩ :=
    st0.replay fits (fits.repeats uniform _) idle (Nat.lt_succ_self _) given held unforced
      ct there forced src envs []
  obtain ⟨total, last, ranMoves, sts, _, _, _, halted, ending⟩ := run_decided marked wr ran decided
  rw [begun] at ranMoves
  obtain ⟨rest, rfl, remaining⟩ := moves.rest ranMoves halted
  obtain ⟨same, rfl⟩ := remaining.eq_of_halted fun _ move => move.stack_ne_nil rfl rfl
  obtain ⟨focus, fi, stk, e⟩ := last
  cases same
  rcases ending with ⟨_, _, returned⟩ | ⟨er, raise, _⟩
  · cases returned
    refine ⟨more, ⟨onward.grows, ⟨⟨lg, fits, agreesAfter⟩, settled, lbs,
      peers.rightSettled⟩, ?_⟩, .value forms⟩
    simp [entered] at sts
    simp [Engine.countHit, Engine.countStep]
    omega
  · exact absurd rfl (raise.stack_ne_nil rfl)

theorem Mirrors.force {th opp : Option Address} (pairs : pr.Pairs th opp) :
    Mirrors cfg.host lk Value.Matches pr (force cfg n th) (force cfg n opp) := by
  obtain ⟨a, pl, rfl, rfl, given⟩ := pairs
  intro l r rs aft peers forced decided
  obtain ⟨lg, fits, agrees⟩ := peers.agree
  obtain ⟨mine, theirs, held, there, _, matched⟩ := agrees.paired given
  have notForcing : mine.phase ≠ .forcing := fun forcing =>
    peers.leftSettled a (by simp [Store.phase?, held, forcing])
  cases matched with
  | kept forcedLeft forcedRight forms =>
    rw [force_of_forced cfg n held forcedLeft] at forced
    cases forced
    exact ⟨_, _, pr, force_of_forced cfg n there forcedRight,
      ⟨fun _ _ => id, peers, Nat.le_of_eq (Nat.add_comm _ _)⟩, .value forms⟩
  | alike phase notForced =>
    have unforcedRight : theirs.phase = .unforced := by
      cases known : theirs.phase with
      | unforced => rfl
      | forcing => exact absurd (phase.trans known) notForcing
      | forced => exact absurd known notForced
    have unforced := phase.trans unforcedRight
    rw [force_of_unforced cfg n held unforced] at forced
    rw [force_of_unforced cfg n there unforcedRight]
    exact peers.enter uniform given held unforced there unforcedRight forced decided
  | ahead notForced ct forcedRight src envs =>
    have unforced : mine.phase = .unforced := by
      cases known : mine.phase with
      | unforced => rfl
      | forcing => exact absurd known notForcing
      | forced => exact absurd known notForced
    rw [force_of_unforced cfg n held unforced] at forced
    obtain ⟨more, proceeds, coincide⟩ := agrees.repeated_run uniform peers fits given held
      unforced ct there forcedRight src envs forced decided
    grind [force_of_forced]

end

end Runs

namespace Mirrors

variable {lk : Store} {β γ δ : Type} {rel : Pairing → α → β → Prop}
  {related : Pairing → γ → δ → Prop}

theorem pure {l : α} {r : β} (same : rel pr l r) : Mirrors host lk rel pr (pure l) (pure r) := by
  intro e o rs aft peers returned _
  cases returned
  exact ⟨_, o, pr, rfl, .refl peers, .value same⟩

theorem throw (stop : Stop) : Mirrors host lk rel pr (throw stop) (throw stop) := by
  intro e o rs aft peers thrown _
  cases thrown
  exact ⟨_, o, pr, rfl, .refl peers, .stop stop⟩

theorem bind {fst : Eval α} {snd : Eval β} {next : α → Eval γ} {following : β → Eval δ}
    (mirrors : Mirrors host lk rel pr fst snd)
    (continues : ∀ {more l r}, pr.Extends more → rel more l r →
      Mirrors host lk related more (next l) (following r)) :
    Mirrors host lk related pr (fst >>= next) (snd >>= following) := by
  intro l r rs aft peers ran decided
  rcases Action.bind_cases ran with ⟨stop, rfl, stopped⟩ | ⟨v, mid, began, ran⟩
  · obtain ⟨oc, last, more, same, proceeds, coincide⟩ := mirrors peers stopped decided.error
    cases coincide
    exact ⟨_, last, more, Action.bind_error same _, proceeds, .stop stop⟩
  · obtain ⟨oc, between, more, same, proceeds, coincide⟩ := mirrors peers began (by simp [Decided])
    cases coincide with
    | value matched =>
      obtain ⟨oc, last, further, rest, later, coincide⟩ :=
        continues proceeds.grows matched proceeds.peers ran decided
      exact ⟨oc, last, further, (Action.bind_ok same _).trans rest, proceeds.trans later, coincide⟩

theorem after {fst : Eval α} {snd : Eval β} {more : Pairing}
    (mirrors : Mirrors host lk rel more fst snd) {o : Store} (peers : Peers host lk more s o)
    (grows : pr.Extends more) {last : Engine} {rs : Except Stop α}
    (ran : fst { l with store := s } = (rs, last)) (decided : Decided rs) :
    ∃ oc fi further, snd { r with store := o } = (oc, fi) ∧
      Proceeds host lk pr further l r last fi ∧ Coincide (rel further) rs oc := by
  have changed : Peers host lk more ({ l with store := s } : Engine).store
      ({ r with store := o } : Engine).store := peers
  obtain ⟨oc, fi, further, same, proceeds, coincide⟩ := mirrors changed ran decided
  exact ⟨oc, fi, further, same,
    ⟨grows.trans proceeds.grows, proceeds.peers, proceeds.steps⟩, coincide⟩

end Mirrors

inductive Task.Matches (pr : Pairing) : Task → Task → Prop where
  | quote {v o} (same : Value.Matches pr v o) (us : List Name) :
      Matches pr (.quote v us) (.quote o us)
  | quoteThunk {th pl} (pairs : pr.Pairs th pl) (us : List Name) :
      Matches pr (.quoteThunk th us) (.quoteThunk pl us)
  | bind (x : Name) : Matches pr (.bind x) (.bind x)
  | combine (x : Name) (k : Nat) : Matches pr (.combine x k) (.combine x k)

theorem Task.Matches.extend {o : Pairing} {across : Task} (same : Task.Matches pr tk across)
    (grows : pr.Extends o) : Task.Matches o tk across := by
  cases same with
  | quote matched us => exact .quote (matched.extend grows) us
  | quoteThunk pairs us => exact .quoteThunk (pairs.extend grows) us
  | bind x => exact .bind x
  | combine x k => exact .combine x k

/-- What a task leads to in both engines. -/
def Task.Leads (pr : Pairing) (l r : List Task × List Term) : Prop :=
  List.Forall₂ (Task.Matches pr) l.1 r.1 ∧ l.2 = r.2

/-- The arguments of neutral values are read back one after the other. -/
theorem Task.Leads.neutral {args os : List (Option Address)} (pairs : List.Forall₂ pr.Pairs args os)
    (x : Name) (us : List Name) :
    Task.Leads pr (args.map (.quoteThunk · us) ++ [.combine x args.length], [])
      (os.map (.quoteThunk · us) ++ [.combine x os.length], []) := by
  have tks : List.Forall₂ (Task.Matches pr)
      (args.map (.quoteThunk · us)) (os.map (.quoteThunk · us)) := by
    rw [List.forall₂_map_left_iff, List.forall₂_map_right_iff]
    exact pairs.imp fun {_ _} paired => .quoteThunk paired us
  have combine : Task.Matches pr (.combine x args.length) (.combine x os.length) := by
    rw [pairs.length_eq]
    exact .combine x os.length
  exact ⟨List.rel_append tks (.cons combine .nil), rfl⟩

variable {v o : Value}

section ReadBack

variable {cfg : Settings} {lk : Store} {n : Nat}

section

variable (uniform : cfg.host.Uniform)

include uniform

theorem Mirrors.openClosure {o : Env} (envs : Env.Matches pr env o) (p : Name) (b : Term)
    (x : Name) :
    Mirrors cfg.host lk Value.Matches pr
      (openClosure cfg n p b env x) (openClosure cfg n p b o x) := by
  intro l r rs aft peers opened decided
  rw [openClosure_eq] at opened ⊢
  have built := peers.build (.neutral x []) (.neutral x [])
  have unknowns : Value.Matches pr (l.store.build (.neutral x [])).1
      (r.store.build (.neutral x [])).1 := .neutral .nil
  obtain ⟨grows, added⟩ : pr.Extends (pr.add l.store.size r.store.size) ∧
      Peers cfg.host lk (pr.add l.store.size r.store.size)
        (l.store.withVariable x) (r.store.withVariable x) := built.alloc unknowns
  have inn : Env.Matches (pr.add l.store.size r.store.size) (.layer p (some l.store.size) env)
      (.layer p (some r.store.size) o) :=
    .layer ⟨_, _, rfl, rfl, Pairing.add_self _ _ _⟩ (envs.extend grows)
  exact (Mirrors.evaluate uniform inn b).after added grows opened decided

theorem Mirrors.quote (same : Value.Matches pr v o) (us : List Name) :
    Mirrors cfg.host lk Task.Leads pr (quote cfg n v us) (quote cfg n o us) := by
  obtain ⟨form, identity⟩ := v
  obtain ⟨across, otherIdentity⟩ := o
  cases same with
  | @closure p b env otherEnv envs =>
    apply Mirrors.bind (Mirrors.openClosure uniform envs p b _)
    intro more rs opp _ matched
    exact .pure ⟨.cons (.quote matched _) (.cons (.bind _) .nil), rfl⟩
  | @neutral x args os pairs =>
    exact .pure (.neutral pairs x us)
  | primitive x => exact .pure ⟨.nil, rfl⟩
  | constant dt =>
    simp only [CallByNeed.quote]
    split
    · exact .pure ⟨.nil, rfl⟩
    · exact .throw _

theorem Mirrors.perform {o : Task} (same : Task.Matches pr tk o) (ts : List Term) :
    Mirrors cfg.host lk Task.Leads pr (tk.perform cfg n ts) (o.perform cfg n ts) := by
  have append : ∀ {more : Pairing} {l r : List Task × List Term}, Task.Leads more l r →
      Task.Leads more (l.1, l.2 ++ ts) (r.1, r.2 ++ ts) := by
    intro more l r leads
    exact ⟨leads.1, congrArg (· ++ ts) leads.2⟩
  cases same with
  | quote matched us =>
    apply Mirrors.bind (Mirrors.quote uniform matched us)
    intro more l r _ leads
    exact .pure (append leads)
  | quoteThunk pairs us =>
    apply Mirrors.bind (Mirrors.force uniform pairs)
    intro more v opp _ matched
    apply Mirrors.bind (Mirrors.quote uniform matched us)
    intro further l r _ leads
    exact .pure (append leads)
  | bind x =>
    cases ts with
    | nil => exact .throw _
    | cons b ts => exact .pure ⟨.nil, rfl⟩
  | combine x k =>
    simp only [Task.perform]
    split
    · exact .throw _
    · exact .pure ⟨.nil, rfl⟩

/-- The right engine has used up no more of the bound than the left one. -/
theorem Peers.performAll {st0 o : Nat} {os : List Task} {rs : Except Stop Term}
    (peers : Peers cfg.host lk pr l.store r.store) (same : List.Forall₂ (Task.Matches pr) tks os)
    (budget : r.tally.steps + st0 ≤ l.tally.steps + o)
    (perf : performAll cfg st0 n tks ts l = (rs, aft)) (decided : Decided rs) :
    ∃ oc last more, CallByNeed.performAll cfg o n os ts r = (oc, last) ∧
      Proceeds cfg.host lk pr more l r aft last ∧
      Coincide Eq rs oc := by
  induction n generalizing pr tks os ts l r with
  | zero =>
    cases same with
    | nil =>
      obtain ⟨oc, same⟩ := performAll_nil cfg 0 ts
      rw [(same _).1] at perf
      cases perf
      exact ⟨_, r, pr, (same _).1 _, .refl peers, .refl _⟩
    | cons head tail =>
      cases perf
      exact absurd rfl (decided.ended _ rfl)
  | succ n ih =>
    cases same with
    | nil =>
      obtain ⟨oc, same⟩ := performAll_nil cfg (n + 1) ts
      rw [(same _).1] at perf
      cases perf
      exact ⟨_, r, pr, (same _).1 _, .refl peers, .refl _⟩
    | @cons tk across tks os head tail =>
      cases bound : cfg.limit.exceeded (l.tally.steps + 1 - st0) with
      | true =>
        rw [performAll_exceeded cfg n bound] at perf
        cases perf
        have decisive := decided _ rfl
        cases decisive
      | false =>
        have within : cfg.limit.exceeded (r.tally.steps + 1 - o) = false :=
          Limit.exceeded_mono (by omega) bound
        rcases done : tk.perform cfg n ts l.countStep with ⟨early, mid⟩
        have counted : Peers cfg.host lk pr l.countStep.store r.countStep.store := peers
        have sooner : Decided early := by
          rintro stop rfl
          rw [performAll_error cfg n bound done] at perf
          cases perf
          exact decided stop rfl
        obtain ⟨oc, between, more, opp, proceeds, coincide⟩ :=
          Mirrors.perform uniform head ts counted done sooner
        have stepped : Proceeds cfg.host lk pr more l r mid
            between := by
          refine ⟨proceeds.grows, proceeds.peers, ?_⟩
          have sts := proceeds.steps
          simp only [Engine.countStep] at sts
          omega
        cases coincide with
        | stop stop =>
          rw [performAll_error cfg n bound done] at perf
          cases perf
          exact ⟨_, between, more, performAll_error cfg n within opp _, stepped, .stop stop⟩
        | @value built across leads =>
          obtain ⟨added, built⟩ := built
          obtain ⟨addedRight, builtRight⟩ := across
          obtain ⟨matched, rfl⟩ := leads
          rw [performAll_ok cfg n bound done] at perf
          rw [performAll_ok cfg n within opp]
          have rest := List.rel_append matched
            (tail.imp fun {_ _} alike => alike.extend stepped.grows)
          have sts := stepped.steps
          obtain ⟨oc, last, further, same, later, coincide⟩ := ih stepped.peers rest (by omega) perf
          exact ⟨oc, last, further, same, stepped.trans later, coincide⟩

theorem Mirrors.normalize (same : Value.Matches pr v o) :
    Mirrors cfg.host lk (fun _ => Eq) pr (normalize cfg n v) (normalize cfg n o) := by
  intro l r rs aft peers normalized decided
  exact peers.performAll uniform (.cons (.quote same []) .nil)
    (Nat.le_of_eq (Nat.add_comm _ _)) normalized decided

theorem Mirrors.count (same : Value.Matches pr v o) :
    Mirrors cfg.host lk Value.Matches pr (count cfg n v) (count cfg n o) := by
  intro l r rs aft peers counted decided
  rw [count_eq] at counted ⊢
  have successors : Value.Matches pr (.given (.primitive successorName))
      (.given (.primitive successorName)) := .primitive successorName
  obtain ⟨grows, one⟩ := peers.alloc successors
  have zeros : Value.Matches (pr.add l.store.size r.store.size)
      (.given (.constant (.int 0))) (.given (.constant (.int 0))) := .constant (.int 0)
  obtain ⟨further, two⟩ := one.alloc zeros
  simp only [Store.size_alloc] at further two
  have pairs := pr.pairs_two further
  have whole := grows.trans further
  exact (Mirrors.apply uniform (same.extend whole) pairs).after two whole counted decided

omit uniform in
theorem Value.Matches.integer? (same : Value.Matches pr v o) : v.integer? = o.integer? := by
  obtain ⟨form, identity⟩ := v
  obtain ⟨across, otherIdentity⟩ := o
  cases same <;> rfl

theorem Mirrors.number (same : Value.Matches pr v o) :
    Mirrors cfg.host lk (fun _ => Eq) pr (number cfg n v) (number cfg n o) := by
  intro l r rs aft peers numbered decided
  rcases number_cases cfg n numbered with
    ⟨found, counted, rfl⟩ | ⟨tx, tr, counted, rfl⟩ | ⟨stop, counted, rfl, os⟩
  · obtain ⟨oc, last, more, opp, proceeds, coincide⟩ :=
      Mirrors.count uniform same peers counted (by simp [Decided])
    cases coincide with
    | value matched =>
      exact ⟨_, last, more, number_of_ok cfg n opp, proceeds, .value matched.integer?⟩
  · obtain ⟨oc, last, more, opp, proceeds, coincide⟩ :=
      Mirrors.count uniform same peers counted (by simp [Decided, Stop.isDecisive])
    cases coincide
    exact ⟨_, last, more, number_of_refused cfg n opp, proceeds, .refl _⟩
  · obtain ⟨oc, last, more, opp, proceeds, coincide⟩ :=
      Mirrors.count uniform same peers counted decided.error
    cases coincide
    exact ⟨_, last, more, number_of_error cfg n opp os, proceeds, .stop stop⟩

end

end ReadBack

end CallByNeed
