import CallByNeed.Proofs.Standardization
import CallByNeed.Proofs.StepBounds

/-!
# Normal forms are found

If a term has a normal form at all, the machine finds it.  A standard reduction
to a normal form first reaches a value at the head, which the machine returns
(`Resting.evaluates`), and then goes on in the parts of the value, which are what
reading back asks for (`readsBack`).
-/

namespace CallByNeed

variable {a : Address} {known : Address → Prop} {mn : Name → Nameless}

/-! ### Normal forms -/

variable {t f r : Nameless} {dp : Nat} {args : List Nameless}
  {s : Store}

namespace Nameless

/-- A term in normal form.  Its variables belong to binders in it, to `depth` further ones or
to known addresses. -/
def NormalIn (known : Address → Prop) : (dp : Nat) → Nameless → Prop
  | dp, bound i => i < dp
  | _, free a => known a
  | _, missing _ => False
  | dp, lam b => b.NormalIn known (dp + 1)
  | dp, app f arg =>
    (∀ b, f ≠ lam b) ∧ f.NormalIn known dp ∧ arg.NormalIn known dp

theorem NormalIn.occurs (normal : t.NormalIn known dp) (occurs : t.Occurs a) : known a := by
  induction t generalizing dp with
  | bound i => exact occurs.elim
  | free o =>
    cases occurs
    exact normal
  | missing x => exact occurs.elim
  | lam b ih => exact ih normal occurs
  | app f arg ihF ihA =>
    rcases occurs with l | r
    · exact ihF normal.2.1 l
    · exact ihA normal.2.2 r

theorem instantiate_free_ne_lam (notLam : ∀ b, t ≠ lam b) (dp : Nat) (a : Address) (b : Nameless) :
    t.instantiate dp (free a) ≠ lam b := by
  cases t with
  | bound i =>
    simp only [instantiate]
    split_ifs <;> simp
  | free o => simp [instantiate]
  | missing x => simp [instantiate]
  | lam inn => exact absurd rfl (notLam inn)
  | app f arg => simp [instantiate]

/-- A variable in the place of a binder leaves a term in normal form. -/
theorem NormalIn.instantiate (normal : t.NormalIn known (dp + 1)) (a : Address) :
    (t.instantiate dp (free a)).NormalIn (fun o => known o ∨ o = a) dp := by
  induction t generalizing dp with
  | bound i => grind [NormalIn, Nameless.instantiate]
  | free o => exact .inl normal
  | missing x => exact normal
  | lam b ih => exact ih normal
  | app f arg ihF ihA =>
    obtain ⟨notLam, l, r⟩ := normal
    exact ⟨fun b => instantiate_free_ne_lam notLam dp a b, ihF l, ihA r⟩

theorem size_instantiate_free (t : Nameless) (dp : Nat) (a : Address) :
    (t.instantiate dp (free a)).size = t.size := by
  induction t generalizing dp with
  | bound i =>
    simp only [instantiate]
    split_ifs <;> rfl
  | free o => rfl
  | missing x => rfl
  | lam b ih => simp only [instantiate, lift, size, ih]
  | app f arg ihF ihA =>
    simp only [instantiate, size, ihF, ihA]

end Nameless

theorem Term.nameless_normalIn {t : Term} (normal : t.isNormal)
    (closed : ∀ x ∈ t.freeNames, x ∈ bds) : (t.nameless mn bds).NormalIn known bds.length := by
  induction t generalizing bds with
  | var x =>
    have bound : x ∈ bds := closed x (by simp [freeNames])
    simp only [nameless, if_pos bound]
    exact List.idxOf_lt_length_of_mem bound
  | lam p b ih =>
    have inn : ∀ x ∈ b.freeNames, x ∈ p :: bds := by
      intro x free
      by_cases same : x = p
      · simp [same]
      simp_all [freeNames]
    exact ih normal inn
  | app f arg ihF ihA =>
    have parts : (∀ p b, f ≠ .lam p b) ∧ f.isNormal ∧
        arg.isNormal := by
      cases f <;> simp_all [isNormal]
    refine ⟨fun b same => ?_, ihF parts.2.1 fun x free => ?_, ihA parts.2.2 fun x free => ?_⟩
    · cases f with
      | var x =>
        have bound : x ∈ bds := closed x (mem_freeNames_app.2 (.inl (by simp [freeNames])))
        simp [nameless, bound] at same
      | lam p inn => exact absurd rfl (parts.1 p inn)
      | app inn last => cases same
    · exact closed x (mem_freeNames_app.2 (.inl free))
    · exact closed x (mem_freeNames_app.2 (.inr free))

section Final

variable {pg : Definitions}

theorem Final.app (ends : Final pg f) (notLam : ∀ b, f ≠ .lam b) (arg : Nameless) :
    Final pg (.app f arg) := by
  intro reduced step
  cases step with
  | beta => exact notLam _ rfl
  | left step => exact ends _ step

theorem Final.apply (ends : Final pg f) (notLam : ∀ b, f ≠ .lam b) (args : List Nameless) :
    Final pg (f.apply args) := by
  induction args generalizing f with
  | nil => exact ends
  | cons arg args ih => exact ih (ends.app notLam arg) (by simp)

theorem final_free (undefined : pg a = none) : Final pg (.free a) := by
  intro reduced step
  cases step with
  | unfold defined => simp [undefined] at defined

theorem final_bound (i : Nat) : Final pg (.bound i) := by
  intro reduced step
  cases step

theorem Final.eq_of_steps {k : Nat} (ends : Final pg t)
    (sts : HeadSteps pg k t reduced) : reduced = t := by
  cases sts with
  | refl => rfl
  | step step _ => exact absurd step (ends _)

theorem Standard.of_lam {b : Nameless} (standard : Standard pg (.lam b) r) :
    ∃ reduced, r = .lam reduced ∧ Standard pg b reduced := by
  cases standard with
  | atom sts small =>
    rw [(final_lam b).eq_of_steps sts] at small
    cases small
  | lam sts inn =>
    cases (final_lam b).eq_of_steps sts
    simp_all
  | app sts l rt => cases (final_lam b).eq_of_steps sts

theorem Standard.of_app {arg : Nameless} (ends : Final pg (.app f arg))
    (standard : Standard pg (.app f arg) r) :
    ∃ reduced o, r = .app reduced o ∧ Standard pg f reduced ∧ Standard pg arg o := by
  cases standard with
  | atom sts small =>
    rw [ends.eq_of_steps sts] at small
    cases small
  | lam sts inn => cases ends.eq_of_steps sts
  | app sts l rt =>
    cases ends.eq_of_steps sts
    simp_all

theorem Standard.of_variable (undefined : pg a = none)
    (standard : Standard pg ((Nameless.free a).apply args) r) :
    ∃ os, r = (Nameless.free a).apply os ∧ List.Forall₂ (Standard pg) args os := by
  induction args using List.reverseRecOn generalizing r with
  | nil =>
    cases standard with
    | atom sts small => exact ⟨[], (final_free undefined).eq_of_steps sts, .nil⟩
    | lam sts inn => cases (final_free undefined).eq_of_steps sts
    | app sts l rt => cases (final_free undefined).eq_of_steps sts
  | append_singleton args last ih =>
    have ends := (final_free undefined).apply (by simp) (args ++ [last])
    rw [Nameless.apply_append] at standard ends
    obtain ⟨reduced, o, rfl, l, rt⟩ := standard.of_app ends
    obtain ⟨os, rfl, each⟩ := ih l
    exact ⟨os ++ [o], by rw [Nameless.apply_append]; rfl, List.rel_append each (.cons rt .nil)⟩

/-- A standard reduction to a normal form comes by a value, with a variable at its head if
it is no abstraction. -/
theorem Standard.value (undefined : ∀ a, known a → pg a = none) (standard : Standard pg t r)
    (normal : r.NormalIn known dp) :
    ∃ k v, HeadSteps pg k t v ∧ Final pg v ∧ (∀ x, v.head ≠ .missing x) ∧ Standard pg v r := by
  induction r generalizing t with
  | bound i =>
    cases standard with
    | atom sts small =>
      exact ⟨_, _, sts, final_bound i, by simp [Nameless.head], .refl _⟩
  | free a =>
    cases standard with
    | atom sts small =>
      exact ⟨_, _, sts, final_free (undefined a normal), by simp [Nameless.head], .refl _⟩
  | missing x => exact normal.elim
  | lam b =>
    cases standard with
    | atom sts small => cases small
    | lam sts inn =>
      exact ⟨_, _, sts, final_lam _, by simp [Nameless.head], .lam (.refl _) inn⟩
  | app f arg ihF ihA =>
    cases standard with
    | atom sts small => cases small
    | app sts l rt =>
      obtain ⟨notLam, normalLeft, _⟩ := normal
      obtain ⟨k, v, more, ends, present, rest⟩ := ihF l normalLeft
      have noLam : ∀ b, v ≠ .lam b := by
        rintro b rfl
        obtain ⟨reduced, same, _⟩ := rest.of_lam
        exact notLam reduced same
      exact ⟨_, _, sts.trans (more.left _), ends.app noLam _, present, .app (.refl _) rest rt⟩

end Final

/-! ### Runs that return -/

/-- A store between requests: its thunks hold what they stand for, none of them is being
evaluated, and their labels can be shown. -/
structure Resting (lk : Store) (rl : Roles) (s : Store) : Prop where
  sound : Sound lk rl s
  settled : s.Settled
  writable : s.Writable

section Returning

variable {lk : Store} {rl : Roles} {cfg : Settings} {ending : Nameless} {sts : Nat}

theorem Sound.undefined (wlk : lk.Linked) (sound : Sound lk rl s)
    (opened : rl a = some (.opened x)) : lk.definitions a = none := by
  rw [← Option.not_isSome_iff_eq_none]
  intro defined
  simp [sound.declared (wlk.definitions_isSome.mp defined)] at opened

theorem Denotes.final (wlk : lk.Linked) (sound : Sound lk rl s) {mn : Nameless}
    (denotes : Denotes lk rl v mn) : Final lk.definitions mn := by
  cases denotes with
  | closure form gives => exact final_lam _
  | neutral form opened given =>
    exact (final_free (sound.undefined wlk opened)).apply (by simp) _

/-- The machine comes to what reduction calls for. -/
theorem Means.comes {st0 : Configuration}
    (wlk : lk.Linked) (settled : st0.store.Settled) (noFrames : ∀ a, .update a ∉ st0.stack)
    (sound : Sound lk rl st0.store) (means : Means lk rl [] st0 wt total)
    (reaches : HeadSteps lk.definitions sts total ending) (ends : Final lk.definitions ending)
    (present : ∀ x, ending.head ≠ .missing x) :
    ∃ (v : Value) (s : Store) (o : Roles), st0.Reaches host v s ∧ rl.Grow 0 o ∧
      Sound lk o s ∧ Denotes lk o v ending := by
  obtain ⟨k, last, moves, halted⟩ := means.halts sound reaches ends
  rcases Configuration.halted halted with ⟨noFocus, noStack⟩ | ⟨er, raise⟩
  · obtain ⟨_, v, _, s⟩ := last
    cases noFocus
    cases noStack
    have came : st0.Reaches host v s := ⟨k, moves⟩
    obtain ⟨o, more, r, grow, soundLast, further, denotes⟩ := means.returned sound came
    cases reaches.final_eq further ends (denotes.final wlk soundLast)
    exact ⟨v, s, o, came, grow, soundLast, denotes⟩
  · obtain ⟨o, more, reduced, _, _, soundLast, further, stands⟩ := means.moves sound moves
    have marked := (Underway.moves settled noFrames moves).marked
    rcases stands.raise soundLast marked raise with ⟨x, _, missing⟩ | ⟨diverges, _⟩
    · cases reaches.final_eq further ends (final_of_missing missing)
      exact absurd missing (present x)
    · exact absurd ends ((Diverges.of_steps further diverges).not_final reaches)

namespace Resting

variable {e : Engine}

theorem settles {aft : Store} {o : Roles} (resting : Resting lk rl s) (settles : Settles s aft)
    (sound : Sound lk o aft) : Resting lk o aft := by
  obtain ⟨settled, wr, _⟩ := settles resting.settled resting.writable
  exact ⟨sound, settled, wr⟩

theorem evaluates (wlk : lk.Linked) (unb : ∀ sts, cfg.limit.exceeded sts = false)
    (resting : Resting lk rl e.store) (gives : Gives lk rl env mn) {t : Term}
    (reaches : HeadSteps lk.definitions sts (t.nameless mn []) ending)
    (ends : Final lk.definitions ending) (present : ∀ x, ending.head ≠ .missing x) :
    ∃ (n : Nat) (v : Value) (aft : Engine) (o : Roles),
      evaluate cfg n t env e = (.ok v, aft) ∧ rl.Grow 0 o ∧
      Resting lk o aft.store ∧ Denotes lk o v ending := by
  have means : Means lk rl [] ⟨some (t, env), Value.absent, [], e.store⟩ _ _ :=
    ⟨_, _, _, .term gives, .base, rfl⟩
  obtain ⟨v, _, o, ⟨k, moves⟩, grow, sound, denotes⟩ :=
    means.comes wlk resting.settled (by simp) resting.sound reaches ends present
  obtain ⟨aft, evd, rfl, _⟩ := run_of_moves_returned
    (State.mk (some (t, env)) Value.absent [] e) moves (unb _) (Nat.lt_succ_self k)
  exact ⟨_, v, aft, o, evd, grow,
    resting.settles ((kept_settles cfg).evaluate evd (by simp)) sound, denotes⟩

theorem forces (wlk : lk.Linked) (unb : ∀ sts, cfg.limit.exceeded sts = false)
    (resting : Resting lk rl e.store) {mn : Nameless} (means : rl.meaning? a = some mn)
    (reaches : HeadSteps lk.definitions sts mn ending) (ends : Final lk.definitions ending)
    (present : ∀ x, ending.head ≠ .missing x) :
    ∃ (n : Nat) (v : Value) (aft : Engine) (o : Roles),
      force cfg n (some a) e = (.ok v, aft) ∧ rl.Grow 0 o ∧
      Resting lk o aft.store ∧ Denotes lk o v ending := by
  obtain ⟨wt, asks⟩ := resting.sound.asks wlk means
  obtain ⟨v, _, o, came, grow, sound, denotes⟩ :=
    asks.comes wlk resting.settled (by simp [askFor]) resting.sound reaches ends present
  obtain ⟨n, aft, forced, rfl⟩ := force_of_reaches unb came
  exact ⟨n, v, aft, o, forced, grow,
    resting.settles ((kept_settles cfg).force forced (by simp)) sound, denotes⟩

theorem withVariable (resting : Resting lk rl e.store) (x : Name) :
    Resting lk (rl.add e.store.size (.opened x)) (e.store.withVariable x) := by
  exact resting.settles ((kept_settles ⟨countingHost, none⟩).withVariable e.store x)
    (resting.sound.withVariable x)

end Resting

end Returning

/-! ### Reading back -/

/-- An address belongs to a binder in scope. -/
def Scope.Binds (sc : Scope) (a : Address) : Prop := ∃ x, (x, a) ∈ sc

/-- Every value whose meaning has a standard reduction to a normal form is read back as the
normal form. -/
def ReadsBack (lk : Store) (cfg : Settings) (tg : Nameless) : Prop :=
  ∀ {rl : Roles} {sc : Scope} {v : Value} {mn : Nameless} {e : Engine},
    Resting lk rl e.store → sc.Valid rl → Denotes lk rl v mn →
    Standard lk.definitions mn tg → tg.NormalIn sc.Binds 0 →
    ∃ (t : Term) (later : Engine) (o : Roles), Quotes cfg e v sc.names t later ∧ rl.Grow 0 o ∧
      Resting lk o later.store ∧ t.nameless sc.meaning [] = tg

section ReadBack

variable {lk : Store} {cfg : Settings} {rl : Roles} {sc : Scope} {e : Engine}

theorem Scope.Valid.undefined (wlk : lk.Linked) (sound : Sound lk rl s) (valid : sc.Valid rl)
    (a : Address) (bound : sc.Binds a) : lk.definitions a = none := by
  obtain ⟨x, mem⟩ := bound
  exact sound.undefined wlk (valid.opened mem)

theorem readsBack_closure (wlk : lk.Linked) (unb : ∀ sts, cfg.limit.exceeded sts = false)
    {tg : Nameless} (ih : ∀ o : Nameless, o.size < tg.size → ReadsBack lk cfg o)
    (resting : Resting lk rl e.store) (valid : sc.Valid rl) (form : v.form = .closure p b env) (gives : Gives lk rl env mn)
    (standard : Standard lk.definitions (.lam (b.nameless mn [p])) tg)
    (normal : tg.NormalIn sc.Binds 0) :
    ∃ (t : Term) (later : Engine) (o : Roles), Quotes cfg e v sc.names t later ∧ rl.Grow 0 o ∧
      Resting lk o later.store ∧ t.nameless sc.meaning [] = tg := by
  obtain ⟨reduced, rfl, inn⟩ := standard.of_lam
  let x := freshName p sc.names
  have fresh : x ∉ sc.names := freshName_notMem p sc.names
  have unused : rl e.store.size = none := resting.sound.fresh
  have grow := Marks.grow_add unused (.opened x)
  have means : Roles.meaning? (rl.add e.store.size (.opened x)) e.store.size =
      some (.free e.store.size) := by
    simp [Roles.meaning?, Role.meaning]
  have layer := gives_layer (gives.grow grow) means p
  -- The body for a new variable has a standard reduction to the body of the normal form.
  have opened : Standard lk.definitions (b.nameless (Term.assign mn p (.free e.store.size)) [])
      (reduced.instantiate 0 (.free e.store.size)) := by
    rw [← Term.nameless_instantiate (resting.sound.gives_closed gives)
      (show (Nameless.free e.store.size).ClosedAt 0 from trivial) p [] b]
    exact inn.instantiate wlk.selfContained (.refl _) 0
  have extended := valid.opens unused fresh
  let opening : Engine := { e with store := e.store.withVariable x }
  have restingVariable : Resting lk _ opening.store := resting.withVariable x
  have normalBody : (reduced.instantiate 0 (.free e.store.size)).NormalIn
      (sc ++ [(x, e.store.size)]).Binds 0 := by
    have binds : (fun o => sc.Binds o ∨ o = e.store.size) = (sc ++ [(x, e.store.size)]).Binds := by
      funext o
      simp [Scope.Binds, exists_or]
    exact binds ▸ Nameless.NormalIn.instantiate normal e.store.size
  obtain ⟨k, fi, reaches, ends, present, rest⟩ :=
    opened.value (extended.undefined wlk restingVariable.sound) normalBody
  obtain ⟨n, r, mid, between, evd, further, restingMiddle, denotes⟩ :=
    restingVariable.evaluates wlk unb layer reaches ends present
  have smaller : (reduced.instantiate 0 (.free e.store.size)).size <
      (Nameless.lam reduced).size := by
    rw [Nameless.size_instantiate_free]
    exact Nat.lt_succ_self _
  have counted : Resting lk between mid.countStep.store := restingMiddle
  obtain ⟨t, later, o, read, more, restingLater, same⟩ :=
    ih _ smaller counted (extended.grow further) denotes rest normalBody
  rw [Scope.names_append] at read
  refine ⟨.lam x t, later.countStep, o, .closure form evd read,
    (grow.trans further).trans more, restingLater, ?_⟩
  have closed := congrArg (Nameless.close e.store.size 0) same
  have normalReduced : reduced.NormalIn sc.Binds 1 := normal
  have notIn : ¬ reduced.Occurs e.store.size := by
    intro occurs
    obtain ⟨binder, mem⟩ := normalReduced.occurs occurs
    simp [valid.opened mem] at unused
  rw [Scope.close_nameless valid fresh unused, Nameless.close_instantiate notIn] at closed
  exact congrArg Nameless.lam closed

theorem readsBack_arguments (wlk : lk.Linked) (unb : ∀ sts, cfg.limit.exceeded sts = false)
    {targets : List Nameless} (ih : ∀ o ∈ targets, ReadsBack lk cfg o)
    (resting : Resting lk rl e.store) (valid : sc.Valid rl) {args : List (Option Address)}
    (given : List.Forall₂ (fun arg mn => arg.bind rl.meaning? = some mn) args mns)
    (standard : List.Forall₂ (Standard lk.definitions) mns targets)
    (normal : ∀ tg ∈ targets, tg.NormalIn sc.Binds 0) :
    ∃ (ts : List Term) (later : Engine) (o : Roles),
      QuotesAll cfg e args sc.names ts later ∧ rl.Grow 0 o ∧ Resting lk o later.store ∧
      ts.map (Term.nameless sc.meaning []) = targets := by
  induction standard generalizing rl args e with
  | nil =>
    cases given
    exact ⟨[], e, rl, .nil, .refl _ _, resting, rfl⟩
  | @cons mn tg mns targets fst _ step =>
    cases given with
    | @cons arg _ args _ means os =>
      obtain ⟨a, rfl, means⟩ := Option.bind_eq_some_iff.mp means
      have undefined := valid.undefined wlk resting.sound
      have counted : Resting lk rl e.countStep.store := resting
      obtain ⟨k, fi, reaches, ends, present, rest⟩ :=
        fst.value undefined (normal tg List.mem_cons_self)
      obtain ⟨n, v, mid, between, forced, grow, restingMiddle, denotes⟩ :=
        counted.forces wlk unb means reaches ends present
      obtain ⟨t, next, aft, read, more, restingNext, same⟩ := ih tg
        List.mem_cons_self restingMiddle (valid.grow grow) denotes rest
        (normal tg List.mem_cons_self)
      have grown := grow.trans more
      obtain ⟨ts, later, o, reads, further, restingLater, each⟩ :=
        step (fun o mem => ih o (List.mem_cons_of_mem _ mem)) restingNext
          (valid.grow grown) (os.imp fun _ _ means => grown.bind_meaning? means)
          (fun tg mem => normal tg (List.mem_cons_of_mem _ mem))
      exact ⟨t :: ts, later, o, .cons forced read reads, grown.trans further,
        restingLater, by rw [List.map_cons, same, each]⟩

theorem normalIn_of_apply (normal : (f.apply args).NormalIn known dp) :
    f.NormalIn known dp ∧ ∀ arg ∈ args, arg.NormalIn known dp := by
  induction args generalizing f with
  | nil => exact ⟨normal, by simp⟩
  | cons arg args ih =>
    obtain ⟨⟨_, l, r⟩, os⟩ := ih normal
    simp_all

theorem size_lt_apply {arg : Nameless} (mem : arg ∈ args) : arg.size < (f.apply args).size := by
  induction args generalizing f with
  | nil => cases mem
  | cons fst args ih =>
    rcases List.mem_cons.mp mem with rfl | later
    · have := (Nameless.app f arg).size_apply args
      grind [Nameless.size, Nameless.apply_cons]
    · exact ih later

/-- Reading back finds normal forms, by induction on their size. -/
theorem readsBack (wlk : lk.Linked) (unb : ∀ sts, cfg.limit.exceeded sts = false) (tg : Nameless) :
    ReadsBack lk cfg tg := by
  induction size : tg.size using Nat.strong_induction_on generalizing tg with
  | _ size smaller =>
    have ih : ∀ o : Nameless, o.size < tg.size → ReadsBack lk cfg o :=
      fun o less => smaller o.size (size ▸ less) o rfl
    intro rl sc v mn e resting valid denotes standard normal
    cases denotes with
    | closure form gives =>
      exact readsBack_closure wlk unb ih resting valid form gives standard normal
    | @neutral x args a mns form opened given =>
      obtain ⟨targets, rfl, each⟩ := standard.of_variable (resting.sound.undefined wlk opened)
      obtain ⟨⟨binder, mem⟩, normals⟩ := normalIn_of_apply normal
      obtain ⟨ts, later, o, read, grow, restingLater, same⟩ :=
        readsBack_arguments wlk unb (fun o mem => ih o
          (size_lt_apply mem)) resting valid given each normals
      refine ⟨(Term.var x).apply ts, later.countStep, o, .neutral form read, grow, restingLater, ?_⟩
      have named := valid.opened mem
      rw [opened] at named
      cases named
      rw [Term.nameless_apply, Term.nameless_var, Scope.meaning_of_mem valid.distinct mem, same]

end ReadBack

/-- A term that has a closed normal form is normalized.  Whatever was asked of the engine before,
there is a number of steps such that under every bound that allows for it, and without a bound,
the term has a value and the value is read back as the normal form. -/
theorem normal_form_found {ms : Modules} {s : Store} (pg : Program ms s)
    {e : Engine} (reached : Reached s e.store) (lk : Module)
    {t normalForm : Term} (closed : normalForm.freeNames = []) (normal : normalForm.isNormal)
    (reduces : Reduces s.definitions (s.source lk.env t) (normalForm.nameless .missing []))
    (host : Host) :
    ∃ (enough : Nat) (v : Value) (mid aft : Engine) (r : Term),
      r.nameless .missing [] = normalForm.nameless .missing [] ∧
      ∀ lim : Limit, (∀ bound, lim = some bound → (enough : Int) ≤ bound) →
        evaluate ⟨host, lim⟩ enough t lk.env e = (.ok v, mid) ∧
        normalize ⟨host, lim⟩ enough v mid = (.ok r, aft) := by
  have wlk := pg.linked
  obtain ⟨rl, sound⟩ := reached.sound wlk
  obtain ⟨settled, wr⟩ := reached.settled wlk
  have resting : Resting s rl e.store := ⟨sound, settled, wr⟩
  have unb : ∀ sts, (Settings.mk host none).limit.exceeded sts = false := fun _ => rfl
  have noNames : ∀ x ∈ normalForm.freeNames, x ∈ ([] : List Name) := by simp [closed]
  have tg : (normalForm.nameless .missing []).NormalIn (Scope.Binds []) 0 :=
    Term.nameless_normalIn normal noNames
  obtain ⟨_, fi, reaches, ends, present, rest⟩ :=
    (reduces.standard wlk.selfContained).value (by simp [Scope.Binds]) tg
  obtain ⟨n, v, mid, between, evd, _, restingMiddle, denotes⟩ :=
    resting.evaluates wlk unb (sound.gives_root wlk lk.table) reaches ends present
  have counted : Resting s between mid.countStep.store := restingMiddle
  have empty : Scope.Valid between [] := ⟨.nil, by simp⟩
  obtain ⟨r, aft, _, read, _, _, same⟩ := readsBack wlk unb _ counted empty denotes rest tg
  obtain ⟨more, normalizes⟩ := read.normalizes unb
  -- One number allows for the steps of both requests and is fuel enough for them.
  obtain ⟨enough, forValue, forReading, forSteps⟩ : ∃ enough, n ≤ enough ∧ more ≤ enough ∧
      aft.tally.steps - mid.tally.steps ≤ enough :=
    ⟨n + more + (aft.tally.steps - mid.tally.steps), by omega, by omega, by omega⟩
  refine ⟨enough, v, mid, aft, r, same, fun lim allowed => ?_⟩
  have allows : (Settings.mk host none).Allows ⟨host, lim⟩ enough := by
    refine ⟨rfl, ?_⟩
    cases lim with
    | none => rfl
    | some bound => grind [Limit.exceeded]
  constructor
  · exact evaluate_within allows (evaluate_more (.refl _) forValue evd)
  · exact normalize_within allows (allows.fewer forSteps) (normalizes enough forReading)

/-- `(x => y => x) (a => a)`, applied to a term without a value. -/
def constantOfIdentity : Term :=
  .app (.app (.lam "x" (.lam "y" (.var "x"))) (.lam "a" (.var "a")))
    (.app (.lam "w" (.app (.var "w") (.var "w"))) (.lam "w" (.app (.var "w") (.var "w"))))

/-- An argument that has no value does not stand in the way when it is not needed. -/
theorem normal_form_found_constant : Program identityModules identityStore ∧
    Reduces identityStore.definitions (identityStore.source (.root 1) constantOfIdentity)
      (.lam (.bound 0)) ∧
    ∃ (enough : Nat) (v : Value) (mid aft : Engine) (r : Term),
      r.nameless .missing [] = .lam (.bound 0) ∧
      ∀ lim : Limit, (∀ bound, lim = some bound → (enough : Int) ≤ bound) →
        evaluate ⟨countingHost, lim⟩ enough constantOfIdentity (.root 1)
          (.fresh identityStore) = (.ok v, mid) ∧
        normalize ⟨countingHost, lim⟩ enough v mid = (.ok r, aft) := by
  have reduces : Reduces identityStore.definitions
      (identityStore.source (.root 1) constantOfIdentity)
      ((Term.lam "a" (.var "a")).nameless .missing []) :=
    .head (.left .beta) (.single .beta)
  exact ⟨program_identity, reduces, normal_form_found program_identity .start
    ⟨"main", some "main", 1, []⟩ rfl rfl reduces countingHost⟩

end CallByNeed
