import CallByNeed.Proofs.Lockstep

/-!
# Evaluations of terms that differ in bound names

Two terms that are the same up to the names of their binders are evaluated, each in
a root without names.  The two evaluations take the same transitions.  The thunks
that they add are counterparts in the order in which they are added (`Origin.pairing`),
and environments are related layer by layer, whatever the names of the layers.

The names of variables without a value, which come from reading back, are not
compared.
-/

variable {pl : Address} {r rs : Value} {o : Env} {across : Name}

namespace CallByNeed

/-- Terms under binders that are the same up to the names of binders. -/
inductive Term.Renamed : (bds os : List Name) → Term → Term → Prop where
  | var {bds os x across}
      (same : (Term.var x).nameless .missing bds = (Term.var across).nameless .missing os) :
      Renamed bds os (.var x) (.var across)
  | lam {bds os p across b inn} (bodies : Renamed (p :: bds) (across :: os) b inn) :
      Renamed bds os (.lam p b) (.lam across inn)
  | app {bds os f arg opp given} (functions : Renamed bds os f opp)
      (args : Renamed bds os arg given) :
      Renamed bds os (.app f arg) (.app opp given)

theorem Term.renamed_of_nameless {o : Term} {os : List Name}
    (same : t.nameless .missing bds = o.nameless .missing os) : Term.Renamed bds os t o := by
  induction t generalizing bds os o with
  | var x =>
    cases o with
    | var across => exact .var same
    | lam p b => by_cases bound : x ∈ bds <;> simp [nameless, bound] at same
    | app f arg => grind [nameless]
  | lam p b ih =>
    cases o with
    | var across => by_cases bound : across ∈ os <;> simp [nameless, bound] at same
    | lam across inn => exact .lam (ih (Nameless.lam.inj same))
    | app f arg => cases same
  | app f arg ihF ihA =>
    cases o with
    | var across => by_cases bound : across ∈ os <;> simp [nameless, bound] at same
    | lam p b => cases same
    | app opp given =>
      obtain ⟨l, r⟩ := Nameless.app.inj same
      exact .app (ihF l) (ihA r)

/-- Names that are not those of the innermost binders are bound further out. -/
theorem Term.nameless_var_outer {bound opp : Name} {os : List Name}
    (same : (Term.var x).nameless .missing (bound :: bds) =
      (Term.var across).nameless .missing (opp :: os)) (l : bound ≠ x) (r : opp ≠ across) :
    (Term.var x).nameless .missing bds = (Term.var across).nameless .missing os := by
  grind [nameless]

/-- One of two names is that of the innermost binder exactly if the other one is. -/
theorem Term.nameless_var_inner {bound opp : Name} {os : List Name}
    (same : (Term.var x).nameless .missing (bound :: bds) =
      (Term.var across).nameless .missing (opp :: os)) : bound = x ↔ opp = across := by
  have zero : ∀ {x bound : Name} {bds : List Name},
      bound = x ↔ (Term.var x).nameless .missing (bound :: bds) = .bound 0 := by
    grind [nameless]
  rw [zero, zero, same]

/-! ### Counterparts -/

/-- Two evaluations: the engines in which they start, and the numbers of their roots. -/
structure Origin where
  left : Engine
  right : Engine
  root : Nat
  across : Nat

namespace Origin

/-- The thunks that are added are counterparts in the order in which they are added. -/
def pairing (og : Origin) : Pairing := fun a =>
  if og.left.store.size ≤ a then
    some (og.right.store.size + (a - og.left.store.size))
  else none

variable {og : Origin} {a o tg : Address}

theorem pairing_eq_some : og.pairing a = some pl ↔
    og.left.store.size ≤ a ∧ og.right.store.size + (a - og.left.store.size) = pl := by
  unfold pairing
  split <;> simp_all

theorem pairing_succ (paired : og.pairing a = some pl) :
    og.pairing (a + 1) = some (pl + 1) := by grind [pairing_eq_some]

theorem pairing_iff (paired : og.pairing a = some pl) (also : og.pairing o = some tg) :
    a = o ↔ pl = tg := by
  obtain ⟨le, rfl⟩ := pairing_eq_some.mp paired
  obtain ⟨leAlso, rfl⟩ := pairing_eq_some.mp also
  grind

end Origin

/-- The names that the layers of an environment bind, the innermost one first. -/
def Env.binders : Env → List Name
  | .root _ => []
  | .layer name _ parent => name :: parent.binders

inductive Env.Renamed (og : Origin) : Env → Env → Prop where
  | root : Renamed og (.root og.root) (.root og.across)
  | layer {x across th pl env o} (pairs : og.pairing.Pairs th pl) (rest : Renamed og env o) :
      Renamed og (.layer x th env) (.layer across pl o)

inductive Form.Renamed (og : Origin) : Form → Form → Prop where
  | closure {p across b inn env o} (envs : Env.Renamed og env o)
      (bodies : Term.Renamed (p :: env.binders) (across :: o.binders) b inn) :
      Renamed og (.closure p b env) (.closure across inn o)
  | neutral {x across args os} (pairs : List.Forall₂ og.pairing.Pairs args os) :
      Renamed og (.neutral x args) (.neutral across os)
  | primitive (x : Name) : Renamed og (.primitive x) (.primitive x)
  | constant (dt : Datum) : Renamed og (.constant dt) (.constant dt)
  | absent : Renamed og .absent .absent

inductive Content.Renamed (og : Origin) : Content → Content → Prop where
  | code {t o env across} (envs : Env.Renamed og env across)
      (ts : Term.Renamed env.binders across.binders t o) :
      Renamed og (.code t env) (.code o across)
  | value {v o} (forms : Form.Renamed og v.form o.form) : Renamed og (.value v) (.value o)

structure Thunk.Renamed (og : Origin) (th o : Thunk) : Prop where
  name : th.name = o.name
  phase : th.phase = o.phase
  content : Content.Renamed og th.content o.content

/-- The stores of both evaluations.  What was there before they started is left out. -/
structure Store.Renamed (og : Origin) (l r : Store) : Prop where
  noNames : l.table og.root = []
  noNamesAcross : r.table og.across = []
  sizes : og.pairing l.size = some r.size
  thunks : ∀ {a pl}, og.pairing a = some pl →
    Option.Rel (Thunk.Renamed og) (l.thunk? a) (r.thunk? pl)

variable {og : Origin}

theorem Store.Renamed.find {l r : Store} (stores : Store.Renamed og l r)
    (envs : Env.Renamed og env o) {name : Name}
    (same : (Term.var name).nameless .missing env.binders =
      (Term.var across).nameless .missing o.binders) :
    (l.find name env = none ∧ r.find across o = none ∧ name = across) ∨
      ∃ a pl, l.find name env = some a ∧ r.find across o = some pl ∧ og.pairing a = some pl := by
  induction envs with
  | root =>
    have names : name = across := by simpa [Env.binders, Term.nameless] using same
    exact .inl ⟨by simp [Store.find, stores.noNames, Table.find],
      by simp [Store.find, stores.noNamesAcross, Table.find], names⟩
  | @layer bound opposite th pl env o pairs _ ih =>
    by_cases here : bound = name
    · have also := (Term.nameless_var_inner same).mp here
      obtain ⟨a, tg, rfl, rfl, paired⟩ := pairs
      grind [Store.find]
    · have notAlso : opposite ≠ across := fun also =>
        here ((Term.nameless_var_inner same).mpr also)
      simpa [Store.find, here, notAlso] using ih (Term.nameless_var_outer same here notAlso)

theorem Form.Renamed.isWritable {v : Value} (forms : Form.Renamed og v.form r.form) :
    v.isWritable = r.isWritable := by
  obtain ⟨form, identity⟩ := v
  obtain ⟨across, otherIdentity⟩ := r
  cases forms <;> rfl

namespace Thunk.Renamed

variable {th o : Thunk}

theorem suspended {across : Term} {opp : Env} (envs : Env.Renamed og env opp)
    (ts : Term.Renamed env.binders opp.binders t across) :
    Thunk.Renamed og (.suspended t env none) (.suspended across opp none) :=
  ⟨rfl, rfl, .code envs ts⟩

theorem evaluated (forms : Form.Renamed og v.form r.form) :
    Thunk.Renamed og (.evaluated v none) (.evaluated r none) := ⟨rfl, rfl, .value forms⟩

section

variable (same : Thunk.Renamed og th o)

include same

theorem begin : Thunk.Renamed og th.begin o.begin := ⟨same.name, rfl, same.content⟩

theorem memoize (forms : Form.Renamed og v.form r.form) :
    Thunk.Renamed og (th.memoize v) (o.memoize r) := ⟨same.name, rfl, .value forms⟩

theorem reset : Thunk.Renamed og th.reset o.reset := by
  unfold Thunk.reset
  rw [same.phase]
  split
  · exact ⟨same.name, rfl, same.content⟩
  · exact same

theorem value : Form.Renamed og th.value.form o.value.form := by
  obtain ⟨x, ct, phase⟩ := th
  obtain ⟨otherName, otherContent, otherPhase⟩ := o
  obtain ⟨_, _, contents⟩ := same
  cases contents with
  | code envs ts => exact .absent
  | value forms => exact forms

theorem isWritable : th.isWritable = o.isWritable := by
  obtain ⟨x, ct, phase⟩ := th
  obtain ⟨otherName, otherContent, otherPhase⟩ := o
  obtain ⟨xs, _, contents⟩ := same
  cases xs
  cases contents with
  | code envs ts => cases x <;> rfl
  | value forms =>
    cases x with
    | none => exact forms.isWritable
    | some lb => rfl

end

end Thunk.Renamed

namespace Store.Renamed

variable {l r : Store}

section

variable (ss : Store.Renamed og l r)

include ss

theorem build (form o : Form) : Store.Renamed og (l.build form).2 (r.build o).2 :=
  ⟨ss.noNames, ss.noNamesAcross, ss.sizes, ss.thunks⟩

theorem alloc {o : Thunk} (same : Thunk.Renamed og th o) :
    Store.Renamed og (l.alloc th).2 (r.alloc o).2 where
  noNames := ss.noNames
  noNamesAcross := ss.noNamesAcross
  sizes := by
    rw [Store.size_alloc, Store.size_alloc]
    exact Origin.pairing_succ ss.sizes
  thunks := by
    intro a pl paired
    have last := Origin.pairing_iff paired ss.sizes
    rw [Store.thunk?_alloc, Store.thunk?_alloc]
    by_cases new : a = l.size
    · simp_all
    · rw [if_neg new, if_neg (fun also => new (last.mpr also))]
      exact ss.thunks paired

theorem update (paired : og.pairing a = some pl) {change across : Thunk → Thunk}
    (changes : ∀ {th o}, Thunk.Renamed og th o → Thunk.Renamed og (change th) (across o)) :
    Store.Renamed og (l.update a change) (r.update pl across) where
  noNames := ss.noNames
  noNamesAcross := ss.noNamesAcross
  sizes := by simpa using ss.sizes
  thunks := by
    intro o tg also
    have both := Origin.pairing_iff paired also
    have held := ss.thunks also
    rw [Store.thunk?_update, Store.thunk?_update]
    by_cases here : a = o
    · rw [if_pos here, if_pos (both.mp here)]
      generalize l.thunk? o = fst at held
      generalize r.thunk? tg = snd at held
      cases held with
      | none => exact .none
      | some same => exact .some (changes same)
    simp_all

theorem delay (envs : Env.Renamed og env o) {across : Term}
    (ts : Term.Renamed env.binders o.binders t across) :
    og.pairing (l.delay t env).1 = some (r.delay across o).1 ∧
      Store.Renamed og (l.delay t env).2 (r.delay across o).2 := by
  cases ts with
  | var same =>
    rcases ss.find envs same with ⟨lost, lostAlso, rfl⟩ | ⟨a, pl, found, foundAlso, paired⟩
    · simp only [Store.delay, lost, lostAlso]
      exact ⟨ss.sizes, ss.alloc (.suspended envs (.var same))⟩
    grind [Store.delay]
  | @lam _ _ p opp b inn bodies =>
    have built := ss.build (.closure p b env) (.closure opp inn o)
    exact ⟨ss.sizes, built.alloc (.evaluated (.closure envs bodies))⟩
  | app functions args =>
    exact ⟨ss.sizes, ss.alloc (.suspended envs (.app functions args))⟩

end

end Store.Renamed

/-! ### Engines and states -/

/-- Totals to which others are added. -/
def Tally.plus (tally more : Tally) : Tally :=
  ⟨tally.steps + more.steps, tally.evaluations + more.evaluations, tally.hits + more.hits⟩

theorem Tally.plus_assoc (tally more further : Tally) :
    (tally.plus more).plus further = tally.plus (more.plus further) := by
  simp [Tally.plus, Nat.add_assoc]

/-- The engines of both evaluations, which counted the same since they started. -/
structure Engine.Renamed (og : Origin) (l r : Engine) : Prop where
  stores : Store.Renamed og l.store r.store
  tallies : ∃ spent, l.tally = og.left.tally.plus spent ∧
    r.tally = og.right.tally.plus spent

namespace Engine.Renamed

variable {l r aft later : Engine}

section

variable (es : Engine.Renamed og l r)

include es

theorem spend (more : Tally) (tally : aft.tally = l.tally.plus more)
    (also : later.tally = r.tally.plus more) (ss : Store.Renamed og aft.store later.store) :
    Engine.Renamed og aft later := by
  obtain ⟨spent, fst, snd⟩ := es.tallies
  refine ⟨ss, spent.plus more, ?_, ?_⟩
  · rw [tally, fst, Tally.plus_assoc]
  · rw [also, snd, Tally.plus_assoc]

theorem store {o : Store} (ss : Store.Renamed og s o) :
    Engine.Renamed og { l with store := s } { r with store := o } := ⟨ss, es.tallies⟩

theorem countStep : Engine.Renamed og l.countStep r.countStep :=
  es.spend ⟨1, 0, 0⟩ rfl rfl es.stores

theorem countHit : Engine.Renamed og l.countHit r.countHit := es.spend ⟨0, 0, 1⟩ rfl rfl es.stores

theorem begin (paired : og.pairing a = some pl) (x o : Option Name) :
    Engine.Renamed og (l.begin a x) (r.begin pl o) := by
  refine es.spend ⟨0, 1, 0⟩ (by simp [Engine.begin, Engine.update, Tally.plus])
    (by simp [Engine.begin, Engine.update, Tally.plus]) ?_
  rw [Engine.store_begin, Engine.store_begin]
  exact es.stores.update paired Thunk.Renamed.begin

theorem memoize (paired : og.pairing a = some pl)
    (forms : Form.Renamed og v.form rs.form) :
    Engine.Renamed og (l.memoize a v) (r.memoize pl rs) := by
  refine es.spend ⟨0, 0, 0⟩ (by simp [Tally.plus]) (by simp [Tally.plus]) ?_
  rw [Engine.store_memoize, Engine.store_memoize]
  exact es.stores.update paired fun same => same.memoize forms

end

end Engine.Renamed

/-- Both evaluations have terms in focus that are the same up to bound names, or none. -/
inductive FocusRenamed (og : Origin) :
    Option (Term × Env) → Option (Term × Env) → Prop where
  | term {t o env across} (envs : Env.Renamed og env across)
      (ts : Term.Renamed env.binders across.binders t o) :
      FocusRenamed og (some (t, env)) (some (o, across))
  | value : FocusRenamed og none none

structure State.Renamed (og : Origin) (l r : State) : Prop where
  focus : FocusRenamed og l.focus r.focus
  value : Form.Renamed og l.value.form r.value.form
  stack : List.Forall₂ (Frame.Matches og.pairing) l.stack r.stack
  engine : Engine.Renamed og l.engine r.engine

/-- The errors of one transition: they are the same, except for the label of a thunk that
needs its own value. -/
inductive Raised.Relabelled : Raised → Raised → Prop where
  | same (er : Raised) : Relabelled er er
  | cyclic (lb o : String) :
      Relabelled (.evaluation (.cyclic lb) []) (.evaluation (.cyclic o) [])

inductive Transition.Renamed (og : Origin) : Transition → Transition → Prop where
  | moved {l r} (sts : State.Renamed og l r) : Renamed og (.moved l) (.moved r)
  | returned {v rs l r} (forms : Form.Renamed og v.form rs.form) (es : Engine.Renamed og l r) :
      Renamed og (.returned v l) (.returned rs r)
  | raised {er o l r} (errors : er.Relabelled o) (sts : State.Renamed og l r) :
      Renamed og (.raised er l) (.raised o r)

theorem Thunk.Renamed.code? {o : Thunk} (same : Thunk.Renamed og th o) :
    FocusRenamed og th.code? o.code? := by
  obtain ⟨x, ct, phase⟩ := th
  obtain ⟨otherName, otherContent, otherPhase⟩ := o
  obtain ⟨_, _, contents⟩ := same
  cases contents with
  | code envs ts => exact .term envs ts
  | value forms => exact .value

namespace State.Renamed

variable {l r : State}

section

variable (sts : State.Renamed og l r)

include sts

theorem enter (paired : og.pairing a = some pl) {o : Thunk}
    (same : Thunk.Renamed og th o) : Transition.Renamed og (l.enter a th) (r.enter pl o) := by
  unfold State.enter
  rw [same.phase, same.isWritable]
  split
  · split
    · exact .raised (.cyclic _ _) sts
    · exact .raised (.same _) sts
  · exact .moved ⟨same.code?, sts.value, .cons (.update paired) sts.stack,
      sts.engine.begin paired _ _⟩

theorem answer (forms : Form.Renamed og v.form rs.form) :
    State.Renamed og (l.answer v) (r.answer rs) := ⟨.value, forms, sts.stack, sts.engine⟩

theorem construct {form across : Form} (forms : Form.Renamed og form across) :
    State.Renamed og (l.construct form) (r.construct across) :=
  ⟨.value, forms, sts.stack, sts.engine.store (sts.engine.stores.build form across)⟩

theorem evaluate (envs : Env.Renamed og env o) {across : Term}
    (ts : Term.Renamed env.binders o.binders t across) :
    Transition.Renamed og (l.evaluate env t) (r.evaluate o across) := by
  cases ts with
  | var same =>
    rcases sts.engine.stores.find envs same with ⟨lost, lostAlso, rfl⟩ |
      ⟨a, pl, found, foundAlso, paired⟩
    · simp only [State.evaluate, lost, lostAlso]
      exact .raised (.same _) sts
    · have held := sts.engine.stores.thunks paired
      simp only [State.evaluate, found, foundAlso]
      generalize l.engine.store.thunk? a = fst at held
      generalize r.engine.store.thunk? pl = snd at held
      cases held with
      | none => exact .raised (.same _) sts
      | @some th o same =>
        by_cases forced : o.phase = .forced
        · simp only [same.phase, forced, if_true]
          have answered := sts.answer same.value
          exact .moved ⟨answered.focus, answered.value, answered.stack, sts.engine.countHit⟩
        · simp only [same.phase, forced, if_false]
          exact sts.enter paired same
  | lam bodies => exact .moved (sts.construct (.closure envs bodies))
  | app functions args =>
    obtain ⟨paired, ss⟩ := sts.engine.stores.delay envs args
    exact .moved ⟨.term envs functions, sts.value,
      .cons (.argument ⟨_, _, rfl, rfl, paired⟩) sts.stack, sts.engine.store ss⟩

end

theorem applyTo (states : State.Renamed og l r) {argument given : Option Address}
    (pairs : og.pairing.Pairs argument given) :
    Transition.Renamed og (l.applyTo argument) (r.applyTo given) := by
  have forms := states.value
  unfold State.applyTo
  generalize form : l.value.form = first at forms
  generalize across : r.value.form = second at forms
  cases forms with
  | closure envs bodies =>
    exact .moved ⟨.term (.layer pairs envs) bodies, states.value, states.stack, states.engine⟩
  | neutral all =>
    exact .moved (states.construct (.neutral (List.rel_append all (.cons pairs .nil))))
  | primitive name =>
    obtain ⟨a, pl, rfl, rfl, paired⟩ := pairs
    have called : State.Renamed og { l with stack := .call name :: l.stack }
        { r with stack := .call name :: r.stack } :=
      ⟨states.focus, states.value, .cons (.call name) states.stack, states.engine⟩
    have held := states.engine.stores.thunks paired
    dsimp only
    generalize l.engine.store.thunk? a = first at held
    generalize r.engine.store.thunk? pl = second at held
    cases held with
    | none => exact .raised (.same _) called
    | @some th o same =>
      by_cases forced : o.phase = .forced
      · simp only [same.phase, forced, if_true]
        exact .moved (called.answer same.value)
      · simp only [same.phase, forced, if_false]
        exact called.enter paired same
  | constant datum =>
    have texts : l.value.text = r.value.text := by simp [Value.text, form, across]
    rw [states.value.isWritable, texts]
    exact .raised (.same _) states
  | absent =>
    have texts : l.value.text = r.value.text := by simp [Value.text, form, across]
    rw [states.value.isWritable, texts]
    exact .raised (.same _) states

end State.Renamed

theorem increment_renamed (forms : Form.Renamed og v.form r.form) :
    Form.Renamed og (increment v).form (increment r).form := by
  obtain ⟨form, identity⟩ := v
  obtain ⟨across, otherIdentity⟩ := r
  cases forms with
  | constant dt =>
    simp only [increment]
    cases dt.int? with
    | none => exact .constant .nothing
    | some num => exact .constant (.int (num + 1))
  | _ => exact .constant .nothing

theorem State.Renamed.step {l r : State} (sts : State.Renamed og l r) :
    Transition.Renamed og (l.step countingHost) (r.step countingHost) := by
  obtain ⟨focus, v, k, e⟩ := l
  obtain ⟨otherFocus, rs, otherStack, o⟩ := r
  obtain ⟨focused, forms, fs, es⟩ := id sts
  cases focused with
  | term envs ts => exact sts.evaluate envs ts
  | value =>
    cases fs with
    | nil => exact .returned forms es
    | @cons fr opp k fs head tail =>
      have below : State.Renamed og ⟨none, v, k, e⟩ ⟨none, rs, fs, o⟩ := ⟨.value, forms, tail, es⟩
      cases head with
      | argument pairs => exact below.applyTo pairs
      | update paired =>
        exact .moved ⟨.value, forms, tail, es.memoize paired forms⟩
      | call prim =>
        by_cases known : prim = successorName
        · simp only [State.step, countingHost, known, if_true]
          exact .moved (below.answer (increment_renamed forms))
        · simp only [State.step, countingHost, known, if_false]
          exact .raised (.same _) below

/-! ### Runs -/

/-- Two requests come to related answers or to the same error, or both use up their fuel. -/
inductive Alongside {α β : Type} (rel : α → β → Prop) :
    Except Stop α → Except Stop β → Prop where
  | answer {l r} (related : rel l r) : Alongside rel (.ok l) (.ok r)
  | error {raised o} (alike : Raised.Alike raised o) :
      Alongside rel (.error (.raised raised)) (.error (.raised o))
  | outOfFuel : Alongside rel (.error .outOfFuel) (.error .outOfFuel)

/-- The outcomes of two requests, with the engines that they leave. -/
structure Accompanies (og : Origin) {α β : Type} (rel : α → β → Prop)
    (l : Except Stop α × Engine) (r : Except Stop β × Engine) : Prop where
  results : Alongside rel l.1 r.1
  engines : Engine.Renamed og l.2 r.2

/-- Values that are the same up to bound names. -/
def Value.Renamed (og : Origin) (v r : Value) : Prop := Form.Renamed og v.form r.form

namespace State.Renamed

variable {l r : State}

section

variable (sts : State.Renamed og l r)

include sts

theorem pending : List.Forall₂ (fun a pl => og.pairing a = some pl) l.pending r.pending :=
  List.forall₂_reverse_iff.mpr (updates_matches sts.stack)

theorem isTraceable : l.isTraceable = r.isTraceable := by
  unfold State.isTraceable
  have pending := sts.pending
  generalize l.pending = ads at pending
  generalize r.pending = pls at pending
  induction pending with
  | nil => rfl
  | @cons a pl _ _ paired _ ih =>
    have held := sts.engine.stores.thunks paired
    rw [List.all_cons, List.all_cons, ih]
    congr 1
    generalize l.engine.store.thunk? a = fst at held
    generalize r.engine.store.thunk? pl = snd at held
    cases held with
    | none => rfl
    | some same => exact same.isWritable

theorem unwind : Engine.Renamed og l.unwind r.unwind := by
  unfold State.unwind
  have pending := sts.pending
  generalize l.pending = ads at pending
  generalize r.pending = pls at pending
  have es := sts.engine
  generalize l.engine = e at es
  generalize r.engine = o at es
  induction pending generalizing e o with
  | nil => exact es
  | cons paired _ ih =>
    exact ih _ _ (es.store (es.stores.update paired Thunk.Renamed.reset))

theorem abandon {o : Raised} (errors : er.Relabelled o) :
    Accompanies og (Value.Renamed og) (l.abandon er) (r.abandon o) := by
  have alike : er.Alike o := by
    cases errors with
    | same => exact .same _
    | cyclic lb across => exact .cyclic lb across [] []
  by_cases traceable : l.isTraceable = true
  · rw [State.abandon_of_traceable traceable,
      State.abandon_of_traceable (sts.isTraceable.symm.trans traceable)]
    exact ⟨.error (alike.traced l r), sts.unwind⟩
  · have also : ¬ r.isTraceable = true := by rwa [← sts.isTraceable]
    have silent : ∀ cause across, er = .evaluation cause [] → o = .evaluation across [] →
        Accompanies og (Value.Renamed og) (l.abandon er) (r.abandon o) := by
      rintro cause across rfl rfl
      simp only [State.abandon, traceable, also]
      exact ⟨.error (.same _), sts.engine⟩
    cases errors with
    | cyclic lb across => exact silent _ _ rfl rfl
    | same =>
      cases er with
      | evaluation cause tr =>
        cases tr with
        | nil => exact silent _ _ rfl rfl
        | cons lb tr => exact ⟨.error (.same _), sts.unwind⟩
      | _ => exact ⟨.error (.same _), sts.unwind⟩

theorem counted : State.Renamed og l.counted r.counted :=
  ⟨sts.focus, sts.value, sts.stack, sts.engine.countStep⟩

/-- Both evaluations come to the same end, after the same transitions. -/
theorem run (lim : Limit) (n taken : Nat) :
    Accompanies og (Value.Renamed og) (run ⟨countingHost, lim⟩ n taken l)
      (CallByNeed.run ⟨countingHost, lim⟩ n taken r) := by
  induction n generalizing taken l r with
  | zero => exact ⟨.outOfFuel, sts.engine⟩
  | succ n ih =>
    cases bound : lim.exceeded (taken + 1) with
    | true =>
      have exc : (Settings.mk countingHost lim).limit.exceeded (taken + 1) = true := bound
      rw [run_exceeded exc, run_exceeded exc]
      exact sts.counted.abandon (.same _)
    | false =>
      have within : (Settings.mk countingHost lim).limit.exceeded (taken + 1) = false := bound
      have stepped := sts.counted.step
      generalize fst : l.counted.step countingHost = next at stepped
      generalize snd : r.counted.step countingHost = following at stepped
      cases stepped with
      | moved sts => simp_all [run_moved]
      | raised errors sts =>
        rw [run_stopped within fst, run_stopped within snd]
        exact sts.abandon errors
      | returned forms es =>
        rw [run_answered within fst, run_answered within snd]
        exact ⟨.answer forms, es⟩

end

end State.Renamed

end CallByNeed
