import CallByNeed.Proofs.Program

/-!
# What thunks stand for

The machine evaluates each thunk at most once, whereas reduction copies terms.
The two are compared by what thunks stand for: a role gives a nameless term to
a thunk, which stays the same when the thunk is evaluated.  Thunks of
computations that involve values of the host have no role.

`Means` says what a configuration stands for.  `Means.move` follows one
transition: the term of the configuration is reduced at its head, or the
machine comes closer to a value.
-/

namespace CallByNeed

/-- How a thunk stands for a term. -/
inductive Role where
  /-- It belongs to a name that a module declares. -/
  | declared
  /-- It is a variable without a value, opened by reading a value back. -/
  | opened (x : Name)
  /-- It is an argument. -/
  | delayed (mn : Nameless)

/-- The term that the thunk at an address stands for. -/
def Role.meaning (a : Address) : Role → Nameless
  | declared => .free a
  | opened _ => .free a
  | delayed mn => mn

/-- What is said of some of the thunks of a store. -/
abbrev Marks (α : Type) := Address → Option α

variable {size : Nat} {a : Address} {mn total : Nameless} {env : Env} {role : Role}
  {th : Thunk} {lk : Store}

namespace Marks

variable {α : Type}

/-- Thunks from some address on were marked. -/
structure Grow (size : Nat) (marks o : Marks α) : Prop where
  keeps : ∀ {a mark}, marks a = some mark → o a = some mark
  adds : ∀ {a mark}, o a = some mark →
    marks a = some mark ∨ size ≤ a

theorem Grow.refl (size : Nat) (marks : Marks α) : marks.Grow size marks := ⟨id, .inl⟩

theorem Grow.trans {fst snd thd : Marks α} {more : Nat} (early : fst.Grow size snd)
    (late : snd.Grow more thd) : fst.Grow 0 thd :=
  ⟨fun given => late.keeps (early.keeps given), fun _ => .inr (Nat.zero_le _)⟩

variable {marks : Marks α}

theorem Grow.weaken {o : Marks α} (grow : marks.Grow size o) : marks.Grow 0 o :=
  ⟨grow.keeps, fun _ => .inr (Nat.zero_le _)⟩

/-- One more thunk is marked. -/
def add (marks : Marks α) (a : Address) (mark : α) : Marks α := Function.update marks a (some mark)

@[simp] theorem add_self (marks : Marks α) (a : Address) (mark : α) :
    marks.add a mark a = some mark := by
  simp [add]

theorem add_of_ne {o : Address} (mark : α) (differ : o ≠ a) : marks.add a mark o = marks o := by
  simp [add, differ]

theorem grow_add (free : marks a = none) (mark : α) : marks.Grow a (marks.add a mark) := by
  constructor
  · grind [add_of_ne]
  grind [add_of_ne]

end Marks

/-- The roles of thunks. -/
abbrev Roles := Marks Role

namespace Roles

/-- The term that the thunk at an address stands for. -/
def meaning? (rl : Roles) (a : Address) : Option Nameless := (rl a).map (Role.meaning a)

end Roles

variable {rl : Roles}

theorem Marks.Grow.meaning? {o : Roles} (grow : rl.Grow size o) (means : rl.meaning? a = some mn) :
    o.meaning? a = some mn := by
  obtain ⟨role, given, rfl⟩ := Option.map_eq_some_iff.mp means
  simp [Roles.meaning?, grow.keeps given]

theorem Marks.Grow.bind_meaning? {o : Roles} (grow : rl.Grow size o) {th : Option Address}
    (means : th.bind rl.meaning? = some mn) : th.bind o.meaning? = some mn := by
  obtain ⟨a, rfl, means⟩ := Option.bind_eq_some_iff.mp means
  exact grow.meaning? means

/-- What the names of an environment stand for. -/
structure Gives (lk : Store) (rl : Roles) (env : Env) (mn : Name → Nameless) :
    Prop where
  found : ∀ {x a}, lk.find x env = some a →
    rl.meaning? a = some (mn x)
  lost : ∀ {x}, lk.find x env = none → mn x = .missing x

/-- What a value stands for. -/
inductive Denotes (lk : Store) (rl : Roles) (v : Value) : Nameless → Prop where
  | closure {p b env mn} (form : v.form = .closure p b env) (gives : Gives lk rl env mn) :
      Denotes lk rl v (.lam (b.nameless mn [p]))
  | neutral {x args a mns} (form : v.form = .neutral x args) (opened : rl a = some (.opened x))
      (given : List.Forall₂ (fun arg mn =>
        arg.bind rl.meaning? = some mn) args mns) :
      Denotes lk rl v ((Nameless.free a).apply mns)

/-- A variable that an environment binds. -/
def Store.isBound (lk : Store) (env : Env) : Term → Bool
  | .var x => (lk.find x env).isSome
  | _ => false

/-- What a thunk holds fits its role.  The value of a thunk is a reduct of the
term that the thunk stands for. -/
inductive Holds (lk : Store) (rl : Roles) (a : Address) : Role → Thunk → Prop where
  | declared {th t env mn} (notForced : th.phase ≠ .forced) (ct : th.content = .code t env)
      (gives : Gives lk rl env mn)
      (defined : lk.definitions a = some (t.nameless mn [])) :
      Holds lk rl a .declared th
  | delayed {th t env mn} (notForced : th.phase ≠ .forced) (ct : th.content = .code t env)
      (gives : Gives lk rl env mn) (notBound : lk.isBound env t = false) :
      Holds lk rl a (.delayed (t.nameless mn [])) th
  | kept {role th v k r} (forced : th.phase = .forced) (ct : th.content = .value v)
      (sts : HeadSteps lk.definitions k (role.meaning a) r)
      (denotes : Denotes lk rl v r) :
      Holds lk rl a role th

/-- All thunks with a role hold what fits it. -/
structure Sound (lk : Store) (rl : Roles) (s : Store) : Prop where
  tables : s.tables = lk.tables
  holds : ∀ {a role}, rl a = some role →
    ∃ th, s.thunk? a = some th ∧ Holds lk rl a role th
  closed : ∀ {a mn}, rl a = some (.delayed mn) → mn.ClosedAt 0
  occurs : ∀ {a mn}, rl a = some (.delayed mn) →
    ∀ o, mn.Occurs o → (rl o).isSome
  declared : ∀ {a}, a < lk.size → rl a = some .declared

section Growth

variable {o : Roles}

theorem Gives.grow {mn : Name → Nameless} (gives : Gives lk rl env mn) (grow : rl.Grow size o) :
    Gives lk o env mn :=
  ⟨fun found => grow.meaning? (gives.found found), gives.lost⟩

theorem Denotes.grow (denotes : Denotes lk rl v mn) (grow : rl.Grow size o) :
    Denotes lk o v mn := by
  cases denotes with
  | closure form gives => exact .closure form (gives.grow grow)
  | neutral form opened given =>
    exact .neutral form (grow.keeps opened) (given.imp fun _ _ means => grow.bind_meaning? means)

theorem Holds.grow (holds : Holds lk rl a role th) (grow : rl.Grow size o) :
    Holds lk o a role th := by
  cases holds with
  | declared notForced ct gives defined =>
    exact .declared notForced ct (gives.grow grow) defined
  | delayed notForced ct gives notBound =>
    exact .delayed notForced ct (gives.grow grow) notBound
  | kept forced ct sts denotes =>
    exact .kept forced ct sts (denotes.grow grow)

/-- A thunk goes on holding what fits its role while it is being evaluated, or
when that is given up. -/
theorem Holds.rephase {changed : Thunk} (holds : Holds lk rl a role th)
    (ct : changed.content = th.content) (phase : changed.phase = .forced ↔ th.phase = .forced) :
    Holds lk rl a role changed := by
  cases holds with
  | declared notForced code gives defined =>
    exact .declared (fun forced => notForced (phase.mp forced)) (ct.trans code) gives defined
  | delayed notForced code gives notBound =>
    exact .delayed (fun forced => notForced (phase.mp forced)) (ct.trans code) gives notBound
  | kept forced kept sts denotes =>
    exact .kept (phase.mpr forced) (ct.trans kept) sts denotes

end Growth

theorem gives_layer {mn : Name → Nameless} {given : Nameless} (gives : Gives lk rl env mn)
    (means : rl.meaning? a = some given) (p : Name) :
    Gives lk rl (.layer p (some a) env) (Term.assign mn p given) := by
  constructor
  · intro x found bound
    rw [Store.find] at bound
    by_cases same : p = x
    · grind [Term.assign]
    · rw [if_neg same] at bound
      simpa [Term.assign, Ne.symm same] using gives.found bound
  · intro x bound
    rw [Store.find] at bound
    by_cases same : p = x
    · simp [same] at bound
    · rw [if_neg same] at bound
      simpa [Term.assign, Ne.symm same] using gives.lost bound

theorem gives_globals (wlk : lk.Linked) (dcd : ∀ a < lk.size, rl a = some .declared) (num : Nat) :
    Gives lk rl (.root num) (lk.globals (.root num)) := by
  constructor
  · intro x a found
    simp [Roles.meaning?, dcd a (wlk.find_lt found), Role.meaning, Store.globals, found]
  · intro x lost
    simp [Store.globals, lost]

namespace Sound

variable {s : Store}

theorem start (wlk : lk.Linked) :
    Sound lk (fun a => if a < lk.size then some .declared else none) lk := by
  constructor
  · rfl
  · intro a role given
    simp only [Option.ite_none_right_eq_some, Option.some.injEq] at given
    obtain ⟨bound, rfl⟩ := given
    obtain ⟨th, held⟩ := Store.thunk?_of_lt bound
    obtain ⟨t, num, x, rfl⟩ := wlk.declared held
    refine ⟨_, held, .declared (by simp [Thunk.suspended]) rfl
      (gives_globals wlk (by simp_all) num) ?_⟩
    simp [Store.definitions, held, Thunk.code?, Thunk.suspended, Store.source]
  · simp
  · simp
  simp

section

variable (sound : Sound lk rl s)

include sound

theorem lt (given : rl a = some role) : a < s.size := by
  obtain ⟨th, held, _⟩ := sound.holds given
  exact Store.thunk?_lt held

theorem fresh : rl s.size = none := by
  cases given : rl s.size with
  | none => rfl
  | some role => exact absurd (sound.lt given) (Nat.lt_irrefl _)

theorem find (x : Name) (env : Env) : s.find x env = lk.find x env :=
  Store.find_congr sound.tables x env

theorem meaning_closed (means : rl.meaning? a = some mn) : mn.ClosedAt 0 := by
  obtain ⟨role, given, rfl⟩ := Option.map_eq_some_iff.mp means
  cases role with
  | declared => trivial
  | opened x => trivial
  | delayed mn => exact sound.closed given

theorem meaning_occurs {o : Address} (means : rl.meaning? a = some mn) (occurs : mn.Occurs o) :
    (rl o).isSome := by
  obtain ⟨role, given, rfl⟩ := Option.map_eq_some_iff.mp means
  cases role with
  | declared =>
    cases occurs
    simp [given]
  | opened x =>
    cases occurs
    simp [given]
  | delayed mn => exact sound.occurs given o occurs

theorem gives_closed {mn : Name → Nameless} (gives : Gives lk rl env mn) (x : Name) :
    (mn x).ClosedAt 0 := by
  cases found : lk.find x env with
  | none =>
    rw [gives.lost found]
    trivial
  | some a => exact sound.meaning_closed (gives.found found)

theorem term_occurs {mn : Name → Nameless} (gives : Gives lk rl env mn) {bds : List Name} {t : Term}
    (occurs : (t.nameless mn bds).Occurs a) : (rl a).isSome := by
  obtain ⟨x, inside⟩ := Term.occurs_nameless occurs
  cases found : lk.find x env with
  | none =>
    rw [gives.lost found] at inside
    exact inside.elim
  | some bound => exact sound.meaning_occurs (gives.found found) inside

theorem gives_root (wlk : lk.Linked) (num : Nat) :
    Gives lk rl (.root num) (lk.globals (.root num)) :=
  gives_globals wlk (fun _ bound => sound.declared bound) num

theorem change {aft : Store} (tbs : aft.tables = s.tables)
    (changed : ∀ {a role th}, rl a = some role →
      s.thunk? a = some th → Holds lk rl a role th →
      ∃ o, aft.thunk? a = some o ∧ Holds lk rl a role o) : Sound lk rl aft := by
  refine ⟨tbs.trans sound.tables, fun given => ?_, sound.closed, sound.occurs, sound.declared⟩
  obtain ⟨th, held, fits⟩ := sound.holds given
  simp_all

theorem build (form : Form) : Sound lk rl (s.build form).2 :=
  sound.change rfl fun _ held fits => ⟨_, held, fits⟩

theorem steady {aft : Store} (tbs : aft.tables = s.tables)
    (steady : ∀ {a role}, rl a = some role → s.Steady aft a) : Sound lk rl aft := by
  refine sound.change tbs fun given held fits => ?_
  obtain ⟨later, there, ct, phase⟩ := steady given held
  exact ⟨later, there, fits.rephase ct phase⟩

theorem begin (held : s.thunk? a = some th) (unforced : th.phase = .unforced) :
    Sound lk rl (s.update a Thunk.begin) :=
  sound.steady rfl fun _ => Store.steady_begin held unforced _

/-- The value of a thunk is kept that has no role, or whose term it is a reduct
of. -/
theorem memoize
    (fits : ∀ role, rl a = some role → ∃ k r, HeadSteps lk.definitions k (role.meaning a) r ∧
      Denotes lk rl v r) : Sound lk rl (s.update a (·.memoize v)) := by
  refine sound.change rfl fun {o role found} given there holds => ?_
  by_cases same : a = o
  · subst same
    obtain ⟨k, r, sts, denotes⟩ := fits role given
    exact ⟨found.memoize v, by simp [there], .kept rfl rfl sts denotes⟩
  simp_all

theorem add {added : Thunk} (holds : Holds lk (rl.add s.size role) s.size role added)
    (closed : (role.meaning s.size).ClosedAt 0)
    (occurs : ∀ o, (role.meaning s.size).Occurs o → (rl.add s.size role o).isSome) :
    Sound lk (rl.add s.size role) (s.alloc added).2 := by
  have grow := Marks.grow_add sound.fresh role
  constructor
  · exact sound.tables
  · intro a given held
    by_cases same : a = s.size
    · simp_all
    · rw [Marks.add_of_ne role same] at held
      obtain ⟨th, there, fits⟩ := sound.holds held
      exact ⟨th, Store.thunk?_alloc_of_some there added, fits.grow grow⟩
  · intro a mn held
    by_cases same : a = s.size
    · subst same
      rw [Marks.add_self] at held
      cases held
      exact closed
    · rw [Marks.add_of_ne role same] at held
      exact sound.closed held
  · intro a mn held o inside
    by_cases same : a = s.size
    · subst same
      rw [Marks.add_self] at held
      cases held
      exact occurs o inside
    · rw [Marks.add_of_ne role same] at held
      obtain ⟨known, given⟩ := Option.isSome_iff_exists.mp (sound.occurs held o inside)
      simp [grow.keeps given]
  · intro a bound
    exact grow.keeps (sound.declared bound)

theorem withVariable (x : Name) : Sound lk (rl.add s.size (.opened x)) (s.withVariable x) := by
  have built := sound.build (.neutral x [])
  refine built.add (.kept rfl rfl (.refl _) (.neutral rfl (by simp) .nil)) trivial ?_
  intro o occurs
  cases occurs
  simp

theorem postpone {mn : Name → Nameless} (gives : Gives lk rl env mn) (arg : Term) :
    ∃ o : Roles, rl.Grow s.size o ∧
      Sound lk o (s.delay arg env).2 ∧
      o.meaning? (s.delay arg env).1 = some (arg.nameless mn []) := by
  have closed : (arg.nameless mn []).ClosedAt 0 :=
    Term.closedAt_nameless (sound.gives_closed gives) [] arg
  have occurs : ∀ o, (arg.nameless mn []).Occurs o →
      (rl.add s.size (.delayed (arg.nameless mn [])) o).isSome := by
    intro o inside
    obtain ⟨role, given⟩ := Option.isSome_iff_exists.mp (sound.term_occurs gives inside)
    simp [(Marks.grow_add sound.fresh _).keeps given]
  rcases s.delay_cases arg env with ⟨x, a, rfl, found, delayed⟩ |
    ⟨unbound, _, delayed⟩ | ⟨p, b, rfl, delayed⟩
  · rw [sound.find] at found
    refine ⟨rl, .refl _ _, ?_, ?_⟩
    · simp_all
    · rw [delayed, Term.nameless_var]
      exact gives.found found
  · refine ⟨rl.add s.size (.delayed (arg.nameless mn [])), Marks.grow_add sound.fresh _, ?_, ?_⟩
    · rw [delayed]
      have notBound : lk.isBound env arg = false := by
        cases arg with
        | var x => simp [Store.isBound, ← sound.find, unbound x rfl]
        | lam p b => rfl
        | app f arg => rfl
      exact sound.add (.delayed (by simp [Thunk.suspended]) rfl
        (gives.grow (Marks.grow_add sound.fresh _)) notBound) closed occurs
    · rw [delayed]
      simp [Roles.meaning?, Role.meaning]
  · refine ⟨rl.add s.size (.delayed ((Term.lam p b).nameless mn [])),
      Marks.grow_add sound.fresh _, ?_, ?_⟩
    · rw [delayed]
      have built := sound.build (.closure p b env)
      exact built.add (.kept rfl rfl (.refl _)
        (.closure rfl (gives.grow (Marks.grow_add sound.fresh _)))) closed occurs
    · rw [delayed]
      simp [Roles.meaning?, Role.meaning]

end

end Sound

/-- How a stack, down to a base, uses the term in front of it.  Thunks that are
to be updated stand for terms that were reduced to the one in front; `least` is
how often at least, as long as no argument was taken. -/
inductive Waits (lk : Store) (rl : Roles) (base : List Frame) :
    (least : Nat) → Nameless → List Frame → Nameless → Prop where
  | base {least t} : Waits lk rl base least t base t
  | argument {least t a given k total} (means : rl.meaning? a = some given)
      (rest : Waits lk rl base 0 (.app t given) k total) :
      Waits lk rl base least t (.argument (some a) :: k) total
  | update {least cnt t a st0 k total} (means : rl.meaning? a = some st0)
      (sts : HeadSteps lk.definitions cnt st0 t) (enough : least ≤ cnt)
      (rest : Waits lk rl base least t k total) :
      Waits lk rl base least t (.update a :: k) total

namespace Waits

variable {base : List Frame} {least : Nat} {t : Nameless} {k : List Frame}

section

variable (waits : Waits lk rl base least t k total)

include waits

theorem grow {o : Roles} (grow : rl.Grow size o) : Waits lk o base least t k total := by
  induction waits with
  | base => exact .base
  | argument means _ ih => exact .argument (grow.meaning? means) ih
  | update means sts enough _ ih => exact .update (grow.meaning? means) sts enough ih

theorem weaken {fewer : Nat} (le : fewer ≤ least) : Waits lk rl base fewer t k total := by
  induction waits generalizing fewer with
  | base => exact .base
  | argument means rest => exact .argument means rest
  | update means sts enough _ ih =>
    exact .update means sts (Nat.le_trans le enough) (ih le)

theorem advance (sts : HeadSteps lk.definitions cnt t reduced) :
    ∃ r, HeadSteps lk.definitions cnt total r ∧ Waits lk rl base (least + cnt) reduced k r := by
  induction waits generalizing reduced with
  | base => exact ⟨reduced, sts, .base⟩
  | argument means _ ih =>
    obtain ⟨r, reaches, rest⟩ := ih (sts.left _)
    exact ⟨r, reaches, .argument means (rest.weaken (Nat.zero_le _))⟩
  | update means ely enough _ ih =>
    obtain ⟨r, reaches, rest⟩ := ih sts
    exact ⟨r, reaches, .update means (ely.trans sts) (by omega) rest⟩

theorem applied : ∃ args, total = t.apply args := by
  induction waits with
  | base => exact ⟨[], rfl⟩
  | argument _ _ ih =>
    obtain ⟨args, rfl⟩ := ih
    exact ⟨_ :: args, rfl⟩
  | update _ _ _ _ ih => exact ih

/-- A thunk that is to be updated stands for a term that was reduced to the one
in front, applied. -/
theorem updated {st0 : Nameless} (mem : .update a ∈ k) (ots : .update a ∉ base)
    (means : rl.meaning? a = some st0) :
    ∃ cnt args, HeadSteps lk.definitions cnt st0 (t.apply args) ∧ (args = [] → least ≤ cnt) := by
  induction waits with
  | base => exact absurd mem ots
  | argument _ _ ih =>
    rcases List.mem_cons.mp mem with impossible | later
    · cases impossible
    · obtain ⟨cnt, args, sts, _⟩ := ih later
      exact ⟨cnt, _ :: args, sts, by simp⟩
  | update known sts enough _ ih =>
    rcases List.mem_cons.mp mem with same | later
    · cases same
      rw [known] at means
      cases means
      exact ⟨_, [], sts, fun _ => enough⟩
    · exact ih later

end

/-- A thunk that needs its own value stands for a term without a value. -/
theorem diverges (waits : Waits lk rl base 1 t k total) (mem : .update a ∈ k)
    (ots : .update a ∉ base) (means : rl.meaning? a = some t) : Diverges lk.definitions total := by
  obtain ⟨cnt, args, sts, atLeast⟩ := waits.updated mem ots means
  have cycle : Diverges lk.definitions t := by
    cases cnt with
    | succ cnt => exact .of_cycle sts
    | zero =>
      -- without a step the term would contain itself
      generalize reached : t.apply args = last at sts
      cases sts
      have larger := t.size_apply args
      simp_all
  obtain ⟨out, rfl⟩ := waits.applied
  exact cycle.apply out

end Waits

/-- What the focus or the value of a configuration stands for.  A bound variable
in focus is one step away from the term that it stands for.  The weight falls
when the machine comes closer to a value without a reduction. -/
inductive Control (lk : Store) (rl : Roles) :
    Option (Term × Env) → Value → (least wt : Nat) → Nameless → Prop where
  | term {t env v mn} (gives : Gives lk rl env mn) :
      Control lk rl (some (t, env)) v (lk.isBound env t).toNat
        (4 * (t.nameless mn []).size + 2 * (lk.isBound env t).toNat + 1)
        (t.nameless mn [])
  | value {v mn} (denotes : Denotes lk rl v mn) : Control lk rl none v 0 0 mn

/-- What a configuration stands for, down to a base of its stack. -/
def Means (lk : Store) (rl : Roles) (base : List Frame) (c : Configuration)
    (wt : Nat) (total : Nameless) : Prop :=
  ∃ least own t,
    Control lk rl c.focus c.value least own t ∧ Waits lk rl base least t c.stack total ∧
    wt = own + c.stack.length

section Means

variable {base : List Frame}

/-- A thunk that is not evaluated holds a term, which its meaning is, or is
unfolded to. -/
theorem Holds.code (holds : Holds lk rl a role th) (unforced : th.phase = .unforced) :
    ∃ t env mn, th.code? = some (t, env) ∧ Gives lk rl env mn ∧
      ((role = .declared ∧ lk.definitions a = some (t.nameless mn [])) ∨
        (role = .delayed (t.nameless mn []) ∧ lk.isBound env t = false)) := by
  cases holds with
  | declared notForced ct gives defined => grind [Thunk.code?]
  | delayed notForced ct gives notBound => grind [Thunk.code?]
  | kept forced ct sts denotes => simp [unforced] at forced

theorem Holds.value (holds : Holds lk rl a role th) (forced : th.phase = .forced) :
    ∃ k r, HeadSteps lk.definitions k (role.meaning a) r ∧ Denotes lk rl th.value r := by
  cases holds with
  | declared notForced ct gives defined => exact absurd forced notForced
  | delayed notForced ct gives notBound => exact absurd forced notForced
  | kept forced ct sts denotes => grind [Thunk.value]

/-- Entering a thunk unfolds the name that it belongs to, or brings its term
into focus. -/
theorem Waits.enter (sound : Sound lk rl s) {t : Nameless} {k : List Frame}
    (waits : Waits lk rl base 1 t k total) (means : rl.meaning? a = some t)
    (held : s.thunk? a = some th) (unforced : th.phase = .unforced) (v : Value) (aft : Store) :
    ∃ cnt r lighter, HeadSteps lk.definitions cnt total r ∧
      Means lk rl base ⟨th.code?, v, .update a :: k, aft⟩ lighter
        r ∧ (0 < cnt ∨ lighter < 4 * t.size + 3 + k.length) := by
  obtain ⟨role, given, rfl⟩ := Option.map_eq_some_iff.mp means
  obtain ⟨found, there, holds⟩ := sound.holds given
  rw [held] at there
  cases there
  obtain ⟨b, env, mn, code, gives, unfolded | same⟩ := holds.code unforced <;>
    rw [code]
  · obtain ⟨rfl, defined⟩ := unfolded
    have step : HeadSteps lk.definitions 1 (Role.declared.meaning a)
        (b.nameless mn []) := .single (.unfold defined)
    obtain ⟨r, reaches, rest⟩ := waits.advance step
    refine ⟨1, r, _, reaches, ⟨_, _, _, Control.term gives, ?_, rfl⟩, .inl Nat.one_pos⟩
    have atMost : (lk.isBound env b).toNat ≤ 1 := Bool.toNat_le _
    exact .update means step atMost (rest.weaken (by omega))
  · obtain ⟨rfl, notBound⟩ := same
    refine ⟨0, total, _, .refl total, ⟨_, _, _, Control.term gives, ?_, rfl⟩, .inr ?_⟩
    · rw [notBound]
      exact .update means (.refl _) (Nat.le_refl 0) (waits.weaken (Nat.zero_le 1))
    grind [Role.meaning]

/-- One transition: the term of a configuration is reduced at its head, or the
weight falls. -/
theorem Means.move {bef aft : Configuration}
    (sound : Sound lk rl bef.store) (means : Means lk rl base bef wt total)
    (inside : bef.focus = none → bef.stack ≠ base) (move : Move host bef aft) :
    ∃ o cnt r lighter, rl.Grow bef.store.size o ∧
      Sound lk o aft.store ∧ HeadSteps lk.definitions cnt total r ∧
      Means lk o base aft lighter r ∧ (0 < cnt ∨ lighter < wt) := by
  obtain ⟨least, own, t, control, waits, rfl⟩ := means
  cases move with
  | @reuse x env _ k s a th found held forced =>
    cases control with
    | @term _ _ _ mn gives =>
      rw [sound.find] at found
      have stands := gives.found found
      rw [Term.nameless_var] at waits
      obtain ⟨role, given, same⟩ := Option.map_eq_some_iff.mp stands
      obtain ⟨o, there, holds⟩ := sound.holds given
      rw [held] at there
      cases there
      obtain ⟨cnt, reduced, sts, denotes⟩ := holds.value forced
      rw [same] at sts
      obtain ⟨r, reaches, rest⟩ := waits.advance sts
      refine ⟨rl, cnt, r, _, .refl _ _, sound, reaches,
        ⟨_, _, _, .value denotes, rest.weaken (Nat.zero_le _), rfl⟩, .inr ?_⟩
      simp only
      omega
  | @enter x env v k s a th found held unforced =>
    cases control with
    | @term _ _ _ mn gives =>
      rw [sound.find] at found
      have bound : lk.isBound env (.var x) = true := by simp [Store.isBound, found]
      rw [Term.nameless_var, bound] at waits
      obtain ⟨cnt, r, lighter, reaches, stands, progress⟩ :=
        Waits.enter sound waits (gives.found found) held unforced v (s.update a Thunk.begin)
      refine ⟨rl, cnt, r, lighter, .refl _ _, sound.begin held unforced, reaches,
        stands, progress.imp_right fun less => ?_⟩
      rw [Term.nameless_var, bound]
      simpa [Nat.add_assoc] using less
  | @close p b env =>
    cases control with
    | term gives =>
      refine ⟨rl, 0, total, _, .refl _ _, sound.build (.closure p b env),
        .refl total, ⟨_, _, _, .value (.closure rfl gives), waits.weaken (Nat.zero_le _), rfl⟩,
        .inr ?_⟩
      simp only
      omega
  | @postpone f arg env v k s =>
    cases control with
    | @term _ _ _ mn gives =>
      obtain ⟨o, grow, sound, stands⟩ := sound.postpone gives arg
      refine ⟨o, 0, total, _, grow, sound, .refl total,
        ⟨_, _, _, .term (gives.grow grow), ?_, rfl⟩, .inr ?_⟩
      · exact .argument stands ((waits.grow grow).weaken (Nat.zero_le _))
      · have atMost : (lk.isBound env f).toNat ≤ 1 := Bool.toNat_le _
        simp only [Term.nameless, Nameless.size, List.length_cons]
        omega
  | @memoize v a k s =>
    cases control with
    | value denotes =>
      cases waits with
      | base => exact absurd rfl (inside rfl)
      | @update _ cnt _ _ st0 _ _ stands sts enough rest =>
        refine ⟨rl, 0, total, _, .refl _ _, sound.memoize ?_, .refl total,
          ⟨_, _, _, .value denotes, rest, rfl⟩, .inr (by simp)⟩
        intro role given
        simp only [Roles.meaning?, given, Option.map_some, Option.some.injEq] at stands
        exact ⟨cnt, _, stands ▸ sts, denotes⟩
  | @bind v arg k s p b env closure =>
    cases control with
    | value denotes =>
      cases denotes with
      | neutral form _ _ => simp [closure] at form
      | @closure _ _ _ mn form gives =>
        cases closure.symm.trans form
        cases waits with
        | base => exact absurd rfl (inside rfl)
        | @argument _ _ a given _ _ stands rest =>
          have step : HeadStep lk.definitions
              (.app (.lam (b.nameless mn [p])) given) (b.nameless (Term.assign mn p given) []) := by
            have inst := Term.nameless_instantiate (sound.gives_closed gives)
              (sound.meaning_closed stands) p [] b
            rw [← inst]
            exact .beta
          obtain ⟨r, reaches, later⟩ := rest.advance (.single step)
          refine ⟨rl, 1, r, _, .refl _ _, sound, reaches,
            ⟨_, _, _, .term (gives_layer gives stands p), ?_, rfl⟩, .inl Nat.one_pos⟩
          exact later.weaken (Bool.toNat_le _)
  | @extend v arg k s x args neutral =>
    cases control with
    | value denotes =>
      cases denotes with
      | closure form _ => simp [neutral] at form
      | @neutral _ _ a mns form opened given =>
        cases neutral.symm.trans form
        cases waits with
        | base => exact absurd rfl (inside rfl)
        | @argument _ _ pl last _ _ stands rest =>
          have built := sound.build (.neutral x (args ++ [some pl]))
          refine ⟨rl, 0, total, _, .refl _ _, built, .refl total,
            ⟨_, _, (Nameless.free a).apply (mns ++ [last]),
              .value (.neutral rfl opened ?_), ?_, rfl⟩, .inr (by simp)⟩
          · exact List.rel_append given (.cons stands .nil)
          · rw [Nameless.apply_append]
            exact rest
  | supply prim _ _ =>
    cases control with
    | value denotes => cases denotes <;> simp_all
  | demand prim _ _ =>
    cases control with
    | value denotes => cases denotes <;> simp_all
  | call computed =>
    cases waits
    exact absurd rfl (inside (by cases control; rfl))

end Means

/-- How a configuration without further frames than its own fails: at a missing
name, or at a thunk that stands for a term without a value. -/
theorem Means.raise
    (sound : Sound lk rl c.store) (means : Means lk rl [] c wt total) (marked : c.Marked)
    (raise : Raise host c er) :
    (∃ x, er = .evaluation (.unbound x) [] ∧ total.head = .missing x) ∨
      Diverges lk.definitions total ∧ ∃ a th,
        c.store.thunk? a = some th ∧ th.phase = .forcing ∧ er = th.cycle := by
  obtain ⟨least, own, t, control, waits, _⟩ := means
  cases raise with
  | @unbound x env v k s lost =>
    cases control with
    | term gives =>
      rw [sound.find] at lost
      obtain ⟨args, rfl⟩ := waits.applied
      refine .inl ⟨x, rfl, ?_⟩
      rw [Nameless.head_apply, Term.nameless_var, gives.lost lost]
      rfl
  | @dangling x env v k s a found empty =>
    cases control with
    | term gives =>
      rw [sound.find] at found
      obtain ⟨role, given, _⟩ := Option.map_eq_some_iff.mp (gives.found found)
      obtain ⟨th, held, _⟩ := sound.holds given
      simp [empty] at held
  | @cyclic x env v k s a th found held forcing =>
    cases control with
    | term gives =>
      have there : .update a ∈ k :=
        mem_updates.mp (marked.forcing_iff.mp (by simp [Store.phase?, held, forcing]))
      rw [sound.find] at found
      have bound : lk.isBound env (.var x) = true := by simp [Store.isBound, found]
      rw [Term.nameless_var, bound] at waits
      exact .inr ⟨waits.diverges there (by simp) (gives.found found), a, th, held, forcing, rfl⟩
  | refused refuses =>
    cases control with
    | value denotes => cases denotes <;> simp_all [Form.isApplicable]
  | unsupplied prim _ =>
    cases control with
    | value denotes => cases denotes <;> simp_all
  | cyclicArgument prim _ _ =>
    cases control with
    | value denotes => cases denotes <;> simp_all
  | host _ => cases waits

end CallByNeed
