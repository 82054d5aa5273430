import CallByNeed.Proofs.Records

/-!
# Two engines for one program

Two engines for the same program have evaluated different thunks of it, and
have added thunks in different order.  A pairing gives to thunks of the left
engine their counterparts in the right one; `Agrees` says that they hold the
same, up to the pairing, except that the right engine may have a value where
the left one has not.

When the left engine needs a value that the right one has, it goes through the
evaluation that the ledger of the right engine records (`Agrees.follow`).
-/

variable {t : Term} {otherEnv : Env}

namespace CallByNeed

variable {kids : List Address}

/-- Thunks of one store with their counterparts in another one. -/
abbrev Pairing := Address → Option Address

variable {pr : Pairing}

namespace Pairing

/-- Pairs may have been added. -/
def Extends (pr o : Pairing) : Prop := ∀ a pl, pr a = some pl → o a = some pl

theorem Extends.trans {fst snd thd : Pairing} (early : fst.Extends snd) (late : snd.Extends thd) :
    fst.Extends thd :=
  fun a pl paired => late a pl (early a pl paired)

/-- Two places hold counterparts. -/
def Pairs (pr : Pairing) (l r : Option Address) : Prop :=
  ∃ a pl, l = some a ∧ r = some pl ∧ pr a = some pl

theorem Pairs.extend {o : Pairing} {l r : Option Address} (pairs : pr.Pairs l r)
    (grows : pr.Extends o) : o.Pairs l r := by
  obtain ⟨a, pl, rfl, rfl, paired⟩ := pairs
  exact ⟨a, pl, rfl, rfl, grows a pl paired⟩

/-- One more pair. -/
def add (pr : Pairing) (a pl : Address) : Pairing := Function.update pr a (some pl)

@[simp] theorem add_self (pr : Pairing) (a pl : Address) : pr.add a pl a = some pl := by
  simp [add]

/-- Two thunks that are paired one after the other. -/
theorem pairs_two (pr : Pairing) {b ql : Address}
    (further : (pr.add a pl).Extends ((pr.add a pl).add b ql)) :
    List.Forall₂ (Pairs ((pr.add a pl).add b ql)) [some a, some b] [some pl, some ql] :=
  .cons ⟨_, _, rfl, rfl, further _ _ (add_self _ _ _)⟩ (.cons ⟨_, _, rfl, rfl, add_self _ _ _⟩ .nil)

theorem add_of_ne {o : Address} (pl : Address) (differ : o ≠ a) : pr.add a pl o = pr o := by
  simp [add, differ]

theorem extends_add (free : pr a = none) (pl : Address) :
    pr.Extends (pr.add a pl) := by
  intro o known paired
  grind [add_of_ne]

end Pairing

inductive Env.Matches (pr : Pairing) : Env → Env → Prop where
  | root (num : Nat) : Matches pr (.root num) (.root num)
  | layer {x th pl env o} (pairs : pr.Pairs th pl) (rest : Matches pr env o) :
      Matches pr (.layer x th env) (.layer x pl o)

inductive Form.Matches (pr : Pairing) : Form → Form → Prop where
  | closure {p b env o} (envs : Env.Matches pr env o) :
      Matches pr (.closure p b env) (.closure p b o)
  | neutral {x args os} (pairs : List.Forall₂ pr.Pairs args os) :
      Matches pr (.neutral x args) (.neutral x os)
  | primitive (x : Name) : Matches pr (.primitive x) (.primitive x)
  | constant (dt : Datum) : Matches pr (.constant dt) (.constant dt)

inductive Aim.Matches (pr : Pairing) : Aim → Aim → Prop where
  | term {t env o} (envs : Env.Matches pr env o) : Matches pr (.term t env) (.term t o)
  | form {form o} (forms : Form.Matches pr form o) : Matches pr (.form form) (.form o)

inductive Frame.Matches (pr : Pairing) : Frame → Frame → Prop where
  | argument {th pl} (pairs : pr.Pairs th pl) : Matches pr (.argument th) (.argument pl)
  | update {a pl} (paired : pr a = some pl) : Matches pr (.update a) (.update pl)
  | call (prim : Name) : Matches pr (.call prim) (.call prim)

section Extension

variable {o : Pairing}

theorem Env.Matches.extend {l r : Env} (envs : Env.Matches pr l r) (grows : pr.Extends o) :
    Env.Matches o l r := by
  induction envs with
  | root num => exact .root num
  | layer pairs _ ih => exact .layer (pairs.extend grows) ih

theorem Form.Matches.extend {l r : Form} (forms : Form.Matches pr l r) (grows : pr.Extends o) :
    Form.Matches o l r := by
  cases forms with
  | closure envs => exact .closure (envs.extend grows)
  | neutral pairs => exact .neutral (pairs.imp fun {_ _} paired => paired.extend grows)
  | primitive x => exact .primitive x
  | constant dt => exact .constant dt

theorem Frame.Matches.extend {l r : Frame} (fs : Frame.Matches pr l r) (grows : pr.Extends o) :
    Frame.Matches o l r := by
  cases fs with
  | argument pairs => exact .argument (pairs.extend grows)
  | update paired => exact .update (grows _ _ paired)
  | call prim => exact .call prim

end Extension

/-- A host that cannot tell thunks from their counterparts. -/
def Host.Uniform (host : Host) : Prop :=
  ∀ (pr : Pairing) (x : Name) (l r : Value), Form.Matches pr l.form r.form →
    (∃ rs o, host x l = .ok rs ∧ host x r = .ok o ∧
        Form.Matches pr rs.form o.form) ∨ ∃ er, host x l = .error er ∧ host x r = .error er

theorem increment_matches {l r : Value} (forms : Form.Matches pr l.form r.form) :
    Form.Matches pr (increment l).form (increment r).form := by
  obtain ⟨form, identity⟩ := l
  obtain ⟨o, otherIdentity⟩ := r
  cases forms with
  | closure envs => exact .constant .nothing
  | neutral pairs => exact .constant .nothing
  | primitive x => exact .constant .nothing
  | constant dt =>
    simp only [increment]
    cases dt.int? with
    | none => exact .constant .nothing
    | some num => exact .constant (.int (num + 1))

theorem countingHost_uniform : Host.Uniform countingHost := by
  intro pr x l r forms
  grind [countingHost, increment_matches]

/-- What a thunk and its counterpart at a place of the right store hold.  The
counterpart may have come further. -/
inductive Thunk.Matches (lg : Ledger) (pr : Pairing) (pl : Address)
    (th o : Thunk) : Prop where
  | kept (forced : th.phase = .forced) (otherForced : o.phase = .forced)
      (forms : Form.Matches pr th.value.form o.value.form)
  | alike {t env otherEnv} (phase : th.phase = o.phase)
      (notForced : o.phase ≠ .forced) (ct : th.content = .code t env)
      (otherContent : o.content = .code t otherEnv)
      (envs : Env.Matches pr env otherEnv)
  | ahead {t env otherEnv} (notForced : th.phase ≠ .forced)
      (ct : th.content = .code t env) (otherForced : o.phase = .forced)
      (src : lg.source pl = some (t, otherEnv))
      (envs : Env.Matches pr env otherEnv)

variable {lg : Ledger} {c : Configuration} {inn : List Frame} {pl : Address}
  {base : List Frame}

theorem Thunk.Matches.extend {more : Pairing} {o : Thunk} (same : Thunk.Matches lg pr pl th o)
    (grows : pr.Extends more) : Thunk.Matches lg more pl th o := by
  cases same with
  | kept forced otherForced forms => exact .kept forced otherForced (forms.extend grows)
  | alike phase notForced ct otherContent envs =>
    exact .alike phase notForced ct otherContent (envs.extend grows)
  | ahead notForced ct otherForced src envs =>
    exact .ahead notForced ct otherForced src (envs.extend grows)

theorem Thunk.Matches.rebase {more : Ledger} {o : Thunk} (same : Thunk.Matches lg pr pl th o)
    (srcs : more.source pl = lg.source pl) : Thunk.Matches more pr pl th o := by
  cases same with
  | kept forced otherForced forms => exact .kept forced otherForced forms
  | alike phase notForced ct otherContent envs =>
    exact .alike phase notForced ct otherContent envs
  | ahead notForced ct otherForced src envs =>
    exact .ahead notForced ct otherForced (srcs.trans src) envs

/-- Two stores of one program hold the same along a pairing.  Thunks that the
left store has not added yet have no counterpart: those that the right one
added in an evaluation which the left one has not begun. -/
structure Agrees (lk : Store) (lg : Ledger) (pr : Pairing) (l r : Store) :
    Prop where
  program : lk.Linked
  leftTables : l.tables = lk.tables
  rightTables : r.tables = lk.tables
  declared : ∀ a < lk.size, pr a = some a
  paired : ∀ {a pl}, pr a = some pl → ∃ th o,
    l.thunk? a = some th ∧ r.thunk? pl = some o ∧
      th.name = o.name ∧ Thunk.Matches lg pr pl th o
  injective : ∀ {a again pl}, pr a = some pl →
    pr again = some pl → a = again
  begun : ∀ {pl}, r.phase? pl = some .forcing → ∃ a, pr a = some pl
  repeated : ∀ {a kid own}, kid ∈ lg.children own →
    pr a = some kid →
    ∃ known, pr known = some own ∧ l.phase? known ≠ some .unforced

namespace Agrees

variable {lk l r aft : Store}

section

variable (agrees : Agrees lk lg pr l r)

include agrees

theorem unpaired : pr l.size = none := by
  cases given : pr l.size with
  | none => rfl
  | some pl =>
    obtain ⟨th, _, held, _⟩ := agrees.paired given
    exact absurd (Store.thunk?_lt held) (Nat.lt_irrefl _)

theorem find {o : Env} (envs : Env.Matches pr env o) (x : Name) :
    (l.find x env = none ∧ r.find x o = none) ∨
      ∃ a pl, l.find x env = some a ∧ r.find x o = some pl ∧ pr a = some pl := by
  induction envs with
  | root num =>
    rw [Store.find_congr agrees.leftTables, Store.find_congr agrees.rightTables]
    cases found : lk.find x (.root num) with
    | none => exact .inl ⟨rfl, rfl⟩
    | some a =>
      exact .inr ⟨a, a, rfl, rfl, agrees.declared a (agrees.program.find_lt found)⟩
  | @layer bound th pl env o pairs _ ih =>
    simp only [Store.find]
    by_cases same : bound = x
    · rw [if_pos same, if_pos same]
      exact .inr pairs
    simp_all

theorem change (tbs : aft.tables = l.tables)
    (changed : ∀ {a pl th o}, pr a = some pl →
      l.thunk? a = some th → r.thunk? pl = some o → Thunk.Matches lg pr pl th o →
      ∃ later, aft.thunk? a = some later ∧ later.name = th.name ∧
        Thunk.Matches lg pr pl later o ∧
        (th.phase ≠ .unforced → later.phase ≠ .unforced)) : Agrees lk lg pr aft r := by
  refine ⟨agrees.program, tbs.trans agrees.leftTables, agrees.rightTables, agrees.declared,
    fun given => ?_, agrees.injective, agrees.begun, fun mem given => ?_⟩
  · obtain ⟨th, o, held, there, x, same⟩ := agrees.paired given
    grind
  · obtain ⟨known, paired, begun⟩ := agrees.repeated mem given
    obtain ⟨th, o, held, there, x, same⟩ := agrees.paired paired
    obtain ⟨later, heldLater, _, _, further⟩ := changed paired held there same
    refine ⟨known, paired, ?_⟩
    grind [Store.phase?]

theorem build (form : Form) : Agrees lk lg pr (l.build form).2 r :=
  agrees.change rfl fun _ held _ same => ⟨_, held, rfl, same, id⟩

theorem begin {pl : Address} {o : Thunk} (given : pr a = some pl) (held : l.thunk? a = some th)
    (unforced : th.phase = .unforced) (there : r.thunk? pl = some o) (forced : o.phase = .forced) :
    Agrees lk lg pr (l.update a Thunk.begin) r := by
  refine agrees.change rfl fun {again opp found across} paired heldAgain thereAgain same => ?_
  rw [Store.thunk?_update]
  split
  · rename_i equal
    subst equal
    rw [held] at heldAgain
    cases heldAgain
    rw [given] at paired
    cases paired
    rw [there] at thereAgain
    cases thereAgain
    refine ⟨th.begin, by simp [held], rfl, ?_, by simp⟩
    cases same with
    | kept forcedToo => simp [unforced] at forcedToo
    | alike _ notForced => exact absurd forced notForced
    | ahead _ ct _ src envs => exact .ahead (by simp) ct forced src envs
  simp_all

theorem memoize {pl : Address} {o : Thunk} (given : pr a = some pl)
    (there : r.thunk? pl = some o) (forced : o.phase = .forced)
    (forms : Form.Matches pr v.form o.value.form) :
    Agrees lk lg pr (l.update a (·.memoize v)) r := by
  refine agrees.change rfl fun {again opp found across} paired heldAgain thereAgain same => ?_
  rw [Store.thunk?_update]
  split
  · rename_i equal
    subst equal
    rw [given] at paired
    cases paired
    rw [there] at thereAgain
    cases thereAgain
    exact ⟨found.memoize v, by simp [heldAgain], rfl, .kept rfl forced forms, by simp⟩
  simp_all

theorem add {added o : Thunk} (there : r.thunk? kid = some o)
    (x : added.name = o.name) (same : Thunk.Matches lg (pr.add l.size kid) kid added o)
    (fresh : ∀ a, pr a ≠ some kid)
    (owners : ∀ own, kid ∈ lg.children own →
      ∃ known, pr known = some own ∧ l.phase? known ≠ some .unforced) :
    Agrees lk lg (pr.add l.size kid) (l.alloc added).2 r := by
  have grows := Pairing.extends_add agrees.unpaired kid
  have phases : ∀ {known own}, pr known = some own → l.phase? known ≠ some .unforced →
      (l.alloc added).2.phase? known ≠ some .unforced := by
    intro known own paired begun
    obtain ⟨th, _, held, _⟩ := agrees.paired paired
    simpa [Store.phase?, Store.thunk?_alloc_of_some held added, held] using begun
  constructor
  · exact agrees.program
  · exact agrees.leftTables
  · exact agrees.rightTables
  · exact fun a bound => grows _ _ (agrees.declared a bound)
  · intro a pl given
    by_cases equal : a = l.size
    · simp_all
    · rw [Pairing.add_of_ne kid equal] at given
      obtain ⟨th, across, held, thereToo, xs, alike⟩ := agrees.paired given
      exact ⟨th, across, Store.thunk?_alloc_of_some held added, thereToo, xs, alike.extend grows⟩
  · intro a again pl given givenAgain
    by_cases equal : a = l.size <;> by_cases equalAgain : again = l.size
    · rw [equal, equalAgain]
    · grind [Pairing.add_self, Pairing.add_of_ne]
    · grind [Pairing.add_self, Pairing.add_of_ne]
    · rw [Pairing.add_of_ne kid equal] at given
      rw [Pairing.add_of_ne kid equalAgain] at givenAgain
      exact agrees.injective given givenAgain
  · intro pl forcing
    obtain ⟨a, given⟩ := agrees.begun forcing
    exact ⟨a, grows _ _ given⟩
  · intro a known own mem given
    by_cases equal : a = l.size
    · subst equal
      rw [Pairing.add_self] at given
      cases given
      obtain ⟨fst, paired, begun⟩ := owners own mem
      exact ⟨fst, grows _ _ paired, phases paired begun⟩
    · rw [Pairing.add_of_ne kid equal] at given
      obtain ⟨fst, paired, begun⟩ := agrees.repeated mem given
      exact ⟨fst, grows _ _ paired, phases paired begun⟩

end

end Agrees

/-- How far the left engine may have gone on: the counterparts that were given
are the named ones, or belong to evaluations of a rank below the bound. -/
structure Onward (lg : Ledger) (bound : Nat) (kids : List Address)
    (pr o : Pairing) (l aft : Store) : Prop where
  grows : pr.Extends o
  adds : ∀ {a pl}, o a = some pl → pr a = some pl ∨
    pl ∈ kids ∨ ∃ own, pl ∈ lg.children own ∧ lg.rank own < bound
  forcing : ∀ a, aft.phase? a = some .forcing ↔ l.phase? a = some .forcing
  forced : ∀ {a}, l.phase? a = some .forced →
    aft.phase? a = some .forced

namespace Onward

variable {bound : Nat} {o : Pairing} {l aft : Store}

theorem refl (lg : Ledger) (bound : Nat) (pr : Pairing) (s : Store) :
    Onward lg bound [] pr pr s s := ⟨fun _ _ => id, .inl, fun _ => Iff.rfl, id⟩

theorem still (same : aft.thunks = l.thunks) : Onward lg bound [] pr pr l aft := by
  have phases : ∀ a, aft.phase? a = l.phase? a := by
    intro a
    simp [Store.phase?, Store.thunk?, same]
  exact ⟨fun _ _ => id, .inl, fun a => by rw [phases], fun {a} forced => by rw [phases, forced]⟩

theorem trans {more : List Address} {thd : Pairing} {last : Store}
    (early : Onward lg bound kids pr o l aft) (late : Onward lg bound more o thd aft last) :
    Onward lg bound (kids ++ more) pr thd l last := by
  refine ⟨early.grows.trans late.grows, fun given => ?_,
    fun a => (late.forcing a).trans (early.forcing a),
    fun forced => late.forced (early.forced forced)⟩
  rcases late.adds given with known | named | below
  · rcases early.adds known with old | named | below
    · exact .inl old
    · simp_all
    simp_all
  · simp_all
  simp_all

theorem around {pl : Address}
    (onward : Onward lg (lg.rank pl) (lg.children pl) pr o (l.update a Thunk.begin) aft)
    (held : l.thunk? a = some th) (unforced : th.phase = .unforced) (older : lg.rank pl < bound)
    (v : Value) : Onward lg bound [] pr o l (aft.update a (·.memoize v)) := by
  have beside : ∀ (s : Store) (change : Thunk → Thunk) {again : Address},
      a ≠ again → (s.update a change).phase? again = s.phase? again := by
    simp_all [Store.phase?]
  refine ⟨onward.grows, fun given => ?_, fun again => ?_, fun {again} forced => ?_⟩
  · rcases onward.adds given with old | named | ⟨own, mem, below⟩
    · exact .inl old
    · grind
    grind
  · by_cases same : a = again
    · simp_all [Store.phase?]
    · rw [beside _ _ same, onward.forcing, beside _ _ same]
  grind [Store.phase?, forced]

end Onward

/-- The evaluations that the left engine has begun are begun in the right one,
or have at least the given rank there. -/
def Occupied (lg : Ledger) (bound : Nat) (pr : Pairing) (l r : Store) : Prop :=
  ∀ a, l.phase? a = some .forcing → ∃ pl, pr a = some pl ∧
    (r.phase? pl = some .forcing ∨ bound ≤ lg.rank pl)

theorem Occupied.onward {o : Pairing} {l aft r : Store}
    (occupied : Occupied lg bound pr l r) (onward : Onward lg bound kids pr o l aft) :
    Occupied lg bound o aft r := by
  intro a forcing
  obtain ⟨pl, given, busy⟩ := occupied a ((onward.forcing a).mp forcing)
  exact ⟨pl, onward.grows _ _ given, busy⟩

theorem Configuration.focus_of_term (aim : c.aim = .term t env) :
    c.focus = some (t, env) := by
  grind [Configuration.aim]

theorem Configuration.focus_of_form {form : Form} (aim : c.aim = .form form) :
    c.focus = none ∧ c.value.form = form := by grind [Configuration.aim]

/-- A configuration of the left engine is at a part of an evaluation of the
right one, above a base of its stack. -/
def Shows (pr : Pairing) (c : Configuration) (part : Part) (base : List Frame) : Prop :=
  Aim.Matches pr c.aim part.aim ∧ ∃ fs,
    c.stack = fs ++ base ∧ List.Forall₂ (Frame.Matches pr) fs part.frames

theorem Shows.term {pr : Pairing} {c : Configuration} {inn : List Frame}
    (shows : Shows pr c ⟨.term t otherEnv, inn⟩ base) :
    ∃ env fs, c.focus = some (t, env) ∧
      c.stack = fs ++ base ∧ Env.Matches pr env otherEnv ∧
      List.Forall₂ (Frame.Matches pr) fs inn := by
  obtain ⟨aims, fs, k, same⟩ := shows
  generalize aimed : c.aim = aim at aims
  cases aims with
  | term envs => exact ⟨_, fs, Configuration.focus_of_term aimed, k, envs, same⟩

theorem Shows.form {form : Form} (shows : Shows pr c ⟨.form form, inn⟩ base) :
    ∃ fs, c.focus = none ∧ c.stack = fs ++ base ∧
      Form.Matches pr c.value.form form ∧ List.Forall₂ (Frame.Matches pr) fs inn := by
  obtain ⟨aims, fs, k, same⟩ := shows
  generalize aimed : c.aim = aim at aims
  cases aims with
  | form forms => grind [Configuration.focus_of_form]

/-- The left engine comes to a part of an evaluation of the right one, by at
least so many moves. -/
def Pursues (host : Host) (lk : Store) (lg : Ledger) (r : Store)
    (least bound : Nat) (kids : List Address) (pr : Pairing) (st0 : Configuration)
    (part : Part) (base : List Frame) : Prop :=
  ∃ k o aft, least ≤ k ∧ Moves host k st0 aft ∧
    Onward lg bound kids pr o st0.store aft.store ∧
    Agrees lk lg o aft.store r ∧ Shows o aft part base

/-- The left engine can repeat evaluations of the right one up to a rank. -/
def Repeats (host : Host) (lk : Store) (lg : Ledger) (r : Store) (rank : Nat) :
    Prop :=
  ∀ {kids : List Address} {part last : Part} {pr : Pairing} {st0 : Configuration}
    {base : List Frame} {a pl : Address}, Echoes host lg r rank kids part last →
    Agrees lk lg pr st0.store r → Occupied lg rank pr st0.store r → Shows pr st0 part base →
    (∀ kid ∈ kids, ∀ known, pr known ≠ some kid) → kids.Nodup →
    pr a = some pl → st0.store.phase? a = some .forcing →
    rank ≤ lg.rank pl → (∀ kid ∈ kids, kid ∈ lg.children pl) →
    Pursues host lk lg r 0 rank kids pr st0 last base

section Asking

variable {host : Host} {fs : List Frame} {a : Address} {th : Thunk}

section

variable (asks : Asks c.store ⟨c.aim, fs⟩ a inn)

include asks

section

variable (k : c.stack = fs ++ base)

include k

/-- A configuration that asks for a thunk has a name in focus, or applies a
primitive. -/
theorem Asks.shape :
    (∃ x env, c.store.find x env = some a ∧
        c.focus = some (.var x, env) ∧ c.stack = inn ++ base) ∨
      ∃ x rest, c.value.form = .primitive x ∧
        c.focus = none ∧ inn = .call x :: rest ∧
        c.stack = .argument (some a) :: (rest ++ base) := by
  generalize part : Part.mk c.aim fs = shown at asks
  cases asks with
  | name found => grind [Configuration.focus_of_term]
  | primitive => grind [Configuration.focus_of_form]

section

variable (held : c.store.thunk? a = some th)

include held

theorem Asks.reuse (forced : th.phase = .forced) :
    Move host c ⟨none, th.value, inn ++ base, c.store⟩ := by
  obtain ⟨focus, v, whole, s⟩ := c
  rcases asks.shape k with ⟨x, env, found, rfl, rfl⟩ | ⟨x, rest, form, rfl, rfl, rfl⟩
  · exact .reuse found held forced
  · exact .supply form held forced

theorem Asks.enter (unforced : th.phase = .unforced) :
    Move host c ⟨th.code?, c.value, .update a :: (inn ++ base), c.store.update a Thunk.begin⟩ := by
  obtain ⟨focus, v, whole, s⟩ := c
  rcases asks.shape k with ⟨x, env, found, rfl, rfl⟩ | ⟨x, rest, form, rfl, rfl, rfl⟩
  · exact .enter found held unforced
  · exact .demand form held unforced

theorem Asks.cyclic (forcing : th.phase = .forcing) : Raise host c th.cycle := by
  obtain ⟨focus, v, whole, s⟩ := c
  rcases asks.shape k with ⟨x, env, found, rfl, rfl⟩ | ⟨x, rest, form, rfl, rfl, rfl⟩
  · exact .cyclic found held forcing
  · exact .cyclicArgument form held forcing

end

end

end

end Asking

/-- The left engine asks for the counterpart of what the right one asks for. -/
theorem Asks.matched {lk r : Store} (asks : Asks r part pl inn)
    (agrees : Agrees lk lg pr c.store r) (shows : Shows pr c part base) :
    ∃ fs a os, c.stack = fs ++ base ∧
      Asks c.store ⟨c.aim, fs⟩ a os ∧ pr a = some pl ∧ List.Forall₂ (Frame.Matches pr) os inn := by
  obtain ⟨aims, fs, k, same⟩ := shows
  cases asks with
  | @name x env _ _ found =>
    generalize aimed : c.aim = aim at aims
    cases aims with
    | @term _ o _ envs =>
      rcases agrees.find envs x with ⟨_, lost⟩ | ⟨a, opp, here, there, given⟩
      · simp [found] at lost
      · rw [found] at there
        cases there
        exact ⟨fs, a, fs, k, .name here, given, same⟩
  | @primitive called =>
    generalize aimed : c.aim = aim at aims
    cases aims with
    | form forms =>
      cases forms with
      | primitive =>
        cases same with
        | @cons fst _ rest _ head tail =>
          cases head with
          | argument pairs =>
            obtain ⟨a, opp, rfl, there, given⟩ := pairs
            cases there
            exact ⟨_, a, .call called :: rest, k, .primitive, given, .cons (.call called) tail⟩

theorem Onward.alloc (l base : Store) (ths : base.thunks = l.thunks) (added : Thunk)
    (free : pr l.size = none) (notForcing : added.phase ≠ .forcing) (kid : Address) :
    Onward lg bound [kid] pr (pr.add l.size kid) l (base.alloc added).2 := by
  have size : base.size = l.size := by simp [Store.size, ths]
  have same : ∀ a, base.phase? a = l.phase? a := by
    intro a
    simp [Store.phase?, Store.thunk?, ths]
  have empty : l.phase? l.size = none := by simp [Store.phase?, Store.thunk?_size]
  have phases : ∀ a, a ≠ l.size →
      (base.alloc added).2.phase? a = l.phase? a := by simp_all [Store.phase?]
  refine ⟨Pairing.extends_add free kid, fun {a pl} given => ?_, fun a => ?_, fun {a} forced => ?_⟩
  · grind [Pairing.add_self, Pairing.add_of_ne]
  · by_cases equal : a = l.size
    · simp_all [Store.phase?]
    simp_all
  grind

section Follow

variable {host : Host} {lk r : Store} {st0 : Configuration} {part : Part} {bound : Nat}

/-- The left engine enters a thunk whose value the right one has. -/
theorem Agrees.replay (agrees : Agrees lk lg pr st0.store r) (fits : lg.Fits host lk r)
    {pl : Address} {o : Thunk} (repeats : Repeats host lk lg r (lg.rank pl))
    (occupied : Occupied lg bound pr st0.store r) (older : lg.rank pl < bound)
    (given : pr a = some pl) (held : st0.store.thunk? a = some th) (unforced : th.phase = .unforced)
    (ct : th.content = .code t env) (there : r.thunk? pl = some o) (forced : o.phase = .forced)
    (src : lg.source pl = some (t, otherEnv)) (envs : Env.Matches pr env otherEnv)
    (tail : List Frame) :
    ∃ k more v aft,
      Moves host k ⟨th.code?, st0.value, .update a :: tail,
        st0.store.update a Thunk.begin⟩ ⟨none, v, tail, aft⟩ ∧
      Onward lg bound [] pr more st0.store aft ∧ Agrees lk lg more aft r ∧
      Form.Matches more v.form o.value.form := by
  have code : th.code? = some (t, env) := by simp [Thunk.code?, ct]
  have begun := agrees.begin given held unforced there forced
  have busy : Occupied lg (lg.rank pl) pr (st0.store.update a Thunk.begin) r := by
    intro again forcing
    by_cases same : a = again
    · simp_all
    · have bef : st0.store.phase? again = some .forcing := by
        simpa [Store.phase?, same] using forcing
      obtain ⟨opp, paired, inRight | above⟩ := occupied again bef
      · simp_all
      grind
  -- the left engine has not begun this evaluation, so nothing of it is paired
  have fresh : ∀ kid ∈ lg.children pl, ∀ known, pr known ≠ some kid := by
    intro kid mem known paired
    obtain ⟨fst, pairedFirst, phase⟩ := agrees.repeated mem paired
    cases agrees.injective given pairedFirst
    simp [Store.phase?, held, unforced] at phase
  have shown : Shows pr ⟨th.code?, st0.value, .update a :: tail,
      st0.store.update a Thunk.begin⟩ ⟨.term t otherEnv, []⟩ (.update a :: tail) := by
    refine ⟨?_, [], rfl, .nil⟩
    rw [code]
    exact .term envs
  obtain ⟨k, more, aft, _, moves, onward, agreesAfter, aims, fs, stk, same⟩ :=
    repeats (fits.echoes there forced src) begun busy shown fresh (fits.distinct pl) given
      (by simp [Store.phase?, held]) (Nat.le_refl _) fun _ mem => mem
  cases same
  obtain ⟨focus, v, whole, s⟩ := aft
  generalize aimed : Configuration.aim _ = aim at aims
  cases aims with
  | form forms =>
    obtain ⟨noFocus, form⟩ := Configuration.focus_of_form aimed
    cases noFocus
    cases stk
    cases form
    exact ⟨k + 1, more, v, _, moves.snoc .memoize, onward.around held unforced older v,
      agreesAfter.memoize (onward.grows _ _ given) there forced forms, forms⟩

/-- The left engine needs a value that the right one has: it has it too, or goes
through the evaluation of the right one. -/
theorem Agrees.answer (agrees : Agrees lk lg pr st0.store r) (fits : lg.Fits host lk r)
    (lower : ∀ rank < bound, Repeats host lk lg r rank)
    (occupied : Occupied lg bound pr st0.store r) (shows : Shows pr st0 part base) {pl : Address}
    {o : Thunk} (asks : Asks r part pl inn) (there : r.thunk? pl = some o)
    (forced : o.phase = .forced) (older : lg.rank pl < bound) :
    Pursues host lk lg r 1 bound [] pr st0 ⟨.form o.value.form, inn⟩ base := by
  obtain ⟨fs, a, os, k, asksLeft, given, same⟩ := asks.matched agrees shows
  obtain ⟨th, again, held, thereAgain, _, matched⟩ := agrees.paired given
  rw [there] at thereAgain
  cases thereAgain
  cases matched with
  | kept forcedLeft _ forms =>
    have move : Move host st0 _ := asksLeft.reuse k held forcedLeft
    exact ⟨1, pr, _, Nat.le_refl 1, .step move (.refl _), .refl _ _ _ _, agrees,
      .form forms, os, rfl, same⟩
  | alike _ notForced => exact absurd forced notForced
  | @ahead t env otherEnv notForced ct _ src envs =>
    cases phase : th.phase with
    | forced => exact absurd phase notForced
    | forcing =>
      obtain ⟨busy, givenBusy, begun | above⟩ := occupied a (by simp [Store.phase?, held, phase])
      · grind [Store.phase?]
      grind
    | unforced =>
      have move : Move host st0 _ := asksLeft.enter k held phase
      obtain ⟨cnt, more, v, aft, moves, onward, agreesAfter, forms⟩ :=
        agrees.replay fits (lower _ older) occupied older given held phase ct there
          forced src envs (os ++ base)
      exact ⟨cnt + 1, more, _, Nat.succ_le_succ (Nat.zero_le _), .step move moves, onward,
        agreesAfter, .form forms, os, rfl, same.imp fun {_ _} fs => fs.extend onward.grows⟩

theorem Agrees.delay {l : Store} (agrees : Agrees lk lg pr l r) (fits : lg.Fits host lk r)
    {arg : Term} (envs : Env.Matches pr env otherEnv)
    (unbound : ∀ x, arg = .var x → r.find x otherEnv = none)
    (delayed : lg.Delayed r kid arg otherEnv) (fresh : ∀ known, pr known ≠ some kid)
    (owners : ∀ own, kid ∈ lg.children own →
      ∃ known, pr known = some own ∧ l.phase? known ≠ some .unforced) :
    (l.delay arg env).1 = l.size ∧
      Onward lg bound [kid] pr (pr.add l.size kid) l
        (l.delay arg env).2 ∧ Agrees lk lg (pr.add l.size kid) (l.delay arg env).2 r := by
  have grows := Pairing.extends_add agrees.unpaired kid
  rcases l.delay_cases arg env with ⟨x, a, rfl, found, _⟩ |
    ⟨_, notAbstraction, made⟩ | ⟨p, b, rfl, made⟩
  · rcases agrees.find envs x with ⟨lost, _⟩ | ⟨_, pl, _, there, _⟩
    · simp [found] at lost
    simp_all
  · rw [made]
    refine ⟨rfl, .alloc l l rfl (.suspended arg env none) agrees.unpaired
      (by simp [Thunk.suspended]) kid, ?_⟩
    cases delayed with
    | evaluated => exact absurd rfl (notAbstraction _ _)
    | @suspended o _ _ there unnamed _ src =>
      refine agrees.add there unnamed.symm ?_ fresh owners
      cases phase : o.phase with
      | forced => exact .ahead (by simp [Thunk.suspended]) rfl phase src (envs.extend grows)
      | forcing =>
        have begun : r.phase? kid = some .forcing := by
          simp [Store.phase?, there, phase]
        grind [begun]
      | unforced =>
        have notForced : o.phase ≠ .forced := by simp [phase]
        obtain ⟨t, code, ct, again⟩ := fits.code there notForced
        cases src.symm.trans again
        exact .alike phase.symm notForced rfl ct (envs.extend grows)
  · rw [made]
    refine ⟨rfl, .alloc l (l.build (.closure p b env)).2 rfl
      (.evaluated (l.build (.closure p b env)).1 none) agrees.unpaired
      (by simp [Thunk.evaluated]) kid, ?_⟩
    cases delayed with
    | suspended _ _ notAbstraction => exact absurd rfl (notAbstraction _ _)
    | evaluated there unnamed forced form =>
      refine (agrees.build (.closure p b env)).add there unnamed.symm ?_ fresh owners
      refine .kept rfl forced ?_
      rw [form]
      exact .closure (envs.extend grows)

/-- The left engine follows a step of an evaluation of the right one. -/
theorem Agrees.follow (uniform : host.Uniform) (agrees : Agrees lk lg pr st0.store r)
    (fits : lg.Fits host lk r) (lower : ∀ rank < bound, Repeats host lk lg r rank)
    (occupied : Occupied lg bound pr st0.store r) (shows : Shows pr st0 part base) {next : Part}
    (echo : Echo host lg r bound kids part next)
    (fresh : ∀ kid ∈ kids, ∀ known, pr known ≠ some kid)
    (owners : ∀ kid ∈ kids, ∀ own, kid ∈ lg.children own →
      ∃ known, pr known = some own ∧ st0.store.phase? known ≠ some .unforced) :
    Pursues host lk lg r 1 bound kids pr st0 next base := by
  cases echo with
  | answer asks held forced older =>
    exact agrees.answer fits lower occupied shows asks held forced older
  | @close p b otherEnv inn =>
    obtain ⟨focus, v, whole, s⟩ := st0
    obtain ⟨env, fs, rfl, rfl, envs, same⟩ := shows.term
    exact ⟨1, pr, _, Nat.le_refl 1, .step .close (.refl _), .still rfl,
      agrees.build (.closure p b env), .form (.closure envs), fs, rfl, same⟩
  | @pass f x otherEnv pl inn found =>
    obtain ⟨focus, v, whole, s⟩ := st0
    obtain ⟨env, fs, rfl, rfl, envs, same⟩ := shows.term
    rcases agrees.find envs x with ⟨_, lost⟩ | ⟨a, opp, here, there, given⟩
    · simp [found] at lost
    · rw [found] at there
      cases there
      have move : Move host ⟨some (.app f (.var x), env), v, fs ++ base, s⟩
          ⟨some (f, env), v, .argument (some a) :: (fs ++ base), s⟩ := by
        have postponed : Move host ⟨some (.app f (.var x), env), v, fs ++ base, s⟩ _ := .postpone
        simpa only [Store.delay, here] using postponed
      exact ⟨1, pr, _, Nat.le_refl 1, .step move (.refl _), .refl _ _ _ _, agrees,
        .term envs, .argument (some a) :: fs, rfl, .cons (.argument ⟨a, pl, rfl, rfl, given⟩) same⟩
  | @postpone f arg otherEnv kid inn unbound delayed =>
    obtain ⟨focus, v, whole, s⟩ := st0
    obtain ⟨env, fs, rfl, rfl, envs, same⟩ := shows.term
    obtain ⟨pl, onward, agreesAfter⟩ := agrees.delay fits envs unbound delayed
      (fresh kid (List.mem_singleton_self kid)) (owners kid (List.mem_singleton_self kid))
    refine ⟨1, _, _, Nat.le_refl 1, .step .postpone (.refl _), onward, agreesAfter,
      .term (envs.extend onward.grows), _ :: fs, rfl, .cons (.argument ?_)
        (same.imp fun {_ _} matched => matched.extend onward.grows)⟩
    exact ⟨_, kid, rfl, rfl, by rw [pl]; exact Pairing.add_self _ _ _⟩
  | @bind p b otherEnv o inn =>
    obtain ⟨focus, v, whole, s⟩ := st0
    obtain ⟨fs, rfl, rfl, forms, same⟩ := shows.form
    generalize shape : Value.form _ = form at forms
    cases forms with
    | closure envs =>
      cases same with
      | @cons _ _ rest _ head tail =>
        cases head with
        | argument pairs =>
          exact ⟨1, pr, _, Nat.le_refl 1, .step (.bind shape) (.refl _),
            .refl _ _ _ _, agrees, .term (.layer pairs envs), rest, rfl, tail⟩
  | @extend x os o inn =>
    obtain ⟨focus, v, whole, s⟩ := st0
    obtain ⟨fs, rfl, rfl, forms, same⟩ := shows.form
    generalize shape : Value.form _ = form at forms
    cases forms with
    | @neutral _ args _ known =>
      cases same with
      | @cons _ _ rest _ head tail =>
        cases head with
        | @argument th _ pairs =>
          exact ⟨1, pr, _, Nat.le_refl 1, .step (.extend shape) (.refl _),
            .still rfl, agrees.build (.neutral x (args ++ [th])),
            .form (.neutral (List.rel_append known (.cons pairs .nil))), rest, rfl, tail⟩
  | @call x o rs inn computed =>
    obtain ⟨focus, v, whole, s⟩ := st0
    obtain ⟨fs, rfl, rfl, forms, same⟩ := shows.form
    cases same with
    | @cons _ _ rest _ head tail =>
      cases head with
      | call =>
        rcases uniform pr x v o forms with
          ⟨l, again, computedLeft, computedAgain, matched⟩ | ⟨er, _, failed⟩
        · rw [computed] at computedAgain
          cases computedAgain
          exact ⟨1, pr, _, Nat.le_refl 1, .step (.call computedLeft) (.refl _),
            .refl _ _ _ _, agrees, .form matched, rest, rfl, tail⟩
        simp_all

/-- The left engine can repeat every evaluation that the right one records. -/
theorem Ledger.Fits.repeats (uniform : host.Uniform) (fits : lg.Fits host lk r) (rank : Nat) :
    Repeats host lk lg r rank := by
  induction rank using Nat.strong_induction_on with
  | _ rank lower =>
    intro kids part last pr st0 base a pl echoes
    -- the evaluations that are asked for on the way have lower ranks
    induction echoes generalizing pr st0 with
    | refl part =>
      intro agrees _ shows _ _ _ _ _ _
      exact ⟨0, pr, st0, Nat.le_refl 0, .refl _, .refl _ _ _ _, agrees, shows⟩
    | @step kids more fst next last echo _ ih =>
      intro agrees occupied shows fresh dst given forcing above owned
      obtain ⟨apart, distinctMore, disjoint⟩ := List.nodup_append'.mp dst
      have own : ∀ kid ∈ kids, kid ∈ lg.children pl :=
        fun kid mem => owned kid (List.mem_append_left more mem)
      obtain ⟨k, mid, aft, _, moves, onward, agreesAfter, showsAfter⟩ :=
        agrees.follow uniform fits lower occupied shows echo
          (fun kid mem => fresh kid (List.mem_append_left more mem))
          (by
            intro kid mem owner recorded
            cases (fits.owned (own kid mem)).1.symm.trans (fits.owned recorded).1
            exact ⟨a, given, by simp [forcing]⟩)
      have freshMore : ∀ kid ∈ more, ∀ known, mid known ≠ some kid := by
        intro kid mem known paired
        rcases onward.adds paired with old | named | ⟨owner, recorded, below⟩
        · grind
        · grind
        · have mine := owned kid (List.mem_append_right kids mem)
          cases (fits.owned mine).1.symm.trans (fits.owned recorded).1
          omega
      obtain ⟨further, fi, ended, _, rest, later, agreesEnd, showsEnd⟩ :=
        ih agreesAfter (occupied.onward onward) showsAfter freshMore distinctMore
          (onward.grows _ _ given) ((onward.forcing a).mpr forcing) above
          fun kid mem => owned kid (List.mem_append_right kids mem)
      exact ⟨k + further, fi, ended, Nat.zero_le _, moves.trans rest,
        onward.trans later, agreesEnd, showsEnd⟩

end Follow

end CallByNeed