import CallByNeed.Proofs.Histories

/-!
# Realms of thunks

A realm is a set of thunks that a computation does not leave: every name that
one of them uses stands for another one, or is known to be missing.  Names that
a term does not use may stand for anything, so that a realm can be much smaller
than what its environments give access to.

In a ranked realm each thunk has a level, and uses only thunks of lower levels.
A thunk that is added for an argument gets a level between those that it uses
and the computation that adds it, and a value that is kept uses no more than
the term that it replaces was allowed to.  Levels are rational numbers, so that
there is always room between two of them.
-/

namespace CallByNeed

/-- A set of thunks with their levels, and what computations may meet besides
them.  Where the host counts, constants are at most as large as the number
`counted`. -/
structure Realm where
  level : Address → Option ℚ
  ranked : Prop
  missing : Name → Prop
  counted : Option Nat

variable {size few : Nat} {rm o : Realm} {a : Address} {th : Thunk}

namespace Realm

/-- A thunk of a realm that may be used below a level. -/
def Below (rm : Realm) (top : ℚ) (a : Address) : Prop :=
  ∃ lv, rm.level a = some lv ∧ (rm.ranked → lv < top)

/-- The primitives of a realm. -/
def Calls (rm : Realm) (x : Name) : Prop := rm.counted.isSome ∧ x = successorName

/-- The constants of a realm. -/
def Counts (rm : Realm) (dt : Datum) : Prop :=
  ∃ most, rm.counted = some most ∧ (dt = .nothing ∨ ∃ num : Nat, num ≤ most ∧ dt = .int num)

/-- A realm with more thunks at new addresses, and with larger constants. -/
structure Grow (size : Nat) (rm o : Realm) : Prop where
  ranked : o.ranked = rm.ranked
  missing : o.missing = rm.missing
  counted : ∀ {few}, rm.counted = some few → ∃ many, o.counted = some many ∧ few ≤ many
  keeps : ∀ {a lv}, rm.level a = some lv → o.level a = some lv
  adds : ∀ {a lv}, o.level a = some lv →
    rm.level a = some lv ∨ size ≤ a

theorem Grow.refl (size : Nat) (rm : Realm) : rm.Grow size rm where
  ranked := rfl
  missing := rfl
  counted same := ⟨_, same, Nat.le_refl _⟩
  keeps := id
  adds := .inl

theorem Grow.trans {larger : Nat} {fst snd thd : Realm} (early : fst.Grow size snd)
    (late : snd.Grow larger thd) (le : size ≤ larger) : fst.Grow size thd where
  ranked := late.ranked.trans early.ranked
  missing := late.missing.trans early.missing
  counted same := by
    obtain ⟨more, same, few⟩ := early.counted same
    obtain ⟨most, same, many⟩ := late.counted same
    grind
  keeps given := late.keeps (early.keeps given)
  adds given := by
    rcases late.adds given with old | beyond
    · exact early.adds old
    omega

theorem Below.grow {higher : ℚ} (below : rm.Below top a) (grow : rm.Grow size o)
    (le : rm.ranked → top ≤ higher) : o.Below higher a := by
  obtain ⟨lv, given, less⟩ := below
  refine ⟨lv, grow.keeps given, fun ranked => ?_⟩
  rw [grow.ranked] at ranked
  grind

theorem Calls.grow (calls : rm.Calls x) (grow : rm.Grow size o) : o.Calls x := by
  obtain ⟨counting, rfl⟩ := calls
  obtain ⟨few, same⟩ := Option.isSome_iff_exists.mp counting
  obtain ⟨many, same, _⟩ := grow.counted same
  exact ⟨by simp [same], rfl⟩

theorem Counts.grow (counts : rm.Counts dt) (grow : rm.Grow size o) : o.Counts dt := by
  obtain ⟨few, same, kd⟩ := counts
  obtain ⟨many, same, le⟩ := grow.counted same
  refine ⟨many, same, ?_⟩
  grind

/-- A realm with one more thunk. -/
def add (rm : Realm) (a : Address) (lv : ℚ) : Realm :=
  { rm with level := fun o => if o = a then some lv else rm.level o }

@[simp] theorem level_add_self (rm : Realm) (a : Address) (lv : ℚ) :
    (rm.add a lv).level a = some lv := by
  simp [add]

theorem level_add_of_ne {o : Address} (lv : ℚ) (ne : o ≠ a) :
    (rm.add a lv).level o = rm.level o := by
  simp [add, ne]

theorem grow_add (free : rm.level a = none) (lv : ℚ) : rm.Grow a (rm.add a lv) where
  ranked := rfl
  missing := rfl
  counted same := ⟨_, same, Nat.le_refl _⟩
  keeps := by grind [level_add_of_ne]
  adds := by grind [level_add_of_ne]

/-- A realm that a computation leads to: its host has counted further by `few`. -/
structure Later (size few : Nat) (rm o : Realm) : Prop extends Grow size rm o where
  counts : o.counted = rm.counted.map (· + few)

theorem Later.refl (size : Nat) (rm : Realm) : rm.Later size 0 rm where
  toGrow := .refl size rm
  counts := by simp

theorem Later.trans {larger more : Nat} {fst snd thd : Realm} (early : fst.Later size few snd)
    (late : snd.Later larger more thd) (le : size ≤ larger) : fst.Later size (few + more) thd where
  toGrow := early.toGrow.trans late.toGrow le
  counts := by
    rw [late.counts, early.counts]
    simp [Function.comp_def, Nat.add_assoc]

theorem Later.weaken {smaller : Nat} (later : rm.Later size few o) (le : smaller ≤ size) :
    rm.Later smaller few o where
  toGrow := (Grow.refl smaller rm).trans later.toGrow le
  counts := later.counts

theorem Later.isSome_iff (later : rm.Later size few o) : o.counted.isSome ↔ rm.counted.isSome := by
  simp [later.counts]

theorem Later.pure (later : rm.Later size few o) (pure : rm.counted = none) : o.counted = none := by
  simp [later.counts, pure]

theorem later_add (free : rm.level a = none) (lv : ℚ) : rm.Later a 0 (rm.add a lv) where
  toGrow := grow_add free lv
  counts := by simp [add]

/-- A realm whose constants may be larger by one. -/
def tick (rm : Realm) : Realm := { rm with counted := rm.counted.map (· + 1) }

theorem later_tick (size : Nat) (rm : Realm) : rm.Later size 1 rm.tick where
  ranked := rfl
  missing := rfl
  counted {few} same := ⟨few + 1, by simp [tick, same], Nat.le_succ few⟩
  keeps := id
  adds := .inl
  counts := rfl

/-- A realm in which the host counts from zero. -/
def counting (rm : Realm) : Realm := { rm with counted := some 0 }

theorem grow_counting (size : Nat) (pure : rm.counted = none) : rm.Grow size rm.counting where
  ranked := rfl
  missing := rfl
  counted same := by simp [pure] at same
  keeps := id
  adds := .inl

/-- A realm with the thunks of the host's successor and zero. -/
def withCounter (rm : Realm) (size : Nat) (lv : ℚ) : Realm :=
  (rm.counting.add size lv).add (size + 1) lv

section WithCounter

variable (free : ∀ a, size ≤ a → rm.level a = none) (lv : ℚ)

include free

theorem level_counting_add : (rm.counting.add size lv).level (size + 1) = none := by
  rw [level_add_of_ne lv (Nat.succ_ne_self size)]
  exact free (size + 1) (Nat.le_succ size)

theorem grow_withCounter (pure : rm.counted = none) : rm.Grow size (rm.withCounter size lv) := by
  have unused : rm.counting.level size = none := free size (Nat.le_refl size)
  have fst := grow_add unused lv
  have snd := grow_add (level_counting_add free lv) lv
  exact ((grow_counting size pure).trans fst (Nat.le_refl size)).trans snd (Nat.le_succ size)

theorem below_withCounter :
    ∀ arg ∈ [some size, some (size + 1)], ∃ a, arg = some a ∧
      (rm.withCounter size lv).Below (lv + 1) a := by
  have less : lv < lv + 1 := by linarith
  have kept := (grow_add (level_counting_add free lv) lv).keeps (level_add_self rm.counting size lv)
  intro arg mem
  simp only [List.mem_cons, List.not_mem_nil, or_false] at mem
  rcases mem with rfl | rfl
  · exact ⟨size, rfl, lv, kept, fun _ => less⟩
  · exact ⟨size + 1, rfl, lv, level_add_self _ (size + 1) lv, fun _ => less⟩

end WithCounter

end Realm

/-- Names that an environment gives to thunks of a realm, below a level, or that
may be missing. -/
structure Covers (lk : Store) (rm : Realm) (top : ℚ) (env : Env) (xs : List Name) :
    Prop where
  found : ∀ {x a}, x ∈ xs → lk.find x env = some a →
    rm.Below top a
  lost : ∀ {x}, x ∈ xs → lk.find x env = none → rm.missing x

/-- A value that uses thunks of a realm, below a level. -/
inductive Within (lk : Store) (rm : Realm) (top : ℚ) : Form → Prop where
  | closure {p b env} (covers : Covers lk rm top env (Term.lam p b).freeNames) :
      Within lk rm top (.closure p b env)
  | neutral {x args}
      (below : ∀ arg ∈ args, ∃ a, arg = some a ∧
        rm.Below top a) :
      Within lk rm top (.neutral x args)
  | primitive {x} (calls : rm.Calls x) : Within lk rm top (.primitive x)
  | constant {dt} (counts : rm.Counts dt) : Within lk rm top (.constant dt)

/-- A thunk that uses thunks of a realm, below its own level. -/
inductive Fits (lk : Store) (rm : Realm) (lv : ℚ) (th : Thunk) : Prop where
  | code {t env} (ct : th.content = .code t env) (unforced : th.phase ≠ .forced)
      (covers : Covers lk rm lv env t.freeNames)
  | value {v} (ct : th.content = .value v) (forced : th.phase = .forced)
      (within : Within lk rm lv v.form)

/-- A store whose thunks of a realm use thunks of the realm only. -/
structure Sealed (lk : Store) (rm : Realm) (s : Store) : Prop where
  tables : s.tables = lk.tables
  holds : ∀ {a lv}, rm.level a = some lv →
    ∃ th, s.thunk? a = some th ∧ Fits lk rm lv th

section Growth

variable {lk : Store} {top higher : ℚ}

theorem Covers.grow (covers : Covers lk rm top env xs)
    (grow : rm.Grow size o) (le : rm.ranked → top ≤ higher) : Covers lk o higher env xs where
  found mem given := (covers.found mem given).grow grow le
  lost mem given := by
    rw [grow.missing]
    exact covers.lost mem given

theorem Within.grow {form : Form} (within : Within lk rm top form) (grow : rm.Grow size o)
    (le : rm.ranked → top ≤ higher) : Within lk o higher form := by
  cases within with
  | closure covers => exact .closure (covers.grow grow le)
  | neutral below =>
    refine .neutral fun arg mem => ?_
    obtain ⟨a, same, under⟩ := below arg mem
    exact ⟨a, same, under.grow grow le⟩
  | primitive calls => exact .primitive (calls.grow grow)
  | constant counts => exact .constant (counts.grow grow)

theorem Fits.grow (fits : Fits lk rm top th) (grow : rm.Grow size o) : Fits lk o top th := by
  cases fits with
  | code ct unforced covers =>
    exact .code ct unforced (covers.grow grow fun _ => le_refl top)
  | value ct forced within =>
    exact .value ct forced (within.grow grow fun _ => le_refl top)

theorem Sealed.grow (closed : Sealed lk rm s) (grow : rm.Grow size o)
    (same : o.level = rm.level) : Sealed lk o s where
  tables := closed.tables
  holds given := by
    rw [same] at given
    obtain ⟨th, held, fits⟩ := closed.holds given
    exact ⟨th, held, fits.grow grow⟩

end Growth

namespace Covers

variable {lk : Store} {top : ℚ} {env : Env} {xs fewer : List Name}

theorem of_subset (covers : Covers lk rm top env xs) (subset : ∀ x ∈ fewer, x ∈ xs) :
    Covers lk rm top env fewer where
  found mem given := covers.found (subset _ mem) given
  lost mem given := covers.lost (subset _ mem) given

theorem layer (covers : Covers lk rm top env (Term.lam p b).freeNames)
    (below : rm.Below top a) : Covers lk rm top (.layer p (some a) env) b.freeNames := by
  have out : ∀ {x}, x ∈ b.freeNames → p ≠ x →
      x ∈ (Term.lam p b).freeNames := by grind [Term.freeNames]
  constructor
  · intro x o mem given
    by_cases same : p = x
    · grind [Store.find]
    · simp only [Store.find, if_neg same] at given
      exact covers.found (out mem same) given
  · intro x mem given
    by_cases same : p = x
    · simp [Store.find, same] at given
    · simp only [Store.find, if_neg same] at given
      exact covers.lost (out mem same) given

/-- There is room for a level between the names that are covered and the level
that they are covered by. -/
theorem lower (covers : Covers lk rm top env xs) :
    ∃ lv, (rm.ranked → lv < top) ∧ Covers lk rm lv env xs := by
  induction xs with
  | nil => exact ⟨top - 1, fun _ => by linarith, ⟨by simp, by simp⟩⟩
  | cons x xs ih =>
    have tail : Covers lk rm top env xs := covers.of_subset fun _ mem => List.mem_cons_of_mem _ mem
    obtain ⟨lv, less, under⟩ := ih tail
    cases given : lk.find x env with
    | none =>
      have lost := covers.lost List.mem_cons_self given
      refine ⟨lv, less, ?_, ?_⟩
      · grind [found]
      grind [lost]
    | some a =>
      obtain ⟨own, held, lessOwn⟩ := covers.found List.mem_cons_self given
      let mid := (max lv own + top) / 2
      have above : rm.ranked → max lv own < mid ∧ mid < top := by grind
      have later := under.grow (Realm.Grow.refl 0 rm) fun ranked =>
        le_of_lt (lt_of_le_of_lt (le_max_left lv own) (above ranked).1)
      refine ⟨mid, fun ranked => (above ranked).2, ?_, ?_⟩
      · intro o found mem gives
        rcases List.mem_cons.mp mem with rfl | inside
        · rw [given] at gives
          cases gives
          exact ⟨own, held, fun ranked =>
            lt_of_le_of_lt (le_max_right lv own) (above ranked).1⟩
        · exact later.found inside gives
      · intro o mem absent
        rcases List.mem_cons.mp mem with rfl | inside
        · simp [given] at absent
        · exact later.lost inside absent

end Covers

namespace Fits

variable {lk : Store} {lv : ℚ}

theorem value_within (fits : Fits lk rm lv th) (forced : th.phase = .forced) :
    Within lk rm lv th.value.form := by
  cases fits with
  | code ct unforced covers => exact absurd forced unforced
  | value ct forced within =>
    rw [Thunk.value, ct]
    exact within

theorem code_covers (fits : Fits lk rm lv th) (unforced : th.phase ≠ .forced) :
    ∃ t env, th.content = .code t env ∧ Covers lk rm lv env t.freeNames := by
  cases fits with
  | code ct _ covers => exact ⟨_, _, ct, covers⟩
  | value ct forced within => exact absurd forced unforced

theorem rephase {changed : Thunk} (fits : Fits lk rm lv th) (ct : changed.content = th.content)
    (phase : changed.phase = .forced ↔ th.phase = .forced) : Fits lk rm lv changed := by
  cases fits with
  | code held unforced covers =>
    exact .code (ct.trans held) (fun forced => unforced (phase.mp forced)) covers
  | value held forced within =>
    exact .value (ct.trans held) (phase.mpr forced) within

end Fits

namespace Sealed

variable {lk s : Store}

section

variable (closed : Sealed lk rm s)

include closed

theorem lt (given : rm.level a = some lv) : a < s.size := by
  obtain ⟨th, held, _⟩ := closed.holds given
  exact Store.thunk?_lt held

theorem free_of_le (beyond : s.size ≤ a) : rm.level a = none := by
  cases given : rm.level a with
  | none => rfl
  | some lv => exact absurd (closed.lt given) (Nat.not_lt.mpr beyond)

theorem fresh : rm.level s.size = none := closed.free_of_le (Nat.le_refl _)

theorem find (x : Name) (env : Env) : s.find x env = lk.find x env :=
  Store.find_congr closed.tables x env

theorem fits {a : Address} {th : Thunk} (given : rm.level a = some lv)
    (held : s.thunk? a = some th) : Fits lk rm lv th := by
  obtain ⟨found, there, fits⟩ := closed.holds given
  simp_all

theorem value_within (below : rm.Below top a) (held : s.thunk? a = some th)
    (forced : th.phase = .forced) : Within lk rm top th.value.form := by
  obtain ⟨lv, given, less⟩ := below
  have within := (closed.fits given held).value_within forced
  exact within.grow (Realm.Grow.refl 0 rm) fun ranked => le_of_lt (less ranked)

theorem change {aft : Store} (tbs : aft.tables = s.tables)
    (held : ∀ {a lv th}, rm.level a = some lv →
      s.thunk? a = some th → Fits lk rm lv th →
      ∃ later, aft.thunk? a = some later ∧ Fits lk rm lv later) : Sealed lk rm aft where
  tables := tbs.trans closed.tables
  holds given := by
    obtain ⟨th, there, fits⟩ := closed.holds given
    simp_all

theorem build (form : Form) : Sealed lk rm (s.build form).2 :=
  closed.change rfl fun _ held fits => ⟨_, held, fits⟩

theorem steady {aft : Store} (tbs : aft.tables = s.tables)
    (steady : ∀ {a lv}, rm.level a = some lv → s.Steady aft a) : Sealed lk rm aft := by
  refine closed.change tbs fun given held fits => ?_
  obtain ⟨later, there, ct, phase⟩ := steady given held
  exact ⟨later, there, fits.rephase ct phase⟩

theorem begin (held : s.thunk? a = some th) (unforced : th.phase = .unforced) :
    Sealed lk rm (s.update a Thunk.begin) :=
  closed.steady rfl fun _ => Store.steady_begin held unforced _

theorem memoize (within : ∀ lv, rm.level a = some lv → Within lk rm lv v.form) :
    Sealed lk rm (s.update a (·.memoize v)) := by
  refine closed.change rfl fun {o lv found} given there fits => ?_
  by_cases same : a = o
  · subst same
    exact ⟨found.memoize v, by simp [there], .value rfl rfl (within lv given)⟩
  simp_all

omit closed in
theorem unwind {st : State} (closed : Sealed lk rm st.engine.store) :
    Sealed lk rm st.unwind.store := closed.steady st.unwind_tables fun _ => st.steady_unwind _

theorem add {added : Thunk} (fits : Fits lk (rm.add s.size lv) lv added) :
    Sealed lk (rm.add s.size lv) (s.alloc added).2 := by
  have grow := Realm.grow_add closed.fresh lv
  constructor
  · exact closed.tables
  · intro a given held
    by_cases same : a = s.size
    · simp_all
    · rw [Realm.level_add_of_ne lv same] at held
      obtain ⟨th, there, fits⟩ := closed.holds held
      exact ⟨th, Store.thunk?_alloc_of_some there added, fits.grow grow⟩

theorem postpone {arg : Term} (covers : Covers lk rm top env arg.freeNames) :
    ∃ o, rm.Later s.size 0 o ∧ Sealed lk o (s.delay arg env).2 ∧
      o.Below top (s.delay arg env).1 := by
  obtain ⟨lv, less, under⟩ := covers.lower
  have later := Realm.later_add closed.fresh lv
  have covered := under.grow later.toGrow fun _ => le_refl lv
  have below : (rm.add s.size lv).Below top s.size := ⟨lv, Realm.level_add_self rm s.size lv, less⟩
  rcases s.delay_cases arg env with ⟨x, a, rfl, found, delayed⟩ |
    ⟨_, _, delayed⟩ | ⟨p, b, rfl, delayed⟩
  · rw [delayed]
    rw [closed.find] at found
    exact ⟨rm, .refl _ _, closed, covers.found (by simp [Term.freeNames]) found⟩
  · rw [delayed]
    refine ⟨rm.add s.size lv, later, closed.add ?_, below⟩
    exact .code rfl (by simp [Thunk.suspended]) covered
  · rw [delayed]
    refine ⟨rm.add s.size lv, later, ?_, below⟩
    exact (closed.build (.closure p b env)).add (.value rfl rfl (.closure covered))

theorem withVariable (x : Name) (lv : ℚ) : Sealed lk (rm.add s.size lv) (s.withVariable x) := by
  apply (closed.build (.neutral x [])).add
  apply Fits.value rfl rfl
  apply Within.neutral
  simp

/-- The thunks of the host's successor and zero belong to a realm in which the
host counts. -/
theorem withCounter (pure : rm.counted = none) (lv : ℚ) :
    Sealed lk (rm.withCounter s.size lv) s.withCounter := by
  have counting := closed.grow (Realm.grow_counting s.size pure) rfl
  have sc := @Sealed.add _ _ _ counting lv
    (.evaluated (.given (.primitive successorName)) none) (.value rfl rfl (.primitive ⟨rfl, rfl⟩))
  have both := @Sealed.add _ _ _ sc lv (.evaluated (.given (.constant (.int 0))) none)
    (.value rfl rfl (.constant ⟨0, rfl, .inr ⟨0, Nat.le_refl 0, rfl⟩⟩))
  rwa [Store.size_alloc] at both

end

end Sealed

/-- A stack, down to a base, whose frames keep a computation in a realm.  Between
two frames that update a thunk the level is that of the inner one. -/
inductive Stacks (rm : Realm) (base : List Frame) : ℚ → List Frame → Prop where
  | base {top} : Stacks rm base top base
  | argument {top a k} (below : rm.Below top a) (rest : Stacks rm base top k) :
      Stacks rm base top (.argument (some a) :: k)
  | update {lv top a k} (given : rm.level a = some lv)
      (less : rm.ranked → lv < top) (rest : Stacks rm base top k) :
      Stacks rm base lv (.update a :: k)
  | call {top x k} (calls : rm.Calls x) (rest : Stacks rm base top k) :
      Stacks rm base top (.call x :: k)

/-- A computation in a realm, above a base of its stack. -/
inductive Inside (lk : Store) (rm : Realm) (base : List Frame) : Configuration → Prop where
  | evaluates {top t env v k s} (covers : Covers lk rm top env t.freeNames)
      (fs : Stacks rm base top k) :
      Inside lk rm base ⟨some (t, env), v, k, s⟩
  | returns {top v k s} (within : Within lk rm top v.form) (fs : Stacks rm base top k) :
      Inside lk rm base ⟨none, v, k, s⟩

namespace Stacks

variable {lk : Store} {base k : List Frame} {top : ℚ}

theorem grow {size : Nat} (fs : Stacks rm base top k) (grow : rm.Grow size o) :
    Stacks o base top k := by
  induction fs with
  | base => exact .base
  | argument below _ ih => exact .argument (below.grow grow fun _ => le_refl _) ih
  | update given less _ ih =>
    apply Stacks.update (grow.keeps given) _ ih
    rw [grow.ranked]
    exact less
  | call calls _ ih => exact .call (calls.grow grow) ih

/-- The thunks that a stack updates are at least as high as the computation. -/
theorem le_level (fs : Stacks rm [] top k) (ranked : rm.ranked) (mem : a ∈ updates k) :
    ∃ lv, rm.level a = some lv ∧ top ≤ lv := by
  induction fs with
  | base => cases mem
  | argument below _ ih => exact ih mem
  | @update lv top updated k given less _ ih => grind [updates_update]
  | call calls _ ih => exact ih mem

/-- The evaluation of a thunk of the realm is a computation in the realm. -/
theorem enter (closed : Sealed lk rm s) (fs : Stacks rm base top k)
    (below : rm.Below top a) (held : s.thunk? a = some th) (unforced : th.phase = .unforced)
    (v : Value) (aft : Store) : Inside lk rm base ⟨th.code?, v, .update a :: k, aft⟩ := by
  obtain ⟨lv, given, less⟩ := below
  obtain ⟨t, env, ct, covers⟩ := (closed.fits given held).code_covers (by simp [unforced])
  rw [Thunk.code?, ct]
  exact .evaluates covers (.update given less fs)

theorem arguments {ads : List (Option Address)}
    (below : ∀ arg ∈ ads, ∃ a, arg = some a ∧ rm.Below top a) :
    Stacks rm [] top (ads.map .argument) := by
  induction ads with
  | nil => exact .base
  | cons arg ads ih =>
    obtain ⟨a, rfl, under⟩ := below arg List.mem_cons_self
    apply Stacks.argument under
    simp_all

end Stacks

/-- Counting leads to a constant that is larger by at most one. -/
theorem Within.increment {lk : Store} (within : Within lk rm top v.form)
    (counting : rm.counted.isSome) : Within lk rm.tick top (increment v).form := by
  obtain ⟨most, same⟩ := Option.isSome_iff_exists.mp counting
  have ticked : rm.tick.counted = some (most + 1) := by simp [Realm.tick, same]
  have spoilt : Within lk rm.tick top (Value.given (.constant .nothing)).form :=
    .constant ⟨most + 1, ticked, .inl rfl⟩
  unfold CallByNeed.increment
  generalize v.form = form at within
  cases within with
  | closure covers => exact spoilt
  | neutral below => exact spoilt
  | primitive calls => exact spoilt
  | constant counts =>
    obtain ⟨few, known, rfl | ⟨num, small, rfl⟩⟩ := counts
    · exact spoilt
    · rw [same] at known
      cases known
      apply Within.constant
      exact ⟨most + 1, ticked, .inr ⟨num + 1, Nat.succ_le_succ small, rfl⟩⟩

section Moving

variable {lk : Store} {base : List Frame} {host : Host}

/-- A computation in a realm stays there, and takes the thunks that it adds into
the realm. -/
theorem Inside.move {bef aft : Configuration} (closed : Sealed lk rm bef.store)
    (inside : Inside lk rm base bef) (succeeds : rm.counted.isSome → host.Succeeds)
    (above : bef.focus = none → bef.stack ≠ base) (move : Move host bef aft) :
    ∃ o few, rm.Later bef.store.size few o ∧ few ≤ 1 ∧
      Sealed lk o aft.store ∧ Inside lk o base aft := by
  -- most moves leave the realm as it is
  have stays : ∀ {next : Configuration}, Sealed lk rm next.store → Inside lk rm base next →
      ∃ o few, rm.Later bef.store.size few o ∧ few ≤ 1 ∧
        Sealed lk o next.store ∧ Inside lk o base next :=
    fun closed inside => ⟨rm, 0, .refl _ _, Nat.zero_le 1, closed, inside⟩
  have same := Realm.Grow.refl 0 rm
  cases inside with
  | @evaluates top t env v k s covers fs =>
    cases move with
    | @reuse x _ _ _ _ a th found held forced =>
      rw [closed.find] at found
      have below := covers.found (by simp [Term.freeNames]) found
      apply stays
      · exact closed
      · exact .returns (closed.value_within below held forced) fs
    | @enter x _ _ _ _ a th found held unforced =>
      rw [closed.find] at found
      have below := covers.found (by simp [Term.freeNames]) found
      apply stays (closed.begin held unforced)
      exact fs.enter closed below held unforced v _
    | @close p b _ _ _ _ =>
      apply stays (closed.build (.closure p b env))
      exact .returns (.closure covers) fs
    | @postpone f arg _ _ _ _ =>
      have l : Covers lk rm top env f.freeNames :=
        covers.of_subset fun x mem => Term.mem_freeNames_app.mpr (.inl mem)
      have r : Covers lk rm top env arg.freeNames :=
        covers.of_subset fun x mem => Term.mem_freeNames_app.mpr (.inr mem)
      obtain ⟨o, later, closed, below⟩ := closed.postpone r
      refine ⟨o, 0, later, Nat.zero_le 1, closed, ?_⟩
      apply Inside.evaluates (l.grow later.toGrow fun _ => le_refl top)
      exact .argument below (fs.grow later.toGrow)
  | @returns top v k s within fs =>
    have notBase : k ≠ base := above rfl
    cases move with
    | memoize =>
      cases fs with
      | base => exact absurd rfl notBase
      | @update _ out a _ given less rest =>
        apply stays
        · apply closed.memoize
          intro lv held
          rw [given] at held
          cases held
          exact within
        · exact .returns (within.grow same fun ranked => le_of_lt (less ranked)) rest
    | bind closure =>
      cases fs with
      | base => exact absurd rfl notBase
      | argument below rest =>
        rw [closure] at within
        cases within with
        | closure covers => exact stays closed (.evaluates (covers.layer below) rest)
    | @extend _ arg _ _ x args neutral =>
      cases fs with
      | base => exact absurd rfl notBase
      | @argument _ a _ under rest =>
        rw [neutral] at within
        cases within with
        | neutral below =>
          apply stays (closed.build (.neutral x (args ++ [some a])))
          refine .returns (.neutral fun o mem => ?_) rest
          rcases List.mem_append.mp mem with old | last
          · exact below o old
          · exact ⟨a, List.mem_singleton.mp last, under⟩
    | supply prim held forced =>
      cases fs with
      | base => exact absurd rfl notBase
      | argument below rest =>
        rw [prim] at within
        cases within with
        | primitive calls =>
          apply stays
          · exact closed
          · exact .returns (closed.value_within below held forced) (.call calls rest)
    | demand prim held unforced =>
      cases fs with
      | base => exact absurd rfl notBase
      | argument below rest =>
        rw [prim] at within
        cases within with
        | primitive calls =>
          apply stays (closed.begin held unforced)
          exact (Stacks.call calls rest).enter closed below held unforced v _
    | call computed =>
      cases fs with
      | base => exact absurd rfl notBase
      | call calls rest =>
        obtain ⟨counting, rfl⟩ := calls
        rw [succeeds counting] at computed
        cases computed
        have later := rm.later_tick s.size
        refine ⟨rm.tick, 1, later, Nat.le_refl 1, closed.grow later.toGrow rfl, ?_⟩
        exact .returns (within.increment counting) (rest.grow later.toGrow)

end Moving

end CallByNeed
