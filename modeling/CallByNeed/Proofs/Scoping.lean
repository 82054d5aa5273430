import CallByNeed.Proofs.Legibility
import CallByNeed.Proofs.NormalForms

/-!
# Scopes of thunks

A value of a parsed program is made of names of its text, and of variables that
reading it back has opened.  Scopes say which variables thunks may use: what a
thunk holds uses thunks of no larger scopes, and the thunks of declared names use
no variables.  Evaluating keeps that, and so does every other request, whose
thunks have no scope if values of the host are involved.

A value is then read back as a term that can be written, and in which no other
variables are free.
-/

variable {env : Env} {s : Store}

namespace CallByNeed

open Source

/-- The variables without a value that thunks may use. -/
abbrev Scopes := Marks (List Name)

/-- A thunk that uses no variables but these. -/
def Scopes.Admits (scs : Scopes) (xs : List Name) (th : Option Address) : Prop :=
  ∃ a own, th = some a ∧ scs a = some own ∧ own ⊆ xs

inductive Env.Scoped (scs : Scopes) (xs : List Name) : Env → Prop where
  | root {num} : Env.Scoped scs xs (.root num)
  | layer {p th env} (admits : scs.Admits xs th) (confined : Env.Scoped scs xs env) :
      Env.Scoped scs xs (.layer p th env)

inductive Form.Scoped (scs : Scopes) (xs : List Name) : Form → Prop where
  | closure {p b env} (legal : isName p) (legible : b.Legible) (confined : env.Scoped scs xs) :
      Form.Scoped scs xs (.closure p b env)
  | neutral {x args} (legal : isName x) (bound : x ∈ xs)
      (admits : ∀ arg ∈ args, scs.Admits xs arg) :
      Form.Scoped scs xs (.neutral x args)

inductive Thunk.Scoped (scs : Scopes) (xs : List Name) (th : Thunk) : Prop where
  | code {t env} (ct : th.content = .code t env) (unforced : th.phase ≠ .forced)
      (legible : t.Legible) (confined : env.Scoped scs xs)
  | value {v} (ct : th.content = .value v) (forced : th.phase = .forced)
      (confined : v.form.Scoped scs xs)

/-- Thunks use the variables of their scopes, and those of declared names use
none. -/
structure Store.Scoped (scs : Scopes) (s : Store) : Prop where
  tables : ∀ {num en a}, en ∈ s.table num → en.2 = some a →
    scs a = some []
  holds : ∀ {a xs}, scs a = some xs →
    ∃ th, s.thunk? a = some th ∧ th.Scoped scs xs

section Growth

variable {scs o : Scopes} {size : Nat} {xs more : List Name}

theorem Scopes.Admits.grow {th : Option Address} (admits : scs.Admits xs th)
    (grow : scs.Grow size o) (subset : xs ⊆ more) : o.Admits more th := by
  obtain ⟨a, own, rfl, given, within⟩ := admits
  exact ⟨a, own, rfl, grow.keeps given, List.Subset.trans within subset⟩

theorem Env.Scoped.grow (confined : env.Scoped scs xs) (grow : scs.Grow size o)
    (subset : xs ⊆ more) : env.Scoped o more := by
  induction confined with
  | root => exact .root
  | layer admits _ ih => exact .layer (admits.grow grow subset) ih

theorem Form.Scoped.grow {form : Form} (confined : form.Scoped scs xs) (grow : scs.Grow size o)
    (subset : xs ⊆ more) : form.Scoped o more := by
  cases confined with
  | closure legal legible inside => exact .closure legal legible (inside.grow grow subset)
  | neutral legal bound admits =>
    exact .neutral legal (subset bound) fun arg mem =>
      (admits arg mem).grow grow subset

theorem Form.Scoped.weaken {form : Form} (confined : form.Scoped scs xs) (subset : xs ⊆ more) :
    form.Scoped scs more :=
  confined.grow (.refl 0 scs) subset

theorem Thunk.Scoped.grow {th : Thunk} (confined : th.Scoped scs xs) (grow : scs.Grow size o) :
    th.Scoped o xs := by
  cases confined with
  | code ct unforced legible inside =>
    exact .code ct unforced legible (inside.grow grow (List.Subset.refl xs))
  | value ct forced inside =>
    exact .value ct forced (inside.grow grow (List.Subset.refl xs))

end Growth

namespace Thunk.Scoped

variable {scs : Scopes} {xs : List Name} {th changed : Thunk}

theorem rephase (confined : th.Scoped scs xs) (ct : changed.content = th.content)
    (phase : changed.phase = .forced ↔ th.phase = .forced) : changed.Scoped scs xs := by
  cases confined with
  | code held unforced legible inside =>
    exact .code (ct.trans held) (fun forced => unforced (phase.mp forced)) legible inside
  | value held forced inside => exact .value (ct.trans held) (phase.mpr forced) inside

theorem form (confined : th.Scoped scs xs) (forced : th.phase = .forced) :
    th.value.form.Scoped scs xs := by
  cases confined with
  | code _ unforced _ _ => exact absurd forced unforced
  | value ct _ inside =>
    rw [Thunk.value, ct]
    exact inside

end Thunk.Scoped

/-! ### Stores -/

namespace Store.Scoped

variable {scs : Scopes} {aft : Store} {xs : List Name}

section

variable (confined : s.Scoped scs)

include confined

variable {a : Address}

theorem lt (given : scs a = some xs) : a < s.size := by
  obtain ⟨th, held, _⟩ := confined.holds given
  exact Store.thunk?_lt held

theorem fresh : scs s.size = none := by
  cases given : scs s.size with
  | none => rfl
  | some xs => exact absurd (confined.lt given) (Nat.lt_irrefl _)

theorem thunk (given : scs a = some xs) (held : s.thunk? a = some th) :
    th.Scoped scs xs := by
  obtain ⟨o, there, inside⟩ := confined.holds given
  simp_all

theorem admits (inside : env.Scoped scs xs) {x : Name} (found : s.find x env = some a) :
    scs.Admits xs (some a) := by
  induction inside with
  | root =>
    have given := confined.tables (Store.mem_table_of_find found) rfl
    exact ⟨a, [], rfl, given, List.nil_subset xs⟩
  | layer admits _ ih => grind [Store.find]

theorem change (tbs : aft.tables = s.tables)
    (held : ∀ {a xs th}, scs a = some xs →
      s.thunk? a = some th → th.Scoped scs xs →
      ∃ later, aft.thunk? a = some later ∧ later.Scoped scs xs) : aft.Scoped scs := by
  constructor
  · intro num en a mem given
    rw [Store.table, tbs] at mem
    exact confined.tables mem given
  · intro a xs given
    obtain ⟨th, there, inside⟩ := confined.holds given
    simp_all

theorem steady (tbs : aft.tables = s.tables) (steady : ∀ {a xs}, scs a = some xs → s.Steady aft a) :
    aft.Scoped scs := by
  refine confined.change tbs fun given held inside => ?_
  obtain ⟨later, there, ct, phase⟩ := steady given held
  exact ⟨later, there, inside.rephase ct phase⟩

theorem build (form : Form) : (s.build form).2.Scoped scs :=
  confined.change rfl fun _ held inside => ⟨_, held, inside⟩

theorem memoize (fits : ∀ xs, scs a = some xs → v.form.Scoped scs xs) :
    (s.update a (·.memoize v)).Scoped scs := by
  refine confined.change rfl fun {o xs found} given there inside => ?_
  by_cases same : a = o
  · subst same
    exact ⟨found.memoize v, by simp [there], .value rfl rfl (fits xs given)⟩
  simp_all

theorem add {added : Thunk} (inside : added.Scoped scs xs) :
    (s.alloc added).2.Scoped (scs.add s.size xs) := by
  have grow := Marks.grow_add confined.fresh xs
  constructor
  · intro num en a mem given
    exact grow.keeps (confined.tables mem given)
  · intro a o given
    by_cases same : a = s.size
    · subst same
      rw [Marks.add_self] at given
      cases given
      exact ⟨added, by simp, inside.grow grow⟩
    · rw [Marks.add_of_ne xs same] at given
      obtain ⟨th, there, fits⟩ := confined.holds given
      exact ⟨th, Store.thunk?_alloc_of_some there added, fits.grow grow⟩

theorem withVariable (legal : isName x) :
    (s.withVariable x).Scoped (scs.add s.size [x]) :=
  (confined.build (.neutral x [])).add
    (.value rfl rfl (.neutral legal List.mem_cons_self (by simp)))

theorem postpone {arg : Term} (inside : env.Scoped scs xs) (legible : arg.Legible) :
    ∃ o : Scopes, scs.Grow s.size o ∧
      (s.delay arg env).2.Scoped o ∧ o.Admits xs (some (s.delay arg env).1) := by
  have grow := Marks.grow_add confined.fresh xs
  have added : Scopes.Admits (scs.add s.size xs) xs (some s.size) :=
    ⟨s.size, xs, rfl, Marks.add_self _ _ _, List.Subset.refl xs⟩
  rcases s.delay_cases arg env with ⟨x, a, rfl, found, delayed⟩ |
    ⟨_, _, delayed⟩ | ⟨p, b, rfl, delayed⟩
  · rw [delayed]
    exact ⟨scs, .refl _ _, confined, confined.admits inside found⟩
  · rw [delayed]
    exact ⟨_, grow, confined.add (.code rfl (by simp [Thunk.suspended]) legible inside), added⟩
  · rw [delayed]
    obtain ⟨legal, legible⟩ := Term.legible_lam.mp legible
    exact ⟨_, grow, (confined.build (.closure p b env)).add
      (.value rfl rfl (.closure legal legible inside)), added⟩

end

end Store.Scoped

/-! ### Transitions -/

/-- A stack, above its base, for a value that uses these variables.  What comes
to the base uses the outer ones. -/
inductive Expects (scs : Scopes) (base : List Frame) (out : List Name) :
    List Name → List Frame → Prop where
  | base {xs} (subset : xs ⊆ out) : Expects scs base out xs base
  | argument {xs arg k} (admits : scs.Admits xs arg) (rest : Expects scs base out xs k) :
      Expects scs base out xs (.argument arg :: k)
  | update {xs own more a k} (given : scs a = some own) (fits : xs ⊆ own) (subset : xs ⊆ more)
      (rest : Expects scs base out more k) :
      Expects scs base out xs (.update a :: k)

/-- A computation that uses thunks with scopes only, above the base of its
stack. -/
inductive Configuration.Scoped (scs : Scopes) (base : List Frame) (out : List Name) :
    Configuration → Prop where
  | term {t env v k s xs} (legible : t.Legible)
      (inside : env.Scoped scs xs) (expects : Expects scs base out xs k) :
      Configuration.Scoped scs base out ⟨some (t, env), v, k, s⟩
  | value {v k s xs} (inside : v.form.Scoped scs xs) (expects : Expects scs base out xs k) :
      Configuration.Scoped scs base out ⟨none, v, k, s⟩

section Transitions

variable {scs o : Scopes} {base : List Frame} {out xs : List Name} {host : Host}
  {bef aft : Configuration}

theorem Expects.grow {k : List Frame} (expects : Expects scs base out xs k)
    (grow : scs.Grow size o) : Expects o base out xs k := by
  induction expects with
  | base subset => exact .base subset
  | argument admits _ ih => exact .argument (admits.grow grow (List.Subset.refl _)) ih
  | update given fits subset _ ih => exact .update (grow.keeps given) fits subset ih

theorem Expects.enter {k : List Frame} (expects : Expects scs base out xs k)
    (confined : s.Scoped scs) (admits : scs.Admits xs (some a))
    (held : s.thunk? a = some th) (unforced : th.phase = .unforced) (v : Value) (later : Store) :
    Configuration.Scoped scs base out ⟨th.code?, v, .update a :: k, later⟩ := by
  obtain ⟨_, own, same, given, subset⟩ := admits
  cases same
  have waits := Expects.update given (List.Subset.refl own) subset expects
  cases confined.thunk given held with
  | code ct _ legible inside =>
    rw [Thunk.code?, ct]
    exact .term legible inside waits
  | value _ forced _ => simp [unforced] at forced

/-- A computation in a scope goes on in it until it comes to its base. -/
theorem Configuration.Scoped.move (inside : bef.Scoped scs base out)
    (confined : bef.store.Scoped scs) (above : bef.focus = none → bef.stack ≠ base)
    (move : Move host bef aft) :
    ∃ o : Scopes, scs.Grow bef.store.size o ∧ aft.store.Scoped o ∧ aft.Scoped o base out := by
  have stays : ∀ {last : Configuration}, last.store.Scoped scs →
      last.Scoped scs base out → ∃ o : Scopes, scs.Grow bef.store.size o ∧
        last.store.Scoped o ∧ last.Scoped o base out :=
    fun s confined => ⟨scs, .refl _ _, s, confined⟩
  cases inside with
  | @term _ env _ _ _ _ legible inside expects =>
    cases move with
    | reuse found held forced =>
      obtain ⟨_, own, same, given, subset⟩ := confined.admits inside found
      cases same
      have v := (confined.thunk given held).form forced
      exact stays confined (.value (v.weaken subset) expects)
    | enter found held unforced =>
      have entered := expects.enter confined (confined.admits inside found) held unforced
      exact stays (confined.steady rfl fun _ => Store.steady_begin held unforced _) (entered _ _)
    | @close p b =>
      obtain ⟨legal, legible⟩ := Term.legible_lam.mp legible
      exact stays (confined.build (.closure p b env))
        (.value (.closure legal legible inside) expects)
    | postpone =>
      obtain ⟨f, arg⟩ := Term.legible_app.mp legible
      obtain ⟨o, grow, later, admits⟩ := confined.postpone inside arg
      exact ⟨o, grow, later, .term f (inside.grow grow (List.Subset.refl _))
        (.argument admits (expects.grow grow))⟩
  | value inside expects =>
    cases expects with
    | base _ => exact absurd rfl (above rfl)
    | @argument _ arg _ admits expects =>
      cases move with
      | bind closure =>
        rw [closure] at inside
        cases inside with
        | closure _ legible inside =>
          exact stays confined (.term legible (.layer admits inside) expects)
      | @extend _ _ _ _ x args neutral =>
        rw [neutral] at inside
        cases inside with
        | neutral legal bound os =>
          refine stays (confined.build (.neutral x (args ++ [arg])))
            (.value (.neutral legal bound ?_) expects)
          grind
      | supply prim | demand prim =>
        rw [prim] at inside
        cases inside
    | update given fits subset expects =>
      cases move with
      | memoize =>
        refine stays (confined.memoize fun own known => ?_) (.value (inside.weaken subset) expects)
        cases given.symm.trans known
        exact inside.weaken fits

end Transitions

/-! ### Requests -/

/-- Thunks with scopes are evaluated apart from what has none. -/
theorem guards_scoped (host : Host) :
    Guards host (fun scs : Scopes => scs) (fun scs s => s.Scoped scs)
      (fun scs base c => ∃ out, c.Scoped scs base out) (Marks.Grow 0) where
  refl := .refl 0
  trans early late := early.trans late
  steady confined tbs steady := confined.steady tbs steady
  enter := by
    intro scs bef aft a th k confined enters
    obtain ⟨own, given⟩ := Option.isSome_iff_exists.mp enters.given
    have admits : scs.Admits own (some a) := ⟨a, own, rfl, given, List.Subset.refl own⟩
    have waits : Expects scs k own own k := .base (List.Subset.refl own)
    rw [enters.entered]
    exact ⟨own, waits.enter confined admits enters.held enters.unforced bef.value _⟩
  move := by
    rintro scs base bef aft confined ⟨out, inside⟩ above move
    obtain ⟨o, grow, later, inside⟩ := inside.move confined above move
    exact ⟨o, grow.weaken, grow, later, out, inside⟩

/-- Whatever is asked of an engine, its thunks keep to their scopes. -/
theorem kept_scoped (cfg : Settings) :
    Kept cfg (· = .outOfFuel) fun bef aft => ∀ scs : Scopes,
      bef.Scoped scs → ∃ o : Scopes, scs.Grow 0 o ∧ aft.Scoped o := (guards_scoped cfg.host).kept

theorem Reached.confined {st0 : Store} (reached : Reached st0 s)
    (confined : st0.Scoped scs) : ∃ o : Scopes, scs.Grow 0 o ∧ s.Scoped o :=
  Kept.reached (kept_scoped ⟨countingHost, none⟩).refl
    (fun cfg _ => kept_scoped cfg) reached scs confined

/-! ### Values -/

section Values

variable {cfg : Settings} {n : Nat} {scs : Scopes} {xs : List Name}
  {e aft : Engine} {v : Value}

theorem Configuration.Scoped.moves {k : Nat} {st0 last : Configuration}
    (inside : st0.Scoped scs [] xs) (confined : st0.store.Scoped scs)
    (moves : Moves host k st0 last) :
    ∃ o : Scopes, scs.Grow 0 o ∧ last.store.Scoped o ∧ last.Scoped o [] xs := by
  induction moves generalizing scs with
  | refl => exact ⟨scs, .refl _ _, confined, inside⟩
  | step move _ ih =>
    obtain ⟨mid, grow, confined, inside⟩ := inside.move confined move.stack_ne_nil move
    obtain ⟨o, more, confined, inside⟩ := ih inside confined
    exact ⟨o, grow.trans more, confined, inside⟩

/-- A value is obtained that uses these variables; more thunks may have scopes by
then. -/
def Scopes.Yields (scs : Scopes) (xs : List Name) (v : Value) (s : Store) : Prop :=
  ∃ o : Scopes, scs.Grow 0 o ∧ s.Scoped o ∧ v.form.Scoped o xs

/-- The value that the machine comes to uses the variables of the scope that it began in. -/
theorem Configuration.Scoped.yields {st0 : Configuration}
    (inside : st0.Scoped scs [] xs) (confined : st0.store.Scoped scs)
    (came : st0.Reaches host v s) : scs.Yields xs v s := by
  obtain ⟨k, moves⟩ := came
  obtain ⟨o, grow, scopedLast, inside⟩ := inside.moves confined moves
  cases inside with
  | value inside expects =>
    cases expects with
    | base subset => exact ⟨o, grow, scopedLast, inside.weaken subset⟩

theorem evaluate_scoped (confined : e.store.Scoped scs) (inside : env.Scoped scs xs)
    (legible : t.Legible) (evd : evaluate cfg n t env e = (.ok v, aft)) :
    scs.Yields xs v aft.store := by
  have starts : Configuration.Scoped scs [] xs ⟨some (t, env), Value.absent, [], e.store⟩ :=
    .term legible inside (.base (List.Subset.refl xs))
  exact starts.yields confined (reaches_of_evaluate evd)

theorem apply_scoped {f : Value} {args : List (Option Address)} (confined : e.store.Scoped scs)
    (inside : f.form.Scoped scs xs) (admits : ∀ arg ∈ args, scs.Admits xs arg)
    (applied : apply cfg n f args e = (.ok v, aft)) : scs.Yields xs v aft.store := by
  have expects : Expects scs [] xs xs (args.map .argument) := by
    clear applied
    induction args with
    | nil => exact .base (List.Subset.refl xs)
    | cons arg args ih =>
      exact .argument (admits arg List.mem_cons_self)
        (ih fun o mem => admits o (List.mem_cons_of_mem _ mem))
  have starts : Configuration.Scoped scs [] xs ⟨none, f, args.map .argument, e.store⟩ :=
    .value inside expects
  exact starts.yields confined (reaches_of_apply applied)

theorem force_scoped {th : Option Address} (confined : e.store.Scoped scs)
    (admits : scs.Admits xs th) (forced : force cfg n th e = (.ok v, aft)) :
    scs.Yields xs v aft.store := by
  obtain ⟨a, own, rfl, given, subset⟩ := id admits
  have starts : Configuration.Scoped scs [] xs
      ⟨some (.var "x", .layer "x" (some a) (.root 0)), Value.absent, [], e.store⟩ :=
    .term (Term.legible_var.mpr (by decide)) (.layer admits .root) (.base (List.Subset.refl xs))
  exact starts.yields confined (reaches_of_force forced "x" (.root 0))

mutual

/-- A value is read back as a term that can be written, in which no variables
are free but those of its scope. -/
theorem Quotes.legible {e later : Engine} {v : Value} {us : List Name} {t : Term}
    {scs : Scopes} :
    Quotes cfg e v us t later → e.store.Scoped scs →
    v.form.Scoped scs us →
    ∃ o : Scopes, scs.Grow 0 o ∧ later.store.Scoped o ∧ t.Legible ∧
      ∀ x ∈ t.freeNames, x ∈ us
  | @Quotes.closure _ e _ _ v _ us p b _ env _ form opened read, confined, inside => by
      rw [form] at inside
      cases inside with
      | closure legal legible inside =>
        have spelt := isName_freshName legal us
        have grow := Marks.grow_add confined.fresh [freshName p us]
        have admits : Scopes.Admits (scs.add e.store.size [freshName p us])
            (us ++ [freshName p us]) (some e.store.size) :=
          ⟨_, _, rfl, Marks.add_self _ _ _, List.subset_append_right _ _⟩
        have layered := inside.grow grow (List.subset_append_left us [freshName p us])
        obtain ⟨mid, further, scopedMiddle, scopedValue⟩ := evaluate_scoped
          (confined.withVariable spelt) (.layer admits layered) legible opened
        obtain ⟨last, more, scopedLast, shown, bound⟩ :=
          Quotes.legible read scopedMiddle scopedValue
        refine ⟨last, (grow.trans further).trans more, scopedLast,
          Term.legible_lam.mpr ⟨spelt, shown⟩, fun x free => ?_⟩
        simp only [Term.freeNames, List.mem_filter, decide_eq_true_eq] at free
        grind
  | .neutral form read, confined, inside => by
      rw [form] at inside
      cases inside with
      | neutral legal bound admits =>
        obtain ⟨last, grow, scopedLast, all⟩ := QuotesAll.legible read confined admits
        refine ⟨last, grow, scopedLast, .apply (Term.legible_var.mpr legal)
          fun t mem => (all t mem).1, fun x free => ?_⟩
        grind [Term.mem_freeNames_apply, Term.freeNames]
  | .constant form _, _, inside => by
      rw [form] at inside
      cases inside
  | .primitive form, _, inside => by
      rw [form] at inside
      cases inside

theorem QuotesAll.legible {e later : Engine} {args : List (Option Address)}
    {us : List Name} {ts : List Term} {scs : Scopes} :
    QuotesAll cfg e args us ts later → e.store.Scoped scs →
    (∀ arg ∈ args, scs.Admits us arg) →
    ∃ o : Scopes, scs.Grow 0 o ∧ later.store.Scoped o ∧
      ∀ t ∈ ts, t.Legible ∧ ∀ x ∈ t.freeNames, x ∈ us
  | .nil, confined, _ => ⟨scs, .refl _ _, confined, by simp⟩
  | .cons forced fst rest, confined, admits => by
      have counted : e.countStep.store.Scoped scs := confined
      obtain ⟨opened, grow, scopedOpened, v⟩ :=
        force_scoped counted (admits _ List.mem_cons_self) forced
      obtain ⟨mid, more, scopedMiddle, shown⟩ := Quotes.legible fst scopedOpened v
      obtain ⟨last, most, scopedLast, all⟩ := QuotesAll.legible rest scopedMiddle
        fun arg mem => (admits arg (List.mem_cons_of_mem _ mem)).grow
          (grow.trans more) (List.Subset.refl us)
      refine ⟨last, (grow.trans more).trans most, scopedLast, fun t mem => ?_⟩
      grind

end

end Values

end CallByNeed
