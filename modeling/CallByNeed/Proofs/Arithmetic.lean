import CallByNeed.Proofs.Iteration

/-!
# Arithmetic on Church numerals

A closed term is the numeral of a number if, applied to any two closed terms, it
reduces to that many applications of the first one to the second (`Church`).  The
functions of arithmetic are names of a program, which `Arithmetic` lists with
their definitions.  Each of them takes numerals to the numeral of the result.

Everything is said by reduction in any order, and nothing about evaluation.
-/

namespace CallByNeed

variable {pg : Definitions} {k o : Nat} {t reduced : Nameless}

/-! ### Calls -/

namespace Nameless

theorem ClosedAt.lift_eq (closed : t.ClosedAt 0) (lv : Nat) : t.lift lv = t :=
  lift_of_closedAt closed (Nat.zero_le lv)

theorem ClosedAt.instantiate_eq (closed : t.ClosedAt 0) (lv : Nat) (repl : Nameless) :
    t.instantiate lv repl = t := instantiate_of_closedAt closed (Nat.zero_le lv) repl

theorem ClosedAt.iterate {sc og : Nameless} (closed : sc.ClosedAt 0) (closedOrigin : og.ClosedAt 0)
    (k : Nat) : (iterate sc og k).ClosedAt 0 := by
  induction k with
  | zero => exact closedOrigin
  | succ k ih => exact ⟨closed, ih⟩

/-- An abstraction that takes its arguments, as many as it has parameters for. -/
def supply : Nameless → List Nameless → Nameless
  | lam b, arg :: args => (b.instantiate 0 arg).supply args
  | t, args => t.apply args

end Nameless

theorem Reduces.supply (t : Nameless) (args : List Nameless) :
    Reduces pg (t.apply args) (t.supply args) := by
  induction args generalizing t with
  | nil => cases t <;> exact .refl
  | cons arg args ih =>
    cases t with
    | lam b =>
      have taken : Reduces pg (.app (.lam b) arg) (b.instantiate 0 arg) := .single .beta
      exact (taken.apply (List.forall₂_same.mpr fun _ _ => .refl)).trans (ih _)
    | _ => exact .refl

/-- A name is called: it is unfolded, and its definition takes the arguments. -/
theorem Reduces.call (defined : pg a = some t) (args : List Nameless) :
    Reduces pg ((Nameless.free a).apply args) (t.supply args) := by
  have unfolded : Reduces pg (.free a) t := .single (.unfold defined)
  exact (unfolded.apply (List.forall₂_same.mpr fun _ _ => .refl)).trans (Reduces.supply t args)

/-! ### Numerals -/

/-- A closed term that applies what it is given a number of times. -/
structure Church (pg : Definitions) (k : Nat) (t : Nameless) : Prop where
  closed : t.ClosedAt 0
  iterates : ∀ {sc og : Nameless}, sc.ClosedAt 0 → og.ClosedAt 0 →
    Reduces pg (.app (.app t sc) og) (.iterate sc og k)

namespace Church

theorem of_reduces (closed : t.ClosedAt 0) (reduces : Reduces pg t reduced)
    (church : Church pg k reduced) : Church pg k t where
  closed := closed
  iterates closedSuccessor closedOrigin :=
    (Reduces.app (reduces.app .refl) .refl).trans (church.iterates closedSuccessor closedOrigin)

/-- What a function and a start have, and each application keeps, the numeral that is applied
to them has. -/
theorem fold {α : Type} {holds : α → Nameless → Prop} {next : α → α} {st0 : α} {sc og : Nameless}
    (church : Church pg k t) (closed : sc.ClosedAt 0) (closedOrigin : og.ClosedAt 0)
    (expand : ∀ {v t reduced}, Nameless.ClosedAt 0 t → Reduces pg t reduced →
      holds v reduced → holds v t) (base : holds st0 og)
    (step : ∀ {v t}, Nameless.ClosedAt 0 t → holds v t → holds (next v) (.app sc t)) :
    holds (next^[k] st0) (.app (.app t sc) og) := by
  have iterated : ∀ many, holds (next^[many] st0) (.iterate sc og many) := by
    intro many
    induction many with
    | zero => exact base
    | succ many ih =>
      rw [Function.iterate_succ_apply']
      exact step (closed.iterate closedOrigin many) ih
  exact expand ⟨⟨church.closed, closed⟩, closedOrigin⟩ (church.iterates closed closedOrigin)
    (iterated k)

theorem foldNumerals {next : Nat → Nat} {st0 : Nat} {sc og : Nameless} (church : Church pg k t)
    (closed : sc.ClosedAt 0) (base : Church pg st0 og)
    (step : ∀ {v t}, Church pg v t → Church pg (next v) (.app sc t)) :
    Church pg (next^[k] st0) (.app (.app t sc) og) :=
  church.fold closed base.closed of_reduces base fun _ => step

end Church

/-- The numeral of a number. -/
def Nameless.numeral (k : Nat) : Nameless := .lam (.lam (.iterate (.bound 1) (.bound 0) k))

theorem church_numeral (k : Nat) : Church pg k (.numeral k) := by
  have closed : (Nameless.iterate (.bound 1) (.bound 0) k).ClosedAt 2 := by
    induction k with
    | zero => exact Nat.zero_lt_two
    | succ k ih => exact ⟨Nat.one_lt_two, ih⟩
  refine ⟨closed, fun {sc og} closedSuccessor _ => ?_⟩
  have called : Reduces pg ((Nameless.numeral k).apply [sc, og]) _ := Reduces.supply _ _
  simpa [Nameless.numeral, Nameless.supply, Nameless.instantiate, Nameless.instantiate_iterate,
    closedSuccessor.lift_eq, closedSuccessor.instantiate_eq] using called

theorem nameless_numeral (k : Nat) {sc : Name} (apart : sc ≠ zero) (mn : Name → Nameless)
    (bds : List Name) : (numeral k sc zero).nameless mn bds = .numeral k := by
  have b : (Nat.repeat (Term.app (.var sc)) k (.var zero)).nameless mn
      (zero :: sc :: bds) = .iterate (.bound 1) (.bound 0) k := by
    induction k with
    | zero => simp [Nat.repeat, Term.nameless, Nameless.iterate]
    | succ k ih =>
      simp only [Nat.repeat, Term.nameless, ih]
      simp [Nameless.iterate, Nat.repeat, apart.symm]
  simp [numeral, Term.lambdas, Term.nameless, Nameless.numeral, b]

/-! ### Names -/

/-- The names of truth values and what they are defined as. -/
structure Truths (pg : Definitions) where
  yes : Address
  no : Address
  choice : Address
  yes_defined : pg yes = some (.lam (.lam (.bound 1)))
  no_defined : pg no = some (.lam (.lam (.bound 0)))
  choice_defined : pg choice =
    some (.lam (.lam (.lam (.app (.app (.bound 2) (.bound 1)) (.bound 0)))))

/-- The names of pairs, which choose by a truth value. -/
structure Tuples (pg : Definitions) extends Truths pg where
  pair : Address
  first : Address
  second : Address
  pair_defined : pg pair =
    some (.lam (.lam (.lam (.app (.app (.bound 0) (.bound 2)) (.bound 1)))))
  first_defined : pg first = some (.lam (.app (.bound 0) (.free yes)))
  second_defined : pg second = some (.lam (.app (.bound 0) (.free no)))

/-- The names of general functions. -/
structure Combinators (pg : Definitions) where
  constant : Address
  fixpoint : Address
  constant_defined : pg constant = some (.lam (.lam (.bound 1)))
  fixpoint_defined : pg fixpoint =
    some (.lam (.app (.lam (.app (.bound 1) (.app (.bound 0) (.bound 0))))
      (.lam (.app (.bound 1) (.app (.bound 0) (.bound 0))))))

/-- The names of the functions on numerals. -/
structure Arithmetic (pg : Definitions) extends Tuples pg, Combinators pg where
  zero : Address
  suc : Address
  isZero : Address
  pred : Address
  sum : Address
  prod : Address
  pow : Address
  fact : Address
  zero_defined : pg zero = some (.lam (.lam (.bound 0)))
  suc_defined : pg suc =
    some (.lam (.lam (.lam (.app (.bound 1) (.app (.app (.bound 2) (.bound 1)) (.bound 0))))))
  isZero_defined : pg isZero =
    some (.lam (.app (.app (.bound 0) (.app (.free constant) (.free no))) (.free yes)))
  pred_defined : pg pred =
    some (.lam (.app (.free first)
      (.app (.app (.bound 0)
        (.lam (.app (.app (.free pair) (.app (.free second) (.bound 0)))
          (.app (.free suc) (.app (.free second) (.bound 0))))))
        (.app (.app (.free pair) (.free zero)) (.free zero)))))
  sum_defined : pg sum = some (.lam (.lam (.app (.app (.bound 1) (.free suc)) (.bound 0))))
  prod_defined : pg prod =
    some (.lam (.lam (.app (.app (.bound 1) (.app (.free sum) (.bound 0))) (.free zero))))
  pow_defined : pg pow =
    some (.lam (.lam (.app (.app (.bound 0) (.app (.free prod) (.bound 1)))
      (.app (.free suc) (.free zero)))))
  fact_defined : pg fact =
    some (.app (.free fixpoint) (.lam (.lam
      (.app (.app (.app (.free choice) (.app (.free isZero) (.bound 0)))
          (.app (.free suc) (.free zero)))
        (.app (.app (.free prod) (.bound 0)) (.app (.bound 1) (.app (.free pred) (.bound 0))))))))

namespace Arithmetic

variable (xs : Arithmetic pg) {first second : Nameless}

/-! ### Truth values -/

theorem reduces_yes (closed : first.ClosedAt 0) :
    Reduces pg (.app (.app (.free xs.yes) first) second) first := by
  simpa [Nameless.supply, Nameless.instantiate, closed.lift_eq, closed.instantiate_eq]
    using Reduces.call xs.yes_defined [first, second]

theorem reduces_no : Reduces pg (.app (.app (.free xs.no) first) second) second := by
  simpa [Nameless.supply, Nameless.instantiate] using Reduces.call xs.no_defined [first, second]

theorem reduces_choice {condition : Address} (closed : first.ClosedAt 0) :
    Reduces pg (.app (.app (.app (.free xs.choice) (.free condition)) first) second)
      (.app (.app (.free condition) first) second) := by
  simpa [Nameless.supply, Nameless.instantiate, Nameless.lift, closed.lift_eq,
    closed.instantiate_eq] using Reduces.call xs.choice_defined [.free condition, first, second]

/-! ### Addition, multiplication and powers -/

theorem church_zero : Church pg 0 (.free xs.zero) := by
  refine ⟨trivial, fun {sc og} _ _ => ?_⟩
  simpa [Nameless.supply, Nameless.instantiate, Nameless.iterate, Nat.repeat]
    using Reduces.call xs.zero_defined [sc, og]

theorem church_suc (church : Church pg k t) : Church pg (k + 1) (.app (.free xs.suc) t) := by
  refine ⟨⟨trivial, church.closed⟩, fun {sc og} closed closedOrigin => ?_⟩
  have called : Reduces pg (.app (.app (.app (.free xs.suc) t) sc) og)
      (.app sc (.app (.app t sc) og)) := by
    simpa [Nameless.supply, Nameless.instantiate, church.closed.lift_eq,
      church.closed.instantiate_eq, closed.lift_eq, closed.instantiate_eq]
      using Reduces.call xs.suc_defined [t, sc, og]
  exact called.trans (Reduces.app .refl (church.iterates closed closedOrigin))

theorem church_sum (l : Church pg k first) (r : Church pg o second) :
    Church pg (k + o) (.app (.app (.free xs.sum) first) second) := by
  have called : Reduces pg (.app (.app (.free xs.sum) first) second)
      (.app (.app first (.free xs.suc)) second) := by
    simpa [Nameless.supply, Nameless.instantiate, l.closed.lift_eq, l.closed.instantiate_eq]
      using Reduces.call xs.sum_defined [first, second]
  have closed : Nameless.ClosedAt 0 (.free xs.suc) := trivial
  have folded := l.foldNumerals closed r xs.church_suc
  have added : (· + 1)^[k] o = k + o := by
    rw [add_right_iterate]
    simp [Nat.add_comm]
  exact .of_reduces ⟨⟨trivial, l.closed⟩, r.closed⟩ called (added ▸ folded)

theorem church_prod (l : Church pg k first) (r : Church pg o second) :
    Church pg (k * o) (.app (.app (.free xs.prod) first) second) := by
  have called : Reduces pg (.app (.app (.free xs.prod) first) second)
      (.app (.app first (.app (.free xs.sum) second)) (.free xs.zero)) := by
    simpa [Nameless.supply, Nameless.instantiate, l.closed.lift_eq, l.closed.instantiate_eq]
      using Reduces.call xs.prod_defined [first, second]
  have closed : Nameless.ClosedAt 0 (.app (.free xs.sum) second) := ⟨trivial, r.closed⟩
  have folded := l.foldNumerals closed xs.church_zero (xs.church_sum r)
  have multiplied : (o + ·)^[k] 0 = k * o := by simp
  exact .of_reduces ⟨⟨trivial, l.closed⟩, r.closed⟩ called (multiplied ▸ folded)

theorem church_pow (l : Church pg k first) (r : Church pg o second) :
    Church pg (k ^ o) (.app (.app (.free xs.pow) first) second) := by
  have called : Reduces pg (.app (.app (.free xs.pow) first) second)
      (.app (.app second (.app (.free xs.prod) first)) (.app (.free xs.suc) (.free xs.zero))) := by
    simpa [Nameless.supply, Nameless.instantiate, l.closed.lift_eq, l.closed.instantiate_eq]
      using Reduces.call xs.pow_defined [first, second]
  have closed : Nameless.ClosedAt 0 (.app (.free xs.prod) first) := ⟨trivial, l.closed⟩
  have folded := r.foldNumerals closed (xs.church_suc xs.church_zero) (xs.church_prod l)
  have raised : (k * ·)^[o] (0 + 1) = k ^ o := by simp
  exact .of_reduces ⟨⟨trivial, l.closed⟩, r.closed⟩ called (raised ▸ folded)

/-! ### Predecessors -/

/-- A pair of numerals, by its two parts. -/
structure Pairs (parts : Nat × Nat) (t : Nameless) : Prop where
  closed : t.ClosedAt 0
  first : Church pg parts.1 (.app (.free xs.first) t)
  second : Church pg parts.2 (.app (.free xs.second) t)

variable {xs}

theorem Pairs.of_reduces {parts : Nat × Nat} (closed : t.ClosedAt 0)
    (reduces : Reduces pg t reduced) (pairs : xs.Pairs parts reduced) : xs.Pairs parts t :=
  ⟨closed, .of_reduces ⟨trivial, closed⟩ (Reduces.app .refl reduces) pairs.first,
    .of_reduces ⟨trivial, closed⟩ (Reduces.app .refl reduces) pairs.second⟩

theorem Pairs.pair (l : Church pg k first) (r : Church pg o second) :
    xs.Pairs (k, o) (.app (.app (.free xs.pair) first) second) := by
  have closed : Nameless.ClosedAt 0 (.app (.app (.free xs.pair) first) second) :=
    ⟨⟨trivial, l.closed⟩, r.closed⟩
  have opened : ∀ selector, Reduces pg
      (.app (.app (.app (.free xs.pair) first) second) (.free selector))
      (.app (.app (.free selector) first) second) := by
    intro selector
    simpa [Nameless.supply, Nameless.instantiate, l.closed.lift_eq, l.closed.instantiate_eq,
      r.closed.lift_eq, r.closed.instantiate_eq]
      using Reduces.call xs.pair_defined [first, second, .free selector]
  have taken : Reduces pg
      (.app (.free xs.first) (.app (.app (.free xs.pair) first) second)) first :=
    (Reduces.call xs.first_defined [_]).trans ((opened xs.yes).trans (xs.reduces_yes l.closed))
  have rest : Reduces pg
      (.app (.free xs.second) (.app (.app (.free xs.pair) first) second)) second :=
    (Reduces.call xs.second_defined [_]).trans ((opened xs.no).trans xs.reduces_no)
  exact ⟨closed, .of_reduces ⟨trivial, closed⟩ taken l, .of_reduces ⟨trivial, closed⟩ rest r⟩

variable (xs)

/-- The function that a numeral applies to a pair to find its predecessor. -/
def shift : Nameless :=
  .lam (.app (.app (.free xs.pair) (.app (.free xs.second) (.bound 0)))
    (.app (.free xs.suc) (.app (.free xs.second) (.bound 0))))

theorem closed_shift : xs.shift.ClosedAt 0 := by
  simp [shift, Nameless.ClosedAt]

/-- What the function does to the parts of a pair. -/
def shifted (parts : Nat × Nat) : Nat × Nat := (parts.2, parts.2 + 1)

theorem pairs_shift {parts : Nat × Nat} (pairs : xs.Pairs parts t) :
    xs.Pairs (shifted parts) (.app xs.shift t) :=
  .of_reduces ⟨xs.closed_shift, pairs.closed⟩ (.single .beta)
    (Pairs.pair pairs.second (xs.church_suc pairs.second))

theorem iterate_shifted (k : Nat) : shifted^[k] (0, 0) = (k - 1, k) := by
  induction k with
  | zero => rfl
  | succ k ih =>
    rw [Function.iterate_succ_apply', ih]
    rfl

theorem church_pred (church : Church pg k t) : Church pg (k - 1) (.app (.free xs.pred) t) := by
  have called : Reduces pg (.app (.free xs.pred) t)
      (.app (.free xs.first) (.app (.app t xs.shift)
        (.app (.app (.free xs.pair) (.free xs.zero)) (.free xs.zero)))) :=
    Reduces.call xs.pred_defined [t]
  have base : xs.Pairs (0, 0) (.app (.app (.free xs.pair) (.free xs.zero)) (.free xs.zero)) :=
    Pairs.pair xs.church_zero xs.church_zero
  have folded : xs.Pairs (shifted^[k] (0, 0)) _ :=
    church.fold xs.closed_shift base.closed Pairs.of_reduces base fun _ => xs.pairs_shift
  rw [iterate_shifted] at folded
  exact .of_reduces ⟨trivial, church.closed⟩ called folded.first

/-! ### Factorials -/

theorem reduces_isZero (church : Church pg k t) :
    Reduces pg (.app (.free xs.isZero) t) (.free (if k = 0 then xs.yes else xs.no)) := by
  have called : Reduces pg (.app (.free xs.isZero) t)
      (.app (.app t (.app (.free xs.constant) (.free xs.no))) (.free xs.yes)) :=
    Reduces.call xs.isZero_defined [t]
  refine (called.trans (church.iterates ⟨trivial, trivial⟩ trivial)).trans ?_
  cases k with
  | zero => exact .refl
  | succ k => exact Reduces.call xs.constant_defined [.free xs.no, _]

/-- The function whose fixed point the factorial is. -/
def recursion : Nameless :=
  .lam (.lam (.app (.app (.app (.free xs.choice) (.app (.free xs.isZero) (.bound 0)))
      (.app (.free xs.suc) (.free xs.zero)))
    (.app (.app (.free xs.prod) (.bound 0)) (.app (.bound 1) (.app (.free xs.pred) (.bound 0))))))

/-- One half of the fixed point, which is applied to itself. -/
def half : Nameless := .lam (.app xs.recursion (.app (.bound 0) (.bound 0)))

/-- The fixed point, which reduces to the function applied to it. -/
def unwound : Nameless := .app xs.half xs.half

theorem closed_recursion : xs.recursion.ClosedAt 0 := by
  simp [recursion, Nameless.ClosedAt]

theorem closed_unwound : xs.unwound.ClosedAt 0 := by
  have closed : xs.half.ClosedAt 0 := by
    refine ⟨xs.closed_recursion.mono (Nat.zero_le _), ?_⟩
    simp [Nameless.ClosedAt]
  exact ⟨closed, closed⟩

theorem reduces_unwound : Reduces pg (.free xs.fact) xs.unwound := by
  have unfolded : Reduces pg (.free xs.fact) (.app (.free xs.fixpoint) xs.recursion) :=
    .single (.unfold xs.fact_defined)
  refine unfolded.trans ?_
  simpa [unwound, half, Nameless.supply, Nameless.instantiate, xs.closed_recursion.lift_eq]
    using Reduces.call xs.fixpoint_defined [xs.recursion]

theorem reduces_recursion (t : Nameless) :
    Reduces pg (.app xs.unwound t)
      (.app (.app (.app (.free xs.choice) (.app (.free xs.isZero) t))
          (.app (.free xs.suc) (.free xs.zero)))
        (.app (.app (.free xs.prod) t) (.app xs.unwound (.app (.free xs.pred) t)))) := by
  have again : Reduces pg xs.unwound (.app xs.recursion xs.unwound) := by
    have taken : Reduction pg xs.unwound _ := .beta
    simp only [Nameless.instantiate, xs.closed_recursion.instantiate_eq] at taken
    exact .single taken
  have called : Reduces pg (xs.recursion.apply [xs.unwound, t]) _ := Reduces.supply _ _
  refine (Reduces.app again .refl).trans ?_
  simpa [recursion, Nameless.supply, Nameless.instantiate, xs.closed_unwound.lift_eq,
    xs.closed_unwound.instantiate_eq] using called

/-- The fixed point computes the factorial, by recursion on the number. -/
theorem church_unwound (church : Church pg k t) : Church pg k.factorial (.app xs.unwound t) := by
  induction k generalizing t with
  | zero =>
    have tested := xs.reduces_isZero church
    have one := xs.church_suc xs.church_zero
    have chosen := (xs.reduces_recursion t).trans
      ((Reduces.app (Reduces.app (Reduces.app .refl tested) .refl) .refl).trans
        ((xs.reduces_choice one.closed).trans (xs.reduces_yes one.closed)))
    exact .of_reduces ⟨xs.closed_unwound, church.closed⟩ chosen one
  | succ k ih =>
    have tested := xs.reduces_isZero church
    have one := xs.church_suc xs.church_zero
    have rest := xs.church_prod church (ih (xs.church_pred church))
    have chosen := (xs.reduces_recursion t).trans
      ((Reduces.app (Reduces.app (Reduces.app .refl tested) .refl) .refl).trans
        ((xs.reduces_choice one.closed).trans xs.reduces_no))
    exact .of_reduces ⟨xs.closed_unwound, church.closed⟩ chosen rest

theorem church_fact (church : Church pg k t) : Church pg k.factorial (.app (.free xs.fact) t) :=
  .of_reduces ⟨trivial, church.closed⟩ (Reduces.app xs.reduces_unwound .refl)
    (xs.church_unwound church)

end Arithmetic

end CallByNeed
