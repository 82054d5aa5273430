import CallByNeed.Proofs.NormalOrder

/-!
# Terms that stand for numbers

A number is what applies a successor to a zero that many times.  `Iterates` says
so of a term by head reduction, one application after the other, which is how
the machine finds it out.  `iterates_iff` says the same by reduction to
`s (s (… z))` in any order.
-/

namespace CallByNeed

/-- `s (s (… z))`, with a number of applications. -/
def Nameless.iterate (sc zero : Nameless) (k : Nat) : Nameless :=
  Nat.repeat (Nameless.app sc) k zero

/-- A term applies one variable to another a number of times, which head reduction finds
out. -/
inductive Iterates (pg : Definitions) (sc og : Address) : Nat → Nameless → Prop where
  | zero {sts : Nat} {t : Nameless} (reaches : HeadSteps pg sts t (.free og)) :
      Iterates pg sc og 0 t
  | succ {sts k : Nat} {t inn : Nameless} (reaches : HeadSteps pg sts t (.app (.free sc) inn))
      (rest : Iterates pg sc og k inn) :
      Iterates pg sc og (k + 1) t

variable {pg : Definitions} {sc og : Address} {k : Nat} {t : Nameless} {a : Address}
  {args : List Nameless}

namespace Nameless

variable {fst snd : Nameless}

theorem close_iterate (a : Address) (dp : Nat) :
    (iterate fst snd k).close a dp = iterate (fst.close a dp) (snd.close a dp) k := by
  induction k with
  | zero => rfl
  | succ k ih => exact congrArg (app (fst.close a dp)) ih

theorem instantiate_iterate (dp : Nat) (repl : Nameless) :
    (iterate fst snd k).instantiate dp repl =
      iterate (fst.instantiate dp repl) (snd.instantiate dp repl)
        k := by
  induction k with
  | zero => rfl
  | succ k ih => exact congrArg (app (fst.instantiate dp repl)) ih

theorem apply_eq_free {o : Address} (same : (free a).apply args = free o) : a = o ∧ args = [] := by
  cases args using List.reverseRecOn with
  | nil => simp_all
  | append_singleton fr last =>
    rw [apply_append] at same
    cases same

theorem apply_eq_app {o : Address} {arg : Nameless}
    (same : (free a).apply args = app (free o) arg) : a = o ∧ args = [arg] := by
  cases args using List.reverseRecOn with
  | nil => cases same
  | append_singleton fr last => grind [apply_append, apply_cons, apply_nil, apply_eq_free]

end Nameless

namespace Iterates

theorem head {sts : Nat} {next : Nameless} (reaches : HeadSteps pg sts t next)
    (iterates : Iterates pg sc og k next) : Iterates pg sc og k t := by
  cases iterates with
  | zero further => exact .zero (reaches.trans further)
  | succ further rest => exact .succ (reaches.trans further) rest

theorem reduces (iterates : Iterates pg sc og k t) :
    Reduces pg t (.iterate (.free sc) (.free og) k) := by
  induction iterates with
  | zero reaches => exact reaches.reduces
  | succ reaches rest ih => exact reaches.reduces.trans (Reduces.app .refl ih)

theorem not_lam {b : Nameless} : ¬ Iterates pg sc og k (.lam b) := by
  intro iterates
  cases iterates with
  | zero reaches => cases (final_lam b).eq_of_steps reaches
  | succ reaches rest => cases (final_lam b).eq_of_steps reaches

end Iterates

theorem Standard.iterates (standard : Standard pg t (.iterate (.free sc) (.free og) k)) :
    Iterates pg sc og k t := by
  induction k generalizing t with
  | zero =>
    cases standard with
    | atom reaches small => exact .zero reaches
  | succ k ih =>
    cases standard with
    | atom reaches small => cases small
    | app reaches l r =>
      cases l with
      | atom more small => exact .succ (reaches.trans (more.left _)) (ih r)

theorem iterates_iff (selfc : pg.SelfContained) :
    Iterates pg sc og k t ↔ Reduces pg t (.iterate (.free sc) (.free og) k) :=
  ⟨Iterates.reduces, fun reduces => (reduces.standard selfc).iterates⟩

namespace Iterates

section Values

variable (noSuc : pg sc = none) (noOrg : pg og = none)

include noSuc noOrg

theorem ends (iterates : Iterates pg sc og k t) : ∃ sts v, HeadSteps pg sts t v ∧ Final pg v := by
  cases iterates with
  | zero reaches => exact ⟨_, _, reaches, final_free noOrg⟩
  | succ reaches rest =>
    exact ⟨_, _, reaches, (final_free noSuc).app (by simp) _⟩

theorem steps (iterates : Iterates pg sc og k t)
    (reaches : HeadSteps pg taken t reduced) : Iterates pg sc og k reduced := by
  cases iterates with
  | zero further => exact .zero (further.final reaches (final_free noOrg)).2
  | succ further rest =>
    exact .succ (further.final reaches ((final_free noSuc).app (by simp) _)).2 rest

theorem of_variable (undefined : pg a = none)
    (iterates : Iterates pg sc og k ((Nameless.free a).apply args)) :
    (k = 0 ∧ a = og ∧ args = []) ∨ ∃ less inn, k = less + 1 ∧ a = sc ∧ args = [inn] ∧
        Iterates pg sc og less inn := by
  have ends := (final_free undefined).apply (by simp) args
  cases iterates with
  | zero reaches =>
    obtain ⟨rfl, rfl⟩ := Nameless.apply_eq_free (ends.eq_of_steps reaches).symm
    simp
  | succ reaches rest =>
    obtain ⟨rfl, rfl⟩ := Nameless.apply_eq_app (ends.eq_of_steps reaches).symm
    simp_all

/-- What stands for a number stands for none when it is applied, and for no other one. -/
theorem of_apply (apart : sc ≠ og) (iterates : Iterates pg sc og k t) {o : Nat}
    (applied : Iterates pg sc og o (t.apply args)) : args = [] ∧ o = k := by
  induction iterates generalizing o args with
  | zero reaches =>
    have reduced := applied.steps noSuc noOrg (reaches.apply args)
    rcases reduced.of_variable noSuc noOrg noOrg with
      ⟨rfl, _, rfl⟩ | ⟨_, _, _, same, _⟩
    · exact ⟨rfl, rfl⟩
    simp_all
  | @succ _ _ _ inn reaches rest ih =>
    have reduced : Iterates pg sc og o
        ((Nameless.free sc).apply (inn :: args)) := applied.steps noSuc noOrg (reaches.apply args)
    rcases reduced.of_variable noSuc noOrg noSuc with
      ⟨_, _, impossible⟩ | ⟨less, again, rfl, _, same, within⟩
    · cases impossible
    · cases same
      have unapplied : Iterates pg sc og less (inn.apply []) := within
      grind

theorem unique (apart : sc ≠ og) (iterates : Iterates pg sc og k t) {o : Nat}
    (again : Iterates pg sc og o t) : o = k := by
  have unapplied : Iterates pg sc og o (t.apply []) := again
  exact (iterates.of_apply noSuc noOrg apart unapplied).2

theorem head_ne_missing (iterates : Iterates pg sc og k t)
    (reaches : HeadSteps pg taken t reduced) (x : Name) : reduced.head ≠ .missing x := by
  intro missing
  have stuck : Final pg reduced := final_of_missing missing
  cases iterates.steps noSuc noOrg reaches with
  | zero further =>
    rw [← stuck.eq_of_steps further] at missing
    cases missing
  | succ further rest =>
    rw [← stuck.eq_of_steps further] at missing
    cases missing

/-- What is applied to find a number has a value. -/
theorem front {f : Nameless} (iterates : Iterates pg sc og k (f.apply args)) :
    ∃ sts ending, HeadSteps pg sts f ending ∧ Final pg ending ∧
      (∀ x, ending.head ≠ .missing x) ∧ Iterates pg sc og k (ending.apply args) := by
  have ends : ¬ Diverges pg f := by
    intro diverges
    obtain ⟨_, _, reaches, fi⟩ := iterates.ends noSuc noOrg
    exact (diverges.apply args).not_final reaches fi
  obtain ⟨sts, ending, reaches, fi⟩ := ends_of_not_diverges ends
  refine ⟨sts, ending, reaches, fi, fun x => ?_, iterates.steps noSuc noOrg (reaches.apply args)⟩
  rw [← ending.head_apply args]
  exact iterates.head_ne_missing noSuc noOrg (reaches.apply args) x

end Values

/-- The variables that a term is applied to do not matter, if it has none of its own. -/
theorem rename (selfc : pg.SelfContained) {f : Nameless} (closed : f.ClosedAt 0)
    (known : ∀ a, f.Occurs a → (pg a).isSome) (noSuc : pg sc = none) (noOrg : pg og = none)
    (apart : sc ≠ og) (fst snd : Address)
    (iterates : Iterates pg sc og k (.app (.app f (.free sc)) (.free og))) :
    Iterates pg fst snd k (.app (.app f (.free fst)) (.free snd)) := by
  have closes : ∀ {a}, pg a = none → f.close a 0 = f := by
    intro a undefined
    refine Nameless.close_of_closedAt closed (Nat.le_refl 0) fun occurs => ?_
    grind
  have instantiates : ∀ repl, f.instantiate 0 repl = f :=
    fun repl => Nameless.instantiate_of_closedAt closed (Nat.le_refl 0) repl
  rw [iterates_iff selfc] at iterates ⊢
  -- Both variables are made bound ones, and then others are put in their place.
  have bound := (iterates.close selfc noOrg 0).close selfc noSuc 0
  have renamed := (bound.instantiate selfc 0 (.free fst)).instantiate selfc 0 (.free snd)
  grind [Nameless.close_iterate, Nameless.instantiate_iterate, Nameless.close, Nameless.instantiate]

end Iterates

end CallByNeed
