import CallByNeed.Proofs.Requests

/-!
# Counting with a numeral

The numeral of `n` applies its first parameter `n` times to its second.  Given the host's
successor and zero, each application delays the next one, is demanded by the strict
successor and leaves an update and a call on the stack, until the zero is reached and the
stack is taken down again: five transitions for an application, whatever is below.
-/

namespace CallByNeed

/-- Two thunks that hold the host's successor and zero. -/
structure Store.Counts (s : Store) (counter start : Address) : Prop where
  counter : s.thunk? counter = some (.evaluated (.given (.primitive successorName)) none)
  start : s.thunk? start = some (.evaluated (.given (.constant (.int 0))) none)

/-- The names of a numeral's parameters, bound to the two thunks. -/
structure Env.Counts (env : Env) (successor zero : Name) (counter start : Address) : Prop where
  successor : ∀ s : Store, s.find successor env = some counter
  zero : ∀ s : Store, s.find zero env = some start

variable {host : Host} {s : Store} {env : Env} {counter start : Address}
  {successor zero : Name}

theorem Store.counts_withCounter (s : Store) : s.withCounter.Counts s.size (s.size + 1) where
  counter := by simp [Store.withCounter]
  start := by simp [Store.withCounter]

theorem Env.counts_layers (apart : successor ≠ zero) (env : Env) (counter start : Address) :
    (Env.layer zero (some start) (.layer successor (some counter) env)).Counts successor zero
      counter start where
  successor := by simp [Store.find, apart.symm]
  zero := by simp [Store.find]

namespace Store.Counts

variable (counts : s.Counts counter start)

include counts

theorem alloc (th : Thunk) : (s.alloc th).2.Counts counter start where
  counter := Store.thunk?_alloc_of_some counts.counter th
  start := Store.thunk?_alloc_of_some counts.start th

theorem begin (held : s.thunk? a = some th)
    (unforced : th.phase = .unforced) : (s.update a Thunk.begin).Counts counter start := by
  have os : ∀ {o th}, s.thunk? o = some th → th.phase = .forced → a ≠ o := by grind
  constructor
  · simp [os counts.counter rfl, counts.counter]
  · simp [os counts.start rfl, counts.start]

/-- The successor demands an argument that is an application. -/
theorem demands (binds : env.Counts successor zero counter start) (f arg : Term) (v : Value)
    (k : List Frame) :
    ∃ aft : Store, aft.Counts counter start ∧
      Moves host 3 ⟨some (.app (.var successor) (.app f arg), env), v, k, s⟩
        ⟨some (.app f arg, env), .given (.primitive successorName),
          .update s.size :: .call successorName :: k, aft⟩ := by
  let th := Thunk.suspended (.app f arg) env none
  have held : (s.alloc th).2.thunk? s.size = some th := by simp
  exact ⟨_, (counts.alloc th).begin held rfl,
    .step .postpone <| .step (.reuse (binds.successor _) (counts.alloc th).counter rfl) <|
    .step (.demand rfl held rfl) (.refl _)⟩

theorem moves (succeeds : host.Succeeds) (binds : env.Counts successor zero counter start) (k : Nat)
    (v : Value) (stk : List Frame) :
    ∃ taken aft, taken ≤ 5 * k + 1 ∧
      Moves host taken
        ⟨some (Nat.repeat (Term.app (.var successor)) k (.var zero), env), v, stk, s⟩
        ⟨none, .given (.constant (.int k)), stk, aft⟩ := by
  have counted : ∀ k : Nat, host successorName (.given (.constant (.int k))) =
      .ok (.given (.constant (.int (k + 1 : Nat)))) := fun _ => succeeds _
  induction k generalizing s v stk with
  | zero =>
    exact ⟨1, s, by omega, .step (.reuse (binds.zero s) counts.start rfl) (.refl _)⟩
  | succ k ih =>
    cases k with
    | zero =>
      -- The zero is a name, so that its own thunk is the argument.
      exact ⟨4, s, by omega,
        .step (.pass (binds.zero s)) <| .step (.reuse (binds.successor s) counts.counter rfl) <|
        .step (.supply rfl counts.start rfl) <| .step (.call (counted 0)) (.refl _)⟩
    | succ k =>
      obtain ⟨mid, later, demanded⟩ := counts.demands binds (.var successor)
        (Nat.repeat (Term.app (.var successor)) k (.var zero)) v stk
      obtain ⟨taken, aft, least, moves⟩ := ih later (.given (.primitive successorName))
        (.update s.size :: .call successorName :: stk)
      exact ⟨3 + (taken + 2), _, by omega, demanded.trans
        (moves.trans (.step .memoize (.step (.call (counted _)) (.refl _))))⟩

end Store.Counts

variable {cfg : Settings} {fuel k : Nat}

/-- A value that is a numeral's function counts, in five steps for an application and five
more. -/
theorem number_of_numeral (succeeds : cfg.host.Succeeds) (apart : successor ≠ zero)
    (allows : cfg.limit.exceeded (5 * k + 5) = false) (enough : 5 * k + 5 ≤ fuel)
    (form : v.form = .closure successor
      (.lam zero (Nat.repeat (Term.app (.var successor)) k (.var zero))) env) (e : Engine) :
    ∃ aft, number cfg fuel v e = (.ok (some (.int k)), aft) ∧
      aft.tally.steps ≤ e.tally.steps + (5 * k + 5) := by
  let counter := e.store.size
  let started : Engine := { e with store := e.store.withCounter }
  let inn : Form := .closure zero (Nat.repeat (Term.app (.var successor)) k (.var zero))
    (.layer successor (some counter) env)
  have counts : (started.store.build inn).2.Counts counter (counter + 1) :=
    ⟨(Store.counts_withCounter e.store).counter, (Store.counts_withCounter e.store).start⟩
  obtain ⟨taken, s, least, moves⟩ := counts.moves succeeds
    (Env.counts_layers apart env counter (counter + 1)) k (started.store.build inn).1 []
  obtain ⟨aft, ran, _, sts⟩ := run_of_moves_returned
    ⟨none, v, [.argument (some counter), .argument (some (counter + 1))], started⟩
    (.step (.bind form) (.step .close (.step (.bind rfl) moves)))
    (Limit.exceeded_mono (by omega) allows) (by omega : taken + 1 + 1 + 1 < fuel)
  have counted : CallByNeed.count cfg fuel v e = (.ok (.given (.constant (.int k))), aft) := by
    rw [count_eq]
    exact ran
  refine ⟨aft, number_of_ok cfg fuel counted, ?_⟩
  grind

/-- A numeral is evaluated to a value from which its number is found, after at most `5 n + 5`
steps: a bound that allows these steps is never reached. -/
theorem number_evaluate_numeral (succeeds : cfg.host.Succeeds) (apart : successor ≠ zero)
    (allows : cfg.limit.exceeded (5 * k + 5) = false) (enough : 5 * k + 5 ≤ fuel)
    (env : Env) (e : Engine) :
    ∃ v mid, evaluate cfg fuel (numeral k successor zero) env e = (.ok v, mid) ∧
      ∀ later : Engine, ∃ aft, number cfg fuel v later = (.ok (some (.int k)), aft) ∧
        aft.tally.steps ≤ later.tally.steps + (5 * k + 5) := by
  obtain ⟨mid, ran, _, _⟩ := run_of_moves_returned
    ⟨some (numeral k successor zero, env), Value.absent, [], e⟩ (.step .close (.refl _))
    (Limit.exceeded_mono (by omega) allows) (by omega : 1 < fuel)
  exact ⟨_, mid, ran, number_of_numeral succeeds apart allows enough rfl⟩

theorem number_evaluate_numeral_at_three :
    countingHost.Succeeds ∧ "s" ≠ "z" ∧ Limit.exceeded (some 20) 20 = false ∧
    ∃ v mid,
      evaluate ⟨countingHost, some 20⟩ 20 (numeral 3 "s" "z") (.root 0)
        (.fresh (Store.empty.addTable []).2) = (.ok v, mid) ∧
      ∀ later : Engine, ∃ aft,
        number ⟨countingHost, some 20⟩ 20 v later = (.ok (some (.int 3)), aft) ∧
        aft.tally.steps ≤ later.tally.steps + 20 :=
  ⟨fun _ => rfl, by decide, by decide,
    number_evaluate_numeral (fun _ => rfl) (by decide) (by decide) (by decide) _ _⟩

end CallByNeed
