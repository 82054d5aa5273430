import CallByNeed.Machine.Run

/-!
# Reading values back

`normalize` turns a value into a term in normal form.  A closure is applied to
a variable with a fresh name and its result is read back under a binder of
that name; a neutral value is read back with its arguments, each of them
forced first.  The work is kept in a list of tasks and the terms that are
finished on a stack, so that the depth of a term needs no recursion.
-/

namespace CallByNeed

/-- What is left to do. -/
inductive Task where
  /-- Read a value back under binders of these names. -/
  | quote (value : Value) (used : List Name)
  /-- Force a thunk, and read its value back. -/
  | quoteThunk (thunk : Option Address) (used : List Name)
  /-- Put the last term under a binder. -/
  | bind (name : Name)
  /-- Apply a variable to the last terms. -/
  | combine (name : Name) (count : Nat)
deriving Repr

/-- The value of a closure's body for a variable without a value. -/
def openClosure (settings : Settings) (fuel : Nat) (parameter : Name) (body : Term)
    (env : Env) (name : Name) : Eval Value := do
  let engine ← get
  let (value, store) := engine.store.build (.neutral name [])
  let (address, store) := store.alloc (.evaluated value none)
  set { engine with store }
  evaluate settings fuel body (.layer parameter (some address) env)

/-- The tasks that a value leads to, or the term that it is. -/
def quote (settings : Settings) (fuel : Nat) (value : Value) (used : List Name) :
    Eval (List Task × List Term) :=
  match value.form with
  | .closure parameter body env => do
      let name := freshName parameter used
      let result ← openClosure settings fuel parameter body env name
      pure ([.quote result (used ++ [name]), .bind name], [])
  | .neutral name arguments =>
    pure (arguments.map (.quoteThunk · used) ++ [.combine name arguments.length], [])
  | .constant datum =>
    if datum.isWritable then pure ([], [.var datum.written])
    else throw (.raised .unwritable)
  | .primitive name => pure ([], [.var name])
  | .absent => throw (.raised .noThunk)

/-- Does one task: the tasks that it leads to, and the terms after it. -/
def Task.perform (settings : Settings) (fuel : Nat) (terms : List Term) :
    Task → Eval (List Task × List Term)
  | .quote value used => do
      let (tasks, built) ← CallByNeed.quote settings fuel value used
      pure (tasks, built ++ terms)
  | .quoteThunk thunk used => do
      let value ← force settings fuel thunk
      let (tasks, built) ← CallByNeed.quote settings fuel value used
      pure (tasks, built ++ terms)
  | .bind name =>
    match terms with
    | body :: terms => pure ([], .lam name body :: terms)
    | [] => throw (.raised .noTerm)
  | .combine name count =>
    if terms.length < count then throw (.raised .noTerm)
    else
      pure ([], (Term.var name).apply (terms.take count).reverse :: terms.drop count)

/-- Counts the start of a task, against a bound that counts from `start`. -/
def countTask (settings : Settings) (start : Nat) : Eval Unit := do
  modify Engine.countStep
  let engine ← get
  if settings.limit.exceeded (engine.tally.steps - start) then
    throw (.raised (.evaluation (.stepLimit settings.limit.bound) []))

/-- Does all tasks, the first one first. -/
def performAll (settings : Settings) (start : Nat) :
    (fuel : Nat) → List Task → List Term → Engine → Except Stop Term × Engine
  | _, [], term :: _, engine => (.ok term, engine)
  | _, [], [], engine => (.error (.raised .noTerm), engine)
  | 0, _ :: _, _, engine => (.error .outOfFuel, engine)
  | fuel + 1, task :: tasks, terms, engine =>
    match countTask settings start engine with
    | (.error stop, engine) => (.error stop, engine)
    | (.ok (), engine) =>
      match task.perform settings fuel terms engine with
      | (.error stop, engine) => (.error stop, engine)
      | (.ok (added, terms), engine) =>
        performAll settings start fuel (added ++ tasks) terms engine

/-- The normal form of a value.  The bound on transitions counts those of all
evaluations and one for each task. -/
def normalize (settings : Settings) (fuel : Nat) (value : Value) : Eval Term :=
  fun engine =>
    performAll settings engine.tally.steps fuel [.quote value []] [] engine

end CallByNeed
