import CallByNeed.Machine.Run

/-!
# Church numerals

The numeral of `n` is the abstraction `(s, z) => s (… (s z))` with `n`
applications of `s`.  `number` finds the number that a value stands for: it is
applied to the host's successor and zero, which count.
-/

namespace CallByNeed

/-- The numeral of a natural number, with names for the successor and zero. -/
def numeral (number : Nat) (successor zero : Name) : Term :=
  .lambdas [successor, zero] (Nat.repeat (Term.app (.var successor)) number (.var zero))

/-- The natural number that a datum is. -/
def Datum.natural? : Datum → Option Nat
  | .int value => if value < 0 then none else some value.toNat
  | _ => none

def successorName : Name := "succ"

/-- Adds one to an integer.  Anything else spoils the count. -/
def increment (value : Value) : Value :=
  match value.form with
  | .constant datum =>
    match datum.int? with
    | some number => .given (.constant (.int (number + 1)))
    | none => .given (.constant .nothing)
  | _ => .given (.constant .nothing)

/-- The host that counts: its one primitive is the successor. -/
def countingHost : Host := fun name value =>
  if name = successorName then .ok (increment value)
  else .error (.evaluation (.unbound name) [])

def Value.integer? (value : Value) : Option Datum :=
  match value.form with
  | .constant datum => if datum.int?.isSome then some datum else none
  | _ => none

/-- The value applied to the host's successor and zero. -/
def count (settings : Settings) (fuel : Nat) (value : Value) : Eval Value := do
  let engine ← get
  let (counter, store) :=
    engine.store.alloc (.evaluated (.given (.primitive successorName)) none)
  let (start, store) := store.alloc (.evaluated (.given (.constant (.int 0))) none)
  set { engine with store }
  apply settings fuel value [some counter, some start]

/-- The number that a value stands for, if it stands for one.  A value that
applies the zero, or that counts to something else, stands for none. -/
def number (settings : Settings) (fuel : Nat) (value : Value) : Eval (Option Datum) :=
  fun engine =>
    match count settings fuel value engine with
    | (.ok result, engine) => (.ok result.integer?, engine)
    | (.error (.raised (.evaluation (.notAFunction _) _)), engine) => (.ok none, engine)
    | (.error stop, engine) => (.error stop, engine)

end CallByNeed
