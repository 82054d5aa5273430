import CallByNeed.Text.Quoted

/-!
# Terms of the lambda calculus

A term is a variable, an abstraction over one parameter or an application to
one argument.  Parameter lists and argument lists are sugar: `lambdas` and
`apply` remove it, `binders` and `spine` put it back.
-/

namespace CallByNeed

abbrev Name := String

inductive Term where
  | var (name : Name)
  | lam (parameter : Name) (body : Term)
  | app (function argument : Term)
deriving DecidableEq, Repr, Inhabited

namespace Term

/-- `(p₁, …, pₙ) => body`, one abstraction for each parameter. -/
def lambdas (parameters : List Name) (body : Term) : Term :=
  parameters.foldr lam body

/-- `function a₁ … aₙ`, associating to the left. -/
def apply (function : Term) (arguments : List Term) : Term :=
  arguments.foldl app function

/-- The parameters at the front of a term, and the body under them. -/
def binders : Term → List Name × Term
  | lam parameter body =>
    let (parameters, core) := body.binders
    (parameter :: parameters, core)
  | term => ([], term)

/-- The term at the head of an application, and its arguments in order. -/
def spine : Term → Term × List Term
  | app function argument =>
    let (head, arguments) := function.spine
    (head, arguments ++ [argument])
  | term => (term, [])

/-- The names that are used but not bound in a term, each one once. -/
def freeNames : Term → List Name
  | var name => [name]
  | lam parameter body => body.freeNames.filter (· ≠ parameter)
  | app function argument =>
    let left := function.freeNames
    left ++ argument.freeNames.filter (!left.contains ·)

/-- Names in the order of their characters' code points. -/
def sortNames (names : List Name) : List Name :=
  names.mergeSort fun left right => decide (left ≤ right)

/-- A term written with the names of its three forms and their parts. -/
def formText : Term → String
  | var name => "Variable(name=" ++ Text.quoted name ++ ")"
  | lam parameter body =>
    "Abstraction(parameter=" ++ Text.quoted parameter
      ++ ", body=" ++ body.formText ++ ")"
  | app function argument =>
    "Application(function=" ++ function.formText
      ++ ", argument=" ++ argument.formText ++ ")"

end Term

/-- A name that is not in use: the given one, with primes added as long as it
is.  Names that were tried are left out of those in use, since every later one
is longer. -/
def freshName (name : Name) (used : List Name) : Name :=
  if _taken : name ∈ used then freshName (name ++ "'") (used.erase name) else name
termination_by used.length
decreasing_by
  rw [List.length_erase_of_mem _taken]
  exact Nat.sub_lt (List.length_pos_of_mem _taken) Nat.one_pos

end CallByNeed
