import CallByNeed.Machine.Store
import CallByNeed.Numeral

/-!
# Checked operations

Operations for those who build terms, environments and values by hand.  They
refuse arguments of the wrong form.
-/

namespace CallByNeed

/-- An argument of the wrong form. -/
inductive Misuse where
  | noParameters
  | notAnAbstraction (term : Term)
  | notARoot
  | notNatural (datum : Datum)
deriving Repr

def Misuse.text : Misuse → String
  | .noParameters => "an abstraction needs at least one parameter"
  | .notAnAbstraction term => "expected an Abstraction, got " ++ term.formText
  | .notARoot => "only root environments can be bound into"
  | .notNatural datum => "expected natural number, got '" ++ datum.shown ++ "'"

/-- An abstraction over parameters, of which there has to be one. -/
def Term.lambdas? (parameters : List Name) (body : Term) : Except Misuse Term :=
  if parameters.isEmpty then .error .noParameters else .ok (.lambdas parameters body)

/-- Builds the closure of an abstraction. -/
def Store.closure? (store : Store) (term : Term) (env : Env) :
    Except Misuse (Value × Store) :=
  match term with
  | .lam parameter body => .ok (store.build (.closure parameter body env))
  | term => .error (.notAnAbstraction term)

/-- Binds a name in a root environment. -/
def Store.bindIn? (store : Store) (env : Env) (name : Name) (thunk : Option Address) :
    Except Misuse Store :=
  match env with
  | .root number => .ok (store.bind number name thunk)
  | .layer _ _ _ => .error .notARoot

def numeral? (datum : Datum) (successor zero : Name) : Except Misuse Term :=
  match datum.natural? with
  | some number => .ok (numeral number successor zero)
  | none => .error (.notNatural datum)

end CallByNeed
