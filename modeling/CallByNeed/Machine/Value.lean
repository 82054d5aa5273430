import CallByNeed.Datum
import CallByNeed.Term.Display

/-!
# Values, environments and thunks

Evaluation works on a store of thunks.  An environment binds names to
addresses of thunks: it is a chain of single bindings over a root, and a root
is one of the store's tables, so that all who share it see what is bound
there later.  A place for an address can be empty, which leaves its name
unbound.
-/

namespace CallByNeed

abbrev Address := Nat

inductive Env where
  | root (table : Nat)
  /-- One binding in front of another environment. -/
  | layer (name : Name) (thunk : Option Address) (parent : Env)
deriving DecidableEq, Repr, Inhabited

/-- What a value is. -/
inductive Form where
  /-- An abstraction with the environment of its body. -/
  | closure (parameter : Name) (body : Term) (env : Env)
  /-- A variable without a value, applied to arguments. -/
  | neutral (name : Name) (arguments : List (Option Address))
  /-- A strict function of the host, called by its name. -/
  | primitive (name : Name)
  | constant (datum : Datum)
  /-- What a thunk yields that holds neither a term nor a value. -/
  | absent
deriving Repr, Inhabited

/-- What a term can evaluate to.  A value that was built has an identity of its
own, by which it is told from others of the same form; those that the host
always has share the identity zero. -/
structure Value where
  form : Form
  identity : Nat
deriving Repr, Inhabited

namespace Value

/-- A value that the host always has. -/
def given (form : Form) : Value := ⟨form, 0⟩

def absent : Value := .given .absent

def text (value : Value) : String :=
  match value.form with
  | .closure parameter body _ => "<closure " ++ (Term.lam parameter body).display ++ ">"
  | .neutral name arguments =>
    "<neutral " ++ name ++ "/" ++ toString arguments.length ++ ">"
  | .primitive name => "<primitive " ++ name ++ ">"
  | .constant datum => "<constant " ++ datum.written ++ ">"
  | .absent => "None"

def isWritable (value : Value) : Bool :=
  match value.form with
  | .constant datum => datum.isWritable
  | _ => true

/-- Whether two values are equal: constants by their data, other values if they
are one and the same.  Data with parts also equal themselves, whatever the
parts are. -/
def same (left right : Value) : Bool :=
  match left.form, right.form with
  | .constant datum, .constant other =>
    datum.same other || (datum.hasParts && left.identity == right.identity)
  | .constant _, _ => false
  | _, .constant _ => false
  | .absent, .absent => true
  | .absent, _ => false
  | _, .absent => false
  | _, _ => left.identity == right.identity

end Value

inductive Phase where
  | unforced
  /-- Its evaluation has begun and not ended. -/
  | forcing
  | forced
deriving DecidableEq, Repr, Inhabited

def Phase.word : Phase → String
  | .unforced => "unforced"
  | .forcing => "forcing"
  | .forced => "forced"

/-- What a thunk holds: a term to evaluate or the value it had. -/
inductive Content where
  | code (term : Term) (env : Env)
  | value (value : Value)
deriving Repr, Inhabited

/-- A computation that is run at most once. -/
structure Thunk where
  name : Option Name
  content : Content
  phase : Phase
deriving Repr, Inhabited

namespace Thunk

def suspended (term : Term) (env : Env) (name : Option Name) : Thunk :=
  ⟨name, .code term env, .unforced⟩

/-- A thunk that holds its value from the start. -/
def evaluated (value : Value) (name : Option Name) : Thunk :=
  ⟨name, .value value, .forced⟩

/-- The term of a thunk and its environment, until they are dropped. -/
def code? (thunk : Thunk) : Option (Term × Env) :=
  match thunk.content with
  | .code term env => some (term, env)
  | .value _ => none

def value (thunk : Thunk) : Value :=
  match thunk.content with
  | .code _ _ => Value.absent
  | .value value => value

def begin (thunk : Thunk) : Thunk :=
  { thunk with phase := .forcing }

/-- Keeps the value and drops the term. -/
def memoize (thunk : Thunk) (value : Value) : Thunk :=
  { thunk with content := .value value, phase := .forced }

/-- Takes back the start of an evaluation that was given up. -/
def reset (thunk : Thunk) : Thunk :=
  if thunk.phase = .forcing then { thunk with phase := .unforced } else thunk

/-- A text of at most sixty characters, the end of a longer one replaced. -/
def shortened (text : String) : String :=
  if text.length ≤ 60 then text
  else String.ofList (text.toList.take 57) ++ "..."

/-- A short description for traces. -/
def label (thunk : Thunk) : String :=
  match thunk.name with
  | some name => name
  | none =>
    match thunk.content with
    | .code term _ => shortened term.display
    | .value value => value.text

def isWritable (thunk : Thunk) : Bool :=
  match thunk.name, thunk.content with
  | none, .value value => value.isWritable
  | _, _ => true

def text (thunk : Thunk) : String :=
  "<thunk " ++ thunk.label ++ " (" ++ thunk.phase.word ++ ")>"

end Thunk

end CallByNeed
