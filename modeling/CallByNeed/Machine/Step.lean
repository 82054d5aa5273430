import CallByNeed.Machine.Store

/-!
# Transitions of the machine

The machine evaluates a term in an environment, or returns a value to the top
frame of its stack.  A thunk is marked when its evaluation begins, and its
value is kept when the frame that waits for it is reached, so it is evaluated
at most once and a thunk that needs its own value is found out.
-/

namespace CallByNeed

inductive EvalError where
  /-- The name is bound nowhere. -/
  | unbound (name : Name)
  /-- The value, as messages show it, was applied. -/
  | notAFunction (value : String)
  /-- The thunk with this label needs its own value. -/
  | cyclic (label : String)
  | stepLimit (limit : Int)
deriving DecidableEq, Repr

/-- What stops a run before it has a value. -/
inductive Raised where
  /-- An error of the evaluation, with the labels of the thunks that were being
  evaluated, outermost first. -/
  | evaluation (error : EvalError) (trace : List String)
  /-- A thunk was wanted where there is none. -/
  | noThunk
  /-- A term was wanted and none was built. -/
  | noTerm
  /-- A message was to show a number that has too many digits. -/
  | unwritable
deriving DecidableEq, Repr

/-- The functions behind the primitives. -/
abbrev Host := Name → Value → Except Raised Value

/-- The two things that observers are told about a thunk with a name. -/
inductive EventKind where
  | force
  | value
deriving DecidableEq, Repr

def EventKind.word : EventKind → String
  | .force => "force"
  | .value => "value"

/-- The evaluation of a named thunk began, or its value was kept. -/
structure Event where
  kind : EventKind
  label : Name
deriving DecidableEq, Repr

/-- Totals over all runs: transitions, thunks whose evaluation began, and uses
of a value that was kept. -/
structure Tally where
  steps : Nat := 0
  evaluations : Nat := 0
  hits : Nat := 0
deriving DecidableEq, Repr, Inhabited

/-- What lasts from one run to the next. -/
structure Engine where
  store : Store
  tally : Tally
  events : Array Event
deriving Repr, Inhabited

def Engine.fresh (store : Store) : Engine := ⟨store, {}, #[]⟩

/-- A frame of the stack: what is done with the value that comes back. -/
inductive Frame where
  /-- It is a function, applied to this thunk. -/
  | argument (thunk : Option Address)
  /-- It is the value of this thunk. -/
  | update (thunk : Address)
  /-- It is the argument of this primitive. -/
  | call (primitive : Name)
deriving DecidableEq, Repr

/-- A state of the machine.  Without a term in focus, `value` is returned to
the first frame; a term in focus leaves `value` as it is. -/
structure State where
  focus : Option (Term × Env)
  value : Value
  stack : List Frame
  engine : Engine
deriving Repr

/-- What one transition leads to. -/
inductive Transition where
  | moved (state : State)
  | returned (value : Value) (engine : Engine)
  | raised (error : Raised) (state : State)

namespace Engine

def countStep (engine : Engine) : Engine :=
  { engine with tally := { engine.tally with steps := engine.tally.steps + 1 } }

def countHit (engine : Engine) : Engine :=
  { engine with tally := { engine.tally with hits := engine.tally.hits + 1 } }

def notify (engine : Engine) (kind : EventKind) (name : Option Name) : Engine :=
  match name with
  | some label => { engine with events := engine.events.push ⟨kind, label⟩ }
  | none => engine

def update (engine : Engine) (address : Address) (change : Thunk → Thunk) : Engine :=
  { engine with store := engine.store.update address change }

/-- Marks the start of the evaluation of a thunk. -/
def begin (engine : Engine) (address : Address) (name : Option Name) : Engine :=
  let tally := { engine.tally with evaluations := engine.tally.evaluations + 1 }
  ({ engine with tally }.update address Thunk.begin).notify .force name

def memoize (engine : Engine) (address : Address) (value : Value) : Engine :=
  let name := (engine.store.thunk? address).bind Thunk.name
  (engine.update address (·.memoize value)).notify .value name

end Engine

namespace State

def enter (state : State) (address : Address) (thunk : Thunk) : Transition :=
  if thunk.phase = .forcing then
    .raised (if thunk.isWritable then .evaluation (.cyclic thunk.label) []
      else .unwritable) state
  else
    .moved { state with
      focus := thunk.code?
      stack := .update address :: state.stack
      engine := state.engine.begin address thunk.name }

def answer (state : State) (value : Value) : State :=
  { state with focus := none, value }

def construct (state : State) (form : Form) : State :=
  let (value, store) := state.engine.store.build form
  { state with focus := none, value, engine := { state.engine with store } }

def evaluate (state : State) (env : Env) : Term → Transition
  | .var name =>
    match state.engine.store.find name env with
    | none => .raised (.evaluation (.unbound name) []) state
    | some address =>
      match state.engine.store.thunk? address with
      | none => .raised .noThunk state
      | some thunk =>
        if thunk.phase = .forced then
          .moved { state.answer thunk.value with engine := state.engine.countHit }
        else state.enter address thunk
  | .lam parameter body => .moved (state.construct (.closure parameter body env))
  | .app function argument =>
    let (address, store) := state.engine.store.delay argument env
    .moved { state with
      focus := some (function, env)
      stack := .argument address :: state.stack
      engine := { state.engine with store } }

/-- Applies the value of a state to a thunk. -/
def applyTo (state : State) (argument : Option Address) : Transition :=
  match state.value.form with
  | .closure parameter body env =>
    .moved { state with focus := some (body, .layer parameter argument env) }
  | .neutral name arguments =>
    .moved (state.construct (.neutral name (arguments ++ [argument])))
  | .primitive name =>
    let state := { state with stack := .call name :: state.stack }
    match argument with
    | none => .raised .noThunk state
    | some address =>
      match state.engine.store.thunk? address with
      | none => .raised .noThunk state
      | some thunk =>
        if thunk.phase = .forced then .moved (state.answer thunk.value)
        else state.enter address thunk
  | _ =>
    .raised (if state.value.isWritable then .evaluation (.notAFunction state.value.text) []
      else .unwritable) state

def step (host : Host) (state : State) : Transition :=
  match state.focus with
  | some (term, env) => state.evaluate env term
  | none =>
    match state.stack with
    | [] => .returned state.value state.engine
    | .update address :: stack =>
      .moved { state with
        stack, engine := state.engine.memoize address state.value }
    | .argument thunk :: stack => { state with stack }.applyTo thunk
    | .call primitive :: stack =>
      match host primitive state.value with
      | .ok value => .moved { state.answer value with stack }
      | .error error => .raised error { state with stack }

end State

end CallByNeed
