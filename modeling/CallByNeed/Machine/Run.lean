import CallByNeed.Machine.Step

/-!
# Runs of the machine

A run takes transitions until a value is returned to the empty stack.  When it
fails, the thunks whose evaluation it had begun are put back as they were,
unless the trace of the failure cannot be shown.
The bound on the number of transitions is part of the language; fuel is what
makes the definition total, and a run that uses it up has no outcome.
-/

namespace CallByNeed

/-- A bound on the number of transitions of a run.  Zero is no bound, and a
negative one is reached by the first transition. -/
abbrev Limit := Option Int

def Limit.exceeded (limit : Limit) (steps : Nat) : Bool :=
  match limit with
  | none => false
  | some bound => bound ≠ 0 && bound < steps

/-- The bound that a limit stands for in messages. -/
def Limit.bound (limit : Limit) : Int :=
  limit.getD 0

structure Settings where
  host : Host
  limit : Limit

/-- Why a request ends without a value. -/
inductive Stop where
  | raised (error : Raised)
  | outOfFuel
deriving DecidableEq, Repr

/-- A request to the engine: it changes the engine also when it fails. -/
abbrev Eval := ExceptT Stop (StateM Engine)

namespace Frame

/-- The thunk that a frame waits to update. -/
def updated? : Frame → Option Address
  | .update address => some address
  | _ => none

end Frame

namespace State

/-- The thunks whose evaluation has begun, outermost first. -/
def pending (state : State) : List Address :=
  (state.stack.filterMap Frame.updated?).reverse

/-- The labels of the thunks whose evaluation has begun, outermost first. -/
def trace (state : State) : List String :=
  state.pending.filterMap fun address =>
    (state.engine.store.thunk? address).map Thunk.label

/-- Puts back the thunks whose evaluation has begun. -/
def unwind (state : State) : Engine :=
  state.pending.foldl (fun engine address => engine.update address Thunk.reset) state.engine

end State

def State.isTraceable (state : State) : Bool :=
  state.pending.all fun address =>
    (state.engine.store.thunk? address).all Thunk.isWritable

/-- Ends a run with an error.  An error of the evaluation that has no trace yet
is given one; if a label in it cannot be shown, that is the error, and the
thunks stay as they are. -/
def State.abandon (state : State) (error : Raised) : Except Stop Value × Engine :=
  match error with
  | .evaluation cause [] =>
    if state.isTraceable then
      (.error (.raised (.evaluation cause state.trace)), state.unwind)
    else (.error (.raised .unwritable), state.engine)
  | error => (.error (.raised error), state.unwind)

/-- Takes transitions until the run ends; `taken` of them were taken before. -/
def run (settings : Settings) : (fuel taken : Nat) → State → Except Stop Value × Engine
  | 0, _, state => (.error .outOfFuel, state.engine)
  | fuel + 1, taken, state =>
    let state := { state with engine := state.engine.countStep }
    if settings.limit.exceeded (taken + 1) then
      state.abandon (.evaluation (.stepLimit settings.limit.bound) [])
    else
      match state.step settings.host with
      | .moved state => run settings fuel (taken + 1) state
      | .returned value engine => (.ok value, engine)
      | .raised error state => state.abandon error

def evaluate (settings : Settings) (fuel : Nat) (term : Term) (env : Env) : Eval Value :=
  fun engine => run settings fuel 0 ⟨some (term, env), Value.absent, [], engine⟩

def force (settings : Settings) (fuel : Nat) (thunk : Option Address) : Eval Value :=
  fun engine =>
    match thunk with
    | none => (.error (.raised .noThunk), engine)
    | some address =>
      match engine.store.thunk? address with
      | none => (.error (.raised .noThunk), engine)
      | some thunk =>
        if thunk.phase = .forced then (.ok thunk.value, engine.countHit)
        else
          match (State.mk none Value.absent [] engine).enter address thunk with
          | .moved state => run settings fuel 0 state
          | .returned value engine => (.ok value, engine)
          | .raised error state => (.error (.raised error), state.engine)

/-- The value of a function applied to thunks, from left to right. -/
def apply (settings : Settings) (fuel : Nat) (function : Value)
    (arguments : List (Option Address)) : Eval Value :=
  fun engine => run settings fuel 0 ⟨none, function, arguments.map .argument, engine⟩

end CallByNeed
