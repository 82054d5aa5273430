import CallByNeed.Files.Discovery
import CallByNeed.Machine.ReadBack
import CallByNeed.Module.Link
import CallByNeed.Numeral

/-!
# Sessions

A session loads files with all that they import, links them and evaluates
what is asked for.  It also has a module of its own for the imports and
bindings that are typed into the shell.  All requests share one engine, so
what one of them evaluates the next ones find evaluated.
-/

namespace CallByNeed

open Files Source Text

structure Session where
  console : Console
  places : Places
  sources : Sources
  settings : Settings
  engine : Engine
  numerals : Bool
  modules : Modules
  main : Option String
  shell : Module
  results : List String

def shellId : String := "<in>"

/-- The binding that is evaluated when none is named. -/
def defaultBinding : Name := "Main"

/-- The bound on the steps of an evaluation when none is given. -/
def defaultLimit : Int := 1000000

/-- What a session is started with. -/
structure SessionOptions where
  places : Places
  limit : Limit
  numerals : Bool
  trace : Bool
  fatal : Bool
  colours : Style

/-- A session before its first request. -/
def Session.start (options : SessionOptions) : Session :=
  let console := Console.fresh options.fatal options.trace options.colours
  let (shell, store) := Module.create shellId none .empty
  { console := console.clear shellId
    places := options.places
    sources := []
    settings := ⟨countingHost, options.limit⟩
    engine := .fresh store
    numerals := options.numerals
    modules := []
    main := none
    shell
    results := [] }

/-- An action of a session.  What it changed stays changed when it fails. -/
abbrev Act := ExceptT Failure (StateM Session)

namespace Session

def onConsole (change : Console → Console) : Act Unit :=
  modify fun session => { session with console := change session.console }

/-- Changes what stands at a path. -/
def changeFile (path : String) (change : Tree → String → Except TreeFault Tree) :
    Act Unit := do
  let places ← (← get).places.change path change
  modify fun session => { session with places }

def warn (notice : Notice) : Act Unit := fun session =>
  let (result, console) := session.console.warn notice
  (result, { session with console })

def reading {α : Type} (action : Reading α) : Act α := fun session =>
  let (result, shelf) := action ⟨session.sources, session.console⟩
  (result, { session with sources := shelf.sources, console := shelf.console })

def showEvents (console : Console) (events : Array Event) : Console :=
  events.foldl (fun console event => console.showStep event.kind.word event.label) console

/-- A request to the engine.  Its events are printed. -/
def request {α : Type} (action : Settings → Eval α) : Act α := fun session =>
  let (result, engine) := action session.settings session.engine
  let console := showEvents session.console engine.events
  (result.mapError Stop.failure,
    { session with console, engine := { engine with events := #[] } })

/-- The warning about a binding that uses names which its module lacks. -/
def unboundNotice (linked : Module) (name : Name) (missing : List Name) : Notice :=
  { template := "'\x7b\x7d' in '\x7b\x7d' uses unbound '\x7b\x7d'"
    subjects := [name, linked.id, String.intercalate ", " missing]
    diagnosis := false }

/-- Adds a module that was linked, with warnings about its names. -/
def addModule (linked : Module) : Act Unit := do
  modify fun session => { session with modules := session.modules.insert linked }
  let session ← get
  for (name, missing) in linked.unboundNames session.engine.store do
    warn (unboundNotice linked name missing)

/-- Loads the module with an id and all that it imports, and links what is not
linked yet. -/
def loadModule (fuel : Nat) (id : String) : Act Module := do
  let session ← get
  let sources ← reading (collect session.places fuel id)
  let session ← get
  match resolve sources session.modules session.engine.store with
  | .error error => throw error.failure
  | .ok (added, store) =>
    set { session with engine := { session.engine with store } }
    for linked in added do
      addModule linked
    let session ← get
    match session.modules.find id with
    | some linked => pure linked
    | none => throw (.notLinked id)

def load (fuel : Nat) (path : String) : Act Module := do
  let session ← get
  let id ← session.places.rootId path
  let linked ← loadModule fuel id
  modify fun session => { session with main := some linked.id }
  pure linked

def main? (session : Session) : Option Module :=
  session.main.bind session.modules.find

def lookup (linked : Module) (name : Name) : Act Address := do
  let session ← get
  match session.engine.store.find name linked.env with
  | some address => pure address
  | none => throw (.evaluation (.unbound name) [])

/-- The value of a binding of a module: of the given one, else of the main
module, else of the shell's. -/
def evaluate (fuel : Nat) (name : Name) (linked : Option Module) : Act Value := do
  let session ← get
  let address ← lookup ((linked.or session.main?).getD session.shell) name
  request fun settings => force settings fuel (some address)

/-- The warning about a value whose normal form was not reached. -/
def noNormalForm (value : Value) (limit : Int) : Notice :=
  { template := "'\x7b\x7d' has no normal form within \x7b\x7d steps"
    subjects := [value.text, toString limit]
    diagnosis := false }

/-- A number in digits, unless it has too many. -/
def digits : Option Datum → Except Failure (Option String)
  | none => .ok none
  | some number => if number.isWritable then .ok number.shown else .error .unwritable

/-- The number that a value stands for, when numerals are printed as
numbers. -/
def numberText (fuel : Nat) (value : Value) : Act (Option String) := do
  let session ← get
  if session.numerals then
    let found ← request fun settings => number settings fuel value
    digits found
  else pure none

/-- A number, or the normal form of a value. -/
def showReduced (fuel : Nat) (value : Value) : Act String := do
  match ← numberText fuel value with
  | some text => pure text
  | none =>
    let term ← request fun settings => normalize settings fuel value
    pure term.display

/-- The printed form of a value.  A value whose normal form is not reached
within the bound on steps is printed unreduced, after a warning. -/
def render (fuel : Nat) (value : Value) : Act String := fun session =>
  match showReduced fuel value session with
  | (.error (.evaluation (.stepLimit limit) _), session) =>
    (do warn (noNormalForm value limit); pure value.text : Act String) session
  | outcome => outcome

def printBinding (fuel : Nat) (name : Name) : Act Unit := do
  let value ← evaluate fuel name none
  let text ← render fuel value
  onConsole (·.print (name ++ " = " ++ text))

/-- Reports an error of an evaluation without ending the program. -/
def reportEvaluation (error : EvalError) (trace : List String) : Act Unit :=
  fun session =>
    let (result, console) := session.console.throw error.notice trace false
    (result, { session with console })

/-- Evaluates and prints one binding of the main module.  An error of the
evaluation is reported and goes no further; the result says whether there was
none. -/
def runBinding (fuel : Nat) (linked : Module) (name : Name) : Act Bool := do
  let number := match linked.declaration? name with
    | some declaration => LineNumber.known declaration.line
    | none => .unknown
  onConsole (·.register linked.id ⟨some name, number⟩)
  fun session =>
    match printBinding fuel name session with
    | (.error (.evaluation error trace), session) =>
      (do reportEvaluation error trace; pure false : Act Bool) session
    | (.error failure, session) => (.error failure, session)
    | (.ok (), session) =>
      (do onConsole (·.clear linked.id); pure true : Act Bool) session

def runBindings (fuel : Nat) (linked : Module) : List Name → Act Bool
  | [] => pure true
  | name :: names => do
      let first ← runBinding fuel linked name
      let others ← runBindings fuel linked names
      pure (first && others)

/-- Evaluates and prints bindings of the main module, `Main` if none is named.
The result says whether all of them were printed. -/
def run (fuel : Nat) (names : List Name) : Act Bool := do
  let session ← get
  match session.main? with
  | none => throw .noMain
  | some linked =>
    runBindings fuel linked (if names.isEmpty then [defaultBinding] else names)

def addImport (fuel : Nat) (statement : Import) : Act Unit := do
  let session ← get
  let id ← session.places.locate statement.source none
  let exporter ← loadModule fuel id
  let session ← get
  match session.shell.importFrom exporter statement.items session.engine.store with
  | .error error => throw error.failure
  | .ok store => set { session with engine := { session.engine with store } }

def addBinding (binding : Binding) : Act Unit := do
  let session ← get
  match session.shell.define binding session.engine.store with
  | .error error => throw error.failure
  | .ok (_, shell, store) =>
    set { session with shell, engine := { session.engine with store } }

/-- Evaluates an expression and adds its printed form to the results. -/
def addExpression (fuel : Nat) (term : Term) : Act Unit := do
  let session ← get
  let value ← request fun settings =>
    CallByNeed.evaluate settings fuel term session.shell.env
  let text ← render fuel value
  modify fun session => { session with results := session.results ++ [text] }

/-- Adds an entry that was typed into the shell. -/
def add (fuel : Nat) (line : String) (number : LineNumber) : Act Unit := do
  onConsole (·.register shellId ⟨some line, number⟩)
  match parseEntry line with
  | .error fault => throw (.parse fault)
  | .ok (.imports statement) => addImport fuel statement
  | .ok (.binds binding) => addBinding binding
  | .ok (.expression term) => addExpression fuel term
  onConsole (·.clear shellId)

def pop : Act String := do
  let session ← get
  match session.results with
  | [] => throw .noResults
  | result :: results =>
    set { session with results }
    pure result

/-- Runs an action as a guarded block: an error of the language is reported and
gives no result. -/
def guarded {α : Type} (action : Act α) : Act (Option α) := fun session =>
  match action session with
  | (.ok value, session) => (.ok (some value), session)
  | (.error failure, session) =>
    match session.console.leave (some failure) with
    | (.escaped failure, console) => (.error failure, { session with console })
    | (_, console) => (.ok none, { session with console })

end Session

end CallByNeed
