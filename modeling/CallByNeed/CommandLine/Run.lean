import CallByNeed.CommandLine.Options
import CallByNeed.Shell

/-!
# Runs of the program

The program loads a file and prints bindings of it, or runs the shell when no
file is named.  All that it does is a function of its arguments, of the files
and of its input.
-/

namespace CallByNeed.CommandLine

open Files Text

/-- What the program finds around it. -/
structure World where
  tree : Tree
  /-- The directory of the bundled library. -/
  library : String
  working : String
  input : List String
  colours : Style

inductive Ending where
  | status (code : Int)
  /-- An error that is not one of the language ends it. -/
  | failure (failure : Failure)
deriving DecidableEq, Repr

/-- What a run of the program does. -/
structure Outcome where
  ending : Ending
  output : String
  errors : String
deriving DecidableEq, Repr

def programName : String := "lc"

def usage : String :=
  "usage: lc [-h] [-I INCLUDE] [--max-steps MAX_STEPS] [-n] [--trace] [--check]\n"
    ++ "          [file] [bindings ...]\n"

def refusal (error : UsageError) : Outcome :=
  match error with
  | .helpWanted => ⟨.status 0, usage, ""⟩
  | error => ⟨.status 2, "", usage ++ programName ++ ": error: " ++ error.text ++ "\n"⟩

/-- The session that options ask for. -/
def session (world : World) (options : Options) : Session :=
  .start
    { places :=
        { tree := world.tree
          library := world.library
          working := world.working
          further := options.directories.filterMap (·.map (absolute world.working)) }
      limit := options.maxSteps
      numerals := options.numerals
      trace := options.trace
      fatal := true
      colours := world.colours }

/-- Loads a file, and prints how many names it has or its bindings. -/
def runFile (fuel : Nat) (options : Options) (file : String) : Act Int := do
  let linked ← Session.load fuel file
  if options.check then
    let session ← get
    let count := (linked.names session.engine.store).length
    Session.onConsole (·.print (file ++ ": " ++ toString count ++ " names"))
    pure 0
  else
    let printed ← Session.run fuel options.bindings
    pure (if printed then 0 else 1)

/-- Runs the shell.  Its errors do not end the program. -/
def runShell (fuel : Nat) (input : List String) : Act Int := fun session =>
  let session := { session with console := { session.console with fatal := false } }
  let (result, shell) := Shell.dialogue fuel input (Shell.start session)
  (result.map fun () => 0, shell.session)

def program (fuel : Nat) (world : World) (options : Options) : Act Int := do
  if options.directories.contains none then throw .noDirectory
  match options.file with
  | none => runShell fuel world.input
  | some file => runFile fuel options file

/-- How the program ends after the guarded block around all it does. -/
def ending : Except Failure (Option Int) → Ending
  | .ok (some code) => .status code
  | .ok none => .status 0
  | .error (.exit code) => .status code
  | .error failure => .failure failure

def run (fuel : Nat) (world : World) (arguments : List String) : Outcome :=
  match parse (some defaultLimit) arguments with
  | .error error => refusal error
  | .ok options =>
    let (result, session) :=
      Session.guarded (program fuel world options) (session world options)
    ⟨ending result, session.console.printed, ""⟩

end CallByNeed.CommandLine
