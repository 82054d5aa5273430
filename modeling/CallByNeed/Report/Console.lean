import CallByNeed.Report.Failure

/-!
# The console

The console is what a session prints to.  It remembers for each file the line
that is being worked on, so that a report can say where an error came from.
A report of an error ends the program or, if errors are not fatal, forgets
these lines.
-/

namespace CallByNeed

open Text

/-- The number of a line, as far as it is known. -/
inductive LineNumber where
  | none
  /-- A word stands for the number. -/
  | word (text : String)
  | known (number : Int)
deriving DecidableEq, Repr

/-- The number of a line that nobody knows. -/
def LineNumber.unknown : LineNumber := .word "?"

def LineNumber.text : LineNumber → String
  | .none => "None"
  | .word text => text
  | .known number => toString number

/-- The line of a file that is being worked on, if there is one. -/
structure Mark where
  line : Option String
  number : LineNumber
deriving DecidableEq, Repr

def Mark.clear : Mark := ⟨none, .none⟩

/-- The files that are being worked on, outermost first. -/
abbrev Traceback := List (String × Mark)

/-- Sets the line of a file.  A file that is there already keeps its place. -/
def Traceback.register (traceback : Traceback) (path : String) (mark : Mark) : Traceback :=
  if (traceback.map Prod.fst).contains path then
    traceback.map fun entry => if entry.1 = path then (path, mark) else entry
  else traceback ++ [(path, mark)]

/-- A place to print to, with what reports depend on. -/
structure Console where
  fatal : Bool
  verbose : Bool
  colours : Style
  traceback : Traceback
  printed : String

/-- How a guarded block is left. -/
inductive Leaving where
  | ended
  /-- It failed, which was reported, and the program goes on. -/
  | suppressed
  /-- It failed, and what failed is passed on. -/
  | escaped (failure : Failure)
deriving DecidableEq, Repr

namespace Console

def fresh (fatal verbose : Bool) (colours : Style) : Console :=
  { fatal, verbose, colours, traceback := [], printed := "" }

def write (console : Console) (text : String) : Console :=
  { console with printed := console.printed ++ text }

def print (console : Console) (text : String) : Console :=
  console.write (text ++ "\n")

def register (console : Console) (path : String) (mark : Mark) : Console :=
  { console with traceback := console.traceback.register path mark }

def clear (console : Console) (path : String) : Console :=
  console.register path .clear

/-- Prints a step of an evaluation, if steps are printed. -/
def showStep (console : Console) (kind label : String) : Console :=
  if console.verbose then
    console.print (console.colours.bold (some .cyan) (padLeft 6 kind ++ " ") ++ label)
  else console

/-- The innermost line that is being worked on, as warnings name it. -/
def location (console : Console) : String :=
  let marked := console.traceback.filter fun entry => entry.2.line.isSome
  match marked.getLast? with
  | none => ""
  | some (path, mark) =>
    console.colours.bold none (path ++ ":" ++ mark.number.text ++ ": ")

/-- Prints a notice with what goes before it, and its diagnosis if it has
one. -/
def printNotice (console : Console) (colour : Colour) (introduction : String)
    (notice : Notice) : Except Failure Unit × Console :=
  match notice.message console.colours with
  | .error fault => (.error (.template fault), console)
  | .ok text =>
    let console := console.print (introduction ++ text)
    if notice.isDiagnosed then
      match notice.diagnose console.colours colour with
      | .error fault => (.error (.data fault), console)
      | .ok diagnosis => (.ok (), console.print diagnosis)
    else (.ok (), console)

def warn (console : Console) (notice : Notice) : Except Failure Unit × Console :=
  console.printNotice .magenta
    (console.location ++ console.colours.bold (some .magenta) "warning: ") notice

/-- The lines of a traceback that are not empty. -/
def worked (console : Console) : List (String × String × LineNumber) :=
  console.traceback.filterMap fun (path, mark) =>
    match mark.line with
    | some line => if line.isEmpty then none else some (path, line, mark.number)
    | none => none

/-- The lines that are being worked on, as an error report shows them. -/
def tracebackText (console : Console) : String :=
  let entries := console.worked.map fun (path, line, number) =>
    "  File '" ++ path ++ "', line " ++ number.text ++ ":\n    " ++ line ++ "\n"
  (if 1 < entries.length then "Traceback:\n" else "") ++ String.join entries

/-- The thunks that were being evaluated, each one deeper than the last. -/
def traceText (trace : List String) : String :=
  if trace.isEmpty then ""
  else
    "Forcing:\n" ++ String.join (trace.mapIdx fun depth label =>
      "  " ++ copies (2 * depth) ' ' ++ label ++ "\n")

def report (console : Console) (notice : Notice) (trace : List String) :
    Except Failure Unit × Console :=
  let paint := console.colours.bold (some .red)
  console.printNotice .red
    (console.tracebackText ++ traceText trace
      ++ (if notice.internal then paint "[internal] " else "") ++ paint "error: ")
    notice

/-- Reports an error, which ends the program if it is fatal. -/
def throw (console : Console) (notice : Notice) (trace : List String) (fatal : Bool) :
    Except Failure Unit × Console :=
  match console.report notice trace with
  | (.error failure, console) => (.error failure, console)
  | (.ok (), console) =>
    if fatal then (.error (.exit 1), console)
    else (.ok (), { console with traceback := [] })

def suppress (console : Console) (notice : Notice) (trace : List String) :
    Leaving × Console :=
  match console.throw notice trace console.fatal with
  | (.ok (), console) => (.suppressed, console)
  | (.error failure, console) => (.escaped failure, console)

def passOn (console : Console) (notice : Notice) (failure : Failure) :
    Leaving × Console :=
  match console.throw notice [] console.fatal with
  | (.ok (), console) => (.escaped failure, console)
  | (.error other, console) => (.escaped other, console)

/-- Leaves a guarded block.  Errors of the language are reported and go no
further; other errors are reported and passed on. -/
def leave (console : Console) : Option Failure → Leaving × Console
  | none => (.ended, console)
  | some failure =>
    match failure with
    | .interrupted => console.suppress .interrupted []
    | .tooDeep => console.suppress .tooDeep []
    | .exit code => (.escaped (.exit code), console)
    | .outOfFuel => (.escaped .outOfFuel, console)
    | failure =>
      match failure.notice?, failure.foreign? with
      | some (notice, trace), _ => console.suppress notice trace
      | none, some (kind, text) => console.passOn (.unknown kind text) failure
      | none, none => (.escaped failure, console)

end Console

end CallByNeed
