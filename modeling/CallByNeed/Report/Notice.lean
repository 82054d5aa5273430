import CallByNeed.Datum
import CallByNeed.Text.Style
import CallByNeed.Text.Template

/-!
# Notices

A notice is the text of an error or a warning: a template with the subjects
that fill its slots.  The first subject is what the notice is about; a
diagnosis prints it again with a stretch of it marked, which only a text can
have.
-/

namespace CallByNeed

open Text

/-- Why data cannot be used in a notice, mostly by the kind of the data. -/
inductive DataFault where
  | notAText (kind : Datum.Kind)
  | noSubjects (kind : Datum.Kind)
  | noFirst (kind : Datum.Kind)
  /-- The length of the first subject was wanted. -/
  | noLength (kind : Datum.Kind)
  /-- A stretch of the first subject was to be marked. -/
  | unmarkable (kind : Datum.Kind)
  /-- The start of the stretch is no place. -/
  | notAPlace
  /-- The place behind the start of the stretch was wanted. -/
  | noNextPlace (kind : Datum.Kind)
  /-- The end of the stretch is no place. -/
  | notAnEnd (kind : Datum.Kind)
  | noLabels (kind : Datum.Kind)
  | noModules
  /-- The module with this number is not a text. -/
  | notAModule (index : Nat) (kind : Datum.Kind)
deriving DecidableEq, Repr

structure Notice where
  template : String
  subjects : List String
  /-- What kind of data the first subject is. -/
  subjectKind : Datum.Kind := .text
  /-- Where the marked stretch of the first subject starts. -/
  start : Int := 0
  /-- Where it ends; the end of the subject if nothing is said. -/
  stop : Option Int := none
  /-- Why there is no such stretch. -/
  stretchFault : Option DataFault := none
  diagnosis : Bool := true
  /-- Whether the fault lies with the program itself. -/
  internal : Bool := false
deriving DecidableEq, Repr

namespace Notice

def subject (notice : Notice) : String :=
  notice.subjects.headD ""

def finish (notice : Notice) : Int :=
  notice.stop.getD notice.subject.length

def plain (notice : Notice) (parts : Parts := .nameless) : Except TemplateFault String :=
  fill parts id notice.template notice.subjects

/-- The text of a notice with its subjects in bold. -/
def painted (style : Style) (notice : Notice) : Except TemplateFault String :=
  fill style.parts (style.bold none) notice.template notice.subjects

/-- The text of a notice as it is printed.  Before its subjects are painted, they
are filled in as they are. -/
def message (style : Style) (notice : Notice) : Except TemplateFault String := do
  let _ ← notice.plain style.parts
  notice.painted style

/-- The subject of a notice with the marked stretch in a colour, and below it a
line that points at the stretch.  At least one character is marked. -/
def marked (style : Style) (colour : Colour) (notice : Notice) : String :=
  let stop := max notice.finish (notice.start + 1)
  let subject := notice.subject
  "  " ++ between subject 0 notice.start
    ++ style.bold (some colour) (between subject notice.start stop)
    ++ between subject stop subject.length ++ "\n"
    ++ "  " ++ copies notice.start ' '
    ++ style.bold (some colour) ("^" ++ copies (stop - notice.start - 1) '~')

def diagnose (style : Style) (colour : Colour) (notice : Notice) :
    Except DataFault String :=
  if notice.subjectKind = .text then
    match notice.stretchFault with
    | none => .ok (notice.marked style colour)
    | some fault => .error fault
  else .error (.unmarkable notice.subjectKind)

/-- Whether a diagnosis follows a notice. -/
def isDiagnosed (notice : Notice) : Bool :=
  !notice.internal && !notice.subjectKind.empties.contains notice.subject
    && notice.diagnosis

/-- A message about a stretch of a source line. -/
def ofSyntax (message source : String) (start stop : Int) : Notice :=
  { template := literal message ++ " in '\x7b\x7d'"
    subjects := [source]
    start
    stop := some stop }

/-- A module that could not be had. -/
def ofLoad (moduleId reason : String) : Notice :=
  { template := "module '\x7b\x7d' " ++ literal reason
    subjects := [moduleId]
    diagnosis := false }

def duplicate (name moduleId : String) : Notice :=
  { template := "'\x7b\x7d' is already bound in module '\x7b\x7d'"
    subjects := [name, moduleId]
    diagnosis := false }

def cyclicImport (cycle : List String) : Notice :=
  { template := "cyclic import: \x7b\x7d"
    subjects := [String.intercalate " -> " cycle]
    diagnosis := false }

def unbound (name : String) : Notice :=
  { template := "'\x7b\x7d' is not bound", subjects := [name] }

def notAFunction (value : String) : Notice :=
  { template := "'\x7b\x7d' cannot be applied", subjects := [value] }

def cyclicValue (label : String) : Notice :=
  { template := "value of '\x7b\x7d' depends on itself", subjects := [label] }

def stepLimit (limit : String) : Notice :=
  { template := "no result within \x7b\x7d steps", subjects := [limit] }

def notNatural (shown : String) : Notice :=
  { template := "expected natural number, got '\x7b\x7d'"
    subjects := [shown]
    internal := true }

def interrupted : Notice :=
  { template := "keyboard interrupt", subjects := [""] }

def tooDeep : Notice :=
  { template := "maximum recursion depth exceeded", subjects := [""], internal := true }

/-- An error that is not one of the language.  Its text is part of the
template. -/
def unknown (kind text : String) : Notice :=
  { template := "unknown error: '" ++ kind ++ ": " ++ text ++ "'"
    subjects := [""]
    internal := true }

end Notice

end CallByNeed
