import CallByNeed.Session

/-!
# The shell

The shell takes one line after the other.  A line is a command or an entry for
the session; an entry whose parentheses or braces are still open goes on in
the next line.
-/

namespace CallByNeed

open Text

structure Shell where
  session : Session
  /-- The lines of an entry that is not complete. -/
  pending : String
  /-- The number of lines that were entries or parts of entries. -/
  lineNumber : Nat
  prompt : String

/-- What a line leads to. -/
inductive Reply where
  | nothing
  | blank
  | leave
deriving DecidableEq, Repr

abbrev ShellAct := ExceptT Failure (StateM Shell)

def primaryPrompt : String := "> "

def secondaryPrompt : String := ". "

def intro : String :=
  "lazycalc :: call-by-need lambda calculus\n"
    ++ "Type '?' or 'help' for more information."

def helpText : String :=
  "Welcome to lazycalc!\n\n"
    ++ "Every line is an import, a binding or an expression:\n\n"
    ++ "  import \x7b Sum, Suc \x7d from \"numbers\"\n"
    ++ "  Two = Suc (Suc Zero)\n"
    ++ "  Sum Two Two\n\n"
    ++ "Expressions are evaluated lazily (call-by-need) and printed in normal form. "
    ++ "Bindings are\n"
    ++ "only evaluated when an expression needs them, so "
    ++ "'Loop = (x => x x) x => x x' is fine\n"
    ++ "until you ask for Loop. Type 'names' to list bound names, 'exit' to leave."

inductive Command where
  | names
  | help
  | endOfInput
  | exit
deriving DecidableEq, Repr

def Command.ofWord? (word : String) : Option Command :=
  if word = "names" then some .names
  else if word = "help" then some .help
  else if word = "EOF" then some .endOfInput
  else if word = "exit" then some .exit
  else none

/-- Whether a character can stand in the word of a command. -/
def isCommandChar (char : Char) : Bool :=
  char.isAlphanum || char = '_'

/-- What a line is. -/
inductive Input where
  | blank
  | command (command : Command)
  | entry (line : String)
deriving DecidableEq, Repr

/-- Tells what a line is, by the word that it starts with.  A question mark
asks for help. -/
def Input.ofLine (line : String) : Input :=
  match trim line.toList with
  | [] => .blank
  | '?' :: _ => .command .help
  | '!' :: rest => .entry (String.ofList ('!' :: rest))
  | chars =>
    match Command.ofWord? (String.ofList (chars.takeWhile isCommandChar)) with
    | some known => .command known
    | none => .entry (String.ofList chars)

/-- Whether an entry needs another line: more parentheses or braces are opened
than closed. -/
def continues (line : String) : Bool :=
  let count (char : Char) := line.toList.count char
  count ')' < count '(' || count '}' < count '{'

namespace Shell

def start (session : Session) : Shell :=
  ⟨session, "", 0, primaryPrompt⟩

def onSession {α : Type} (action : Act α) : ShellAct α := fun shell =>
  let (result, session) := action shell.session
  (result, { shell with session })

def print (text : String) : ShellAct Unit :=
  onSession (Session.onConsole (·.print text))

def printResults : ShellAct Unit := do
  let shell ← get
  for result in shell.session.results do
    print result
  modify fun shell => { shell with session := { shell.session with results := [] } }

/-- A line that follows the pending ones. -/
def joinPending (pending line : String) : String :=
  if pending.isEmpty then line else trimmed (pending ++ " " ++ line)

/-- Takes a line of an entry.  An entry that is complete is added to the
session and its results are printed. -/
def takeLine (fuel : Nat) (line : String) : ShellAct Unit := do
  modify fun shell => { shell with lineNumber := shell.lineNumber + 1 }
  let shell ← get
  let line := joinPending shell.pending line
  if continues line then
    set { shell with pending := line, prompt := secondaryPrompt }
  else
    set { shell with pending := "", prompt := primaryPrompt }
    onSession (Session.add fuel line (.known shell.lineNumber))
    printResults

/-- Takes a line of an entry as a guarded block. -/
def enter (fuel : Nat) (line : String) : ShellAct Unit := fun shell =>
  match takeLine fuel line shell with
  | (.ok (), shell) => (.ok (), shell)
  | (.error failure, shell) =>
    match shell.session.console.leave (some failure) with
    | (.escaped failure, console) =>
      (.error failure, { shell with session := { shell.session with console } })
    | (_, console) =>
      (.ok (), { shell with session := { shell.session with console } })

def command : Command → ShellAct Reply
  | .names => do
      let shell ← get
      print (String.intercalate " " (shell.session.shell.names shell.session.engine.store))
      pure .nothing
  | .help => do
      print helpText
      pure .nothing
  | .endOfInput => do
      print ""
      pure .leave
  | .exit => pure .leave

def line (fuel : Nat) (text : String) : ShellAct Reply :=
  match Input.ofLine text with
  | .blank => pure .blank
  | .command word => command word
  | .entry text => do
      enter fuel text
      pure .nothing

/-- Takes lines until the shell is left.  The prompt is printed before each
line, and the end of the lines is a command of its own. -/
def lines (fuel : Nat) : List String → ShellAct Unit
  | [] => do
      let shell ← get
      onSession (Session.onConsole (·.write shell.prompt))
      let _ ← command .endOfInput
  | text :: rest => do
      let shell ← get
      onSession (Session.onConsole (·.write shell.prompt))
      match ← line fuel text with
      | .leave => pure ()
      | _ => lines fuel rest

def dialogue (fuel : Nat) (input : List String) : ShellAct Unit := do
  print intro
  lines fuel input

end Shell

end CallByNeed
