import CallByNeed.CommandLine.Run

/-!
# The program

The program takes its arguments, its input and the files that a run can need
from the system.  What it does with them is said by `CommandLine.run`, and for
a dialogue by `Shell.line`.
-/

namespace CallByNeed.Program

open Files Source CommandLine

/-- The directory of the bundled library, which exists in the program only. -/
def libraryDirectory : String := "/bundled/common"

/-- More steps than any run takes, and more lines than any dialogue has. -/
def fuel : Nat := Nat.pow 2 62

/-- The paths of the directories along a path, and the path itself. -/
def along (path : String) : List String :=
  let names := parts path
  (List.range names.length).map fun depth =>
    String.intercalate "/" (names.take (depth + 1))

def isDirectory (path : String) : IO Bool := do
  match ← (IO.FS.realPath path).toBaseIO with
  | .ok place => place.isDir
  | .error _ => return false

/-- Whether a file that cannot be read is one all the same. -/
def isUnreadable (path : String) : IO Bool := do
  match ← (IO.FS.realPath path).toBaseIO with
  | .ok place => return (← place.pathExists) && !(← place.isDir)
  | .error _ => return false

/-- Adds to a tree what the system has along an absolute path. -/
def fetch (tree : Tree) (path : String) : IO Tree := do
  let mut tree := tree
  for place in along path do
    if ← isDirectory place then
      tree := tree.put place .directory
  match ← (IO.FS.readBinFile path).toBaseIO with
  | .ok bytes => return tree.put path (.file bytes.toList)
  | .error _ => return if ← isUnreadable path then tree.put path (.file [] false) else tree

/-- The paths that the imports of a file can stand for. -/
def importedPaths (places : Places) (path : String) : List String :=
  match (fileText places path).toOption.bind fun text =>
      (parseModule text path path).toOption with
  | none => []
  | some parsed =>
    parsed.imports.flatMap fun statement =>
      places.candidates (withExtension statement.source) (some path)

/-- Adds files to those that can be found, and all that they import. -/
def gather : (rounds : Nat) → (seen pending : List String) → Places → IO Places
  | 0, _, _, places => return places
  | rounds + 1, seen, pending, places =>
    match pending with
    | [] => return places
    | path :: pending =>
      if seen.contains path then gather rounds seen pending places
      else do
        let tree ← fetch places.tree (join places.working path)
        let places := { places with tree }
        let id := absolute places.working path
        gather rounds (path :: seen) (importedPaths places id ++ pending) places
termination_by structural rounds => rounds

/-- The paths that a line of a dialogue can need. -/
def linePaths (places : Places) (line : String) : List String :=
  match parseEntry line with
  | .ok (.imports statement) =>
    places.candidates (withExtension statement.source) none
  | _ => []

def flush (session : Session) : IO Session := do
  let output ← IO.getStdout
  output.putStr session.console.printed
  output.flush
  return { session with console := { session.console with printed := "" } }

def finish : Ending → IO UInt32
  | .status code => return UInt32.ofNat code.toNat
  | .failure failure => do
      let (kind, text) := failure.foreign?.getD ("failure", "no outcome")
      IO.eprintln (kind ++ ": " ++ text)
      return 1

def converse : (rounds : Nat) → Shell → IO UInt32
  | 0, _ => finish (.failure .outOfFuel)
  | rounds + 1, shell => do
      let session ← flush
        { shell.session with console := shell.session.console.write shell.prompt }
      let text ← (← IO.getStdin).getLine
      let line := Shell.joinPending shell.pending (Text.trimmed text)
      let places ← gather fuel [] (linePaths session.places line) session.places
      let shell := { shell with session := { session with places } }
      let (result, shell) :=
        if text.isEmpty then Shell.command .endOfInput shell
        else Shell.line fuel text shell
      let (ended, session) :=
        Session.guarded (fun session => (result, session)) shell.session
      let session ← flush session
      match ended with
      | .ok (some .leave) => return 0
      | .ok (some _) => converse rounds { shell with session }
      | .ok none => return 0
      | .error (.exit code) => finish (.status code)
      | .error failure => finish (.failure failure)

def perform (world : World) (arguments : List String) : IO UInt32 := do
  let outcome := CommandLine.run fuel world arguments
  IO.print outcome.output
  IO.eprint outcome.errors
  finish outcome.ending

def start (arguments : List String) : IO UInt32 := do
  let working := (← IO.currentDir).toString
  let colours ← (← IO.getStdout).isTty
  let world : World :=
    { tree := bundledTree libraryDirectory working
      library := libraryDirectory
      working
      input := []
      colours }
  match parse (some defaultLimit) arguments with
  | .ok options =>
    let session := CommandLine.session world options
    if options.directories.contains none then perform world arguments
    else
      match options.file with
      | none =>
        let console := { session.console with fatal := false }
        converse fuel (.start { session with console := console.print intro })
      | some file => do
          let places ← gather fuel [] [absolute working file] session.places
          perform { world with tree := places.tree } arguments
  | .error _ => perform world arguments

end CallByNeed.Program

def main (arguments : List String) : IO UInt32 :=
  CallByNeed.Program.start arguments
