import CallByNeed.Files.Bundle
import CallByNeed.Files.Tree
import CallByNeed.Module.Order
import CallByNeed.Report.Console

/-!
# Finding modules

A module is a file, and its id is the normal absolute path of the file.  The
path in an import is relative to the importing file, or absolute, or it is
looked up in the bundled library and then in further directories.  `collect`
reads a file and all that it imports; what was read is kept and not read
again.
-/

namespace CallByNeed.Files

open Source Text

/-- Where modules are looked for. -/
structure Places where
  tree : Tree
  /-- The directory of the bundled library. -/
  library : String
  working : String
  /-- The directories that are searched after the library. -/
  further : List String
deriving Repr

def extension : String := ".lc"

/-- A path with an extension: its own, or that of modules. -/
def withExtension (path : String) : String :=
  if hasExtension path then path else path ++ extension

/-- The files that are there without any from outside: the bundled library,
and a working directory. -/
def bundledTree (library working : String) : Tree :=
  bundle.foldl
    (fun tree (name, text) => tree.put (join library name) (.file text.toUTF8.toList))
    (Tree.put [] working .directory)

/-- The paths that an import can stand for, the first choice first. -/
def Places.candidates (places : Places) (path : String) (importer : Option String) :
    List String :=
  if isAbsolute path then [path]
  else if isRelative path then
    match importer with
    | some file => [join (directoryOf file) path]
    | none => [join places.working path]
  else (places.library :: places.further).map (join · path)

/-- The id of the module that an import stands for. -/
def Places.locate (places : Places) (path : String) (importer : Option String) :
    Except Failure String :=
  let path := withExtension path
  let importer := importer.filter (!·.isEmpty)
  match (places.candidates path importer).find? (places.tree.isFile places.working) with
  | some found => .ok (absolute places.working found)
  | none => .error (.load path (.notFound importer))

def Places.rootId (places : Places) (path : String) : Except Failure String :=
  let root := absolute places.working path
  if places.tree.isFile places.working root then .ok root
  else .error (.load path (.notFound none))

def Places.bytes (places : Places) (path : String) : Except Failure (List UInt8) :=
  if path.toList.contains '\x00' then .error .nullInPath
  else
    match places.tree.find places.working path with
    | some (.file bytes true) => .ok bytes
    | _ => .error (.load path .notOpened)

def Places.change (places : Places) (path : String)
    (change : Tree → String → Except TreeFault Tree) : Except Failure Places :=
  let path := join places.working path
  if path.toList.contains '\x00' then .error .nullInPath
  else
    match change places.tree path with
    | .ok tree => .ok { places with tree }
    | .error fault => .error (.tree fault path)

/-- What reading changes: the modules that were read, and the console. -/
structure Shelf where
  sources : Sources
  console : Console

abbrev Reading := ExceptT Failure (StateM Shelf)

def onConsole (change : Console → Console) : Reading Unit :=
  modify fun shelf => { shelf with console := change shelf.console }

/-- The imports of a file with the ids of the modules that they stand for. -/
def resolveImports (places : Places) (importer : String) (imports : List Import) :
    Except Failure (List Import) :=
  imports.mapM fun statement =>
    (places.locate statement.source (some importer)).map fun source =>
      { statement with source }

def fileText (places : Places) (path : String) : Except Failure String := do
  let bytes ← places.bytes path
  match decode bytes with
  | .ok chars => .ok (String.ofList (unifyLineEnds chars))
  | .error fault => .error (.undecodable fault)

/-- Reads a file that was not read before. -/
def readNew (places : Places) (path : String) : Reading ParsedModule := do
  onConsole (·.clear path)
  let text ← fileText places path
  match parseModule text path path with
  | .error fault =>
    onConsole (·.register path ⟨some fault.source, .known fault.line⟩)
    throw (.parse fault)
  | .ok parsed =>
    let imports ← resolveImports places path parsed.imports
    let source := { parsed with imports }
    modify fun shelf => { shelf with sources := shelf.sources.insert source }
    onConsole (·.clear path)
    pure source

/-- Reads a module without following its imports. -/
def readModule (places : Places) (path : String) : Reading ParsedModule := do
  let shelf ← get
  match shelf.sources.find path with
  | some source => pure source
  | none => readNew places path

/-- Reads pending modules and those that they import, the last one first. -/
def collectPending (places : Places) :
    (fuel : Nat) → (pending : List String) → (collected : Sources) → Reading Sources
  | _, [], collected => pure collected
  | 0, _ :: _, _ => throw .outOfFuel
  | fuel + 1, id :: pending, collected =>
    if collected.ids.contains id then collectPending places fuel pending collected
    else do
      let source ← readModule places id
      collectPending places fuel ((importedIds source).reverse ++ pending)
        (collected.insert source)

/-- The module of a file and all modules that it imports, also through
others. -/
def collect (places : Places) (fuel : Nat) (path : String) : Reading Sources := do
  let root ← places.rootId path
  collectPending places fuel [root] []

end CallByNeed.Files
