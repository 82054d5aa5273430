import CallByNeed.Text.Lines

/-!
# Paths

Paths are texts in which slashes separate the names of directories.  A path
that starts with a slash is absolute.  `normal` takes out empty and single-dot
parts and lets a double dot take away the part before it; two slashes at the
very start, and not three, stay two.
-/

namespace CallByNeed.Files

open Text

def parts (path : String) : List String :=
  (splitAt '/' path.toList).map String.ofList

def isAbsolute (path : String) : Bool :=
  path.toList.head? = some '/'

/-- Whether a path is said to be relative to the file that names it. -/
def isRelative (path : String) : Bool :=
  match parts path with
  | first :: _ :: _ => first = "." || first = ".."
  | _ => false

/-- A path seen from a directory. -/
def join (directory path : String) : String :=
  if isAbsolute path then path
  else if directory.isEmpty || directory.toList.getLast? = some '/' then directory ++ path
  else directory ++ "/" ++ path

/-- Takes the slashes from the end of a path that has anything else. -/
def withoutSlashes (path : List Char) : List Char :=
  if path.all (· = '/') then path
  else (path.reverse.dropWhile (· = '/')).reverse

/-- The path of the directory of a file. -/
def directoryOf (path : String) : String :=
  let reversed := path.toList.reverse
  String.ofList (withoutSlashes (reversed.dropWhile (· ≠ '/')).reverse)

def lastPart (path : String) : String :=
  (parts path).getLastD ""

/-- Whether the name of a file has an extension: a dot with something other
than dots before it. -/
def hasExtension (path : String) : Bool :=
  let name := (lastPart path).toList
  name.contains '.' &&
    ((name.reverse.dropWhile (· ≠ '.')).drop 1).any (· ≠ '.')

/-- The number of slashes that a normal path starts with. -/
def leadingSlashes (path : String) : Nat :=
  match (path.toList.takeWhile (· = '/')).length with
  | 0 => 0
  | 2 => 2
  | _ => 1

/-- Adds a part to the parts of a normal path.  `rooted` says whether the path
is absolute, in which case there is nothing above its start. -/
def addPart (rooted : Bool) (path : List String) (part : String) : List String :=
  if part = "" || part = "." then path
  else if part = ".." then
    match path.getLast? with
    | none => if rooted then path else path ++ [part]
    | some last => if last = ".." then path ++ [part] else path.dropLast
  else path ++ [part]

def normalParts (path : String) : List String :=
  (parts path).foldl (addPart (isAbsolute path)) []

/-- The normal form of a path. -/
def normal (path : String) : String :=
  let text :=
    copies (leadingSlashes path) '/' ++ String.intercalate "/" (normalParts path)
  if text.isEmpty then "." else text

/-- The normal form of a path seen from a directory. -/
def absolute (working path : String) : String :=
  normal (join working path)

end CallByNeed.Files
