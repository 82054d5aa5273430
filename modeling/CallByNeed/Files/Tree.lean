import CallByNeed.Files.Path

/-!
# File trees

A file tree maps the parts of an absolute path to a file or a directory.
Paths are followed part by part as they are written, so a double dot leads up
only from a directory that exists.
-/

namespace CallByNeed.Files

inductive Entry where
  /-- A file, which the program may not be allowed to read. -/
  | file (bytes : List UInt8) (readable : Bool := true)
  | directory
deriving DecidableEq, Repr

/-- Why nothing can be written or deleted at a path. -/
inductive TreeFault where
  | missing
  /-- A file stands where a directory was to be made. -/
  | occupied
  | isDirectory
  /-- A file stands where the path goes on. -/
  | notADirectory
deriving DecidableEq, Repr

/-- A tree of files.  The root is always a directory. -/
abbrev Tree := List (List String × Entry)

namespace Tree

def entry? (tree : Tree) (place : List String) : Option Entry :=
  if place.isEmpty then some .directory else tree.lookup place

def isDirectory (tree : Tree) (place : List String) : Bool :=
  tree.entry? place = some .directory

/-- Where the parts of a path lead from a place. -/
def follow (tree : Tree) (place : List String) : List String → Option (List String)
  | [] => some place
  | part :: rest =>
    if !tree.isDirectory place then none
    else if part = "" || part = "." then tree.follow place rest
    else if part = ".." then tree.follow place.dropLast rest
    else tree.follow (place ++ [part]) rest

/-- The number of bytes from which on a path is too long to be followed. -/
def tooLong : Nat := 4096

def isFollowable (path : String) : Bool :=
  !path.isEmpty && !path.toList.contains '\x00' && path.utf8ByteSize < tooLong

/-- What a path leads to, seen from a working directory. -/
def find (tree : Tree) (working path : String) : Option Entry := do
  if !isFollowable path then none
  let start := if isAbsolute path then [] else normalParts working
  let place ← tree.follow start (parts path)
  tree.entry? place

def isFile (tree : Tree) (working path : String) : Bool :=
  match tree.find working path with
  | some (.file ..) => true
  | _ => false

/-- Puts an entry at a place, in the stead of any that is there. -/
def set (tree : Tree) (place : List String) (entry : Entry) : Tree :=
  (place, entry) :: tree.filter fun other => other.1 ≠ place

def makeDirectories (tree : Tree) (place : List String) : Tree :=
  (List.range' 1 place.length).foldl
    (fun tree depth =>
      let above := place.take depth
      if tree.isDirectory above then tree else tree.set above .directory)
    tree

/-- Puts a file or a directory at an absolute path, with the directories above
it. -/
def put (tree : Tree) (path : String) (entry : Entry) : Tree :=
  let place := normalParts path
  (tree.makeDirectories place.dropLast).set place entry

/-- Makes the directories along parts of a path that are missing, from a place
on, and gives the place where the parts lead. -/
def descend (tree : Tree) (place : List String) :
    List String → Except TreeFault (Tree × List String)
  | [] => .ok (tree, place)
  | part :: rest =>
    if part = "" || part = "." then tree.descend place rest
    else if part = ".." then tree.descend place.dropLast rest
    else
      let next := place ++ [part]
      match tree.entry? next with
      | some .directory => tree.descend next rest
      | some (.file ..) => .error (if rest.isEmpty then .occupied else .notADirectory)
      | none => (tree.set next .directory).descend next rest

/-- Whether a part of a path leads to a directory whatever there is. -/
def isStep (part : String) : Bool :=
  part = "" || part = "." || part = ".."

/-- Writes a file or makes a directory at an absolute path, with the directories
above it that are missing. -/
def write (tree : Tree) (path : String) : Entry → Except TreeFault Tree
  | .directory => (tree.descend [] (parts path)).map Prod.fst
  | .file bytes readable => do
      let (tree, above) ← tree.descend [] (parts path).dropLast
      let place := above ++ [lastPart path]
      if isStep (lastPart path) || tree.isDirectory place then .error .isDirectory
      else .ok (tree.set place (.file bytes readable))

/-- Where an absolute path leads whose last part need not be there. -/
def trace (tree : Tree) (place : List String) :
    List String → Except TreeFault (List String)
  | [] => .ok place
  | part :: rest =>
    match tree.entry? place with
    | none => .error .missing
    | some (.file ..) => .error .notADirectory
    | some .directory =>
      if part = "" || part = "." then tree.trace place rest
      else if part = ".." then tree.trace place.dropLast rest
      else tree.trace (place ++ [part]) rest

/-- Deletes the file at an absolute path. -/
def delete (tree : Tree) (path : String) : Except TreeFault Tree := do
  let place ← tree.trace [] (parts path)
  match tree.entry? place with
  | none => .error .missing
  | some .directory => .error .isDirectory
  | some (.file ..) => .ok (tree.filter fun entry => entry.1 ≠ place)

end Tree

end CallByNeed.Files
