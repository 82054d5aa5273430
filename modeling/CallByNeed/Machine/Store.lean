import CallByNeed.Machine.Value

/-!
# The store

The store holds the thunks by address and the tables of the root
environments.  Thunks and tables are added and changed, and never removed.
It also counts the values that were built, which gives each its identity.
-/

namespace CallByNeed

/-- The names bound in a root, in the order in which they were first bound. -/
abbrev Table := List (Name × Option Address)

namespace Table

def names (table : Table) : List Name :=
  table.map Prod.fst

/-- The thunk that a table gives to a name.  An empty place gives none. -/
def find (table : Table) (name : Name) : Option Address :=
  (table.lookup name).join

/-- Binds a name.  A name that is bound already keeps its place. -/
def bind (table : Table) (name : Name) (thunk : Option Address) : Table :=
  if table.names.contains name then
    table.map fun entry => if entry.1 = name then (name, thunk) else entry
  else table ++ [(name, thunk)]

end Table

/-- The thunks and tables that exist, and the number of values that were
built. -/
structure Store where
  thunks : Array Thunk
  tables : Array Table
  built : Nat
deriving Repr, Inhabited

namespace Store

def empty : Store := ⟨#[], #[], 0⟩

def thunk? (store : Store) (address : Address) : Option Thunk :=
  store.thunks[address]?

/-- The table with a number; one that does not exist has no names. -/
def table (store : Store) (number : Nat) : Table :=
  store.tables.getD number []

def alloc (store : Store) (thunk : Thunk) : Address × Store :=
  (store.thunks.size, { store with thunks := store.thunks.push thunk })

def build (store : Store) (form : Form) : Value × Store :=
  (⟨form, store.built + 1⟩, { store with built := store.built + 1 })

def addTable (store : Store) (table : Table) : Nat × Store :=
  (store.tables.size, { store with tables := store.tables.push table })

def update (store : Store) (address : Address) (change : Thunk → Thunk) : Store :=
  { store with thunks := store.thunks.modify address change }

def bind (store : Store) (number : Nat) (name : Name) (thunk : Option Address) : Store :=
  { store with tables := store.tables.modify number (·.bind name thunk) }

/-- The thunk that an environment gives to a name: that of the nearest binding
of the name. -/
def find (store : Store) (name : Name) : Env → Option Address
  | .root number => (store.table number).find name
  | .layer bound thunk parent => if bound = name then thunk else store.find name parent

/-- All names bound along an environment, nearest first and each one once. -/
def names (store : Store) : Env → List Name
  | .root number => (store.table number).names
  | .layer bound _ parent => bound :: (store.names parent).filter (· ≠ bound)

/-- An environment as messages show it. -/
def envText (store : Store) (env : Env) : String :=
  "Environment(" ++ String.intercalate ", " (store.names env) ++ ")"

/-- The thunk for an argument.  A bound variable is passed on by its own thunk
and an abstraction is its own value; anything else is suspended, a variable
that is not bound included. -/
def delay (store : Store) (term : Term) (env : Env) : Address × Store :=
  match term with
  | .var name =>
    match store.find name env with
    | some address => (address, store)
    | none => store.alloc (.suspended term env none)
  | .lam parameter body =>
    let (value, store) := store.build (.closure parameter body env)
    store.alloc (.evaluated value none)
  | .app _ _ => store.alloc (.suspended term env none)

end Store

end CallByNeed
