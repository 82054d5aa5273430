import CallByNeed.Machine.Store
import CallByNeed.Source.Statement

/-!
# Linked modules

A linked module has a root environment with the names that it imports and
declares.  Each declaration is a thunk that nothing has evaluated yet; an
imported name is bound to the exporter's own thunk.  A name is never bound
twice in a module.
-/

namespace CallByNeed

open Source

inductive LinkError where
  /-- A name that its module does not declare was imported. -/
  | notExported (moduleId : String) (name : Name)
  | duplicate (name : Name) (moduleId : String)
  /-- Modules import each other, each one the next. -/
  | cyclicImport (cycle : List String)
  /-- A module is imported that was not loaded. -/
  | notLoaded (moduleId importer : String)
  /-- A module is imported that is not linked. -/
  | notLinked (moduleId : String)
deriving DecidableEq, Repr

structure Declaration where
  name : Name
  thunk : Address
  term : Term
  line : Nat
deriving Repr

/-- A linked module.  Its names are those of the root table. -/
structure Module where
  id : String
  path : Option String
  table : Nat
  declarations : List Declaration
deriving Repr, Inhabited

namespace Module

def create (id : String) (path : Option String) (store : Store) : Module × Store :=
  let (table, store) := store.addTable []
  (⟨id, path, table, []⟩, store)

def env (linked : Module) : Env :=
  .root linked.table

/-- The names of a module, in the order in which they were bound. -/
def names (linked : Module) (store : Store) : List Name :=
  (store.table linked.table).names

/-- The names that other modules can import. -/
def exports (linked : Module) : List Name :=
  linked.declarations.map Declaration.name

def declaration? (linked : Module) (name : Name) : Option Declaration :=
  linked.declarations.find? fun declaration => declaration.name == name

/-- Binds a name that the module does not have. -/
def declare (linked : Module) (name : Name) (thunk : Option Address) (store : Store) :
    Except LinkError Store :=
  if (linked.names store).contains name then .error (.duplicate name linked.id)
  else .ok (store.bind linked.table name thunk)

def define (linked : Module) (binding : Binding) (store : Store) :
    Except LinkError (Address × Module × Store) := do
  let (thunk, store) :=
    store.alloc (.suspended binding.term linked.env (some binding.name))
  let store ← linked.declare binding.name thunk store
  let declaration := ⟨binding.name, thunk, binding.term, binding.line⟩
  .ok (thunk, { linked with declarations := linked.declarations ++ [declaration] }, store)

/-- Whether the items of an import can be bound: each name is exported, and no
local name is bound already or given twice. -/
def checkItems (linked other : Module) (store : Store) :
    List Name → List ImportItem → Except LinkError Unit
  | _, [] => .ok ()
  | given, item :: items =>
    if !other.exports.contains item.name then
      .error (.notExported other.id item.name)
    else if given.contains item.localName
        || (linked.names store).contains item.localName then
      .error (.duplicate item.localName linked.id)
    else checkItems linked other store (item.localName :: given) items

/-- Binds the items of an import to the thunks of the exporter. -/
def bindItems (linked other : Module) : List ImportItem → Store → Except LinkError Store
  | [], store => .ok store
  | item :: items, store => do
      let thunk := (other.declaration? item.name).map Declaration.thunk
      let store ← linked.declare item.localName thunk store
      bindItems linked other items store

/-- Binds all items of an import, or none of them. -/
def importFrom (linked other : Module) (items : List ImportItem) (store : Store) :
    Except LinkError Store := do
  linked.checkItems other store [] items
  linked.bindItems other items store

/-- The names that each declaration uses and the module does not bind, sorted.
Declarations without such names are left out. -/
def unboundNames (linked : Module) (store : Store) : List (Name × List Name) :=
  linked.declarations.filterMap fun declaration =>
    let missing :=
      declaration.term.freeNames.filter fun name => !(linked.names store).contains name
    if missing.isEmpty then none
    else some (declaration.name, Term.sortNames missing)

def text (linked : Module) (store : Store) : String :=
  "Module(" ++ Text.quoted linked.id ++ ", names="
    ++ Text.quotedList (linked.names store) ++ ")"

end Module

/-- Linked modules in the order in which they were linked, each id once. -/
abbrev Modules := List Module

namespace Modules

def find (modules : Modules) (id : String) : Option Module :=
  modules.find? fun linked => linked.id == id

def contains (modules : Modules) (id : String) : Bool :=
  (modules.find id).isSome

/-- Adds a module.  One with the same id is replaced where it stands. -/
def insert (modules : Modules) (added : Module) : Modules :=
  if modules.contains added.id then
    modules.map fun linked => if linked.id = added.id then added else linked
  else modules ++ [added]

end Modules

end CallByNeed
