import CallByNeed.Module.Order

/-!
# Linking

`link` makes a module of its parsed form, imports first.  `resolve` links a
collection of modules that import each other by id; those that are linked
already are used as they are.
-/

namespace CallByNeed

open Source

def linkImports (linked : Module) (modules : Modules) :
    List Import → Store → Except LinkError Store
  | [], store => .ok store
  | statement :: statements, store =>
    match modules.find statement.source with
    | none => .error (.notLinked statement.source)
    | some exporter => do
        let store ← linked.importFrom exporter statement.items store
        linkImports linked modules statements store

def linkBindings : Module → List Binding → Store → Except LinkError (Module × Store)
  | linked, [], store => .ok (linked, store)
  | linked, binding :: bindings, store => do
      let (_, linked, store) ← linked.define binding store
      linkBindings linked bindings store

/-- Links a module against those that are linked. -/
def link (source : ParsedModule) (modules : Modules) (store : Store) :
    Except LinkError (Module × Store) := do
  let (linked, store) := Module.create source.id (some source.path) store
  let store ← linkImports linked modules source.imports store
  linkBindings linked source.bindings store

/-- Links modules in the given order.  The result holds the new ones only. -/
def linkInOrder (sources : Sources) :
    List String → (modules added : Modules) → Store → Except LinkError (Modules × Store)
  | [], _, added, store => .ok (added, store)
  | id :: ids, modules, added, store =>
    match sources.find id with
    | none => .error (.notLinked id)
    | some source => do
        let (linked, store) ← link source modules store
        linkInOrder sources ids (modules.insert linked) (added.insert linked) store

/-- Links the modules that are not linked yet, in the order of their imports.
Nothing is evaluated. -/
def resolve (sources : Sources) (modules : Modules) (store : Store) :
    Except LinkError (Modules × Store) := do
  let sources := sources.filter fun source => !modules.contains source.id
  let order ← dependencyOrder sources (modules.map Module.id)
  linkInOrder sources order modules [] store

end CallByNeed
