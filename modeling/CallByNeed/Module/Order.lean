import CallByNeed.Module

/-!
# The order of imports

Modules are linked after the modules that they import.  `dependencyOrder`
visits the modules depth first, each one after its imports, and fails when
modules import each other or when an import is not there.
-/

namespace CallByNeed

open Source

/-- Parsed modules, each id once. -/
abbrev Sources := List ParsedModule

namespace Sources

def ids (sources : Sources) : List String :=
  sources.map ParsedModule.id

def find (sources : Sources) (id : String) : Option ParsedModule :=
  sources.find? fun source => source.id == id

/-- Adds a module.  One with the same id is replaced where it stands. -/
def insert (sources : Sources) (added : ParsedModule) : Sources :=
  if sources.ids.contains added.id then
    sources.map fun source => if source.id = added.id then added else source
  else sources ++ [added]

/-- How many modules are not on a path of imports. -/
def unvisited (sources : Sources) (path : List String) : Nat :=
  sources.countP fun source => !path.contains source.id

end Sources

def importedIds (source : ParsedModule) : List String :=
  source.imports.map Import.source

/-- A stricter condition counts fewer items if it leaves one of them out. -/
theorem countP_lt_countP {α : Type} {items : List α} {loose strict : α → Bool}
    (implies : ∀ item, strict item → loose item) {item : α} (member : item ∈ items)
    (counted : loose item) (left : strict item = false) :
    items.countP strict < items.countP loose := by
  induction items with
  | nil => simp at member
  | cons head tail ih =>
    simp only [List.countP_cons]
    rcases List.mem_cons.mp member with rfl | later
    · have := List.countP_mono_left (l := tail) fun item _ => implies item
      simp only [counted, left, if_true, Bool.false_eq_true, if_false]
      omega
    · have := ih later
      by_cases kept : strict head
      · simp only [kept, implies head kept, if_true]
        omega
      · simp only [kept, Bool.false_eq_true, if_false]
        omega

/-- A path that goes on to a new module leaves fewer modules. -/
theorem unvisited_append_lt {sources : Sources} {path : List String} {id : String}
    {source : ParsedModule} (found : sources.find id = some source)
    (fresh : path.contains id = false) :
    sources.unvisited (path ++ [id]) < sources.unvisited path := by
  have same : source.id = id := by simpa using List.find?_some found
  refine countP_lt_countP ?_ (List.mem_of_find?_eq_some found) ?_ ?_
  · intro item kept
    simp_all
  · simpa [same] using fresh
  · simp [same]

/-- Visits the imports of the last module of a path.  `order` are the modules
that are finished, and `linked` those that were there before. -/
def visitImports (sources : Sources) (linked : List String) (importer : String)
    (path order : List String) : List String → Except LinkError (List String)
  | [] => .ok order
  | child :: children =>
    if linked.contains child || order.contains child then
      visitImports sources linked importer path order children
    else if fresh : path.contains child then
      .error (.cyclicImport (path.dropWhile (· ≠ child) ++ [child]))
    else
      match found : sources.find child with
      | none => .error (.notLoaded child importer)
      | some source => do
          have := unvisited_append_lt found (by simpa using fresh)
          let order ← visitImports sources linked child (path ++ [child]) order
            (importedIds source)
          visitImports sources linked importer path (order ++ [child]) children
termination_by children => (sources.unvisited path, children.length)

def visitAll (sources : Sources) (linked : List String) :
    List String → Sources → Except LinkError (List String)
  | order, [] => .ok order
  | order, source :: rest =>
    if linked.contains source.id || order.contains source.id then
      visitAll sources linked order rest
    else do
      let order ← visitImports sources linked source.id [source.id] order
        (importedIds source)
      visitAll sources linked (order ++ [source.id]) rest

/-- The ids of modules that are not linked yet, each one after those that it
imports. -/
def dependencyOrder (sources : Sources) (linked : List String) :
    Except LinkError (List String) :=
  visitAll sources linked [] sources

end CallByNeed
