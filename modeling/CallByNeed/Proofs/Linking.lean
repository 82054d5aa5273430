import CallByNeed.Proofs.Wiring

/-!
# What linking a module does

A module introduces the aliases of its imports and the names of its bindings.
It can be linked when the modules that it imports from are linked and export the
names, and when it introduces no name twice.  A module that was linked `Realizes`
its source: its names are those that the source introduces, its aliases stand
for the thunks of the exporters, and its declarations have new thunks.
-/

variable {th : Option Address} {ims : List Import} {table : Table}

namespace CallByNeed

open Source

/-! ### What a module introduces -/

/-- The local names of imports, in the order of the statements. -/
def importAliases (ims : List Import) : List Name :=
  ims.flatMap fun stm => stm.items.map ImportItem.localName

namespace Source.ParsedModule

def declared (src : ParsedModule) : List Name := src.bindings.map Binding.name

/-- The names that a module introduces, imports first. -/
def introduced (src : ParsedModule) : List Name := importAliases src.imports ++ src.declared

end Source.ParsedModule

/-- The declaration that is made for a binding. -/
def Source.Binding.declaration (bn : Binding) (th : Address) : Declaration :=
  ⟨bn.name, th, bn.term, bn.line⟩

/-- What a declaration was made for. -/
def Declaration.binding (d : Declaration) : Binding := ⟨d.name, d.term, d.line⟩

/-- A module that was linked from its source.  Its table and the thunks of its declarations
are new, and its aliases stand for the thunks of the exporters. -/
structure Realizes (ms : Modules) (bef aft : Store) (src : ParsedModule)
    (lk : Module) : Prop where
  id : lk.id = src.id
  path : lk.path = some src.path
  new : bef.tables.size ≤ lk.table
  placed : lk.table < aft.tables.size
  names : lk.names aft = src.introduced
  aliases : ∀ stm ∈ src.imports, ∀ itm ∈ stm.items,
    ∃ ex d, ms.find stm.source = some ex ∧
      ex.declaration? itm.name = some d ∧
      aft.find itm.localName lk.env = some d.thunk
  exports : lk.exports = src.declared
  bindings : lk.declarations.map Declaration.binding = src.bindings
  thunks : ∀ d ∈ lk.declarations, bef.thunk? d.thunk = none ∧
    aft.thunk? d.thunk = some (.suspended d.term lk.env (some d.name)) ∧
    aft.find d.name lk.env = some d.thunk

/-! ### Tables -/

variable {x : Name} {its : List ImportItem} {bn : Binding} {bindings : List Binding}
  {src : ParsedModule} {ms : Modules} {id : String}

theorem Table.bind_of_new (new : x ∉ table.names) (th : Option Address) :
    table.bind x th = table ++ [(x, th)] := by
  simp [Table.bind, new]

theorem Table.find_of_mem (dst : table.names.Nodup)
    (mem : (x, th) ∈ table) : table.find x = th := by
  obtain ⟨fr, bk, rfl⟩ := List.append_of_mem mem
  have found : List.lookup x (fr ++ (x, th) :: bk) = some th := by
    refine List.lookup_eq_some_iff.2 ⟨fr, bk, rfl, fun en early => ?_⟩
    simp only [Table.names, List.map_append, List.map_cons, List.nodup_append] at dst
    rw [bne_iff_ne]
    grind [List.mem_cons_self]
  rw [Table.find, found, Option.join_some]

/-- Entries with new names are added at the end of one table. -/
structure Store.Adds (num : Nat) (ents : Table) (bef aft : Store) : Prop where
  binds : Store.Binds num bef aft
  table : aft.table num = bef.table num ++ ents

namespace Store.Adds

variable {num : Nat} {ents more : Table} {fst snd thd : Store}

theorem refl (num : Nat) (s : Store) : Store.Adds num [] s s :=
  ⟨.refl num s, (List.append_nil _).symm⟩

theorem trans (early : Store.Adds num ents fst snd) (late : Store.Adds num more snd thd) :
    Store.Adds num (ents ++ more) fst thd := by
  refine ⟨early.binds.trans late.binds, ?_⟩
  rw [late.table, early.table, List.append_assoc]

theorem names (adds : Store.Adds num ents fst snd) :
    (snd.table num).names = (fst.table num).names ++ ents.names := by
  rw [adds.table, Table.names, List.map_append]
  rfl

theorem placed (adds : Store.Adds num ents fst snd) (there : num < fst.tables.size) :
    num < snd.tables.size := by
  rw [adds.binds.size]
  exact there

end Store.Adds

/-! ### One module -/

namespace Module

variable {lk o : Module} {s aft : Store}

theorem declare_of_new (new : x ∉ lk.names s) (th : Option Address) :
    lk.declare x th s = .ok (s.bind lk.table x th) := by
  rw [declare, if_neg (by simpa using new)]

theorem declare_adds (placed : lk.table < s.tables.size)
    (dcd : lk.declare x th s = .ok aft) : Store.Adds lk.table [(x, th)] s aft := by
  obtain ⟨new, rfl⟩ := declare_eq dcd
  refine ⟨.bind .., ?_⟩
  rw [Store.table_bind placed, if_pos rfl, Table.bind_of_new new]

/-- The entries of an import: the local names, with the thunks of the exporter. -/
def importEntries (o : Module) (its : List ImportItem) : Table :=
  its.map fun itm => (itm.localName, (o.declaration? itm.name).map Declaration.thunk)

theorem checkItems_ok_iff {given : List Name} :
    lk.checkItems o s given its = .ok () ↔
      (∀ itm ∈ its, itm.name ∈ o.exports) ∧ (its.map ImportItem.localName).Nodup ∧
        ∀ itm ∈ its, itm.localName ∉ given ∧ itm.localName ∉ lk.names s := by
  induction its generalizing given with
  | nil => simp [checkItems]
  | cons itm its ih =>
    rw [checkItems]
    split
    · simp_all
    · rename_i known
      split
      · grind
      · rename_i free
        rw [ih]
        simp only [Bool.not_eq_true', Bool.not_eq_false, List.contains_iff_mem,
          Bool.or_eq_true, not_or] at known free
        -- The local name of the first item is one that the others must not have.
        grind

theorem names_adds (adds : Store.Adds lk.table ents s aft) :
    lk.names aft = lk.names s ++ ents.names := adds.names

section

variable (placed : lk.table < s.tables.size)

include placed

theorem bindItems_adds (bound : lk.bindItems o its s = .ok aft) :
    Store.Adds lk.table (importEntries o its) s aft := by
  induction its generalizing s with
  | nil =>
    cases bound
    exact .refl _ _
  | cons itm its ih =>
    rw [bindItems] at bound
    obtain ⟨mid, fst, rest⟩ := ok_of_bind bound
    have step := declare_adds placed fst
    exact step.trans (ih (step.placed placed) rest)

theorem bindItems_isOk (dst : (lk.names s ++ its.map ImportItem.localName).Nodup) :
    ∃ aft, lk.bindItems o its s = .ok aft := by
  induction its generalizing s with
  | nil => exact ⟨s, rfl⟩
  | cons itm its ih =>
    have new : itm.localName ∉ lk.names s := fun mem =>
      (List.nodup_append.1 dst).2.2 _ mem _ List.mem_cons_self rfl
    have fst := declare_of_new new ((o.declaration? itm.name).map Declaration.thunk)
    have step := declare_adds placed fst
    have xs := names_adds step
    obtain ⟨aft, rest⟩ := ih (step.placed placed) (by
      rw [xs, List.append_assoc]
      exact dst)
    refine ⟨aft, ?_⟩
    rw [bindItems, fst]
    exact rest

theorem importFrom_adds (impd : lk.importFrom o its s = .ok aft) :
    Store.Adds lk.table (importEntries o its) s aft := by
  obtain ⟨_, _, bound⟩ := ok_of_bind impd
  exact bindItems_adds placed bound

omit placed in
theorem importEntries_names (o : Module) (its : List ImportItem) :
    (importEntries o its).names = its.map ImportItem.localName := by
  simp [importEntries, Table.names]

/-- An import is refused for a name that is not exported or is bound already. -/
theorem importFrom_isOk_iff (dst : (lk.names s).Nodup) :
    (∃ aft, lk.importFrom o its s = .ok aft) ↔
      (∀ itm ∈ its, itm.name ∈ o.exports) ∧ (lk.names s ++ its.map ImportItem.localName).Nodup := by
  have split : (lk.names s ++ its.map ImportItem.localName).Nodup ↔
      (its.map ImportItem.localName).Nodup ∧
        ∀ itm ∈ its, itm.localName ∉ [] ∧ itm.localName ∉ lk.names s := by grind
  constructor
  · rintro ⟨aft, impd⟩
    obtain ⟨_, checked, _⟩ := ok_of_bind impd
    grind [checkItems_ok_iff]
  · rintro ⟨exported, free⟩
    obtain ⟨aft, bound⟩ := bindItems_isOk placed free
    refine ⟨aft, ?_⟩
    rw [importFrom, checkItems_ok_iff.2 ⟨exported, split.1 free⟩]
    exact bound

theorem define_adds {next : Module} (defined : lk.define bn s = .ok (a, next, aft)) :
    a = s.size ∧
      next = lk.adding (bn.declaration s.size) ∧
      Store.Adds lk.table [(bn.name, some s.size)] s aft ∧
      aft.thunk? s.size = some (.suspended bn.term lk.env (some bn.name)) := by
  obtain ⟨mid, dcd, same⟩ := ok_of_bind defined
  have there : lk.table < (s.alloc (.suspended bn.term lk.env
      (some bn.name))).2.tables.size := placed
  have step := declare_adds there dcd
  cases same
  have added := Store.Binds.alloc lk.table s bn.term lk.env bn.name
  have held : (s.alloc (.suspended bn.term lk.env (some bn.name))).2.thunk?
      s.size = some (.suspended bn.term lk.env (some bn.name)) :=
    (Store.thunk?_alloc _ _ _).trans (if_pos rfl)
  exact ⟨rfl, rfl, ⟨added.trans step.binds, step.table⟩, step.binds.keeps held⟩

end

theorem define_isOk_iff : (∃ r, lk.define bn s = .ok r) ↔ bn.name ∉ lk.names s := by
  constructor
  · rintro ⟨r, defined⟩
    obtain ⟨mid, dcd, _⟩ := ok_of_bind defined
    exact (declare_eq dcd).1
  · intro new
    have unbound : bn.name ∉ lk.names (s.alloc (.suspended bn.term lk.env (some bn.name))).2 := new
    have dcd := declare_of_new unbound (some s.size)
    exact ⟨_, congrArg (· >>= _) dcd⟩

end Module

/-! ### The parts of a module -/

section Parts

variable {lk : Module} {s aft : Store}

/-- Entries for imports: each alias, with the thunk that the exporter has for the name. -/
structure Aliased (ms : Modules) (ims : List Import) (ents : Table) : Prop where
  names : ents.names = importAliases ims
  given : ∀ stm ∈ ims, ∀ itm ∈ stm.items,
    ∃ ex d, ms.find stm.source = some ex ∧
      ex.declaration? itm.name = some d ∧
      (itm.localName, some d.thunk) ∈ ents

theorem Aliased.cons
    (found : ms.find stm.source = some ex) (exported : ∀ itm ∈ stm.items, itm.name ∈ ex.exports)
    (rest : Aliased ms ims ents) :
    Aliased ms (stm :: ims) (ex.importEntries stm.items ++ ents) := by
  constructor
  · have fr := ex.importEntries_names stm.items
    have bk := rest.names
    grind [Table.names, importAliases]
  · intro o mem itm listed
    rcases List.mem_cons.1 mem with rfl | later
    · obtain ⟨d, dcd, _⟩ := Module.declaration?_of_exports
        (List.contains_iff_mem.2 (exported itm listed))
      refine ⟨ex, d, found, dcd, List.mem_append_left _ ?_⟩
      exact List.mem_map.2 ⟨itm, listed, by rw [dcd, Option.map_some]⟩
    · obtain ⟨o, d, there, dcd, en⟩ := rest.given o later itm listed
      simp_all

theorem linkImports_adds (placed : lk.table < s.tables.size)
    (impd : linkImports lk ms ims s = .ok aft) :
    ∃ ents, Store.Adds lk.table ents s aft ∧ Aliased ms ims ents := by
  induction ims generalizing s with
  | nil =>
    cases impd
    exact ⟨[], .refl _ _, rfl, by simp⟩
  | cons stm ims ih =>
    rw [linkImports] at impd
    split at impd
    · cases impd
    · rename_i ex found
      obtain ⟨mid, fst, rest⟩ := ok_of_bind impd
      have step := Module.importFrom_adds placed fst
      obtain ⟨ents, sts, aliased⟩ := ih (step.placed placed) rest
      obtain ⟨_, checked, _⟩ := ok_of_bind fst
      have exported := (Module.checkItems_ok_iff.1 checked).1
      exact ⟨_, step.trans sts, aliased.cons found exported⟩

/-- Imports can be bound when the exporters are there and export the names. -/
theorem linkImports_isOk_iff (ms : Modules) (ims : List Import) (placed : lk.table < s.tables.size)
    (dst : (lk.names s).Nodup) :
    (∃ aft, linkImports lk ms ims s = .ok aft) ↔
      (∀ stm ∈ ims, ∃ ex, ms.find stm.source = some ex ∧
        ∀ itm ∈ stm.items, itm.name ∈ ex.exports) ∧ (lk.names s ++ importAliases ims).Nodup := by
  induction ims generalizing s with
  | nil => simpa [linkImports, importAliases] using dst
  | cons stm ims ih =>
    have xs : importAliases (stm :: ims) =
        stm.items.map ImportItem.localName ++ importAliases ims := rfl
    rw [xs, ← List.append_assoc]
    constructor
    · rintro ⟨aft, impd⟩
      rw [linkImports] at impd
      split at impd
      · cases impd
      · rename_i ex found
        obtain ⟨mid, fst, rest⟩ := ok_of_bind impd
        obtain ⟨exported, free⟩ := (Module.importFrom_isOk_iff placed dst).1 ⟨_, fst⟩
        have step := Module.importFrom_adds placed fst
        have bound := Module.names_adds step
        rw [Module.importEntries_names] at bound
        obtain ⟨os, last⟩ := (ih (step.placed placed) (bound ▸ free)).1 ⟨_, rest⟩
        simp_all
    · rintro ⟨exporters, free⟩
      obtain ⟨ex, found, exported⟩ := exporters stm List.mem_cons_self
      obtain ⟨mid, fst⟩ := (Module.importFrom_isOk_iff placed dst).2
        ⟨exported, (List.nodup_append.1 free).1⟩
      have step := Module.importFrom_adds placed fst
      have bound := Module.names_adds step
      rw [Module.importEntries_names] at bound
      obtain ⟨aft, rest⟩ :=
        (ih (step.placed placed) (bound ▸ (List.nodup_append.1 free).1)).2
          ⟨fun o mem => exporters o (List.mem_cons_of_mem _ mem), bound ▸ free⟩
      refine ⟨aft, ?_⟩
      rw [linkImports, found]
      simp only [fst]
      exact rest

/-- Declarations that were made for bindings, with thunks that are new. -/
structure Defined (env : Env) (bef aft : Store) (bindings : List Binding)
    (ds : List Declaration) : Prop where
  bindings : ds.map Declaration.binding = bindings
  thunks : ∀ d ∈ ds, bef.thunk? d.thunk = none ∧
    aft.thunk? d.thunk = some (.suspended d.term env (some d.name))

/-- The entries of declarations in the table of their module. -/
def declaredEntries (ds : List Declaration) : Table := ds.map fun d => (d.name, some d.thunk)

section

variable (placed : lk.table < s.tables.size)

include placed

theorem linkBindings_cons {r : Module × Store} :
    linkBindings lk (bn :: bindings) s = .ok r ↔
      ∃ mid, lk.define bn s = .ok (s.size, lk.adding (bn.declaration s.size), mid) ∧
        linkBindings (lk.adding (bn.declaration s.size)) bindings mid = .ok r := by
  rw [linkBindings]
  constructor
  · intro bound
    obtain ⟨⟨a, next, mid⟩, fst, rest⟩ := ok_of_bind bound
    obtain ⟨rfl, rfl, _⟩ := Module.define_adds placed fst
    simp_all
  · rintro ⟨mid, fst, rest⟩
    rw [fst]
    exact rest

theorem linkBindings_adds {last : Module} (bound : linkBindings lk bindings s = .ok (last, aft)) :
    ∃ ds, last = { lk with declarations := lk.declarations ++ ds } ∧
      Store.Adds lk.table (declaredEntries ds) s aft ∧ Defined lk.env s aft bindings ds := by
  induction bindings generalizing lk s with
  | nil =>
    cases bound
    exact ⟨[], by simp, .refl _ _, rfl, by simp⟩
  | cons bn bindings ih =>
    obtain ⟨mid, fst, rest⟩ := (linkBindings_cons placed).1 bound
    obtain ⟨_, _, step, held⟩ := Module.define_adds placed fst
    have there : (lk.adding (bn.declaration s.size)).table < mid.tables.size := step.placed placed
    obtain ⟨ds, rfl, sts, defined⟩ := ih there rest
    refine ⟨bn.declaration s.size :: ds, by simp [Module.adding], step.trans sts, ?_, ?_⟩
    · rw [List.map_cons, defined.bindings]
      rfl
    · intro d mem
      rcases List.mem_cons.1 mem with rfl | later
      · exact ⟨Store.thunk?_size s, sts.binds.keeps held⟩
      · obtain ⟨new, heldAfter⟩ := defined.thunks d later
        refine ⟨?_, heldAfter⟩
        cases early : s.thunk? d.thunk with
        | none => rfl
        | some th => simp [step.binds.keeps early] at new

theorem linkBindings_isOk_iff (dst : (lk.names s).Nodup) :
    (∃ r, linkBindings lk bindings s = .ok r) ↔
      (lk.names s ++ bindings.map Binding.name).Nodup := by
  induction bindings generalizing lk s with
  | nil => simpa [linkBindings] using dst
  | cons bn bindings ih =>
    rw [List.map_cons, List.append_cons]
    -- What the first binding adds is the same in both directions.
    have next : ∀ {mid}, lk.define bn s = .ok (s.size, lk.adding
        (bn.declaration s.size), mid) →
        (lk.names s ++ [bn.name]).Nodup →
        ((∃ r, linkBindings (lk.adding (bn.declaration s.size)) bindings
          mid = .ok r) ↔ (lk.names s ++ [bn.name] ++ bindings.map Binding.name).Nodup) := by
      intro mid fst free
      obtain ⟨_, _, step, _⟩ := Module.define_adds placed fst
      have xs : lk.names mid = lk.names s ++ [bn.name] := Module.names_adds step
      rw [← xs] at free ⊢
      exact ih (step.placed placed) free
    have one : bn.name ∉ lk.names s ↔ (lk.names s ++ [bn.name]).Nodup := by grind
    constructor
    · rintro ⟨r, bound⟩
      obtain ⟨mid, fst, rest⟩ := (linkBindings_cons placed).1 bound
      grind [Module.define_isOk_iff]
    · intro free
      have early := (List.nodup_append.1 free).1
      obtain ⟨⟨a, module, mid⟩, fst⟩ := Module.define_isOk_iff.2 (one.2 early)
      obtain ⟨rfl, rfl, _⟩ := Module.define_adds placed fst
      obtain ⟨r, rest⟩ := (next fst early).2 free
      exact ⟨r, (linkBindings_cons placed).2 ⟨mid, fst, rest⟩⟩

end

/-! ### A module -/

theorem create_placed (id : String) (ph : Option String) (s : Store) :
    (Module.create id ph s).1.table < (Module.create id ph s).2.tables.size := by
  simp [Module.create, Store.addTable]

theorem create_names (id : String) (ph : Option String) (s : Store) :
    (Module.create id ph s).1.names (Module.create id ph s).2 = [] := by
  have empty : (s.addTable []).2.table s.tables.size = [] := by
    rw [s.table_addTable]
    simp [Store.table]
  exact congrArg Table.names empty

theorem link_eq (src : ParsedModule) (ms : Modules) (s : Store) :
    link src ms s =
      linkImports (Module.create src.id (some src.path) s).1 ms src.imports
          (Module.create src.id (some src.path) s).2 >>=
        linkBindings (Module.create src.id (some src.path) s).1 src.bindings := rfl

/-- The names behind the imports of a new module are the aliases. -/
theorem linkImports_names
    (impd : linkImports (Module.create src.id (some src.path) s).1 ms
      src.imports (Module.create src.id (some src.path) s).2 = .ok aft) :
    (Module.create src.id (some src.path) s).1.names aft = importAliases src.imports := by
  obtain ⟨ents, adds, aliased⟩ := linkImports_adds (create_placed _ _ _) impd
  rw [Module.names_adds adds, create_names, List.nil_append, aliased.names]

/-- A module can be linked when the modules that it imports from are linked and export
the names, and no name is introduced twice. -/
theorem link_isOk_iff :
    (∃ r, link src ms s = .ok r) ↔
      (∀ stm ∈ src.imports, ∃ ex, ms.find stm.source = some ex ∧
        ∀ itm ∈ stm.items, itm.name ∈ ex.exports) ∧ src.introduced.Nodup := by
  have placed := create_placed src.id (some src.path) s
  have xs := create_names src.id (some src.path) s
  have ims := linkImports_isOk_iff ms src.imports placed (xs ▸ List.nodup_nil)
  rw [xs, List.nil_append] at ims
  have bindings : ∀ {mid}, linkImports (Module.create src.id (some src.path) s).1
      ms src.imports (Module.create src.id (some src.path) s).2 = .ok mid →
      ((∃ r, linkBindings (Module.create src.id (some src.path) s).1
        src.bindings mid = .ok r) ↔ src.introduced.Nodup) := by
    intro mid impd
    obtain ⟨ents, adds, _⟩ := linkImports_adds placed impd
    have dst := (ims.1 ⟨_, impd⟩).2
    have aliases := linkImports_names impd
    rw [← aliases] at dst
    rw [linkBindings_isOk_iff (adds.placed placed) dst, aliases]
    rfl
  constructor
  · rintro ⟨r, done⟩
    obtain ⟨mid, impd, bound⟩ := ok_of_bind done
    exact ⟨(ims.1 ⟨_, impd⟩).1, (bindings impd).1 ⟨_, bound⟩⟩
  · rintro ⟨exporters, dst⟩
    obtain ⟨mid, impd⟩ := ims.2 ⟨exporters, (List.nodup_append.1 dst).1⟩
    obtain ⟨r, bound⟩ := (bindings impd).2 dst
    refine ⟨r, ?_⟩
    rw [link_eq, impd]
    exact bound

theorem link_realizes (done : link src ms s = .ok (lk, aft)) : Realizes ms s aft src lk := by
  have dst : src.introduced.Nodup := (link_isOk_iff.1 ⟨_, done⟩).2
  obtain ⟨mid, impd, bound⟩ := ok_of_bind done
  have placed := create_placed src.id (some src.path) s
  obtain ⟨ents, ims, aliased⟩ := linkImports_adds placed impd
  obtain ⟨ds, rfl, adds, defined⟩ := linkBindings_adds (ims.placed placed) bound
  have all := ims.trans adds
  have xs : (ents ++ declaredEntries ds).names = src.introduced := by
    have fr := aliased.names
    simp only [Table.names, declaredEntries] at fr ⊢
    rw [List.map_append, fr, List.map_map, ParsedModule.introduced, ParsedModule.declared,
      ← defined.bindings, List.map_map]
    rfl
  have table : aft.table s.tables.size = ents ++ declaredEntries ds := by
    have empty := all.table
    rwa [show (Module.create src.id (some src.path) s).2.table _ = [] from
      List.map_eq_nil_iff.1 (create_names src.id (some src.path) s), List.nil_append] at empty
  have found : ∀ {x a}, (x, some a) ∈ ents ++ declaredEntries ds →
      aft.find x (.root s.tables.size) = some a := by
    grind [Store.find, Table.find_of_mem]
  constructor
  case id => rfl
  case path => rfl
  case new => exact Nat.le_refl _
  case placed => exact all.placed placed
  case names =>
    rw [← xs, ← table]
    rfl
  case aliases =>
    intro stm mem itm listed
    obtain ⟨ex, d, there, dcd, en⟩ := aliased.given stm mem itm listed
    exact ⟨ex, d, there, dcd, found (List.mem_append_left _ en)⟩
  case exports =>
    rw [ParsedModule.declared, ← defined.bindings, List.map_map]
    rfl
  case bindings => exact defined.bindings
  case thunks =>
    intro d mem
    obtain ⟨new, held⟩ := defined.thunks d mem
    refine ⟨?_, held, found (List.mem_append_right _ (List.mem_map_of_mem mem))⟩
    cases early : s.thunk? d.thunk with
    | none => rfl
    | some th =>
      have kept : mid.thunk? d.thunk = some th := ims.binds.keeps early
      simp [kept] at new

theorem link_links (done : link src ms s = .ok (lk, aft)) : s.Links aft := by
  obtain ⟨mid, impd, bound⟩ := ok_of_bind done
  have placed := create_placed src.id (some src.path) s
  obtain ⟨_, ims, _⟩ := linkImports_adds placed impd
  obtain ⟨_, _, adds, _⟩ := linkBindings_adds (ims.placed placed) bound
  exact (ims.binds.trans adds.binds).links

end Parts

/-! ### Modules by their ids -/

theorem Modules.find_append {lk : Module} (found : ms.find id = some lk) (more : Modules) :
    Modules.find (ms ++ more) id = some lk := by grind [Modules.find]

theorem Modules.find_append_of_none (missing : ms.find id = none) (more : Modules) :
    Modules.find (ms ++ more) id = more.find id := by grind [Modules.find]

theorem Modules.find_eq_none : ms.find id = none ↔ id ∉ ms.map Module.id := by
  simp [Modules.find]

theorem Modules.find_of_mem (mem : id ∈ ms.map Module.id) :
    ∃ lk ∈ ms, ms.find id = some lk ∧ lk.id = id := by
  cases found : ms.find id with
  | none => exact absurd mem (Modules.find_eq_none.1 found)
  | some lk =>
    exact ⟨lk, List.mem_of_find?_eq_some found, rfl, by simpa using List.find?_some found⟩

/-- A module that was linked stays as it is when more modules are linked. -/
theorem Realizes.later {bef aft fi : Store} {lk : Module} (realizes : Realizes ms bef aft src lk)
    (early : s.Links bef) (late : aft.Links fi) (more : Modules) :
    Realizes (ms ++ more) s fi src lk := by
  have table : fi.table lk.table = aft.table lk.table := late.tables lk.table realizes.placed
  have find : ∀ x, fi.find x lk.env = aft.find x lk.env := by
    grind [Module.env, Store.find]
  constructor
  case id => exact realizes.id
  case path => exact realizes.path
  case new => exact Nat.le_trans early.size realizes.new
  case placed => exact Nat.lt_of_lt_of_le realizes.placed late.size
  case names => exact (congrArg Table.names table).trans realizes.names
  case aliases =>
    intro stm mem itm listed
    obtain ⟨ex, d, found, dcd, bound⟩ := realizes.aliases stm mem itm listed
    exact ⟨ex, d, Modules.find_append found more, dcd, (find itm.localName).trans bound⟩
  case exports => exact realizes.exports
  case bindings => exact realizes.bindings
  case thunks =>
    intro d mem
    obtain ⟨new, held, bound⟩ := realizes.thunks d mem
    refine ⟨?_, late.keeps held, (find d.name).trans bound⟩
    cases there : s.thunk? d.thunk with
    | none => rfl
    | some th => simp [early.keeps there] at new

end CallByNeed
