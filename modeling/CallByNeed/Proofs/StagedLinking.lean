import CallByNeed.Proofs.Resolution

/-!
# Linking in stages

Modules can be linked all at once, or some of them first and the others later.
`resolve_in_stages` says that it makes no difference, when the first ones import
nothing but each other: one way succeeds when the other does, and the modules are
the same up to the thunks of their declarations.

The proof has two parts.  What `resolve` asks of a collection, said without its
search in `Resolvable`, can be asked of the two stages apart.  And modules that
were linked from the same sources, in whatever way, are copies of each other.
-/

variable {src : ParsedModule} {id : String}

namespace CallByNeed

variable {x : Name}

open Source

/-! ### Two collections -/

namespace Sources

/-- Two collections as one.  A module of the second replaces the one with its id. -/
def together (fst snd : Sources) : Sources := snd.foldl Sources.insert fst

/-- The modules import nothing but each other. -/
def ImportClosed (srcs : Sources) : Prop := ∀ src ∈ srcs, ∀ id ∈ importedIds src, id ∈ srcs.ids

/-- Where both collections have a module, it is the same. -/
def Agree (fst snd : Sources) : Prop := ∀ src ∈ fst, ∀ o ∈ snd, src.id = o.id → src = o

variable {fst snd srcs : Sources} {id : String} {src : ParsedModule}

theorem id_of_find (found : srcs.find id = some src) : src.id = id := by
  simpa using List.find?_some found

theorem find_of_mem_ids (mem : id ∈ srcs.ids) : ∃ src, srcs.find id = some src := by
  rw [← Option.isSome_iff_exists, ← Option.ne_none_iff_isSome]
  grind [find_eq_none]

theorem find_insert (srcs : Sources) (added : ParsedModule) (id : String) :
    (srcs.insert added).find id = if added.id = id then some added else srcs.find id := by
  rw [insert]
  split
  · rename_i there
    rw [List.contains_iff_mem] at there
    -- Replacing a module keeps its id, so the same places are found.
    have found : find (srcs.map fun src => if src.id = added.id then added else src)
        id = (srcs.find id).map fun src => if src.id = added.id then added else src := by
      grind [find]
    rw [found]
    by_cases same : added.id = id
    · grind [find_of_mem_ids, id_of_find]
    · rw [if_neg same]
      cases known : srcs.find id with
      | none => rfl
      | some src => grind [id_of_find]
  · rename_i absent
    rw [List.contains_iff_mem] at absent
    rw [find, List.find?_append]
    by_cases same : added.id = id
    · have missing : srcs.find id = none := find_eq_none.2 (same ▸ absent)
      grind [find]
    grind [find]

theorem find_together (dst : snd.ids.Nodup) (agree : fst.Agree snd) (id : String) :
    (fst.together snd).find id = (fst.find id).or (snd.find id) := by
  -- The modules that are added last are found first.
  have last : (fst.together snd).find id = (snd.find id).or (fst.find id) := by
    clear agree
    induction snd generalizing fst with
    | nil => rfl
    | cons added rest ih =>
      rw [ids, List.map_cons, List.nodup_cons] at dst
      have later : (fst.together (added :: rest)).find id =
          (Sources.find rest id).or ((fst.insert added).find id) := ih dst.2
      rw [later, find_insert]
      by_cases same : added.id = id
      · have missing : Sources.find rest id = none := find_eq_none.2 (same ▸ dst.1)
        grind [find]
      grind [find]
  rw [last]
  cases early : fst.find id with
  | none => rw [Option.or_none, Option.none_or]
  | some src =>
    cases late : snd.find id with
    | none => rfl
    | some o =>
      have same := agree src (List.mem_of_find?_eq_some early) o
        (List.mem_of_find?_eq_some late) ((id_of_find early).trans (id_of_find late).symm)
      simp_all

theorem mem_ids_together (dst : snd.ids.Nodup) (agree : fst.Agree snd) {id : String} :
    id ∈ (fst.together snd).ids ↔ id ∈ fst.ids ∨ id ∈ snd.ids := by
  rw [← not_iff_not, not_or, ← find_eq_none, find_together dst agree, Option.or_eq_none_iff,
    find_eq_none, find_eq_none]

end Sources

/-! ### What can be resolved -/

/-- What is asked of a collection when some modules are linked. -/
structure Resolvable (srcs : Sources) (ms : Modules) : Prop where
  complete : srcs.Complete (ms.map Module.id)
  acyclic : srcs.Acyclic (ms.map Module.id)
  linkable : ∀ id src, id ∉ ms.map Module.id → srcs.find id = some src →
    Linkable srcs ms src

section Unlinked

variable {srcs : Sources} {ms : Modules} {id : String}

theorem Sources.find_unlinked (new : id ∉ ms.map Module.id) :
    (srcs.unlinked ms).find id = srcs.find id := by
  grind [Sources.find, Sources.unlinked, Modules.find_eq_none, Modules.contains]

theorem Sources.find_unlinked_of_linked (lk : id ∈ ms.map Module.id) :
    (srcs.unlinked ms).find id = none := by
  rw [Sources.find_eq_none, Sources.ids, List.mem_map]
  rintro ⟨src, mem, rfl⟩
  have new := (List.mem_filter.1 mem).2
  grind [Modules.find_of_mem, Modules.contains]

theorem Sources.imports_unlinked :
    (srcs.unlinked ms).Imports (ms.map Module.id) = srcs.Imports (ms.map Module.id) := by
  funext imp impd
  refine propext (and_congr_right fun new => ?_)
  rw [Sources.find_unlinked new]

theorem declares_unlinked : Declares (srcs.unlinked ms) ms id x ↔ Declares srcs ms id x := by
  refine or_congr_right (and_congr_right fun missing => ?_)
  rw [Sources.find_unlinked (Modules.find_eq_none.1 missing)]

theorem linkable_unlinked : Linkable (srcs.unlinked ms) ms src ↔ Linkable srcs ms src := by
  constructor
  · rintro ⟨dcd, dst⟩
    exact ⟨fun stm mem itm listed =>
      declares_unlinked.1 (dcd stm mem itm listed), dst⟩
  · rintro ⟨dcd, dst⟩
    exact ⟨fun stm mem itm listed =>
      declares_unlinked.2 (dcd stm mem itm listed), dst⟩

theorem complete_unlinked :
    (srcs.unlinked ms).Complete (ms.map Module.id) ↔ srcs.Complete (ms.map Module.id) := by
  rw [Sources.Complete, Sources.Complete, Sources.imports_unlinked]
  refine forall₂_congr fun imp impd => imp_congr_right fun _ => ?_
  by_cases lk : impd ∈ ms.map Module.id
  · simp [lk]
  · refine or_congr_left ?_
    rw [← not_iff_not, ← Sources.find_eq_none, ← Sources.find_eq_none, Sources.find_unlinked lk]

theorem resolve_isOk_iff_resolvable :
    (∃ r, resolve srcs ms s = .ok r) ↔ Resolvable srcs ms := by
  rw [resolve_isOk_iff, dependencyOrder_isOk_iff, complete_unlinked, Sources.Acyclic,
    Sources.imports_unlinked]
  constructor
  · rintro ⟨⟨complete, acyclic⟩, linkable⟩
    refine ⟨complete, acyclic, fun id src new found => ?_⟩
    exact linkable_unlinked.1 (linkable id src ((Sources.find_unlinked new).trans found))
  · rintro ⟨complete, acyclic, linkable⟩
    refine ⟨⟨complete, acyclic⟩, fun id src found => linkable_unlinked.2 ?_⟩
    by_cases lk : id ∈ ms.map Module.id
    · grind [Sources.find_unlinked_of_linked]
    grind [Sources.find_unlinked]

end Unlinked

/-! ### Modules of the same sources -/

/-- Modules that were linked from a collection, each of its modules once. -/
structure Realized (srcs : Sources) (bef : Store) (ms : Modules) (aft : Store) :
    Prop where
  mem_ids : ∀ id, id ∈ ms.map Module.id ↔ id ∈ srcs.ids
  ids : (ms.map Module.id).Nodup
  tables : (ms.map Module.table).Nodup
  realizes : ∀ lk ∈ ms, ∃ src, srcs.find lk.id = some src ∧
    Realizes ms bef aft src lk

/-- The thunks of one declaration, where its module was linked twice. -/
def Twins (ms os : Modules) (a o : Address) : Prop :=
  ∃ lk ∈ ms, ∃ copy ∈ os, lk.id = copy.id ∧
    ∃ d ∈ lk.declarations, ∃ snd ∈ copy.declarations,
      d.name = snd.name ∧ d.thunk = a ∧ snd.thunk = o

/-- A declaration with its thunk renamed. -/
def Declaration.moved (translate : Address → Address) (d : Declaration) : Declaration :=
  { d with thunk := translate d.thunk }

/-- One module, linked twice.  The names, the exports, the lines and the terms are the same,
and each name stands for the thunk of the same declaration. -/
structure Module.Copies (translate : Address → Address) (s o : Store)
    (lk copy : Module) : Prop where
  id : copy.id = lk.id
  path : copy.path = lk.path
  names : copy.names o = lk.names s
  declarations : copy.declarations = lk.declarations.map (Declaration.moved translate)
  wiring : ∀ x, o.find x copy.env = (s.find x lk.env).map translate
  thunks : ∀ d ∈ lk.declarations,
    s.thunk? d.thunk = some (.suspended d.term lk.env (some d.name)) ∧
    o.thunk? (translate d.thunk) = some (.suspended d.term copy.env (some d.name))

namespace Realized

variable {srcs : Sources} {bef before' s o : Store} {ms os : Modules}

section

variable (realized : Realized srcs bef ms s)

include realized

theorem eq_of_id {lk : Module} (mem : lk ∈ ms) (listed : copy ∈ ms) (same : lk.id = copy.id) :
    lk = copy := List.inj_on_of_nodup_map realized.ids mem listed same

/-- A thunk belongs to one declaration of one module. -/
theorem owner_unique {lk : Module} {declaration snd : Declaration} (member : lk ∈ ms)
    (listed : copy ∈ ms) (declared : declaration ∈ lk.declarations) (also : snd ∈ copy.declarations)
    (same : declaration.thunk = snd.thunk) : lk = copy ∧ declaration.name = snd.name := by
  obtain ⟨_, _, realizes⟩ := realized.realizes lk member
  obtain ⟨_, _, realizesCopy⟩ := realized.realizes copy listed
  have held := (realizes.thunks declaration declared).2.1
  rw [same, (realizesCopy.thunks snd also).2.1, Option.some_inj] at held
  injection held with names contents
  injection contents with terms envs
  injection envs with tables
  injection names with names
  exact ⟨List.inj_on_of_nodup_map realized.tables member listed tables.symm, names.symm⟩

theorem thunk_unique {lk : Module} {snd : Declaration} (mem : lk ∈ ms) (dcd : d ∈ lk.declarations)
    (also : snd ∈ lk.declarations) (same : d.name = snd.name) : d.thunk = snd.thunk := by
  obtain ⟨_, _, realizes⟩ := realized.realizes lk mem
  have bound := (realizes.thunks d dcd).2.2
  rw [same, (realizes.thunks snd also).2.2, Option.some_inj] at bound
  exact bound.symm

theorem twins_unique (again : Realized srcs before' os o) {fst snd : Address}
    (twins : Twins ms os a fst) (more : Twins ms os a snd) : fst = snd := by
  obtain ⟨lk, mem, copy, listed, ids, d, dcd, twin, also, xs, rfl, rfl⟩ := twins
  obtain ⟨linked', member', copy', listed', ids', declaration', declared', twin', also', names',
    same, rfl⟩ := more
  obtain ⟨rfl, named⟩ := realized.owner_unique member' mem declared' dcd same
  obtain rfl := again.eq_of_id listed listed' (ids.symm.trans ids')
  exact again.thunk_unique listed also also' (xs.symm.trans (named.symm.trans names'))

end

end Realized

theorem Twins.symm {os : Modules} {o : Address} (twins : Twins ms os a o) :
    Twins os ms o a := by
  obtain ⟨lk, mem, copy, listed, ids, d, dcd, twin, also, xs, same, last⟩ := twins
  exact ⟨copy, listed, lk, mem, ids.symm, twin, also, d, dcd, xs.symm, last, same⟩

open Classical in
/-- The thunk that a thunk has become. -/
noncomputable def twin (ms os : Modules) (a : Address) : Address :=
  if found : ∃ o, Twins ms os a o then found.choose else a

namespace Realized

variable {srcs : Sources} {bef before' s o : Store} {ms os : Modules}

theorem twin_eq (realized : Realized srcs bef ms s) (again : Realized srcs before' os o)
    {r : Address} (twins : Twins ms os a r) : twin ms os a = r := by
  have found : ∃ o, Twins ms os a o := ⟨r, twins⟩
  rw [twin, dif_pos found]
  exact realized.twins_unique again found.choose_spec twins

variable {lk : Module}

theorem counterpart (realized : Realized srcs bef ms s) (again : Realized srcs before' os o)
    (mem : lk ∈ ms) : ∃ copy ∈ os, os.find lk.id = some copy ∧ copy.id = lk.id :=
  Modules.find_of_mem ((again.mem_ids lk.id).2
    ((realized.mem_ids lk.id).1 (List.mem_map_of_mem mem)))

section Counterpart

variable {lk copy : Module} {src : ParsedModule}

theorem declarations_eq (realized : Realized srcs bef ms s) (again : Realized srcs before' os o)
    (member : lk ∈ ms) (listed : copy ∈ os) (same : copy.id = lk.id)
    (realizes : Realizes ms bef s src lk) (realizesCopy : Realizes os before' o src copy) :
    copy.declarations = lk.declarations.map (Declaration.moved (twin ms os)) := by
  have bindings := realizesCopy.bindings.trans realizes.bindings.symm
  refine List.ext_getElem (by simpa using congrArg List.length bindings) fun index here there => ?_
  rw [List.length_map] at there
  have binding : copy.declarations[index].binding = lk.declarations[index].binding := by
    have entry := congrArg (·[index]?) bindings
    grind
  injection binding with names terms lines
  have twins : Twins ms os lk.declarations[index].thunk copy.declarations[index].thunk :=
    ⟨lk, member, copy, listed, same.symm, _, List.getElem_mem there, _,
      List.getElem_mem here, names.symm, rfl, rfl⟩
  rw [List.getElem_map, Declaration.moved, realized.twin_eq again twins, ← names, ← terms, ← lines]

/-- A name of a module stands for the thunks of one declaration. -/
theorem twins_of_introduced (mem : lk ∈ ms) (listed : copy ∈ os) (same : copy.id = lk.id)
    (realizes : Realizes ms bef s src lk) (realizesCopy : Realizes os before' o src copy)
    (introduced : x ∈ src.introduced) :
    ∃ a r, s.find x lk.env = some a ∧ o.find x copy.env = some r ∧ Twins ms os a r := by
  rcases List.mem_append.1 introduced with impd | dcd
  · obtain ⟨stm, stated, aliased⟩ := List.mem_flatMap.1 impd
    obtain ⟨itm, itemized, rfl⟩ := List.mem_map.1 aliased
    obtain ⟨ex, d, found, declares, bound⟩ := realizes.aliases stm stated itm itemized
    obtain ⟨exporter', declaration', found', declares', bound'⟩ :=
      realizesCopy.aliases stm stated itm itemized
    have ids : ex.id = exporter'.id := by
      have here : ex.id = stm.source := by simpa using List.find?_some found
      have there : exporter'.id = stm.source := by simpa using List.find?_some found'
      simp_all
    have xs : d.name = declaration'.name := by
      have here : d.name = itm.name := by simpa using List.find?_some declares
      have there : declaration'.name = itm.name := by simpa using List.find?_some declares'
      simp_all
    exact ⟨_, _, bound, bound', ex, List.mem_of_find?_eq_some found, exporter',
      List.mem_of_find?_eq_some found', ids, d, List.mem_of_find?_eq_some declares,
      declaration', List.mem_of_find?_eq_some declares', xs, rfl, rfl⟩
  · have here : x ∈ lk.exports := realizes.exports ▸ dcd
    have there : x ∈ copy.exports := realizesCopy.exports ▸ dcd
    obtain ⟨d, declares, rfl⟩ := List.mem_map.1 here
    obtain ⟨declaration', declares', xs⟩ := List.mem_map.1 there
    have bound := (realizes.thunks d declares).2.2
    have bound' := (realizesCopy.thunks declaration' declares').2.2
    rw [xs] at bound'
    exact ⟨_, _, bound, bound', lk, mem, copy, listed, same.symm, d, declares,
      declaration', declares', xs.symm, rfl, rfl⟩

end Counterpart

theorem find_of_not_introduced {aft : Store} (realizes : Realizes ms bef aft src lk)
    (unknown : x ∉ src.introduced) : aft.find x lk.env = none := by
  rw [Option.eq_none_iff_forall_ne_some]
  intro a found
  rw [← realizes.names] at unknown
  exact unknown (Table.mem_names_of_find found)

/-- Linking the same modules in two ways makes copies. -/
theorem copies (realized : Realized srcs bef ms s) (again : Realized srcs before' os o)
    (mem : lk ∈ ms) : ∃ copy, os.find lk.id = some copy ∧ lk.Copies (twin ms os) s o copy := by
  obtain ⟨copy, listed, found, same⟩ := realized.counterpart again mem
  obtain ⟨src, known, realizes⟩ := realized.realizes lk mem
  obtain ⟨source', known', realizesCopy⟩ := again.realizes copy listed
  rw [same, known] at known'
  cases known'
  have ds := realized.declarations_eq again mem listed same realizes realizesCopy
  refine ⟨copy, found, same, ?_, ?_, ds, ?_, ?_⟩
  · rw [realizes.path, realizesCopy.path]
  · rw [realizes.names, realizesCopy.names]
  · intro x
    by_cases introduced : x ∈ src.introduced
    · obtain ⟨a, r, bound, bound', twins⟩ :=
        twins_of_introduced mem listed same realizes realizesCopy introduced
      rw [bound, bound', Option.map_some, realized.twin_eq again twins]
    grind [find_of_not_introduced]
  · intro d dcd
    refine ⟨(realizes.thunks d dcd).2.1, ?_⟩
    have renamed : d.moved (twin ms os) ∈ copy.declarations := ds ▸ List.mem_map_of_mem dcd
    exact (realizesCopy.thunks _ renamed).2.1

theorem twin_injOn (realized : Realized srcs bef ms s) (again : Realized srcs before' os o) :
    Set.InjOn (twin ms os) {a | Owned ms a} := by
  -- Every thunk of a declaration has a twin, and it is its twin's only one.
  have twins : ∀ a, Owned ms a → Twins ms os a (twin ms os a) := by
    rintro _ ⟨lk, mem, d, dcd, rfl⟩
    obtain ⟨copy, found, copies⟩ := realized.copies again mem
    refine ⟨lk, mem, copy, List.mem_of_find?_eq_some found, copies.id.symm, d,
      dcd, d.moved (twin ms os), ?_, rfl, rfl, rfl⟩
    exact copies.declarations ▸ List.mem_map_of_mem dcd
  intro a owned snd also same
  have fst := twins a owned
  rw [same] at fst
  exact again.twins_unique realized fst.symm (twins snd also).symm

end Realized

/-! ### The two stages -/

theorem resolve_realized {added : Modules} {aft : Store}
    (rsd : resolve srcs [] s = .ok (added, aft)) : Realized srcs s added aft := by
  obtain ⟨ordered, tbs, realizes⟩ := resolve_realizes rsd
  have topo := dependencyOrder_topological ordered
  have all : srcs.unlinked [] = srcs := List.filter_eq_self.2 fun _ _ => rfl
  rw [all] at topo realizes
  refine ⟨fun id => ?_, topo.nodup, tbs, realizes⟩
  rw [topo.mem_iff]
  simp

section Stages

variable {fst snd : Sources} {lk : List String} {early late : Modules}
  {s mid last : Store}

section

variable (dst : snd.ids.Nodup)

include dst

theorem imports_together (agree : fst.Agree snd) (known : ∀ id, id ∈ lk ↔ id ∈ fst.ids)
    {imp impd : String} :
    (fst.together snd).Imports [] imp impd ↔ fst.Imports [] imp impd ∨ snd.Imports lk imp impd := by
  grind [Sources.Imports, Sources.find_together, Sources.find_of_mem_ids, Sources.find_eq_none]

omit dst in
theorem ImportClosed.imported (closed : fst.ImportClosed) {imp impd : String}
    (ims : fst.Imports [] imp impd) : imp ∈ fst.ids ∧ impd ∈ fst.ids := by
  obtain ⟨_, src, found, listed⟩ := ims
  exact ⟨Sources.mem_ids_of_find found, closed src (List.mem_of_find?_eq_some found) impd listed⟩

/-- A path of imports that has come into the first stage stays there. -/
theorem import_path_together (agree : fst.Agree snd) (closed : fst.ImportClosed)
    (known : ∀ id, id ∈ lk ↔ id ∈ fst.ids) {imp impd : String}
    (ph : Relation.TransGen ((fst.together snd).Imports []) imp impd) :
    (imp ∈ fst.ids →
      impd ∈ fst.ids ∧ Relation.TransGen (fst.Imports []) imp impd) ∧
    (impd ∉ fst.ids → Relation.TransGen (snd.Imports lk) imp impd) := by
  induction ph with
  | single edge =>
    rcases (imports_together dst agree known).1 edge with inside | ots
    · grind [ImportClosed.imported]
    · have new : imp ∉ fst.ids := fun mem => ots.1 ((known _).2 mem)
      grind
  | @tail between impd _ edge ih =>
    rcases (imports_together dst agree known).1 edge with inside | ots
    · grind [ImportClosed.imported]
    · have new : between ∉ fst.ids := fun mem => ots.1 ((known _).2 mem)
      grind

theorem acyclic_together (agree : fst.Agree snd) (closed : fst.ImportClosed)
    (known : ∀ id, id ∈ lk ↔ id ∈ fst.ids) :
    (fst.together snd).Acyclic [] ↔ fst.Acyclic [] ∧ snd.Acyclic lk := by
  have edges := @imports_together fst snd lk dst agree known
  constructor
  · intro acyclic
    constructor
    · intro id cycle
      exact acyclic id (Relation.TransGen.mono (fun _ _ edge => edges.2 (.inl edge)) _ _ cycle)
    · intro id cycle
      exact acyclic id (Relation.TransGen.mono (fun _ _ edge => edges.2 (.inr edge)) _ _ cycle)
  · rintro ⟨inside, ots⟩ id cycle
    have parts := import_path_together dst agree closed known cycle
    by_cases there : id ∈ fst.ids
    · exact inside id (parts.1 there).2
    · exact ots id (parts.2 there)

theorem complete_together (agree : fst.Agree snd) (closed : fst.ImportClosed)
    (known : ∀ id, id ∈ lk ↔ id ∈ fst.ids) : (fst.together snd).Complete [] ↔ snd.Complete lk := by
  have edges := @imports_together fst snd lk dst agree known
  have ids := @Sources.mem_ids_together fst snd dst agree
  constructor
  · intro complete imp impd ims
    have there := (complete imp impd (edges.2 (.inr ims))).resolve_right (by simp)
    grind
  · intro complete imp impd ims
    refine .inl (ids.2 ?_)
    rcases edges.1 ims with inside | ots
    · exact .inl (ImportClosed.imported closed inside).2
    · rw [or_comm, ← known impd]
      exact complete imp impd ots

omit dst in
theorem declares_nil :
    Declares srcs [] id x ↔ ∃ src, srcs.find id = some src ∧ x ∈ src.declared := by
  simp [Declares, Modules.find]

section

variable (agree : fst.Agree snd)

include agree

theorem declares_first (there : id ∈ fst.ids) :
    Declares (fst.together snd) [] id x ↔ Declares fst [] id x := by
  grind [Sources.find_of_mem_ids, declares_nil, Sources.find_together]

/-- What the second stage imports is declared, by a module that is linked or by one that
is not. -/
theorem declares_second (realized : Realized fst s early mid) :
    Declares (fst.together snd) [] id x ↔ Declares snd early id x := by
  rw [declares_nil, Sources.find_together dst agree]
  by_cases there : id ∈ fst.ids
  · obtain ⟨lk, mem, found, same⟩ := Modules.find_of_mem ((realized.mem_ids id).2 there)
    obtain ⟨src, known, realizes⟩ := realized.realizes lk mem
    rw [same] at known
    simp [Declares, known, found, realizes.exports]
  · have missing : early.find id = none :=
      Modules.find_eq_none.2 fun mem => there ((realized.mem_ids id).1 mem)
    simp [Declares, Sources.find_eq_none.2 there, missing]

section

variable (closed : fst.ImportClosed)

include closed

theorem declares_imported (mem : src ∈ fst) (stated : stm ∈ src.imports) :
    Declares (fst.together snd) [] stm.source x ↔ Declares fst [] stm.source x :=
  declares_first dst agree (closed src mem _ (List.mem_map_of_mem stated))

theorem Resolvable.first_stage (resolvable : Resolvable (fst.together snd) []) :
    Resolvable fst [] := by
  refine ⟨fun imp impd ims => .inl (ImportClosed.imported closed ims).2, ?_, ?_⟩
  · exact ((acyclic_together dst agree closed fun _ => Iff.rfl).1 resolvable.acyclic).1
  · intro id src new found
    have known : (fst.together snd).find id = some src := by grind [Sources.find_together]
    have linkable := resolvable.linkable id src new known
    exact ⟨fun stm stated itm listed =>
      (declares_imported dst agree closed (List.mem_of_find?_eq_some found) stated).1
        (linkable.declared stm stated itm listed), linkable.distinct⟩

theorem Resolvable.second_stage (realized : Realized fst s early mid)
    (resolvable : Resolvable (fst.together snd) []) : Resolvable snd early := by
  refine ⟨(complete_together dst agree closed realized.mem_ids).1 resolvable.complete,
    ((acyclic_together dst agree closed realized.mem_ids).1 resolvable.acyclic).2, ?_⟩
  intro id src new found
  have missing := Sources.find_eq_none.2 (mt (realized.mem_ids id).2 new)
  have known : (fst.together snd).find id = some src := by grind [Sources.find_together]
  have linkable := resolvable.linkable id src List.not_mem_nil known
  exact ⟨fun stm stated itm listed => (declares_second dst agree realized).1
    (linkable.declared stm stated itm listed), linkable.distinct⟩

theorem Resolvable.together (realized : Realized fst s early mid) (inside : Resolvable fst [])
    (ots : Resolvable snd early) : Resolvable (fst.together snd) [] := by
  refine ⟨(complete_together dst agree closed realized.mem_ids).2 ots.complete,
    (acyclic_together dst agree closed realized.mem_ids).2 ⟨inside.acyclic, ots.acyclic⟩, ?_⟩
  intro id src new found
  rw [Sources.find_together dst agree] at found
  by_cases there : id ∈ fst.ids
  · obtain ⟨og, known⟩ := Sources.find_of_mem_ids there
    rw [known, Option.some_or] at found
    cases found
    have linkable := inside.linkable id src new known
    exact ⟨fun stm stated itm listed =>
      (declares_imported dst agree closed (List.mem_of_find?_eq_some known) stated).2
        (linkable.declared stm stated itm listed), linkable.distinct⟩
  · rw [Sources.find_eq_none.2 there, Option.none_or] at found
    have linkable := ots.linkable id src (mt (realized.mem_ids id).1 there) found
    exact ⟨fun stm stated itm listed => (declares_second dst agree realized).2
      (linkable.declared stm stated itm listed), linkable.distinct⟩

end

/-- The modules of both stages realize both collections. -/
theorem realized_together (rsd : resolve fst [] s = .ok (early, mid))
    (resolvedMore : resolve snd early mid = .ok (late, last)) :
    late.foldl Modules.insert early = early ++ late ∧
      Realized (fst.together snd) s (early ++ late) last := by
  have realized := resolve_realized rsd
  have links := resolve_store_links rsd
  have linksMore := resolve_store_links resolvedMore
  obtain ⟨ordered, tbs, realizes⟩ := resolve_realizes resolvedMore
  have topo := dependencyOrder_topological ordered
  have find := Sources.find_together dst agree
  have new : ∀ lk ∈ late, lk.id ∉ early.map Module.id := fun lk mem =>
    ((topo.mem_iff lk.id).1 (List.mem_map_of_mem mem)).2
  refine ⟨Modules.insertAll_of_new topo.nodup new, ?_, ?_, ?_, ?_⟩
  · intro id
    rw [List.map_append, List.mem_append, Sources.mem_ids_together dst agree,
      realized.mem_ids, topo.mem_iff, realized.mem_ids]
    by_cases there : id ∈ fst.ids
    · simp [there]
    · have same := @Sources.find_unlinked snd early id (mt (realized.mem_ids id).1 there)
      have ids : id ∈ (snd.unlinked early).ids ↔ id ∈ snd.ids := by
        rw [← not_iff_not, ← Sources.find_eq_none, ← Sources.find_eq_none, same]
      simp [there, ids]
  · rw [List.map_append, List.nodup_append]
    refine ⟨realized.ids, topo.nodup, ?_⟩
    simp_all
  · rw [List.map_append, List.nodup_append]
    refine ⟨realized.tables, tbs, ?_⟩
    rintro _ here _ there rfl
    obtain ⟨lk, mem, rfl⟩ := List.mem_map.1 here
    obtain ⟨o, listed, same⟩ := List.mem_map.1 there
    obtain ⟨_, _, realizesEarly⟩ := realized.realizes lk mem
    obtain ⟨_, _, realizesLate⟩ := realizes o listed
    have older := Nat.lt_of_lt_of_le realizesEarly.placed realizesLate.new
    omega
  · intro lk mem
    rcases List.mem_append.1 mem with old | added
    · obtain ⟨src, found, realizesEarly⟩ := realized.realizes lk old
      exact ⟨src, by rw [find, found, Option.some_or], realizesEarly.later (.refl s) linksMore late⟩
    · obtain ⟨src, found, realizesLate⟩ := realizes lk added
      rw [Sources.find_unlinked (new lk added)] at found
      have missing : fst.find lk.id = none :=
        Sources.find_eq_none.2 (mt (realized.mem_ids lk.id).2 (new lk added))
      refine ⟨src, by rw [find, missing, Option.none_or, found], ?_⟩
      simpa using realizesLate.later links (.refl last) []

end

end

end Stages

/-- Linking in stages.  When the modules of a first collection import nothing but each other and
a second one agrees with it, linking both at once succeeds exactly when linking the first does
and then linking the second against it.  The modules of the two stages have the ids of those
that are linked at once, and they are the same modules up to a one-to-one renaming of the
declarations' thunks. -/
theorem resolve_in_stages {fst snd : Sources} (dst : snd.ids.Nodup)
    (agree : fst.Agree snd) (closed : fst.ImportClosed) (s : Store) :
    ((∃ r, resolve (fst.together snd) [] s = .ok r) ↔
      ∃ early mid, resolve fst [] s = .ok (early, mid) ∧
        ∃ r, resolve snd early mid = .ok r) ∧
    ∀ {joint early late : Modules} {aft mid last : Store},
      resolve (fst.together snd) [] s = .ok (joint, aft) →
      resolve fst [] s = .ok (early, mid) →
      resolve snd early mid = .ok (late, last) →
      ((late.foldl Modules.insert early).map Module.id).Perm (joint.map Module.id) ∧
      ∃ translate : Address → Address, Set.InjOn translate {a | Owned joint a} ∧
        ∀ lk ∈ joint, ∃ copy, Modules.find (late.foldl Modules.insert early) lk.id =
          some copy ∧ lk.Copies translate aft last copy := by
  constructor
  · constructor
    · intro rsd
      have resolvable := resolve_isOk_iff_resolvable.1 rsd
      obtain ⟨⟨early, mid⟩, resolvedEarly⟩ := resolve_isOk_iff_resolvable.2
        (resolvable.first_stage dst agree closed)
      have realized := resolve_realized resolvedEarly
      exact ⟨early, mid, resolvedEarly, resolve_isOk_iff_resolvable.2
        (resolvable.second_stage dst agree closed realized)⟩
    · rintro ⟨early, mid, rsd, more⟩
      exact resolve_isOk_iff_resolvable.2 (Resolvable.together dst agree closed
        (resolve_realized rsd) (resolve_isOk_iff_resolvable.1 ⟨_, rsd⟩)
        (resolve_isOk_iff_resolvable.1 more))
  · intro joint early late aft mid last rsd resolvedEarly resolvedLate
    have realized := resolve_realized rsd
    obtain ⟨same, again⟩ := realized_together dst agree resolvedEarly resolvedLate
    rw [same]
    refine ⟨(List.perm_ext_iff_of_nodup again.ids realized.ids).2 fun id => ?_,
      twin joint (early ++ late), realized.twin_injOn again, fun lk mem =>
        realized.copies again mem⟩
    rw [again.mem_ids, realized.mem_ids]

/-- The identity can be linked before the module that imports it. -/
theorem identity_in_stages :
    ∃ early late mid last, resolve (identitySources.take 1) [] .empty = .ok (early, mid) ∧
      resolve identitySources early mid = .ok (late, last) ∧
      ∃ translate : Address → Address, Set.InjOn translate {a | Owned identityModules a} ∧
        ∀ lk ∈ identityModules, ∃ copy, Modules.find (late.foldl Modules.insert early)
          lk.id = some copy ∧ lk.Copies translate identityStore last copy := by
  have dst : Sources.ids identitySources |>.Nodup := by decide
  have agree : Sources.Agree (identitySources.take 1) identitySources := by
    rintro src mem o listed same
    simp only [identitySources, List.take_succ_cons, List.take_zero, List.mem_singleton] at mem
    subst mem
    simp only [identitySources, List.mem_cons, List.not_mem_nil, or_false] at listed
    grind
  have closed : Sources.ImportClosed (identitySources.take 1) := by
    simp [Sources.ImportClosed, identitySources, importedIds]
  have stages := resolve_in_stages dst agree closed .empty
  have joint : resolve (Sources.together (identitySources.take 1) identitySources) [] .empty =
      .ok (identityModules, identityStore) := resolve_identity
  obtain ⟨early, mid, rsd, ⟨late, last⟩, more⟩ := stages.1.1 ⟨_, joint⟩
  exact ⟨early, late, mid, last, rsd, more, (stages.2 joint rsd more).2⟩

end CallByNeed
