import CallByNeed.Proofs.StagedLinking

/-!
# Linking one collection against different modules

Modules that import nothing but each other are linked in the same way whatever else is linked,
and in any store: with the same error, or to copies of the same modules in the same order.
-/

namespace CallByNeed

open Source

/-- Two results with the same error, or with values that are related. -/
inductive Tallies {α β : Type} (related : α → β → Prop) :
    Except LinkError α → Except LinkError β → Prop
  | error (er : LinkError) : Tallies related (.error er) (.error er)
  | ok {v : α} {o : β} (same : related v o) : Tallies related (.ok v) (.ok o)

theorem Tallies.bind {α β γ δ : Type} {related : α → β → Prop} {relatedLater : γ → δ → Prop}
    {fst : Except LinkError α} {snd : Except LinkError β} {next : α → Except LinkError γ}
    {nextCopy : β → Except LinkError δ} (tallies : Tallies related fst snd)
    (rest : ∀ v o, related v o → Tallies relatedLater (next v) (nextCopy o)) :
    Tallies relatedLater (fst >>= next) (snd >>= nextCopy) := by
  cases tallies with
  | error er => exact .error er
  | ok same => exact rest _ _ same

/-! ### One module -/

/-- A module and its copy, as far as linking looks at them. -/
structure Mirrored (id : String) (lk : Module) (s : Store) (copy : Module)
    (o : Store) : Prop where
  named : lk.id = id
  namedCopy : copy.id = id
  exports : copy.exports = lk.exports
  names : copy.names o = lk.names s
  placed : lk.table < s.tables.size
  placedCopy : copy.table < o.tables.size

namespace Mirrored

variable {id : String} {lk copy ex twin : Module} {s o : Store}
  {ms os : Modules}

theorem create (id : String) (ph : Option String) (s o : Store) :
    Mirrored id (Module.create id ph s).1 (Module.create id ph s).2
      (Module.create id ph o).1 (Module.create id ph o).2 where
  named := rfl
  namedCopy := rfl
  exports := rfl
  names := (create_names id ph o).trans (create_names id ph s).symm
  placed := create_placed id ph s
  placedCopy := create_placed id ph o

section

variable (mirrored : Mirrored id lk s copy o)

include mirrored

theorem declare (x : Name) (th thunkCopy : Option Address) :
    Tallies (fun aft afterCopy => Mirrored id lk aft copy afterCopy)
      (lk.declare x th s) (copy.declare x thunkCopy o) := by
  by_cases taken : x ∈ lk.names s
  · rw [Module.declare, Module.declare, mirrored.names, mirrored.named, mirrored.namedCopy,
      if_pos (List.contains_iff_mem.2 taken), if_pos (List.contains_iff_mem.2 taken)]
    exact .error _
  · have dcd := Module.declare_of_new taken th
    have declaredCopy := Module.declare_of_new (mirrored.names ▸ taken) thunkCopy
    have adds := Module.declare_adds mirrored.placed dcd
    have addsCopy := Module.declare_adds mirrored.placedCopy declaredCopy
    rw [dcd, declaredCopy]
    refine .ok ⟨mirrored.named, mirrored.namedCopy, mirrored.exports, ?_,
      adds.placed mirrored.placed, addsCopy.placed mirrored.placedCopy⟩
    rw [Module.names_adds adds, Module.names_adds addsCopy, mirrored.names]
    rfl

theorem bindItems (its : List ImportItem) :
    Tallies (fun aft afterCopy => Mirrored id lk aft copy afterCopy)
      (lk.bindItems ex its s) (copy.bindItems twin its o) := by
  induction its generalizing s o with
  | nil => exact .ok mirrored
  | cons itm its ih => exact (mirrored.declare _ _ _).bind fun _ _ next => ih next

theorem checkItems (sameId : twin.id = ex.id) (sameExports : twin.exports = ex.exports)
    (given : List Name) (its : List ImportItem) :
    copy.checkItems twin o given its = lk.checkItems ex s given its := by
  induction its generalizing given with
  | nil => rfl
  | cons itm its ih =>
    simp only [Module.checkItems, sameId, sameExports, mirrored.names, mirrored.named,
      mirrored.namedCopy, ih]

theorem importFrom (sameId : twin.id = ex.id) (sameExports : twin.exports = ex.exports)
    (its : List ImportItem) :
    Tallies (fun aft afterCopy => Mirrored id lk aft copy afterCopy)
      (lk.importFrom ex its s) (copy.importFrom twin its o) := by
  rw [Module.importFrom, Module.importFrom, mirrored.checkItems sameId sameExports]
  cases lk.checkItems ex s [] its with
  | error er => exact .error er
  | ok _ => exact mirrored.bindItems its

theorem define (bn : Binding) :
    Tallies (fun r resultCopy =>
        Mirrored id r.2.1 r.2.2 resultCopy.2.1 resultCopy.2.2)
      (lk.define bn s) (copy.define bn o) := by
  have allocated : Mirrored id lk (s.alloc (.suspended bn.term lk.env (some bn.name))).2 copy
      (o.alloc (.suspended bn.term copy.env (some bn.name))).2 :=
    ⟨mirrored.named, mirrored.namedCopy, mirrored.exports, mirrored.names, mirrored.placed,
      mirrored.placedCopy⟩
  refine (allocated.declare bn.name _ _).bind fun aft afterCopy next => .ok ?_
  refine ⟨next.named, next.namedCopy, ?_, next.names, next.placed, next.placedCopy⟩
  have exports := next.exports
  grind [Module.exports]

theorem linkBindings (bns : List Binding) :
    Tallies (fun r resultCopy => Mirrored id r.1 r.2 resultCopy.1 resultCopy.2)
      (linkBindings lk bns s) (linkBindings copy bns o) := by
  induction bns generalizing lk copy s o with
  | nil => exact .ok mirrored
  | cons bn bns ih => exact (mirrored.define bn).bind fun _ _ next => ih next

theorem linkImports
    (exporters : ∀ stm ∈ ims, ∃ ex twin,
      ms.find stm.source = some ex ∧ os.find stm.source = some twin ∧
      twin.id = ex.id ∧ twin.exports = ex.exports) :
    Tallies (fun aft afterCopy => Mirrored id lk aft copy afterCopy)
      (linkImports lk ms ims s) (linkImports copy os ims o) := by
  induction ims generalizing s o with
  | nil => exact .ok mirrored
  | cons stm ims ih =>
    obtain ⟨ex, twin, found, foundCopy, sameId, sameExports⟩ := exporters stm List.mem_cons_self
    rw [CallByNeed.linkImports, CallByNeed.linkImports, found, foundCopy]
    refine (mirrored.importFrom sameId sameExports stm.items).bind fun _ _ next => ?_
    grind

end

theorem link (exporters : ∀ stm ∈ src.imports, ∃ ex twin,
      ms.find stm.source = some ex ∧ os.find stm.source = some twin ∧
      twin.id = ex.id ∧ twin.exports = ex.exports) (s o : Store) :
    Tallies (fun r resultCopy =>
        Mirrored src.id r.1 r.2 resultCopy.1 resultCopy.2)
      (link src ms s) (link src os o) :=
  ((Mirrored.create src.id (some src.path) s o).linkImports exporters).bind
    fun _ _ next => next.linkBindings src.bindings

end Mirrored

/-! ### The modules of a collection -/

/-- What other modules see of a module. -/
def Module.outline (lk : Module) : String × List Name := (lk.id, lk.exports)

variable {srcs coll : Sources} {base done copies : Modules} {lk : List String}

theorem map_id_of_outline (same : copies.map Module.outline = done.map Module.outline) :
    copies.map Module.id = done.map Module.id := by
  have firsts := congrArg (List.map Prod.fst) same
  simpa [Function.comp_def, Module.outline] using firsts

theorem find_of_outline (same : copies.map Module.outline = done.map Module.outline) {id : String}
    {ex : Module} (found : done.find id = some ex) :
    ∃ twin, copies.find id = some twin ∧ twin.id = ex.id ∧ twin.exports = ex.exports := by
  induction done generalizing copies with
  | nil => cases found
  | cons fst done ih =>
    obtain ⟨twin, os, rfl, head, tail⟩ := List.map_eq_cons_iff.1 same
    obtain ⟨sameId, sameExports⟩ := Prod.mk.inj head
    by_cases here : fst.id = id
    · grind [Modules.find]
    simp_all [Modules.find]

section

variable (closed : srcs.ImportClosed)

include closed

section

variable (unlinked : ∀ id ∈ srcs.ids, id ∉ lk)

include unlinked

theorem visitImports_of_unlinked {imp : String} {ph kids : List String}
    (inside : ∀ kid ∈ kids, kid ∈ srcs.ids) :
    visitImports srcs lk imp ph ord kids = visitImports srcs [] imp ph ord kids := by
  induction imp, ph, ord, kids using visitImports.induct srcs lk with
  | case1 imp ph ord => rw [visitImports, visitImports]
  | case2 imp ph ord kid kids known ih => simp_all [visitImports_known]
  | case3 imp ph ord kid kids unknown onPath => simp_all [visitImports_cycle]
  | case4 imp ph ord kid kids unknown offPath missing =>
    simp_all [visitImports_missing]
  | case5 imp ph ord kid kids unknown offPath src found _ ihInner ihRest =>
    simp only [Bool.or_eq_true, List.contains_iff_mem, not_or] at unknown offPath
    rw [visitImports_found unknown.1 unknown.2 offPath found,
      visitImports_found List.not_mem_nil unknown.2 offPath found,
      ihInner (closed src (List.mem_of_find?_eq_some found))]
    simp_all

theorem visitAll_of_unlinked {rest : Sources} (inside : rest ⊆ srcs) (ord : List String) :
    visitAll srcs lk ord rest = visitAll srcs [] ord rest := by
  induction rest generalizing ord with
  | nil => rfl
  | cons src rest ih =>
    have listed := inside List.mem_cons_self
    have new : lk.contains src.id = false := by
      simpa using unlinked src.id (List.mem_map_of_mem listed)
    have later : rest ⊆ srcs := fun o mem => inside (List.mem_cons_of_mem _ mem)
    simp only [visitAll, new, List.contains_nil, ih later,
      visitImports_of_unlinked closed unlinked (closed src listed)]
    rfl

/-- The modules that are linked already do not matter to an order of others. -/
theorem dependencyOrder_of_unlinked : dependencyOrder srcs lk = dependencyOrder srcs [] :=
  visitAll_of_unlinked closed unlinked (List.Subset.refl srcs) []

end

theorem linkInOrder_tallies {ids : List String}
    (unlinked : ∀ id ∈ srcs.ids, id ∉ base.map Module.id)
    (topo : TopologicalOrder srcs [] (done.map Module.id ++ ids))
    (same : copies.map Module.outline = done.map Module.outline) (s o : Store) :
    Tallies (fun r resultCopy =>
        resultCopy.1.map Module.outline = r.1.map Module.outline)
      (linkInOrder srcs ids (base ++ done) done s)
      (linkInOrder srcs ids copies copies o) := by
  induction ids generalizing done copies s o with
  | nil => exact .ok same
  | cons id ids ih =>
    have listed := ((topo.mem_iff id).1 (by simp)).1
    obtain ⟨src, found⟩ := Sources.find_of_mem_ids listed
    have late : id ∉ done.map Module.id := fun early =>
      (List.nodup_append.1 topo.nodup).2.2 id early id List.mem_cons_self rfl
    have new : id ∉ (base ++ done).map Module.id := by simp_all
    have newCopy : id ∉ ([] ++ copies).map Module.id := by
      rwa [List.nil_append, map_id_of_outline same]
    have exporters : ∀ stm ∈ src.imports, ∃ ex twin,
        Modules.find (base ++ done) stm.source = some ex ∧
        Modules.find ([] ++ copies) stm.source = some twin ∧
        twin.id = ex.id ∧ twin.exports = ex.exports := by
      intro stm mem
      have impd : stm.source ∈ importedIds src := List.mem_map_of_mem mem
      have known := closed src (List.mem_of_find?_eq_some found) _ impd
      have early := topo.after _ id ids rfl stm.source ⟨by simp, src, found, impd⟩ (by simp)
      grind [Modules.find_of_mem, find_of_outline, Modules.find_eq_none,
        Modules.find_append_of_none]
    have stepsCopy : linkInOrder srcs (id :: ids) copies copies o = _ :=
      linkInOrder_cons found newCopy
    rw [linkInOrder_cons found new, stepsCopy]
    refine (Mirrored.link exporters s o).bind fun r resultCopy next => ?_
    rw [Sources.id_of_find found] at next
    refine ih ?_ ?_ _ _
    · simpa [next.named] using topo
    · rw [List.map_append, List.map_append, same]
      simp [Module.outline, next.named, next.namedCopy, next.exports]

omit closed in
theorem unlinked_eq_self (unlinked : ∀ id ∈ srcs.ids, id ∉ ms.map Module.id) :
    srcs.unlinked ms = srcs := by
  refine List.filter_eq_self.2 fun src mem => ?_
  have missing := Modules.find_eq_none.2 (unlinked src.id (List.mem_map_of_mem mem))
  simp [Modules.contains, missing]

/-- Linking a collection that imports nothing but itself and has no module that is linked. -/
theorem resolve_tallies (unlinked : ∀ id ∈ srcs.ids, id ∉ ms.map Module.id)
    (s o : Store) :
    Tallies (fun r resultCopy =>
        resultCopy.1.map Module.outline = r.1.map Module.outline)
      (resolve srcs ms s) (resolve srcs [] o) := by
  have all : srcs.unlinked [] = srcs := List.filter_eq_self.2 fun _ _ => rfl
  rw [resolve_eq, resolve_eq, unlinked_eq_self unlinked, all,
    dependencyOrder_of_unlinked closed unlinked]
  cases ordered : dependencyOrder srcs [] with
  | error er =>
    rw [List.map_nil, ordered]
    exact .error er
  | ok ord =>
    have topo : TopologicalOrder srcs [] (List.map Module.id [] ++ ord) :=
      dependencyOrder_topological ordered
    have tallies := linkInOrder_tallies closed unlinked topo rfl s o
    rw [List.append_nil] at tallies
    rw [List.map_nil, ordered]
    exact tallies

/-- What is linked from such a collection refers to no other module. -/
theorem realized_of_unlinked {added : Modules} {aft : Store}
    (unlinked : ∀ id ∈ srcs.ids, id ∉ ms.map Module.id)
    (rsd : resolve srcs ms s = .ok (added, aft)) : Realized srcs s added aft := by
  obtain ⟨ordered, tbs, realizes⟩ := resolve_realizes rsd
  have topo := dependencyOrder_topological ordered
  rw [unlinked_eq_self unlinked] at topo realizes
  refine ⟨fun id => ?_, topo.nodup, tbs, fun lk mem => ?_⟩
  · rw [topo.mem_iff]
    simp_all
  · obtain ⟨src, found, realizes⟩ := realizes lk mem
    refine ⟨src, found, { realizes with aliases := fun stm written itm listed => ?_ }⟩
    obtain ⟨ex, d, there, bound⟩ := realizes.aliases stm written itm listed
    have known := closed src (List.mem_of_find?_eq_some found) stm.source
      (List.mem_map_of_mem written)
    grind [Modules.find_append_of_none, Modules.find_eq_none]

end

end CallByNeed
