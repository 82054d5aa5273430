import CallByNeed.Proofs.Linking

/-!
# What resolving a collection of modules does

`resolve` links the modules that are not linked yet, each one after its imports.
`resolve_links_exactly` says when it succeeds and what the new modules are.

A failed linking leaves thunks and tables behind that nobody refers to.
`resolving` gives the store with them, so that it can be said of every outcome
what has become of the older ones.
-/

namespace CallByNeed

open Source

/-- A name is declared by a module that is linked, or else by one that is to be. -/
def Declares (srcs : Sources) (ms : Modules) (id : String) (x : Name) : Prop :=
  (∃ ex, ms.find id = some ex ∧ x ∈ ex.exports) ∨
    (ms.find id = none ∧ ∃ src, srcs.find id = some src ∧ x ∈ src.declared)

/-- Every name that a module imports is declared, and no name is introduced twice. -/
structure Linkable (srcs : Sources) (ms : Modules) (src : ParsedModule) : Prop where
  declared : ∀ stm ∈ src.imports, ∀ itm ∈ stm.items, Declares srcs ms stm.source itm.name
  distinct : src.introduced.Nodup

/-! ### Errors -/

/-- An error of linking that is about names. -/
def LinkError.AboutNames : LinkError → Prop
  | .notExported _ _ => True
  | .duplicate _ _ => True
  | _ => False

/-- A result that fails because of names only, so that every module is found that is
looked up. -/
def FindsModules {α : Type} (r : Except LinkError α) : Prop := ∀ er, r = .error er → er.AboutNames

variable {α : Type} {src : ParsedModule} {id : String}

theorem findsModules_ok (v : α) : FindsModules (.ok v : Except LinkError α) := by
  intro er same
  cases same

theorem FindsModules.bind {β : Type} {fst : Except LinkError α} {next : α → Except LinkError β}
    (finds : FindsModules fst) (rest : ∀ v, fst = .ok v → FindsModules (next v)) :
    FindsModules (fst >>= next) := by
  cases fst with
  | error er =>
    intro o same
    cases same
    exact finds er rfl
  | ok v => exact rest v rfl

namespace Module

variable {lk o : Module} {s : Store}

theorem declare_findsModules (x : Name) (th : Option Address) :
    FindsModules (lk.declare x th s) := by
  rw [declare]
  split
  · intro er same
    cases same
    trivial
  · exact findsModules_ok _

theorem checkItems_findsModules (given : List Name) (its : List ImportItem) :
    FindsModules (lk.checkItems o s given its) := by
  induction its generalizing given with
  | nil => exact findsModules_ok ()
  | cons itm its ih =>
    rw [checkItems]
    split
    · intro er same
      cases same
      trivial
    · split
      · intro er same
        cases same
        trivial
      · exact ih _

theorem bindItems_findsModules (its : List ImportItem) : FindsModules (lk.bindItems o its s) := by
  induction its generalizing s with
  | nil => exact findsModules_ok s
  | cons itm its ih => exact (declare_findsModules _ _).bind fun _ _ => ih

end Module

section Finding

variable {ms : Modules} {lk : Module} {s : Store}

theorem linkImports_findsModules
    (found : ∀ stm ∈ ims, ∃ ex, ms.find stm.source = some ex) :
    FindsModules (linkImports lk ms ims s) := by
  induction ims generalizing s with
  | nil => exact findsModules_ok s
  | cons stm ims ih =>
    obtain ⟨ex, there⟩ := found stm List.mem_cons_self
    rw [linkImports, there]
    have fst : FindsModules (lk.importFrom ex stm.items s) :=
      (Module.checkItems_findsModules _ _).bind fun _ _ => Module.bindItems_findsModules _
    exact fst.bind fun _ _ => ih fun o mem => found o (List.mem_cons_of_mem _ mem)

theorem linkBindings_findsModules (bns : List Binding) : FindsModules (linkBindings lk bns s) := by
  induction bns generalizing lk s with
  | nil => exact findsModules_ok _
  | cons bn bns ih =>
    have fst : FindsModules (lk.define bn s) :=
      (Module.declare_findsModules _ _).bind fun _ _ => findsModules_ok _
    exact fst.bind fun _ _ => ih

theorem link_findsModules (found : ∀ stm ∈ src.imports, ∃ ex, ms.find stm.source = some ex) :
    FindsModules (link src ms s) :=
  (linkImports_findsModules found).bind fun _ _ => linkBindings_findsModules _

end Finding

/-! ### Modules in their order -/

section Order

variable {srcs : Sources} {base done : Modules} {ids : List String} {s : Store}

/-- The modules that are linked so far declare what their sources do. -/
def Represents (srcs : Sources) (done : Modules) : Prop :=
  ∀ lk ∈ done, ∃ src, srcs.find lk.id = some src ∧ lk.exports = src.declared

/-- The imports of the next module are linked, and export the names that are declared. -/
theorem exporter_of_next
    (topo : TopologicalOrder srcs (base.map Module.id) (done.map Module.id ++ id :: ids))
    (represents : Represents srcs done) (found : srcs.find id = some src)
    (mem : stm ∈ src.imports) :
    ∃ ex, Modules.find (base ++ done) stm.source = some ex ∧
      ∀ x, x ∈ ex.exports ↔ Declares srcs base stm.source x := by
  have unlinked : id ∉ base.map Module.id := ((topo.mem_iff id).1 (by simp)).2
  have ims : srcs.Imports (base.map Module.id) id stm.source :=
    ⟨unlinked, src, found, List.mem_map_of_mem mem⟩
  by_cases lk : stm.source ∈ base.map Module.id
  · grind [Modules.find_of_mem, Modules.find_append, Declares]
  · have early := topo.after _ id ids rfl _ ims lk
    obtain ⟨ex, listed, there, same⟩ := Modules.find_of_mem early
    have missing := Modules.find_eq_none.2 lk
    refine ⟨ex, (Modules.find_append_of_none missing done).trans there, fun x => ?_⟩
    obtain ⟨og, pd, exports⟩ := represents ex listed
    grind [Declares]

theorem link_isOk_iff_linkable (s : Store)
    (topo : TopologicalOrder srcs (base.map Module.id) (done.map Module.id ++ id :: ids))
    (represents : Represents srcs done) (found : srcs.find id = some src) :
    (∃ r, link src (base ++ done) s = .ok r) ↔ Linkable srcs base src := by
  rw [link_isOk_iff]
  constructor
  · rintro ⟨exporters, dst⟩
    refine ⟨fun stm mem itm listed => ?_, dst⟩
    grind [exporter_of_next]
  · rintro ⟨dcd, dst⟩
    grind [exporter_of_next]

theorem linkInOrder_cons (found : srcs.find id = some src)
    (new : id ∉ (base ++ done).map Module.id) :
    linkInOrder srcs (id :: ids) (base ++ done) done s = link src (base ++ done) s >>= fun r =>
        linkInOrder srcs ids (base ++ (done ++ [r.1])) (done ++ [r.1]) r.2 := by
  rw [linkInOrder, found]
  dsimp only
  cases linking : link src (base ++ done) s with
  | error er => rfl
  | ok r =>
    obtain ⟨lk, mid⟩ := r
    have named : lk.id = id := by
      rw [(link_realizes linking).id]
      simpa using List.find?_some found
    have apart : ∀ o ∈ base ++ done, o.id ≠ lk.id := by grind
    have inserted : Modules.insert (base ++ done) lk = base ++ (done ++ [lk]) := by
      rw [Modules.insert_of_new apart, List.append_assoc]
    have added : done.insert lk = done ++ [lk] :=
      Modules.insert_of_new fun o mem => apart o (List.mem_append_right _ mem)
    show linkInOrder srcs ids (Modules.insert (base ++ done) lk) (done.insert lk) mid = _
    rw [inserted, added]
    rfl

/-- What linking the rest of an order comes to, after the modules that are done. -/
def Settled (srcs : Sources) (base done : Modules) (ids : List String) (s : Store) :
    Except LinkError (Modules × Store) → Prop
  | .ok (added, aft) =>
    (∀ id ∈ ids, ∀ src, srcs.find id = some src → Linkable srcs base src) ∧
    ∃ more, added = done ++ more ∧ more.map Module.id = ids ∧ s.Links aft ∧
      (more.map Module.table).Pairwise (· < ·) ∧
      ∀ lk ∈ more, ∃ src, srcs.find lk.id = some src ∧ Realizes (base ++ added) s aft src lk
  | .error er =>
    (∃ id ∈ ids, ∃ src, srcs.find id = some src ∧ ¬ Linkable srcs base src) ∧
    er.AboutNames

theorem Settled.cons {lk : Module} {mid : Store} {r : Except LinkError (Modules × Store)}
    (found : srcs.find id = some src) (named : lk.id = id) (able : Linkable srcs base src)
    (realizes : Realizes (base ++ done) s mid src lk) (links : s.Links mid)
    (rest : Settled srcs base (done ++ [lk]) ids mid r) :
    Settled srcs base done (id :: ids) s r := by
  match r, rest with
  | .ok (added, aft), ⟨linkable, more, same, xs, linksMore, tbs, all⟩ =>
    refine ⟨fun o mem og there => ?_, lk :: more, by simp [same],
      by simp [named, xs], links.trans linksMore, ?_, fun o mem => ?_⟩
    · rcases List.mem_cons.1 mem with rfl | later
      · rw [found] at there
        cases there
        exact able
      · exact linkable o later og there
    · refine List.pairwise_cons.2 ⟨fun table mem => ?_, tbs⟩
      obtain ⟨o, listed, rfl⟩ := List.mem_map.1 mem
      obtain ⟨_, _, realized⟩ := all o listed
      exact Nat.lt_of_lt_of_le realizes.placed realized.new
    · rcases List.mem_cons.1 mem with rfl | later
      · have kept := realizes.later (.refl s) linksMore (o :: more)
        refine ⟨src, named ▸ found, ?_⟩
        rw [same]
        simpa using kept
      · obtain ⟨og, there, realized⟩ := all o later
        have kept := realized.later links (.refl aft) []
        exact ⟨og, there, by simpa using kept⟩
  | .error er, ⟨⟨o, mem, og, there, unable⟩, xs⟩ =>
    exact ⟨⟨o, List.mem_cons_of_mem _ mem, og, there, unable⟩, xs⟩

theorem linkInOrder_settled
    (topo : TopologicalOrder srcs (base.map Module.id) (done.map Module.id ++ ids))
    (represents : Represents srcs done) :
    Settled srcs base done ids s (linkInOrder srcs ids (base ++ done) done s) := by
  induction ids generalizing done s with
  | nil => exact ⟨by simp, [], by simp, rfl, .refl _, .nil, by simp⟩
  | cons id ids ih =>
    have listed := (topo.mem_iff id).1 (by simp)
    obtain ⟨src, found⟩ : ∃ src, srcs.find id = some src := by
      cases found : srcs.find id with
      | none => exact absurd listed.1 (Sources.find_eq_none.1 found)
      | some src => exact ⟨src, rfl⟩
    have new : id ∉ (base ++ done).map Module.id := by
      have apart := (List.nodup_append.1 topo.nodup).2.2
      simp_all
    have linkable := link_isOk_iff_linkable s topo represents found
    rw [linkInOrder_cons found new]
    cases linking : link src (base ++ done) s with
    | error er =>
      rw [linking] at linkable
      refine ⟨⟨id, List.mem_cons_self, src, found, fun able => ?_⟩, ?_⟩
      · obtain ⟨_, done⟩ := linkable.2 able
        cases done
      · have finds : FindsModules (link src (base ++ done) s) := link_findsModules fun stm mem => by
            obtain ⟨ex, there, _⟩ := exporter_of_next topo represents found mem
            exact ⟨ex, there⟩
        exact finds er linking
    | ok r =>
      obtain ⟨lk, mid⟩ := r
      have realizes := link_realizes linking
      have links := link_links linking
      have named : lk.id = id := by
        rw [realizes.id]
        simpa using List.find?_some found
      have next : TopologicalOrder srcs (base.map Module.id)
          ((done ++ [lk]).map Module.id ++ ids) := by simp_all
      have representsNext : Represents srcs (done ++ [lk]) := by
        intro o mem
        rcases List.mem_append.1 mem with old | last
        · exact represents o old
        · cases List.mem_singleton.1 last
          exact ⟨src, named ▸ found, realizes.exports⟩
      exact Settled.cons found named (linkable.1 ⟨_, linking⟩) realizes links
        (ih next representsNext)

end Order

/-! ### The store that linking reaches -/

/-- Linking that also gives the store when it fails. -/
abbrev Linking := ExceptT LinkError (StateM Store)

namespace Linking

/-- What is left of a result when the store of a failure is forgotten. -/
def answer {α : Type} (r : Except LinkError α × Store) : Except LinkError (α × Store) :=
  r.1.map fun v => (v, r.2)

/-- A change of the store that cannot fail. -/
def change {α : Type} (act : Store → α × Store) : Linking α := fun s => (.ok (act s).1, (act s).2)

/-- A test that leaves the store as it is. -/
def test {α : Type} (check : Store → Except LinkError α) : Linking α := fun s => (check s, s)

def declare (lk : Module) (x : Name) (th : Option Address) : Linking Unit := do
  test fun s => (lk.declare x th s).map fun _ => ()
  change fun s => ((), s.bind lk.table x th)

def define (lk : Module) (bn : Binding) : Linking Address := do
  let th ← change fun s =>
    s.alloc (.suspended bn.term lk.env (some bn.name))
  declare lk bn.name (some th)
  pure th

def bindItems (lk o : Module) : List ImportItem → Linking Unit
  | [] => pure ()
  | itm :: its => do
      declare lk itm.localName ((o.declaration? itm.name).map Declaration.thunk)
      bindItems lk o its

def importFrom (lk o : Module) (its : List ImportItem) : Linking Unit := do
  test fun s => lk.checkItems o s [] its
  bindItems lk o its

def imports (lk : Module) (ms : Modules) : List Import → Linking Unit
  | [] => pure ()
  | stm :: stms => do
      let ex ← test fun _ =>
        (ms.find stm.source).elim (.error (.notLinked stm.source)) .ok
      importFrom lk ex stm.items
      imports lk ms stms

def bindings : Module → List Binding → Linking Module
  | lk, [] => pure lk
  | lk, bn :: rest => do
      let th ← define lk bn
      bindings (lk.adding (bn.declaration th)) rest

def single (src : ParsedModule) (ms : Modules) : Linking Module := do
  let lk ← change (Module.create src.id (some src.path))
  imports lk ms src.imports
  bindings lk src.bindings

def inOrder (srcs : Sources) : List String → (ms added : Modules) → Linking Modules
  | [], _, added => pure added
  | id :: ids, ms, added => do
      let src ← test fun _ => (srcs.find id).elim (.error (.notLinked id)) .ok
      let lk ← single src ms
      inOrder srcs ids (ms.insert lk) (added.insert lk)

/-- An action gives the results of a function, and its stores are related to those it
starts from, also when it fails. -/
structure Follows {α : Type} (related : Store → Store → Prop) (ac : Linking α)
    (r : Store → Except LinkError (α × Store)) : Prop where
  answers : ∀ s, r s = answer (ac s)
  reaches : ∀ s, related s (ac s).2

section Follows

variable {β : Type} {related : Store → Store → Prop}

theorem Follows.congr {ac : Linking α} {r o : Store → Except LinkError (α × Store)}
    (follows : Follows related ac r) (same : ∀ s, o s = r s) : Follows related ac o :=
  ⟨fun s => (same s).trans (follows.answers s), follows.reaches⟩

theorem follows_change {act : Store → α × Store} (relates : ∀ s, related s (act s).2) :
    Follows related (change act) fun s => .ok (act s) := ⟨fun _ => rfl, relates⟩

theorem follows_test (refl : ∀ s, related s s) (check : Store → Except LinkError α) :
    Follows related (test check) fun s => (check s).map fun v => (v, s) := ⟨fun _ => rfl, refl⟩

theorem Follows.bind (trans : ∀ fst snd thd, related fst snd → related snd thd → related fst thd)
    {ac : Linking α} {next : α → Linking β} {r : Store → Except LinkError (α × Store)}
    {rss : α → Store → Except LinkError (β × Store)} (fst : Follows related ac r)
    (rest : ∀ v, Follows related (next v) (rss v)) :
    Follows related (ac >>= next) fun s => r s >>= fun mid => rss mid.1 mid.2 := by
  constructor
  · intro s
    rw [fst.answers s]
    rcases ran : ac s with ⟨early, mid⟩
    cases early with
    | error er =>
      rw [Action.bind_error ran]
      rfl
    | ok v =>
      rw [Action.bind_ok ran]
      exact (rest v).answers mid
  · intro s
    have reached := fst.reaches s
    refine Action.bind_stops (related s) reached fun v mid ran => ?_
    rw [ran] at reached
    exact trans _ _ _ reached ((rest v).reaches mid)

end Follows

theorem binds_trans (num : Nat) (fst snd thd : Store) (early : Store.Binds num fst snd)
    (late : Store.Binds num snd thd) : Store.Binds num fst thd := early.trans late

theorem declare_follows (lk : Module) (x : Name) (th : Option Address) :
    Follows (Store.Binds lk.table) (declare lk x th) fun s =>
      (lk.declare x th s).map fun aft => ((), aft) := by
  have changed : Follows (Store.Binds lk.table) (change fun s => ((), s.bind lk.table x th)) _ :=
    follows_change fun s => .bind lk.table s x th
  refine ((follows_test (.refl lk.table) _).bind (binds_trans _) fun _ => changed).congr ?_
  intro s
  simp only [Module.declare]
  split <;> rfl

theorem follows_pure {related : Store → Store → Prop} (refl : ∀ s, related s s) (v : α) :
    Follows related (pure v) fun s => .ok (v, s) := ⟨fun _ => rfl, refl⟩

theorem define_follows (lk : Module) (bn : Binding) :
    Follows (Store.Binds lk.table) (define lk bn) fun s =>
      (lk.define bn s).map fun defined => (defined.1, defined.2.2) := by
  have allocated : Follows (Store.Binds lk.table) (change fun s =>
      s.alloc (.suspended bn.term lk.env (some bn.name))) _ :=
    follows_change fun s => .alloc lk.table s bn.term lk.env bn.name
  refine (allocated.bind (binds_trans _) fun th =>
    (declare_follows lk bn.name (some th)).bind (binds_trans _) fun _ =>
      follows_pure (.refl lk.table) th).congr ?_
  intro s
  simp only [Module.define, bind, Except.bind]
  cases lk.declare bn.name (some (s.alloc _).1) (s.alloc _).2 <;> rfl

theorem bindItems_follows (lk o : Module) (its : List ImportItem) :
    Follows (Store.Binds lk.table) (bindItems lk o its) fun s =>
      (lk.bindItems o its s).map fun aft => ((), aft) := by
  induction its with
  | nil => exact follows_pure (.refl lk.table) ()
  | cons itm its ih =>
    refine ((declare_follows lk itm.localName _).bind (binds_trans _) fun _ => ih).congr ?_
    intro s
    rw [Module.bindItems]
    cases lk.declare itm.localName _ s <;> rfl

theorem importFrom_follows (lk o : Module) (its : List ImportItem) :
    Follows (Store.Binds lk.table) (importFrom lk o its) fun s =>
      (lk.importFrom o its s).map fun aft => ((), aft) := by
  refine ((follows_test (.refl lk.table) _).bind (binds_trans _) fun _ =>
    bindItems_follows lk o its).congr ?_
  intro s
  rw [Module.importFrom]
  cases lk.checkItems o s [] its <;> rfl

theorem imports_follows (lk : Module) (ms : Modules) (stms : List Import) :
    Follows (Store.Binds lk.table) (imports lk ms stms) fun s =>
      (linkImports lk ms stms s).map fun aft => ((), aft) := by
  induction stms with
  | nil => exact follows_pure (.refl lk.table) ()
  | cons stm stms ih =>
    refine ((follows_test (.refl lk.table) _).bind (binds_trans _) fun ex =>
      (importFrom_follows lk ex stm.items).bind (binds_trans _) fun _ =>
        ih).congr ?_
    intro s
    rw [linkImports]
    cases ms.find stm.source with
    | none => rfl
    | some ex =>
      simp only [Option.elim, Except.map, bind, Except.bind]
      grind

theorem bindings_follows (lk : Module) (rest : List Binding) :
    Follows (Store.Binds lk.table) (bindings lk rest) fun s => linkBindings lk rest s := by
  induction rest generalizing lk with
  | nil => exact follows_pure (.refl lk.table) lk
  | cons bn rest ih =>
    refine ((define_follows lk bn).bind (binds_trans _) fun th =>
      ih (lk.adding (bn.declaration th))).congr ?_
    intro s
    simp only [linkBindings, Module.define, bind, Except.bind]
    cases lk.declare bn.name (some (s.alloc _).1) (s.alloc _).2 <;> rfl

/-- The table of a new module is new, and so nothing else is changed. -/
theorem single_follows (src : ParsedModule) (ms : Modules) :
    Follows Store.Links (single src ms) fun s => link src ms s := by
  have parts : ∀ lk : Module, Follows (Store.Binds lk.table) _ _ := fun lk =>
    (imports_follows lk ms src.imports).bind (binds_trans _) fun _ =>
      bindings_follows lk src.bindings
  constructor
  · intro s
    rw [link_eq]
    have same := (parts (Module.create src.id (some src.path) s).1).answers
      (Module.create src.id (some src.path) s).2
    refine Eq.trans ?_ same
    cases linkImports (Module.create src.id (some src.path) s).1 ms src.imports
      (Module.create src.id (some src.path) s).2 <;> rfl
  · intro s
    have reached := (parts (Module.create src.id (some src.path) s).1).reaches
      (Module.create src.id (some src.path) s).2
    exact Store.Binds.links reached

theorem inOrder_follows (srcs : Sources) (ids : List String) (ms added : Modules) :
    Follows Store.Links (inOrder srcs ids ms added) fun s => linkInOrder srcs ids ms added s := by
  have trans : ∀ fst snd thd, Store.Links fst snd → Store.Links snd thd →
      Store.Links fst thd := fun _ _ _ early late => early.trans late
  induction ids generalizing ms added with
  | nil => exact follows_pure .refl added
  | cons id ids ih =>
    refine ((follows_test .refl _).bind trans fun src =>
      (single_follows src ms).bind trans fun lk =>
        ih (ms.insert lk) (added.insert lk)).congr ?_
    intro s
    rw [linkInOrder]
    cases srcs.find id with
    | none => rfl
    | some src => rfl

end Linking

/-- The modules of a collection that are not linked yet. -/
def Sources.unlinked (srcs : Sources) (ms : Modules) : Sources :=
  srcs.filter fun src => !ms.contains src.id

/-- `resolve`, with the store that it has reached when it fails. -/
def resolving (srcs : Sources) (ms : Modules) : Linking Modules := do
  let ord ← Linking.test fun _ =>
    dependencyOrder (srcs.unlinked ms) (ms.map Module.id)
  Linking.inOrder (srcs.unlinked ms) ord ms []

theorem resolving_follows (srcs : Sources) (ms : Modules) :
    Linking.Follows Store.Links (resolving srcs ms) fun s => resolve srcs ms s := by
  refine ((Linking.follows_test .refl _).bind (fun _ _ _ early late => early.trans late)
    fun ord => Linking.inOrder_follows _ ord ms []).congr ?_
  intro s
  simp only [resolve, Sources.unlinked]
  cases dependencyOrder (srcs.filter fun src => !ms.contains src.id) (ms.map Module.id) <;> rfl

theorem resolve_eq (srcs : Sources) (ms : Modules) (s : Store) :
    resolve srcs ms s = dependencyOrder (srcs.unlinked ms) (ms.map Module.id) >>= fun ord =>
        linkInOrder (srcs.unlinked ms) ord ms [] s :=
  rfl

theorem resolve_settled
    (ordered : dependencyOrder (srcs.unlinked ms) (ms.map Module.id) = .ok ord) (s : Store) :
    Settled (srcs.unlinked ms) ms [] ord s (resolve srcs ms s) := by
  have settled : Settled (srcs.unlinked ms) ms [] ord s
      (linkInOrder (srcs.unlinked ms) ord (ms ++ []) [] s) :=
    linkInOrder_settled (dependencyOrder_topological ordered) (by simp [Represents])
  rw [List.append_nil] at settled
  rw [resolve_eq, ordered]
  exact settled

/-- A module that is not linked has its place in the order. -/
theorem mem_order_of_find {srcs : Sources} {ms : Modules} {ord : List String}
    (ordered : dependencyOrder (srcs.unlinked ms) (ms.map Module.id) = .ok ord)
    (found : (srcs.unlinked ms).find id = some src) : id ∈ ord := by
  have same : src.id = id := by simpa using List.find?_some found
  have kept := (List.mem_filter.1 (List.mem_of_find?_eq_some found)).2
  have unlinked : ms.find id = none := by simpa [Modules.contains, same] using kept
  exact ((dependencyOrder_topological ordered).mem_iff id).2
    ⟨Sources.mem_ids_of_find found, Modules.find_eq_none.1 unlinked⟩

section Resolving

variable {srcs : Sources} {ms : Modules} {s : Store}

theorem resolve_isOk_iff :
    (∃ r, resolve srcs ms s = .ok r) ↔
      (∃ ord, dependencyOrder (srcs.unlinked ms) (ms.map Module.id) = .ok ord) ∧
      ∀ id src, (srcs.unlinked ms).find id = some src → Linkable (srcs.unlinked ms) ms src := by
  constructor
  · rintro ⟨⟨added, aft⟩, rsd⟩
    obtain ⟨ord, ordered, _⟩ := ok_of_bind rsd
    have settled := resolve_settled ordered s
    rw [rsd] at settled
    obtain ⟨linkable, _⟩ := settled
    exact ⟨⟨ord, ordered⟩, fun id src found =>
      linkable id (mem_order_of_find ordered found) src found⟩
  · rintro ⟨⟨ord, ordered⟩, linkable⟩
    have settled := resolve_settled ordered s
    cases r : resolve srcs ms s with
    | ok pair => exact ⟨pair, rfl⟩
    | error er =>
      rw [r] at settled
      obtain ⟨⟨id, _, src, found, unable⟩, _⟩ := settled
      exact absurd (linkable id src found) unable

theorem resolve_realizes {added : Modules} {aft : Store}
    (rsd : resolve srcs ms s = .ok (added, aft)) :
    dependencyOrder (srcs.unlinked ms) (ms.map Module.id) = .ok (added.map Module.id) ∧
      (added.map Module.table).Nodup ∧
      ∀ lk ∈ added, ∃ src, (srcs.unlinked ms).find lk.id = some src ∧
        Realizes (ms ++ added) s aft src lk := by
  obtain ⟨ord, ordered, _⟩ := ok_of_bind rsd
  have settled := resolve_settled ordered s
  rw [rsd] at settled
  obtain ⟨_, more, rfl, xs, _, tbs, realized⟩ := settled
  exact ⟨ordered.trans (congrArg Except.ok xs.symm),
    tbs.imp fun lower => Nat.ne_of_lt lower, realized⟩

/-- Linking fails because of names, or because the modules have no order. -/
theorem aboutNames_or_genuine {er : LinkError} (failed : resolve srcs ms s = .error er) :
    er.AboutNames ∨ er.Genuine (srcs.unlinked ms) (ms.map Module.id) := by
  cases ordered : dependencyOrder (srcs.unlinked ms) (ms.map Module.id) with
  | error missing =>
    rw [resolve_eq, ordered] at failed
    cases failed
    exact .inr (dependencyOrder_genuine ordered)
  | ok ord =>
    have settled := resolve_settled ordered s
    rw [failed] at settled
    exact .inl settled.2

theorem resolve_findsModules (id : String) : resolve srcs ms s ≠ .error (.notLinked id) := by
  intro failed
  rcases aboutNames_or_genuine failed with xs | genuine
  · exact xs
  · exact genuine

theorem resolve_store_links {added : Modules} {aft : Store}
    (rsd : resolve srcs ms s = .ok (added, aft)) : s.Links aft := by
  obtain ⟨ord, ordered, _⟩ := ok_of_bind rsd
  have settled := resolve_settled ordered s
  rw [rsd] at settled
  obtain ⟨_, more, _, _, links, _⟩ := settled
  exact links

end Resolving

/-- Linking is exact.  It succeeds when the modules that are not linked can be ordered, every
name that they import is declared and none of them introduces a name twice.  Each new module
then realizes its source.  No module is missing when it is looked up, and whatever the
outcome, the thunks and the tables that were there stay as they are. -/
theorem resolve_links_exactly (srcs : Sources) (ms : Modules) (s : Store) :
    ((∃ r, resolve srcs ms s = .ok r) ↔
      (∃ ord, dependencyOrder (srcs.unlinked ms) (ms.map Module.id) = .ok ord) ∧
      ∀ id src, (srcs.unlinked ms).find id = some src →
        Linkable (srcs.unlinked ms) ms src) ∧
    (∀ added aft, resolve srcs ms s = .ok (added, aft) →
      dependencyOrder (srcs.unlinked ms) (ms.map Module.id) = .ok (added.map Module.id) ∧
      (added.map Module.table).Nodup ∧
      ∀ lk ∈ added, ∃ src, (srcs.unlinked ms).find lk.id = some src ∧
        Realizes (ms ++ added) s aft src lk) ∧
    (∀ id, resolve srcs ms s ≠ .error (.notLinked id)) ∧
    resolve srcs ms s = Linking.answer (resolving srcs ms s) ∧
    s.Links (resolving srcs ms s).2 := by
  have follows := resolving_follows srcs ms
  exact ⟨resolve_isOk_iff, fun _ _ => resolve_realizes, resolve_findsModules,
    follows.answers s, follows.reaches s⟩

end CallByNeed
