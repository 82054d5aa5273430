import CallByNeed.Proofs.Discovery
import CallByNeed.Proofs.WriteOnce

/-!
# What loading does to a session

Loading collects files, links those that are not linked yet and warns about names that they
lack.  A warning can always be printed, so there are four outcomes (`Session.Loads`), and
in all but one of them nothing is linked.
-/

namespace CallByNeed

open Files Source Text

/-! ### Printing -/

/-- A console to which more was printed. -/
def Console.Extends (bef aft : Console) : Prop :=
  ∃ tx, aft = { bef with printed := bef.printed ++ tx }

namespace Console.Extends

theorem refl (cs : Console) : cs.Extends cs := ⟨"", by rw [String.append_empty]⟩

theorem trans {fst snd thd : Console} (early : fst.Extends snd) (late : snd.Extends thd) :
    fst.Extends thd := by
  obtain ⟨tx, rfl⟩ := early
  obtain ⟨more, rfl⟩ := late
  exact ⟨tx ++ more, by rw [String.append_assoc]⟩

end Console.Extends

namespace Console

/-- A console to which warnings were printed. -/
def warned (cs : Console) (notices : List Notice) : Console :=
  notices.foldl (fun cs nt => (cs.warn nt).2) cs

theorem warned_append (cs : Console) (notices more : List Notice) :
    cs.warned (notices ++ more) = (cs.warned notices).warned more := List.foldl_append

theorem extends_warned (printable : ∀ nt ∈ notices, nt.Printable)
    (cs : Console) : cs.Extends (cs.warned notices) := by
  induction notices generalizing cs with
  | nil => exact .refl cs
  | cons nt notices ih =>
    obtain ⟨tx, warned⟩ := warn_ok (printable nt List.mem_cons_self) cs
    have fst : cs.Extends (cs.warn nt).2 := ⟨tx, by rw [warned]⟩
    exact fst.trans (ih (fun o mem => printable o (List.mem_cons_of_mem _ mem)) _)

end Console

namespace Session

theorem unboundNotice_printable (lk : Module) (x : Name) (missing : List Name) :
    (unboundNotice lk x missing).Printable := by
  have shape : "'\x7b\x7d' in '\x7b\x7d' uses unbound '\x7b\x7d'".toList =
      written [.text "'".toList, .slot, .text "' in '".toList, .slot,
        .text "' uses unbound '".toList, .slot, .text "'".toList] := by decide
  exact Notice.printable_of_written shape (fun _ => rfl) rfl rfl

theorem warn_ok (printable : nt.Printable) (ss : Session) :
    warn nt ss = (.ok (), { ss with console := ss.console.warned [nt] }) := by
  obtain ⟨tx, warned⟩ := Console.warn_ok printable ss.console
  grind [warn, Console.warned]

theorem warnAll_ok {α : Type} (its : List α) {nt : α → Notice}
    (printable : ∀ itm ∈ its, (nt itm).Printable) (ss : Session) :
    (forIn its PUnit.unit fun itm _ => do
        warn (nt itm)
        pure (ForInStep.yield PUnit.unit) : Act PUnit) ss =
      (.ok ⟨⟩, { ss with console := ss.console.warned (its.map nt) }) := by
  induction its generalizing ss with
  | nil => rfl
  | cons itm its ih =>
    have warned := warn_ok (printable itm List.mem_cons_self) ss
    have stepped : (do warn (nt itm); pure (.yield ⟨⟩) : Act (ForInStep PUnit)) ss =
        (.ok (.yield ⟨⟩), { ss with console := ss.console.warned [nt itm] }) :=
      Action.bind_ok warned _
    rw [List.forIn_cons, Action.bind_ok stepped]
    exact ih (fun o mem => printable o (List.mem_cons_of_mem _ mem)) _

/-- The warnings about the names that a module lacks. -/
def unboundNotices (s : Store) (lk : Module) : List Notice :=
  (lk.unboundNames s).map fun itm => unboundNotice lk itm.1 itm.2

theorem unboundNotices_printable (s : Store) (added : Modules) :
    ∀ nt ∈ added.flatMap (unboundNotices s), nt.Printable := by
  intro nt mem
  obtain ⟨lk, _, listed⟩ := List.mem_flatMap.mp mem
  obtain ⟨itm, _, rfl⟩ := List.mem_map.mp listed
  exact unboundNotice_printable lk itm.1 itm.2

theorem addModule_ok (lk : Module) (ss : Session) :
    addModule lk ss = (.ok (), { ss with
      modules := ss.modules.insert lk
      console := ss.console.warned (unboundNotices ss.engine.store lk) }) := by
  let inserted : Session := { ss with modules := ss.modules.insert lk }
  have fst : (modify fun ss => { ss with
      modules := ss.modules.insert lk } : Act PUnit) ss = (.ok ⟨⟩, inserted) := rfl
  have warned := warnAll_ok (lk.unboundNames ss.engine.store)
    (fun itm _ => unboundNotice_printable lk itm.1 itm.2) inserted
  rw [addModule, Action.bind_ok fst, Action.get_bind]
  exact Action.bind_ok warned _

theorem addModules_ok (added : Modules) (ss : Session) :
    addModules added ss = (.ok ⟨⟩, { ss with
      modules := added.foldl Modules.insert ss.modules
      console := ss.console.warned (added.flatMap (unboundNotices ss.engine.store)) }) := by
  induction added generalizing ss with
  | nil => rfl
  | cons lk added ih =>
    have stepped : (do addModule lk; pure (.yield ⟨⟩) : Act (ForInStep PUnit)) ss =
        (.ok (.yield ⟨⟩), _) := Action.bind_ok (addModule_ok lk ss) _
    rw [addModules, List.forIn_cons, Action.bind_ok stepped, List.flatMap_cons,
      Console.warned_append]
    exact ih _

end Session

/-! ### Linking -/

section Linking

variable {srcs : Sources} {ms added : Modules} {s aft : Store}

/-- The modules that are linked are those of the collection that were not linked. -/
theorem mem_resolved_iff (rsd : resolve srcs ms s = .ok (added, aft)) (id : String) :
    id ∈ added.map Module.id ↔ id ∈ srcs.ids ∧ id ∉ ms.map Module.id := by
  obtain ⟨ordered, _, _⟩ := resolve_realizes rsd
  rw [(dependencyOrder_topological ordered).mem_iff]
  constructor
  · rintro ⟨mem, new⟩
    obtain ⟨src, kept, rfl⟩ := List.mem_map.mp mem
    exact ⟨List.mem_map_of_mem (List.mem_filter.mp kept).1, new⟩
  · rintro ⟨mem, new⟩
    obtain ⟨src, listed, rfl⟩ := List.mem_map.mp mem
    refine ⟨List.mem_map_of_mem (List.mem_filter.mpr ⟨listed, ?_⟩), new⟩
    rw [Modules.contains, Modules.find_eq_none.mpr new]
    rfl

/-- The modules that are linked come behind those that were there. -/
theorem insertAll_resolved (rsd : resolve srcs ms s = .ok (added, aft)) :
    added.foldl Modules.insert ms = ms ++ added := by
  obtain ⟨ordered, _, _⟩ := resolve_realizes rsd
  refine Modules.insertAll_of_new (dependencyOrder_topological ordered).nodup ?_
  intro lk mem
  exact ((mem_resolved_iff rsd lk.id).mp (List.mem_map_of_mem mem)).2

theorem Linkable.of_find {o : Sources} (same : ∀ id, o.find id = srcs.find id)
    (linkable : Linkable o ms src) : Linkable srcs ms src where
  declared stm mem itm listed := by
    rcases linkable.declared stm mem itm listed with known | ⟨new, og, found, named⟩
    · exact .inl known
    · exact .inr ⟨new, og, (same _).symm.trans found, named⟩
  distinct := linkable.distinct

/-- Whether modules can be linked does not depend on how they are listed. -/
theorem resolve_isOk_of_perm {o : Sources} (dst : srcs.ids.Nodup) (perm : o.Perm srcs)
    (able : ∃ r, resolve o ms s = .ok r) : ∃ r, resolve srcs ms s = .ok r := by
  have kept : (o.unlinked ms).Perm (srcs.unlinked ms) := perm.filter _
  have distinctKept : (srcs.unlinked ms).ids.Nodup :=
    (List.filter_sublist.map ParsedModule.id).nodup dst
  have distinctOther : (o.unlinked ms).ids.Nodup :=
    (kept.map ParsedModule.id).nodup_iff.mpr distinctKept
  have same : ∀ id, (o.unlinked ms).find id = (srcs.unlinked ms).find id := by
    intro id
    apply Option.ext
    grind [Sources.find_eq_some]
  have listed : ∀ id, id ∈ (o.unlinked ms).ids ↔ id ∈ (srcs.unlinked ms).ids :=
    fun id => (kept.map ParsedModule.id).mem_iff
  rw [resolve_isOk_iff, dependencyOrder_isOk_iff] at able ⊢
  obtain ⟨⟨complete, acyclic⟩, linkable⟩ := able
  refine ⟨⟨?_, ?_⟩, fun id src found => ?_⟩
  · simpa only [Sources.Complete, Sources.imports_perm distinctKept kept, listed] using complete
  · grind [Sources.Acyclic, Sources.imports_perm]
  · exact (linkable id src ((same id).trans found)).of_find same

end Linking

namespace Session

/-- A session after files were read. -/
def shelved (ss : Session) (sh : Shelf) : Session :=
  { ss with sources := sh.sources, console := sh.console }

/-- A session after modules were linked. -/
def extended (ss : Session) (added : Modules) (s : Store) (console : Console) : Session :=
  { ss with
    modules := ss.modules ++ added
    engine := { ss.engine with store := s }
    console }

/-- The session after files were read, modules were linked and what they miss was told. -/
def linking (ss : Session) (sh : Shelf) (added : Modules) (s : Store) : Session :=
  (ss.shelved sh).extended added s (sh.console.warned (added.flatMap (unboundNotices s)))

/-- The outcomes of loading the module with an id. -/
inductive Loads (ss : Session) (n : Nat) (id : String) :
    Except Failure Module × Session → Prop
  /-- A file could not be read. -/
  | unread {fa : Failure} {sh : Shelf}
      (read : collect ss.places n id ⟨ss.sources, ss.console⟩ = (.error fa, sh)) :
      Loads ss n id (.error fa, ss.shelved sh)
  /-- The files could not be linked. -/
  | unlinked {coll : Sources} {sh : Shelf} {er : LinkError}
      (read : collect ss.places n id ⟨ss.sources, ss.console⟩ = (.ok coll, sh))
      (failed : resolve coll ss.modules ss.engine.store = .error er) :
      Loads ss n id (.error er.failure, ss.shelved sh)
  /-- The files were linked, and the module is none of them. -/
  | lost {coll : Sources} {sh : Shelf} {added : Modules} {s : Store}
      (read : collect ss.places n id ⟨ss.sources, ss.console⟩ = (.ok coll, sh))
      (rsd : resolve coll ss.modules ss.engine.store = .ok (added, s))
      (absent : Modules.find (ss.modules ++ added) id = none) :
      Loads ss n id (.error (.notLinked id), ss.linking sh added s)
  | linked {coll : Sources} {sh : Shelf} {added : Modules} {s : Store} {lk : Module}
      (read : collect ss.places n id ⟨ss.sources, ss.console⟩ = (.ok coll, sh))
      (rsd : resolve coll ss.modules ss.engine.store = .ok (added, s))
      (found : Modules.find (ss.modules ++ added) id = some lk) :
      Loads ss n id (.ok lk, ss.linking sh added s)

theorem loadModule_loads (ss : Session) (n : Nat) (id : String) :
    ss.Loads n id (loadModule n id ss) := by
  rw [loadModule, Action.get_bind]
  rcases read : collect ss.places n id ⟨ss.sources, ss.console⟩ with ⟨result, shelf⟩
  have reads : reading (collect ss.places n id) ss = (result, ss.shelved shelf) := by
    rw [reading, read]
    rfl
  cases result with
  | error fa =>
    rw [Action.bind_error reads]
    exact .unread read
  | ok collected =>
    rw [Action.bind_ok reads, Action.get_bind]
    cases resolved : resolve collected ss.modules ss.engine.store with
    | error error =>
      have same : resolve collected (ss.shelved shelf).modules
          (ss.shelved shelf).engine.store = .error error := resolved
      rw [same]
      exact .unlinked read resolved
    | ok outcome =>
      obtain ⟨added, s⟩ := outcome
      have same : resolve collected (ss.shelved shelf).modules
          (ss.shelved shelf).engine.store = .ok (added, s) := resolved
      have written : (set { ss.shelved shelf with
          engine := { (ss.shelved shelf).engine with store := s } } : Act PUnit)
          (ss.shelved shelf) = (.ok ⟨⟩, { ss.shelved shelf with
            engine := { (ss.shelved shelf).engine with store := s } }) := rfl
      have adds := addModules_ok added { ss.shelved shelf with
        engine := { (ss.shelved shelf).engine with store := s } }
      rw [addModules] at adds
      rw [same]
      dsimp only
      rw [Action.bind_ok written, Action.bind_ok adds, Action.get_bind]
      dsimp only [shelved]
      rw [insertAll_resolved resolved]
      cases found : Modules.find (ss.modules ++ added) id with
      | none => exact .lost read resolved found
      | some linked => exact .linked read resolved found

end Session

/-! ### Paths that a tree can have -/

variable {ph id rt : String} {fa : Failure} {n : Nat}

namespace Files

/-- The working directory is an absolute path that a tree can have. -/
structure Places.Rooted (pls : Places) : Prop where
  absolute : isAbsolute pls.working
  clean : '\x00' ∉ pls.working.toList

theorem null_notMem_of_isFile {tree : Tree} {working : String} (isFile : tree.isFile working ph) :
    '\x00' ∉ ph.toList := by grind [Tree.isFollowable, Tree.isFile, Tree.find]

theorem mem_of_mem_join {dir : String} (mem : ch ∈ (join dir ph).toList) :
    ch ∈ dir.toList ∨ ch = '/' ∨ ch ∈ ph.toList := by
  grind [join, String.toList_append]

namespace Places.Rooted

variable {pls : Places}

theorem null_notMem_of_locate (rooted : pls.Rooted) {tg : String} {imp : Option String}
    (found : pls.locate ph imp = .ok tg) : '\x00' ∉ tg.toList := by
  unfold Places.locate at found
  dsimp only at found
  split at found
  · rename_i candidate chosen
    rw [← Except.ok.inj found]
    intro null
    have inside := mem_of_mem_normal (isAbsolute_join rooted.absolute) null
    rcases mem_of_mem_join inside with working | slash | ph
    · exact rooted.clean working
    · cases slash
    · exact null_notMem_of_isFile (List.find?_some chosen) ph
  · cases found

theorem null_notMem_of_reaches (rooted : pls.Rooted) (clean : '\x00' ∉ rt.toList)
    (reaches : pls.Reaches rt file) : '\x00' ∉ file.toList := by
  induction reaches with
  | refl => exact clean
  | tail _ ims _ =>
    obtain ⟨_, _, _, _, found⟩ := ims
    exact rooted.null_notMem_of_locate found

theorem ofReading (rooted : pls.Rooted) (clean : '\x00' ∉ rt.toList)
    (disc : Discovered pls rt (.error fa)) : OfReading fa := by
  cases disc with
  | failed reaches failed =>
    rcases ofReading_of_source failed with reading | ⟨_, null⟩
    · exact reading
    · exact absurd null (rooted.null_notMem_of_reaches clean reaches)

end Places.Rooted

end Files

/-! ### Loading over a tree that does not change -/

/-- The failures of loading. -/
inductive OfLoading : Failure → Prop
  | reading {fa : Failure} (reading : OfReading fa) : OfLoading fa
  | duplicate (x mid0 : String) : OfLoading (.duplicate x mid0)
  | cyclicImport (cycle : List String) : OfLoading (.cyclicImport cycle)
  | unbound (x : Name) : OfLoading (.evaluation (.unbound x) [])

theorem ofLoading_of_resolve {er : LinkError}
    (failed : resolve srcs ms s = .error er) : OfLoading er.failure := by
  cases er with
  | notExported mid0 x => exact .unbound _
  | duplicate x mid0 => exact .duplicate x mid0
  | cyclicImport cycle => exact .cyclicImport cycle
  | notLoaded mid0 imp => exact .reading (.load _ _)
  | notLinked mid0 => exact absurd failed (resolve_findsModules mid0)

namespace Session

/-- The files that a root reaches can be read and linked. -/
def Loadable (ss : Session) (rt : String) : Prop :=
  ∃ coll r, ss.places.Collection rt coll ∧ resolve coll ss.modules ss.engine.store = .ok r

/-- What loading a file comes to: it fails and nothing but what was read has changed, or the
files that the root reaches are linked and the root is the main module. -/
inductive Loaded (ss : Session) (rt : String) : Except Failure Module × Session → Prop
  | failed {fa : Failure} {sh : Shelf} (ofLoading : OfLoading fa)
      (unloadable : ¬ ss.Loadable rt) :
      Loaded ss rt (.error fa, ss.shelved sh)
  | linked {lk : Module} {sh : Shelf} {coll : Sources} {added : Modules}
      {s : Store} {cs : Console}
      (collection : ss.places.Collection rt coll)
      (rsd : resolve coll ss.modules ss.engine.store = .ok (added, s))
      (found : Modules.find (ss.modules ++ added) rt = some lk) :
      Loaded ss rt (.ok lk, { (ss.shelved sh).extended added s cs with main := some lk.id })

section Loading

variable {ss : Session}

theorem load_of_rootId_error (lost : ss.places.rootId ph = .error fa) (n : Nat) :
    load n ph ss = (.error fa, ss) := by
  rw [load, Action.get_bind, lost, Action.lift_error_bind]

section

variable (named : ss.places.rootId ph = .ok id)

include named

theorem load_of_rootId_ok (n : Nat) :
    load n ph ss =
      (loadModule n id >>= fun lk => do
        modify fun ss => { ss with main := some lk.id }
        pure lk : Act Module) ss := by
  rw [load, Action.get_bind, named, Action.lift_ok_bind]

theorem load_of_error {aft : Session} (failed : loadModule n id ss = (.error fa, aft)) :
    load n ph ss = (.error fa, aft) := by
  rw [load_of_rootId_ok named, Action.bind_error failed]

theorem load_of_ok {lk : Module} {aft : Session} (done : loadModule n id ss = (.ok lk, aft)) :
    load n ph ss = (.ok lk, { aft with main := some lk.id }) := by
  rw [load_of_rootId_ok named, Action.bind_ok done]
  rfl

end

theorem find_root {added : Modules} {aft : Store} (listed : rt ∈ coll.ids)
    (rsd : resolve coll ms s = .ok (added, aft)) :
    ∃ lk, Modules.find (ms ++ added) rt = some lk := by
  cases found : Modules.find (ms ++ added) rt with
  | some lk => exact ⟨lk, rfl⟩
  | none =>
    rw [Modules.find_eq_none, List.map_append, List.mem_append, not_or] at found
    grind [mem_resolved_iff]

/-- What loading a file comes to after files were read, by the outcome of linking them. -/
def outcome (ss : Session) (root : String) (sh : Shelf) :
    Except LinkError (Modules × Store) → Except Failure Module × Session
  | .error er => (.error er.failure, ss.shelved sh)
  | .ok (added, s) =>
    match Modules.find (ss.modules ++ added) root with
    | none => (.error (.notLinked root), ss.linking sh added s)
    | some lk => (.ok lk, { ss.linking sh added s with main := some lk.id })

section Outcome

variable {root : String} {sh : Shelf} (named : ss.places.rootId ph = .ok root)

include named

theorem load_unread (read : collect ss.places n root ⟨ss.sources, ss.console⟩ = (.error fa, sh)) :
    load n ph ss = (.error fa, ss.shelved sh) := by
  generalize loaded : loadModule n root ss = oc
  have loads := loadModule_loads ss n root
  rw [loaded] at loads
  cases loads with
  | unread again =>
    cases again.symm.trans read
    exact load_of_error named loaded
  | unlinked again | lost again | linked again => cases again.symm.trans read

theorem load_fst_unread (failed : (collect ss.places n root ⟨ss.sources, ss.console⟩).1 = .error fa) :
    (load n ph ss).1 = .error fa := by
  rcases read : collect ss.places n root ⟨ss.sources, ss.console⟩ with ⟨result, sh⟩
  rw [read] at failed
  cases failed
  rw [load_unread named read]

theorem load_outcome
    (read : collect ss.places n root ⟨ss.sources, ss.console⟩ = (.ok coll, sh)) :
    load n ph ss = ss.outcome root sh (resolve coll ss.modules ss.engine.store) := by
  generalize loaded : loadModule n root ss = oc
  have loads := loadModule_loads ss n root
  rw [loaded] at loads
  cases loads with
  | unread again => cases again.symm.trans read
  | unlinked again failed =>
    cases again.symm.trans read
    rw [load_of_error named loaded, failed, outcome]
  | lost again rsd absent =>
    cases again.symm.trans read
    rw [load_of_error named loaded, rsd, outcome, absent]
  | linked again rsd found =>
    cases again.symm.trans read
    rw [load_of_ok named loaded, rsd, outcome, found]

/-- Loading into a session without modules, when the order of the files is known. -/
theorem load_ordered (bare : ss.modules = [])
    (read : (collect ss.places n root ⟨ss.sources, ss.console⟩).1.toOption = some coll)
    {order : Except LinkError (List String)} (ordered : dependencyOrder coll [] = order) :
    load n ph ss = ss.outcome root (collect ss.places n root ⟨ss.sources, ss.console⟩).2
      (order >>= fun ids => linkInOrder coll ids [] [] ss.engine.store) := by
  rcases ran : collect ss.places n root ⟨ss.sources, ss.console⟩ with ⟨result, sh⟩
  rw [ran] at read
  cases result with
  | error fa => cases read
  | ok found =>
    cases read
    rw [load_outcome named ran, bare, resolve_of_order ordered]

end Outcome

theorem not_loadable_of_source {file : String} (reaches : ss.places.Reaches rt file)
    (failed : ss.places.source file = .error fa) : ¬ ss.Loadable rt := by
  rintro ⟨coll, _, collection, _⟩
  obtain ⟨src, mem, rfl⟩ := List.mem_map.mp ((collection.exact file).mpr reaches)
  have said := (collection.mem_iff.mp mem).2
  simp_all

/-- What loading a file comes to when the search for its files has ended. -/
theorem load_of_collected (rooted : ss.places.Rooted) (isId : IsId rt)
    (named : ss.places.rootId ph = .ok rt) {ans : Except Failure Sources}
    (ended : (collect ss.places n rt ⟨ss.sources, ss.console⟩).1 = ans)
    (disc : Discovered ss.places rt ans) : ss.Loaded rt (load n ph ss) := by
  have clean := null_notMem_of_isFile (rootId_ok_iff.mp named).2
  rcases read : collect ss.places n rt ⟨ss.sources, ss.console⟩ with ⟨result, sh⟩
  rw [read] at ended
  subst ended
  cases result with
  | error fa =>
    rw [load_unread named read]
    refine .failed (.reading (rooted.ofReading clean disc)) ?_
    cases disc with
    | failed reaches failed => exact not_loadable_of_source reaches failed
  | ok coll =>
    have collection := disc.collected.collection rooted.absolute isId
    rw [load_outcome named read]
    cases rsd : resolve coll ss.modules ss.engine.store with
    | error er =>
      refine .failed (ofLoading_of_resolve rsd) ?_
      rintro ⟨o, r, another, able⟩
      obtain ⟨lk, linked⟩ :=
        resolve_isOk_of_perm collection.distinct (collection.perm another) ⟨r, able⟩
      cases rsd.symm.trans linked
    | ok linked =>
      obtain ⟨lk, found⟩ := find_root (disc.collected.mem_ids_iff.mpr .refl) rsd
      simp only [outcome, found]
      exact .linked collection rsd found

theorem Loaded.ne_outOfFuel {oc : Except Failure Module × Session} (loaded : ss.Loaded rt oc) :
    oc.1 ≠ .error .outOfFuel := by
  cases loaded with
  | linked => simp
  | failed ofLoading _ =>
    rintro ⟨rfl⟩
    cases ofLoading with
    | reading reading => cases reading

/-- Loading ends, in one of the two ways. -/
theorem load_loaded (rooted : ss.places.Rooted) (said : ss.places.Said ss.sources) (ph : String) :
    (∃ enough, ∀ n, enough ≤ n → (load n ph ss).1 ≠ .error .outOfFuel) ∧
      ∀ n, (load n ph ss).1 ≠ .error .outOfFuel →
        ss.Loaded (absolute ss.places.working ph) (load n ph ss) := by
  cases named : ss.places.rootId ph with
  | error fa =>
    have failed := load_of_rootId_error named
    have reading := ofReading_of_rootId named
    constructor
    · refine ⟨0, fun n _ exh => ?_⟩
      rw [failed] at exh
      cases exh
      cases reading
    · intro n _
      rw [failed]
      have unloadable : ¬ ss.Loadable (absolute ss.places.working ph) := by
        rintro ⟨coll, _, collection, _⟩
        have isFile := (collection.files _ ((collection.exact _).mpr .refl)).2
        grind [rootId_isOk_iff]
      have nothing : ss.Loaded (absolute ss.places.working ph)
          (.error fa, ss.shelved ⟨ss.sources, ss.console⟩) := .failed (.reading reading) unloadable
      exact nothing
  | ok rt =>
    obtain ⟨same, isFile⟩ := rootId_ok_iff.mp named
    have isId : IsId rt := same ▸ isId_absolute rooted.absolute ph
    obtain ⟨enough, ans, disc, ends⟩ := collect_discovered rooted.absolute isId isFile
    have settles := ends ⟨ss.sources, ss.console⟩ (said.unchanged rt)
    have loaded : ∀ n, (collect ss.places n rt ⟨ss.sources, ss.console⟩).1 = ans →
        ss.Loaded rt (load n ph ss) := fun n ended => load_of_collected rooted isId named ended disc
    rw [same]
    constructor
    · refine ⟨enough, fun n bound => ?_⟩
      rcases settles n with ended | ⟨less, _⟩
      · exact (loaded n ended).ne_outOfFuel
      omega
    · intro n ended
      exact loaded n (settles.answer fun exh => ended (load_fst_unread named exh))

end Loading

end Session

end CallByNeed
