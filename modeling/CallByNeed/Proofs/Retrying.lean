import CallByNeed.Proofs.Endings
import CallByNeed.Proofs.Relinking

/-!
# Loading again

A file that was read is not read again, also when it could not be linked.  So a load that failed
can be tried again after the files have changed, as long as each file that it needs and that was
read before still reads the same.  Loading then has the outcome that it has in a new session over
the changed files (`Session.load_again`).
-/

variable {translate : Address → Address} {answer : Except Failure Sources} {o : Store}

namespace CallByNeed

open Files Source Text

/-! ### Warnings about copies -/

theorem Module.Copies.unboundNotices
    {lk : Module} (copies : lk.Copies translate s o copy) :
    Session.unboundNotices o copy = Session.unboundNotices s lk := by
  have xs : copy.unboundNames o = lk.unboundNames s := by
    simp only [Module.unboundNames, copies.names, copies.declarations, List.filterMap_map]
    rfl
  simp only [Session.unboundNotices, xs, Session.unboundNotice, copies.id]

/-- Modules that were linked from one collection in the same order are copies in that order. -/
theorem Realized.forall_copies {bef before' : Store} {os : Modules}
    (realized : Realized srcs bef ms s) (again : Realized srcs before' os o)
    (ord : os.map Module.id = ms.map Module.id) :
    List.Forall₂ (Module.Copies (twin ms os) s o) ms os := by
  refine List.forall₂_iff_get.2 ⟨by simpa using (congrArg List.length ord).symm,
    fun i here there => ?_⟩
  obtain ⟨copy, found, copies⟩ := realized.copies again (List.get_mem ms ⟨i, here⟩)
  have named : os[i].id = ms[i].id := by
    have en := congrArg (·[i]?) ord
    grind
  have same : copy = os[i] := by
    refine again.eq_of_id (List.mem_of_find?_eq_some found) (List.getElem_mem there) ?_
    exact copies.id.trans named.symm
  simp_all

namespace Console

variable {cs o : Console} {notices : List Notice}

/-- Warnings are the same on all consoles on which the same is being worked. -/
theorem warned_ok (printable : ∀ nt ∈ notices, nt.Printable) (reference : Console) :
    ∃ tx, ∀ cs, reference.Alike cs →
      cs.warned notices = { cs with printed := cs.printed ++ tx } := by
  induction notices with
  | nil => exact ⟨"", fun cs _ => by simp [warned]⟩
  | cons nt notices ih =>
    obtain ⟨tx, told⟩ := ih fun o mem => printable o (List.mem_cons_of_mem _ mem)
    let blank : Console := { reference with printed := "" }
    refine ⟨(blank.warn nt).2.printed ++ tx, fun cs alike => ?_⟩
    have same : cs.Alike blank := ⟨alike.colours.symm, alike.marked.symm⟩
    have fst := same.warn rfl (printable nt List.mem_cons_self)
    have rest := told { cs with
      printed := cs.printed ++ (blank.warn nt).2.printed } ⟨alike.colours, alike.marked⟩
    grind [warned]

theorem Alike.warned (alike : cs.Alike o) (blank : o.printed = "")
    (printable : ∀ nt ∈ notices, nt.Printable) :
    (cs.warned notices).printed = cs.printed ++ (o.warned notices).printed := by
  obtain ⟨tx, told⟩ := warned_ok printable cs
  rw [told cs ⟨rfl, rfl⟩, told o alike, blank, String.empty_append]

theorem alike_of_idle (idle : cs.traceback.Idle) (idleOther : o.traceback.Idle)
    (colours : o.colours = cs.colours) : cs.Alike o := by
  have unmarked : ∀ tb : Traceback, tb.Idle → tb.marked = [] := by
    intro tb idle
    refine List.filter_eq_nil_iff.2 fun en mem => ?_
    simp [idle.clear en mem]
  exact ⟨colours, (unmarked _ idleOther).trans (unmarked _ idle).symm⟩

end Console

/-! ### Loading -/

namespace Session

/-- The same outcome of a load in a session and in a new one: the same failure, or modules that
are copies of each other with the same warnings.  The warnings look the same if no line is being
worked on. -/
inductive SameOutcome (ss : Session) :
    (oc fresh : Except Failure Module × Session) → Prop
  | failed {fa : Failure} {aft new : Session} (ended : fa ≠ .outOfFuel) :
      SameOutcome ss (.error fa, aft) (.error fa, new)
  | linked {lk copy : Module} {aft new : Session} {added : Modules}
      {translate : Address → Address} {warnings : List Notice}
      (ms : aft.modules = ss.modules ++ added)
      (copies : List.Forall₂ (Module.Copies translate aft.engine.store new.engine.store)
        added new.modules)
      (main : lk.Copies translate aft.engine.store new.engine.store copy)
      (warned : ∃ quiet : Console, quiet.printed = ss.console.printed ∧
        aft.console = quiet.warned warnings)
      (warnedNew : ∃ quiet : Console, quiet.printed = "" ∧ new.console = quiet.warned warnings)
      (tx : ss.console.traceback.Idle → ss.console.colours = new.console.colours →
        aft.console.printed = ss.console.printed ++ new.console.printed) :
      SameOutcome ss (.ok lk, aft) (.ok copy, new)

variable {session : Session} {path root : String} {n enough : Nat}

/-- A load that has ended has read what there is to read. -/
theorem collect_of_load (named : session.places.rootId path = .ok root)
    (ends : EndsWithin enough answer fun n =>
      (collect session.places n root ⟨session.sources, session.console⟩).1)
    (ended : enough ≤ n ∨ (load n path session).1 ≠ .error .outOfFuel) :
    ∃ shelf, collect session.places n root ⟨session.sources, session.console⟩ =
      (answer, shelf) := by
  rcases read : collect session.places n root ⟨session.sources, session.console⟩ with
    ⟨found, shelf⟩
  rcases ends n with same | ⟨less, exhausted⟩
  · obtain rfl : found = answer := (congrArg Prod.fst read).symm.trans same
    exact ⟨shelf, rfl⟩
  · rcases ended with bound | ended
    · omega
    · exact absurd (load_fst_unread named exhausted) ended

theorem failure_ne_outOfFuel (er : LinkError) : er.failure ≠ .outOfFuel := by
  cases er <;> simp [LinkError.failure]

theorem flatMap_unboundNotices
    {added copies : Modules} (all : List.Forall₂ (Module.Copies translate s o) added copies) :
    copies.flatMap (unboundNotices o) = added.flatMap (unboundNotices s) := by
  induction all with
  | nil => rfl
  | cons fst _ ih => rw [List.flatMap_cons, List.flatMap_cons, fst.unboundNotices, ih]

section Reread

variable {fresh : Session} {o : Nat} {shelf shelfNew : Shelf}

/-- On consoles on which nothing is being worked, the same warnings look the same. -/
theorem warnings_printed (read : collect session.places n root
      ⟨session.sources, session.console⟩ = (.ok found, shelf))
    (readNew : collect fresh.places o root ⟨fresh.sources, fresh.console⟩ =
      (.ok found, shelfNew))
    (blank : fresh.console.printed = "") (idle : session.console.traceback.Idle)
    (idleNew : fresh.console.traceback.Idle)
    (colours : fresh.console.colours = session.console.colours)
    (printable : ∀ notice ∈ notices, notice.Printable) :
    (shelf.console.warned notices).printed =
      session.console.printed ++ (shelfNew.console.warned notices).printed := by
  obtain ⟨traceback, console, idleLater⟩ := Tidy.collect _ _ _ read
  obtain ⟨tracebackNew, consoleNew, idleLaterNew⟩ := Tidy.collect _ _ _ readNew
  have alike : shelf.console.Alike shelfNew.console := by
    rw [console, consoleNew]
    exact Console.alike_of_idle (idleLater _ rfl idle) (idleLaterNew _ rfl idleNew) colours
  have unprinted : shelfNew.console.printed = "" := by rw [consoleNew, ← blank]
  have kept : shelf.console.printed = session.console.printed := by rw [console]
  rw [alike.warned unprinted printable, kept]

/-- Loads that have read the same. -/
theorem sameOutcome_of_answer
    (bare : fresh.modules = []) (blank : fresh.console.printed = "")
    (idle : fresh.console.traceback.Idle) (named : session.places.rootId path = .ok root)
    (namedNew : fresh.places.rootId path = .ok root)
    (discovered : Discovered session.places root answer)
    (unlinked : ∀ file, session.places.Reaches root file →
      file ∉ session.modules.map Module.id)
    (read : collect session.places n root ⟨session.sources, session.console⟩ = (answer, shelf))
    (readNew : collect fresh.places o root ⟨fresh.sources, fresh.console⟩ =
      (answer, shelfNew)) :
    SameOutcome session (load n path session) (load o path fresh) := by
  cases answer with
  | error failure =>
    rw [load_unread named read, load_unread namedNew readNew]
    exact .failed fun same => discovered.ne_outOfFuel (by rw [same])
  | ok found =>
    have collection := discovered.collected
    have closed : found.ImportClosed := fun source listed id imported =>
      (collection.closed source listed id imported).resolve_right List.not_mem_nil
    have new : ∀ id ∈ found.ids, id ∉ session.modules.map Module.id :=
      fun id listed => unlinked id (collection.mem_ids_iff.1 listed)
    have listed : root ∈ found.ids := collection.mem_ids_iff.2 .refl
    have tallies := resolve_tallies closed new session.engine.store fresh.engine.store
    rw [load_outcome named read, load_outcome namedNew readNew, bare]
    generalize resolved : resolve found session.modules session.engine.store = linking at tallies ⊢
    generalize resolvedNew : resolve found [] fresh.engine.store = linkingNew at tallies ⊢
    cases tallies with
    | error er => exact .failed (failure_ne_outOfFuel er)
    | @ok result resultNew outlines =>
      obtain ⟨added, store⟩ := result
      obtain ⟨copies, storeNew⟩ := resultNew
      obtain ⟨main, there⟩ := find_root listed resolved
      obtain ⟨mainNew, thereNew⟩ := find_root listed resolvedNew
      simp only [outcome, bare, there, thereNew]
      have realized := realized_of_unlinked closed new resolved
      have again := resolve_realized resolvedNew
      have all := realized.forall_copies again (map_id_of_outline outlines)
      have notices := flatMap_unboundNotices all
      rw [Modules.find_append_of_none (Modules.find_eq_none.2 (new root listed))] at there
      obtain ⟨twin, found, copy⟩ := realized.copies again (List.mem_of_find?_eq_some there)
      have same : twin = mainNew := by
        have id : main.id = root := by simpa using List.find?_some there
        rw [id] at found
        exact Option.some.inj (found.symm.trans thereNew)
      obtain ⟨_, console, _⟩ := Tidy.collect _ _ _ read
      obtain ⟨_, consoleNew, _⟩ := Tidy.collect _ _ _ readNew
      refine .linked rfl ?_ (same ▸ copy) ⟨shelf.console, by rw [console], rfl⟩
        ⟨shelfNew.console, by rw [consoleNew, ← blank],
          congrArg shelfNew.console.warned notices⟩ ?_
      · show List.Forall₂ (Module.Copies _ store storeNew) added (fresh.modules ++ copies)
        rwa [bare]
      · intro quiet colours
        show (shelf.console.warned (added.flatMap (unboundNotices store))).printed =
          session.console.printed ++ (shelfNew.console.warned
            (copies.flatMap (unboundNotices storeNew))).printed
        rw [notices]
        refine warnings_printed read readNew blank quiet idle ?_
          (unboundNotices_printable store added)
        obtain ⟨_, painted⟩ := Console.extends_warned
          (unboundNotices_printable storeNew copies) shelfNew.console
        have final : session.console.colours = (shelfNew.console.warned
          (copies.flatMap (unboundNotices storeNew))).colours := colours
        rw [painted, consoleNew] at final
        exact final.symm

end Reread

theorem idle_start (options : SessionOptions) : (start options).console.traceback.Idle :=
  ⟨by simp [start, Console.fresh, Console.clear, Console.register, Traceback.register],
    by simp [start, Console.fresh, Console.clear, Console.register, Traceback.register, Mark.clear]⟩

/-- A load has the outcome that it has in a new session over the files as they are now.  None of
the files that the path reaches in them may be linked, and those of them that were read before,
also by a load that failed later, have to read the same still. -/
theorem load_again {session : Session} {options : SessionOptions} {path : String}
    (rooted : isAbsolute session.places.working) (sameFiles : options.places = session.places)
    (unlinked : ∀ file, session.places.Reaches (absolute session.places.working path) file →
      file ∉ session.modules.map Module.id)
    (unchanged : session.places.Unchanged (absolute session.places.working path)
      session.sources) :
    ∃ enough, ∀ n o, (enough ≤ n ∨ (load n path session).1 ≠ .error .outOfFuel) →
      (enough ≤ o ∨ (load o path (start options)).1 ≠ .error .outOfFuel) →
      SameOutcome session (load n path session) (load o path (start options)) := by
  have bare : (start options).modules = [] := rfl
  have unread : (start options).sources = [] := rfl
  have blank : (start options).console.printed = "" := rfl
  have idle := idle_start options
  have samePlaces : (start options).places = session.places := sameFiles
  generalize start options = fresh at *
  cases named : session.places.rootId path with
  | error failure =>
    refine ⟨0, fun n o _ _ => ?_⟩
    rw [load_of_rootId_error named, load_of_rootId_error (samePlaces ▸ named)]
    refine .failed ?_
    rintro rfl
    cases ofReading_of_rootId named
  | ok root =>
    have namedNew : fresh.places.rootId path = .ok root := samePlaces ▸ named
    obtain ⟨same, isFile⟩ := rootId_ok_iff.1 named
    have isId : IsId root := same ▸ isId_absolute rooted path
    rw [same] at unlinked unchanged
    obtain ⟨enough, answer, discovered, ends⟩ := collect_discovered rooted isId isFile
    have endsHere := ends ⟨session.sources, session.console⟩ unchanged
    have endsNew := ends ⟨fresh.sources, fresh.console⟩ (by simp [unread, Places.Unchanged])
    rw [← samePlaces] at endsNew
    refine ⟨enough, fun n o ended endedNew => ?_⟩
    obtain ⟨shelf, read⟩ := collect_of_load named endsHere ended
    obtain ⟨shelfNew, readNew⟩ := collect_of_load namedNew endsNew endedNew
    exact sameOutcome_of_answer bare blank idle named namedNew discovered unlinked read readNew

/-- Two files of which the first one imports the other. -/
def twoFiles (main leaf : String) : Places :=
  .over [(["m.lc"], .holding main), (["b.lc"], .holding leaf)]

def importingText (name : String) : String :=
  "use \x7b X \x7d from \"./b\"; " ++ name ++ " = y => y;"

def declaring (name : String) : Places := twoFiles (importingText name) "X = z => z;"

def sessionOver (places : Places) : Session := start ⟨places, none, false, false, false, false⟩

/-- What is read of the two files. -/
def declaringSources (name : String) : Sources :=
  let session := sessionOver (declaring name)
  (collect session.places 4 "/m.lc" ⟨[], session.console⟩).1.toOption.getD []

theorem declaring_ordered :
    ∀ name ∈ ["X", "Y"], dependencyOrder (declaringSources name) [] = .ok ["/b.lc", "/m.lc"] := by
  intro name mem
  apply dependencyOrder_of_within 4
  revert name
  decide +kernel

theorem declaring_loads : ∃ main, (load 4 "m.lc" (sessionOver (declaring "Y"))).1 = .ok main := by
  have named : (sessionOver (declaring "Y")).places.rootId "m.lc" = .ok "/m.lc" := by
    decide +kernel
  have loads : (load 4 "m.lc" (sessionOver (declaring "Y"))).1.toOption.isSome := by
    rw [load_ordered named rfl (by decide +kernel) (declaring_ordered "Y" (by simp))]
    decide +kernel
  cases loaded : (load 4 "m.lc" (sessionOver (declaring "Y"))).1 with
  | ok main => exact ⟨main, rfl⟩
  | error failure =>
    rw [loaded] at loads
    cases loads

/-- After a file that could not be parsed is mended, the load succeeds.  The file that imports it
was read before and is the same. -/
theorem unparsed_read_again :
    let failed := load 4 "m.lc" (sessionOver (twoFiles (importingText "Y") "X = ;"))
    let mended : Session := { failed.2 with places := declaring "Y" }
    let fresh := load 4 "m.lc" (sessionOver (declaring "Y"))
    failed.1.toOption.isNone ∧ mended.sources.ids = ["/m.lc"] ∧ (∃ main, fresh.1 = .ok main) ∧
    ∃ enough, ∀ n, enough ≤ n → SameOutcome mended (load n "m.lc" mended) fresh := by
  intro failed mended fresh
  have bare : mended.modules.map Module.id = [] := by decide +kernel
  have kept : ∀ source ∈ mended.sources,
      (mended.places.source source.id).toOption = some source := by decide +kernel
  obtain ⟨main, loaded⟩ := declaring_loads
  refine ⟨by decide +kernel, by decide +kernel, ⟨main, loaded⟩, ?_⟩
  have unchanged : mended.places.Unchanged (absolute mended.places.working "m.lc")
      mended.sources := by
    intro source read _
    have same := kept source read
    cases holds : mended.places.source source.id with
    | error failure =>
      rw [holds] at same
      cases same
    | ok found =>
      rw [holds] at same
      rw [Option.some.inj same]
  obtain ⟨enough, same⟩ := @load_again mended ⟨declaring "Y", none, false, false, false, false⟩
    "m.lc" (by decide +kernel) rfl (fun file _ => by rw [bare]; exact List.not_mem_nil) unchanged
  refine ⟨enough, fun n bound => same n 4 (.inl bound) (.inr ?_)⟩
  exact fun exhausted => by cases loaded.symm.trans exhausted

/-- What loading comes to where a clash of names was read. -/
theorem load_clash (bare : session.modules = [])
    (store : session.engine.store = (sessionOver (declaring "X")).engine.store)
    (named : session.places.rootId "m.lc" = .ok "/m.lc")
    (read : (collect session.places 4 "/m.lc"
      ⟨session.sources, session.console⟩).1.toOption = some (declaringSources "X")) :
    load 4 "m.lc" session = (.error (.duplicate "X" "/m.lc"), session.shelved
      (collect session.places 4 "/m.lc" ⟨session.sources, session.console⟩).2) := by
  have clash : (linkInOrder (declaringSources "X") ["/b.lc", "/m.lc"] [] []
      (sessionOver (declaring "X")).engine.store).map (fun _ => ()) =
      .error (.duplicate "X" "/m.lc") := by decide +kernel
  rw [load_ordered named bare read (declaring_ordered "X" (by simp)), store]
  show session.outcome "/m.lc" _ (linkInOrder _ _ _ _ _) = _
  generalize linkInOrder (declaringSources "X") ["/b.lc", "/m.lc"] [] []
    (sessionOver (declaring "X")).engine.store = linked at clash ⊢
  cases linked with
  | ok result => cases clash
  | error er =>
    cases clash
    rfl

/-- The session after a clash of names was read, over files without the clash. -/
def staleSession : Session :=
  let clashing := sessionOver (declaring "X")
  { clashing.shelved (collect clashing.places 4 "/m.lc" ⟨[], clashing.console⟩).2 with
    places := declaring "Y" }

/-- A file that could not be linked is not read again. -/
theorem unlinked_not_read_again :
    let failed := load 4 "m.lc" (sessionOver (declaring "X"))
    failed.1 = .error (.duplicate "X" "/m.lc") ∧
    (load 4 "m.lc" { failed.2 with places := declaring "Y" }).1 =
      .error (.duplicate "X" "/m.lc") ∧
    ∃ main, (load 4 "m.lc" (sessionOver (declaring "Y"))).1 = .ok main := by
  have clash := @load_clash (sessionOver (declaring "X")) rfl rfl (by decide +kernel)
    (by decide +kernel)
  have again := @load_clash staleSession rfl rfl (by decide +kernel) (by decide +kernel)
  have stale : { (load 4 "m.lc" (sessionOver (declaring "X"))).2 with places := declaring "Y" } =
      staleSession :=
    congrArg (fun outcome => { outcome.2 with places := declaring "Y" }) clash
  refine ⟨congrArg Prod.fst clash, ?_, declaring_loads⟩
  show (load 4 "m.lc" { (load 4 "m.lc" (sessionOver (declaring "X"))).2 with
    places := declaring "Y" }).1 = _
  rw [stale, again]

end Session

end CallByNeed
