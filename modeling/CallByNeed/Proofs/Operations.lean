import CallByNeed.Proofs.Entries

/-!
# Operations of a session

A session is taken through operations that may fail.  What holds between them
(`Session.Sound`, `Session.Faithful`) is kept by each one and so holds in every session that is
reached.  The two main results say what an operation that fails leaves behind: a file
that cannot be loaded changes nothing that is linked (`Session.load_all_or_nothing`), and a
line that is refused leaves the shell as it was (`Session.add_all_or_nothing`).
-/

variable {op : SessionOptions} {added : Modules}

namespace CallByNeed

open Files Source

namespace Session

/-! ### Running bindings -/

theorem Prints.reportEvaluation (er : EvalError) (tr : List String) :
    Prints (reportEvaluation er tr) := fun _ => ⟨_, _, rfl⟩

section Bindings

variable (n : Nat) (linked : Module)

theorem Framed.printBinding (x : Name) : Framed (printBinding n x) :=
  (Framed.evaluate n x none).bind fun v =>
    (Framed.render n v).bind fun _ => .printing (.onConsole _)

theorem Continues.printBinding (x : Name) : Continues (printBinding n x) :=
  (Continues.evaluate n x none).bind fun v =>
    (Continues.render n v).bind fun _ => .printing (Prints.onConsole _)

theorem prints_report (er : EvalError) (tr : List String) :
    Prints (do reportEvaluation er tr; pure false : Act Bool) :=
  (Prints.reportEvaluation er tr).bind fun _ => .pure false

theorem prints_clear : Prints (do onConsole (·.clear linked.id); pure true : Act Bool) :=
  (Prints.onConsole _).bind fun _ => .pure true

theorem Framed.runBinding (x : Name) : Framed (runBinding n linked x) := by
  rw [Session.runBinding]
  refine (Framed.printing (.onConsole _)).bind fun _ ss => ?_
  obtain ⟨r, cs, e, printed⟩ := Framed.printBinding n x ss
  rw [printed]
  cases r with
  | ok done =>
    obtain ⟨r, cs, cleared⟩ := prints_clear linked { ss with
      console := cs
      engine := e }
    grind
  | error fa =>
    cases fa with
    | evaluation er tr =>
      obtain ⟨r, cs, reported⟩ := prints_report er tr { ss with
        console := cs
        engine := e }
      grind
    | _ => exact ⟨_, cs, e, rfl⟩

theorem Continues.runBinding (x : Name) : Continues (runBinding n linked x) := by
  rw [Session.runBinding]
  refine (Continues.printing (Prints.onConsole _)).bind fun _ ss r aft ran ended => ?_
  rcases printed : Session.printBinding n x ss with ⟨oc, mid⟩
  rw [printed] at ran
  cases oc with
  | ok done =>
    have fst := Continues.printBinding n x printed (by simp)
    exact fst.trans (Continues.printing (prints_clear linked) ran ended)
  | error fa =>
    have ends : fa ≠ .outOfFuel → ss.Later mid := fun o =>
      Continues.printBinding n x printed fun same => o (Except.error.inj same)
    cases fa with
    | evaluation er tr =>
      exact (ends (by simp)).trans (Continues.printing (prints_report er tr) ran ended)
    | _ => grind

theorem Framed.runBindings (xs : List Name) : Framed (runBindings n linked xs) := by
  induction xs with
  | nil => exact .pure true
  | cons x xs ih =>
    exact (Framed.runBinding n linked x).bind fun _ => ih.bind fun _ => .pure _

theorem Continues.runBindings (xs : List Name) : Continues (runBindings n linked xs) := by
  induction xs with
  | nil => exact .pure true
  | cons x xs ih =>
    exact (Continues.runBinding n linked x).bind fun _ => ih.bind fun _ => .pure _

end Bindings

theorem Framed.run (n : Nat) (xs : List Name) : Framed (run n xs) := by
  refine Framed.reads.bind fun ss => ?_
  cases ss.main? with
  | none => exact fun ss => ⟨.error .noMain, ss.console, ss.engine, rfl⟩
  | some linked => exact Framed.runBindings n linked _

theorem Continues.run (n : Nat) (xs : List Name) : Continues (run n xs) := by
  have reads : Continues (get : Act Session) := .printing fun ss => ⟨_, ss.console, rfl⟩
  refine reads.bind fun ss => ?_
  cases ss.main? with
  | none => exact .printing fun ss => ⟨.error .noMain, ss.console, rfl⟩
  | some linked => exact Continues.runBindings n linked _

/-! ### Histories -/

/-- An operation of a session that has ended, whatever its outcome. -/
inductive Step : Session → Session → Prop
  | load {n : Nat} {ph : String} {bef aft : Session} {r : Except Failure Module}
      (ran : load n ph bef = (r, aft)) (ended : r ≠ .error .outOfFuel) :
      Step bef aft
  | add {n : Nat} {ln : String} {num : LineNumber} {bef aft : Session}
      {r : Except Failure Unit} (ran : add n ln num bef = (r, aft))
      (ended : r ≠ .error .outOfFuel) : Step bef aft
  | run {n : Nat} {xs : List Name} {bef aft : Session} {r : Except Failure Bool}
      (ran : run n xs bef = (r, aft)) (ended : r ≠ .error .outOfFuel) :
      Step bef aft
  | evaluate {n : Nat} {x : Name} {own : Option Module} {bef aft : Session}
      {r : Except Failure Value} (ran : evaluate n x own bef = (r, aft))
      (ended : r ≠ .error .outOfFuel) : Step bef aft
  | render {n : Nat} {v : Value} {bef aft : Session} {r : Except Failure String}
      (ran : render n v bef = (r, aft)) (ended : r ≠ .error .outOfFuel) :
      Step bef aft
  | pop {bef aft : Session} {r : Except Failure String}
      (ran : pop bef = (r, aft)) : Step bef aft

/-- An operation, or a change of the files. -/
inductive Event : Session → Session → Prop
  | step {bef aft : Session} (step : bef.Step aft) : Event bef aft
  | change (bef : Session) (tree : Tree) :
      Event bef { bef with places := { bef.places with tree } }

theorem load_grown {bef aft : Session} {r : Except Failure Module}
    (ran : load n ph bef = (r, aft)) :
    ∃ added mid, bef.Grown added mid ∧ aft = { mid with main := aft.main } := by
  cases named : bef.places.rootId ph with
  | error fa =>
    rw [load_of_rootId_error named] at ran
    cases ran
    exact ⟨[], bef, .printed bef bef.console, rfl⟩
  | ok id =>
    have loads := loadModule_loads bef n id
    rcases loaded : loadModule n id bef with ⟨oc, mid⟩
    rw [loaded] at loads
    obtain ⟨added, grown, _⟩ := loads.grown
    refine ⟨added, mid, grown, ?_⟩
    cases oc with
    | error fa =>
      rw [load_of_error named loaded] at ran
      cases ran
      rfl
    | ok linked => grind [load_of_ok]

theorem Step.keeps {bef aft : Session} (step : bef.Step aft) (sound : bef.Sound) :
    aft.Sound ∧ aft.places = bef.places ∧ (bef.Faithful → aft.Faithful) := by
  have asks : bef.Asked aft → aft.Sound ∧ aft.places = bef.places ∧ (bef.Faithful → aft.Faithful) :=
    fun asked => ⟨(asked.sound sound).1, asked.places, asked.faithful⟩
  cases step with
  | load ran _ =>
    obtain ⟨added, mid, grown, same⟩ := load_grown ran
    have kept := grown.sound sound
    rw [same]
    exact ⟨⟨kept.wired, kept.apart, kept.settled, kept.writable⟩, grown.places, grown.faithful⟩
  | add ran ended =>
    rcases add_handled sound ran ended with ⟨_, _, _, refused⟩ | ⟨_, _, handled⟩
    · exact ⟨refused.sound, refused.places, refused.faithful⟩
    · cases handled with
      | refused refused => exact ⟨refused.sound, refused.places, refused.faithful⟩
      | entered accepted _ => exact ⟨accepted.sound, accepted.places, accepted.faithful⟩
  | run ran ended =>
    exact asks (asked_of_framed (Framed.run _ _) (Continues.run _ _) ran ended)
  | evaluate ran ended =>
    exact asks (asked_of_framed (Framed.evaluate _ _ _) (Continues.evaluate _ _ _) ran ended)
  | render ran ended =>
    exact asks (asked_of_framed (Framed.render _ _) (Continues.render _ _) ran ended)
  | pop ran =>
    rw [Session.pop, Action.get_bind] at ran
    cases given : bef.results with
    | nil =>
      rw [given] at ran
      cases ran
      simp_all
    | cons tx rss =>
      rw [given] at ran
      cases ran
      exact ⟨⟨sound.wired, sound.apart, sound.settled, sound.writable⟩, rfl, id⟩

theorem Sound.start (op : SessionOptions) : (start op).Sound where
  wired := (Orderly.start op).wired
  apart := by
    intro linked mem
    cases mem
  settled := by
    intro a forcing
    cases forcing
  writable := by
    intro a th held
    cases held

theorem reached_keeps
    (reached : Relation.ReflTransGen Step (start op) ss) :
    ss.Sound ∧ ss.places = op.places ∧ ss.Faithful := by
  induction reached with
  | refl =>
    refine ⟨.start op, rfl, ?_⟩
    intro src mem
    cases mem
  | tail _ step ih =>
    obtain ⟨sound, pls, faithful⟩ := ih
    obtain ⟨soundAfter, same, keeps⟩ := step.keeps sound
    simp_all

/-- What holds in every session, also when files change. -/
theorem sound_of_events
    (reached : Relation.ReflTransGen Event (start op) ss) : ss.Sound := by
  induction reached with
  | refl => exact .start op
  | tail _ ev ih =>
    cases ev with
    | step step => exact (step.keeps ih).1
    | change tree => exact ⟨ih.wired, ih.apart, ih.settled, ih.writable⟩

/-! ### Loading -/

/-- What was linked before is as it was: no module lost a name or a thunk, and nothing was
evaluated. -/
structure Intact (bef aft : Session) : Prop where
  linked : ∀ linked ∈ bef.linked, linked ∈ aft.linked
  tables : ∀ linked ∈ bef.linked,
    aft.engine.store.table linked.table = bef.engine.store.table linked.table
  thunks : ∀ {a th}, bef.engine.store.thunk? a = some th →
    aft.engine.store.thunk? a = some th
  unforced : ∀ {a th}, bef.engine.store.thunk? a = none →
    aft.engine.store.thunk? a = some th → th.phase = .unforced
  tally : aft.engine.tally = bef.engine.tally

/-- A file was loaded: it is the main module, and the modules are extended by the files that
it reaches and that were not linked. -/
structure Extended (bef : Session) (rt : String) (linked : Module) (aft : Session) :
    Prop where
  id : linked.id = rt
  main : aft.main = some rt ∧ aft.main? = some linked
  modules : ∃ added, aft.modules = bef.modules ++ added ∧ (added.map Module.id).Nodup ∧
    (∀ file, file ∈ added.map Module.id ↔
      bef.places.Reaches rt file ∧ file ∉ bef.modules.map Module.id) ∧
    ∀ linked ∈ added, ∃ src, Realizes aft.modules bef.engine.store aft.engine.store src linked
  shell : aft.shell = bef.shell
  results : aft.results = bef.results

section Loading

variable {ss aft : Session} {rt : String}

theorem intact_shelved (ss : Session) (sh : Shelf) : ss.Intact (ss.shelved sh) where
  linked _ mem := mem
  tables _ _ := rfl
  thunks held := held
  unforced new held := by
    rw [shelved, new] at held
    cases held
  tally := rfl

theorem intact_extended (sound : ss.Sound)
    (links : ss.engine.store.Links s) (main : Option String) :
    ss.Intact { (ss.shelved sh).extended added s cs with main } where
  linked linked mem := by
    rcases List.mem_cons.mp mem with rfl | known
    · exact List.mem_cons_self
    · exact List.mem_cons_of_mem _ (List.mem_append_left _ known)
  tables linked mem := links.tables _ (sound.wired.placed linked mem)
  thunks held := links.keeps held
  unforced new held := by
    obtain ⟨t, env, x, rfl⟩ := links.fresh new held
    rfl
  tally := rfl

theorem extended_of_collection {linked : Module} (collection : ss.places.Collection rt coll)
    (rsd : resolve coll ss.modules ss.engine.store = .ok (added, s))
    (found : Modules.find (ss.modules ++ added) rt = some linked) :
    ss.Extended rt linked { (ss.shelved sh).extended added s cs with main := some linked.id } := by
  have id : linked.id = rt := by simpa using List.find?_some found
  obtain ⟨ordered, _, realized⟩ := resolve_realizes rsd
  constructor
  case id => exact id
  case main =>
    refine ⟨congrArg some id, ?_⟩
    rw [id]
    exact found
  case modules =>
    refine ⟨added, rfl, (dependencyOrder_topological ordered).nodup, fun file => ?_,
      fun linked mem => ?_⟩
    · rw [mem_resolved_iff rsd, collection.exact]
    · obtain ⟨src, _, realizes⟩ := realized linked mem
      exact ⟨src, realizes⟩
  case shell => rfl
  case results => rfl

end Loading

/-- Loading is all or nothing.  Over files that do not change, loading a file ends in every
session that operations lead to.  If the files that it reaches can be read and linked it gives
the module of the file, and otherwise it raises one of the failures of loading and changes
nothing but what was read.  In both cases all that was linked before is intact. -/
theorem load_all_or_nothing {op : SessionOptions} (rooted : op.places.Rooted)
    {ss : Session} (reached : Relation.ReflTransGen Step (start op) ss)
    (ph : String) :
    (∃ enough, ∀ n, enough ≤ n → (load n ph ss).1 ≠ .error .outOfFuel) ∧
    ∀ n r aft, load n ph ss = (r, aft) →
      r ≠ .error .outOfFuel →
      ss.Intact aft ∧
      ((∃ linked, r = .ok linked) ↔
        ss.Loadable (absolute op.places.working ph)) ∧
      (∀ fa, r = .error fa →
        OfLoading fa ∧ ∃ sh, aft = ss.shelved sh) ∧
      ∀ linked, r = .ok linked →
        ss.Extended (absolute op.places.working ph) linked aft := by
  obtain ⟨sound, pls, faithful⟩ := reached_keeps reached
  rw [← pls] at rooted ⊢
  obtain ⟨ends, loaded⟩ := load_loaded rooted faithful ph
  refine ⟨ends, fun n r aft ran ended => ?_⟩
  have oc := loaded n (by rw [ran]; exact ended)
  rw [ran] at oc
  cases oc with
  | failed ofLoading unloadable => grind [intact_shelved]
  | linked collection rsd found =>
    have loadable : ss.Loadable (absolute ss.places.working ph) := ⟨_, _, collection, rsd⟩
    grind [resolve_store_links, intact_extended, extended_of_collection]

/-- A session over two files that import each other. -/
def ringSession : Session := start ⟨ring, none, false, false, false, false⟩

/-- The shell with a declaration of its own. -/
def declaredSession : Session :=
  (add 1 "I = x => x" (.known 1) ringSession).2

theorem declared_step : ringSession.Step declaredSession := by
  have declared : (add 1 "I = x => x" (.known 1) ringSession).1 = .ok () := by decide +kernel
  exact .add (Prod.ext declared rfl) (by simp)

/-- What is read of the two files. -/
def ringShelf : Except Failure Sources × Shelf :=
  collect declaredSession.places 4 "/a.lc" ⟨declaredSession.sources, declaredSession.console⟩

/-- The two files are read and cannot be linked.  The declaration of the shell stays. -/
theorem load_ring : ring.Rooted ∧ ringSession.Step declaredSession ∧
    load 4 "a.lc" declaredSession = (.error (.cyclicImport ["/a.lc", "/b.lc", "/a.lc"]),
      declaredSession.shelved ringShelf.2) ∧
    ringShelf.2.sources.ids = ["/a.lc", "/b.lc"] ∧
    declaredSession.shell.declarations.map Declaration.name = ["I"] ∧
    ¬ declaredSession.Loadable "/a.lc" ∧
    declaredSession.Intact (declaredSession.shelved ringShelf.2) := by
  have rooted : ring.Rooted := ⟨by decide, by decide⟩
  have named : declaredSession.places.rootId "a.lc" = .ok "/a.lc" := by decide +kernel
  have root : absolute ring.working "a.lc" = "/a.lc" := by decide +kernel
  have read : ringShelf.1.toOption = some (ringShelf.1.toOption.getD []) := by decide +kernel
  have ordered : dependencyOrder (ringShelf.1.toOption.getD []) [] =
      .error (.cyclicImport ["/a.lc", "/b.lc", "/a.lc"]) :=
    dependencyOrder_of_within 4 (by decide +kernel)
  have ran : load 4 "a.lc" declaredSession = _ :=
    load_ordered named (by decide +kernel) read ordered
  rw [← ringShelf] at ran
  change _ = (Except.error (Failure.cyclicImport _), declaredSession.shelved ringShelf.2) at ran
  obtain ⟨intact, succeeds, _⟩ :=
    (load_all_or_nothing rooted (.single declared_step) "a.lc").2 4 _ _ ran (by simp)
  rw [root] at succeeds
  refine ⟨rooted, declared_step, ran, by decide +kernel, by decide +kernel, fun loadable => ?_,
    intact⟩
  obtain ⟨linked, loaded⟩ := succeeds.mpr loadable
  cases loaded

/-! ### Entries -/

/-- A line is added as a whole or not at all, in every session that operations lead to, also
when files change between them.  If it is refused the shell is as it was, and modules that were
linked for it are linked completely.  If it is added, it adds the names of an import, one
declaration or one result, and nothing else.  In no case is a thunk left half evaluated. -/
theorem add_all_or_nothing {op : SessionOptions} {ss : Session}
    (reached : Relation.ReflTransGen Event (start op) ss) {n : Nat} {ln : String}
    {num : LineNumber} {r : Except Failure Unit} {aft : Session}
    (ran : add n ln num ss = (r, aft)) (ended : r ≠ .error .outOfFuel) :
    aft.engine.store.Settled ∧
    (∀ fa, r = .error fa → ss.Refused aft) ∧
    (r = .ok () → ss.Accepted aft ∧
      ∃ en, parseEntry ln = .ok en ∧ ss.Entered en aft) := by
  rcases add_handled (sound_of_events reached) ran ended with
    ⟨ft, _, rfl, refused⟩ | ⟨en, pd, handled⟩
  · exact ⟨refused.sound.settled, fun _ _ => refused, by simp⟩
  · cases handled with
    | refused refused => exact ⟨refused.sound.settled, fun _ _ => refused, by simp⟩
    | entered accepted entered =>
      exact ⟨accepted.sound.settled, by simp, fun _ => ⟨accepted, en, pd, entered⟩⟩

/-- A name that is taken is not declared again. -/
theorem add_duplicate : (add 1 "I = x => x" (.known 1) ringSession).1 = .ok () ∧
    (add 1 "I = I" (.known 2) declaredSession).1 = .error (.duplicate "I" "<in>") ∧
    declaredSession.Refused (add 1 "I = I" (.known 2) declaredSession).2 := by
  have refused : (add 1 "I = I" (.known 2) declaredSession).1 =
      .error (.duplicate "I" "<in>") := by decide +kernel
  obtain ⟨_, kept, _⟩ := add_all_or_nothing (.single (.step declared_step))
    (Prod.ext refused rfl : add 1 "I = I" (.known 2) declaredSession = (_, _)) (by simp)
  exact ⟨by decide +kernel, refused, kept _ rfl⟩

end Session

end CallByNeed
