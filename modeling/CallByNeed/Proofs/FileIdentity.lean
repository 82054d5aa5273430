import CallByNeed.Proofs.Operations

/-!
# Files and the ids of their modules

An id is a normal path, and normal paths that lead to one file have the same parts.  They can
still differ in one thing: two slashes at the start of a path stay two.  So a file has one module
in a session as long as no path is written with exactly two slashes at its start
(`Session.one_module_per_file`).
-/

namespace CallByNeed

open Files Source Text

namespace Files

variable {ph dir tg : String} {pls : Places}

/-! ### The slashes that a path starts with -/

theorem takeWhile_append_of_mem {fr rest : List Char} {stays : Char → Bool}
    (inside : ch ∈ fr) (o : stays ch = false) :
    (fr ++ rest).takeWhile stays = fr.takeWhile stays := by
  rw [List.takeWhile_append, if_neg]
  intro whole
  rw [← (List.takeWhile_prefix stays).eq_of_length whole] at inside
  rw [List.mem_takeWhile_imp inside] at o
  cases o

theorem leadingSlashes_join (relative : isAbsolute ph = false) (some : dir ≠ "") :
    leadingSlashes (join dir ph) = leadingSlashes dir := by
  have nonempty : dir.isEmpty = false := by simpa [String.isEmpty_iff] using some
  rw [join, if_neg (by simp [relative])]
  split
  · grind [isAbsolute, Option.mem_def, leadingSlashes, String.toList_append,
      takeWhile_append_of_head?]
  · rename_i unfinished
    rw [nonempty, Bool.false_or, decide_eq_true_eq] at unfinished
    obtain ⟨last, ends⟩ := Option.ne_none_iff_exists'.1 fun nothing =>
      some (String.toList_eq_nil_iff.1 (List.getLast?_eq_none_iff.1 nothing))
    unfold leadingSlashes
    rw [String.toList_append, String.toList_append, List.append_assoc,
      takeWhile_append_of_mem (List.mem_of_getLast? ends) (by simpa [ends] using unfinished)]

theorem takeWhile_withoutSlashes (chs : List Char) :
    (withoutSlashes chs).takeWhile (· = '/') = chs.takeWhile (· = '/') := by
  unfold withoutSlashes
  split
  · rfl
  · rename_i o
    have whole : (chs.reverse.dropWhile (· = '/')).reverse ++
        (chs.reverse.takeWhile (· = '/')).reverse = chs := by
      grind [List.takeWhile_append_dropWhile]
    obtain ⟨ch, inside, apart⟩ : ∃ ch ∈ (chs.reverse.dropWhile (· = '/')).reverse,
        decide (ch = '/') = false := by
      cases l : chs.reverse.dropWhile (· = '/') with
      | nil => grind [List.dropWhile_eq_nil_iff]
      | cons ch rest => grind [List.head?_dropWhile_not]
    conv_rhs => rw [← whole, takeWhile_append_of_mem inside apart]

theorem leadingSlashes_directoryOf (ph : String) :
    leadingSlashes (directoryOf ph) = leadingSlashes ph := by
  have whole : (ph.toList.reverse.dropWhile (· ≠ '/')).reverse ++
      (ph.toList.reverse.takeWhile (· ≠ '/')).reverse = ph.toList := by
    grind [List.takeWhile_append_dropWhile]
  have apart : ∀ ch ∈ (ph.toList.reverse.takeWhile (· ≠ '/')).reverse.head?,
      decide (ch = '/') = false := by grind [List.mem_takeWhile_imp]
  unfold leadingSlashes directoryOf
  rw [String.toList_ofList, takeWhile_withoutSlashes]
  conv_rhs => rw [← whole, takeWhile_append_of_head? apart]

theorem leadingSlashes_withExtension (ph : String) :
    leadingSlashes (withExtension ph) = leadingSlashes ph := by
  unfold withExtension
  split
  · rfl
  · have fst : extension.toList = ['.', 'l', 'c'] := rfl
    grind [leadingSlashes, String.toList_append, takeWhile_append_of_head?]

theorem leadingSlashes_normal (rooted : isAbsolute ph) :
    leadingSlashes (normal ph) = leadingSlashes ph := by
  rw [normal_eq rooted, leadingSlashes_rootedPath (names_normalParts rooted)
    (leadingSlashes_of_isAbsolute rooted)]

/-- A path starts with two slashes and no third. -/
def Doubled (ph : String) : Prop := leadingSlashes ph = 2
deriving Decidable

theorem doubled_of_join (doubled : Doubled (join dir ph)) : Doubled ph ∨ Doubled dir := by
  by_cases relative : isAbsolute ph = false
  · by_cases empty : dir = ""
    · simp_all [join]
    simp_all [Doubled, leadingSlashes_join]
  grind [join]

theorem doubled_of_absolute (rooted : isAbsolute working)
    (doubled : Doubled (absolute working ph)) : Doubled ph ∨ Doubled working := by
  rw [Doubled, absolute, leadingSlashes_normal (isAbsolute_join rooted)] at doubled
  exact doubled_of_join doubled

/-- The imports that an entry of a tree holds as a file. -/
def Entry.imports : Entry → List Import
  | .directory => []
  | .file bytes _ =>
    match decode bytes with
    | .error _ => []
    | .ok chs =>
      match parseModule (String.ofList (unifyLineEnds chs)) "" "" with
      | .error _ => []
      | .ok pd => pd.imports

theorem Places.Holds.imports {pd : ParsedModule} (holds : pls.Holds file pd) :
    ∃ en ∈ pls.tree, en.2.imports = pd.imports := by
  obtain ⟨bytes, chs, found, decoded, parses⟩ := holds
  have followable : Tree.isFollowable file = true := by
    by_contra unfollowable
    simp [Tree.find, unfollowable] at found
  simp only [Tree.find, followable, Bool.not_true, Bool.false_eq_true, if_false] at found
  obtain ⟨pl, _, listed⟩ := Option.bind_eq_some_iff.1 found
  have listed : pls.tree.lookup pl = some (.file bytes) := by
    unfold Tree.entry? at listed
    split at listed
    · cases listed
    · exact listed
  obtain ⟨_, _, split, _⟩ := List.lookup_eq_some_iff.1 listed
  refine ⟨(pl, .file bytes), by simp [split], ?_⟩
  unfold parseModule at parses
  cases parsedText : parseText statements (String.ofList (unifyLineEnds chs)) with
  | error ft => simp [parsedText, Except.map] at parses
  | ok pd =>
    rw [parsedText] at parses
    simp only [Entry.imports, decoded, parseModule, parsedText, Except.map]
    rw [← Except.ok.inj parses]

/-- No path that a module can be found by is written with two slashes at its start. -/
structure Places.Single (pls : Places) : Prop where
  directories : ∀ dir ∈ pls.working :: pls.library :: pls.further, ¬ Doubled dir
  imports : ∀ en ∈ pls.tree, ∀ stm ∈ en.2.imports, ¬ Doubled stm.source

namespace Places.Single

theorem locate (single : pls.Single) (rooted : isAbsolute pls.working) {imp : Option String}
    (found : pls.locate ph imp = .ok tg) (plain : ¬ Doubled ph)
    (src : ∀ file ∈ imp, ¬ Doubled file) : ¬ Doubled tg := by
  unfold Places.locate at found
  dsimp only at found
  split at found
  · rename_i candidate chosen
    rw [← Except.ok.inj found]
    intro doubled
    have plainPath : ¬ Doubled (withExtension ph) := by
      rwa [Doubled, leadingSlashes_withExtension]
    have directories := single.directories
    have listed := List.mem_of_find?_eq_some chosen
    rcases doubled_of_absolute rooted doubled with doubled | doubled
    · unfold Places.candidates at listed
      split at listed
      · simp_all
      · split at listed
        · split at listed
          · rename_i file known
            rw [List.mem_singleton.1 listed] at doubled
            rcases doubled_of_join doubled with doubled | doubled
            · exact plainPath doubled
            simp_all [Doubled, leadingSlashes_directoryOf]
          · rw [List.mem_singleton.1 listed] at doubled
            exact (doubled_of_join doubled).elim plainPath (directories _ (by simp))
        · obtain ⟨dir, searched, rfl⟩ := List.mem_map.1 listed
          exact (doubled_of_join doubled).elim plainPath
            (directories dir (List.mem_cons_of_mem _ searched))
    simp_all
  · cases found

theorem reaches (single : pls.Single) (rooted : isAbsolute pls.working)
    (plain : ¬ Doubled rt) (reaches : pls.Reaches rt file) : ¬ Doubled file := by
  induction reaches with
  | refl => exact plain
  | tail _ ims ih =>
    obtain ⟨pd, holds, stm, mem, found⟩ := ims
    obtain ⟨en, listed, same⟩ := holds.imports
    have plain := single.imports en listed stm (same ▸ mem)
    exact single.locate rooted found plain (by simpa using ih)

end Places.Single

/-! ### Paths to one file -/

/-- Two paths lead to the same file of a tree. -/
def Tree.SameFile (tree : Tree) (fst snd : String) : Prop :=
  ∃ pl bytes readable, tree.follow [] (parts fst) = some pl ∧
    tree.follow [] (parts snd) = some pl ∧ tree.entry? pl = some (.file bytes readable)

theorem IsId.place {id : String} (isId : IsId id) {tree : Tree} {pl : List String}
    (followed : tree.follow [] (parts id) = some pl) : pl = normalParts id := by
  rw [normalParts, isId.rooted]
  grind [Tree.follow_eq, notMem_of_mem_parts]

/-- Ids of one file are the same up to a second slash at the start. -/
theorem IsId.of_sameFile {fst snd : String} (isFirst : IsId fst) (isSecond : IsId snd)
    {tree : Tree} (same : tree.SameFile fst snd) :
    fst = snd ∨ Doubled fst ∧ fst = "/" ++ snd ∨
      Doubled snd ∧ snd = "/" ++ fst := by
  obtain ⟨pl, _, _, early, late, _⟩ := same
  have parts : normalParts fst = normalParts snd :=
    (isFirst.place early).symm.trans (isSecond.place late)
  have slash : ∀ xs, rootedPath 2 xs = "/" ++ rootedPath 1 xs := fun xs =>
    String.toList_injective (by simp [toList_rootedPath])
  have spelledFirst := (normal_eq isFirst.rooted).symm.trans isFirst.normal
  have spelledSecond := (normal_eq isSecond.rooted).symm.trans isSecond.normal
  rw [parts] at spelledFirst
  rcases leadingSlashes_of_isAbsolute isFirst.rooted with one | two <;>
    rcases leadingSlashes_of_isAbsolute isSecond.rooted with single | double
  · simp_all
  · rw [one] at spelledFirst
    rw [double, slash, spelledFirst] at spelledSecond
    exact .inr (.inr ⟨double, spelledSecond.symm⟩)
  · rw [single] at spelledSecond
    rw [two, slash, spelledSecond] at spelledFirst
    exact .inr (.inl ⟨two, spelledFirst.symm⟩)
  simp_all

end Files

/-! ### What a session has read and linked -/

/-- The root of what an operation loads. -/
inductive Operation.Names (pls : Places) : Operation → String → Prop
  | load {ph rt : String} (named : pls.rootId ph = .ok rt) : Names pls (.load ph) rt
  | add {ln rt : String} {num : LineNumber} {stm : Import}
      (pd : parseEntry ln = .ok (.imports stm))
      (located : pls.locate stm.source none = .ok rt) :
      Names pls (.add ln num) rt

/-- The path that an operation loads from. -/
def Operation.path? : Operation → Option String
  | .load ph => some ph
  | .add ln _ =>
    match parseEntry ln with
    | .ok (.imports stm) => some stm.source
    | _ => none
  | _ => none

namespace Session

/-- What was read and linked, with the places that it was read from. -/
def library (ss : Session) : Places × Sources × Modules := (ss.places, ss.sources, ss.modules)

/-- An action that reads and links nothing. -/
def Still {α : Type} (ac : Act α) : Prop := ∀ ss, (ac ss).2.library = ss.library

section Still

variable {α β : Type} {ac : Act α} {next : α → Act β}

theorem Framed.still (framed : Framed ac) : Still ac := by
  intro ss
  obtain ⟨_, _, _, ran⟩ := framed ss
  rw [ran]
  rfl

theorem library_bind (still : ∀ v, Still (next v)) (ss : Session) :
    ((ac >>= next) ss).2.library = (ac ss).2.library := by
  rcases ran : ac ss with ⟨_ | v, aft⟩
  · rw [Action.bind_error ran]
  · rw [Action.bind_ok ran]
    exact still v aft

theorem Still.bind (fst : Still ac) (rest : ∀ v, Still (next v)) : Still (ac >>= next) :=
  fun ss => (library_bind rest ss).trans (fst ss)

theorem still_addBinding (bn : Binding) : Still (addBinding bn) := by
  intro ss
  rw [addBinding, Action.get_bind]
  cases ss.shell.define bn ss.engine.store <;> rfl

theorem still_addExpression (n : Nat) (t : Term) : Still (addExpression n t) :=
  Framed.reads.still.bind fun _ => (Framed.request _).still.bind fun v =>
    (Framed.render n v).still.bind fun _ _ => rfl

theorem still_importFrom (ex : Module) (stm : Import) :
    Still (do
      let ss ← get
      match ss.shell.importFrom ex stm.items ss.engine.store with
      | .error er => throw er.failure
      | .ok s => set { ss with engine := { ss.engine with store := s } }) := by
  intro ss
  rw [Action.get_bind]
  cases ss.shell.importFrom ex stm.items ss.engine.store <;> rfl

end Still

/-- Every module of a session is a file that one of the roots reaches, and no id is taken
twice. -/
structure Filed (pls : Places) (rts : String → Prop) (ss : Session) : Prop where
  unmoved : ss.places = pls
  said : pls.Said ss.sources
  reached : ∀ lk ∈ ss.modules, ∃ rt, rts rt ∧ IsId rt ∧
    pls.Reaches rt lk.id
  distinct : (ss.modules.map Module.id).Nodup

namespace Filed

variable {pls : Places} {rts : String → Prop} {ss aft : Session} {n : Nat}
  {id : String}

theorem of_library (filed : Filed pls rts ss) (same : aft.library = ss.library) :
    Filed pls rts aft := by
  obtain ⟨samePlaces, srcs⟩ := Prod.mk.inj same
  obtain ⟨sameSources, ms⟩ := Prod.mk.inj srcs
  constructor
  · exact samePlaces.trans filed.unmoved
  · exact sameSources ▸ filed.said
  · exact ms ▸ filed.reached
  · exact ms ▸ filed.distinct

section

variable (rooted : isAbsolute pls.working)

include rooted

theorem collected (isId : IsId id) (said : pls.Said srcs) (read : collect pls n id ⟨srcs, cs⟩ = (.ok coll, sh)) :
    Collected pls id [] coll := by
  obtain ⟨enough, ans, ends, oc⟩ := collect_endsWithin rooted id
  have ended : (collect pls n id ⟨srcs, cs⟩).1 = ans :=
    (ends ⟨srcs, cs⟩ (said.unchanged _)).answer (by simp [read])
  simp only [read] at ended
  rcases oc with ⟨rt, named, disc⟩ | ⟨fa, _, failed⟩
  · rw [(rootId_ok_iff.1 named).1.symm.trans (isId.absolute _), ← ended] at disc
    exact disc.collected
  simp_all

theorem loadModule (filed : Filed pls rts ss) (isId : IsId id) (named : rts id) :
    Filed pls rts (loadModule n id ss).2 := by
  obtain ⟨rfl, said, reached, dst⟩ := filed
  have kept : ∀ {ans sh}, collect ss.places n id ⟨ss.sources, ss.console⟩ = (ans, sh) →
      ss.places.Said sh.sources := by grind [collect_said]
  have extends_ : ∀ {coll sh added s cs},
      collect ss.places n id ⟨ss.sources, ss.console⟩ = (.ok coll, sh) →
      resolve coll ss.modules ss.engine.store = .ok (added, s) →
      Filed ss.places rts ((ss.shelved sh).extended added s cs) := by
    intro coll sh added s cs read rsd
    have collection := Filed.collected rooted isId said read
    have new := fun o => mem_resolved_iff rsd o
    obtain ⟨ordered, _, _⟩ := resolve_realizes rsd
    refine ⟨rfl, kept read, fun lk mem => ?_, ?_⟩
    · rcases List.mem_append.1 mem with old | late
      · exact reached lk old
      · have listed := ((new lk.id).1 (List.mem_map_of_mem late)).1
        exact ⟨id, named, isId, collection.mem_ids_iff.1 listed⟩
    · show ((ss.modules ++ added).map Module.id).Nodup
      rw [List.map_append, List.nodup_append]
      refine ⟨dst, (dependencyOrder_topological ordered).nodup, ?_⟩
      grind
  generalize loaded : Session.loadModule n id ss = oc
  have loads := loadModule_loads ss n id
  rw [loaded] at loads
  cases loads with
  | unread read | unlinked read => exact ⟨rfl, kept read, reached, dst⟩
  | lost read rsd | linked read rsd => exact extends_ read rsd

theorem perform (filed : Filed pls rts ss) {opn : Operation} (files : ∀ srcs, opn ≠ .resolve srcs)
    (named : ∀ rt, opn.Names pls rt → rts rt) : Filed pls rts (opn.perform n ss) := by
  cases opn with
  | resolve srcs => exact absurd rfl (files srcs)
  | request cfg asked => exact filed.of_library ((Framed.request _).still ss)
  | load ph =>
    cases rt : ss.places.rootId ph with
    | error fa =>
      rw [Operation.perform, load_of_rootId_error rt]
      exact filed
    | ok id =>
      have same : (load n ph ss).2.library = (Session.loadModule n id ss).2.library := by
        rw [load_of_rootId_ok rt]
        exact library_bind (fun _ _ => rfl) ss
      rw [filed.unmoved] at rt
      have isId : IsId id := (rootId_ok_iff.1 rt).1 ▸ isId_absolute rooted ph
      exact (filed.loadModule rooted isId (named id (.load rt))).of_library same
  | add ln num =>
    have registered : (onConsole (·.register shellId ⟨some ln, num⟩)) ss = (.ok (),
        { ss with console := ss.console.register shellId ⟨some ln, num⟩ }) := rfl
    have clears : ∀ _ : Unit, Still (onConsole (·.clear shellId)) :=
      fun _ => (Framed.printing (.onConsole _)).still
    generalize started : ({ ss with
      console := ss.console.register shellId ⟨some ln, num⟩ } : Session) = opened
      at registered
    have begun : Filed pls rts opened := filed.of_library (started ▸ rfl)
    rw [Operation.perform, add, Action.bind_ok registered]
    cases pd : parseEntry ln with
    | error ft => exact begun.of_library (library_bind clears opened)
    | ok en =>
      cases en with
      | binds bn =>
        exact begun.of_library ((still_addBinding bn).bind clears opened)
      | expression t =>
        exact begun.of_library ((still_addExpression n t).bind clears opened)
      | imports stm =>
        cases located : opened.places.locate stm.source none with
        | error fa =>
          have lost : addImport n stm opened = (.error fa, opened) := by
            rw [addImport, Action.get_bind, located]
            rfl
          refine begun.of_library ((library_bind clears opened).trans ?_)
          rw [lost]
        | ok id =>
          have same : (addImport n stm opened).2.library =
              (Session.loadModule n id opened).2.library := by
            rw [addImport, Action.get_bind, located, Action.lift_ok_bind]
            exact library_bind (fun ex => still_importFrom ex stm) opened
          rw [begun.unmoved] at located
          have found := named id (.add pd located)
          exact (begun.loadModule rooted (isId_of_locate rooted located) found).of_library
            ((library_bind clears opened).trans same)

theorem afterAll (filed : Filed pls rts ss)
    (files : ∀ srcs, .resolve srcs ∉ ops) (named : ∀ opn ∈ ops, ∀ rt, opn.Names pls rt → rts rt) :
    Filed pls rts (ss.afterAll n ops) := by
  induction ops generalizing ss with
  | nil => exact filed
  | cons opn ops ih =>
    refine ih (filed.perform rooted ?_ (named opn List.mem_cons_self)) ?_ ?_
    · grind
    · simp_all
    grind

end

end Filed

/-- A file has one module, whatever is loaded and entered and however its path is written, as
long as no path starts with exactly two slashes.  If some do, a file has at most two modules,
whose ids differ in the second slash. -/
theorem one_module_per_file {op : SessionOptions} (rooted : isAbsolute op.places.working)
    (n : Nat) {ops : List Operation} (files : ∀ srcs, .resolve srcs ∉ ops) :
    let ms := ((start op).afterAll n ops).modules
    (ms.map Module.id).Nodup ∧
    (∀ fst ∈ ms, ∀ snd ∈ ms, ∀ tree : Tree, tree.SameFile fst.id snd.id →
      fst = snd ∨ Doubled fst.id ∧ fst.id = "/" ++ snd.id ∨
        Doubled snd.id ∧ snd.id = "/" ++ fst.id) ∧
    (op.places.Single →
      (∀ opn ∈ ops, ∀ ph ∈ opn.path?, ¬ Doubled ph) →
      ∀ fst ∈ ms, ∀ snd ∈ ms, ∀ tree : Tree, tree.SameFile fst.id snd.id → fst = snd) := by
  intro ms
  let rts := fun rt => ∃ opn ∈ ops, opn.Names op.places rt
  have begun : Filed op.places rts (start op) := by
    refine ⟨rfl, ?_, ?_, List.nodup_nil⟩
    · exact fun src mem => nomatch mem
    · exact fun lk mem => nomatch mem
  have filed : Filed op.places rts ((start op).afterAll n ops) :=
    begun.afterAll rooted files fun opn mem rt xs => ⟨opn, mem, xs⟩
  have isId : ∀ lk ∈ ms, IsId lk.id := by
    intro lk mem
    obtain ⟨rt, _, isRoot, reaches⟩ := filed.reached lk mem
    exact isId_of_reaches rooted isRoot reaches
  have general : ∀ fst ∈ ms, ∀ snd ∈ ms, ∀ tree : Tree,
      tree.SameFile fst.id snd.id → fst = snd ∨ Doubled fst.id ∧
        fst.id = "/" ++ snd.id ∨ Doubled snd.id ∧ snd.id = "/" ++ fst.id := by
    intro fst known snd listed tree same
    refine ((isId fst known).of_sameFile (isId snd listed) same).imp_left fun same => ?_
    exact List.inj_on_of_nodup_map filed.distinct known listed same
  refine ⟨filed.distinct, general, fun single plain fst known snd listed tree same => ?_⟩
  have undoubled : ∀ lk ∈ ms, ¬ Doubled lk.id := by
    intro lk mem
    obtain ⟨rt, ⟨opn, perf, xs⟩, _, reaches⟩ := filed.reached lk mem
    refine single.reaches rooted ?_ reaches
    have written := plain opn perf
    cases xs with
    | load named =>
      rw [← (rootId_ok_iff.1 named).1]
      intro doubled
      exact (doubled_of_absolute rooted doubled).elim (written _ rfl)
        (single.directories _ (by simp))
    | add pd located =>
      exact single.locate rooted located (written _ (by simp [Operation.path?, pd])) (by simp)
  grind

/-- A file that imports another one twice, the second time by the given path. -/
def respelled (ph : String) : Places :=
  .over [(["a.lc"], .holding "A = x => x; B = x => x;"),
    (["m.lc"], .holding ("use \x7b A \x7d from \"./a\"; use \x7b B \x7d from \"" ++ ph ++
      "\"; M = A B;"))]

def respelledSession (ph : String) : Session :=
  start ⟨respelled ph, none, false, false, false, false⟩

/-- The session after files were loaded whose order is known. -/
theorem afterAll_load {ss : Session} {ph rt : String} {n : Nat} {coll : Sources}
    (bare : ss.modules = []) (named : ss.places.rootId ph = .ok rt)
    (read : (collect ss.places n rt ⟨ss.sources, ss.console⟩).1.toOption = some coll)
    {order : Except LinkError (List String)} (ordered : dependencyOrder coll [] = order) :
    ss.afterAll n [.load ph] =
      (ss.outcome rt (collect ss.places n rt ⟨ss.sources, ss.console⟩).2
        (order >>= fun ids => linkInOrder coll ids [] [] ss.engine.store)).2 := by
  rw [afterAll, List.foldl_cons, List.foldl_nil, Operation.perform,
    load_ordered named bare read ordered]

/-- What is read of the two files. -/
def respelledSources (ph : String) : Sources :=
  (collect (respelled ph) 6 "/m.lc" ⟨[], (respelledSession ph).console⟩).1.toOption.getD []

/-- A file that is imported by two paths is still one module. -/
theorem shared_by_spellings : (respelled "././/a").Single ∧
    ((respelledSession "././/a").afterAll 6 [.load "m.lc"]).modules.map Module.id =
      ["/a.lc", "/m.lc"] ∧
    ∀ fst ∈ ((respelledSession "././/a").afterAll 6 [.load "m.lc"]).modules,
    ∀ snd ∈ ((respelledSession "././/a").afterAll 6 [.load "m.lc"]).modules,
      (respelled "././/a").tree.SameFile fst.id snd.id → fst = snd := by
  have single : (respelled "././/a").Single := ⟨by decide +kernel, by decide +kernel⟩
  have files : ∀ srcs, .resolve srcs ∉ [Operation.load "m.lc"] := by simp
  have named : (respelledSession "././/a").places.rootId "m.lc" = .ok "/m.lc" := by
    decide +kernel
  have ordered : dependencyOrder (respelledSources "././/a") [] = .ok ["/a.lc", "/m.lc"] :=
    dependencyOrder_of_within 9 (by decide +kernel)
  obtain ⟨_, _, shared⟩ := @one_module_per_file
    ⟨respelled "././/a", none, false, false, false, false⟩ (by decide +kernel) 6 _ files
  refine ⟨single, ?_, fun fst known snd listed =>
    shared single (by decide +kernel) fst known snd listed _⟩
  rw [afterAll_load rfl named (by decide +kernel) ordered]
  decide +kernel

/-- Two slashes at the start of a path make a second module of the file. -/
theorem doubled_by_slashes :
    ((respelledSession "//a").afterAll 6 [.load "m.lc"]).modules.map Module.id =
      ["/a.lc", "//a.lc", "/m.lc"] ∧
    (respelled "//a").tree.SameFile "/a.lc" "//a.lc" := by
  have named : (respelledSession "//a").places.rootId "m.lc" = .ok "/m.lc" := by decide +kernel
  have ordered : dependencyOrder (respelledSources "//a") [] =
      .ok ["/a.lc", "//a.lc", "/m.lc"] := dependencyOrder_of_within 9 (by decide +kernel)
  refine ⟨?_, ["a.lc"], _, _, by decide +kernel, by decide +kernel, rfl⟩
  rw [afterAll_load rfl named (by decide +kernel) ordered]
  decide +kernel

end Session

end CallByNeed
