import CallByNeed.Files.Discovery
import CallByNeed.Proofs.Paths
import CallByNeed.Proofs.Resolution

/-!
# What discovery collects

Over a tree that does not change, reading a file has one answer (`Places.source`),
whatever was read before.  So `collect` is a search of the graph in which a file
points to the files that its imports stand for.  The invariant of its worklist is
`Collected`.  What makes it end is that every file it collects is one of the finitely
many ids of the tree; the worklist itself grows and holds ids more than once.
-/

variable {src : ParsedModule} {ans : Except Failure Sources} {located : List Import}
  {imp : Option String} {enough : Nat}

namespace CallByNeed.Files

open Source Text

/-! ### The graph of files -/

/-- A file holds a module: its bytes are a text that can be parsed. -/
def Places.Holds (pls : Places) (file : String) (pd : ParsedModule) : Prop :=
  ∃ bytes chs, pls.tree.find pls.working file = some (.file bytes) ∧
    decode bytes = .ok chs ∧ parseModule (String.ofList (unifyLineEnds chs)) file file = .ok pd

/-- An import of a file stands for another file. -/
def Places.Imports (pls : Places) (file tg : String) : Prop :=
  ∃ pd, pls.Holds file pd ∧ ∃ stm ∈ pd.imports, pls.locate stm.source (some file) = .ok tg

/-- A file leads to another one through imports. -/
abbrev Places.Reaches (pls : Places) : String → String → Prop := Relation.ReflTransGen pls.Imports

/-- A file holds a module, and all of its imports can be located. -/
def Places.Readable (pls : Places) (file : String) : Prop :=
  ∃ pd, pls.Holds file pd ∧ ∀ stm ∈ pd.imports, ∃ tg, pls.locate stm.source (some file) = .ok tg

/-- The imports of a file as they are written, and with the ids of files. -/
def Places.Locates (pls : Places) (file : String) (written located : List Import) : Prop :=
  List.Forall₂ (fun stm r =>
    pls.locate stm.source (some file) = .ok r.source ∧
      r = { stm with source := r.source }) written located

/-- What reading a file gives when it was not read before. -/
def Places.source (pls : Places) (ph : String) : Except Failure ParsedModule := do
  let tx ← fileText pls ph
  match parseModule tx ph ph with
  | .error ft => .error (.parse ft)
  | .ok pd =>
    (resolveImports pls ph pd.imports).map fun ims => { pd with imports := ims }

variable {written : List Import} {sh : Shelf} {pls : Places} {ph : String}
  {fa : Failure} {n : Nat} {pending : List String} {α : Type}

section Source

theorem resolveImports_ok_iff :
    resolveImports pls ph written = .ok located ↔ pls.Locates ph written located := by
  induction written generalizing located with
  | nil =>
    rw [resolveImports, List.mapM_nil, Places.Locates, List.forall₂_nil_left_iff]
    exact ⟨fun same => (Except.ok.inj same).symm, fun same => same ▸ rfl⟩
  | cons stm written ih =>
    have unfolded : resolveImports pls ph (stm :: written) =
        ((pls.locate stm.source (some ph)).map fun src =>
          { stm with source := src }) >>= fun fst =>
        resolveImports pls ph written >>= fun rest => pure (fst :: rest) :=
      List.mapM_cons
    rw [unfolded, Places.Locates, List.forall₂_cons_left_iff]
    constructor
    · intro rsd
      obtain ⟨fst, one, rsd⟩ := ok_of_bind rsd
      obtain ⟨rest, os, same⟩ := ok_of_bind rsd
      cases found : pls.locate stm.source (some ph) with
      | error fa =>
        rw [found] at one
        cases one
      | ok tg =>
        rw [found] at one
        cases one
        cases same
        exact ⟨_, rest, ⟨rfl, rfl⟩, ih.mp os, rfl⟩
    · rintro ⟨fst, rest, ⟨found, shape⟩, os, rfl⟩
      rw [found, ih.mpr os, shape]
      rfl

theorem exists_locates_iff :
    (∃ located, pls.Locates ph written located) ↔
      ∀ stm ∈ written, ∃ tg, pls.locate stm.source (some ph) = .ok tg := by
  induction written with
  | nil => simp [Places.Locates]
  | cons stm written ih =>
    simp only [Places.Locates, List.forall₂_cons_left_iff, List.forall_mem_cons]
    rw [← ih]
    constructor
    · rintro ⟨_, fst, rest, ⟨found, _⟩, os, rfl⟩
      exact ⟨⟨_, found⟩, rest, os⟩
    · rintro ⟨⟨tg, found⟩, rest, os⟩
      exact ⟨_, { stm with source := tg }, rest, ⟨found, rfl⟩, os, rfl⟩

theorem Places.Locates.mem (locates : pls.Locates ph written located)
    {id : String} :
    id ∈ located.map Import.source ↔ ∃ stm ∈ written, pls.locate stm.source (some ph) = .ok id := by
  induction locates with
  | nil => simp
  | cons one _ ih => grind

theorem bytes_ok_iff {bytes : List UInt8} :
    pls.bytes ph = .ok bytes ↔ pls.tree.find pls.working ph = some (.file bytes) := by
  unfold Places.bytes
  by_cases null : ph.toList.contains '\x00' = true
  · simp_all [Tree.isFollowable, Tree.find]
  grind

theorem fileText_ok_iff {tx : String} :
    fileText pls ph = .ok tx ↔
      ∃ bytes chs, pls.tree.find pls.working ph = some (.file bytes) ∧
        decode bytes = .ok chs ∧ tx = String.ofList (unifyLineEnds chs) := by
  constructor
  · intro read
    obtain ⟨bytes, opened, read⟩ := ok_of_bind read
    grind [bytes_ok_iff]
  · rintro ⟨bytes, chs, found, decoded, rfl⟩
    rw [fileText, bytes_ok_iff.mpr found]
    simp [bind, Except.bind, decoded]

/-- Reading gives the module that a file holds, with its imports located. -/
theorem source_ok_iff :
    pls.source ph = .ok src ↔
      ∃ pd, pls.Holds ph pd ∧ ∃ located,
        pls.Locates ph pd.imports located ∧ src = { pd with imports := located } := by
  constructor
  · intro said
    obtain ⟨tx, read, said⟩ := ok_of_bind said
    obtain ⟨bytes, chs, found, decoded, rfl⟩ := fileText_ok_iff.mp read
    split at said
    · cases said
    · rename_i pd fits
      cases rsd : resolveImports pls ph pd.imports with
      | error fa =>
        rw [rsd] at said
        cases said
      | ok located =>
        rw [rsd] at said
        exact ⟨pd, ⟨bytes, chs, found, decoded, fits⟩, located,
          resolveImports_ok_iff.mp rsd, (Except.ok.inj said).symm⟩
  · rintro ⟨pd, ⟨bytes, chs, found, decoded, fits⟩, located, locates, rfl⟩
    have read := fileText_ok_iff.mpr ⟨bytes, chs, found, decoded, rfl⟩
    rw [Places.source, read]
    simp only [bind, Except.bind, fits, resolveImports_ok_iff.mpr locates]
    rfl

theorem Places.Holds.id {pd : ParsedModule} (holds : pls.Holds ph pd) : pd.id = ph := by
  obtain ⟨bytes, chs, _, _, fits⟩ := holds
  rw [parseModule] at fits
  cases stms : parseText statements (String.ofList (unifyLineEnds chs)) with
  | error ft =>
    rw [stms] at fits
    cases fits
  | ok pd =>
    rw [stms] at fits
    cases fits
    unfold firstNonempty
    split <;> rfl

theorem Places.Holds.unique {pd o : ParsedModule} (holds : pls.Holds ph pd)
    (again : pls.Holds ph o) : pd = o := by
  obtain ⟨bytes, chs, found, decoded, fits⟩ := holds
  obtain ⟨bytes', chars', found', decoded', fits'⟩ := again
  simp_all

theorem id_of_source (said : pls.source ph = .ok src) : src.id = ph := by
  obtain ⟨pd, holds, located, _, rfl⟩ := source_ok_iff.mp said
  exact holds.id

theorem source_isOk_iff : (∃ src, pls.source ph = .ok src) ↔ pls.Readable ph := by
  constructor
  · rintro ⟨src, said⟩
    obtain ⟨pd, holds, located, locates, _⟩ := source_ok_iff.mp said
    exact ⟨pd, holds, exists_locates_iff.mp ⟨located, locates⟩⟩
  · rintro ⟨pd, holds, all⟩
    obtain ⟨located, locates⟩ := exists_locates_iff.mpr all
    exact ⟨_, source_ok_iff.mpr ⟨pd, holds, located, locates, rfl⟩⟩

/-- The ids that a file imports once it is read are the files that it points to. -/
theorem mem_importedIds_of_source (said : pls.source ph = .ok src) {id : String} :
    id ∈ importedIds src ↔ pls.Imports ph id := by
  obtain ⟨pd, holds, located, locates, rfl⟩ := source_ok_iff.mp said
  rw [importedIds, locates.mem]
  constructor
  · intro stands
    exact ⟨pd, holds, stands⟩
  · rintro ⟨o, again, stands⟩
    exact holds.unique again ▸ stands

theorem find_of_source (said : pls.source ph = .ok src) :
    ∃ bytes, pls.tree.find pls.working ph = some (.file bytes) := by
  obtain ⟨_, ⟨bytes, _, found, _, _⟩, _⟩ := source_ok_iff.mp said
  simp_all

end Source

/-! ### Reading -/

/-- What was read is what the files say. -/
def Places.Said (pls : Places) (srcs : Sources) : Prop := ∀ src ∈ srcs, pls.source src.id = .ok src

/-- What was read of the files that a root reaches is what they say. -/
def Places.Unchanged (pls : Places) (root : String) (srcs : Sources) : Prop :=
  ∀ src ∈ srcs, pls.Reaches root src.id → pls.source src.id = .ok src

section Reading

variable {srcs : Sources} {root : String}

theorem Places.Said.unchanged (said : pls.Said srcs) (root : String) : pls.Unchanged root srcs :=
  fun src mem _ => said src mem

theorem Places.Unchanged.insert (unchanged : pls.Unchanged root srcs)
    (new : pls.source src.id = .ok src) : pls.Unchanged root (srcs.insert src) := by
  intro o mem reaches
  unfold Sources.insert at mem
  split at mem
  · obtain ⟨old, listed, rfl⟩ := List.mem_map.mp mem
    split at reaches
    · rw [if_pos ‹_›]
      exact new
    · rw [if_neg ‹_›]
      exact unchanged old listed reaches
  · rcases List.mem_append.mp mem with old | last
    · exact unchanged o old reaches
    · rw [List.mem_singleton.mp last]
      exact new

theorem Places.Said.insert (said : pls.Said srcs) (new : pls.source src.id = .ok src) :
    pls.Said (srcs.insert src) :=
  fun o mem => (said.unchanged o.id).insert new o mem .refl

theorem Places.Unchanged.of_find (unchanged : pls.Unchanged root srcs)
    (reaches : pls.Reaches root ph) (found : srcs.find ph = some src) :
    pls.source ph = .ok src := by
  have same : src.id = ph := by simpa using List.find?_some found
  exact same ▸ unchanged src (List.mem_of_find?_eq_some found) (same.symm ▸ reaches)

/-- A new file is read as it is, and kept when that succeeds. -/
theorem readNew_spec (pls : Places) (ph : String) (sh : Shelf) :
    ∃ aft, readNew pls ph sh = (pls.source ph, aft) ∧
      ((∃ src, pls.source ph = .ok src ∧
          aft.sources = sh.sources.insert src) ∨ aft.sources = sh.sources) := by
  let cleared : Shelf := { sh with console := sh.console.clear ph }
  have fst : onConsole (·.clear ph) sh = (.ok (), cleared) := rfl
  rw [readNew, Places.source, Action.bind_ok fst]
  cases read : fileText pls ph with
  | error fa =>
    rw [Action.lift_error_bind]
    exact ⟨cleared, rfl, .inr rfl⟩
  | ok tx =>
    rw [Action.lift_ok_bind]
    simp only [bind, Except.bind]
    cases fits : parseModule tx ph ph with
    | error ft => exact ⟨_, rfl, .inr rfl⟩
    | ok pd =>
      dsimp only
      cases rsd : resolveImports pls ph pd.imports with
      | error fa => exact ⟨_, rfl, .inr rfl⟩
      | ok located => exact ⟨_, rfl, .inl ⟨_, rfl, rfl⟩⟩

/-- Reading a module that a root reaches has one answer, whatever was read before. -/
theorem readModule_unchanged (unchanged : pls.Unchanged root sh.sources)
    (reaches : pls.Reaches root ph) :
    ∃ aft, readModule pls ph sh = (pls.source ph, aft) ∧
      ∀ o, pls.Unchanged o sh.sources → pls.Unchanged o aft.sources := by
  rw [readModule, Action.get_bind]
  cases found : sh.sources.find ph with
  | some src =>
    rw [unchanged.of_find reaches found]
    exact ⟨sh, rfl, fun _ => id⟩
  | none =>
    obtain ⟨aft, read, kept⟩ := readNew_spec pls ph sh
    refine ⟨aft, read, fun o unchanged => ?_⟩
    rcases kept with ⟨src, new, added⟩ | same
    · rw [added]
      apply unchanged.insert
      rw [id_of_source new, new]
    · rw [same]
      exact unchanged

theorem readModule_spec (said : pls.Said sh.sources) (ph : String) :
    ∃ aft, readModule pls ph sh = (pls.source ph, aft) ∧ pls.Said aft.sources := by
  obtain ⟨aft, read, kept⟩ := readModule_unchanged (said.unchanged ph) .refl
  exact ⟨aft, read, fun o mem => kept o.id (said.unchanged o.id) o mem .refl⟩

theorem readModule_said (ph : String) (said : pls.Said sh.sources) :
    pls.Said (readModule pls ph sh).2.sources := by
  obtain ⟨aft, read, kept⟩ := readModule_spec said ph
  rw [read]
  exact kept

end Reading

/-! ### What reading raises -/

/-- The failures of finding and reading files. -/
inductive OfReading : Failure → Prop
  | load (ph : String) (reason : LoadReason) : OfReading (.load ph reason)
  | parse (ft : ParseFault) : OfReading (.parse ft)
  | undecodable (ft : Utf8Fault) : OfReading (.undecodable ft)

theorem ofReading_of_locate (lost : pls.locate ph imp = .error fa) :
    OfReading fa := by
  unfold Places.locate at lost
  dsimp only at lost
  split at lost
  · cases lost
  · cases lost
    exact .load _ _

theorem ofReading_of_rootId (lost : pls.rootId ph = .error fa) : OfReading fa := by
  unfold Places.rootId at lost
  dsimp only at lost
  split at lost
  · cases lost
  · cases lost
    exact .load _ _

theorem ofReading_of_resolveImports (lost : resolveImports pls ph written = .error fa) :
    OfReading fa := by
  induction written with
  | nil => cases lost
  | cons stm written ih =>
    rw [resolveImports, List.mapM_cons] at lost
    cases found : pls.locate stm.source (some ph) with
    | error o =>
      rw [found] at lost
      cases lost
      exact ofReading_of_locate found
    | ok tg =>
      rw [found] at lost
      cases os : resolveImports pls ph written with
      | error o =>
        have same : o = fa := by
          rw [resolveImports] at os
          simp only [os] at lost
          exact Except.error.inj lost
        simp_all
      | ok located =>
        rw [resolveImports] at os
        simp only [os] at lost
        cases lost

/-- Reading raises no other failure, on a path that a tree can have. -/
theorem ofReading_of_source (failed : pls.source ph = .error fa) :
    OfReading fa ∨ fa = .nullInPath ∧ '\x00' ∈ ph.toList := by
  rw [Places.source] at failed
  cases read : fileText pls ph with
  | error o =>
    rw [read] at failed
    cases failed
    rw [fileText] at read
    cases opened : pls.bytes ph with
    | error o =>
      rw [opened] at read
      cases read
      unfold Places.bytes at opened
      split at opened
      · simp_all
      · split at opened
        · cases opened
        · cases opened
          exact .inl (.load _ _)
    | ok bytes =>
      rw [opened] at read
      simp only [bind, Except.bind] at read
      split at read
      · cases read
      · cases read
        exact .inl (.undecodable _)
  | ok tx =>
    rw [read] at failed
    simp only [bind, Except.bind] at failed
    split at failed
    · cases failed
      exact .inl (.parse _)
    · rename_i pd _
      cases rsd : resolveImports pls ph pd.imports with
      | error o =>
        rw [rsd] at failed
        cases failed
        exact .inl (ofReading_of_resolveImports rsd)
      | ok located =>
        rw [rsd] at failed
        cases failed

/-! ### The worklist -/

/-- What is collected from a root, and what is pending.  All of it is reached, and
what a collected module imports is collected or pending. -/
structure Collected (pls : Places) (rt : String) (pending : List String)
    (coll : Sources) : Prop where
  said : pls.Said coll
  distinct : coll.ids.Nodup
  reached : ∀ id, id ∈ coll.ids ∨ id ∈ pending → pls.Reaches rt id
  started : rt ∈ coll.ids ∨ rt ∈ pending
  closed : ∀ src ∈ coll, ∀ id ∈ importedIds src, id ∈ coll.ids ∨ id ∈ pending

namespace Collected

variable {rt id : String} {coll : Sources}

theorem start : Collected pls rt [rt] [] where
  said := by
    intro src mem
    cases mem
  distinct := List.nodup_nil
  reached := by
    intro id mem
    rcases mem with impossible | same
    · cases impossible
    grind
  started := .inr List.mem_cons_self
  closed := by simp

theorem skip (inv : Collected pls rt (id :: pending) coll) (known : id ∈ coll.ids) :
    Collected pls rt pending coll := by
  have less : ∀ o, o ∈ coll.ids ∨ o ∈ id :: pending → o ∈ coll.ids ∨ o ∈ pending := by grind
  exact {
    said := inv.said
    distinct := inv.distinct
    reached := fun o mem =>
      inv.reached o (mem.imp_right (List.mem_cons_of_mem _))
    started := less rt inv.started
    closed := fun src mem o impd =>
      less o (inv.closed src mem o impd) }

theorem ids_insert (new : src.id ∉ coll.ids) : (coll.insert src).ids = coll.ids ++ [src.id] := by
  grind [Sources.insert, Sources.ids]

theorem read (inv : Collected pls rt (id :: pending) coll) (new : id ∉ coll.ids)
    (said : pls.source id = .ok src) :
    Collected pls rt ((importedIds src).reverse ++ pending) (coll.insert src) := by
  have named := id_of_source said
  have listed : (coll.insert src).ids = coll.ids ++ [id] := by
    rw [ids_insert (named ▸ new), named]
  have rootReaches := inv.reached id (.inr List.mem_cons_self)
  have more : ∀ o, o ∈ coll.ids ∨ o ∈ id :: pending →
      o ∈ (coll.insert src).ids ∨ o ∈ (importedIds src).reverse ++ pending := by grind
  constructor
  case said => exact inv.said.insert (named.symm ▸ said)
  case distinct =>
    rw [listed, List.nodup_append]
    refine ⟨inv.distinct, List.nodup_singleton id, ?_⟩
    intro old mem o same
    rw [List.mem_singleton.mp same]
    exact fun repeated => new (repeated ▸ mem)
  case reached =>
    intro o mem
    rw [listed, List.mem_append, List.mem_append, List.mem_singleton] at mem
    rcases mem with (old | rfl) | (impd | later)
    · exact inv.reached o (.inl old)
    · exact rootReaches
    · grind [mem_importedIds_of_source]
    · exact inv.reached o (.inr (List.mem_cons_of_mem _ later))
  case started => exact more rt inv.started
  grind [closed, Sources.insert]

/-- When nothing is pending, what is collected is what the root reaches. -/
theorem mem_ids_iff (inv : Collected pls rt [] coll) {file : String} :
    file ∈ coll.ids ↔ pls.Reaches rt file := by
  constructor
  · intro mem
    exact inv.reached file (.inl mem)
  · intro reaches
    induction reaches with
    | refl => exact inv.started.resolve_right List.not_mem_nil
    | tail _ ims ih =>
      obtain ⟨src, listed, named⟩ := List.mem_map.mp ih
      have said := inv.said src listed
      rw [named] at said
      have impd := (mem_importedIds_of_source said).mpr ims
      exact (inv.closed src listed _ impd).resolve_right List.not_mem_nil

end Collected

/-- The answers of a search from a root: a set that is closed under imports, or the failure
of a file that the root reaches. -/
inductive Discovered (pls : Places) (rt : String) : Except Failure Sources → Prop
  | found {coll : Sources} (closed : Collected pls rt [] coll) : Discovered pls rt (.ok coll)
  | failed {file : String} {fa : Failure} (reaches : pls.Reaches rt file)
      (failed : pls.source file = .error fa) :
      Discovered pls rt (.error fa)

theorem Discovered.collected (disc : Discovered pls rt (.ok coll)) :
    Collected pls rt [] coll := by
  cases disc with
  | found closed => exact closed

section Search

variable {rt id : String} {coll : Sources} {ans : Except Failure α}
  {run : Nat → Except Failure α}

theorem collectPending_known (known : id ∈ coll.ids) :
    collectPending pls (n + 1) (id :: pending) coll = collectPending pls n pending coll := by
  rw [collectPending, if_pos (by simpa using known)]

theorem collectPending_new (new : id ∉ coll.ids) :
    collectPending pls (n + 1) (id :: pending) coll = readModule pls id >>= fun src =>
        collectPending pls n ((importedIds src).reverse ++ pending) (coll.insert src) := by
  rw [collectPending, if_neg (by simpa using new)]

/-- Collecting keeps no more than what the files say, however it ends. -/
theorem collectPending_said (n : Nat) (pending : List String) (coll : Sources)
    (said : pls.Said sh.sources) : pls.Said (collectPending pls n pending coll sh).2.sources := by
  induction n generalizing pending coll sh with
  | zero =>
    cases pending with
    | nil => exact said
    | cons id pending => exact said
  | succ n ih =>
    cases pending with
    | nil => exact said
    | cons id pending =>
      by_cases known : id ∈ coll.ids
      · rw [collectPending_known known]
        exact ih _ _ said
      · obtain ⟨aft, read, kept⟩ := readModule_spec said id
        rw [collectPending_new known]
        cases ans : pls.source id with
        | error fa => grind [Action.bind_error]
        | ok src => grind [Action.bind_ok]

/-- The ids of a tree that are not collected yet. -/
def uncollected (pls : Places) (coll : Sources) : Nat :=
  pls.tree.ids.countP fun id => !coll.ids.contains id

theorem uncollected_insert (isId : IsId id) (new : id ∉ coll.ids) (said : pls.source id = .ok src) :
    uncollected pls (coll.insert src) < uncollected pls coll := by
  obtain ⟨bytes, found⟩ := find_of_source said
  have named := id_of_source said
  have listed : (coll.insert src).ids = coll.ids ++ [id] := by
    rw [Collected.ids_insert (named ▸ new), named]
  refine countP_lt_countP ?_ (Tree.mem_ids_of_find isId found) ?_ ?_
  · simp_all
  · simpa using new
  · simp [listed]

theorem isId_of_locate (rooted : isAbsolute pls.working) {tg : String}
    (found : pls.locate ph imp = .ok tg) : IsId tg := by
  unfold Places.locate at found
  dsimp only at found
  split at found
  · rw [← Except.ok.inj found]
    exact isId_absolute rooted _
  · cases found

theorem isId_of_reaches (rooted : isAbsolute pls.working) (isId : IsId rt)
    (reaches : pls.Reaches rt file) : IsId file := by
  induction reaches with
  | refl => exact isId
  | tail _ ims _ =>
    obtain ⟨_, _, _, _, found⟩ := ims
    exact isId_of_locate rooted found

/-- Enough fuel gives an answer, and less fuel gives the same answer or is used up. -/
def EndsWithin {α : Type} (enough : Nat) (ans : Except Failure α)
    (run : Nat → Except Failure α) : Prop :=
  ∀ n, run n = ans ∨ n < enough ∧ run n = .error .outOfFuel

theorem endsWithin_of_eq (same : ∀ n, run n = ans) : EndsWithin 0 ans run := fun n => .inl (same n)

theorem EndsWithin.step {next : Nat → Except Failure α}
    (ending : EndsWithin enough ans next) (empty : run 0 = .error .outOfFuel)
    (sts : ∀ n, run (n + 1) = next n) : EndsWithin (enough + 1) ans run := by
  intro n
  cases n with
  | zero => exact .inr ⟨Nat.succ_pos _, empty⟩
  | succ n =>
    rw [sts]
    rcases ending n with ended | ⟨less, exh⟩
    · exact .inl ended
    simp_all

theorem EndsWithin.answer (ends : EndsWithin enough ans run)
    (ended : run n ≠ .error .outOfFuel) : run n = ans := by
  rcases ends n with same | ⟨_, exh⟩
  · exact same
  simp_all

/-- The search ends, with one answer for all that may have been read before of the files that
the root reaches.  Each step collects a file of the tree or shortens the worklist. -/
theorem collectPending_endsWithin (rooted : isAbsolute pls.working) (isId : IsId rt)
    (inv : Collected pls rt pending coll) :
    ∃ enough ans, Discovered pls rt ans ∧ ∀ sh : Shelf, pls.Unchanged rt sh.sources →
      EndsWithin enough ans fun n => (collectPending pls n pending coll sh).1 := by
  induction measured : uncollected pls coll using Nat.strong_induction_on
    generalizing pending coll with
  | h k shorter =>
    induction pending with
    | nil =>
      refine ⟨0, .ok coll, .found inv, fun sh _ => endsWithin_of_eq fun n => ?_⟩
      cases n with
      | zero => rfl
      | succ n => rfl
    | cons id pending ih =>
      by_cases known : id ∈ coll.ids
      · obtain ⟨enough, ans, disc, ends⟩ := ih (inv.skip known)
        refine ⟨enough + 1, ans, disc, fun sh unchanged => ?_⟩
        refine (ends sh unchanged).step rfl fun n => ?_
        rw [collectPending_known known]
      · have reaches := inv.reached id (.inr List.mem_cons_self)
        cases read : pls.source id with
        | error fa =>
          refine ⟨0 + 1, .error fa, .failed reaches read, fun sh unchanged => ?_⟩
          obtain ⟨aft, answered, _⟩ := readModule_unchanged unchanged reaches
          rw [read] at answered
          refine EndsWithin.step (endsWithin_of_eq fun _ => rfl) rfl fun n => ?_
          rw [collectPending_new known, Action.bind_error answered]
        | ok src =>
          have fewer : uncollected pls (coll.insert src) < k :=
            measured ▸ uncollected_insert (isId_of_reaches rooted isId reaches) known read
          obtain ⟨enough, ans, disc, ends⟩ := shorter _ fewer (inv.read known read) rfl
          refine ⟨enough + 1, ans, disc, fun sh unchanged => ?_⟩
          obtain ⟨aft, answered, kept⟩ := readModule_unchanged unchanged reaches
          rw [read] at answered
          refine (ends aft (kept rt unchanged)).step rfl fun n => ?_
          rw [collectPending_new known, Action.bind_ok answered]

theorem rootId_ok_iff :
    pls.rootId ph = .ok rt ↔ absolute pls.working ph = rt ∧ pls.tree.isFile pls.working rt := by
  unfold Places.rootId
  grind

/-- `collect` ends, with one answer for all that may have been read before. -/
theorem collect_endsWithin (rooted : isAbsolute pls.working) (ph : String) :
    ∃ enough ans,
      (∀ sh : Shelf, pls.Unchanged (absolute pls.working ph) sh.sources →
        EndsWithin enough ans fun n => (collect pls n ph sh).1) ∧
      ((∃ rt, pls.rootId ph = .ok rt ∧ Discovered pls rt ans) ∨
        ∃ fa, pls.rootId ph = .error fa ∧ ans = .error fa) := by
  cases named : pls.rootId ph with
  | error fa =>
    refine ⟨0, .error fa, fun sh _ => endsWithin_of_eq fun n => ?_, .inr ⟨fa, rfl, rfl⟩⟩
    rw [collect, named, Action.lift_error_bind]
  | ok rt =>
    obtain ⟨rfl, _⟩ := rootId_ok_iff.mp named
    have isId := isId_absolute rooted ph
    obtain ⟨enough, ans, disc, ends⟩ := collectPending_endsWithin rooted isId .start
    refine ⟨enough, ans, fun sh unchanged => ?_, .inl ⟨_, rfl, disc⟩⟩
    simp only [collect, named, Action.lift_ok_bind]
    exact ends sh unchanged

theorem collect_discovered (rooted : isAbsolute pls.working) (isId : IsId rt)
    (isFile : pls.tree.isFile pls.working rt) :
    ∃ enough ans, Discovered pls rt ans ∧ ∀ sh : Shelf, pls.Unchanged rt sh.sources →
      EndsWithin enough ans fun n => (collect pls n rt sh).1 := by
  have same := isId.absolute pls.working
  have named : pls.rootId rt = .ok rt := rootId_ok_iff.mpr ⟨same, isFile⟩
  obtain ⟨enough, ans, ends, oc⟩ := collect_endsWithin rooted rt
  rw [same] at ends
  refine ⟨enough, ans, ?_, ends⟩
  rcases oc with ⟨root, there, disc⟩ | ⟨fa, lost, _⟩
  · cases named.symm.trans there
    exact disc
  · cases named.symm.trans lost

theorem collect_said (n : Nat) (ph : String) (said : pls.Said sh.sources) :
    pls.Said (collect pls n ph sh).2.sources := by
  cases named : pls.rootId ph with
  | error fa =>
    rw [collect, named, Action.lift_error_bind]
    exact said
  | ok rt =>
    rw [collect, named, Action.lift_ok_bind]
    exact collectPending_said n [rt] [] said

theorem Collected.resolve_ne_notLoaded (inv : Collected pls rt [] coll) (ms : Modules) (s : Store)
    (missing imp : String) : resolve coll ms s ≠ .error (.notLoaded missing imp) := by
  intro failed
  rcases aboutNames_or_genuine failed with xs | ⟨ims, absent, unlinked⟩
  · exact xs
  · obtain ⟨_, src, found, impd⟩ := ims
    have listed := (List.mem_filter.mp (List.mem_of_find?_eq_some found)).1
    have known := (inv.closed src listed missing impd).resolve_right List.not_mem_nil
    obtain ⟨tg, mem, rfl⟩ := List.mem_map.mp known
    apply absent
    refine List.mem_map.mpr ⟨tg, List.mem_filter.mpr ⟨mem, ?_⟩, rfl⟩
    rw [Modules.contains, Modules.find_eq_none.mpr unlinked]
    rfl

end Search

/-! ### Earlier reads -/

/-- The modules that can have been read from a tree: by reading single files and by
collecting, in any order, whether that succeeded or not. -/
inductive Places.Past (pls : Places) : Sources → Prop
  | start : Past pls []
  | read {srcs : Sources} (ph : String) (cs : Console) (past : Past pls srcs) :
      Past pls (readModule pls ph ⟨srcs, cs⟩).2.sources
  | collect {srcs : Sources} (n : Nat) (ph : String) (cs : Console) (past : Past pls srcs) :
      Past pls (Files.collect pls n ph ⟨srcs, cs⟩).2.sources

theorem Places.Past.said (past : pls.Past srcs) : pls.Said srcs := by
  induction past with
  | start =>
    intro src mem
    cases mem
  | read ph cs _ ih => exact readModule_said ph ih
  | collect n ph cs _ ih => exact collect_said n ph ih

/-! ### The files that a root reaches -/

/-- What is collected from a root: the files that it reaches, each once and under its id,
with the module that it holds and with the ids of what it imports. -/
structure Places.Collection (pls : Places) (rt : String) (coll : Sources) : Prop where
  distinct : coll.ids.Nodup
  exact : ∀ file, file ∈ coll.ids ↔ pls.Reaches rt file
  files : ∀ id ∈ coll.ids, IsId id ∧ pls.tree.isFile pls.working id
  modules : ∀ src ∈ coll, ∃ pd, pls.Holds src.id pd ∧
    ∃ located, pls.Locates src.id pd.imports located ∧
      src = { pd with imports := located }
  imports : ∀ src ∈ coll, ∀ id ∈ importedIds src, id ∈ coll.ids

section Exactness

variable {rt : String} {coll : Sources}

theorem Collected.collection (rooted : isAbsolute pls.working) (isId : IsId rt)
    (inv : Collected pls rt [] coll) : pls.Collection rt coll where
  distinct := inv.distinct
  exact := fun _ => inv.mem_ids_iff
  files := by
    intro id mem
    obtain ⟨src, listed, rfl⟩ := List.mem_map.mp mem
    obtain ⟨bytes, found⟩ := find_of_source (inv.said src listed)
    refine ⟨isId_of_reaches rooted isId (inv.mem_ids_iff.mp mem), ?_⟩
    rw [Tree.isFile, found]
  modules := fun src listed => source_ok_iff.mp (inv.said src listed)
  imports := fun src listed id impd =>
    (inv.closed src listed id impd).resolve_right List.not_mem_nil

/-- A collection holds the modules of the files that the root reaches, and no others. -/
theorem Places.Collection.mem_iff (collection : pls.Collection rt coll) :
    src ∈ coll ↔ pls.Reaches rt src.id ∧ pls.source src.id = .ok src := by
  constructor
  · intro mem
    exact ⟨(collection.exact src.id).mp (List.mem_map_of_mem mem),
      source_ok_iff.mpr (collection.modules src mem)⟩
  · rintro ⟨reaches, said⟩
    obtain ⟨o, mem, same⟩ := List.mem_map.mp ((collection.exact src.id).mpr reaches)
    have again := source_ok_iff.mpr (collection.modules o mem)
    simp_all

theorem Places.Collection.perm {o : Sources} (collection : pls.Collection rt coll)
    (another : pls.Collection rt o) : o.Perm coll := by
  rw [List.perm_ext_iff_of_nodup another.distinct.of_map collection.distinct.of_map]
  intro src
  rw [another.mem_iff, collection.mem_iff]

/-- A search succeeds when every file that the root reaches is readable. -/
theorem Discovered.isOk_iff (disc : Discovered pls rt ans) :
    (∃ coll, ans = .ok coll) ↔ ∀ file, pls.Reaches rt file → pls.Readable file := by
  cases disc with
  | found closed =>
    refine ⟨fun _ file reaches => ?_, fun _ => ⟨_, rfl⟩⟩
    obtain ⟨src, listed, rfl⟩ := List.mem_map.mp (closed.mem_ids_iff.mpr reaches)
    exact source_isOk_iff.mp ⟨src, closed.said src listed⟩
  | failed reaches failed => grind [source_isOk_iff]

theorem Discovered.ne_outOfFuel (disc : Discovered pls rt ans) :
    ans ≠ .error .outOfFuel := by
  cases disc with
  | found => simp
  | failed _ failed =>
    rintro ⟨rfl⟩
    rcases ofReading_of_source failed with reading | ⟨o, _⟩
    · cases reading
    · cases o

theorem rootId_isOk_iff :
    (∃ rt, pls.rootId ph = .ok rt) ↔
      pls.tree.isFile pls.working (absolute pls.working ph) := by simp [rootId_ok_iff]

end Exactness

/-- Discovery collects exactly the reachable files.  Over a tree that does not change it
ends, with one answer whatever was read before.  It succeeds if and only if the root is a
file and every file that the root reaches is readable.  What it collects can then be linked
without missing a module. -/
theorem collect_reachable {pls : Places} (rooted : isAbsolute pls.working) (ph : String) :
    ∃ enough ans, ans ≠ .error .outOfFuel ∧
      (∀ srcs, pls.Past srcs → ∀ cs,
        EndsWithin enough ans fun n => (collect pls n ph ⟨srcs, cs⟩).1) ∧
      ((∃ coll, ans = .ok coll) ↔
        pls.tree.isFile pls.working (absolute pls.working ph) ∧
          ∀ file, pls.Reaches (absolute pls.working ph) file → pls.Readable file) ∧
      ∀ coll, ans = .ok coll →
        pls.Collection (absolute pls.working ph) coll ∧
          ∀ ms s,
            (∀ missing imp, resolve coll ms s ≠ .error (.notLoaded missing imp)) ∧
            ∀ id, resolve coll ms s ≠ .error (.notLinked id) := by
  obtain ⟨enough, ans, ending, oc⟩ := collect_endsWithin rooted ph
  have ends : ∀ srcs, pls.Past srcs → ∀ cs,
      EndsWithin enough ans fun n => (collect pls n ph ⟨srcs, cs⟩).1 :=
    fun srcs past cs => ending ⟨srcs, cs⟩ (past.said.unchanged _)
  rcases oc with ⟨rt, named, disc⟩ | ⟨fa, lost, rfl⟩
  · obtain ⟨rfl, isFile⟩ := rootId_ok_iff.mp named
    refine ⟨enough, ans, disc.ne_outOfFuel, ends, ?_, ?_⟩
    · rw [disc.isOk_iff]
      simp_all
    · rintro coll rfl
      have closed := disc.collected
      exact ⟨closed.collection rooted (isId_absolute rooted ph), fun ms s =>
        ⟨closed.resolve_ne_notLoaded ms s, resolve_findsModules⟩⟩
  · have noFile : ¬ pls.tree.isFile pls.working (absolute pls.working ph) := by
      grind [rootId_isOk_iff]
    refine ⟨enough, .error fa, ?_, ends, ?_, ?_⟩
    · intro same
      cases same
      cases ofReading_of_rootId lost
    · simp_all
    simp

/-- A file with a text of ASCII characters. -/
def Entry.holding (text : String) : Entry := .file (text.toList.map fun char => char.toNat.toUInt8)

/-- Some files at the root, which is the working directory. -/
def Places.over (tree : Tree) : Places := ⟨tree, "/library", "/", []⟩

/-- Two files that import each other. -/
def ring : Places :=
  .over [(["a.lc"], .holding "use \x7b B \x7d from \"./b\"; A = B;"),
    (["b.lc"], .holding "use \x7b A \x7d from \"./a\"; B = A;")]

theorem collect_ring :
    isAbsolute ring.working ∧ ∃ enough coll,
      (∀ srcs, ring.Past srcs → ∀ cs, EndsWithin enough (.ok coll) fun n =>
        (collect ring n "a.lc" ⟨srcs, cs⟩).1) ∧
      coll.ids = ["/a.lc", "/b.lc"] ∧ ring.Reaches "/a.lc" "/b.lc" := by
  have rooted : isAbsolute ring.working := by decide
  have named : absolute ring.working "a.lc" = "/a.lc" := by decide +kernel
  have evd : (collect ring 4 "a.lc" ⟨[], .fresh false false false⟩).1.toOption.map
      Sources.ids = some ["/a.lc", "/b.lc"] := by decide +kernel
  obtain ⟨enough, ans, _, ends, _, collection⟩ := collect_reachable rooted "a.lc"
  have ended : (collect ring 4 "a.lc" ⟨[], .fresh false false false⟩).1 = ans := by
    refine (ends [] .start (.fresh false false false)).answer fun exh => ?_
    rw [exh] at evd
    cases evd
  rw [ended] at evd
  cases ans with
  | error fa => cases evd
  | ok coll =>
    have ids : coll.ids = ["/a.lc", "/b.lc"] := Option.some.inj evd
    obtain ⟨found, _⟩ := collection coll rfl
    rw [named] at found
    refine ⟨rooted, enough, coll, ends, ids, (found.exact "/b.lc").mp ?_⟩
    simp_all

end CallByNeed.Files
